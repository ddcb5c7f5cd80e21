import Ferryx.Spawn
import Ferryx.Theorems.OperationTable

/-! A request runs only if it finds the operation reserved, which it stays until that request completes it. So an operation
runs at most once if no request decides while another one runs (`alone`). Two requests that both decide first both run. -/

namespace Ferryx
open Std Fxsh Lib Function SpawnPhase OperationTable HostInner

namespace SpawnPhase

def asks : SpawnPhase → Option OperationId
  | .deciding r => some r.op
  | _ => none

def running : SpawnPhase → Option OperationId
  | .checking r | .starting r | .completing r _ => some r.op
  | _ => none

def ran : SpawnPhase → Option (SpawnRequest × SpawnOutcome)
  | .answered r (.executed o) => some (r, o)
  | _ => none

/-- The sections under the lock that a request still has before its answer, at most. -/
def remaining : SpawnPhase → Nat
  | .deciding _ => 4
  | .checking _ => 3
  | .starting _ => 2
  | .completing .. => 1
  | .idle | .answered .. => 0

theorem ran_eq_some {p : SpawnPhase} {r : SpawnRequest} {o : SpawnOutcome} : p.ran = some (r, o) ↔
    p = .answered r (.executed o) := by
  unfold ran
  split <;> simp_all

end SpawnPhase

namespace SpawnHost

section Handlers
variable {ι : Type} [DecidableEq ι] [RequestHasher] {w w' : SpawnHost ι} {r : SpawnRequest} {i : ι}

/-- Each operation is executed by one handler at most, and what is stored is what it gave. -/
structure Once (w : SpawnHost ι) : Prop where
  issued : ∀ {k e}, w.inner.ops.entries[k]? = some e → k ≤ w.inner.ops.maxIssued
  running : ∀ {i op}, (w.phase i).running = some op → op.hostInstanceId = w.inner.ops.host ∧
    ∃ at', w.inner.ops.entries[op.opSeq.toNat]? = some (.spawn, .reserved at')
  single : ∀ {i j op}, (w.phase i).running = some op → (w.phase j).running = some op → i = j
  ran : ∀ {i r o}, (w.phase i).ran = some (r, o) → r.op.hostInstanceId = w.inner.ops.host ∧
    ∃ nowMs, w.inner.ops.entries[r.op.opSeq.toNat]? = some (.spawn, .completed r.hash (o.stored r).bytes o.session nowMs)
  ranSingle : ∀ {i j r r' o o'}, (w.phase i).ran = some (r, o) → (w.phase j).ran = some (r', o') → r.op = r'.op → i = j
  recorded : ∀ {k hash result s d}, w.inner.ops.entries[k]? = some (.spawn, .completed hash result s d) →
    ∃ i r o, (w.phase i).ran = some (r, o) ∧ r.op.opSeq.toNat = k ∧ result = (o.stored r).bytes
  replayed : ∀ {i r stored}, w.phase i = .answered r (.replayed stored) →
    ∃ j r' o, (w.phase j).ran = some (r', o) ∧ r'.op = r.op ∧ stored = (o.stored r').bytes
  rejected : ∀ {i r d}, w.phase i = .answered r (.rejected d) →
    d = .operationUnknown r.op ∨ d = .operationExpired r.op ∨ d = .operationConflict r.op
  nodup : (w.created.map Prod.fst).Nodup
  created : ∀ {op}, op ∈ w.created.map Prod.fst →
    (∃ i r o, w.phase i = .completing r (.ok o) ∧ r.op = op) ∨ ∃ i r o, (w.phase i).ran = some (r, o) ∧ r.op = op

omit [DecidableEq ι] in
theorem Once.reserve (h : Once w) (kind : OperationKind) (nowMs : Nat) :
    Once { w with inner.ops := (w.inner.ops.reserve kind nowMs).1 } := by
  have hentry : ∀ {k : Nat} {e}, w.inner.ops.entries[k]? = some e → (w.inner.ops.reserve kind nowMs).1.entries[k]? =
      some e := by
    intro k e hk
    have hle := h.issued hk
    simp only [OperationTable.reserve, ExtTreeMap.getElem?_insert]
    grind
  have hback : ∀ {k : Nat} {e}, (w.inner.ops.reserve kind nowMs).1.entries[k]? = some e →
      k = w.inner.ops.maxIssued + 1 ∧ e = (kind, .reserved nowMs) ∨ w.inner.ops.entries[k]? = some e := by
    intro k e hk
    simp only [OperationTable.reserve, ExtTreeMap.getElem?_insert] at hk
    grind
  constructor
  case issued =>
    intro k e hk
    rcases hback hk with ⟨rfl, -⟩ | hk
    · exact le_rfl
    · exact (h.issued hk).trans (Nat.le_succ _)
  case running =>
    intro i op hi
    obtain ⟨hhost, at', he⟩ := h.running hi
    exact ⟨hhost, at', hentry he⟩
  case ran =>
    intro i r o hi
    obtain ⟨hhost, now', he⟩ := h.ran hi
    exact ⟨hhost, now', hentry he⟩
  case recorded =>
    intro k hash result s d hk
    rcases hback hk with ⟨-, he⟩ | hk
    · simp at he
    · exact h.recorded hk
  case single => exact h.single
  case ranSingle => exact h.ranSingle
  case replayed => exact h.replayed
  case rejected => exact h.rejected
  case nodup => exact h.nodup
  case created => exact h.created

theorem Once.setPhase (h : Once w) {p : SpawnPhase} (hran : (w.phase i).ran = none) (hran' : p.ran = none)
    (hkeep : ∀ {r o}, w.phase i ≠ .completing r (.ok o))
    (hrunning : ∀ {op}, p.running = some op → (w.phase i).running = some op ∨ op.hostInstanceId = w.inner.ops.host ∧
      (∃ at', w.inner.ops.entries[op.opSeq.toNat]? = some (.spawn, .reserved at')) ∧ ∀ j, (w.phase j).running ≠ some op)
    (hreplayed : ∀ {r stored}, p = .answered r (.replayed stored) →
      ∃ j r' o, (w.phase j).ran = some (r', o) ∧ r'.op = r.op ∧ stored = (o.stored r').bytes)
    (hrejected : ∀ {r d}, p = .answered r (.rejected d) →
      d = .operationUnknown r.op ∨ d = .operationExpired r.op ∨ d = .operationConflict r.op) : Once (w.setPhase i p) := by
  have hself : (w.setPhase i p).phase i = p := update_self ..
  have hother : ∀ {j}, j ≠ i → (w.setPhase i p).phase j = w.phase j := fun hj => update_of_ne hj ..
  -- What ran before the step is what ran after it, and so are the sessions in the making.
  have hrans : ∀ {j r o}, ((w.setPhase i p).phase j).ran = some (r, o) ↔ (w.phase j).ran = some (r, o) := by
    intro j r o
    by_cases hj : j = i
    · subst hj
      simp [hself, hran, hran']
    · rw [hother hj]
  constructor
  case issued => exact h.issued
  case running =>
    intro j op hj
    by_cases hji : j = i
    · subst hji
      rw [hself] at hj
      rcases hrunning hj with hold | ⟨hhost, he, -⟩
      · exact h.running hold
      · exact ⟨hhost, he⟩
    · rw [hother hji] at hj
      exact h.running hj
  case single =>
    intro j k op hj hk
    have := @h.single j k op
    have := @h.single i k op
    have := @h.single j i op
    by_cases hji : j = i <;> by_cases hki : k = i <;> grind
  case ran =>
    intro j r o hj
    exact h.ran (hrans.mp hj)
  case ranSingle =>
    intro j k r r' o o' hj hk
    exact h.ranSingle (hrans.mp hj) (hrans.mp hk)
  case recorded =>
    intro k hash result s d hk
    obtain ⟨j, r, o, hj, rest⟩ := h.recorded hk
    exact ⟨j, r, o, hrans.mpr hj, rest⟩
  case replayed =>
    intro j r stored hj
    by_cases hji : j = i
    · subst hji
      obtain ⟨k, r', o, hk, rest⟩ := hreplayed (hself.symm.trans hj)
      exact ⟨k, r', o, hrans.mpr hk, rest⟩
    · obtain ⟨k, r', o, hk, rest⟩ := h.replayed ((hother hji).symm.trans hj)
      exact ⟨k, r', o, hrans.mpr hk, rest⟩
  case rejected =>
    intro j r d hj
    by_cases hji : j = i
    · subst hji
      exact hrejected (hself.symm.trans hj)
    · exact h.rejected ((hother hji).symm.trans hj)
  case nodup => exact h.nodup
  case created =>
    intro op hop
    rcases h.created hop with ⟨j, r, o, hj, hr⟩ | ⟨j, r, o, hj, hr⟩
    · have hji : j ≠ i := fun e => hkeep (e ▸ hj)
      exact .inl ⟨j, r, o, (hother hji).trans hj, hr⟩
    · exact .inr ⟨j, r, o, hrans.mpr hj, hr⟩

omit [DecidableEq ι] in
theorem Once.not_created (h : Once w) (hi : w.phase i = .starting r) : r.op ∉ w.created.map Prod.fst := by
  have hrun : (w.phase i).running = some r.op := by rw [hi]; rfl
  intro hop
  rcases h.created hop with ⟨j, r', o, hj, hr⟩ | ⟨j, r', o, hj, hr⟩
  · have hrun' : (w.phase j).running = some r.op := by rw [hj, ← hr]; rfl
    rw [h.single hrun' hrun, hi] at hj
    cases hj
  · obtain ⟨-, at', he⟩ := h.running hrun
    obtain ⟨-, nowMs, he'⟩ := h.ran hj
    rw [hr, he] at he'
    simp at he'

theorem Once.startSession (h : Once w) (hi : w.phase i = .starting r) (id incarnation : Uuid) (pid : UInt32) :
    Once { inner := (w.inner.startSession r id incarnation pid).1,
           phase := update w.phase i (.completing r (w.inner.startSession r id incarnation pid).2),
           created := w.created ++ [(r.op, id)] } := by
  have hmoved : Once (w.setPhase i (.completing r (w.inner.startSession r id incarnation pid).2)) := by
    apply h.setPhase <;> simp [hi, SpawnPhase.ran, SpawnPhase.running]
  refine ⟨hmoved.issued, hmoved.running, hmoved.single, hmoved.ran, hmoved.ranSingle, hmoved.recorded, hmoved.replayed,
    hmoved.rejected, ?_, ?_⟩
  · rw [List.map_append, List.nodup_append']
    simpa [h.nodup] using h.not_created hi
  · intro op hop
    rw [List.map_append, List.mem_append] at hop
    rcases hop with hop | hop
    · exact hmoved.created hop
    · simp only [List.map_cons, List.map_nil, List.mem_singleton] at hop
      exact .inl ⟨i, r, _, update_self .., hop.symm⟩

theorem Once.complete (h : Once w) {outcome : SpawnOutcome} (hi : w.phase i = .completing r outcome)
    (nowMs : Nat) : Once { w with inner := w.inner.complete r outcome nowMs,
                                  phase := update w.phase i (.answered r (.executed outcome)) } := by
  have hrun : (w.phase i).running = some r.op := by rw [hi]; rfl
  obtain ⟨hhost, at', he⟩ := h.running hrun
  have hdone := OperationTable.complete_self he r.hash (outcome.stored r).bytes outcome.session nowMs
  have hfar {k : Nat} (hk : k ≠ r.op.opSeq.toNat) :=
    OperationTable.complete_of_ne (t := w.inner.ops) hk r.hash (outcome.stored r).bytes outcome.session nowMs
  have hself : update w.phase i (.answered r (.executed outcome)) i = .answered r (.executed outcome) :=
    update_self ..
  have hother : ∀ {j}, j ≠ i → update w.phase i (.answered r (.executed outcome)) j = w.phase j :=
    fun hj => update_of_ne hj ..
  -- The completed operation was reserved, so no other handler runs it and none has run it.
  have hrunOther : ∀ {j op}, j ≠ i → (w.phase j).running = some op → op.hostInstanceId = w.inner.ops.host →
      op.opSeq.toNat ≠ r.op.opSeq.toNat := by
    intro j op hj hop hophost hseq
    rw [OperationTable.op_eq hophost hhost hseq] at hop
    exact hj (h.single hop hrun)
  have hranOther : ∀ {j r' o}, (w.phase j).ran = some (r', o) → r'.op.opSeq.toNat ≠ r.op.opSeq.toNat := by
    intro j r' o hj hseq
    obtain ⟨-, now', he'⟩ := h.ran hj
    rw [hseq, he] at he'
    simp at he'
  have hlift : ∀ {j r' o}, (w.phase j).ran = some (r', o) → (update w.phase i (.answered r (.executed outcome)) j).ran =
      some (r', o) := by
    intro j r' o hj
    rwa [hother]
    intro e
    rw [e, hi] at hj
    cases hj
  constructor
  case issued =>
    intro k e hk
    by_cases hkr : k = r.op.opSeq.toNat
    · exact hkr ▸ h.issued he
    · exact h.issued ((hfar hkr).symm.trans hk)
  case running =>
    intro j op hj
    by_cases hji : j = i
    · simp [hji, SpawnPhase.running] at hj
    · simp only [hother hji] at hj
      obtain ⟨hophost, at'', he'⟩ := h.running hj
      exact ⟨hophost, at'', (hfar (hrunOther hji hj hophost)).trans he'⟩
  case single =>
    intro j k op hj hk
    by_cases hji : j = i
    · simp [hji, SpawnPhase.running] at hj
    by_cases hki : k = i
    · simp [hki, SpawnPhase.running] at hk
    simp only [hother hji, hother hki] at hj hk
    exact h.single hj hk
  case ran =>
    intro j r' o hj
    by_cases hji : j = i
    · simp only [hji, hself, SpawnPhase.ran, Option.some.injEq, Prod.mk.injEq] at hj
      obtain ⟨rfl, rfl⟩ := hj
      exact ⟨hhost, nowMs, hdone⟩
    · simp only [hother hji] at hj
      obtain ⟨hhost', now', he'⟩ := h.ran hj
      exact ⟨hhost', now', (hfar (hranOther hj)).trans he'⟩
  case ranSingle =>
    intro j k r' r'' o o' hj hk hop
    by_cases hji : j = i <;> by_cases hki : k = i
    · exact hji.trans hki.symm
    · simp only [hji, hself, SpawnPhase.ran, Option.some.injEq, Prod.mk.injEq] at hj
      simp only [hother hki] at hk
      exact absurd (by rw [← hop, hj.1]) (hranOther hk)
    · simp only [hki, hself, SpawnPhase.ran, Option.some.injEq, Prod.mk.injEq] at hk
      simp only [hother hji] at hj
      exact absurd (by rw [hop, hk.1]) (hranOther hj)
    · simp only [hother hji, hother hki] at hj hk
      exact h.ranSingle hj hk hop
  case recorded =>
    intro k hash result s d hk
    by_cases hkr : k = r.op.opSeq.toNat
    · have heq := hdone.symm.trans (hkr ▸ hk)
      simp only [Option.some.injEq, Prod.mk.injEq, Stored.completed.injEq] at heq
      exact ⟨i, r, outcome, by simp only [hself]; rfl, hkr.symm, heq.2.2.1.symm⟩
    · obtain ⟨j, r', o, hj, rest⟩ := h.recorded ((hfar hkr).symm.trans hk)
      exact ⟨j, r', o, hlift hj, rest⟩
  case replayed =>
    intro j r' stored hj
    by_cases hji : j = i
    · simp [hji] at hj
    · simp only [hother hji] at hj
      obtain ⟨k, r'', o, hk, rest⟩ := h.replayed hj
      exact ⟨k, r'', o, hlift hk, rest⟩
  case rejected =>
    intro j r' d hj
    by_cases hji : j = i
    · simp [hji] at hj
    · simp only [hother hji] at hj
      exact h.rejected hj
  case nodup => exact h.nodup
  case created =>
    intro op hop
    rcases h.created hop with ⟨j, r', o, hj, hr⟩ | ⟨j, r', o, hj, hr⟩
    · by_cases hji : j = i
      · rw [hji, hi] at hj
        cases hj
        exact .inr ⟨i, r, _, by simp only [hself]; rfl, hr⟩
      · exact .inl ⟨j, r', o, by simp only [hother hji, hj], hr⟩
    · exact .inr ⟨j, r', o, hlift hj, hr⟩

theorem Once.decide (h : Once w) (hi : w.phase i = .deciding r)
    (halone : ∀ j, (w.phase j).running ≠ some r.op) : Once (w.setPhase i (w.inner.decide r)) := by
  apply h.setPhase
  case hran => simp [hi, SpawnPhase.ran]
  case hkeep => simp [hi]
  case hran' =>
    unfold HostInner.decide
    split <;> rfl
  case hrunning =>
    intro op hop
    unfold HostInner.decide at hop
    split at hop
    next hd =>
      cases hop
      obtain ⟨hhost, he⟩ := decide_execute hd
      exact .inr ⟨hhost, he, halone⟩
    all_goals cases hop
  case hreplayed =>
    intro r' stored hp
    unfold HostInner.decide at hp
    split at hp
    next hd =>
      cases hp
    next hd =>
      cases hp
      obtain ⟨hhost, s, d, he⟩ := decide_replay hd
      obtain ⟨j, r', o, hj, hseq, hres⟩ := h.recorded he
      exact ⟨j, r', o, hj, op_eq (h.ran hj).1 hhost hseq, hres⟩
    all_goals cases hp
  case hrejected =>
    intro r' d hp
    unfold HostInner.decide at hp
    split at hp <;> cases hp <;> simp

/-- No handler decides on an operation while another one runs it. -/
def alone (w : SpawnHost ι) : SpawnAction ι → Prop
  | .decide i => ∀ j, ∀ op ∈ (w.phase i).asks, (w.phase j).running ≠ some op
  | _ => True

theorem once_step {a : SpawnAction ι} (hok : alone w a) (hstep : w.step a = some w') (h : Once w) : Once w' := by
  cases a with simp only [step] at hstep
  | reserve kind nowMs =>
    cases hstep
    exact h.reserve kind nowMs
  | receive i r =>
    split at hstep <;> cases hstep
    next hi => apply h.setPhase <;> simp [hi, ran, running]
  | decide i =>
    split at hstep <;> cases hstep
    next r hi => exact h.decide hi fun j => hok j r.op (by rw [hi]; rfl)
  | checkLimits i =>
    split at hstep <;> cases hstep
    next r hi =>
      have hp : (w.inner.checkLimits r).running = some r.op ∧ (w.inner.checkLimits r).ran = none ∧
          ∀ r' reply, w.inner.checkLimits r ≠ .answered r' reply := by
        unfold checkLimits
        split <;> [skip; split] <;> simp [running, ran]
      apply h.setPhase <;> simp only [hi, hp]
      all_goals simp [ran, running]
  | startFails i text =>
    split at hstep <;> cases hstep
    next hi => apply h.setPhase <;> simp [hi, ran, running]
  | startSession i id incarnation pid =>
    split at hstep <;> cases hstep
    next hi => exact h.startSession hi id incarnation pid
  | complete i nowMs =>
    split at hstep <;> cases hstep
    next hi => exact h.complete hi nowMs

theorem once_reachable {host : Uuid} (h : (spawnSystem ι host).Reachable alone w) : Once w := by
  refine h.inv ?_ once_step
  rintro _ rfl
  constructor <;> simp [running, ran]

theorem step_of_underway (w : SpawnHost ι) (i : ι) : w.phase i = .idle ∨ (∃ r reply, w.phase i = .answered r reply) ∨
    ∃ a ∈ [.decide i, .checkLimits i, .startFails i "", .complete i 0], ∃ w', w.step a = some w' ∧
      (w'.phase i).remaining < (w.phase i).remaining := by
  cases hi : w.phase i with
  | idle => exact .inl rfl
  | answered r reply => exact .inr (.inl ⟨r, reply, rfl⟩)
  | deciding r =>
    refine .inr (.inr ⟨.decide i, by simp, w.setPhase i (w.inner.decide r), by simp [step, hi], ?_⟩)
    simp only [setPhase, update_self, HostInner.decide]
    split <;> simp [remaining]
  | checking r =>
    refine .inr (.inr ⟨.checkLimits i, by simp, w.setPhase i (w.inner.checkLimits r), by simp [step, hi], ?_⟩)
    simp only [setPhase, update_self, HostInner.checkLimits]
    split <;> [skip; split] <;> simp [remaining]
  | starting r =>
    refine .inr (.inr ⟨.startFails i "", by simp, _, by simp only [step, hi]; rfl, ?_⟩)
    simp [setPhase, remaining]
  | completing r outcome =>
    refine .inr (.inr ⟨.complete i 0, by simp, _, by simp only [step, hi]; rfl, ?_⟩)
    simp [remaining]

/-- An operation is executed once at most, and retries get what it gave. -/
theorem spawn_runs_at_most_once {host : Uuid} (h : (spawnSystem ι host).Reachable alone w) (op : OperationId) :
    (w.created.map Prod.fst).count op ≤ 1 ∧
    (∀ i j r r' o o', w.phase i = .answered r (.executed o) → w.phase j = .answered r' (.executed o') → r.op = op →
      r'.op = op → i = j) ∧
    (∀ i r reply, w.phase i = .answered r reply → r.op = op → (∃ o, reply = .executed o) ∨
      (∃ j r' o, w.phase j = .answered r' (.executed o) ∧ r'.op = op ∧ reply = .replayed (o.stored r').bytes) ∨
      reply ∈ [.rejected (.operationUnknown op), .rejected (.operationExpired op), .rejected (.operationConflict op)]) ∧
    ∀ i, w.phase i = .idle ∨ (∃ r reply, w.phase i = .answered r reply) ∨
      ∃ a ∈ [.decide i, .checkLimits i, .startFails i "", .complete i 0], ∃ w', w.step a = some w' ∧
        (w'.phase i).remaining < (w.phase i).remaining := by
  have K := once_reachable h
  refine ⟨List.nodup_iff_count_le_one.mp K.nodup op, ?_, ?_, w.step_of_underway⟩
  · intro i j r r' o o' hi hj hr hr'
    exact K.ranSingle (ran_eq_some.mpr hi) (ran_eq_some.mpr hj) (hr.trans hr'.symm)
  · intro i r reply hi hr
    cases reply with
    | executed o => exact .inl ⟨o, rfl⟩
    | replayed stored =>
      obtain ⟨j, r', o, hj, hop, rfl⟩ := K.replayed hi
      exact .inr (.inl ⟨j, r', o, ran_eq_some.mp hj, hop.trans hr, rfl⟩)
    | rejected d =>
      subst hr
      rcases K.rejected hi with rfl | rfl | rfl <;> simp

end Handlers

instance {w : SpawnHost Bool} : DecidablePred w.alone
  | .decide _ => by unfold alone; infer_instance
  | .reserve .. | .receive .. | .checkLimits _ | .startFails .. | .startSession .. | .complete .. => isTrue trivial

abbrev zeroHasher : RequestHasher := ⟨fun _ => 0⟩

def uuidOf (b : UInt8) : Uuid := ⟨⟨List.replicate 16 b, rfl⟩⟩

def shellOp : OperationId := ⟨uuidOf 1, 1⟩

def shellRequest : SpawnRequest := ⟨uuidOf 0, 7, ⟨shellOp, 80, 24, "sh", [], [], ""⟩⟩

def inTurn : List (SpawnAction Bool) :=
  [.reserve .spawn 0, .receive false shellRequest, .receive true shellRequest, .decide false, .checkLimits false,
    .startSession false (uuidOf 2) (uuidOf 3) 40, .complete false 5, .decide true]

theorem spawn_runs_at_most_once_inTurn : ∃ w, (@spawnSystem Bool _ zeroHasher (uuidOf 1)).Reachable alone w ∧
    w.created = [(shellOp, uuidOf 2)] ∧ (w.created.map Prod.fst).count shellOp ≤ 1 := by
  let := zeroHasher
  let w₀ : SpawnHost Bool := { inner := { ops := { host := uuidOf 1 } } }
  have hrun : ((System.admitted step alone inTurn w₀).map (·.created)) = some [(shellOp, uuidOf 2)] := by decide
  obtain ⟨w, hw, hcreated⟩ := Option.map_eq_some_iff.mp hrun
  have h : (spawnSystem Bool (uuidOf 1)).Reachable alone w := ⟨w₀, rfl, .of_admitted id hw⟩
  exact ⟨w, h, hcreated, (spawn_runs_at_most_once h shellOp).1⟩

def sideBySide : List (SpawnAction Bool) :=
  [.reserve .spawn 0, .receive false shellRequest, .receive true shellRequest, .decide false, .decide true,
    .checkLimits false,
    .checkLimits true, .startSession false (uuidOf 2) (uuidOf 3) 40, .startSession true (uuidOf 4) (uuidOf 5) 41,
    .complete false 5, .complete true 5]

theorem two_sessions_for_one_operation : ∃ w, (@spawnSystem Bool _ zeroHasher (uuidOf 1)).Reachable System.anyAction w ∧
    w.created = [(shellOp, uuidOf 2), (shellOp, uuidOf 4)] := by
  let := zeroHasher
  let w₀ : SpawnHost Bool := { inner := { ops := { host := uuidOf 1 } } }
  have hrun : ((System.admitted step System.anyAction sideBySide w₀).map (·.created)) =
      some [(shellOp, uuidOf 2), (shellOp, uuidOf 4)] := by decide
  obtain ⟨w, hw, hcreated⟩ := Option.map_eq_some_iff.mp hrun
  exact ⟨w, ⟨w₀, rfl, .of_admitted id hw⟩, hcreated⟩

end SpawnHost
end Ferryx
