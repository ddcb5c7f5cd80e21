import Ferryx.Remote.OperationJournal

/-! A key that is in the file stays there, and only a handler that finds it absent starts the side effect. A result stays
too, as long as no handler marks a record unknown that another one completed after the handler saw it pending (`unmarked`).
-/

namespace Ferryx.Remote
open Lib Std Method
variable {o : OperationOutcome} {m : Records}

/-- An operation with this outcome, or with its result expired. -/
def Operation.Settles (op : Operation) (o : OperationOutcome) : Prop := op = .completed o ∨ op = .resultExpired

theorem Operation.Settles.not_isOpen {op : Operation} (h : op.Settles o) : op.isOpen = false := by
  rcases h with rfl | rfl <;> rfl

theorem Operation.Settles.doubted {op : Operation} (h : op.Settles o) : op.doubted.Settles o := by
  rcases h with rfl | rfl
  · exact .inl rfl
  · exact .inr rfl

/-- What the journal may do to its records: none goes, and results stay except at the keys of `L`. -/
def Later (L : String → Prop) (g g' : String → Option Record) : Prop :=
  ∀ k r, g k = some r → ∃ r', g' k = some r' ∧ (¬L k → ∀ o, r.operation.Settles o → r'.operation.Settles o)

namespace Later
variable {L : String → Prop} {g g' g'' : String → Option Record} {m : Records} {k : String} {r : Record}

theorem refl : Later L g g := fun _ r h => ⟨r, h, fun _ _ ho => ho⟩

theorem trans (h : Later L g g') (h' : Later L g' g'') : Later L g g'' := by
  intro k r hr
  obtain ⟨r', hr', hk⟩ := h k r hr
  obtain ⟨r'', hr'', hk'⟩ := h' k r' hr'
  exact ⟨r'', hr'', fun hl o ho => hk' hl o (hk hl o ho)⟩

theorem insert (h : Later L g (m[·]?))
    (hr : ∀ r₀ o, g k = some r₀ → ¬L k → r₀.operation.Settles o → r.operation.Settles o) :
    Later L g ((m.insert k r)[·]?) := by
  intro k' r₀ hr₀
  simp only [lookup_insert]
  by_cases hkk : k = k'
  · subst hkk
    exact ⟨r, if_pos rfl, fun hl o ho => hr r₀ o hr₀ hl ho⟩
  · rw [if_neg hkk]
    exact h k' r₀ hr₀

end Later

namespace Method
variable {β : Type} {L : String → Prop} {k : String}

/-- A method loses no record outside of `L`. -/
def Keeps (L : String → Prop) (f : Method β) : Prop := ∀ m m' b, f m = .ok (some m', b) → Later L (m[·]?) (m'[·]?)

theorem keeps_reconcile : Keeps L (reconcile k) := by
  intro m m' b h
  simp [reconcile] at h

theorem keeps_catalogReceipt {status : Nat} {outcome : OperationOutcome} : Keeps L (catalogReceipt k status outcome) := by
  intro m m' b h
  unfold catalogReceipt at h
  grind

theorem keeps_saveSession : Keeps L saveSession := by
  intro m m' b h
  obtain rfl : m = m' := by simpa [saveSession] using h
  exact .refl

theorem later_expire (time : Nat) (m : Records) : Later L (m[·]?) ((expire time m).1[·]?) := by
  suffices h : ∀ (rs : List (String × Record)) (n : Records × Nat), Later L (m[·]?) (n.1[·]?) →
      Later L (m[·]?) ((rs.foldl _ n).1[·]?) from h m.toList _ .refl
  intro rs
  induction rs with
  | nil => exact fun n hn => hn
  | cons kr rs ih =>
    intro n hn
    refine ih _ ?_
    dsimp only
    split
    · exact hn.insert fun _ _ _ _ _ => .inr rfl
    · exact hn

theorem begin_new {q : Request} {time : Nat} {m' : Option Records} (h : begin q time m = .ok (m', .new)) :
    m[q.key]? = none ∧ ∃ r, m' = some ((expire time m).1.insert q.key r) := by
  unfold begin at h
  grind

theorem keeps_begin {q : Request} {time : Nat} : Keeps L (begin q time) := by
  intro m m' b h
  obtain rfl : b = .new := by
    unfold begin at h
    grind
  obtain ⟨hnone, r, hr⟩ := begin_new h
  rw [Option.some_inj.mp hr]
  refine (later_expire time m).insert fun r₀ o hr₀ => ?_
  simp [hnone] at hr₀

theorem keeps_update {check : Record → Bool} {f : Record → Record}
    (hcheck : ∀ r, check r → ¬L k → r.operation.isOpen) : Keeps L (update k check f) := by
  intro m m' b h
  unfold update at h
  split at h
  next => simp at h
  next r hr =>
    split at h
    next hc =>
      obtain ⟨rfl, -⟩ : _ = m' ∧ _ := by simpa using h
      refine Later.refl.insert fun r₀ o hr₀ hl ho => ?_
      obtain rfl : r = r₀ := by simpa [hr] using hr₀
      have hopen := hcheck r hc hl
      simp [ho.not_isOpen] at hopen
    next => simp at h

end Method

namespace Journal
variable {β : Type} {L : String → Prop} {j : Journal} {w : AgentControl.Stored} {f : Method β}

def lookup (j : Journal) (k : String) : Option Record := j.file.bind (·[k]?)

theorem later_refresh (h : j.refresh = .ok m) : Later L j.lookup (m[·]?) := by
  intro k r hr
  obtain ⟨current, hfile, hk⟩ := Option.bind_eq_some_iff.mp hr
  unfold refresh at h
  rw [hfile] at h
  obtain ⟨previous, rfl⟩ : ∃ previous, overlay previous current = m := by
    rcases hm : j.memory with e | previous <;> rw [hm] at h <;> cases h
    exact ⟨previous, rfl⟩
  simp only [overlay, lookup_map, hk]
  refine ⟨_, rfl, fun _ o ho => ?_⟩
  split
  · exact ho.doubted
  · exact ho

theorem later_transact (hf : f.Keeps L) : Later L j.lookup (j.transact w f).1.lookup := by
  unfold transact
  split
  next => exact .refl
  next current hcurrent =>
    have hseen : Later L j.lookup (current[·]?) := later_refresh hcurrent
    split
    next => exact .refl
    next => exact .refl
    next candidate b hb => exact hseen.trans (hf _ _ _ hb)
    next candidate b _ replaced hb =>
      cases replaced with
      | false => exact .refl
      | true => exact hseen.trans (hf _ _ _ hb)

theorem transact_ok {b : β} (h : (j.transact w f).2 = .ok b) :
    ∃ current m', j.refresh = .ok current ∧ f current = .ok (m', b) ∧ ∀ m ∈ m', (j.transact w f).1.file = some m := by
  unfold transact at h ⊢
  grind

end Journal

namespace Operations
variable {ι π : Type} [DecidableEq ι] [DecidableEq π] {s t : Operations ι π} {a : OperationAction ι π} {i : ι}

def record (s : Operations ι π) (k : String) : Option Record := s.file.bind (·[k]?)

def marks (s : Operations ι π) : OperationAction ι π → String → Prop
  | .markUnknown i _, k => s.phase i = .mark ∧ s.key i = k
  | _, _ => False

section Call
variable {β : Type} {w : AgentControl.Stored} {f : Method β} {g : Except String β → Phase}

theorem later_call {L : String → Prop} (hf : f.Keeps L) : Later L s.record (s.call i w f g).record :=
  Journal.later_transact (j := s.journal (s.handlers i).process) hf

omit [DecidableEq π] in
theorem phase_setPhase (p : Phase) (k : ι) : (s.setPhase i p).phase k = if k = i then p else s.phase k := by
  unfold setPhase phase
  grind

omit [DecidableEq π] in
theorem key_setPhase (p : Phase) (k : ι) : (s.setPhase i p).key k = s.key k := by
  unfold setPhase key
  grind

theorem phase_call (k : ι) : (s.call i w f g).phase k =
    if k = i then g ((s.journal (s.handlers i).process).transact w f).2 else s.phase k :=
  phase_setPhase (s := s.setJournal _ ((s.journal (s.handlers i).process).transact w f).1) ..

theorem key_call (k : ι) : (s.call i w f g).key k = s.key k :=
  key_setPhase (s := s.setJournal _ ((s.journal (s.handlers i).process).transact w f).1) ..

end Call

theorem later_step : Later (s.marks a) s.record (s.step a).record := by
  unfold step
  cases a with
  | opens | stop | fails => exact .refl
  | arrive | cached | refuse | start | persistCatalog => dsimp only; split <;> exact .refl
  | touch p => exact Journal.later_transact (j := s.journal p) keeps_saveSession
  | recover i p =>
    dsimp only
    split
    next r _ _ =>
      exact later_call (s := { s with handlers := Function.update s.handlers i ⟨p, r.toRequest, .idle⟩ }) keeps_reconcile
    next => exact .refl
  | reconcile =>
    dsimp only
    split <;> first | exact .refl | exact later_call keeps_reconcile
  | begin =>
    dsimp only
    split
    · exact later_call keeps_begin
    · exact .refl
  | commitSpawn =>
    dsimp only
    split
    · exact later_call (keeps_update (by simp +contextual))
    · exact .refl
  | saveSession =>
    dsimp only
    split
    · exact later_call keeps_saveSession
    · exact .refl
  | catalogReceipt =>
    dsimp only
    split
    · exact later_call keeps_catalogReceipt
    · exact .refl
  | complete =>
    dsimp only
    split <;> first | exact .refl | exact later_call (keeps_update fun _ h _ => h)
  | markUnknown j w =>
    dsimp only
    split
    next hp => exact later_call (keeps_update fun _ _ hl => absurd ⟨hp, rfl⟩ hl)
    next => exact .refl

/-- What a step may do about side effects: a handler may be granted one for a key that was not in the file, or start it. -/
inductive Moves (s t : Operations ι π) : Prop
  | rests (hs : t.started = s.started) (hp : ∀ j, t.phase j = .granted → s.phase j = .granted ∧ t.key j = s.key j)
  | grants (i : ι) (hs : t.started = s.started) (hk : s.record (t.key i) = none) (hk' : t.record (t.key i) ≠ none)
      (hp : ∀ j ≠ i, t.phase j = .granted → s.phase j = .granted ∧ t.key j = s.key j)
  | starts (i : ι) (hi : s.phase i = .granted) (hs : t.started = s.key i :: s.started)
      (hp : ∀ j, t.phase j = .granted → j ≠ i ∧ s.phase j = .granted ∧ t.key j = s.key j)

section
omit [DecidableEq π] [DecidableEq ι]

theorem moves_refl : Moves s s := .rests rfl fun _ hj => ⟨hj, rfl⟩

theorem moves_at (i : ι) (hs : t.started = s.started) (hi : t.phase i = .granted → s.phase i = .granted ∧ t.key i = s.key i)
    (hne : ∀ j ≠ i, t.handlers j = s.handlers j) : Moves s t := by
  refine .rests hs fun j hj => ?_
  by_cases h : j = i
  · subst h
    exact hi hj
  · unfold phase key at *
    rw [hne j h] at hj ⊢
    exact ⟨hj, rfl⟩

end

omit [DecidableEq π] in
theorem moves_setPhase {p : Phase} (hp : p = .granted → s.phase i = .granted) : Moves s (s.setPhase i p) :=
  moves_at i rfl (fun h => ⟨hp (by simpa [phase_setPhase] using h), key_setPhase ..⟩) fun _ hj =>
    Function.update_of_ne hj ..

theorem moves_call {β : Type} {w : AgentControl.Stored} {f : Method β} {g : Except String β → Phase}
    (hn : ∀ x, g x ≠ .granted) :
    Moves s (s.call i w f g) :=
  moves_at i rfl (fun h => absurd (by simpa [phase_call] using h) (hn _)) fun _ hj => Function.update_of_ne hj ..

theorem afterBegin_granted {k : Kind} {x : Except String Begin} (h : k.afterBegin x = .granted) : x = .ok .new := by
  unfold Kind.afterBegin Kind.onRefusal at h
  grind

theorem moves_begin (time : Nat) (w : AgentControl.Stored) :
    Moves s (s.call i w (.begin (s.handlers i).request time) (s.handlers i).request.kind.afterBegin) := by
  have hphase := phase_call (s := s) (i := i) (w := w) (f := .begin (s.handlers i).request time)
    (g := (s.handlers i).request.kind.afterBegin)
  by_cases hnew : (s.handlers i).request.kind.afterBegin
      ((s.journal (s.handlers i).process).transact w (.begin (s.handlers i).request time)).2 = .granted
  · obtain ⟨current, m', hcurrent, hb, hm'⟩ := Journal.transact_ok (afterBegin_granted hnew)
    obtain ⟨hnone, r, rfl⟩ := begin_new hb
    refine .grants i rfl ?_ ?_ fun j hne hj => ⟨by simpa [hphase, hne] using hj, key_call ..⟩
    · rw [key_call, Option.eq_none_iff_forall_ne_some]
      intro r₀ hr₀
      obtain ⟨r₁, hr₁, -⟩ := Journal.later_refresh (L := fun _ => False) hcurrent _ _ hr₀
      exact absurd (hnone.symm.trans hr₁) (by simp)
    · rw [key_call]
      have hfile := hm' _ rfl
      simp only [record, call, setPhase, setJournal, hfile]
      simp [key]
  · refine .rests rfl fun j hj => ⟨?_, key_call ..⟩
    grind

theorem moves_step : Moves s (s.step a) := by
  unfold step
  cases a with
  | opens p =>
    refine .rests rfl fun j hj => ?_
    unfold phase key at *
    grind
  | touch p => exact .rests rfl fun _ hj => ⟨hj, rfl⟩
  | stop => exact moves_setPhase (by simp)
  | fails i =>
    refine moves_setPhase fun h => ?_
    unfold Kind.afterFailure Kind.onRefusal Kind.onFailure at h
    grind
  | recover i p =>
    dsimp only
    split
    next r _ _ =>
      refine moves_at i rfl (fun h => ?_) fun j hj => ?_
      · rw [phase_call] at h
        grind
      · simp [call, setPhase, setJournal, hj]
    next => exact moves_refl
  | arrive i p q =>
    dsimp only
    split
    next => exact moves_at i rfl (fun h => by simp [phase] at h) fun _ hj => Function.update_of_ne hj ..
    next => exact moves_refl
  | reconcile =>
    dsimp only
    split <;> first | exact moves_refl | exact moves_call (by grind)
  | cached | refuse =>
    dsimp only
    split <;> first | exact moves_refl | exact moves_setPhase (by simp)
  | persistCatalog i =>
    dsimp only
    split <;> first
      | exact moves_refl
      | exact moves_at i rfl (fun h => by simp [phase, setPhase] at h) fun _ hj => Function.update_of_ne hj ..
  | begin =>
    dsimp only
    split
    · exact moves_begin ..
    · exact moves_refl
  | start i =>
    dsimp only
    split
    next hi =>
      refine .starts i hi rfl fun j hj => ?_
      have hj' := phase_setPhase (s := s) (i := i) .started j
      have hk := key_setPhase (s := s) (i := i) .started j
      unfold phase key at *
      grind
    next => exact moves_refl
  | commitSpawn | saveSession | catalogReceipt | complete | markUnknown =>
    dsimp only
    split <;> first | exact moves_refl | exact moves_call (by grind)

/-- A side effect is granted to one handler, and no more once it is started. -/
structure Once (s : Operations ι π) : Prop where
  nodup : s.started.Nodup
  recorded : ∀ k ∈ s.started, s.record k ≠ none
  granted : ∀ i, s.phase i = .granted → s.record (s.key i) ≠ none ∧ s.key i ∉ s.started
  single : ∀ i j, s.phase i = .granted → s.phase j = .granted → s.key i = s.key j → i = j

omit [DecidableEq ι] [DecidableEq π] in
theorem Once.step {L : String → Prop} (h : Once s) (hl : Later L s.record t.record) (hm : Moves s t) : Once t := by
  have hkeep : ∀ k, s.record k ≠ none → t.record k ≠ none := by
    intro k hk
    obtain ⟨r, hr⟩ := Option.ne_none_iff_exists'.mp hk
    obtain ⟨r', hr', -⟩ := hl k r hr
    simp [hr']
  obtain ⟨h1, h2, h3, h4⟩ := h
  cases hm with
  | rests hs hp => constructor <;> grind
  | grants i hs hk hk' hp =>
    have hor : ∀ j, t.phase j = .granted → j = i ∨ s.phase j = .granted ∧ t.key j = s.key j :=
      fun j hj => or_iff_not_imp_left.mpr fun hne => hp j hne hj
    constructor <;> grind
  | starts i hi hs hp => constructor <;> grind

theorem once_of_reachable {ok : Operations ι π → OperationAction ι π → Prop} (h : (operations ι π).Reachable ok s) :
    Once s := by
  refine h.inv ?_ ?_
  · rintro s ⟨handlers, hidle, rfl⟩
    constructor <;> simp [phase, hidle]
  · rintro s t a - rfl hs
    exact hs.step later_step moves_step

/-- No handler marks a record unknown that has a result, or had one. -/
def unmarked (s : Operations ι π) : OperationAction ι π → Prop
  | .markUnknown i _ => s.phase i = .mark → ∀ r ∈ s.record (s.key i), r.operation.isOpen
  | _ => True

theorem later_run (h : (operations ι π).Run unmarked s t) : Later (fun _ => False) s.record t.record := by
  refine h.keeps (P := fun t => Later (fun _ => False) s.record t.record) ?_ .refl
  rintro t u a ha rfl hst
  refine hst.trans fun k r hr => ?_
  obtain ⟨r', hr', hk⟩ := later_step (a := a) k r hr
  refine ⟨r', hr', fun _ o ho => hk ?_ o ho⟩
  intro hmarks
  unfold marks at hmarks
  split at hmarks
  next i w k =>
    obtain ⟨hi, rfl⟩ := hmarks
    exact absurd (ha hi r hr) (by simp [ho.not_isOpen])
  next => exact hmarks

omit [DecidableEq ι] [DecidableEq π] in
theorem refresh_settled {p : π} {k : String} {r : Record} (hr : t.record k = some r)
    (ho : r.operation.Settles o) (hm : (t.journal p).refresh = .ok m) : ∃ r', m[k]? = some r' ∧ r'.operation.Settles o := by
  obtain ⟨r', hr', hk⟩ := Journal.later_refresh (L := fun _ => False) hm k r hr
  exact ⟨r', hr', hk (fun h => h) o ho⟩

/-- The effect of a request starts once at most, and its outcome stays. -/
theorem operations_at_most_once (hs : (operations ι π).Reachable unmarked s) (hst : (operations ι π).Run unmarked s t) :
    (∀ k, t.started.count k ≤ 1) ∧ ∀ k r o, s.record k = some r → r.operation = .completed o → ∀ p w,
      (∀ x, ((t.journal p).transact w (.reconcile k)).2 = .ok x → ∃ r', x = some r' ∧ r'.operation.Settles o) ∧
      ∀ q : Request, q.key = k → ∀ time x, ((t.journal p).transact w (.begin q time)).2 = .ok x →
        ∃ r', x = .existing r' ∧ r'.operation.Settles o := by
  refine ⟨List.nodup_iff_count_le_one.mp (once_of_reachable (hs.run hst)).nodup, fun k r o hr ho p w => ?_⟩
  obtain ⟨r', hr', hk⟩ := later_run hst k r hr
  have ho' := hk (fun h => h) o (.inl ho)
  constructor
  · intro x hx
    obtain ⟨m, m', hm, hf, -⟩ := Journal.transact_ok hx
    obtain ⟨r₁, hr₁, ho₁⟩ := refresh_settled hr' ho' hm
    refine ⟨r₁, ?_, ho₁⟩
    unfold Method.reconcile at hf
    grind
  · rintro q rfl time x hx
    obtain ⟨m, m', hm, hf, -⟩ := Journal.transact_ok hx
    obtain ⟨r₁, hr₁, ho₁⟩ := refresh_settled hr' ho' hm
    refine ⟨r₁, ?_, ho₁⟩
    unfold Method.begin at hf
    grind

/-- In every run, also of records marked unknown after their result: an effect is granted to one handler, starts once and
keeps its record. -/
theorem effect_starts_once (h : (operations ι π).Reachable System.anyAction s) (k : String) : s.started.count k ≤ 1 ∧
    (k ∈ s.started → s.record k ≠ none ∧ ∀ i, s.phase i = .granted → s.key i ≠ k) ∧
    ∀ i j, s.phase i = .granted → s.phase j = .granted → s.key i = s.key j → i = j := by
  have O := once_of_reachable h
  refine ⟨List.nodup_iff_count_le_one.mp O.nodup k, fun hk => ⟨O.recorded k hk, ?_⟩, O.single⟩
  rintro i hi rfl
  exact (O.granted i hi).2 hk

instance {s : Operations Bool Bool} : DecidablePred s.unmarked
  | .markUnknown i _ => by unfold unmarked; infer_instance
  | .opens _ | .recover .. | .arrive .. | .stop _ | .fails _ | .reconcile _ | .cached _ | .begin .. | .refuse .. | .start _
  | .commitSpawn .. | .saveSession .. | .catalogReceipt .. | .persistCatalog .. | .complete .. | .touch .. => isTrue trivial

def shell : Session := ⟨"pane-1", ""⟩

def openShell : Request :=
  ⟨"[\"phone\",\"6f1c2d34-58ab-4e07-9c1e-2b7d90f3a415\"]", .createSession, "d", "pane-1"⟩

def twoDaemons : Operations Bool Bool := { handlers := fun i => ⟨i, openShell, .idle⟩ }

/-- Both daemons get the request, and one of them completes it. -/
def racing : List (OperationAction Bool Bool) :=
  [.arrive false false openShell, .arrive true true openShell, .reconcile false, .reconcile true, .begin false 0 .written,
    .begin true 0 .written, .start false, .reconcile true, .commitSpawn false shell 1 .written]

theorem operations_at_most_once_racing : ∃ s, (operations Bool Bool).Reachable unmarked s ∧
    (s.record openShell.key).map (·.operation) = some (.completed (.session shell)) ∧
      s.started.count openShell.key ≤ 1 := by
  have hrun : (operations Bool Bool).Run unmarked twoDaemons (racing.foldl step twoDaemons) :=
    .of_admits (by decide)
  have hinit : (operations Bool Bool).Reachable unmarked twoDaemons := ⟨_, ⟨_, fun _ => rfl, rfl⟩, .refl⟩
  exact ⟨_, hinit.run hrun, by decide, (operations_at_most_once hinit hrun).1 _⟩

theorem effect_starts_once_racing : (racing.foldl step twoDaemons).record openShell.key ≠ none :=
  ((effect_starts_once ⟨_, ⟨_, fun _ => rfl, rfl⟩, .of_admits (by decide)⟩ _).2.1 (by decide)).1

/-- The second daemon saw the record pending before the first one completed it, and then marks it unknown. -/
theorem result_marked_unknown : ∃ s t, (operations Bool Bool).Reachable System.anyAction s ∧
    (operations Bool Bool).Run System.anyAction s t ∧ (s.record openShell.key).map (·.operation) =
      some (.completed (.session shell)) ∧
    ((t.journal false).transact .written (.reconcile openShell.key)).2.toOption.join.map (·.operation) =
      some .outcomeUnknown := by
  have hrun : (operations Bool Bool).Run System.anyAction twoDaemons (racing.foldl step twoDaemons) :=
    .of_admits (by decide)
  exact ⟨_, _, ⟨_, ⟨_, fun _ => rfl, rfl⟩, hrun⟩, .single ⟨.markUnknown true .written, trivial, rfl⟩, by decide,
    by decide⟩

end Operations
end Ferryx.Remote
