import Ferryx.Operations
import Ferryx.Lib.TreeMap

/-! An entry of the table is made by the reservation that issues its number, and can then only be completed or
evicted. Numbers only grow, so a number that has left the table never comes back. -/

namespace Ferryx
open Std Fxsh Lib List

namespace OperationTable
variable {t : OperationTable} {id : OperationId} {kind : OperationKind} {stored : Stored} {c : Call}

variable {hash : Nat} {result : List UInt8} {after : List Call}

theorem decide_execute (h : t.decide id kind hash = .execute) :
    id.hostInstanceId = t.host ∧ ∃ at', t.entries[id.opSeq.toNat]? = some (kind, .reserved at') := by
  unfold decide at h
  grind

theorem decide_replay (h : t.decide id kind hash = .replay result) :
    id.hostInstanceId = t.host ∧ ∃ s d, t.entries[id.opSeq.toNat]? = some (kind, .completed hash result s d) := by
  unfold decide at h
  grind

theorem complete_self (h : t.entries[id.opSeq.toNat]? = some (kind, stored))
    (hash : Nat) (result : List UInt8) (session : Option Uuid) (nowMs : Nat) :
    (t.complete id hash result session nowMs).entries[id.opSeq.toNat]? =
      some (kind, .completed hash result session nowMs) := by
  simp [complete, h]

theorem complete_of_ne {k : Nat} (h : k ≠ id.opSeq.toNat) (hash : Nat) (result : List UInt8) (session : Option Uuid)
    (nowMs : Nat) :
    (t.complete id hash result session nowMs).entries[k]? = t.entries[k]? := by
  simp [complete, ExtTreeMap.getElem?_modify, h.symm]

theorem op_eq {op op' : OperationId} {host : Uuid} (h : op.hostInstanceId = host) (h' : op'.hostInstanceId = host)
    (hseq : op.opSeq.toNat = op'.opSeq.toNat) : op = op' := by
  cases op
  cases op'
  simp_all [UInt64.toNat_inj]

inductive Call where
  | reserve (kind : OperationKind) (nowMs : Nat)
  | complete (id : OperationId) (hash : Nat) (result : List UInt8) (session : Option Uuid) (nowMs : Nat)
  | evict (nowMs : Nat) (liveSession : Uuid → Option Nat)

def call (t : OperationTable) : Call → OperationTable
  | .reserve kind nowMs => (t.reserve kind nowMs).1
  | .complete id hash result session nowMs => t.complete id hash result session nowMs
  | .evict nowMs liveSession => t.evict nowMs liveSession

def Call.completes (seq : Nat) : Call → Bool
  | .complete id .. => id.opSeq.toNat == seq
  | _ => false

@[simp] theorem call_host (c : Call) : (t.call c).host = t.host := by
  cases c <;> rfl

theorem call_maxIssued_le (c : Call) : t.maxIssued ≤ (t.call c).maxIssued := by
  cases c with
  | reserve kind nowMs => exact Nat.le_succ _
  | complete id hash result session nowMs => exact le_rfl
  | evict nowMs liveSession => exact le_rfl

theorem call_entry {seq : Nat} (h : (t.call c).entries[seq]? = some (kind, stored)) :
    (∃ nowMs, c = .reserve kind nowMs ∧ seq = t.maxIssued + 1 ∧ stored = .reserved nowMs) ∨
    (∃ id hash result session nowMs old, c = .complete id hash result session nowMs ∧ id.opSeq.toNat = seq ∧
      t.entries[seq]? = some (kind, old) ∧ stored = .completed hash result session nowMs) ∨
    c.completes seq = false ∧ t.entries[seq]? = some (kind, stored) := by
  cases c with
  | reserve kind' nowMs =>
    simp only [call, reserve, lookup_insert] at h
    split at h
    next hseq =>
      cases h
      exact .inl ⟨nowMs, rfl, hseq.symm, rfl⟩
    · exact .inr (.inr ⟨rfl, h⟩)
  | complete id hash result session nowMs =>
    simp only [call, complete, lookup_modify] at h
    split at h
    next hseq =>
      obtain ⟨⟨k, old⟩, hold, heq⟩ := Option.map_eq_some_iff.mp h
      cases heq
      exact .inr (.inl ⟨id, hash, result, session, nowMs, old, rfl, hseq, hold, rfl⟩)
    next hseq => exact .inr (.inr ⟨by simpa [Call.completes] using hseq, h⟩)
  | evict nowMs liveSession => exact .inr (.inr ⟨rfl, (lookup_filter ..).mp h |>.1⟩)

theorem retains_live {liveSession : Uuid → Option Nat} {sid : Uuid} (h : liveSession sid = none) {nowMs doneMs : Nat} :
    retains nowMs liveSession .spawn (.completed hash result (some sid) doneMs) = true := by
  unfold retains
  simp only [h]

def run (host : Uuid) (cs : List Call) : OperationTable := cs.foldl call (new host)

/-- The ids that the reservations among the calls return. -/
def issued (t : OperationTable) : List Call → List OperationId
  | [] => []
  | .reserve kind nowMs :: cs => (t.reserve kind nowMs).2 :: issued (t.reserve kind nowMs).1 cs
  | c :: cs => issued (t.call c) cs

variable {host : Uuid} {cs : List Call} {seq : Nat}

@[simp] theorem run_append (before after : List Call) : run host (before ++ after) = after.foldl call (run host before) :=
  foldl_append

@[simp] theorem foldl_host (cs : List Call) (t : OperationTable) : (cs.foldl call t).host = t.host := by
  induction cs generalizing t with
  | nil => rfl
  | cons c cs ih => rw [foldl_cons, ih, call_host]

theorem foldl_maxIssued (cs : List Call) (t : OperationTable) : (cs.foldl call t).maxIssued = t.maxIssued +
    (issued t cs).length := by
  induction cs generalizing t with
  | nil => rfl
  | cons c cs ih =>
    rw [foldl_cons, ih]
    cases c with
    | reserve kind nowMs =>
      simp only [call, reserve, issued, length_cons]
      omega
    | complete id hash result session nowMs => rfl
    | evict nowMs liveSession => rfl

theorem foldl_maxIssued_le (cs : List Call) (t : OperationTable) : t.maxIssued ≤ (cs.foldl call t).maxIssued :=
  (foldl_maxIssued cs t).symm ▸ Nat.le_add_right ..

theorem reserve_opSeq (h : t.maxIssued + 1 < 2 ^ 64) (kind : OperationKind) (nowMs : Nat) :
    (t.reserve kind nowMs).2.opSeq.toNat = t.maxIssued + 1 :=
  UInt64.toNat_ofNat_of_lt' h

theorem issued_bounds (h : id ∈ issued t cs) (hcount : t.maxIssued + (issued t cs).length < 2 ^ 64) :
    t.maxIssued < id.opSeq.toNat ∧ id.opSeq.toNat ≤ (cs.foldl call t).maxIssued := by
  induction cs generalizing t with
  | nil => cases h
  | cons c cs ih =>
    cases c with
    | reserve kind nowMs =>
      have hlen : t.maxIssued + ((issued (t.reserve kind nowMs).1 cs).length + 1) < 2 ^ 64 := hcount
      have hseq := reserve_opSeq (t := t) (by omega) kind nowMs
      rcases mem_cons.mp h with rfl | h
      · rw [hseq]
        exact ⟨Nat.lt_succ_self _, foldl_maxIssued_le cs (t.reserve kind nowMs).1⟩
      · have hrest := ih h (by simp only [reserve] at hlen ⊢; omega)
        exact ⟨(Nat.lt_succ_self _).trans hrest.1, hrest.2⟩
    | complete id hash result session nowMs => exact ih h hcount
    | evict nowMs liveSession => exact ih h hcount

theorem issued_pairwise (cs : List Call) (t : OperationTable) (hcount : t.maxIssued + (issued t cs).length < 2 ^ 64) :
    (issued t cs).Pairwise (·.opSeq < ·.opSeq) := by
  induction cs generalizing t with
  | nil => exact .nil
  | cons c cs ih =>
    cases c with
    | reserve kind nowMs =>
      have hlen : t.maxIssued + ((issued (t.reserve kind nowMs).1 cs).length + 1) < 2 ^ 64 := hcount
      have hrest : (t.reserve kind nowMs).1.maxIssued + (issued (t.reserve kind nowMs).1 cs).length < 2 ^ 64 := by
        simp only [reserve] at hlen ⊢
        omega
      refine .cons (fun id hid => ?_) (ih _ hrest)
      rw [UInt64.lt_iff_toNat_lt, reserve_opSeq (by omega)]
      exact (issued_bounds hid hrest).1
    | complete id hash result session nowMs => exact ih _ hcount
    | evict nowMs liveSession => exact ih _ hcount

/-- `cs` has a reservation for `kind` that returns `id` right before `after`, and its entry is in the table from then on. -/
def Reserves (host : Uuid) (cs : List Call) (id : OperationId) (kind : OperationKind) (after : List Call) : Prop :=
  ∃ before nowMs, cs = before ++ .reserve kind nowMs :: after ∧ ((run host before).reserve kind nowMs).2 = id ∧
    ∀ mid, mid <+: after → id.opSeq.toNat ∈ (run host (before ++ .reserve kind nowMs :: mid)).entries

theorem Reserves.snoc (h : Reserves host cs id kind after)
    (hc : id.opSeq.toNat ∈ (run host (cs ++ [c])).entries) : Reserves host (cs ++ [c]) id kind (after ++ [c]) := by
  obtain ⟨before, nowMs, rfl, hseq, hmem⟩ := h
  refine ⟨before, nowMs, by simp, hseq, fun mid hmid => ?_⟩
  rcases List.prefix_concat_iff.mp hmid with rfl | hmid
  · simpa using hc
  · exact hmem mid hmid

theorem issued_append (before after : List Call) (t : OperationTable) :
    issued t (before ++ after) = issued t before ++ issued (before.foldl call t) after := by
  induction before generalizing t with
  | nil => rfl
  | cons c before ih =>
    cases c with
    | reserve kind nowMs => exact congrArg (_ :: ·) (ih _)
    | complete id hash result session nowMs => exact ih _
    | evict nowMs liveSession => exact ih _

theorem Reserves.issued (h : Reserves host cs id kind after) : id ∈ OperationTable.issued (new host) cs := by
  obtain ⟨before, nowMs, rfl, rfl, -⟩ := h
  rw [issued_append]
  exact mem_append_right _ mem_cons_self

/-- What an entry of the number says of the calls after its reservation. -/
def Leaves (seq : Nat) (after : List Call) : Stored → Prop
  | .reserved _ => ∀ c ∈ after, c.completes seq = false
  | .completed hash result session doneMs => ∃ mid id rest, after = mid ++ .complete id hash result session doneMs :: rest ∧
      id.opSeq.toNat = seq ∧ ∀ c ∈ rest, c.completes seq = false

theorem Leaves.snoc (h : Leaves seq after stored) (hc : c.completes seq = false) :
    Leaves seq (after ++ [c]) stored := by
  cases stored with
  | reserved atMs =>
    intro d hd
    rcases mem_append.mp hd with hd | hd
    · exact h d hd
    · rwa [mem_singleton.mp hd]
  | completed hash result session doneMs =>
    obtain ⟨mid, id, rest, rfl, hid, hrest⟩ := h
    refine ⟨mid, id, rest ++ [c], by simp, hid, fun d hd => ?_⟩
    rcases mem_append.mp hd with hd | hd
    · exact hrest d hd
    · rwa [mem_singleton.mp hd]

theorem entry_origin (hid : id.hostInstanceId = host) (h : (run host cs).entries[id.opSeq.toNat]? = some (kind, stored)) :
    ∃ after, Reserves host cs id kind after ∧ Leaves id.opSeq.toNat after stored := by
  induction cs using List.reverseRecOn generalizing stored with
  | nil => simp [run, new] at h
  | append_singleton cs c ih =>
    have hmem : id.opSeq.toNat ∈ (run host (cs ++ [c])).entries := mem_iff_lookup.mpr ⟨_, h⟩
    have h' := h
    rw [run_append] at h'
    rcases call_entry h' with ⟨nowMs, rfl, hseq, rfl⟩ | ⟨id', hash, result, session, nowMs, old, rfl, hid', hold,
      rfl⟩ | ⟨hc, hold⟩
    · have hret : ((run host cs).reserve kind nowMs).2 = id := by
        have hhost : (run host cs).host = host := foldl_host cs _
        simp only [reserve, ← hseq, UInt64.ofNat_toNat, hhost]
        cases hid
        rfl
      refine ⟨[], ⟨cs, nowMs, rfl, hret, fun mid hmid => ?_⟩, by simp [Leaves]⟩
      rwa [List.prefix_nil.mp hmid]
    · obtain ⟨after, hr, -⟩ := ih hold
      exact ⟨_, hr.snoc hmem, after, id', [], rfl, hid', by simp⟩
    · obtain ⟨after, hr, hl⟩ := ih hold
      exact ⟨_, hr.snoc hmem, hl.snoc hc⟩

/-- The number was issued and its operation may not run any more. -/
def Spent (t : OperationTable) (seq : Nat) : Prop :=
  seq ≤ t.maxIssued ∧ ∀ kind atMs, t.entries[seq]? ≠ some (kind, .reserved atMs)

theorem Spent.call (h : Spent t seq) (c : Call) : Spent (t.call c) seq := by
  refine ⟨h.1.trans (call_maxIssued_le c), fun kind atMs he => ?_⟩
  rcases call_entry he with ⟨nowMs, -, hseq, -⟩ | ⟨id, hash, result, session, nowMs, old, -, -, -, hs⟩ | ⟨-, hold⟩
  · have := h.1
    omega
  · cases hs
  · exact h.2 kind atMs hold

theorem Spent.foldl (h : Spent t seq) (cs : List Call) : Spent (cs.foldl OperationTable.call t) seq := by
  induction cs generalizing t with
  | nil => exact h
  | cons c cs ih => exact ih (h.call c)

theorem spent_of_completes (hseq : seq ≤ t.maxIssued) (hc : c.completes seq = true) : Spent (t.call c) seq := by
  refine ⟨hseq.trans (call_maxIssued_le c), fun kind atMs he => ?_⟩
  rcases call_entry he with ⟨nowMs, rfl, -⟩ | ⟨id, hash, result, session, nowMs, old, -, -, -, hs⟩ | ⟨hno, -⟩
  · cases hc
  · cases hs
  · rw [hno] at hc
    cases hc

/-- The life of an operation, for any calls with fewer than `2 ^ 64` reservations: no id is issued twice, an operation runs
only while its entry is in the table and not completed, and a replay has the bytes of the last completion. -/
theorem operation_lives (host : Uuid) (cs : List Call) (hcount : (issued (new host) cs).length < 2 ^ 64) :
    (issued (new host) cs).Pairwise (·.opSeq < ·.opSeq) ∧
    (∀ id kind hash, (run host cs).decide id kind hash = .execute → id ∈ issued (new host) cs ∧
      ∃ after, Reserves host cs id kind after ∧ ∀ c ∈ after, c.completes id.opSeq.toNat = false) ∧
    (∀ before after, cs = before ++ after → ∀ id ∈ issued (new host) before,
      id.opSeq.toNat ∉ (run host before).entries ∨ (∃ c ∈ after, c.completes id.opSeq.toNat = true) →
      ∀ kind hash, (run host cs).decide id kind hash ≠ .execute) ∧
    (∀ id kind hash result, (run host cs).decide id kind hash = .replay result → id ∈ issued (new host) cs ∧
      ∃ before by' session doneMs rest,
        Reserves host cs id kind (before ++ .complete by' hash result session doneMs :: rest) ∧
        by'.opSeq = id.opSeq ∧ ∀ c ∈ rest, c.completes id.opSeq.toNat = false) ∧
    ∀ before nowMs liveSession after, cs = before ++ .evict nowMs liveSession :: after →
      ∀ (seq : Nat) hash result sid doneMs,
        (run host before).entries[seq]? = some (.spawn, .completed hash result (some sid) doneMs) → liveSession sid = none →
        (run host (before ++ [.evict nowMs liveSession])).entries[seq]? =
          some (.spawn, .completed hash result (some sid) doneMs) := by
  have hhost : (run host cs).host = host := foldl_host cs _
  have hnew : ∀ cs, (new host).maxIssued + (issued (new host) cs).length = (issued (new host) cs).length :=
    fun _ => Nat.zero_add _
  refine ⟨issued_pairwise cs _ (by rwa [hnew]), ?_, ?_, ?_, ?_⟩
  · intro id kind hash hd
    obtain ⟨hid, atMs, he⟩ := decide_execute hd
    obtain ⟨after, hr, hl⟩ := entry_origin (hid.trans hhost) he
    exact ⟨hr.issued, after, hr, hl⟩
  · rintro before after rfl id hissued hgone kind hash hd
    obtain ⟨-, atMs, he⟩ := decide_execute hd
    have hle : id.opSeq.toNat ≤ (run host before).maxIssued := by
      refine (issued_bounds hissued ?_).2
      rw [hnew]
      rw [issued_append, length_append] at hcount
      omega
    have hspent : Spent (run host (before ++ after)) id.opSeq.toNat := by
      rw [run_append]
      rcases hgone with hgone | ⟨c, hc, hcompletes⟩
      · refine Spent.foldl ⟨hle, fun kind atMs he => hgone ?_⟩ after
        exact mem_iff_lookup.mpr ⟨_, he⟩
      · obtain ⟨mid, rest, rfl⟩ := append_of_mem hc
        rw [foldl_append, foldl_cons]
        exact (spent_of_completes (hle.trans (foldl_maxIssued_le ..)) hcompletes).foldl rest
    exact hspent.2 kind atMs he
  · intro id kind hash result hd
    obtain ⟨hid, session, doneMs, he⟩ := decide_replay hd
    obtain ⟨_, hr, before, by', rest, rfl, hby, hrest⟩ := entry_origin (hid.trans hhost) he
    exact ⟨hr.issued, before, by', session, doneMs, rest, hr, UInt64.toNat_inj.mp hby, hrest⟩
  · intro before nowMs liveSession after _ seq hash result sid doneMs he hlive
    rw [run_append]
    exact (lookup_filter ..).mpr ⟨he, retains_live hlive⟩

theorem length_someHost : (replicate 16 (1 : UInt8)).length = 16 := rfl

def someHost : Uuid := ⟨⟨_, length_someHost⟩⟩

/-- Two operations are reserved, and the second one is completed. -/
def reservedTwice : List Call :=
  [.reserve .kill 0, .reserve .spawn 1, .complete ⟨someHost, 2⟩ 7 [1] none 2]

theorem operation_lives_reservedTwice : issued (new someHost) reservedTwice = [⟨someHost, 1⟩, ⟨someHost, 2⟩] ∧
    ∀ kind hash, (run someHost reservedTwice).decide ⟨someHost, 2⟩ kind hash ≠ .execute := by
  have hissued : issued (new someHost) reservedTwice = [⟨someHost, 1⟩, ⟨someHost, 2⟩] := rfl
  refine ⟨hissued, (operation_lives someHost reservedTwice ?_).2.2.1 [.reserve .kill 0, .reserve .spawn 1] _ rfl
    ⟨someHost, 2⟩ ?_ (.inr ⟨_, mem_singleton_self _, rfl⟩)⟩
  · simp [hissued]
  · exact mem_cons_of_mem _ mem_cons_self

end OperationTable
end Ferryx
