import Ferryx.Theorems.AuthorHoldings
import Ferryx.Theorems.AuthorPrompt

/-! What handlers leave behind, in any order and with any arguments. A handler changes some fields and reevaluates, or
returns at once (`Call.effect`). Its changes keep `Core`; the reevaluation establishes the rest, except the query of the
epoch that it gives up itself. -/

namespace Ferryx
open Std Lib Option ExtTreeMap List
variable {β : Type}

/-- A write of the lease `c`: not empty, one chunk at most, within the window of what is accepted. -/
def Out.InWindow (c : Cur β) : Out β → Prop
  | .write _ session epoch start bytes => session = c.session ∧ epoch = c.epoch ∧ bytes ≠ [] ∧ bytes.length ≤ chunk ∧
      c.accepted ≤ start ∧ start + bytes.length ≤ c.accepted + sendWindow
  | _ => False

namespace Author
variable {c : Call β}

section Handlers
variable {a b : Author β}

/-- A handler keeps the core of an author and sends no write of its own. -/
structure Step (a b : Author β) : Prop where
  core : Core b
  out : ∃ os, b.out = a.out ++ os ∧ ∀ o ∈ os, o.isWrite = false

theorem Core.step (h : Core a) (t : Tame False True a b) : Step a b := by
  obtain ⟨os, ho, hos, -⟩ := t.out
  exact ⟨t.core h, os, ho, fun o hmem => Bool.eq_false_iff.mpr (hos o hmem).1⟩

theorem Core.takeGrant (h : Core a) (id session epoch : Nat) : Step a (a.takeGrant id session epoch) := by
  unfold Author.takeGrant
  split
  · split
    · dsimp only
      split
      next hgrant =>
        obtain ⟨-, hsession, -⟩ := hgrant
        refine ⟨⟨fun hc => ?_, nofun, fun hc => ?_, Nat.zero_le _⟩, [], by simp [Author.adopt], by simp⟩
        · obtain rfl := some.inj hc
          exact ⟨hsession, fun hm => (ExtTreeSet.mem_erase.mp hm).1 (Nat.compare_eq_eq.mpr rfl)⟩
        · obtain rfl := some.inj hc
          rfl
      · exact h.step ((Tame.clearPending a).trans (.releaseGrant ..))
    · exact h.step (.releaseGrant ..)
  · exact h.step (.releaseGrant ..)

theorem Core.effect (h : Core a) (hb : c.effect a = some b) : Step a b := by
  cases c with
  | onGranted id session epoch =>
    cases hb
    exact h.takeGrant id session epoch
  | _ => exact h.step (Tame.effect rfl hb)

end Handlers

section Reevaluation
variable {a : Author β}

/-- The lost epoch waits for an answer or for the retry timer. -/
def Finalizing.Asked (f : Finalizing β) : Prop := f.query.isSome = true ∨ f.retry = true

theorem queryEpochs_asked (ks : List EpochKey) : ∀ {a : Author β} {k : EpochKey} {f : Finalizing β},
    (ks.foldl queryEpoch a).finalizing[k]? = some f → f.query.isSome = true ∨ k ∉ ks ∧ a.finalizing[k]? = some f := by
  induction ks with
  | nil => exact fun h => .inr ⟨not_mem_nil, h⟩
  | cons j ks ih =>
    intro a k f h
    obtain hasked | ⟨hk, hf⟩ := ih h
    · exact .inl hasked
    · simp only [queryEpoch, push, takeId, lookup_modify] at hf
      split at hf
      · obtain ⟨g, -, rfl⟩ := map_eq_some_iff.mp hf
        exact .inl rfl
      next hne => exact .inr ⟨by simp [hk, Ne.symm hne], hf⟩

variable {k : EpochKey} {f : Finalizing β} {c : Cur β} {windowEnd : Nat}

theorem queryDue_asked (h : a.queryDue.finalizing[k]? = some f) : Finalizing.Asked f := by
  obtain hasked | ⟨hk, hf⟩ := queryEpochs_asked _ h
  · exact .inl hasked
  · -- An epoch that is not among those due has a query or waits for the timer.
    by_contra hno
    refine hk (mem_keys.mpr ?_)
    simp only [Finalizing.Asked, not_or, Bool.not_eq_true, isSome_eq_false_iff] at hno
    rw [mem_iff_lookup]
    exact ⟨f, (lookup_filter _ _).mpr ⟨hf, by simp [hno.1, hno.2]⟩⟩

theorem sendChunk_inWindow (hbase : c.seg.base = c.accepted) {next stop : Nat} (hnext : c.accepted ≤ next)
    (hlt : next < stop)
    (hend : stop ≤ c.seg.base + c.seg.bytes.length) (hwindow : stop ≤ c.accepted + sendWindow)
      (hchunk : stop ≤ next + chunk)
    (attempt : Nat) :
    (Out.write attempt c.session c.epoch next (slice c.seg.bytes (next - c.seg.base) (stop - c.seg.base))).InWindow c := by
  have hlength : (slice c.seg.bytes (next - c.seg.base) (stop - c.seg.base)).length = stop - next := by
    rw [slice, length_take, length_drop]
    omega
  refine ⟨rfl, rfl, ?_, by omega, hnext, by omega⟩
  rw [← length_pos_iff]
  omega

theorem sendLoop_spec (hbase : c.seg.base = c.accepted) (hend : windowEnd ≤ c.seg.base + c.seg.bytes.length)
    (hwindow : windowEnd ≤ c.accepted + sendWindow) (fuel : Nat) : ∀ {next : Nat} {a : Author β}, c.accepted ≤ next →
    a.inflight.size ≤ maxInflight → (sendLoop c windowEnd fuel next a).inflight.size ≤ maxInflight ∧
      a.inflight.size ≤ (sendLoop c windowEnd fuel next a).inflight.size ∧
      ∃ os, (sendLoop c windowEnd fuel next a).out = a.out ++ os ∧ ∀ o ∈ os, o.InWindow c := by
  induction fuel with
  | zero => exact fun _ hslots => ⟨hslots, le_rfl, [], by simp [sendLoop], by simp⟩
  | succ fuel ih =>
    intro next a hnext hslots
    unfold sendLoop
    split
    next hgo =>
      obtain ⟨hfree, hlt⟩ := hgo
      have hgrown : a.inflight.size ≤ (a.sendChunk c next (min windowEnd (next + chunk))).inflight.size :=
        size_le_size_insert
      have hone : (a.sendChunk c next (min windowEnd (next + chunk))).inflight.size ≤ a.inflight.size + 1 :=
        size_insert_le
      have hnext' : c.accepted ≤ min windowEnd (next + chunk) := by omega
      obtain ⟨hsize, hmono, os, hout, hos⟩ := ih hnext' (hone.trans hfree)
      refine ⟨hsize, hgrown.trans hmono, _ :: os, hout.trans (append_assoc _ _ _), fun o ho => ?_⟩
      obtain rfl | ho := mem_cons.mp ho
      · exact sendChunk_inWindow hbase hnext (by simp only [chunk]; omega) (by omega) (by omega) (by omega) _
      · exact hos o ho
    · exact ⟨hslots, le_rfl, [], by simp, by simp⟩

/-- Every write put out between `a` and `b` is one of the lease of `b`, in its window. -/
def Writes (a b : Author β) : Prop :=
  ∃ os, b.out = a.out ++ os ∧ ∀ o ∈ os, o.isWrite = true → ∃ c, b.cur = some c ∧ o.InWindow c

/-- A lease with bytes to send, that may send them, has a write in flight. -/
def Sending (a : Author β) : Prop :=
  a.cur ≠ none → 0 < a.unacceptedLen → a.needsReclaim = false → a.sendTimer = false → a.inflight.size ≠ 0

theorem sendLoop_starts {fuel : Nat} (hbase : c.seg.base = c.accepted)
    (hend : windowEnd ≤ c.seg.base + c.seg.bytes.length) (hwindow : windowEnd ≤ c.accepted + sendWindow)
      (hlt : c.accepted < windowEnd)
    (hempty : a.inflight.size = 0) : (sendLoop c windowEnd (fuel + 1) (a.sentEnd c.accepted) a).inflight.size ≠ 0 := by
  have hnone : a.inflight = ∅ := eq_empty_iff_size_eq_zero.mpr hempty
  have hnext : a.sentEnd c.accepted = c.accepted := by
    rw [sentEnd, hnone]
    exact Nat.max_self _
  have hone : (a.sendChunk c c.accepted (min windowEnd (c.accepted + chunk))).inflight.size = 1 := by
    have hfresh : a.inflight.contains a.takeId.nextId = false := by
      rw [hnone]
      exact contains_empty
    refine size_insert.trans ?_
    rw [show a.takeId.inflight = a.inflight from rfl, hfresh, hempty]
    rfl
  obtain ⟨-, hmono, -⟩ :=
    sendLoop_spec hbase hend hwindow fuel (show c.accepted ≤ min windowEnd (c.accepted + chunk) by omega)
    (show (a.sendChunk c c.accepted (min windowEnd (c.accepted + chunk))).inflight.size ≤ maxInflight by rw [hone]; decide)
  rw [hnext, sendLoop, if_pos ⟨by rw [hempty]; decide, hlt⟩]
  exact fun hzero => absurd (hone ▸ hmono) (by dsimp only at hzero; omega)

theorem send_spec (h : Core a) : a.send.inflight.size ≤ maxInflight ∧
    (∃ os, a.send.out = a.out ++ os ∧ ∀ o ∈ os, ∃ c, a.cur = some c ∧ o.InWindow c) ∧
    (a.cur ≠ none → 0 < a.unacceptedLen → a.needsReclaim = false → a.sendTimer = false → a.send.inflight.size ≠ 0) := by
  unfold send
  split
  next hblocked =>
    refine ⟨h.slots, ⟨[], by simp, by simp⟩, fun _ _ hreclaim htimer => ?_⟩
    simp [hreclaim, htimer] at hblocked
  · split
    next hnone => exact ⟨h.slots, ⟨[], by simp, by simp⟩, fun hc => absurd hnone hc⟩
    next c hc =>
      have hbase := h.base hc
      have hend := Nat.min_le_left (c.seg.base + c.seg.bytes.length) (c.accepted + sendWindow)
      have hwindow := Nat.min_le_right (c.seg.base + c.seg.bytes.length) (c.accepted + sendWindow)
      obtain ⟨hsize, hmono, os, hout, hos⟩ := sendLoop_spec hbase hend hwindow maxInflight (Nat.le_max_right _ _) h.slots
      refine ⟨hsize, ⟨os, hout, fun o ho => ⟨c, hc, hos o ho⟩⟩, fun _ hleft _ _ => ?_⟩
      by_cases hempty : a.inflight.size = 0
      · simp only [unacceptedLen, hc] at hleft
        exact sendLoop_starts hbase hend hwindow (by simp only [sendWindow]; omega) hempty
      · exact fun hzero => hempty (Nat.eq_zero_of_le_zero (hmono.trans hzero.le))

theorem Core.send (h : Core a) : Core a.send ∧ Sending a.send ∧ Writes a a.send := by
  obtain ⟨hslots, ⟨os, hout, hos⟩, hsending⟩ := send_spec h
  obtain ⟨inflight, nextId, out, heq⟩ := send_eq a
  rw [heq] at hslots hout hsending ⊢
  exact ⟨⟨h.bound, h.acquiring, h.base, hslots⟩, hsending, os, hout, fun o ho _ => hos o ho⟩

/-- Whether the reevaluation gives up the lease: no focus, nothing left to accept, nothing in flight. -/
def idle (a : Author β) : Bool := a.cur.isSome && !a.focused && a.unacceptedLen == 0 && a.inflight.isEmpty

theorem releaseIdle_eq (a : Author β) : a.releaseIdle = if a.idle then a.releaseCur else a := rfl

theorem idle_queryDue (a : Author β) : a.queryDue.idle = a.idle := by
  obtain ⟨finalizing, nextId, out, heq⟩ := queryDue_eq a
  rw [heq]
  rfl

theorem finalizing_requestDue (a : Author β) : a.requestDue.finalizing = a.finalizing := by
  unfold requestDue nextRequest
  repeat' split
  all_goals rfl

/-- What every handler leaves: bytes that may be sent are under way, and without a request or a retry timer nothing is left
to ask for. -/
structure Steady (a : Author β) : Prop extends Core a where
  sending : Sending a
  rests : a.pending = none → a.retryTimer = false →
    ¬ (a.cur = none ∧ a.acquireCond = true) ∧ ¬ (a.cur ≠ none ∧ a.needsReclaim = true) ∧ a.disowned.toList = []

/-- Besides, each lost epoch has its question out or its retry timer armed. -/
structure Progress (a : Author β) : Prop extends Steady a where
  asked : ∀ {k : EpochKey} {f : Finalizing β}, a.finalizing[k]? = some f → f.query ≠ none ∨ f.retry = true

theorem Core.reevaluate (h : Core a) : Steady a.reevaluate ∧ Writes a a.reevaluate := by
  have ht : Tame False True a a.queryDue.releaseIdle.requestDue :=
    (Tame.queryDue a).trans ((Tame.releaseIdle _).trans (.requestDue _))
  obtain ⟨hcore, hsending, os, hout, hos⟩ := (ht.core h).send
  refine ⟨⟨hcore, hsending, fun hp ht => ?_⟩, ?_⟩
  · obtain ⟨hreclaim, -, hacquire, hdisowned⟩ := reevaluate_prompt a hp ht
    refine ⟨fun ⟨hc, hcond⟩ => ?_, fun ⟨hc, hneeds⟩ => ?_, hdisowned⟩
    · simp [hacquire hc] at hcond
    · simp [hreclaim hc] at hneeds
  · obtain ⟨os₁, hout₁, hos₁, -⟩ := ht.out
    refine ⟨os₁ ++ os, ?_, fun o ho hw => ?_⟩
    · rw [Author.reevaluate, hout, hout₁, append_assoc]
    · obtain ho | ho := mem_append.mp ho
      · exact ((hos₁ o ho).1 hw).elim
      · exact hos o ho hw

theorem reevaluate_asked (h : a.idle = false) (hf : a.reevaluate.finalizing[k]? = some f) :
    f.query ≠ none ∨ f.retry = true := by
  obtain ⟨inflight, nextId, out, heq⟩ := send_eq a.queryDue.releaseIdle.requestDue
  rw [reevaluate, heq] at hf
  simp only [finalizing_requestDue, releaseIdle_eq, idle_queryDue, h, Bool.false_eq_true, if_false] at hf
  exact (queryDue_asked hf).imp_left isSome_iff_ne_none.mp

end Reevaluation

/-- An author under any sequence of handlers. -/
def handlers (β : Type) : System (Author β) (Call β) where
  init a := ∃ session, a = .new session
  step a c b := b = a.call c

/-- The reevaluation of the handler does not give up the lease. -/
def lasting (a : Author β) (c : Call β) : Prop := (c.effect a).any idle = false

instance (a : Author β) : DecidablePred (lasting a) := fun _ => inferInstanceAs (Decidable (_ = _))

section Runs
variable {a : Author β}

theorem steady_new (session : Nat) : Progress (.new session : Author β) := by
  refine ⟨⟨⟨nofun, nofun, nofun, Nat.zero_le _⟩, fun hc => absurd rfl hc, fun _ _ => ⟨?_, ?_, rfl⟩⟩, ?_⟩
  · simp [new, acquireCond]
  · simp [new]
  · intro k f hf
    simp [new] at hf

theorem Steady.call (h : Steady a) (c : Call β) : Steady (a.call c) ∧ Writes a (a.call c) := by
  rw [call_eq]
  cases hb : c.effect a with
  | none => exact ⟨h, [], by simp, by simp⟩
  | some b =>
    obtain ⟨hcore, os, hout, hos⟩ := h.toCore.effect hb
    obtain ⟨hsteady, os', hout', hos'⟩ := hcore.reevaluate
    refine ⟨hsteady, os ++ os', ?_, fun o ho hw => ?_⟩
    · rw [elim_some, hout', hout, append_assoc]
    · obtain ho | ho := mem_append.mp ho
      · simp [hos o ho] at hw
      · exact hos' o ho hw

theorem Progress.call (h : Progress a) (hc : lasting a c) : Progress (a.call c) := by
  refine ⟨(h.toSteady.call c).1, fun {k f} hf => ?_⟩
  rw [call_eq] at hf
  cases hb : c.effect a with
  | none =>
    rw [hb] at hf
    exact h.asked hf
  | some b =>
    rw [hb] at hf
    rw [lasting, hb] at hc
    exact reevaluate_asked hc hf

/-- After every handler an author has asked for all that it needs. -/
theorem progress_after_call (h : (handlers β).Reachable lasting a) (hc : lasting a c) : Progress (a.call c) ∧
    Writes a (a.call c) := by
  have hinv : Progress a := by
    refine h.inv ?_ ?_
    · rintro _ ⟨session, rfl⟩
      exact steady_new session
    · rintro a _ c hc rfl h
      exact h.call hc
  exact ⟨hinv.call hc, (hinv.toSteady.call c).2⟩

def granted : List (Call UInt8) := [.setFocus true, .typeBytes [7], .onGranted 1 5 1]

def written : Call UInt8 := .onInputAck (some 2) 5 1 1 1

theorem progress_after_call_written : ∃ a : Author UInt8, (handlers UInt8).Reachable lasting a ∧ a.current = some (5, 1) ∧
    Progress (a.call written) ∧ Writes a (a.call written) := by
  have hreach : (handlers UInt8).Reachable lasting (granted.foldl call (.new 5)) :=
    ⟨_, ⟨5, rfl⟩, .of_admits (by decide)⟩
  obtain ⟨hprogress, hwrites⟩ := progress_after_call hreach (show lasting _ written by decide)
  exact ⟨_, hreach, by decide, hprogress, hwrites⟩

/-- Without focus the author gives the epoch up once its byte is accepted; the queries were made before, so the epoch waits
for the next handler. -/
theorem released_epoch_not_queried : ∃ a : Author UInt8, (handlers UInt8).Reachable System.anyAction a ∧
    ∃ f, a.finalizing[(5, 1)]? = some f ∧ f.query = none ∧ f.retry = false := by
  have hreach : (handlers UInt8).Reachable System.anyAction ((granted ++ [written, .setFocus false]).foldl call (.new 5)) :=
    ⟨_, ⟨5, rfl⟩, .of_admits (by decide)⟩
  refine ⟨_, hreach, ⟨⟨1, []⟩, none, false, 1, 1⟩, by decide, rfl, rfl⟩

/-- After every handler an author is steady, and what it wrote is in its window. -/
theorem steady_after_call (h : (handlers β).Reachable System.anyAction a) (c : Call β) : Steady (a.call c) ∧
    Writes a (a.call c) := by
  have hinv : Steady a := by
    refine h.inv ?_ ?_
    · rintro _ ⟨session, rfl⟩
      exact (steady_new session).toSteady
    · rintro a _ c - rfl h
      exact (h.call c).1
  exact hinv.call c

theorem steady_after_call_written : Steady ((granted.foldl call (.new 5)).call written) :=
  (steady_after_call ⟨_, ⟨5, rfl⟩, .of_admits (by decide)⟩ written).1

end Runs

end Author
end Ferryx
