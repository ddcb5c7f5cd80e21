import Ferryx.Theorems.AuthorFrames

/-! The bytes an author has: from some offset on, an epoch's bytes are in the current segment, in a lost epoch or in a
report; those before were accepted. Every function of the author keeps this (`Holdings`), which reads the sessions only
through counters (`View`). -/

namespace Ferryx
open Std Lib Function List Option ExtTreeMap Author
variable {β : Type}

/-! ### Ledgers, streams and reports -/

/-- What the ledgers say of each epoch. -/
structure View where
  accepted : EpochKey → Nat
  committed : EpochKey → Nat
  Closed : EpochKey → Prop

/-- A later view: counters grow, and a closed epoch accepts nothing more. -/
structure View.Le (v w : View) : Prop where
  accepted : ∀ k, v.accepted k ≤ w.accepted k
  committed : ∀ k, v.committed k ≤ w.committed k
  closed : ∀ {k}, v.Closed k → w.Closed k ∧ w.accepted k = v.accepted k

theorem View.Le.refl (v : View) : v.Le v :=
  ⟨fun _ => le_rfl, fun _ => le_rfl, fun h => ⟨h, rfl⟩⟩

/-- A segment of the stream of epoch `k`: the bytes from an accepted offset on. -/
structure SegOk (v : View) (S : EpochKey → List β) (k : EpochKey) (seg : Segment β) : Prop where
  accepted : seg.base ≤ v.accepted k
  le : seg.base ≤ (S k).length
  bytes : seg.bytes = (S k).drop seg.base

/-- What a reported status says of the byte at an offset of epoch `k`. -/
def StatusOk (v : View) (k : EpochKey) (off : Nat) : Status → Prop
  | .written => off < v.committed k
  | .acceptedPendingWrite => off < v.accepted k
  | .notDelivered => v.Closed k ∧ v.accepted k ≤ off
  | .acceptedThenDropped => False
  | .outcomeUnknown => True

/-- Where the bytes of an author are that the sessions have not taken: assigned to an epoch, not assigned
    yet, or dropped without having been assigned. -/
structure Stock (β : Type) where
  session : Nat
  streams : EpochKey → List β
  unassigned : List β
  dropped : List (Nat × β)

namespace Stock

/-- The bytes without an epoch are given up. -/
def drop (st : Stock β) : Stock β :=
  { st with unassigned := [], dropped := st.dropped ++ st.unassigned.map fun b => (st.session, b) }

/-- A granted epoch takes the bytes typed so far. -/
def assign (st : Stock β) (e : Nat) : Stock β :=
  { st with streams := update st.streams (st.session, e) st.unassigned, unassigned := [] }

/-- Bytes typed under a lease go to its epoch. -/
def typeCur (st : Stock β) (e : Nat) (bs : List β) : Stock β :=
  { st with streams := update st.streams (st.session, e) (st.streams (st.session, e) ++ bs) }

/-- Bytes typed without a lease wait for one. -/
def typeUnassigned (st : Stock β) (bs : List β) : Stock β := { st with unassigned := st.unassigned ++ bs }

end Stock

/-- The bytes of a report that never had an epoch, with the session they were typed for. -/
def Out.dropped : Out β → List (Nat × β)
  | .classified session epoch _ bytes _ => if epoch = 0 then bytes.map fun b => (session, b) else []
  | _ => []

/-- The bytes that reports list as given up, with their sessions. -/
def droppedBytes (os : List (Out β)) : List (Nat × β) := os.flatMap Out.dropped

@[simp] theorem droppedBytes_append (os os' : List (Out β)) : droppedBytes (os ++ os') = droppedBytes os ++
    droppedBytes os' := by
  simp [droppedBytes]

theorem droppedBytes_of_request {os : List (Out β)} (h : ∀ o ∈ os, o.isRequest = true) : droppedBytes os = [] := by
  rw [droppedBytes, flatMap_eq_nil_iff]
  intro o ho
  have := h o ho
  cases o <;> simp_all [Out.isRequest, Out.dropped]

/-- What the author puts out is true: writes are parts of the stream, and reports are sound. -/
def OutOk (v : View) (S : EpochKey → List β) : Out β → Prop
  | .write _ session epoch start bytes => bytes <+: (S (session, epoch)).drop start
  | .classified session epoch first bytes statuses =>
    statuses.length = bytes.length ∧
      if epoch = 0 then ∀ st ∈ statuses, st = .notDelivered
      else SegOk v S (session, epoch) ⟨first, bytes⟩ ∧
        ∀ (j : Nat) (st : Status), statuses[j]? = some st → StatusOk v (session, epoch) (first + j) st
  | _ => True

/-- The final counters of epoch `k`, when the session told them. -/
def FinalsOk (v : View) (k : EpochKey) (finals : Option (Nat × Nat × Nat)) : Prop :=
  ∀ fa cm pd, finals = some (fa, cm, pd) → v.Closed k ∧ fa = v.accepted k ∧ cm ≤ v.committed k ∧ pd = 0

/-! ### Later views -/

section Mono
variable {v w : View} {S : EpochKey → List β} {k : EpochKey}

theorem SegOk.mono {seg : Segment β} (h : SegOk v S k seg) (hvw : v.Le w) : SegOk w S k seg :=
  ⟨h.accepted.trans (hvw.accepted k), h.le, h.bytes⟩

theorem StatusOk.mono {off : Nat} {st : Status} (h : StatusOk v k off st) (hvw : v.Le w) : StatusOk w k off st := by
  cases st with
  | written => exact Nat.lt_of_lt_of_le h (hvw.committed k)
  | acceptedPendingWrite => exact Nat.lt_of_lt_of_le h (hvw.accepted k)
  | acceptedThenDropped => exact h.elim
  | notDelivered =>
    obtain ⟨hc, ha⟩ := hvw.closed h.1
    exact ⟨hc, ha ▸ h.2⟩
  | outcomeUnknown => trivial

theorem OutOk.mono {o : Out β} (h : OutOk v S o) (hvw : v.Le w) : OutOk w S o := by
  cases o with
  | classified s e first bytes statuses =>
    obtain ⟨hlen, hst⟩ := h
    refine ⟨hlen, ?_⟩
    split at hst
    next he =>
      rw [if_pos he]
      exact hst
    next he =>
      rw [if_neg he]
      exact ⟨hst.1.mono hvw, fun j st hj => (hst.2 j st hj).mono hvw⟩
  | _ => exact h

theorem OutOk.extend {S' : EpochKey → List β} {o : Out β} (h : OutOk v S o) (hS : ∀ k, S k <+: S' k)
    (hdone : ∀ k, o.doneKey? = some k → S' k = S k) : OutOk v S' o := by
  cases o with
  | write t s e start bytes => exact h.trans ((hS (s, e)).drop start)
  | classified s e first bytes statuses =>
    obtain ⟨hlen, hst⟩ := h
    refine ⟨hlen, ?_⟩
    split at hst
    next he =>
      rw [if_pos he]
      exact hst
    next he =>
      have hk := hdone (s, e) (by simp [Out.doneKey?, he])
      rw [if_neg he]
      exact ⟨⟨hst.1.accepted, hk ▸ hst.1.le, hk ▸ hst.1.bytes⟩, hst.2⟩
  | _ => trivial

theorem SegOk.ack {c : Cur β} {acc : Nat} (com : Nat) (hseg : SegOk v S k c.seg) (hb : c.seg.base = c.accepted)
    (hacc : acc ≤ v.accepted k) (hS : v.accepted k ≤ (S k).length) :
    SegOk v S k (c.ack acc com).seg ∧ (c.ack acc com).seg.base = (c.ack acc com).accepted := by
  have hmax : max c.accepted acc ≤ v.accepted k := Nat.max_le.mpr ⟨hb ▸ hseg.accepted, hacc⟩
  have hle := hseg.le
  simp only [Cur.ack]
  split
  next hpos =>
    refine ⟨⟨hmax, hmax.trans hS, ?_⟩, rfl⟩
    have hlen : max c.accepted acc - c.seg.base ≤ c.seg.bytes.length := by
      rw [hseg.bytes, length_drop]
      omega
    dsimp only
    rw [Nat.min_eq_left hlen, hseg.bytes, drop_drop, Nat.add_sub_cancel' (by omega)]
  · exact ⟨hseg, by omega⟩

end Mono

namespace Author

/-! ### The bytes of an author -/

/-- The author has the bytes `st`, where it put out `hist` before. -/
structure Holdings (v : View) (st : Stock β) (hist : List (Out β)) (a : Author β) : Prop where
  session : a.session = st.session
  unassigned : a.unassigned = st.unassigned
  dropped : droppedBytes (hist ++ a.out) = st.dropped
  cur : ∀ {c : Cur β}, a.cur = some c → st.unassigned = [] ∧ c.session = st.session ∧ c.epoch ≠ 0 ∧
    c.seg.base = c.accepted ∧ SegOk v st.streams (c.session, c.epoch) c.seg ∧ c.committed ≤ v.committed (c.session, c.epoch)
  fin : ∀ {k : EpochKey} {f : Finalizing β}, a.finalizing[k]? = some f → k.2 ≠ 0 ∧ a.current ≠ some k ∧
    SegOk v st.streams k f.seg ∧ f.highCommitted ≤ v.committed k
  out : ∀ o ∈ hist ++ a.out, OutOk v st.streams o
  done : ∀ k ∈ doneKeys (hist ++ a.out), a.current ≠ some k ∧ k ∉ a.finalizing
  once : (doneKeys (hist ++ a.out)).Nodup
  covered : ∀ {k}, st.streams k ≠ [] → a.current = some k ∨ k ∈ a.finalizing ∨ k ∈ doneKeys (hist ++ a.out)

namespace Holdings
variable {v w : View} {st : Stock β} {hist : List (Out β)} {a b : Author β}
variable {finals : Option (Nat × Nat × Nat)} {c : Cur β} {s e acc com : Nat} {k : EpochKey}

section
variable (h : Holdings v st hist a)
include h

theorem mono (hvw : v.Le w) : Holdings w st hist a := { h with
  cur hc := by
    obtain ⟨hu, hs, he, hb, hseg, hcom⟩ := h.cur hc
    exact ⟨hu, hs, he, hb, hseg.mono hvw, hcom.trans (hvw.committed _)⟩
  fin hf := by
    obtain ⟨he, hc, hseg, hcom⟩ := h.fin hf
    exact ⟨he, hc, hseg.mono hvw, hcom.trans (hvw.committed _)⟩
  out o ho := (h.out o ho).mono hvw }

theorem flush : Holdings v st (hist ++ a.out) { a with out := [] } := { h with
  dropped := by rw [append_nil, h.dropped]
  out o ho := h.out o (by simpa using ho)
  done k hk := h.done k (by simpa using hk)
  once := by rw [append_nil]; exact h.once
  covered hk := by
    rw [append_nil]
    exact h.covered hk }

theorem quiet (t : Tame False False a b) : Holdings v st hist b := by
  have q := t.still
  have hcur : b.current = a.current := by rw [current, current, q.cur]
  have hmem : ∀ k, k ∈ b.finalizing ↔ k ∈ a.finalizing := by
    intro k
    have := congrArg Option.isSome (q.finalizing k)
    rw [isSome_map, isSome_map] at this
    rw [← isSome_getElem?_iff_mem, ← isSome_getElem?_iff_mem, this]
  obtain ⟨os, ho, hos⟩ := q.out
  have hdone : doneKeys (hist ++ b.out) = doneKeys (hist ++ a.out) := by
    rw [ho, ← append_assoc, doneKeys_append _ os, doneKeys_of_request hos, append_nil]
  exact {
    session := q.session.trans h.session
    unassigned := q.unassigned.trans h.unassigned
    dropped := by
      rw [ho, ← append_assoc, droppedBytes_append _ os, droppedBytes_of_request hos, append_nil, h.dropped]
    cur := fun hc => h.cur (q.cur ▸ hc)
    fin := fun {k f} hf => by
      have := q.finalizing k
      rw [hf, map_some] at this
      obtain ⟨g, hg, hgf⟩ := map_eq_some_iff.mp this.symm
      obtain ⟨he, hc, hseg, hcom⟩ := h.fin hg
      cases f
      cases g
      cases hgf
      exact ⟨he, hcur ▸ hc, hseg, hcom⟩
    out := fun o hmem => by
      rw [ho, ← append_assoc] at hmem
      rcases mem_append.mp hmem with hmem | hmem
      · exact h.out o hmem
      · have := hos o hmem
        cases o <;> trivial
    done := fun k hk => by
      rw [hdone] at hk
      rw [hcur, hmem]
      exact h.done k hk
    once := hdone ▸ h.once
    covered := fun hk => by
      rw [hcur, hmem, hdone]
      exact h.covered hk }

theorem detach (hc : a.cur = some c) (other : Bool) : Holdings v st hist (a.detach c other) := by
  obtain ⟨-, -, he, hb, hseg, hcom⟩ := h.cur hc
  have hcur : a.current = some (c.session, c.epoch) := by rw [current, hc, map_some]
  exact { h with
    cur := fun hc => by cases hc
    fin := fun {k f} hf => by
      simp only [Author.detach, lookup_insert] at hf
      split at hf
      next hk =>
        subst hk
        cases hf
        exact ⟨he, by simp [current, Author.detach], hseg, hcom⟩
      · obtain ⟨he', -, hseg', hcom'⟩ := h.fin hf
        exact ⟨he', by simp [current, Author.detach], hseg', hcom'⟩
    done := fun k hk => by
      obtain ⟨hne, hfin⟩ := h.done k hk
      refine ⟨by simp [current, Author.detach], fun hmem => ?_⟩
      rcases mem_insert.mp hmem with heq | hmem
      · rw [hcur, LawfulEqOrd.eq_of_compare heq] at hne
        exact hne rfl
      · exact hfin hmem
    covered := fun {k} hk => by
      rcases h.covered hk with hk | hk | hk
      · obtain rfl := some.inj (hcur.symm.trans hk)
        exact .inr (.inl mem_insert_self)
      · exact .inr (.inl (mem_insert.mpr (.inr hk)))
      · exact .inr (.inr hk) }

end

theorem statusOk {f : Finalizing β} (hcom : f.highCommitted ≤ v.committed k) (hfin : FinalsOk v k finals) (off : Nat) :
    StatusOk v k off (f.status finals off) := by
  unfold Finalizing.status
  split
  · split
    next hlt => exact hlt.trans_le hcom
    · trivial
  next fa cm pd =>
    obtain ⟨hclosed, rfl, hcm, rfl⟩ := hfin fa cm pd rfl
    split
    next hlt => exact hlt.trans_le hcm
    · split
      next hlt => exact hlt.trans_le (Nat.sub_le _ _)
      next hge =>
        split
        · omega
        next hge' => exact ⟨hclosed, Nat.le_of_not_lt hge'⟩

theorem classify (h : Holdings v st hist a) {s e : Nat} (hfin : FinalsOk v (s, e) finals) :
    Holdings v st hist (a.classify s e finals) := by
  unfold Author.classify
  split
  · exact h
  · next f hf =>
    obtain ⟨he, hcur, hseg, hcom⟩ := h.fin hf
    have hmem : (s, e) ∈ a.finalizing := mem_iff_lookup.mpr ⟨_, hf⟩
    have hkeys : ∀ first bytes sts, doneKeys (hist ++ (a.out ++ [Out.classified s e first bytes sts])) =
        doneKeys (hist ++ a.out) ++ [(s, e)] := by
      intro first bytes sts
      have : doneKeys [Out.classified s e first bytes sts] = [(s, e)] := by simp [doneKeys, Out.doneKey?, he]
      rw [← List.append_assoc, doneKeys_append _ [_], this]
    have hne : (s, e) ∉ doneKeys (hist ++ a.out) := fun hk => (h.done _ hk).2 hmem
    exact { h with
      dropped := by
        rw [← h.dropped]
        simp [push, droppedBytes, Out.dropped, he]
      fin := fun {k g} hg => by
        simp only [push, lookup_erase] at hg
        split at hg
        · cases hg
        · exact h.fin hg
      out := fun o ho => by
        simp only [push, ← List.append_assoc] at ho
        rcases List.mem_append.mp ho with ho | ho
        · exact h.out o ho
        · obtain rfl := List.mem_singleton.mp ho
          refine ⟨by simp, ?_⟩
          rw [if_neg he]
          refine ⟨hseg, fun j st hj => ?_⟩
          rw [List.getElem?_map, map_eq_some_iff] at hj
          obtain ⟨i, hi, rfl⟩ := hj
          obtain ⟨hij, rfl⟩ := List.getElem?_eq_some_iff.mp hi
          rw [List.getElem_range]
          exact statusOk hcom hfin _
      done := fun k hk => by
        simp only [push, hkeys, List.mem_append, List.mem_singleton] at hk
        simp only [push, mem_erase]
        rcases hk with hk | rfl
        · exact ⟨(h.done k hk).1, fun hk' => (h.done k hk).2 hk'.2⟩
        · exact ⟨hcur, fun hk' => hk'.1 (by simp)⟩
      once := by
        simp only [push, hkeys]
        exact h.once.append (by simp) (by simpa using hne)
      covered := fun {k} hk => by
        simp only [push, hkeys, mem_erase, List.mem_append, List.mem_singleton]
        by_cases hk' : k = (s, e)
        · exact .inr (.inr (.inr hk'))
        · rcases h.covered hk with hk | hk | hk
          · exact .inl hk
          · exact .inr (.inl ⟨fun hc => hk' (LawfulEqOrd.eq_of_compare hc).symm, hk⟩)
          · exact .inr (.inr (.inl hk)) }

theorem lose (h : Holdings v st hist a) {s e : Nat} (other : Bool)
    (hfin : FinalsOk v (s, e) finals) : Holdings v st hist (a.lose s e finals other) := by
  unfold Author.lose
  split
  · exact h
  next c hc =>
    split
    · dsimp only
      split
      · exact (h.detach hc other).classify hfin
      · exact h.detach hc other
    · exact h

theorem finalsOk_none : FinalsOk v k none := fun _ _ _ h => by cases h

section
variable (h : Holdings v st hist a)
include h

theorem releaseCur : Holdings v st hist a.releaseCur := by
  unfold Author.releaseCur
  split
  · exact h
  · exact (h.quiet (.takeId_push rfl (.inl rfl))).lose false finalsOk_none

theorem releaseIdle : Holdings v st hist a.releaseIdle := by
  unfold Author.releaseIdle
  split
  · exact h.releaseCur
  · exact h

/-! ### Writes -/

theorem sendChunk (hc : a.cur = some c) {next stop : Nat} (hn : c.seg.base ≤ next) :
    Holdings v st hist (a.sendChunk c next stop) := by
  obtain ⟨-, -, -, -, hseg, -⟩ := h.cur hc
  have hpre : slice c.seg.bytes (next - c.seg.base) (stop - c.seg.base) <+: (st.streams (c.session, c.epoch)).drop
      next := by
    rw [slice, hseg.bytes, drop_drop, Nat.add_sub_cancel' hn]
    exact take_prefix _ _
  have hkeys : doneKeys (hist ++ (a.sendChunk c next stop).out) = doneKeys (hist ++ a.out) := by
    simp [Author.sendChunk, Author.push, Author.takeId, doneKeys, Out.doneKey?]
  exact { h with
    dropped := by
      rw [← h.dropped]
      simp [Author.sendChunk, Author.push, Author.takeId, droppedBytes, Out.dropped]
    out := fun o ho => by
      simp only [Author.sendChunk, Author.push, Author.takeId, ← append_assoc] at ho
      rcases mem_append.mp ho with ho | ho
      · exact h.out o ho
      · obtain rfl := mem_singleton.mp ho
        exact hpre
    done := fun k hk => h.done k (hkeys ▸ hk)
    once := hkeys ▸ h.once
    covered := fun hk => by
      rw [hkeys]
      exact h.covered hk }

theorem sendLoop (hc : a.cur = some c) (windowEnd fuel : Nat) {next : Nat} (hn : c.seg.base ≤ next) :
    Holdings v st hist (sendLoop c windowEnd fuel next a) := by
  induction fuel generalizing next a with
  | zero => exact h
  | succ fuel ih =>
    unfold sendLoop
    split
    next hlt =>
      refine ih (h.sendChunk hc hn) hc ?_
      have := hlt.2
      omega
    · exact h

theorem send : Holdings v st hist a.send := by
  unfold Author.send
  split
  · exact h
  · split
    · exact h
    next c hc =>
      obtain ⟨-, -, -, hb, -, -⟩ := h.cur hc
      refine h.sendLoop hc _ _ ?_
      rw [hb]
      exact Nat.le_max_right _ _

theorem reevaluate : Holdings v st hist a.reevaluate :=
  ((h.quiet (.queryDue a)).releaseIdle.quiet (.requestDue _)).send

theorem ack (hacc : acc ≤ v.accepted (s, e)) (hcom : com ≤ v.committed (s, e))
    (hS : v.accepted (s, e) ≤ (st.streams (s, e)).length ∨ a.current ≠ some (s, e)) :
      Holdings v st hist (a.ack s e acc com) := by
  have hfin : Holdings v st hist { a with finalizing := a.finalizing.modify (s, e) fun f => f.ack acc com } := { h with
    fin := fun {k f} hf => by
      simp only [lookup_modify] at hf
      split at hf
      next hk =>
        subst hk
        obtain ⟨g, hg, rfl⟩ := map_eq_some_iff.mp hf
        obtain ⟨he, hc, hseg, hcom'⟩ := h.fin hg
        exact ⟨he, hc, hseg, Nat.max_le.mpr ⟨hcom', hcom⟩⟩
      · exact h.fin hf
    done := fun k hk => ⟨(h.done k hk).1, fun hmem => (h.done k hk).2 (mem_modify.mp hmem)⟩
    covered := fun {k} hk => by
      rcases h.covered hk with hk | hk | hk
      · exact .inl hk
      · exact .inr (.inl (mem_modify.mpr hk))
      · exact .inr (.inr hk) }
  unfold Author.ack
  split
  next c hc =>
    split
    next hk =>
      obtain ⟨rfl, rfl⟩ := hk
      have hcur : a.current = some (c.session, c.epoch) := by rw [current, hc, map_some]
      obtain ⟨hu, hs, he, hb, hseg, hcom'⟩ := h.cur hc
      obtain ⟨hseg', hb'⟩ := hseg.ack com hb hacc (hS.resolve_right fun hne => hne hcur)
      have hcur' : ({ a with cur := some (c.ack acc com) } : Author β).current = a.current := by
        rw [hcur]
        rfl
      exact { h with
        cur := fun {c'} hc' => by
          obtain rfl := some.inj hc'
          exact ⟨hu, hs, he, hb', hseg', Nat.max_le.mpr ⟨hcom', hcom⟩⟩
        fin := fun hf => by
          rw [hcur']
          exact h.fin hf
        done := fun k hk => by
          rw [hcur']
          exact h.done k hk
        covered := fun hk => by
          rw [hcur']
          exact h.covered hk }
    · exact hfin
  · exact hfin

theorem dropUnassigned : Holdings v st.drop hist a.dropUnassigned := by
  unfold Author.dropUnassigned
  split
  next hnil =>
    have hu : st.unassigned = [] := by
      rw [← h.unassigned]
      exact isEmpty_iff.mp hnil
    have hst : st.drop = st := by
      cases st
      simp_all [Stock.drop]
    rw [hst]
    exact h
  · have hkeys : ∀ s bytes sts, doneKeys (hist ++ (a.out ++ [Out.classified s 0 0 bytes sts])) =
        doneKeys (hist ++ a.out) := by
      intro s bytes sts
      simp [doneKeys, Out.doneKey?]
    exact { h with
      unassigned := rfl
      dropped := by
        have := h.dropped
        simp only [droppedBytes_append] at this
        simp only [push, droppedBytes_append, ← append_assoc, this, Stock.drop, h.session, h.unassigned]
        simp [droppedBytes, Out.dropped]
      cur := fun hc => by
        obtain ⟨-, hc⟩ := h.cur hc
        exact ⟨rfl, hc⟩
      out := fun o ho => by
        simp only [push, ← append_assoc] at ho
        rcases mem_append.mp ho with ho | ho
        · exact h.out o ho
        · obtain rfl := mem_singleton.mp ho
          exact ⟨length_replicate, fun st hst => (mem_replicate.mp hst).2⟩
      done := fun k hk => by
        simp only [push, hkeys] at hk
        exact h.done k hk
      once := by
        simp only [push, hkeys]
        exact h.once
      covered := fun hk => by
        simp only [push, hkeys]
        exact h.covered hk }

theorem bind {st' : Stock β} (hc : a.cur = none) (hb : b.cur = none) (hf : b.finalizing = a.finalizing) (ho : b.out = a.out)
    (hst : st' = { st with session := b.session, unassigned := b.unassigned }) : Holdings v st' hist b := by
  subst hst
  exact {
    session := rfl
    unassigned := rfl
    dropped := ho ▸ h.dropped
    cur := fun hc' => by
      rw [hb] at hc'
      cases hc'
    fin := fun {k f} hf' => by
      rw [hf] at hf'
      obtain ⟨he, -, hseg, hcom⟩ := h.fin hf'
      exact ⟨he, by simp [current, hb], hseg, hcom⟩
    out := ho ▸ h.out
    done := fun k hk => by
      rw [ho] at hk
      rw [hf]
      exact ⟨by simp [current, hb], (h.done k hk).2⟩
    once := ho ▸ h.once
    covered := fun hk => by
      rw [hf, ho]
      refine (h.covered hk).imp_left fun hk => ?_
      simp [current, hc] at hk }

theorem extend {bs : List β} (hbs : st.streams k <+: bs) (hk : a.current = none ∨ a.current = some k)
    (hfin : k ∉ a.finalizing)
    (hdone : k ∉ doneKeys (hist ++ a.out)) (hc : b.cur = some c) (hck : (c.session, c.epoch) = k)
      (hf : b.finalizing = a.finalizing)
    (ho : b.out = a.out) (hs : b.session = st.session) (hu : b.unassigned = [])
    (hcur : c.session = st.session ∧ c.epoch ≠ 0 ∧ c.seg.base = c.accepted ∧ SegOk v (update st.streams k bs) k c.seg ∧
      c.committed ≤ v.committed k) : Holdings v { st with streams := update st.streams k bs, unassigned := [] } hist b := by
  have hbcur : b.current = some k := by rw [current, hc, map_some, hck]
  have hne : ∀ {j}, j ∈ a.finalizing → j ≠ k := fun hj hjk => hfin (hjk ▸ hj)
  exact {
    session := hs
    unassigned := hu
    dropped := ho ▸ h.dropped
    cur := fun {c'} hc' => by
      obtain rfl := some.inj (hc.symm.trans hc')
      rw [hck]
      exact ⟨rfl, hcur⟩
    fin := fun {j f} hj => by
      rw [hf] at hj
      obtain ⟨he, -, hseg, hcom⟩ := h.fin hj
      have hjk : j ≠ k := hne (mem_iff_lookup.mpr ⟨_, hj⟩)
      have hS : update st.streams k bs j = st.streams j := update_of_ne hjk _ _
      have hseg' : SegOk v (update st.streams k bs) j f.seg :=
        ⟨hseg.accepted, hS ▸ hseg.le, hS ▸ hseg.bytes⟩
      exact ⟨he, by rw [hbcur]; simpa using hjk.symm, hseg', hcom⟩
    out := fun o hmem => by
      rw [ho] at hmem
      show OutOk v (update st.streams k bs) o
      refine (h.out o hmem).extend (fun j => ?_) fun j hj => ?_
      · by_cases hjk : j = k
        · subst hjk
          rwa [update_self]
        · rw [update_of_ne hjk]
      · refine update_of_ne ?_ _ _
        rintro rfl
        exact hdone (mem_filterMap.mpr ⟨o, hmem, hj⟩)
    done := fun j hj => by
      rw [ho] at hj
      rw [hbcur, hf]
      refine ⟨fun hjk => ?_, (h.done j hj).2⟩
      obtain rfl := some.inj hjk
      exact hdone hj
    once := ho ▸ h.once
    covered := fun {j} hj => by
      rw [hbcur, hf, ho]
      by_cases hjk : j = k
      · exact .inl (by rw [hjk])
      · have hj : st.streams j ≠ [] := update_of_ne hjk bs st.streams ▸ hj
        rcases h.covered hj with hj | hj
        · rcases hk with hk | hk
          · rw [hk] at hj
            cases hj
          · rw [hk] at hj
            exact absurd (some.inj hj).symm hjk
        · exact .inr hj }

theorem adopt {e : Nat} (hc : a.cur = none) (he : e ≠ 0) (hS : st.streams (a.session, e) = [])
    (hfin : (a.session, e) ∉ a.finalizing)
    (hdone : (a.session, e) ∉ doneKeys (hist ++ a.out)) : Holdings v (st.assign e) hist (a.adopt a.session e) := by
  rw [h.session] at hS hfin hdone ⊢
  refine h.extend (hS ▸ nil_prefix) (.inl (by rw [current, hc, map_none])) hfin hdone rfl rfl rfl rfl
    h.session rfl ⟨rfl, he, rfl, ⟨Nat.zero_le _, Nat.zero_le _, ?_⟩, Nat.zero_le _⟩
  rw [update_self, drop_zero]
  exact h.unassigned

theorem typeCur (hc : a.cur = some c) (bs : List β) : Holdings v (st.typeCur c.epoch bs) hist (a.appendTyped bs) := by
  have hcur : a.current = some (c.session, c.epoch) := by rw [current, hc, map_some]
  obtain ⟨hu, hs, he, hb, hseg, hcom⟩ := h.cur hc
  have hst : st.typeCur c.epoch bs = { st with
      streams := update st.streams (c.session, c.epoch) (st.streams (c.session, c.epoch) ++ bs)
      unassigned := [] } := by
    rw [Stock.typeCur, ← hu, hs]
  simp only [appendTyped, hc, hst]
  refine h.extend (prefix_append _ _) (.inr hcur) (fun hmem => ?_) (fun hmem => (h.done _ hmem).1 hcur) rfl rfl
    rfl rfl h.session (h.unassigned.trans hu) ⟨hs, he, hb, ⟨hseg.accepted, ?_, ?_⟩, hcom⟩
  · obtain ⟨f, hf⟩ := mem_iff_lookup.mp hmem
    exact (h.fin hf).2.1 hcur
  · rw [update_self, length_append]
    exact hseg.le.trans (Nat.le_add_right _ _)
  · rw [update_self, drop_append_of_le_length hseg.le, ← hseg.bytes]

theorem typeUnassigned (hc : a.cur = none) (bs : List β) : Holdings v (st.typeUnassigned bs) hist (a.appendTyped bs) := by
  simp only [appendTyped, hc]
  refine h.bind hc rfl rfl rfl ?_
  simp only [Stock.typeUnassigned, h.session, h.unassigned]

end

section
variable (h : Holdings v st hist a)
include h

/-! ### Handlers -/

theorem setFocus (focused : Bool) : Holdings v st hist (a.setFocus focused) := by
  unfold Author.setFocus
  refine Holdings.reevaluate (h.quiet ?_)
  dsimp only
  split <;> exact .flags

theorem rebind (s : Nat) : Holdings v { st.drop with session := s } hist (a.rebind s) := by
  have hcur := cur_of_unbound a
  have hd : Holdings v st.drop hist a.releaseCur.abandonPending.dropUnassigned :=
    (h.releaseCur.quiet (.abandonPending _)).dropUnassigned
  refine Holdings.reevaluate (hd.bind hcur hcur rfl rfl ?_)
  simp only [unsuppress, hd.unassigned]

theorem releaseGrant (s e : Nat) : Holdings v st hist (a.releaseGrant s e) :=
  h.quiet (.releaseGrant a s e)

theorem onReleased (id : Nat) : Holdings v st hist (a.onReleased id) :=
  (h.quiet (.confirmRelease a id)).reevaluate

theorem onInputAck (attempt : Option Nat) (hacc : acc ≤ v.accepted (s, e)) (hcom : com ≤ v.committed (s, e))
    (hS : v.accepted (s, e) ≤ (st.streams (s, e)).length ∨ a.current ≠ some (s, e)) :
    Holdings v st hist (a.onInputAck attempt s e acc com) := by
  have hq : Tame False False a (a.answered attempt s e) := .answered a attempt s e
  have hcur : (a.answered attempt s e).current = a.current := by rw [current, current, hq.still.cur]
  have h' : Holdings v st hist ((a.answered attempt s e).ack s e acc com) := (h.quiet hq).ack hacc hcom (hcur ▸ hS)
  simp only [Author.onInputAck]
  split
  · exact (h'.quiet (.edit (.inr rfl) size_filter_le_size) : Holdings v st hist (resumeSending _)).reevaluate
  · exact h'.reevaluate

theorem onWriteRetryable (attempt : Nat) {s e : Nat} {gap : Option Nat}
    (hgap : ∀ acc, gap = some acc → acc ≤ v.accepted (s, e))
    (hS : v.accepted (s, e) ≤ (st.streams (s, e)).length ∨ a.current ≠ some (s, e)) :
    Holdings v st hist (a.onWriteRetryable attempt s e gap) := by
  unfold Author.onWriteRetryable
  split
  · exact h
  · have h' : Holdings v st hist (a.ackGap s e gap) := by
      cases gap with
      | none => exact h
      | some acc => exact h.ack (hgap acc rfl) (Nat.zero_le _) hS
    exact (h'.quiet (.edit (.inr rfl) (Nat.zero_le _)) :
      Holdings v st hist { a.ackGap s e gap with inflight := ∅, sendTimer := true }).reevaluate

theorem onSendTimer : Holdings v st hist a.onSendTimer :=
  (h.quiet .flags : Holdings v st hist { a with sendTimer := false }).reevaluate

theorem onLeaseLost (s e n : Nat) : Holdings v st hist (a.onLeaseLost s e n) :=
  (h.lose _ finalsOk_none).reevaluate

theorem onVacated (s : Nat) : Holdings v st hist (a.onVacated s) := by
  unfold Author.onVacated
  refine Holdings.reevaluate ?_
  split
  · exact h.quiet .flags
  · exact h

theorem clearPending : Holdings v st hist { a with pending := none } :=
  h.quiet (.clearPending a)

theorem finishReclaim (ok : Bool) (cur : Nat) (hok : ok = true → acc ≤ v.accepted (s, e) ∧ com ≤ v.committed (s, e))
    (hfin : a.current = some (s, e) → FinalsOk v (s, e) finals)
    (hS : v.accepted (s, e) ≤ (st.streams (s, e)).length ∨ a.current ≠ some (s, e)) :
    Holdings v st hist (a.finishReclaim s e ok cur acc com finals) := by
  unfold Author.finishReclaim
  split
  next hholds =>
    split
    next hk =>
      have h' : Holdings v st hist { a with needsReclaim := false, inflight := ∅ } :=
        h.quiet (.edit (.inr rfl) (Nat.zero_le _))
      exact h'.ack (hok hk.1).1 (hok hk.1).2 hS
    · exact h.lose _ (hfin (beq_iff_eq.mp hholds))
  · exact h

theorem onReclaimResult {id acc com : Nat} (ok : Bool) (cur : Nat)
    (hmsg : ∀ s e, a.pending = some ⟨id, .reclaim e, s⟩ → (ok = true → acc ≤ v.accepted (s, e) ∧ com ≤ v.committed (s, e)) ∧
      (a.current = some (s, e) → FinalsOk v (s, e) finals))
        (hS : ∀ k, v.accepted k ≤ (st.streams k).length ∨ a.current ≠ some k) :
    Holdings v st hist (a.onReclaimResult id ok cur acc com finals) := by
  unfold Author.onReclaimResult
  split
  · split
    · exact (h.clearPending.quiet (.finishProbe ..)).reevaluate
    · exact h
  next pid e s hp =>
    split
    next hid =>
      subst hid
      obtain ⟨hok, hfin⟩ := hmsg s e hp
      exact (h.clearPending.finishReclaim ok cur hok hfin (hS _)).reevaluate
    · exact h
  · exact h

theorem onReclaimEpochUnknown (id : Nat) : Holdings v st hist (a.onReclaimEpochUnknown id) := by
  unfold Author.onReclaimEpochUnknown
  split
  · split
    · dsimp only
      split
      · exact (h.clearPending.lose _ finalsOk_none).reevaluate
      · exact h.clearPending.reevaluate
    · exact h
  · exact h

theorem onEpochState (id : Nat) {s e fa cm pd : Nat} {fenced : Bool}
    (hfin : fenced = true → FinalsOk v (s, e) (some (fa, cm, pd))) :
    Holdings v st hist (a.onEpochState id s e fa cm pd fenced) := by
  unfold Author.onEpochState
  split
  · exact h
  next f hf =>
    split
    · exact h
    · split
      next hfenced =>
        exact ((h.quiet (.setFinalizing (g := { f with query := none }) hf rfl)).classify (hfin hfenced)).reevaluate
      · exact ((h.quiet (.setFinalizing (g := { f with query := none, retry := true }) hf rfl)).quiet
          (.takeId_push rfl (.inl rfl))).reevaluate

theorem onEpochUnknown (s e : Nat) : Holdings v st hist (a.onEpochUnknown s e) :=
  (h.classify finalsOk_none).reevaluate

theorem onRequestFailed (id : Nat) : Holdings v st hist (a.onRequestFailed id) :=
  ((h.quiet (.failPending a id)).quiet (.failQueries ..)).reevaluate

theorem onRetryTimer : Holdings v st hist a.onRetryTimer := by
  have h' : Holdings v st hist { a with retryTimer := false } := h.quiet .flags
  exact (h'.quiet (.mapFinalizing (f := Finalizing.clearRetry) _ fun _ => rfl)).reevaluate

theorem onReconnect : Holdings v st hist a.onReconnect :=
  (h.quiet ((Tame.dropPending a).trans
    ((Tame.resetConnection _).trans (.mapFinalizing (f := Finalizing.clearQuery) _ fun _ => rfl)))).reevaluate

theorem classifyOwned (s : Nat) : Holdings v st hist (a.classifyOwned s) := by
  unfold Author.classifyOwned
  generalize a.finalizing.keys.filter (fun k => k.1 == s) = ks
  induction ks generalizing a with
  | nil => exact h
  | cons k ks ih => exact ih (h.classify finalsOk_none)

theorem onOwnerLost (s : Nat) : Holdings v st hist (a.onOwnerLost s) := by
  have hlose : Holdings v st hist (a.loseOwned s) := by
    unfold loseOwned
    split
    · split
      · exact h.lose _ finalsOk_none
      · exact h
    · exact h
  exact ((hlose.classifyOwned s).quiet (.forgetRequests _ s)).reevaluate

end

end Holdings
end Author
end Ferryx
