import Ferryx.Author
import Ferryx.Lib.TreeMap

/-! Two frames of the author's functions. `Quiet`: the function moves no byte and puts out requests only. `Tame`: it uses
identifiers in order, replaces the pending request only by a new one, and takes up no epoch. -/

namespace Ferryx
open Std Lib List Option ExtTreeMap Author
variable {β : Type}

/-! ### Messages -/

namespace Out

/-- The id that the answer to a message names. -/
def id? : Out β → Option Nat
  | .acquire id _ | .reclaim id _ _ | .release id _ _ | .write id _ _ _ _ | .getEpochState id _ _ => some id
  | .classified .. => none

def isRequest : Out β → Bool
  | .write .. | .classified .. => false
  | _ => true

def isWrite : Out β → Bool
  | .write .. => true
  | _ => false

/-- The epoch that a report is about; bytes that never had an epoch are reported with epoch `0`. -/
def doneKey? : Out β → Option EpochKey
  | .classified session epoch _ _ _ => if epoch = 0 then none else some (session, epoch)
  | _ => none

end Out

def doneKeys (os : List (Out β)) : List EpochKey := os.filterMap Out.doneKey?

@[simp] theorem doneKeys_append (os os' : List (Out β)) : doneKeys (os ++ os') = doneKeys os ++ doneKeys os' := by
  simp [doneKeys]

theorem doneKeys_of_request {os : List (Out β)} (h : ∀ o ∈ os, o.isRequest = true) : doneKeys os = [] := by
  rw [doneKeys, filterMap_eq_nil_iff]
  intro o ho
  have := h o ho
  cases o <;> simp_all [Out.isRequest, Out.doneKey?]

def Finalizing.data (f : Finalizing β) : Segment β × Nat := (f.seg, f.highCommitted)

namespace Author
variable {a b c : Author β}

/-! ### Functions that move no byte -/

/-- Only requests, timers and flags differ; the bytes are where they were. -/
structure Quiet (a b : Author β) : Prop where
  session : b.session = a.session
  cur : b.cur = a.cur
  unassigned : b.unassigned = a.unassigned
  finalizing : ∀ k : EpochKey, (b.finalizing[k]?).map Finalizing.data = (a.finalizing[k]?).map Finalizing.data
  out : ∃ os, b.out = a.out ++ os ∧ ∀ o ∈ os, o.isRequest = true

namespace Quiet

theorem of_eq (hs : b.session = a.session) (hc : b.cur = a.cur) (hu : b.unassigned = a.unassigned)
    (hf : b.finalizing = a.finalizing) (ho : b.out = a.out) : Quiet a b :=
  ⟨hs, hc, hu, fun k => by rw [hf], [], by simp [ho], by simp⟩

theorem refl (a : Author β) : Quiet a a := of_eq rfl rfl rfl rfl rfl

theorem trans (h : Quiet a b) (h' : Quiet b c) : Quiet a c where
  session := h'.session.trans h.session
  cur := h'.cur.trans h.cur
  unassigned := h'.unassigned.trans h.unassigned
  finalizing k := (h'.finalizing k).trans (h.finalizing k)
  out := by
    obtain ⟨os, ho, hos⟩ := h.out
    obtain ⟨os', ho', hos'⟩ := h'.out
    refine ⟨os ++ os', by rw [ho', ho, append_assoc], fun o hmem => ?_⟩
    rcases mem_append.mp hmem with hmem | hmem
    · exact hos o hmem
    · exact hos' o hmem

end Quiet

/-! ### Tame functions -/

/-- The author still has or reports on the epoch `k`. -/
def Uses (a : Author β) (k : EpochKey) : Prop := a.current = some k ∨ k ∈ a.finalizing ∨ k ∈ doneKeys a.out

/-- Request `p` is made between the states `a` and `b`, where the messages `os` are put out. -/
structure Fresh (a b : Author β) (os : List (Out β)) (p : Pending) : Prop where
  lt : a.nextId < p.id
  le : p.id ≤ b.nextId
  reclaim : ∀ {e s' e'}, p.kind = .reclaim e → Out.reclaim p.id s' e' ∈ os → s' = p.session ∧ e' = e
  acquire : p.kind = .acquire → b.current = none

/-- What holds of an author before and after every function of it. -/
structure Core (a : Author β) : Prop where
  bound : ∀ {c}, a.cur = some c → c.session = a.session ∧ c.session ∉ a.disowned
  acquiring : ∀ {p}, a.pending = some p → p.kind = .acquire → a.cur = none
  base : ∀ {c}, a.cur = some c → c.seg.base = c.accepted
  slots : a.inflight.size ≤ maxInflight

/-- The author goes on from `a` to `b`. It puts out writes only if `sends`, and it is quiet unless it `moves` bytes. -/
structure Tame (sends moves : Prop) (a b : Author β) : Prop where
  nextId : a.nextId ≤ b.nextId
  current : b.current = none ∨ b.current = a.current
  uses : ∀ {k}, b.Uses k → a.Uses k
  core : Core a → Core b
  quiet : moves ∨ Quiet a b
  out : ∃ os, b.out = a.out ++ os ∧
    (∀ o ∈ os, (o.isWrite = true → sends) ∧ ∀ id, o.id? = some id → a.nextId < id ∧ id ≤ b.nextId) ∧
    ∀ p, b.pending = some p → a.pending = some p ∨ Fresh a b os p

namespace Tame
variable {sends moves : Prop}

theorem of_out (hn : b.nextId = a.nextId) (ho : b.out = a.out) (hc : b.current = none ∨ b.current = a.current)
    (hp : b.pending = none ∨ b.pending = a.pending) (hf : ∀ k, k ∈ b.finalizing → k ∈ a.finalizing)
      (hcore : Core a → Core b)
    (hq : moves ∨ Quiet a b) : Tame sends moves a b where
  nextId := hn.ge
  current := hc
  uses := by
    rintro k (h | h | h)
    · rcases hc with hc | hc
      · rw [hc] at h
        cases h
      · exact .inl (hc ▸ h)
    · exact .inr (.inl (hf k h))
    · exact .inr (.inr (ho ▸ h))
  core := hcore
  quiet := hq
  out := by
    refine ⟨[], by simp [ho], by simp, fun p h => .inl ?_⟩
    rcases hp with hp | hp <;> simp_all

theorem edit {focused typing suppressed needsProbe needsReclaim retryTimer sendTimer : Bool} {suppressedEpoch : Nat}
    {pending : Option Pending} {inflight : ExtTreeMap Nat (Nat × Nat)} (hp : pending = none ∨ pending = a.pending)
    (hi : inflight.size ≤ a.inflight.size) : Tame sends moves a { a with
      focused, typing, suppressed, suppressedEpoch, needsProbe, needsReclaim, retryTimer, sendTimer, pending,
        inflight } := by
  refine of_out rfl rfl (.inr rfl) hp (fun _ h => h) (fun h => ⟨h.bound, fun hp' hk => ?_, h.base, hi.trans h.slots⟩)
    (.inr (.of_eq rfl rfl rfl rfl rfl))
  rcases hp with rfl | rfl
  · cases hp'
  · exact h.acquiring hp' hk

theorem flags {focused typing suppressed needsProbe needsReclaim retryTimer sendTimer : Bool} {suppressedEpoch : Nat} :
    Tame sends moves a
      { a with focused, typing, suppressed, suppressedEpoch, needsProbe, needsReclaim, retryTimer, sendTimer } :=
  edit (.inr rfl) le_rfl

theorem setFin {finalizing : ExtTreeMap EpochKey (Finalizing β)} (hf : ∀ k, k ∈ finalizing → k ∈ a.finalizing)
    (hq : moves ∨ ∀ k : EpochKey, (finalizing[k]?).map Finalizing.data = (a.finalizing[k]?).map Finalizing.data) :
    Tame sends moves a { a with finalizing } :=
  of_out rfl rfl (.inr rfl) (.inr rfl) hf (fun h => ⟨h.bound, h.acquiring, h.base, h.slots⟩)
    (hq.imp_right fun hd => ⟨rfl, rfl, rfl, hd, [], by simp, by simp⟩)

theorem refl (a : Author β) : Tame sends moves a a := flags

theorem trans (h : Tame sends moves a b) (h' : Tame sends moves b c) : Tame sends moves a c where
  nextId := h.nextId.trans h'.nextId
  current := by
    rcases h'.current with hc | hc
    · exact .inl hc
    · rw [hc]
      exact h.current
  uses hk := h.uses (h'.uses hk)
  core ha := h'.core (h.core ha)
  quiet := h.quiet.elim .inl fun q => h'.quiet.imp_right q.trans
  out := by
    obtain ⟨os, ho, hid, hp⟩ := h.out
    obtain ⟨os', ho', hid', hp'⟩ := h'.out
    have hn := h.nextId
    have hn' := h'.nextId
    refine ⟨os ++ os', by rw [ho', ho, append_assoc], fun o hmem => ?_, fun p hpc => ?_⟩
    · rcases mem_append.mp hmem with hmem | hmem
      · refine ⟨(hid o hmem).1, fun id hoid => ?_⟩
        have := (hid o hmem).2 id hoid
        omega
      · refine ⟨(hid' o hmem).1, fun id hoid => ?_⟩
        have := (hid' o hmem).2 id hoid
        omega
    · rcases hp' p hpc with hpb | F
      · refine (hp p hpb).imp_right fun F => ⟨F.lt, F.le.trans hn', fun hk hmem => ?_, fun hk => ?_⟩
        -- what is put out later has a greater identifier
        · rcases mem_append.mp hmem with hmem | hmem
          · exact F.reclaim hk hmem
          · have := ((hid' _ hmem).2 p.id rfl).1
            have := F.le
            omega
        · rcases h'.current with hc | hc
          · exact hc
          · rw [hc, F.acquire hk]
      · refine .inr ⟨hn.trans_lt F.lt, F.le, fun hk hmem => ?_, F.acquire⟩
        rcases mem_append.mp hmem with hmem | hmem
        · have := ((hid _ hmem).2 p.id rfl).2
          have := F.lt
          omega
        · exact F.reclaim hk hmem

theorem still (h : Tame sends False a b) : Quiet a b := h.quiet.resolve_left id

theorem sending (h : Tame sends moves a b) : Tame True True a b := { h with
  quiet := .inl trivial
  out := by
    obtain ⟨os, ho, hid, hp⟩ := h.out
    exact ⟨os, ho, fun o hmem => ⟨fun _ => trivial, (hid o hmem).2⟩, hp⟩ }

theorem foldl {ι : Type} {f : Author β → ι → Author β} (hf : ∀ a i, Tame sends moves a (f a i)) (is : List ι)
    (a : Author β) :
    Tame sends moves a (is.foldl f a) := by
  induction is generalizing a with
  | nil => exact refl a
  | cons i is ih => exact (hf a i).trans (ih _)

theorem takeId_push {o : Out β} (hid : o.id? = some (a.nextId + 1)) (ho : o.isRequest = true ∨ sends ∧ moves) :
    Tame sends moves a (a.takeId.push o) where
  nextId := Nat.le_succ _
  current := .inr rfl
  uses := by
    have hdone : doneKeys [o] = [] := by
      cases o <;> first | rfl | cases hid
    rintro k (h | h | h)
    · exact .inl h
    · exact .inr (.inl h)
    · simp only [push, takeId, doneKeys_append, hdone, append_nil] at h
      exact .inr (.inr h)
  core h := ⟨h.bound, h.acquiring, h.base, h.slots⟩
  quiet := ho.symm.imp And.right fun ho => ⟨rfl, rfl, rfl, fun _ => rfl, [o], rfl, by simpa using ho⟩
  out := by
    refine ⟨[o], rfl, fun o' ho' => ?_, fun p hp => .inl hp⟩
    obtain rfl := mem_singleton.mp ho'
    refine ⟨fun hw => ?_, fun id h => ?_⟩
    · rcases ho with ho | ho
      · cases o' <;> simp_all [Out.isRequest, Out.isWrite]
      · exact ho.1
    · obtain rfl := some.inj (hid.symm.trans h)
      exact ⟨Nat.lt_succ_self _, le_rfl⟩

theorem request (kind : PendingKind) (s : Nat) (hk : kind = .acquire → a.cur = none) :
    Tame sends moves a (a.request kind s) where
  nextId := Nat.le_succ _
  current := .inr rfl
  uses := by
    rintro k (h | h | h)
    · exact .inl h
    · exact .inr (.inl h)
    · refine .inr (.inr ?_)
      simp only [Author.request, Author.push, doneKeys_append, mem_append] at h
      rcases h with h | h
      · exact h
      · cases kind <;> simp [doneKeys, requestOut, Out.doneKey?] at h
  core h := by
    refine ⟨h.bound, fun hp => ?_, h.base, h.slots⟩
    obtain rfl := some.inj hp
    exact hk
  quiet := .inr ⟨rfl, rfl, rfl, fun _ => rfl, [_], rfl, by cases kind <;> simp [requestOut, Out.isRequest]⟩
  out := by
    refine ⟨_, rfl, fun o ho => ?_, fun p hp => .inr ?_⟩
    · obtain rfl := mem_singleton.mp ho
      refine ⟨(fun hw => by cases kind <;> cases hw), fun id h => ?_⟩
      have : id = a.nextId + 1 := by cases kind <;> exact (some.inj h).symm
      subst this
      exact ⟨Nat.lt_succ_self _, le_rfl⟩
    · obtain rfl := some.inj hp
      refine ⟨Nat.lt_succ_self _, le_rfl, fun hr hmem => ?_, fun hp => ?_⟩
      · dsimp only at hr
        subst hr
        have := mem_singleton.mp hmem
        cases this
        exact ⟨rfl, rfl⟩
      · exact congrArg (Option.map _) (hk hp)

/-! ### Requests and queries -/

section
variable (a : Author β)

theorem queryEpoch (k : EpochKey) : Tame sends moves a (a.queryEpoch k) := by
  refine Tame.trans (b := a.takeId.push (.getEpochState (a.nextId + 1) k.1 k.2)) (takeId_push rfl (.inl rfl))
    (setFin (fun _ hj => mem_modify.mp hj) (.inr fun j => ?_))
  rw [lookup_modify]
  split
  · rw [Option.map_map]
    rfl
  · rfl

theorem queryDue : Tame sends moves a a.queryDue := foldl queryEpoch _ _

theorem nextRequest : Tame sends moves a a.nextRequest := by
  unfold Author.nextRequest
  split
  · exact request _ _ nofun
  · split
    · exact request _ _ nofun
    · split
      next h =>
        rw [Bool.and_eq_true, isNone_iff_eq_none] at h
        exact request _ _ fun _ => h.1
      · split
        · exact request _ _ nofun
        · exact refl a

theorem requestDue : Tame sends moves a a.requestDue := by
  unfold Author.requestDue
  split
  · exact nextRequest a
  · exact refl a

theorem classify (s e : Nat) (finals : Option (Nat × Nat × Nat)) : Tame sends True a (a.classify s e finals) := by
  unfold Author.classify
  split
  · exact refl a
  next f hf =>
    refine ⟨le_rfl, .inr rfl, ?_, fun h => ⟨h.bound, h.acquiring, h.base, h.slots⟩, .inl trivial, _, rfl, ?_,
      fun p hp => .inl hp⟩
    · rintro k (h | h | h)
      · exact .inl h
      · exact .inr (.inl (mem_erase.mp h).2)
      · simp only [push, doneKeys_append, mem_append] at h
        rcases h with h | h
        · exact .inr (.inr h)
        · have hk : k = (s, e) := by
            simp only [doneKeys, Out.doneKey?, filterMap_cons, filterMap_nil] at h
            split at h
            · cases h
            next heq =>
              split at heq
              · cases heq
              · cases heq
                exact mem_singleton.mp h
          subst hk
          refine .inr (.inl (isSome_getElem?_iff_mem.mp ?_))
          rw [hf]
          rfl
    · intro o ho
      obtain rfl := mem_singleton.mp ho
      exact ⟨nofun, nofun⟩

end

/-! ### Loss of a lease -/

theorem detach {c : Cur β} (hc : a.cur = some c) (other : Bool) : Tame sends True a (a.detach c other) where
  nextId := le_rfl
  current := .inl rfl
  uses := by
    rintro k (h | h | h)
    · cases h
    · rcases mem_insert.mp h with h | h
      · refine .inl ?_
        rw [Author.current, hc, map_some, LawfulEqOrd.eq_of_compare h]
      · exact .inr (.inl h)
    · exact .inr (.inr h)
  core _ := ⟨nofun, fun _ _ => rfl, nofun, Nat.zero_le _⟩
  quiet := .inl trivial
  out := by
    refine ⟨[], by simp [Author.detach], by simp, fun p hp => .inl ?_⟩
    simp only [Author.detach] at hp
    split at hp
    · cases hp
    · exact hp

theorem lose (a : Author β) (s e : Nat) (finals : Option (Nat × Nat × Nat)) (other : Bool) :
    Tame sends True a (a.lose s e finals other) := by
  unfold Author.lose
  split
  · exact refl a
  next c hc =>
    split
    · dsimp only
      split
      · exact (detach hc other).trans (classify ..)
      · exact detach hc other
    · exact refl a

theorem releaseCur (a : Author β) : Tame sends True a a.releaseCur := by
  unfold Author.releaseCur
  split
  · exact refl a
  · exact (takeId_push rfl (.inl rfl)).trans (lose ..)

theorem releaseIdle (a : Author β) : Tame sends True a a.releaseIdle := by
  unfold Author.releaseIdle
  split
  · exact releaseCur a
  · exact refl a

/-! ### Writes -/

theorem sendChunk (h : a.inflight.size < maxInflight) (c : Cur β) (next stop : Nat) :
    Tame True True a (a.sendChunk c next stop) :=
  Tame.trans (b := a.takeId.push (.write (a.nextId + 1) c.session c.epoch next _))
    (takeId_push rfl (.inr ⟨trivial, trivial⟩))
    (of_out rfl rfl (.inr rfl) (.inr rfl) (fun _ h => h)
      (fun hcore => ⟨hcore.bound, hcore.acquiring, hcore.base, size_insert_le.trans h⟩) (.inl trivial))

theorem sendLoop (c : Cur β) (windowEnd fuel next : Nat) (a : Author β) :
    Tame True True a (sendLoop c windowEnd fuel next a) := by
  induction fuel generalizing next a with
  | zero => exact refl a
  | succ fuel ih =>
    unfold Author.sendLoop
    split
    next hfree => exact (sendChunk hfree.1 ..).trans (ih _ _)
    · exact refl a

theorem send (a : Author β) : Tame True True a a.send := by
  unfold Author.send
  split
  · exact refl a
  · split
    · exact refl a
    · exact sendLoop ..

theorem reevaluate (a : Author β) : Tame True True a a.reevaluate :=
  (queryDue a).trans ((releaseIdle _).trans ((requestDue _).trans (send _)))

/-! ### Answers -/

theorem clearPending (a : Author β) : Tame sends moves a { a with pending := none } := edit (.inl rfl) le_rfl

theorem disown {p : Pending} (hp : a.pending = some p) (hk : p.kind = .acquire) {retryTimer : Bool} :
    Tame sends moves a { a with disowned := a.disowned.insert p.session, pending := none, retryTimer } := by
  refine of_out rfl rfl (.inr rfl) (.inl rfl) (fun _ h => h) (fun h => ⟨fun hc => ?_, nofun, h.base, h.slots⟩)
    (.inr (.of_eq rfl rfl rfl rfl rfl))
  rw [show a.cur = none from h.acquiring hp hk] at hc
  cases hc

theorem own (s : Nat) {pending : Option Pending} (hp : pending = none ∨ pending = a.pending) :
    Tame sends moves a { a with disowned := a.disowned.erase s, pending } := by
  refine (edit hp le_rfl : Tame sends moves a { a with pending }).trans
    (of_out rfl rfl (.inr rfl) (.inr rfl) (fun _ h => h) (fun h => ⟨fun hc => ?_, h.acquiring, h.base, h.slots⟩)
      (.inr (.of_eq rfl rfl rfl rfl rfl)))
  exact (h.bound hc).imp_right fun hno hd => hno (ExtTreeSet.mem_erase.mp hd).2

theorem setCur {c c' : Cur β} (hc : a.cur = some c) (hs : c'.session = c.session) (he : c'.epoch = c.epoch)
    (hb : c.seg.base = c.accepted → c'.seg.base = c'.accepted) : Tame sends True a { a with cur := some c' } := by
  refine of_out rfl rfl (.inr ?_) (.inr rfl) (fun _ h => h)
    (fun h => ⟨fun hc' => ?_, fun hp hk => ?_, fun hc' => ?_, h.slots⟩)
    (.inl trivial)
  · simp only [Author.current, hc, map_some, hs, he]
  · obtain rfl := some.inj hc'
    rw [hs]
    exact h.bound hc
  · cases hc.symm.trans (h.acquiring hp hk)
  · obtain rfl := some.inj hc'
    exact hb (h.base hc)

section
variable (a : Author β)

theorem releaseGrant (s e : Nat) : Tame sends moves a (a.releaseGrant s e) := by
  have h : Tame sends moves a (a.takeId.push (.release a.takeId.nextId s e)) := takeId_push rfl (.inl rfl)
  simp only [Author.releaseGrant]
  split
  · exact h
  next hno =>
    refine h.trans
      (of_out rfl rfl (.inr rfl) (.inr rfl) (fun _ h => h) (fun h => ⟨fun {c} hc => ?_, h.acquiring, h.base, h.slots⟩)
      (.inr (.of_eq rfl rfl rfl rfl rfl)))
    -- the session is disowned only if it is not the one of the lease
    refine (h.bound hc).imp_right fun hout hd => ?_
    rcases ExtTreeSet.mem_insert.mp hd with heq | hd
    · obtain rfl : s = c.session := Nat.compare_eq_eq.mp heq
      have hcur : (a.takeId.push (.release a.takeId.nextId c.session e)).cur = some c := hc
      simp [hcur] at hno
    · exact hout hd

theorem abandonPending : Tame sends moves a a.abandonPending := by
  unfold Author.abandonPending
  split
  next hp => exact disown hp rfl
  · exact clearPending a
  · exact refl a

theorem dropUnassigned : Tame sends True a a.dropUnassigned := by
  unfold Author.dropUnassigned
  split
  · exact refl a
  · refine ⟨le_rfl, .inr rfl, ?_, fun h => ⟨h.bound, h.acquiring, h.base, h.slots⟩, .inl trivial, _, rfl, ?_,
      fun p hp => .inl hp⟩
    · rintro k (h | h | h)
      · exact .inl h
      · exact .inr (.inl h)
      · refine .inr (.inr ?_)
        simpa [push, doneKeys, Out.doneKey?] using h
    · intro o ho
      obtain rfl := mem_singleton.mp ho
      exact ⟨nofun, nofun⟩

theorem ack (s e accepted committed : Nat) : Tame sends True a (a.ack s e accepted committed) := by
  have hfin : Tame sends True a { a with finalizing := a.finalizing.modify (s, e) fun f => f.ack accepted committed } :=
    setFin (fun _ h => mem_modify.mp h) (.inl trivial)
  unfold Author.ack
  split
  next c hc =>
    split
    · refine setCur hc rfl rfl fun hb => ?_
      simp only [Cur.ack]
      split
      · rfl
      · omega
    · exact hfin
  · exact hfin

theorem answered (attempt : Option Nat) (s e : Nat) : Tame sends moves a (a.answered attempt s e) := by
  unfold Author.answered
  split
  · split
    · exact edit (.inr rfl) size_erase_le
    · exact refl a
  · exact refl a

theorem ackGap (s e : Nat) (gap : Option Nat) : Tame sends True a (a.ackGap s e gap) := by
  cases gap with
  | none => exact refl a
  | some acc => exact ack ..

theorem finishReclaim (s e : Nat) (ok : Bool) (cur acc com : Nat) (finals : Option (Nat × Nat × Nat)) :
    Tame sends True a (a.finishReclaim s e ok cur acc com finals) := by
  unfold Author.finishReclaim
  split
  · split
    · exact Tame.trans (edit (.inr rfl) (Nat.zero_le _)) (ack ..)
    · exact lose ..
  · exact refl a

theorem mapFinalizing {f : Finalizing β → Finalizing β} (hf : ∀ x, (f x).data = x.data) :
    Tame sends moves a (a.mapFinalizing f) := by
  refine setFin (fun _ h => ExtTreeMap.mem_map.mp h) (.inr fun k => ?_)
  simp only [lookup_map, Option.map_map]
  exact congrFun (congrArg Option.map (funext hf)) _

end

theorem setFinalizing {k : EpochKey} {f g : Finalizing β} (hf : a.finalizing[k]? = some f) (hg : g.data = f.data) :
    Tame sends moves a (a.setFinalizing k g) := by
  refine setFin (fun j hj => ?_) (.inr fun j => ?_)
  · rcases mem_insert.mp hj with h | h
    · rw [← LawfulEqOrd.eq_of_compare h]
      exact mem_iff_lookup.mpr ⟨_, hf⟩
    · exact h
  · rw [lookup_insert]
    split
    next hk => rw [← hk, hf, map_some, map_some, hg]
    · rfl

section
variable (a : Author β)

theorem confirmRelease (id : Nat) : Tame sends moves a (a.confirmRelease id) := by
  unfold Author.confirmRelease
  split
  · split
    · exact own _ (.inl rfl)
    · exact refl a
  · exact refl a

theorem finishProbe (s e : Nat) : Tame sends moves a (a.finishProbe s e) := by
  unfold Author.finishProbe
  split <;> exact flags

theorem failPending (id : Nat) : Tame sends moves a (a.failPending id) := by
  unfold Author.failPending
  split
  next pid kind psession hp =>
    split
    · split
      next hk => exact disown hp hk
      · exact edit (.inl rfl) le_rfl
    · exact refl a
  · exact refl a

theorem dropPending : Tame sends moves a a.dropPending := by
  unfold Author.dropPending
  split
  next hp => exact disown hp rfl
  · exact clearPending a

theorem resetConnection : Tame sends moves a a.resetConnection := edit (.inr rfl) (Nat.zero_le _)

theorem forgetRequests (s : Nat) : Tame sends moves a (a.forgetRequests s) := by
  refine own s ?_
  split
  · exact .inl rfl
  · exact .inr rfl

theorem failQueries (id : Nat) : Tame sends moves a (a.mapFinalizing (Finalizing.failQuery id)) := by
  refine mapFinalizing a fun f => ?_
  unfold Finalizing.failQuery
  split <;> rfl

theorem loseOwned (s : Nat) : Tame sends True a (a.loseOwned s) := by
  unfold Author.loseOwned
  split
  · split
    · exact lose ..
    · exact refl a
  · exact refl a

end

theorem bind (hc : a.cur = none) (session : Nat) {typing suppressed needsProbe : Bool} :
    Tame sends True a { a with session, typing, suppressed, needsProbe } := by
  refine of_out rfl rfl (.inr rfl) (.inr rfl) (fun _ h => h) (fun h => ⟨fun hc' => ?_, h.acquiring, h.base, h.slots⟩)
    (.inl trivial)
  cases hc.symm.trans hc'

end Tame

/-! ### What a handler does -/

theorem releaseCur_cur (a : Author β) : a.releaseCur.cur = none := by
  unfold releaseCur
  split
  next h => exact map_eq_none_iff.mp h
  next s e h =>
    obtain ⟨c, hc, hk⟩ := map_eq_some_iff.mp h
    cases hk
    simp only [lose, push, takeId, hc, and_self, if_true, isSome_none, Bool.false_eq_true, if_false, detach]

theorem cur_of_unbound (a : Author β) : a.releaseCur.abandonPending.dropUnassigned.cur = none := by
  have hq := (Tame.abandonPending a.releaseCur : Tame False False _ _).still.cur.trans (releaseCur_cur a)
  unfold dropUnassigned
  split <;> exact hq

theorem send_eq (a : Author β) : ∃ inflight nextId out, a.send = { a with inflight, nextId, out } := by
  have hloop : ∀ (c : Cur β) (windowEnd fuel next : Nat) (a : Author β),
      ∃ inflight nextId out, sendLoop c windowEnd fuel next a = { a with inflight, nextId, out } := by
    intro c windowEnd fuel
    induction fuel with
    | zero => exact fun _ a => ⟨a.inflight, a.nextId, a.out, rfl⟩
    | succ fuel ih =>
      intro next a
      unfold sendLoop
      split
      · obtain ⟨inflight, nextId, out, h⟩ :=
          ih (min windowEnd (next + chunk)) (a.sendChunk c next (min windowEnd (next + chunk)))
        exact ⟨inflight, nextId, out, h⟩
      · exact ⟨a.inflight, a.nextId, a.out, rfl⟩
  unfold send
  split
  · exact ⟨a.inflight, a.nextId, a.out, rfl⟩
  · split
    · exact ⟨a.inflight, a.nextId, a.out, rfl⟩
    · exact hloop _ _ _ _ _

theorem queryDue_eq (a : Author β) : ∃ finalizing nextId out, a.queryDue = { a with finalizing, nextId, out } := by
  have hfold : ∀ (ks : List EpochKey) (a : Author β), ∃ finalizing nextId out, ks.foldl queryEpoch a =
      { a with finalizing, nextId, out } := by
    intro ks
    induction ks with
    | nil => exact fun a => ⟨a.finalizing, a.nextId, a.out, rfl⟩
    | cons k ks ih =>
      intro a
      obtain ⟨finalizing, nextId, out, heq⟩ := ih (a.queryEpoch k)
      exact ⟨finalizing, nextId, out, heq⟩
  exact hfold _ a

inductive Call (β : Type) where
  | typeBytes (b : List β)
  | setFocus (focused : Bool)
  | rebind (session : Nat)
  | onGranted (id session epoch : Nat)
  | onReleased (id : Nat)
  | onInputAck (attempt : Option Nat) (session epoch accepted committed : Nat)
  | onWriteRetryable (attempt session epoch : Nat) (gapAccepted : Option Nat)
  | onSendTimer
  | onLeaseLost (session epoch newEpochOrCurrent : Nat)
  | onVacated (session : Nat)
  | onReclaimResult (id : Nat) (ok : Bool) (currentEpoch accepted committed : Nat) (finals : Option (Nat × Nat × Nat))
  | onReclaimEpochUnknown (id : Nat)
  | onEpochState (id session epoch fa cm pd : Nat) (fenced : Bool)
  | onEpochUnknown (session epoch : Nat)
  | onRequestFailed (id : Nat)
  | onRetryTimer
  | onReconnect
  | onOwnerLost (session : Nat)

def call (a : Author β) : Call β → Author β
  | .typeBytes b => a.typeBytes b
  | .setFocus focused => a.setFocus focused
  | .rebind session => a.rebind session
  | .onGranted id session epoch => a.onGranted id session epoch
  | .onReleased id => a.onReleased id
  | .onInputAck attempt session epoch accepted committed => a.onInputAck attempt session epoch accepted committed
  | .onWriteRetryable attempt session epoch gapAccepted => a.onWriteRetryable attempt session epoch gapAccepted
  | .onSendTimer => a.onSendTimer
  | .onLeaseLost session epoch newEpochOrCurrent => a.onLeaseLost session epoch newEpochOrCurrent
  | .onVacated session => a.onVacated session
  | .onReclaimResult id ok currentEpoch accepted committed finals =>
    a.onReclaimResult id ok currentEpoch accepted committed finals
  | .onReclaimEpochUnknown id => a.onReclaimEpochUnknown id
  | .onEpochState id session epoch fa cm pd fenced => a.onEpochState id session epoch fa cm pd fenced
  | .onEpochUnknown session epoch => a.onEpochUnknown session epoch
  | .onRequestFailed id => a.onRequestFailed id
  | .onRetryTimer => a.onRetryTimer
  | .onReconnect => a.onReconnect
  | .onOwnerLost session => a.onOwnerLost session

/-- What a handler changes before it reevaluates; `none` where it ignores the event. -/
def Call.effect (a : Author β) : Call β → Option (Author β)
  | .typeBytes b => some (a.startTyping.appendTyped b)
  | .setFocus focused => some (if focused then { a with focused }.unsuppress else { a with focused, typing := false })
  | .rebind session => some { a.releaseCur.abandonPending.dropUnassigned with session, typing := false }.unsuppress
  | .onGranted id session epoch => some (a.takeGrant id session epoch)
  | .onReleased id => some (a.confirmRelease id)
  | .onInputAck attempt session epoch accepted committed =>
    let a := a.answered attempt session epoch
    let b := a.ack session epoch accepted committed
    some (if a.ackGrows session epoch accepted committed then b.resumeSending else b)
  | .onWriteRetryable attempt session epoch gapAccepted =>
    if !a.holds session epoch || !a.inflight.contains attempt then none
    else some { a.ackGap session epoch gapAccepted with inflight := ∅, sendTimer := true }
  | .onSendTimer => some { a with sendTimer := false }
  | .onLeaseLost session epoch newEpochOrCurrent => some (a.lose session epoch none (newEpochOrCurrent != 0))
  | .onVacated session => some (if session = a.session then a.unsuppress else a)
  | .onReclaimResult id ok currentEpoch accepted committed finals =>
    match a.pending with
    | some ⟨pid, .probe, psession⟩ =>
      if pid = id then some ({ a with pending := none }.finishProbe psession currentEpoch) else none
    | some ⟨pid, .reclaim e, psession⟩ =>
      if pid = id then some ({ a with pending := none }.finishReclaim psession e ok currentEpoch accepted committed finals)
        else none
    | _ => none
  | .onReclaimEpochUnknown id =>
    match a.pending with
    | some ⟨pid, kind, psession⟩ =>
      if pid = id then
        match kind with
        | .reclaim e => some ({ a with pending := none }.lose psession e none true)
        | _ => some { a with pending := none }
      else none
    | none => none
  | .onEpochState id session epoch fa cm pd fenced =>
    match a.finalizing[(session, epoch)]? with
    | none => none
    | some f =>
      if f.query ≠ some id then none
      else if fenced then
        some ((a.setFinalizing (session, epoch) { f with query := none }).classify session epoch (some (fa, cm, pd)))
      else
        let a := (a.setFinalizing (session, epoch) { f with query := none, retry := true }).takeId
        some (a.push (.release a.nextId session epoch))
  | .onEpochUnknown session epoch => some (a.classify session epoch none)
  | .onRequestFailed id => some ((a.failPending id).mapFinalizing (Finalizing.failQuery id))
  | .onRetryTimer => some ({ a with retryTimer := false }.mapFinalizing Finalizing.clearRetry)
  | .onReconnect => some (a.dropPending.resetConnection.mapFinalizing Finalizing.clearQuery)
  | .onOwnerLost session => some (((a.loseOwned session).classifyOwned session).forgetRequests session)

theorem call_eq (a : Author β) (c : Call β) : a.call c = (c.effect a).elim a reevaluate := by
  cases c with
  | setFocus focused => cases focused <;> rfl
  | onInputAck attempt session epoch accepted committed => rfl
  | onWriteRetryable attempt session epoch gapAccepted =>
    simp only [call, onWriteRetryable, Call.effect]
    split <;> rfl
  | onReclaimResult id ok currentEpoch accepted committed finals =>
    simp only [call, onReclaimResult, Call.effect]
    cases hp : a.pending with
    | none => rfl
    | some p =>
      obtain ⟨pid, kind, psession⟩ := p
      by_cases hid : pid = id
      · cases kind <;> simp only [hid, if_true, elim_some, elim_none]
      · cases kind <;> simp only [hid, if_false, elim_none]
  | onReclaimEpochUnknown id =>
    simp only [call, onReclaimEpochUnknown, Call.effect]
    cases hp : a.pending with
    | none => rfl
    | some p =>
      obtain ⟨pid, kind, psession⟩ := p
      by_cases hid : pid = id
      · cases kind <;> simp only [hid, if_true, elim_some]
      · simp only [hid, if_false, elim_none]
  | onEpochState id session epoch fa cm pd fenced =>
    simp only [call, onEpochState, Call.effect]
    cases hf : a.finalizing[(session, epoch)]? with
    | none => rfl
    | some f =>
      dsimp only
      split
      · rfl
      · split <;> rfl
  | _ => rfl

def Call.isGrant : Call β → Bool
  | .onGranted .. => true
  | _ => false

theorem Tame.effect {c : Call β} (hc : c.isGrant = false) (hb : c.effect a = some b) : Tame False True a b := by
  cases c with
  | typeBytes bs =>
    cases hb
    refine Tame.trans (b := a.startTyping) flags ?_
    unfold appendTyped
    split
    next hcur => exact setCur hcur rfl rfl id
    · exact of_out rfl rfl (.inr rfl) (.inr rfl) (fun _ h => h) (fun h => ⟨h.bound, h.acquiring, h.base, h.slots⟩)
        (.inl trivial)
  | setFocus focused =>
    cases hb
    split <;> exact flags
  | rebind session =>
    cases hb
    exact ((releaseCur a).trans ((abandonPending _).trans (dropUnassigned _))).trans (bind (cur_of_unbound a) session)
  | onGranted id s e => cases hc
  | onReleased id =>
    cases hb
    exact confirmRelease a id
  | onInputAck attempt s e accepted committed =>
    cases hb
    have h : Tame False True a ((a.answered attempt s e).ack s e accepted committed) := (answered ..).trans (ack ..)
    split
    · exact h.trans (edit (.inr rfl) size_filter_le_size)
    · exact h
  | onWriteRetryable attempt s e gap =>
    simp only [Call.effect] at hb
    split at hb <;> cases hb
    exact (ackGap a s e gap).trans (edit (.inr rfl) (Nat.zero_le _))
  | onSendTimer =>
    cases hb
    exact flags
  | onLeaseLost s e n =>
    cases hb
    exact lose ..
  | onVacated s =>
    cases hb
    split <;> exact flags
  | onReclaimResult id ok current accepted committed finals =>
    simp only [Call.effect] at hb
    split at hb
    · split at hb <;> cases hb
      exact (clearPending a).trans (finishProbe ..)
    · split at hb <;> cases hb
      exact (clearPending a).trans (finishReclaim ..)
    · cases hb
  | onReclaimEpochUnknown id =>
    simp only [Call.effect] at hb
    split at hb
    · split at hb
      · split at hb <;> cases hb
        · exact (clearPending a).trans (lose ..)
        · exact clearPending a
      · cases hb
    · cases hb
  | onEpochState id s e fa cm pd fenced =>
    simp only [Call.effect] at hb
    split at hb
    · cases hb
    next f hf =>
      split at hb
      · cases hb
      · split at hb <;> cases hb
        · exact (setFinalizing (g := { f with query := none }) hf rfl).trans (classify ..)
        · exact (setFinalizing (g := { f with query := none, retry := true }) hf rfl).trans (takeId_push rfl (.inl rfl))
  | onEpochUnknown s e =>
    cases hb
    exact classify ..
  | onRequestFailed id =>
    cases hb
    exact (failPending a id).trans (failQueries ..)
  | onRetryTimer =>
    cases hb
    exact Tame.trans (b := { a with retryTimer := false }) flags (mapFinalizing _ fun _ => rfl)
  | onReconnect =>
    cases hb
    exact (dropPending a).trans ((resetConnection _).trans (mapFinalizing _ fun _ => rfl))
  | onOwnerLost s =>
    cases hb
    exact (loseOwned a s).trans ((foldl (fun a (k : EpochKey) => classify a k.1 k.2 none) _ _).trans (forgetRequests ..))

theorem Tame.call (c : Call β) (hc : c.isGrant = false) : Tame True True a (a.call c) := by
  rw [call_eq]
  cases hb : c.effect a with
  | none => exact refl a
  | some b => exact (effect hc hb).sending.trans (reevaluate b)

/-! ### The ids of the epochs in use -/

/-- An epoch in use now or reported on before. -/
def Used (hist : List (Out β)) (a : Author β) (k : EpochKey) : Prop := a.Uses k ∨ k ∈ doneKeys hist

/-- The identifiers of an author that put out `hist` before, where epoch `k` was granted to its request `gid k`. -/
structure Ids (gid : EpochKey → Option Nat) (hist : List (Out β)) (a : Author β) : Prop where
  pending_le : ∀ {p}, a.pending = some p → p.id ≤ a.nextId
  reclaim : ∀ {id e s s' e'}, a.pending = some ⟨id, .reclaim e, s⟩ → Out.reclaim id s' e' ∈ hist ++ a.out →
    s' = s ∧ e' = e
  out_le : ∀ {o id}, o ∈ hist ++ a.out → o.id? = some id → id ≤ a.nextId
  spent : ∀ {k}, Used hist a k → ∃ id, gid k = some id ∧ id ≤ a.nextId ∧ ∀ p, a.pending = some p → id < p.id
  curMax : ∀ {k j id id'}, a.current = some k → Used hist a j → gid k = some id → gid j = some id' → id' ≤ id
  acquiring : ∀ {p}, a.pending = some p → p.kind = .acquire → a.current = none

namespace Ids
variable {gid gid' : EpochKey → Option Nat} {hist : List (Out β)}

theorem tame (h : Ids gid hist a) (t : Tame True True a b) : Ids gid hist b := by
  obtain ⟨os, ho, hid, hp⟩ := t.out
  have hn := t.nextId
  have hused : ∀ {k}, Used hist b k → Used hist a k := fun hk => hk.imp_left t.uses
  have hcur : ∀ {k}, b.current = some k → a.current = some k := by
    intro k hk
    rcases t.current with hc | hc
    · rw [hc] at hk
      cases hk
    · rwa [hc] at hk
  exact {
    pending_le := fun {p} hpb => by
      rcases hp p hpb with hpa | F
      · exact (h.pending_le hpa).trans hn
      · exact F.le
    reclaim := fun {id e s s' e'} hpb hmem => by
      rw [ho, ← append_assoc] at hmem
      rcases hp _ hpb with hpa | F
      · have hle := h.pending_le hpa
        rcases mem_append.mp hmem with hmem | hmem
        · exact h.reclaim hpa hmem
        · have := ((hid _ hmem).2 id rfl).1
          dsimp only at hle
          omega
      · rcases mem_append.mp hmem with hmem | hmem
        · have := h.out_le hmem rfl
          have := F.lt
          dsimp only at this
          omega
        · exact F.reclaim rfl hmem
    out_le := fun {o id} hmem hoid => by
      rw [ho, ← append_assoc] at hmem
      rcases mem_append.mp hmem with hmem | hmem
      · exact (h.out_le hmem hoid).trans hn
      · exact ((hid o hmem).2 id hoid).2
    spent := fun {k} hk => by
      obtain ⟨id, hg, hle, hlt⟩ := h.spent (hused hk)
      refine ⟨id, hg, hle.trans hn, fun p hpb => ?_⟩
      rcases hp p hpb with hpa | F
      · exact hlt p hpa
      · exact hle.trans_lt F.lt
    curMax := fun hk hj => h.curMax (hcur hk) (hused hj)
    acquiring := fun {p} hpb hk => by
      rcases hp p hpb with hpa | F
      · rcases t.current with hc | hc
        · exact hc
        · rw [hc, h.acquiring hpa hk]
      · exact F.acquire hk }

theorem flush (h : Ids gid hist a) : Ids gid (hist ++ a.out) { a with out := [] } := by
  have hused : ∀ {k}, Used (hist ++ a.out) { a with out := [] } k → Used hist a k := by
    rintro k ((hk | hk | hk) | hk)
    · exact .inl (.inl hk)
    · exact .inl (.inr (.inl hk))
    · cases hk
    · rw [doneKeys_append] at hk
      rcases mem_append.mp hk with hk | hk
      · exact .inr hk
      · exact .inl (.inr (.inr hk))
  exact { h with
    reclaim := fun hp hmem => h.reclaim hp (by simpa using hmem)
    out_le := fun hmem => h.out_le (by simpa using hmem)
    spent := fun hk => h.spent (hused hk)
    curMax := fun hk hj => h.curMax hk (hused hj) }

theorem mono (h : Ids gid hist a) (hg : ∀ {k id}, gid k = some id → gid' k = some id) : Ids gid' hist a := { h with
  spent hk := by
    obtain ⟨id, hid, h'⟩ := h.spent hk
    exact ⟨id, hg hid, h'⟩
  curMax {k j id id'} hk hj hid hid' := by
    obtain ⟨i, hi, -⟩ := h.spent (.inl (.inl hk))
    obtain ⟨i', hi', -⟩ := h.spent hj
    obtain rfl := some.inj ((hg hi).symm.trans hid)
    obtain rfl := some.inj ((hg hi').symm.trans hid')
    exact h.curMax hk hj hi hi' }

theorem adopt (h : Ids gid hist a) {p : Pending} {s e : Nat} (hp : a.pending = some p) (hg : gid (s, e) = some p.id) :
    Ids gid hist ({ a with pending := none }.adopt s e) := by
  have hused : ∀ {k}, Used hist ({ a with pending := none }.adopt s e) k → k = (s, e) ∨ Used hist a k := by
    rintro k ((hk | hk | hk) | hk)
    · exact .inl (some.inj hk).symm
    · exact .inr (.inl (.inr (.inl hk)))
    · exact .inr (.inl (.inr (.inr hk)))
    · exact .inr (.inr hk)
  exact {
    pending_le := fun hp => by cases hp
    reclaim := fun hp => by cases hp
    out_le := h.out_le
    spent := fun {k} hk => by
      rcases hused hk with rfl | hk
      · exact ⟨p.id, hg, h.pending_le hp, fun _ hp => by cases hp⟩
      · obtain ⟨id, hid, hle, -⟩ := h.spent hk
        exact ⟨id, hid, hle, fun _ hp => by cases hp⟩
    curMax := fun {k j id id'} hk hj hid hid' => by
      obtain rfl := some.inj hk
      obtain rfl := some.inj (hg.symm.trans hid)
      rcases hused hj with rfl | hj
      · exact (some.inj (hid'.symm.trans hid)).le
      · obtain ⟨i, hi, -, hlt⟩ := h.spent hj
        obtain rfl := some.inj (hi.symm.trans hid')
        exact (hlt p hp).le
    acquiring := fun hp => by cases hp }

end Ids
end Author
end Ferryx
