import Ferryx.Author
import Ferryx.PaneNetwork

/-! A handler changes some fields, may send a size, and then reevaluates (`effect_cases`); only a grant that the pane keeps
gives it a lease. What holds of a pane after every handler is read off this. -/

namespace Ferryx
open Std Lib PaneLease

variable {σ : Type}

def Pane.Out.id? : Pane.Out σ → Option Nat
  | .acquire id _ | .reclaim id _ _ | .release id _ _ => some id
  | .resize .. => none

namespace PaneLease

/-- The handlers with their arguments. -/
inductive Call (σ : Type := Nat) where
  | setPolicy (p : Pane.Policy) (userIntent : Bool)
  | onVisibleApplied (cols rows : UInt16)
  | onRetryTimer
  | onRequestFailed (id : Nat)
  | onReleased (id : Nat)
  | onReconnect
  | onGranted (id session epoch : Nat) (appliedSeq : σ)
  | onReclaimResult (id : Nat) (ok : Bool) (currentEpoch : Nat) (appliedSeq : σ)
  | onRevoked (session revokedEpoch newEpoch : Nat)
  | onVacated
  | onResizeAck (session epoch : Nat) (seq : σ)
  | onStaleResize (appliedEpoch : Nat) (appliedSeq : σ)
  | onStaleLease (session epoch currentEpoch : Nat)
  | onUnackedTimeout

/-- The number from which a handler lets the pane go on. -/
def Call.appliedSeq : Call σ → Option σ
  | .onGranted _ _ _ appliedSeq | .onReclaimResult _ _ _ appliedSeq | .onStaleResize _ appliedSeq => some appliedSeq
  | _ => none

section
variable [LinearOrder σ] [Add σ] [OfNat σ 1]

def call (a : PaneLease σ) : Call σ → PaneLease σ
  | .setPolicy p userIntent => a.setPolicy p userIntent
  | .onVisibleApplied cols rows => a.onVisibleApplied cols rows
  | .onRetryTimer => a.onRetryTimer
  | .onRequestFailed id => a.onRequestFailed id
  | .onReleased id => a.onReleased id
  | .onReconnect => a.onReconnect
  | .onGranted id session epoch appliedSeq => a.onGranted id session epoch appliedSeq
  | .onReclaimResult id ok currentEpoch appliedSeq => a.onReclaimResult id ok currentEpoch appliedSeq
  | .onRevoked session revokedEpoch newEpoch => a.onRevoked session revokedEpoch newEpoch
  | .onVacated => a.onVacated
  | .onResizeAck session epoch seq => a.onResizeAck session epoch seq
  | .onStaleResize appliedEpoch appliedSeq => a.onStaleResize appliedEpoch appliedSeq
  | .onStaleLease session epoch currentEpoch => a.onStaleLease session epoch currentEpoch
  | .onUnackedTimeout => a.onUnackedTimeout

end

def Call.ofMessage : ToPane → Call
  | .granted id s epoch appliedSeq => .onGranted id s epoch appliedSeq
  | .reclaimed id ok currentEpoch appliedSeq => .onReclaimResult id ok currentEpoch appliedSeq
  | .released id => .onReleased id
  | .revoked s revokedEpoch newEpoch => .onRevoked s revokedEpoch newEpoch
  | .vacated _ => .onVacated
  | .ack s epoch seq => .onResizeAck s epoch seq
  | .staleResize epoch seq => .onStaleResize epoch seq
  | .staleLease s epoch currentEpoch => .onStaleLease s epoch currentEpoch
  | .failed id => .onRequestFailed id

theorem handle_eq (a : PaneLease) (m : ToPane) : a.handle m = a.call (.ofMessage m) := by
  cases m <;> rfl

/-- The lease that a call gives the pane: that of a grant which answers the pending acquire and is still wanted. -/
def takes (a : PaneLease σ) : Call σ → Option EpochKey
  | .onGranted id session epoch _ =>
    match a.pending with
    | some p =>
      if (p.kind = .acquire ∧ p.id = id) ∧ p.session = session ∧ a.policy.boundSession = some p.session ∧
          a.policy.generation = p.generation ∧ a.eligible then some (session, epoch)
      else none
    | none => none
  | _ => none

/-- A pane that is not eligible any more gives its lease up. -/
def giveUp (a : PaneLease σ) : PaneLease σ := if !a.eligible && a.lease.isSome then a.relinquish else a

theorem reevaluate_eq (a : PaneLease σ) :
    a.reevaluate = if a.giveUp.pending.isSome || a.giveUp.retryTimer then a.giveUp else a.giveUp.sendDue := rfl

variable {a b : PaneLease σ} {c : Call σ}

theorem eligible_congr (hp : b.policy = a.policy) (hs : b.suppressed = a.suppressed) : b.eligible = a.eligible := by
  simp only [eligible, hp, hs]

theorem ptySync_cases [Add σ] [OfNat σ 1] (a : PaneLease σ) :
    (a.ptySync = a ∧ ∀ {l d}, a.lease = some l → a.ptyDesired = some d →
      a.needsReclaim = false → a.eligible = true → l.generation = a.policy.generation → ∃ q, a.latestSent = some (q, d)) ∨
    ∃ l d, a.lease = some l ∧ a.ptyDesired = some d ∧ a.needsReclaim = false ∧
      a.ptySync = { a with nextSeq := a.nextSeq + 1, latestSent := some (a.nextSeq + 1, d) }.push
        (.resize l.session l.epoch (a.nextSeq + 1) d.1 d.2) := by
  unfold ptySync
  split
  next l cols rows hl hd =>
    split
    next hn =>
      refine .inl ⟨rfl, fun {l' d} hl' _ hnr he hg => ?_⟩
      obtain rfl : l = l' := Option.some.inj (hl.symm.trans hl')
      simp [hnr, he, hg] at hn
    next hn =>
      split
      next hsame =>
        refine .inl ⟨rfl, fun {l' d} _ hd' _ _ _ => ?_⟩
        obtain rfl : (cols, rows) = d := Option.some.inj (hd.symm.trans hd')
        obtain ⟨⟨q, d⟩, hq, heq⟩ := (Option.any_eq_true _ _).mp hsame
        obtain rfl : d = (cols, rows) := eq_of_beq heq
        exact ⟨q, hq⟩
      · refine .inr ⟨l, (cols, rows), hl, hd, ?_, rfl⟩
        simp only [Bool.or_eq_true, not_or, Bool.not_eq_true] at hn
        exact hn.1.1
  next h =>
    refine .inl ⟨rfl, fun {l d} hl hd => ?_⟩
    exact (h l d.1 d.2 hl hd).elim

theorem ptySync_policy [Add σ] [OfNat σ 1] (a : PaneLease σ) : a.ptySync.policy = a.policy := by
  obtain ⟨heq, -⟩ | ⟨l, d, -, -, -, heq⟩ := ptySync_cases a <;> rw [heq]
  rfl

theorem takes_eq_some {k : EpochKey} (h : a.takes c = some k) : ∃ id appliedSeq p,
    c = .onGranted id k.1 k.2 appliedSeq ∧ a.pending = some p ∧ p.kind = .acquire ∧ p.id = id := by
  unfold takes at h
  split at h
  next id session epoch appliedSeq =>
    split at h
    next p hp =>
      split at h
      next hmine =>
        cases h
        exact ⟨id, appliedSeq, p, rfl, hp, hmine.1⟩
      · cases h
    · cases h
  · cases h

section
variable [LinearOrder σ]

/-- `b` has at most the lease of `a`, sends requests only, and has forgotten the last size or knows it as before. Where it
    is `still`, it forgets the size with the lease only and goes on from the same number. -/
structure Keeps (still : Prop) (a b : PaneLease σ) : Prop where
  policy : b.policy = a.policy
  desired : b.ptyDesired = a.ptyDesired
  lease : ∀ {l}, b.lease = some l → a.lease = some l
  owned : (∀ {p}, a.pending = some p → p.kind = .acquire → a.lease = none) →
    ∀ {l}, b.lease = some l → l.session ∈ b.disowned → l.session ∈ a.disowned
  pending : ∀ {p}, b.pending = some p → p.kind = .acquire ∨ p.kind = .probe → a.pending = some p ∨ b.lease = none
  nextSeq : a.nextSeq ≤ b.nextSeq
  sent : b.latestSent = a.latestSent ∧ b.nextSeq = a.nextSeq ∧
    (b.lease ≠ none → b.needsReclaim = false → a.needsReclaim = false) ∨
    b.latestSent = none ∧ (still → b.lease = none)
  numbers : still → b.nextSeq = a.nextSeq
  nextId : a.nextRequestId ≤ b.nextRequestId
  out : ∃ os, b.out = a.out ++ os ∧ (os.filterMap Pane.Out.id?).Pairwise (· < ·) ∧
    ∀ o ∈ os, ∃ id, o.id? = some id ∧ a.nextRequestId < id ∧ id ≤ b.nextRequestId

namespace Keeps
variable {still : Prop} {a b c : PaneLease σ}

theorem of_out (hpol : b.policy = a.policy) (hdes : b.ptyDesired = a.ptyDesired) (hl : b.lease = a.lease)
    (hd : b.disowned = a.disowned)
    (hp : b.pending = a.pending ∨ b.pending = none) (hq : a.nextSeq ≤ b.nextSeq)
    (hs : b.latestSent = a.latestSent ∧ b.nextSeq = a.nextSeq ∧
      (b.lease ≠ none → b.needsReclaim = false → a.needsReclaim = false) ∨
      b.latestSent = none ∧ (still → b.lease = none)) (hq' : still → b.nextSeq = a.nextSeq)
        (hn : b.nextRequestId = a.nextRequestId) (ho : b.out = a.out) : Keeps still a b where
  policy := hpol
  desired := hdes
  lease h := hl ▸ h
  owned _ _ _ hm := hd ▸ hm
  pending h _ := by
    obtain hp | hp := hp
    · exact .inl (hp ▸ h)
    · simp [hp] at h
  nextSeq := hq
  sent := hs
  numbers := hq'
  nextId := hn.ge
  out := ⟨[], by simp [ho], .nil, by simp⟩

theorem of_eq (hpol : b.policy = a.policy) (hl : b.lease = a.lease) (hd : b.disowned = a.disowned)
    (hp : b.pending = a.pending ∨ b.pending = none) (hr : b.lease ≠ none → b.needsReclaim = false → a.needsReclaim = false)
    (hs : (b.ptyDesired, b.nextSeq, b.latestSent) = (a.ptyDesired, a.nextSeq, a.latestSent))
    (ho : (b.nextRequestId, b.out) = (a.nextRequestId, a.out)) : Keeps still a b := by
  obtain ⟨hdes, hseq, hsent⟩ : _ ∧ _ ∧ _ := by simpa using hs
  obtain ⟨hn, ho⟩ := Prod.mk.inj ho
  exact of_out hpol hdes hl hd hp hseq.ge (.inl ⟨hsent, hseq, hr⟩) (fun _ => hseq) hn ho

theorem refl (a : PaneLease σ) : Keeps still a a := of_eq rfl rfl rfl (.inl rfl) (fun _ => id) rfl rfl

theorem lease_none (h : Keeps still a b) (hl : a.lease = none) : b.lease = none :=
  Option.eq_none_iff_forall_ne_some.mpr fun l hb => by simp [h.lease hb] at hl

theorem acquiring (h : Keeps still a b) (ha : ∀ {p}, a.pending = some p → p.kind = .acquire → a.lease = none)
    {p : Pane.Pending}
    (hp : b.pending = some p) (hk : p.kind = .acquire) : b.lease = none := by
  obtain hpend | hnone := h.pending hp (.inl hk)
  · exact h.lease_none (ha hpend hk)
  · exact hnone

theorem trans (h : Keeps still a b) (h' : Keeps still b c) : Keeps still a c where
  policy := h'.policy.trans h.policy
  desired := h'.desired.trans h.desired
  lease hc := h.lease (h'.lease hc)
  owned ha _ hc hm := h.owned ha (h'.lease hc) (h'.owned (h.acquiring ha) hc hm)
  pending {p} hp hk := by
    obtain hb | hnone := h'.pending hp hk
    · exact (h.pending hb hk).imp_right h'.lease_none
    · exact .inr hnone
  nextSeq := h.nextSeq.trans h'.nextSeq
  sent := by
    obtain ⟨hsent', hseq', hr'⟩ | hnone' := h'.sent
    · obtain ⟨hsent, hseq, hr⟩ | ⟨hnone, hlost⟩ := h.sent
      · refine .inl ⟨hsent'.trans hsent, hseq'.trans hseq, fun hl hn => hr (fun hb => hl (h'.lease_none hb)) (hr' hl hn)⟩
      · exact .inr ⟨hsent'.trans hnone, fun hs => h'.lease_none (hlost hs)⟩
    · exact .inr hnone'
  numbers hs := (h'.numbers hs).trans (h.numbers hs)
  nextId := h.nextId.trans h'.nextId
  out := by
    obtain ⟨os, ho, hasc, hids⟩ := h.out
    obtain ⟨os', ho', hasc', hids'⟩ := h'.out
    have hnext := h.nextId
    have hnext' := h'.nextId
    refine ⟨os ++ os', by rw [ho', ho, List.append_assoc], ?_, fun o hmem => ?_⟩
    · rw [List.filterMap_append, List.pairwise_append]
      refine ⟨hasc, hasc', fun i hi j hj => ?_⟩
      obtain ⟨o, hmem, hi⟩ := List.mem_filterMap.mp hi
      obtain ⟨o', hmem', hj⟩ := List.mem_filterMap.mp hj
      obtain ⟨_, hid, -, hle⟩ := hids o hmem
      obtain ⟨_, hid', hlt, -⟩ := hids' o' hmem'
      obtain rfl := Option.some.inj (hi.symm.trans hid)
      obtain rfl := Option.some.inj (hj.symm.trans hid')
      omega
    · obtain hmem | hmem := List.mem_append.mp hmem
      · obtain ⟨id, hid, hlt, hle⟩ := hids o hmem
        exact ⟨id, hid, hlt, hle.trans hnext'⟩
      · obtain ⟨id, hid, hlt, hle⟩ := hids' o hmem
        exact ⟨id, hid, hnext.trans_lt hlt, hle⟩

theorem takeId_push {o : Pane.Out σ} (ho : o.id? = some (a.nextRequestId + 1)) : Keeps still a (a.takeId.push o) :=
  { refl a with
  nextId := Nat.le_succ _
  out := by
    refine ⟨[o], rfl, by simp [ho], fun o' ho' => ?_⟩
    obtain rfl := List.mem_singleton.mp ho'
    exact ⟨_, ho, Nat.lt_succ_self _, le_rfl⟩ }

theorem clearPending (a : PaneLease σ) : Keeps still a { a with pending := none } :=
  of_eq rfl rfl rfl (.inr rfl) (fun _ => id) rfl rfl

theorem unsuppress (a : PaneLease σ) : Keeps still a a.unsuppress := of_eq rfl rfl rfl (.inl rfl) (fun _ => id) rfl rfl

theorem suppress (a : PaneLease σ) (epoch : Nat) : Keeps still a (a.suppress epoch) :=
  of_eq rfl rfl rfl (.inl rfl) (fun _ => id) rfl rfl

theorem invalidate (a : PaneLease σ) : Keeps still a a.invalidate := { (refl a : Keeps still a a) with
  lease := nofun
  owned := fun _ => nofun
  pending := fun _ _ => .inr rfl
  sent := .inr ⟨rfl, fun _ => rfl⟩ }

theorem disown (ha : a.pending.any fun p => p.kind = .acquire) (s : Nat) :
    Keeps still a { a with disowned := a.disowned.insert s, pending := none } := {
  clearPending a with
  owned := fun hnone {l} hl => by
    obtain ⟨p, hp, hk⟩ := (Option.any_eq_true _ _).mp ha
    cases (hnone hp (by simpa using hk)).symm.trans hl }

theorem dropAcquire (a : PaneLease σ) : Keeps still a a.dropAcquire := by
  unfold PaneLease.dropAcquire
  split
  · exact refl a
  next p hp =>
    split
    next hk => exact disown (by simp [hp, hk]) p.session
    · exact refl a

theorem releaseLease (a : PaneLease σ) : Keeps still a a.releaseLease := by
  unfold PaneLease.releaseLease
  split
  · exact refl a
  next l hl =>
    have hpush : Keeps still a (a.takeId.push (.release a.takeId.nextRequestId l.session l.epoch)) := takeId_push rfl
    exact hpush.trans { invalidate _ with
      owned := fun _ => nofun
      pending := fun _ _ => .inr rfl }

theorem relinquish (a : PaneLease σ) : Keeps still a a.relinquish := (releaseLease a).trans (dropAcquire _)

theorem send {kind : Pane.PendingKind} (hk : kind = .acquire ∨ kind = .probe → a.lease = none)
    (session generation requestedEpoch : Nat) :
    Keeps still a (a.send kind session generation requestedEpoch) := by
  have hpush : Keeps still a (a.takeId.push (kind.out a.takeId.nextRequestId session requestedEpoch)) :=
    takeId_push (by cases kind <;> rfl)
  refine { hpush with pending := fun hp hk' => .inr ?_ }
  cases hp
  exact hk hk'

section
variable (a : PaneLease σ)

theorem sendRelease : Keeps still a a.sendRelease := by
  unfold PaneLease.sendRelease
  split
  · exact send (by simp) _ _ _
  · exact refl a

theorem sendDue : Keeps still a a.sendDue := by
  unfold PaneLease.sendDue
  split
  · split
    · exact send (by simp) _ _ _
    · exact sendRelease a
  next hl _ =>
    split
    · exact send (fun _ => hl) _ _ _
    · split
      · exact send (fun _ => hl) _ _ _
      · exact sendRelease a
  · exact sendRelease a

theorem giveUp : Keeps still a a.giveUp := by
  unfold PaneLease.giveUp
  split
  · exact relinquish a
  · exact refl a

theorem reevaluate : Keeps still a a.reevaluate := by
  rw [reevaluate_eq]
  split
  · exact giveUp a
  · exact (giveUp a).trans (sendDue _)

theorem releaseGrant (session epoch : Nat) : Keeps still a (a.releaseGrant session epoch) := by
  have hpush : Keeps still a (a.takeId.push (.release a.takeId.nextRequestId session epoch)) := takeId_push rfl
  simp only [PaneLease.releaseGrant]
  split
  · exact hpush
  next hno =>
    refine hpush.trans { refl _ with owned := fun _ {l} hl hm => ?_ }
    obtain heq | hm := ExtTreeSet.mem_insert.mp hm
    · obtain rfl : session = l.session := Nat.compare_eq_eq.mp heq
      have hlease : (a.takeId.push (.release a.takeId.nextRequestId l.session epoch)).lease = some l := hl
      simp [hlease] at hno
    · exact hm

theorem released (id : Nat) : Keeps still a (a.released id) := by
  unfold PaneLease.released
  split
  · split
    · exact { clearPending a with owned := fun _ _ _ hm => (ExtTreeSet.mem_erase.mp hm).2 }
    · exact refl a
  · exact refl a

theorem probed (currentEpoch : Nat) : Keeps still a (a.probed currentEpoch) := by
  unfold PaneLease.probed
  dsimp only
  split <;> exact of_eq rfl rfl rfl (.inl rfl) (fun _ => id) rfl rfl

theorem lost (newEpoch epoch : Nat) :
    Keeps still a (if newEpoch ≠ 0 then a.invalidate.suppress epoch else a.invalidate) := by
  split
  · exact (invalidate a).trans (suppress ..)
  · exact invalidate a

theorem lose (session epoch newEpoch : Nat) : Keeps still a (a.lose session epoch newEpoch) := by
  unfold PaneLease.lose
  split
  · split
    · exact lost a newEpoch epoch
    · exact refl a
  · exact refl a

theorem requestFailed (id : Nat) : Keeps still a (a.requestFailed id) := by
  unfold PaneLease.requestFailed
  split
  · split
    · exact (dropAcquire a).trans (of_eq rfl rfl rfl (.inr rfl) (fun _ hn => hn) rfl rfl)
    · exact refl a
  · exact refl a

theorem reconnected : Keeps still a a.reconnected := by
  refine (dropAcquire a).trans (of_eq rfl rfl rfl (.inr rfl) (fun _ hn => ?_) rfl rfl)
  simp only [PaneLease.reconnected, Bool.or_eq_false_iff] at hn
  exact hn.1

end

end Keeps

theorem Keeps.weaken (h : Keeps True a b) : Keeps False a b :=
  { h with sent := h.sent.imp_right fun hs => ⟨hs.1, False.elim⟩, numbers := False.elim }

theorem appliedSeq_max (n : σ) {seq : σ} (h : c.appliedSeq = some seq) : max n seq = n ∨ c.appliedSeq = some (max n seq) :=
  (max_choice n seq).imp_right fun hmax => h.trans (congrArg some hmax.symm)

end

section
variable [LinearOrder σ] [Add σ] [OfNat σ 1]

def prepared (a : PaneLease σ) : Call σ → PaneLease σ
  | .setPolicy p _ => { a with policy := p }
  | .onVisibleApplied cols rows => { a with
      policy := { a.policy with visibleAppliedGeneration := some a.policy.generation }
      ptyDesired := some (normalizeSize cols rows) }
  | _ => a

/-- What a handler does before it evaluates. -/
def effect (a : PaneLease σ) : Call σ → PaneLease σ
  | .setPolicy p userIntent =>
    let b : PaneLease σ := if userIntent then ({ a with policy := p } : PaneLease σ).unsuppress else { a with policy := p }
    if a.rebound p then b.relinquish else b
  | .onVisibleApplied cols rows =>
    ({ a with
      policy := { a.policy with visibleAppliedGeneration := some a.policy.generation }
      ptyDesired := some (normalizeSize cols rows) } : PaneLease σ).ptySync
  | .onRetryTimer => { a with retryTimer := false }
  | .onRequestFailed id => a.requestFailed id
  | .onReleased id => a.released id
  | .onReconnect => a.reconnected
  | .onGranted id session epoch appliedSeq => a.granted id session epoch appliedSeq
  | .onReclaimResult id ok currentEpoch appliedSeq => a.reclaimResult id ok currentEpoch appliedSeq
  | .onRevoked session revokedEpoch newEpoch => a.lose session revokedEpoch newEpoch
  | .onVacated => a.unsuppress
  | .onResizeAck session epoch seq => (a.resizeAck session epoch seq).ptySync
  | .onStaleResize appliedEpoch appliedSeq => if a.lease.any fun l => l.epoch = appliedEpoch then a.resend appliedSeq else a
  | .onStaleLease session epoch currentEpoch => a.lose session epoch currentEpoch
  | .onUnackedTimeout =>
    if a.latestSent.any fun sent => a.ptyAcked.all (· < sent.1) then
      ({ a with latestSent := none } : PaneLease σ).ptySync else a

theorem call_eq (a : PaneLease σ) (c : Call σ) : a.call c = (a.effect c).reevaluate := by
  cases c <;> rfl

structure Adopts (a b : PaneLease σ) (k : EpochKey) : Prop where
  policy : b.policy = a.policy
  desired : b.ptyDesired = a.ptyDesired
  lease : ∃ l, b.lease = some l ∧ (l.session, l.epoch) = k ∧ l.session ∉ b.disowned ∧
    b.policy.boundSession = some l.session ∧
    l.generation = b.policy.generation
  eligible : b.eligible = true
  pending : b.pending = none
  unsent : b.latestSent = none
  nextId : b.nextRequestId = a.nextRequestId
  out : b.out = a.out

theorem Keeps.setPolicy {still : Prop} (a : PaneLease σ) (p : Pane.Policy) (userIntent : Bool) :
    Keeps still { a with policy := p } (a.effect (.setPolicy p userIntent)) := by
  have hb : Keeps still { a with policy := p } (if userIntent then ({ a with policy := p } : PaneLease σ).unsuppress
      else { a with policy := p }) := by
    split
    · exact .unsuppress _
    · exact .refl _
  simp only [effect]
  split
  · exact hb.trans (.relinquish _)
  · exact hb

theorem effect_cases (a : PaneLease σ) (c : Call σ) : (a.takes c = none ∧ (Keeps True (a.prepared c) (a.effect c) ∨
      ∃ b, a.effect c = b.ptySync ∧ Keeps False (a.prepared c) b ∧ b.suppressed = a.suppressed ∧
        (b.nextSeq = a.nextSeq ∨ c.appliedSeq = some b.nextSeq))) ∨
    ∃ k b, a.takes c = some k ∧ a.effect c = b.ptySync ∧ Adopts (a.prepared c) b k ∧ c.appliedSeq = some b.nextSeq := by
  cases c with
  | setPolicy p userIntent => exact .inl ⟨rfl, .inl (.setPolicy a p userIntent)⟩
  | onVisibleApplied cols rows => exact .inl ⟨rfl, .inr ⟨_, rfl, .refl _, rfl, .inl rfl⟩⟩
  | onRetryTimer => exact .inl ⟨rfl, .inl (.of_eq rfl rfl rfl (.inl rfl) (fun _ => id) rfl rfl)⟩
  | onRequestFailed id => exact .inl ⟨rfl, .inl (.requestFailed a id)⟩
  | onReleased id => exact .inl ⟨rfl, .inl (.released a id)⟩
  | onReconnect => exact .inl ⟨rfl, .inl (.reconnected a)⟩
  | onGranted id session epoch appliedSeq =>
    simp only [effect, granted, takes, prepared]
    cases hp : a.pending with
    | none => exact .inl ⟨rfl, .inl (.releaseGrant ..)⟩
    | some p =>
      dsimp only
      by_cases hid : p.kind = .acquire ∧ p.id = id
      · rw [if_pos hid]
        by_cases hwant : p.session = session ∧ a.policy.boundSession = some p.session ∧ a.policy.generation = p.generation ∧
            ({ a with pending := none } : PaneLease σ).eligible = true
        · rw [if_pos ⟨hid, hwant⟩, if_pos hwant]
          obtain ⟨rfl, hbound, hgen, helig⟩ := hwant
          refine .inr ⟨_, _, rfl, rfl, ⟨rfl, rfl, ⟨_, rfl, rfl, ?_, hbound, hgen.symm⟩, ?_, rfl, rfl, rfl, rfl⟩, rfl⟩
          · exact fun hm => (ExtTreeSet.mem_erase.mp hm).1 (Nat.compare_eq_eq.mpr rfl)
          · simp only [eligible, Bool.and_eq_true, Bool.not_eq_true', unsuppress] at helig ⊢
            exact ⟨⟨helig.1.1, trivial⟩, helig.2⟩
        · rw [if_neg fun hall => hwant hall.2, if_neg hwant]
          exact .inl ⟨rfl, .inl ((Keeps.clearPending a).trans (.releaseGrant ..))⟩
      · rw [if_neg hid, if_neg fun hall => hid hall.1]
        exact .inl ⟨rfl, .inl (.releaseGrant ..)⟩
  | onReclaimResult id ok currentEpoch appliedSeq =>
    refine .inl ⟨rfl, ?_⟩
    simp only [effect, reclaimResult, prepared]
    split
    · split
      · split
        · exact .inl ((Keeps.clearPending a).trans (.probed ..))
        · split
          · split
            · unfold reclaimed
              split
              · exact .inr ⟨_, rfl, .of_out rfl rfl rfl rfl (.inr rfl) (le_max_left _ _) (.inr ⟨rfl, False.elim⟩) False.elim
                  rfl rfl, rfl,
                  appliedSeq_max _ rfl⟩
              · exact .inl ((Keeps.clearPending a).trans (.lost ..))
            · exact .inl (.clearPending a)
          · exact .inl (.clearPending a)
      · exact .inl (.refl a)
    · exact .inl (.refl a)
  | onRevoked session revokedEpoch newEpoch => exact .inl ⟨rfl, .inl (.lose ..)⟩
  | onVacated => exact .inl ⟨rfl, .inl (.unsuppress a)⟩
  | onResizeAck session epoch seq =>
    refine .inl ⟨rfl, .inr ⟨_, rfl, ?_, ?_, .inl ?_⟩⟩ <;> unfold resizeAck <;> split
    · exact .of_eq rfl rfl rfl (.inl rfl) (fun _ => id) rfl rfl
    · exact .refl a
    all_goals rfl
  | onStaleResize appliedEpoch appliedSeq =>
    refine .inl ⟨rfl, ?_⟩
    simp only [effect]
    split
    · exact .inr ⟨_, rfl, .of_out rfl rfl rfl rfl (.inl rfl) (le_max_left _ _) (.inr ⟨rfl, False.elim⟩) False.elim rfl
        rfl, rfl,
        appliedSeq_max _ rfl⟩
    · exact .inl (.refl a)
  | onStaleLease session epoch currentEpoch => exact .inl ⟨rfl, .inl (.lose ..)⟩
  | onUnackedTimeout =>
    refine .inl ⟨rfl, ?_⟩
    simp only [effect]
    split
    · exact .inr ⟨_, rfl, .of_out rfl rfl rfl rfl (.inl rfl) le_rfl (.inr ⟨rfl, False.elim⟩) False.elim rfl rfl, rfl,
        .inl rfl⟩
    · exact .inl (.refl a)

theorem effect_policy (a : PaneLease σ) (c : Call σ) : (a.effect c).policy = (a.prepared c).policy := by
  obtain ⟨-, hb | ⟨b, heq, hb, -⟩⟩ | ⟨k, b, -, heq, hb, -⟩ := effect_cases a c
  · exact hb.policy
  · rw [heq, ptySync_policy, hb.policy]
  · rw [heq, ptySync_policy, hb.policy]

theorem call_induction {P : PaneLease σ → Prop} (hkeeps : ∀ {a b}, P a → Keeps False a b → P b)
    (hsync : ∀ {a}, P a → P a.ptySync) (hadopts : ∀ {b k}, a.takes c = some k → Adopts (a.prepared c) b k → P b)
      (h : P (a.prepared c)) :
    P (a.call c) := by
  rw [call_eq]
  refine hkeeps ?_ (.reevaluate _)
  obtain ⟨-, hb | ⟨b, heq, hb, -⟩⟩ | ⟨k, b, htakes, heq, hb, -⟩ := effect_cases a c
  · exact hkeeps h hb.weaken
  · rw [heq]
    exact hsync (hkeeps h hb)
  · rw [heq]
    exact hsync (hadopts htakes hb)

end

end PaneLease
end Ferryx
