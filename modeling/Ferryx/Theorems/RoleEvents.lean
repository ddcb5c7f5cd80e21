import Ferryx.Daemon.SupervisorRebind

/-! What an event does to a role machine, in the parts of `handle` one after another (`Fine`). -/

namespace Ferryx.Daemon
open Lib RoleMachine

/-- Whether the hub runs after an action; it is not started or stopped twice. -/
def Action.hub : Bool → Action → Option Bool
  | false, .startHub => some true
  | true, .startHub => none
  | true, .stopHub _ => some false
  | false, .stopHub _ => none
  | started, _ => some started

def Action.isRequest : Action → Bool
  | .sendAcquire _ | .sendRenew _ | .sendRelease _ | .sendQuery => true
  | _ => false

namespace RoleMachine
variable {P : Prop} {m m' : RoleMachine} {event : Event} {now sentAt : Now} {t : Turn} {role : Role} {a : Action}
  {reason : StandDownReason} {snapshot : PersistedLease} {ack : LeaseAck} {deadline : Option Now} {heldFence lastGrantSent :
    Option Nat}

/-- What the parts of an event have done so far to the machine `m`; `P`: its deadline was found reached. -/
structure Fine (P : Prop) (m : RoleMachine) (event : Event) (now : Now) (t : Turn) : Prop where
  cfg : t.1.cfg = m.cfg
  lastObs : t.1.lastObs = now
  account : t.1.accountBound = m.accountBound
  holder : ∀ fence, 0 < fence → t.1.role = .holder fence → m.role = .holder fence ∧ t.1.deadline = m.deadline ∨
    t.1.snapshot.leaseCapable = true ∧ t.1.accountBound = true ∧
      ∃ sentAt, event.granted? = some (fence, sentAt) ∧ t.1.deadline = some (m.grantDeadline sentAt)
  hub : t.2.foldlM Action.hub m.role.runsHub = some t.1.role.runsHub
  sends : ∀ a ∈ t.2, a.isRequest = true → m.canSend = true ∨ t.1.canSend = true
  sending : (∀ leaseCapable, event ≠ .sessionOpened leaseCapable) → event ≠ .sessionClosed → t.1.canSend = m.canSend
  latched : event ≠ .capabilityReset → m.snapshot.leaseCapable = true → t.1.snapshot.leaseCapable = true
  shut : event ≠ .capabilityReset → event ≠ .sessionOpened true → m.role.isUnleased = true → t.1.role.isUnleased = true
  bound : (m.role = .provisional → m.accountBound = true) → t.1.role = .provisional → t.1.accountBound = true
  kept : m.role = .provisional → ∀ u, m.provisionalUntil = some u → t.1.provisionalUntil = some u
  fresh : ∀ u, t.1.provisionalUntil = some u → m.provisionalUntil = some u ∨ u = now.mono + m.cfg.validFor
  stopped : P → .stopHub .deadlineReached ∈ t.2

theorem hub_of_isAttempt (h : a.isAttempt = true) (started : Bool) : a.hub started = some started := by
  cases a <;> cases started <;> first | rfl | cases h

section
variable (h : Fine P m event now t)
include h

theorem Fine.set (m' : RoleMachine) (hcfg : m'.cfg = t.1.cfg) (hobs : m'.lastObs = t.1.lastObs)
    (haccount : m'.accountBound = t.1.accountBound)
    (hrole : m'.role = t.1.role) (hdeadline : m'.deadline = t.1.deadline) (hsnapshot : m'.snapshot = t.1.snapshot)
    (hsend : m'.canSend = t.1.canSend) (huntil : m'.provisionalUntil = t.1.provisionalUntil) :
      Fine P m event now (m', t.2) := by
  obtain ⟨⟩ := h
  constructor <;> simp only [hcfg, hobs, haccount, hrole, hdeadline, hsnapshot, hsend, huntil] <;> assumption

theorem Fine.take (role : Role) (as : List Action) (hhub : as.foldlM Action.hub t.1.role.runsHub = some role.runsHub)
    (hreq : ∀ a ∈ as, a.isRequest = true → t.1.canSend = true)
    (hholder : ∀ fence, 0 < fence → role = .holder fence → t.1.role = .holder fence ∧ deadline = t.1.deadline ∨
      t.1.snapshot.leaseCapable = true ∧ t.1.accountBound = true ∧
        ∃ sentAt, event.granted? = some (fence, sentAt) ∧ deadline = some (m.grantDeadline sentAt))
    (hshut : event ≠ .capabilityReset → event ≠ .sessionOpened true → t.1.role.isUnleased = true → role.isUnleased = true)
    (hbound : role = .provisional → t.1.role = .provisional ∨ t.1.accountBound = true) :
    Fine P m event now
      ({ t.1 with role := role, deadline := deadline, heldFence := heldFence, lastGrantSent := lastGrantSent },
      t.2 ++ as) where
  cfg := h.cfg
  lastObs := h.lastObs
  account := h.account
  holder fence hpos hrole := by
    rcases hholder fence hpos hrole with ⟨hrole', hdeadline⟩ | hgrant
    · rw [hdeadline]
      exact h.holder fence hpos hrole'
    · exact .inr hgrant
  hub := by simp [List.foldlM_append, h.hub, hhub]
  sends := by
    intro a ha hr
    rcases List.mem_append.mp ha with ha | ha
    · exact h.sends a ha hr
    · exact .inr (hreq a ha hr)
  sending := h.sending
  latched := h.latched
  shut he hs hm := hshut he hs (h.shut he hs hm)
  bound hm hp := (hbound hp).elim (h.bound hm) id
  kept := h.kept
  fresh := h.fresh
  stopped hP := List.mem_append_left _ (h.stopped hP)

theorem Fine.leave (role : Role) (as : List Action) (hhub : as.foldlM Action.hub t.1.role.runsHub = some role.runsHub)
    (hreq : ∀ a ∈ as, a.isRequest = true → t.1.canSend = true) (hrole : ∀ fence, role ≠ .holder (fence + 1))
    (hshut : event ≠ .capabilityReset → event ≠ .sessionOpened true → t.1.role.isUnleased = true → role.isUnleased = true)
    (hbound : role = .provisional → t.1.role = .provisional ∨ t.1.accountBound = true) :
    Fine P m event now
      ({ t.1 with role := role, deadline := deadline, heldFence := heldFence, lastGrantSent := lastGrantSent },
      t.2 ++ as) := by
  refine h.take _ as hhub hreq (fun fence hpos heq => ?_) hshut hbound
  obtain ⟨fence, rfl⟩ := Nat.exists_eq_succ_of_ne_zero hpos.ne'
  exact (hrole fence heq).elim

theorem Fine.emit (ha : a.hub t.1.role.runsHub = some t.1.role.runsHub) (hsend : a.isRequest = true → t.1.canSend = true) :
    Fine P m event now (t.1, t.2 ++ [a]) :=
  h.take _ [a] (by simp [ha]) (by simpa using hsend) (fun _ _ hr => .inl ⟨hr, rfl⟩) (fun _ _ => id) .inl

theorem Fine.setSnapshot (snapshot : PersistedLease) (hs : event ≠ .capabilityReset → t.1.snapshot.leaseCapable = true →
    snapshot.leaseCapable = true) :
    Fine P m event now (setSnapshot snapshot t) := by
  obtain ⟨m₁, out⟩ := t
  simp only [setSnapshot]
  split
  · have hset : Fine P m event now ({ m₁ with snapshot := snapshot }, out) :=
      { h with
        latched := fun he hm => hs he (h.latched he hm)
        holder := by
          intro fence hpos hrole
          rcases h.holder fence hpos hrole with hold | ⟨hcap, hbound, sentAt, hg, hdeadline⟩
          · exact .inl hold
          · exact .inr ⟨hs (by rintro rfl; cases hg) hcap, hbound, sentAt, hg, hdeadline⟩ }
    exact hset.emit (by cases m₁.role.runsHub <;> rfl) (by simp [Action.isRequest])
  · exact h

theorem Fine.standDown (hrole : role.runsHub = false) (hshut : t.1.role.isUnleased = true → role.isUnleased = true) :
    Fine P m event now (standDown role reason t) := by
  obtain ⟨m₁, out⟩ := t
  have hother : ∀ fence, role ≠ .holder (fence + 1) := by
    rintro fence rfl
    cases hrole
  have hbound : role = .provisional → m₁.role = .provisional ∨ m₁.accountBound = true := by
    rintro rfl
    cases hrole
  cases hruns : m₁.role.runsHub with
  | true =>
    simp only [standDown, hruns, if_true]
    exact h.leave _ [.stopHub reason] (by simp [hruns, hrole, Action.hub]) (by simp [Action.isRequest]) hother
      (fun _ _ => hshut) hbound
  | false =>
    simp only [standDown, hruns, Bool.false_eq_true, if_false]
    simpa using h.leave _ [] (by simp [hruns, hrole]) (by simp) hother (fun _ _ => hshut) hbound

theorem Fine.start (fence : Nat) (deadline : Option Now) (heldFence lastGrantSent : Option Nat)
    (hholder : 0 < fence → t.1.snapshot.leaseCapable = true ∧ t.1.accountBound = true ∧
      ∃ sentAt, event.granted? = some (fence, sentAt) ∧ deadline = some (m.grantDeadline sentAt))
    (hshut : event ≠ .capabilityReset → t.1.role.isUnleased = false) :
    Fine P m event now
      ({ t.1 with role := .holder fence, deadline := deadline, heldFence := heldFence, lastGrantSent := lastGrantSent },
      if t.1.role.runsHub then t.2 else t.2 ++ [.startHub]) := by
  have htake : ∀ as : List Action, as.foldlM Action.hub t.1.role.runsHub = some true → (∀ a ∈ as, a.isRequest = false) →
      Fine P m event now
      ({ t.1 with role := .holder fence, deadline := deadline, heldFence := heldFence, lastGrantSent := lastGrantSent },
        t.2 ++ as) := by
    intro as hhub hreq
    refine h.take _ as hhub (fun a ha hr => by simp [hreq a ha] at hr) (fun fence' hpos heq => ?_) (fun he _ hu => ?_)
      (by simp)
    · obtain rfl := Role.holder.inj heq
      exact .inr (hholder hpos)
    · rw [hshut he] at hu
      cases hu
  cases hruns : t.1.role.runsHub with
  | true => simpa using htake [] (by simp [hruns]) (by simp)
  | false => simpa using htake [.startHub] (by simp [hruns, Action.hub]) (by simp [Action.isRequest])

theorem Fine.attempt {force : Bool} : Fine P m event now (attempt now force t) := by
  obtain ⟨m₁, out⟩ := t
  simp only [attempt]
  split
  · exact h
  next hsend =>
    refine (h.set { m₁ with nextAttempt := some (now.mono + m₁.cfg.renewEvery) } rfl rfl rfl rfl rfl rfl rfl rfl).emit ?_
      fun _ => (by simpa using hsend : m₁.canSend = true)
    refine hub_of_isAttempt ?_ _
    split
    · rfl
    · split <;> rfl

theorem Fine.checkDeadline (hp : m.role = .provisional → t.1.role = .provisional) :
    Fine P m event now (checkDeadline now t) := by
  obtain ⟨m₁, out⟩ := t
  simp only [checkDeadline]
  have hclear : Fine P m event now (if m₁.role ≠ .provisional then { m₁ with provisionalUntil := none } else m₁, out) := by
    split
    next hne => exact { h with kept := fun hm => absurd (hp hm) hne, fresh := fun _ hu => by cases hu }
    · exact h
  generalize (if m₁.role ≠ .provisional then { m₁ with provisionalUntil := none } else m₁) = m₂ at hclear ⊢
  split
  next hexp =>
    refine hclear.standDown (show Role.standbyUnknown.runsHub = false from rfl) fun hun => ?_
    revert hexp hun
    cases hr : m₂.role <;> simp [expired, hr, Role.isUnleased]
  · exact hclear

end

theorem observeClocks_fine : Fine False m event now (observeClocks now (m, [])) := by
  have hset : Fine False m event now ({ m with lastObs := now }, []) :=
    ⟨rfl, rfl, rfl, fun _ _ hr => .inl ⟨hr, rfl⟩,
      rfl, by simp, fun _ _ => rfl, fun _ => id, fun _ _ => id, id, fun _ _ => id, fun _ => .inl, False.elim⟩
  simp only [observeClocks]
  split
  next fence hrole =>
    split
    · have hdown : Fine False m event now (standDown .standbyUnknown .wallClockJump ({ m with lastObs := now }, [])) :=
        hset.standDown rfl (by simp [hrole, Role.isUnleased])
      split
      next fence' _ hsend =>
        exact (hdown.set { (standDown _ _ _).1 with nextAttempt := _ } rfl rfl rfl rfl rfl rfl rfl rfl).emit rfl
          fun _ => hsend
      · exact hdown
    · exact hset
  all_goals exact hset

/-- The deadline of a provisional hub is looked at before the event. -/
theorem check_fine (m : RoleMachine) (event : Event) (now : Now) :
    Fine (m.role = .provisional ∧ ∃ u, m.provisionalUntil = some u ∧ u ≤ now.mono) m event now
    (checkDeadline now (observeClocks now (m, []))) := by
  have hobserve : m.role = .provisional → observeClocks now (m, []) = ({ m with lastObs := now }, []) := by
    intro hp
    simp [observeClocks, hp]
  have hfine : Fine False m event now (checkDeadline now (observeClocks now (m, []))) :=
    observeClocks_fine.checkDeadline fun hp => by rw [hobserve hp]; exact hp
  refine { hfine with stopped := ?_ }
  rintro ⟨hp, u, hu, hle⟩
  simp [hobserve hp, checkDeadline, expired, hp, hu, hle, standDown, Role.runsHub]

section
variable (h : Fine P m event now t)
include h

theorem Fine.session (opened leaseCapable seen : Bool) (hsend : t.1.canSend = m.canSend ∨ (opened && leaseCapable) = true)
    (hsame : (∀ leaseCapable, event ≠ .sessionOpened leaseCapable) → event ≠ .sessionClosed →
      (opened && leaseCapable) = m.canSend) :
    Fine P m event now ({ t.1 with sessionOpen := opened, sessionCapable := leaseCapable, seenSession := seen }, t.2) := by
  refine { h with sends := fun a ha hr => ?_, sending := hsame }
  rcases hsend with hsend | hsend
  · exact .inl ((h.sends a ha hr).elim id fun hs => hsend ▸ hs)
  · exact .inr hsend

theorem Fine.unreachable : Fine P m event now (onUnreachableAtBoot t) := by
  obtain ⟨m₁, out⟩ := t
  simp only [onUnreachableAtBoot]
  split
  · exact h
  next hno =>
    simp only [not_or, not_not, Bool.not_eq_true', Bool.not_eq_false] at hno
    obtain ⟨hleased, -, hrole⟩ := hno
    split
    · have hbound : m₁.accountBound = true := by simp_all [leased]
      exact h.leave _ [.startHub] (by simp [hrole, Role.standbyUnknown, Role.runsHub, Action.hub])
        (by simp [Action.isRequest]) (by simp)
        (by simp [hrole, Role.standbyUnknown, Role.isUnleased]) fun _ => .inr hbound
    · exact h

theorem Fine.latch (hev : event = .capabilityReset ∨ event = .sessionOpened true) (hbound : t.1.accountBound = true) :
    Fine P m event now (latch t) := by
  have hshut : ∀ {p : Prop}, event ≠ .capabilityReset → event ≠ .sessionOpened true → p :=
    fun he hs => (hev.elim he hs).elim
  obtain ⟨m₁, out⟩ := t
  simp only [latch]
  split
  · have hset := h.setSnapshot { m₁.snapshot with leaseCapable := true } fun _ _ => rfl
    split
    next hrole =>
      simpa using hset.leave _ [] (by simp [hrole, Role.runsHub]) (by simp) (by simp) hshut fun _ =>
        .inr (hset.account.trans (h.account.symm.trans hbound))
    · exact hset
  split
  next hun =>
    have hruns : m₁.role.runsHub = false := by cases hr : m₁.role <;> simp_all [Role.isUnleased, Role.runsHub]
    simpa using h.leave .standbyUnknown [] (congrArg some hruns) (by simp) (by simp [Role.standbyUnknown]) hshut
      (by simp [Role.standbyUnknown])
  · exact h

theorem Fine.opened {leaseCapable : Bool} (hev : event = .capabilityReset ∨ event = .sessionOpened leaseCapable)
    (hcap : event = .capabilityReset → leaseCapable = true ∧ m.canSend = true)
      (hsend : t.1.canSend = m.canSend ∨ leaseCapable = true) :
    Fine P m event now (onSessionOpened leaseCapable now t) := by
  have hset := h.session true leaseCapable true hsend fun hne _ => by
    rcases hev with he | he
    · rw [(hcap he).1, (hcap he).2, Bool.and_self]
    · exact absurd he (hne _)
  obtain ⟨m₁, out⟩ := t
  simp only [onSessionOpened]
  split
  · exact hset
  next hbound =>
    have hbound : m₁.accountBound = true := by simpa using hbound
    split
    · split
      · exact hset.standDown rfl fun _ => rfl
      · exact hset
    next hcap' =>
      obtain rfl : leaseCapable = true := by simpa using hcap'
      have hlatch := hset.latch hev hbound
      generalize RoleMachine.latch _ = t' at hlatch ⊢
      obtain ⟨m₂, out'⟩ := t'
      have huntil : Fine P m event now (if m₂.role = .provisional ∧ m₂.provisionalUntil = none then
          { m₂ with provisionalUntil := some (now.mono + m₂.cfg.validFor) } else m₂, out') := by
        split
        next hp =>
          exact { hlatch with
            kept := fun hm u hu => by cases hp.2.symm.trans (hlatch.kept hm u hu)
            fresh := fun u hu => .inr (by rw [← hlatch.cfg]; exact (Option.some.inj hu).symm) }
        · exact hlatch
      dsimp only
      generalize (if m₂.role = .provisional ∧ m₂.provisionalUntil = none then
          { m₂ with provisionalUntil := some (now.mono + m₂.cfg.validFor) } else m₂) = m₃ at huntil ⊢
      exact (huntil.set { m₃ with nextAttempt := none } rfl rfl rfl rfl rfl rfl rfl rfl).attempt

theorem Fine.granted {fence : Nat} {count : Option Nat} {renew : Bool} (hg : event.granted? = some (fence, sentAt))
    (hleased : t.1.leased = true)
    (hun : t.1.role.isUnleased = false) : Fine P m event now (onGranted sentAt fence count renew now t) := by
  obtain ⟨m₁, out⟩ := t
  simp only [onGranted]
  split
  · exact h
  split
  · exact h.set _ rfl rfl rfl rfl rfl rfl rfl rfl
  split
  · exact h.set _ rfl rfl rfl rfl rfl rfl rfl rfl
  · obtain ⟨hbound, hcap⟩ := Bool.and_eq_true_iff.mp hleased
    refine (h.start _ _ _ _ (fun _ => ⟨hcap, hbound, sentAt, hg, ?_⟩) fun _ => hun).setSnapshot _ fun _ _ => rfl
    simp only [grantDeadline, ← h.cfg]

theorem Fine.acked {renew : Bool} (hg : ∀ fence count, ack = .granted fence count → event.granted? = some (fence, sentAt)) :
    Fine P m event now (onAck sentAt ack renew now t) := by
  simp only [onAck]
  split
  · exact h
  next hno =>
    have hun : t.1.leased = true ∧ t.1.role.isUnleased = false := by simp_all
    cases ack with
    | granted fence count => exact h.granted (hg fence count rfl) hun.1 hun.2
    | refused code holderMachineId holderLabel fence count =>
      obtain ⟨m₁, out⟩ := t
      simp only [onRefused]
      split
      · exact h
      · refine Fine.setSnapshot ?_ _ fun _ _ => rfl
        refine Fine.standDown (h.set _ rfl rfl rfl rfl rfl rfl rfl rfl) rfl fun hu => ?_
        cases hun.2.symm.trans hu
    | unavailable code =>
      dsimp only
      split
      · exact h.standDown rfl fun _ => rfl
      · exact h
    | released => exact h

theorem Fine.query : Fine P m event now (onQueryAck ack t) := by
  obtain ⟨m₁, out⟩ := t
  simp only [onQueryAck]
  split
  · exact h
  next hno =>
    have hstandby : m₁.role.runsHub = false ∧ m₁.role.isUnleased = false := by
      cases hr : m₁.role <;> simp_all [Role.isStandby, Role.runsHub, Role.isUnleased]
    split
    · split
      · exact h
      · have hset := h.set { m₁ with autoAcquire := true, releasedFence := none } rfl rfl rfl rfl rfl rfl rfl rfl
        refine Fine.setSnapshot ?_ _ fun _ _ => rfl
        simpa using hset.leave (.standby _ _ _) [] (congrArg some hstandby.1) (by simp) (by simp)
          (fun _ _ hu => by cases hstandby.2.symm.trans hu) (by simp)
    · exact h

theorem Fine.filter : Fine P m event now (t.1, t.2.filter fun action => !action.isAttempt) := by
  have hquiet : ∀ (out : List Action) (started : Bool), (out.filter fun action => !action.isAttempt).foldlM Action.hub
      started =
      out.foldlM Action.hub started := by
    intro out
    induction out with
    | nil => simp
    | cons a out ih =>
      intro started
      rw [List.filter_cons]
      split
      · simp only [List.foldlM_cons, ih]
      next ha => simp [ih, hub_of_isAttempt (by simpa using ha) started]
  refine { h with hub := (hquiet _ _).trans h.hub, sends := ?_, stopped := ?_ }
  · exact fun a ha => h.sends a (List.mem_of_mem_filter ha)
  · exact fun hP => List.mem_filter.mpr ⟨h.stopped hP, rfl⟩

theorem Fine.release {send : Bool} : Fine P m event now (onRelease send now t) := by
  have hfilter := h.filter
  obtain ⟨m₁, out⟩ := t
  simp only [onRelease]
  split
  · exact h
  have hset := hfilter.set { m₁ with
    autoAcquire := false
    releasedAt := some now.mono
    heldFence := none
    releasedFence := some (m₁.heldFence.getD m₁.snapshot.lastFence) } rfl rfl rfl rfl rfl rfl rfl rfl
  have hemit : ∀ fence, (send && m₁.canSend) = true → Fine P m event now (_, _ ++ [Action.sendRelease fence]) :=
    fun fence hsend =>
    hset.emit (by cases m₁.role.runsHub <;> rfl) fun _ => (Bool.and_eq_true_iff.mp hsend).2
  split
  next hruns =>
    have hun : m₁.role.isUnleased = true → Role.standbyUnknown.isUnleased = true := by
      cases hr : m₁.role <;> simp_all [Role.runsHub, Role.isUnleased]
    split
    next fence _ hsend => exact ((hemit fence hsend).standDown rfl hun).setSnapshot _ fun _ => id
    · exact (hset.standDown rfl hun).setSnapshot _ fun _ => id
  · split
    next fence _ hsend => exact (hemit fence hsend).setSnapshot _ fun _ => id
    · exact hset.setSnapshot _ fun _ => id

theorem Fine.reset : event = .capabilityReset → Fine P m event now (onCapabilityReset now t) := by
  intro he
  obtain ⟨m₁, out⟩ := t
  simp only [onCapabilityReset]
  have hset :=
    h.setSnapshot { m₁.snapshot with lastRole := .holder, lastFence := 0, holderMachineId := none, leaseCapable := false }
    fun hne => absurd he hne
  have hstart := hset.start 0 none none none (by simp) fun hne => absurd he hne
  split
  next hsend =>
    have hbefore := hstart.sending (by simp [he]) (by simp [he])
    exact hstart.opened (.inl he) (fun _ => ⟨rfl, hbefore.symm.trans hsend⟩) (.inr rfl)
  · exact hstart

end

theorem handle_fine (m : RoleMachine) (event : Event) (now : Now) :
    Fine (m.role = .provisional ∧ ∃ u, m.provisionalUntil = some u ∧ u ≤ now.mono) m event now (m.handle event now) := by
  have h := check_fine m event now
  have hsend := (check_fine m .tick now).sending (by simp) (by simp)
  cases event with
  | relayUnreachableAtBoot => exact h.unreachable
  | sessionOpened leaseCapable => exact h.opened (.inr rfl) (by simp) (.inl hsend)
  | sessionClosed => exact h.session _ _ _ (.inl hsend) fun _ hne => absurd rfl hne
  | acquireAck sentAt ack => exact h.acked fun fence count heq => heq ▸ rfl
  | renewAck sentAt ack => exact h.acked fun fence count heq => heq ▸ rfl
  | queryAck ack => exact h.query
  | tick =>
    simp only [handle, react, onTick]
    split
    · exact h.attempt
    · exact h
  | acquireRequested force =>
    simp only [handle, react, onAcquireRequested]
    split
    · exact (h.set { (checkDeadline _ _).1 with autoAcquire := true } rfl rfl rfl rfl rfl rfl rfl rfl).attempt
    · exact h
  | releaseRequested => exact h.release
  | releaseAcknowledged => exact h.release
  | capabilityReset => exact h.reset rfl

end RoleMachine
end Ferryx.Daemon
