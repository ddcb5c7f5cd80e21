import Ferryx.Daemon.SupervisorClients
import Ferryx.Theorems.LeaseGrants
import Ferryx.Theorems.RoleEvents

/-! A machine that acts as the supervisor is backed by the relay's row, which names it with its fence and runs out after the
machine's own deadline, unless the relay handles a release while its machine still acts or a grant of the same fence is on
its way to it. -/

namespace Ferryx.Daemon
open Lib Std Account Option RoleMachine LeaseAck Supervisors
variable {event : Event} {count : Option Nat}

namespace RoleMachine
variable {ack : LeaseAck}

/-! ### Events of a machine -/

/-- An event that gives the machine no lease. -/
structure Kept (m m' : RoleMachine) : Prop where
  cfg : m'.cfg = m.cfg
  lastObs : m'.lastObs = m.lastObs
  holder : ∀ fence, 0 < fence → m'.role = .holder fence → m.role = .holder fence ∧ m'.deadline = m.deadline

variable {m m' : RoleMachine} {t : Turn} {now sentAt : Now} {role : Role} {fence : Nat}

theorem Kept.refl : Kept m m := ⟨rfl, rfl, fun _ _ h => ⟨h, rfl⟩⟩

/-- The machine takes the lease that a grant answers. -/
structure Taken (m : RoleMachine) (sentAt : Now) (fence : Nat) (now : Now) (m' : RoleMachine) : Prop where
  cfg : m'.cfg = m.cfg
  lastObs : m'.lastObs = m.lastObs
  role : m'.role = .holder fence
  deadline : m'.deadline = some (m.grantDeadline sentAt)

theorem handle_kept_or_taken (m : RoleMachine) (event : Event) (now : Now) :
    Kept { m with lastObs := now } (m.handle event now).1 ∨
    ∃ fence sentAt, event.granted? = some (fence, sentAt) ∧
      Taken { m with lastObs := now } sentAt fence now (m.handle event now).1 := by
  have h := handle_fine m event now
  by_cases hnew : ∃ fence sentAt, event.granted? = some (fence, sentAt) ∧ (m.handle event now).1.role = .holder fence ∧
      (m.handle event now).1.deadline = some (m.grantDeadline sentAt)
  · obtain ⟨fence, sentAt, hg, hrole, hdeadline⟩ := hnew
    exact .inr ⟨fence, sentAt, hg, h.cfg, h.lastObs, hrole, hdeadline⟩
  · refine .inl ⟨h.cfg, h.lastObs, fun fence hpos hrole => (h.holder fence hpos hrole).resolve_right ?_⟩
    rintro ⟨-, -, sentAt, hg, hdeadline⟩
    exact hnew ⟨fence, sentAt, hg, hrole, hdeadline⟩

theorem isHolderNow_holder (hrole : m.role = .holder (fence + 1)) : m.isHolderNow now =
      decide (clockSkew m.lastObs now ≤ m.cfg.jumpThreshold ∧ (m.deadline.any fun deadline => !passed deadline now) =
        true) := by
  simp only [isHolderNow, hrole]

def isGrantAck : Event → Bool
  | .acquireAck .. | .renewAck .. => true
  | _ => false

theorem handle_kept (h : isGrantAck event = false) : Kept { m with lastObs := now } (m.handle event now).1 := by
  refine (handle_kept_or_taken m event now).resolve_right ?_
  rintro ⟨fence, sentAt, hg, -⟩
  cases event <;> first | cases hg | cases h

inductive Acks (sentAt : Now) (ack : LeaseAck) : Event → Prop where
  | acquire : Acks sentAt ack (.acquireAck sentAt ack)
  | renew : Acks sentAt ack (.renewAck sentAt ack)

theorem handle_ack (h : Acks sentAt ack event) : Kept { m with lastObs := now } (m.handle event now).1 ∨
      ∃ fence count, ack = .granted fence count ∧
        Taken { m with lastObs := now } sentAt fence now (m.handle event now).1 := by
  refine (handle_kept_or_taken m event now).imp_right ?_
  rintro ⟨fence, sentAt', hg, htaken⟩
  cases h <;> cases ack <;> cases hg <;> exact ⟨fence, _, rfl, htaken⟩

end RoleMachine

@[irreducible] def validFor : Nat := ({} : RoleConfig).validFor

theorem validFor_eq : validFor = ({} : RoleConfig).validFor := by
  unfold validFor
  rfl

/-! ### One client -/

namespace Client
variable {c c' : Client} {time time' : Nat}

variable {t fence sent : Nat}

theorem now_inj {t' : Nat} (h : c.now t = c.now t') : t = t' := by
  have := congrArg Now.mono h
  simp only [now] at this
  omega

theorem not_passed : passed (c.now t) (c.now time) = false ↔ time < t := by
  rw [Bool.eq_false_iff, ne_eq, passed, decide_eq_true_iff]
  simp only [now]
  omega

theorem clockSkew_now (h : t ≤ time) : clockSkew (c.now t) (c.now time) = 0 := by
  have hwall : (c.now t).wall ≤ (c.now time).wall := Nat.add_le_add_right h _
  have hequal : (c.now time).mono - (c.now t).mono = (c.now time).wall - (c.now t).wall := by
    simp only [now]
    omega
  simp only [clockSkew, if_pos hwall, hequal, Nat.sub_self, ite_self]

/-- The clocks that a client has read are its own, none of them ahead. -/
structure Sound (c : Client) (time : Nat) : Prop where
  cfg : c.machine.cfg = {}
  observed : ∃ t ≤ time, c.machine.lastObs = c.now t
  holder : ∀ fence, 0 < fence → c.machine.role = .holder fence → ∃ sent, c.machine.deadline = some (c.now (sent + validFor))
  call : ∀ call, c.call = some call → ∃ sent ≤ time, call.sentAt = c.now sent

theorem Sound.later (h : Sound c time) (hle : time ≤ time') : Sound c time' := { h with
  observed := by
    obtain ⟨t, ht, hobs⟩ := h.observed
    exact ⟨t, ht.trans hle, hobs⟩
  call := by
    intro call hcall
    obtain ⟨sent, hsent, heq⟩ := h.call call hcall
    exact ⟨sent, hsent.trans hle, heq⟩ }

theorem Sound.isHolderNow_iff (h : Sound c time) (hpos : 0 < fence) (hrole : c.machine.role = .holder fence)
    (hdeadline : c.machine.deadline = some (c.now (sent + validFor))) :
    c.machine.isHolderNow (c.now time) = true ↔ time < sent + validFor := by
  obtain ⟨t, ht, hobs⟩ := h.observed
  have hskew : clockSkew c.machine.lastObs (c.now time) ≤ c.machine.cfg.jumpThreshold := by
    rw [hobs, clockSkew_now ht]
    exact Nat.zero_le _
  obtain ⟨fence, rfl⟩ := Nat.exists_eq_succ_of_ne_zero hpos.ne'
  rw [isHolderNow_holder hrole, decide_eq_true_iff, hdeadline, any_some, Bool.not_eq_true', not_passed]
  exact and_iff_right hskew

/-- A positive fence that the client holds until the deadline of a request sent then. -/
def Holds (c : Client) (fence sent : Nat) : Prop :=
  0 < fence ∧ c.machine.role = .holder fence ∧ c.machine.deadline = some (c.now (sent + validFor))

/-- A client goes on with its machine. -/
structure Continues (c c' : Client) (time : Nat) : Prop where
  now : ∀ t, c'.now t = c.now t
  observed : ∃ t ≤ time, c'.machine.lastObs = c.now t
  kept : RoleMachine.Kept { c.machine with lastObs := c'.machine.lastObs } c'.machine
  call : c'.call = none

theorem Continues.holds (h : Continues c c' time) (hh : c'.Holds fence sent) : c.Holds fence sent := by
  obtain ⟨hpos, hrole, hdeadline⟩ := hh
  obtain ⟨hrole', hdeadline'⟩ := h.kept.holder fence hpos hrole
  exact ⟨hpos, hrole', by rw [← h.now, ← hdeadline]; exact hdeadline'.symm⟩

theorem Continues.sound (h : Continues c c' time) (hs : Sound c time) : Sound c' time where
  cfg := h.kept.cfg.trans hs.cfg
  observed := by
    obtain ⟨t, ht, hobs⟩ := h.observed
    exact ⟨t, ht, by rw [hobs, h.now]⟩
  holder := by
    intro fence hpos hrole
    obtain ⟨hrole', hdeadline⟩ := h.kept.holder fence hpos hrole
    obtain ⟨sent, hsent⟩ := hs.holder fence hpos hrole'
    exact ⟨sent, by rw [hdeadline, h.now]; exact hsent⟩
  call := by simp [h.call]

theorem Continues.handle (event : Event) (hevent : isGrantAck event = false)
    (hm : c'.machine = (c.machine.handle event (c.now time)).1) (hnow : ∀ t, c'.now t = c.now t) (hcall : c'.call = none) :
    Continues c c' time := by
  have hkept : RoleMachine.Kept { c.machine with lastObs := c.now time } c'.machine := by
    rw [hm]
    exact handle_kept hevent
  refine ⟨hnow, ⟨time, le_rfl, hkept.lastObs⟩, ?_, hcall⟩
  rw [hkept.lastObs]
  exact hkept

theorem feedWith_continues {explicit : Bool} (hcall : c.call = none) (hevent : isGrantAck event = false) :
    Continues c (c.feedWith event explicit time) time :=
  .handle event hevent rfl (fun _ => rfl) hcall

theorem Continues.same (hs : Sound c time) (hm : c'.machine = c.machine) (hnow : ∀ t, c'.now t = c.now t)
    (hcall : c'.call = none) :
    Continues c c' time := by
  obtain ⟨t, ht, hobs⟩ := hs.observed
  refine ⟨hnow, ⟨t, ht, by rw [hm, hobs]⟩, ?_, hcall⟩
  rw [hm]
  exact .refl

/-- The client took a grant of the fence, until the deadline of a request sent then. -/
structure TookGrant (c' : Client) (time fence sent : Nat) : Prop where
  sound : Sound c' time
  call : c'.call = none
  only : ∀ fence' sent', c'.Holds fence' sent' → fence' = fence ∧ sent' = sent

theorem extend_ack {ack : LeaseAck} {sentAt : Now} (hs : Sound c time) (hcall : c.call = none)
    (hsent : sentAt = c.now sent) (hevent : RoleMachine.Acks sentAt ack event) :
    Continues c (c.extend event time) time ∨ ∃ fence count, ack = .granted fence count ∧
      TookGrant (c.extend event time) time fence sent := by
  obtain hkept | ⟨fence, count, hack, htaken⟩ :=
    show RoleMachine.Kept { c.machine with lastObs := c.now time } (c.machine.handle event (c.now time)).1 ∨ _ from
      handle_ack hevent
  · left
    refine ⟨fun _ => rfl, ⟨time, le_rfl, hkept.lastObs⟩, ?_, hcall⟩
    show RoleMachine.Kept { c.machine with lastObs := (c.machine.handle event (c.now time)).1.lastObs } _
    rw [hkept.lastObs]
    exact hkept
  · right
    have hrole : (c.extend event time).machine.role = .holder fence := htaken.role
    have hdeadline : (c.extend event time).machine.deadline = some (c.now (sent + validFor)) := by
      show (c.machine.handle event (c.now time)).1.deadline = _
      rw [htaken.deadline, grantDeadline, hsent]
      simp only [Client.now, hs.cfg, ← validFor_eq, some_inj, Now.mk.injEq]
      omega
    refine ⟨fence, count, hack, ⟨htaken.cfg.trans hs.cfg, ⟨time, le_rfl, htaken.lastObs⟩, ?_, ?_⟩, hcall, ?_⟩
    · intro fence' _ _
      exact ⟨sent, hdeadline⟩
    · intro call hcall'
      exact absurd (hcall.symm.trans hcall') (by simp)
    · intro fence' sent' hh
      obtain ⟨-, hrole', hdeadline'⟩ := hh
      rw [hrole] at hrole'
      rw [hdeadline] at hdeadline'
      have hsame : sent + validFor = sent' + validFor := now_inj (c := c) (some.inj hdeadline')
      exact ⟨(Role.holder.inj hrole').symm, by omega⟩

theorem onAnswer_cases {call : Call} {ack : SupervisorLeaseAck} (hs : Sound c time) (hsent : call.sentAt = c.now sent) :
    Continues c (c.onAnswer call ack time) time ∨
      ∃ fence count, call.request.asksGrant = true ∧ fromWire ack = .granted fence count ∧
        TookGrant (c.onAnswer call ack time) time fence sent := by
  have hdone : Continues c { c with call := none } time := .same hs rfl (fun _ => rfl) rfl
  have hdoneSound : Sound { c with call := none } time := hdone.sound hs
  have hgrant : ∀ event, RoleMachine.Acks call.sentAt (fromWire ack) event → call.request.asksGrant = true →
      c.onAnswer call ack time = { c with call := none }.extend event time →
      Continues c (c.onAnswer call ack time) time ∨
        ∃ fence count, call.request.asksGrant = true ∧ fromWire ack = .granted fence count ∧
          TookGrant (c.onAnswer call ack time) time fence sent := by
    intro event hevent hask heq
    rw [heq]
    obtain hkept | ⟨fence, count, hack, htook⟩ := extend_ack hdoneSound rfl hsent hevent
    · exact .inl ⟨hkept.now, hkept.observed, hkept.kept, hkept.call⟩
    · exact .inr ⟨fence, count, hask, hack, htook⟩
  cases hrequest : call.request with
  | acquire checkpoint force =>
    rw [← hrequest]
    exact hgrant _ .acquire (by rw [hrequest]; rfl) (by simp only [onAnswer, hrequest])
  | renew fence checkpoint =>
    rw [← hrequest]
    exact hgrant _ .renew (by rw [hrequest]; rfl) (by simp only [onAnswer, hrequest])
  | release fence checkpoint target =>
    left
    cases target with
    | none =>
      simp only [onAnswer, hrequest]
      exact hdone
    | some target =>
      simp only [onAnswer, hrequest]
      split
      · exact .handle .releaseAcknowledged rfl rfl (fun _ => rfl) rfl
      · exact hdone
  | query =>
    left
    simp only [onAnswer, hrequest]
    exact .handle (.queryAck (.fromWire ack)) rfl rfl (fun _ => rfl) rfl

end Client

/-! ### All clients and the relay -/

namespace Supervisors
variable {w : Supervisors} {a : SupervisorsAction} {userId machineId : String} {fence sent : Nat} {c c' : Client}
variable {ack : SupervisorLeaseAck} {gone gone' : List (String × Nat)}

/-- The account's row names the machine with the fence, and does not run out before the deadline of a request sent then. -/
def Backed (w : Supervisors) (userId machineId : String) (fence sent : Nat) : Prop :=
  ∃ row, w.tables.leases[userId]? = some row ∧ row.holderMachineId = machineId ∧ row.fence = fence ∧
    fenceEpoch fence = w.tables.epoch ∧ row.released = false ∧ sent + validFor + w.relayOffset ≤ nanos row.expiresAt

/-- The machine holds the fence until the deadline of a request sent then, or a grant of it has been answered to that
request. -/
inductive Claims (w : Supervisors) (machineId : String) (fence sent : Nat) : Prop where
  | held {c : Client} (hc : w.clients[machineId]? = some c) (h : c.Holds fence sent)
  | granting {c : Client} {call : Call} {ack : SupervisorLeaseAck} {count : Option Nat}
      (hc : w.clients[machineId]? = some c)
      (hcall : c.call = some call) (hsent : call.sentAt = c.now sent) (hask : call.request.asksGrant = true)
      (hanswer : w.answers.lookup call.id = some ack) (hgrant : LeaseAck.fromWire ack = .granted fence count)

/-- What holds in every state, except that a machine may still count on a fence of `gone`: one that it has given back. -/
structure Secure (userId : String) (gone : List (String × Nat)) (w : Supervisors) : Prop where
  registry : ∀ (id : String) (machine : LeaseMachine), w.machines[id]? = some machine → machine.userId = userId
  sound : ∀ (id : String) (c : Client), w.clients[id]? = some c → c.Sound w.time
  calls : ∀ (id : String) (c : Client) (call : Call), w.clients[id]? = some c → c.call = some call → call.id < w.nextId
  fresh : ∀ flight ∈ w.flights, flight.id < w.nextId
  flights : ∀ flight ∈ w.flights, ∀ (id : String) (c : Client) (call : Call), w.clients[id]? = some c → c.call = some call →
    call.id = flight.id → flight.machineId = id ∧ flight.request = call.request
  answers : ∀ answer ∈ w.answers, answer.1 < w.nextId
  backed : ∀ (id : String) (fence sent : Nat), w.Claims id fence sent →
    sent ≤ w.time ∧ (w.time < sent + validFor → (id, fence) ∉ gone → w.Backed userId id fence sent)

theorem put_cases {id : String} (hc : (w.put machineId c').clients[id]? = some c) : machineId = id ∧ c' = c ∨
    w.clients[id]? = some c := by
  simp only [put, lookup_insert] at hc
  split at hc
  next hid => exact .inl ⟨hid, some.inj hc⟩
  · exact .inr hc

section
variable (h : Secure userId gone w)
include h

theorem Secure.mono (hsub : gone ⊆ gone') : Secure userId gone' w := { h with
  backed := by
    intro id fence sent hclaim
    obtain ⟨hsent, hbacked⟩ := h.backed id fence sent hclaim
    exact ⟨hsent, fun hlive hkept => hbacked hlive fun hmem => hkept (hsub hmem)⟩ }

theorem Secure.put (hs : c'.Sound w.time) (hcall : c'.call = none)
    (hclaims : ∀ fence sent, c'.Holds fence sent → w.Claims machineId fence sent) :
      Secure userId gone (w.put machineId c') := {
  h with
  sound := by
    intro id c hc
    rcases put_cases hc with ⟨rfl, rfl⟩ | hc
    · exact hs
    · exact h.sound id c hc
  calls := by
    intro id c call hc hcall'
    rcases put_cases hc with ⟨rfl, rfl⟩ | hc
    · simp [hcall] at hcall'
    · exact h.calls id c call hc hcall'
  flights := by
    intro flight hflight id c call hc hcall'
    rcases put_cases hc with ⟨rfl, rfl⟩ | hc
    · simp [hcall] at hcall'
    · exact h.flights flight hflight id c call hc hcall'
  backed := by
    intro id fence sent hclaim
    refine h.backed id fence sent ?_
    cases hclaim with
    | held hc hh =>
      rcases put_cases hc with ⟨rfl, rfl⟩ | hc
      · exact hclaims fence sent hh
      · exact .held hc hh
    | granting hc hcall' hsent hask hanswer hgrant =>
      rcases put_cases hc with ⟨rfl, rfl⟩ | hc
      · simp [hcall] at hcall'
      · exact .granting hc hcall' hsent hask hanswer hgrant }

theorem Secure.continue_ (hc : w.clients[machineId]? = some c) (hnext : c.Continues c' w.time) :
    Secure userId gone (w.put machineId c') :=
  h.put (hnext.sound (h.sound _ _ hc)) hnext.call fun _ _ hh => .held hc (hnext.holds hh)

theorem Secure.feed {explicit : Bool} (hevent : isGrantAck event = false) :
    Secure userId gone (w.feed machineId event explicit) := by
  unfold Supervisors.feed
  split
  next c hc =>
    split
    next hidle =>
      have hcall : c.call = none := by
        simp only [Client.idle, Bool.and_eq_true, isNone_iff_eq_none] at hidle
        exact hidle.2
      exact h.continue_ hc (Client.feedWith_continues hcall hevent)
    · exact h
  · exact h

theorem Secure.start {accountBound : Bool} {persisted : Option PersistedLease} {monoOffset wallOffset : Nat} :
    Secure userId gone (w.step (.start machineId accountBound persisted monoOffset wallOffset)) := by
  have hrole : ∀ fence, 0 < fence →
      (new {} machineId accountBound persisted ⟨w.time + monoOffset, w.time + wallOffset⟩).1.role ≠ .holder fence := by
    intro fence hpos
    simp only [new]
    split
    · simp [Role.standbyUnknown]
    · intro heq
      exact hpos.ne (Role.holder.inj heq)
  refine h.put ⟨rfl, ⟨w.time, le_rfl, rfl⟩, ?_, by simp⟩ rfl ?_
  · intro fence hpos hholds
    exact absurd hholds (hrole fence hpos)
  · intro fence sent hholds
    exact absurd hholds.2.1 (hrole fence hholds.1)

theorem Secure.send {request : SupervisorLeaseRequest} (hc : w.clients[machineId]? = some c)
    (hmachine : c'.machine = c.machine) (hnow : ∀ t, c'.now t = c.now t) :
      Secure userId gone (w.send machineId c' request) := by
  have hs : Client.Sound { c' with call := some ⟨w.nextId, request, c'.now w.time⟩ } w.time := by
    have hsame : c.Continues { c' with call := none } w.time := .same (h.sound _ _ hc) hmachine hnow rfl
    have hsound := hsame.sound (h.sound _ _ hc)
    refine ⟨hsound.cfg, hsound.observed, hsound.holder, ?_⟩
    intro call hcall'
    exact ⟨w.time, le_rfl, some.inj hcall' ▸ rfl⟩
  refine ⟨h.registry, ?_, ?_, ?_, ?_, ?_, ?_⟩
  · intro id d hd
    rcases put_cases hd with ⟨rfl, rfl⟩ | hd
    · exact hs
    · exact h.sound id d hd
  · intro id d call hd hcall'
    show call.id < w.nextId + 1
    rcases put_cases hd with ⟨rfl, rfl⟩ | hd
    · rw [← some.inj hcall']
      exact Nat.lt_succ_self _
    · exact (h.calls id d call hd hcall').trans (Nat.lt_succ_self _)
  · intro flight hflight
    obtain rfl | hflight := List.mem_cons.mp hflight
    · exact Nat.lt_succ_self _
    · exact (h.fresh flight hflight).trans (Nat.lt_succ_self _)
  · intro flight hflight id d call hd hcall' hid
    rcases put_cases hd with ⟨rfl, rfl⟩ | hd <;> obtain rfl | hflight := List.mem_cons.mp hflight
    · exact ⟨rfl, by rw [← some.inj hcall']⟩
    · rw [← some.inj hcall'] at hid
      exact absurd hid.symm (h.fresh flight hflight).ne
    · exact absurd hid (h.calls id d call hd hcall').ne
    · exact h.flights flight hflight id d call hd hcall' hid
  · intro answer hanswer
    exact (h.answers answer hanswer).trans (Nat.lt_succ_self _)
  · intro id fence sent hclaim
    refine h.backed id fence sent ?_
    cases hclaim with
    | held hd hh =>
      rcases put_cases hd with ⟨rfl, rfl⟩ | hd
      · obtain ⟨hpos, hrole, hdeadline⟩ := hh
        refine .held hc ⟨hpos, hmachine ▸ hrole, ?_⟩
        rw [← hmachine, ← hnow]
        exact hdeadline
      · exact .held hd hh
    | granting hd hcall' hsent hask hanswer hgrant =>
      rcases put_cases hd with ⟨rfl, rfl⟩ | hd
      · rw [← some.inj hcall'] at hanswer
        have hnone : w.answers.lookup w.nextId = none :=
          List.lookup_eq_none_iff.mpr fun answer hmem => by simp [(h.answers answer hmem).ne']
        exact absurd (hnone.symm.trans hanswer) (by simp)
      · exact .granting hd hcall' hsent hask hanswer hgrant

end

theorem nanos_relayNow_le : nanos w.relayNow ≤ w.time + w.relayOffset := by
  simp only [relayNow, nanos]
  omega

theorem lt_nanos_relayNow : w.time + w.relayOffset < nanos (w.relayNow + 1) := by
  simp only [relayNow, nanos]
  omega

theorem validFor_le : validFor + nanos 1 ≤ nanos ttlSecs := by
  rw [validFor_eq]
  decide

theorem expiresAt_covers (hsent : sent ≤ w.time) : sent + validFor + w.relayOffset ≤ nanos (w.relayNow + ttlSecs) := by
  have hnow := lt_nanos_relayNow (w := w)
  have hvalid := validFor_le
  simp only [nanos] at hnow hvalid ⊢
  omega

section
variable {lease row : SupervisorLeaseRecord} {tables' : LeaseTables} {other : String} {flights : List Flight}
  {answers : List (Nat × SupervisorLeaseAck)}

theorem Backed.grant (h : w.Backed userId machineId fence sent) (hsent : sent ≤ w.time) (hlive : w.time < sent + validFor)
    (hG : w.tables.Grants userId other w.relayNow lease tables') :
    ({ w with tables := tables', flights := flights, answers := answers } : Supervisors).Backed userId machineId fence
      sent := by
  obtain ⟨row, hrow, hholder, hfence, hepoch, hheld, hexpires⟩ := h
  obtain ⟨row', hrow', hholder', hfence'⟩ | hmint := hG.kind
  · rw [hrow, some_inj] at hrow'
    subst hrow'
    refine ⟨lease, ?_, hholder'.symm.trans hholder, hfence'.symm.trans hfence, ?_, hG.held, ?_⟩
    · show tables'.leases[userId]? = some lease
      rw [hG.written, LeaseTables.writeLease_leases, if_pos rfl]
    · show fenceEpoch fence = tables'.epoch
      rw [hG.written, hepoch]
      rfl
    · rw [hG.expiresAt]
      exact expiresAt_covers hsent
  · -- a row whose holder may still act is not free
    have hfree := (hmint row hrow).1
    have hnow := nanos_relayNow_le (w := w)
    rw [← hfence] at hepoch
    simp only [SupervisorLeaseRecord.free, hheld, hepoch, Nat.lt_irrefl, or_false, Bool.false_eq_true, false_or,
      decide_eq_true_eq,
      hG.updatedAt] at hfree
    simp only [nanos] at hnow hexpires
    omega

end

/-! ### Releases that do not overtake a grant -/

/-- An answer on its way grants the fence. -/
def granting (w : Supervisors) (c : Client) (fence : Nat) : Bool :=
  match c.call with
  | none => false
  | some call =>
    call.request.asksGrant && (w.answers.lookup call.id).any fun ack =>
      match LeaseAck.fromWire ack with
      | .granted fence' _ => fence' = fence
      | _ => false

/-- The machine acts as the supervisor under the fence, or is about to. -/
def acts (w : Supervisors) (machineId : String) (fence : Nat) : Bool :=
  w.clients[machineId]?.any fun c =>
    decide (c.machine.role = .holder fence) && c.machine.isHolderNow (c.now w.time) || w.granting c fence

/-- The relay handles a release only while its machine does not act under the fence. -/
def settled (w : Supervisors) : SupervisorsAction → Prop
  | .handle place _ =>
    match w.flights[place]? with
    | some ⟨_, machineId, .release fence _ _⟩ => w.acts machineId fence = false
    | _ => True
  | _ => True

instance (w : Supervisors) : DecidablePred w.settled
  | .handle place _ =>
    match h : w.flights[place]? with
    | some ⟨_, machineId, .release fence _ _⟩ =>
      decidable_of_iff (w.acts machineId fence = false) (by simp only [Supervisors.settled, h])
    | some ⟨_, _, .acquire ..⟩ => isTrue (by simp only [Supervisors.settled, h])
    | some ⟨_, _, .renew ..⟩ => isTrue (by simp only [Supervisors.settled, h])
    | some ⟨_, _, .query⟩ => isTrue (by simp only [Supervisors.settled, h])
    | none => isTrue (by simp only [Supervisors.settled, h])
  | .elapse _ | .start .. | .unreachableAtBoot _ | .capability .. | .tick _ | .acquire .. | .release
      _ | .releaseTo .. | .execute .. |
    .answered _ | .failed _ => isTrue trivial

/-- A release that the relay handles in the step is of a fence that its sender does not act on, or that is gone. -/
def Spares (w : Supervisors) (gone : List (String × Nat)) (a : SupervisorsAction) : Prop :=
  ∀ place publicKey flight, a = .handle place publicKey → w.flights[place]? = some flight →
    ∀ fence checkpoint target, flight.request = .release fence checkpoint target →
      w.acts flight.machineId fence = false ∨ (flight.machineId, fence) ∈ gone

theorem settled.spares (h : w.settled a) : w.Spares gone a := by
  rintro place publicKey ⟨id, machineId, request⟩ rfl hflight fence checkpoint target rfl
  exact .inl (by simpa only [settled, hflight] using h)

theorem Secure.acts (h : Secure userId gone w) (hclaim : w.Claims machineId fence sent) (hlive : w.time < sent + validFor) :
    w.acts machineId fence = true := by
  cases hclaim with
  | held hc hh =>
    obtain ⟨hpos, hrole, hdeadline⟩ := hh
    have hnow := ((h.sound _ _ hc).isHolderNow_iff hpos hrole hdeadline).mpr hlive
    simp [Supervisors.acts, hc, hrole, hnow]
  | granting hc hcall hsent hask hanswer hgrant =>
    simp [Supervisors.acts, Supervisors.granting, hc, hcall, hask, hanswer, hgrant]

variable {tables' : LeaseTables} {flights : List Flight} {answers : List (Nat × SupervisorLeaseAck)}

theorem Secure.backed_answer {flight : Flight} (h : Secure userId gone w)
    (hquiet : ∀ fence checkpoint target, flight.request = .release fence checkpoint target →
      w.acts flight.machineId fence = false ∨ (flight.machineId, fence) ∈ gone)
    (hanswer : Answers w.tables userId flight.machineId flight.request w.relayNow (ack, tables'))
    (hclaim : w.Claims machineId fence sent) (hlive : w.time < sent + validFor) (hkept : (machineId, fence) ∉ gone) :
    ({ w with tables := tables', flights := flights, answers := answers } : Supervisors).Backed userId machineId fence
      sent := by
  obtain ⟨hsent, hbacked⟩ := h.backed _ _ _ hclaim
  cases hanswer with
  | unchanged _ => exact hbacked hlive hkept
  | granted _ hG _ => exact (hbacked hlive hkept).grant hsent hlive hG
  | released hrequest hR =>
    obtain ⟨row, hrow, hholder, hfence, -⟩ := hbacked hlive hkept
    rw [hR.found, some_inj] at hrow
    subst hrow
    have hsame : machineId = flight.machineId := hholder.symm.trans hR.rowHolder
    rw [hsame, hfence.symm.trans hR.rowFence] at hclaim hkept
    obtain hacts | hgone := hquiet _ _ _ hrequest
    · rw [h.acts hclaim hlive] at hacts
      cases hacts
    · exact absurd hgone hkept

theorem fromWire_granted (h : fromWire ack = .granted fence count) : ack.outcome ≠ .refused ∧ ack.fence = some fence := by
  simp only [fromWire] at h
  cases houtcome : ack.outcome with
  | granted | renewed =>
    simp only [houtcome] at h
    split at h
    next fence' hfence =>
      split at h
      · exact ⟨by simp, by rw [hfence, (granted.inj h).1]⟩
      · cases h
    · cases h
  | refused | unavailable | released =>
    simp only [houtcome] at h
    cases h

theorem backed_of_granted {request : SupervisorLeaseRequest}
    (hanswer : Answers w.tables userId machineId request w.relayNow (ack, tables')) (hask : request.asksGrant = true)
    (hgrant : fromWire ack = .granted fence count) (hsent : sent ≤ w.time) :
    ({ w with tables := tables', flights := flights, answers := answers } : Supervisors).Backed userId machineId fence
      sent := by
  obtain ⟨houtcome, hfence⟩ := fromWire_granted hgrant
  cases hanswer with
  | unchanged hrefused => exact absurd (hrefused hask) houtcome
  | granted _ hG hlease =>
    rw [hlease, some_inj] at hfence
    refine ⟨_, ?_, hG.holder, hfence, ?_, hG.held, ?_⟩
    · show tables'.leases[userId]? = _
      rw [hG.written, LeaseTables.writeLease_leases, if_pos rfl]
    · show fenceEpoch fence = tables'.epoch
      rw [hG.written, ← hfence, hG.epoch]
      rfl
    · rw [hG.expiresAt]
      exact expiresAt_covers hsent
  | released hrequest _ =>
    rw [hrequest] at hask
    cases hask

theorem Secure.handle {place : Nat} {publicKey : Option String} (h : Secure userId gone w)
    (hok : w.Spares gone (.handle place publicKey)) :
    Secure userId gone (w.handle place publicKey) := by
  unfold Supervisors.handle
  cases hflight : w.flights[place]? with
  | none => exact h
  | some flight =>
    have hmem : flight ∈ w.flights := List.mem_of_getElem? hflight
    have hquiet := hok place publicKey flight rfl hflight
    have hanswer : Answers w.tables userId flight.machineId flight.request w.relayNow
        (answerSupervisorLease w.machines w.tables flight.machineId publicKey flight.request w.relayNow
          w.quarantineUntil) :=
      answer_answers h.registry
    dsimp only
    generalize answerSupervisorLease w.machines w.tables flight.machineId publicKey flight.request w.relayNow
      w.quarantineUntil =
      result at hanswer ⊢
    obtain ⟨ack, tables'⟩ := result
    refine ⟨h.registry, h.sound, h.calls, fun f hf => h.fresh f (List.mem_of_mem_eraseIdx hf),
      fun f hf => h.flights f (List.mem_of_mem_eraseIdx hf), ?_, ?_⟩
    · intro answer hmem'
      obtain rfl | hmem' := List.mem_cons.mp hmem'
      · exact h.fresh flight hmem
      · exact h.answers answer hmem'
    · intro id fence sent hclaim
      cases hclaim with
      | held hc hh =>
        have hold : w.Claims id fence sent := .held hc hh
        exact ⟨(h.backed _ _ _ hold).1, h.backed_answer hquiet hanswer hold⟩
      | @granting c call ack' count hc hcall hsent hask hlookup hgrant =>
        by_cases hid : call.id = flight.id
        · obtain ⟨hmachine, hrequest⟩ := h.flights flight hmem id c call hc hcall hid
          rw [← hrequest] at hask
          obtain rfl : ack = ack' := by simpa [hid] using hlookup
          obtain ⟨sent', hpast, hsent'⟩ := (h.sound id c hc).call call hcall
          obtain rfl := Client.now_inj (hsent.symm.trans hsent')
          exact ⟨hpast, fun _ _ => hmachine ▸ backed_of_granted hanswer hask hgrant hpast⟩
        · have hother : (call.id == flight.id) = false := beq_eq_false_iff_ne.mpr hid
          have hold : w.Claims id fence sent :=
            .granting hc hcall hsent hask (by simpa [List.lookup_cons, hother] using hlookup) hgrant
          exact ⟨(h.backed _ _ _ hold).1, h.backed_answer hquiet hanswer hold⟩

section
variable (h : Secure userId gone w)
include h

theorem Secure.elapse {nanos : Nat} : Secure userId gone { w with time := w.time + nanos } := { h with
  sound := fun id c hc => (h.sound id c hc).later (Nat.le_add_right ..)
  backed := by
    intro id fence sent hclaim
    have hold : w.Claims id fence sent := by
      cases hclaim with
      | held hc hh => exact .held hc hh
      | granting hc hcall hsent hask hlookup hgrant => exact .granting hc hcall hsent hask hlookup hgrant
    obtain ⟨hsent, hbacked⟩ := h.backed id fence sent hold
    exact ⟨hsent.trans (Nat.le_add_right ..), fun hlive => hbacked ((Nat.le_add_right ..).trans_lt hlive)⟩ }

/-! ### Steps of a client -/

theorem Secure.execute {hubStopped allowed : Bool} {checkpoint : Option String} :
    Secure userId gone (w.execute machineId hubStopped allowed checkpoint) := by
  unfold Supervisors.execute
  split
  · exact h
  next c hc =>
    split
    next action queue hcall _ =>
      have hrest : c.Continues { c with queue := queue } w.time := .same (h.sound _ _ hc) rfl (fun _ => rfl) hcall
      dsimp only
      split
      · exact h.continue_ hc hrest
      split
      · exact h.send hc rfl fun _ => rfl
      · exact h.continue_ hc hrest
    · exact h

theorem Secure.releaseTo {target : String} {published : Option String} :
    Secure userId gone (w.releaseTo machineId target published) := by
  unfold Supervisors.releaseTo
  split
  · exact h
  next c hc =>
    split
    · exact h.send hc rfl fun _ => rfl
    · exact h

theorem Secure.answered : Secure userId gone (w.answered machineId) := by
  unfold Supervisors.answered
  split
  · exact h
  next c hc =>
    split
    · exact h
    next call hcall =>
      split
      next ack hlookup =>
        obtain ⟨sent, -, hsent⟩ := (h.sound _ _ hc).call call hcall
        obtain hnext | ⟨fence, count, hask, hgrant, htook⟩ := Client.onAnswer_cases (h.sound _ _ hc) hsent
        · exact h.continue_ hc hnext
        · refine h.put htook.sound htook.call fun fence' sent' hh => ?_
          obtain ⟨rfl, rfl⟩ := htook.only fence' sent' hh
          exact .granting hc hcall hsent hask hlookup hgrant
      · exact h

end

theorem secure_step (hok : w.Spares gone a) (h : Secure userId gone w) : Secure userId gone (w.step a) := by
  cases a with
  | elapse nanos => exact h.elapse
  | start machineId accountBound persisted monoOffset wallOffset => exact h.start
  | unreachableAtBoot machineId => exact h.feed rfl
  | capability machineId advertised =>
    cases advertised with
    | some leaseCapable => exact h.feed rfl
    | none =>
      simp only [step]
      split
      · exact h.feed rfl
      · exact h
  | tick machineId => exact h.feed rfl
  | acquire machineId force => exact h.feed rfl
  | release machineId => exact h.feed rfl
  | releaseTo machineId target published => exact h.releaseTo
  | execute machineId hubStopped allowed checkpoint => exact h.execute
  | answered machineId => exact h.answered
  | failed machineId =>
    simp only [step]
    split
    next c hc => exact h.continue_ hc (.same (h.sound _ _ hc) rfl (fun _ => rfl) rfl)
    · exact h
  | handle place publicKey => exact h.handle hok

/-! ### Runs -/

theorem secure_init (h : (supervisors userId).init w) : Secure userId [] w := by
  obtain ⟨hregistry, hclients, hflights, hanswers⟩ := h
  refine ⟨hregistry, by simp [hclients], by simp [hclients], by simp [hflights], by simp [hflights], by simp [hanswers], ?_⟩
  intro id fence sent hclaim
  cases hclaim with
  | held hc _ => simp [hclients] at hc
  | granting hc _ _ _ _ _ => simp [hclients] at hc

theorem secure_of_reachable (h : (supervisors userId).Reachable settled w) : Secure userId [] w :=
  h.inv secure_init fun hok hstep hp => hstep ▸ secure_step (settled.spares hok) hp

theorem Secure.supervises (h : Secure userId gone w) (hs : w.Supervises machineId fence)
    (hkept : (machineId, fence) ∉ gone) :
    ∃ sent, w.time < sent + validFor ∧ w.Backed userId machineId fence sent := by
  obtain ⟨c, hc, hrole, hpos, hnow⟩ := hs
  have hsound := h.sound _ _ hc
  obtain ⟨sent, hdeadline⟩ := hsound.holder fence hpos hrole
  have hlive := (hsound.isHolderNow_iff hpos hrole hdeadline).mp hnow
  exact ⟨sent, hlive, (h.backed _ _ _ (.held hc ⟨hpos, hrole, hdeadline⟩)).2 hlive hkept⟩

/-- Two machines of an account never supervise at one time. -/
theorem one_supervisor {other : String} {fence' : Nat} (h : (supervisors userId).Reachable settled w)
    (hs : w.Supervises machineId fence)
    (hs' : w.Supervises other fence') : machineId = other := by
  have hsecure := secure_of_reachable h
  obtain ⟨_, -, row, hrow, hholder, -⟩ := hsecure.supervises hs List.not_mem_nil
  obtain ⟨_, -, row', hrow', hholder', -⟩ := hsecure.supervises hs' List.not_mem_nil
  rw [hrow, some_inj] at hrow'
  exact hholder.symm.trans (hrow' ▸ hholder')

instance (w : Supervisors) (machineId : String) (fence : Nat) : Decidable (w.Supervises machineId fence) :=
  decidable_of_iff
    ((w.clients[machineId]?.any fun c =>
      decide (c.machine.role = .holder fence ∧ 0 < fence ∧ c.machine.isHolderNow (c.now w.time) = true)) = true) (by
    simp only [Supervises, any_eq_true, decide_eq_true_eq])

/-! ### Two machines -/

def twoMachines : Supervisors where
  time := 0
  relayOffset := 0
  quarantineUntil := 0
  machines := ((∅ : Machines).insert "a" ⟨"u", "ka", "A"⟩).insert "b" ⟨"u", "kb", "B"⟩
  tables := {}

/-- A machine starts and takes the lease: its request is the first one in flight. -/
def takes (machineId publicKey : String) : List SupervisorsAction :=
  [.start machineId true (some { leaseCapable := true }) 0 0, .capability machineId (some true),
    .execute machineId false true none,
    .handle 0 (some publicKey), .answered machineId, .execute machineId false true none, .execute machineId false true none]

/-- The first machine takes the lease and releases it, and the second takes it. -/
def released : List SupervisorsAction :=
  takes "a" "ka" ++ [.release "a", .execute "a" false true none, .handle 0 (some "ka"), .answered "a"] ++ takes "b" "kb"

theorem one_supervisor_released :
    ∃ w, (supervisors "u").Reachable settled w ∧ w.Supervises "b" 2 ∧ ∀ other fence, w.Supervises other fence →
      "b" = other :=
  have h : (supervisors "u").Reachable settled (released.foldl step twoMachines) :=
    ⟨_, ⟨by simp only [twoMachines, lookup_insert]; grind, rfl, rfl, rfl⟩, .of_admits (by decide +kernel)⟩
  have hb : (released.foldl step twoMachines).Supervises "b" 2 := by decide +kernel
  ⟨_, h, hb, fun _ _ hother => one_supervisor h hb hother⟩

/-- `a` moves the supervisor to `b`, which takes the lease before the answer to the release reaches `a`. -/
def moving : List SupervisorsAction :=
  takes "a" "ka" ++ [.releaseTo "a" "b" none, .handle 0 (some "ka")] ++ takes "b" "kb"

theorem two_supervisors_moving : ∃ w, (supervisors "u").Reachable System.anyAction w ∧ w.Supervises "a" 1 ∧
    w.Supervises "b" 2 :=
  ⟨moving.foldl step twoMachines,
    ⟨_, ⟨by simp only [twoMachines, lookup_insert]; grind, rfl, rfl, rfl⟩, .of_admits (by decide +kernel)⟩,
    by decide +kernel, by decide +kernel⟩

/-- The release of `a` is in flight when its session closes. On the next session a person takes the lease back, with the
same fence; then the relay handles the release. -/
def overtaken : List SupervisorsAction :=
  takes "a" "ka" ++ ([.release "a", .execute "a" false true none, .failed "a", .execute "a" false true none,
    .execute "a" false true none, .capability "a" none, .capability "a" (some true), .execute "a" false true none,
      .failed "a",
    .acquire "a" false, .execute "a" false true none, .handle 0 (some "ka"), .answered "a", .handle 1 (some "ka")] :
      List SupervisorsAction) ++
    takes "b" "kb"

theorem two_supervisors_overtaken : ∃ w, (supervisors "u").Reachable System.anyAction w ∧ w.Supervises "a" 1 ∧
    w.Supervises "b" 2 :=
  ⟨overtaken.foldl step twoMachines,
    ⟨_, ⟨by simp only [twoMachines, lookup_insert]; grind, rfl, rfl, rfl⟩, .of_admits (by decide +kernel)⟩,
    by decide +kernel, by decide +kernel⟩

/-- The releases that the relay handles in a step, with the machine that sent them. -/
def handledReleases (w : Supervisors) : SupervisorsAction → List (String × Nat)
  | .handle place _ =>
    match w.flights[place]? with
    | some ⟨_, machineId, .release fence _ _⟩ => [(machineId, fence)]
    | _ => []
  | _ => []

def stepLogged (s : Supervisors × List (String × Nat)) (a : SupervisorsAction) : Supervisors × List (String × Nat) :=
  (s.1.step a, s.1.handledReleases a ++ s.2)

/-- The system, with a log of the releases that the relay has handled. -/
def logged (userId : String) : System (Supervisors × List (String × Nat)) SupervisorsAction where
  init s := (supervisors userId).init s.1 ∧ s.2 = []
  step s a s' := s' = stepLogged s a

theorem spares_handledReleases : w.Spares (w.handledReleases a ++ gone) a := by
  rintro place publicKey ⟨id, machineId, request⟩ rfl hflight fence checkpoint target rfl
  exact .inr (by simp [handledReleases, hflight])

theorem secure_of_logged (h : (logged userId).Reachable System.anyAction (w, gone)) : Secure userId gone w := by
  refine h.inv (P := fun s => Secure userId s.2 s.1) ?_ ?_
  · rintro ⟨w, gone⟩ ⟨hinit, rfl⟩
    exact secure_init hinit
  · rintro ⟨w, gone⟩ _ a - rfl hsecure
    exact secure_step spares_handledReleases (hsecure.mono (List.subset_append_right ..))

/-- A machine supervises within its row at the relay, or a release of it was handled. -/
theorem supervises_within_row (h : (logged userId).Reachable System.anyAction (w, gone))
    (hs : w.Supervises machineId fence) :
    (∃ row, w.tables.leases[userId]? = some row ∧ row.holderMachineId = machineId ∧ row.fence = fence ∧
      row.released = false ∧
      w.time + w.relayOffset < nanos row.expiresAt) ∨ (machineId, fence) ∈ gone := by
  by_cases hgone : (machineId, fence) ∈ gone
  · exact .inr hgone
  · obtain ⟨sent, hlive, row, hrow, hholder, hfence, -, hheld, hexpires⟩ := (secure_of_logged h).supervises hs hgone
    exact .inl ⟨row, hrow, hholder, hfence, hheld, by omega⟩

theorem supervises_within_row_taken : let s := (takes "a" "ka").foldl stepLogged (twoMachines, [])
    s.1.Supervises "a" 1 ∧ s.2 = [] ∧
      ((∃ row, s.1.tables.leases["u"]? = some row ∧ row.holderMachineId = "a" ∧ row.fence = 1 ∧
      row.released = false ∧ s.1.time + s.1.relayOffset < nanos row.expiresAt) ∨ ("a", 1) ∈ s.2) := by
  have hs : ((takes "a" "ka").foldl stepLogged (twoMachines, [])).1.Supervises "a" 1 := by decide +kernel
  refine ⟨hs, by decide +kernel, supervises_within_row ⟨_, ⟨⟨?_, rfl, rfl, rfl⟩, rfl⟩, .of_admits ?_⟩ hs⟩
  · simp only [twoMachines, lookup_insert]
    grind
  · decide +kernel

end Supervisors
end Ferryx.Daemon
