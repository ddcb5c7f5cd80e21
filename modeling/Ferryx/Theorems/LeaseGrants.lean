import Ferryx.Account.SupervisorLease

/-! A grant leaves a row of its machine, and it is one of two things: the fence of the machine's own row again, or a new
fence above every fence that is recorded, over a row that was free. A release keeps the holder and the fence of its row. -/

namespace Ferryx.Account
open Lib Std SupervisorLeaseRequest

theorem fenceEpoch_eq (fence : Nat) : fenceEpoch fence = fence / 2 ^ 32 := Nat.shiftRight_eq_div_pow ..

theorem lt_of_fenceEpoch_lt {a b : Nat} (h : fenceEpoch a < fenceEpoch b) : a < b := by
  rw [fenceEpoch_eq, fenceEpoch_eq] at h
  omega

theorem nextFence_ok {highWater epoch fence : Nat} (h : nextFence highWater epoch = .ok fence) :
    highWater < fence ∧ fenceEpoch fence = epoch := by
  unfold nextFence at h
  split at h
  · cases h
  next hlater =>
    dsimp only at h
    generalize hcounter : (if fenceEpoch highWater = epoch then highWater &&& counterMask else 0) = counter at h
    split at h
    · cases h
    next hroom =>
      have hmask : counterMask + 1 = 2 ^ 32 := rfl
      have hlow : highWater &&& counterMask = highWater % 2 ^ 32 := Nat.and_two_pow_sub_one_eq_mod highWater 32
      have hnew : fence = epoch * 2 ^ 32 + (counter + 1) := by
        rw [← Except.ok.inj h, ← Nat.shiftLeft_add_eq_or_of_lt (by omega), Nat.shiftLeft_eq]
      have hepoch : fenceEpoch highWater = highWater / 2 ^ 32 := fenceEpoch_eq _
      refine ⟨?_, ?_⟩
      · split at hcounter <;> omega
      · rw [fenceEpoch_eq]
        omega

namespace LeaseTables
variable {tables tables' : LeaseTables} {userId user machineId : String} {lease row : SupervisorLeaseRecord}
  {now fence : Nat}

theorem writeLease_leases : (tables.writeLease userId lease).leases[user]? = if userId = user then some lease
    else tables.leases[user]? :=
  lookup_insert ..

/-- The lease of the holder is extended. -/
def Again (tables : LeaseTables) (userId : String) (lease : SupervisorLeaseRecord) : Prop :=
  ∃ row, tables.leases[userId]? = some row ∧ row.holderMachineId = lease.holderMachineId ∧ row.fence = lease.fence

/-- The lease has a new fence; the row was free or gone. -/
def Minted (tables : LeaseTables) (userId : String) (lease : SupervisorLeaseRecord) : Prop :=
  ∀ row, tables.leases[userId]? = some row → row.free tables.epoch lease.updatedAt = true ∧ row.fence < lease.fence

structure Grants (tables : LeaseTables) (userId machineId : String) (now : Nat) (lease : SupervisorLeaseRecord)
    (tables' : LeaseTables) : Prop where
  written : tables' = tables.writeLease userId lease
  holder : lease.holderMachineId = machineId
  epoch : fenceEpoch lease.fence = tables.epoch
  held : lease.released = false
  expiresAt : lease.expiresAt = now + ttlSecs
  updatedAt : lease.updatedAt = now
  kind : tables.Again userId lease ∨ tables.Minted userId lease

theorem mint_grants {candidateCheckpoint : Option String} (hfree : ∀ row, tables.leases[userId]? = some row →
    row.free tables.epoch now = true)
    (h : tables.mint userId machineId now candidateCheckpoint = .ok (lease, tables')) :
    tables.Grants userId machineId now lease tables' := by
  simp only [mint] at h
  split at h
  · cases h
  next fence hfence =>
    obtain ⟨rfl, rfl⟩ := Prod.mk.inj (Except.ok.inj h)
    obtain ⟨habove, hepoch⟩ := nextFence_ok hfence
    refine ⟨rfl, rfl, hepoch, rfl, rfl, rfl, .inr ?_⟩
    intro row hrow
    refine ⟨hfree row hrow, ?_⟩
    simp only [hrow, Option.elim_some] at habove
    exact (Nat.le_max_right ..).trans_lt habove

end LeaseTables

variable {machines : Machines} {tables tables' : LeaseTables} {userId user machineId : String}
  {lease row : SupervisorLeaseRecord}
  {now fence : Nat} {checkpoint target : Option String} {force : Bool}

theorem acquire_grants (h : acquire machines tables userId machineId now checkpoint force = .ok (lease, tables')) :
    tables.Grants userId machineId now lease tables' := by
  unfold acquire at h
  split at h
  · cases h
  split at h
  next hnone => exact LeaseTables.mint_grants (by simp [hnone]) h
  next row hrow =>
    split at h
    · cases h
    split at h
    next hown =>
      obtain ⟨rfl, rfl⟩ := Prod.mk.inj (Except.ok.inj h)
      exact ⟨rfl, rfl, hown.2, rfl, rfl, rfl, .inl ⟨row, hrow, hown.1, rfl⟩⟩
    split at h
    · cases h
    next hfree =>
      split at h
      · cases h
      refine LeaseTables.mint_grants (fun row' hrow' => ?_) h
      rw [hrow, Option.some_inj] at hrow'
      simpa [hrow'] using hfree

theorem renew_grants (h : renew machines tables userId machineId fence now checkpoint = .ok (lease, tables')) :
    tables.Grants userId machineId now lease tables' ∧ lease.fence = fence := by
  unfold renew at h
  split at h
  · cases h
  split at h
  · cases h
  next row hrow =>
    split at h
    · cases h
    next hours =>
      simp only [not_or, not_not] at hours
      obtain ⟨hholder, hfence, -, hepoch⟩ := hours
      obtain ⟨rfl, rfl⟩ := Prod.mk.inj (Except.ok.inj h)
      exact ⟨⟨rfl, rfl, hepoch, rfl, rfl, rfl, .inl ⟨row, hrow, hholder, hfence⟩⟩, rfl⟩

structure LeaseTables.Releases (tables : LeaseTables) (userId machineId : String) (fence : Nat)
    (row lease : SupervisorLeaseRecord)
    (tables' : LeaseTables) : Prop where
  found : tables.leases[userId]? = some row
  rowHolder : row.holderMachineId = machineId
  rowFence : row.fence = fence
  holder : lease.holderMachineId = machineId
  fence : lease.fence = fence
  written : tables' = tables.writeLease userId lease

theorem releaseInner_releases (h : releaseInner tables userId machineId fence now checkpoint target = some tables') :
    ∃ row lease, tables.Releases userId machineId fence row lease tables' := by
  unfold releaseInner at h
  split at h
  · cases h
  next row hrow =>
    split at h
    · cases h
    next hours =>
      simp only [not_or, not_not] at hours
      refine ⟨row, _, hrow, hours.1, hours.2, ?_, ?_, (Option.some.inj h).symm⟩
      · exact hours.1
      · exact hours.2

theorem releaseFor_releases (h : releaseFor tables userId machineId fence now checkpoint target = some tables') :
    ∃ row lease, tables.Releases userId machineId fence row lease tables' := by
  cases target <;> exact releaseInner_releases h

def SupervisorLeaseRequest.asksGrant : SupervisorLeaseRequest → Bool
  | .acquire .. | .renew .. => true
  | .release .. | .query => false

inductive Answers (tables : LeaseTables) (userId machineId : String) (request : SupervisorLeaseRequest) (now : Nat) :
    SupervisorLeaseAck × LeaseTables → Prop where
  | unchanged {ack : SupervisorLeaseAck} (h : request.asksGrant = true → ack.outcome = .refused) :
      Answers tables userId machineId request now (ack, tables)
  | granted {ack : SupervisorLeaseAck} {lease : SupervisorLeaseRecord} {tables' : LeaseTables}
      (hask : request.asksGrant = true)
      (hgrant : tables.Grants userId machineId now lease tables') (hfence : ack.fence = some lease.fence) :
      Answers tables userId machineId request now (ack, tables')
  | released {ack : SupervisorLeaseAck} {fence : Nat} {checkpoint target : Option String}
      {row lease : SupervisorLeaseRecord}
      {tables' : LeaseTables} (hask : request = .release fence checkpoint target)
      (hrelease : tables.Releases userId machineId fence row lease tables') :
        Answers tables userId machineId request now (ack, tables')

@[simp] theorem describeLease_outcome {ack : SupervisorLeaseAck} {previous : Option SupervisorLeaseRecord}
    {expiresAt : Option Nat} :
    (describeLease machines userId ack previous expiresAt now).outcome = ack.outcome := by
  cases previous <;> rfl

theorem answer_answers {publicKey : Option String} {request : SupervisorLeaseRequest} {quarantineUntil : Nat}
    (honly : ∀ (id : String) (machine : LeaseMachine), machines[id]? = some machine → machine.userId = userId) :
    Answers tables userId machineId request now
      (answerSupervisorLease machines tables machineId publicKey request now quarantineUntil) := by
  unfold answerSupervisorLease
  split
  · exact .unchanged fun _ => rfl
  next publicKey =>
    have howner : ∀ {user}, leaseOwner machines machineId publicKey = .ok user → user = userId := by
      intro user hok
      unfold leaseOwner at hok
      split at hok
      next machine hmachine =>
        split at hok
        · rw [← Except.ok.inj hok]
          exact honly _ _ hmachine
        · cases hok
      · cases hok
    unfold primaryLeaseStep
    cases hlease : leaseOwner machines machineId publicKey with
    | error e => exact .unchanged fun _ => rfl
    | ok user =>
      obtain rfl := howner hlease
      cases request with
      | acquire checkpoint force =>
        dsimp only
        cases quarantinedExpiry tables.leases[user]? machineId quarantineUntil now with
        | some expiresAt => exact .unchanged fun _ => by simp
        | none =>
          dsimp only
          cases hacquire : acquire machines tables user machineId now checkpoint force with
          | ok result => exact .granted rfl (acquire_grants hacquire) rfl
          | error e => cases e <;> exact .unchanged fun _ => by simp [leaseErrorAck]
      | renew fence checkpoint =>
        dsimp only
        cases hrenew : renew machines tables user machineId fence now checkpoint with
        | ok result => exact .granted rfl (renew_grants hrenew).1 rfl
        | error e => cases e <;> exact .unchanged fun _ => by simp [leaseErrorAck]
      | release fence checkpoint target =>
        dsimp only
        cases target.any fun t => !machines.enrolled user t with
        | true => exact .unchanged (by simp [asksGrant])
        | false =>
          cases hreleased : releaseFor tables user machineId fence now checkpoint target with
          | none => exact .unchanged (by simp [asksGrant])
          | some tables' =>
            obtain ⟨row, lease, hrelease⟩ := releaseFor_releases hreleased
            exact .released rfl hrelease
      | query => exact .unchanged (by simp [asksGrant])

end Ferryx.Account
