import Ferryx.AgentControl.Fence
import Ferryx.Theorems.LeaseGrants

/-! A later grant of an account to another machine has a higher fence, over all promotions, and a daemon that admitted a
fence refuses every lower one, over all restarts: the two together keep an earlier holder out. -/

namespace Ferryx.AgentControl
open Lib Std Account LeaseTables

/-- A later grant has no lower fence, and an equal one only for the same machine. -/
def Grant.After (newer older : Grant) : Prop :=
  newer.userId = older.userId → older.fence ≤ newer.fence ∧ (older.fence = newer.fence → older.machineId = newer.machineId)

/-- One fence goes to one machine. -/
def Grant.Agree (g g' : Grant) : Prop := g.userId = g'.userId → g.fence = g'.fence → g.machineId = g'.machineId

instance : Std.Symm Grant.Agree := ⟨fun _ _ h hu hf => (h hu.symm hf.symm).symm⟩

theorem Grant.After.agree {newer older : Grant} (h : newer.After older) : newer.Agree older :=
  fun hu hf => ((h hu).2 hf.symm).symm

namespace Fencing

/-- A grant is of an older epoch, or its account's row has its fence, still with its machine, or a later one. -/
def Issued (tables : LeaseTables) (g : Grant) : Prop :=
  fenceEpoch g.fence < tables.epoch ∨
    ∃ row, tables.leases[g.userId]? = some row ∧ fenceEpoch row.fence = tables.epoch ∧ g.fence ≤ row.fence ∧
      (g.fence = row.fence → g.machineId = row.holderMachineId)

/-- The grants are in the order of their fences. -/
structure Ordered (w : Fencing) : Prop where
  issued : ∀ g ∈ w.grants, Issued w.tables g
  order : w.grants.Pairwise Grant.After
  epochs : ∀ tables ∈ w.earlier, tables.epoch = w.tables.epoch

variable {w w' : Fencing} {a : FencingAction} {tables tables' : LeaseTables} {g : Grant} {userId machineId : String}
  {now fence : Nat}
  {lease row : SupervisorLeaseRecord}

theorem Issued.grant (hG : tables.Grants userId machineId now lease tables') (h : Issued tables g)
    (hu : g.userId = userId) :
    g.fence ≤ lease.fence ∧ (g.fence = lease.fence → g.machineId = machineId) := by
  obtain hold | ⟨row, hrow, hepoch, hle, hsame⟩ := h
  · rw [← hG.epoch] at hold
    have hlt := lt_of_fenceEpoch_lt hold
    exact ⟨hlt.le, fun heq => absurd heq hlt.ne⟩
  · rw [hu] at hrow
    obtain ⟨row', hrow', hholder, hfence⟩ | hmint := hG.kind
    · rw [hrow, Option.some_inj] at hrow'
      subst hrow'
      rw [hfence] at hle hsame
      exact ⟨hle, fun heq => (hsame heq).trans (hholder.trans hG.holder)⟩
    · have hlt := hle.trans_lt (hmint row hrow).2
      exact ⟨hlt.le, fun heq => absurd heq hlt.ne⟩

theorem Issued.after_grant (hG : tables.Grants userId machineId now lease tables') (h : Issued tables g) :
    Issued tables' g := by
  rw [hG.written]
  by_cases hu : g.userId = userId
  · obtain ⟨hle, hsame⟩ := h.grant hG hu
    refine .inr ⟨lease, ?_, hG.epoch, hle, fun heq => (hsame heq).trans hG.holder.symm⟩
    rw [writeLease_leases, if_pos hu.symm]
  · rw [Issued, writeLease_leases, if_neg (Ne.symm hu)]
    exact h

theorem Issued.after_release (hR : tables.Releases userId machineId fence row lease tables') (h : Issued tables g) :
    Issued tables' g := by
  rw [hR.written]
  by_cases hu : g.userId = userId
  · obtain hold | ⟨row', hrow, hepoch, hle, hsame⟩ := h
    · exact .inl hold
    · rw [hu, hR.found, Option.some_inj] at hrow
      subst hrow
      rw [hR.rowFence, ← hR.fence] at hepoch hle hsame
      rw [hR.rowHolder, ← hR.holder] at hsame
      refine .inr ⟨lease, ?_, hepoch, hle, hsame⟩
      rw [writeLease_leases, if_pos hu.symm]
  · rw [Issued, writeLease_leases, if_neg (Ne.symm hu)]
    exact h

theorem Issued.after_promotion (h : Issued w.tables g) (hepoch : tables.epoch = w.tables.epoch) :
    Issued tables.bumpRelayEpoch g := by
  refine .inl ?_
  have hle : fenceEpoch g.fence ≤ w.tables.epoch := by
    obtain hold | ⟨row, -, hrow, hfence, -⟩ := h
    · exact hold.le
    · rw [← hrow, fenceEpoch_eq, fenceEpoch_eq]
      exact Nat.div_le_div_right hfence
  simp only [bumpRelayEpoch]
  omega

theorem Ordered.write (h : Ordered w) (hepoch : tables.epoch = w.tables.epoch) (hissued : ∀ g ∈ w.grants, Issued tables g) :
    Ordered (w.write tables) := by
  refine ⟨hissued, h.order, ?_⟩
  intro earlier hmem
  obtain rfl | hmem := List.mem_cons.mp hmem
  · exact hepoch.symm
  · exact (h.epochs earlier hmem).trans hepoch.symm

theorem Ordered.grant {granted : Except LeaseError (SupervisorLeaseRecord × LeaseTables)} (h : Ordered w)
    (hG : ∀ {lease tables'}, granted = .ok (lease, tables') → w.tables.Grants userId machineId now lease tables') :
    Ordered (w.grantTo userId machineId granted) := by
  cases granted with
  | error e => exact h
  | ok result =>
    obtain ⟨lease, tables'⟩ := result
    have hgrant := hG rfl
    have hwritten : Ordered (w.write tables') :=
      h.write (by rw [hgrant.written]; rfl) fun g hg => (h.issued g hg).after_grant hgrant
    refine ⟨?_, List.pairwise_cons.mpr ⟨?_, h.order⟩, hwritten.epochs⟩
    · intro g hg
      obtain rfl | hg := List.mem_cons.mp hg
      · refine .inr ⟨lease, ?_, ?_, le_rfl, fun _ => hgrant.holder.symm⟩
        · show tables'.leases[userId]? = some lease
          rw [hgrant.written, writeLease_leases, if_pos rfl]
        · show fenceEpoch lease.fence = tables'.epoch
          rw [hgrant.epoch, hgrant.written]
          rfl
      · exact hwritten.issued g hg
    · intro g hg hu
      exact (h.issued g hg).grant hgrant hu.symm

theorem Ordered.release {result : Option LeaseTables} (h : Ordered w)
    (hR : ∀ {tables'}, result = some tables' → ∃ row lease, w.tables.Releases userId machineId fence row lease tables') :
    Ordered (result.elim w w.write) := by
  cases result with
  | none => exact h
  | some tables' =>
    obtain ⟨row, lease, hrelease⟩ := hR rfl
    exact h.write (by rw [hrelease.written]; rfl) fun g hg => (h.issued g hg).after_release hrelease

theorem ordered_step (h : Ordered w) : Ordered (w.step a) := by
  cases a with
  | acquire machines userId machineId now checkpoint force => exact h.grant acquire_grants
  | renew machines userId machineId fence now checkpoint => exact h.grant fun hok => (renew_grants hok).1
  | release userId machineId fence now checkpoint => exact h.release releaseInner_releases
  | releaseTo userId machineId fence now checkpoint target => exact h.release releaseInner_releases
  | promote lag =>
    simp only [step]
    split
    next tables hlag =>
      have hepoch : tables.epoch = w.tables.epoch := by
        obtain rfl | hmem := List.mem_cons.mp (List.mem_of_getElem? hlag)
        · rfl
        · exact h.epochs tables hmem
      exact ⟨fun g hg => (h.issued g hg).after_promotion hepoch, h.order, by simp⟩
    · exact h
  | request fence stored =>
    simp only [step, answered]
    split <;> exact ⟨h.issued, h.order, h.epochs⟩
  | push fence stored =>
    simp only [step, answered]
    split <;> exact ⟨h.issued, h.order, h.epochs⟩
  | restart failure => exact ⟨h.issued, h.order, h.epochs⟩

end Fencing

namespace FenceRatchet
variable {daemon : FenceRatchet} {fence : SupervisorFence} {push : Bool} {stored : Stored}

/-- The file has what memory has. -/
structure Durable (daemon : FenceRatchet) : Prop where
  path : daemon.path = true
  readable : daemon.fences.unreadable = none
  below : ∀ account, daemon.maxFor account ≤ daemon.file[account]?.getD 0

def raised (daemon : FenceRatchet) (fence : SupervisorFence) : MaxFence :=
  daemon.fences.max.insert (trim fence.account) (max fence.fence (daemon.maxFor (trim fence.account)))

theorem le_raised (account : String) : daemon.maxFor account ≤ (daemon.raised fence)[account]?.getD 0 := by
  rw [raised, lookup_insert]
  split
  next h => simp [h]
  · rfl

theorem fence_le_raised : fence.fence ≤ (daemon.raised fence)[trim fence.account]?.getD 0 := by
  simp [raised]

/-- What a request leaves in memory and in the file. -/
inductive Outcome (daemon : FenceRatchet) (fence : SupervisorFence) : Except FenceRefusal Unit × FenceRatchet → Prop where
  | refused (why : FenceRefusal) : Outcome daemon fence (.error why, daemon)
  | equal (h : fence.fence = daemon.maxFor (trim fence.account)) : Outcome daemon fence (.ok (), daemon)
  | replaced (why : FenceRefusal) : Outcome daemon fence (.error why, { daemon with file := daemon.raised fence })
  | raised : Outcome daemon fence
      (.ok (), { daemon with file := daemon.raised fence, fences := { max := daemon.raised fence } })

theorem ratchet_outcome (h : Durable daemon) : daemon.Outcome fence (daemon.ratchet fence push stored) := by
  simp only [ratchet, h.readable]
  split
  · exact .refused _
  split
  · exact .refused _
  split
  · exact .refused _
  split
  next heq => exact .equal (by simpa using heq)
  split
  next why replaced _ =>
    cases replaced with
    | false => exact .refused _
    | true => exact .replaced _
  · exact .raised
  next hpath =>
    rw [h.path] at hpath
    cases hpath

theorem ratchet_stale (h : Durable daemon) (hlow : fence.fence < daemon.maxFor (trim fence.account)) :
    (daemon.ratchet fence push stored).1 ≠ .ok () := by
  simp only [ratchet, h.readable]
  split
  · simp
  · simp [hlow]

/-- No fence falls, and an admitted one is covered. -/
structure Keeps (daemon : FenceRatchet) (fence : SupervisorFence) (result : Except FenceRefusal Unit × FenceRatchet) :
    Prop where
  durable : Durable result.2
  rises : ∀ account, daemon.maxFor account ≤ result.2.maxFor account
  covers : result.1 = .ok () → fence.fence ≤ result.2.maxFor (trim fence.account)

theorem ratchet_keeps (h : Durable daemon) : daemon.Keeps fence (daemon.ratchet fence push stored) := by
  have houtcome : daemon.Outcome fence (daemon.ratchet fence push stored) := ratchet_outcome h
  generalize daemon.ratchet fence push stored = result at houtcome ⊢
  cases houtcome with
  | refused why => exact ⟨h, fun _ => le_rfl, by simp⟩
  | equal heq => exact ⟨h, fun _ => le_rfl, fun _ => heq.le⟩
  | replaced why => exact ⟨⟨h.path, h.readable, le_raised⟩, fun _ => le_rfl, by simp⟩
  | raised => exact ⟨⟨h.path, rfl, fun _ => le_rfl⟩, le_raised, fun _ => fence_le_raised⟩

end FenceRatchet

namespace Fencing
variable {w w' : Fencing} {a : FencingAction}

/-- The daemon remembers what it admitted. -/
structure Remembered (w : Fencing) : Prop where
  durable : w.daemon.Durable
  admitted : ∀ fence ∈ w.admitted, fence.fence ≤ w.daemon.maxFor (trim fence.account)

def intact (_ : Fencing) : FencingAction → Prop
  | .restart failure => failure = none
  | _ => True

instance (w : Fencing) : DecidablePred w.intact
  | .restart failure => inferInstanceAs (Decidable (failure = none))
  | .acquire .. | .renew .. | .release .. | .releaseTo .. | .promote _ | .request .. | .push .. => isTrue trivial

theorem Remembered.answered {fence : SupervisorFence} {result : Except FenceRefusal Unit × FenceRatchet} (h : Remembered w)
    (hk : w.daemon.Keeps fence result) : Remembered (w.answered fence result) := by
  have hearlier : ∀ other ∈ w.admitted, other.fence ≤ result.2.maxFor (trim other.account) :=
    fun other hmem => (h.admitted other hmem).trans (hk.rises _)
  obtain ⟨_ | _, daemon⟩ := result
  · exact ⟨hk.durable, hearlier⟩
  · refine ⟨hk.durable, fun other hmem => ?_⟩
    obtain rfl | hmem := List.mem_cons.mp hmem
    · exact hk.covers rfl
    · exact hearlier other hmem

theorem remembered_step (hok : w.intact a) (h : Remembered w) : Remembered (w.step a) := by
  cases a with
  | acquire machines userId machineId now checkpoint force =>
    simp only [step, grantTo]
    split <;> exact ⟨h.durable, h.admitted⟩
  | renew machines userId machineId fence now checkpoint =>
    simp only [step, grantTo]
    split <;> exact ⟨h.durable, h.admitted⟩
  | release userId machineId fence now checkpoint =>
    simp only [step]
    cases Account.release w.tables userId machineId fence now checkpoint <;> exact ⟨h.durable, h.admitted⟩
  | releaseTo userId machineId fence now checkpoint target =>
    simp only [step]
    cases Account.releaseTo w.tables userId machineId fence now checkpoint target <;> exact ⟨h.durable, h.admitted⟩
  | promote lag =>
    simp only [step]
    split <;> exact ⟨h.durable, h.admitted⟩
  | request fence stored => exact h.answered (FenceRatchet.ratchet_keeps h.durable)
  | push fence stored => exact h.answered (FenceRatchet.ratchet_keeps h.durable)
  | restart failure =>
    obtain rfl : failure = none := hok
    have hload : FenceRatchet.load w.daemon.path w.daemon.file none =
        { w.daemon with fences := { max := w.daemon.file } } := by
      simp [FenceRatchet.load, h.durable.path]
    simp only [step, hload]
    exact ⟨⟨h.durable.path, rfl, fun _ => le_rfl⟩, fun fence hmem => (h.admitted fence hmem).trans (h.durable.below _)⟩

theorem ordered_of_reachable (h : fencing.Reachable intact w) : Ordered w := by
  refine h.inv ?_ ?_
  · intro w₀ hinit
    obtain ⟨tables, file, rfl⟩ := hinit
    exact ⟨by simp [start], by simp [start], by simp [start]⟩
  · intro w w' a _ hstep hp
    exact hstep ▸ ordered_step hp

theorem remembered_of_reachable (h : fencing.Reachable intact w) : Remembered w := by
  refine h.inv ?_ ?_
  · intro w₀ hinit
    obtain ⟨tables, file, rfl⟩ := hinit
    exact ⟨⟨rfl, rfl, fun _ => le_rfl⟩, by simp [start]⟩
  · intro w w' a hok hstep hp
    exact hstep ▸ remembered_step hok hp

/-- `[newer, older]` in the list of grants, whose newest is first. -/
theorem earlier_holder_fenced (h : fencing.Reachable intact w) :
    (∀ g ∈ w.grants, ∀ g' ∈ w.grants, g.userId = g'.userId → g.fence = g'.fence → g.machineId = g'.machineId) ∧
      ∀ newer older : Grant, [newer, older].Sublist w.grants → newer.userId = older.userId →
        newer.machineId ≠ older.machineId →
        ⟨newer.userId, newer.fence⟩ ∈ w.admitted →
          ∀ stored, (w.daemon.admitRequest ⟨older.userId, older.fence⟩ stored).1 ≠ .ok () ∧
          (w.daemon.admitPush ⟨older.userId, older.fence⟩ stored).1 ≠ .ok () := by
  have hordered := ordered_of_reachable h
  have hremembered := remembered_of_reachable h
  refine ⟨?_, ?_⟩
  · intro g hg g' hg'
    exact (hordered.order.imp Grant.After.agree).forall_of_forall (fun _ _ _ _ => rfl) hg hg'
  · intro newer older hsub hu hne hadmitted stored
    have hafter : newer.After older := by
      have := hordered.order.sublist hsub
      simpa using this
    have hlow : older.fence < newer.fence := by
      obtain ⟨hle, hsame⟩ := hafter hu
      exact hle.lt_of_ne fun heq => hne (hsame heq).symm
    have hmax := hremembered.admitted _ hadmitted
    have hstale : older.fence < w.daemon.maxFor (trim older.userId) := hu ▸ hlow.trans_le hmax
    exact ⟨FenceRatchet.ratchet_stale hremembered.durable hstale, FenceRatchet.ratchet_stale hremembered.durable hstale⟩

def twoMachines : Machines := ((∅ : Machines).insert "a" ⟨"u", "ka", "A"⟩).insert "b" ⟨"u", "kb", "B"⟩

/-- `a` holds and moves to `b`; a standby that missed the move is promoted, `a` takes the lease back under it and `b` after
that. -/
def movedAndPromoted : List FencingAction :=
  [.acquire twoMachines "u" "a" 10 none false, .request ⟨"u", 1⟩ .written, .releaseTo "u" "a" 1 20 none "b",
    .acquire twoMachines "u" "b" 21 none false, .push ⟨"u", 2⟩ (.failed "disk full" true), .restart none, .promote 1,
    .acquire twoMachines "u" "a" 30 none false, .release "u" "a" 4294967297 40 none,
      .acquire twoMachines "u" "b" 50 none false,
    .request ⟨"u", 4294967298⟩ .written, .restart none]

theorem earlier_holder_fenced_promoted :
    ∃ w, fencing.Reachable intact w ∧ [⟨"u", "b", 4294967298⟩, ⟨"u", "a", 4294967297⟩].Sublist w.grants ∧
      ⟨"u", 4294967298⟩ ∈ w.admitted ∧ (w.daemon.admitRequest ⟨"u", 4294967297⟩ .written).1 ≠ .ok () :=
  have h : fencing.Reachable intact (movedAndPromoted.foldl step (start {} ∅)) :=
    ⟨_, ⟨_, _, rfl⟩, .of_admits (by decide)⟩
  ⟨_, h, by decide, by decide,
    ((earlier_holder_fenced h).2 ⟨"u", "b", 4294967298⟩ ⟨"u", "a", 4294967297⟩ (by decide) rfl (by decide)
      (by decide) .written).1⟩

end Fencing
end Ferryx.AgentControl
