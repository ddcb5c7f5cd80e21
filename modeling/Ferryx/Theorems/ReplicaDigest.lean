import Ferryx.ReplicaClient

/-! A snapshot is installed before its digest is compared, and after a mismatch the client waits for another one. Only the
adoption of a subscription without a snapshot ends the wait. -/

namespace Ferryx
open Fxsh Lib

namespace ReplicaClient
variable {w : ReplicaClient}

def Waits (w : ReplicaClient) : Prop := w.awaitingFirst = true ∨ w.resyncRequested = true

theorem waits_arrive (f : SnapshotFrame) : (w.arrive f).1.Waits ↔ w.Waits := by
  unfold arrive
  split
  · rfl
  split
  · rfl
  split
  · rfl
  -- The assembly of an older snapshot is dropped; what the client waits for is not touched.
  have hdropped : ∀ u,
      u = (if w.assembly.any fun a => a.snapshotId < f.snapshotId then { w with assembly := none, buffered := [] } else w) →
      (u.Waits ↔ w.Waits) := by
    rintro u rfl
    split <;> rfl
  generalize (if w.assembly.any fun a => a.snapshotId < f.snapshotId then _ else w) = u at hdropped
  have hu := hdropped u rfl
  dsimp only
  split
  · exact hu
  · split
    · split
      · exact hu
      · split
        · exact hu
        · split <;> exact hu
    · exact hu

theorem onDelta_of_waits (h : w.Waits) (d : Delta) :
    (w.onDelta d).2 = none ∧ (w.onDelta d).1.replica = w.replica ∧ (w.onDelta d).1.Waits := by
  have ha : w.assembling = true := by
    unfold assembling
    rcases h with h | h <;> simp [h]
  unfold onDelta
  rw [if_pos ha]
  split <;> exact ⟨rfl, rfl, h⟩

theorem catchUp_ne_mismatch (gap : Bool) (events : List UiEvent) (ds : List Delta) :
    (w.catchUp gap events ds).2 ≠ .digestMismatch := by
  induction ds generalizing w events with
  | nil => simp [catchUp]
  | cons d ds ih =>
    have happly : (w.apply d).2 ≠ some .digestMismatch := by
      unfold apply
      split
      · simp
      · split <;> simp
    unfold catchUp
    split
    · exact ih _
    next heq => simpa [heq] using happly
    · exact ih _

variable [StateDigest]

theorem install_mismatch (w : ReplicaClient) (snapshotId : UInt64) (body : Body) :
    ((w.install snapshotId body).2 = .digestMismatch ↔ stateDigest body.state ≠ body.stateDigest) ∧
      (stateDigest body.state ≠ body.stateDigest → (w.install snapshotId body).1.Waits) := by
  unfold install
  dsimp only
  split
  next h => exact ⟨iff_of_true rfl h, fun _ => .inr rfl⟩
  next h => exact ⟨iff_of_false (catchUp_ne_mismatch _ _ _) h, fun h' => absurd h' h⟩

end ReplicaClient

namespace Following
variable {w : Following}

/-- No subscription without a snapshot is adopted on top of a snapshot that does not match its digest. -/
def onTrusted (w : Following) : ClientCall → Prop
  | .adopt _ snapshotFollows _ => snapshotFollows = true ∨ w.mismatched = false
  | _ => True

instance : ∀ w, DecidablePred (onTrusted w)
  | w, .adopt _ snapshotFollows _ => inferInstanceAs (Decidable (snapshotFollows = true ∨ w.mismatched = false))
  | _, .onSnapshot _ | _, .onDelta _ => isTrue trivial

variable [StateDigest] in
theorem waits_step {c : ClientCall} (hok : onTrusted w c) (h : w.mismatched = true → w.client.Waits) :
    (w.step c).mismatched = true → (w.step c).client.Waits := by
  intro hm
  cases c with
  | adopt subscriptionId snapshotFollows revision =>
    rcases hok with hf | hf
    · exact .inl hf
    · rw [show w.mismatched = true from hm] at hf
      cases hf
  | onSnapshot f =>
    have harrive := ReplicaClient.waits_arrive (w := w.client) f
    simp only [step, ReplicaClient.onSnapshot] at hm ⊢
    split at hm
    next body heq =>
      rw [show w.client.arrive f = ((w.client.arrive f).1, .install body) from Prod.ext rfl heq]
      exact (ReplicaClient.install_mismatch _ _ body).2 (by simpa using hm)
    next hne =>
      split
      next heq => simpa [heq] using harrive.mpr (h hm)
      · exact .inr rfl
      next heq => exact absurd (by rw [heq]) (hne _)
  | onDelta d => exact (ReplicaClient.onDelta_of_waits (h hm) d).2.2

variable [StateDigest] in
/-- After a digest mismatch no delta is applied. -/
theorem mismatch_not_built_upon (h : following.Reachable onTrusted w) :
    (∀ f, (w.client.onSnapshot f).2 = some .digestMismatch → (w.step (.onSnapshot f)).mismatched = true) ∧
      (w.mismatched = true → ∀ d, (w.client.onDelta d).2 = none ∧ (w.client.onDelta d).1.replica = w.client.replica) := by
  refine ⟨fun f hf => ?_, fun hm d => ?_⟩
  · unfold ReplicaClient.onSnapshot at hf
    split at hf
    · cases hf
    · cases hf
    next heq =>
      have hne := (ReplicaClient.install_mismatch ..).1.mp (Option.some.inj hf)
      simpa [step, heq] using hne
  · have hw : w.mismatched = true → w.client.Waits := by
      refine h.inv (P := fun w => w.mismatched = true → w.client.Waits) (fun hinit => ?_) fun hok hs ih => ?_
      · obtain ⟨incarnation, rfl⟩ := hinit
        intro hm
        cases hm
      · obtain rfl := hs
        exact waits_step hok ih
    have hd := ReplicaClient.onDelta_of_waits (hw hm) d
    exact ⟨hd.1, hd.2.1⟩

def emptyState : SBody :=
  ⟨0, 0, [], ⟨0, 0, .block, false, true⟩, ⟨0, .off, .default⟩, ⟨.default, .default, none, []⟩, "", [], [], none⟩

/-- A snapshot of revision 5 on subscription 1; for `zeroDigest`, its digest is right if `byte` is 0. -/
def snapshot (snapshotId : UInt64) (byte : UInt8) : SnapshotFrame :=
  ⟨1, ⟨sixteen 0⟩, snapshotId, .full ⟨5, ⟨sixteen byte⟩, 0, false, emptyState⟩⟩

def nextDelta (subscriptionId : UInt64) : Delta :=
  ⟨subscriptionId, 5, 6, none, none, none, none, some "title", [], [], [], none, none, []⟩

def played (cs : List ClientCall) : Following :=
  cs.foldl (@step zeroDigest) ⟨{ incarnation := ⟨sixteen 0⟩ }, false⟩

def resent : Following := played [.adopt 1 true 0, .onSnapshot (snapshot 1 9), .onDelta (nextDelta 1)]

theorem mismatch_not_built_upon_resent : resent.mismatched = true ∧ (resent.client.onDelta (nextDelta 1)).2 = none := by
  have hr : (@following zeroDigest).Reachable onTrusted resent := ⟨_, ⟨_, rfl⟩, .of_admits (by decide)⟩
  exact ⟨rfl, ((@mismatch_not_built_upon _ zeroDigest hr).2 rfl _).1⟩

/-- The client adopts another subscription by the revision of the snapshot that did not match. -/
def adopted : Following := played [.adopt 1 true 0, .onSnapshot (snapshot 1 9), .adopt 2 false 5]

theorem delta_applied_after_mismatch : (@following zeroDigest).Reachable System.anyAction adopted ∧
    adopted.mismatched = true ∧
    adopted.client.localRevision = 5 ∧ (adopted.client.onDelta (nextDelta 2)).2 = some (.applied 6 [] false) :=
  ⟨⟨_, ⟨_, rfl⟩, .of_admits (by decide)⟩, rfl, rfl, rfl⟩

end Following
end Ferryx
