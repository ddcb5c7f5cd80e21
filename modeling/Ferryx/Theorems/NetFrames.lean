import Ferryx.Network

/-! Whatever the host does, the authors, the messages to the host and the record of what the authors did stay
as they are, and what is on its way to an author is at most followed by more. -/

namespace Ferryx
open Lib List

namespace Net
variable {H : Type} {n m o : Net H}

/-- Only hosts and what they sent differ. -/
structure HostFrame (n m : Net H) : Prop where
  authors : m.authors = n.authors
  conn : m.conn = n.conn
  toHost : m.toHost = n.toHost
  sent : m.sent = n.sent
  assigned : m.assigned = n.assigned
  typedFor : m.typedFor = n.typedFor
  toClient : ∀ i c, n.toClient i c <+: m.toClient i c

namespace HostFrame

theorem refl (n : Net H) : HostFrame n n := ⟨rfl, rfl, rfl, rfl, rfl, rfl, fun _ _ => prefix_refl _⟩

theorem trans (h : HostFrame n m) (h' : HostFrame m o) : HostFrame n o where
  authors := h'.authors.trans h.authors
  conn := h'.conn.trans h.conn
  toHost := h'.toHost.trans h.toHost
  sent := h'.sent.trans h.sent
  assigned := h'.assigned.trans h.assigned
  typedFor := h'.typedFor.trans h.typedFor
  toClient i c := (h.toClient i c).trans (h'.toClient i c)

theorem setHost (n : Net H) (s : Nat) (l : InputLedger H (TypedByte H)) : HostFrame n (n.setHost s l) :=
  ⟨rfl, rfl, rfl, rfl, rfl, rfl, fun _ _ => prefix_refl _⟩

theorem setTap (n : Net H) (s : Nat) (l : InputLedger H (TypedByte H)) (tap : Nat → List (Nat × TypedByte H)) :
    HostFrame n { n.setHost s l with tap := tap } :=
  ⟨rfl, rfl, rfl, rfl, rfl, rfl, fun _ _ => prefix_refl _⟩

variable [DecidableEq H]

theorem reply (n : Net H) (i : H) (c : Nat) (t : ToClient) : HostFrame n (n.reply i c t) :=
  ⟨rfl, rfl, rfl, rfl, rfl, rfl, fun j d => prefix_enqueue n.toClient i j c d [t]⟩

theorem event (n : Net H) (i : H) (t : ToClient) : HostFrame n (n.event i t) := .reply n i _ t

theorem vacate (n : Net H) (s : Nat) (revokees : List H) : HostFrame n (n.vacate s revokees) := by
  induction revokees generalizing n with
  | nil => exact .refl n
  | cons h hs ih => exact (event n h _).trans (ih _)

theorem admitRequest (n : Net H) (i : H) (c s id : Nat) (fail : Bool) {handle : Net H → Net H}
    (hh : ∀ m, HostFrame m (handle m)) : HostFrame n (n.admitRequest i c s id fail handle) := by
  unfold Net.admitRequest
  split
  · exact .refl n
  · split
    · exact (setHost n s _).trans (.reply _ i c _)
    · exact (setHost n s _).trans (hh _)

theorem handleAcquire (i : H) (c id s : Nat) (n : Net H) : HostFrame n (n.handleAcquire i c id s) := by
  unfold Net.handleAcquire
  split
  · exact .reply n i c _
  next l g _ =>
    have h : HostFrame n { n.setHost s l with grant := Function.update n.grant (s, g.epoch) (some (i, id)) } :=
      ⟨rfl, rfl, rfl, rfl, rfl, rfl, fun _ _ => prefix_refl _⟩
    refine HostFrame.trans ?_ (.reply _ i c _)
    split
    · exact h.trans (.event _ _ _)
    · exact h

theorem handleRelease (i : H) (c id s epoch : Nat) (n : Net H) : HostFrame n (n.handleRelease i c id s epoch) :=
  ((setHost n s _).trans (.vacate _ s _)).trans (.reply _ i c _)

theorem handleReclaim (i : H) (c id s epoch : Nat) (n : Net H) : HostFrame n (n.handleReclaim i c id s epoch) :=
  (setHost n s _).trans (.reply _ i c _)

theorem handleGet (i : H) (c id s epoch : Nat) (fail : Bool) (n : Net H) :
    HostFrame n (n.handleGet i c id s epoch fail) := by
  unfold Net.handleGet
  split <;> exact .reply n i c _

theorem ptyWrite (n : Net H) (s k : Nat) : HostFrame n (n.ptyWrite s k) := by
  unfold Net.ptyWrite
  split
  · exact .refl n
  · dsimp only
    split
    · exact (setTap n s _ _).trans (.event _ _ _)
    · exact setTap n s _ _

variable [InputCrc]

theorem handleWrite (i : H) (c attempt s epoch start : Nat) (bytes : List (TypedByte H)) (n : Net H) :
    HostFrame n (n.handleWrite i c attempt s epoch start bytes) := by
  unfold Net.handleWrite
  have h := setHost n s ((n.hosts s).write i epoch start bytes (inputCrc32c bytes)).1
  dsimp only
  split
  any_goals exact h.trans (.reply _ i c _)
  · exact (h.trans (.vacate _ s _)).trans (.reply _ i c _)
  · exact (h.trans (.vacate _ s _)).trans (.reply _ i c _)
  · exact h

theorem hostHandle (n : Net H) (i : H) (c : Nat) (fail : Bool) (t : Out (TypedByte H)) :
    HostFrame n (n.hostHandle i c fail t) := by
  cases t with
  | acquire id s => exact .admitRequest n i c s id fail (.handleAcquire i c id s)
  | reclaim id s epoch => exact .admitRequest n i c s id fail (.handleReclaim i c id s epoch)
  | release id s epoch => exact .admitRequest n i c s id fail (.handleRelease i c id s epoch)
  | write attempt s epoch start bytes => exact .handleWrite i c attempt s epoch start bytes n
  | getEpochState id s epoch => exact .handleGet i c id s epoch fail n
  | classified => exact .refl n

end HostFrame

variable [DecidableEq H] [InputCrc]

omit [InputCrc] in
theorem sent_flush (n : Net H) (i j : H) (a : Author (TypedByte H)) : n.sent j <+: (n.flush i a).sent j := by
  by_cases hj : j = i
  · subst hj
    simp [Net.flush]
  · simp [Net.flush, hj]

theorem sent_step (n : Net H) (a : Action H) (j : H) : n.sent j <+: (n.step a).sent j := by
  cases a with
  | deliverToHost i c lose fail =>
    simp only [step, deliverToHost]
    split
    · exact prefix_refl _
    · split
      · exact prefix_refl _
      · rw [(HostFrame.hostHandle _ i c fail _).sent]
  | deliverToClient i c =>
    simp only [step, deliverToClient]
    split
    · exact prefix_refl _
    · split
      · exact prefix_refl _
      · exact sent_flush { n with toClient := _ } i j _
  | ptyWrite s k =>
    simp only [step]
    rw [(HostFrame.ptyWrite n s k).sent]
  | typeBytes i vals => exact sent_flush { n with typedFor := _ } i j _
  | reconnect i => exact sent_flush { n with conn := _ } i j _
  | _ => exact sent_flush n _ j _

theorem sent_run {ok : Net H → Action H → Prop} (h : (network H).Run ok n m) (j : H) : n.sent j <+: m.sent j := by
  refine h.keeps (P := fun m => n.sent j <+: m.sent j) ?_ (prefix_refl _)
  rintro s _ a - rfl ih
  exact ih.trans (sent_step s a j)

end Net
end Ferryx
