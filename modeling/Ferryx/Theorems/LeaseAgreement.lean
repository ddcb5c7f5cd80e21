import Ferryx.Theorems.LeaseHosts
import Ferryx.Theorems.TypingRound

/-! The invariants of the lease protocol hold of every author in every reachable state, unless a late write ends a lease
behind its author's back (`LateWrite`), or the answer that an epoch is unknown suppresses an author that nobody will wake
(`UnknownReclaim`). -/

namespace Ferryx
open Std Lib LeaseView Function ExtTreeMap Author

namespace Net
variable {H : Type}

/-- A host is gone. The ledgers of the network stay. -/
def OwnerLoss : Action H → Prop
  | .ownerLost .. => True
  | _ => False

instance : DecidablePred (OwnerLoss (H := H))
  | .ownerLost .. => isTrue trivial
  | .typeBytes .. | .setFocus .. | .rebind .. | .reconnect .. | .deliverToHost .. | .deliverToClient ..
  | .requestFailed .. | .retryTimer .. | .sendTimer .. | .ptyWrite .. => isFalse id

/-- A write to the lease that author `i` has, from before the bytes that the session has kept for comparison. -/
def StaleWrite [DecidableEq H] (n : Net H) (i : H) : Out (TypedByte H) → Prop
  | .write _ s e start _ => (n.hosts s).active i e = true ∧ start < (n.hosts s).retainedStart ∧
    (n.authors i).current = some (s, e)
  | _ => False

instance [DecidableEq H] (n : Net H) (i : H) : DecidablePred (n.StaleWrite i)
  | .write .. => inferInstanceAs (Decidable (_ ∧ _))
  | .acquire .. | .reclaim .. | .release .. | .getEpochState .. | .classified .. => isFalse id

/-- The host gets a stale write on a dropped connection. -/
def LateWrite [DecidableEq H] (n : Net H) : Action H → Prop
  | .deliverToHost i c lose _ => lose = false ∧ n.conn i ≠ c ∧ ∃ m ∈ (n.toHost i c).head?, n.StaleWrite i m
  | _ => False

instance [DecidableEq H] (n : Net H) : DecidablePred n.LateWrite
  | .deliverToHost .. => inferInstanceAs (Decidable (_ ∧ _))
  | .typeBytes .. | .setFocus .. | .rebind .. | .reconnect .. | .deliverToClient .. | .requestFailed .. | .retryTimer ..
  | .sendTimer .. | .ptyWrite .. | .ownerLost .. => isFalse id

/-- The answer that the epoch is unknown which the author reclaims. -/
def ForgottenEpoch (a : Author (TypedByte H)) (m : ToClient) : Prop :=
  ∃ p ∈ a.pending, m = .reclaimUnknown p.id ∧ p.kind ≠ .probe

instance (a : Author (TypedByte H)) : DecidablePred (ForgottenEpoch a) :=
  fun m => inferInstanceAs (Decidable (∃ p ∈ a.pending, m = .reclaimUnknown p.id ∧ p.kind ≠ .probe))

/-- The author learns on its live connection that the epoch it reclaims is unknown. -/
def UnknownReclaim (n : Net H) : Action H → Prop
  | .deliverToClient i c => n.conn i = c ∧ ∃ m ∈ (n.toClient i c).head?, ForgottenEpoch (n.authors i) m
  | _ => False

instance (n : Net H) : DecidablePred n.UnknownReclaim
  | .deliverToClient .. => inferInstanceAs (Decidable (_ ∧ _))
  | .typeBytes .. | .setFocus .. | .rebind .. | .reconnect .. | .deliverToHost .. | .requestFailed .. | .retryTimer ..
  | .sendTimer .. | .ptyWrite .. | .ownerLost .. => isFalse id

variable [DecidableEq H] {n : Net H} {loose strand : Prop}

section Dialed
variable {i : H} {c id s e : Nat}

section
variable (D : Dialed n)
include D

theorem Dialed.admitRequest (hc : c ≤ n.conn i) {fail : Bool} {handle : Net H → Net H}
    (hh : Dialed (n.noted i s id) → Dialed (handle (n.noted i s id))) : Dialed (n.admitRequest i c s id fail handle) := by
  rcases n.admitRequest_cases i c s id fail handle with ⟨-, h⟩ | ⟨-, h⟩ <;> rw [h]
  · exact D
  · have D' : Dialed (n.noted i s id) := ⟨D.toHost, D.toClient⟩
    split
    · exact D'.reply hc _
    · exact hh D'

theorem Dialed.handleAcquire (hc : c ≤ n.conn i) : Dialed (n.handleAcquire i c id s) := by
  unfold Net.handleAcquire
  split
  · exact D.reply hc _
  next l g _ =>
    have D' : Dialed { n.setHost s l with grant := update n.grant (s, g.epoch) (some (i, id)) } :=
      ⟨D.toHost, D.toClient⟩
    dsimp only
    split
    next r _ => exact (D'.reply (i := r.holder) le_rfl _).reply hc _
    · exact D'.reply hc _

theorem Dialed.vacateReply (hc : c ≤ n.conn i) (l : InputLedger H (TypedByte H)) (revokees : List H)
    (m : ToClient) : Dialed (((n.setHost s l).vacate s revokees).reply i c m) := by
  have D' : Dialed (n.setHost s l) := ⟨D.toHost, D.toClient⟩
  refine (D'.vacate s revokees).reply ?_ m
  rwa [(HostFrame.vacate _ s revokees).conn]

theorem Dialed.hostHandle [InputCrc] (hc : c ≤ n.conn i) {fail : Bool} (m : Out (TypedByte H)) :
    Dialed (n.hostHandle i c fail m) := by
  have hset : ∀ s l m, Dialed ((n.setHost s l).reply i c m) := fun s l m =>
    Dialed.reply (n := n.setHost s l) ⟨D.toHost, D.toClient⟩ hc m
  cases m with
  | acquire id s => exact D.admitRequest hc fun D' => D'.handleAcquire hc
  | release id s e => exact D.admitRequest hc fun D' => D'.vacateReply hc _ _ _
  | reclaim id s e =>
    refine D.admitRequest hc fun D' => ?_
    exact Dialed.reply (n := (n.noted i s id).setHost s _) ⟨D'.toHost, D'.toClient⟩ hc _
  | write attempt s e start bytes =>
    show Dialed (n.handleWrite i c attempt s e start bytes)
    unfold Net.handleWrite
    generalize (n.hosts s).write i e start bytes (inputCrc32c bytes) = r
    dsimp only
    split
    · exact hset _ _ _
    · exact hset _ _ _
    · exact hset _ _ _
    · exact hset _ _ _
    · exact D.vacateReply hc _ _ _
    · exact D.vacateReply hc _ _ _
    · exact ⟨D.toHost, D.toClient⟩
  | getEpochState id s e =>
    show Dialed (n.handleGet i c id s e fail)
    unfold Net.handleGet
    split <;> exact D.reply hc _
  | classified => exact D

theorem Dialed.deliverToHost [InputCrc] (i : H) (c : Nat) (lose fail : Bool) : Dialed (n.deliverToHost i c lose fail) := by
  unfold Net.deliverToHost
  split
  · exact D
  next m rest hm =>
    have hc : c ≤ n.conn i := by
      by_contra hlt
      rw [D.toHost (Nat.lt_of_not_le hlt)] at hm
      cases hm
    have D' : Dialed { n with toHost := setAt n.toHost i c rest } := by
      refine ⟨fun {j d} hd => ?_, D.toClient⟩
      have hd : n.conn j < d := hd
      have hne : ¬(j = i ∧ d = c) := by
        rintro ⟨rfl, rfl⟩
        exact Nat.not_lt_of_le hc hd
      exact (setAt_of_ne n.toHost rest hne).trans (D.toHost hd)
    dsimp only
    split
    · exact D'
    · exact D'.hostHandle hc m

theorem Dialed.deliverToClient (i : H) (c : Nat) : Dialed (n.deliverToClient i c) := by
  unfold Net.deliverToClient
  split
  · exact D
  next m rest hm =>
    have D' : Dialed { n with toClient := setAt n.toClient i c rest } := by
      refine ⟨D.toHost, fun {j d} hd => ?_⟩
      refine List.eq_nil_iff_forall_not_mem.mpr fun m' hm' => ?_
      have := mem_of_mem_setAt hm hm'
      rw [D.toClient hd] at this
      cases this
    dsimp only
    split
    · exact D'
    · exact D'.flush i _

theorem Dialed.ptyWrite (s k : Nat) : Dialed (n.ptyWrite s k) := by
  unfold Net.ptyWrite
  split
  · exact D
  · dsimp only
    split
    · refine Dialed.reply ?_ le_rfl _
      exact ⟨D.toHost, D.toClient⟩
    · exact ⟨D.toHost, D.toClient⟩

theorem Dialed.reconnect (i : H) : Dialed (n.reconnect i) := by
  have hle : ∀ j, n.conn j ≤ update n.conn i (n.conn i + 1) j := by
    intro j
    by_cases hj : j = i
    · subst hj
      simp
    · simp [update_of_ne hj]
  have D' : Dialed { n with conn := update n.conn i (n.conn i + 1) } :=
    ⟨fun hd => D.toHost ((hle _).trans_lt hd), fun hd => D.toClient ((hle _).trans_lt hd)⟩
  exact D'.flush i _

end

end Dialed

/-- Every author's leases are sound over the connections dialed. -/
structure Leases (loose strand : Prop) (n : Net H) : Prop where
  dialed : n.Dialed
  prompt : ∀ i, (n.authors i).Prompt
  sound : ∀ i, Sound loose strand (n.leaseView i)

theorem leases_start (bound : H → Nat) : Leases loose strand (start bound : Net H) where
  dialed := ⟨fun _ => rfl, fun _ => rfl⟩
  prompt i _ _ := ⟨fun h => (h rfl).elim, (fun _ h => by cases h), fun _ => rfl, rfl⟩
  sound i := by
    have hnow : ((start bound : Net H).leaseView i).now = ∅ := by
      ext r
      simp [leaseView, Author.view, env, start, requests, Author.new]
    have hlate : ((start bound : Net H).leaseView i).late = ∅ := by
      ext r
      simp [leaseView, Author.view, env, start, requests]
    have hheld : ((start bound : Net H).leaseView i).held = ∅ := by
      ext k
      simp [leaseView, Author.view, env, start, InputLedger.new]
    have hlost : ((start bound : Net H).leaseView i).lost = ∅ := by
      ext k
      simp [leaseView, Author.view, start, Author.new]
    exact {
      core := core_start rfl rfl rfl rfl hnow hlate rfl hheld hlost rfl
      kept := .inr ⟨(fun h => by cases h), (fun h => by cases h), (fun h => by cases h)⟩
      waiting := .inr
        ⟨(fun h => by cases h), by simp [leaseView, Author.view, env, start], (fun h => by cases h), (fun h => by cases h)⟩
        }

theorem prompt_flush {i : H} {a : Author (TypedByte H)} (h : ∀ j, (n.authors j).Prompt) (ha : a.Prompt) (j : H) :
    ((n.flush i a).authors j).Prompt := by
  by_cases hj : j = i
  · subst hj
    rw [show (n.flush j a).authors j = { a with out := [] } from update_self ..]
    intro hp ht
    obtain ⟨h₁, h₂, h₃, h₄⟩ := ha hp ht
    exact ⟨h₁, h₂, h₃, h₄⟩
  · rw [show (n.flush i a).authors j = n.authors j from update_of_ne hj ..]
    exact h j

theorem prompt_step [InputCrc] (h : ∀ j, (n.authors j).Prompt) (a : Action H) (j : H) : ((n.step a).authors j).Prompt := by
  cases a with
  | typeBytes i vals => exact prompt_flush h (reevaluate_prompt _) j
  | setFocus i focused => exact prompt_flush h (reevaluate_prompt _) j
  | rebind i s => exact prompt_flush h (reevaluate_prompt _) j
  | reconnect i => exact prompt_flush h (reevaluate_prompt _) j
  | deliverToHost i c lose fail =>
    show ((n.deliverToHost i c lose fail).authors j).Prompt
    unfold deliverToHost
    split
    · exact h j
    · dsimp only
      split
      · exact h j
      · rw [(HostFrame.hostHandle _ i c fail _).authors]
        exact h j
  | deliverToClient i c =>
    show ((n.deliverToClient i c).authors j).Prompt
    unfold deliverToClient
    split
    · exact h j
    · dsimp only
      split
      · exact h j
      · exact prompt_flush h (handle_prompt (h i) _) j
  | requestFailed i id => exact prompt_flush h (reevaluate_prompt _) j
  | retryTimer i => exact prompt_flush h (reevaluate_prompt _) j
  | sendTimer i => exact prompt_flush h (reevaluate_prompt _) j
  | ptyWrite s k =>
    rw [show n.step (.ptyWrite s k) = n.ptyWrite s k from rfl, (HostFrame.ptyWrite n s k).authors]
    exact h j
  | ownerLost i s => exact prompt_flush h (reevaluate_prompt _) j

theorem dialed_step [InputCrc] (D : Dialed n) (a : Action H) : Dialed (n.step a) := by
  cases a with
  | typeBytes i vals =>
    have D' : Dialed { n with typedFor := update n.typedFor i (n.typedFor i ++ vals.map fun _ =>
      (n.authors i).session) } := ⟨D.toHost, D.toClient⟩
    exact D'.flush i _
  | reconnect i => exact D.reconnect i
  | deliverToHost i c lose fail => exact D.deliverToHost i c lose fail
  | deliverToClient i c => exact D.deliverToClient i c
  | ptyWrite s k => exact D.ptyWrite s k
  | _ => exact D.flush _ _

theorem moves_step [InputCrc] (I : n.Inv) (L : Leases loose strand n) {a : Action H} (ho : ¬OwnerLoss a)
    (hl : loose ∨ ¬n.LateWrite a) (hs : strand ∨ ¬n.UnknownReclaim a) (j : H) :
    Moves loose strand (n.leaseView j) ((n.step a).leaseView j) := by
  cases a with
  | typeBytes i vals => exact moves_typeBytes (L.sound i).core vals j
  | setFocus i focused => exact moves_flush (moves_setFocus (L.sound i).core focused) j
  | rebind i s => exact moves_flush (moves_rebind (L.sound i).core s) j
  | reconnect i => exact moves_reconnect L.dialed (L.sound i).core (I.author i).out j
  | deliverToHost i c lose fail =>
    refine moves_deliverToHost I (L.sound i) (hl.imp_right fun hl => ?_) j
    intro attempt s e start bytes hhead hne hlose hact hstart hcur
    exact hl ⟨hlose, hne, _, hhead, hact, hstart, hcur⟩
  | deliverToClient i c =>
    refine moves_deliverToClient (L.sound i) (hs.imp_right fun hs => ?_) j
    intro p e hhead hc hp hk
    subst hc
    refine hs ⟨rfl, _, hhead, p, hp, rfl, ?_⟩
    rw [hk]
    exact nofun
  | requestFailed i id => exact moves_flush (moves_onRequestFailed (L.sound i).core (.refl _) id) j
  | retryTimer i => exact moves_flush (moves_onRetryTimer (L.sound i).core) j
  | sendTimer i => exact moves_flush (moves_onSendTimer (L.sound i).core) j
  | ptyWrite s k => exact moves_ptyWrite I s k j
  | ownerLost i s => exact (ho trivial).elim

theorem leases_reachable [InputCrc] {ok : Net H → Action H → Prop} (hls : loose → strand)
    (ho : ∀ {n a}, ok n a → ¬OwnerLoss a) (hl : ∀ {n a}, ok n a → loose ∨ ¬n.LateWrite a)
    (hs : ∀ {n a}, ok n a → strand ∨ ¬n.UnknownReclaim a) (h : (network H).Reachable ok n) : n.Leases loose strand := by
  refine h.inv_of (Q := Inv) (fun h => inv_reachable h) ?_ ?_
  · rintro n ⟨bound, rfl⟩
    exact leases_start bound
  · rintro n n' a ha rfl I L
    exact {
      dialed := dialed_step L.dialed a
      prompt := prompt_step L.prompt a
      sound := fun j => (L.sound j).moves hls (moves_step I L (ho ha) (hl ha) (hs ha) j) }

def Still (n : Net H) : Prop := ∀ i, ∀ c ≤ n.conn i, n.toHost i c = [] ∧ n.toClient i c = []

/-- The author waits for nothing: it has no request or retry, and no session or epoch to clear up. -/
structure Settled (a : Author (TypedByte H)) : Prop where
  pending : a.pending = none
  retryTimer : a.retryTimer = false
  disowned : a.disowned.isEmpty = true
  finalizing : a.finalizing.isEmpty = true

instance [Fintype H] : Decidable n.Still :=
  inferInstanceAs (Decidable (∀ i, ∀ c ≤ n.conn i, n.toHost i c = [] ∧ n.toClient i c = []))

instance {a : Author (TypedByte H)} : Decidable (Settled a) :=
  decidable_of_iff (a.pending = none ∧ a.retryTimer = false ∧ a.disowned.isEmpty = true ∧ a.finalizing.isEmpty = true)
    ⟨fun ⟨hp, ht, hd, hf⟩ => ⟨hp, ht, hd, hf⟩, fun h => ⟨h.pending, h.retryTimer, h.disowned, h.finalizing⟩⟩

def hostsStay (_ : Net H) (a : Action H) : Prop := ¬OwnerLoss a

instance : DecidablePred (hostsStay (H := H) n) := fun a => inferInstanceAs (Decidable (¬OwnerLoss a))

/-- The runs without a late write, of a network whose hosts stay. -/
def timelyWrites (n : Net H) (a : Action H) : Prop := ¬OwnerLoss a ∧ ¬n.LateWrite a

/-- The runs without a late write in which, besides, no epoch is forgotten that its author reclaims. -/
def timelyReclaims (n : Net H) (a : Action H) : Prop := n.timelyWrites a ∧ ¬n.UnknownReclaim a

instance : DecidablePred (timelyWrites (H := H) n) := fun a => inferInstanceAs (Decidable (¬OwnerLoss a ∧ ¬n.LateWrite a))

instance : DecidablePred (timelyReclaims (H := H) n) :=
  fun a => inferInstanceAs (Decidable (n.timelyWrites a ∧ ¬n.UnknownReclaim a))

section Agreement
variable [InputCrc]

/-- In a network at rest, a session is held by an author exactly if the author has its lease. -/
theorem leases_agree (h : (network H).Reachable timelyWrites n) (hstill : n.Still) (hset : ∀ i, Settled (n.authors i))
    (s : Nat) (i : H) :
    (n.hosts s).holder = some i ↔ (n.authors i).current = some (s, (n.hosts s).current) := by
  have L : n.Leases False True :=
    leases_reachable (fun _ => trivial) And.left (fun ha => .inr ha.2) (fun _ => .inl trivial) h
  have core := (L.sound i).core
  have kept := (L.sound i).kept.resolve_left id
  have S := hset i
  constructor
  · -- A lease that a session records is the current one, or waits to be cleared up.
    intro hh
    have hheld : (s, (n.hosts s).current) ∈ (n.leaseView i).held := ⟨hh, rfl⟩
    rcases core.holder.accounted hheld with hc | hd | hl | ⟨id, hp⟩
    · exact hc
    · have hd : s ∈ (n.authors i).disowned := hd
      rw [ExtTreeSet.isEmpty_iff.mp S.disowned] at hd
      exact (ExtTreeSet.not_mem_empty hd).elim
    · have hl : (s, (n.hosts s).current) ∈ (n.authors i).finalizing := hl
      rw [isEmpty_iff.mp S.finalizing] at hl
      exact (not_mem_empty hl).elim
    · cases S.pending.symm.trans hp
  · -- A current lease is recorded, or a reclaim is due, or the loss is being told.
    intro hc
    rcases kept.current hc with hheld | hn | ⟨o, ho⟩
    · exact hheld.1
    · have hn : (n.authors i).needsReclaim = true := hn
      have hcur : (n.authors i).cur ≠ none := fun hnone => by simp [Author.current, hnone] at hc
      rw [(L.prompt i S.pending S.retryTimer).reclaim hcur] at hn
      cases hn
    · have ho : _ ∈ n.toClient i (n.conn i) := ho
      rw [(hstill i (n.conn i) le_rfl).2] at ho
      cases ho

/-- Also with messages on their way: the lease that a session records is current for its holder alone, who has it, waits to
clear it up or asks for it. -/
theorem lease_never_orphaned (h : (network H).Reachable hostsStay n) (s : Nat) (i : H) (hh : (n.hosts s).holder = some i) :
    ((n.authors i).current = some (s, (n.hosts s).current) ∨ s ∈ (n.authors i).disowned ∨
      (s, (n.hosts s).current) ∈ (n.authors i).finalizing ∨ ∃ id, (n.authors i).pending = some ⟨id, .acquire, s⟩) ∧
      ∀ j, (n.authors j).current = some (s, (n.hosts s).current) → j = i := by
  have L : n.Leases True True := leases_reachable id id (fun _ => .inl trivial) (fun _ => .inl trivial) h
  have I := inv_reachable h
  refine ⟨(L.sound i).core.holder.accounted ⟨hh, rfl⟩, fun j hj => ?_⟩
  obtain ⟨id, hid, -⟩ := (I.author j).ids.spent (.inl (.inl hj))
  obtain ⟨id', hid'⟩ := I.grants.held hh
  exact congrArg Prod.fst (Option.mem_unique (gid_eq_some.mp hid) hid')

end Agreement

/-- One byte is typed, accepted and written, and every message has arrived. -/
def oneByteWritten : List (Action Unit) :=
  [.setFocus () true, .typeBytes () [97], .deliverToHost () 0 false false, .deliverToClient () 0,
    .deliverToHost () 0 false false, .ptyWrite 0 1, .deliverToClient () 0, .deliverToClient () 0]

theorem leases_agree_oneByteWritten : ((@run Unit _ zeroCrc (fun _ => 0) oneByteWritten).hosts 0).holder = some () ∧
      ((@run Unit _ zeroCrc (fun _ => 0) oneByteWritten).authors ()).current = some (0, 1) := by
  have hheld : ((@run Unit _ zeroCrc (fun _ => 0) oneByteWritten).hosts 0).holder = some () := by decide +kernel
  have hcur : ((@run Unit _ zeroCrc (fun _ => 0) oneByteWritten).hosts 0).current = 1 := by decide +kernel
  have hok : System.Admits (@step Unit _ zeroCrc) timelyWrites oneByteWritten (start fun _ => 0) := by decide +kernel
  refine ⟨hheld,
    hcur ▸ (@leases_agree Unit _ _ zeroCrc (@reachable_of_admits Unit _ zeroCrc _ _ _ hok) ?_ ?_ 0 ()).mp hheld⟩
  all_goals decide +kernel

/-- A byte is sent twice: the first write is left on a dropped connection, the second is accepted and written. -/
def byteSentTwice : List (Action Unit) :=
  [.setFocus () true, .typeBytes () [97], .deliverToHost () 0 false false, .deliverToClient () 0, .reconnect (),
    .deliverToHost () 1 false false, .deliverToClient () 1, .deliverToHost () 1 false false, .deliverToClient () 1,
      .ptyWrite 0 1,
    .deliverToClient () 1]

/-- After `byteSentTwice` the author types 4 MiB more. The session cannot compare the first write any more and ends the
lease, and its answer is lost with the connection: the author still has the lease. -/
theorem lease_lost_to_late_write : ∃ n : Net Unit, (@network Unit _ zeroCrc).Reachable hostsStay n ∧ n.Still ∧
    (∀ i, Settled (n.authors i)) ∧ (n.hosts 0).holder ≠ some () ∧
      (n.authors ()).current = some (0, (n.hosts 0).current) := by
  let := zeroCrc
  have hok : System.Admits step hostsStay byteSentTwice (start fun _ => 0) := by decide +kernel
  have hfirst : (run (fun _ => 0) byteSentTwice).Resting () 0 1 1 := by
    refine ⟨⟨?_, ?_, ?_, ?_, ?_, isEmpty_iff.mp ?_, ExtTreeSet.isEmpty_iff.mp ?_, ?_, isEmpty_iff.mp ?_, ?_⟩,
      ?_, ?_, ⟨?_, ?_, ?_, ?_, ?_, ?_, ?_, ?_⟩⟩
    all_goals decide +kernel
  have hround : ∀ {o : Net Unit} {vals a}, a ∈ o.round () 0 vals → ∀ o', hostsStay o' a := by
    intro o vals a ha o'
    simp only [round, List.mem_cons, List.not_mem_nil, or_false] at ha
    rcases ha with rfl | rfl | rfl | rfl | rfl <;> exact id
  obtain ⟨m, hrun, hm, helse⟩ := hfirst.rounds (k := 64) hround (by decide)
  have hconn : m.conn () = 1 := (congrFun helse.conn ()).trans (by decide +kernel)
  have hold : m.toHost () 0 = [.write 2 0 1 0 [⟨(), 0, 97⟩]] := (helse.toHost (by decide +kernel)).trans (by decide +kernel)
  have hnil : m.toClient () 0 = [] := (helse.toClient (by decide +kernel)).trans (by decide +kernel)
  obtain ⟨hnone, hcur, hauthors, hconn', hto, hcl, hrest⟩ := hm.lateWrite (by rw [hconn]; decide) hold hnil (by decide)
      (by decide)
    (by decide) (by decide) rfl
  have hreach : (network Unit).Reachable hostsStay (m.deliverToHost () 0 false false) :=
    ((reachable_of_admits hok).run hrun).step (a := .deliverToHost () 0 false false) id rfl
  refine ⟨(m.deliverToHost () 0 false false).deliverToClient () 0, hreach.step (a := .deliverToClient () 0) id rfl, ?_,
    ?_, ?_, ?_⟩
  · intro i c hle
    rw [hconn', hconn] at hle
    rcases Nat.le_one_iff_eq_zero_or_eq_one.mp hle with rfl | rfl
    · exact ⟨hto, hcl⟩
    · have hne : ¬(() = () ∧ 1 = 0) := by decide
      exact ⟨(hrest hne).1.trans (hconn ▸ hm.toHost), (hrest hne).2.trans (hconn ▸ hm.toClient)⟩
  · intro i
    rw [hauthors]
    exact ⟨hm.author.pending, hm.author.retryTimer, ExtTreeSet.isEmpty_iff.mpr hm.author.disowned,
      isEmpty_iff.mpr hm.author.finalizing⟩
  · rw [hnone]
    exact Option.some_ne_none () |>.symm
  · rw [hauthors, hcur, Author.current, hm.author.cur]
    rfl

section Agreement
variable [InputCrc]

/-- A suppressed author waits for a session that another author holds. -/
theorem suppressed_waits (h : (network H).Reachable timelyReclaims n) (hstill : n.Still)
    (hset : ∀ i, (n.authors i).pending = none ∧ (n.authors i).retryTimer = false) {i : H}
    (hs : (n.authors i).suppressed = true) : ∃ j ≠ i, (n.hosts (n.authors i).session).holder = some j := by
  have L : n.Leases False False :=
    leases_reachable id (fun ha => ha.1.1) (fun ha => .inr ha.1.2) (fun ha => .inr ha.2) h
  have core := (L.sound i).core
  have waiting := (L.sound i).waiting.resolve_left id
  obtain ⟨hp, ht⟩ := hset i
  rcases waiting.suppressed hs with (⟨j, hne, hj, -⟩ | hv) | hn
  · exact ⟨j, hne, hj⟩
  · have hv : _ ∈ n.toClient i (n.conn i) := hv
    rw [(hstill i (n.conn i) le_rfl).2] at hv
    cases hv
  · -- A probe would be due.
    have hn : (n.authors i).needsProbe = true := hn
    have hcur : (n.authors i).cur = none := Option.map_eq_none_iff.mp (core.suppress.idle hs)
    rw [(L.prompt i hp ht).probe hcur hs] at hn
    cases hn

end Agreement

/-- The author `false` types and its byte is written, and then `true` takes the session over. -/
def takenOver : List (Action Bool) :=
  [.setFocus false true, .typeBytes false [97], .deliverToHost false 0 false false, .deliverToClient false 0,
    .deliverToHost false 0 false false, .deliverToClient false 0, .ptyWrite 0 1, .deliverToClient false 0,
      .setFocus true true,
    .typeBytes true [98], .deliverToHost true 0 false false, .deliverToClient true 0, .deliverToHost true 0 false false,
    .deliverToClient true 0, .deliverToClient false 0, .deliverToHost false 0 false false, .deliverToClient false 0]

theorem suppressed_waits_takenOver : ((@run Bool _ zeroCrc (fun _ => 0) takenOver).authors false).suppressed = true ∧
    ∃ j ≠ false, ((@run Bool _ zeroCrc (fun _ => 0) takenOver).hosts
      ((@run Bool _ zeroCrc (fun _ => 0) takenOver).authors false).session).holder = some j := by
  have hs : ((@run Bool _ zeroCrc (fun _ => 0) takenOver).authors false).suppressed = true := by decide +kernel
  have hok : System.Admits (@step Bool _ zeroCrc) timelyReclaims takenOver (start fun _ => 0) := by decide +kernel
  refine ⟨hs, @suppressed_waits Bool _ _ zeroCrc (@reachable_of_admits Bool _ zeroCrc _ _ _ hok) ?_ ?_ false hs⟩
  all_goals decide +kernel

theorem lease_never_orphaned_takenOver : ((@run Bool _ zeroCrc (fun _ => 0) takenOver).authors false).current ≠
    some (0, ((@run Bool _ zeroCrc (fun _ => 0) takenOver).hosts 0).current) := by
  have hok : System.Admits (@step Bool _ zeroCrc) hostsStay takenOver (start fun _ => 0) := by decide +kernel
  intro hj
  cases (@lease_never_orphaned Bool _ _ zeroCrc (@reachable_of_admits Bool _ zeroCrc _ _ _ hok) 0 true
    (by decide +kernel)).2 false hj

/-- The author `true` types a byte, leaves, and its lease is released. -/
def shortVisit : List (Action Bool) :=
  [.setFocus true true, .typeBytes true [98], .deliverToHost true 0 false false, .deliverToClient true 0,
    .deliverToHost true 0 false false, .deliverToClient true 0, .ptyWrite 0 1, .deliverToClient true 0,
      .setFocus true false,
    .deliverToHost true 0 false false, .deliverToClient true 0]

/-- The author `false` reconnects while `true` has the session, and its reclaim takes so long that its epoch is pruned. -/
def slowReclaim : List (Action Bool) :=
  takenOver.take 8 ++ shortVisit ++ ([.reconnect false, .deliverToClient false 0, .deliverToClient false 0] :
    List (Action Bool)) ++
    (List.replicate 64 shortVisit).flatten ++
    ([.deliverToHost true 0 false false, .deliverToHost true 0 false false, .deliverToClient true 0,
      .deliverToClient true 0,
      .deliverToHost false 1 false false, .deliverToClient false 1, .deliverToHost false 1 false false,
        .deliverToClient false 1] :
      List (Action Bool))

/-- After `slowReclaim` the author `false` waits for a session that nobody holds. -/
theorem suppressed_without_holder : ∃ n : Net Bool, (@network Bool _ zeroCrc).Reachable hostsStay n ∧ n.Still ∧
    (∀ i, Settled (n.authors i)) ∧ (n.authors false).suppressed = true ∧ (n.hosts (n.authors false).session).holder =
      none := by
  have h : System.Admits (@step Bool _ zeroCrc) hostsStay slowReclaim (start fun _ => 0) ∧
      (@run Bool _ zeroCrc (fun _ => 0) slowReclaim).Still ∧
      (∀ i, Settled ((@run Bool _ zeroCrc (fun _ => 0) slowReclaim).authors i)) ∧
      ((@run Bool _ zeroCrc (fun _ => 0) slowReclaim).authors false).suppressed = true ∧
      ((@run Bool _ zeroCrc (fun _ => 0) slowReclaim).hosts
        ((@run Bool _ zeroCrc (fun _ => 0) slowReclaim).authors false).session).holder = none := by
    decide +kernel
  exact ⟨_, @reachable_of_admits Bool _ zeroCrc _ _ _ h.1, h.2⟩

end Net
end Ferryx
