import Ferryx.Theorems.NetAuthors
import Ferryx.Theorems.NetHosts

/-! Safety of the input path over every run of the network: no byte is written twice, to another session than it was typed
for or out of order, reports are sound, and no byte is lost without a report. -/

namespace Ferryx
open Std Lib List

namespace Net
variable {H : Type} [DecidableEq H] {b : TypedByte H}

theorem inv_start (bound : H → Nat) : (start bound).Inv where
  hosts := ⟨fun _ => InputLedger.books_new, fun _ => rfl⟩
  grants := ⟨fun h => (by cases h), fun h => (by cases h), fun h => (by cases h), fun h => by cases h⟩
  streams := ⟨fun h => (by cases h), fun _ => rfl⟩
  author i := by
    refine ⟨rfl, ?_, ?_, Typing.start i (bound i)⟩
    · exact {
        session := rfl
        unassigned := rfl
        dropped := rfl
        cur := fun h => by cases h
        fin := fun h => by simp [start, Author.new] at h
        out := fun o h => by cases h
        done := fun k h => by cases h
        once := nodup_nil
        covered := fun h => absurd rfl h }
    · have hused : ∀ {k}, ¬Author.Used ((start bound).sent i) ((start bound).authors i) k := by
        rintro k ((h | h | h) | h)
        · cases h
        · simp [start, Author.new] at h
        · cases h
        · cases h
      exact {
        pending_le := fun h => by cases h
        reclaim := fun h => by cases h
        out_le := fun h => by cases h
        spent := fun h => absurd h hused
        curMax := fun h => by cases h
        acquiring := fun h => by cases h }
  toHost h := by cases h
  toClient h := by cases h

section Runs
variable [InputCrc]

variable {n : Net H} {ok : Net H → Action H → Prop}

theorem Inv.step (I : n.Inv) (a : Action H) : (n.step a).Inv := by
  cases a with
  | typeBytes i vals => exact I.typeBytes vals
  | setFocus i focused => exact I.setFocus focused
  | rebind i s => exact I.rebind s
  | reconnect i => exact I.reconnect
  | deliverToHost i c lose fail => exact I.deliverToHost i c lose fail
  | deliverToClient i c => exact I.deliverToClient i c
  | requestFailed i id => exact I.onRequestFailed id
  | retryTimer i => exact I.onRetryTimer
  | sendTimer i => exact I.onSendTimer
  | ptyWrite s k => exact I.ptyWrite s k
  | ownerLost i s => exact I.onOwnerLost s

theorem inv_reachable (h : (network H).Reachable ok n) : n.Inv := by
  refine h.inv ?_ ?_
  · rintro _ ⟨bound, rfl⟩
    exact inv_start bound
  · rintro s _ a - rfl I
    exact I.step a

def run (bound : H → Nat) (as : List (Action H)) : Net H := as.foldl step (start bound)

theorem reachable_of_admits {bound : H → Nat} {as : List (Action H)} (h : System.Admits step ok as (start bound)) :
    (network H).Reachable ok (run bound as) :=
  ⟨_, ⟨bound, rfl⟩, .of_admits h⟩

theorem reachable_run (bound : H → Nat) (as : List (Action H)) :
    (network H).Reachable System.anyAction (run bound as) :=
  reachable_of_admits System.admits_anyAction

end Runs

variable {n : Net H}

/-- The bytes written to the PTY of a session, in order. -/
def handed (n : Net H) (s : Nat) : List (TypedByte H) := (n.tap s).map Prod.snd

theorem Inv.stream_of_log (I : n.Inv) {s : Nat} {p : Nat × TypedByte H} (hp : p ∈ n.log s) :
    ∃ i id, n.grant (s, p.1) = some (i, id) ∧ p.2 ∈ n.assigned i (s, p.1) := by
  have hb : p.2 ∈ n.bytesOf (s, p.1) := mem_entriesAt.mpr hp
  cases hg : n.grant (s, p.1) with
  | none =>
    rw [I.streams.free hg] at hb
    cases hb
  | some g => exact ⟨g.1, g.2, rfl, (I.streams.granted hg).subset hb⟩

theorem Inv.author_of_stream (I : n.Inv) {i : H} {k : EpochKey} (hb : b ∈ n.assigned i k) : b.author = i :=
  ((I.author i).typing.byte b hb).1

theorem Inv.log_order (I : n.Inv) (s : Nat) : (n.log s).Pairwise fun p q => p.2.author = q.2.author →
    p.2.index < q.2.index := by
  refine pairwise_of_keys (r := fun x y : TypedByte H => x.author = y.author → x.index < y.index)
    (I.hosts.books s).order (fun e => ?_) fun p hp q hq hlt hauth => ?_
  · cases hg : n.grant (s, e) with
    | none =>
      have : entriesAt e (n.log s) = [] := I.streams.free hg
      rw [this]
      exact .nil
    | some g =>
      have hpre : entriesAt e (n.log s) <+: n.assigned g.1 (s, e) := I.streams.granted hg
      refine (((I.author g.1).typing.sorted (s, e)).sublist hpre.sublist).imp ?_
      intro x y h _
      exact h
  · obtain ⟨i, id, -, hi⟩ := I.stream_of_log hp
    obtain ⟨j, jd, -, hj⟩ := I.stream_of_log hq
    rw [I.author_of_stream hi, I.author_of_stream hj] at hauth
    subst hauth
    exact (I.author i).typing.across hlt _ hi _ hj

theorem Inv.handed_order (I : n.Inv) (s : Nat) : (n.handed s).Pairwise fun x y => x.author = y.author →
    x.index < y.index := by
  rw [handed, pairwise_map]
  exact (I.log_order s).sublist (sublist_append_left _ _)

theorem Inv.handed_typedFor (I : n.Inv) {s : Nat} (hb : b ∈ n.handed s) : (n.typedFor b.author)[b.index]? = some s := by
  obtain ⟨p, hp, rfl⟩ := mem_map.mp hb
  obtain ⟨i, id, -, hi⟩ := I.stream_of_log (mem_append_left _ hp)
  obtain ⟨rfl, hfor, -⟩ := (I.author i).typing.byte p.2 hi
  exact hfor

section
variable [InputCrc]

/-- A typed byte is handed to a PTY at most once, only to the session its author was bound to when it was typed, and in
typing order for each author and session. -/
theorem handed_once_in_order (h : (network H).Reachable System.anyAction n) :
    (∀ (s s' p p' : Nat) (b b' : TypedByte H), (n.handed s)[p]? = some b → (n.handed s')[p']? = some b' →
      b.author = b'.author → b.index = b'.index → s = s' ∧ p = p') ∧
    (∀ (s : Nat) (b : TypedByte H), b ∈ n.handed s → (n.typedFor b.author)[b.index]? = some s) ∧
    ∀ (s : Nat) (i : H), ((n.handed s).filter fun b => b.author = i).Pairwise fun x y => x.index < y.index := by
  have I := inv_reachable h
  refine ⟨fun s s' p p' b b' hb hb' ha hi => ?_, fun s b hb => I.handed_typedFor hb, fun s i => ?_⟩
  · have hs : s = s' := by
      have h₁ := I.handed_typedFor (List.mem_of_getElem? hb)
      have h₂ := I.handed_typedFor (List.mem_of_getElem? hb')
      rw [ha, hi, h₂] at h₁
      exact (Option.some.inj h₁).symm
    subst hs
    refine ⟨rfl, ?_⟩
    obtain ⟨hp, rfl⟩ := List.getElem?_eq_some_iff.mp hb
    obtain ⟨hp', rfl⟩ := List.getElem?_eq_some_iff.mp hb'
    have hord := List.pairwise_iff_getElem.mp (I.handed_order s)
    rcases Nat.lt_trichotomy p p' with hlt | heq | hlt
    · exact absurd hi (Nat.ne_of_lt (hord p p' hp hp' hlt ha))
    · exact heq
    · exact absurd hi.symm (Nat.ne_of_lt (hord p' p hp' hp hlt ha.symm))
  · refine List.Pairwise.imp_of_mem (fun {x y} hx hy hxy => hxy ?_) ((I.handed_order s).sublist List.filter_sublist)
    have hx' := (List.mem_filter.mp hx).2
    have hy' := (List.mem_filter.mp hy).2
    simp only [decide_eq_true_eq] at hx' hy'
    rw [hx', hy']

/-- A PTY gets the bytes of one author at a time: the epochs in order, and of each a prefix of what its author assigned to
it. -/
theorem handed_by_epoch (bound : H → Nat) (as : List (Action H)) (s : Nat) : ((run bound as).tap s).Pairwise (·.1 ≤ ·.1) ∧
    ∀ p ∈ (run bound as).tap s, entriesAt p.1 ((run bound as).tap s) <+: (run bound as).assigned p.2.author (s, p.1) := by
  have I : (run bound as).Inv := inv_reachable (reachable_run bound as)
  refine ⟨(I.hosts.books s).order.sublist (sublist_append_left _ _), fun p hp => ?_⟩
  obtain ⟨i, id, hg, hi⟩ := I.stream_of_log (mem_append_left _ hp)
  rw [I.author_of_stream hi]
  refine IsPrefix.trans ?_ (I.streams.granted hg)
  exact ((prefix_append _ _).filter _).map _

end

/-- The author `false` loses the session to `true` while it reconnects, and learns from the answer to its reclaim what
became of its bytes: two are written, one is accepted and one was never sent. -/
def lostWhileAway : List (Action Bool) :=
  [.setFocus false true, .typeBytes false [97, 98, 99], .deliverToHost false 0 false false, .deliverToClient false 0,
    .deliverToHost false 0 false false, .ptyWrite 0 2, .setFocus true true, .typeBytes true [100, 101],
    .deliverToHost true 0 false false, .deliverToClient true 0, .deliverToHost true 0 false false, .reconnect false,
    .typeBytes false [102], .deliverToHost false 1 false false, .deliverToClient false 1, .ptyWrite 0 2, .ptyWrite 0 2]

theorem handed_once_in_order_lostWhileAway :
    (@run Bool _ zeroCrc (fun _ => 0) lostWhileAway).handed 0 =
        [⟨false, 0, 97⟩, ⟨false, 1, 98⟩, ⟨false, 2, 99⟩, ⟨true, 0, 100⟩, ⟨true, 1, 101⟩] ∧
      ((@run Bool _ zeroCrc (fun _ => 0) lostWhileAway).typedFor true)[1]? = some 0 ∧
      ∀ i, (((@run Bool _ zeroCrc (fun _ => 0) lostWhileAway).handed 0).filter fun b => b.author = i).Pairwise
        fun x y => x.index < y.index := by
  have hrun : (@run Bool _ zeroCrc (fun _ => 0) lostWhileAway).handed 0 =
      [⟨false, 0, 97⟩, ⟨false, 1, 98⟩, ⟨false, 2, 99⟩, ⟨true, 0, 100⟩, ⟨true, 1, 101⟩] := by decide +kernel
  obtain ⟨-, hfor, horder⟩ :=
    @handed_once_in_order Bool _ _ zeroCrc (@reachable_run Bool _ zeroCrc (fun _ => 0) lostWhileAway)
  refine ⟨hrun, hfor 0 ⟨true, 1, 101⟩ ?_, horder 0⟩
  rw [hrun]
  simp

theorem Inv.stream_of_write (I : n.Inv) {i : H} {attempt s e start off : Nat} {bytes : List (TypedByte H)}
    (hm : Out.write attempt s e start bytes ∈ n.sent i) (hle : start ≤ off) (hb : bytes[off - start]? = some b) :
    (∃ id, n.grant (s, e) = some (i, id)) ∧ (n.assigned i (s, e))[off]? = some b := by
  have hpre : bytes <+: (n.assigned i (s, e)).drop start := (I.author i).holdings.out _ (mem_append_left _ hm)
  obtain ⟨rest, hrest⟩ := hpre
  have hoff : (n.assigned i (s, e))[off]? = some b := by
    have hget : ((n.assigned i (s, e)).drop start)[off - start]? = some b := by
      rw [← hrest, List.getElem?_append_left (List.getElem?_eq_some_iff.mp hb).1, hb]
    rwa [getElem?_drop, Nat.add_sub_cancel' hle] at hget
  obtain ⟨id, hid, -⟩ := (I.author i).ids.spent (I.used_of_stream (ne_nil_of_mem (mem_of_getElem? hoff)))
  exact ⟨⟨id, gid_eq_some.mp hid⟩, hoff⟩

section
variable [InputCrc]

/-- Two writes for one epoch of a session have the same bytes at every offset they share, and no session finds a write of an
author to diverge. -/
theorem writes_agree (h : (network H).Reachable System.anyAction n) (s e : Nat) :
    (∀ (i j : H) (attempt attempt' start start' : Nat) (bytes bytes' : List (TypedByte H)),
      Out.write attempt s e start bytes ∈ n.sent i → Out.write attempt' s e start' bytes' ∈ n.sent j →
      ∀ (off : Nat) (b b' : TypedByte H), start ≤ off → start' ≤ off → bytes[off - start]? = some b →
        bytes'[off - start']? = some b' → b = b') ∧
    ∀ (i : H) (attempt start : Nat) (bytes : List (TypedByte H)), Out.write attempt s e start bytes ∈ n.sent i →
      ∀ (epoch accepted committed : Nat) (revoke : Option (Revoke H × List H)),
        ((n.hosts s).write i e start bytes (inputCrc32c bytes)).2 ≠
          .error (.diverged epoch accepted committed, revoke) := by
  have I := inv_reachable h
  refine ⟨?_, ?_⟩
  · intro i j attempt attempt' start start' bytes bytes' hm hm' off b b' hle hle' hb hb'
    obtain ⟨⟨id, hg⟩, hoff⟩ := I.stream_of_write hm hle hb
    obtain ⟨⟨id', hg'⟩, hoff'⟩ := I.stream_of_write hm' hle' hb'
    obtain ⟨rfl, -⟩ := Prod.mk.inj (Option.mem_unique hg hg')
    exact Option.mem_unique hoff hoff'
  · intro i attempt start bytes hm epoch accepted committed revoke
    have hbytes : bytes <+: (n.assigned i (s, e)).drop start := (I.author i).holdings.out _ (mem_append_left _ hm)
    have W := (n.hosts s).write_outcome i e start bytes (inputCrc32c bytes)
    generalize (n.hosts s).write i e start bytes (inputCrc32c bytes) = r at W ⊢
    obtain ⟨l, out⟩ := r
    cases W with
    | refused err herr => rcases herr with rfl | rfl | rfl <;> simp
    | fence x err hact hx hle herr =>
      obtain ⟨rfl, hh⟩ := (I.hosts.books s).active_iff.mp hact
      obtain ⟨rfl, -⟩ := I.overlap_unverifiable hh hx hbytes herr
      simp
    | _ => simp

end

/-- A write is lost with its connection and sent again with more bytes. -/
def sentAgain : List (Action Unit) :=
  [.setFocus () true, .typeBytes () [97], .deliverToHost () 0 false false, .deliverToClient () 0, .reconnect (),
    .typeBytes () [98], .deliverToHost () 1 false false, .deliverToClient () 1]

theorem writes_agree_sentAgain : Out.write 2 0 1 0 [⟨(), 0, 97⟩] ∈ (@run Unit _ zeroCrc (fun _ => 0) sentAgain).sent () ∧
      Out.write 4 0 1 0 [⟨(), 0, 97⟩, ⟨(), 1, 98⟩] ∈ (@run Unit _ zeroCrc (fun _ => 0) sentAgain).sent () ∧
      ∀ (epoch accepted committed : Nat) (revoke : Option (Revoke Unit × List Unit)),
        (@InputLedger.write Unit (TypedByte Unit) _ _ zeroCrc ((@run Unit _ zeroCrc (fun _ => 0) sentAgain).hosts 0)
          () 1 0 [⟨(), 0, 97⟩, ⟨(), 1, 98⟩]
          (@inputCrc32c (TypedByte Unit) _ zeroCrc [⟨(), 0, 97⟩, ⟨(), 1, 98⟩])).2 ≠
            .error (.diverged epoch accepted committed, revoke) := by
  have hm : Out.write 4 0 1 0 [⟨(), 0, 97⟩, ⟨(), 1, 98⟩] ∈ (@run Unit _ zeroCrc (fun _ => 0) sentAgain).sent () := by
    decide +kernel
  refine ⟨by decide +kernel, hm, ?_⟩
  exact (@writes_agree Unit _ _ zeroCrc (@reachable_run Unit _ zeroCrc _ _) 0 1).2 () 4 0 _ hm

end Net
end Ferryx
