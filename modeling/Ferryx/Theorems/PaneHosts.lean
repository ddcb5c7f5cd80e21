import Ferryx.Theorems.LeaseNet
import Ferryx.Theorems.PaneMoves

/-! Each pane of a network, with the sessions and its messages, is a view of the lease protocol (`PaneNet.leaseView`), which
every step takes along a sequence of moves. `home i` is the session that pane `i` is bound to. -/

namespace Ferryx
open Std Lib LeaseView Function List ResizeLease

namespace PaneNet
variable {H : Type} [DecidableEq H] {n : PaneNet H} {i j : H} {s e id c : Nat} {home : H → Nat} {l : ResizeLease H}

def gid (n : PaneNet H) (i : H) (k : EpochKey) : Option Nat :=
  (n.grant k).bind fun g => if g.1 = i then some g.2 else none

theorem gid_eq_some {k : EpochKey} : n.gid i k = some id ↔ n.grant k = some (i, id) := by
  cases hg : n.grant k with
  | none => simp [gid, hg]
  | some g =>
    obtain ⟨j, id'⟩ := g
    simp [gid, hg]

def env (n : PaneNet H) (i : H) : PaneEnv where
  flight := paneRequests (n.toHost i (n.conn i))
  late := { r | ∃ c ≠ n.conn i, r ∈ paneRequests (n.toHost i c) }
  live := (n.toPane i (n.conn i)).map ToPane.message
  last s := (n.hosts s).lastRequest i
  top s := (n.hosts s).epoch
  held := { k | (n.hosts k.1).holder = some i ∧ (n.hosts k.1).epoch = k.2 }
  gid := n.gid i
  blocked := { s | ∃ j ≠ i, (n.hosts s).holder = some j ∧ i ∈ (n.hosts s).revokees }

def leaseView (n : PaneNet H) (home : H → Nat) (i : H) : LeaseView := (n.panes i).view (home i) (n.env i)

/-- What the moves of a network need: nothing travels on connections that are not made yet, panes have sent
    what they put out, and grants are those of past epochs and requests. -/
structure Wired (n : PaneNet H) : Prop where
  toHost : ∀ {i c}, n.conn i < c → n.toHost i c = []
  toPane : ∀ {i c}, n.conn i < c → n.toPane i c = []
  out : ∀ i, (n.panes i).out = []
  upto : ∀ {s e g}, n.grant (s, e) = some g → e ≤ (n.hosts s).epoch
  last : ∀ {s e i id}, n.grant (s, e) = some (i, id) → id ≤ (n.hosts s).lastRequest i

theorem leaseView_flush (n : PaneNet H) (home : H → Nat) (i : H) (a : PaneLease) :
    (n.flush i a).leaseView home i = a.view (home i) (n.env i) := by
  have hlate : (n.flush i a).env i = { n.env i with flight := (n.env i).flight ∪ paneRequests a.out } := by
    have hother : ∀ {c}, c ≠ n.conn i → (n.flush i a).toHost i c = n.toHost i c := fun hc => setAt_of_ne _ _ fun h => hc h.2
    have hset : { r | ∃ c ≠ n.conn i, r ∈ paneRequests ((n.flush i a).toHost i c) } = (n.env i).late := by
      ext r
      refine exists_congr fun c => and_congr_right fun hc => ?_
      rw [hother hc]
    have hnow : paneRequests ((n.flush i a).toHost i (n.conn i)) = (n.env i).flight ∪ paneRequests a.out := by
      show _ = paneRequests (n.toHost i (n.conn i)) ∪ paneRequests a.out
      rw [← paneRequests_append]
      exact congrArg paneRequests (setAt_self ..)
    simp only [env] at hset hnow ⊢
    simp only [flush] at hset hnow ⊢
    rw [hset, hnow]
    rfl
  have ha : (n.flush i a).panes i = { a with out := [] } := update_self ..
  rw [leaseView, hlate, ha]
  simp only [PaneLease.view]
  congr 1
  simp [paneRequests]

theorem leaseView_flush_of_ne (n : PaneNet H) (home : H → Nat) {i j : H} (a : PaneLease) (hj : j ≠ i) :
    (n.flush i a).leaseView home j = n.leaseView home j := by
  have ha : (n.flush i a).panes j = n.panes j := update_of_ne hj ..
  have hto : (n.flush i a).toHost j = n.toHost j := by
    funext c
    exact setAt_of_ne _ _ fun h => hj h.1
  have henv : (n.flush i a).env j = n.env j := by
    simp only [env, hto]
    rfl
  rw [leaseView, ha, henv]
  rfl

theorem moves_flush {home' : H → Nat} {a : PaneLease} (hh : ∀ {j}, j ≠ i → home' j = home j)
    (h : Moves False False (n.leaseView home i) (a.view (home' i) (n.env i))) (j : H) :
    Moves False False (n.leaseView home j) ((n.flush i a).leaseView home' j) := by
  by_cases hj : j = i
  · subst hj
    rw [leaseView_flush]
    exact h
  · rw [leaseView_flush_of_ne n home' a hj]
    refine .of_eq ?_
    rw [leaseView, leaseView, hh hj]

theorem env_reconnect (D : Wired n) : ({ n with conn := update n.conn i (n.conn i + 1) } : PaneNet H).env i =
    (n.env i).redialed := by
  have hto := D.toHost (Nat.lt_succ_self (n.conn i))
  have hcl := D.toPane (Nat.lt_succ_self (n.conn i))
  have hlate := others_of_fresh (fun c => paneRequests (n.toHost i c))
      (Nat.lt_succ_self (n.conn i)).ne (by simp [hto, paneRequests])
  simp only [env] at hlate ⊢
  simp only [update_self, hto, hcl, hlate, PaneEnv.redialed]
  simp [paneRequests]
  rfl

theorem moves_reconnect (D : Wired n) (h : Core (n.leaseView home i)) (P : (n.panes i).Proper (home i)) (j : H) :
    Moves False False (n.leaseView home j) ((n.reconnect i).leaseView home j) := by
  by_cases hj : j = i
  · subst hj
    rw [reconnect, leaseView_flush, env_reconnect D]
    exact PaneLease.moves_call (c := .onReconnect) h P.bound (PaneLease.moves_reconnected (D.out j))
  · have hv : (n.reconnect i).leaseView home j = n.leaseView home j := by
      rw [reconnect, leaseView_flush_of_ne _ _ _ hj]
      simp only [leaseView, env, update_of_ne hj]
      rfl
    exact .of_eq hv

theorem moves_deliverToPane (S : Sound False False (n.leaseView home i)) (P : (n.panes i).Proper (home i)) (c : Nat)
    (j : H) :
    Moves False False (n.leaseView home j) ((n.deliverToPane i c).leaseView home j) := by
  unfold deliverToPane
  split
  · exact .refl _
  next m rest hc =>
    have henv : ∀ {j}, ¬(j = i ∧ n.conn j = c) → ({ n with toPane := setAt n.toPane i c rest } : PaneNet H).env j =
        n.env j := by
      intro j hj
      simp only [env, setAt_of_ne n.toPane rest hj]
      rfl
    dsimp only
    split
    next hne =>
      refine .of_eq ?_
      rw [leaseView, henv fun hj => ?_]
      · rfl
      · obtain ⟨rfl, hj⟩ := hj
        exact hne hj.symm
    next heq =>
      obtain rfl : c = n.conn i := of_not_not heq
      by_cases hj : j = i
      · subst hj
        have hlive : (n.env j).live = m.message :: rest.map ToPane.message := by
          simp only [env, hc, map_cons]
        have hrest : ({ n with toPane := setAt n.toPane j (n.conn j) rest } : PaneNet H).env j =
            (n.env j).reading (rest.map ToPane.message) := by
          simp only [env, PaneEnv.reading, setAt_self]
          rfl
        rw [leaseView_flush, hrest]
        exact PaneLease.moves_handle hlive S P
      · rw [leaseView_flush_of_ne _ _ _ hj]
        refine .of_eq ?_
        rw [leaseView, henv fun h => hj h.1]
        rfl

def record (l : ResizeLease H) : LeaseRecord H := ⟨l.holder, l.epoch, l.lastRequest, l.revokees⟩

def table (n : PaneNet H) (s : Nat) : LeaseRecord H := record (n.hosts s)

omit [DecidableEq H] in
theorem setHost_host (n : PaneNet H) (s : Nat) (l : ResizeLease H) : (n.setHost s l).hosts s = l := update_self ..

theorem leaseView_setHost (n : PaneNet H) (home : H → Nat) (s : Nat) (l : ResizeLease H) (j : H) :
    (n.setHost s l).leaseView home j = (n.leaseView home j).under (update n.table s (record l)) j := by
  have htable : (n.setHost s l).table = update n.table s (record l) := by
    funext r
    by_cases hr : r = s
    · subst hr
      rw [update_self, table, setHost_host]
    · have hhost : (n.setHost s l).hosts r = n.hosts r := update_of_ne hr ..
      rw [update_of_ne hr, table, hhost]
      rfl
  rw [← htable]
  rfl

def noted (n : PaneNet H) (i : H) (s id : Nat) : PaneNet H :=
  n.setHost s { n.hosts s with lastRequest := update (n.hosts s).lastRequest i id }

theorem noted_host (n : PaneNet H) (i : H) (s id : Nat) :
    (n.noted i s id).hosts s = { n.hosts s with lastRequest := update (n.hosts s).lastRequest i id } :=
  setHost_host ..

theorem leaseView_reply (n : PaneNet H) (home : H → Nat) (i : H) (m : ToPane) : (n.reply i (n.conn i) m).leaseView home i =
      { n.leaseView home i with live := (n.leaseView home i).live ++ [m.message] } := by
  have henv : (n.reply i (n.conn i) m).env i = (n.env i).reading ((n.env i).live ++ [m.message]) := by
    have hcl : ((n.reply i (n.conn i) m).toPane i (n.conn i)).map ToPane.message =
        (n.toPane i (n.conn i)).map ToPane.message ++ [m.message] := by
      have := setAt_self n.toPane i (n.conn i) (n.toPane i (n.conn i) ++ [m])
      simp only [reply, enqueue, this, map_append, map_cons, map_nil]
    simp only [env, PaneEnv.reading, ← hcl]
    rfl
  rw [leaseView, henv]
  rfl

theorem leaseView_reply_of_ne (n : PaneNet H) (home : H → Nat) {i j : H} {c : Nat} (m : ToPane)
    (h : ¬(j = i ∧ n.conn j = c)) : (n.reply i c m).leaseView home j = n.leaseView home j := by
  have henv : (n.reply i c m).env j = n.env j := by
    have hcl : (n.reply i c m).toPane j (n.conn j) = n.toPane j (n.conn j) := setAt_of_ne _ _ h
    simp only [env, ← hcl]
    rfl
  rw [leaseView, henv]
  rfl

/-- The pane network as one of leases. -/
abbrev leaseNet (home : H → Nat) : LeaseNet H (PaneNet H) ToPane where
  view n := n.leaseView home
  table := table
  conn := conn
  reply := reply
  message := ToPane.message
  under_table _ _ := rfl
  conn_reply _ _ _ _ := rfl
  view_reply n := n.leaseView_reply home
  view_reply_of_ne := leaseView_reply_of_ne _ home

theorem changes_setHost (n : PaneNet H) (home : H → Nat) (s : Nat) (l : ResizeLease H) :
    (leaseNet home).Changes n s (record l) (n.setHost s l) := ⟨rfl, leaseView_setHost n home s l⟩

theorem leaseView_setHost_of_eq (hl : record l = record (n.hosts s)) (j : H) :
    (n.setHost s l).leaseView home j = n.leaseView home j := by
  have h := n.changes_setHost home s l
  rw [hl] at h
  exact h.view_eq j

theorem changes_noted (n : PaneNet H) (home : H → Nat) (i : H) (s id : Nat) : (leaseNet home).Changes n s
    { n.table s with lastRequest := update (n.table s).lastRequest i id } (n.noted i s id) :=
  changes_setHost n home s { n.hosts s with lastRequest := _ }

theorem leaseView_noted (n : PaneNet H) (home : H → Nat) (i : H) (s id : Nat) :
    (n.noted i s id).leaseView home i = (n.leaseView home i).noted s id :=
  (n.changes_noted home i s id).view_noted

theorem moves_reply {m : ToPane} (hm : j = i → n.conn i = c →
      (n.leaseView home i).Tells m.message ∧ (n.leaseView home i).FirstLoss m.message) :
    Moves False False (n.leaseView home j) ((n.reply i c m).leaseView home j) :=
  LeaseNet.moves_reply (N := leaseNet home) fun hj hc => (hm hj hc).imp_right .inr

theorem vacate_frame (n : PaneNet H) (s : Nat) (revokees : List H) :
    (n.vacate s revokees).hosts = n.hosts ∧ (n.vacate s revokees).panes = n.panes ∧ (n.vacate s revokees).conn = n.conn ∧
      (n.vacate s revokees).grant = n.grant ∧ (n.vacate s revokees).toHost = n.toHost := by
  induction revokees generalizing n with
  | nil => exact ⟨rfl, rfl, rfl, rfl, rfl⟩
  | cons h hs ih => exact ih _

theorem admitRequest_cases (n : PaneNet H) (i : H) (c s id : Nat) (fail : Bool) (handle : PaneNet H → PaneNet H) :
    (id ≤ (n.hosts s).lastRequest i ∧ n.admitRequest i c s id fail handle = n) ∨
      (n.hosts s).lastRequest i < id ∧ n.admitRequest i c s id fail handle =
        if fail then (n.noted i s id).reply i c (.failed id) else handle (n.noted i s id) := by
  unfold admitRequest fresh
  by_cases hle : id ≤ (n.hosts s).lastRequest i
  · exact .inl ⟨hle, by simp [hle]⟩
  · refine .inr ⟨Nat.lt_of_not_le hle, ?_⟩
    rw [if_neg hle]
    rfl

theorem moves_admitRequest {fail : Bool} {handle : PaneNet H → PaneNet H} (hh : (n.hosts s).lastRequest i < id →
      Moves False False ((n.noted i s id).leaseView home j) ((handle (n.noted i s id)).leaseView home j)) :
    Moves False False (n.leaseView home j) ((n.admitRequest i c s id fail handle).leaseView home j) := by
  rcases n.admitRequest_cases i c s id fail handle with ⟨-, h⟩ | ⟨hlt, h⟩ <;> rw [h]
  · exact .refl _
  · refine Moves.trans ((n.changes_noted home i s id).moves_noted hlt j) ?_
    split
    · exact moves_reply fun _ _ => ⟨trivial, trivial⟩
    · exact hh hlt

theorem moves_handleRelease (hlast : (n.hosts s).lastRequest i = id) (hid : id ≤ (n.leaseView home i).nextId)
    (hp : ∀ {p}, (n.leaseView home i).pending = some p → p.id = id → p.kind = .release ∧ p.session = s ∧ e = 0)
    (ha : ¬(n.leaseView home i).Alive (s, if e = 0 then (n.hosts s).epoch else e)) (j : H) :
    Moves False False (n.leaseView home j) ((n.handleRelease i c id s e).leaseView home j) := by
  unfold handleRelease release
  by_cases hmine : (e = 0 ∨ e = (n.hosts s).epoch) ∧ (n.hosts s).holder = some i
  · have hcur : (if e = 0 then (n.hosts s).epoch else e) = (n.hosts s).epoch := by
      rcases hmine.1 with rfl | rfl
      · rfl
      · simp
    rw [hcur] at ha
    simp only [if_pos hmine]
    exact (n.changes_setHost home s { n.hosts s with holder := none, revokees := [] }).moves_vacant_released
      (g := .vacated s) (m := .released id) hlast hid rfl hp rfl hmine.2 ha j
  · simp only [if_neg hmine]
    exact (n.changes_setHost home s (n.hosts s)).moves_released hlast hid rfl hp (fun he hh => hmine ⟨.inl he, hh⟩) j

theorem mem_waiting_of_mem (hj : j ∈ l.revokees) : j ∈ l.waiting i := by
  unfold waiting
  split
  · exact mem_append_left _ hj
  · exact hj

theorem mem_waiting (hh : l.holder = some j) (hj : j ≠ i) : i ∈ l.waiting i := by
  unfold waiting
  split
  · exact mem_append_right _ mem_cons_self
  next h =>
    simp only [hh, Option.any_some, decide_not, Bool.and_eq_true, Bool.not_eq_true', decide_eq_false_iff_not, not_and,
      Bool.not_eq_false, contains_iff_mem] at h
    exact h hj

theorem moves_handleReclaim (hid : id ≤ (n.leaseView home i).nextId)
    (hp : ∀ {p}, (n.leaseView home i).pending = some p → p.id = id → p.session = s ∧
      (p.kind = .reclaim e ∧ e ≤ (n.leaseView home i).top s ∧ ((s, (n.leaseView home i).top s) ∈ (n.leaseView home i).held →
        (n.leaseView home i).top s = e) ∨ p.kind = .probe ∧ (s, (n.leaseView home i).top s) ∉ (n.leaseView home i).held))
          (j : H) :
    Moves False False (n.leaseView home j) ((n.handleReclaim i c id s e).leaseView home j) := by
  unfold handleReclaim reclaim
  by_cases hmine : e = (n.hosts s).epoch ∧ (n.hosts s).holder = some i
  · simp only [if_pos hmine]
    obtain ⟨rfl, hh⟩ := hmine
    exact (n.changes_setHost home s (n.hosts s)).moves_confirmed hid hp rfl ⟨hh, rfl⟩ rfl j
  · simp only [if_neg hmine]
    refine (n.changes_setHost home s { n.hosts s with revokees := (n.hosts s).waiting i }).moves_refused hid hp rfl ?_ ?_
      mem_waiting_of_mem mem_waiting j
    · rintro ⟨hh, he⟩
      exact hmine ⟨he.symm, hh⟩
    · intro hact
      refine Option.isSome_iff_exists.mp ?_
      by_contra hnone
      exact hact (if_neg hnone)

def withGrant (n : PaneNet H) (s : Nat) (l : ResizeLease H) (i : H) (id : Nat) : PaneNet H :=
  { n.setHost s l with grant := update n.grant (s, (n.hosts s).epoch + 1) (some (i, id)) }

theorem acquire_other (hh : l.holder = some j) (hj : j ≠ i) : l.acquire i =
    ({ l with epoch := l.epoch + 1, holder := some i, revokees := (l.revokees.filter fun h => h ≠ i) ++ [j] }, l.epoch + 1,
      l.applied, some (j, l.epoch)) := by
  simp only [acquire, hh]
  exact if_pos hj

theorem acquire_free (h : ∀ j, l.holder = some j → j = i) : l.acquire i =
    ({ l with epoch := l.epoch + 1, holder := some i, revokees := l.revokees.filter fun h => h ≠ i }, l.epoch + 1,
      l.applied, none) := by
  unfold acquire
  cases hh : l.holder with
  | none => rfl
  | some j => exact if_neg (not_not.mpr (h j hh))

theorem acquire_eq (l : ResizeLease H) (i : H) : (l.acquire i).2.1 = l.epoch + 1 ∧ (l.acquire i).2.2.1 = l.applied ∧
    (record l).GrantedTo i (record (l.acquire i).1) ∧ (l.acquire i).1.applied = l.applied ∧
    ((∃ j, l.holder = some j ∧ j ≠ i ∧ (l.acquire i).2.2.2 = some (j, l.epoch)) ∨
      (∀ j, l.holder = some j → j = i) ∧ (l.acquire i).2.2.2 = none) := by
  have hmem : ∀ {j}, j ≠ i → j ∈ l.revokees → j ∈ l.revokees.filter fun h => h ≠ i :=
    fun hj hjr => mem_filter.mpr ⟨hjr, by simpa using hj⟩
  by_cases hother : ∃ j, l.holder = some j ∧ j ≠ i
  · obtain ⟨h, hh, hi⟩ := hother
    rw [acquire_other hh hi]
    refine ⟨rfl, rfl, ⟨rfl, rfl, rfl, fun hj hjr => ?_⟩, rfl, .inl ⟨h, hh, hi, rfl⟩⟩
    refine mem_append.mpr (hjr.imp (hmem hj) fun hjh => ?_)
    exact mem_singleton.mpr (Option.some.inj (hjh.symm.trans hh))
  · have hfree : ∀ j, l.holder = some j → j = i := fun j hj => not_not.mp fun hne => hother ⟨j, hj, hne⟩
    rw [acquire_free hfree]
    refine ⟨rfl, rfl, ⟨rfl, rfl, rfl, fun hj hjr => ?_⟩, rfl, .inr ⟨hfree, rfl⟩⟩
    exact hmem hj (hjr.resolve_right fun h => hj (hfree _ h))

theorem gid_withGrant_self (n : PaneNet H) (s : Nat) (l : ResizeLease H) (i : H) (id : Nat) :
    (n.withGrant s l i id).gid i = update (n.gid i) (s, (n.hosts s).epoch + 1) (some id) := by
  funext k
  by_cases hk : k = (s, (n.hosts s).epoch + 1)
  · subst hk
    rw [update_self]
    exact gid_eq_some.mpr (update_self ..)
  · rw [update_of_ne hk]
    simp only [gid, withGrant, update_of_ne hk, setHost]

theorem gid_withGrant_of_ne (D : Wired n) (hj : j ≠ i) : (n.withGrant s l i id).gid j = n.gid j := by
  funext k
  by_cases hk : k = (s, (n.hosts s).epoch + 1)
  · subst hk
    have hnone : n.grant (s, (n.hosts s).epoch + 1) = none := by
      cases hg : n.grant (s, (n.hosts s).epoch + 1) with
      | none => rfl
      | some g => exact (Nat.not_succ_le_self _ (D.upto hg)).elim
    simp [gid, withGrant, hnone, hj.symm]
  · simp only [gid, withGrant, update_of_ne hk, setHost]

theorem leaseView_withGrant (n : PaneNet H) (home : H → Nat) (s : Nat) (l : ResizeLease H) (i : H) (id : Nat) (j : H) :
    (n.withGrant s l i id).leaseView home j = { n.leaseView home j with gid := (n.withGrant s l i id).gid j }.under
      (update n.table s (record l)) j := by
  have h : (n.withGrant s l i id).leaseView home j =
      { (n.setHost s l).leaseView home j with gid := (n.withGrant s l i id).gid j } := rfl
  rw [h, leaseView_setHost]
  rfl

theorem handleAcquire_eq (n : PaneNet H) (i : H) (c id s : Nat) :
    n.handleAcquire i c id s = ((match ((n.hosts s).acquire i).2.2.2 with
      | some (h, prevEpoch) =>
        (n.withGrant s ((n.hosts s).acquire i).1 i id).event h (.revoked s prevEpoch ((n.hosts s).epoch + 1))
      | none => n.withGrant s ((n.hosts s).acquire i).1 i id).reply i c
        (.granted id s ((n.hosts s).epoch + 1) (n.hosts s).applied.seq)) := by
  obtain ⟨he, ha, -⟩ := acquire_eq (n.hosts s) i
  have h : n.handleAcquire i c id s = ((match ((n.hosts s).acquire i).2.2.2 with
        | some (h, prevEpoch) => ({ n.setHost s ((n.hosts s).acquire i).1 with
            grant := update n.grant (s, ((n.hosts s).acquire i).2.1) (some (i, id)) } : PaneNet H).event h
              (.revoked s prevEpoch ((n.hosts s).acquire i).2.1)
        | none => { n.setHost s ((n.hosts s).acquire i).1 with
            grant := update n.grant (s, ((n.hosts s).acquire i).2.1) (some (i, id)) }).reply i c
          (.granted id s ((n.hosts s).acquire i).2.1 ((n.hosts s).acquire i).2.2.1.seq)) := rfl
  rw [h, he, ha]
  rfl

theorem moves_handleAcquire (D : Wired n) (hg : (n.leaseView home i).Grants s id
      (if n.conn i = c then [.granted id s ((n.hosts s).epoch + 1)] else [])) (j : H) :
    Moves False False (n.leaseView home j) ((n.handleAcquire i c id s).leaseView home j) := by
  obtain ⟨-, -, hgranted, -, hrevoked⟩ := acquire_eq (n.hosts s) i
  have hnew : (leaseNet home).Granted n s i id (record ((n.hosts s).acquire i).1)
      (n.withGrant s ((n.hosts s).acquire i).1 i id) := by
    refine ⟨rfl, hgranted, ?_, fun hj => ?_⟩
    · exact (leaseView_withGrant ..).trans (by rw [gid_withGrant_self]; rfl)
    · exact (leaseView_withGrant ..).trans (by rw [gid_withGrant_of_ne D hj]; rfl)
  rw [handleAcquire_eq]
  rcases hrevoked with ⟨prev, hprev, hne, hrev⟩ | ⟨hprev, hrev⟩ <;> rw [hrev]
  · have hmoves : Moves False False _ _ := hnew.moves (m := .granted id s _ (n.hosts s).applied.seq)
      (w := .revoked s (n.hosts s).epoch ((n.hosts s).epoch + 1)) hg rfl (.inl ⟨prev, hprev, hne, rfl, rfl⟩) j
    exact hmoves
  · exact hnew.moves (m := .granted id s _ _) (w := .failed 0) hg rfl (.inr ⟨hprev, rfl⟩) j

section Requests
variable {now late : Set Req} {rest : List Pane.Out} {m : Pane.Out} {fail : Bool}

theorem Wired.noted (D : Wired n) (hlt : (n.hosts s).lastRequest i < id) : Wired (n.noted i s id) := { D with
  upto {r e g} hg := by
    have hle := D.upto hg
    by_cases hr : r = s
    · subst hr
      rwa [noted_host]
    · rwa [show (n.noted i s id).hosts r = n.hosts r from update_of_ne hr ..]
  last {r e j id'} hg := by
    have hle := D.last hg
    by_cases hr : r = s
    · subst hr
      rw [noted_host]
      by_cases hj : j = i
      · subst hj
        simpa using hle.trans hlt.le
      · simpa [update_of_ne hj] using hle
    · rwa [show (n.noted i s id).hosts r = n.hosts r from update_of_ne hr ..] }

section
variable (h : Core { n.leaseView home i with now := now, late := late })
include h

theorem moves_release (hr : Req.release id s e ∈ now ∪ late) (j : H) : Moves False False (n.leaseView home j)
      ((n.admitRequest i c s id fail (handleRelease i c id s e)).leaseView home j) := by
  refine moves_admitRequest fun hlt => moves_handleRelease (n := n.noted i s id) ?_ (h.numbers.fly_le hr rfl)
    (fun hp hid => ?_) ?_ j
  · rw [noted_host]
    exact update_self ..
  · obtain ⟨⟨-, hk, hs, he⟩, -⟩ := h.numbers.asks hp hr (congrArg some hid.symm)
    exact ⟨hk, hs.symm, he⟩
  · rw [noted_host]
    exact h.not_alive_of_release hr hlt

theorem moves_reclaim (hr : Req.reclaim id s e ∈ now ∪ late) (j : H) : Moves False False (n.leaseView home j)
      ((n.admitRequest i c s id fail (handleReclaim i c id s e)).leaseView home j) := by
  refine moves_admitRequest fun hlt => moves_handleReclaim (n := n.noted i s id) (h.numbers.fly_le hr rfl) ?_ j
  rw [leaseView_noted]
  exact h.reclaim_cases hr

theorem moves_resize (K : Kept { n.leaseView home i with now := now, late := late })
    (hr : CameFrom (n.conn i = c) now late (.write s e))
    (seq : Nat) (cols rows : UInt16) (j : H) :
    Moves False False (n.leaseView home j) ((n.handleResize i c s e seq cols rows).leaseView home j) := by
  obtain ⟨halive, hle⟩ := h.of_write hr.mem
  have hself : ∀ j, (n.setHost s (n.hosts s)).leaseView home j = n.leaseView home j := leaseView_setHost_of_eq rfl
  unfold handleResize resize
  by_cases hstale : e ≠ (n.hosts s).epoch ∨ (n.hosts s).holder ≠ some i
  · simp only [if_pos hstale]
    have hheld : (s, e) ∉ (n.leaseView home i).held := fun hk => by
      rcases hstale with hne | hne
      · exact hne hk.2.symm
      · exact hne hk.1
    refine Moves.trans (.of_eq (hself j)) (moves_reply fun _ hc => ?_)
    rw [hself]
    refine ⟨⟨hle, hheld⟩, fun _ ha ht => ?_⟩
    rcases K.current (halive ha) with hk | hn | hk
    · exact (hheld hk).elim
    · exact (h.epochs.silent hn (hr.live hc)).elim
    · exact (ht hk).elim
  · simp only [if_neg hstale]
    split
    · exact Moves.trans (.of_eq (hself j)) (moves_reply fun _ _ => ⟨trivial, trivial⟩)
    · refine Moves.trans (.of_eq (leaseView_setHost_of_eq ?_ j)) (moves_reply fun _ _ => ⟨trivial, trivial⟩)
      rfl

end

theorem moves_hostHandle (now late : Set Req) (D : Wired n) (h : Core { n.leaseView home i with now := now, late := late })
    (K : Kept { n.leaseView home i with now := now, late := late })
    (hr : CameFrom (n.conn i = c) now late m.req) (j : H) :
    Moves False False (n.leaseView home j) ((n.hostHandle i c fail m).leaseView home j) := by
  cases m with
  | acquire id s =>
    refine moves_admitRequest fun hlt => moves_handleAcquire (D.noted hlt) ?_ j
    rw [leaseView_noted, noted_host]
    exact h.grants_of_acquire hr hlt fun hg => D.last (gid_eq_some.mp hg)
  | reclaim id s e => exact moves_reclaim h hr.mem j
  | release id s e => exact moves_release h hr.mem j
  | resize s e seq cols rows => exact moves_resize h K hr seq cols rows j

theorem calm_pop (hc : n.toHost i c = m :: rest) (j : H) :
    Calm (n.leaseView home j) (({ n with toHost := setAt n.toHost i c rest } : PaneNet H).leaseView home j) := by
  have hsub : ∀ d, paneRequests (setAt n.toHost i c rest j d) ⊆ paneRequests (n.toHost j d) := by
    rintro d r ⟨o, ho, hr⟩
    exact ⟨o, mem_of_mem_setAt hc ho, hr⟩
  refine ⟨rfl, le_rfl, rfl, rfl, rfl, .inr ⟨rfl, rfl⟩, subset_rfl, fun _ hk => hk, rfl, ?_, ?_, rfl,
    fun r => le_rfl, fun r => le_rfl, fun _ => rfl, rfl, rfl, subset_rfl⟩
  · exact Set.union_subset_union_left _ (hsub _)
  · rintro r ⟨d, hd, hr⟩
    exact ⟨d, hd, hsub d hr⟩

theorem cameFrom_of_head (home : H → Nat) (hc : n.toHost i c = m :: rest) :
    CameFrom (n.conn i = c) (n.leaseView home i).now (n.leaseView home i).late m.req := by
  refine ⟨fun hci => ?_, fun hci => ⟨c, Ne.symm hci, m, ?_, rfl⟩⟩
  · subst hci
    have hm : m ∈ n.toHost i (n.conn i) := hc ▸ mem_cons_self
    exact .inl ⟨m, hm, rfl⟩
  · rw [hc]
    exact mem_cons_self

theorem Wired.popped (D : Wired n) (hc : n.toHost i c = m :: rest) :
    Wired { n with toHost := setAt n.toHost i c rest } := { D with
  toHost {j d} hd := by
    have hnil := D.toHost hd
    refine eq_nil_iff_forall_not_mem.mpr fun x hx => ?_
    have hx' := mem_of_mem_setAt hc hx
    rw [hnil] at hx'
    cases hx' }

theorem moves_deliverToHost (D : Wired n) (S : Sound False False (n.leaseView home i)) (lose fail : Bool) (j : H) :
    Moves False False (n.leaseView home j) ((n.deliverToHost i c lose fail).leaseView home j) := by
  unfold deliverToHost
  split
  · exact .refl _
  next m rest hc =>
    have D' := D.popped hc
    refine Moves.trans (.move (.calm (calm_pop hc j))) ?_
    dsimp only
    split
    · exact .refl _
    · have hcame := cameFrom_of_head home hc
      exact moves_hostHandle (n.leaseView home i).now (n.leaseView home i).late D' S.core (S.kept.resolve_left not_false)
        ⟨hcame.live, hcame.dropped⟩ j

end Requests

theorem Wired.flush (D : Wired n) (i : H) (a : PaneLease) : Wired (n.flush i a) := { D with
  toHost {j c} hc := by
    have hc : n.conn j < c := hc
    have hne : ¬(j = i ∧ c = n.conn i) := by
      rintro ⟨rfl, rfl⟩
      exact Nat.lt_irrefl _ hc
    exact (setAt_of_ne n.toHost _ hne).trans (D.toHost hc)
  out j := by
    by_cases hj : j = i
    · subst hj
      rw [show (n.flush j a).panes j = { a with out := [] } from update_self ..]
    · rw [show (n.flush i a).panes j = n.panes j from update_of_ne hj ..]
      exact D.out j }

theorem Wired.reply (D : Wired n) (hc : c ≤ n.conn i) (m : ToPane) : Wired (n.reply i c m) := { D with
  toPane {j d} hd := by
    have hd : n.conn j < d := hd
    have hne : ¬(j = i ∧ d = c) := by
      rintro ⟨rfl, rfl⟩
      exact Nat.not_lt_of_le hc hd
    exact (setAt_of_ne n.toPane _ hne).trans (D.toPane hd) }

theorem Wired.vacate (D : Wired n) (s : Nat) (revokees : List H) : Wired (n.vacate s revokees) := by
  induction revokees generalizing n with
  | nil => exact D
  | cons h hs ih => exact ih (D.reply le_rfl _)

omit [DecidableEq H] in
theorem Wired.setHost (D : Wired n) (he : l.epoch = (n.hosts s).epoch) (hl : l.lastRequest = (n.hosts s).lastRequest) :
    Wired (n.setHost s l) := {
  D with
  upto {r e g} hg := by
    have hle := D.upto hg
    by_cases hr : r = s
    · subst hr
      rwa [setHost_host, he]
    · rwa [show (n.setHost s l).hosts r = n.hosts r from update_of_ne hr ..]
  last {r e j id} hg := by
    have hle := D.last hg
    by_cases hr : r = s
    · subst hr
      rwa [setHost_host, hl]
    · rwa [show (n.setHost s l).hosts r = n.hosts r from update_of_ne hr ..] }

omit [DecidableEq H] in
theorem Wired.withGrant (D : Wired n) (g : (record (n.hosts s)).GrantedTo i (record l))
    (hid : (n.hosts s).lastRequest i = id) : Wired (n.withGrant s l i id) := {
  D with
  upto {r e g'} hg' := by
    have hhost : r ≠ s → (n.withGrant s l i id).hosts r = n.hosts r := fun hr => update_of_ne hr ..
    have hself : (n.withGrant s l i id).hosts s = l := update_self ..
    have hep : l.epoch = (n.hosts s).epoch + 1 := g.epoch
    by_cases hk : (r, e) = (s, (n.hosts s).epoch + 1)
    · cases hk
      rw [hself, hep]
    · have hle := D.upto ((update_of_ne hk _ _).symm.trans hg')
      by_cases hr : r = s
      · subst hr
        rw [hself, hep]
        exact Nat.le_succ_of_le hle
      · rwa [hhost hr]
  last {r e j id'} hg' := by
    have hhost : r ≠ s → (n.withGrant s l i id).hosts r = n.hosts r := fun hr => update_of_ne hr ..
    have hself : (n.withGrant s l i id).hosts s = l := update_self ..
    have hlast : l.lastRequest = (n.hosts s).lastRequest := g.lastRequest
    by_cases hk : (r, e) = (s, (n.hosts s).epoch + 1)
    · cases hk
      cases (update_self _ _ _).symm.trans hg'
      rw [hself, hlast, hid]
    · have hle := D.last ((update_of_ne hk _ _).symm.trans hg')
      by_cases hr : r = s
      · subst hr
        rwa [hself, hlast]
      · rwa [hhost hr] }

section
variable (D : Wired n) (hc : c ≤ n.conn i)
include D hc

theorem Wired.handleAcquire (hid : (n.hosts s).lastRequest i = id) : Wired (n.handleAcquire i c id s) := by
  obtain ⟨-, -, hgranted, -, -⟩ := acquire_eq (n.hosts s) i
  have D' := D.withGrant hgranted hid
  rw [handleAcquire_eq]
  split
  · exact Wired.reply (D'.reply le_rfl _) hc _
  · exact D'.reply hc _

theorem Wired.handleRelease : Wired (n.handleRelease i c id s e) := by
  have hset : Wired (n.setHost s ((n.hosts s).release i e).1) := by
    refine D.setHost ?_ ?_
    all_goals
      unfold release
      split <;> rfl
  refine Wired.reply (hset.vacate s _) ?_ _
  rw [(vacate_frame _ s _).2.2.1]
  exact hc

theorem Wired.handleReclaim : Wired (n.handleReclaim i c id s e) := by
  have hset : Wired (n.setHost s ((n.hosts s).reclaim i e).1) := by
    refine D.setHost ?_ ?_
    all_goals
      unfold reclaim
      split <;> rfl
  exact hset.reply hc _

theorem Wired.handleResize (seq : Nat) (cols rows : UInt16) : Wired (n.handleResize i c s e seq cols rows) := by
  have hset : Wired (n.setHost s ((n.hosts s).resize i e seq cols rows).1) := by
    refine D.setHost ?_ ?_
    all_goals
      unfold resize
      split
      · rfl
      · split <;> rfl
  exact hset.reply hc _

theorem Wired.admitRequest {fail : Bool} {handle : PaneNet H → PaneNet H}
    (hh : (n.hosts s).lastRequest i < id → Wired (handle (n.noted i s id))) :
      Wired (n.admitRequest i c s id fail handle) := by
  rcases n.admitRequest_cases i c s id fail handle with ⟨-, h⟩ | ⟨hlt, h⟩ <;> rw [h]
  · exact D
  · split
    · exact (D.noted hlt).reply hc _
    · exact hh hlt

theorem Wired.hostHandle (fail : Bool) (m : Pane.Out) : Wired (n.hostHandle i c fail m) := by
  cases m with
  | acquire id s =>
    refine D.admitRequest hc fun hlt => (D.noted hlt).handleAcquire hc ?_
    rw [noted_host]
    exact update_self ..
  | reclaim id s e => exact D.admitRequest hc fun hlt => (D.noted hlt).handleReclaim hc
  | release id s e => exact D.admitRequest hc fun hlt => (D.noted hlt).handleRelease hc
  | resize s e seq cols rows => exact D.handleResize hc seq cols rows

end

end PaneNet
end Ferryx
