import Ferryx.Theorems.PaneHosts
import Ferryx.Theorems.PaneSizes

/-! The invariants of the lease protocol hold of every pane in every reachable state, as long as a suppressed pane is bound
to another session only by the user. -/

namespace Ferryx
open Std Lib LeaseView Function PaneLease ResizeLease

/-! ### Epochs without a grant -/

/-- No request of the client that is still pending was granted epoch `k`. -/
def LeaseView.Unused (v : LeaseView) (k : EpochKey) : Prop := ∀ p, v.pending = some p → v.gid k ≠ some p.id

variable {loose strand : Prop} {v w : LeaseView} {k : EpochKey}

theorem LeaseView.Unused.move (h : v.Unused k) (c : Core v)
    (hk : k.2 ≤ v.top k.1) (m : Move loose strand v w) : w.Unused k ∧ k.2 ≤ w.top k.1 := by
  cases m with
  | calm hm =>
    refine ⟨fun p hp => ?_, hk.trans (hm.top _)⟩
    rw [hm.gid]
    exact h p (hm.pending ▸ hp)
  | ask =>
    refine ⟨?_, hk⟩
    rintro p ⟨⟩ hg
    exact Nat.not_succ_le_self _ (c.numbers.gid_le hg)
  | yield => exact ⟨nofun, hk⟩
  | adopt => exact ⟨nofun, hk⟩
  | @grant s id told blocked g =>
    have hne : k ≠ (s, v.top s + 1) := by
      rintro rfl
      exact Nat.not_succ_le_self _ hk
    refine ⟨fun p hp => ?_, hk.trans (le_update_top v s k.1)⟩
    show update v.gid (s, v.top s + 1) (some id) k ≠ some p.id
    rw [update_of_ne hne]
    exact h p hp
  | @revoke k' o hk' => exact ⟨h, hk.trans (le_update_top v k'.1 k.1)⟩
  | query | write | notify | releaseLost | bind | detach | forget | forgetDisowned | disownNot | confirm | probed | recv
  | giveBack | reconnect | tell | unhold | fence | vacate => exact ⟨h, hk⟩

theorem LeaseView.Unused.moves (h : v.Unused k) (c : Core v)
    (hk : k.2 ≤ v.top k.1) (m : Moves loose strand v w) : w.Unused k := by
  have hall : Core w ∧ w.Unused k ∧ k.2 ≤ w.top k.1 := by
    refine m.keeps (P := fun v => Core v ∧ v.Unused k ∧ k.2 ≤ v.top k.1) (fun m h => ?_) ⟨c, h, hk⟩
    exact ⟨h.1.move m, h.2.1.move h.1 h.2.2 m⟩
  exact hall.2.1

namespace PaneNet
variable {H : Type} [DecidableEq H] {n : PaneNet H} {i j : H} {home home' : H → Nat} {s e id c : Nat}
variable {rest : List Pane.Out} {a : PaneAction H} {cols rows : UInt16}

/-! ### Leases -/

structure Leases (home : H → Nat) (n : PaneNet H) : Prop where
  wired : Wired n
  proper : ∀ i, (n.panes i).Proper (home i)
  sound : ∀ i, Sound False False (n.leaseView home i)

theorem leases_start (home : H → Nat) (size : Nat → UInt16 × UInt16) : Leases home (start size : PaneNet H) where
  wired := ⟨fun _ => rfl, fun _ => rfl, fun _ => rfl, (fun h => by cases h), (fun h => by cases h)⟩
  proper i := ⟨(fun h => by cases h), (fun h => by cases h)⟩
  sound i := by
    have hnow : ((start size : PaneNet H).leaseView home i).now = ∅ := by
      ext r
      simp [leaseView, view, env, start, PaneLease.new, paneRequests]
    have hlate : ((start size : PaneNet H).leaseView home i).late = ∅ := by
      ext r
      simp [leaseView, view, env, start, PaneLease.new, paneRequests]
    have hheld : ((start size : PaneNet H).leaseView home i).held = ∅ := by
      ext k
      simp [leaseView, view, env, start, ResizeLease.new]
    exact {
      core := core_start rfl rfl rfl rfl hnow hlate rfl hheld rfl rfl
      kept := .inr ⟨(fun h => by cases h), (fun h => by cases h), (fun h => by cases h)⟩
      waiting := .inr
        ⟨(fun h => by cases h), by simp [leaseView, view, env, start], (fun h => by cases h), (fun h => by cases h)⟩ }

/-- A step binds panes as `home'` says: only the pane whose policy is set, and elsewhere than before only after
    it gave up its lease and if it is not suppressed. -/
def Binds (n : PaneNet H) (home home' : H → Nat) : PaneAction H → Prop
  | .setPolicy i p userIntent => (∀ {j}, j ≠ i → home' j = home j) ∧ (∀ {s}, p.boundSession = some s → s = home' i) ∧
    (home' i = home i ∨ (n.panes i).rebound p = true ∧ (userIntent = true ∨ (n.panes i).suppressed = false))
  | _ => home' = home

theorem wired_deliverToHost (D : Wired n) (i : H) (c : Nat) (lose fail : Bool) : Wired (n.deliverToHost i c lose fail) := by
  unfold deliverToHost
  split
  · exact D
  next m rest hc =>
    have hle : c ≤ n.conn i := by
      by_contra hlt
      rw [D.toHost (Nat.lt_of_not_le hlt)] at hc
      cases hc
    have D' := D.popped hc
    dsimp only
    split
    · exact D'
    · exact D'.hostHandle hle fail m

theorem wired_deliverToPane (D : Wired n) (i : H) (c : Nat) : Wired (n.deliverToPane i c) := by
  unfold deliverToPane
  split
  · exact D
  next m rest hc =>
    have D' : Wired { n with toPane := setAt n.toPane i c rest } := { D with
      toPane := fun {j d} hd => by
        have hnil := D.toPane hd
        refine List.eq_nil_iff_forall_not_mem.mpr fun x hx => ?_
        have hx' := mem_of_mem_setAt hc hx
        rw [hnil] at hx'
        cases hx' }
    dsimp only
    split
    · exact D'
    · exact D'.flush i _

theorem wired_reconnect (D : Wired n) (i : H) : Wired (n.reconnect i) := by
  have D' : Wired { n with conn := update n.conn i (n.conn i + 1) } := by
    have hlt : ∀ {j c}, update n.conn i (n.conn i + 1) j < c → n.conn j < c := by
      intro j c hc
      by_cases hj : j = i
      · subst hj
        rw [update_self] at hc
        exact Nat.lt_of_succ_lt hc
      · rwa [update_of_ne hj] at hc
    exact ⟨fun hc => D.toHost (hlt hc), fun hc => D.toPane (hlt hc), D.out, D.upto, D.last⟩
  exact D'.flush i _

theorem wired_step (D : Wired n) (a : PaneAction H) : Wired (n.step a) := by
  cases a with
  | setPolicy i p ui => exact D.flush i _
  | visibleApplied i cols rows => exact D.flush i _
  | reconnect i => exact wired_reconnect D i
  | deliverToHost i c lose fail => exact wired_deliverToHost D i c lose fail
  | deliverToPane i c => exact wired_deliverToPane D i c
  | requestFailed i id => exact D.flush i _
  | retryTimer i => exact D.flush i _
  | unackedTimeout i => exact D.flush i _

theorem moves_step (L : Leases home n) (hb : n.Binds home home' a) (j : H) :
    Moves False False (n.leaseView home j) ((n.step a).leaseView home' j) := by
  cases a with
  | setPolicy i p ui =>
    obtain ⟨hsame, hbound, hhome⟩ := hb
    exact moves_flush hsame (moves_setPolicy (L.sound i).core (L.proper i) hbound hhome) j
  | visibleApplied i cols rows =>
    cases hb
    exact moves_flush (fun _ => rfl) (moves_onVisibleApplied (L.sound i).core (L.proper i) cols rows) j
  | reconnect i =>
    cases hb
    exact moves_reconnect L.wired (L.sound i).core (L.proper i) j
  | deliverToHost i c lose fail =>
    cases hb
    exact moves_deliverToHost L.wired (L.sound i) lose fail j
  | deliverToPane i c =>
    cases hb
    exact moves_deliverToPane (L.sound i) (L.proper i) c j
  | requestFailed i id =>
    cases hb
    exact moves_flush (fun _ => rfl) (moves_call (c := .onRequestFailed id) (L.sound i).core (L.proper i).bound
      (moves_requestFailed _ id _ _)) j
  | retryTimer i =>
    cases hb
    exact moves_flush (fun _ => rfl) (moves_onRetryTimer (L.sound i).core (L.proper i)) j
  | unackedTimeout i =>
    cases hb
    exact moves_flush (fun _ => rfl) (moves_onUnackedTimeout (L.sound i).core (L.proper i)) j

theorem hostHandle_panes (n : PaneNet H) (i : H) (c : Nat) (fail : Bool) (m : Pane.Out) :
    (n.hostHandle i c fail m).panes = n.panes ∧ (n.hostHandle i c fail m).conn = n.conn ∧ (n.hostHandle i c fail m).toHost =
      n.toHost := by
  have hadmit : ∀ {s id} {handle : PaneNet H → PaneNet H},
      (∀ m : PaneNet H, (handle m).panes = m.panes ∧ (handle m).conn = m.conn ∧ (handle m).toHost = m.toHost) →
      (n.admitRequest i c s id fail handle).panes = n.panes ∧ (n.admitRequest i c s id fail handle).conn = n.conn ∧
        (n.admitRequest i c s id fail handle).toHost = n.toHost := by
    intro s id handle hh
    rcases n.admitRequest_cases i c s id fail handle with ⟨-, h⟩ | ⟨-, h⟩ <;> rw [h]
    · exact ⟨rfl, rfl, rfl⟩
    · split
      · exact ⟨rfl, rfl, rfl⟩
      · exact hh (n.noted i s id)
  cases m with
  | acquire id s =>
    refine hadmit fun m => ?_
    rw [handleAcquire_eq]
    split <;> exact ⟨rfl, rfl, rfl⟩
  | reclaim id s e => exact hadmit fun m => ⟨rfl, rfl, rfl⟩
  | release id s e =>
    refine hadmit fun m => ?_
    obtain ⟨-, hp, hc, -, ht⟩ := vacate_frame (m.setHost s ((m.hosts s).release i e).1) s ((m.hosts s).release i e).2.2
    exact ⟨hp, hc, ht⟩
  | resize s e seq cols rows => exact ⟨rfl, rfl, rfl⟩

theorem panes_step (n : PaneNet H) (a : PaneAction H) (j : H) :
    ((n.step a).panes j = n.panes j ∧ ∀ p ui, a ≠ .setPolicy j p ui) ∨
      ∃ c, (n.step a).panes j = { (n.panes j).call c with out := [] } ∧ ∀ p ui, a = .setPolicy j p ui ↔
        c = .setPolicy p ui := by
  have hflush : ∀ {m : PaneNet H} {i : H} (c : PaneLease.Call), m.panes = n.panes →
      (∀ j p ui, a = .setPolicy j p ui ↔ j = i ∧ c = .setPolicy p ui) →
      ((m.flush i ((n.panes i).call c)).panes j = n.panes j ∧ ∀ p ui, a ≠ .setPolicy j p ui) ∨
        ∃ d, (m.flush i ((n.panes i).call c)).panes j = { (n.panes j).call d with out := [] } ∧
          ∀ p ui, a = .setPolicy j p ui ↔ d = .setPolicy p ui := by
    intro m i c hm hpol
    by_cases hj : j = i
    · subst hj
      exact .inr ⟨c, update_self .., fun p ui => by simp [hpol]⟩
    · exact .inl ⟨(update_of_ne hj ..).trans (congrFun hm j), fun p ui h => hj ((hpol j p ui).mp h).1⟩
  cases a with
  | setPolicy i p ui => exact hflush (.setPolicy p ui) rfl fun j p' ui' => by simp [eq_comm]
  | visibleApplied i cols rows => exact hflush (.onVisibleApplied cols rows) rfl (by simp)
  | reconnect i => exact hflush (m := { n with conn := update n.conn i (n.conn i + 1) }) .onReconnect rfl (by simp)
  | deliverToHost i c lose fail =>
    refine .inl ⟨?_, by simp⟩
    rw [step, deliverToHost]
    split
    · rfl
    · dsimp only
      split
      · rfl
      · rw [(hostHandle_panes _ i c fail _).1]
  | deliverToPane i c =>
    rw [step, deliverToPane]
    split
    · exact .inl ⟨rfl, by simp⟩
    next m rest hc =>
      dsimp only
      split
      · exact .inl ⟨rfl, by simp⟩
      · rw [handle_eq]
        exact hflush (m := { n with toPane := setAt n.toPane i c rest }) _ rfl
          (by cases m <;> simp [PaneLease.Call.ofMessage])
  | requestFailed i id => exact hflush (.onRequestFailed id) rfl (by simp)
  | retryTimer i => exact hflush .onRetryTimer rfl (by simp)
  | unackedTimeout i => exact hflush .onUnackedTimeout rfl (by simp)

theorem proper_step (L : Leases home n) (hb : n.Binds home home' a) (j : H) : ((n.step a).panes j).Proper (home' j) := by
  have hhome : (∀ p ui, a ≠ .setPolicy j p ui) → home' j = home j := by
    intro hne
    cases a with
    | setPolicy i p ui => exact hb.1 fun hj => hne p ui (by rw [hj])
    | _ => exact congrFun hb j
  obtain ⟨hsame, hne⟩ | ⟨c, heq, hpol⟩ := panes_step n a j
  · rw [hsame, hhome hne]
    exact L.proper j
  · have P : ((n.panes j).call c).Proper (home' j) := by
      refine (L.proper j).call fun {s} hs => ?_
      cases c with
      | setPolicy p ui =>
        obtain rfl := (hpol p ui).mpr rfl
        exact hb.2.1 hs
      | _ =>
        rw [hhome fun p ui h => by cases (hpol p ui).mp h]
        exact (L.proper j).bound hs
    rw [heq]
    exact ⟨P.bound, P.probing⟩

theorem Leases.step (L : Leases home n) (hb : n.Binds home home' a) : Leases home' (n.step a) where
  wired := wired_step L.wired a
  proper := proper_step L hb
  sound j := (L.sound j).moves id (moves_step L hb j)

/-! ### Sizes -/

def sizeEnv (n : PaneNet H) (i : H) : SizeEnv where
  live := { o | o ∈ n.toHost i (n.conn i) }
  late := { o | ∃ c ≠ n.conn i, o ∈ n.toHost i c }
  applied s := (n.hosts s).applied
  held := (n.env i).held

/-- Sizes are applied in order, and only those of the epoch's holder. -/
structure Sizes (home : H → Nat) (n : PaneNet H) : Prop where
  orderly : ∀ i, (n.panes i).Orderly (n.sizeEnv i)
  upto : ∀ s, (n.hosts s).applied.epoch ≤ (n.hosts s).epoch
  unused : ∀ i s, (n.leaseView home i).Unused (s, (n.hosts s).applied.epoch)

theorem sizes_start (home : H → Nat) (size : Nat → UInt16 × UInt16) : Sizes home (start size : PaneNet H) where
  orderly i := by
    refine ⟨⟨⟨nofun, nofun, nofun⟩, nofun⟩, { normal := ?_, number := ?_, applied := nofun, sent := nofun }, nofun⟩
    · simp [sizeEnv, start, PaneLease.new]
    · simp [sizeEnv, start, PaneLease.new]
  upto s := le_rfl
  unused i s := nofun

/-- What the host does to a session, other than apply a size: the lease stays, ends, or a new epoch begins. -/
def Quiet (l l' : ResizeLease H) : Prop :=
  l'.applied = l.applied ∧ (l'.epoch = l.epoch ∧ (l'.holder = l.holder ∨ l'.holder = none) ∨ l'.epoch = l.epoch + 1)

omit [DecidableEq H] in
theorem Quiet.refl (l : ResizeLease H) : Quiet l l := ⟨rfl, .inl ⟨rfl, .inl rfl⟩⟩

omit [DecidableEq H] in
theorem quiet_setHost {l : ResizeLease H} (h : Quiet (n.hosts s) l) (r : Nat) :
    Quiet (n.hosts r) ((n.setHost s l).hosts r) := by
  by_cases hr : r = s
  · subst hr
    rw [setHost_host]
    exact h
  · rw [show (n.setHost s l).hosts r = n.hosts r from update_of_ne hr ..]
    exact Quiet.refl _

theorem quiet_of_noted {l : ResizeLease H} {r : Nat} (h : Quiet ((n.noted i s id).hosts r) l) : Quiet (n.hosts r) l := by
  by_cases hr : r = s
  · subst hr
    rwa [noted_host] at h
  · rwa [show (n.noted i s id).hosts r = n.hosts r from update_of_ne hr ..] at h

theorem quiet_admitRequest {fail : Bool} {handle : PaneNet H → PaneNet H}
    (hh : ∀ (m : PaneNet H) r, Quiet (m.hosts r) ((handle m).hosts r)) (r : Nat) :
    Quiet (n.hosts r) ((n.admitRequest i c s id fail handle).hosts r) := by
  rcases n.admitRequest_cases i c s id fail handle with ⟨-, h⟩ | ⟨-, h⟩ <;> rw [h]
  · exact Quiet.refl _
  · split
    · exact quiet_of_noted (Quiet.refl _)
    · exact quiet_of_noted (hh _ r)

theorem quiet_hostHandle (n : PaneNet H) (i : H) (c : Nat) (fail : Bool) {m : Pane.Out}
    (hm : ∀ {s e q cols rows}, m ≠ .resize s e q cols rows) (r : Nat) :
      Quiet (n.hosts r) ((n.hostHandle i c fail m).hosts r) := by
  cases m with
  | acquire id s =>
    refine quiet_admitRequest (fun m r => ?_) r
    obtain ⟨-, -, hg, happ, -⟩ := acquire_eq (m.hosts s) i
    have hset : Quiet (m.hosts r) ((m.setHost s ((m.hosts s).acquire i).1).hosts r) :=
      quiet_setHost ⟨happ, .inr hg.epoch⟩ r
    rw [handleAcquire_eq]
    split <;> exact hset
  | reclaim id s e =>
    refine quiet_admitRequest (fun m r => ?_) r
    have hset : Quiet (m.hosts r) ((m.setHost s ((m.hosts s).reclaim i e).1).hosts r) := by
      refine quiet_setHost ?_ r
      unfold reclaim
      split <;> exact ⟨rfl, .inl ⟨rfl, .inl rfl⟩⟩
    exact hset
  | release id s e =>
    refine quiet_admitRequest (fun m r => ?_) r
    have hset : Quiet (m.hosts r) ((m.setHost s ((m.hosts s).release i e).1).hosts r) := by
      refine quiet_setHost ?_ r
      unfold release
      split
      · exact ⟨rfl, .inl ⟨rfl, .inr rfl⟩⟩
      · exact Quiet.refl _
    obtain ⟨hhosts, -⟩ := vacate_frame (m.setHost s ((m.hosts s).release i e).1) s ((m.hosts s).release i e).2.2
    show Quiet _ (((m.setHost s ((m.hosts s).release i e).1).vacate s ((m.hosts s).release i e).2.2).hosts r)
    rwa [hhosts]
  | resize => exact (hm rfl).elim

theorem lease_le (L : Leases home n) {l : Pane.Lease} (hl : (n.panes i).lease = some l) :
    l.epoch ≤ (n.hosts l.session).epoch := by
  obtain ⟨gid, hgid, -⟩ := (L.sound i).core.epochs.spent (.inl (current_of_lease (home i) (n.env i) hl))
  exact ((L.sound i).core.numbers.epoch hgid).2

theorem lease_unique (L : Leases home n) {l : Pane.Lease} (hl : (n.panes j).lease = some l)
    (hh : (n.hosts l.session).holder = some i) (he : (n.hosts l.session).epoch = l.epoch) : i = j := by
  obtain ⟨id, hid, -⟩ := (L.sound j).core.epochs.spent (.inl (current_of_lease (home j) (n.env j) hl))
  obtain ⟨-, id', hid'⟩ := (L.sound i).core.holder.latest (k := (l.session, l.epoch)) ⟨hh, he⟩
  have h := (gid_eq_some.mp hid').symm.trans (gid_eq_some.mp hid)
  exact (Prod.mk.inj (Option.some.inj h)).1

theorem resize_cases (l : ResizeLease H) (i : H) (e q : Nat) (cols rows : UInt16) :
    ((l.resize i e q cols rows).1 = l ∧ (e = l.epoch → l.holder = some i → ResizeLease.Stale l.applied e q)) ∨
      e = l.epoch ∧ l.holder = some i ∧ ¬ResizeLease.Stale l.applied e q ∧ (l.resize i e q cols rows).1 =
        { l with applied := ⟨e, q, (normalizeSize cols rows).1, (normalizeSize cols rows).2⟩ } := by
  unfold resize
  by_cases hmine : e ≠ l.epoch ∨ l.holder ≠ some i
  · rw [if_pos hmine]
    refine .inl ⟨rfl, fun he hh => ?_⟩
    rcases hmine with h | h
    · exact (h he).elim
    · exact (h hh).elim
  · rw [if_neg hmine]
    simp only [ne_eq, not_or, not_not] at hmine
    by_cases hs : ResizeLease.Stale l.applied e q
    · rw [if_pos hs]
      exact .inl ⟨rfl, fun _ _ => hs⟩
    · rw [if_neg hs]
      exact .inr ⟨hmine.1, hmine.2, hs, rfl⟩

theorem live_popped {m o : Pane.Out} (hc : n.toHost i c = m :: rest) (ho : o ∈ n.toHost i (n.conn i)) :
    o ∈ setAt n.toHost i c rest i (n.conn i) ∨ o = m := by
  by_cases h : n.conn i = c
  · subst h
    rw [setAt_self]
    rw [hc] at ho
    exact (List.mem_cons.mp ho).symm
  · rw [setAt_of_ne n.toHost rest fun h' => h h'.2]
    exact .inl ho

theorem orderly_resize (L : Leases home n)
    (Z : Sizes home n) {q : Nat} (hc : n.toHost i c = .resize s e q cols rows :: rest) (j : H) :
    ((({ n with toHost := setAt n.toHost i c rest } : PaneNet H).handleResize i c s e q cols rows).panes j).Orderly
      ((({ n with toHost := setAt n.toHost i c rest } : PaneNet H).handleResize i c s e q cols rows).sizeEnv j) := by
  let n' := ({ n with toHost := setAt n.toHost i c rest } : PaneNet H).handleResize i c s e q cols rows
  have hother : ∀ {r}, r ≠ s → n'.hosts r = n.hosts r := fun hr => update_of_ne hr ..
  have hself : n'.hosts s = ((n.hosts s).resize i e q cols rows).1 := update_self ..
  have hcases := resize_cases (n.hosts s) i e q cols rows
  rw [← hself] at hcases
  have hsub : ∀ {o d}, o ∈ n'.toHost j d → o ∈ n.toHost j d := mem_of_mem_setAt hc
  -- The lease of the session does not change.
  have hheld : (n'.sizeEnv j).held ⊆ (n.sizeEnv j).held := by
    intro ⟨r, e'⟩ ⟨hh, he'⟩
    dsimp only at hh he'
    by_cases hr : r = s
    · subst hr
      rcases hcases with ⟨heq, -⟩ | ⟨-, -, -, heq⟩ <;> rw [heq] at hh he' <;> exact ⟨hh, he'⟩
    · rw [hother hr] at hh he'
      exact ⟨hh, he'⟩
  show (n.panes j).Orderly (n'.sizeEnv j)
  by_cases hj : i = j
  · subst hj
    have hm : .resize s e q cols rows ∈ (n.sizeEnv i).live ∪ (n.sizeEnv i).late := by
      have hmem : .resize s e q cols rows ∈ n.toHost i c := hc ▸ List.mem_cons_self
      by_cases h : c = n.conn i
      · subst h
        exact .inl hmem
      · exact .inr ⟨c, h, hmem⟩
    refine (Z.orderly i).delivered hm (Set.union_subset_union (fun _ => hsub) fun o ⟨d, hd, ho⟩ => ⟨d, hd, hsub ho⟩)
      (live_popped hc) hheld ?_ (fun hr => congrArg applied (hother hr)) ?_ ?_
    · intro ⟨_, he⟩
      exact (Z.upto s).trans_eq he
    · rcases hcases with ⟨heq, hstale⟩ | ⟨he, hh, hstale, heq⟩
      · exact .inl ⟨congrArg applied heq, fun ⟨hh, he⟩ => hstale he.symm hh⟩
      · refine .inr ⟨?_, ⟨hh, he.symm⟩, hstale⟩
        have hn := (Z.orderly i).sized.normal (.inl hm)
        show (n'.hosts s).applied = _
        rw [heq, hn]
    · intro e' ⟨_, he⟩ ⟨_, he'⟩
      exact he'.symm.trans he
  · have hto : ∀ d, n'.toHost j d = n.toHost j d := fun d => setAt_of_ne n.toHost rest fun h => hj h.1.symm
    refine (Z.orderly j).congr ?_ ?_ ?_ fun _ h => hheld h
    · intro s e q c r
      show _ ∈ n'.toHost j (n.conn j) ↔ _
      rw [hto]
      exact Iff.rfl
    · intro s e q c r ⟨d, hd, ho⟩
      exact ⟨d, hd, hsub ho⟩
    · intro l hl
      by_cases hs : l.session = s
      · subst hs
        rcases hcases with ⟨heq, -⟩ | ⟨he, hh, -, heq⟩
        · exact .inl (congrArg applied heq)
        -- Only the holder has a size applied.
        · refine .inr ⟨?_, ?_⟩
          · show (n'.hosts l.session).applied.epoch ≠ l.epoch
            rw [heq]
            exact fun hel => hj (lease_unique L hl hh (he.symm.trans hel))
          · intro hk
            exact hj (Option.some.inj (hh.symm.trans (hheld hk).1))
      · exact .inl (congrArg applied (hother hs))

theorem orderly_flush {a : PaneLease} (h : ∀ j, j ≠ i → (n.panes j).Orderly (n.sizeEnv j)) (ha : a.Orderly (n.sizeEnv i))
    (j : H) :
    ((n.flush i a).panes j).Orderly ((n.flush i a).sizeEnv j) := by
  by_cases hj : j = i
  · subst hj
    rw [show (n.flush j a).panes j = { a with out := [] } from update_self ..]
    have hlive : ((n.flush j a).sizeEnv j).live = (n.sizeEnv j).live ∪ { o | o ∈ a.out } := by
      ext o
      show o ∈ enqueue n.toHost j (n.conn j) a.out j (n.conn j) ↔ _
      rw [mem_enqueue]
      simp [sizeEnv]
    have hlate : ((n.flush j a).sizeEnv j).late = (n.sizeEnv j).late := by
      ext o
      show (∃ c ≠ n.conn j, o ∈ enqueue n.toHost j (n.conn j) a.out j c) ↔ ∃ c ≠ n.conn j, o ∈ n.toHost j c
      refine exists_congr fun c => and_congr_right fun hc => ?_
      simp [mem_enqueue, hc]
    have henv : (n.flush j a).sizeEnv j = { n.sizeEnv j with live := (n.sizeEnv j).live ∪ { o | o ∈ a.out } } := by
      show _ = SizeEnv.mk ((n.sizeEnv j).live ∪ { o | o ∈ a.out }) (n.sizeEnv j).late _ _
      rw [← hlive, ← hlate]
      rfl
    rw [henv]
    exact ha.flushed
  · rw [show (n.flush i a).panes j = n.panes j from update_of_ne hj ..]
    have hto : ∀ d, (n.flush i a).toHost j d = n.toHost j d := fun d => setAt_of_ne n.toHost _ fun h => hj h.1
    have henv : (n.flush i a).sizeEnv j = n.sizeEnv j := by
      simp only [sizeEnv, hto]
      rfl
    rw [henv]
    exact h j hj

/-! ### Sizes at the panes -/

theorem orderly_reconnect (D : Wired n) (Z : Sizes home n) (i j : H) :
    ((n.reconnect i).panes j).Orderly ((n.reconnect i).sizeEnv j) := by
  refine orderly_flush (n := { n with conn := update n.conn i (n.conn i + 1) }) (fun j hj => ?_) ?_ j
  · have henv : ({ n with conn := update n.conn i (n.conn i + 1) } : PaneNet H).sizeEnv j = n.sizeEnv j := by
      simp only [sizeEnv, update_of_ne hj]
      rfl
    rw [henv]
    exact Z.orderly j
  · have hto := D.toHost (Nat.lt_succ_self (n.conn i))
    have hlive : { o | o ∈ n.toHost i (n.conn i + 1) } = ∅ := by simp [hto]
    have hlate : { o | ∃ c ≠ n.conn i + 1, o ∈ n.toHost i c } = (n.sizeEnv i).live ∪ (n.sizeEnv i).late := by
      ext o
      constructor
      · rintro ⟨c, -, ho⟩
        by_cases hc : c = n.conn i
        · subst hc
          exact .inl ho
        · exact .inr ⟨c, hc, ho⟩
      · intro ho
        rcases ho with ho | ⟨c, hc, ho⟩
        · exact ⟨n.conn i, Nat.ne_of_lt (Nat.lt_succ_self _), ho⟩
        · refine ⟨c, ?_, ho⟩
          rintro rfl
          rw [hto] at ho
          cases ho
    have henv : ({ n with conn := update n.conn i (n.conn i + 1) } : PaneNet H).sizeEnv i = (n.sizeEnv i).redialed := by
      simp only [sizeEnv, update_self, SizeEnv.redialed] at hlate ⊢
      rw [hlive, hlate]
      rfl
    rw [henv]
    exact (Z.orderly i).onReconnect

section
variable (L : Leases home n) (Z : Sizes home n)
include L Z

theorem unsized_of_granted {appliedSeq : Nat} {p : Pane.Pending} (hm : .granted id s e appliedSeq ∈ n.toPane i (n.conn i))
    (hp : (n.panes i).pending = some p) (hk : p.kind = .acquire) (hid : p.id = id) :
    (∀ {q c r}, .resize s e q c r ∉ (n.sizeEnv i).live ∪ (n.sizeEnv i).late ∪ { o | o ∈ (n.panes i).out }) ∧
      ((n.sizeEnv i).applied s).epoch ≠ e := by
  have hcore := (L.sound i).core
  have hpend := asked_of_pending (home i) (n.env i) hp (by simp [hk])
  have hgid : (n.leaseView home i).gid (s, e) = some p.request.id :=
    (hcore.messages.granted (List.mem_map_of_mem hm)).trans (congrArg some hid.symm)
  refine ⟨fun {q c r} h => ?_, ?_⟩
  · have hreq : Req.write s e ∈ (n.leaseView home i).now ∪ (n.leaseView home i).late := by
      rcases h with (h | ⟨d, hd, h⟩) | h
      · exact .inl (.inl ⟨_, h, rfl⟩)
      · exact .inr ⟨d, hd, _, h, rfl⟩
      · exact .inl (.inr ⟨_, h, rfl⟩)
    rcases hcore.given.write hreq with hcur | ⟨-, -, hne⟩
    · have hnone := hcore.epochs.acquiring hpend (by simp [Pane.Pending.request, hk])
      cases hnone.symm.trans hcur
    · exact hne hpend hgid
  · intro he
    subst he
    exact Z.unused i s _ hpend hgid

theorem orderly_handle {m : ToPane} (hm : m ∈ n.toPane i (n.conn i)) : ((n.panes i).handle m).Orderly (n.sizeEnv i) := by
  rw [handle_eq]
  refine (Z.orderly i).call (by cases m <;> rfl) fun {k} hk => ?_
  obtain ⟨id, appliedSeq, p, heq, hp, hkind, hid⟩ := takes_eq_some hk
  cases m <;> cases heq
  exact unsized_of_granted L Z hm hp hkind hid

theorem orderly_deliverToPane (i : H) (c : Nat) (j : H) :
    ((n.deliverToPane i c).panes j).Orderly ((n.deliverToPane i c).sizeEnv j) := by
  unfold deliverToPane
  split
  · exact Z.orderly j
  next m rest hc =>
    dsimp only
    split
    · exact Z.orderly j
    next heq =>
      obtain rfl : c = n.conn i := of_not_not heq
      have hm : m ∈ n.toPane i (n.conn i) := hc ▸ List.mem_cons_self
      exact orderly_flush (n := { n with toPane := setAt n.toPane i (n.conn i) rest }) (fun j _ => Z.orderly j)
        (orderly_handle L Z hm) j

theorem orderly_quiet {n' : PaneNet H} {m : Pane.Out} (hc : n.toHost i c = m :: rest) (hp : n'.panes = n.panes)
    (hconn : n'.conn = n.conn)
    (hto : n'.toHost = setAt n.toHost i c rest) (hm : c ≠ n.conn i ∨ ∀ {s e q cols rows}, m ≠ .resize s e q cols rows)
    (hq : ∀ r, Quiet (n.hosts r) (n'.hosts r)) (j : H) : (n'.panes j).Orderly (n'.sizeEnv j) := by
  rw [hp]
  have hsub : ∀ {o d}, o ∈ n'.toHost j d → o ∈ n.toHost j d := by
    rw [hto]
    exact mem_of_mem_setAt hc
  refine (Z.orderly j).congr ?_ ?_ (fun _ => .inl (hq _).1) ?_
  · intro s e q cols rows
    show _ ∈ n'.toHost j (n'.conn j) ↔ _ ∈ n.toHost j (n.conn j)
    rw [hconn]
    refine ⟨hsub, fun ho => ?_⟩
    rw [hto]
    by_cases hj : j = i
    · subst hj
      rcases hm with hm | hm
      · rwa [setAt_of_ne n.toHost rest fun h => hm h.2.symm]
      · exact (live_popped hc ho).resolve_right fun h => hm h.symm
    · rwa [setAt_of_ne n.toHost rest fun h => hj h.1]
  · intro s e q cols rows ⟨d, hd, ho⟩
    exact ⟨d, hconn ▸ hd, hsub ho⟩
  · intro l hl ⟨hh, he⟩
    dsimp only at hh he
    have hle := lease_le L hl
    rcases (hq l.session).2 with ⟨he', hh' | hh'⟩ | he'
    · exact ⟨hh' ▸ hh, he' ▸ he⟩
    · cases hh'.symm.trans hh
    -- A new epoch is not that of a lease that the pane has.
    · omega

/-! ### Sizes at the hosts -/

theorem Sizes.of_moves {n' : PaneNet H} (hm : ∀ j, Moves False False (n.leaseView home j) (n'.leaseView home' j))
    (happ : ∀ s, (n'.hosts s).applied = (n.hosts s).applied) (hepoch : ∀ s, (n.hosts s).epoch ≤ (n'.hosts s).epoch)
    (ho : ∀ j, (n'.panes j).Orderly (n'.sizeEnv j)) : Sizes home' n' where
  orderly := ho
  upto s := by
    rw [happ]
    exact (Z.upto s).trans (hepoch s)
  unused j s := by
    rw [happ]
    exact (Z.unused j s).moves (L.sound j).core (Z.upto s) (hm j)

end

omit [DecidableEq H] in
theorem Quiet.epoch_le {l l' : ResizeLease H} (h : Quiet l l') : l.epoch ≤ l'.epoch := by
  rcases h.2 with ⟨h, -⟩ | h <;> omega

theorem unused_of_resize (L : Leases home n) {q : Nat} (hm : .resize s e q cols rows ∈ n.toHost i c)
    (hh : (n.hosts s).holder = some i) (he : (n.hosts s).epoch = e) (j : H) : (n.leaseView home j).Unused (s, e) := by
  intro p hp hg
  by_cases hj : j = i
  · subst hj
    have hcore := (L.sound j).core
    have hreq : Req.write s e ∈ (n.leaseView home j).now ∪ (n.leaseView home j).late := by
      by_cases hc : c = n.conn j
      · subst hc
        exact .inl (.inl ⟨_, hm, rfl⟩)
      · exact .inr ⟨c, hc, _, hm, rfl⟩
    rcases hcore.given.write hreq with hcur | ⟨-, -, hne⟩
    · obtain ⟨id, hid, hlt⟩ := hcore.epochs.spent (.inl hcur)
      have hlt := hlt hp
      rw [Option.some.inj (hid.symm.trans hg)] at hlt
      exact Nat.lt_irrefl _ hlt
    · exact hne hp hg
  · obtain ⟨-, id, hid⟩ := (L.sound i).core.holder.latest (k := (s, e)) ⟨hh, he⟩
    have h := (gid_eq_some.mp hg).symm.trans (gid_eq_some.mp hid)
    exact hj (Prod.mk.inj (Option.some.inj h)).1

section
variable (L : Leases home n) (Z : Sizes home n)
include L Z

theorem sizes_resize {q : Nat} (hc : n.toHost i c = .resize s e q cols rows :: rest) :
    Sizes home (({ n with toHost := setAt n.toHost i c rest } : PaneNet H).handleResize i c s e q cols rows) := by
  let n' := ({ n with toHost := setAt n.toHost i c rest } : PaneNet H).handleResize i c s e q cols rows
  have hother : ∀ {r}, r ≠ s → n'.hosts r = n.hosts r := fun hr => update_of_ne hr ..
  have hself : n'.hosts s = ((n.hosts s).resize i e q cols rows).1 := update_self ..
  have hcases := resize_cases (n.hosts s) i e q cols rows
  rw [← hself] at hcases
  refine ⟨orderly_resize L Z hc, fun r => ?_, fun j r => ?_⟩
  · show (n'.hosts r).applied.epoch ≤ (n'.hosts r).epoch
    by_cases hr : r = s
    · subst hr
      rcases hcases with ⟨heq, -⟩ | ⟨he, -, -, heq⟩ <;> rw [heq]
      · exact Z.upto r
      · exact he.le
    · rw [hother hr]
      exact Z.upto r
  -- The requests and the grants are what they were.
  · have hunused : (n.leaseView home j).Unused (r, (n'.hosts r).applied.epoch) := by
      by_cases hr : r = s
      · subst hr
        rcases hcases with ⟨heq, -⟩ | ⟨he, hh, -, heq⟩ <;> rw [heq]
        · exact Z.unused j r
        · exact unused_of_resize L (hc ▸ List.mem_cons_self) hh he.symm j
      · rw [hother hr]
        exact Z.unused j r
    exact hunused

theorem sizes_deliverToHost (i : H) (c : Nat) (lose fail : Bool) : Sizes home (n.deliverToHost i c lose fail) := by
  have hmoves := moves_deliverToHost L.wired (L.sound i) (c := c) lose fail
  revert hmoves
  unfold deliverToHost
  split
  · exact fun _ => Z
  next m rest hc =>
    dsimp only
    split <;> intro hmoves
    next hlost =>
      exact Z.of_moves L hmoves (fun _ => rfl) (fun _ => le_rfl)
        (orderly_quiet L Z hc rfl rfl rfl (.inl hlost.1) fun _ => Quiet.refl _)
    · by_cases hm : ∃ s e q cols rows, m = .resize s e q cols rows
      · obtain ⟨s, e, q, cols, rows, rfl⟩ := hm
        exact sizes_resize L Z hc
      · have hm' : ∀ {s e q cols rows}, m ≠ .resize s e q cols rows := fun h => hm ⟨_, _, _, _, _, h⟩
        have hq := quiet_hostHandle ({ n with toHost := setAt n.toHost i c rest } : PaneNet H) i c fail hm'
        obtain ⟨hp, hconn, hto⟩ := hostHandle_panes ({ n with toHost := setAt n.toHost i c rest } : PaneNet H) i c fail m
        exact Z.of_moves L hmoves (fun s => (hq s).1) (fun s => (hq s).epoch_le)
          (orderly_quiet L Z hc hp hconn hto (.inr hm') hq)

theorem sizes_flush {a : PaneLease} (hm : ∀ j, Moves False False (n.leaseView home j) ((n.flush i a).leaseView home' j))
    (ha : a.Orderly (n.sizeEnv i)) : Sizes home' (n.flush i a) :=
  Z.of_moves L hm (fun _ => rfl) (fun _ => le_rfl) (orderly_flush (fun j _ => Z.orderly j) ha)

theorem Sizes.step (hb : n.Binds home home' a) : Sizes home' (n.step a) := by
  have hm := moves_step L hb
  cases a with
  | setPolicy i p ui => exact sizes_flush L Z hm ((Z.orderly i).setPolicy p ui)
  | visibleApplied i cols rows => exact sizes_flush L Z hm ((Z.orderly i).onVisibleApplied cols rows)
  | reconnect i => exact Z.of_moves L hm (fun _ => rfl) (fun _ => le_rfl) (orderly_reconnect L.wired Z i)
  | deliverToHost i c lose fail =>
    obtain rfl : home' = home := hb
    exact sizes_deliverToHost L Z i c lose fail
  | deliverToPane i c =>
    have hhosts : (n.deliverToPane i c).hosts = n.hosts := by
      unfold deliverToPane
      split
      · rfl
      · dsimp only
        split <;> rfl
    refine Z.of_moves L hm (fun s => ?_) (fun s => ?_) (orderly_deliverToPane L Z i c)
    · exact congrArg (fun h => (h s).applied) hhosts
    · exact (congrArg (fun h => (h s).epoch) hhosts).ge
  | requestFailed i id => exact sizes_flush L Z hm ((Z.orderly i).call (c := .onRequestFailed id) rfl fun h => by cases h)
  | retryTimer i => exact sizes_flush L Z hm ((Z.orderly i).call (c := .onRetryTimer) rfl fun h => by cases h)
  | unackedTimeout i => exact sizes_flush L Z hm ((Z.orderly i).call (c := .onUnackedTimeout) rfl fun h => by cases h)

end

end PaneNet
end Ferryx
