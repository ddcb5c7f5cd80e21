import Ferryx.Theorems.LeaseNet
import Ferryx.Theorems.NetLease
import Ferryx.Theorems.NetHosts
import Ferryx.Theorems.NetFrames

/-! What a session does with a request takes the view of every author along a sequence of moves. The request
itself has left its connection by then; `now` and `late` are the requests of its author from before. -/

namespace Ferryx
open Std Lib LeaseView Function List InputLedger

namespace Net
variable {H : Type} [DecidableEq H] {n : Net H} {i j : H} {s e id c : Nat} {loose strand : Prop}
  {l : InputLedger H (TypedByte H)}
variable {fail : Bool} {m : Out (TypedByte H)}

def table (n : Net H) (s : Nat) : LeaseRecord H :=
  ⟨(n.hosts s).holder, (n.hosts s).current, (n.hosts s).lastRequest, (n.hosts s).revokees⟩

theorem leaseView_setHost (n : Net H) (s : Nat) (l : InputLedger H (TypedByte H)) (j : H) : (n.setHost s l).leaseView j =
    (n.leaseView j).under (update n.table s ⟨l.holder, l.current, l.lastRequest, l.revokees⟩) j := by
  have htable : (n.setHost s l).table = update n.table s ⟨l.holder, l.current, l.lastRequest, l.revokees⟩ := by
    funext r
    by_cases hr : r = s
    · subst hr
      rw [update_self, table, setHost_host]
    · have hhost : (n.setHost s l).hosts r = n.hosts r := update_of_ne hr ..
      rw [update_of_ne hr, table, hhost]
      rfl
  rw [← htable]
  rfl

theorem leaseView_reply (n : Net H) (i : H) (m : ToClient) : (n.reply i (n.conn i) m).leaseView i =
    { n.leaseView i with live := (n.leaseView i).live ++ [m] } := by
  have henv : (n.reply i (n.conn i) m).env i = (n.env i).reading ((n.env i).live ++ [m]) := by
    have hcl : (n.reply i (n.conn i) m).toClient i (n.conn i) = n.toClient i (n.conn i) ++ [m] := setAt_self ..
    simp only [env, LeaseEnv.reading, ← hcl]
    rfl
  rw [leaseView, henv]
  rfl

theorem leaseView_reply_of_ne (n : Net H) {i j : H} {c : Nat} (m : ToClient) (h : ¬(j = i ∧ n.conn j = c)) :
    (n.reply i c m).leaseView j = n.leaseView j := by
  have henv : (n.reply i c m).env j = n.env j := by
    have hcl : (n.reply i c m).toClient j (n.conn j) = n.toClient j (n.conn j) := setAt_of_ne _ _ h
    simp only [env, ← hcl]
    rfl
  rw [leaseView, henv]
  rfl

/-- The input network as one of leases. -/
abbrev leaseNet : LeaseNet H (Net H) ToClient where
  view := leaseView
  table := table
  conn := conn
  reply := reply
  message m := m
  under_table _ _ := rfl
  conn_reply _ _ _ _ := rfl
  view_reply := leaseView_reply
  view_reply_of_ne := leaseView_reply_of_ne _

theorem changes_setHost (n : Net H) (s : Nat) (l : InputLedger H (TypedByte H)) :
    leaseNet.Changes n s ⟨l.holder, l.current, l.lastRequest, l.revokees⟩ (n.setHost s l) := ⟨rfl, leaseView_setHost n s l⟩

theorem leaseView_setHost_of_eq (hh : l.holder = (n.hosts s).holder) (hc : l.current = (n.hosts s).current)
    (hl : l.lastRequest = (n.hosts s).lastRequest) (hr : l.revokees = (n.hosts s).revokees) (j : H) :
    (n.setHost s l).leaseView j = n.leaseView j := by
  have h := changes_setHost n s l
  rw [hh, hc, hl, hr] at h
  exact h.view_eq j

theorem leaseView_setHost_self (n : Net H) (s : Nat) (j : H) : (n.setHost s (n.hosts s)).leaseView j = n.leaseView j :=
  leaseView_setHost_of_eq rfl rfl rfl rfl j

theorem changes_noted (n : Net H) (i : H) (s id : Nat) : leaseNet.Changes n s
    { n.table s with lastRequest := update (n.table s).lastRequest i id } (n.noted i s id) :=
  changes_setHost n s { n.hosts s with lastRequest := _ }

theorem leaseView_noted (n : Net H) (i : H) (s id : Nat) : (n.noted i s id).leaseView i = (n.leaseView i).noted s id :=
  (n.changes_noted i s id).view_noted

theorem moves_reply {m : ToClient} (hm : j = i → n.conn i = c → (n.leaseView i).Tells m ∧
    (loose ∨ (n.leaseView i).FirstLoss m)) :
    Moves loose strand (n.leaseView j) ((n.reply i c m).leaseView j) :=
  LeaseNet.moves_reply (N := leaseNet) hm

/-- The ledger after the lease ended and its revokees were told. -/
def vacant (l : InputLedger H (TypedByte H)) : InputLedger H (TypedByte H) := { l.fenceCurrent with revokees := [] }

theorem moves_admitRequest {handle : Net H → Net H} (hh : (n.hosts s).lastRequest i < id →
      Moves loose strand ((n.noted i s id).leaseView j) ((handle (n.noted i s id)).leaseView j)) :
    Moves loose strand (n.leaseView j) ((n.admitRequest i c s id fail handle).leaseView j) := by
  rcases n.admitRequest_cases i c s id fail handle with ⟨-, h⟩ | ⟨hlt, h⟩ <;> rw [h]
  · exact .refl _
  · refine Moves.trans ((n.changes_noted i s id).moves_noted hlt j) ?_
    split
    · exact moves_reply fun _ _ => ⟨trivial, .inr trivial⟩
    · exact hh hlt

theorem moves_handleRelease (I : n.Inv) (hlast : (n.hosts s).lastRequest i = id) (hid : id ≤ (n.leaseView i).nextId)
    (hp : ∀ {p}, (n.leaseView i).pending = some p → p.id = id → p.kind = .release ∧ p.session = s ∧ e = 0)
    (ha : ¬(n.leaseView i).Alive (s, if e = 0 then (n.hosts s).current else e)) (j : H) :
    Moves loose strand (n.leaseView j) ((n.handleRelease i c id s e).leaseView j) := by
  unfold handleRelease
  rcases (n.hosts s).release_cases i e with ⟨hact, hr⟩ | ⟨hact, hr⟩ <;> rw [hr]
  · obtain ⟨hcur, hh⟩ := (I.hosts.books s).active_iff.mp hact
    rw [← hcur] at ha
    exact (changes_setHost n s (vacant (n.hosts s))).moves_vacant_released (g := .vacated s) hlast hid rfl hp rfl hh ha j
  · refine (changes_setHost n s (n.hosts s)).moves_released hlast hid rfl hp (fun he hh => ?_) j
    rw [if_pos he] at hact
    rw [(I.hosts.books s).active_iff.mpr ⟨rfl, hh⟩] at hact
    cases hact

theorem mem_waiting {l : InputLedger H (TypedByte H)} (hh : l.holder = some j) (hj : j ≠ i) : i ∈ l.waiting i := by
  unfold waiting
  split
  · exact mem_append_right _ mem_cons_self
  next h =>
    simp only [hh, Option.any_some, decide_not, Bool.and_eq_true, Bool.not_eq_true', decide_eq_false_iff_not, not_and,
      Bool.not_eq_false, contains_iff_mem] at h
    exact h hj

theorem not_held_of_lookup (I : n.Inv) (hx : (n.hosts s).epochs[e]? = none) : (s, e) ∉ (n.leaseView i).held := by
  rintro ⟨hh, he⟩
  obtain ⟨x, hx', -⟩ := (I.hosts.books s).held hh
  have he : (n.hosts s).current = e := he
  rw [he, hx] at hx'
  cases hx'

theorem moves_handleReclaim (I : n.Inv) (hid : id ≤ (n.leaseView i).nextId)
    (hp : ∀ {p}, (n.leaseView i).pending = some p → p.id = id → p.session = s ∧
      (p.kind = .reclaim e ∧ e ≤ (n.leaseView i).top s ∧ ((s, (n.leaseView i).top s) ∈ (n.leaseView i).held →
        (n.leaseView i).top s = e) ∨ p.kind = .probe ∧ (s, (n.leaseView i).top s) ∉ (n.leaseView i).held)) (j : H) :
    Moves loose strand (n.leaseView j) ((n.handleReclaim i c id s e).leaseView j) := by
  unfold handleReclaim
  rcases (n.hosts s).reclaim_cases i e with ⟨hx, hr⟩ | ⟨x, hx, ⟨hact, hr⟩ | ⟨hact, hr⟩⟩ <;> rw [hr]
  · refine Moves.trans (.of_eq (n.leaseView_setHost_self s j)) (moves_reply fun _ _ => ?_)
    rw [leaseView_setHost_self]
    refine ⟨⟨hid, fun p hp' hpid => ?_⟩, .inr trivial⟩
    obtain ⟨rfl, ⟨hk, hle, -⟩ | ⟨hk, -⟩⟩ := hp hp' hpid
    · exact .inl ⟨e, hk, hle, not_held_of_lookup I hx⟩
    · exact .inr hk
  · obtain ⟨rfl, hh⟩ := (I.hosts.books s).active_iff.mp hact
    exact (changes_setHost n s (n.hosts s)).moves_confirmed hid hp rfl ⟨hh, rfl⟩ rfl j
  · refine (changes_setHost n s { n.hosts s with revokees := (n.hosts s).waiting i }).moves_refused hid hp rfl ?_ ?_ ?_
      mem_waiting j
    · rintro ⟨hh, he⟩
      rw [(I.hosts.books s).active_iff.mpr ⟨he, hh⟩] at hact
      cases hact
    · intro hact'
      refine Option.isSome_iff_exists.mp ?_
      by_contra hnone
      exact hact' (if_neg hnone)
    · intro j hj
      unfold waiting
      split
      · exact mem_append_left _ hj
      · exact hj

theorem moves_handleGet (I : n.Inv) (hle : e ≤ (n.hosts s).current) (j : H) :
    Moves loose strand (n.leaseView j) ((n.handleGet i c id s e fail).leaseView j) := by
  unfold handleGet
  split
  · exact moves_reply fun _ _ => ⟨trivial, .inr trivial⟩
  · unfold epochState
    cases hx : (n.hosts s).epochs[e]? with
    | none => exact moves_reply (m := .epochUnknown s e) fun _ _ => ⟨⟨hle, not_held_of_lookup I hx⟩, .inr trivial⟩
    | some x =>
      refine moves_reply (m := .epoch ..) fun _ _ => ⟨fun hf => ⟨hle, fun hheld => ?_⟩, .inr trivial⟩
      refine ((I.entry hx).2.2.2 hf).2 ⟨?_, hheld.2⟩
      exact Option.isSome_iff_exists.mpr ⟨i, hheld.1⟩

theorem gid_withGrant_self (n : Net H) (s : Nat) (l : InputLedger H (TypedByte H)) (e : Nat) (i : H) (id : Nat) :
    (n.withGrant s l e i id).gid i = update (n.gid i) (s, e) (some id) := by
  funext k
  by_cases hk : k = (s, e)
  · subst hk
    rw [update_self]
    exact gid_eq_some.mpr (withGrant_grant_self n s l e i id)
  · rw [update_of_ne hk]
    simp only [gid, withGrant, withHost, update_of_ne hk]

theorem gid_withGrant_of_ne (hg : n.grant (s, e) = none) (hj : j ≠ i) : (n.withGrant s l e i id).gid j = n.gid j := by
  funext k
  by_cases hk : k = (s, e)
  · subst hk
    simp [gid, withGrant, withHost, hg, hj.symm]
  · simp only [gid, withGrant, withHost, update_of_ne hk]

theorem leaseView_withGrant (n : Net H) (s : Nat) (l : InputLedger H (TypedByte H)) (e : Nat) (i : H) (id : Nat) (j : H) :
    (n.withGrant s l e i id).leaseView j = { n.leaseView j with gid := (n.withGrant s l e i id).gid j }.under
      (update n.table s ⟨l.holder, l.current, l.lastRequest, l.revokees⟩) j := by
  have h : (n.withGrant s l e i id).leaseView j =
      { (n.setHost s l).leaseView j with gid := (n.withGrant s l e i id).gid j } := rfl
  rw [h, leaseView_setHost]
  rfl

theorem moves_handleAcquire (I : n.Inv) (hg : (n.leaseView i).Grants s id
      (if n.conn i = c then [.granted id s ((n.hosts s).current + 1)] else [])) (j : H) :
    Moves loose strand (n.leaseView j) ((n.handleAcquire i c id s).leaseView j) := by
  unfold handleAcquire
  split
  · exact moves_reply fun _ _ => ⟨trivial, .inr trivial⟩
  next l g hacq =>
    obtain ⟨hge, revokees, hl⟩ := acquire_eq hacq
    have hrevoked := acquire_revoked hacq
    have hmem : ∀ {j}, j ≠ i → j ∈ (n.hosts s).revokees → j ∈ (n.hosts s).revokees.filter fun r => r ≠ i :=
      fun hj hjr => mem_filter.mpr ⟨hjr, by simpa using hj⟩
    have hgranted : (n.table s).GrantedTo i ⟨l.holder, l.current, l.lastRequest, l.revokees⟩ := by
      refine ⟨by rw [hl]; rfl, by rw [hl]; rfl, by rw [hl]; rfl, fun {j} hj hjr => ?_⟩
      show j ∈ l.revokees
      rcases hrevoked with ⟨prev, hprev, -, -, hrevs⟩ | ⟨hprev, -, hrevs⟩ <;> rw [hrevs]
      · refine mem_append.mpr (hjr.imp (hmem hj) fun hjh => ?_)
        exact mem_singleton.mpr (Option.some.inj (hjh.symm.trans hprev))
      · exact hmem hj (hjr.resolve_right fun hjh => hj (hprev j hjh))
    have hnone : n.grant (s, (n.hosts s).current + 1) = none := by
      cases hg : n.grant (s, (n.hosts s).current + 1) with
      | none => rfl
      | some g => exact (Nat.not_succ_le_self _ (I.grants.upto hg).2).elim
    have hnew : leaseNet.Granted n s i id ⟨l.holder, l.current, l.lastRequest, l.revokees⟩
        (n.withGrant s l ((n.hosts s).current + 1) i id) := by
      refine ⟨rfl, hgranted, ?_, fun hj => ?_⟩
      · exact (leaseView_withGrant ..).trans (by rw [gid_withGrant_self]; rfl)
      · exact (leaseView_withGrant ..).trans (by rw [gid_withGrant_of_ne hnone hj]; rfl)
    have hn' : { n.setHost s l with grant := update n.grant (s, (n.hosts s).current + 1) (some (i, id)) } =
        n.withGrant s l ((n.hosts s).current + 1) i id := by
      simp [Net.withGrant, Net.withHost, Net.setHost]
    rw [hge, hn']
    rcases hrevoked with ⟨prev, hprev, hne, hrev, -⟩ | ⟨hprev, hrev, -⟩ <;> rw [hrev]
    · exact hnew.moves (m := .granted id s ((n.hosts s).current + 1)) hg rfl (.inl ⟨prev, hprev, hne, rfl, rfl⟩) j
    · exact hnew.moves (m := .granted id s ((n.hosts s).current + 1)) (w := .failed 0) hg rfl (.inr ⟨hprev, rfl⟩) j

section Requests
variable {now late : Set Req}

theorem moves_release (I : n.Inv) (h : Core { n.leaseView i with now := now, late := late })
    (hr : Req.release id s e ∈ now ∪ late) (j : H) : Moves loose strand (n.leaseView j)
      ((n.admitRequest i c s id fail (handleRelease i c id s e)).leaseView j) := by
  refine moves_admitRequest fun hlt => moves_handleRelease (I.noted hlt) ?_ (h.numbers.fly_le hr rfl)
    (fun hp hid => ?_) ?_ j
  · rw [noted_host]
    exact update_self ..
  · obtain ⟨⟨-, hk, hs, he⟩, -⟩ := h.numbers.asks hp hr (congrArg some hid.symm)
    exact ⟨hk, hs.symm, he⟩
  · rw [noted_host]
    exact h.not_alive_of_release hr hlt

theorem moves_reclaim (I : n.Inv) (h : Core { n.leaseView i with now := now, late := late })
    (hr : Req.reclaim id s e ∈ now ∪ late) (j : H) : Moves loose strand (n.leaseView j)
      ((n.admitRequest i c s id fail (handleReclaim i c id s e)).leaseView j) := by
  refine moves_admitRequest fun hlt => moves_handleReclaim (I.noted hlt) (h.numbers.fly_le hr rfl) ?_ j
  rw [leaseView_noted]
  exact h.reclaim_cases hr

theorem calm_pop {rest : List (Out (TypedByte H))} (hc : n.toHost i c = m :: rest) (j : H) :
    Calm (n.leaseView j) (({ n with toHost := setAt n.toHost i c rest } : Net H).leaseView j) := by
  have hsub : ∀ d, requests (setAt n.toHost i c rest j d) ⊆ requests (n.toHost j d) := by
    rintro d r ⟨o, ho, hr⟩
    exact ⟨o, mem_of_mem_setAt hc ho, hr⟩
  refine ⟨rfl, le_rfl, rfl, rfl, rfl, .inr ⟨rfl, rfl⟩, subset_rfl, fun _ hk => hk, rfl, ?_, ?_, rfl,
    fun r => le_rfl, fun r => le_rfl, fun _ => rfl, rfl, rfl, subset_rfl⟩
  · show requests (setAt n.toHost i c rest j (n.conn j) ++ (n.authors j).out) ⊆ requests
      (n.toHost j (n.conn j) ++ (n.authors j).out)
    rw [requests_append, requests_append]
    exact Set.union_subset_union_left _ (hsub _)
  · rintro r ⟨d, hd, hr⟩
    exact ⟨d, hd, hsub d hr⟩

theorem cameFrom_of_head {rest : List (Out (TypedByte H))} (hc : n.toHost i c = m :: rest) {r : Req}
    (hr : m.req? = some r) : CameFrom (n.conn i = c) (n.leaseView i).now (n.leaseView i).late r := by
  refine ⟨fun hci => ?_, fun hci => ⟨c, Ne.symm hci, m, ?_, hr⟩⟩
  · subst hci
    have hm : m ∈ n.toHost i (n.conn i) := hc ▸ mem_cons_self
    exact ⟨m, mem_append_left _ hm, hr⟩
  · rw [hc]
    exact mem_cons_self

end Requests

theorem moves_ptyWrite (I : n.Inv) (s k : Nat) (j : H) :
    Moves loose strand (n.leaseView j) ((n.ptyWrite s k).leaseView j) := by
  cases hq : (n.hosts s).queue with
  | nil =>
    have hhead : (n.hosts s).head = none := by simp [InputLedger.head, hq]
    simp only [Net.ptyWrite, hhead]
    exact .refl _
  | cons it rest =>
    obtain ⟨e, bytes, w, rfl, hw, hmem⟩ := (I.hosts.books s).items it (hq ▸ mem_cons_self)
    obtain ⟨x, hx⟩ := mem_iff_lookup.mp hmem
    have hle : min k (bytes.length - w) ≤ bytes.length - w := Nat.min_le_right _ _
    obtain ⟨hc, hh, hl, hr⟩ := InputLedger.onWritten_frame hq hx hle
    rw [ptyWrite_eq hq hx rfl]
    have hset : Moves loose strand (n.leaseView j) ((n.withHost s ((n.hosts s).onWritten (min k (bytes.length - w))).1
        (n.tap s ++ ((bytes.drop w).take (min k (bytes.length - w))).map fun b => (e, b)) n.grant).leaseView j) :=
      .of_eq (leaseView_setHost_of_eq hh hc hl hr j)
    exact hset.trans (moves_reply fun _ _ => ⟨trivial, .inr trivial⟩)

variable [InputCrc]

theorem moves_handleWrite (I : n.Inv) {attempt start : Nat} {bytes : List (TypedByte H)}
    (hm : Out.write attempt s e start bytes ∈ n.sent i) (hle : e ≤ (n.hosts s).current)
    (hkept : n.conn i = c → loose ∨
      ((n.leaseView i).Alive (s, e) → ¬ToldLost (n.leaseView i).live (s, e) → (s, e) ∈ (n.leaseView i).held))
    (hlate : n.conn i ≠ c → (n.hosts s).active i e = true → start < (n.hosts s).retainedStart →
      loose ∨ ¬(n.leaseView i).Alive (s, e)) (j : H) :
    Moves loose strand (n.leaseView j) ((n.handleWrite i c attempt s e start bytes).leaseView j) := by
  have hbytes : bytes <+: (n.assigned i (s, e)).drop start :=
    (I.author i).holdings.out _ (mem_append_left _ hm)
  have hself : Moves loose strand (n.leaseView j) ((n.setHost s (n.hosts s)).leaseView j) :=
    .of_eq (n.leaseView_setHost_self s j)
  have W := (n.hosts s).write_outcome i e start bytes (inputCrc32c bytes)
  unfold handleWrite
  generalize (n.hosts s).write i e start bytes (inputCrc32c bytes) = r at W ⊢
  obtain ⟨l, out⟩ := r
  cases W with
  | stale fa hact =>
    have hheld : (s, e) ∉ (n.leaseView i).held := fun hk => by
      rw [(I.hosts.books s).active_iff.mpr ⟨hk.2, hk.1⟩] at hact
      cases hact
    refine hself.trans (moves_reply fun _ hc => ?_)
    rw [leaseView_setHost_self]
    refine ⟨⟨hle, hheld⟩, (hkept hc).imp_right fun hk _ ha ht => ?_⟩
    exact (hheld (hk ha ht)).elim
  | refused err herr => rcases herr with rfl | rfl | rfl <;> exact hself
  | gap x hact hx hlt => exact hself.trans (moves_reply fun _ _ => ⟨trivial, .inr trivial⟩)
  | fence x err hact hx hle' herr =>
    obtain ⟨rfl, hh⟩ := (I.hosts.books s).active_iff.mp hact
    obtain ⟨rfl, hstart⟩ := I.overlap_unverifiable hh hx hbytes herr
    have hvacant := changes_setHost n s (vacant (n.hosts s))
    by_cases hj : j = i
    · subst hj
      by_cases hc : n.conn j = c
      · subst hc
        exact hvacant.moves_vacant_told (m := .vacated s) rfl rfl hh
      · refine Moves.trans (hvacant.moves_vacant (m := .vacated s) rfl fun _ => hlate hc hact hstart)
          (moves_reply fun _ hc' => (hc ?_).elim)
        exact (congrFun (LeaseNet.conn_vacate (N := leaseNet) (n.setHost s (vacant (n.hosts s))) _) j).symm.trans hc'
    · refine Moves.trans (hvacant.moves_vacant (m := .vacated s) rfl fun hj' => (hj ?_).elim)
        (moves_reply fun h => (hj h).elim)
      exact Option.some.inj (hj'.symm.trans hh)
  | full x hact hx => exact hself.trans (moves_reply fun _ _ => ⟨trivial, .inr trivial⟩)
  | accept x hact hx hle' hlt =>
    have hacc : Moves loose strand (n.leaseView j) ((n.setHost s ((n.hosts s).accept x e start bytes)).leaseView j) :=
      .of_eq (leaseView_setHost_of_eq (l := (n.hosts s).accept x e start bytes) rfl rfl rfl rfl j)
    exact hacc.trans (moves_reply fun _ _ => ⟨trivial, .inr trivial⟩)
  | again x hact hx hle' => exact hself.trans (moves_reply fun _ _ => ⟨trivial, .inr trivial⟩)

section Deliver
variable {now late : Set Req}

/-- The guard is for a write on a dropped connection to the lease that the author has. -/
theorem moves_write (I : n.Inv) (h : Core { n.leaseView i with now := now, late := late })
    (hk : loose ∨ Kept { n.leaseView i with now := now, late := late }) {attempt start : Nat} {bytes : List (TypedByte H)}
    (hm : Out.write attempt s e start bytes ∈ n.sent i) (hr : CameFrom (n.conn i = c) now late (.write s e))
    (hg : loose ∨ (n.conn i ≠ c → (n.hosts s).active i e = true → start < (n.hosts s).retainedStart →
      (n.authors i).current ≠ some (s, e))) (j : H) :
    Moves loose strand (n.leaseView j) ((n.handleWrite i c attempt s e start bytes).leaseView j) := by
  obtain ⟨halive, hle⟩ := h.of_write hr.mem
  refine moves_handleWrite I hm hle (fun hc => hk.imp_right fun hk ha ht => ?_) (fun hc hact hstart => ?_) j
  · rcases hk.current (halive ha) with hheld | hn | ht'
    · exact hheld
    · exact (h.epochs.silent hn (hr.live hc)).elim
    · exact (ht ht').elim
  · exact hg.imp_right fun hg ha => hg hc hact hstart (halive ha)

theorem moves_hostHandle (now late : Set Req) (I : n.Inv) (h : Core { n.leaseView i with now := now, late := late })
    (hk : loose ∨ Kept { n.leaseView i with now := now, late := late })
    (hm : m ∈ n.sent i) (hr : ∀ {r}, m.req? = some r → CameFrom (n.conn i = c) now late r)
    (hg : loose ∨ ∀ {attempt s e start bytes}, m = .write attempt s e start bytes → n.conn i ≠ c →
      (n.hosts s).active i e = true → start < (n.hosts s).retainedStart → (n.authors i).current ≠ some (s, e)) (j : H) :
    Moves loose strand (n.leaseView j) ((n.hostHandle i c fail m).leaseView j) := by
  cases m with
  | acquire id s =>
    refine moves_admitRequest fun hlt => moves_handleAcquire (I.noted hlt) ?_ j
    rw [leaseView_noted, noted_host]
    exact h.grants_of_acquire (hr rfl) hlt fun hg => I.grants.last (gid_eq_some.mp hg)
  | release id s e => exact moves_release I h (hr rfl).mem j
  | reclaim id s e => exact moves_reclaim I h (hr rfl).mem j
  | write attempt s e start bytes => exact moves_write I h hk hm (hr rfl) (hg.imp_right fun hg => hg rfl) j
  | getEpochState id s e =>
    obtain ⟨gid, hgid⟩ := h.given.query (hr rfl).mem
    exact moves_handleGet I (h.numbers.epoch hgid).2 j
  | classified => exact .refl _

end Deliver

theorem moves_deliverToHost (I : n.Inv) (h : Sound loose strand (n.leaseView i)) {lose fail : Bool}
    (hg : loose ∨ ∀ {attempt s e start bytes}, (n.toHost i c).head? = some (.write attempt s e start bytes) →
      n.conn i ≠ c → lose = false → (n.hosts s).active i e = true → start < (n.hosts s).retainedStart →
      (n.authors i).current ≠ some (s, e)) (j : H) :
        Moves loose strand (n.leaseView j) ((n.deliverToHost i c lose fail).leaseView j) := by
  unfold deliverToHost
  split
  · exact .refl _
  next m rest hc =>
    have I' : Inv { n with toHost := setAt n.toHost i c rest } :=
      I.congr (fun h => mem_of_mem_setAt hc h) fun h => h
    have hpop : Moves loose strand (n.leaseView j) (({ n with toHost := setAt n.toHost i c rest } : Net H).leaseView j) :=
      .move (.calm (calm_pop hc j))
    refine hpop.trans ?_
    dsimp only
    split
    · exact .refl _
    next hlose =>
      have hcame : ∀ {r}, m.req? = some r → CameFrom (n.conn i = c) (n.leaseView i).now (n.leaseView i).late r :=
        cameFrom_of_head hc
      refine moves_hostHandle (n.leaseView i).now (n.leaseView i).late I' h.core h.kept
        (I.toHost (hc ▸ mem_cons_self)) (fun hr => ⟨(hcame hr).live, (hcame hr).dropped⟩) (hg.imp_right fun hg => ?_) j
      rintro attempt s e start bytes rfl hne
      refine hg (by rw [hc]; rfl) hne ?_
      simpa [Ne.symm hne] using hlose

end Net
end Ferryx
