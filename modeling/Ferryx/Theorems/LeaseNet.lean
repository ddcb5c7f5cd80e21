import Ferryx.Theorems.LeaseTable

/-! What the networks have in common, whatever their clients do with a lease: each client has a view of the lease protocol,
and a session that answers a request takes every view along a sequence of moves. -/

namespace Ferryx
open LeaseView Function

namespace LeaseView
variable {v : LeaseView} {s e id : Nat} {p : Pending} {now late : Set Req} {r : Req}

/-- A request that arrived was in flight on the connection that is up, or late. -/
structure CameFrom (up : Prop) (now late : Set Req) (r : Req) : Prop where
  live : up → r ∈ now
  dropped : ¬up → r ∈ late

theorem CameFrom.mem {up : Prop} (h : CameFrom up now late r) : r ∈ now ∪ late := by
  by_cases hl : up
  · exact .inl (h.live hl)
  · exact .inr (h.dropped hl)

section
variable (h : Core { v with now := now, late := late })
include h

theorem Core.not_alive_of_release (hr : Req.release id s e ∈ now ∪ late) (hlt : v.last s < id) :
    ¬v.Alive (s, if e = 0 then v.top s else e) := by
  by_cases he : e = 0
  · subst he
    rw [if_pos rfl]
    rintro (hc | ⟨p, hp, hg⟩)
    · exact Nat.not_le_of_lt hlt (h.holder.settled hc hr .release)
    · obtain ⟨-, rfl⟩ := h.numbers.granted hp hg
      exact Nat.not_le_of_lt hlt ((h.numbers.newest hp hr .release).trans (h.awaited.admitted hp hg))
  · rw [if_neg he]
    obtain ⟨-, hc, hp⟩ := h.given.release hr he
    rintro (hc' | ⟨p, hp', hg⟩)
    · exact hc hc'
    · exact hp hp' hg

theorem Core.reclaim_cases (hr : Req.reclaim id s e ∈ now ∪ late) (hp : v.pending = some p) (hid : p.id = id) :
    p.session = s ∧
      (p.kind = .reclaim e ∧ e ≤ v.top s ∧ ((s, v.top s) ∈ v.held → v.top s = e) ∨ p.kind = .probe ∧
        (s, v.top s) ∉ v.held) := by
  obtain ⟨⟨-, rfl, hk⟩, -⟩ := h.numbers.asks hp hr (congrArg some hid.symm)
  refine ⟨rfl, hk.imp (fun hk => ?_) fun hk => ⟨hk, h.suppress.probe_unheld hp hk⟩⟩
  have hcur := h.epochs.reclaiming hp hk
  obtain ⟨gid, hgid, -⟩ := h.epochs.spent (.inl hcur)
  exact ⟨hk, (h.numbers.epoch hgid).2, h.held_current hcur⟩

theorem Core.of_write (hr : Req.write s e ∈ now ∪ late) : (v.Alive (s, e) → v.current = some (s, e)) ∧ e ≤ v.top s := by
  have hwrite := h.given.write hr
  constructor
  · rintro (hc | ⟨p, hp, hg⟩)
    · exact hc
    · rcases hwrite with hc | ⟨-, -, hn⟩
      · exact hc
      · exact (hn hp hg).elim
  · rcases hwrite with hc | ⟨⟨gid, hgid⟩, -⟩
    · obtain ⟨gid, hgid, -⟩ := h.epochs.spent (.inl hc)
      exact (h.numbers.epoch hgid).2
    · exact (h.numbers.epoch hgid).2

end

def noted (v : LeaseView) (s id : Nat) : LeaseView := { v with last := update v.last s id }

theorem Core.grants_of_acquire {up : Prop} [Decidable up] (h : Core { v with now := now, late := late })
    (hr : CameFrom up now late (.acquire id s)) (hlt : v.last s < id)
    (hlast : ∀ {e id'}, v.gid (s, e) = some id' → id' ≤ v.last s) :
    (v.noted s id).Grants s id (if up then [.granted id s (v.top s + 1)] else []) where
  foreign {k} hk hks := by
    subst hks
    exact Nat.not_le_of_lt hlt (h.holder.settled hk hr.mem .acquire)
  wanted := h.holder.fresh hr.mem hlt
  reaches := by
    split
    · exact .inr rfl
    · exact .inl rfl
  newest hp := h.numbers.newest hp hr.mem .acquire
  mine {p} hp hid := by
    obtain ⟨⟨-, hk, hs⟩, hnl⟩ := h.numbers.asks hp hr.mem (congrArg some hid.symm)
    rw [if_pos (not_not.mp fun hl => hnl (hr.dropped hl))]
    obtain ⟨pid, kind, ps⟩ := p
    cases hid
    cases hk
    cases hs
    exact ⟨rfl, rfl⟩
  later hg := (hlast hg).trans_lt hlt
  sent := h.numbers.fly_le hr.mem rfl
  admitted := update_self ..
  unsuppressed hsup hs := by
    have hs : v.session = s := hs
    subst hs
    exact Nat.not_le_of_lt hlt (h.suppress.stale hsup hr.mem)
  unprobed hp hk hs := by
    subst hs
    exact Nat.not_le_of_lt hlt (h.suppress.probe_stale hp hk hr.mem)

end LeaseView

/-- A kind of network: what its clients see, what its sessions record, and how a session answers. -/
structure LeaseNet (H M μ : Type) where
  view : M → H → LeaseView
  table : M → Nat → LeaseRecord H
  conn : M → H → Nat
  reply : M → H → Nat → μ → M
  message : μ → ToClient
  under_table : ∀ n j, (view n j).under (table n) j = view n j
  conn_reply : ∀ n i c m, conn (reply n i c m) = conn n
  view_reply : ∀ n i m, view (reply n i (conn n i) m) i = { view n i with live := (view n i).live ++ [message m] }
  view_reply_of_ne : ∀ {n i j c} m, ¬(j = i ∧ conn n j = c) → view (reply n i c m) j = view n j

namespace LeaseNet
variable {H M μ : Type} {N : LeaseNet H M μ} {n n' : M} {i j : H} {s e id c : Nat} {loose strand : Prop}
  {r : LeaseRecord H} {m : μ}

theorem moves_reply (hm : j = i → N.conn n i = c → (N.view n i).Tells (N.message m) ∧
    (loose ∨ (N.view n i).FirstLoss (N.message m))) :
    Moves loose strand (N.view n j) (N.view (N.reply n i c m) j) := by
  by_cases h : j = i ∧ N.conn n j = c
  · obtain ⟨rfl, rfl⟩ := h
    obtain ⟨ht, hf⟩ := hm rfl rfl
    rw [N.view_reply]
    exact .move (.tell ht hf)
  · exact .of_eq (N.view_reply_of_ne m h)

/-- Session `s` has the record `r` in `n'`, and nothing else is different from `n`. -/
structure Changes (N : LeaseNet H M μ) (n : M) (s : Nat) (r : LeaseRecord H) (n' : M) : Prop where
  conn : N.conn n' = N.conn n
  view : ∀ j, N.view n' j = (N.view n j).under (update (N.table n) s r) j

namespace Changes

theorem view_eq (h : N.Changes n s (N.table n s) n') (j : H) : N.view n' j = N.view n j := by
  rw [h.view, under_update_self, N.under_table]

theorem calm (h : N.Changes n s r n') (hh : r.holder = (N.table n s).holder) (he : r.epoch = (N.table n s).epoch)
    (hl : (N.table n s).lastRequest j ≤ r.lastRequest j) (hr : j ∈ (N.table n s).revokees → j ∈ r.revokees) :
    Calm (N.view n j) (N.view n' j) := by
  have hcalm := calm_under (v := N.view n j) (t := N.table n) hh he hl hr
  rwa [N.under_table, ← h.view] at hcalm

variable [DecidableEq H]

section
variable (h : N.Changes n s { N.table n s with lastRequest := update (N.table n s).lastRequest i id } n')
include h

theorem moves_noted (hlt : (N.table n s).lastRequest i < id) (j : H) : Moves loose strand (N.view n j) (N.view n' j) := by
  refine .move (.calm (h.calm rfl rfl ?_ fun hj => hj))
  simp only [update_apply]
  split
  next hj => exact hj ▸ hlt.le
  · exact le_rfl

theorem view_noted : N.view n' i = (N.view n i).noted s id := by
  rw [h.view, ← N.under_table n i]
  simp only [under, noted]
  congr 1
  · funext q
    by_cases hq : q = s
    · subst hq
      simp
    · simp [hq]
  · exact field_update LeaseRecord.epoch rfl
  · ext k
    by_cases hk : k.1 = s
    · simp [hk]
    · simp [hk]
  · ext q
    by_cases hq : q = s
    · simp [hq]
    · simp [hq]

end

end Changes

variable [DecidableEq H]

/-- The revokees are told that the session is vacant. -/
def vacate (N : LeaseNet H M μ) (m : μ) (n : M) (hs : List H) : M := hs.foldl (fun n h => N.reply n h (N.conn n h) m) n

omit [DecidableEq H] in
theorem conn_vacate (n : M) (hs : List H) : N.conn (N.vacate m n hs) = N.conn n := by
  induction hs generalizing n with
  | nil => rfl
  | cons h hs ih => exact (ih _).trans (N.conn_reply ..)

theorem view_vacate (hm : N.message m = .vacated s) (n : M) (hs : List H) (j : H) : N.view (N.vacate m n hs) j =
    { N.view n j with live := (N.view n j).live ++ (hs.filter fun h => h = j).map fun _ => ToClient.vacated s } := by
  induction hs generalizing n with
  | nil => simp [vacate]
  | cons h hs ih =>
    rw [vacate, List.foldl_cons]
    refine (ih _).trans ?_
    by_cases hj : h = j
    · subst hj
      rw [N.view_reply, hm]
      simp
    · rw [N.view_reply_of_ne m fun h => hj h.1.symm]
      simp [hj]

section
variable (h : N.Changes n s (N.table n s).vacant n') (hm : N.message m = .vacated s)
include h hm

theorem Changes.view_vacant (j : H) : N.view (N.vacate m n' (N.table n s).revokees) j = { N.view n j with
        live := (N.view n j).live ++ ((N.table n s).revokees.filter fun h => h = j).map fun _ => ToClient.vacated s }.under
        (update (N.table n) s (N.table n s).vacant) j := by
  rw [N.view_vacate hm, h.view]
  rfl

theorem Changes.moves_vacant (ha : (N.table n s).holder = some j → loose ∨ ¬(N.view n j).Alive (s, (N.table n s).epoch)) :
    Moves loose strand (N.view n j) (N.view (N.vacate m n' (N.table n s).revokees) j) := by
  rw [h.view_vacant hm, ← N.under_table n j]
  exact LeaseView.moves_vacant (by rwa [N.under_table])

theorem Changes.moves_vacant_told {lost : μ} (hl : N.message lost = .lost s (N.table n s).epoch 0)
    (hh : (N.table n s).holder = some i) :
    Moves loose strand (N.view n i) (N.view (N.reply (N.vacate m n' (N.table n s).revokees) i (N.conn n i) lost) i) := by
  rw [← h.conn, ← N.conn_vacate n' (N.table n s).revokees, N.view_reply, h.view_vacant hm, hl, ← N.under_table n i]
  exact LeaseView.moves_vacant_told hh

end

section Answers
variable (hlast : (N.table n s).lastRequest i = id) (hid : id ≤ (N.view n i).nextId)
include hid

section Released
variable {g : μ} (hm : N.message m = .released id)
  (hp : ∀ {p}, (N.view n i).pending = some p → p.id = id → p.kind = .release ∧ p.session = s ∧ e = 0)
include hlast hm hp

omit [DecidableEq H] in
theorem Changes.moves_released (h : N.Changes n s (N.table n s) n') (hh : e = 0 → (N.table n s).holder ≠ some i) (j : H) :
    Moves loose strand (N.view n j) (N.view (N.reply n' i c m) j) := by
  refine Moves.trans (.of_eq (h.view_eq j)) (moves_reply fun _ _ => ?_)
  rw [h.view_eq, hm]
  refine ⟨⟨hid, fun p hp' hpid => ?_⟩, .inr trivial⟩
  obtain ⟨hk, rfl, rfl⟩ := hp hp' hpid
  rw [← N.under_table n i]
  exact ⟨hk, hlast.ge, fun e' he' => hh rfl he'.1⟩

theorem Changes.moves_vacant_released (h : N.Changes n s (N.table n s).vacant n') (hg : N.message g = .vacated s)
    (hh : (N.table n s).holder = some i) (ha : ¬(N.view n i).Alive (s, (N.table n s).epoch)) (j : H) :
    Moves loose strand (N.view n j) (N.view (N.reply (N.vacate g n' (N.table n s).revokees) i c m) j) := by
  refine Moves.trans (h.moves_vacant hg fun hj => .inr ?_) (moves_reply fun _ _ => ?_)
  · obtain rfl := Option.some.inj (hj.symm.trans hh)
    exact ha
  · rw [h.view_vacant hg, hm]
    refine ⟨⟨hid, fun p hp' hpid => ?_⟩, .inr trivial⟩
    obtain ⟨hk, rfl, rfl⟩ := hp hp' hpid
    refine ⟨hk, ?_, ?_⟩
    · simp [under, LeaseRecord.vacant, hlast]
    · simp [under, LeaseRecord.vacant]

end Released

section Reclaimed
variable (hp : ∀ {p}, (N.view n i).pending = some p → p.id = id → p.session = s ∧
    (p.kind = .reclaim e ∧ e ≤ (N.view n i).top s ∧ ((s, (N.view n i).top s) ∈ (N.view n i).held → (N.view n i).top s = e) ∨
      p.kind = .probe ∧ (s, (N.view n i).top s) ∉ (N.view n i).held))
include hp

variable {a b : Nat} {f : Option (Nat × Nat × Nat)}

omit [DecidableEq H] in
theorem Changes.moves_confirmed (h : N.Changes n s (N.table n s) n')
    (hm : N.message m = .reclaimed id true e a b f) (hh : (s, e) ∈ (N.view n i).held)
    (he : (N.view n i).top s = e) (j : H) : Moves loose strand (N.view n j) (N.view (N.reply n' i c m) j) := by
  refine Moves.trans (.of_eq (h.view_eq j)) (moves_reply fun _ _ => ?_)
  rw [h.view_eq, hm]
  refine ⟨⟨hid, fun p hp' hpid => ?_⟩, .inr trivial⟩
  obtain ⟨rfl, ⟨hk, -⟩ | ⟨-, hne⟩⟩ := hp hp' hpid
  · exact .inl ⟨e, hk, .inl ⟨rfl, rfl, hh⟩⟩
  · exact (hne (he ▸ hh)).elim

omit [DecidableEq H] in
theorem Changes.moves_refused {revokees : List H} {active : Nat}
    (h : N.Changes n s { N.table n s with revokees := revokees } n')
    (hm : N.message m = .reclaimed id false active a b f)
    (hne : (s, e) ∉ (N.view n i).held) (hact : active ≠ 0 → ∃ j, (N.table n s).holder = some j)
    (hold : ∀ {j}, j ∈ (N.table n s).revokees → j ∈ revokees)
    (hnew : ∀ {j}, (N.table n s).holder = some j → j ≠ i → i ∈ revokees) (j : H) :
    Moves loose strand (N.view n j) (N.view (N.reply n' i c m) j) := by
  have hcalm : ∀ j, Calm (N.view n j) (N.view n' j) := fun j => h.calm rfl rfl le_rfl hold
  have hblocked : (s, (N.view n i).top s) ∉ (N.view n i).held → active ≠ 0 → s ∈ (N.view n' i).blocked := by
    intro hnot ha
    obtain ⟨j', hj'⟩ := hact ha
    have hne' : j' ≠ i := by
      rintro rfl
      rw [← N.under_table n j'] at hnot
      exact hnot ⟨hj', rfl⟩
    rw [h.view]
    refine ⟨j', hne', ?_⟩
    rw [update_self]
    exact ⟨hj', hnew hj' hne'⟩
  refine Moves.trans (.move (.calm (hcalm j))) (moves_reply fun _ _ => ?_)
  rw [hm]
  refine ⟨⟨hid.trans (hcalm i).nextId, fun p hp' hpid => ?_⟩, .inr trivial⟩
  rw [(hcalm i).pending] at hp'
  obtain ⟨rfl, ⟨hk, hle, hcur⟩ | ⟨hk, hnot⟩⟩ := hp hp' hpid
  · refine .inl ⟨e, hk, .inr ⟨rfl, ⟨hle.trans ((hcalm i).top _), ?_⟩, hblocked fun hheld => hne (hcur hheld ▸ hheld)⟩⟩
    rwa [(hcalm i).held]
  · exact .inr ⟨hk, hblocked hnot⟩

end Reclaimed
end Answers

/-- A network in which a session was granted to `i`. -/
structure Granted (N : LeaseNet H M μ) (n : M) (s : Nat) (i : H) (id : Nat) (r : LeaseRecord H) (n' : M) : Prop where
  conn : N.conn n' = N.conn n
  record : (N.table n s).GrantedTo i r
  view : N.view n' i = { N.view n i with gid := update (N.view n i).gid (s, (N.table n s).epoch + 1) (some id) }.under
    (update (N.table n) s r) i
  view_of_ne : ∀ {j}, j ≠ i → N.view n' j = (N.view n j).under (update (N.table n) s r) j

theorem Granted.moves {w : μ} {n₁ : M} (h : N.Granted n s i id r n')
    (hg : (N.view n i).Grants s id (if N.conn n i = c then [.granted id s ((N.table n s).epoch + 1)] else []))
    (hm : N.message m = .granted id s ((N.table n s).epoch + 1))
      (hrevoked : (∃ prev, (N.table n s).holder = some prev ∧ prev ≠ i ∧
        n₁ = N.reply n' prev (N.conn n' prev) w ∧ N.message w = .lost s (N.table n s).epoch ((N.table n s).epoch + 1)) ∨
      (∀ j, (N.table n s).holder = some j → j = i) ∧ n₁ = n') (j : H) :
        Moves loose strand (N.view n j) (N.view (N.reply n₁ i c m) j) := by
  have hview : N.view n' i = (N.view n i).grantTo s id [] ((N.view n i).blocked \ {s}) := by
    rw [h.view, under_granted h.record, N.under_table]
  have hconn : N.conn n₁ = N.conn n := by
    rcases hrevoked with ⟨prev, -, -, rfl, -⟩ | ⟨-, rfl⟩
    · rw [N.conn_reply, h.conn]
    · exact h.conn
  by_cases hj : j = i
  · subst hj
    have h₁ : N.view n₁ j = N.view n' j := by
      rcases hrevoked with ⟨prev, -, hne, rfl, -⟩ | ⟨-, rfl⟩
      · exact N.view_reply_of_ne w fun h => hne h.1.symm
      · rfl
    refine Moves.trans (.move (.grant hg subset_rfl)) (.of_eq ?_)
    by_cases hc : N.conn n j = c
    · subst hc
      rw [if_pos rfl, ← congrFun hconn j, N.view_reply, h₁, hview, hm]
      simp [grantTo]
    · rw [if_neg hc, N.view_reply_of_ne _ fun h => hc ((congrFun hconn j).symm.trans h.2), h₁, hview]
  · rw [N.view_reply_of_ne _ fun h => hj h.1]
    have hcalm : (N.table n s).holder ≠ some j → Moves loose strand (N.view n j) (N.view n' j) := by
      intro hold
      rw [h.view_of_ne hj]
      exact Moves.trans (.of_eq (N.under_table n j)) (.move (.calm (calm_granted h.record hold hj)))
    rcases hrevoked with ⟨prev, hprev, hne, rfl, hm'⟩ | ⟨hprev, rfl⟩
    · by_cases hjp : j = prev
      · subst hjp
        rw [N.view_reply, h.view_of_ne hj, under_revoked h.record hprev hne, hm']
        exact Moves.trans (.of_eq (N.under_table n j)) (.move (.revoke (k := (s, (N.table n s).epoch)) ⟨hprev, rfl⟩))
      · rw [N.view_reply_of_ne _ fun h => hjp h.1]
        exact hcalm fun h => hjp (Option.some.inj (h.symm.trans hprev))
    · exact hcalm fun h => hj (hprev j h)

end LeaseNet
end Ferryx
