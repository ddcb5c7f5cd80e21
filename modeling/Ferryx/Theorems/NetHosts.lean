import Ferryx.Theorems.NetBooks

/-! # The books are kept by every operation of a session -/

namespace Ferryx
open Std Lib Function List Option InputLedger

namespace Net
variable {H : Type} {n : Net H} {s : Nat} {l : InputLedger H (TypedByte H)}
  {tap : List (Nat × TypedByte H)} {grant : EpochKey → Option (H × Nat)}
variable {i : H} {bytes : List (TypedByte H)} {x : EpochLedger H} {c id s e : Nat} {fail : Bool} {start : Nat}

def withHost (n : Net H) (s : Nat) (l : InputLedger H (TypedByte H)) (tap : List (Nat × TypedByte H))
    (grant : EpochKey → Option (H × Nat)) : Net H :=
  { n.setHost s l with tap := update n.tap s tap, grant }

theorem withHost_log (n : Net H) (s : Nat) (l : InputLedger H (TypedByte H)) (tap : List (Nat × TypedByte H))
    (grant : EpochKey → Option (H × Nat)) (r : Nat) : (n.withHost s l tap grant).log r = if r = s then l.log tap
      else n.log r := by
  by_cases hr : r = s
  · subst hr
    simp [log, withHost, setHost]
  · simp [log, withHost, setHost, hr]

theorem bytesOf_withHost (k : EpochKey) : (n.withHost s l tap grant).bytesOf k =
    if k.1 = s then entriesAt k.2 (l.log tap) else n.bytesOf k := by
  rw [bytesOf, withHost_log]
  split <;> rfl

theorem HostsOk.withHost (h : n.HostsOk) (B : l.Books tap) (G : (n.hosts s).Grows l (n.tap s) tap) :
    (n.withHost s l tap grant).HostsOk where
  books r := by
    by_cases hr : r = s
    · subst hr
      simpa [Net.withHost, setHost] using B
    · simpa [Net.withHost, setHost, hr] using h.books r
  counter := by
    rintro ⟨r, e⟩
    rw [bytesOf_withHost]
    by_cases hr : r = s
    · subst hr
      simp only [Net.withHost, setHost, if_true]
      cases hx : l.epochs[e]? with
      | some x => simpa using (B.entry hx).accepted
      | none =>
        have hmem : e ∉ l.epochs := fun hmem => by
          rw [← ExtTreeMap.isSome_getElem?_iff_mem, hx] at hmem
          cases hmem
        simp only [map_none, getD_none, h.counter, G.pruned e hmem]
        rfl
    · simpa [Net.withHost, setHost, hr] using h.counter (r, e)

theorem view_le_withHost (h : n.HostsOk) (B : l.Books tap) (G : (n.hosts s).Grows l (n.tap s) tap) :
    n.view.Le (n.withHost s l tap grant).view := by
  have hacc : ∀ k, (n.withHost s l tap grant).counter k = ((n.withHost s l tap grant).bytesOf k).length :=
    (HostsOk.withHost h B G).counter
  refine ⟨fun ⟨r, e⟩ => ?_, fun ⟨r, e⟩ => ?_, fun {k} hk => ?_⟩
  · show n.counter _ ≤ (n.withHost s l tap grant).counter _
    rw [hacc, h.counter, bytesOf_withHost]
    split
    next hr =>
      dsimp only at hr
      subst hr
      exact (G.accepts e).length_le
    · exact le_rfl
  · by_cases hr : r = s
    · subst hr
      have : entriesAt e (n.tap r) <+: entriesAt e tap := entriesAt_mono G.taken e
      simpa [view, Net.withHost] using this.length_le
    · simp [view, Net.withHost, hr]
  · obtain ⟨r, e⟩ := k
    have hk' : (n.hosts r).Closed e := hk
    show ((n.withHost s l tap grant).hosts r).Closed e ∧ (n.withHost s l tap grant).counter _ = n.counter _
    rw [hacc, h.counter, bytesOf_withHost]
    by_cases hr : r = s
    · subst hr
      refine ⟨by simpa [Net.withHost, setHost] using G.closed hk', ?_⟩
      rw [if_pos rfl, G.idle e hk'.2]
      rfl
    · refine ⟨by simpa [Net.withHost, setHost, hr] using hk', ?_⟩
      rw [if_neg hr]

theorem setHost_host (n : Net H) (s : Nat) (l : InputLedger H (TypedByte H)) : (n.setHost s l).hosts s = l := by
  simp [Net.setHost]

theorem withHost_self (n : Net H) (s : Nat) (l : InputLedger H (TypedByte H)) :
    n.withHost s l (n.tap s) n.grant = n.setHost s l := by
  simp [Net.withHost, setHost]

def withGrant (n : Net H) (s : Nat) (l : InputLedger H (TypedByte H)) (e : Nat) (i : H) (id : Nat) : Net H :=
  n.withHost s l (n.tap s) (update n.grant (s, e) (some (i, id)))

theorem withGrant_host (n : Net H) (s : Nat) (l : InputLedger H (TypedByte H)) (e : Nat) (i : H) (id r : Nat) :
    (n.withGrant s l e i id).hosts r = if r = s then l else n.hosts r := by
  by_cases hr : r = s <;> simp [withGrant, Net.withHost, Net.setHost, hr]

theorem withGrant_grant_self (n : Net H) (s : Nat) (l : InputLedger H (TypedByte H)) (e : Nat) (i : H) (id : Nat) :
    (n.withGrant s l e i id).grant (s, e) = some (i, id) :=
  update_self ..

variable {s e id c : Nat}

theorem withGrant_grant {k : EpochKey} {g : H × Nat}
    (h : (n.withGrant s l e i id).grant k = some g) : k = (s, e) ∧ g = (i, id) ∨ k ≠ (s, e) ∧ n.grant k = some g := by
  by_cases hk : k = (s, e)
  · subst hk
    rw [withGrant_grant_self] at h
    exact .inl ⟨rfl, (some.inj h).symm⟩
  · exact .inr ⟨hk, (update_of_ne hk _ n.grant).symm.trans h⟩

variable [DecidableEq H]

theorem Inv.withHost (I : n.Inv) (B : l.Books tap) (G : (n.hosts s).Grows l (n.tap s) tap)
    (hgrants : (n.withHost s l tap grant).GrantsOk) (hstreams : (n.withHost s l tap grant).StreamsOk)
    (hgrant : ∀ {k g}, n.grant k = some g → grant k = some g) : (n.withHost s l tap grant).Inv := by
  have hle : n.view.Le (n.withHost s l tap grant).view := view_le_withHost I.hosts B G
  have hgid : ∀ {i k id}, n.gid i k = some id → (n.withHost s l tap grant).gid i k = some id :=
    fun h => gid_eq_some.mpr (hgrant (gid_eq_some.mp h))
  exact {
    hosts := I.hosts.withHost B G
    grants := hgrants
    streams := hstreams
    author := fun i => by
      have A := I.author i
      exact ⟨A.out, A.holdings.mono hle, A.ids.mono hgid, A.typing⟩
    toHost := I.toHost
    toClient := fun hm => (I.toClient hm).mono hle hgrant (List.Subset.refl _) }

theorem Inv.steady (I : n.Inv) (B : l.Books tap) (G : (n.hosts s).Grows l (n.tap s) tap)
    (hcur : l.current = (n.hosts s).current) (hh : l.holder = none ∨ l.holder = (n.hosts s).holder)
    (hlast : ∀ i, (n.hosts s).lastRequest i ≤ l.lastRequest i) (hS : ∀ {i}, (n.hosts s).holder = some i →
      entriesAt (n.hosts s).current (l.log tap) <+: n.assigned i (s, (n.hosts s).current)) :
        (n.withHost s l tap n.grant).Inv := by
  have hhost : ∀ r, (n.withHost s l tap n.grant).hosts r = if r = s then l else n.hosts r := by
    intro r
    by_cases hr : r = s <;> simp [Net.withHost, setHost, hr]
  have hcurrent : ∀ r, ((n.withHost s l tap n.grant).hosts r).current = (n.hosts r).current := by
    intro r
    rw [hhost]
    split
    next hr => rw [hr, hcur]
    · rfl
  refine I.withHost B G ⟨fun {r e g} hg => ?_, fun {r i} hi => ?_, fun {r e i id} hg => ?_, I.grants.order⟩
    ⟨fun {k i id} hg => ?_, fun {k} hg => ?_⟩ fun h => h
  · rw [hcurrent]
    exact I.grants.upto hg
  · rw [hcurrent]
    refine I.grants.held (i := i) ?_
    rw [hhost] at hi
    split at hi
    next hr =>
      rcases hh with hh | hh
      · rw [hh] at hi
        cases hi
      · rwa [hr, ← hh]
    · exact hi
  · refine (I.grants.last hg).trans ?_
    rw [hhost]
    split
    next hr => exact hr ▸ hlast i
    · exact le_rfl
  · rw [bytesOf_withHost]
    split
    next hr =>
      obtain ⟨r, e⟩ := k
      dsimp only at hr
      subst hr
      by_cases hact : (n.hosts r).Active e
      · obtain ⟨hsome, rfl⟩ := hact
        obtain ⟨j, hj⟩ := isSome_iff_exists.mp hsome
        obtain ⟨id', hid'⟩ := I.grants.held hj
        have hg' : n.grant (r, (n.hosts r).current) = some (i, id) := hg
        obtain ⟨rfl, -⟩ := Prod.mk.inj (some.inj (hid'.symm.trans hg'))
        exact hS hj
      · rw [G.idle e hact]
        exact I.streams.granted hg
    · exact I.streams.granted hg
  · rw [bytesOf_withHost]
    split
    next hr =>
      obtain ⟨r, e⟩ := k
      dsimp only at hr
      subst hr
      have hg' : n.grant (r, e) = none := hg
      by_cases hact : (n.hosts r).Active e
      · obtain ⟨hsome, rfl⟩ := hact
        obtain ⟨j, hj⟩ := isSome_iff_exists.mp hsome
        obtain ⟨id', hid'⟩ := I.grants.held hj
        rw [hg'] at hid'
        cases hid'
      · rw [G.idle e hact]
        exact I.streams.free hg'
    · exact I.streams.free hg

theorem Inv.setHost (I : n.Inv) (B : l.Books (n.tap s)) (h : (n.hosts s).Steady l) : (n.setHost s l).Inv := by
  rw [← withHost_self]
  refine I.steady B h.grows h.current h.holder h.lastRequest fun {i} hi => ?_
  obtain ⟨id, hid⟩ := I.grants.held hi
  rw [log_of_queue h.queue]
  exact I.streams.granted hid

theorem Inv.reply (I : n.Inv) {m : ToClient} (hm : MsgOk n.view n.grant i (n.sent i) m) : (n.reply i c m).Inv where
  hosts := ⟨I.hosts.books, I.hosts.counter⟩
  grants := ⟨I.grants.upto, I.grants.held, I.grants.last, I.grants.order⟩
  streams := ⟨I.streams.granted, I.streams.free⟩
  author i := ⟨(I.author i).out, (I.author i).holdings, (I.author i).ids, (I.author i).typing⟩
  toHost := I.toHost
  toClient {j d m'} hm' := by
    rcases mem_enqueue.mp hm' with hold | ⟨⟨rfl, -⟩, hnew⟩
    · exact I.toClient hold
    · obtain rfl := mem_singleton.mp hnew
      exact hm

theorem Inv.vacate (I : n.Inv) (s : Nat) (revokees : List H) : (n.vacate s revokees).Inv := by
  unfold Net.vacate
  induction revokees generalizing n with
  | nil => exact I
  | cons h hs ih => exact ih (I.reply trivial)

def noted (n : Net H) (i : H) (s id : Nat) : Net H :=
  n.setHost s { n.hosts s with lastRequest := update (n.hosts s).lastRequest i id }

theorem admitRequest_cases (n : Net H) (i : H) (c s id : Nat) (fail : Bool) (handle : Net H → Net H) :
    (id ≤ (n.hosts s).lastRequest i ∧ n.admitRequest i c s id fail handle = n) ∨
      (n.hosts s).lastRequest i < id ∧ n.admitRequest i c s id fail handle =
        if fail then (n.noted i s id).reply i c (.failed id) else handle (n.noted i s id) := by
  unfold Net.admitRequest
  rcases (n.hosts s).fresh_cases i id with ⟨hle, h⟩ | ⟨hlt, h⟩
  · exact .inl ⟨hle, by rw [h]⟩
  · exact .inr ⟨hlt, by rw [h]; rfl⟩

theorem Inv.noted (I : n.Inv) (hlt : (n.hosts s).lastRequest i < id) : (n.noted i s id).Inv := by
  refine I.setHost ((I.hosts.books s).congr rfl rfl rfl rfl rfl rfl) ⟨rfl, rfl, .inr rfl, fun j => ?_⟩
  by_cases hj : j = i
  · subst hj
    simpa using hlt.le
  · simp [update_of_ne hj]

theorem Inv.admitRequest (I : n.Inv) {handle : Net H → Net H}
    (hh : (n.hosts s).lastRequest i < id → (n.noted i s id).Inv → (handle (n.noted i s id)).Inv) :
    (n.admitRequest i c s id fail handle).Inv := by
  rcases n.admitRequest_cases i c s id fail handle with ⟨-, h⟩ | ⟨hlt, h⟩ <;> rw [h]
  · exact I
  · split
    · exact (I.noted hlt).reply trivial
    · exact hh hlt (I.noted hlt)

theorem noted_host (n : Net H) (i : H) (s id : Nat) : (n.noted i s id).hosts s =
    { n.hosts s with lastRequest := update (n.hosts s).lastRequest i id } := by
  simp [Net.noted, Net.setHost]

section
variable (I : n.Inv)
include I

theorem Inv.handleRelease : (n.handleRelease i c id s e).Inv :=
  ((I.setHost (books_release (I.hosts.books s) i e) (steady_release i e)).vacate s _).reply
    trivial

theorem Inv.entry {e : Nat} (hx : (n.hosts s).epochs[e]? = some x) :
    x.accepted = n.view.accepted (s, e) ∧ x.committed = n.view.committed (s, e) ∧ x.pendingDropped = 0 ∧
      (x.fenced = true → n.view.Closed (s, e)) := by
  have E := (I.hosts.books s).entry hx
  refine ⟨E.accepted.trans (I.hosts.counter (s, e)).symm, E.committed, E.dropped, fun hf => ⟨E.le, fun hact => ?_⟩⟩
  have hact : (n.hosts s).Active e := hact
  obtain ⟨hsome, rfl⟩ := hact
  obtain ⟨j, hj⟩ := isSome_iff_exists.mp hsome
  obtain ⟨y, hy, -, hy'⟩ := (I.hosts.books s).held hj
  obtain rfl := some.inj (hx.symm.trans hy)
  rw [hf] at hy'
  cases hy'

theorem Inv.finalsOk {e : Nat} (hx : (n.hosts s).epochs[e]? = some x)
    (hcl : n.view.Closed (s, e)) : FinalsOk n.view (s, e) (some (x.accepted, x.committed, x.pendingDropped)) := by
  intro fa cm pd h
  cases h
  obtain ⟨ha, hc, hd, -⟩ := I.entry hx
  exact ⟨hcl, ha, hc.le, hd⟩

theorem Inv.handleReclaim (hm : Out.reclaim id s e ∈ n.sent i) : (n.handleReclaim i c id s e).Inv := by
  have I' := I.setHost (books_reclaim (I.hosts.books s) i e) (steady_reclaim i e)
  have hle : n.view.Le (n.setHost s ((n.hosts s).reclaim i e).1).view := by
    rw [← withHost_self]
    exact view_le_withHost I.hosts (books_reclaim (I.hosts.books s) i e) (steady_reclaim i e).grows
  refine I'.reply (MsgOk.mono (?_ : MsgOk n.view n.grant i (n.sent i) _) hle (fun h => h) (List.Subset.refl _))
  rcases (n.hosts s).reclaim_cases i e with ⟨-, h⟩ | ⟨x, hx, ⟨-, h⟩ | ⟨hact, h⟩⟩ <;> rw [h]
  · trivial
  · obtain ⟨ha, hc, -⟩ := I.entry hx
    exact ⟨s, e, hm, fun _ => ⟨ha.le, hc.le⟩, .inl fun _ _ _ h => by cases h⟩
  · refine ⟨s, e, hm, fun h => (by cases h), ?_⟩
    by_cases hA : (n.hosts s).Active e
    · obtain ⟨hsome, rfl⟩ := hA
      obtain ⟨j, hj⟩ := isSome_iff_exists.mp hsome
      obtain ⟨id', hid'⟩ := I.grants.held hj
      refine .inr ⟨j, id', hid', ?_⟩
      rintro rfl
      rw [(I.hosts.books s).active_iff.mpr ⟨rfl, hj⟩] at hact
      cases hact
    · exact .inl (I.finalsOk hx ⟨((I.hosts.books s).entry hx).le, hA⟩)

theorem Inv.handleGet : (n.handleGet i c id s e fail).Inv := by
  unfold Net.handleGet
  split
  · exact I.reply trivial
  · refine I.reply ?_
    unfold epochState
    cases hx : (n.hosts s).epochs[e]? with
    | none => trivial
    | some x => exact fun hf => I.finalsOk hx ((I.entry hx).2.2.2 hf)

theorem Inv.withGrant {id : Nat} {g : Granted H} (hacq : (n.hosts s).acquire i = some (l, g))
    (hlast : (n.hosts s).lastRequest i = id) (hnew : ∀ {e id'}, n.grant (s, e) = some (i, id') → id' < id) :
    (n.withGrant s l g.epoch i id).Inv := by
  obtain ⟨hge, revokees, hl⟩ := acquire_eq hacq
  have hcur : l.current = g.epoch := by rw [hl, hge]; rfl
  have hlastl : l.lastRequest = (n.hosts s).lastRequest := by rw [hl]; rfl
  have hupto : ∀ {e x}, n.grant (s, e) = some x → e < g.epoch := fun h => by
    have := (I.grants.upto h).2
    omega
  have hbytes : ∀ k, (n.withGrant s l g.epoch i id).bytesOf k = n.bytesOf k := by
    intro k
    have hq : l.queue = (n.hosts s).queue := by rw [hl]; rfl
    rw [Net.withGrant, bytesOf_withHost]
    split
    next hk => rw [log_of_queue hq, bytesOf, log, hk]
    · rfl
  refine I.withHost (books_acquire (I.hosts.books s) hacq) (grows_acquire hacq)
    ⟨fun {r e x} h => ?_, fun {r j} h => ?_, fun {r e j id'} h => ?_, fun {r e e' j id₁ id₂} h h' he => ?_⟩
    ⟨fun {k j id'} h => ?_, fun {k} h => ?_⟩ fun {k x} h => ?_
  · rcases withGrant_grant h with ⟨hk, -⟩ | ⟨-, h⟩
    · cases hk
      rw [← Net.withGrant, withGrant_host, if_pos rfl, hcur]
      omega
    · have := I.grants.upto h
      rw [← Net.withGrant, withGrant_host]
      split
      next hr =>
        subst hr
        omega
      · exact this
  · rw [← Net.withGrant, withGrant_host] at h ⊢
    split at h
    next hr =>
      subst hr
      have hj : j = i := by
        rw [hl] at h
        exact (some.inj h).symm
      rw [if_pos rfl, hcur, hj]
      exact ⟨id, update_self ..⟩
    next hr =>
      rw [if_neg hr]
      obtain ⟨id', hid'⟩ := I.grants.held h
      refine ⟨id', ?_⟩
      have hne : (r, (n.hosts r).current) ≠ (s, g.epoch) := fun heq => hr (congrArg Prod.fst heq)
      exact (update_of_ne hne _ _).trans hid'
  · rw [← Net.withGrant, withGrant_host]
    rcases withGrant_grant h with ⟨hk, hx⟩ | ⟨-, h⟩
    · cases hk
      cases hx
      rw [if_pos rfl, hlastl, hlast]
    · refine (I.grants.last h).trans ?_
      split
      next hr => rw [hlastl, hr]
      · exact le_rfl
  · rcases withGrant_grant h with ⟨hk, hx⟩ | ⟨-, h⟩ <;> rcases withGrant_grant h' with ⟨hk', hx'⟩ | ⟨-, h'⟩
    · cases hk
      cases hk'
      exact absurd he (Nat.lt_irrefl _)
    · cases hk
      have := hupto h'
      omega
    · cases hk'
      cases hx'
      exact hnew h
    · exact I.grants.order h h' he
  · rw [← Net.withGrant, hbytes]
    rcases withGrant_grant h with ⟨rfl, -⟩ | ⟨-, h⟩
    · have : n.bytesOf (s, g.epoch) = [] := (I.hosts.books s).entriesAt_of_gt (by omega)
      rw [this]
      exact nil_prefix
    · exact I.streams.granted h
  · rw [← Net.withGrant, hbytes]
    have hne : k ≠ (s, g.epoch) := by
      rintro rfl
      rw [← Net.withGrant, withGrant_grant_self] at h
      cases h
    exact I.streams.free ((update_of_ne hne _ _).symm.trans h)
  · have hne : k ≠ (s, g.epoch) := by
      rintro rfl
      exact absurd (hupto h) (Nat.lt_irrefl _)
    rwa [update_of_ne hne]

theorem Inv.handleAcquire {c id s : Nat} (hlast : (n.hosts s).lastRequest i = id)
    (hnew : ∀ {e id'}, n.grant (s, e) = some (i, id') → id' < id) : (n.handleAcquire i c id s).Inv := by
  unfold Net.handleAcquire
  split
  · exact I.reply trivial
  next l g hacq =>
    have I' := I.withGrant hacq hlast hnew
    have hn' : { n.setHost s l with grant := update n.grant (s, g.epoch) (some (i, id)) } =
        n.withGrant s l g.epoch i id := by
      simp [Net.withGrant, Net.withHost, Net.setHost]
    have hreply := n.withGrant_grant_self s l g.epoch i id
    dsimp only
    rw [hn']
    split
    · exact Inv.reply (I'.reply (m := .lost ..) trivial) hreply
    · exact I'.reply hreply

end

theorem prefix_append_drop {α : Type} {xs ys zs : List α} (hx : xs <+: zs) (hy : ys <+: zs.drop start)
    (hle : start ≤ xs.length) : xs ++ ys.drop (xs.length - start) <+: zs := by
  have hys : ys.drop (xs.length - start) <+: zs.drop xs.length := by
    have h := hy.drop (xs.length - start)
    rwa [drop_drop, Nat.add_sub_cancel' hle] at h
  have hxs : zs.take xs.length = xs := (List.prefix_iff_eq_take.mp hx).symm
  obtain ⟨r, hr⟩ := hys
  refine ⟨r, ?_⟩
  rw [append_assoc, hr]
  nth_rewrite 1 [← hxs]
  exact take_append_drop _ _

theorem Inv.accept (I : n.Inv) (hh : (n.hosts s).holder = some i) (hx : (n.hosts s).epochs[(n.hosts s).current]? = some x)
    (hle : start ≤ x.accepted) (hlt : x.accepted < start + bytes.length)
    (hbytes : bytes <+: (n.assigned i (s, (n.hosts s).current)).drop start) :
    (n.setHost s ((n.hosts s).accept x (n.hosts s).current start bytes)).Inv := by
  rw [← withHost_self]
  refine I.steady (books_accept (I.hosts.books s) hx hle hlt)
    (grows_accept ⟨by rw [hh]; rfl, rfl⟩) rfl (.inr rfl) (fun _ => le_rfl) fun {j} hj => ?_
  obtain rfl := some.inj (hh.symm.trans hj)
  obtain ⟨id, hid⟩ := I.grants.held hh
  have hacc := ((I.hosts.books s).entry hx).accepted
  rw [entriesAt_accept, if_pos rfl, hacc]
  exact prefix_append_drop (I.streams.granted hid) hbytes (hacc ▸ hle)

theorem Inv.overlap_unverifiable (I : n.Inv) {err : WriteError}
    (hh : (n.hosts s).holder = some i) (hx : (n.hosts s).epochs[(n.hosts s).current]? = some x)
    (hbytes : bytes <+: (n.assigned i (s, (n.hosts s).current)).drop start)
    (h : (n.hosts s).overlapError x (n.hosts s).current start bytes = some err) :
    err = .unverifiable (n.hosts s).current x.accepted x.committed (n.hosts s).retainedStart ∧
      start < (n.hosts s).retainedStart := by
  obtain ⟨gid, hgid⟩ := I.grants.held hh
  have hstream : n.bytesOf (s, (n.hosts s).current) <+: n.assigned i (s, (n.hosts s).current) := I.streams.granted hgid
  have hret : (n.hosts s).retained = (n.bytesOf (s, (n.hosts s).current)).drop (n.hosts s).retainedStart :=
    (I.hosts.books s).retained
  have hacc : x.accepted = (n.bytesOf (s, (n.hosts s).current)).length := ((I.hosts.books s).entry hx).accepted
  simp only [overlapError] at h
  split at h
  next hover =>
    split at h
    next hlt => exact ⟨(some.inj h).symm, hlt⟩
    next hge =>
      split at h
      · cases h
      next hne =>
        refine absurd (congrArg (List.map WireByte.byte) ?_) hne
        obtain ⟨a, ha⟩ := hstream
        obtain ⟨b, hb⟩ := hbytes
        -- Both sides are the same stretch of the stream.
        have hleft : Author.slice (n.hosts s).retained (start - (n.hosts s).retainedStart)
            (start - (n.hosts s).retainedStart + (min (start + bytes.length) x.accepted - start)) =
            ((n.assigned i (s, (n.hosts s).current)).drop start).take (min (start + bytes.length) x.accepted - start) := by
          rw [Author.slice, hret, drop_drop, Nat.add_sub_cancel' (Nat.le_of_not_lt hge), Nat.add_sub_cancel_left, ← ha,
            drop_append_of_le_length (by omega), take_append_of_le_length (by rw [length_drop]; omega)]
        rw [hleft, ← hb, take_append_of_le_length (by omega)]
  · cases h

variable [InputCrc]

theorem Inv.handleWrite (I : n.Inv) {attempt start : Nat}
    (hm : Out.write attempt s e start bytes ∈ n.sent i) : (n.handleWrite i c attempt s e start bytes).Inv := by
  have hbytes : bytes <+: (n.assigned i (s, e)).drop start :=
    (I.author i).holdings.out _ (mem_append_left _ hm)
  have W := (n.hosts s).write_outcome i e start bytes (inputCrc32c bytes)
  unfold Net.handleWrite
  generalize (n.hosts s).write i e start bytes (inputCrc32c bytes) = r at W ⊢
  obtain ⟨l, out⟩ := r
  have hself : (n.setHost s (n.hosts s)).Inv := I.setHost (I.hosts.books s) (.refl _)
  cases W with
  | stale fa hact => exact hself.reply trivial
  | refused err herr =>
    rcases herr with rfl | rfl | rfl <;> exact hself
  | gap x hact hx hlt =>
    refine hself.reply fun acc hacc => ?_
    cases hacc
    exact (hself.entry (by rw [setHost_host]; exact hx)).1.le
  | fence x err hact hx hle herr =>
    obtain ⟨rfl, hh⟩ := (I.hosts.books s).active_iff.mp hact
    obtain ⟨rfl, -⟩ := I.overlap_unverifiable hh hx hbytes herr
    have I' := I.setHost (books_fence (I.hosts.books s)) steady_fence
    exact (I'.vacate s _).reply trivial
  | full x hact hx => exact hself.reply fun acc hacc => by cases hacc
  | accept x hact hx hle hlt =>
    obtain ⟨rfl, hh⟩ := (I.hosts.books s).active_iff.mp hact
    have I' := I.accept hh hx hle hlt hbytes
    obtain ⟨ha, hc, -⟩ := I'.entry (s := s) (e := (n.hosts s).current)
        (x := { x with accepted := start + bytes.length }) (by
        rw [setHost_host]
        simp only [InputLedger.accept, lookup_insert, if_true])
    exact I'.reply ⟨ha.le, hc.le⟩
  | again x hact hx hle =>
    obtain ⟨ha, hc, -⟩ := hself.entry (by rw [setHost_host]; exact hx)
    exact hself.reply ⟨ha.le, hc.le⟩

theorem Inv.hostHandle (I : n.Inv) {m : Out (TypedByte H)} (hm : m ∈ n.sent i) : (n.hostHandle i c fail m).Inv := by
  cases m with
  | acquire id s =>
    refine I.admitRequest fun hlt I' => I'.handleAcquire ?_ fun hg => (I.grants.last hg).trans_lt hlt
    rw [noted_host]
    exact update_self ..
  | release id s e => exact I.admitRequest fun _ I' => I'.handleRelease
  | reclaim id s e => exact I.admitRequest fun _ I' => I'.handleReclaim hm
  | write attempt s e start bytes => exact I.handleWrite hm
  | getEpochState id s e => exact I.handleGet
  | classified => exact I

theorem Inv.deliverToHost (I : n.Inv) (i : H) (c : Nat) (lose fail : Bool) : (n.deliverToHost i c lose fail).Inv := by
  unfold Net.deliverToHost
  split
  · exact I
  next m rest hc =>
    have I' : Inv { n with toHost := setAt n.toHost i c rest } :=
      I.congr (fun h => mem_of_mem_setAt hc h) fun h => h
    have hm : m ∈ n.sent i := I.toHost (hc ▸ mem_cons_self)
    dsimp only
    split
    · exact I'
    · exact I'.hostHandle hm

omit [InputCrc] in
theorem ptyWrite_eq {k w take : Nat} {rest : List (Item (TypedByte H))}
    (hq : (n.hosts s).queue = .input e bytes w :: rest) (hx : (n.hosts s).epochs[e]? = some x)
      (htake : take = min k (bytes.length - w)) :
    n.ptyWrite s k = (n.withHost s ((n.hosts s).onWritten take).1
      (n.tap s ++ ((bytes.drop w).take take).map fun b => (e, b)) n.grant).event x.holder
        (.ack none s e x.accepted (x.committed + take)) := by
  have hhead : (n.hosts s).head = some (bytes.drop w) := by simp [InputLedger.head, hq]
  have hepoch : ((n.hosts s).queue.head?.bind Item.epoch?).getD 0 = e := by simp [hq, Item.epoch?]
  have hle : take ≤ bytes.length - w := htake ▸ Nat.min_le_right _ _
  unfold Net.ptyWrite
  simp only [hhead, hepoch, length_drop, ← htake]
  rw [onWritten_eq hq hx hle]
  rfl

omit [InputCrc] in
theorem Inv.ptyWrite (I : n.Inv) (s k : Nat) : (n.ptyWrite s k).Inv := by
  cases hq : (n.hosts s).queue with
  | nil =>
    have hhead : (n.hosts s).head = none := by simp [InputLedger.head, hq]
    simp only [Net.ptyWrite, hhead]
    exact I
  | cons it rest =>
    have B := I.hosts.books s
    obtain ⟨e, bytes, w, rfl, hw, hmem⟩ := B.items it (hq ▸ mem_cons_self)
    obtain ⟨x, hx⟩ := mem_iff_lookup.mp hmem
    have hle : min k (bytes.length - w) ≤ bytes.length - w := Nat.min_le_right _ _
    rw [ptyWrite_eq hq hx rfl]
    have hB := books_onWritten B hq hx hle
    have hG := grows_onWritten (n.tap s) hq hx hle
    obtain ⟨hc, hh, hl, -⟩ := onWritten_frame hq hx hle
    have I' := I.steady hB hG hc (.inr hh) (fun i => by rw [hl]) fun {i} hi => by
      obtain ⟨id, hid⟩ := I.grants.held hi
      rw [log_onWritten hq hx hle]
      exact I.streams.granted hid
    refine I'.reply ⟨?_, ?_⟩
    · exact (I.entry hx).1.le.trans ((view_le_withHost I.hosts hB hG).accepted (s, e))
    · have hcom : x.committed = (entriesAt e (n.tap s)).length := (B.entry hx).committed
      simp only [view, Net.withHost, update_self]
      rw [entriesAt_append, entriesAt_map_same, if_pos rfl, length_append, ← hcom, length_take, length_drop,
        Nat.min_eq_left hle]

end Net
end Ferryx
