import Ferryx.Lib.TreeMap
import Ferryx.Theorems.LeaseTable
import Ferryx.Theorems.PaneSteps

/-! Every function of a pane takes its view (`PaneLease.view`, in a `PaneEnv`) along moves of the lease protocol. The answer
to a probe means nothing to a pane that is not suppressed any more, so the view does not have the probe. -/

namespace Ferryx
open Std Lib LeaseView Option Moves

/-! ### The view of a pane -/

def Pane.Pending.request (p : Pane.Pending) : Ferryx.Pending :=
  ⟨p.id, match p.kind with
    | .acquire => .acquire
    | .reclaim => .reclaim p.requestedEpoch
    | .probe => .probe
    | .release => .release, p.session⟩

/-- A message of a pane as a request of the lease protocol; a size is a write. -/
def Pane.Out.req : Pane.Out → Req
  | .acquire id session => .acquire id session
  | .reclaim id session epoch => .reclaim id session epoch
  | .release id session epoch => .release id session epoch
  | .resize session epoch _ _ _ => .write session epoch

def ToPane.message : ToPane → ToClient
  | .granted id session epoch _ => .granted id session epoch
  | .reclaimed id ok currentEpoch _ => .reclaimed id ok currentEpoch 0 0 none
  | .released id => .released id
  | .revoked session revokedEpoch newEpoch => .lost session revokedEpoch newEpoch
  | .vacated session => .vacated session
  | .ack session epoch _ => .ack none session epoch 0 0
  | .staleResize epoch _ => .ack none 0 epoch 0 0
  | .staleLease session epoch currentEpoch => .lost session epoch currentEpoch
  | .failed id => .failed id

def paneRequests (os : List Pane.Out) : Set Req := { r | ∃ o ∈ os, o.req = r }

theorem paneRequests_append (os os' : List Pane.Out) : paneRequests (os ++ os') = paneRequests os ∪ paneRequests os' := by
  ext r
  simp [paneRequests, or_and_right, exists_or]

theorem paneRequests_singleton (o : Pane.Out) : paneRequests [o] = {o.req} := by
  ext r
  simp [paneRequests, eq_comm]

/-- What surrounds a pane: the messages on its connections and the sessions' side of its leases. -/
structure PaneEnv where
  flight : Set Req
  late : Set Req
  live : List ToClient
  last : Nat → Nat
  top : Nat → Nat
  held : Set EpochKey
  gid : EpochKey → Option Nat
  blocked : Set Nat

def PaneEnv.reading (env : PaneEnv) (live : List ToClient) : PaneEnv := { env with live }

def PaneEnv.redialed (env : PaneEnv) : PaneEnv := { env with flight := ∅, late := env.flight ∪ env.late, live := [] }

namespace PaneLease
variable {loose strand : Prop} {a : PaneLease} {home : Nat} {env : PaneEnv} {newEpoch : Nat}

/-- The request that a pane waits for, if it still wants an answer. -/
def asked (a : PaneLease) : Option Pending :=
  (a.pending.filter fun p => p.kind != .probe || a.suppressed).map Pane.Pending.request

/-- The view of a pane that is bound to session `home`, or to none. -/
def view (a : PaneLease) (home : Nat) (env : PaneEnv) : LeaseView where
  session := home
  nextId := a.nextRequestId
  pending := a.asked
  current := a.lease.map fun l => (l.session, l.epoch)
  needsReclaim := a.needsReclaim
  suppressed := a.suppressed
  needsProbe := a.needsProbe
  disowned := { s | s ∈ a.disowned }
  lost := ∅
  now := env.flight ∪ paneRequests a.out
  late := env.late
  live := env.live
  last := env.last
  top := env.top
  held := env.held
  gid := env.gid
  blocked := env.blocked

abbrev Steps (loose strand : Prop) (home : Nat) (env : PaneEnv) (a b : PaneLease) : Prop :=
  Moves loose strand (a.view home env) (b.view home env)

/-- What the moves of a pane need besides the invariants of its view. -/
structure Proper (home : Nat) (a : PaneLease) : Prop where
  bound : ∀ {s}, a.policy.boundSession = some s → s = home
  probing : ∀ {p}, a.pending = some p → p.kind = .probe → a.lease = none

theorem asked_eq_some {q : Pending} :
    a.asked = some q ↔ ∃ p, a.pending = some p ∧ (p.kind = .probe → a.suppressed = true) ∧ p.request = q := by
  simp only [asked, map_eq_some_iff, filter_eq_some_iff, Bool.or_eq_true, bne_iff_ne, ne_eq]
  constructor
  · rintro ⟨p, ⟨hp, hk⟩, hq⟩
    exact ⟨p, hp, fun hk' => hk.resolve_left fun h => h hk', hq⟩
  · rintro ⟨p, hp, hk, hq⟩
    refine ⟨p, ⟨hp, ?_⟩, hq⟩
    by_cases hk' : p.kind = .probe
    · exact .inr (hk hk')
    · exact .inl hk'

variable {p : Pane.Pending} {home' : Nat} {c : Call}

theorem asked_of_pending (home : Nat) (env : PaneEnv) (hp : a.pending = some p) (hk : p.kind ≠ .probe) :
    (a.view home env).pending = some p.request :=
  asked_eq_some.mpr ⟨p, hp, fun h => (hk h).elim, rfl⟩

theorem asked_congr {b : PaneLease} (hp : b.pending = a.pending) (hs : b.suppressed = a.suppressed) :
    b.asked = a.asked := by
  simp only [asked, hp, hs]

theorem asked_of_none (hp : a.pending = none) : (a.view home env).pending = none := by
  simp [view, asked, hp]

theorem view_push (a : PaneLease) (o : Pane.Out) : (a.push o).view home env =
    { a.view home env with now := insert o.req (a.view home env).now } := by
  simp only [view, push, paneRequests_append, paneRequests_singleton, Set.union_singleton, Set.union_insert]
  rfl

theorem asks_out (kind : Pane.PendingKind) (id session generation requestedEpoch : Nat) :
    Pending.Asks (Pane.Pending.request ⟨id, kind, session, generation, requestedEpoch⟩)
      (kind.out id session requestedEpoch).req := by
  cases kind with
  | acquire => exact ⟨rfl, rfl, rfl⟩
  | reclaim => exact ⟨rfl, rfl, .inl rfl⟩
  | probe => exact ⟨rfl, rfl, .inr rfl⟩
  | release => exact ⟨rfl, rfl, rfl, rfl⟩

/-! ### Requests -/

theorem moves_send {kind : Pane.PendingKind} {session generation requestedEpoch : Nat} (hp : a.pending = none)
    (hk : kind = .probe → a.suppressed = true) (hm : (a.view home env).May session
      (Pane.Pending.request ⟨0, kind, session, generation, requestedEpoch⟩).kind) :
    Moves loose strand (a.view home env) ((a.send kind session generation requestedEpoch).view home env) := by
  have hasked : (a.send kind session generation requestedEpoch).asked =
      some (Pane.Pending.request ⟨a.nextRequestId + 1, kind, session, generation, requestedEpoch⟩) :=
    asked_eq_some.mpr ⟨_, rfl, hk, rfl⟩
  have hv : (a.send kind session generation requestedEpoch).view home env = { a.view home env with
      nextId := (a.view home env).nextId + 1
      pending := some ⟨(a.view home env).nextId + 1,
        (Pane.Pending.request ⟨0, kind, session, generation, requestedEpoch⟩).kind, session⟩
      now := insert (kind.out (a.nextRequestId + 1) session requestedEpoch).req (a.view home env).now } := by
    rw [send, view_push]
    simp only [view]
    congr 1
  rw [hv]
  exact .move (.ask (asked_of_none hp) hm (asks_out kind _ _ generation _))

theorem moves_yield (a : PaneLease) (home : Nat) (env : PaneEnv) :
    Moves loose strand (a.view home env) (({ a.dropAcquire with pending := none } : PaneLease).view home env) := by
  cases hp : a.pending with
  | none =>
    refine .of_eq ?_
    have hdrop : a.dropAcquire = a := by simp [dropAcquire, hp]
    rw [hdrop, ← hp]
  | some p =>
    by_cases hk : p.kind = .acquire
    · have hasked := asked_of_pending home env hp (by simp [hk])
      have hkind : p.request.kind = .acquire := by simp [Pane.Pending.request, hk]
      have hv : ({ a.dropAcquire with pending := none } : PaneLease).view home env =
          { a.view home env with pending := none, disowned := p.request.disown (a.view home env).disowned } := by
        simp only [view, dropAcquire, hp, hk, Pending.disown, hkind, if_true, setOf_mem_insert]
        rfl
      rw [hv]
      exact .move (.yield hasked)
    · have hdrop : a.dropAcquire = a := by simp [dropAcquire, hp, hk]
      rw [hdrop]
      have hv : ({ a with pending := none } : PaneLease).view home env = { a.view home env with pending := none } := rfl
      rw [hv]
      cases hasked : (a.view home env).pending with
      | none =>
        refine .of_eq ?_
        rw [← hasked]
      | some q =>
        obtain ⟨p', hp', -, rfl⟩ := asked_eq_some.mp hasked
        obtain rfl : p = p' := some.inj (hp.symm.trans hp')
        have hkind : p.request.kind ≠ .acquire := by
          simp only [Pane.Pending.request]
          cases hk' : p.kind <;> simp_all
        refine Moves.trans (.move (.yield hasked)) (.of_eq ?_)
        simp only [Pending.disown, if_neg hkind]

theorem moves_unsuppress (a : PaneLease) (home : Nat) (env : PaneEnv) :
    Steps loose strand home env a a.unsuppress := by
  by_cases hp : ∃ p, a.pending = some p ∧ p.kind = .probe
  · obtain ⟨p, hp, hk⟩ := hp
    have hnone : a.unsuppress.asked = none := by simp [asked, unsuppress, hp, hk]
    have hyield : Moves loose strand _ _ := moves_yield a home env
    have hdrop : a.dropAcquire = a := by simp [dropAcquire, hp, hk]
    rw [hdrop] at hyield
    refine hyield.trans ((unsuppressed _).trans (.of_eq ?_))
    simp only [view, hnone]
    rfl
  · refine (unsuppressed _).trans (.of_eq ?_)
    have hsame : a.unsuppress.asked = a.asked := by
      cases hpend : a.pending with
      | none => simp [asked, unsuppress, hpend]
      | some p =>
        have hk : p.kind ≠ .probe := fun hk => hp ⟨p, hpend, hk⟩
        simp [asked, unsuppress, hpend, hk, Option.filter]
    simp only [view, hsame]
    rfl

variable {l : Pane.Lease}

theorem current_of_lease (home : Nat) (env : PaneEnv) (hl : a.lease = some l) :
    (a.view home env).current = some (l.session, l.epoch) := by
  simp [view, hl]

theorem asked_invalidate (h : Core (a.view home env)) (hl : a.lease = some l) :
    a.invalidate.asked = Pending.unlessReclaim a.asked := by
  cases hp : a.pending with
  | none => simp [asked, invalidate, hl, hp, Pending.unlessReclaim]
  | some p =>
    by_cases hk : p.kind = .reclaim
    · have hreq : p.request.kind = .reclaim p.requestedEpoch := by simp [Pane.Pending.request, hk]
      have hcur := h.epochs.reclaiming (asked_of_pending home env hp (by simp [hk])) hreq
      rw [current_of_lease home env hl] at hcur
      have he : l.epoch = p.requestedEpoch := (Prod.mk.inj (some.inj hcur)).2
      simp [asked, invalidate, hl, hp, hk, he, Pending.unlessReclaim, Pane.Pending.request, Option.filter]
    · have hkeep : a.invalidate.asked = a.asked := by simp [asked, invalidate, hl, hp, hk]
      rw [hkeep]
      cases hasked : a.asked with
      | none => rfl
      | some q =>
        obtain ⟨p', hp', -, rfl⟩ := asked_eq_some.mp hasked
        obtain rfl : p = p' := some.inj (hp.symm.trans hp')
        cases hk' : p.kind <;> simp_all [Pending.unlessReclaim, Pane.Pending.request, Option.filter]

theorem moves_releaseLease (h : Core (a.view home env)) : Steps loose strand home env a a.releaseLease := by
  cases hl : a.lease with
  | none => exact .of_eq (by simp [releaseLease, hl])
  | some l =>
    have hcur := current_of_lease home env hl
    have hdet : Moves loose strand (a.view home env) ((a.view home env).detached (l.session, l.epoch) false) :=
      moves_detached hcur nofun nofun
    refine hdet.trans (Moves.trans (.move (.releaseLost (k := (l.session, l.epoch)) (Set.mem_insert _ _))) ?_)
    -- The session is disowned, so the epoch need not be remembered.
    set v := (a.view home env).detached (l.session, l.epoch) false with hv
    refine (Moves.disown _ (s := l.session) fun h => by cases h).trans
      (Moves.trans (.move (.forgetDisowned (k := (l.session, l.epoch)) (Set.mem_insert _ _))) (.of_eq ?_))
    have hasked : a.releaseLease.asked = Pending.unlessReclaim a.asked := by
      rw [← asked_invalidate h hl]
      exact asked_congr (by simp [releaseLease, hl, takeId, push, invalidate])
        (by simp [releaseLease, hl, takeId, push, invalidate])
    have hnow : a.releaseLease.out = a.out ++ [.release (a.nextRequestId + 1) l.session l.epoch] := by
      simp [releaseLease, hl, takeId, push, invalidate]
    have hdis : { s | s ∈ a.releaseLease.disowned } = insert l.session { s | s ∈ a.disowned } := by
      rw [← setOf_mem_insert]
      simp [releaseLease, hl, takeId, push, invalidate]
    simp only [view, hasked, hnow, hdis, paneRequests_append, paneRequests_singleton, Set.union_singleton, Set.union_insert]
    simp [hv, detached, view, releaseLease, hl, takeId, push, invalidate, Pane.Out.req]

theorem moves_dropAcquire (a : PaneLease) (home : Nat) (env : PaneEnv) :
    Steps loose strand home env a a.dropAcquire := by
  cases hp : a.pending with
  | none => exact .of_eq (by simp [dropAcquire, hp])
  | some p =>
    by_cases hk : p.kind = .acquire
    · refine (moves_yield a home env).trans (.of_eq ?_)
      simp [dropAcquire, hp, hk]
    · exact .of_eq (by simp [dropAcquire, hp, hk])

theorem moves_relinquish (h : Core (a.view home env)) : Steps loose strand home env a a.relinquish :=
  (moves_releaseLease h).trans (moves_dropAcquire _ home env)

theorem asked_suppress {epoch : Nat} (hp : ∀ {p}, a.pending = some p → p.kind ≠ .probe) :
    (a.suppress epoch).asked = a.asked := by
  cases hpend : a.pending with
  | none => simp [asked, suppress, hpend]
  | some p => simp [asked, suppress, hpend, hp hpend, Option.filter]

theorem pending_of_invalidate (hp : a.invalidate.pending = some p) : a.pending = some p := by
  simp only [invalidate] at hp
  split at hp
  next q hq =>
    split at hp
    · cases hp
    · exact hq.trans hp
  · exact hp

theorem moves_lost (h : Core (a.view home env)) (P : Proper home a) (hl : a.lease = some l) (e : Nat)
    (hk : (l.session, l.epoch) ∉ env.held) (hw : newEpoch ≠ 0 → strand ∨ (a.view home env).Waits l.session) :
    Steps loose strand home env a (if newEpoch ≠ 0 then a.invalidate.suppress e else a.invalidate) := by
  have hdet : Moves loose strand (a.view home env)
      ((a.view home env).detached (l.session, l.epoch) (decide (newEpoch ≠ 0))) :=
    moves_detached (current_of_lease home env hl) (fun _ => hk) fun ho => hw (of_decide_eq_true ho)
  refine hdet.trans (Moves.trans (.move (.forget (k := (l.session, l.epoch)) hk)) (.of_eq ?_))
  have hasked := asked_invalidate h hl
  have hprobe : ∀ {p}, a.invalidate.pending = some p → p.kind ≠ .probe := by
    intro p hp hkind
    cases (P.probing (pending_of_invalidate hp) hkind).symm.trans hl
  by_cases hne : newEpoch ≠ 0
  · simp only [view, if_pos hne, asked_suppress hprobe, hasked]
    simp [detached, invalidate, suppress, hne]
  · simp only [view, if_neg hne, hasked]
    simp [detached, invalidate, hne]

theorem moves_lose (h : Core (a.view home env)) (P : Proper home a) {s e newEpoch : Nat}
    (hk : (a.view home env).current = some (s, e) → (s, e) ∉ env.held)
    (hw : (a.view home env).current = some (s, e) → newEpoch ≠ 0 → strand ∨ (a.view home env).Waits s) :
    Steps loose strand home env a (a.lose s e newEpoch) := by
  unfold lose
  split
  next l hl =>
    split
    next heq =>
      obtain ⟨rfl, rfl⟩ := heq
      have hcur := current_of_lease home env hl
      exact moves_lost h P hl _ (hk hcur) (hw hcur)
    · exact .refl _
  · exact .refl _

/-! ### Sizes -/

theorem moves_ptySync (a : PaneLease) (home : Nat) (env : PaneEnv) :
    Moves loose strand (a.view home env) (a.ptySync.view home env) := by
  unfold ptySync
  split
  next l cols rows hl hd =>
    split
    · exact .refl _
    next hn =>
      split
      · exact .refl _
      · rw [view_push]
        refine .move (.notify (k := (l.session, l.epoch)) (current_of_lease home env hl) ?_)
        simp only [Bool.or_eq_true, not_or, Bool.not_eq_true] at hn
        exact hn.1.1
  · exact .refl _

theorem moves_resend (a : PaneLease) (appliedSeq home : Nat) (env : PaneEnv) :
    Steps loose strand home env a (a.resend appliedSeq) :=
  moves_ptySync { a with nextSeq := max a.nextSeq appliedSeq, latestSent := none } home env

theorem moves_sendRelease (hp : a.pending = none) : Steps loose strand home env a a.sendRelease := by
  unfold sendRelease
  split
  next s hs =>
    refine moves_send hp nofun ?_
    exact ExtTreeSet.mem_toList.mp (List.mem_of_mem_head? hs)
  · exact .refl _

theorem moves_sendDue (P : ∀ {s}, a.policy.boundSession = some s → s = home) (hp : a.pending = none) :
    Steps loose strand home env a a.sendDue := by
  unfold sendDue
  split
  next l hl =>
    split
    · exact moves_send hp nofun (current_of_lease home env hl)
    · exact moves_sendRelease hp
  next s hl hs =>
    have hcur : (a.view home env).current = none := by simp [view, hl]
    split
    next hprobe =>
      simp only [Bool.and_eq_true] at hprobe
      exact moves_send hp (fun _ => hprobe.1) ⟨hprobe.1, P hs⟩
    · split
      next he =>
        refine moves_send hp nofun ⟨hcur, ?_⟩
        simp only [eligible, Bool.and_eq_true, Bool.not_eq_true'] at he
        exact he.1.2
      · exact moves_sendRelease hp
  · exact moves_sendRelease hp

theorem moves_reevaluate (h : Core (a.view home env)) (P : ∀ {s}, a.policy.boundSession = some s → s = home) :
    Steps loose strand home env a a.reevaluate := by
  have hgive : Steps loose strand home env a a.giveUp := by
    unfold giveUp
    split
    · exact moves_relinquish h
    · exact .refl _
  refine hgive.trans ?_
  rw [reevaluate_eq]
  split
  · exact .refl _
  next hp =>
    simp only [Bool.or_eq_true, not_or, not_isSome_iff_eq_none] at hp
    refine moves_sendDue ?_ hp.1
    have hpol : a.giveUp.policy = a.policy := (Keeps.giveUp a : Keeps True a _).policy
    rwa [hpol]

/-! ### Messages -/

section Messages
variable {m : ToClient} {rest : List ToClient} {id s e : Nat} {p : Pane.Pending} {currentEpoch : Nat}

theorem moves_recv (hm : env.live = m :: rest) (hi : (a.view home env).Idle m) :
    Moves loose strand (a.view home env) (a.view home (env.reading rest)) :=
  .move (.recv hm hi)

theorem mem_live (hm : env.live = m :: rest) : m ∈ env.live := hm ▸ List.mem_cons_self

theorem live_split (hm : env.live = m :: rest) : env.live = [] ++ m :: rest := hm

theorem moves_answered (hp : a.pending = some p) (hk : p.kind ≠ .acquire) (env : PaneEnv) :
    Steps loose strand home env a ({ a with pending := none } : PaneLease) := by
  refine (moves_yield a home env).trans (.of_eq ?_)
  simp [dropAcquire, hp, hk]

theorem kind_of_request_acquire (h : p.request.kind = .acquire) : p.kind = .acquire := by
  cases hk : p.kind <;> simp_all [Pane.Pending.request]

theorem kind_of_request_release (h : p.request.kind = .release) : p.kind = .release := by
  cases hk : p.kind <;> simp_all [Pane.Pending.request]

theorem moves_releaseGrant (hm : env.live = .granted id s e :: rest)
    (hp : ∀ {q}, (a.view home env).pending = some q → q.id ≠ id) :
    Moves loose strand (a.view home env) ((a.releaseGrant s e).view home (env.reading rest)) := by
  have hgive : Moves loose strand (a.view home env)
      ((a.takeId.push (.release (a.nextRequestId + 1) s e)).view home (env.reading rest)) := by
    rw [view_push]
    exact .move (.giveBack hm hp)
  refine hgive.trans ?_
  unfold releaseGrant
  dsimp only
  split
  · exact .refl _
  next hl =>
    refine (disown _ (s := s) fun {k} hk heq => hl ?_).trans (.of_eq ?_)
    · obtain ⟨l, hlease, rfl⟩ := map_eq_some_iff.mp hk
      have hlease : a.lease = some l := hlease
      simpa [takeId, push, hlease] using heq
    · simp only [view, setOf_mem_insert]
      rfl

theorem moves_granted (hm : env.live = .granted id s e :: rest) (h : Core (a.view home env)) (P : Proper home a)
    (appliedSeq : Nat) :
    Moves loose strand (a.view home env) ((a.granted id s e appliedSeq).view home (env.reading rest)) := by
  have hanswer : ∀ {q}, (a.view home env).pending = some q → q.id = id → q.kind = .acquire ∧ s = q.session := by
    intro q hq hid
    exact h.messages.answer hq (mem_live hm) (congrArg some hid.symm)
  -- A grant for a request that is not pending.
  have hforeign : (∀ {p}, a.pending = some p → ¬(p.kind = .acquire ∧ p.id = id)) →
      ∀ {q}, (a.view home env).pending = some q → q.id ≠ id := by
    intro hne q hq hid
    obtain ⟨p, hp, -, rfl⟩ := asked_eq_some.mp hq
    exact hne hp ⟨kind_of_request_acquire (hanswer hq hid).1, hid⟩
  unfold granted
  split
  next p hp =>
    split
    next hmine =>
      obtain ⟨hk, rfl⟩ := hmine
      have hasked := asked_of_pending home env hp (by simp [hk])
      have hkind : p.request.kind = .acquire := by simp [Pane.Pending.request, hk]
      obtain rfl : s = p.session := (hanswer hasked rfl).2
      have hnone : a.lease = none := by
        have := h.epochs.acquiring hasked hkind
        simpa [view] using this
      dsimp only
      split
      next hok =>
        obtain ⟨-, hbound, -, helig⟩ := hok
        have hsup : a.suppressed = false := by
          simp only [eligible, Bool.and_eq_true, Bool.not_eq_true'] at helig
          exact helig.1.2
        have hnr : a.needsReclaim = false := by
          by_contra hn
          exact h.epochs.reclaim (Bool.not_eq_false _ |>.mp hn) (by simp [view, hnone])
        let b : PaneLease := { a with
          pending := none, lease := some ⟨p.session, p.generation, e⟩, disowned := a.disowned.erase p.session,
            needsReclaim := false }
        have hadopt : Moves loose strand (a.view home env) (b.view home (env.reading rest)) := by
          have hpend : (a.view home env).pending = some ⟨p.id, .acquire, p.session⟩ := by
            rw [hasked, ← hkind]
            rfl
          refine Moves.trans (.move (.adopt hm hpend (P.bound hbound) hsup)) (.of_eq ?_)
          simp only [view, b, setOf_mem_erase, hnr]
          rfl
        have hsync : Moves loose strand (b.view home (env.reading rest))
            ((({ a with pending := none } : PaneLease).adopt ⟨p.session, p.generation, e⟩ appliedSeq).view home
              (env.reading rest)) :=
          (moves_unsuppress b home (env.reading rest)).trans (moves_ptySync { b.unsuppress with
            nextSeq := appliedSeq, latestSent := none, ptyAcked := none } home (env.reading rest))
        exact hadopt.trans hsync
      · let b : PaneLease := { a.dropAcquire with pending := none }
        have hb : b = { a with pending := none, disowned := a.disowned.insert p.session } := by
          simp [b, dropAcquire, hp, hk]
        refine (moves_yield a home _).trans ((moves_releaseGrant (a := b) hm fun h => by cases h).trans (.of_eq ?_))
        rw [hb]
        simp only [view, releaseGrant, takeId, push, hnone, any_none, Bool.false_eq_true, if_false, setOf_mem_insert,
          Set.insert_idem]
        rfl
    next hne =>
      refine moves_releaseGrant hm (hforeign fun {p'} hp' => ?_)
      obtain rfl : p = p' := some.inj (hp.symm.trans hp')
      exact hne
  next hp =>
    refine moves_releaseGrant hm (hforeign fun {p'} hp' => ?_)
    cases hp.symm.trans hp'

theorem moves_released (hm : env.live = .released id :: rest) (h : Core (a.view home env)) :
    Moves loose strand (a.view home env) ((a.released id).view home (env.reading rest)) := by
  have hidle : (∀ {p}, a.pending = some p → ¬(p.id = id ∧ p.kind = .release)) → (a.view home env).Idle (.released id) := by
    intro hne q hq hid
    obtain ⟨p, hp, -, rfl⟩ := asked_eq_some.mp hq
    have hans : p.request.kind = .release := h.messages.answer hq (mem_live hm) (congrArg some hid.symm)
    exact hne hp ⟨hid, kind_of_request_release hans⟩
  unfold released
  split
  next p hp =>
    split
    next hmine =>
      obtain ⟨rfl, hk⟩ := hmine
      have hasked := asked_of_pending home env hp (by simp [hk])
      obtain ⟨hlast, hheld⟩ := h.awaited.released hasked (by simp [Pane.Pending.request, hk]) (mem_live hm)
      let b : PaneLease := { a with disowned := a.disowned.erase p.session }
      have hdis : Steps loose strand home env a b := by
        refine Moves.trans (.move (.disownNot (s := p.session) (fun e => hheld) fun {id} hr => ?_)) (.of_eq ?_)
        · exact (h.numbers.newest hasked hr .acquire).trans hlast
        · simp only [view, b, setOf_mem_erase]
          rfl
      exact hdis.trans ((moves_answered (a := b) hp (by simp [hk]) _).trans (moves_recv hm fun _ => nofun))
    next hne =>
      refine moves_recv hm (hidle fun {p'} hp' => ?_)
      obtain rfl : p = p' := some.inj (hp.symm.trans hp')
      exact hne
  next hp => exact moves_recv hm (hidle fun {p'} hp' => by cases hp.symm.trans hp')

theorem kind_of_request_reclaim (ha : p.request.kind ≠ .acquire) (hr : p.request.kind ≠ .release) :
    p.kind = .reclaim ∨ p.kind = .probe := by
  cases hk : p.kind <;> simp_all [Pane.Pending.request]

theorem moves_probed (hw : a.suppressed = true → currentEpoch ≠ 0 → strand ∨ (a.view home env).Waits home) :
    Steps loose strand home env a (a.probed currentEpoch) := by
  have hfree : Steps loose strand home env a a.unsuppress := moves_unsuppress a home env
  unfold probed
  by_cases h₀ : currentEpoch = 0
  · rw [if_pos h₀]
    exact hfree
  · rw [if_neg h₀]
    exact .move (.probed fun hs => hw hs h₀)

theorem moves_reclaimed (h : Core (a.view home env)) (P : Proper home a) (hl : a.lease = some l) {ok : Bool}
    (appliedSeq : Nat)
    (hok : ok = true ∧ currentEpoch = l.epoch → (l.session, l.epoch) ∈ env.held ∨ ToldLost env.live (l.session, l.epoch))
    (hno : ¬(ok = true ∧ currentEpoch = l.epoch) → (l.session, l.epoch) ∉ env.held ∧
      (currentEpoch ≠ 0 → strand ∨ (a.view home env).Waits l.session)) (e : Nat) :
    Steps loose strand home env a (a.reclaimed l ok currentEpoch appliedSeq e) := by
  unfold reclaimed
  split
  next hmine =>
    refine Moves.trans (.move (.confirm (.inr fun {k} hk => ?_)))
      (moves_resend { a with needsReclaim := false } appliedSeq home env)
    obtain rfl : (l.session, l.epoch) = k := some.inj ((current_of_lease home env hl).symm.trans hk)
    exact hok hmine
  next hmine =>
    obtain ⟨hheld, hw⟩ := hno hmine
    exact moves_lost h P hl e hheld hw

theorem moves_reclaimResult {ok : Bool}
    (hm : env.live = .reclaimed id ok currentEpoch 0 0 none :: rest) (S : Sound False False (a.view home env))
    (P : Proper home a) (appliedSeq : Nat) :
    Moves False False (a.view home env) ((a.reclaimResult id ok currentEpoch appliedSeq).view home (env.reading rest)) := by
  have h := S.core
  have K := S.kept.resolve_left not_false
  have W := S.waiting.resolve_left not_false
  have hidle : (∀ {p}, a.pending = some p → ¬(p.id = id ∧ (p.kind = .reclaim ∨ p.kind = .probe))) →
      (a.view home env).Idle (.reclaimed id ok currentEpoch 0 0 none) := by
    intro hne q hq hid
    obtain ⟨p, hp, -, rfl⟩ := asked_eq_some.mp hq
    have hans : p.request.kind ≠ .acquire ∧ p.request.kind ≠ .release :=
      h.messages.answer hq (mem_live hm) (congrArg some hid.symm)
    exact hne hp ⟨hid, kind_of_request_reclaim hans.1 hans.2⟩
  unfold reclaimResult
  split
  next p hp =>
    split
    next hmine =>
      obtain ⟨rfl, hk⟩ := hmine
      let b : PaneLease := { a with pending := none }
      have hread : Moves False False (a.view home env) (b.view home (env.reading rest)) :=
        (moves_answered hp (by rcases hk with hk | hk <;> simp [hk]) _).trans (moves_recv hm fun _ => nofun)
      dsimp only
      split
      next hprobe =>
        refine hread.trans (moves_probed fun hs h₀ => .inr ?_)
        have hasked : (a.view home env).pending = some p.request :=
          asked_eq_some.mpr ⟨p, hp, fun _ => hs, rfl⟩
        have hkind : p.request.kind = .probe := by simp [Pane.Pending.request, hprobe]
        have hhome : p.request.session = home := h.suppress.probing hasked hkind
        rw [← hhome]
        exact W.probed hasked hkind (live_split hm) h₀
      next hprobe =>
        have hrec : p.kind = .reclaim := hk.resolve_right hprobe
        have hasked := asked_of_pending home env hp hprobe
        have hkind : p.request.kind = .reclaim p.requestedEpoch := by simp [Pane.Pending.request, hrec]
        have hcore : Core (b.view home (env.reading rest)) := hread.core h
        refine hread.trans ?_
        split
        next l hl =>
          split
          next heq =>
            obtain ⟨he, -, hs⟩ := heq
            have hl : a.lease = some l := hl
            have hkey : (p.request.session, p.requestedEpoch) = (l.session, l.epoch) := Prod.ext hs.symm he.symm
            have hend := h.ended.reclaimed hasked hkind (mem_live hm)
            refine moves_reclaimed hcore ⟨P.bound, nofun⟩ hl appliedSeq (fun hok => ?_) (fun hno => ?_) _
            · obtain ⟨rfl, -⟩ := hok
              have hheld := K.reclaimed hasked hkind (live_split hm)
              rwa [hkey] at hheld
            · rcases hend with ⟨hok, hcur⟩ | ⟨rfl, -, hheld⟩
              · exact (hno ⟨hok, hcur.trans he.symm⟩).elim
              · refine ⟨by rwa [hkey] at hheld, fun h₀ => .inr ?_⟩
                rw [hs]
                exact W.reclaimed hasked hkind (live_split hm) h₀
          · exact .refl _
        · exact .refl _
    next hne =>
      refine moves_recv hm (hidle fun {p'} hp' => ?_)
      obtain rfl : p = p' := some.inj (hp.symm.trans hp')
      exact hne
  next hp => exact moves_recv hm (hidle fun {p'} hp' => by cases hp.symm.trans hp')

theorem current_lose : ((a.lose s e newEpoch).view home env).current ≠ some (s, e) := by
  intro hc
  obtain ⟨l, hl, heq⟩ := map_eq_some_iff.mp hc
  cases heq
  unfold lose at hl
  split at hl
  next l' hl' =>
    split at hl
    · split at hl <;> cases hl
    next hne =>
      obtain rfl : l' = l := some.inj (hl'.symm.trans hl)
      exact hne ⟨rfl, rfl⟩
  next hl' => cases hl'.symm.trans hl

theorem moves_lostMessage (hm : env.live = .lost s e newEpoch :: rest) (S : Sound False False (a.view home env))
    (P : Proper home a) :
    Moves False False (a.view home env) ((a.lose s e newEpoch).view home (env.reading rest)) := by
  have W := S.waiting.resolve_left not_false
  refine (moves_lose S.core P (fun _ => (S.core.ended.lost (mem_live hm)).2) fun hc h₀ => .inr ?_).trans
    (moves_recv hm current_lose)
  refine (W.lost (live_split hm) h₀ (by simp [ToldLost]) (.inl hc)).imp_right fun hv => ?_
  show ToClient.vacated s ∈ env.live
  exact hm ▸ List.mem_cons_of_mem _ hv

end Messages

theorem Proper.call (P : Proper home a) (hb : ∀ {s}, (a.prepared c).policy.boundSession = some s → s = home') :
    Proper home' (a.call c) := by
  refine call_induction (P := Proper home') (fun P h => ⟨?_, fun hp hk => ?_⟩) (fun {a} P => ?_)
    (fun _ hc => ⟨?_, ?_⟩) ⟨hb, ?_⟩
  · rw [h.policy]
    exact P.bound
  · obtain hpend | hnone := h.pending hp (.inr hk)
    · exact h.lease_none (P.probing hpend hk)
    · exact hnone
  · obtain ⟨heq, -⟩ | ⟨l, d, -, -, -, heq⟩ := ptySync_cases a <;> rw [heq]
    · exact P
    · exact ⟨P.bound, P.probing⟩
  · rw [hc.policy]
    exact hb
  · simp [hc.pending]
  · cases c <;> exact P.probing

theorem moves_call {v : LeaseView} (h : Core v) (hb : ∀ {s}, (a.prepared c).policy.boundSession = some s → s = home)
    (hm : Moves loose strand v ((a.effect c).view home env)) : Moves loose strand v ((a.call c).view home env) := by
  rw [call_eq]
  refine hm.trans (moves_reevaluate (hm.core h) ?_)
  rw [effect_policy]
  exact hb

theorem moves_requestFailed (a : PaneLease) (id home : Nat) (env : PaneEnv) :
    Steps loose strand home env a (a.requestFailed id) := by
  unfold requestFailed
  split
  · split
    · exact moves_yield a home env
    · exact .refl _
  · exact .refl _

/-! ### Timers, policies and connections -/

theorem moves_reconnected (ho : a.out = []) :
    Moves loose strand (a.view home env) (a.reconnected.view home env.redialed) := by
  let b : PaneLease := { a.dropAcquire with pending := none }
  have hout : a.dropAcquire.out = [] := by
    unfold dropAcquire
    split
    · exact ho
    · split <;> exact ho
  have hredial : Moves loose strand (b.view home env)
      ({ b with needsReclaim := b.needsReclaim || b.lease.isSome, needsProbe := b.needsProbe || b.suppressed }.view home
        env.redialed) := by
    refine Moves.trans (.move (.reconnect rfl)) (.of_eq ?_)
    simp [view, hout, PaneEnv.redialed, paneRequests, asked, b]
  exact (moves_yield a home env).trans hredial

theorem moves_handle {m : ToPane} {rest : List ToClient} (hm : env.live = m.message :: rest)
    (S : Sound False False (a.view home env)) (P : Proper home a) :
    Moves False False (a.view home env) ((a.handle m).view home (env.reading rest)) := by
  have h := S.core
  cases m with
  | granted id s e seq => exact moves_call (c := .onGranted id s e seq) h P.bound (moves_granted hm h P seq)
  | reclaimed id ok cur seq =>
    exact moves_call (c := .onReclaimResult id ok cur seq) h P.bound (moves_reclaimResult hm S P seq)
  | released id => exact moves_call (c := .onReleased id) h P.bound (moves_released hm h)
  | revoked s e new => exact moves_call (c := .onRevoked s e new) h P.bound (moves_lostMessage hm S P)
  | staleLease s e cur => exact moves_call (c := .onStaleLease s e cur) h P.bound (moves_lostMessage hm S P)
  | vacated s => exact moves_call (c := .onVacated) h P.bound ((moves_unsuppress a home _).trans (moves_recv hm nofun))
  | ack s e seq =>
    refine moves_call (c := .onResizeAck s e seq) h P.bound ((moves_recv hm trivial).trans ?_)
    refine Moves.trans (.of_eq ?_) (moves_ptySync _ home _)
    unfold resizeAck
    split <;> rfl
  | staleResize e seq =>
    refine moves_call (c := .onStaleResize e seq) h P.bound ((moves_recv hm trivial).trans ?_)
    simp only [effect]
    split
    · exact moves_resend a seq home _
    · exact .refl _
  | failed id =>
    exact moves_call (c := .onRequestFailed id) h P.bound ((moves_recv hm trivial).trans (moves_requestFailed a id home _))

theorem moves_onVisibleApplied (h : Core (a.view home env)) (P : Proper home a) (cols rows : UInt16) :
    Steps loose strand home env a (a.onVisibleApplied cols rows) :=
  moves_call (c := .onVisibleApplied cols rows) h P.bound
    (moves_ptySync (a.prepared (.onVisibleApplied cols rows)) home env)

theorem moves_onRetryTimer (h : Core (a.view home env)) (P : Proper home a) :
    Steps loose strand home env a a.onRetryTimer :=
  moves_call (c := .onRetryTimer) h P.bound (.refl _)

theorem moves_onUnackedTimeout (h : Core (a.view home env)) (P : Proper home a) :
    Steps loose strand home env a a.onUnackedTimeout := by
  refine moves_call (c := .onUnackedTimeout) h P.bound ?_
  simp only [effect]
  split
  · exact moves_ptySync { a with latestSent := none } home env
  · exact .refl _

theorem relinquish_frame {σ : Type} (a : PaneLease σ) : a.relinquish.lease = none ∧
    a.relinquish.suppressed = a.suppressed := by
  have hrel : a.releaseLease.lease = none ∧ a.releaseLease.suppressed = a.suppressed := by
    unfold releaseLease
    split
    next hl => exact ⟨hl, rfl⟩
    · exact ⟨rfl, rfl⟩
  unfold relinquish dropAcquire
  split
  · exact hrel
  · split <;> exact hrel

/-- A pane is only bound to another session after it gave everything up, and if it is not suppressed. -/
theorem moves_setPolicy {p : Pane.Policy} {userIntent : Bool} (h : Core (a.view home env)) (P : Proper home a)
    (hb : ∀ {s}, p.boundSession = some s → s = home')
    (hh : home' = home ∨ a.rebound p = true ∧ (userIntent = true ∨ a.suppressed = false)) :
    Moves loose strand (a.view home env) ((a.setPolicy p userIntent).view home' env) := by
  let b : PaneLease := { a with policy := p }
  let c : PaneLease := if userIntent then b.unsuppress else b
  let d : PaneLease := if a.rebound p then c.relinquish else c
  have hc : Steps loose strand home env a c := by
    show Moves loose strand (b.view home env) _
    simp only [c]
    split
    · exact moves_unsuppress b home env
    · exact .refl _
  have hd : Steps loose strand home env c d := by
    simp only [d]
    split
    · exact moves_relinquish (hc.core h)
    · exact .refl _
  have hbind : Moves loose strand (d.view home env) (d.view home' env) := by
    rcases hh with rfl | ⟨hre, hsup⟩
    · exact .refl _
    · have hd' : d = c.relinquish := if_pos hre
      have hsup' : d.suppressed = false := by
        rw [hd', (relinquish_frame c).2]
        simp only [c]
        split
        · rfl
        next hui => exact hsup.resolve_left hui
      have hcur : (d.view home env).current = none := by
        simp only [view, hd', (relinquish_frame c).1]
        rfl
      refine .move (.bind home' hcur hsup' fun {q} hq hk => ?_)
      obtain ⟨p, -, hprobe, rfl⟩ := asked_eq_some.mp hq
      have hkind : p.kind = .probe := by
        cases hk' : p.kind <;> simp_all [Pane.Pending.request]
      rw [hprobe hkind] at hsup'
      cases hsup'
  exact moves_call (c := .setPolicy p userIntent) h hb (hc.trans (hd.trans hbind))

end PaneLease
end Ferryx
