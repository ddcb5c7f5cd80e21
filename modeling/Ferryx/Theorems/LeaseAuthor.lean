import Ferryx.Lib.TreeMap
import Ferryx.Theorems.LeaseKept

/-! The view of an author (`Author.view`) is its lease state together with what surrounds it (`LeaseEnv`). Every
function of the author takes the view along a sequence of moves. -/

namespace Ferryx
open Std Lib Option ExtTreeMap

/-! ### The view of an author -/

/-- What surrounds an author: the messages on the live connection and the sessions' side of its leases. -/
structure LeaseEnv (β : Type) where
  flight : List (Out β)
  late : Set Req
  live : List ToClient
  last : Nat → Nat
  top : Nat → Nat
  held : Set EpochKey
  gid : EpochKey → Option Nat
  blocked : Set Nat

def LeaseEnv.reading {β : Type} (env : LeaseEnv β) (live : List ToClient) : LeaseEnv β := { env with live }

def Out.req? {β : Type} : Out β → Option Req
  | .acquire id session => some (.acquire id session)
  | .reclaim id session epoch => some (.reclaim id session epoch)
  | .release id session epoch => some (.release id session epoch)
  | .write _ session epoch _ _ => some (.write session epoch)
  | .getEpochState _ session epoch => some (.query session epoch)
  | .classified .. => none

def requests {β : Type} (os : List (Out β)) : Set Req := { r | ∃ o ∈ os, o.req? = some r }

def LeaseEnv.redialed {β : Type} (env : LeaseEnv β) : LeaseEnv β :=
  { env with flight := [], late := requests env.flight ∪ env.late, live := [] }

namespace Author
variable {β : Type}

/-- What the lease protocol sees of an author. -/
def view (a : Author β) (env : LeaseEnv β) : LeaseView where
  session := a.session
  nextId := a.nextId
  pending := a.pending
  current := a.current
  needsReclaim := a.needsReclaim
  suppressed := a.suppressed
  needsProbe := a.needsProbe
  disowned := { s | s ∈ a.disowned }
  lost := { k | k ∈ a.finalizing }
  now := requests (env.flight ++ a.out)
  late := env.late
  live := env.live
  last := env.last
  top := env.top
  held := env.held
  gid := env.gid
  blocked := env.blocked

end Author

variable {β : Type} {os : List (Out β)} {o : Out β}

theorem requests_append (os os' : List (Out β)) : requests (os ++ os') = requests os ∪ requests os' := by
  ext r
  simp [requests, or_and_right, exists_or]

theorem requests_append_some {r : Req} (h : o.req? = some r) :
    requests (os ++ [o]) = insert r (requests os) := by
  have hone : requests [o] = {r} := by
    ext r'
    simp [requests, h, eq_comm]
  rw [requests_append, hone, Set.union_singleton]

theorem requests_append_none (h : o.req? = none) : requests (os ++ [o]) = requests os := by
  have hnone : requests [o] = ∅ := by
    ext r
    simp [requests, h]
  rw [requests_append, hnone, Set.union_empty]

namespace Author
open LeaseView
variable {β : Type} {loose strand : Prop} {a : Author β} {env : LeaseEnv β}

abbrev Steps (loose strand : Prop) (env : LeaseEnv β) (a b : Author β) : Prop :=
  Moves loose strand (a.view env) (b.view env)

variable {o : Out β} {s : Nat} {c : Cur β} {other : Bool} {v : LeaseView} {p : Pending}

theorem view_push (a : Author β) (env : LeaseEnv β) {r : Req} (h : o.req? = some r) :
    (a.push o).view env = { a.view env with now := insert r (a.view env).now } := by
  simp only [view, push, ← List.append_assoc, requests_append_some h]
  rfl

theorem view_push_none (a : Author β) (env : LeaseEnv β) (h : o.req? = none) : (a.push o).view env = a.view env := by
  simp only [view, push, ← List.append_assoc, requests_append_none h]
  rfl

theorem asks_requestOut (a : Author β) (id : Nat) (kind : PendingKind) (s : Nat) :
    ∃ r, (a.requestOut id kind s).req? = some r ∧ Pending.Asks ⟨id, kind, s⟩ r := by
  cases kind with
  | acquire => exact ⟨_, rfl, rfl, rfl, rfl⟩
  | reclaim e => exact ⟨_, rfl, rfl, rfl, .inl rfl⟩
  | probe => exact ⟨_, rfl, rfl, rfl, .inr rfl⟩
  | release => exact ⟨_, rfl, rfl, rfl, rfl, rfl⟩

/-! ### Requests -/

theorem moves_request {kind : PendingKind} (hp : a.pending = none) (hm : (a.view env).May s kind) :
    Moves loose strand (a.view env) ((a.request kind s).view env) := by
  obtain ⟨r, hr, hask⟩ := asks_requestOut a.takeId a.takeId.nextId kind s
  have hv : (a.request kind s).view env = { a.view env with
      nextId := (a.view env).nextId + 1, pending := some ⟨(a.view env).nextId + 1, kind, s⟩
      now := insert r (a.view env).now } := by
    rw [request, view_push _ _ hr]
    rfl
  rw [hv]
  exact .move (.ask hp hm hask)

theorem view_mapFinalizing (a : Author β) (env : LeaseEnv β) (g : Finalizing β → Finalizing β) :
    (a.mapFinalizing g).view env = a.view env := by
  have : { k : EpochKey | k ∈ (a.mapFinalizing g).finalizing } = { k | k ∈ a.finalizing } := by
    ext k
    simp [mapFinalizing]
  simp only [view, this]
  rfl

theorem view_modifyFinalizing (a : Author β) (env : LeaseEnv β) (k : EpochKey) (g : Finalizing β → Finalizing β) :
    ({ a with finalizing := a.finalizing.modify k g } : Author β).view env = a.view env := by
  have : { k' : EpochKey | k' ∈ a.finalizing.modify k g } = { k' | k' ∈ a.finalizing } := by
    ext k'
    exact mem_modify
  simp only [view, this]
  rfl

theorem moves_queryEpoch {k : EpochKey} (hk : k ∈ a.finalizing) :
    Moves loose strand (a.view env) ((a.queryEpoch k).view env) := by
  have hv : (a.queryEpoch k).view env =
      { a.view env with nextId := (a.view env).nextId + 1, now := insert (.query k.1 k.2) (a.view env).now } := by
    rw [queryEpoch, view_push _ _ rfl, view_modifyFinalizing]
    rfl
  rw [hv]
  exact .move (.query hk)

theorem moves_queries {ks : List EpochKey} (hks : ∀ k ∈ ks, k ∈ a.finalizing) :
    Steps loose strand env a (ks.foldl queryEpoch a) := by
  induction ks generalizing a with
  | nil => exact .refl _
  | cons k ks ih =>
    refine (moves_queryEpoch (hks k List.mem_cons_self)).trans (ih fun k' hk' => ?_)
    exact mem_modify.mpr (hks k' (List.mem_cons_of_mem _ hk'))

theorem moves_queryDue (a : Author β) (env : LeaseEnv β) : Steps loose strand env a a.queryDue := by
  refine moves_queries fun k hk => ?_
  rw [mem_keys] at hk
  exact mem_of_mem_filter hk

theorem current_of_cur (hc : a.cur = some c) : a.current = some (c.session, c.epoch) := by
  rw [current, hc, map_some]

theorem finalizing_insert (m : ExtTreeMap EpochKey (Finalizing β)) (k : EpochKey) (f : Finalizing β) :
    { k' | k' ∈ m.insert k f } = insert k { k' | k' ∈ m } := by
  ext k'
  simp [eq_comm (a := k')]

theorem finalizing_erase (m : ExtTreeMap EpochKey (Finalizing β)) (k : EpochKey) :
    { k' | k' ∈ m.erase k } = { k' | k' ∈ m } \ {k} := by
  ext k'
  simp [and_comm, eq_comm (a := k')]

theorem pending_detach (h : LeaseView.Core (a.view env)) (hc : a.cur = some c) (other : Bool) :
    (a.detach c other).pending = Pending.unlessReclaim a.pending := by
  simp only [detach]
  cases hp : a.pending with
  | none => rfl
  | some p =>
    obtain ⟨id, kind, s⟩ := p
    cases kind with
    | reclaim e =>
      have hcur := (h.epochs.reclaiming hp rfl).symm.trans (current_of_cur hc)
      cases hcur
      simp [Pending.unlessReclaim, Option.filter]
    | _ => simp [Pending.unlessReclaim, Option.filter]

/-! ### Loss of a lease -/

theorem moves_detach (h : LeaseView.Core (a.view env)) (hc : a.cur = some c)
    (ho : other = true → (c.session, c.epoch) ∉ env.held) (hw : other = true → strand ∨ (a.view env).Waits c.session) :
    Steps loose strand env a (a.detach c other) := by
  have hlost : { k | k ∈ (a.detach c other).finalizing } = insert (c.session, c.epoch) { k | k ∈ a.finalizing } :=
    finalizing_insert _ _ _
  refine (moves_detached (k := (c.session, c.epoch)) (current_of_cur hc) ho hw).trans (.of_eq ?_)
  simp only [view, hlost, pending_detach h hc]
  rfl

theorem moves_classify (s e : Nat) (finals : Option (Nat × Nat × Nat)) (hk : (s, e) ∉ env.held) :
    Moves loose strand (a.view env) ((a.classify s e finals).view env) := by
  unfold classify
  split
  · exact .refl _
  · rw [view_push_none _ _ rfl]
    have hv : ({ a with finalizing := a.finalizing.erase (s, e) } : Author β).view env =
        { a.view env with lost := (a.view env).lost \ {(s, e)} } := by
      simp only [view, finalizing_erase]
      rfl
    rw [hv]
    exact .move (.forget hk)

theorem moves_lose (h : LeaseView.Core (a.view env)) {e : Nat} {finals : Option (Nat × Nat × Nat)}
    (hk : a.current = some (s, e) → other = true ∨ finals ≠ none → (s, e) ∉ env.held)
    (hw : a.current = some (s, e) → other = true → strand ∨ (a.view env).Waits s) :
    Steps loose strand env a (a.lose s e finals other) := by
  unfold lose
  split
  · exact .refl _
  next c hc =>
    split
    next heq =>
      obtain ⟨rfl, rfl⟩ := heq
      have hcur := current_of_cur hc
      refine (moves_detach h hc (fun ho => hk hcur (.inl ho)) (hw hcur)).trans ?_
      dsimp only
      split
      next hf => exact moves_classify _ _ _ (hk hcur (.inr (isSome_iff_ne_none.mp hf)))
      · exact .refl _
    · exact .refl _

theorem moves_releaseCur (h : LeaseView.Core (a.view env)) : Steps loose strand env a a.releaseCur := by
  unfold releaseCur
  split
  · exact .refl _
  next s e hcur =>
    obtain ⟨c, hc, hce⟩ := map_eq_some_iff.mp hcur
    cases hce
    have hlose : ∀ b : Author β, b.cur = a.cur → b.lose c.session c.epoch none false = b.detach c false := by
      intro b hb
      simp [lose, hb, hc]
    have hmoves : Steps loose strand env a (a.detach c false) := moves_detach h hc nofun nofun
    refine hmoves.trans ?_
    have hv : (((a.takeId.push (.release a.takeId.nextId c.session c.epoch)).lose c.session c.epoch none false).view env) =
        { (a.detach c false).view env with
          nextId := ((a.detach c false).view env).nextId + 1
          now := insert (.release (((a.detach c false).view env).nextId + 1) c.session c.epoch)
            ((a.detach c false).view env).now } := by
      rw [hlose (a.takeId.push _) rfl]
      simp only [view, detach, push, takeId, ← List.append_assoc]
      rw [requests_append_some (r := .release (a.nextId + 1) c.session c.epoch) rfl]
      rfl
    rw [hv]
    refine .move (.releaseLost (k := (c.session, c.epoch)) ?_)
    exact mem_insert_self

/-! ### Writes -/

theorem moves_sendChunk (hc : a.cur = some c) (hn : a.needsReclaim = false) (next stop : Nat) :
    Moves loose strand (a.view env) ((a.sendChunk c next stop).view env) := by
  have hv : (a.sendChunk c next stop).view env = { a.view env with
      nextId := (a.view env).nextId + 1, now := insert (.write c.session c.epoch) (a.view env).now } := by
    rw [sendChunk, view_push _ _ rfl]
    rfl
  rw [hv]
  exact .move (.write (k := (c.session, c.epoch)) (current_of_cur hc) hn)

theorem moves_sendLoop (windowEnd fuel next : Nat) (hc : a.cur = some c) (hn : a.needsReclaim = false) :
    Steps loose strand env a (sendLoop c windowEnd fuel next a) := by
  induction fuel generalizing next a with
  | zero => exact .refl _
  | succ fuel ih =>
    unfold sendLoop
    split
    · exact (moves_sendChunk hc hn next _).trans (ih _ hc hn)
    · exact .refl _

theorem moves_send (a : Author β) (env : LeaseEnv β) : Steps loose strand env a a.send := by
  unfold send
  split
  · exact .refl _
  next hb =>
    have hn : a.needsReclaim = false := by
      rw [Bool.or_eq_true, not_or] at hb
      simpa using hb.1
    split
    · exact .refl _
    next hc => exact moves_sendLoop _ _ _ hc hn

theorem moves_releaseIdle (h : LeaseView.Core (a.view env)) : Steps loose strand env a a.releaseIdle := by
  unfold releaseIdle
  split
  · exact moves_releaseCur h
  · exact .refl _

theorem current_of_isNone (h : a.cur.isNone = true) : a.current = none := by
  rw [current, isNone_iff_eq_none.mp h, map_none]

theorem moves_nextRequest (hp : a.pending = none) : Steps loose strand env a a.nextRequest := by
  unfold nextRequest
  split
  next c hc _ => exact moves_request hp (current_of_cur hc)
  · split
    next h =>
      simp only [Bool.and_eq_true] at h
      exact moves_request hp ⟨h.1.2, rfl⟩
    · split
      next h =>
        simp only [Bool.and_eq_true, acquireCond, Bool.not_eq_true'] at h
        exact moves_request hp ⟨current_of_isNone h.1, h.2.1.2⟩
      · split
        next s hs =>
          refine moves_request hp (?_ : s ∈ a.disowned)
          rw [← ExtTreeSet.mem_toList]
          exact List.mem_of_mem_head? hs
        · exact .refl _

theorem moves_requestDue (a : Author β) (env : LeaseEnv β) : Steps loose strand env a a.requestDue := by
  unfold requestDue
  split
  next h =>
    rw [Bool.and_eq_true, isNone_iff_eq_none] at h
    exact moves_nextRequest h.1
  · exact .refl _

theorem moves_reevaluate (h : LeaseView.Core (a.view env)) : Steps loose strand env a a.reevaluate := by
  have hq : Steps loose strand env a a.queryDue := moves_queryDue a env
  exact ((hq.trans (moves_releaseIdle (hq.core h))).trans (moves_requestDue _ env)).trans (moves_send _ env)

theorem moves_reevaluated (h : LeaseView.Core v) (hm : Moves loose strand v (a.view env)) :
    Moves loose strand v (a.reevaluate.view env) :=
  hm.trans (moves_reevaluate (hm.core h))

theorem moves_unsuppress (a : Author β) (env : LeaseEnv β) : Steps loose strand env a a.unsuppress :=
  .unsuppressed _

/-! ### Calls of the user -/

theorem view_appendTyped (a : Author β) (env : LeaseEnv β) (b : List β) : (a.appendTyped b).view env = a.view env := by
  unfold appendTyped
  split
  next c hc =>
    simp only [view, current, hc]
    rfl
  · rfl

theorem moves_typeBytes (h : LeaseView.Core (a.view env)) (b : List β) :
    Moves loose strand (a.view env) ((a.typeBytes b).view env) := by
  have hstart : Moves loose strand (a.view env) (a.startTyping.view env) := moves_unsuppress { a with typing := true } env
  rw [← view_appendTyped a.startTyping env b] at hstart
  exact moves_reevaluated h hstart

theorem moves_setFocus (h : LeaseView.Core (a.view env)) (focused : Bool) :
    Steps loose strand env a (a.setFocus focused) := by
  refine moves_reevaluated h ?_
  split
  · exact moves_unsuppress { a with focused } env
  · exact .refl _

theorem moves_yield (hp : a.pending = some p) (hk : p.kind ≠ .acquire) :
    Steps loose strand env a ({ a with pending := none } : Author β) := by
  refine Moves.trans (.move (.yield hp)) (.of_eq ?_)
  simp only [view, Pending.disown, if_neg hk]
  rfl

theorem moves_yieldAcquire {id : Nat} (hp : a.pending = some ⟨id, .acquire, s⟩) : Moves loose strand (a.view env)
      (({ a with disowned := a.disowned.insert s, pending := none } : Author β).view env) := by
  refine Moves.trans (.move (.yield hp)) (.of_eq ?_)
  simp only [view, setOf_mem_insert]
  rfl

theorem moves_abandonPending (a : Author β) (env : LeaseEnv β) : Steps loose strand env a a.abandonPending := by
  unfold abandonPending
  split
  next id s hp => exact moves_yieldAcquire hp
  next id s hp => exact moves_yield hp nofun
  · exact .refl _

theorem view_dropUnassigned (a : Author β) (env : LeaseEnv β) : a.dropUnassigned.view env = a.view env := by
  unfold dropUnassigned
  split
  · rfl
  · rw [view_push_none _ _ rfl]
    rfl

theorem releaseCur_current (a : Author β) : a.releaseCur.current = none := by
  unfold releaseCur
  split
  next h => exact h
  next s e hcur =>
    obtain ⟨c, hc, hce⟩ := map_eq_some_iff.mp hcur
    cases hce
    simp [lose, takeId, push, hc, current, detach]

theorem abandonPending_pending (a : Author β) (hp : a.abandonPending.pending = some p) : p.kind ≠ .probe := by
  unfold abandonPending at hp
  split at hp
  · cases hp
  · cases hp
  next h =>
    intro hk
    obtain ⟨id, kind, s⟩ := p
    cases hk
    exact h id s hp

theorem moves_rebind (h : LeaseView.Core (a.view env)) (s : Nat) :
    Moves loose strand (a.view env) ((a.rebind s).view env) := by
  have h₁ : Moves loose strand (a.view env) (a.releaseCur.abandonPending.dropUnassigned.view env) := by
    rw [view_dropUnassigned]
    exact (moves_releaseCur h).trans (moves_abandonPending _ env)
  have h₂ := h₁.trans (moves_unsuppress _ env)
  have hcur : a.releaseCur.abandonPending.dropUnassigned.unsuppress.current = none := by
    have hab : a.releaseCur.abandonPending.current = none := by
      unfold abandonPending
      split <;> exact releaseCur_current a
    unfold dropUnassigned
    split <;> exact hab
  have hpend : ∀ {p}, a.releaseCur.abandonPending.dropUnassigned.unsuppress.pending = some p → p.kind ≠ .probe := by
    intro p hp
    refine abandonPending_pending a.releaseCur (p := p) ?_
    unfold dropUnassigned at hp
    split at hp <;> exact hp
  unfold rebind
  generalize a.releaseCur.abandonPending.dropUnassigned = b at *
  exact moves_reevaluated h (h₂.trans (.move (.bind s hcur rfl hpend)))

/-! ### Messages -/

section Messages
variable {m : ToClient} {rest : List ToClient} {id s e : Nat}

section
variable (hl : env.live = m :: rest)
include hl

theorem moves_recv (hm : (a.view env).Idle m) : Moves loose strand (a.view env) (a.view (env.reading rest)) :=
  .move (.recv hl hm)

theorem mem_live : m ∈ env.live := hl ▸ List.mem_cons_self

theorem live_split : env.live = [] ++ m :: rest := hl

theorem mem_live_of_rest {m' : ToClient} (hm : m' ∈ rest) : m' ∈ env.live :=
  hl ▸ List.mem_cons_of_mem _ hm

theorem moves_onQuiet (h : LeaseView.Core (a.view env)) (hm : (a.view env).Idle m) {b : Author β}
    (hb : b.view (env.reading rest) = a.view (env.reading rest)) :
      Moves loose strand (a.view env) (b.reevaluate.view (env.reading rest)) :=
  moves_reevaluated h (hb ▸ moves_recv hl hm)

end

theorem id_ne_of_pending {p : Pending} (hp : a.pending = some p) (hne : p.id ≠ id) : ∀ q, a.pending = some q →
    q.id ≠ id := by
  intro q hq
  cases hp.symm.trans hq
  exact hne

theorem view_ack (a : Author β) (env : LeaseEnv β) (s e acc com : Nat) : (a.ack s e acc com).view env = a.view env := by
  unfold ack
  split
  next c hc =>
    split
    · simp only [view, current, hc]
      rfl
    · exact view_modifyFinalizing a env _ _
  · exact view_modifyFinalizing a env _ _

theorem view_answered (a : Author β) (env : LeaseEnv β) (attempt : Option Nat) (s e : Nat) :
    (a.answered attempt s e).view env = a.view env := by
  unfold answered
  split
  · split <;> rfl
  · rfl

theorem moves_onInputAck {attempt : Option Nat} {acc com : Nat} (hl : env.live = .ack attempt s e acc com :: rest)
    (h : LeaseView.Core (a.view env)) :
      Moves loose strand (a.view env) ((a.onInputAck attempt s e acc com).view (env.reading rest)) := by
  refine moves_onQuiet hl h trivial ?_
  have hack : ((a.answered attempt s e).ack s e acc com).view (env.reading rest) = a.view (env.reading rest) := by
    rw [view_ack, view_answered]
  split
  · exact hack
  · exact hack

theorem moves_onWriteRetryable {attempt : Nat} {gap : Option Nat} (hl : env.live = .retry attempt s e gap :: rest)
    (h : LeaseView.Core (a.view env)) :
      Moves loose strand (a.view env) ((a.onWriteRetryable attempt s e gap).view (env.reading rest)) := by
  unfold onWriteRetryable
  split
  · exact moves_recv hl trivial
  · refine moves_onQuiet hl h trivial ?_
    have hgap : (a.ackGap s e gap).view (env.reading rest) = a.view (env.reading rest) := by
      unfold ackGap
      split
      · exact view_ack a _ s e _ 0
      · rfl
    exact hgap

theorem moves_onLeaseLost {o : Nat} (hl : env.live = .lost s e o :: rest) (h : LeaseView.Core (a.view env))
    (hw : strand ∨ Waiting (a.view env)) :
      Moves loose strand (a.view env) ((a.onLeaseLost s e o).view (env.reading rest)) := by
  have hlose : Steps loose strand env a (a.lose s e none (o != 0)) := by
    refine moves_lose h (fun _ _ => (h.ended.lost (mem_live hl)).2) fun hc ho => hw.imp_right fun hw => ?_
    exact (hw.lost (live_split hl) (by simpa using ho) nofun (.inl hc)).imp_right (mem_live_of_rest hl)
  refine hlose.trans (moves_onQuiet hl (hlose.core h) ?_ rfl)
  show (a.lose s e none (o != 0)).current ≠ some (s, e)
  unfold lose
  split
  next hc => simp [current, hc]
  next c hc =>
    split
    · simp [detach, current]
    next hne =>
      rw [current_of_cur hc]
      rintro ⟨⟩
      exact hne ⟨rfl, rfl⟩

theorem moves_onVacated (hl : env.live = .vacated s :: rest) (h : LeaseView.Core (a.view env)) :
    Moves loose strand (a.view env) ((a.onVacated s).view (env.reading rest)) := by
  unfold onVacated
  split
  · have hu : Steps loose strand env a a.unsuppress := moves_unsuppress a env
    exact hu.trans (moves_onQuiet hl (hu.core h) nofun rfl)
  next hs => exact moves_onQuiet hl h (fun _ => hs) rfl

theorem moves_releaseGrant (hl : env.live = .granted id s e :: rest) (hp : ∀ {p}, a.pending = some p → p.id ≠ id) :
    Moves loose strand (a.view env) ((a.releaseGrant s e).view (env.reading rest)) := by
  have hgive :
      Moves loose strand (a.view env) ((a.takeId.push (.release a.takeId.nextId s e)).view (env.reading rest)) := by
    rw [view_push _ _ rfl]
    exact .move (.giveBack hl hp)
  refine hgive.trans ?_
  unfold releaseGrant
  dsimp only
  split
  · exact .refl _
  next hc =>
    refine (Moves.disown _ (s := s) fun {k} hk heq => hc ?_).trans (.of_eq ?_)
    · obtain ⟨c, hcur, rfl⟩ := map_eq_some_iff.mp hk
      have hcur : a.cur = some c := hcur
      simpa [takeId, push, hcur] using heq
    · simp only [view, setOf_mem_insert]
      rfl

theorem moves_takeGrant (hl : env.live = .granted id s e :: rest) (h : LeaseView.Core (a.view env)) :
    Moves loose strand (a.view env) ((a.takeGrant id s e).view (env.reading rest)) := by
  have hans : ∀ {p}, a.pending = some p → p.id = id → p.kind = .acquire ∧ s = p.session :=
    fun hp hid => h.messages.answer hp (mem_live hl) (congrArg some hid.symm)
  unfold takeGrant
  split
  next pid ps hp =>
    split
    next hid =>
      subst hid
      obtain ⟨-, rfl⟩ := hans hp rfl
      dsimp only
      split
      next hcond =>
        obtain ⟨-, hs, -, hsup⟩ := hcond
        refine Moves.trans (.move (.adopt hl hp hs hsup)) (.of_eq ?_)
        simp only [view, adopt, setOf_mem_erase]
        rfl
      · -- The request is given up, and the grant goes back.
        refine (moves_yieldAcquire hp).trans
          ((moves_releaseGrant (a := { a with disowned := a.disowned.insert s, pending := none }) hl nofun).trans
            (.of_eq ?_))
        have hcur : a.cur = none := map_eq_none_iff.mp (h.epochs.acquiring hp rfl)
        simp only [releaseGrant, takeId, push, hcur, any_none, if_false, Bool.false_eq_true, view, setOf_mem_insert,
          Set.insert_eq_of_mem (Set.mem_insert _ _)]
        rfl
    next hne => exact moves_releaseGrant hl (id_ne_of_pending hp hne _)
  next hn =>
    refine moves_releaseGrant hl fun {p} hp hid => ?_
    obtain ⟨pid, kind, ps⟩ := p
    obtain ⟨rfl, -⟩ := hans hp hid
    exact hn _ _ hp

theorem moves_confirmRelease (hl : env.live = .released id :: rest) (h : LeaseView.Core (a.view env)) :
    Moves loose strand (a.view env) ((a.confirmRelease id).view (env.reading rest)) := by
  unfold confirmRelease
  split
  next pid ps hp =>
    split
    next hid =>
      subst hid
      obtain ⟨hle, hn⟩ := h.awaited.released hp rfl (mem_live hl)
      have hy : Steps loose strand env a ({ a with pending := none } : Author β) := moves_yield hp nofun
      have hd : Moves loose strand (({ a with pending := none } : Author β).view env)
          (({ a with pending := none, disowned := a.disowned.erase ps } : Author β).view env) := by
        refine Moves.trans (.move (.disownNot (s := ps) (fun _ => hn) fun hr => ?_)) (.of_eq ?_)
        · exact (h.numbers.newest hp hr .acquire).trans hle
        · simp only [view, setOf_mem_erase]
          rfl
      exact (hy.trans hd).trans (moves_recv hl nofun)
    next hne => exact moves_recv hl (id_ne_of_pending hp hne)
  next hn =>
    refine moves_recv hl fun p hp hid => ?_
    obtain ⟨pid, kind, ps⟩ := p
    obtain rfl : kind = .release := h.messages.answer hp (mem_live hl) (congrArg some hid.symm)
    exact hn _ _ hp

theorem lose_pending_none (hp : a.pending = none) (finals : Option (Nat × Nat × Nat)) (other : Bool) :
    (a.lose s e finals other).pending = none := by
  have hc : ∀ b : Author β, (b.classify s e finals).pending = b.pending := by
    intro b
    unfold classify
    split <;> rfl
  unfold lose
  split
  · exact hp
  · split
    · dsimp only
      split
      · rw [hc]
        simp [detach, hp]
      · simp [detach, hp]
    · exact hp

/-! ### Answers to reclaims -/

section Reclaims
variable {ok : Bool} {epoch acc com : Nat} {finals : Option (Nat × Nat × Nat)}

section
variable (hl : env.live = .reclaimed id ok epoch acc com finals :: rest) (h : LeaseView.Core (a.view env))
include hl h

theorem moves_finishProbe (hw : strand ∨ Waiting (a.view env)) (hp : a.pending = some ⟨id, .probe, s⟩) :
    Moves loose strand (a.view env)
      ((({ a with pending := none } : Author β).finishProbe s epoch).view (env.reading rest)) := by
  have hs : s = a.session := h.suppress.probing hp rfl
  subst hs
  have hf : Moves loose strand (({ a with pending := none } : Author β).view env)
      ((({ a with pending := none } : Author β).finishProbe a.session epoch).view env) := by
    rw [finishProbe, if_pos rfl]
    by_cases he : epoch = 0
    · -- The session is free.
      refine (moves_unsuppress _ _).trans (.of_eq ?_)
      simp [he, unsuppress, view, current]
    · refine Moves.trans (.move (.probed fun _ => hw.imp_right fun hw => ?_)) (.of_eq ?_)
      · exact (hw.probed hp rfl (live_split hl) he).imp_right (mem_live_of_rest hl)
      · simp [he, view, current]
  refine ((moves_yield hp nofun).trans hf).trans (moves_recv hl fun p hp' => ?_)
  rw [finishProbe, if_pos rfl] at hp'
  cases hp'

theorem moves_finishReclaim (hk : loose ∨ Kept (a.view env)) (hw : strand ∨ Waiting (a.view env))
    (hp : a.pending = some ⟨id, .reclaim e, s⟩) : Moves loose strand (a.view env)
      ((({ a with pending := none } : Author β).finishReclaim s e ok epoch acc com finals).view (env.reading rest)) := by
  have hcur : a.current = some (s, e) := h.epochs.reclaiming hp rfl
  have hy : Steps loose strand env a ({ a with pending := none } : Author β) := moves_yield hp nofun
  refine hy.trans ?_
  have hholds : ({ a with pending := none } : Author β).holds s e = true := beq_iff_eq.mpr hcur
  rw [finishReclaim, if_pos hholds]
  rcases h.ended.reclaimed hp rfl (mem_live hl) with ⟨rfl, rfl⟩ | ⟨rfl, -, hheld⟩
  · -- The lease is confirmed.
    rw [if_pos ⟨rfl, rfl⟩]
    refine Moves.trans (.move (.confirm ?_))
      ((moves_recv (a := { a with pending := none, needsReclaim := false, inflight := ∅ }) hl fun _ => nofun).trans
        (.of_eq ?_))
    · refine hk.imp_right fun hk k hc => ?_
      obtain rfl := some.inj (hcur.symm.trans hc)
      refine (hk.reclaimed hp rfl (live_split hl)).imp_right fun ⟨o, ho⟩ => ?_
      exact ⟨o, mem_live_of_rest hl ho⟩
    · rw [view_ack]
  · -- The lease is lost.
    rw [if_neg (by simp)]
    have hlose : Moves loose strand (({ a with pending := none } : Author β).view env)
        ((({ a with pending := none } : Author β).lose s e finals (epoch != 0)).view env) := by
      refine moves_lose (hy.core h) (fun _ _ => hheld) fun _ ho => hw.imp_right fun hw => ?_
      exact (hw.reclaimed hp rfl (live_split hl) (by simpa using ho)).imp_right (mem_live_of_rest hl)
    refine hlose.trans (moves_recv hl fun p hp' => ?_)
    cases (lose_pending_none rfl finals (epoch != 0)).symm.trans hp'

theorem moves_onReclaimResult (hk : loose ∨ Kept (a.view env)) (hw : strand ∨ Waiting (a.view env)) :
    Moves loose strand (a.view env) ((a.onReclaimResult id ok epoch acc com finals).view (env.reading rest)) := by
  unfold onReclaimResult
  split
  next pid ps hp =>
    split
    next hid =>
      subst hid
      exact moves_reevaluated h (moves_finishProbe hl h hw hp)
    next hne => exact moves_recv hl (id_ne_of_pending hp hne)
  next pid pe ps hp =>
    split
    next hid =>
      subst hid
      exact moves_reevaluated h (moves_finishReclaim hl h hk hw hp)
    next hne => exact moves_recv hl (id_ne_of_pending hp hne)
  next hn₁ hn₂ =>
    refine moves_recv hl fun p hp hid => ?_
    obtain ⟨pid, kind, ps⟩ := p
    obtain ⟨hacq, hrel⟩ : kind ≠ .acquire ∧ kind ≠ .release := h.messages.answer hp (mem_live hl) (congrArg some hid.symm)
    cases kind with
    | acquire => exact hacq rfl
    | release => exact hrel rfl
    | probe => exact hn₁ _ _ hp
    | reclaim pe => exact hn₂ _ _ _ hp

end

end Reclaims

theorem moves_onReclaimEpochUnknown (hl : env.live = .reclaimUnknown id :: rest) (h : LeaseView.Core (a.view env))
    (hs : strand ∨ ∀ {p pe}, a.pending = some p → p.id = id → p.kind ≠ .reclaim pe) :
    Moves loose strand (a.view env) ((a.onReclaimEpochUnknown id).view (env.reading rest)) := by
  unfold onReclaimEpochUnknown
  split
  next pid kind ps hp =>
    split
    next hid =>
      subst hid
      have hans : kind ≠ .acquire ∧ kind ≠ .release := h.messages.answer hp (mem_live hl) rfl
      have hy : Steps loose strand env a ({ a with pending := none } : Author β) := moves_yield hp hans.1
      refine hy.trans ?_
      dsimp only
      split
      next pe =>
        have hlose : Moves loose strand (({ a with pending := none } : Author β).view env)
            ((({ a with pending := none } : Author β).lose ps pe none true).view env) := by
          refine moves_lose (hy.core h) (fun _ _ => (h.ended.reclaimUnknown hp rfl (mem_live hl)).2) fun _ _ => ?_
          exact .inl (hs.resolve_right fun hn => hn hp rfl rfl)
        refine hlose.trans (moves_onQuiet hl (hlose.core (hy.core h)) (fun p hp' => ?_) rfl)
        cases (lose_pending_none rfl none true).symm.trans hp'
      · exact moves_onQuiet hl (hy.core h) nofun rfl
    next hne => exact moves_recv hl (id_ne_of_pending hp hne)
  next hp =>
    refine moves_recv hl fun p hp' => ?_
    cases hp.symm.trans hp'

theorem view_setFinalizing (env : LeaseEnv β) {f : Finalizing β} {k : EpochKey} (hf : a.finalizing[k]? = some f)
    (f' : Finalizing β) :
    (a.setFinalizing k f').view env = a.view env := by
  have hk : k ∈ { k' | k' ∈ a.finalizing } := by
    rw [Set.mem_ofPred_eq, mem_iff_isSome_getElem?, hf]
    rfl
  simp only [view, setFinalizing, finalizing_insert, Set.insert_eq_of_mem hk]
  rfl

theorem moves_onEpochState {fa cm pd : Nat} {fenced : Bool} (hl : env.live = .epoch id s e fa cm pd fenced :: rest)
    (h : LeaseView.Core (a.view env)) :
    Moves loose strand (a.view env) ((a.onEpochState id s e fa cm pd fenced).view (env.reading rest)) := by
  have hr : Moves loose strand (a.view env) (a.view (env.reading rest)) := moves_recv hl trivial
  unfold onEpochState
  split
  · exact hr
  next f hf =>
    split
    · exact hr
    · split
      next hfen =>
        subst hfen
        have hv := view_setFinalizing (env.reading rest) hf { f with query := none }
        exact moves_reevaluated h ((hv ▸ hr).trans (moves_classify s e _ (h.ended.epoch (mem_live hl)).2))
      · have hv := view_setFinalizing (env.reading rest) hf { f with query := none, retry := true }
        refine moves_reevaluated h (hr.trans (hv ▸ ?_))
        rw [view_push _ _ rfl]
        refine .move (.releaseLost (k := (s, e)) ?_)
        exact mem_insert_self

theorem moves_onEpochUnknown (hl : env.live = .epochUnknown s e :: rest) (h : LeaseView.Core (a.view env)) :
    Moves loose strand (a.view env) ((a.onEpochUnknown s e).view (env.reading rest)) := by
  have hc : Steps loose strand env a (a.classify s e none) :=
    moves_classify s e none (h.ended.unknown (mem_live hl)).2
  exact hc.trans (moves_onQuiet hl (hc.core h) trivial rfl)

end Messages

theorem moves_failPending (a : Author β) (env : LeaseEnv β) (id : Nat) : Steps loose strand env a (a.failPending id) := by
  unfold failPending
  split
  next pid kind s hp =>
    split
    · split
      next hk =>
        subst hk
        exact moves_yieldAcquire hp
      next hk => exact moves_yield hp hk
    · exact .refl _
  · exact .refl _

/-! ### Timers and connections -/

theorem moves_onRequestFailed (h : LeaseView.Core v) (hv : Moves loose strand v (a.view env)) (id : Nat) :
    Moves loose strand v ((a.onRequestFailed id).view env) := by
  refine moves_reevaluated h (hv.trans ?_)
  rw [view_mapFinalizing]
  exact moves_failPending a env id

theorem moves_onRetryTimer (h : LeaseView.Core (a.view env)) : Steps loose strand env a a.onRetryTimer := by
  have hv : (({ a with retryTimer := false } : Author β).mapFinalizing Finalizing.clearRetry).view env = a.view env :=
    view_mapFinalizing _ env _
  exact Moves.trans (.of_eq hv) (moves_reevaluate (hv ▸ h))

theorem moves_onSendTimer (h : LeaseView.Core (a.view env)) : Steps loose strand env a a.onSendTimer :=
  moves_reevaluate (a := { a with sendTimer := false }) h

theorem moves_dropPending (a : Author β) (env : LeaseEnv β) : Steps loose strand env a a.dropPending := by
  unfold dropPending
  split
  next id s hp => exact moves_yieldAcquire hp
  next hn =>
    cases hp : a.pending with
    | none =>
      refine .of_eq ?_
      rw [← hp]
    | some p =>
      obtain ⟨id, kind, s⟩ := p
      refine moves_yield hp ?_
      rintro rfl
      exact hn _ _ hp

theorem dropPending_pending (a : Author β) : a.dropPending.pending = none := by
  unfold dropPending
  split <;> rfl

theorem dropPending_out (a : Author β) : a.dropPending.out = a.out := by
  unfold dropPending
  split <;> rfl

theorem moves_onReconnect (h : LeaseView.Core (a.view env)) (ho : a.out = []) :
    Moves loose strand (a.view env) (a.onReconnect.view env.redialed) := by
  have hd : Steps loose strand env a a.dropPending := moves_dropPending a env
  have hv : (a.dropPending.resetConnection.mapFinalizing Finalizing.clearQuery).view env.redialed =
      { a.dropPending.view env with
        now := ∅, late := (a.dropPending.view env).now ∪ (a.dropPending.view env).late, live := []
        needsReclaim := (a.dropPending.view env).needsReclaim || (a.dropPending.view env).current.isSome
        needsProbe := (a.dropPending.view env).needsProbe || (a.dropPending.view env).suppressed } := by
    have hout : a.dropPending.out = [] := (dropPending_out a).trans ho
    rw [view_mapFinalizing]
    simp [view, LeaseEnv.redialed, resetConnection, hout, requests, current]
  exact moves_reevaluated h (hd.trans (hv ▸ .move (.reconnect (dropPending_pending a))))

theorem moves_handle {m : ToClient} {rest : List ToClient} (hl : env.live = m :: rest) (h : LeaseView.Core (a.view env))
    (hk : loose ∨ Kept (a.view env)) (hw : strand ∨ Waiting (a.view env))
    (hu : strand ∨ ∀ {p e}, m = .reclaimUnknown p.id → a.pending = some p → p.kind ≠ .reclaim e) :
    Moves loose strand (a.view env) ((a.handle m).view (env.reading rest)) := by
  cases m with
  | granted id s e => exact moves_reevaluated h (moves_takeGrant hl h)
  | released id => exact moves_reevaluated h (moves_confirmRelease hl h)
  | ack attempt s e acc com => exact moves_onInputAck hl h
  | retry attempt s e gap => exact moves_onWriteRetryable hl h
  | lost s e o => exact moves_onLeaseLost hl h hw
  | reclaimed id ok epoch acc com finals => exact moves_onReclaimResult hl h hk hw
  | reclaimUnknown id =>
    refine moves_onReclaimEpochUnknown hl h (hu.imp_right fun hu => ?_)
    rintro p e hp rfl
    exact hu rfl hp
  | epoch id s e fa cm pd fenced => exact moves_onEpochState hl h
  | epochUnknown s e => exact moves_onEpochUnknown hl h
  | failed id => exact moves_onRequestFailed h (moves_recv hl trivial) id
  | vacated s => exact moves_onVacated hl h

end Author
end Ferryx
