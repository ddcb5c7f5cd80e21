import Ferryx.Lease

/-! The invariant of the lease protocol that no move breaks (`Core`). It comes in parts; each part names the
fields that it is about, so that a move that leaves them alone keeps the part as it is. -/

namespace Ferryx
namespace LeaseView
open Set Function List Option
variable {r : Req} {held : Set EpochKey} {p : Pending}

/-! ### The parts of the invariant -/

/-- Request ids grow, and a granted epoch has the id that asked for it. -/
structure Numbers (nextId : Nat) (pending : Option Pending) (now late : Set Req) (gid : EpochKey → Option Nat)
    (top : Nat → Nat) : Prop where
  pending_le : ∀ {p}, pending = some p → p.id ≤ nextId
  fly_le : ∀ {r id}, r ∈ now ∪ late → r.id? = some id → id ≤ nextId
  gid_le : ∀ {k id}, gid k = some id → id ≤ nextId
  epoch : ∀ {k id}, gid k = some id → k.2 ≠ 0 ∧ k.2 ≤ top k.1
  order : ∀ {s e e' id id'}, gid (s, e) = some id → gid (s, e') = some id' → e < e' → id < id'
  newest : ∀ {p r id s}, pending = some p → r ∈ now ∪ late → r.Lead id s → id ≤ p.id
  asks : ∀ {p r}, pending = some p → r ∈ now ∪ late → r.id? = some p.id → p.Asks r ∧ r ∉ late
  granted : ∀ {p k}, pending = some p → gid k = some p.id → p.kind = .acquire ∧ p.session = k.1

/-- The answers on their way are to requests that were made. -/
structure Messages (nextId : Nat) (pending : Option Pending) (live : List ToClient) (gid : EpochKey → Option Nat)
    (current : Option EpochKey) : Prop where
  le : ∀ {m id}, m ∈ live → m.id? = some id → id ≤ nextId
  answer : ∀ {p m}, pending = some p → m ∈ live → m.id? = some p.id → p.AnsweredBy m
  granted : ∀ {id s e}, .granted id s e ∈ live → gid (s, e) = some id
  once : (live.filterMap ToClient.grantedKey?).Nodup
  unused : ∀ {id s e}, .granted id s e ∈ live → current ≠ some (s, e)

/-- An epoch told lost is no longer held. -/
structure Ended (pending : Option Pending) (live : List ToClient) (top : Nat → Nat) (held : Set EpochKey) : Prop where
  lost : ∀ {s e o}, .lost s e o ∈ live → e ≤ top s ∧ (s, e) ∉ held
  epoch : ∀ {id s e fa cm pd}, .epoch id s e fa cm pd true ∈ live → e ≤ top s ∧ (s, e) ∉ held
  unknown : ∀ {s e}, .epochUnknown s e ∈ live → e ≤ top s ∧ (s, e) ∉ held
  reclaimed : ∀ {p e ok epoch acc com finals}, pending = some p → p.kind = .reclaim e →
    .reclaimed p.id ok epoch acc com finals ∈ live →
      ok = true ∧ epoch = e ∨ ok = false ∧ e ≤ top p.session ∧ (p.session, e) ∉ held
  reclaimUnknown : ∀ {p e}, pending = some p → p.kind = .reclaim e → .reclaimUnknown p.id ∈ live →
    e ≤ top p.session ∧ (p.session, e) ∉ held

/-- The epochs that sessions say the author holds, and those they may still grant. -/
structure Holder (pending : Option Pending) (current : Option EpochKey) (disowned : Set Nat) (lost : Set EpochKey)
    (now late : Set Req) (last top : Nat → Nat) (held : Set EpochKey) (gid : EpochKey → Option Nat) : Prop where
  latest : ∀ {k}, k ∈ held → k.2 = top k.1 ∧ ∃ id, gid k = some id
  accounted : ∀ {k}, k ∈ held → current = some k ∨ k.1 ∈ disowned ∨ k ∈ lost ∨ ∃ id, pending = some ⟨id, .acquire, k.1⟩
  fresh : ∀ {id s}, Req.acquire id s ∈ now ∪ late → last s < id → pending = some ⟨id, .acquire, s⟩ ∨ s ∈ disowned
  owned : ∀ {k}, current = some k → k.1 ∉ disowned
  settled : ∀ {k r id}, current = some k → r ∈ now ∪ late → r.Lead id k.1 → id ≤ last k.1

/-- Only epochs that are given up are released, and only those in use were written to. -/
structure Given (pending : Option Pending) (current : Option EpochKey) (now late : Set Req)
    (gid : EpochKey → Option Nat) : Prop where
  release : ∀ {id s e}, Req.release id s e ∈ now ∪ late → e ≠ 0 →
    (∃ id, gid (s, e) = some id) ∧ current ≠ some (s, e) ∧ ∀ {p}, pending = some p → gid (s, e) ≠ some p.id
  write : ∀ {s e}, Req.write s e ∈ now ∪ late → current = some (s, e) ∨
    (∃ id, gid (s, e) = some id) ∧ current ≠ some (s, e) ∧ ∀ {p}, pending = some p → gid (s, e) ≠ some p.id
  query : ∀ {s e}, Req.query s e ∈ now ∪ late → ∃ id, gid (s, e) = some id

/-- The epochs of the author: at most one is current, and those lost stay lost. -/
structure Epochs (pending : Option Pending) (current : Option EpochKey) (needsReclaim : Bool) (lost : Set EpochKey)
    (now : Set Req) (gid : EpochKey → Option Nat) : Prop where
  reclaiming : ∀ {p e}, pending = some p → p.kind = .reclaim e → current = some (p.session, e)
  acquiring : ∀ {p}, pending = some p → p.kind = .acquire → current = none
  spent : ∀ {k}, current = some k ∨ k ∈ lost → ∃ id, gid k = some id ∧ ∀ {p}, pending = some p → id < p.id
  before : ∀ {s e e'}, current = some (s, e) → (s, e') ∈ lost → e' < e
  reclaim : needsReclaim = true → current ≠ none
  silent : needsReclaim = true → ∀ {s e}, Req.write s e ∉ now

/-- The grant of the pending request, and the release of a disowned session. -/
structure Awaited (pending : Option Pending) (live : List ToClient) (last : Nat → Nat) (held : Set EpochKey)
    (gid : EpochKey → Option Nat) : Prop where
  admitted : ∀ {p e}, pending = some p → gid (p.session, e) = some p.id → p.id ≤ last p.session
  only : ∀ {p e e'}, pending = some p → gid (p.session, e) = some p.id → (p.session, e') ∈ held → e' = e
  granted : ∀ {p e}, pending = some p → gid (p.session, e) = some p.id →
    ∃ pre post, live = pre ++ .granted p.id p.session e :: post ∧ ¬ToldLost pre (p.session, e)
  released : ∀ {p}, pending = some p → p.kind = .release → .released p.id ∈ live →
    p.id ≤ last p.session ∧ ∀ {e}, (p.session, e) ∉ held

/-- A suppressed author has no lease and no acquire that a session would grant. -/
structure Suppressed (session : Nat) (suppressed : Bool) (pending : Option Pending) (current : Option EpochKey)
    (now late : Set Req) (last : Nat → Nat) (held : Set EpochKey) : Prop where
  home : ∀ {k}, current = some k → k.1 = session
  idle : suppressed = true → current = none
  waiting : ∀ {p}, suppressed = true → pending = some p → p.kind ≠ .acquire
  probing : ∀ {p}, pending = some p → p.kind = .probe → p.session = session
  unheld : ∀ {e}, suppressed = true → (session, e) ∉ held
  stale : ∀ {id}, suppressed = true → Req.acquire id session ∈ now ∪ late → id ≤ last session
  probe_unheld : ∀ {p e}, pending = some p → p.kind = .probe → (p.session, e) ∉ held
  probe_stale : ∀ {p id}, pending = some p → p.kind = .probe → Req.acquire id p.session ∈ now ∪ late →
    id ≤ last p.session

/-- What every view of the protocol keeps. -/
structure Core (v : LeaseView) : Prop where
  numbers : Numbers v.nextId v.pending v.now v.late v.gid v.top
  messages : Messages v.nextId v.pending v.live v.gid v.current
  ended : Ended v.pending v.live v.top v.held
  holder : Holder v.pending v.current v.disowned v.lost v.now v.late v.last v.top v.held v.gid
  given : Given v.pending v.current v.now v.late v.gid
  epochs : Epochs v.pending v.current v.needsReclaim v.lost v.now v.gid
  awaited : Awaited v.pending v.live v.last v.held v.gid
  suppress : Suppressed v.session v.suppressed v.pending v.current v.now v.late v.last v.held

/-! ### Parts of a view that forgets -/

section Weaken
variable {session nextId nextId' : Nat} {pending pending' : Option Pending} {current : Option EpochKey}
  {needsReclaim needsReclaim' suppressed suppressed' : Bool} {disowned disowned' : Set Nat} {lost lost' : Set EpochKey}
  {now now' late late' : Set Req} {live live' : List ToClient} {last last' top top' : Nat → Nat}
  {held held' : Set EpochKey} {gid : EpochKey → Option Nat}

theorem Numbers.weaken (h : Numbers nextId pending now late gid top) (hn : nextId ≤ nextId')
    (hp : ∀ {p}, pending' = some p → pending = some p) (hnow : now' ⊆ now) (hlate : late' ⊆ late)
    (ht : ∀ s, top s ≤ top' s) : Numbers nextId' pending' now' late' gid top' := by
  have hfly : now' ∪ late' ⊆ now ∪ late := union_subset_union hnow hlate
  exact {
    pending_le := fun h₁ => (h.pending_le (hp h₁)).trans hn
    fly_le := fun hr hid => (h.fly_le (hfly hr) hid).trans hn
    gid_le := fun hg => (h.gid_le hg).trans hn
    epoch := fun hg => ⟨(h.epoch hg).1, (h.epoch hg).2.trans (ht _)⟩
    order := h.order
    newest := fun h₁ hr => h.newest (hp h₁) (hfly hr)
    asks := fun h₁ hr hid => (h.asks (hp h₁) (hfly hr) hid).imp_right fun hn hl => hn (hlate hl)
    granted := fun h₁ => h.granted (hp h₁) }

theorem Numbers.send (h : Numbers nextId pending now late gid top)
    (hid : r.id? = none ∨ r.id? = some (nextId + 1)) (hlead : pending = none ∨ ∀ {id s}, ¬r.Lead id s) :
    Numbers (nextId + 1) pending (insert r now) late gid top := {
  h with
  pending_le hp := Nat.le_succ_of_le (h.pending_le hp)
  fly_le := by
    rintro r' id ((rfl | hr) | hr) hid'
    · rcases hid with hid | hid <;> rw [hid] at hid' <;> cases hid'
      exact le_rfl
    · exact Nat.le_succ_of_le (h.fly_le (.inl hr) hid')
    · exact Nat.le_succ_of_le (h.fly_le (.inr hr) hid')
  gid_le hg := Nat.le_succ_of_le (h.gid_le hg)
  newest := by
    rintro p r' id s hp ((rfl | hr) | hr) hl
    · rcases hlead with hn | hn
      · cases hn.symm.trans hp
      · exact (hn hl).elim
    · exact h.newest hp (.inl hr) hl
    · exact h.newest hp (.inr hr) hl
  asks := by
    rintro p r' hp ((rfl | hr) | hr) hid'
    · have hle := h.pending_le hp
      rcases hid with hid | hid <;> rw [hid] at hid'
      · cases hid'
      · have := some.inj hid'
        omega
    · exact h.asks hp (.inl hr) hid'
    · exact h.asks hp (.inr hr) hid' }

theorem Messages.weaken (h : Messages nextId pending live gid current) (hn : nextId ≤ nextId')
    (hp : ∀ {p}, pending' = some p → pending = some p) (hl : live'.Sublist live) :
      Messages nextId' pending' live' gid current where
  le hm hid := (h.le (hl.subset hm) hid).trans hn
  answer h₁ hm := h.answer (hp h₁) (hl.subset hm)
  granted hm := h.granted (hl.subset hm)
  once := h.once.sublist (hl.filterMap _)
  unused hm := h.unused (hl.subset hm)

theorem Messages.unset (h : Messages nextId pending live gid current) : Messages nextId pending live gid none :=
  ⟨h.le, h.answer, h.granted, h.once, fun _ hc => by cases hc⟩

theorem Ended.weaken (h : Ended pending live top held) (hp : ∀ {p}, pending' = some p → pending = some p)
    (hl : live' ⊆ live) (ht : ∀ s, top s ≤ top' s) (hh : held' ⊆ held) : Ended pending' live' top' held' where
  lost hm := (h.lost (hl hm)).imp (fun hle => hle.trans (ht _)) fun hn hm => hn (hh hm)
  epoch hm := (h.epoch (hl hm)).imp (fun hle => hle.trans (ht _)) fun hn hm => hn (hh hm)
  unknown hm := (h.unknown (hl hm)).imp (fun hle => hle.trans (ht _)) fun hn hm => hn (hh hm)
  reclaimed h₁ hk hm := (h.reclaimed (hp h₁) hk (hl hm)).imp_right fun ⟨hok, hle, hn⟩ =>
    ⟨hok, hle.trans (ht _), fun hm => hn (hh hm)⟩
  reclaimUnknown h₁ hk hm := (h.reclaimUnknown (hp h₁) hk (hl hm)).imp (fun hle => hle.trans (ht _)) fun hn hm => hn (hh hm)

section
variable (h : Holder pending current disowned lost now late last top held gid)
include h

theorem Holder.weaken (hp : ∀ {id s}, pending = some ⟨id, .acquire, s⟩ → pending' = some ⟨id, .acquire, s⟩ ∨ s ∈ disowned')
    (hd : disowned ⊆ disowned') (hc : ∀ {k}, current = some k → k.1 ∉ disowned') (hl : lost ⊆ lost')
    (hnow : now' ⊆ now) (hlate : late' ⊆ late) (hlast : ∀ s, last s ≤ last' s) (hh : held' ⊆ held)
    (ht : ∀ {k}, k ∈ held' → top' k.1 = top k.1) :
      Holder pending' current disowned' lost' now' late' last' top' held' gid := by
  have hfly : now' ∪ late' ⊆ now ∪ late := union_subset_union hnow hlate
  exact {
    latest := fun hk => by
      rw [ht hk]
      exact h.latest (hh hk)
    accounted := fun hk => by
      rcases h.accounted (hh hk) with hk | hk | hk | ⟨id, hk⟩
      · exact .inl hk
      · exact .inr (.inl (hd hk))
      · exact .inr (.inr (.inl (hl hk)))
      · exact (hp hk).elim (fun hk => .inr (.inr (.inr ⟨id, hk⟩))) fun hk => .inr (.inl hk)
    fresh := fun {id s} hr hlt => (h.fresh (hfly hr) ((hlast _).trans_lt hlt)).elim hp fun hs => .inr (hd hs)
    owned := hc
    settled := fun hk hr hlead => (h.settled hk (hfly hr) hlead).trans (hlast _) }

theorem Holder.send (hacq : ∀ {id s}, r ≠ .acquire id s) (hlead : ∀ {k id}, current = some k → ¬r.Lead id k.1) :
    Holder pending current disowned lost (insert r now) late last top held gid := {
  h with
  fresh := by
    rintro id s ((heq | hr) | hr) hlt
    · exact (hacq heq.symm).elim
    · exact h.fresh (.inl hr) hlt
    · exact h.fresh (.inr hr) hlt
  settled := by
    rintro k r' id hk ((rfl | hr) | hr) hl
    · exact (hlead hk hl).elim
    · exact h.settled hk (.inl hr) hl
    · exact h.settled hk (.inr hr) hl }

end

theorem Given.weaken (h : Given pending current now late gid) (hp : ∀ {p}, pending' = some p → pending = some p)
    (hnow : now' ⊆ now) (hlate : late' ⊆ late) : Given pending' current now' late' gid := by
  have hfly : now' ∪ late' ⊆ now ∪ late := union_subset_union hnow hlate
  exact {
    release := fun hr he =>
      let ⟨hg, hc, hn⟩ := h.release (hfly hr) he
      ⟨hg, hc, fun h₁ => hn (hp h₁)⟩
    write := fun hr => (h.write (hfly hr)).imp_right fun ⟨hg, hc, hn⟩ => ⟨hg, hc, fun h₁ => hn (hp h₁)⟩
    query := fun hr => h.query (hfly hr) }

theorem Epochs.weaken (h : Epochs pending current needsReclaim lost now gid)
    (hp : ∀ {p}, pending' = some p → pending = some p) (hr : needsReclaim' = true → needsReclaim = true)
    (hl : lost' ⊆ lost) (hnow : now' ⊆ now) : Epochs pending' current needsReclaim' lost' now' gid where
  reclaiming h₁ := h.reclaiming (hp h₁)
  acquiring h₁ := h.acquiring (hp h₁)
  spent hk :=
    let ⟨id, hg, hlt⟩ := h.spent (hk.imp_right fun hk => hl hk)
    ⟨id, hg, fun h₁ => hlt (hp h₁)⟩
  before hc hk := h.before hc (hl hk)
  reclaim hn := h.reclaim (hr hn)
  silent hn _ _ hw := h.silent (hr hn) (hnow hw)

theorem Awaited.weaken (h : Awaited pending live last held gid) (hp : ∀ {p}, pending' = some p → pending = some p)
    (hlast : ∀ s, last s ≤ last' s) (hh : held' ⊆ held) : Awaited pending' live last' held' gid where
  admitted h₁ hg := (h.admitted (hp h₁) hg).trans (hlast _)
  only h₁ hg hk := h.only (hp h₁) hg (hh hk)
  granted h₁ hg := h.granted (hp h₁) hg
  released h₁ hk hm :=
    let ⟨hle, hn⟩ := h.released (hp h₁) hk hm
    ⟨hle.trans (hlast _), fun hk => hn (hh hk)⟩

section
variable (h : Suppressed session suppressed pending current now late last held)
include h

theorem Suppressed.weaken (hs : suppressed' = true → suppressed = true) (hp : ∀ {p}, pending' = some p → pending = some p)
    (hnow : now' ⊆ now) (hlate : late' ⊆ late) (hlast : ∀ s, last s ≤ last' s) (hh : held' ⊆ held) :
    Suppressed session suppressed' pending' current now' late' last' held' := by
  have hfly : now' ∪ late' ⊆ now ∪ late := union_subset_union hnow hlate
  exact {
    home := h.home
    idle := fun h₀ => h.idle (hs h₀)
    waiting := fun h₀ h₁ => h.waiting (hs h₀) (hp h₁)
    probing := fun h₁ => h.probing (hp h₁)
    unheld := fun h₀ hk => h.unheld (hs h₀) (hh hk)
    stale := fun h₀ hr => (h.stale (hs h₀) (hfly hr)).trans (hlast _)
    probe_unheld := fun h₁ hk hm => h.probe_unheld (hp h₁) hk (hh hm)
    probe_stale := fun h₁ hk hr => (h.probe_stale (hp h₁) hk (hfly hr)).trans (hlast _) }

theorem Suppressed.send (hacq : ∀ {id s}, r ≠ .acquire id s) :
    Suppressed session suppressed pending current (insert r now) late last held := {
  h with
  stale := by
    rintro id h₀ ((heq | hr) | hr)
    · exact (hacq heq.symm).elim
    · exact h.stale h₀ (.inl hr)
    · exact h.stale h₀ (.inr hr)
  probe_stale := by
    rintro p id hp hk ((heq | hr) | hr)
    · exact (hacq heq.symm).elim
    · exact h.probe_stale hp hk (.inl hr)
    · exact h.probe_stale hp hk (.inr hr) }

end

end Weaken

/-! ### A new request -/

theorem Asks.id (h : p.Asks r) : r.id? = some p.id := by
  cases r with
  | acquire => exact congrArg some h.1
  | reclaim => exact congrArg some h.1
  | release => exact congrArg some h.1
  | query => cases h
  | write => cases h

theorem Asks.ne_write (h : p.Asks r) {s e : Nat} : r ≠ .write s e := by
  rintro rfl
  cases h

section Ask
variable {session nextId s : Nat} {kind : PendingKind} {r : Req} {current : Option EpochKey}
  {needsReclaim suppressed : Bool}
  {disowned : Set Nat} {lost : Set EpochKey} {now late : Set Req} {live : List ToClient} {last top : Nat → Nat}
  {held : Set EpochKey} {gid : EpochKey → Option Nat}

theorem Numbers.ask (h : Numbers nextId none now late gid top) (hr : Pending.Asks ⟨nextId + 1, kind, s⟩ r) :
    Numbers (nextId + 1) (some ⟨nextId + 1, kind, s⟩) (insert r now) late gid top := by
  have hid : r.id? = some (nextId + 1) := Asks.id hr
  have hnew : ∀ {r'}, r' ∈ now ∪ late → r'.id? ≠ some (nextId + 1) :=
    fun hr' hid' => Nat.not_succ_le_self _ (h.fly_le hr' hid')
  have hN := h.send (.inr hid) (.inl rfl)
  refine { hN with pending_le := ?_, newest := ?_, asks := ?_, granted := ?_ }
  · rintro p ⟨⟩
    exact le_rfl
  · rintro p r' id s' ⟨⟩ hr' hl
    refine hN.fly_le hr' ?_
    cases hl <;> rfl
  · rintro p r' ⟨⟩ ((rfl | hr') | hr') hid'
    · exact ⟨hr, fun hl => hnew (.inr hl) hid⟩
    · exact (hnew (.inl hr') hid').elim
    · exact (hnew (.inr hr') hid').elim
  · rintro p k ⟨⟩ hg
    exact (Nat.not_succ_le_self _ (h.gid_le hg)).elim

theorem Messages.ask (h : Messages nextId none live gid current) :
    Messages (nextId + 1) (some ⟨nextId + 1, kind, s⟩) live gid current := {
  h with
  le hm hid := Nat.le_succ_of_le (h.le hm hid)
  answer := by
    rintro p m ⟨⟩ hm hid
    exact (Nat.not_succ_le_self _ (h.le hm hid)).elim }

theorem Ended.ask (h : Ended none live top held) (hm : Messages nextId none live gid current) :
    Ended (some ⟨nextId + 1, kind, s⟩) live top held := {
  h with
  reclaimed := by
    rintro p e ok epoch acc com finals ⟨⟩ - hl
    exact (Nat.not_succ_le_self _ (hm.le hl rfl)).elim
  reclaimUnknown := by
    rintro p e ⟨⟩ - hl
    exact (Nat.not_succ_le_self _ (hm.le hl rfl)).elim }

theorem Holder.ask (h : Holder none current disowned lost now late last top held gid)
    (hr : Pending.Asks ⟨nextId + 1, kind, s⟩ r) (hacq : kind = .acquire → current = none)
      (hrel : kind = .release → s ∈ disowned) :
    Holder (some ⟨nextId + 1, kind, s⟩) current disowned lost (insert r now) late last top held gid := {
  h with
  accounted hk := by
    rcases h.accounted hk with hk | hk | hk | ⟨id, hk⟩
    · exact .inl hk
    · exact .inr (.inl hk)
    · exact .inr (.inr (.inl hk))
    · cases hk
  fresh := by
    rintro id s' ((rfl | hr') | hr') hlt
    · obtain ⟨rfl, rfl, rfl⟩ := hr
      exact .inl rfl
    · exact .inr ((h.fresh (.inl hr') hlt).resolve_left fun hk => by cases hk)
    · exact .inr ((h.fresh (.inr hr') hlt).resolve_left fun hk => by cases hk)
  settled := by
    rintro k r' id hc ((rfl | hr') | hr') hl
    · generalize hs' : k.1 = s' at hl
      cases hl with
      | acquire => cases (hacq hr.2.1).symm.trans hc
      | release =>
        obtain ⟨-, hk, rfl, -⟩ := hr
        exact (h.owned hc (hs' ▸ hrel hk)).elim
    · exact h.settled hc (.inl hr') hl
    · exact h.settled hc (.inr hr') hl }

theorem Given.ask (h : Given none current now late gid) (hr : Pending.Asks ⟨nextId + 1, kind, s⟩ r)
    (hgid : ∀ {k}, gid k ≠ some (nextId + 1)) : Given (some ⟨nextId + 1, kind, s⟩) current (insert r now) late gid := by
  have hnew : ∀ {k} {p : Pending}, some ⟨nextId + 1, kind, s⟩ = some p → gid k ≠ some p.id := by
    rintro k p hp
    cases hp
    exact hgid
  exact {
    release := by
      rintro id s' e ((rfl | hr') | hr') he
      · exact (he hr.2.2.2).elim
      · obtain ⟨hg, hc, -⟩ := h.release (.inl hr') he
        exact ⟨hg, hc, hnew⟩
      · obtain ⟨hg, hc, -⟩ := h.release (.inr hr') he
        exact ⟨hg, hc, hnew⟩
    write := by
      rintro s' e ((heq | hr') | hr')
      · exact (Asks.ne_write hr heq.symm).elim
      · exact (h.write (.inl hr')).imp_right fun ⟨hg, hc, _⟩ => ⟨hg, hc, hnew⟩
      · exact (h.write (.inr hr')).imp_right fun ⟨hg, hc, _⟩ => ⟨hg, hc, hnew⟩
    query := by
      rintro s' e ((rfl | hr') | hr')
      · cases hr
      · exact h.query (.inl hr')
      · exact h.query (.inr hr') }

theorem Epochs.ask (h : Epochs none current needsReclaim lost now gid) (hr : Pending.Asks ⟨nextId + 1, kind, s⟩ r)
    (hgid : ∀ {k id}, gid k = some id → id ≤ nextId) (hacq : kind = .acquire → current = none)
    (hrec : ∀ {e}, kind = .reclaim e → current = some (s, e)) :
    Epochs (some ⟨nextId + 1, kind, s⟩) current needsReclaim lost (insert r now) gid := {
  h with
  reclaiming := by
    rintro p e ⟨⟩ hk
    exact hrec hk
  acquiring := by
    rintro p ⟨⟩ hk
    exact hacq hk
  spent hk := by
    obtain ⟨id, hg, -⟩ := h.spent hk
    refine ⟨id, hg, ?_⟩
    rintro p ⟨⟩
    exact Nat.lt_succ_of_le (hgid hg)
  silent := by
    rintro hn s' e (heq | hr')
    · exact Asks.ne_write hr heq.symm
    · exact h.silent hn hr' }

theorem Awaited.ask (hgid : ∀ {k}, gid k ≠ some (nextId + 1))
    (hm : Messages nextId none live gid current) : Awaited (some ⟨nextId + 1, kind, s⟩) live last held gid where
  admitted := by
    rintro p e ⟨⟩ hg
    exact (hgid hg).elim
  only := by
    rintro p e e' ⟨⟩ hg
    exact (hgid hg).elim
  granted := by
    rintro p e ⟨⟩ hg
    exact (hgid hg).elim
  released := by
    rintro p ⟨⟩ - hl
    exact (Nat.not_succ_le_self _ (hm.le hl rfl)).elim

theorem Suppressed.ask (h : Suppressed session suppressed none current now late last held)
    (hr : Pending.Asks ⟨nextId + 1, kind, s⟩ r) (hacq : kind = .acquire → suppressed = false)
    (hprobe : kind = .probe → suppressed = true ∧ s = session) :
    Suppressed session suppressed (some ⟨nextId + 1, kind, s⟩) current (insert r now) late last held := {
  h with
  waiting := by
    rintro p h₀ ⟨⟩ hk
    cases (hacq hk).symm.trans h₀
  probing := by
    rintro p ⟨⟩ hk
    exact (hprobe hk).2
  stale := by
    rintro id h₀ ((rfl | hr') | hr')
    · cases (hacq hr.2.1).symm.trans h₀
    · exact h.stale h₀ (.inl hr')
    · exact h.stale h₀ (.inr hr')
  probe_unheld := by
    rintro p e ⟨⟩ hk
    obtain ⟨h₀, rfl⟩ := hprobe hk
    exact h.unheld h₀
  probe_stale := by
    rintro p id ⟨⟩ hk hr'
    obtain ⟨h₀, rfl⟩ := hprobe hk
    rcases hr' with (rfl | hr') | hr'
    · cases hk.symm.trans hr.2.1
    · exact h.stale h₀ (.inl hr')
    · exact h.stale h₀ (.inr hr') }

end Ask

/-! ### Moves of the author -/

section Author
variable {v w : LeaseView} {k : EpochKey} {rest : List ToClient} {m : ToClient} {id s e : Nat}

theorem Core.calm (h : Core v) (c : Calm v w) : Core w := by
  obtain ⟨session, nextId, pending, current, needsReclaim, suppressed, needsProbe, disowned, lost, now, late, live,
    last, top, held, gid, blocked⟩ := w
  obtain ⟨rfl, hn, rfl, rfl, rfl, hs, hd, hf, rfl, hnow, hlate, rfl, hlast, htop, hht, rfl, rfl, -⟩ := c
  exact {
    numbers := h.numbers.weaken hn id hnow hlate htop
    messages := h.messages.weaken hn id (List.Sublist.refl _)
    ended := h.ended.weaken id (List.Subset.refl _) htop subset_rfl
    holder := h.holder.weaken .inl hd (fun hc hm => h.holder.owned hc (hf hc hm)) subset_rfl hnow hlate hlast subset_rfl hht
    given := h.given.weaken id hnow hlate
    epochs := h.epochs.weaken id id subset_rfl hnow
    awaited := h.awaited.weaken id hlast subset_rfl
    suppress := h.suppress.weaken (fun h₀ => by rcases hs with rfl | ⟨rfl, -⟩ <;> [cases h₀; exact h₀]) id hnow hlate hlast
      subset_rfl }

theorem Core.yield (h : Core v) (hp : v.pending = some p) :
    Core { v with pending := none, disowned := p.disown v.disowned } where
  numbers := h.numbers.weaken le_rfl (fun h₁ => by cases h₁) subset_rfl subset_rfl fun _ => le_rfl
  messages := h.messages.weaken le_rfl (fun h₁ => by cases h₁) (List.Sublist.refl _)
  ended := h.ended.weaken (fun h₁ => by cases h₁) (List.Subset.refl _) (fun _ => le_rfl) subset_rfl
  holder := by
    have hd : v.disowned ⊆ p.disown v.disowned := by
      unfold Pending.disown
      split
      · exact subset_insert _ _
      · exact subset_rfl
    refine h.holder.weaken (fun h₁ => .inr ?_) hd (fun hc hm => ?_) subset_rfl subset_rfl subset_rfl
      (fun _ => le_rfl) subset_rfl fun _ => rfl
    · cases hp.symm.trans h₁
      exact mem_insert _ _
    · unfold Pending.disown at hm
      split at hm
      next hk =>
        cases (h.epochs.acquiring hp hk).symm.trans hc
      · exact h.holder.owned hc hm
  given := h.given.weaken (fun h₁ => by cases h₁) subset_rfl subset_rfl
  epochs := h.epochs.weaken (fun h₁ => by cases h₁) id subset_rfl subset_rfl
  awaited := h.awaited.weaken (fun h₁ => by cases h₁) (fun _ => le_rfl) subset_rfl
  suppress := h.suppress.weaken id (fun h₁ => by cases h₁) subset_rfl subset_rfl (fun _ => le_rfl) subset_rfl

theorem acquire_ne (hlead : ∀ {id s}, ¬r.Lead id s) {id s : Nat} : r ≠ .acquire id s := by
  rintro rfl
  exact hlead .acquire

section
variable (h : Core v)
include h

theorem Core.send (hid : r.id? = none ∨ r.id? = some (v.nextId + 1)) (hlead : ∀ {id s}, ¬r.Lead id s)
    (hrel : ∀ {id s e}, r = .release id s e → (∃ id, v.gid (s, e) = some id) ∧ v.current ≠ some (s, e) ∧
      ∀ {p}, v.pending = some p →
      v.gid (s, e) ≠ some p.id) (hwrite : ∀ {s e}, r = .write s e → v.current = some (s, e) ∧ v.needsReclaim = false)
    (hquery : ∀ {s e}, r = .query s e → ∃ id, v.gid (s, e) = some id) :
      Core { v with nextId := v.nextId + 1, now := insert r v.now } := {
  h with
  numbers := h.numbers.send hid (.inr hlead)
  messages := h.messages.weaken (Nat.le_succ _) id (List.Sublist.refl _)
  holder := h.holder.send (acquire_ne hlead) fun _ => hlead
  given := {
    release := by
      rintro id s e ((heq | hr) | hr) he
      · exact hrel heq.symm
      · exact h.given.release (.inl hr) he
      · exact h.given.release (.inr hr) he
    write := by
      rintro s e ((heq | hr) | hr)
      · exact .inl (hwrite heq.symm).1
      · exact h.given.write (.inl hr)
      · exact h.given.write (.inr hr)
    query := by
      rintro s e ((heq | hr) | hr)
      · exact hquery heq.symm
      · exact h.given.query (.inl hr)
      · exact h.given.query (.inr hr) }
  epochs := { h.epochs with
    silent := by
      rintro hn s e (heq | hr)
      · rw [(hwrite heq.symm).2] at hn
        cases hn
      · exact h.epochs.silent hn hr }
  suppress := h.suppress.send (acquire_ne hlead) }

theorem Core.givenUp (hk : k ∈ v.lost) : (∃ id, v.gid k = some id) ∧ v.current ≠ some k ∧
    ∀ {p}, v.pending = some p → v.gid k ≠ some p.id := by
  obtain ⟨id, hg, hlt⟩ := h.epochs.spent (.inr hk)
  refine ⟨⟨id, hg⟩, fun hc => ?_, fun hp hg' => ?_⟩
  · exact Nat.lt_irrefl _ (h.epochs.before hc hk)
  · rw [hg] at hg'
    exact Nat.ne_of_lt (hlt hp) (some.inj hg')

theorem Core.query (hk : k ∈ v.lost) : Core { v with nextId := v.nextId + 1, now := insert (.query k.1 k.2) v.now } := by
  refine h.send (.inl rfl) (fun hl => by cases hl) (fun heq => by cases heq) (fun heq => by cases heq) fun heq => ?_
  cases heq
  exact (h.givenUp hk).1

theorem Core.write (hk : v.current = some k) (hn : v.needsReclaim = false) :
    Core { v with nextId := v.nextId + 1, now := insert (.write k.1 k.2) v.now } := by
  refine h.send (.inl rfl) (fun hl => by cases hl) (fun heq => by cases heq) (fun heq => ?_) fun heq => by cases heq
  cases heq
  exact ⟨hk, hn⟩

theorem Core.notify (hk : v.current = some k) (hn : v.needsReclaim = false) :
    Core { v with now := insert (.write k.1 k.2) v.now } := {
  h.write hk hn with
  numbers := { (h.write hk hn).numbers with
    pending_le := h.numbers.pending_le
    gid_le := h.numbers.gid_le
    fly_le := by
      rintro r id ((rfl | hr) | hr) hid
      · cases hid
      · exact h.numbers.fly_le (.inl hr) hid
      · exact h.numbers.fly_le (.inr hr) hid }
  messages := h.messages
  ended := h.ended
  awaited := h.awaited }

theorem Core.sendRelease (hk : (∃ id, v.gid k = some id) ∧ v.current ≠ some k ∧ ∀ {p}, v.pending = some p →
    v.gid k ≠ some p.id) :
    Core { v with nextId := v.nextId + 1, now := insert (.release (v.nextId + 1) k.1 k.2) v.now } := by
  have hne : k.2 ≠ 0 := by
    obtain ⟨⟨id, hg⟩, -⟩ := hk
    exact (h.numbers.epoch hg).1
  refine h.send (.inr rfl) (fun {id s} hl => ?_) (fun heq => ?_) (fun heq => by cases heq) fun heq => by cases heq
  · generalize hr : Req.release (v.nextId + 1) k.1 k.2 = r at hl
    cases hl with
    | acquire => cases hr
    | release => exact hne (Req.release.inj hr).2.2
  · cases heq
    exact hk

theorem Core.ask {kind : PendingKind} {s : Nat} (hp : v.pending = none) (hm : v.May s kind)
    (hr : Pending.Asks ⟨v.nextId + 1, kind, s⟩ r) :
    Core { v with nextId := v.nextId + 1, pending := some ⟨v.nextId + 1, kind, s⟩, now := insert r v.now } := by
  obtain ⟨numbers, messages, ended, holder, given, epochs, awaited, suppress⟩ := h
  rw [hp] at numbers messages ended holder given epochs awaited suppress
  have hgid : ∀ {k}, v.gid k ≠ some (v.nextId + 1) := fun hg => Nat.not_succ_le_self _ (numbers.gid_le hg)
  have hacq : kind = .acquire → v.current = none ∧ v.suppressed = false := by
    rintro rfl
    exact hm
  exact {
    numbers := numbers.ask hr
    messages := messages.ask
    ended := ended.ask messages
    holder := holder.ask hr (fun hk => (hacq hk).1) (by rintro rfl; exact hm)
    given := given.ask hr hgid
    epochs := epochs.ask hr numbers.gid_le (fun hk => (hacq hk).1) (by rintro e rfl; exact hm)
    awaited := .ask hgid messages
    suppress := suppress.ask hr (fun hk => (hacq hk).2) (by rintro rfl; exact hm) }

theorem Core.held_current (hc : v.current = some k) {e : Nat} (he : (k.1, e) ∈ v.held) : e = k.2 := by
  obtain ⟨htop, -⟩ := h.holder.latest he
  rcases h.holder.accounted he with hc' | hd | hl | ⟨id, hp⟩
  · exact (congrArg Prod.snd (some.inj (hc.symm.trans hc'))).symm
  · exact (h.holder.owned hc hd).elim
  · obtain ⟨id, hg, -⟩ := h.epochs.spent (.inl hc)
    have hlt : e < k.2 := h.epochs.before hc hl
    have hle : k.2 ≤ v.top k.1 := (h.numbers.epoch hg).2
    dsimp only at htop
    omega
  · cases (h.epochs.acquiring hp rfl).symm.trans hc

theorem Core.detach {other : Bool} (hc : v.current = some k) (hp : ∀ {p e}, v.pending = some p → p.kind ≠ .reclaim e)
    (ho : other = true → k ∉ v.held) : Core { v with
      current := none, needsReclaim := false, lost := insert k v.lost, suppressed := v.suppressed || other } := by
  have hk : ∀ {p}, v.pending = some p → v.gid k ≠ some p.id := by
    intro p hp' hg
    obtain ⟨id, hg', hlt⟩ := h.epochs.spent (.inl hc)
    rw [hg] at hg'
    exact Nat.ne_of_gt (hlt hp') (some.inj hg')
  have hs : v.suppressed = false := by
    by_contra hs
    cases (h.suppress.idle (by simpa using hs)).symm.trans hc
  have hgone : ∀ {e}, (v.suppressed || other) = true → (v.session, e) ∉ v.held := by
    intro e h₀ he
    rw [hs, Bool.false_or] at h₀
    rw [← h.suppress.home hc] at he
    have hk' : (k.1, e) = k := by rw [h.held_current hc he]
    exact ho h₀ (hk' ▸ he)
  exact { h with
    messages := h.messages.unset
    holder := { h.holder with
      accounted := fun hk' => by
        rcases h.holder.accounted hk' with hk' | hk' | hk' | hk'
        · cases hc.symm.trans hk'
          exact .inr (.inr (.inl (mem_insert _ _)))
        · exact .inr (.inl hk')
        · exact .inr (.inr (.inl (mem_insert_of_mem _ hk')))
        · exact .inr (.inr (.inr hk'))
      owned := nofun
      settled := nofun }
    given := {
      release := fun hr he =>
        let ⟨hg, _, hn⟩ := h.given.release hr he
        ⟨hg, nofun, hn⟩
      write := fun {s e} hr => by
        refine .inr ?_
        rcases h.given.write hr with hc' | ⟨hg, -, hn⟩
        · cases hc.symm.trans hc'
          obtain ⟨id, hg, -⟩ := h.epochs.spent (.inl hc)
          exact ⟨⟨id, hg⟩, nofun, hk⟩
        · exact ⟨hg, nofun, hn⟩
      query := h.given.query }
    epochs := {
      reclaiming := fun hp' hk' => (hp hp' hk').elim
      acquiring := fun _ _ => rfl
      spent := by
        rintro k' (hc' | rfl | hk')
        · cases hc'
        · exact h.epochs.spent (.inl hc)
        · exact h.epochs.spent (.inr hk')
      before := nofun
      reclaim := nofun
      silent := nofun }
    suppress := { h.suppress with
      home := nofun
      idle := fun _ => rfl
      waiting := fun _ hp' hk' => by cases (h.epochs.acquiring hp' hk').symm.trans hc
      unheld := hgone
      stale := fun _ hr => by
        rw [← h.suppress.home hc] at hr ⊢
        exact h.holder.settled hc hr .acquire
      probe_stale := h.suppress.probe_stale } }

theorem Core.forget (hk : k ∈ v.held → k.1 ∈ v.disowned) : Core { v with lost := v.lost \ {k} } := { h with
  holder := { h.holder with
    accounted := fun {k'} hk' => by
      rcases h.holder.accounted hk' with hc | hd | hl | hp
      · exact .inl hc
      · exact .inr (.inl hd)
      · by_cases heq : k' = k
        · subst heq
          exact .inr (.inl (hk hk'))
        · exact .inr (.inr (.inl ⟨hl, heq⟩))
      · exact .inr (.inr (.inr hp)) }
  epochs := h.epochs.weaken id id sdiff_subset subset_rfl }

theorem Core.disownNot {s : Nat} (hheld : ∀ e, (s, e) ∉ v.held)
    (hacq : ∀ {id}, Req.acquire id s ∈ v.now ∪ v.late → id ≤ v.last s) :
    Core { v with disowned := v.disowned \ {s} } := {
  h with
  holder := {
    latest := h.holder.latest
    accounted := fun {k'} hk' => by
      rcases h.holder.accounted hk' with hc | hd | hl | hp
      · exact .inl hc
      · refine .inr (.inl ⟨hd, ?_⟩)
        rintro rfl
        exact hheld k'.2 hk'
      · exact .inr (.inr (.inl hl))
      · exact .inr (.inr (.inr hp))
    fresh := fun {id s'} hr hlt => by
      refine (h.holder.fresh hr hlt).imp_right fun hd => ⟨hd, ?_⟩
      rintro rfl
      exact Nat.not_lt_of_le (hacq hr) hlt
    owned := fun hc hd => h.holder.owned hc hd.1
    settled := h.holder.settled } }

theorem Core.confirm : Core { v with needsReclaim := false } := { h with
  epochs := h.epochs.weaken id nofun subset_rfl subset_rfl }

theorem Core.bind (s : Nat) (hc : v.current = none) (hs : v.suppressed = false)
    (hp : ∀ {p}, v.pending = some p → p.kind ≠ .probe) :
    Core { v with session := s } := {
  h with
  suppress := {
    home := fun hc' => by cases hc.symm.trans hc'
    idle := fun _ => hc
    waiting := fun h₀ => by cases hs.symm.trans h₀
    probing := fun hp' hk => (hp hp' hk).elim
    unheld := fun h₀ => by cases hs.symm.trans h₀
    stale := fun h₀ => by cases hs.symm.trans h₀
    probe_unheld := h.suppress.probe_unheld
    probe_stale := h.suppress.probe_stale } }

end

/-! ### Messages that the author reads -/

theorem Awaited.recv {pending : Option Pending} {last : Nat → Nat}
    {gid : EpochKey → Option Nat} (h : Awaited pending (m :: rest) last held gid)
    (hm : ∀ {p s e}, pending = some p → m ≠ .granted p.id s e) : Awaited pending rest last held gid := {
  h with
  granted hp hg := by
    obtain ⟨pre, post, heq, hlost⟩ := h.granted hp hg
    cases pre with
    | nil =>
      cases heq
      exact (hm hp rfl).elim
    | cons x pre =>
      cases heq
      exact ⟨pre, post, rfl, fun ⟨o, ho⟩ => hlost ⟨o, mem_cons_of_mem _ ho⟩⟩
  released hp hk hl := h.released hp hk (mem_cons_of_mem _ hl) }

theorem Core.recv (h : Core v) (hl : v.live = m :: rest)
    (hm : ∀ {p s e}, v.pending = some p → m ≠ .granted p.id s e) : Core { v with live := rest } := by
  have hsub : rest.Sublist v.live := hl ▸ sublist_cons_self m rest
  have hA := h.awaited
  rw [hl] at hA
  exact { h with
    messages := h.messages.weaken le_rfl id hsub
    ended := h.ended.weaken id hsub.subset (fun _ => le_rfl) subset_rfl
    awaited := hA.recv hm }

theorem Idle.ne_granted (h : v.Idle m) : m ≠ .granted id s e := by
  rintro rfl
  cases h

theorem Core.giveBack (h : Core v) (hl : v.live = .granted id s e :: rest) (hp : ∀ {p}, v.pending = some p → p.id ≠ id) :
    Core { v with nextId := v.nextId + 1, live := rest, now := insert (.release (v.nextId + 1) s e) v.now } := by
  have hmem : ToClient.granted id s e ∈ v.live := hl ▸ mem_cons_self
  have hg := h.messages.granted hmem
  have hrecv : Core { v with live := rest } := by
    refine h.recv hl ?_
    rintro p s' e' hp' heq
    cases heq
    exact hp hp' rfl
  refine hrecv.sendRelease (k := (s, e)) ⟨⟨id, hg⟩, h.messages.unused hmem, fun hp' hg' => ?_⟩
  rw [show v.gid (s, e) = some id from hg] at hg'
  exact hp hp' (some.inj hg').symm

theorem Core.reconnect (h : Core v) (hp : v.pending = none) : Core { v with
      now := ∅, late := v.now ∪ v.late, live := []
      needsReclaim := v.needsReclaim || v.current.isSome
      needsProbe := v.needsProbe || v.suppressed } := by
  have hnone : ∀ {p}, v.pending ≠ some p := fun hp' => by cases hp.symm.trans hp'
  exact {
    numbers := { h.numbers with
      fly_le := fun hr => h.numbers.fly_le (by simpa using hr)
      newest := fun hp' => (hnone hp').elim
      asks := fun hp' => (hnone hp').elim
      granted := fun hp' => (hnone hp').elim }
    messages := ⟨nofun, nofun, nofun, nodup_nil, nofun⟩
    ended := ⟨nofun, nofun, nofun, nofun, nofun⟩
    holder := { h.holder with
      fresh := fun hr => h.holder.fresh (by simpa using hr)
      settled := fun hc hr => h.holder.settled hc (by simpa using hr) }
    given := {
      release := fun hr => h.given.release (by simpa using hr)
      write := fun hr => h.given.write (by simpa using hr)
      query := fun hr => h.given.query (by simpa using hr) }
    epochs := { h.epochs with
      reclaim := fun hn hc => by
        have hc' : v.current = none := hc
        simp only [hc', isSome_none, Bool.or_false] at hn
        exact h.epochs.reclaim hn hc'
      silent := nofun }
    awaited := ⟨fun hp' => (hnone hp').elim, fun hp' => (hnone hp').elim, fun hp' => (hnone hp').elim, fun hp' =>
      (hnone hp').elim⟩
    suppress := { h.suppress with
      stale := fun h₀ hr => h.suppress.stale h₀ (by simpa using hr)
      probe_stale := fun hp' => (hnone hp').elim } }

theorem Core.adopt (h : Core v) (hl : v.live = .granted id s e :: rest)
    (hp : v.pending = some ⟨id, .acquire, s⟩) (hs : s = v.session) (hsup : v.suppressed = false) :
    Core { v with live := rest, pending := none, current := some (s, e), disowned := v.disowned \ {s} } := by
  have hmem : ToClient.granted id s e ∈ v.live := hl ▸ mem_cons_self
  have hg := h.messages.granted hmem
  have hcur : v.current = none := h.epochs.acquiring hp rfl
  have hlast : id ≤ v.last s := h.awaited.admitted hp hg
  have hsub : rest.Sublist v.live := hl ▸ sublist_cons_self _ rest
  have honce : (s, e) ∉ rest.filterMap ToClient.grantedKey? := by
    have honce := h.messages.once
    rw [hl] at honce
    have hcons : ((s, e) :: rest.filterMap ToClient.grantedKey?).Nodup := honce
    exact (nodup_cons.mp hcons).1
  exact {
    numbers := h.numbers.weaken le_rfl nofun subset_rfl subset_rfl fun _ => le_rfl
    messages := {
      le := fun hm => h.messages.le (hsub.subset hm)
      answer := nofun
      granted := fun hm => h.messages.granted (hsub.subset hm)
      once := h.messages.once.sublist (hsub.filterMap _)
      unused := fun {id' s' e'} hm hc => by
        cases hc
        exact honce (mem_filterMap.mpr ⟨_, hm, rfl⟩) }
    ended := h.ended.weaken nofun hsub.subset (fun _ => le_rfl) subset_rfl
    holder := {
      latest := h.holder.latest
      accounted := fun {k'} hk' => by
        rcases h.holder.accounted hk' with hc | hd | hl' | ⟨id', hp'⟩
        · cases hcur.symm.trans hc
        · by_cases hs' : k'.1 = s
          · refine .inl (congrArg some (Prod.ext hs'.symm ?_))
            exact (h.awaited.only hp hg (hs' ▸ hk')).symm
          · exact .inr (.inl ⟨hd, hs'⟩)
        · exact .inr (.inr (.inl hl'))
        · have hs' : s = k'.1 := by
            cases hp.symm.trans hp'
            rfl
          refine .inl (congrArg some (Prod.ext hs' ?_))
          exact (h.awaited.only hp hg (hs' ▸ hk')).symm
      fresh := fun {id' s'} hr hlt => by
        refine .inr ?_
        have hs' : s' ≠ s := by
          rintro rfl
          have := h.numbers.newest hp hr .acquire
          dsimp only at this hlt
          omega
        rcases h.holder.fresh hr hlt with hp' | hd
        · cases hp.symm.trans hp'
          exact (hs' rfl).elim
        · exact ⟨hd, hs'⟩
      owned := fun hc hd => by
        cases hc
        exact hd.2 rfl
      settled := fun hc hr hlead => by
        cases hc
        exact (h.numbers.newest hp hr hlead).trans hlast }
    given := {
      release := fun hr he => by
        obtain ⟨hg', -, hn⟩ := h.given.release hr he
        refine ⟨hg', fun hc => ?_, nofun⟩
        cases hc
        exact hn hp hg
      write := fun {s' e'} hr => by
        rcases h.given.write hr with hc | ⟨hg', -, hn⟩
        · cases hcur.symm.trans hc
        · by_cases hk : (s, e) = (s', e')
          · exact .inl (congrArg some hk)
          · exact .inr ⟨hg', fun hc => hk (some.inj hc), nofun⟩
      query := h.given.query }
    epochs := {
      reclaiming := nofun
      acquiring := nofun
      spent := by
        rintro k' (hc | hk')
        · cases hc
          exact ⟨id, hg, nofun⟩
        · obtain ⟨id', hg', -⟩ := h.epochs.spent (.inr hk')
          exact ⟨id', hg', nofun⟩
      before := fun {s' e₁ e₂} hc hk' => by
        cases hc
        obtain ⟨id', hg', hlt⟩ := h.epochs.spent (.inr hk')
        have hlt : id' < id := hlt hp
        rcases Nat.lt_trichotomy e₂ e with hlt' | rfl | hlt'
        · exact hlt'
        · cases hg.symm.trans hg'
          exact (Nat.lt_irrefl _ hlt).elim
        · exact (Nat.lt_asymm hlt (h.numbers.order hg hg' hlt')).elim
      reclaim := fun _ => nofun
      silent := fun hn => (h.epochs.reclaim hn hcur).elim }
    awaited := ⟨nofun, nofun, nofun, nofun⟩
    suppress := { h.suppress with
      home := fun hc => by
        cases hc
        exact hs
      idle := fun h₀ => by cases hsup.symm.trans h₀
      waiting := nofun
      probing := nofun
      probe_unheld := nofun
      probe_stale := nofun } }

end Author

/-! ### Moves of the sessions -/

section Sessions
variable {v w : LeaseView} {k : EpochKey}

theorem Core.unhold (h : Core v) (hh : held ⊆ v.held) : Core { v with held } := { h with
  ended := h.ended.weaken id (List.Subset.refl _) (fun _ => le_rfl) hh
  holder := h.holder.weaken .inl subset_rfl h.holder.owned subset_rfl subset_rfl subset_rfl (fun _ => le_rfl) hh
    fun _ => rfl
  awaited := h.awaited.weaken id (fun _ => le_rfl) hh
  suppress := h.suppress.weaken id id subset_rfl subset_rfl (fun _ => le_rfl) hh }

theorem Awaited.append {pending : Option Pending} {live told : List ToClient} {last : Nat → Nat}
    {gid : EpochKey → Option Nat} (h : Awaited pending live last held gid)
    (hrel : ∀ {p}, pending = some p → p.kind = .release → .released p.id ∈ told →
      p.id ≤ last p.session ∧ ∀ {e}, (p.session, e) ∉ held) : Awaited pending (live ++ told) last held gid := {
  h with
  granted hp hg := by
    obtain ⟨pre, post, rfl, hlost⟩ := h.granted hp hg
    exact ⟨pre, post ++ told, by simp, hlost⟩
  released hp hk hm := by
    rcases mem_append.mp hm with hm | hm
    · exact h.released hp hk hm
    · exact hrel hp hk hm }

theorem Core.tell (h : Core v) {m : ToClient} (hm : v.Tells m) : Core { v with live := v.live ++ [m] } := by
  have hmem : ∀ {x}, x ∈ v.live ++ [m] → x ∈ v.live ∨ x = m := fun hx =>
    (mem_append.mp hx).imp_right mem_singleton.mp
  exact { h with
    messages := {
      le := fun {x id} hx hid => by
        rcases hmem hx with hx | rfl
        · exact h.messages.le hx hid
        · cases x <;> cases hid
          · cases hm
          all_goals exact hm.1
      answer := fun {p x} hp hx hid => by
        rcases hmem hx with hx | rfl
        · exact h.messages.answer hp hx hid
        · cases x with
          | granted => cases hm
          | released id =>
            cases hid
            exact (hm.2 p hp rfl).1
          | reclaimed id =>
            cases hid
            rcases hm.2 p hp rfl with ⟨e, hk, -⟩ | ⟨hk, -⟩ <;> simp [Pending.AnsweredBy, hk]
          | reclaimUnknown id =>
            cases hid
            rcases hm.2 p hp rfl with ⟨e, hk, -⟩ | hk <;> simp [Pending.AnsweredBy, hk]
          | _ => cases hid
      granted := fun {id s e} hx => by
        rcases hmem hx with hx | rfl
        · exact h.messages.granted hx
        · cases hm
      once := by
        rw [filterMap_append]
        have : [m].filterMap ToClient.grantedKey? = [] := by
          cases m <;> first | rfl | cases hm
        rw [this, append_nil]
        exact h.messages.once
      unused := fun {id s e} hx => by
        rcases hmem hx with hx | rfl
        · exact h.messages.unused hx
        · cases hm }
    ended := {
      lost := fun {s e o} hx => by
        rcases hmem hx with hx | rfl
        · exact h.ended.lost hx
        · exact hm
      epoch := fun {id s e fa cm pd} hx => by
        rcases hmem hx with hx | rfl
        · exact h.ended.epoch hx
        · exact hm rfl
      unknown := fun {s e} hx => by
        rcases hmem hx with hx | rfl
        · exact h.ended.unknown hx
        · exact hm
      reclaimed := fun {p e ok epoch acc com finals} hp hk hx => by
        rcases hmem hx with hx | rfl
        · exact h.ended.reclaimed hp hk hx
        · rcases hm.2 p hp rfl with ⟨e', hk', hm⟩ | ⟨hk', -⟩
          · cases hk.symm.trans hk'
            exact hm.imp (fun hm => ⟨hm.1, hm.2.1⟩) fun hm => ⟨hm.1, hm.2.1⟩
          · cases hk.symm.trans hk'
      reclaimUnknown := fun {p e} hp hk hx => by
        rcases hmem hx with hx | rfl
        · exact h.ended.reclaimUnknown hp hk hx
        · rcases hm.2 p hp rfl with ⟨e', hk', hm⟩ | hk'
          · cases hk.symm.trans hk'
            exact hm
          · cases hk.symm.trans hk' }
    awaited := by
      refine h.awaited.append fun {p} hp hk hx => ?_
      cases mem_singleton.mp hx
      obtain ⟨-, hle, hn⟩ := hm.2 p hp rfl
      exact ⟨hle, fun {e} => hn e⟩ }

theorem Core.revoke (h : Core v) {o : Nat} (hk : k ∈ v.held) {blocked : Set Nat} : Core { v with
      held := v.held \ {k}, top := update v.top k.1 (v.top k.1 + 1), blocked := blocked
      live := v.live ++ [.lost k.1 k.2 o] } := by
  have htop : ∀ s, v.top s ≤ update v.top k.1 (v.top k.1 + 1) s := by
    intro s
    rw [update_apply]
    split
    next hs => exact hs ▸ Nat.le_succ _
    · exact le_rfl
  have hopen : Core { v with held := v.held \ {k}, top := update v.top k.1 (v.top k.1 + 1), blocked := blocked } := { h with
    numbers := h.numbers.weaken le_rfl id subset_rfl subset_rfl htop
    ended := h.ended.weaken id (List.Subset.refl _) htop sdiff_subset
    holder := by
      refine h.holder.weaken .inl subset_rfl h.holder.owned subset_rfl subset_rfl subset_rfl (fun _ => le_rfl)
        sdiff_subset fun {k'} hk' => update_of_ne (fun hs => hk'.2 ?_) _ _
      refine Prod.ext hs ?_
      rw [(h.holder.latest hk'.1).1, (h.holder.latest hk).1, hs]
    awaited := h.awaited.weaken id (fun _ => le_rfl) sdiff_subset
    suppress := h.suppress.weaken id id subset_rfl subset_rfl (fun _ => le_rfl) sdiff_subset }
  refine hopen.tell ⟨?_, fun hk' => hk'.2 rfl⟩
  rw [(h.holder.latest hk).1]
  exact htop k.1

theorem Core.fence (h : Core v) (hk : k ∈ v.held) :
    Core { v with held := v.held \ {k}, live := v.live ++ [.lost k.1 k.2 0] } :=
  (h.unhold sdiff_subset).tell (m := .lost k.1 k.2 0) ⟨(h.holder.latest hk).1.le, fun hk' => hk'.2 rfl⟩

/-! ### A grant -/

section Grant
variable {s id : Nat} {told : List ToClient}

theorem Core.gid_top (h : Core v) : v.gid (s, v.top s + 1) = none := by
  cases hg : v.gid (s, v.top s + 1) with
  | none => rfl
  | some id => exact (Nat.not_succ_le_self _ (h.numbers.epoch hg).2).elim

theorem gid_grant {id' : Nat} (hg : update v.gid (s, v.top s + 1) (some id) k = some id') :
    k = (s, v.top s + 1) ∧ id' = id ∨ k ≠ (s, v.top s + 1) ∧ v.gid k = some id' := by
  by_cases hk : k = (s, v.top s + 1)
  · subst hk
    rw [update_self] at hg
    exact .inl ⟨rfl, (some.inj hg).symm⟩
  · rw [update_of_ne hk] at hg
    exact .inr ⟨hk, hg⟩

theorem Core.gid_of_gid (h : Core v) {id' : Nat} (hg : v.gid k = some id') :
    update v.gid (s, v.top s + 1) (some id) k = some id' := by
  rw [update_of_ne, hg]
  rintro rfl
  cases h.gid_top.symm.trans hg

theorem Grants.pending_ne (g : v.Grants s id told) (hp : v.pending = some p) {e : Nat} :
    v.gid (s, e) ≠ some p.id := fun hg => Nat.not_lt_of_le (g.newest hp) (g.later hg)

theorem le_update_top (v : LeaseView) (s r : Nat) : v.top r ≤ update v.top s (v.top s + 1) r := by
  rw [update_apply]
  split
  next hr => exact hr ▸ Nat.le_succ _
  · exact le_rfl

section
variable (h : Core v) (g : v.Grants s id told)
include h g

theorem Core.grant_numbers : Numbers v.nextId v.pending v.now v.late (update v.gid (s, v.top s + 1) (some id))
      (update v.top s (v.top s + 1)) := {
  h.numbers with
  gid_le hg := by
    rcases gid_grant hg with ⟨-, rfl⟩ | ⟨-, hg⟩
    · exact g.sent
    · exact h.numbers.gid_le hg
  epoch hg := by
    rcases gid_grant hg with ⟨rfl, -⟩ | ⟨-, hg⟩
    · exact ⟨Nat.succ_ne_zero _, (update_self s _ v.top).ge⟩
    · exact ⟨(h.numbers.epoch hg).1, (h.numbers.epoch hg).2.trans (le_update_top v s _)⟩
  order {r e e' id₁ id₂} hg hg' hlt := by
    rcases gid_grant hg with ⟨hk, rfl⟩ | ⟨-, hg₁⟩ <;> rcases gid_grant hg' with ⟨hk', rfl⟩ | ⟨-, hg₂⟩
    · cases hk
      cases hk'
      exact (Nat.lt_irrefl _ hlt).elim
    · cases hk
      have := (h.numbers.epoch hg₂).2
      dsimp only at this
      omega
    · cases hk'
      exact g.later hg₁
    · exact h.numbers.order hg₁ hg₂ hlt
  granted hp hg := by
    rcases gid_grant hg with ⟨rfl, heq⟩ | ⟨-, hg⟩
    · obtain ⟨rfl, -⟩ := g.mine hp heq
      exact ⟨rfl, rfl⟩
    · exact h.numbers.granted hp hg }

theorem Core.grant_messages : Messages v.nextId v.pending (v.live ++ told) (update v.gid (s, v.top s + 1) (some id))
    v.current := by
  have hmem : ∀ {x}, x ∈ v.live ++ told → x ∈ v.live ∨ x = .granted id s (v.top s + 1) := by
    intro x hx
    refine (mem_append.mp hx).imp_right fun hx => ?_
    rcases g.reaches with rfl | rfl
    · cases hx
    · exact mem_singleton.mp hx
  exact {
    le := fun hx hid => by
      rcases hmem hx with hx | rfl
      · exact h.messages.le hx hid
      · cases hid
        exact g.sent
    answer := fun hp hx hid => by
      rcases hmem hx with hx | rfl
      · exact h.messages.answer hp hx hid
      · obtain ⟨rfl, -⟩ := g.mine hp (some.inj hid).symm
        exact ⟨rfl, rfl⟩
    granted := fun hx => by
      rcases hmem hx with hx | heq
      · exact h.gid_of_gid (h.messages.granted hx)
      · cases heq
        exact update_self ..
    once := by
      rw [filterMap_append]
      rcases g.reaches with rfl | rfl
      · simpa using h.messages.once
      · refine h.messages.once.append (nodup_singleton _) ?_
        intro k hk hk'
        obtain rfl : k = (s, v.top s + 1) := by simpa [ToClient.grantedKey?] using hk'
        obtain ⟨m, hm, hmk⟩ := mem_filterMap.mp hk
        cases m <;> cases hmk
        cases h.gid_top.symm.trans (h.messages.granted hm)
    unused := fun hx hc => by
      rcases hmem hx with hx | heq
      · exact h.messages.unused hx hc
      · cases heq
        exact g.foreign hc rfl }

theorem Core.grant_holder : Holder v.pending v.current v.disowned v.lost v.now v.late v.last (update v.top s (v.top s + 1))
      (insert (s, v.top s + 1) { k ∈ v.held | k.1 ≠ s }) (update v.gid (s, v.top s + 1) (some id)) := {
  h.holder with
  latest := by
    rintro k (rfl | ⟨hk, hs⟩)
    · exact ⟨(update_self s _ v.top).symm, id, update_self ..⟩
    · obtain ⟨htop, id', hg⟩ := h.holder.latest hk
      rw [update_of_ne hs]
      exact ⟨htop, id', h.gid_of_gid hg⟩
  accounted := by
    rintro k (rfl | ⟨hk, -⟩)
    · rcases g.wanted with hp | hd
      · exact .inr (.inr (.inr ⟨id, hp⟩))
      · exact .inr (.inl hd)
    · exact h.holder.accounted hk }

theorem Core.grant_awaited : Awaited v.pending (v.live ++ told) v.last (insert (s, v.top s + 1) { k ∈ v.held | k.1 ≠ s })
      (update v.gid (s, v.top s + 1) (some id)) where
  admitted hp hg := by
    rcases gid_grant hg with ⟨hk, heq⟩ | ⟨-, hg⟩
    · obtain ⟨rfl, -⟩ := g.mine hp heq
      exact g.admitted.ge
    · exact h.awaited.admitted hp hg
  only {p e e'} hp hg hk := by
    rcases gid_grant hg with ⟨hk', heq⟩ | ⟨-, hg₁⟩
    · cases hk'
      rcases hk with hk | ⟨-, hs⟩
      · exact congrArg Prod.snd hk
      · exact (hs rfl).elim
    · rcases hk with hk | ⟨hk, -⟩
      · have hs : p.session = s := congrArg Prod.fst hk
        exact (g.pending_ne hp (hs ▸ hg₁)).elim
      · exact h.awaited.only hp hg₁ hk
  granted {p e} hp hg := by
    rcases gid_grant hg with ⟨hk, heq⟩ | ⟨-, hg⟩
    · obtain rfl : e = v.top s + 1 := congrArg Prod.snd hk
      obtain ⟨rfl, rfl⟩ := g.mine hp heq
      refine ⟨v.live, [], rfl, fun ⟨o, ho⟩ => ?_⟩
      exact Nat.not_succ_le_self _ (h.ended.lost ho).1
    · obtain ⟨pre, post, heq, hlost⟩ := h.awaited.granted hp hg
      exact ⟨pre, post ++ told, by simp [heq], hlost⟩
  released {p} hp hk hm := by
    have hm : ToClient.released p.id ∈ v.live := by
      rcases mem_append.mp hm with hm | hm
      · exact hm
      · rcases g.reaches with rfl | rfl
        · cases hm
        · cases mem_singleton.mp hm
    obtain ⟨hle, hn⟩ := h.awaited.released hp hk hm
    refine ⟨hle, ?_⟩
    rintro e (heq | ⟨hk', -⟩)
    · have hs : p.session = s := congrArg Prod.fst heq
      have hid : p.id = id := Nat.le_antisymm (by rwa [hs, g.admitted] at hle) (g.newest hp)
      obtain ⟨rfl, -⟩ := g.mine hp hid
      cases hk
    · exact hn hk'

theorem Core.grant (blocked : Set Nat) : Core (v.grantTo s id told blocked) := by
  have hlive : ∀ {x}, x ∈ v.live ++ told → x ∈ v.live ∨ x = .granted id s (v.top s + 1) := by
    intro x hx
    refine (mem_append.mp hx).imp_right fun hx => ?_
    rcases g.reaches with rfl | rfl
    · cases hx
    · exact mem_singleton.mp hx
  have hover : ∀ {r e}, e ≤ v.top r ∧ (r, e) ∉ v.held →
      e ≤ update v.top s (v.top s + 1) r ∧ (r, e) ∉ insert (s, v.top s + 1) { k ∈ v.held | k.1 ≠ s } := by
    rintro r e ⟨hle, hn⟩
    refine ⟨hle.trans (le_update_top v s r), ?_⟩
    rintro (heq | ⟨hk, -⟩)
    · cases heq
      exact Nat.not_succ_le_self _ hle
    · exact hn hk
  have hheld : ∀ {r e}, r ≠ s → (r, e) ∈ insert (s, v.top s + 1) { k ∈ v.held | k.1 ≠ s } → (r, e) ∈ v.held := by
    rintro r e hr (heq | ⟨hk, -⟩)
    · cases heq
      exact (hr rfl).elim
    · exact hk
  exact {
    numbers := h.grant_numbers g
    messages := h.grant_messages g
    ended := {
      lost := fun hx => hover (h.ended.lost ((hlive hx).resolve_right nofun))
      epoch := fun hx => hover (h.ended.epoch ((hlive hx).resolve_right nofun))
      unknown := fun hx => hover (h.ended.unknown ((hlive hx).resolve_right nofun))
      reclaimed := fun hp hk hx => (h.ended.reclaimed hp hk ((hlive hx).resolve_right nofun)).imp_right fun ⟨hok, hn⟩ =>
        ⟨hok, hover hn⟩
      reclaimUnknown := fun hp hk hx => hover (h.ended.reclaimUnknown hp hk ((hlive hx).resolve_right nofun)) }
    holder := h.grant_holder g
    given := {
      release := fun {id' r e} hr he => by
        obtain ⟨⟨id₁, hg⟩, hc, hn⟩ := h.given.release hr he
        refine ⟨⟨id₁, h.gid_of_gid hg⟩, hc, fun hp hg' => ?_⟩
        cases (h.gid_of_gid hg).symm.trans hg'
        exact hn hp hg
      write := fun {r e} hr => by
        refine (h.given.write hr).imp_right fun ⟨⟨id₁, hg⟩, hc, hn⟩ => ⟨⟨id₁, h.gid_of_gid hg⟩, hc, fun hp hg' => ?_⟩
        cases (h.gid_of_gid hg).symm.trans hg'
        exact hn hp hg
      query := fun hr =>
        let ⟨id₁, hg⟩ := h.given.query hr
        ⟨id₁, h.gid_of_gid hg⟩ }
    epochs := { h.epochs with
      spent := fun hk =>
        let ⟨id₁, hg, hlt⟩ := h.epochs.spent hk
        ⟨id₁, h.gid_of_gid hg, hlt⟩ }
    awaited := h.grant_awaited g
    suppress := { h.suppress with
      unheld := fun h₀ hk => h.suppress.unheld h₀ (hheld (g.unsuppressed h₀) hk)
      probe_unheld := fun hp hk hm => h.suppress.probe_unheld hp hk (hheld (g.unprobed hp hk) hm)
      probe_stale := h.suppress.probe_stale } }

end

end Grant

/-! ### Every move -/

theorem Core.move {loose strand : Prop} (h : Core v) (m : Move loose strand v w) : Core w := by
  cases m with
  | calm c => exact h.calm c
  | ask hp hm hr => exact h.ask hp hm hr
  | query hk => exact h.query hk
  | write hk hn => exact h.write hk hn
  | notify hk hn => exact h.notify hk hn
  | releaseLost hk => exact h.sendRelease (h.givenUp hk)
  | bind s hc hs hp => exact h.bind s hc hs hp
  | yield hp => exact h.yield hp
  | detach hc hp ho _ => exact h.detach hc hp ho
  | forget hk => exact h.forget fun hk' => (hk hk').elim
  | forgetDisowned hk => exact h.forget fun _ => hk
  | disownNot hh ha => exact h.disownNot hh ha
  | confirm _ => exact h.confirm
  | probed _ => exact ⟨h.numbers, h.messages, h.ended, h.holder, h.given, h.epochs, h.awaited, h.suppress⟩
  | recv hl hm => exact h.recv hl fun _ => Idle.ne_granted hm
  | adopt hl hp hs hsup => exact h.adopt hl hp hs hsup
  | giveBack hl hp => exact h.giveBack hl hp
  | reconnect hp => exact h.reconnect hp
  | tell hm _ => exact h.tell hm
  | grant g _ => exact h.grant g _
  | revoke hk => exact h.revoke hk
  | unhold _ => exact h.unhold sdiff_subset
  | fence hk => exact h.fence hk
  | vacate s =>
    have h' : Core { v with blocked := v.blocked \ {s} } :=
      ⟨h.numbers, h.messages, h.ended, h.holder, h.given, h.epochs, h.awaited, h.suppress⟩
    exact h'.tell trivial

end Sessions

end LeaseView
end Ferryx
