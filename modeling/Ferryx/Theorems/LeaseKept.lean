import Ferryx.Lib.Lists
import Ferryx.Theorems.LeaseCore

/-! `Kept`: the author holds the lease it thinks it has, or is about to find out; no session may end a lease behind its
back. `Waiting`: a suppressed author will be told when the session is free, or will ask; also no session may suppress it
without noting it. -/

namespace Ferryx
namespace LeaseView
open Set Lib List

/-- A lease the author counts on is held, to be reclaimed, or told lost. -/
structure Kept (v : LeaseView) : Prop where
  current : ∀ {k}, v.current = some k → k ∈ v.held ∨ v.needsReclaim = true ∨ ToldLost v.live k
  reclaimed : ∀ {p e epoch acc com finals pre post}, v.pending = some p → p.kind = .reclaim e →
    v.live = pre ++ .reclaimed p.id true epoch acc com finals :: post → (p.session, e) ∈ v.held ∨
      ToldLost post (p.session, e)
  granted : ∀ {p e pre post}, v.pending = some p → v.live = pre ++ .granted p.id p.session e :: post →
    (p.session, e) ∈ v.held ∨ ToldLost post (p.session, e)

/-- A suppressed author waits for another, or probes. -/
structure Waiting (v : LeaseView) : Prop where
  suppressed : v.suppressed = true → v.Waits v.session ∨ v.needsProbe = true
  lost : ∀ {s e o pre post}, v.live = pre ++ .lost s e o :: post → o ≠ 0 → ¬ToldLost pre (s, e) → v.Alive (s, e) →
    s ∈ v.blocked ∨ .vacated s ∈ post
  reclaimed : ∀ {p e epoch acc com finals pre post}, v.pending = some p → p.kind = .reclaim e →
    v.live = pre ++ .reclaimed p.id false epoch acc com finals :: post → epoch ≠ 0 →
      p.session ∈ v.blocked ∨ .vacated p.session ∈ post
  probed : ∀ {p ok epoch acc com finals pre post}, v.pending = some p → p.kind = .probe →
    v.live = pre ++ .reclaimed p.id ok epoch acc com finals :: post → epoch ≠ 0 →
      p.session ∈ v.blocked ∨ .vacated p.session ∈ post

variable {v w : LeaseView} {k : EpochKey} {m : ToClient} {rest live : List ToClient}

theorem ToldLost.append (h : ToldLost live k) (told : List ToClient) : ToldLost (live ++ told) k :=
  let ⟨o, ho⟩ := h
  ⟨o, mem_append_left _ ho⟩

theorem toldLost_last (live : List ToClient) (k : EpochKey) (o : Nat) : ToldLost (live ++ [.lost k.1 k.2 o]) k :=
  ⟨o, mem_append_right _ mem_cons_self⟩

theorem Kept.congr (h : Kept v) (hp : ∀ {p}, w.pending = some p → v.pending = some p) (hc : w.current = v.current)
    (hn : v.needsReclaim = true → w.needsReclaim = true) (hl : w.live = v.live) (hh : w.held = v.held) : Kept w where
  current hc' := by
    rw [hh, hl]
    exact (h.current (hc ▸ hc')).imp_right fun h => h.imp_left hn
  reclaimed hp' hk heq := by
    rw [hh]
    exact h.reclaimed (hp hp') hk (hl ▸ heq)
  granted hp' heq := by
    rw [hh]
    exact h.granted (hp hp') (hl ▸ heq)

theorem mem_of_split {pre post : List ToClient} (h : live = pre ++ m :: post) : m ∈ live :=
  h ▸ mem_append_right _ mem_cons_self

section
variable (h : Kept v)
include h

theorem Kept.ask (c : Core v) {kind : PendingKind} {s : Nat} {r : Req} :
    Kept { v with nextId := v.nextId + 1, pending := some ⟨v.nextId + 1, kind, s⟩, now := insert r v.now } where
  current := h.current
  reclaimed := by
    rintro p e epoch acc com finals pre post ⟨⟩ - heq
    exact (Nat.not_succ_le_self _ (c.messages.le (mem_of_split heq) rfl)).elim
  granted := by
    rintro p e pre post ⟨⟩ heq
    exact (Nat.not_succ_le_self _ (c.messages.le (mem_of_split heq) rfl)).elim

theorem Kept.detach {lost : Set EpochKey} {suppressed : Bool} (hp : ∀ {p e}, v.pending = some p → p.kind ≠ .reclaim e) :
    Kept { v with current := none, needsReclaim := false, lost := lost, suppressed := suppressed } where
  current := nofun
  reclaimed hp' hk := (hp hp' hk).elim
  granted := h.granted

theorem Kept.recv (hl : v.live = m :: rest) (hm : ∀ {k o}, v.current = some k → m ≠ .lost k.1 k.2 o) :
    Kept { v with live := rest } where
  current {k} hc := by
    refine (h.current hc).imp_right fun hk => hk.imp_right fun ⟨o, ho⟩ => ⟨o, ?_⟩
    rw [hl] at ho
    exact (mem_cons.mp ho).resolve_left fun heq => hm hc heq.symm
  reclaimed {p e epoch acc com finals pre post} hp hk heq := by
    have heq : rest = pre ++ _ :: post := heq
    exact h.reclaimed hp hk (show v.live = (m :: pre) ++ _ :: post by rw [hl, heq, cons_append])
  granted {p e pre post} hp heq := by
    have heq : rest = pre ++ _ :: post := heq
    exact h.granted hp (show v.live = (m :: pre) ++ _ :: post by rw [hl, heq, cons_append])

theorem Kept.append (hg : ∀ {id s e}, m ≠ .granted id s e)
    (hr : ∀ {p e epoch acc com finals}, v.pending = some p → p.kind = .reclaim e →
      m = .reclaimed p.id true epoch acc com finals → (p.session, e) ∈ v.held) : Kept { v with live := v.live ++ [m] } where
  current hc := (h.current hc).imp_right fun hk => hk.imp_right fun hk => hk.append _
  reclaimed hp hk heq := by
    rcases split_concat heq with ⟨_, hl, rfl⟩ | ⟨-, hm, -⟩
    · exact (h.reclaimed hp hk hl).imp_right fun hk => hk.append _
    · exact .inl (hr hp hk hm.symm)
  granted hp heq := by
    rcases split_concat heq with ⟨_, hl, rfl⟩ | ⟨-, hm, -⟩
    · exact (h.granted hp hl).imp_right fun hk => hk.append _
    · exact (hg hm.symm).elim

theorem Kept.lose {o : Nat} {top : Nat → Nat} {blocked : Set Nat} :
    Kept { v with held := v.held \ {k}, top := top, blocked := blocked, live := v.live ++ [.lost k.1 k.2 o] } := by
  have hheld : ∀ {k' : EpochKey} {l : List ToClient}, k' ∈ v.held ∨ ToldLost l k' →
      k' ∈ v.held \ {k} ∨ ToldLost (l ++ [.lost k.1 k.2 o]) k' := by
    intro k' l hk'
    by_cases heq : k' = k
    · subst heq
      exact .inr (toldLost_last l k' o)
    · exact hk'.imp (fun hk' => ⟨hk', heq⟩) fun hk' => hk'.append _
  exact {
    current := fun hc => by
      rcases h.current hc with hk' | hn | hk'
      · exact (hheld (.inl hk')).imp_right .inr
      · exact .inr (.inl hn)
      · exact (hheld (.inr hk')).imp_right .inr
    reclaimed := fun hp hk heq => by
      rcases split_concat heq with ⟨_, hl, rfl⟩ | ⟨-, hm, -⟩
      · exact hheld (h.reclaimed hp hk hl)
      · cases hm
    granted := fun hp heq => by
      rcases split_concat heq with ⟨_, hl, rfl⟩ | ⟨-, hm, -⟩
      · exact hheld (h.granted hp hl)
      · cases hm }

theorem Kept.unhold (c : Core v) (hk : ¬v.Alive k) : Kept { v with held := v.held \ {k} } where
  current {k'} hc := (h.current hc).imp_left fun hk' => ⟨hk', fun heq => hk (heq ▸ .inl hc)⟩
  reclaimed {p e epoch acc com finals pre post} hp hr heq := by
    refine (h.reclaimed hp hr heq).imp_left fun hk' => ⟨hk', fun heq' => hk (heq' ▸ .inl ?_)⟩
    exact c.epochs.reclaiming hp hr
  granted {p e pre post} hp heq := by
    refine (h.granted hp heq).imp_left fun hk' => ⟨hk', fun heq' => hk (heq' ▸ .inr ⟨p, hp, ?_⟩)⟩
    exact c.messages.granted (mem_of_split heq)

theorem Kept.grant (c : Core v) {s id : Nat} {told : List ToClient} (g : v.Grants s id told)
    (blocked : Set Nat) : Kept (v.grantTo s id told blocked) := by
  have hheld : ∀ {r e}, r ≠ s → (r, e) ∈ v.held → (r, e) ∈ insert (s, v.top s + 1) { k ∈ v.held | k.1 ≠ s } :=
    fun hr hk => .inr ⟨hk, hr⟩
  have hold : Kept { v.grantTo s id told blocked with live := v.live } := {
    current := fun {k} hc => (h.current hc).imp_left fun hk => hheld (g.foreign hc) hk
    reclaimed := fun {p e _ _ _ _ _ _} hp hk heq =>
      (h.reclaimed hp hk heq).imp_left (hheld (g.foreign (c.epochs.reclaiming hp hk)))
    granted := fun {p e pre post} hp heq => by
      refine (h.granted hp heq).imp_left (hheld ?_)
      intro hs
      exact g.pending_ne hp (hs ▸ c.messages.granted (mem_of_split heq)) }
  rcases g.reaches with rfl | rfl
  · exact hold.congr (fun hp => hp) rfl (fun hn => hn) (append_nil _) rfl
  · exact {
      current := fun hc => (hold.current hc).imp_right fun hk => hk.imp_right fun hk => hk.append _
      reclaimed := fun hp hk heq => by
        rcases split_concat heq with ⟨_, hl, rfl⟩ | ⟨-, hm, -⟩
        · exact (hold.reclaimed hp hk hl).imp_right fun hk => hk.append _
        · cases hm
      granted := fun {p e pre post} hp heq => by
        rcases split_concat heq with ⟨_, hl, rfl⟩ | ⟨-, hm, -⟩
        · exact (hold.granted hp hl).imp_right fun hk => hk.append _
        · have hs : p.session = s := by injection hm
          have he : e = v.top s + 1 := by injection hm
          rw [hs, he]
          exact .inl (mem_insert _ _) }

theorem Kept.move {strand : Prop} (c : Core v) (m : Move False strand v w) : Kept w := by
  cases m with
  | calm hm =>
    refine h.congr ?_ hm.current ?_ hm.live hm.held
    · rw [hm.pending]
      exact id
    · rw [hm.needsReclaim]
      exact id
  | ask => exact h.ask c
  | query => exact h.congr id rfl id rfl rfl
  | write => exact h.congr id rfl id rfl rfl
  | notify => exact h.congr id rfl id rfl rfl
  | releaseLost => exact h.congr id rfl id rfl rfl
  | bind => exact h.congr id rfl id rfl rfl
  | yield => exact h.congr nofun rfl id rfl rfl
  | detach _ hp => exact h.detach hp
  | forget => exact h.congr id rfl id rfl rfl
  | forgetDisowned => exact h.congr id rfl id rfl rfl
  | disownNot => exact h.congr id rfl id rfl rfl
  | confirm hk =>
    rcases hk with hf | hk
    · exact hf.elim
    · exact { current := fun hc => (hk hc).imp_right .inr, reclaimed := h.reclaimed, granted := h.granted }
  | probed => exact h.congr id rfl id rfl rfl
  | @recv m rest hl hm =>
    refine h.recv hl ?_
    rintro k o hc rfl
    exact hm hc
  | @adopt _ s e rest hl hp =>
    refine { current := ?_, reclaimed := nofun, granted := nofun }
    rintro k ⟨⟩
    exact (h.granted hp (hl.trans (nil_append _).symm)).imp_right .inr
  | @giveBack _ s e rest hl =>
    have hr : Kept { v with live := rest } := h.recv hl fun _ => nofun
    exact hr.congr id rfl id rfl rfl
  | reconnect hp =>
    refine { current := fun {k} hc => .inr (.inl ?_), reclaimed := fun hp' => ?_, granted := fun hp' => ?_ }
    · have hc : v.current = some k := hc
      simp [hc]
    · cases hp.symm.trans hp'
    · cases hp.symm.trans hp'
  | @tell m hm _ =>
    refine h.append (fun heq => ?_) fun {p e _ _ _ _} hp hk heq => ?_
    · subst heq
      exact hm
    · subst heq
      rcases hm.2 p hp rfl with ⟨e', hk', ⟨-, -, hm⟩ | ⟨hok, -⟩⟩ | ⟨hk', -⟩
      · cases hk.symm.trans hk'
        exact hm
      · cases hok
      · cases hk.symm.trans hk'
  | grant g _ => exact h.grant c g _
  | revoke => exact h.lose
  | unhold hk => exact h.unhold c (hk.resolve_left id)
  | fence => exact h.lose
  | vacate s =>
    have hv : Kept { v with blocked := v.blocked \ {s} } := h.congr id rfl id rfl rfl
    exact hv.append nofun fun _ _ => nofun

end

theorem Waiting.congr (h : Waiting v) (hp : ∀ {p}, w.pending = some p → v.pending = some p)
    (ha : ∀ {k}, w.Alive k → v.Alive k) (hl : w.live = v.live) (hb : v.blocked ⊆ w.blocked)
    (hs : w.suppressed = true → v.suppressed = true ∧ w.session = v.session ∧ (v.needsProbe = true → w.needsProbe = true)) :
      Waiting w where
  suppressed h₀ := by
    obtain ⟨h₁, hsess, hn⟩ := hs h₀
    rw [Waits, hl, hsess]
    exact (h.suppressed h₁).imp (fun hw => hw.imp_left fun hm => hb hm) hn
  lost heq ho hn hk := (h.lost (hl ▸ heq) ho hn (ha hk)).imp_left fun hm => hb hm
  reclaimed hp' hk heq he := (h.reclaimed (hp hp') hk (hl ▸ heq) he).imp_left fun hm => hb hm
  probed hp' hk heq he := (h.probed (hp hp') hk (hl ▸ heq) he).imp_left fun hm => hb hm

theorem Waiting.ask (h : Waiting v) (c : Core v) {kind : PendingKind} {s : Nat} {r : Req} :
    Waiting { v with nextId := v.nextId + 1, pending := some ⟨v.nextId + 1, kind, s⟩, now := insert r v.now } where
  suppressed := h.suppressed
  lost heq ho hn hk := by
    refine h.lost heq ho hn (hk.imp_right ?_)
    rintro ⟨p, ⟨⟩, hg⟩
    exact (Nat.not_succ_le_self _ (c.numbers.gid_le hg)).elim
  reclaimed := by
    rintro p e epoch acc com finals pre post ⟨⟩ - heq
    exact (Nat.not_succ_le_self _ (c.messages.le (mem_of_split heq) rfl)).elim
  probed := by
    rintro p ok epoch acc com finals pre post ⟨⟩ - heq
    exact (Nat.not_succ_le_self _ (c.messages.le (mem_of_split heq) rfl)).elim

theorem Waiting.recv (h : Waiting v) (hl : v.live = m :: rest) (hv : v.suppressed = true → m ≠ .vacated v.session)
    (hm : ∀ {s e o}, v.Alive (s, e) → m ≠ .lost s e o) : Waiting { v with live := rest } := by
  have hshift : ∀ {x : ToClient} {pre post}, rest = pre ++ x :: post → v.live = (m :: pre) ++ x :: post := by
    intro x pre post heq
    rw [hl, heq, cons_append]
  exact {
    suppressed := fun h₀ => by
      refine (h.suppressed h₀).imp_left fun hw => hw.imp_right fun hmem => ?_
      rw [hl] at hmem
      exact (mem_cons.mp hmem).resolve_left fun heq => hv h₀ heq.symm
    lost := fun {s e o pre post} heq ho hn hk => by
      refine h.lost (hshift heq) ho ?_ hk
      rintro ⟨o', ho'⟩
      rcases mem_cons.mp ho' with heq' | ho'
      · exact hm hk heq'.symm
      · exact hn ⟨o', ho'⟩
    reclaimed := fun hp hk heq => h.reclaimed hp hk (hshift heq)
    probed := fun hp hk heq => h.probed hp hk (hshift heq) }

theorem Core.alive_ne_lost (c : Core v) (hl : v.live = m :: rest) {s e o : Nat} (hc : v.current ≠ some (s, e))
    (hk : v.Alive (s, e)) : m ≠ .lost s e o := by
  rintro rfl
  obtain ⟨p, hp, hg⟩ := hk.resolve_left hc
  obtain ⟨-, hs⟩ := c.numbers.granted hp hg
  dsimp only at hs
  subst hs
  obtain ⟨pre, post, heq, hn⟩ := c.awaited.granted hp hg
  cases pre with
  | nil => cases hl.symm.trans heq
  | cons x pre =>
    cases hl.symm.trans heq
    exact hn ⟨o, mem_cons_self⟩

theorem Waiting.append (h : Waiting v)
    (hlost : ∀ {s e o}, m = .lost s e o → o ≠ 0 → ¬ToldLost v.live (s, e) → v.Alive (s, e) → s ∈ v.blocked)
    (hrec : ∀ {p e epoch acc com finals}, v.pending = some p → p.kind = .reclaim e →
      m = .reclaimed p.id false epoch acc com finals → epoch ≠ 0 → p.session ∈ v.blocked)
    (hprobe : ∀ {p ok epoch acc com finals}, v.pending = some p → p.kind = .probe →
      m = .reclaimed p.id ok epoch acc com finals → epoch ≠ 0 → p.session ∈ v.blocked) :
        Waiting { v with live := v.live ++ [m] } where
  suppressed h₀ := (h.suppressed h₀).imp_left fun hw => hw.imp_right fun hm => mem_append_left _ hm
  lost heq ho hn hk := by
    rcases split_concat heq with ⟨_, hl, rfl⟩ | ⟨rfl, hm, -⟩
    · exact (h.lost hl ho hn hk).imp_right fun hm => mem_append_left _ hm
    · exact .inl (hlost hm.symm ho hn hk)
  reclaimed hp hk heq he := by
    rcases split_concat heq with ⟨_, hl, rfl⟩ | ⟨-, hm, -⟩
    · exact (h.reclaimed hp hk hl he).imp_right fun hm => mem_append_left _ hm
    · exact .inl (hrec hp hk hm.symm he)
  probed hp hk heq he := by
    rcases split_concat heq with ⟨_, hl, rfl⟩ | ⟨-, hm, -⟩
    · exact (h.probed hp hk hl he).imp_right fun hm => mem_append_left _ hm
    · exact .inl (hprobe hp hk hm.symm he)

theorem Waiting.vacate (h : Waiting v) (s : Nat) :
    Waiting { v with blocked := v.blocked \ {s}, live := v.live ++ [.vacated s] } := by
  have hwait : ∀ {r} {l : List ToClient}, r ∈ v.blocked ∨ .vacated r ∈ l →
      r ∈ v.blocked \ {s} ∨ .vacated r ∈ l ++ [ToClient.vacated s] := by
    intro r l hr
    by_cases hs : r = s
    · subst hs
      exact .inr (mem_append_right _ mem_cons_self)
    · exact hr.imp (fun hr => ⟨hr, hs⟩) fun hr => mem_append_left _ hr
  exact {
    suppressed := fun h₀ => (h.suppressed h₀).imp_left hwait
    lost := fun heq ho hn hk => by
      rcases split_concat heq with ⟨_, hl, rfl⟩ | ⟨-, hm, -⟩
      · exact hwait (h.lost hl ho hn hk)
      · cases hm
    reclaimed := fun hp hk heq he => by
      rcases split_concat heq with ⟨_, hl, rfl⟩ | ⟨-, hm, -⟩
      · exact hwait (h.reclaimed hp hk hl he)
      · cases hm
    probed := fun hp hk heq he => by
      rcases split_concat heq with ⟨_, hl, rfl⟩ | ⟨-, hm, -⟩
      · exact hwait (h.probed hp hk hl he)
      · cases hm }

theorem Waiting.grant (h : Waiting v) (c : Core v) {s id : Nat} {told : List ToClient} (g : v.Grants s id told)
    {blocked : Set Nat} (hb : v.blocked \ {s} ⊆ blocked) : Waiting (v.grantTo s id told blocked) := by
  have hblock : ∀ {r} {P : Prop}, r ≠ s → r ∈ v.blocked ∨ P → r ∈ blocked ∨ P :=
    fun hr h => h.imp_left fun hm => hb ⟨hm, hr⟩
  have hold : Waiting { v.grantTo s id told blocked with live := v.live } := {
    suppressed := fun h₀ => (h.suppressed h₀).imp_left fun hw => hblock (g.unsuppressed h₀) hw
    lost := fun {r e o pre post} heq ho hn hk => by
      have hne : (r, e) ≠ (s, v.top s + 1) := by
        rintro ⟨⟩
        exact Nat.not_succ_le_self _ (c.ended.lost (mem_of_split heq)).1
      have hk' : v.Alive (r, e) := hk.imp_right fun ⟨p, hp, hg⟩ =>
        ⟨p, hp, ((gid_grant hg).resolve_left fun h => hne h.1).2⟩
      refine hblock ?_ (h.lost heq ho hn hk')
      rintro rfl
      rcases hk' with hc | ⟨p, hp, hg⟩
      · exact g.foreign hc rfl
      · exact g.pending_ne hp hg
    reclaimed := fun hp hk heq he => hblock (g.foreign (c.epochs.reclaiming hp hk)) (h.reclaimed hp hk heq he)
    probed := fun hp hk heq he => hblock (g.unprobed hp hk) (h.probed hp hk heq he) }
  rcases g.reaches with rfl | rfl
  · exact hold.congr (fun hp => hp) (fun hk => hk) (append_nil _) subset_rfl fun h₀ => ⟨h₀, rfl, fun hn => hn⟩
  · exact hold.append nofun (fun _ _ => nofun) fun _ _ => nofun

theorem Waiting.detach (h : Waiting v) (c : Core v) {other : Bool} {lost : Set EpochKey} (hc : v.current = some k)
    (hw : other = true → v.Waits k.1) :
    Waiting { v with current := none, needsReclaim := false, lost := lost, suppressed := v.suppressed || other } := {
  h with
  suppressed h₀ := by
    rcases Bool.or_eq_true_iff.mp h₀ with h₁ | h₁
    · cases (c.suppress.idle h₁).symm.trans hc
    · exact .inl (c.suppress.home hc ▸ hw h₁)
  lost heq ho hn hk := h.lost heq ho hn (.inr (hk.resolve_left nofun)) }

theorem Waiting.move (h : Waiting v) (c : Core v) (m : Move False False v w) : Waiting w := by
  have same : ∀ {s : Bool}, s = true → s = true ∧ v.session = v.session ∧ (v.needsProbe = true → v.needsProbe = true) :=
    fun h₀ => ⟨h₀, rfl, fun hn => hn⟩
  cases m with
  | calm hm =>
    refine h.congr ?_ ?_ hm.live hm.blocked fun h₀ => ?_
    · rw [hm.pending]
      exact id
    · intro k hk
      rwa [Alive, hm.current, hm.pending, hm.gid] at hk
    · rcases hm.suppressed with hs | ⟨hs, hn⟩
      · cases hs.symm.trans h₀
      · exact ⟨hs ▸ h₀, hm.session, fun hn' => hn ▸ hn'⟩
  | ask => exact h.ask c
  | query => exact h.congr id id rfl subset_rfl same
  | write => exact h.congr id id rfl subset_rfl same
  | notify => exact h.congr id id rfl subset_rfl same
  | releaseLost => exact h.congr id id rfl subset_rfl same
  | bind s _ hs =>
    refine h.congr id id rfl subset_rfl fun h₀ => ?_
    cases hs.symm.trans h₀
  | yield => exact h.congr nofun (fun hk => hk.imp_right nofun) rfl subset_rfl same
  | detach hc _ _ hw => exact h.detach c hc fun ho => (hw ho).resolve_left id
  | forget => exact h.congr id id rfl subset_rfl same
  | forgetDisowned => exact h.congr id id rfl subset_rfl same
  | disownNot => exact h.congr id id rfl subset_rfl same
  | confirm => exact h.congr id id rfl subset_rfl same
  | probed hw =>
    exact { h with
      suppressed := fun h₀ => .inl ((hw h₀).resolve_left id) }
  | @recv m rest hl hm =>
    refine h.recv hl ?_ fun {s e o} hk => ?_
    · rintro h₀ rfl
      exact hm h₀ rfl
    · by_cases hc : v.current = some (s, e)
      · rintro rfl
        exact hm hc
      · exact c.alive_ne_lost hl hc hk
  | @adopt id s e rest hl hp _ hs =>
    have hr : Waiting { v with live := rest } := h.recv hl nofun fun _ => nofun
    refine hr.congr nofun ?_ rfl subset_rfl fun h₀ => ?_
    · rintro k (hc | ⟨p, ⟨⟩, -⟩)
      obtain rfl : (s, e) = k := Option.some.inj hc
      exact .inr ⟨_, hp, c.messages.granted (hl ▸ mem_cons_self)⟩
    · cases hs.symm.trans h₀
  | @giveBack id s e rest hl =>
    have hr : Waiting { v with live := rest } := h.recv hl nofun fun _ => nofun
    exact hr.congr (fun hp => hp) (fun hk => hk) rfl subset_rfl same
  | reconnect hp =>
    refine { suppressed := fun h₀ => .inr ?_, lost := fun heq => ?_, reclaimed := fun hp' => ?_, probed := fun hp' => ?_ }
    · have h₀ : v.suppressed = true := h₀
      simp [h₀]
    · simp at heq
    · cases hp.symm.trans hp'
    · cases hp.symm.trans hp'
  | @tell m hm hf =>
    have hf := hf.resolve_left id
    refine h.append ?_ ?_ ?_
    · rintro s e o rfl ho hn hk
      exact hf ho hk hn
    · rintro p e epoch acc com finals hp hk rfl he
      rcases hm.2 p hp rfl with ⟨e', hk', ⟨hok, -⟩ | ⟨-, -, hb⟩⟩ | ⟨hk', -⟩
      · cases hok
      · exact hb he
      · cases hk.symm.trans hk'
    · rintro p ok epoch acc com finals hp hk rfl he
      rcases hm.2 p hp rfl with ⟨e', hk', -⟩ | ⟨-, hb⟩
      · cases hk.symm.trans hk'
      · exact hb he
  | grant g hb => exact h.grant c g hb
  | @revoke k o hk =>
    have hb : Waiting { v with
        held := v.held \ {k}, top := Function.update v.top k.1 (v.top k.1 + 1), blocked := insert k.1 v.blocked } :=
      h.congr id id rfl (subset_insert _ _) same
    refine hb.append ?_ (fun _ _ => nofun) fun _ _ => nofun
    rintro s e o' ⟨⟩ - - -
    exact mem_insert _ _
  | unhold => exact h.congr id id rfl subset_rfl same
  | @fence k hk =>
    have hb : Waiting { v with held := v.held \ {k} } := h.congr id id rfl subset_rfl same
    refine hb.append ?_ (fun _ _ => nofun) fun _ _ => nofun
    rintro s e o ⟨⟩ ho
    exact (ho rfl).elim
  | vacate s => exact h.vacate s

end LeaseView

def LeaseView.Moves (loose strand : Prop) : LeaseView → LeaseView → Prop :=
  Relation.ReflTransGen (LeaseView.Move loose strand)

namespace LeaseView.Moves
variable {loose strand : Prop} {v w x : LeaseView}

theorem refl (v : LeaseView) : Moves loose strand v v := Relation.ReflTransGen.refl

theorem of_eq (h : w = v) : Moves loose strand v w := by
  rw [h]
  exact refl v

theorem trans (h : Moves loose strand v w) (h' : Moves loose strand w x) : Moves loose strand v x :=
  Relation.ReflTransGen.trans h h'

theorem move (h : Move loose strand v w) : Moves loose strand v w := .single h

theorem keeps {P : LeaseView → Prop} (hP : ∀ {v w}, Move loose strand v w → P v → P w) (h : Moves loose strand v w)
    (hv : P v) : P w := by
  induction h with
  | refl => exact hv
  | tail _ hm ih => exact hP hm ih

theorem core (h : Moves loose strand v w) (c : Core v) : Core w := h.keeps (fun m c => c.move m) c

theorem unsuppressed (v : LeaseView) : Moves loose strand v { v with suppressed := false, needsProbe := false } :=
  move (.calm ⟨rfl, le_rfl, rfl, rfl, rfl, .inl rfl, subset_rfl, fun _ h => h, rfl, subset_rfl, subset_rfl,
    rfl, fun _ => le_rfl, fun _ => le_rfl, fun _ => rfl, rfl, rfl, subset_rfl⟩)

theorem disown (v : LeaseView) {s : Nat} (hs : ∀ {k}, v.current = some k → k.1 ≠ s) :
    Moves loose strand v { v with disowned := insert s v.disowned } :=
  move (.calm ⟨rfl, le_rfl, rfl, rfl, rfl, .inr ⟨rfl, rfl⟩, Set.subset_insert _ _,
    fun hk hmem => (Set.mem_insert_iff.mp hmem).resolve_left (hs hk), rfl, subset_rfl, subset_rfl, rfl,
    fun _ => le_rfl, fun _ => le_rfl, fun _ => rfl, rfl, rfl, subset_rfl⟩)

end LeaseView.Moves

open LeaseView

/-- The pending request once the lease is lost: a reclaim of it is not pending any more. -/
def Pending.unlessReclaim (p : Option Pending) : Option Pending :=
  p.filter fun p => match p.kind with
    | .reclaim _ => false
    | _ => true

def LeaseView.detached (v : LeaseView) (k : EpochKey) (other : Bool) : LeaseView :=
  { v with
    pending := Pending.unlessReclaim v.pending, current := none, needsReclaim := false, lost := insert k v.lost
    suppressed := v.suppressed || other }

variable {loose strand : Prop} {v w : LeaseView}

theorem LeaseView.moves_detached {k : EpochKey} {other : Bool} (hc : v.current = some k)
    (ho : other = true → k ∉ v.held) (hw : other = true → strand ∨ v.Waits k.1) :
      Moves loose strand v (v.detached k other) := by
  cases hp : v.pending with
  | none =>
    refine Moves.trans (.move (.detach hc (fun h => by cases hp.symm.trans h) ho hw)) (.of_eq ?_)
    simp [detached, hp, Pending.unlessReclaim]
  | some p =>
    by_cases hk : ∃ e, p.kind = .reclaim e
    · obtain ⟨e, hk⟩ := hk
      refine Moves.trans (.move (.yield hp)) (Moves.trans (.move (.detach hc nofun ho hw)) (.of_eq ?_))
      simp [detached, hp, Pending.unlessReclaim, hk, Pending.disown]
    · refine Moves.trans (.move (.detach hc (fun {p' e} h hk' => ?_) ho hw)) (.of_eq ?_)
      · obtain rfl : p = p' := Option.some.inj (hp.symm.trans h)
        exact hk ⟨e, hk'⟩
      · have hkeep : Pending.unlessReclaim (some p) = some p := by
          cases hk' : p.kind with
          | reclaim e => exact (hk ⟨e, hk'⟩).elim
          | _ => simp [Pending.unlessReclaim, Option.filter, hk']
        simp [detached, hp, hkeep]

/-- The core, and the two properties that loss of an owner or a strand may break. -/
structure LeaseView.Sound (loose strand : Prop) (v : LeaseView) : Prop where
  core : Core v
  kept : loose ∨ Kept v
  waiting : strand ∨ Waiting v

theorem LeaseView.Sound.move (h : Sound loose strand v) (hls : loose → strand)
    (m : Move loose strand v w) : Sound loose strand w where
  core := h.core.move m
  kept := by
    by_cases hl : loose
    · exact .inl hl
    · obtain rfl : loose = False := eq_false hl
      exact .inr ((h.kept.resolve_left hl).move h.core m)
  waiting := by
    by_cases hs : strand
    · exact .inl hs
    · obtain rfl : loose = False := eq_false fun hl => hs (hls hl)
      obtain rfl : strand = False := eq_false hs
      exact .inr ((h.waiting.resolve_left hs).move h.core m)

theorem LeaseView.Sound.moves (h : Sound loose strand v) (hls : loose → strand)
    (m : Moves loose strand v w) : Sound loose strand w :=
  m.keeps (fun m h => h.move hls m) h

theorem LeaseView.core_start (hp : v.pending = none) (hc : v.current = none) (hn : v.needsReclaim = false)
    (hs : v.suppressed = false) (hnow : v.now = ∅) (hlate : v.late = ∅) (hlive : v.live = []) (hheld : v.held = ∅)
    (hlost : v.lost = ∅) (hg : v.gid = fun _ => none) : Core v := by
  obtain ⟨session, nextId, pending, current, needsReclaim, suppressed, needsProbe, disowned, lost, now, late, live, last,
    top, held, gid, blocked⟩ := v
  subst hp hc hn hs hnow hlate hlive hheld hlost hg
  constructor <;> constructor <;> simp

end Ferryx
