import Ferryx.Lib.Lists
import Ferryx.Ui.SessionBinding

/-! The hosts only move on: a session that has exited or was deleted stays so. A session that a binding names was there when
the binding asked for the inventory, so an answer that does not list it shows that it was deleted. -/

namespace Ferryx.Ui
open Lib List BindingStep
variable {ps : List PartitionInventory}
variable {b : SessionBinding} {s s' : HostSession} {p : PartitionInventory} {listed : List String} {h : Hosts}

/-! ### Hosts go on -/

/-- The same session later: what has ended stays ended. -/
structure SessionLater (s s' : HostSession) : Prop where
  partition : s'.partition = s.partition
  sessionId : s'.sessionId = s.sessionId
  incarnation : s'.incarnation = s.incarnation
  exited : s.childRunning = false → s'.childRunning = false
  deleted : s.deleted = true → s'.deleted = true

theorem SessionLater.refl (s : HostSession) : SessionLater s s := ⟨rfl, rfl, rfl, id, id⟩

theorem SessionLater.trans {s s' s'' : HostSession} (h : SessionLater s s') (h' : SessionLater s' s'') :
    SessionLater s s'' where
  partition := h'.partition.trans h.partition
  sessionId := h'.sessionId.trans h.sessionId
  incarnation := h'.incarnation.trans h.incarnation
  exited := h'.exited ∘ h.exited
  deleted := h'.deleted ∘ h.deleted

/-- The hosts later: no session is forgotten, and a dead partition stays dead. -/
structure Later (h h' : Hosts) : Prop where
  sessions : ∀ {k : Nat} {s : HostSession}, h.sessions[k]? = some s → ∃ s', h'.sessions[k]? = some s' ∧ SessionLater s s'
  dead : ∀ {p}, h.dead p = true → h'.dead p = true

theorem Later.refl (h : Hosts) : Later h h := ⟨fun hs => ⟨_, hs, .refl _⟩, id⟩

theorem Later.trans {h h' h'' : Hosts} (a : Later h h') (b : Later h' h'') : Later h h'' where
  sessions hs := by
    obtain ⟨s', hs', ha⟩ := a.sessions hs
    obtain ⟨s'', hs'', hb⟩ := b.sessions hs'
    exact ⟨s'', hs'', ha.trans hb⟩
  dead := b.dead ∘ a.dead

theorem Later.create (h : Hosts) (partition sessionId incarnation : String) :
    Later h (h.create partition sessionId incarnation) where
  sessions hs := ⟨_, getElem?_concat_lt hs _, .refl _⟩
  dead := id

theorem Later.set {k : Nat} (hs : h.sessions[k]? = some s) (hlater : SessionLater s s')
    (tableRevision : String → Nat) : Later h { h with sessions := h.sessions.set k s', tableRevision } where
  sessions {j x} hx := by
    by_cases hjk : k = j
    · subst hjk
      obtain rfl : s = x := Option.some.inj (hs.symm.trans hx)
      exact ⟨s', by simp [(List.getElem?_eq_some_iff.mp hs).1], hlater⟩
    · exact ⟨x, by simp [hjk, hx], .refl x⟩
  dead := id

theorem Later.exit (h : Hosts) (k : Nat) (exitInfo : Option ExitInfo) : Later h (h.exit k exitInfo) := by
  unfold Hosts.exit
  split
  · exact .refl h
  next s hs =>
    have hlater : SessionLater s { s with childRunning := false, exitInfo } := ⟨rfl, rfl, rfl, fun _ => rfl, id⟩
    exact .set hs hlater _

theorem Later.delete (h : Hosts) (k : Nat) : Later h (h.delete k) := by
  unfold Hosts.delete
  split
  · exact .refl h
  next s hs =>
    have hlater : SessionLater s { s with deleted := true } := ⟨rfl, rfl, rfl, id, fun _ => rfl⟩
    exact .set hs hlater _

theorem Later.die (h : Hosts) (partition : String) : Later h (h.die partition) where
  sessions hs := ⟨_, hs, .refl _⟩
  dead {p} hp := by
    by_cases heq : p = partition <;> simp [Hosts.die, Function.update, heq, hp]

/-- The binding's identity fits the session; a hint is only a session id. -/
def Names (b : SessionBinding) (s : HostSession) : Prop := s.sessionId = b.sessionId ∧ ∀ i ∈ b.incarnation,
    s.incarnation = i

/-- The session has exited, was deleted from the table of its owner, or its owner is dead. -/
def Ended (h : Hosts) (s : HostSession) : Prop := s.childRunning = false ∨ s.deleted = true ∨ h.dead s.partition = true

theorem Names.later (hs : SessionLater s s') : Names b s' ↔ Names b s := by
  unfold Names
  rw [hs.sessionId, hs.incarnation]

theorem Ended.later {h h' : Hosts} (hh : Later h h') (hs : SessionLater s s') (he : Ended h s) : Ended h' s' := by
  rcases he with he | he | he
  · exact .inl (hs.exited he)
  · exact .inr (.inl (hs.deleted he))
  · exact .inr (.inr (hs.partition ▸ hh.dead he))

/-- A host created this session with this identity. -/
def Created (h : Hosts) (sessionId : String) (i : TrustedIdentity) : Prop :=
  ∃ s ∈ h.sessions, s.sessionId = sessionId ∧ s.incarnation = i.incarnation ∧ s.partition = i.partition ∧
    s.createdTableRevision = i.createdTableRevision

/-! ### True events -/

/-- A new session has its own incarnation and no id that a layout has named before; what a layout trusts and a spawn returns
was created; an answer to the last request is true of each partition since then; exits and deaths are true. -/
def truthful (w : Pane) : PaneAction → Prop
  | .create _ sessionId incarnation =>
    (∀ s ∈ w.hosts.sessions, s.incarnation ≠ incarnation) ∧ ¬(w.binding.adopting = true ∧ w.binding.sessionId = sessionId)
  | .event (.layoutLoaded sessionId (some i)) => Created w.hosts sessionId i
  | .event (.inventory token partitions) =>
    token = w.binding.lastRequestToken → ∀ p ∈ partitions, ∃ h ∈ w.since, Reports h p
  | .event (.childExited incarnation _) => ∃ s ∈ w.hosts.sessions, s.incarnation = incarnation ∧ s.childRunning = false
  | .event (.exitObserved incarnation _) => ∃ s ∈ w.hosts.sessions, s.incarnation = incarnation ∧ s.childRunning = false
  | .event (.ownerDead partition) => w.hosts.dead partition = true
  | .event (.spawnResult sessionId i) => Created w.hosts sessionId i
  | _ => True

/-- What a pane knows of its session is what a host created. -/
structure Bound (w : Pane) : Prop where
  unique : (w.hosts.sessions.map HostSession.incarnation).Nodup
  identity : ∀ i ∈ w.binding.incarnation, w.binding.adopting = false ∧
    ∃ s ∈ w.hosts.sessions, s.sessionId = w.binding.sessionId ∧ s.incarnation = i ∧ w.binding.partition = some s.partition
  anonymous : w.binding.incarnation = none → w.binding.partition = none
  hint : w.binding.incarnation = none → w.binding.phase = .unbound ∨
    w.binding.adopting = true ∧ (w.binding.phase = .resolving ∨ w.binding.phase = .terminated)
  pending : w.binding.inventoryPending = true → w.binding.phase = .resolving
  since : ∀ h ∈ w.since, Later h w.hosts
  /-- A session that the binding names was there at the request. -/
  named : w.binding.inventoryPending = true → ∀ h ∈ w.since, ∀ {k : Nat} {s : HostSession}, w.hosts.sessions[k]? = some s →
    Names w.binding s →
    ∃ s₀, h.sessions[k]? = some s₀
  ended : w.binding.phase = .terminated → ∀ s ∈ w.hosts.sessions, Names w.binding s →
    (w.binding.adopting = true → s.partition ∈ w.listed) → Ended w.hosts s

variable {w : Pane}

theorem Bound.turn (B : Bound w) {hosts : Hosts} (hlater : Later w.hosts hosts)
    (hunique : (hosts.sessions.map HostSession.incarnation).Nodup)
    (hnew : ∀ {k : Nat} {s : HostSession}, hosts.sessions[k]? = some s → (∃ s₀, w.hosts.sessions[k]? = some s₀) ∨
      (w.binding.phase ≠ .unbound → ¬Names w.binding s)) : Bound (w.turn hosts) := {
  B with
  unique := hunique
  identity i hi := by
    obtain ⟨hadopting, s, hs, hid, hinc, hpart⟩ := B.identity i hi
    obtain ⟨k, hk⟩ := getElem?_of_mem hs
    obtain ⟨s', hs', hl⟩ := hlater.sessions hk
    exact ⟨hadopting, s', mem_of_getElem? hs', hl.sessionId.trans hid,
      hl.incarnation.trans hinc, by rw [hl.partition]; exact hpart⟩
  since h hh := by
    rcases mem_append.mp hh with hh | hh
    · exact (B.since h hh).trans hlater
    · exact mem_singleton.mp hh ▸ .refl hosts
  named hp h hh k s hs hnames := by
    rcases mem_append.mp hh with hh | hh
    · rcases hnew hs with ⟨s₀, hs₀⟩ | hnot
      · obtain ⟨s', hs', hl⟩ := hlater.sessions hs₀
        obtain rfl : s' = s := Option.some.inj (hs'.symm.trans hs)
        exact B.named hp h hh hs₀ ((Names.later hl).mp hnames)
      · exact absurd hnames (hnot (by rw [B.pending hp]; simp))
    · exact ⟨s, mem_singleton.mp hh ▸ hs⟩
  ended ht s hs hnames hlisted := by
    obtain ⟨k, hk⟩ := getElem?_of_mem hs
    rcases hnew hk with ⟨s₀, hs₀⟩ | hnot
    · obtain ⟨s', hs', hl⟩ := hlater.sessions hs₀
      obtain rfl : s' = s := Option.some.inj (hs'.symm.trans hk)
      refine Ended.later hlater hl (B.ended ht s₀ (mem_of_getElem? hs₀) ((Names.later hl).mp hnames) ?_)
      rw [← hl.partition]
      exact hlisted
    · exact absurd hnames (hnot (by rw [show w.binding.phase = .terminated from ht]; simp)) }

theorem Bound.not_named (B : Bound w) {s : HostSession} (hfresh : ∀ x ∈ w.hosts.sessions, x.incarnation ≠ s.incarnation)
    (hhint : ¬(w.binding.adopting = true ∧ w.binding.sessionId = s.sessionId)) (hphase : w.binding.phase ≠ .unbound) :
      ¬Names w.binding s := by
  intro ⟨hid, hinc⟩
  cases hi : w.binding.incarnation with
  | some i =>
    obtain ⟨-, x, hx, -, hxi, -⟩ := B.identity i hi
    exact hfresh x hx (hxi.trans (hinc i hi).symm)
  | none =>
    rcases B.hint hi with hunbound | ⟨hadopting, -⟩
    · exact hphase hunbound
    · exact hhint ⟨hadopting, hid.symm⟩

theorem Bound.create (B : Bound w) {partition sessionId incarnation : String}
    (h : truthful w (.create partition sessionId incarnation)) :
      Bound (w.step (.create partition sessionId incarnation)) := by
  obtain ⟨hfresh, hhint⟩ := h
  refine B.turn (.create _ _ _ _) ?_ fun {k s} hs => ?_
  · show ((w.hosts.sessions ++ [_]).map HostSession.incarnation).Nodup
    rw [map_append, nodup_append]
    refine ⟨B.unique, by simp, fun a ha b hb => ?_⟩
    obtain ⟨x, hx, rfl⟩ := mem_map.mp ha
    obtain rfl : b = incarnation := by simpa using hb
    exact hfresh x hx
  · rcases getElem?_concat_cases hs with hs | ⟨-, rfl⟩
    · exact .inl ⟨s, hs⟩
    · exact .inr (B.not_named hfresh hhint)

theorem Bound.set (B : Bound w) {hosts : Hosts} (hlater : Later w.hosts hosts)
    (hincarnations : hosts.sessions.map HostSession.incarnation = w.hosts.sessions.map HostSession.incarnation) :
      Bound (w.turn hosts) := by
  refine B.turn hlater (hincarnations ▸ B.unique) fun {k s} hs => .inl ?_
  have hlength : hosts.sessions.length = w.hosts.sessions.length := by simpa using congrArg List.length hincarnations
  have hk := (List.getElem?_eq_some_iff.mp hs).1
  exact ⟨_, List.getElem?_eq_getElem (hlength ▸ hk)⟩

theorem incarnations_set {l : List HostSession} {k : Nat} (hs : l[k]? = some s) (h : s'.incarnation = s.incarnation) :
    (l.set k s').map HostSession.incarnation = l.map HostSession.incarnation := by
  refine List.ext_getElem? fun j => ?_
  by_cases hkj : k = j
  · subst hkj
    obtain ⟨hlt, rfl⟩ := List.getElem?_eq_some_iff.mp hs
    simp [hlt, h]
  · simp [hkj]

theorem Bound.exit (B : Bound w) (k : Nat) (exitInfo : Option ExitInfo) : Bound (w.step (.exit k exitInfo)) := by
  refine B.set (.exit _ _ _) ?_
  unfold Hosts.exit
  split
  · rfl
  next s hs => exact incarnations_set hs rfl

theorem Bound.delete (B : Bound w) (k : Nat) : Bound (w.step (.delete k)) := by
  refine B.set (.delete _ _) ?_
  unfold Hosts.delete
  split
  · rfl
  next s hs => exact incarnations_set hs rfl

theorem Bound.ownerDies (B : Bound w) (partition : String) : Bound (w.step (.ownerDies partition)) := B.set (.die _ _) rfl

/-! ### Events that keep the identity -/

/-- The binding names the session it named. -/
structure SameIdentity (b b' : SessionBinding) : Prop where
  sessionId : b'.sessionId = b.sessionId
  incarnation : b'.incarnation = b.incarnation
  partition : b'.partition = b.partition
  adopting : b'.adopting = b.adopting

theorem SameIdentity.names {b b' : SessionBinding} (h : SameIdentity b b') (s : HostSession) : Names b' s ↔ Names b s := by
  unfold Names
  rw [h.sessionId, h.incarnation]

def Pane.bind (w : Pane) (b : SessionBinding) (listed : List String) : Pane :=
  { w with binding := b, since := if b.lastRequestToken = w.binding.lastRequestToken then w.since else [w.hosts], listed }

section
variable (B : Bound w)
include B

theorem Bound.since_bind (b : SessionBinding) (listed : List String) : ∀ h ∈ (w.bind b listed).since, Later h w.hosts := by
  intro h hh
  simp only [Pane.bind] at hh
  split at hh
  · exact B.since h hh
  · exact mem_singleton.mp hh ▸ .refl _

theorem Bound.keep (hid : SameIdentity w.binding b)
    (hphase : b.incarnation = none → b.phase = .unbound ∨ b.phase = .resolving ∨ b.phase = .terminated)
    (hunbound : b.phase = .unbound ∨ w.binding.phase ≠ .unbound)
      (hpending : b.inventoryPending = true → b.phase = .resolving ∧
      (b.lastRequestToken = w.binding.lastRequestToken → w.binding.inventoryPending = true))
    (hended : b.phase = .terminated → ∀ s ∈ w.hosts.sessions, Names w.binding s →
      (b.adopting = true → s.partition ∈ listed) → Ended w.hosts s) :
    Bound (w.bind b listed) where
  unique := B.unique
  identity i hi := by
    have hi : i ∈ w.binding.incarnation := hid.incarnation ▸ hi
    show b.adopting = false ∧ ∃ s ∈ w.hosts.sessions, s.sessionId = b.sessionId ∧ s.incarnation = i ∧
      b.partition = some s.partition
    rw [hid.adopting, hid.sessionId, hid.partition]
    exact B.identity i hi
  anonymous hi := hid.partition.trans (B.anonymous (hid.incarnation.symm.trans hi))
  hint hi := by
    rcases hphase hi with hp | hp
    · exact .inl hp
    · rcases hunbound with hu | hu
      · exact .inl hu
      · rcases B.hint (hid.incarnation ▸ hi) with h | ⟨ha, -⟩
        · exact absurd h hu
        · exact .inr ⟨hid.adopting.trans ha, hp⟩
  pending hp := (hpending hp).1
  since := B.since_bind b listed
  named hp h hh k s hs hnames := by
    simp only [Pane.bind] at hh
    split at hh
    next htoken => exact B.named ((hpending hp).2 htoken) h hh hs ((hid.names s).mp hnames)
    · exact ⟨s, mem_singleton.mp hh ▸ hs⟩
  ended ht s hs hnames := hended ht s hs ((hid.names s).mp hnames)

theorem Bound.identified (h : w.binding.phase = .attaching ∨ w.binding.phase = .attached ∨
    w.binding.phase = .disconnected) :
    w.binding.incarnation ≠ none := by
  intro hi
  rcases B.hint hi with hp | ⟨-, hp | hp⟩ <;> simp [hp] at h

theorem Bound.annotate (hid : SameIdentity w.binding b) (hphase : b.phase = w.binding.phase)
    (hpending : b.inventoryPending = true → w.binding.inventoryPending = true) : Bound (w.bind b w.listed) := by
  refine B.keep hid (fun hi => ?_) ?_ (fun hp => ⟨hphase.trans (B.pending (hpending hp)), fun _ => hpending hp⟩)
    fun ht s hs hn hl => ?_
  · rw [hphase]
    rcases B.hint (hid.incarnation ▸ hi) with hp | ⟨-, hp⟩
    · exact .inl hp
    · exact .inr hp
  · rw [hphase]
    by_cases hu : w.binding.phase = .unbound
    · exact .inl hu
    · exact .inr hu
  · exact B.ended (hphase ▸ ht) s hs hn (hid.adopting ▸ hl)

theorem Bound.same : Bound (w.bind w.binding w.listed) := B.annotate ⟨rfl, rfl, rfl, rfl⟩ rfl id

theorem Bound.rebind (hphase : b.phase = .resolving ∨ b.phase = .attaching)
    (hpending : b.inventoryPending = true → b.phase = .resolving ∧ b.lastRequestToken ≠ w.binding.lastRequestToken)
    (hhint : b.incarnation = none → b.partition = none ∧ b.adopting = true ∧ b.phase = .resolving)
    (hidentity : ∀ i ∈ b.incarnation, b.adopting = false ∧
      ∃ s ∈ w.hosts.sessions, s.sessionId = b.sessionId ∧ s.incarnation = i ∧ b.partition = some s.partition) :
    Bound (w.bind b listed) where
  unique := B.unique
  identity := hidentity
  anonymous hi := (hhint hi).1
  hint hi := .inr ⟨(hhint hi).2.1, .inl (hhint hi).2.2⟩
  pending hp := (hpending hp).1
  since := B.since_bind b listed
  named hp h hh k s hs _ := by
    simp only [Pane.bind, if_neg (hpending hp).2] at hh
    exact ⟨s, mem_singleton.mp hh ▸ hs⟩
  ended ht := by
    rw [show (w.bind b listed).binding.phase = b.phase from rfl] at ht
    rcases hphase with hp | hp <;> simp [hp] at ht

end

theorem event_bind {e : BindingEvent} {s : BindingStep} (h : bindingReducer w.binding e = .ok s) :
    w.event e = w.bind s.binding (w.listedAfter e) := by
  unfold Pane.event
  rw [h]
  rfl

theorem Bound.resolve (B : Bound w) (h : w.binding.phase = .attaching ∨ w.binding.phase = .attached ∨
    w.binding.phase = .disconnected)
    (effects : List BindingEffect) : Bound (w.bind (resolve ⟨w.binding, effects⟩).binding w.listed) := by
  refine B.keep ⟨rfl, rfl, rfl, rfl⟩ (fun _ => .inr (.inl rfl)) (.inr ?_) (fun _ => ⟨rfl, fun ht => ?_⟩) nofun
  · rcases h with h | h | h <;> simp [h]
  · simp [BindingStep.resolve, BindingStep.requestInventory] at ht

theorem Bound.disconnect (B : Bound w) (h : w.binding.phase = .attaching ∨ w.binding.phase = .attached)
    (effects : List BindingEffect) : Bound (w.bind (disconnect ⟨w.binding, effects⟩).binding w.listed) := by
  have hi : w.binding.incarnation ≠ none := B.identified (by tauto)
  refine B.keep ⟨rfl, rfl, rfl, rfl⟩ (fun hn => absurd hn hi) (.inr ?_) (fun hp => ?_) nofun
  · rcases h with h | h <;> simp [h]
  · have hr := B.pending hp
    rcases h with h | h <;> simp [h] at hr

theorem Bound.subscribe (B : Bound w) (h : w.binding.phase = .attaching) (hid : SameIdentity w.binding b)
    (hpending : b.inventoryPending = w.binding.inventoryPending) (hphase : b.phase = .attaching ∨ b.phase = .attached) :
    Bound (w.bind b w.listed) := by
  have hi : w.binding.incarnation ≠ none := B.identified (.inl h)
  refine B.keep hid (fun hn => absurd (hid.incarnation.symm.trans hn) hi) (.inr (by simp [h])) (fun hp => ?_) fun ht => ?_
  · have hr := B.pending (hpending ▸ hp)
    simp [h] at hr
  · rcases hphase with hp | hp <;> simp [hp] at ht

theorem Bound.eq_of_incarnation (B : Bound w) (hs : s ∈ w.hosts.sessions) (hs' : s' ∈ w.hosts.sessions)
    (h : s.incarnation = s'.incarnation) : s = s' := inj_on_of_nodup_map B.unique hs hs' h

theorem Bound.terminate (B : Bound w) (hlive : w.binding.live = true) {i : String} (hi : w.binding.incarnation = some i)
    (hended : ∀ s ∈ w.hosts.sessions, s.incarnation = i → w.binding.partition = some s.partition → Ended w.hosts s)
    (kind : TerminationKind) (exitInfo : Option ExitInfo) (effects : List BindingEffect) :
    Bound (w.bind (terminate ⟨w.binding, effects⟩ kind exitInfo).binding w.listed) := by
  obtain ⟨-, x, hx, -, hxi, hpartition⟩ := B.identity i hi
  refine B.keep ⟨rfl, rfl, rfl, rfl⟩ (fun _ => .inr (.inr rfl)) (.inr ?_) nofun fun _ s hs hnames _ => ?_
  · intro hu
    simp [SessionBinding.live, hu] at hlive
  · have hsi := hnames.2 i hi
    obtain rfl := B.eq_of_incarnation hs hx (hsi.trans hxi.symm)
    exact hended s hs hsi hpartition

theorem Bound.deleted_of_unlisted (B : Bound w) (hpending : w.binding.inventoryPending = true)
    (hh : h ∈ w.since) (hreports : Reports h p) (hsettled : isSettled p = true) {s : HostSession}
      (hs : s ∈ w.hosts.sessions)
    (hnames : Names w.binding s) (hpartition : s.partition = p.partition)
    (hunlisted : ∀ e ∈ p.entries, ¬(e.sessionId = s.sessionId ∧ e.incarnation = s.incarnation)) : s.deleted = true := by
  obtain ⟨k, hk⟩ := getElem?_of_mem hs
  obtain ⟨s₀, hs₀⟩ := B.named hpending h hh hk hnames
  obtain ⟨s', hs', hl⟩ := (B.since h hh).sessions hs₀
  obtain rfl : s' = s := Option.some.inj (hs'.symm.trans hk)
  cases hd : s₀.deleted with
  | true => exact hl.deleted hd
  | false =>
    have hmem := hreports.complete hsettled s₀ (mem_of_getElem? hs₀) (hl.partition.symm.trans hpartition) hd
    exact absurd ⟨hl.sessionId.symm, hl.incarnation.symm⟩ (hunlisted _ hmem)

theorem Bound.session_of_entry (B : Bound w) (hh : h ∈ w.since) (hreports : Reports h p)
    (hsettled : isSettled p = true) {e : InventoryEntry} (he : e ∈ p.entries) :
    ∃ s ∈ w.hosts.sessions, s.partition = p.partition ∧ s.sessionId = e.sessionId ∧ s.incarnation = e.incarnation ∧
      (e.childRunning = false → s.childRunning = false) := by
  obtain ⟨s₀, hs₀, hpartition, -, rfl⟩ := hreports.listed hsettled e he
  obtain ⟨k, hk⟩ := getElem?_of_mem hs₀
  obtain ⟨s, hs, hl⟩ := (B.since h hh).sessions hk
  exact ⟨s, mem_of_getElem? hs, hl.partition.trans hpartition, hl.sessionId, hl.incarnation, hl.exited⟩

/-! ### Answers of an inventory -/

/-- An answer to a binding with an identity, which it may have from the same answer. -/
structure Answered (w : Pane) (b : SessionBinding) : Prop where
  sessionId : b.sessionId = w.binding.sessionId
  incarnation : ∀ i ∈ w.binding.incarnation, b.incarnation = some i
  phase : b.phase = .resolving
  pending : b.inventoryPending = false
  identity : ∃ s ∈ w.hosts.sessions, s.sessionId = b.sessionId ∧ b.incarnation = some s.incarnation ∧
    b.partition = some s.partition
  adopting : b.adopting = false

theorem Answered.bound {b b' : SessionBinding} (A : Answered w b) (B : Bound w) (hid : SameIdentity b b')
    (hpending : b'.inventoryPending = false)
    (hended : b'.phase = .terminated → ∀ s ∈ w.hosts.sessions, Names b s → Ended w.hosts s) : Bound (w.bind b' listed) := by
  obtain ⟨x, hx, hxid, hxi, hxp⟩ := A.identity
  have hsome : b'.incarnation ≠ none := by simp [hid.incarnation, hxi]
  refine ⟨B.unique, fun i hi => ?_, fun hi => absurd hi hsome, fun hi => absurd hi hsome, fun hp => ?_,
    B.since_bind b' listed,
    fun hp => ?_, fun ht s hs hn _ => ?_⟩
  · obtain rfl : x.incarnation = i := by
      have hi : b'.incarnation = some i := hi
      rw [hid.incarnation, hxi] at hi
      exact Option.some.inj hi
    exact ⟨hid.adopting.trans A.adopting, x, hx, hxid.trans hid.sessionId.symm, rfl, hid.partition.trans hxp⟩
  · exact absurd hp (by simp [Pane.bind, hpending])
  · exact absurd hp (by simp [Pane.bind, hpending])
  · exact hended ht s hs ((hid.names s).mp hn)

theorem Answered.names (A : Answered w b) {s : HostSession} (h : Names b s) : Names w.binding s := by
  refine ⟨h.1.trans A.sessionId, fun i hi => h.2 i (A.incarnation i hi)⟩

theorem Answered.eq_of_names (A : Answered w b) (B : Bound w) {s : HostSession} (hs : s ∈ w.hosts.sessions)
    (h : Names b s) : b.incarnation = some s.incarnation ∧ b.partition = some s.partition := by
  obtain ⟨x, hx, -, hxi, hxp⟩ := A.identity
  obtain rfl := B.eq_of_incarnation hs hx (h.2 _ hxi)
  exact ⟨hxi, hxp⟩

section Own
variable {b : SessionBinding} (A : Answered w b) (B : Bound w) (effects : List BindingEffect) (listed : List String)
include A B

theorem Answered.armRetry : Bound (w.bind (armRetry ⟨b, effects⟩).binding listed) := by
  refine A.bound B ⟨rfl, rfl, rfl, rfl⟩ A.pending fun ht => ?_
  rw [show (BindingStep.armRetry ⟨b, effects⟩).binding.phase = .resolving from A.phase] at ht
  cases ht

theorem Answered.terminate (hended : ∀ s ∈ w.hosts.sessions, Names b s → Ended w.hosts s) (kind : TerminationKind)
    (exitInfo : Option ExitInfo) : Bound (w.bind (terminate ⟨b, effects⟩ kind exitInfo).binding listed) :=
  A.bound B ⟨rfl, rfl, rfl, rfl⟩ rfl fun _ => hended

theorem Answered.attach {s' : BindingStep} (h : attach ⟨b, effects⟩ = .ok s') : Bound (w.bind s'.binding listed) := by
  unfold BindingStep.attach at h
  split at h
  · cases h
    exact A.bound B ⟨rfl, rfl, rfl, rfl⟩ A.pending nofun
  · cases h

theorem Answered.own (hpending : w.binding.inventoryPending = true)
    (hps : ∀ p ∈ ps, ∃ h ∈ w.since, Reports h p) {s' : BindingStep} (hok : onOwnInventory ⟨b, effects⟩ ps = .ok s') :
    Bound (w.bind s'.binding listed) := by
  unfold onOwnInventory at hok
  split at hok
  · cases hok
    exact A.armRetry B effects listed
  next own hown =>
    have hpartition : some own.partition = b.partition := by simpa using find?_some hown
    obtain ⟨h, hh, hreports⟩ := hps own (mem_of_find?_eq_some hown)
    have hown {s : HostSession} (hs : s ∈ w.hosts.sessions) (hn : Names b s) : s.partition = own.partition :=
      Option.some.inj ((A.eq_of_names B hs hn).2.symm.trans hpartition.symm)
    split at hok
    next hdead =>
      cases hok
      refine A.terminate B effects listed (fun s hs hn => .inr (.inr ?_)) _ _
      rw [hown hs hn]
      exact (B.since h hh).dead (hreports.ownerDead hdead)
    · split at hok
      · cases hok
        exact A.armRetry B effects listed
      next hsettled =>
        have hsettled : isSettled own = true := by simpa using hsettled
        split at hok
        next entry hentry =>
          have hmatch : entry.sessionId = b.sessionId ∧ some entry.incarnation = b.incarnation := by
            simpa using find?_some hentry
          split at hok
          · exact A.attach B effects listed hok
          next hrunning =>
            cases hok
            obtain ⟨x, hx, -, -, hxi, hexited⟩ := B.session_of_entry hh hreports hsettled (mem_of_find?_eq_some hentry)
            refine A.terminate B effects listed (fun s hs hn => .inl ?_) _ _
            obtain rfl := B.eq_of_incarnation hs hx (by rw [hxi]; exact hn.2 _ hmatch.2.symm)
            exact hexited (by simpa using hrunning)
        next hnone =>
          have hended (s) (hs : s ∈ w.hosts.sessions) (hn : Names b s) : Ended w.hosts s := by
            refine .inr (.inl (B.deleted_of_unlisted hpending hh hreports hsettled hs (A.names hn)
              (hown hs hn) fun e he hmatch => ?_))
            have hfind := find?_eq_none.mp hnone e he
            simp [hmatch.1, hmatch.2, hn.1, (A.eq_of_names B hs hn).1] at hfind
          split at hok
          · cases hok
            exact A.terminate B effects listed hended _ _
          · split at hok
            · split at hok <;> cases hok
              · exact A.terminate B effects listed hended _ _
              · exact A.armRetry B effects listed
            · cases hok
              exact A.armRetry B effects listed

end Own

theorem mem_findEntries {e : InventoryEntry} : (p, e) ∈ findEntries b ps ↔ p ∈ ps ∧ e ∈ p.entries ∧
    e.sessionId = b.sessionId := by
  simp [findEntries]

theorem Bound.ended_of_no_hits (B : Bound w) (hpending : w.binding.inventoryPending = true)
    (hps : ∀ p ∈ ps, ∃ h ∈ w.since, Reports h p)
      (hhits : ∀ p ∈ ps, isSettled p = true → ∀ e ∈ p.entries, e.sessionId ≠ w.binding.sessionId)
    (hdecided : ∀ p ∈ ps, isSettled p = true ∨ p.reachability = .ownerDead) {s : HostSession} (hs : s ∈ w.hosts.sessions)
    (hnames : Names w.binding s) (hlisted : s.partition ∈ ps.map PartitionInventory.partition) : Ended w.hosts s := by
  obtain ⟨p, hp, hpartition⟩ := mem_map.mp hlisted
  obtain ⟨h, hh, hreports⟩ := hps p hp
  rcases hdecided p hp with hsettled | hdead
  · refine .inr (.inl (B.deleted_of_unlisted hpending hh hreports hsettled hs hnames hpartition.symm fun e he hmatch => ?_))
    exact hhits p hp hsettled e he (hmatch.1.trans hnames.1)
  · refine .inr (.inr ?_)
    rw [← hpartition]
    exact (B.since h hh).dead (hreports.ownerDead hdead)

theorem Bound.inventory (B : Bound w) (hphase : w.binding.phase = .resolving) (hpending : w.binding.inventoryPending = true)
    (hps : ∀ p ∈ ps, ∃ h ∈ w.since, Reports h p) {s' : BindingStep}
    (hok : onInventory ⟨{ w.binding with inventoryPending := false }, []⟩ ps = .ok s') :
    Bound (w.bind s'.binding (ps.map PartitionInventory.partition)) := by
  unfold onInventory at hok
  split at hok
  next hadopting =>
    have hadopting : w.binding.adopting = true := hadopting
    have hnone : w.binding.incarnation = none := by
      cases hi : w.binding.incarnation with
      | none => rfl
      | some i => simp [(B.identity i hi).1] at hadopting
    split at hok
    next p e hhit =>
      -- the hint becomes an identity
      have hmem : (p, e) ∈ findEntries w.binding (ps.filter isSettled) := by
        rw [show findEntries w.binding (ps.filter isSettled) = [(p, e)] from hhit]
        exact mem_singleton_self _
      obtain ⟨hp, he, hid⟩ := mem_findEntries.mp hmem
      obtain ⟨hp, hsettled⟩ := mem_filter.mp hp
      obtain ⟨h, hh, hreports⟩ := hps p hp
      obtain ⟨x, hx, hxp, hxid, hxi, -⟩ := B.session_of_entry hh hreports hsettled he
      refine Answered.own
        (b := { w.binding with inventoryPending := false }.trust ⟨e.incarnation, p.partition, e.createdTableRevision⟩)
        ⟨rfl, by simp [hnone], hphase, rfl, ?_, rfl⟩ B _ _ hpending hps hok
      exact ⟨x, hx, hxid.trans hid, by simp [SessionBinding.trust, hxi], by simp [SessionBinding.trust, hxp]⟩
    next hits _ =>
      dsimp only at hok
      split at hok
      next hcond =>
        cases hok
        obtain ⟨hempty, -, hdecided⟩ := hcond
        refine B.keep ⟨rfl, rfl, rfl, rfl⟩ (fun _ => .inr (.inr rfl))
          (.inr (by simp [hphase])) nofun fun _ s hs hn hlisted => ?_
        refine B.ended_of_no_hits hpending hps (fun p hp hsettled e he hid => ?_) (fun p hp => ?_) hs hn (hlisted hadopting)
        · have hmem : (p, e) ∈ findEntries { w.binding with inventoryPending := false } (ps.filter isSettled) :=
            mem_findEntries.mpr ⟨mem_filter.mpr ⟨hp, hsettled⟩, he, hid⟩
          rw [eq_nil_of_length_eq_zero hempty] at hmem
          cases hmem
        · by_cases hsettled : isSettled p = true
          · exact .inl hsettled
          · right
            simp only [any_eq_true, not_exists, not_and] at hdecided
            have := hdecided p hp
            simpa [hsettled] using this
      · cases hok
        refine B.keep ⟨rfl, rfl, rfl, rfl⟩ (fun _ => .inr (.inl hphase)) (.inr (by simp [hphase])) nofun fun ht => ?_
        have ht : w.binding.phase = .terminated := ht
        simp [hphase] at ht
  next hadopting =>
    have hadopting : w.binding.adopting = false := by simpa using hadopting
    cases hi : w.binding.incarnation with
    | none => rcases B.hint hi with h | ⟨h, -⟩ <;> simp [hphase, hadopting] at h
    | some i =>
      obtain ⟨-, x, hx, hxid, hxi, hxp⟩ := B.identity i hi
      refine Answered.own (b := { w.binding with inventoryPending := false })
        ⟨rfl, fun j hj => hj, hphase, rfl, ?_, hadopting⟩ B _ _ hpending hps hok
      exact ⟨x, hx, hxid, by rw [hxi]; exact hi, hxp⟩

theorem Bound.event (B : Bound w) {e : BindingEvent} (ht : truthful w (.event e)) {s : BindingStep}
    (h : bindingReducer w.binding e = .ok s) :
    Bound (w.bind s.binding (w.listedAfter e)) := by
  have hlive (hphase : w.binding.phase = .attached) : w.binding.live = true := by simp [SessionBinding.live, hphase]
  -- the bindings after the events that are not taken are the same
  cases e with simp only [bindingReducer] at h
  | layoutLoaded sessionId trusted =>
    split at h
    · cases h
      exact B.same
    · cases h
      refine B.rebind (.inl rfl) (fun _ => ⟨rfl, ?_⟩) (fun hi => ?_) fun i hi => ?_
      · simp [BindingStep.resolve, BindingStep.requestInventory]
      · have hi : trusted.map TrustedIdentity.incarnation = none := hi
        obtain rfl := Option.map_eq_none_iff.mp hi
        exact ⟨rfl, rfl, rfl⟩
      · have hi : trusted.map TrustedIdentity.incarnation = some i := hi
        obtain ⟨identity, rfl, rfl⟩ := Option.map_eq_some_iff.mp hi
        obtain ⟨x, hx, hxid, hxi, hxp, -⟩ := ht
        exact ⟨rfl, x, hx, hxid, hxi, congrArg some hxp.symm⟩
  | inventory token partitions =>
    split at h
    next hignored =>
      cases h
      have htakes : Pane.takes w.binding token = false := by
        simp only [Pane.takes, decide_eq_false_iff_not]
        tauto
      rw [show w.listedAfter (.inventory token partitions) = w.listed by simp [Pane.listedAfter, htakes]]
      exact B.same
    next htaken =>
      simp only [not_or, not_not] at htaken
      have hlisted : w.listedAfter (.inventory token partitions) = partitions.map PartitionInventory.partition := by
        simp [Pane.listedAfter, Pane.takes, htaken]
      rw [hlisted]
      exact B.inventory htaken.1 htaken.2.1 (ht htaken.2.2) h
  | inventoryFailed token =>
    split at h
    · cases h
      exact B.same
    · cases h
      exact B.annotate ⟨rfl, rfl, rfl, rfl⟩ rfl nofun
  | retryTimer =>
    split at h
    next hphase =>
      cases h
      exact B.resolve (.inr (.inr hphase)) _
    · split at h <;> cases h
      next hcond =>
        refine B.keep ⟨rfl, rfl, rfl, rfl⟩ (fun _ => .inr (.inl hcond.1)) (.inr (by simp [hcond.1]))
          (fun _ => ⟨hcond.1, fun htoken => ?_⟩)
          fun hend => ?_
        · simp [requestInventory] at htoken
        · have hend : w.binding.phase = .terminated := hend
          simp [hcond.1] at hend
      · exact B.same
  | subscribeAck attachSeq subscriptionId incarnation =>
    split at h <;> cases h
    · exact B.same
    next hcond =>
      simp only [not_or, not_not] at hcond
      exact B.subscribe hcond.1 ⟨rfl, rfl, rfl, rfl⟩ rfl (.inr rfl)
  | subscribeError attachSeq code current =>
    split at h
    · cases h
      exact B.same
    next hcond =>
      simp only [not_or, not_not] at hcond
      split at h
      · cases h
        exact B.resolve (.inl hcond.1) _
      · unfold BindingStep.attach at h
        split at h <;> cases h
        exact B.subscribe hcond.1 ⟨rfl, rfl, rfl, rfl⟩ rfl (.inl rfl)
      · cases h
        exact B.disconnect (.inl hcond.1) _
  | subscriptionError subscriptionId code =>
    split at h <;> cases h
    next hcond => exact B.disconnect (.inr hcond.1) _
    · exact B.same
  | ackTimeout attachSeq =>
    split at h <;> cases h
    next hcond => exact B.disconnect (.inl hcond.1) _
    · exact B.same
  | connectionLost =>
    split at h <;> cases h
    next hcond => exact B.disconnect hcond _
    · exact B.same
  | childExited incarnation exitInfo =>
    split at h <;> cases h
    next hcond =>
      obtain ⟨x, hx, hxi, hexited⟩ := ht
      refine B.terminate hcond.1 hcond.2.symm (fun s hs hsi _ => .inl ?_) _ _ _
      obtain rfl := B.eq_of_incarnation hs hx (hsi.trans hxi.symm)
      exact hexited
    · exact B.same
  | exitObserved incarnation exitInfo =>
    split at h <;> cases h
    next hcond =>
      obtain ⟨x, hx, hxi, hexited⟩ := ht
      refine B.terminate (hlive hcond.1) hcond.2.symm (fun s hs hsi _ => .inl ?_) _ _ _
      obtain rfl := B.eq_of_incarnation hs hx (hsi.trans hxi.symm)
      exact hexited
    · exact B.same
  | snapshotApplied incarnation =>
    split at h <;> cases h
    · exact B.annotate ⟨rfl, rfl, rfl, rfl⟩ rfl id
    · exact B.same
  | ownerDead partition =>
    split at h <;> cases h
    next hcond =>
      cases hi : w.binding.incarnation with
      | none => simp [B.anonymous hi] at hcond
      | some i =>
        refine B.terminate hcond.1 hi (fun s _ _ hpartition => .inr (.inr ?_)) _ _ _
        obtain rfl : partition = s.partition := Option.some.inj (hcond.2.trans hpartition)
        exact ht
    · exact B.same
  | newShell =>
    split at h <;> cases h
    · exact B.same
    · exact B.annotate ⟨rfl, rfl, rfl, rfl⟩ rfl id
  | spawnResult sessionId identity =>
    split at h
    · cases h
      exact B.same
    next hcond =>
      simp only [not_or, not_not] at hcond
      unfold BindingStep.attach at h
      split at h <;> cases h
      refine B.rebind (.inr rfl) (fun hp => ?_) nofun fun i hi => ?_
      · have hr := B.pending hp
        simp [hcond.1] at hr
      · obtain rfl : identity.incarnation = i := Option.some.inj hi
        obtain ⟨x, hx, hxid, hxi, hxp, -⟩ := ht
        exact ⟨rfl, x, hx, hxid, hxi, congrArg some hxp.symm⟩
  | spawnFailed message =>
    split at h <;> cases h
    · exact B.annotate ⟨rfl, rfl, rfl, rfl⟩ rfl id
    · exact B.same

theorem Bound.step (B : Bound w) {a : PaneAction} (ha : truthful w a) : Bound (w.step a) := by
  cases a with
  | create partition sessionId incarnation => exact B.create ha
  | exit k exitInfo => exact B.exit k exitInfo
  | delete k => exact B.delete k
  | ownerDies partition => exact B.ownerDies partition
  | event e =>
    cases h : bindingReducer w.binding e with
    | error message => simpa [Pane.step, Pane.event, h] using B
    | ok s =>
      rw [show w.step (.event e) = w.bind s.binding (w.listedAfter e) from event_bind h]
      exact B.event ha h

/-! ### Runs -/

theorem bound_reachable (h : panes.Reachable truthful w) : Bound w := by
  refine h.inv (fun hinit => ?_) fun {w w' a} ha hs B => ?_
  · obtain ⟨hosts, hunique, rfl⟩ := hinit
    exact ⟨hunique, nofun, fun _ => rfl, fun _ => .inl rfl, nofun, nofun, nofun, nofun⟩
  · obtain rfl := hs
    exact B.step ha

instance (h : Hosts) (p : PartitionInventory) : Decidable (Reports h p) :=
  decidable_of_iff ((p.reachability = .ownerDead → h.dead p.partition = true) ∧ (isSettled p = true →
      p.kind = h.kind p.partition ∧ (p.kind = .microhost → p.tableRevision = h.tableRevision p.partition) ∧
      (∀ e ∈ p.entries, ∃ s ∈ h.sessions, s.partition = p.partition ∧ s.deleted = false ∧ s.entry = e) ∧
      ∀ s ∈ h.sessions, s.partition = p.partition → s.deleted = false → s.entry ∈ p.entries))
    ⟨fun ⟨hd, hs⟩ => ⟨hd, fun h => (hs h).1, fun h => (hs h).2.1, fun h => (hs h).2.2.1, fun h => (hs h).2.2.2⟩,
      fun R => ⟨R.ownerDead, fun h => ⟨R.kind h, R.tableRevision h, R.listed h, R.complete h⟩⟩⟩

instance : ∀ w, DecidablePred (truthful w)
  | _, .create _ _ _ => inferInstanceAs (Decidable (_ ∧ ¬(_ ∧ _)))
  | _, .event (.layoutLoaded _ (some _)) => List.decidableBEx _ _
  | w, .event (.inventory token partitions) =>
    inferInstanceAs (Decidable (token = w.binding.lastRequestToken → ∀ p ∈ partitions, ∃ h ∈ w.since, Reports h p))
  | _, .event (.childExited _ _) => List.decidableBEx _ _
  | _, .event (.exitObserved _ _) => List.decidableBEx _ _
  | _, .event (.ownerDead _) => inferInstanceAs (Decidable (_ = _))
  | _, .event (.spawnResult _ _) => List.decidableBEx _ _
  | _, .exit _ _ | _, .delete _ | _, .ownerDies _ | _, .event (.layoutLoaded _ none) | _, .event (.inventoryFailed _)
  | _, .event .retryTimer | _, .event (.subscribeAck _ _ _) | _, .event (.subscribeError _ _ _) | _,
      .event (.subscriptionError _ _)
  | _, .event (.ackTimeout _) | _, .event .connectionLost | _, .event (.snapshotApplied _) | _, .event .newShell
  | _, .event (.spawnFailed _) => isTrue trivial

def noSessions : Hosts := ⟨[], fun _ => .microhost, fun _ => 0, fun _ => false⟩

/-- The session of a layout ends and is deleted before the inventory is answered. -/
def endedBeforeAnswer : Pane :=
  [PaneAction.create "m" "s" "i", .create "m" "t" "j", .event (.layoutLoaded "s" none), .exit 0 none, .delete 0,
    .event (.inventory 1 [⟨"m", .microhost, .reachable, true, 4, [⟨"t", "j", true, 2, none⟩]⟩])].foldl Pane.step
    { hosts := noSessions }

/-- `truthful`, but a session that is created may get the id that a layout has named as a hint. -/
def reusesHints (w : Pane) : PaneAction → Prop
  | .create _ _ incarnation => ∀ s ∈ w.hosts.sessions, s.incarnation ≠ incarnation
  | a => truthful w a

instance (w : Pane) : DecidablePred (reusesHints w)
  | .create _ _ _ => List.decidableBAll _ _
  | .exit k exitInfo => inferInstanceAs (Decidable (truthful w (.exit k exitInfo)))
  | .delete k => inferInstanceAs (Decidable (truthful w (.delete k)))
  | .ownerDies partition => inferInstanceAs (Decidable (truthful w (.ownerDies partition)))
  | .event e => inferInstanceAs (Decidable (truthful w (.event e)))

/-- The session is created while the request is on its way, and the answer is from before. -/
def createdAfterRequest : Pane :=
  [PaneAction.event (.layoutLoaded "s" none), .create "m" "s" "i",
    .event (.inventory 1 [⟨"m", .microhost, .reachable, true, 0, []⟩])].foldl Pane.step { hosts := noSessions }

end Ferryx.Ui
