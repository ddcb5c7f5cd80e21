import Ferryx.Ui.SessionBinding

/-! A binding that is not settled waits for one timer (`waits`). An event either leaves it waiting for that timer, and is
then not the firing of it, or makes it wait for a timer that the same event arms (`reducer_cases`). -/

namespace Ferryx.Ui
open SessionBinding List BindingStep

/-- The timer that takes the binding on if nothing else does. -/
def SessionBinding.waits (b : SessionBinding) : Option BindingTimer :=
  match b.phase with
  | .resolving => some (if b.inventoryPending then .inventory b.lastRequestToken else .retry)
  | .attaching => some (.ack b.attachSeq)
  | .disconnected => some .retry
  | .unbound | .attached | .terminated => none

/-- The timer that an event is the expiry of. -/
def BindingEvent.timer? : BindingEvent → Option BindingTimer
  | .inventoryFailed token => some (.inventory token)
  | .ackTimeout attachSeq => some (.ack attachSeq)
  | .retryTimer => some .retry
  | _ => none

namespace SessionBinding
variable {b : SessionBinding}

theorem waits_inventory {token : Nat} :
    b.waits = some (.inventory token) ↔ b.phase = .resolving ∧ b.inventoryPending = true ∧ token = b.lastRequestToken := by
  cases hp : b.phase <;> cases hi : b.inventoryPending <;> simp [waits, hp, hi, eq_comm]

theorem waits_ack {attachSeq : Nat} : b.waits = some (.ack attachSeq) ↔ b.phase = .attaching ∧ attachSeq = b.attachSeq := by
  cases hp : b.phase <;> cases hi : b.inventoryPending <;> simp [waits, hp, hi, eq_comm]

theorem waits_retry : b.waits = some .retry ↔ b.phase = .disconnected ∨ b.phase = .resolving ∧
    ¬b.inventoryPending = true := by
  cases hp : b.phase <;> cases hi : b.inventoryPending <;> simp [waits, hp, hi]

end SessionBinding

def BindingEffect.subscribeSeq? : BindingEffect → Option Nat
  | .subscribe _ attachSeq _ _ => some attachSeq
  | _ => none

/-- The attach numbers of the subscriptions among effects. -/
def subscribeSeqs (es : List BindingEffect) : List Nat := es.filterMap BindingEffect.subscribeSeq?

theorem subscribeSeqs_append (es fs : List BindingEffect) : subscribeSeqs (es ++ fs) = subscribeSeqs es ++
    subscribeSeqs fs :=
  filterMap_append

/-- A step that subscribes to nothing and takes no number back. -/
structure Prepared (b : SessionBinding) (s : BindingStep) : Prop where
  token : b.lastRequestToken ≤ s.binding.lastRequestToken
  seq : b.attachSeq ≤ s.binding.attachSeq
  subscribes : subscribeSeqs s.effects = []

/-- The numbers of `b` only grow in `s`, a subscription has a new one, and `s` arms the timer that it waits for. -/
structure Rearms (b : SessionBinding) (s : BindingStep) : Prop where
  token : b.lastRequestToken ≤ s.binding.lastRequestToken
  seq : b.attachSeq ≤ s.binding.attachSeq
  subscribes : subscribeSeqs s.effects = [] ∨ subscribeSeqs s.effects = [s.binding.attachSeq] ∧
    b.attachSeq < s.binding.attachSeq
  armed : ∀ t ∈ s.binding.waits, t ∈ s.effects.filterMap BindingEffect.timer?

namespace Prepared
variable {b : SessionBinding} {s s' : BindingStep}

section
variable (h : Prepared b s)
include h

theorem requestInventory (hphase : s.binding.phase = .resolving) : Rearms b s.requestInventory where
  token := h.token.trans (Nat.le_succ _)
  seq := h.seq
  subscribes := by
    left
    rw [BindingStep.requestInventory, subscribeSeqs_append, h.subscribes]
    rfl
  armed t ht := by
    simp_all [BindingStep.requestInventory, waits, BindingEffect.timer?]

theorem resolve : Rearms b s.resolve :=
  requestInventory (s := { s with binding := { s.binding with phase := .resolving, subscriptionId := none } })
    ⟨h.token, h.seq, h.subscribes⟩ rfl

theorem armRetry (hwaits : s.binding.waits = some .retry) : Rearms b s.armRetry where
  token := h.token
  seq := h.seq
  subscribes := by
    left
    rw [BindingStep.armRetry, subscribeSeqs_append, h.subscribes]
    rfl
  armed t ht := by
    obtain rfl : BindingTimer.retry = t := Option.some.inj (hwaits.symm.trans ht)
    simp [BindingStep.armRetry, BindingEffect.timer?]

theorem disconnect : Rearms b s.disconnect :=
  armRetry (s := { s with binding := { s.binding with phase := .disconnected, subscriptionId := none } })
    ⟨h.token, h.seq, h.subscribes⟩ rfl

theorem terminate (kind : TerminationKind) (exitInfo : Option ExitInfo) : Rearms b (s.terminate kind exitInfo) where
  token := h.token
  seq := h.seq
  subscribes := by
    left
    simp only [BindingStep.terminate]
    split
    · split
      · rw [subscribeSeqs_append, h.subscribes]
        rfl
      · exact h.subscribes
    · exact h.subscribes
  armed t ht := by cases ht

theorem attach (hs : s.attach = .ok s') : Rearms b s' := by
  unfold BindingStep.attach at hs
  split at hs <;> cases hs
  refine ⟨h.token, h.seq.trans (Nat.le_succ _), .inr ⟨?_, Nat.lt_succ_of_le h.seq⟩, fun t ht => ?_⟩
  · rw [subscribeSeqs_append, h.subscribes]
    rfl
  · simp_all [waits, BindingEffect.timer?]

theorem own (hwaits : s.binding.waits = some .retry) {ps : List PartitionInventory} (hs : onOwnInventory s ps = .ok s') :
    Rearms b s' := by
  have hretry := h.armRetry hwaits
  have hend := h.terminate
  unfold onOwnInventory at hs
  split at hs
  · cases hs
    exact hretry
  · split at hs
    · cases hs
      exact hend ..
    · split at hs
      · cases hs
        exact hretry
      · split at hs
        · split at hs
          · exact h.attach hs
          · cases hs
            exact hend ..
        · split at hs
          · cases hs
            exact hend ..
          · split at hs
            · split at hs <;> cases hs
              · exact hend ..
              · exact hretry
            · cases hs
              exact hretry

theorem inventory (hwaits : s.binding.waits = some .retry) {ps : List PartitionInventory} (hs : onInventory s ps = .ok s') :
    Rearms b s' := by
  unfold onInventory at hs
  split at hs
  · split at hs
    · refine own (s := ⟨s.binding.trust _, s.effects ++ [_]⟩) ⟨h.token, h.seq, ?_⟩ hwaits hs
      rw [subscribeSeqs_append, h.subscribes]
      rfl
    · dsimp only at hs
      split at hs <;> cases hs
      · exact h.terminate ..
      · exact h.armRetry hwaits
  · exact h.own hwaits hs

end

end Prepared

variable {b : SessionBinding} {e : BindingEvent} {s : BindingStep}

/-- A step after which the binding waits for what it waited for. -/
structure Waits (b : SessionBinding) (e : BindingEvent) (s : BindingStep) : Prop extends Prepared b s where
  same : s.binding.waits = b.waits
  other : ∀ t, e.timer? = some t → b.waits ≠ some t

theorem reducer_cases (h : bindingReducer b e = .ok s) : Rearms b s ∨ Waits b e s := by
  have hp : Prepared b ⟨b, []⟩ := ⟨le_rfl, le_rfl, rfl⟩
  have hkeep (ho : ∀ t, e.timer? = some t → b.waits ≠ some t) : Waits b e ⟨b, []⟩ := ⟨hp, rfl, ho⟩
  cases e with simp only [bindingReducer] at h
  | layoutLoaded sessionId trusted =>
    split at h <;> cases h
    · exact .inr (hkeep nofun)
    · exact .inl (Prepared.resolve ⟨le_rfl, le_rfl, rfl⟩)
  | inventory token partitions =>
    split at h
    · cases h
      exact .inr (hkeep nofun)
    next htaken =>
      simp only [not_or, not_not] at htaken
      exact .inl (Prepared.inventory ⟨le_rfl, le_rfl, rfl⟩ (waits_retry.mpr (.inr ⟨htaken.1, Bool.false_ne_true⟩)) h)
  | inventoryFailed token =>
    split at h <;> cases h
    next hignored =>
      refine .inr (hkeep fun t ht hw => ?_)
      cases ht
      have := waits_inventory.mp hw
      tauto
    next htaken =>
      simp only [not_or, not_not] at htaken
      exact .inl (Prepared.armRetry ⟨le_rfl, le_rfl, rfl⟩ (waits_retry.mpr (.inr ⟨htaken.1, Bool.false_ne_true⟩)))
  | retryTimer =>
    split at h
    · cases h
      exact .inl hp.resolve
    next hconnected =>
      split at h <;> cases h
      next hdue => exact .inl (hp.requestInventory hdue.1)
      next hbusy =>
        refine .inr (hkeep fun t ht hw => ?_)
        cases ht
        have := waits_retry.mp hw
        tauto
  | subscribeAck attachSeq subscriptionId incarnation =>
    split at h <;> cases h
    · exact .inr (hkeep nofun)
    · exact .inl ⟨le_rfl, le_rfl, .inl rfl, fun t ht => by cases ht⟩
  | subscribeError attachSeq code current =>
    split at h
    · cases h
      exact .inr (hkeep nofun)
    · split at h
      · cases h
        exact .inl hp.resolve
      · exact .inl (Prepared.attach ⟨le_rfl, le_max_left .., rfl⟩ h)
      · cases h
        exact .inl hp.disconnect
  | subscriptionError subscriptionId code =>
    split at h <;> cases h
    · exact .inl hp.disconnect
    · exact .inr (hkeep nofun)
  | ackTimeout attachSeq =>
    split at h <;> cases h
    · exact .inl hp.disconnect
    next hignored =>
      refine .inr (hkeep fun t ht hw => ?_)
      cases ht
      exact hignored (waits_ack.mp hw)
  | connectionLost =>
    split at h <;> cases h
    · exact .inl hp.disconnect
    · exact .inr (hkeep nofun)
  | childExited incarnation exitInfo =>
    split at h <;> cases h
    · exact .inl (hp.terminate ..)
    · exact .inr (hkeep nofun)
  | exitObserved incarnation exitInfo =>
    split at h <;> cases h
    · exact .inl (hp.terminate ..)
    · exact .inr (hkeep nofun)
  | snapshotApplied incarnation =>
    split at h <;> cases h
    · exact .inr ⟨⟨le_rfl, le_rfl, rfl⟩, rfl, nofun⟩
    · exact .inr (hkeep nofun)
  | ownerDead partition =>
    split at h <;> cases h
    · exact .inl (hp.terminate ..)
    · exact .inr (hkeep nofun)
  | newShell =>
    split at h <;> cases h
    · exact .inr (hkeep nofun)
    · exact .inr ⟨⟨le_rfl, le_rfl, rfl⟩, rfl, nofun⟩
  | spawnResult sessionId identity =>
    split at h
    · cases h
      exact .inr (hkeep nofun)
    · exact .inl (Prepared.attach ⟨le_rfl, le_rfl, rfl⟩ h)
  | spawnFailed message =>
    split at h <;> cases h
    · exact .inr ⟨⟨le_rfl, le_rfl, rfl⟩, rfl, nofun⟩
    · exact .inr (hkeep nofun)

namespace TimedBinding
variable {w : TimedBinding}

theorem event_mono (w : TimedBinding) (e : BindingEvent) :
    w.binding.attachSeq ≤ (w.event e).binding.attachSeq ∧
      w.binding.lastRequestToken ≤ (w.event e).binding.lastRequestToken := by
  cases h : bindingReducer w.binding e with
  | error message => simp [event, h]
  | ok s =>
    simp only [event, h]
    rcases reducer_cases h with hr | hw
    · exact ⟨hr.seq, hr.token⟩
    · exact ⟨hw.seq, hw.token⟩

theorem foldl_mono (as : List TimedAction) (w : TimedBinding) :
    w.binding.attachSeq ≤ (as.foldl step w).binding.attachSeq ∧
      w.binding.lastRequestToken ≤ (as.foldl step w).binding.lastRequestToken := by
  induction as generalizing w with
  | nil => exact ⟨le_rfl, le_rfl⟩
  | cons a as ih =>
    have hstep : w.binding.attachSeq ≤ (w.step a).binding.attachSeq ∧
        w.binding.lastRequestToken ≤ (w.step a).binding.lastRequestToken := by
      cases a with
      | fire t =>
        simp only [step]
        split
        · exact event_mono { w with outstanding := w.outstanding.erase t } t.event
        · exact ⟨le_rfl, le_rfl⟩
      | event e => exact event_mono w e
    exact ⟨hstep.1.trans (ih _).1, hstep.2.trans (ih _).2⟩

/-- The timer that the binding waits for is outstanding, and no attach number is used twice. -/
structure Awake (w : TimedBinding) : Prop where
  outstanding : ∀ t ∈ w.binding.waits, t ∈ w.outstanding
  issued : ∀ n ∈ subscribeSeqs w.emitted, n ≤ w.binding.attachSeq
  subscribes : (subscribeSeqs w.emitted).Pairwise (· < ·)

theorem Awake.event (h : Awake w) {ts : List BindingTimer} (hts : ∀ t ∈ w.binding.waits, e.timer? ≠ some t → t ∈ ts)
    (hok : bindingReducer w.binding e = .ok s) : Awake ({ w with outstanding := ts }.event e) := by
  simp only [TimedBinding.event, hok]
  rcases reducer_cases hok with hr | hw
  · have hold {n : Nat} (hn : n ∈ subscribeSeqs w.emitted) : n ≤ s.binding.attachSeq := (h.issued n hn).trans hr.seq
    refine ⟨fun t ht => mem_append_right _ (hr.armed t ht), fun n hn => ?_, ?_⟩
    · rw [subscribeSeqs_append] at hn
      rcases mem_append.mp hn with hn | hn
      · exact hold hn
      · rcases hr.subscribes with hs | ⟨hs, -⟩ <;> simp_all
    · rw [subscribeSeqs_append]
      rcases hr.subscribes with hs | ⟨hs, hlt⟩
      · rw [hs, append_nil]
        exact h.subscribes
      · rw [hs]
        refine pairwise_append.mpr ⟨h.subscribes, pairwise_singleton .., fun n hn m hm => ?_⟩
        rw [mem_singleton.mp hm]
        exact (h.issued n hn).trans_lt hlt
  · have hnone : subscribeSeqs (w.emitted ++ s.effects) = subscribeSeqs w.emitted := by
      rw [subscribeSeqs_append, hw.subscribes, append_nil]
    refine ⟨fun t ht => mem_append_left _ (hts t (hw.same ▸ ht) fun he => hw.other t he (hw.same ▸ ht)), fun n hn => ?_, ?_⟩
    · exact (h.issued n (hnone ▸ hn)).trans hw.seq
    · rw [hnone]
      exact h.subscribes

theorem reducer_timer_ok (b : SessionBinding) (t : BindingTimer) : ∃ s, bindingReducer b t.event = .ok s := by
  cases t with simp only [BindingTimer.event, bindingReducer]
  | inventory token =>
    split <;> exact ⟨_, rfl⟩
  | ack attachSeq =>
    split <;> exact ⟨_, rfl⟩
  | retry =>
    split
    · exact ⟨_, rfl⟩
    · split <;> exact ⟨_, rfl⟩

theorem Awake.step (h : Awake w) (a : TimedAction) : Awake (w.step a) := by
  cases a with
  | fire t =>
    simp only [TimedBinding.step]
    split
    · obtain ⟨s, hok⟩ := reducer_timer_ok w.binding t
      refine h.event (fun t' ht' hne => ?_) hok
      have htt' : t' ≠ t := by
        rintro rfl
        exact hne (by cases t' <;> rfl)
      exact (mem_erase_of_ne htt').mpr (h.outstanding t' ht')
    · exact h
  | event e =>
    cases hok : bindingReducer w.binding e with
    | error message => simpa [TimedBinding.step, TimedBinding.event, hok] using h
    | ok s => exact h.event (fun t ht _ => h.outstanding t ht) hok

theorem awake_run (as : List TimedAction) : Awake (run as) := by
  induction as using reverseRecOn with
  | nil => exact ⟨nofun, nofun, .nil⟩
  | append_singleton as a ih =>
    rw [run, foldl_append]
    exact ih.step a

/-- A binding that waits has its timer running. -/
theorem binding_never_stalls (as : List TimedAction) : ((run as).binding.phase = .resolving →
      (run as).binding.inventoryPending = true ∧ .inventory (run as).binding.lastRequestToken ∈ (run as).outstanding ∨
        .retry ∈ (run as).outstanding) ∧
          ((run as).binding.phase = .attaching → .ack (run as).binding.attachSeq ∈ (run as).outstanding) ∧
    ((run as).binding.phase = .disconnected → .retry ∈ (run as).outstanding) ∧
    (∀ more, (run as).binding.attachSeq ≤ (run (as ++ more)).binding.attachSeq ∧
      (run as).binding.lastRequestToken ≤ (run (as ++ more)).binding.lastRequestToken) ∧
    (subscribeSeqs (run as).emitted).Pairwise (· < ·) := by
  have h := awake_run as
  refine ⟨fun hp => ?_, fun hp => ?_, fun hp => ?_, fun more => ?_, h.subscribes⟩
  · by_cases hi : (run as).binding.inventoryPending = true
    · exact .inl ⟨hi, h.outstanding _ (waits_inventory.mpr ⟨hp, hi, rfl⟩)⟩
    · exact .inr (h.outstanding _ (waits_retry.mpr (.inr ⟨hp, hi⟩)))
  · exact h.outstanding _ (waits_ack.mpr ⟨hp, rfl⟩)
  · exact h.outstanding _ (waits_retry.mpr (.inl hp))
  · rw [run, run, List.foldl_append]
    exact foldl_mono more _

end TimedBinding
/-! ### What an attach needs -/

/-- A binding that may have to attach has an identity: only a layout without one, while its hint is adopted, has none. -/
structure Identified (b : SessionBinding) : Prop where
  identity : b.phase = .attaching ∨ b.phase = .attached ∨ b.phase = .disconnected ∨ b.phase = .resolving ∧
    b.adopting = false →
    b.incarnation.isSome = true ∧ b.partition.isSome = true

namespace Identified
variable {b : SessionBinding} {effects : List BindingEffect}

theorem resolve (h : b.incarnation.isSome = true ∧ b.partition.isSome = true) :
    Identified (BindingStep.resolve ⟨b, effects⟩).binding :=
  ⟨fun _ => h⟩

theorem disconnect (h : b.incarnation.isSome = true ∧ b.partition.isSome = true) :
    Identified (BindingStep.disconnect ⟨b, effects⟩).binding :=
  ⟨fun _ => h⟩

theorem terminate (kind : TerminationKind) (exitInfo : Option ExitInfo) :
    Identified (BindingStep.terminate ⟨b, effects⟩ kind exitInfo).binding :=
  ⟨by simp [BindingStep.terminate]⟩

/-- An attach of a binding with an identity does not throw. -/
theorem attach (h : b.incarnation.isSome = true ∧ b.partition.isSome = true) :
    ∃ s, BindingStep.attach ⟨b, effects⟩ = .ok s ∧ Identified s.binding := by
  obtain ⟨i, hi⟩ := Option.isSome_iff_exists.mp h.1
  obtain ⟨p, hp⟩ := Option.isSome_iff_exists.mp h.2
  rw [BindingStep.attach, hi, hp]
  exact ⟨_, rfl, ⟨fun _ => h⟩⟩

theorem own (hb : Identified b) (h : b.incarnation.isSome = true ∧ b.partition.isSome = true)
    (ps : List PartitionInventory) :
    ∃ s, onOwnInventory ⟨b, effects⟩ ps = .ok s ∧ Identified s.binding := by
  unfold onOwnInventory
  split
  · exact ⟨_, rfl, ⟨hb.identity⟩⟩
  · split
    · exact ⟨_, rfl, .terminate ..⟩
    · split
      · exact ⟨_, rfl, ⟨hb.identity⟩⟩
      · split
        · split
          · exact Identified.attach h
          · exact ⟨_, rfl, .terminate ..⟩
        · split
          · exact ⟨_, rfl, .terminate ..⟩
          · split
            · split
              · exact ⟨_, rfl, .terminate ..⟩
              · exact ⟨_, rfl, ⟨hb.identity⟩⟩
            · exact ⟨_, rfl, ⟨hb.identity⟩⟩

theorem inventory (hb : Identified b) (hphase : b.phase = .resolving) (ps : List PartitionInventory) :
    ∃ s, onInventory ⟨b, effects⟩ ps = .ok s ∧ Identified s.binding := by
  unfold onInventory
  split
  · split
    · exact own ⟨fun _ => ⟨rfl, rfl⟩⟩ ⟨rfl, rfl⟩ ps
    · dsimp only
      split
      · exact ⟨_, rfl, .terminate ..⟩
      · exact ⟨_, rfl, ⟨hb.identity⟩⟩
  next hadopting => exact own hb (hb.identity (.inr (.inr (.inr ⟨hphase, by simpa using hadopting⟩)))) ps

theorem reducer (hb : Identified b) (e : BindingEvent) : ∃ s, bindingReducer b e = .ok s ∧ Identified s.binding := by
  cases e with simp only [bindingReducer]
  | layoutLoaded sessionId trusted =>
    split
    · exact ⟨_, rfl, ⟨hb.identity⟩⟩
    · refine ⟨_, rfl, ⟨fun hphase => ?_⟩⟩
      cases trusted with
      | none => simp [BindingStep.resolve, requestInventory] at hphase
      | some i => exact ⟨rfl, rfl⟩
  | inventory token partitions =>
    split
    · exact ⟨_, rfl, ⟨hb.identity⟩⟩
    next hcond =>
      simp only [not_or, not_not] at hcond
      exact inventory (b := { b with inventoryPending := false }) ⟨hb.identity⟩ hcond.1 partitions
  | retryTimer =>
    split
    next hphase => exact ⟨_, rfl, .resolve (hb.identity (.inr (.inr (.inl hphase))))⟩
    · split
      · exact ⟨_, rfl, ⟨hb.identity⟩⟩
      · exact ⟨_, rfl, ⟨hb.identity⟩⟩
  | subscribeAck attachSeq subscriptionId incarnation =>
    split
    · exact ⟨_, rfl, ⟨hb.identity⟩⟩
    next hcond =>
      simp only [not_or, not_not] at hcond
      exact ⟨_, rfl, ⟨fun _ => hb.identity (.inl hcond.1)⟩⟩
  | subscribeError attachSeq code current =>
    split
    · exact ⟨_, rfl, ⟨hb.identity⟩⟩
    next hcond =>
      simp only [not_or, not_not] at hcond
      have hid := hb.identity (.inl hcond.1)
      split
      · exact ⟨_, rfl, .resolve hid⟩
      · exact Identified.attach hid
      · exact ⟨_, rfl, .disconnect hid⟩
  | subscriptionError subscriptionId code =>
    split
    next hcond => exact ⟨_, rfl, .disconnect (hb.identity (.inr (.inl hcond.1)))⟩
    · exact ⟨_, rfl, ⟨hb.identity⟩⟩
  | ackTimeout attachSeq =>
    split
    next hcond => exact ⟨_, rfl, .disconnect (hb.identity (.inl hcond.1))⟩
    · exact ⟨_, rfl, ⟨hb.identity⟩⟩
  | connectionLost =>
    split
    next hcond => exact ⟨_, rfl, .disconnect (hb.identity (hcond.imp_right .inl))⟩
    · exact ⟨_, rfl, ⟨hb.identity⟩⟩
  | childExited | exitObserved | ownerDead =>
    split
    · exact ⟨_, rfl, .terminate ..⟩
    · exact ⟨_, rfl, ⟨hb.identity⟩⟩
  | spawnResult sessionId identity =>
    split
    · exact ⟨_, rfl, ⟨hb.identity⟩⟩
    · exact Identified.attach ⟨rfl, rfl⟩
  | inventoryFailed | snapshotApplied | newShell | spawnFailed =>
    split
    · exact ⟨_, rfl, ⟨hb.identity⟩⟩
    · exact ⟨_, rfl, ⟨hb.identity⟩⟩

end Identified

/-- Whatever events come, true or not and in any order, the reducer handles each of them without an exception. -/
theorem reducer_throws_nothing (es : List BindingEvent) :
    ∃ b, es.foldlM (fun b e => BindingStep.binding <$> bindingReducer b e) unboundBinding = .ok b := by
  suffices h : ∀ b, Identified b → ∃ b', es.foldlM (fun b e => BindingStep.binding <$> bindingReducer b e) b = .ok b' from
    h _ ⟨by simp [unboundBinding]⟩
  induction es with
  | nil => exact fun b _ => ⟨b, rfl⟩
  | cons e es ih =>
    intro b hb
    obtain ⟨s, hs, hid⟩ := hb.reducer e
    obtain ⟨b', hb'⟩ := ih s.binding hid
    refine ⟨b', ?_⟩
    rw [foldlM_cons, hs]
    exact hb'

end Ferryx.Ui
