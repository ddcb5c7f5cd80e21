import Ferryx.Theorems.PaneMoves

/-! A pane with the lease sends the size it wants whenever that is not what it sent last, with growing numbers. `Filed` is
about the pane alone; `Sized` relates its numbers to sizes on their way and to what the sessions applied. -/

namespace Ferryx

/-- What surrounds a pane: the messages on its connections, the sizes of the sessions, and the epochs that
    sessions say it holds. -/
structure SizeEnv where
  live : Set Pane.Out
  late : Set Pane.Out
  applied : Nat → Applied
  held : Set EpochKey

def SizeEnv.redialed (env : SizeEnv) : SizeEnv := { env with live := ∅, late := env.live ∪ env.late }

namespace PaneLease
variable {a b : PaneLease} {env : SizeEnv} {l : Pane.Lease} {q : Nat} {d : UInt16 × UInt16}
variable {still : Prop} {env' : SizeEnv}

/-- The lease is of the session bound, and the size sent last is the newest. -/
structure Fileable (a : PaneLease) : Prop where
  bound : ∀ {l}, a.lease = some l → a.policy.boundSession = some l.session ∧ l.generation = a.policy.generation
  newest : ∀ {q d}, a.latestSent = some (q, d) → q = a.nextSeq
  desired : ∀ {d}, a.ptyDesired = some d → normalizeSize d.1 d.2 = d

/-- A lease that needs no reclaim has its desired size sent. -/
structure Filed (a : PaneLease) : Prop extends Fileable a where
  synced : ∀ {l d}, a.lease = some l → a.needsReclaim = false → a.ptyDesired = some d → a.latestSent = some (a.nextSeq, d)

/-- Only an eligible pane has a lease. -/
def Entitled {σ : Type} (a : PaneLease σ) : Prop := ∀ {l}, a.lease = some l → a.eligible = true

/-- The sizes on their way and the sizes applied are not newer than the last one sent, which is one of them. -/
structure Sized (a : PaneLease) (env : SizeEnv) : Prop where
  normal : ∀ {s e q c r}, .resize s e q c r ∈ env.live ∪ env.late ∪ { o | o ∈ a.out } → normalizeSize c r = (c, r)
  number : ∀ {l q c r}, .resize l.session l.epoch q c r ∈ env.live ∪ env.late ∪ { o | o ∈ a.out } → a.lease = some l →
    q ≤ a.nextSeq ∧ ∀ {d}, a.latestSent = some (q, d) → (c, r) = d
  applied : ∀ {l}, a.lease = some l → (env.applied l.session).epoch = l.epoch → (env.applied l.session).seq ≤ a.nextSeq ∧
    ∀ {d}, a.latestSent = some ((env.applied l.session).seq, d) →
      ((env.applied l.session).cols, (env.applied l.session).rows) = d
  sent : ∀ {l q d}, a.lease = some l → a.needsReclaim = false → a.latestSent = some (q, d) →
    (l.session, l.epoch) ∈ env.held →
    .resize l.session l.epoch q d.1 d.2 ∈ env.live ∪ { o | o ∈ a.out } ∨ env.applied l.session = ⟨l.epoch, q, d.1, d.2⟩

theorem Keeps.resize_mem (h : Keeps still a b) {s e q : Nat} {c r : UInt16} :
    Pane.Out.resize s e q c r ∈ b.out ↔ Pane.Out.resize s e q c r ∈ a.out := by
  obtain ⟨os, ho, -, hids⟩ := h.out
  rw [ho, List.mem_append]
  refine or_iff_left fun hm => ?_
  obtain ⟨id, hid, -⟩ := hids _ hm
  cases hid

theorem Keeps.latestSent (h : Keeps still a b) (hb : b.latestSent = some (q, d)) :
    a.latestSent = some (q, d) ∧ b.nextSeq = a.nextSeq ∧
      (b.lease ≠ none → b.needsReclaim = false → a.needsReclaim = false) := by
  obtain ⟨hsent, hseq, hr⟩ | ⟨hnone, -⟩ := h.sent
  · exact ⟨hsent ▸ hb, hseq, hr⟩
  · cases hnone.symm.trans hb

theorem Sized.keeps (S : Sized a env) (h : Keeps still a b) : Sized b env := by
  have hmem : ∀ {s e q c r} {S : Set Pane.Out}, Pane.Out.resize s e q c r ∈ S ∪ { o | o ∈ b.out } ↔
      Pane.Out.resize s e q c r ∈ S ∪ { o | o ∈ a.out } := fun {s e q c r S} => or_congr_right h.resize_mem
  exact {
    normal := fun ho => S.normal (hmem.mp ho)
    number := fun ho hb => by
      obtain ⟨hle, hsame⟩ := S.number (hmem.mp ho) (h.lease hb)
      exact ⟨hle.trans h.nextSeq, fun hd => hsame (h.latestSent hd).1⟩
    applied := fun hb he => by
      obtain ⟨hle, hsame⟩ := S.applied (h.lease hb) he
      exact ⟨hle.trans h.nextSeq, fun hd => hsame (h.latestSent hd).1⟩
    sent := fun hb hnr hd hh => by
      obtain ⟨hsent, -, hr⟩ := h.latestSent hd
      exact (S.sent (h.lease hb) (hr (by simp [hb]) hnr) hsent hh).imp_left hmem.mpr }

theorem Fileable.keeps (F : Fileable a) (h : Keeps still a b) : Fileable b where
  bound hb := by
    rw [h.policy]
    exact F.bound (h.lease hb)
  newest hb := by
    obtain ⟨hsent, hseq, -⟩ := h.latestSent hb
    rw [hseq]
    exact F.newest hsent
  desired hb := F.desired (h.desired ▸ hb)

theorem Filed.keeps (F : Filed a) (h : Keeps True a b) : Filed b where
  toFileable := F.toFileable.keeps h
  synced hb hnr hd := by
    obtain ⟨hsent, hseq, hr⟩ | ⟨-, hlost⟩ := h.sent
    · rw [hsent, hseq]
      exact F.synced (h.lease hb) (hr (by simp [hb]) hnr) (h.desired ▸ hd)
    · cases (hlost trivial).symm.trans hb

theorem sendDue_suppressed {σ : Type} (a : PaneLease σ) : a.sendDue.suppressed = a.suppressed := by
  unfold sendDue sendRelease
  repeat' split
  all_goals rfl

theorem entitled_giveUp {σ : Type} (a : PaneLease σ) : Entitled a.giveUp := by
  intro l hl
  unfold giveUp at hl ⊢
  split at hl
  · cases (relinquish_frame a).1.symm.trans hl
  next hne =>
    rw [if_neg hne]
    simpa [hl] using hne

theorem entitled_reevaluate {σ : Type} [LinearOrder σ] (a : PaneLease σ) : Entitled a.reevaluate := by
  rw [reevaluate_eq]
  split
  · exact entitled_giveUp a
  · intro l hl
    have hdue : Keeps True a.giveUp a.giveUp.sendDue := .sendDue _
    rw [eligible_congr hdue.policy (sendDue_suppressed _)]
    exact entitled_giveUp a (hdue.lease hl)

theorem Fileable.ptySync (F : Fileable a) (E : Entitled a) : Filed a.ptySync := by
  rcases ptySync_cases a with ⟨heq, hsame⟩ | ⟨l, d, hl, hd, -, heq⟩ <;> rw [heq]
  · refine ⟨F, fun {l d} hl hnr hd => ?_⟩
    obtain ⟨q, hq⟩ := hsame hl hd hnr (E hl) (F.bound hl).2
    rw [hq, F.newest hq]
  · refine ⟨⟨F.bound, ?_, F.desired⟩, fun {l' d'} _ _ hd' => ?_⟩
    · rintro q d ⟨⟩
      rfl
    · obtain rfl : d = d' := Option.some.inj (hd.symm.trans hd')
      rfl

theorem Sized.ptySync (S : Sized a env) (hd : ∀ {d}, a.ptyDesired = some d → normalizeSize d.1 d.2 = d) :
    Sized a.ptySync env := by
  rcases ptySync_cases a with ⟨heq, -⟩ | ⟨l, d, hl, hdes, hnr, heq⟩ <;> rw [heq]
  · exact S
  · have hmem : ∀ {o : Pane.Out} {os : Set Pane.Out},
        o ∈ os ∪ { o | o ∈ a.out ++ [.resize l.session l.epoch (a.nextSeq + 1) d.1 d.2] } ↔
        o ∈ os ∪ { o | o ∈ a.out } ∨ o = .resize l.session l.epoch (a.nextSeq + 1) d.1 d.2 := by
      intro o os
      simp only [Set.mem_union, Set.mem_ofPred_eq, List.mem_append, List.mem_singleton, or_assoc]
    exact {
      normal := fun h => by
        rcases hmem.mp h with h | h
        · exact S.normal h
        · cases h
          exact hd hdes
      number := fun {l' q c r} h hl' => by
        rcases hmem.mp h with h | h
        · obtain ⟨hq, -⟩ := S.number h hl'
          refine ⟨Nat.le_succ_of_le hq, ?_⟩
          rintro d' ⟨⟩
          exact (Nat.not_succ_le_self _ hq).elim
        · obtain rfl : l = l' := Option.some.inj (hl.symm.trans hl')
          cases h
          refine ⟨le_rfl, ?_⟩
          rintro d' ⟨⟩
          rfl
      applied := fun {l'} hl' he => by
        obtain ⟨hq, -⟩ := S.applied hl' he
        refine ⟨Nat.le_succ_of_le hq, fun {d'} hd' => ?_⟩
        have heq' : a.nextSeq + 1 = (env.applied l'.session).seq := congrArg Prod.fst (Option.some.inj hd')
        exact (Nat.not_succ_le_self _ (heq' ▸ hq)).elim
      sent := fun {l' q d'} hl' _ hd' _ => by
        obtain rfl : l = l' := Option.some.inj (hl.symm.trans hl')
        cases hd'
        exact .inl (hmem.mpr (.inr rfl)) }

/-- The sizes of a pane are filed, sent and its own. -/
structure Orderly (a : PaneLease) (env : SizeEnv) : Prop where
  filed : Filed a
  sized : Sized a env
  entitled : Entitled a

theorem orderly_reevaluate (F : Filed a) (S : Sized a env) : Orderly a.reevaluate env :=
  ⟨F.keeps (.reevaluate a), S.keeps (.reevaluate a : Keeps True a _), entitled_reevaluate a⟩

theorem orderly_ptySync (F : Fileable a) (E : Entitled a) (S : Sized a env) : Orderly a.ptySync.reevaluate env :=
  orderly_reevaluate (F.ptySync E) (S.ptySync F.desired)

section
variable (O : Orderly a env)
include O

theorem Orderly.setPolicy (p : Pane.Policy) (userIntent : Bool) : Orderly (a.setPolicy p userIntent) env := by
  have K : Keeps True { a with policy := p } (a.effect (.setPolicy p userIntent)) := .setPolicy a p userIntent
  have hsized : Sized { a with policy := p } env := ⟨O.sized.normal, O.sized.number, O.sized.applied, O.sized.sent⟩
  refine orderly_reevaluate (a := a.effect (.setPolicy p userIntent)) ?_ (hsized.keeps K)
  by_cases hre : a.rebound p = true
  · have hnone : (a.effect (.setPolicy p userIntent)).lease = none := by
      simp only [effect, if_pos hre]
      exact (relinquish_frame _).1
    refine ⟨⟨fun h => ?_, fun h => ?_, fun h => ?_⟩, fun h => ?_⟩
    · cases hnone.symm.trans h
    · obtain ⟨hsent, hseq, -⟩ := K.latestSent h
      rw [hseq]
      exact O.filed.newest hsent
    · exact O.filed.desired (K.desired ▸ h)
    · cases hnone.symm.trans h
  · simp only [rebound, Bool.or_eq_true, bne_iff_ne, ne_eq, not_or, not_not] at hre
    refine Filed.keeps (a := { a with policy := p }) ⟨⟨fun {l} hl => ?_, O.filed.newest, O.filed.desired⟩, O.filed.synced⟩ K
    show p.boundSession = _ ∧ l.generation = p.generation
    rw [hre.1, hre.2]
    exact O.filed.bound hl

theorem Orderly.onVisibleApplied (cols rows : UInt16) : Orderly (a.onVisibleApplied cols rows) env := by
  refine orderly_ptySync (a := a.prepared (.onVisibleApplied cols rows)) ⟨O.filed.bound, O.filed.newest, ?_⟩
    (fun {l} hl => ?_)
    ⟨O.sized.normal, O.sized.number, O.sized.applied, O.sized.sent⟩
  · rintro d ⟨⟩
    exact normalizeSize_normalizeSize cols rows
  · have he := O.entitled (l := l) hl
    simp only [eligible, Bool.and_eq_true, prepared] at he ⊢
    exact ⟨he.1, beq_self_eq_true _⟩

theorem Orderly.call {c : Call} (hc : a.prepared c = a)
    (hnew : ∀ {k}, a.takes c = some k → (∀ {q c r}, .resize k.1 k.2 q c r ∉ env.live ∪ env.late ∪ { o | o ∈ a.out }) ∧
      (env.applied k.1).epoch ≠ k.2) : Orderly (a.call c) env := by
  rw [call_eq]
  obtain ⟨-, hb | ⟨b, heq, hb, hsup, -⟩⟩ | ⟨k, b, htakes, heq, hb, -⟩ := effect_cases a c <;> rw [hc] at hb
  · exact orderly_reevaluate (O.filed.keeps hb) (O.sized.keeps hb)
  · rw [heq]
    refine orderly_ptySync (O.filed.toFileable.keeps hb) (fun {l} hl => ?_) (O.sized.keeps hb)
    rw [eligible_congr hb.policy hsup]
    exact O.entitled (hb.lease hl)
  · rw [heq]
    obtain ⟨hfly, happ⟩ := hnew htakes
    obtain ⟨l, hl, rfl, -, hbound, hgen⟩ := hb.lease
    have hsame : ∀ {l'}, b.lease = some l' → l' = l := fun hl' => Option.some.inj (hl'.symm.trans hl)
    refine orderly_ptySync ⟨fun hl' => ?_, by simp [hb.unsent], fun hd => O.filed.desired (hb.desired ▸ hd)⟩
      (fun _ => hb.eligible) ?_
    · obtain rfl := hsame hl'
      exact ⟨hbound, hgen⟩
    · refine { normal := ?_, number := fun hm hl' => ?_, applied := fun hl' he => ?_, sent := by simp [hb.unsent] }
      · rw [hb.out]
        exact O.sized.normal
      · obtain rfl := hsame hl'
        rw [hb.out] at hm
        exact (hfly hm).elim
      · obtain rfl := hsame hl'
        exact (happ he).elim

theorem Orderly.onReconnect : Orderly a.onReconnect env.redialed := by
  have K : Keeps True a a.reconnected := .reconnected a
  have S := O.sized.keeps K
  have hreclaim : a.reconnected.lease ≠ none → a.reconnected.needsReclaim = true := by
    intro h
    have : a.dropAcquire.lease.isSome = true := Option.isSome_iff_ne_none.mpr h
    simp [reconnected, this]
  have hmem : ∀ {o : Pane.Out}, o ∈ env.redialed.live ∪ env.redialed.late ∪ { o | o ∈ a.reconnected.out } →
      o ∈ env.live ∪ env.late ∪ { o | o ∈ a.reconnected.out } := by
    rintro o ((h | h) | h)
    · cases h
    · exact .inl h
    · exact .inr h
  refine orderly_reevaluate (O.filed.keeps K)
    { normal := fun h => S.normal (hmem h), number := fun h => S.number (hmem h), applied := S.applied,
      sent := fun hl hn => ?_ }
  rw [hreclaim (by simp [hl])] at hn
  cases hn

theorem Orderly.flushed : Orderly { a with out := [] } { env with live := env.live ∪ { o | o ∈ a.out } } := by
  have hall : ∀ {o : Pane.Out}, o ∈ (env.live ∪ { o | o ∈ a.out }) ∪ env.late ∪ { o | o ∈ ([] : List Pane.Out) } →
      o ∈ env.live ∪ env.late ∪ { o | o ∈ a.out } := by
    rintro o (((h | h) | h) | h)
    · exact .inl (.inl h)
    · exact .inr h
    · exact .inl (.inr h)
    · cases h
  refine ⟨⟨⟨O.filed.bound, O.filed.newest, O.filed.desired⟩, O.filed.synced⟩,
    { normal := fun h => O.sized.normal (hall h), number := fun h => O.sized.number (hall h), applied := O.sized.applied
      sent := fun hl hn hd hh => (O.sized.sent hl hn hd hh).imp_left .inl }, O.entitled⟩

theorem Orderly.transfer (hsub : ∀ {s e q c r}, Pane.Out.resize s e q c r ∈ env'.live ∪ env'.late →
    Pane.Out.resize s e q c r ∈ env.live ∪ env.late)
    (happ : ∀ {l}, a.lease = some l → (env'.applied l.session).epoch = l.epoch → (env'.applied l.session).seq ≤ a.nextSeq ∧
      ∀ {d}, a.latestSent = some ((env'.applied l.session).seq, d) →
        ((env'.applied l.session).cols, (env'.applied l.session).rows) = d)
    (hsent : ∀ {l q d}, a.lease = some l → a.needsReclaim = false → a.latestSent = some (q, d) →
      (l.session, l.epoch) ∈ env'.held →
      .resize l.session l.epoch q d.1 d.2 ∈ env'.live ∪ { o | o ∈ a.out } ∨
        env'.applied l.session = ⟨l.epoch, q, d.1, d.2⟩) :
    Orderly a env' where
  filed := O.filed
  entitled := O.entitled
  sized := {
    normal := fun h => O.sized.normal (h.imp_left hsub)
    number := fun h => O.sized.number (h.imp_left hsub)
    applied := happ
    sent := hsent }

theorem Orderly.congr (hlive : ∀ {s e q c r}, Pane.Out.resize s e q c r ∈ env'.live ↔ Pane.Out.resize s e q c r ∈ env.live)
    (hlate : ∀ {s e q c r}, Pane.Out.resize s e q c r ∈ env'.late → Pane.Out.resize s e q c r ∈ env.late)
    (happ : ∀ {l}, a.lease = some l → env'.applied l.session = env.applied l.session ∨
      (env'.applied l.session).epoch ≠ l.epoch ∧
      (l.session, l.epoch) ∉ env'.held)
    (hheld : ∀ {l}, a.lease = some l → (l.session, l.epoch) ∈ env'.held → (l.session, l.epoch) ∈ env.held) :
      Orderly a env' := by
  refine O.transfer (Or.imp hlive.mp hlate) ?_ ?_
  · intro l hl he
    rcases happ hl with h | ⟨h, -⟩
    · rw [h] at he ⊢
      exact O.sized.applied hl he
    · exact (h he).elim
  · intro l q d hl hn hd hh
    rcases happ hl with h | ⟨-, h⟩
    · rw [h]
      exact (O.sized.sent hl hn hd (hheld hl hh)).imp_left (Or.imp_left hlive.mpr)
    · exact (h hh).elim

theorem Orderly.delivered {s e q : Nat} {c r : UInt16} (hm : .resize s e q c r ∈ env.live ∪ env.late)
    (hsub : env'.live ∪ env'.late ⊆ env.live ∪ env.late)
      (hlive : ∀ {o}, o ∈ env.live → o ∈ env'.live ∨ o = .resize s e q c r)
    (hheld : env'.held ⊆ env.held) (hupto : (s, e) ∈ env.held → (env.applied s).epoch ≤ e)
    (hother : ∀ {r}, r ≠ s → env'.applied r = env.applied r)
    (happ : env'.applied s = env.applied s ∧ ((s, e) ∈ env.held → ResizeLease.Stale (env.applied s) e q) ∨
      env'.applied s = ⟨e, q, c, r⟩ ∧ (s, e) ∈ env.held ∧ ¬ResizeLease.Stale (env.applied s) e q)
    (hone : ∀ {e'}, (s, e) ∈ env.held → (s, e') ∈ env.held → e' = e) : Orderly a env' := by
  refine O.transfer (fun h => hsub h) ?_ ?_
  · intro l hl he
    by_cases hs : l.session = s
    · subst hs
      rcases happ with ⟨h, -⟩ | ⟨h, -, -⟩ <;> rw [h] at he ⊢
      · exact O.sized.applied hl he
      · obtain rfl : e = l.epoch := he
        exact O.sized.number (.inl hm) hl
    · rw [hother hs] at he ⊢
      exact O.sized.applied hl he
  · intro l q' d hl hn hd hh
    have hq' : q' = a.nextSeq := O.filed.newest hd
    have hold := O.sized.sent hl hn hd (hheld hh)
    by_cases hs : l.session = s
    · subst hs
      rcases hold with (hold | hold) | hold
      · rcases hlive hold with hnow | hnow
        · exact .inl (.inl hnow)
        -- This is the size that arrived: if the session refused it, it had applied it before.
        · obtain ⟨-, rfl, rfl, rfl, rfl⟩ := Pane.Out.resize.inj hnow
          refine .inr ?_
          rcases happ with ⟨h, hstale⟩ | ⟨h, -, -⟩
          · have hepoch := hupto (hheld hh)
            obtain ⟨heq, hle⟩ := (hstale (hheld hh)).resolve_left (by omega)
            obtain ⟨hseq, hsize⟩ := O.sized.applied hl heq.symm
            have hseq' : (env.applied l.session).seq = q' := by omega
            have hsize' := hsize (hseq' ▸ hd)
            rw [h, ← hsize', heq, ← hseq']
          · exact h
      · exact .inl (.inr hold)
      -- A size that is older than the one applied is refused.
      · refine .inr ?_
        rcases happ with ⟨h, -⟩ | ⟨-, hk, hstale⟩
        · rw [h]
          exact hold
        · obtain rfl : l.epoch = e := hone hk (hheld hh)
          have hle := (O.sized.number (.inl hm) hl).1
          rw [hold] at hstale
          exact (hstale (.inr ⟨rfl, hle.trans hq'.ge⟩)).elim
    · rw [hother hs]
      refine hold.imp_left (Or.imp_left fun h => ?_)
      rcases hlive h with h | h
      · exact h
      · exact (hs (Pane.Out.resize.inj h).1).elim

end

end PaneLease
end Ferryx
