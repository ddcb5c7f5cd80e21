import Ferryx.Lib.Lists
import Ferryx.Theorems.InputSafety
import Ferryx.Theorems.NetFrames

/-! What an author reports of its bytes is true, and every typed byte is in one place: with the author, with
the session, or in a report. -/

namespace Ferryx
open Std Lib List Option

namespace Net
variable {H : Type} {n : Net H} {i : H} {bytes : List (TypedByte H)} {statuses : List Status} {b : TypedByte H}

/-- The bytes accepted and not written, in order. -/
def queued (n : Net H) (s : Nat) : List (TypedByte H) := ((n.hosts s).queue.flatMap Item.log).map Prod.snd

theorem used_of_report {s e first : Nat} (hr : Out.classified s e first bytes statuses ∈ n.sent i) (he : e ≠ 0) :
    Author.Used (n.sent i) (n.authors i) (s, e) :=
  .inr (mem_filterMap.mpr ⟨_, hr, if_neg he⟩)

theorem dropped_of_report {s first : Nat} (hr : Out.classified s 0 first bytes statuses ∈ n.sent i) (hb : b ∈ bytes) :
    (s, b) ∈ (n.stock i).dropped :=
  mem_flatMap.mpr ⟨_, hr, by simpa [Out.dropped] using hb⟩

variable [DecidableEq H]

theorem Inv.stream_position (I : n.Inv) {k k' : EpochKey} {p p' : Nat} {b b' : TypedByte H}
    (hb : (n.assigned i k)[p]? = some b) (hb' : (n.assigned i k')[p']? = some b') (hi : b.index = b'.index) :
      k = k' ∧ p = p' := by
  have T := (I.author i).typing
  obtain rfl := T.disjoint (List.mem_of_getElem? hb) (List.mem_of_getElem? hb') hi
  refine ⟨rfl, ?_⟩
  obtain ⟨hp, rfl⟩ := List.getElem?_eq_some_iff.mp hb
  obtain ⟨hp', rfl⟩ := List.getElem?_eq_some_iff.mp hb'
  have hord := List.pairwise_iff_getElem.mp (T.sorted k)
  rcases Nat.lt_trichotomy p p' with hlt | heq | hlt
  · exact absurd hi (Nat.ne_of_lt (hord p p' hp hp' hlt))
  · exact heq
  · exact absurd hi.symm (Nat.ne_of_lt (hord p' p hp' hp hlt))

theorem Inv.bytesOf_used (I : n.Inv) {k : EpochKey} (hu : Author.Used (n.sent i) (n.authors i) k) :
    n.bytesOf k <+: n.assigned i k := by
  obtain ⟨id, hid, -⟩ := (I.author i).ids.spent hu
  exact I.streams.granted (gid_eq_some.mp hid)

theorem Inv.handed_position (I : n.Inv) {s : Nat} (hb : b ∈ n.handed s) (ha : b.author = i) :
    ∃ e p, (n.assigned i (s, e))[p]? = some b ∧ p < n.counter (s, e) := by
  obtain ⟨⟨e, b⟩, hp, rfl⟩ := mem_map.mp hb
  have hlog : (e, b) ∈ n.log s := mem_append_left _ hp
  obtain ⟨j, id, hg, hj⟩ := I.stream_of_log hlog
  obtain rfl : j = i := (I.author_of_stream hj).symm.trans ha
  obtain ⟨p, hlt, hpb⟩ := getElem_of_mem (mem_entriesAt.mpr hlog)
  refine ⟨e, p, ?_, ?_⟩
  · obtain ⟨r, hr⟩ : entriesAt e (n.log s) <+: n.assigned j (s, e) := I.streams.granted hg
    rw [← hr, getElem?_append_left hlt]
    exact List.getElem?_eq_some_iff.mpr ⟨hlt, hpb⟩
  · rw [I.hosts.counter]
    exact hlt

theorem Inv.hist (I : n.Inv) (i : H) : n.sent i ++ (n.authors i).out = n.sent i := by
  rw [(I.author i).out, append_nil]

theorem Inv.outOk (I : n.Inv) {o : Out (TypedByte H)} (ho : o ∈ n.sent i) : OutOk n.view (n.assigned i) o :=
  (I.author i).holdings.out o (mem_append_left _ ho)

section Statuses
variable {s e first j : Nat} {bytes : List (TypedByte H)} {statuses : List Status} {b : TypedByte H}

theorem Inv.report_position (I : n.Inv) (hr : Out.classified s e first bytes statuses ∈ n.sent i) (he : e ≠ 0)
    (hb : bytes[j]? = some b) : (n.assigned i (s, e))[first + j]? = some b := by
  have h := (I.outOk hr).2
  rw [if_neg he] at h
  have hbytes : bytes = (n.assigned i (s, e)).drop first := h.1.bytes
  rwa [hbytes, getElem?_drop] at hb

theorem Inv.report_status (I : n.Inv) (hr : Out.classified s e first bytes statuses ∈ n.sent i) (he : e ≠ 0)
    {st : Status} (hst : statuses[j]? = some st) : StatusOk n.view (s, e) (first + j) st := by
  have h := (I.outOk hr).2
  rw [if_neg he] at h
  exact h.2 j st hst

theorem Inv.report_unassigned (I : n.Inv) (hr : Out.classified s 0 first bytes statuses ∈ n.sent i) {st : Status}
    (hst : statuses[j]? = some st) : st = .notDelivered := by
  have h := (I.outOk hr).2
  rw [if_pos rfl] at h
  exact h st (mem_of_getElem? hst)

section
variable (I : n.Inv) (hr : Out.classified s e first bytes statuses ∈ n.sent i)
include I hr

theorem Inv.written_handed (hst : statuses[j]? = some .written) (hb : bytes[j]? = some b) : b ∈ n.handed s := by
  have he : e ≠ 0 := by
    rintro rfl
    cases I.report_unassigned hr hst
  have hlt : first + j < (entriesAt e (n.tap s)).length := I.report_status hr he hst
  have hpre : entriesAt e (n.tap s) <+: n.assigned i (s, e) :=
    (entriesAt_mono (List.prefix_append _ _) e).trans (I.bytesOf_used (used_of_report hr he))
  have hpos := I.report_position hr he hb
  obtain ⟨r, hr'⟩ := hpre
  rw [← hr', getElem?_append_left hlt] at hpos
  exact mem_map.mpr ⟨(e, b), mem_entriesAt.mp (mem_of_getElem? hpos), rfl⟩

theorem Inv.pending_accepted (hst : statuses[j]? = some .acceptedPendingWrite) (hb : bytes[j]? = some b) :
    b ∈ n.handed s ∨ b ∈ n.queued s := by
  have he : e ≠ 0 := by
    rintro rfl
    cases I.report_unassigned hr hst
  have hlt : first + j < n.counter (s, e) := I.report_status hr he hst
  rw [I.hosts.counter] at hlt
  have hpos := I.report_position hr he hb
  obtain ⟨r, hr'⟩ := I.bytesOf_used (used_of_report hr he)
  rw [← hr', getElem?_append_left hlt] at hpos
  rcases mem_append.mp (mem_entriesAt.mp (mem_of_getElem? hpos)) with h | h
  · exact .inl (mem_map.mpr ⟨(e, b), h, rfl⟩)
  · exact .inr (mem_map.mpr ⟨(e, b), h, rfl⟩)

theorem Inv.undelivered (hst : statuses[j]? = some .notDelivered) (hb : bytes[j]? = some b) {r : Nat} {b' : TypedByte H}
    (hb' : b' ∈ n.handed r) (ha : b'.author = b.author) : b'.index ≠ b.index := by
  intro hi
  by_cases he : e = 0
  · subst he
    obtain ⟨hauth, -, -, hne⟩ := (I.author i).typing.dropped _ (dropped_of_report hr (mem_of_getElem? hb))
    obtain ⟨e', p, hp, -⟩ := I.handed_position hb' (ha.trans hauth)
    exact hne _ _ (mem_of_getElem? hp) hi
  · have hpos := I.report_position hr he hb
    obtain ⟨e', p, hp, hlt⟩ := I.handed_position hb' (ha.trans (I.author_of_stream (mem_of_getElem? hpos)))
    obtain ⟨hk, rfl⟩ := I.stream_position hp hpos hi
    have hle : n.counter (s, e) ≤ first + j := (I.report_status hr he hst).2
    rw [hk] at hlt
    exact Nat.not_lt_of_le hle hlt

end

end Statuses

/-- Where a typed byte can be: waiting for an epoch, in the current segment, in that of a lost epoch, accepted and off its
segment, or in a report; with its position. -/
inductive Place where
  | unassigned (j : Nat)
  | current (j : Nat)
  | finalizing (k : EpochKey) (j : Nat)
  | accepted (k : EpochKey) (off : Nat)
  | reported (p j : Nat)

/-- The segment of epoch `k` of author `i` starts at `base`; its byte at position `j` is at place `at_ j`. -/
inductive Segmented (n : Net H) (i : H) (k : EpochKey) : (base : Nat) → (at_ : Nat → Place) → Prop
  | current {c : Cur (TypedByte H)} : (n.authors i).cur = some c → (c.session, c.epoch) = k →
    Segmented n i k c.seg.base .current
  | finalizing {f : Finalizing (TypedByte H)} : (n.authors i).finalizing[k]? = some f →
    Segmented n i k f.seg.base (.finalizing k)
  | reported {p first : Nat} {bytes : List (TypedByte H)} {statuses : List Status} : k.2 ≠ 0 →
    (n.sent i)[p]? = some (.classified k.1 k.2 first bytes statuses) → Segmented n i k first (.reported p)

/-- The byte `m` of author `i` is at this place. -/
def At (n : Net H) (i : H) (m : Nat) : Place → Prop
  | .unassigned j => ∃ b, (n.authors i).unassigned[j]? = some b ∧ b.index = m
  | .current j => ∃ c b, (n.authors i).cur = some c ∧ c.seg.bytes[j]? = some b ∧ b.index = m
  | .finalizing k j => ∃ f b, (n.authors i).finalizing[k]? = some f ∧ f.seg.bytes[j]? = some b ∧ b.index = m
  | .accepted k off => off < n.counter k ∧ (∃ b, (n.assigned i k)[off]? = some b ∧ b.index = m) ∧
    ∃ base at_, Segmented n i k base at_ ∧ off < base
  | .reported p j => ∃ s e first bytes statuses b, (n.sent i)[p]? = some (.classified s e first bytes statuses) ∧
    bytes[j]? = some b ∧ b.index = m

section Segments
variable {k : EpochKey} {base base' m : Nat} {at_ at_' : Nat → Place}

omit [DecidableEq H] in
theorem mem_doneKeys {p s e first : Nat} (he : e ≠ 0)
    (h : (n.sent i)[p]? = some (.classified s e first bytes statuses)) : (s, e) ∈ doneKeys (n.sent i) :=
  mem_filterMap.mpr ⟨_, mem_of_getElem? h, if_neg he⟩

theorem Inv.segmented_unique (I : n.Inv) (h : Segmented n i k base at_) (h' : Segmented n i k base' at_') : base = base' ∧
    at_ = at_' := by
  have A := (I.author i).holdings
  have hcur : ∀ {c}, (n.authors i).cur = some c → (c.session, c.epoch) = k → (n.authors i).current = some k :=
    fun hc hk => by rw [Author.current, hc, map_some, hk]
  have hfin : ∀ {f}, (n.authors i).finalizing[k]? = some f → k ∈ (n.authors i).finalizing :=
    fun hf => mem_iff_lookup.mpr ⟨_, hf⟩
  have hdone := I.hist i ▸ A.done k
  have honce := I.hist i ▸ A.once
  cases h with
  | current hc hk =>
    cases h' with
    | current hc' _ =>
      obtain rfl := some.inj (hc.symm.trans hc')
      exact ⟨rfl, rfl⟩
    | finalizing hf => exact ((A.fin hf).2.1 (hcur hc hk)).elim
    | reported he hr => exact ((hdone (mem_doneKeys he hr)).1 (hcur hc hk)).elim
  | finalizing hf =>
    cases h' with
    | current hc hk => exact ((A.fin hf).2.1 (hcur hc hk)).elim
    | finalizing hf' =>
      obtain rfl := some.inj (hf.symm.trans hf')
      exact ⟨rfl, rfl⟩
    | reported he hr => exact ((hdone (mem_doneKeys he hr)).2 (hfin hf)).elim
  | reported he hr =>
    cases h' with
    | current hc hk => exact ((hdone (mem_doneKeys he hr)).1 (hcur hc hk)).elim
    | finalizing hf => exact ((hdone (mem_doneKeys he hr)).2 (hfin hf)).elim
    | reported _ hr' =>
      obtain rfl := position_of_nodup_filterMap honce hr hr' (if_neg he) (if_neg he)
      cases hr.symm.trans hr'
      exact ⟨rfl, rfl⟩

theorem Inv.exists_segmented (I : n.Inv) (h : n.assigned i k ≠ []) : ∃ base at_, Segmented n i k base at_ := by
  rcases (I.author i).holdings.covered h with hk | hk | hk
  · obtain ⟨c, hc, hck⟩ := map_eq_some_iff.mp hk
    exact ⟨_, _, .current hc hck⟩
  · obtain ⟨f, hf⟩ := mem_iff_lookup.mp hk
    exact ⟨_, _, .finalizing hf⟩
  · rw [I.hist, doneKeys, mem_filterMap] at hk
    obtain ⟨o, ho, hok⟩ := hk
    obtain ⟨p, hp⟩ := getElem?_of_mem ho
    cases o with
    | classified s e first bytes statuses =>
      by_cases he : e = 0
      · simp [Out.doneKey?, he] at hok
      · simp only [Out.doneKey?, if_neg he, Option.some.injEq] at hok
        subst hok
        exact ⟨_, _, .reported he hp⟩
    | _ => cases hok

theorem Inv.segmented_at (I : n.Inv) (h : Segmented n i k base at_) : base ≤ n.counter k ∧
    ∀ j m, At n i m (at_ j) ↔ ∃ b, (n.assigned i k)[base + j]? = some b ∧ b.index = m := by
  have A := (I.author i).holdings
  cases h with
  | current hc hk =>
    obtain ⟨-, -, -, -, hseg, -⟩ := A.cur hc
    rw [hk] at hseg
    have hbytes : _ = (n.assigned i k).drop _ := hseg.bytes
    refine ⟨hseg.accepted, fun j m => ?_⟩
    simp only [At, hc, Option.some.injEq, exists_and_left, exists_eq_left', hbytes, getElem?_drop]
  | finalizing hf =>
    obtain ⟨-, -, hseg, -⟩ := A.fin hf
    have hbytes : _ = (n.assigned i k).drop _ := hseg.bytes
    refine ⟨hseg.accepted, fun j m => ?_⟩
    simp only [At, hf, Option.some.injEq, exists_and_left, exists_eq_left', hbytes, getElem?_drop]
  | reported he hr =>
    have hout := (I.outOk (mem_of_getElem? hr)).2
    rw [if_neg he] at hout
    refine ⟨hout.1.accepted, fun j m => ⟨?_, ?_⟩⟩
    · rintro ⟨s, e, first, bytes, statuses, b, hr', hb, hbm⟩
      cases hr.symm.trans hr'
      exact ⟨b, I.report_position (mem_of_getElem? hr) he hb, hbm⟩
    · rintro ⟨b, hb, hbm⟩
      have hbytes : _ = (n.assigned i k).drop _ := hout.1.bytes
      refine ⟨_, _, _, _, _, b, hr, ?_, hbm⟩
      dsimp only at hbytes
      rw [hbytes, getElem?_drop, hb]

theorem Inv.at_stream (I : n.Inv) (h : Segmented n i k base at_) {off : Nat} (hb : (n.assigned i k)[off]? = some b) :
    At n i b.index (if off < base then .accepted k off else at_ (off - base)) := by
  obtain ⟨hle, hat⟩ := I.segmented_at h
  split
  next hlt => exact ⟨hlt.trans_le hle, ⟨b, hb, rfl⟩, base, at_, h, hlt⟩
  next hge =>
    refine (hat _ _).mpr ⟨b, ?_, rfl⟩
    rwa [Nat.add_sub_cancel' (Nat.le_of_not_lt hge)]

theorem Inv.at_cases (I : n.Inv) {pl : Place} (h : At n i m pl) :
    (∃ j b, pl = .unassigned j ∧ (n.authors i).unassigned[j]? = some b ∧ b.index = m) ∨
    (∃ p j s first bytes statuses b, pl = .reported p j ∧
      (n.sent i)[p]? = some (.classified s 0 first bytes statuses) ∧ bytes[j]? = some b ∧ b.index = m) ∨
    ∃ k base at_ off b, Segmented n i k base at_ ∧ (n.assigned i k)[off]? = some b ∧ b.index = m ∧
      pl = if off < base then .accepted k off else at_ (off - base) := by
  have hseg : ∀ {k base at_ j}, Segmented n i k base at_ → At n i m (at_ j) →
      ∃ k base at_' off b, Segmented n i k base at_' ∧ (n.assigned i k)[off]? = some b ∧ b.index = m ∧
        at_ j = if off < base then .accepted k off else at_' (off - base) := by
    intro k base at_ j hs hat
    obtain ⟨b, hb, hbm⟩ := ((I.segmented_at hs).2 j m).mp hat
    refine ⟨k, base, at_, base + j, b, hs, hb, hbm, ?_⟩
    rw [if_neg (Nat.not_lt_of_le (Nat.le_add_right _ _)), Nat.add_sub_cancel_left]
  cases pl with
  | unassigned j =>
    obtain ⟨b, hb, hbm⟩ := h
    exact .inl ⟨j, b, rfl, hb, hbm⟩
  | current j =>
    obtain ⟨c, b, hc, -⟩ := id h
    exact .inr (.inr (hseg (.current hc rfl) h))
  | finalizing k j =>
    obtain ⟨f, b, hf, -⟩ := id h
    exact .inr (.inr (hseg (.finalizing hf) h))
  | accepted k off =>
    obtain ⟨-, ⟨b, hb, hbm⟩, base, at_, hs, hlt⟩ := h
    exact .inr (.inr ⟨k, base, at_, off, b, hs, hb, hbm, (if_pos hlt).symm⟩)
  | reported p j =>
    obtain ⟨s, e, first, bytes, statuses, b, hr, hb, hbm⟩ := id h
    by_cases he : e = 0
    · subst he
      exact .inr (.inl ⟨p, j, s, first, bytes, statuses, b, rfl, hr, hb, hbm⟩)
    · exact .inr (.inr (hseg (k := (s, e)) (.reported he hr) h))

end Segments

section Unique
variable {m j j' p p' : Nat} {b b' : TypedByte H}

theorem Inv.unassigned_index (I : n.Inv) (hb : (n.authors i).unassigned[j]? = some b) :
    b.index = (n.typedFor i).length - (n.authors i).unassigned.length + j :=
  ((I.author i).typing.numbered j b hb).2

theorem Inv.stream_index (I : n.Inv) {k : EpochKey} {off : Nat} (hb : (n.assigned i k)[off]? = some b) :
    b.index < (n.typedFor i).length - (n.authors i).unassigned.length :=
  ((I.author i).typing.byte b (mem_of_getElem? hb)).2.2

theorem Inv.dropped_index (I : n.Inv) {s first : Nat}
    (hr : (n.sent i)[p]? = some (.classified s 0 first bytes statuses)) (hb : bytes[j]? = some b) :
    b.index < (n.typedFor i).length - (n.authors i).unassigned.length ∧ ∀ k, ∀ b' ∈ n.assigned i k, b'.index ≠ b.index :=
  ((I.author i).typing.dropped _ (dropped_of_report (mem_of_getElem? hr) (mem_of_getElem? hb))).2.2

theorem Inv.dropped_once (I : n.Inv) {s s' first first' : Nat} {bytes bytes' : List (TypedByte H)}
    {statuses statuses' : List Status} (hr : (n.sent i)[p]? = some (.classified s 0 first bytes statuses))
    (hr' : (n.sent i)[p']? = some (.classified s' 0 first' bytes' statuses')) (hb : bytes[j]? = some b)
    (hb' : bytes'[j']? = some b') (hi : b.index = b'.index) : p = p' ∧ j = j' := by
  have honce : ((n.sent i).flatMap fun o => o.dropped.map fun q => q.2.index).Nodup := by
    rw [← map_flatMap]
    exact (I.author i).typing.once
  refine position_of_nodup_flatMap honce hr hr' (x := b.index) ?_ ?_
  · simp [Out.dropped, hb]
  · simp [Out.dropped, hb', hi]

theorem Inv.at_unique (I : n.Inv) {pl pl' : Place} (h : At n i m pl) (h' : At n i m pl') : pl = pl' := by
  rcases I.at_cases h with ⟨j, b, rfl, hb, hbm⟩ | ⟨p, j, s, first, bytes, statuses, b, rfl, hr, hb, hbm⟩ |
      ⟨k, base, at_, off, b, hs, hb, hbm, rfl⟩ <;>
    rcases I.at_cases h' with ⟨j', b', rfl, hb', hbm'⟩ | ⟨p', j', s', first', bytes', statuses', b', rfl, hr', hb', hbm'⟩ |
      ⟨k', base', at_', off', b', hs', hb', hbm', rfl⟩
  · have := I.unassigned_index hb
    have := I.unassigned_index hb'
    congr 1
    omega
  · have := I.unassigned_index hb
    have := (I.dropped_index hr' hb').1
    omega
  · have := I.unassigned_index hb
    have := I.stream_index hb'
    omega
  · have := I.unassigned_index hb'
    have := (I.dropped_index hr hb).1
    omega
  · obtain ⟨rfl, rfl⟩ := I.dropped_once hr hr' hb hb' (hbm.trans hbm'.symm)
    rfl
  · exact ((I.dropped_index hr hb).2 _ _ (mem_of_getElem? hb') (hbm'.trans hbm.symm)).elim
  · have := I.unassigned_index hb'
    have := I.stream_index hb
    omega
  · exact ((I.dropped_index hr' hb').2 _ _ (mem_of_getElem? hb) (hbm.trans hbm'.symm)).elim
  · obtain ⟨rfl, rfl⟩ := I.stream_position hb hb' (hbm.trans hbm'.symm)
    obtain ⟨rfl, rfl⟩ := I.segmented_unique hs hs'
    rfl

theorem Inv.exists_at (I : n.Inv) (hm : m < (n.typedFor i).length) : ∃ pl, At n i m pl := by
  have T := (I.author i).typing
  by_cases hlt : m < (n.typedFor i).length - (n.authors i).unassigned.length
  · rcases T.all m hlt with ⟨k, b, hb, rfl⟩ | ⟨q, hq, rfl⟩
    · obtain ⟨off, hoff⟩ := getElem?_of_mem hb
      obtain ⟨base, at_, hs⟩ := I.exists_segmented (ne_nil_of_mem hb)
      exact ⟨_, I.at_stream hs hoff⟩
    · obtain ⟨o, ho, hoq⟩ := mem_flatMap.mp hq
      obtain ⟨p, hp⟩ := getElem?_of_mem ho
      cases o with
      | classified s e first bytes statuses =>
        by_cases he : e = 0
        · subst he
          obtain ⟨b, hb, rfl⟩ := mem_map.mp hoq
          obtain ⟨j, hj⟩ := getElem?_of_mem hb
          exact ⟨.reported p j, s, 0, first, bytes, statuses, b, hp, hj, rfl⟩
        · simp [Out.dropped, he] at hoq
      | _ => cases hoq
  · have hle := T.le
    obtain ⟨b, hb, hbm⟩ := T.numbered.exists_index (Nat.le_of_not_lt hlt) (by
      rwa [Nat.sub_add_cancel hle])
    obtain ⟨j, hj⟩ := getElem?_of_mem hb
    exact ⟨.unassigned j, b, hj, hbm⟩

end Unique

/-- The `j`-th byte of the report that author `i` put out as number `p`. -/
def Listed (n : Net H) (i : H) (p j : Nat) (b : TypedByte H) : Prop :=
  ∃ s e first bytes statuses, (n.sent i)[p]? = some (.classified s e first bytes statuses) ∧ bytes[j]? = some b

theorem Inv.author_of_listed (I : n.Inv) {p j : Nat} (h : n.Listed i p j b) : b.author = i := by
  obtain ⟨s, e, first, bytes, statuses, hr, hb⟩ := h
  by_cases he : e = 0
  · subst he
    exact ((I.author i).typing.dropped _ (dropped_of_report (mem_of_getElem? hr) (mem_of_getElem? hb))).1
  · exact I.author_of_stream (mem_of_getElem? (I.report_position (mem_of_getElem? hr) he hb))

section
variable [InputCrc]

/-- What a status says of a byte reported for session `s`, now and in every continuation of the run. -/
def StatusSound (n : Net H) (s : Nat) (b : TypedByte H) : Status → Prop
  | .written => b ∈ n.handed s
  | .acceptedPendingWrite => b ∈ n.handed s ∨ b ∈ n.queued s
  | .notDelivered => ∀ m, (network H).Run System.anyAction n m →
    ∀ r, ∀ b' ∈ m.handed r, b'.author = b.author → b'.index ≠ b.index
  -- No child dies in the network, so nothing accepted is dropped.
  | .acceptedThenDropped => False
  | .outcomeUnknown => True

/-- Reports say the truth of their bytes, and no byte is reported twice. -/
theorem reports_sound (h : (network H).Reachable System.anyAction n) :
    (∀ (i : H) (s e first : Nat) (bytes : List (TypedByte H)) (statuses : List Status),
      Out.classified s e first bytes statuses ∈ n.sent i → statuses.length = bytes.length ∧
        ∀ (j : Nat) (st : Status) (b : TypedByte H), statuses[j]? = some st → bytes[j]? = some b → n.StatusSound s b st) ∧
    ∀ (i i' : H) (p p' j j' : Nat) (b b' : TypedByte H), n.Listed i p j b → n.Listed i' p' j' b' →
      b.author = b'.author → b.index = b'.index → i = i' ∧ p = p' ∧ j = j' := by
  have I := inv_reachable h
  refine ⟨fun i s e first bytes statuses hr => ⟨(I.outOk hr).1, fun j st b hst hb => ?_⟩, ?_⟩
  · cases st with
    | written => exact I.written_handed hr hst hb
    | acceptedPendingWrite => exact I.pending_accepted hr hst hb
    | acceptedThenDropped =>
      by_cases he : e = 0
      · subst he
        cases I.report_unassigned hr hst
      · exact I.report_status hr he hst
    | notDelivered =>
      intro m hm r b' hb'
      exact (inv_reachable (h.run hm)).undelivered ((sent_run hm i).subset hr) hst hb hb'
    | outcomeUnknown => trivial
  · intro i i' p p' j j' b b' hl hl' ha hi
    obtain rfl : i = i' := by rw [← I.author_of_listed hl, ← I.author_of_listed hl', ha]
    obtain ⟨s, e, first, bytes, statuses, hr, hb⟩ := hl
    obtain ⟨s', e', first', bytes', statuses', hr', hb'⟩ := hl'
    have hpl : Place.reported p j = .reported p' j' :=
      I.at_unique ⟨s, e, first, bytes, statuses, b, hr, hb, rfl⟩ ⟨s', e', first', bytes', statuses', b', hr', hb', hi.symm⟩
    cases hpl
    exact ⟨rfl, rfl, rfl⟩

/-- Every typed byte is at exactly one place. -/
theorem typed_at_one_place (h : (network H).Reachable System.anyAction n) (i : H) (m : Nat)
    (hm : m < (n.typedFor i).length) : ∃! pl, n.At i m pl := by
  have I := inv_reachable h
  obtain ⟨pl, hpl⟩ := I.exists_at hm
  exact ⟨pl, hpl, fun pl' hpl' => I.at_unique hpl' hpl⟩

end

theorem reports_sound_lostWhileAway :
    .classified 0 1 0 [⟨false, 0, 97⟩, ⟨false, 1, 98⟩, ⟨false, 2, 99⟩, ⟨false, 3, 102⟩]
        [.written, .written, .acceptedPendingWrite, .notDelivered] ∈
          (@run Bool _ zeroCrc (fun _ => 0) lostWhileAway).sent false ∧
      @StatusSound Bool _ zeroCrc (@run Bool _ zeroCrc (fun _ => 0) lostWhileAway) 0 ⟨false, 1, 98⟩ .written ∧
      @StatusSound Bool _ zeroCrc (@run Bool _ zeroCrc (fun _ => 0) lostWhileAway) 0 ⟨false, 3, 102⟩ .notDelivered := by
  have hsent : .classified 0 1 0 [⟨false, 0, 97⟩, ⟨false, 1, 98⟩, ⟨false, 2, 99⟩, ⟨false, 3, 102⟩]
      [.written, .written, .acceptedPendingWrite, .notDelivered] ∈
        (@run Bool _ zeroCrc (fun _ => 0) lostWhileAway).sent false := by decide +kernel
  have hsound :=
    ((@reports_sound Bool _ _ zeroCrc (@reachable_run Bool _ zeroCrc (fun _ => 0) lostWhileAway)).1 _ _ _ _ _ _ hsent).2
  exact ⟨hsent, hsound 1 .written _ rfl rfl, hsound 3 .notDelivered _ rfl rfl⟩

theorem typed_at_one_place_lostWhileAway :
    ((@run Bool _ zeroCrc (fun _ => 0) lostWhileAway).typedFor false).length = 4 ∧
      ∀ m < 4, ∃! pl, (@run Bool _ zeroCrc (fun _ => 0) lostWhileAway).At false m pl := by
  have hlen : ((@run Bool _ zeroCrc (fun _ => 0) lostWhileAway).typedFor false).length = 4 := by decide +kernel
  refine ⟨hlen, fun m hm => ?_⟩
  exact @typed_at_one_place Bool _ _ zeroCrc (@reachable_run Bool _ zeroCrc _ _) false m (hlen ▸ hm)

end Net
end Ferryx
