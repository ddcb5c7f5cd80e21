import Ferryx.Theorems.Ledger

/-! The representation invariant of an input ledger (`Rep`), for calls with any arguments, in any order, after the death of
the child too. A run of calls keeps beside the ledger the bytes that its current epoch accepted. -/

namespace Ferryx
open Std Lib List Item InputLedger

namespace Item
variable {β : Type}

def leftAt (e : Nat) : Item β → Nat
  | .input epoch bytes written => if epoch = e then bytes.length - written else 0
  | .vt _ _ => 0

def inputLeft : Item β → Nat
  | .input _ bytes written => bytes.length - written
  | .vt _ _ => 0

def vtLeft : Item β → Nat
  | .input _ _ _ => 0
  | .vt bytes written => bytes.length - written

end Item

namespace InputLedger
variable {H β : Type} {bytes : List β}

def queuedEpochs (l : InputLedger H β) : List Nat := l.queue.filterMap Item.epoch?

def unwritten (l : InputLedger H β) (e : Nat) : Nat := (l.queue.map (Item.leftAt e)).sum

inductive Call (H β : Type) where
  | fresh (who : H) (requestId : Nat)
  | acquire (who : H)
  | release (who : H) (epoch : Nat)
  | reclaim (who : H) (epoch : Nat)
  | write (who : H) (epoch start : Nat) (bytes : List β) (crc : UInt32)
  | pushVtReply (bytes : List β)
  | onWritten (n : Nat)
  | onDead

structure Kept (H β : Type) where
  ledger : InputLedger H β := .new
  taken : List β := []

section Calls
variable [DecidableEq H] [WireByte β] [InputCrc]

def Kept.call (k : Kept H β) : Call H β → Kept H β
  | .fresh who requestId => { k with ledger := (k.ledger.fresh who requestId).1 }
  | .acquire who =>
    match k.ledger.acquire who with
    | some (l, _) => ⟨l, []⟩
    | none => k
  | .release who epoch => { k with ledger := (k.ledger.release who epoch).1 }
  | .reclaim who epoch => { k with ledger := (k.ledger.reclaim who epoch).1 }
  | .write who epoch start bytes crc =>
    match k.ledger.write who epoch start bytes crc with
    | (l, .ok _) => ⟨l, k.taken ++ bytes.drop (k.taken.length - start)⟩
    | (l, .error _) => { k with ledger := l }
  | .pushVtReply bytes => { k with ledger := (k.ledger.pushVtReply bytes).1 }
  | .onWritten n => { k with ledger := (k.ledger.onWritten n).1 }
  | .onDead => { k with ledger := k.ledger.onDead }

end Calls

/-- The counters and the queue agree. -/
structure Rep (l : InputLedger H β) (taken : List β) : Prop where
  counts : ∀ {e : Nat} {x : EpochLedger H}, l.epochs[e]? = some x → x.accepted = x.committed + x.pendingDropped +
    l.unwritten e
  inputBytes : l.inputBytes = (l.queue.map Item.inputLeft).sum
  vtBytes : l.vtBytes = (l.queue.map Item.vtLeft).sum
  inputLimit : l.inputBytes ≤ inputQueueLimit
  vtLimit : l.vtBytes ≤ vtReplyLimit
  order : l.queuedEpochs.Pairwise (· ≤ ·)
  distinct : l.queuedEpochs.toFinset.card ≤ maxUnwrittenEpochs
  present : ∀ e ∈ l.queuedEpochs, e ∈ l.epochs
  table : l.epochs.size ≤ 128
  unfenced : ∀ {e : Nat} {x : EpochLedger H}, l.epochs[e]? = some x → x.fenced = false → e = l.current
  held : ∀ h, l.holder = some h ↔ ∃ x, l.epochs[l.current]? = some x ∧ x.fenced = false ∧ x.holder = h
  accepted : ∀ {x : EpochLedger H}, l.epochs[l.current]? = some x → x.accepted = taken.length
  retained : l.retained = taken.drop l.retainedStart
  window : l.retained.length = min taken.length retainedBytes
  inRange : ∀ {x : EpochLedger H} {start stop : Nat}, l.epochs[l.current]? = some x → l.retainedStart ≤ start →
    start < min stop x.accepted → start - l.retainedStart + (min stop x.accepted - start) ≤ l.retained.length

/-- The same without the order of the queue. -/
structure Core (l : InputLedger H β) (taken : List β) : Prop where
  counts : ∀ {e : Nat} {x : EpochLedger H}, l.epochs[e]? = some x → x.accepted = x.committed + x.pendingDropped +
    l.unwritten e
  inputBytes : l.inputBytes = (l.queue.map Item.inputLeft).sum
  vtBytes : l.vtBytes = (l.queue.map Item.vtLeft).sum
  inputLimit : l.inputBytes ≤ inputQueueLimit
  vtLimit : l.vtBytes ≤ vtReplyLimit
  order : l.queuedEpochs.Pairwise (· ≤ ·)
  bound : ∀ e ∈ l.queuedEpochs, e ≤ l.current
  distinct : (l.queuedEpochs.toFinset.erase l.current).card < maxUnwrittenEpochs
  present : ∀ e ∈ l.queuedEpochs, e ∈ l.epochs
  keys : ∀ e ∈ l.epochs, e ≤ l.current
  unfenced : ∀ {e : Nat} {x : EpochLedger H}, l.epochs[e]? = some x → x.fenced = false → e = l.current
  held : ∀ h, l.holder = some h ↔ ∃ x, l.epochs[l.current]? = some x ∧ x.fenced = false ∧ x.holder = h
  accepted : ∀ {x : EpochLedger H}, l.epochs[l.current]? = some x → x.accepted = taken.length
  retained : l.retained = taken.drop l.retainedStart
  start : l.retainedStart = taken.length - retainedBytes

/-- Besides, the table stays within its bound. -/
structure Sound (l : InputLedger H β) (taken : List β) : Prop extends Core l taken where
  table : l.epochs.size ≤ 128

section Parts
variable {l l' : InputLedger H β} {taken : List β} {x : EpochLedger H} {e : Nat}

theorem Core.distinct_le (h : Core l taken) : l.queuedEpochs.toFinset.card ≤ maxUnwrittenEpochs := by
  have herase : l.queuedEpochs.toFinset.card - 1 ≤ (l.queuedEpochs.toFinset.erase l.current).card :=
    Finset.pred_card_le_card_erase
  have := h.distinct
  omega

theorem Sound.rep (h : Sound l taken) : Rep l taken := { h with
  distinct := h.distinct_le
  window := by
    rw [h.retained, h.start, length_drop]
    omega
  inRange := by
    intro x start stop hx hle hlt
    have := h.accepted hx
    rw [h.retained, length_drop]
    omega }

theorem sound_new : Sound (.new : InputLedger H β) [] := by
  refine ⟨⟨?_, rfl, rfl, Nat.zero_le _, Nat.zero_le _, .nil, ?_, ?_, ?_, ?_, ?_, ?_, ?_, rfl, (Nat.zero_sub _).symm⟩, ?_⟩
  · intro e x h
    simp [new] at h
  · simp [new, queuedEpochs]
  · simp [new, queuedEpochs, maxUnwrittenEpochs]
  · simp [new, queuedEpochs]
  · simp [new]
  · intro e x h
    simp [new] at h
  · simp [new]
  · intro x h
    simp [new] at h
  · simp [new]

theorem Sound.congr (h : Sound l taken) (hqueue : l'.queue = l.queue) (hepochs : l'.epochs = l.epochs)
    (hcurrent : l'.current = l.current) (hholder : l'.holder = l.holder) (hretained : l'.retained = l.retained)
    (hstart : l'.retainedStart = l.retainedStart) (hinput : l'.inputBytes = l.inputBytes) (hvt : l'.vtBytes = l.vtBytes) :
    Sound l' taken := by
  obtain ⟨⟩ := l
  obtain ⟨⟩ := l'
  simp only at hqueue hepochs hcurrent hholder hretained hstart hinput hvt
  subst hqueue hepochs hcurrent hholder hretained hstart hinput hvt
  exact ⟨⟨h.counts, h.inputBytes, h.vtBytes, h.inputLimit, h.vtLimit, h.order, h.bound, h.distinct, h.present, h.keys,
    h.unfenced,
    h.held, h.accepted, h.retained, h.start⟩, h.table⟩

theorem Core.fence (h : Core l taken) (revokees : List H) : Core { l.fenceCurrent with revokees } taken := { h with
  counts {e x} hx := by
    obtain ⟨y, hy, -, ha, hc, hd, -⟩ := entry_fenceCurrent hx
    rw [ha, hc, hd]
    exact h.counts hy
  present e he := mem_fenceCurrent.mpr (h.present e he)
  keys e he := h.keys e (mem_fenceCurrent.mp he)
  unfenced {e x} hx hf := by
    obtain ⟨y, hy, -, -, -, -, hfenced⟩ := entry_fenceCurrent hx
    by_contra hne
    cases hyf : y.fenced with
    | true => simp [hfenced (.inl hyf)] at hf
    | false => exact hne (h.unfenced hy hyf)
  held h' := by
    constructor
    · intro hnone
      cases hnone
    · rintro ⟨x, hx, hf, -⟩
      obtain ⟨y, -, -, -, -, -, hfenced⟩ := entry_fenceCurrent hx
      simp [hfenced (.inr rfl)] at hf
  accepted {x} hx := by
    obtain ⟨y, hy, -, ha, -⟩ := entry_fenceCurrent hx
    exact ha.trans (h.accepted hy) }

theorem Sound.fence (h : Sound l taken) (revokees : List H) : Sound { l.fenceCurrent with revokees } taken :=
  ⟨h.toCore.fence revokees, by simpa [fenceCurrent, ExtTreeMap.size_modify] using h.table⟩

theorem Core.size_prune (h : Core l taken) : l.prune.epochs.size ≤ 128 := by
  have hsub : l.prune.epochs.keys.toFinset ⊆ Finset.Icc (l.current - (recentEpochs - 1)) l.current ∪
      l.queuedEpochs.toFinset := by
    intro e he
    rw [mem_toFinset, ExtTreeMap.mem_keys, mem_iff_lookup] at he
    obtain ⟨x, hx⟩ := he
    have hle := h.keys e (mem_iff_lookup.mpr ⟨x, getElem?_prune hx⟩)
    simp only [prune, lookup_filter, Bool.or_eq_true, beq_iff_eq, decide_eq_true_eq, contains_eq_mem] at hx
    rw [Finset.mem_union, Finset.mem_Icc, mem_toFinset]
    obtain ⟨-, (rfl | hfloor) | hqueued⟩ := hx
    · exact .inl ⟨Nat.sub_le _ _, le_rfl⟩
    · exact .inl ⟨hfloor, hle⟩
    · exact .inr hqueued
  have hcard := (Finset.card_le_card hsub).trans (Finset.card_union_le _ _)
  rw [toFinset_card_of_nodup ExtTreeMap.nodup_keys, ExtTreeMap.length_keys, Nat.card_Icc] at hcard
  have := h.distinct_le
  simp only [recentEpochs, maxUnwrittenEpochs] at *
  omega

theorem Core.prune (h : Core l taken) : Sound l.prune taken := { h with
  counts hx := h.counts (getElem?_prune hx)
  present e he := by
    obtain ⟨x, hx⟩ := mem_iff_lookup.mp (h.present e he)
    exact mem_iff_lookup.mpr ⟨x, getElem?_prune_of hx (.inr he)⟩
  keys e he := by
    obtain ⟨x, hx⟩ := mem_iff_lookup.mp he
    exact h.keys e (mem_iff_lookup.mpr ⟨x, getElem?_prune hx⟩)
  unfenced hx hf := h.unfenced (getElem?_prune hx) hf
  held h' := by
    refine (h.held h').trans ⟨?_, ?_⟩
    · rintro ⟨x, hx, hrest⟩
      exact ⟨x, getElem?_prune_of hx (.inl rfl), hrest⟩
    · rintro ⟨x, hx, hrest⟩
      exact ⟨x, getElem?_prune hx, hrest⟩
  accepted hx := h.accepted (getElem?_prune hx)
  table := h.size_prune }

theorem mem_destutter_of_mem {l : List Nat} {a : Nat} (h : a ∈ l) : a ∈ l.destutter (· ≠ ·) := by
  have hmem : ∀ (l : List Nat) (b a : Nat), a ∈ b :: l → a ∈ l.destutter' (· ≠ ·) b := by
    intro l
    induction l with
    | nil => simp
    | cons c l ih =>
      intro b a ha
      by_cases hbc : b = c
      · subst hbc
        rw [List.destutter'_cons_neg _ (by simp)]
        exact ih b a (by simpa using ha)
      · rw [List.destutter'_cons_pos _ hbc]
        obtain rfl | ha := mem_cons.mp ha
        · simp
        · exact mem_cons_of_mem _ (ih c a ha)
  cases l with
  | nil => cases h
  | cons b l => exact hmem l b a h

theorem card_queuedEpochs_le (l : InputLedger H β) : l.queuedEpochs.toFinset.card ≤ l.unwrittenEpochs := by
  refine (Finset.card_le_card ?_).trans (toFinset_card_le (l.queuedEpochs.destutter (· ≠ ·)))
  intro e he
  rw [mem_toFinset] at he ⊢
  exact mem_destutter_of_mem he

theorem unwritten_of_notMem (h : e ∉ l.queuedEpochs) : l.unwritten e = 0 := by
  rw [unwritten, sum_eq_zero_iff]
  intro n hn
  obtain ⟨it, hit, rfl⟩ := mem_map.mp hn
  cases it with
  | vt bytes w => rfl
  | input epoch bytes w =>
    have : epoch ≠ e := by
      rintro rfl
      exact h (mem_filterMap.mpr ⟨_, hit, rfl⟩)
    simp [leftAt, this]

theorem Core.openEpoch (h : Core l taken) (hroom : l.unwrittenEpochs < maxUnwrittenEpochs) (who : H) (revokees : List H) :
    Core (l.openEpoch who revokees) [] := by
  have hfence := h.fence revokees
  have hnew : l.current + 1 ∉ l.queuedEpochs := fun hm => Nat.not_succ_le_self _ (h.bound _ hm)
  have hentry : ∀ {e : Nat} {x : EpochLedger H}, (l.openEpoch who revokees).epochs[e]? = some x →
      e = l.current + 1 ∧ x = ⟨who, 0, 0, 0, false⟩ ∨ e ≠ l.current + 1 ∧ l.fenceCurrent.epochs[e]? = some x := by
    intro e x hx
    simp only [InputLedger.openEpoch, lookup_insert] at hx
    split at hx
    next he => exact .inl ⟨he.symm, (Option.some.inj hx).symm⟩
    next he => exact .inr ⟨Ne.symm he, hx⟩
  have hcurrent : (l.openEpoch who revokees).epochs[l.current + 1]? = some ⟨who, 0, 0, 0, false⟩ := by
    simp [InputLedger.openEpoch]
  refine ⟨?_, h.inputBytes, h.vtBytes, h.inputLimit, h.vtLimit, h.order, ?_, ?_, ?_, ?_, ?_, ?_, ?_, rfl,
    (Nat.zero_sub _).symm⟩
  · intro e x hx
    obtain ⟨rfl, rfl⟩ | ⟨-, hx⟩ := hentry hx
    · exact (unwritten_of_notMem (l := l) hnew).symm.trans (Nat.zero_add _).symm
    · exact hfence.counts hx
  · intro e he
    exact (h.bound e he).trans (Nat.le_succ _)
  · refine (Finset.card_le_card (Finset.erase_subset _ _)).trans_lt ?_
    exact (card_queuedEpochs_le l).trans_lt hroom
  · intro e he
    exact ExtTreeMap.mem_insert.mpr (.inr (hfence.present e he))
  · intro e he
    obtain ⟨x, hx⟩ := mem_iff_lookup.mp he
    obtain ⟨rfl, -⟩ | ⟨-, hx⟩ := hentry hx
    · exact le_rfl
    · exact (hfence.keys e (mem_iff_lookup.mpr ⟨x, hx⟩)).trans (Nat.le_succ _)
  · intro e x hx hf
    obtain ⟨rfl, -⟩ | ⟨-, hx⟩ := hentry hx
    · rfl
    · -- Every older epoch is fenced: the current one was just fenced, the others were.
      obtain rfl := hfence.unfenced hx hf
      have := (hfence.held x.holder).mpr ⟨x, hx, hf, rfl⟩
      cases this
  · intro h'
    constructor
    · intro hh
      obtain rfl : who = h' := by simpa [InputLedger.openEpoch] using hh
      exact ⟨_, hcurrent, rfl, rfl⟩
    · rintro ⟨x, hx, -, rfl⟩
      obtain rfl := Option.some.inj (hcurrent.symm.trans hx)
      rfl
  · intro x hx
    obtain rfl := Option.some.inj (hcurrent.symm.trans hx)
    rfl

theorem Core.advance (h : Core l taken) (hcurrent : l'.current = l.current) (hholder : l'.holder = l.holder)
    (hretained : l'.retained = l.retained) (hstart : l'.retainedStart = l.retainedStart)
    (hqueue : l'.queuedEpochs.Sublist l.queuedEpochs) (hinput : l'.inputBytes = (l'.queue.map inputLeft).sum)
    (hvt : l'.vtBytes = (l'.queue.map vtLeft).sum) (hinputLe : l'.inputBytes ≤ l.inputBytes)
      (hvtLe : l'.vtBytes ≤ l.vtBytes)
    (hmem : ∀ e, e ∈ l'.epochs ↔ e ∈ l.epochs)
    (hentry : ∀ {e : Nat} {x' : EpochLedger H}, l'.epochs[e]? = some x' → ∃ x, l.epochs[e]? = some x ∧
      x'.holder = x.holder ∧
      x'.fenced = x.fenced ∧ x'.accepted = x.accepted ∧
      x'.committed + x'.pendingDropped + l'.unwritten e = x.committed + x.pendingDropped + l.unwritten e) :
        Core l' taken := by
  refine ⟨?_, hinput, hvt, hinputLe.trans h.inputLimit, hvtLe.trans h.vtLimit, h.order.sublist hqueue, ?_, ?_, ?_, ?_,
    ?_, ?_, ?_,
    ?_, hstart.trans h.start⟩
  · intro e x' hx'
    obtain ⟨x, hx, -, -, ha, hsum⟩ := hentry hx'
    rw [ha, hsum]
    exact h.counts hx
  · intro e he
    rw [hcurrent]
    exact h.bound e (hqueue.subset he)
  · refine (Finset.card_le_card ?_).trans_lt h.distinct
    rw [hcurrent]
    refine Finset.erase_subset_erase _ fun e he => ?_
    rw [mem_toFinset] at he ⊢
    exact hqueue.subset he
  · intro e he
    exact (hmem e).mpr (h.present e (hqueue.subset he))
  · intro e he
    rw [hcurrent]
    exact h.keys e ((hmem e).mp he)
  · intro e x' hx' hf
    obtain ⟨x, hx, -, hfenced, -⟩ := hentry hx'
    rw [hcurrent]
    exact h.unfenced hx (hfenced ▸ hf)
  · intro h'
    rw [hholder, h.held h', hcurrent]
    constructor
    · rintro ⟨x, hx, hf, hh⟩
      obtain ⟨x', hx'⟩ := mem_iff_lookup.mp ((hmem l.current).mpr (mem_iff_lookup.mpr ⟨x, hx⟩))
      obtain ⟨y, hy, hyh, hyf, -⟩ := hentry hx'
      obtain rfl := Option.some.inj (hx.symm.trans hy)
      exact ⟨x', hx', hyf.trans hf, hyh.trans hh⟩
    · rintro ⟨x', hx', hf, hh⟩
      obtain ⟨x, hx, hxh, hxf, -⟩ := hentry hx'
      exact ⟨x, hx, hxf ▸ hf, hxh ▸ hh⟩
  · intro x' hx'
    rw [hcurrent] at hx'
    obtain ⟨x, hx, -, -, ha, -⟩ := hentry hx'
    exact ha.trans (h.accepted hx)
  · rw [hretained, hstart]
    exact h.retained

theorem mem_insert_of_lookup (hx : l.epochs[e]? = some x) (y : EpochLedger H) (e' : Nat) : e' ∈ l.epochs.insert e y ↔
    e' ∈ l.epochs := by
  refine ExtTreeMap.mem_insert.trans ⟨?_, .inr⟩
  rintro (heq | hmem)
  · obtain rfl : e = e' := Nat.compare_eq_eq.mp heq
    exact mem_iff_lookup.mpr ⟨x, hx⟩
  · exact hmem

theorem size_insert_of_lookup (hx : l.epochs[e]? = some x) (y : EpochLedger H) :
    (l.epochs.insert e y).size = l.epochs.size := by
  have hmem : e ∈ l.epochs := mem_iff_lookup.mpr ⟨x, hx⟩
  rw [ExtTreeMap.size_insert, if_pos (ExtTreeMap.mem_iff_contains.mp hmem)]

theorem Core.commit (h : Core l taken) {e w k : Nat} {rest queue : List (Item β)}
    (hq : l.queue = .input e bytes w :: rest) (hx : l.epochs[e]? = some x) (hk : k ≤ bytes.length - w)
    (hqueue : w + k = bytes.length ∧ queue = rest ∨ queue = .input e bytes (w + k) :: rest) :
      Core (l.commit e x k queue) taken := by
  have hinput := h.inputBytes
  have hvt := h.vtBytes
  rw [hq, map_cons, sum_cons] at hinput hvt
  simp only [Item.inputLeft, Item.vtLeft] at hinput hvt
  refine h.advance rfl rfl rfl rfl ?_ ?_ ?_ (Nat.sub_le _ _) le_rfl ?_ ?_
  · rw [queuedEpochs, queuedEpochs, hq]
    obtain ⟨-, rfl⟩ | rfl := hqueue
    · exact (sublist_cons_self _ _).filterMap _
    · exact .refl _
  · obtain ⟨hfull, rfl⟩ | rfl := hqueue <;> simp only [InputLedger.commit, map_cons, sum_cons, Item.inputLeft] <;> omega
  · obtain ⟨hfull, rfl⟩ | rfl := hqueue <;> simp only [InputLedger.commit, map_cons, sum_cons, Item.vtLeft] <;> omega
  · exact mem_insert_of_lookup hx _
  · intro e' x' hx'
    simp only [InputLedger.commit, lookup_insert] at hx'
    rw [unwritten, unwritten, hq, map_cons, sum_cons]
    split at hx'
    next heq =>
      subst heq
      obtain rfl := Option.some.inj hx'
      refine ⟨x, hx, rfl, rfl, rfl, ?_⟩
      obtain ⟨hfull, rfl⟩ | rfl := hqueue <;>
        simp only [InputLedger.commit, map_cons, sum_cons, Item.leftAt, if_true] <;> omega
    next hne =>
      refine ⟨x', hx', rfl, rfl, rfl, ?_⟩
      obtain ⟨hfull, rfl⟩ | rfl := hqueue <;>
        simp only [InputLedger.commit, map_cons, sum_cons, Item.leftAt, if_neg hne, Nat.zero_add]

theorem Core.replied (h : Core l taken) {w k : Nat} {rest queue : List (Item β)}
    (hq : l.queue = .vt bytes w :: rest) (hk : k ≤ bytes.length - w)
    (hqueue : w + k = bytes.length ∧ queue = rest ∨ queue = .vt bytes (w + k) :: rest) :
    Core { l with vtBytes := l.vtBytes - k, queue } taken := by
  have hinput := h.inputBytes
  have hvt := h.vtBytes
  rw [hq, map_cons, sum_cons] at hinput hvt
  simp only [inputLeft, vtLeft] at hinput hvt
  refine h.advance rfl rfl rfl rfl ?_ ?_ ?_ le_rfl (Nat.sub_le _ _) (fun _ => .rfl) ?_
  · rw [queuedEpochs, queuedEpochs, hq]
    obtain ⟨-, rfl⟩ | rfl := hqueue
    · exact (sublist_cons_self _ _).filterMap _
    · exact .refl _
  · obtain ⟨hfull, rfl⟩ | rfl := hqueue <;> simp only [map_cons, sum_cons, inputLeft] <;> omega
  · obtain ⟨hfull, rfl⟩ | rfl := hqueue <;> simp only [map_cons, sum_cons, vtLeft] <;> omega
  · intro e x hx
    refine ⟨x, hx, rfl, rfl, rfl, ?_⟩
    rw [unwritten, unwritten, hq, map_cons, sum_cons]
    obtain ⟨hfull, rfl⟩ | rfl := hqueue <;> simp only [map_cons, sum_cons, leftAt, Nat.zero_add]

theorem Sound.onWritten (h : Sound l taken) (n : Nat) : Sound (l.onWritten n).1 taken := by
  cases hq : l.queue with
  | nil =>
    rw [InputLedger.onWritten, hq]
    exact h
  | cons it rest =>
    cases it with
    | input e bytes w =>
      obtain ⟨x, hx⟩ := mem_iff_lookup.mp (h.present e (by simp [queuedEpochs, hq, epoch?]))
      have hk : min n (bytes.length - w) ≤ bytes.length - w := Nat.min_le_right _ _
      have heq : l.onWritten n = l.onWritten (min n (bytes.length - w)) := by simp [InputLedger.onWritten, hq, hx]
      rw [heq, onWritten_eq hq hx hk]
      split
      next hfull => exact (h.toCore.commit hq hx hk (.inl ⟨hfull, rfl⟩)).prune
      · refine ⟨h.toCore.commit hq hx hk (.inr rfl), ?_⟩
        exact (size_insert_of_lookup hx _).trans_le h.table
    | vt bytes w =>
      have hk : min n (bytes.length - w) ≤ bytes.length - w := Nat.min_le_right _ _
      simp only [InputLedger.onWritten, hq]
      split
      next hfull => exact (h.toCore.replied hq hk (.inl ⟨hfull, rfl⟩)).prune
      · exact ⟨h.toCore.replied hq hk (.inr rfl), h.table⟩

/-- The bytes of an item are counted as dropped. -/
def dropItem (epochs : ExtTreeMap Nat (EpochLedger H)) : Item β → ExtTreeMap Nat (EpochLedger H)
  | .input epoch bytes written =>
    epochs.modify epoch fun e => { e with pendingDropped := e.pendingDropped + (bytes.length - written) }
  | .vt _ _ => epochs

theorem onDead_epochs : l.onDead.epochs = l.queue.foldl dropItem l.epochs := by
  rw [onDead]
  congr 1

theorem lookup_dropItems (queue : List (Item β)) (e : Nat) : ∀ epochs : ExtTreeMap Nat (EpochLedger H),
    (queue.foldl dropItem epochs)[e]? = epochs[e]?.map fun x : EpochLedger H =>
      { x with pendingDropped := x.pendingDropped + (queue.map (leftAt e)).sum } := by
  induction queue with
  | nil => simp
  | cons it queue ih =>
    intro epochs
    rw [foldl_cons, ih, map_cons, sum_cons]
    cases it with
    | vt bytes w => simp only [dropItem, leftAt, Nat.zero_add]
    | input epoch bytes w =>
      simp only [dropItem, lookup_modify, leftAt]
      split
      · simp only [Option.map_map, Function.comp_def, Nat.add_assoc]
      · simp only [Nat.zero_add]

theorem size_dropItems (queue : List (Item β)) : ∀ epochs : ExtTreeMap Nat (EpochLedger H),
    (queue.foldl dropItem epochs).size = epochs.size := by
  induction queue with
  | nil => exact fun _ => rfl
  | cons it queue ih =>
    intro epochs
    rw [foldl_cons, ih]
    cases it with
    | vt bytes w => rfl
    | input epoch bytes w => exact ExtTreeMap.size_modify

theorem Sound.onDead (h : Sound l taken) : Sound l.onDead taken := by
  refine ⟨h.toCore.advance rfl rfl rfl rfl (nil_sublist _) rfl rfl (Nat.zero_le _) (Nat.zero_le _) ?_ ?_, ?_⟩
  · intro e
    rw [mem_iff_lookup, mem_iff_lookup, onDead_epochs, lookup_dropItems]
    simp
  · intro e x' hx'
    rw [onDead_epochs, lookup_dropItems] at hx'
    obtain ⟨x, hx, rfl⟩ := Option.map_eq_some_iff.mp hx'
    exact ⟨x, hx, rfl, rfl, rfl, (Nat.add_assoc _ _ _).symm⟩
  · rw [onDead_epochs, size_dropItems]
    exact h.table

theorem Sound.pushVtReply (h : Sound l taken) (bytes : List β) : Sound (l.pushVtReply bytes).1 taken := by
  rw [InputLedger.pushVtReply]
  split
  · exact h.congr rfl rfl rfl rfl rfl rfl rfl rfl
  next hfit =>
    simp only [Bool.or_eq_true, decide_eq_true_eq, not_or, Nat.not_lt] at hfit
    have hepochs : (l.queue ++ [vt bytes 0]).filterMap epoch? = l.queuedEpochs := by
      rw [filterMap_append, queuedEpochs]
      exact append_nil _
    refine ⟨⟨?_, ?_, ?_, h.inputLimit, hfit.2, ?_, ?_, ?_, ?_, h.keys, h.unfenced, h.held, h.accepted, h.retained, h.start⟩,
      h.table⟩
    · intro e x hx
      simpa [unwritten, leftAt] using h.counts hx
    · simpa [inputLeft] using h.inputBytes
    · simp [vtLeft, h.vtBytes]
    all_goals rw [queuedEpochs, hepochs]
    · exact h.order
    · exact h.bound
    · exact h.distinct
    · exact h.present

end Parts

section Calls
variable [DecidableEq H] {l : InputLedger H β} {taken : List β}

theorem Sound.acquire (h : Sound l taken) {l' : InputLedger H β} {who : H} {g : Granted H}
    (hg : l.acquire who = some (l', g)) :
    Sound l' [] := by
  have hroom : l.unwrittenEpochs < maxUnwrittenEpochs := by
    by_contra hge
    rw [InputLedger.acquire, if_pos (Nat.not_lt.mp hge)] at hg
    cases hg
  obtain ⟨-, revokees, rfl⟩ := acquire_eq hg
  exact (h.toCore.openEpoch hroom who revokees).prune

variable [WireByte β] [InputCrc]

theorem write_inputLimit (hlimit : l.inputBytes ≤ inputQueueLimit) (who : H) (epoch start : Nat) (bytes : List β)
    (crc : UInt32) :
    (l.write who epoch start bytes crc).1.inputBytes ≤ inputQueueLimit := by
  unfold write
  split
  · exact hlimit
  · repeat' split
    all_goals first
      | exact hlimit
      | next hfit => exact Nat.not_lt.mp hfit

omit [DecidableEq H] [WireByte β] [InputCrc] in
theorem Sound.accept (h : Sound l taken) {x : EpochLedger H} {start : Nat} (hx : l.epochs[l.current]? = some x)
    (hle : start ≤ x.accepted) (hlt : x.accepted < start + bytes.length)
    (hlimit : (l.accept x l.current start bytes).inputBytes ≤ inputQueueLimit) :
    Sound (l.accept x l.current start bytes) (taken ++ bytes.drop (taken.length - start)) := by
  have htaken := h.accepted hx
  have hlength : (bytes.drop (x.accepted - start)).length = start + bytes.length - x.accepted := by
    rw [length_drop]
    omega
  have hepochs : (l.accept x l.current start bytes).queuedEpochs = l.queuedEpochs ++ [l.current] := by
    rw [queuedEpochs, InputLedger.accept, filterMap_append]
    rfl
  have hentry : ∀ {e : Nat} {y : EpochLedger H}, (l.accept x l.current start bytes).epochs[e]? = some y →
      e = l.current ∧ y = { x with accepted := start + bytes.length } ∨ e ≠ l.current ∧ l.epochs[e]? = some y := by
    intro e y hy
    simp only [InputLedger.accept, lookup_insert] at hy
    split at hy
    next he => exact .inl ⟨he.symm, (Option.some.inj hy).symm⟩
    next he => exact .inr ⟨Ne.symm he, hy⟩
  rw [← htaken]
  refine ⟨⟨?_, ?_, ?_, hlimit, h.vtLimit, ?_, ?_, ?_, ?_, ?_, ?_, ?_, ?_, ?_, ?_⟩, ?_⟩
  · intro e y hy
    simp only [unwritten, InputLedger.accept, map_append, map_cons, map_nil, sum_append, sum_cons, sum_nil, Item.leftAt]
    obtain ⟨rfl, rfl⟩ | ⟨hne, hy⟩ := hentry hy
    · have := h.counts hx
      rw [unwritten] at this
      rw [if_pos rfl, hlength]
      dsimp only
      omega
    · rw [if_neg hne.symm]
      exact h.counts hy
  · simp [InputLedger.accept, Item.inputLeft, h.inputBytes]
  · simpa [InputLedger.accept, Item.vtLeft] using h.vtBytes
  · rw [hepochs, pairwise_append]
    refine ⟨h.order, pairwise_singleton _ _, fun a ha b hb => ?_⟩
    obtain rfl := mem_singleton.mp hb
    exact h.bound a ha
  · intro e he
    rw [hepochs, mem_append, mem_singleton] at he
    obtain he | rfl := he
    · exact h.bound e he
    · exact le_rfl
  · -- The epoch of the new entry is the one that there is room for.
    rw [hepochs]
    refine (Finset.card_le_card ?_).trans_lt h.distinct
    intro e he
    simp only [InputLedger.accept, Finset.mem_erase, mem_toFinset, mem_append, mem_singleton] at he ⊢
    exact ⟨he.1, he.2.resolve_right he.1⟩
  · intro e he
    rw [hepochs, mem_append, mem_singleton] at he
    obtain he | rfl := he
    · exact (mem_insert_of_lookup hx _ e).mpr (h.present e he)
    · exact (mem_insert_of_lookup hx _ _).mpr (mem_iff_lookup.mpr ⟨x, hx⟩)
  · intro e he
    exact h.keys e ((mem_insert_of_lookup hx _ e).mp he)
  · intro e y hy hf
    obtain ⟨rfl, -⟩ | ⟨-, hy⟩ := hentry hy
    · rfl
    · exact h.unfenced hy hf
  · intro h'
    refine (h.held h').trans ⟨?_, ?_⟩
    · rintro ⟨y, hy, hf, hh⟩
      obtain rfl := Option.some.inj (hx.symm.trans hy)
      exact ⟨_, ExtTreeMap.getElem?_insert_self, hf, hh⟩
    · rintro ⟨y, hy, hf, hh⟩
      obtain ⟨-, rfl⟩ | ⟨hne, -⟩ := hentry hy
      · exact ⟨x, hx, hf, hh⟩
      · exact absurd rfl hne
  · intro y hy
    obtain ⟨-, rfl⟩ | ⟨hne, -⟩ := hentry hy
    · rw [length_append, hlength]
      dsimp only
      omega
    · exact absurd rfl hne
  · simp only [InputLedger.accept]
    rw [h.retained, ← drop_append_of_le_length (by have := h.start; omega), drop_drop]
  · simp only [InputLedger.accept]
    rw [h.retained, h.start, length_append, length_append, length_drop]
    omega
  · exact (size_insert_of_lookup hx _).trans_le h.table

omit [WireByte β] [InputCrc] in
theorem active_current {who : H} {epoch : Nat} (h : l.active who epoch = true) : epoch = l.current := by
  simp only [active, Bool.and_eq_true, beq_iff_eq] at h
  exact h.1.1

theorem Kept.call_sound {k : Kept H β} (h : Sound k.ledger k.taken) (c : Call H β) :
    Sound (k.call c).ledger (k.call c).taken := by
  cases c with
  | fresh who requestId =>
    obtain ⟨-, heq⟩ | ⟨-, heq⟩ := fresh_cases k.ledger who requestId
    · rw [Kept.call, heq]
      exact h
    · rw [Kept.call, heq]
      exact h.congr rfl rfl rfl rfl rfl rfl rfl rfl
  | acquire who =>
    rw [Kept.call]
    split
    next hg => exact h.acquire hg
    · exact h
  | release who epoch =>
    obtain ⟨-, heq⟩ | ⟨-, heq⟩ := release_cases k.ledger who epoch
    · rw [Kept.call, heq]
      exact h.fence []
    · rw [Kept.call, heq]
      exact h
  | reclaim who epoch =>
    obtain ⟨revokees, heq⟩ := reclaim_eq k.ledger who epoch
    rw [Kept.call, heq]
    exact h.congr rfl rfl rfl rfl rfl rfl rfl rfl
  | write who epoch start bytes crc =>
    have hlimit := write_inputLimit h.inputLimit who epoch start bytes crc
    have hout := write_outcome k.ledger who epoch start bytes crc
    rw [Kept.call]
    generalize hw : k.ledger.write who epoch start bytes crc = result at hlimit hout
    obtain ⟨l', r⟩ := result
    cases hout with
    | stale | refused | gap | full => exact h
    | fence => exact h.fence []
    | accept x hact hx hle hlt =>
      obtain rfl := active_current hact
      exact h.accept hx hle hlt hlimit
    | again x hact hx hle =>
      obtain rfl := active_current hact
      have htaken := h.accepted hx
      dsimp only
      rw [drop_eq_nil_of_le (by omega), append_nil]
      exact h
  | pushVtReply bytes => exact h.pushVtReply bytes
  | onWritten n => exact h.onWritten n
  | onDead => exact h.onDead

/-- The counters of a ledger are right after any calls. -/
theorem rep_of_calls (calls : List (Call H β)) :
    Rep (calls.foldl Kept.call ({} : Kept H β)).ledger (calls.foldl Kept.call ({} : Kept H β)).taken := by
  have hsound : ∀ k : Kept H β, Sound k.ledger k.taken →
      Sound (calls.foldl Kept.call k).ledger (calls.foldl Kept.call k).taken := by
    induction calls with
    | nil => exact fun _ h => h
    | cons c calls ih => exact fun k h => ih (k.call c) (Kept.call_sound h c)
  exact (hsound {} sound_new).rep

end Calls

end InputLedger
end Ferryx
