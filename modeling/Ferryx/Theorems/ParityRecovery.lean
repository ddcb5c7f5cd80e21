import Ferryx.Rd.Fec

/-! # What the parities of a frame repair -/

namespace Ferryx.Rd
open List

section
variable {w : Nat} {ι : Type*} (f : ι → BitVec w)

def xorOf (l : List ι) : BitVec w := l.foldr (fun i x => f i ^^^ x) 0

theorem foldl_xor (l : List ι) (x : BitVec w) : l.foldl (fun x i => x ^^^ f i) x = x ^^^ xorOf f l := by
  induction l generalizing x with
  | nil => simp [xorOf]
  | cons i l ih => rw [foldl_cons, ih, BitVec.xor_assoc]; rfl

theorem xorOf_cancel (p : ι → Bool) (l : List ι) : xorOf f l ^^^ xorOf f (l.filter (!p ·)) = xorOf f (l.filter p) := by
  induction l with
  | nil => simp [xorOf]
  | cons i l ih =>
    have hcons : ∀ l, xorOf f (i :: l) = f i ^^^ xorOf f l := fun _ => rfl
    cases hp : p i with
    | true => simp [hp, hcons, ← ih, BitVec.xor_assoc]
    | false =>
      have hself : f i ^^^ xorOf f l ^^^ (f i ^^^ xorOf f (l.filter (!p ·)))
          = f i ^^^ f i ^^^ (xorOf f l ^^^ xorOf f (l.filter (!p ·))) := by ac_rfl
      simpa [hp, hcons, hself] using ih

end

/-- A byte of a chunk, or zero past its end. -/
def cell (bytes : ChunkBytes) (j : Nat) : BitVec 8 := bytes.getD j 0

theorem cell_replicate (n j : Nat) : cell (replicate n 0) j = 0 := by
  rw [cell, getD_eq_getElem?_getD, getElem?_replicate]
  split <;> rfl

theorem length_xorInto (target source : ChunkBytes) : (xorInto target source).length = target.length := by
  fun_induction xorInto target source with
  | case1 t target s source ih => simp [ih]
  | case2 target source h => rfl

theorem cell_xorInto {target source : ChunkBytes} (h : source.length ≤ target.length) (j : Nat) :
    cell (xorInto target source) j = cell target j ^^^ cell source j := by
  induction target generalizing source j with
  | nil =>
    rw [length_eq_zero_iff.mp (Nat.le_zero.mp h)]
    simp [xorInto, cell]
  | cons t target ih =>
    cases source with
    | nil => simp [xorInto, cell]
    | cons s source =>
      cases j with
      | zero => rfl
      | succ j => exact ih (Nat.le_of_succ_le_succ h) j

theorem eq_append_zeros {bytes padded : ChunkBytes} (hcell : ∀ j, cell padded j = cell bytes j)
    (hle : bytes.length ≤ padded.length) :
    padded = bytes ++ replicate (padded.length - bytes.length) 0 := by
  refine ext_getElem (by simp; omega) fun j hj _ => ?_
  have hj' := hcell j
  simp only [cell, getD_eq_getElem?_getD, getElem?_eq_getElem hj, Option.getD_some] at hj'
  rw [hj', getElem_append]
  split
  next h => simp [h]
  next h => simp [getElem?_eq_none (Nat.not_lt.mp h)]

section
variable (c : Nat → ChunkBytes) (lost : Nat → Bool) {present : Nat → Option ChunkBytes} {l : List Nat} {d : ChunkBytes}

theorem foldl_xorInto (h : ∀ i ∈ l, (c i).length ≤ d.length) : (l.foldl (fun d i => xorInto d (c i)) d).length = d.length ∧
    ∀ j, cell (l.foldl (fun d i => xorInto d (c i)) d) j = cell d j ^^^ xorOf (fun i => cell (c i) j) l := by
  induction l generalizing d with
  | nil => simp [xorOf]
  | cons i l ih =>
    have hlength := length_xorInto d (c i)
    obtain ⟨hfold, hcell⟩ := ih fun k hk => hlength ▸ h k (mem_cons_of_mem _ hk)
    refine ⟨hfold.trans hlength, fun j => ?_⟩
    rw [foldl_cons, hcell, cell_xorInto (h i mem_cons_self), BitVec.xor_assoc]
    rfl

theorem foldlM_absorb (r : Recovering) (hp : ∀ i ∈ l, present i = if lost i then none else some (c i))
    (hfit : ∀ i ∈ l, (c i).length ≤ r.data.length) :
      l.foldlM (absorb present) r = if (r.missing.toList ++ l.filter lost).length ≤ 1 then
        some ⟨(r.missing.toList ++ l.filter lost).head?, (l.filter (!lost ·)).foldl (fun d i => xorInto d (c i)) r.data,
          (l.filter (!lost ·)).foldl (fun x i => x ^^^ BitVec.ofNat 16 (c i).length) r.length⟩
      else none := by
  induction l generalizing r with
  | nil => cases r with | mk missing => cases missing <;> simp
  | cons i l ih =>
    have hrest : ∀ k ∈ l, present k = if lost k then none else some (c k) := fun k hk => hp k (mem_cons_of_mem _ hk)
    have hfit' : ∀ k ∈ l, (c k).length ≤ r.data.length := fun k hk => hfit k (mem_cons_of_mem _ hk)
    rw [foldlM_cons, absorb, hp i mem_cons_self]
    by_cases hi : lost i
    · rcases hm : r.missing with _ | m
      · simpa [hi, hm] using ih { r with missing := some i } hrest hfit'
      · simp [hi]
    · have hih := ih { r with data := xorInto r.data (c i), length := r.length ^^^ BitVec.ofNat 16 (c i).length } hrest
        (length_xorInto r.data (c i) ▸ hfit')
      have hle : ¬ (c i).length > r.data.length := Nat.not_lt.mpr (hfit i mem_cons_self)
      simpa [hi, hle] using hih

/-- A parity whose cells and length are those of a stripe gives back the only lost chunk of the stripe. -/
theorem recoverChunk_eq_some_iff {q : FrameParity} {n m : Nat} {bytes : ChunkBytes}
    (hlength : q.lengthXor = xorOf (fun i => BitVec.ofNat 16 (c i).length) (q.covered n))
    (hcell : ∀ j, cell q.data j = xorOf (fun i => cell (c i) j) (q.covered n))
      (hfit : ∀ i ∈ q.covered n, (c i).length ≤ q.data.length)
    (hc : ∀ i ∈ q.covered n, 0 < (c i).length ∧ (c i).length < 2 ^ 16)
    (hp : ∀ i ∈ q.covered n, present i = if lost i then none else some (c i)) :
    recoverChunk q n present = some (m, bytes) ↔ (q.covered n).filter lost = [m] ∧ bytes = c m := by
  rw [recoverChunk, foldlM_absorb c lost _ hp hfit]
  rcases hl : (q.covered n).filter lost with _ | ⟨a, _ | ⟨b, l⟩⟩
  · simp
  · -- what the received chunks leave of the parity is the lost one, padded
    have ha : a ∈ q.covered n := mem_of_mem_filter (hl ▸ mem_singleton_self a)
    obtain ⟨hDlength, hDcell⟩ := foldl_xorInto c (d := q.data) fun i hi => hfit i (mem_of_mem_filter (p := (!lost ·)) hi)
    generalize ((q.covered n).filter (!lost ·)).foldl (fun d i => xorInto d (c i)) q.data = D at hDlength hDcell ⊢
    have hD : D = c a ++ replicate (D.length - (c a).length) 0 := by
      refine eq_append_zeros (fun j => ?_) (hDlength ▸ hfit a ha)
      rw [hDcell, hcell, xorOf_cancel, hl]
      simp [xorOf]
    have htake : D.take (c a).length = c a := by
      rw [hD]
      simp
    have hzeros : ∀ b ∈ D.drop (c a).length, b = 0#8 := by
      rw [hD]
      simp
    have hleft :
        (((q.covered n).filter (!lost ·)).foldl (fun x i => x ^^^ BitVec.ofNat 16 (c i).length) q.lengthXor).toNat =
        (c a).length := by
      rw [foldl_xor (fun i => BitVec.ofNat 16 (c i).length), hlength, xorOf_cancel, hl]
      simpa [xorOf] using (hc a ha).2
    simp only [Option.toList_none, nil_append, length_singleton, Nat.le_refl, if_true, head?_cons, Option.bind_eq_bind,
      Option.bind_some, hleft]
    rw [if_neg (by simpa [Nat.ne_of_gt (hc a ha).1, hDlength, hfit a ha] using hzeros), htake]
    constructor
    · rintro ⟨⟩
      exact ⟨rfl, rfl⟩
    · rintro ⟨⟨⟩, rfl⟩
      rfl
  · simp

end

theorem mem_stripe {p n i stride : Nat} (hp : p < stride) : i ∈ stripe p stride n ↔ i < n ∧ i % stride = p := by
  have hmax : max stride 1 = stride := by omega
  simp only [stripe, mem_filter, mem_range, Bool.and_eq_true, decide_eq_true_eq, beq_iff_eq, hmax]
  refine and_congr_right fun _ => ?_
  constructor
  · rintro ⟨hle, hmod⟩
    have hi : i = p + (i - p) := by omega
    rw [hi, Nat.add_mod, hmod, Nat.add_zero, Nat.mod_mod, Nat.mod_eq_of_lt hp]
  · intro hmod
    have hi := Nat.div_add_mod i stride
    have hsub : i - p = stride * (i / stride) := by omega
    exact ⟨by omega, by rw [hsub, Nat.mul_mod_right]⟩

theorem eq_singleton_of_nodup {α : Type*} {l : List α} {m : α} (hl : l.Nodup) : l = [m] ↔ m ∈ l ∧ ∀ k ∈ l, k = m := by
  constructor
  · rintro rfl
    simp
  · rintro ⟨hm, hall⟩
    rcases l with _ | ⟨a, _ | ⟨b, l⟩⟩
    · exact absurd hm not_mem_nil
    · rw [hall a mem_cons_self]
    · have hab : a = b := (hall a (by simp)).trans (hall b (by simp)).symm
      simp [hab] at hl

def repaired (parities : List FrameParity) (totalChunks : Nat) (present : Nat → Option ChunkBytes) :
    List (Nat × ChunkBytes) :=
  parities.filterMap (recoverChunk · totalChunks present)

section
variable {frameId : UInt32} {chunks : List ChunkBytes} {lost : Nat → Bool} {parityCount i : Nat} {bytes : ChunkBytes}
    (hchunks : ∀ chunk ∈ chunks, 0 < chunk.length ∧ chunk.length ≤ maxVideoChunkBytes)
include hchunks

theorem recoverChunk_parityAt {p : Nat} (hp : p < parityCount) :
    recoverChunk (parityAt frameId chunks parityCount p) chunks.length (fun i => if lost i then none else chunks[i]?) =
      some (i, bytes) ↔
      (stripe p parityCount chunks.length).filter lost = [i] ∧ chunks[i]? = some bytes := by
  let c := fun k => chunks.getD k []
  let l := stripe p parityCount chunks.length
  let zeros : ChunkBytes := replicate (((l.map c).map length).max?.getD 0) 0
  have hget : ∀ k ∈ l, chunks[k]? = some (c k) := by
    intro k hk
    simp [c, getElem?_eq_getElem ((mem_stripe hp).mp hk).1]
  have hzeros : ∀ k ∈ l, (c k).length ≤ zeros.length := by
    intro k hk
    rw [length_replicate]
    exact le_max?_getD_of_mem (mem_map_of_mem (mem_map_of_mem hk))
  have hdata : (parityAt frameId chunks parityCount p).data = l.foldl (fun d k => xorInto d (c k)) zeros := foldl_map
  obtain ⟨hlength, hcell⟩ := foldl_xorInto c hzeros
  rw [recoverChunk_eq_some_iff c lost ?_ ?_ ?_ ?_ ?_]
  · refine and_congr_right fun hl => ?_
    rw [hget i (mem_of_mem_filter (hl ▸ mem_singleton_self i)), Option.some_inj, eq_comm]
  · exact foldl_map.trans ((foldl_xor _ _ _).trans BitVec.zero_xor)
  · intro j
    rw [hdata, hcell, cell_replicate]
    exact BitVec.zero_xor
  · intro k hk
    rw [hdata, hlength]
    exact hzeros k hk
  · intro k hk
    have hbounds := hchunks _ (mem_of_getElem? (hget k hk))
    exact ⟨hbounds.1, hbounds.2.trans_lt (by decide)⟩
  · intro k hk
    rw [hget k hk]

theorem mem_repaired (hcount : 0 < parityCount) :
    (i, bytes) ∈ repaired (buildParity frameId chunks parityCount) chunks.length
      (fun i => if lost i then none else chunks[i]?) ↔
      chunks[i]? = some bytes ∧ lost i ∧ ∀ k < chunks.length, k % parityCount = i % parityCount → lost k → k = i := by
  have hfilter : ∀ p < parityCount, (stripe p parityCount chunks.length).filter lost = [i] ↔
      i < chunks.length ∧ i % parityCount = p ∧ lost i ∧ ∀ k < chunks.length, k % parityCount = p → lost k → k = i := by
    intro p hp
    have hnodup : ((stripe p parityCount chunks.length).filter lost).Nodup := (nodup_range.filter _).filter _
    simp only [eq_singleton_of_nodup hnodup, mem_filter, mem_stripe hp, and_assoc, and_imp]
  simp only [repaired, buildParity, mem_filterMap, mem_map, mem_range]
  constructor
  · rintro ⟨_, ⟨p, hp, rfl⟩, hr⟩
    obtain ⟨hl, hi⟩ := (recoverChunk_parityAt hchunks hp).mp hr
    obtain ⟨-, rfl, hlone⟩ := (hfilter p hp).mp hl
    exact ⟨hi, hlone⟩
  · rintro ⟨hi, hlone⟩
    have hp := Nat.mod_lt i hcount
    have hlt := (List.getElem?_eq_some_iff.mp hi).1
    exact ⟨_, ⟨_, hp, rfl⟩, (recoverChunk_parityAt hchunks hp).mpr ⟨(hfilter _ hp).mpr ⟨hlt, rfl, hlone⟩, hi⟩⟩

end

/-- A chunk lost alone in its group is recovered. -/
theorem parity_repairs_lone_losses (frameId : UInt32) {chunks : List ChunkBytes} {parityCount : Nat}
    (hchunks : ∀ chunk ∈ chunks, 0 < chunk.length ∧ chunk.length ≤ maxVideoChunkBytes) (hcount : 0 < parityCount)
      (lost : Nat → Bool) :
    let result := repaired (buildParity frameId chunks parityCount) chunks.length fun i =>
        if lost i then none else chunks[i]?
    (∀ i bytes, (i, bytes) ∈ result ↔
      chunks[i]? = some bytes ∧ lost i ∧ ∀ k < chunks.length, k % parityCount = i % parityCount → lost k → k = i) ∧
    ∀ first n, n ≤ parityCount → (∀ i, lost i → first ≤ i ∧ i < first + n) →
      ∀ i bytes, chunks[i]? = some bytes → lost i → (i, bytes) ∈ result := by
  refine ⟨fun i bytes => mem_repaired hchunks hcount, fun first n hn hburst i bytes hi hlost => ?_⟩
  refine (mem_repaired hchunks hcount).mpr ⟨hi, hlost, fun k _ hmod hk => ?_⟩
  -- two lost chunks of one stripe are a multiple of the stripe count apart
  have hi' := hburst i hlost
  have hk' := hburst k hk
  have hdvd : (parityCount : Int) ∣ (i : Int) - k := Nat.modEq_iff_dvd.mp hmod
  have hzero := Int.eq_zero_of_abs_lt_dvd hdvd (by rw [abs_lt]; omega)
  omega

def shortAndLong : List ChunkBytes := [[7], [8, 9]]

theorem parity_repairs_lone_losses_short :
    (0, [7]) ∈ repaired (buildParity 1 shortAndLong 1) shortAndLong.length fun i =>
      if i == 0 then none else shortAndLong[i]? :=
  ((parity_repairs_lone_losses 1 (by decide) Nat.one_pos (· == 0)).1 0 [7]).mpr ⟨rfl, rfl, by decide⟩

end Ferryx.Rd
