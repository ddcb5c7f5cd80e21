import Ferryx.Terminal.OutputHub

/-! The mode is read off each published chunk alone. A sequence that one read begins and a later one ends is in no chunk.
So the flag is that of the whole output where no chunk ends inside a sequence that sets the mode (`Uncut`). -/

namespace Ferryx.Terminal
open List

def isModeByte (c : UInt8) : Bool := isDigit c || c == ';'.toUInt8

/-- What a whole sequence `CSI ? … h` or `CSI ? … l` at the start of some output sets bracketed paste to. -/
def settingAt : List UInt8 → Option Bool
  | e :: l :: q :: rest =>
    let final := (rest.dropWhile isModeByte).head?
    if [e, l, q] = [esc, '['.toUInt8, '?'.toUInt8] ∧ (final = some 'h'.toUInt8 ∨ final = some 'l'.toUInt8) ∧
        ascii "2004" ∈ (rest.takeWhile isModeByte).splitOn ';'.toUInt8 then
      some (final = some 'h'.toUInt8)
    else none
  | _ => none

/-- The last setting of the mode in a stream, read from its end. -/
def lastSetting : List UInt8 → Option Bool
  | [] => none
  | b :: bytes => (lastSetting bytes).or (settingAt (b :: bytes))

/-- No chunk ends inside a sequence that sets the mode. -/
def Uncut : List (List UInt8) → Prop
  | [] => True
  | c :: cs => (∀ s ∈ c.tails, s ≠ [] → settingAt s = none → settingAt (s ++ cs.flatten) = none) ∧ Uncut cs

variable {bytes s t : List UInt8}

theorem settingAt_of_ne_esc {b : UInt8} (hb : b ≠ esc) (bytes : List UInt8) : settingAt (b :: bytes) = none := by
  unfold settingAt
  split
  next heq =>
    cases heq
    simp [hb]
  · rfl

theorem settingAt_append (h : settingAt s ≠ none) (t : List UInt8) : settingAt (s ++ t) = settingAt s := by
  unfold settingAt at h
  split at h
  next e l q rest =>
    have hrest : rest.dropWhile isModeByte ≠ [] := by
      intro hnil
      simp [hnil] at h
    have htake : (rest ++ t).takeWhile isModeByte = rest.takeWhile isModeByte := by
      rw [takeWhile_append, if_neg]
      intro hlen
      refine hrest (dropWhile_eq_nil_iff.mpr fun c hc => ?_)
      rw [← (List.takeWhile_prefix isModeByte).eq_of_length hlen] at hc
      exact mem_takeWhile_imp hc
    have hdrop : ((rest ++ t).dropWhile isModeByte).head? = (rest.dropWhile isModeByte).head? := by
      rw [dropWhile_append, if_neg (by simpa using hrest), head?_append_of_ne_nil _ hrest]
    simp only [settingAt, cons_append, htake, hdrop]
  · exact absurd rfl h

theorem mem_intersperse {parts : List (List UInt8)} {part : List UInt8} (h : part ∈ parts) (sep : List UInt8) :
    part ∈ parts.intersperse sep := by
  induction parts with
  | nil => exact h
  | cons p parts ih =>
    cases parts with
    | nil => exact h
    | cons q parts =>
      rw [intersperse_cons_cons]
      rcases mem_cons.mp h with rfl | h
      · exact mem_cons_self
      · exact mem_cons_of_mem p (mem_cons_of_mem sep (ih h))

theorem mem_of_mem_splitOn {part : List UInt8} {x y : UInt8} (hp : part ∈ s.splitOn x) (hy : y ∈ part) : y ∈ s := by
  rw [← (intercalate_splitOn x : [x].intercalate (s.splitOn x) = s)]
  exact mem_flatten.mpr ⟨part, mem_intersperse hp [x], hy⟩

theorem settingAt_of_not_mem (h : '2'.toUInt8 ∉ s) : settingAt s = none := by
  unfold settingAt
  split
  next e l q rest =>
    refine if_neg fun hset => h ?_
    have hmem : '2'.toUInt8 ∈ rest.takeWhile isModeByte := mem_of_mem_splitOn hset.2.2 (by decide +kernel)
    simp [(takeWhile_sublist isModeByte).mem hmem]
  · rfl

theorem lastSetting_of_not_mem (h : '2'.toUInt8 ∉ s) : lastSetting s = none := by
  induction s with
  | nil => rfl
  | cons b s ih => rw [lastSetting, ih fun hs => h (mem_cons_of_mem b hs), settingAt_of_not_mem h, Option.or_none]

theorem lastSetting_append_of_not_mem (h : esc ∉ s) : lastSetting (s ++ t) = lastSetting t := by
  induction s with
  | nil => rfl
  | cons b s ih =>
    rw [mem_cons, not_or] at h
    rw [cons_append, lastSetting, settingAt_of_ne_esc (Ne.symm h.1), Option.or_none, ih h.2]

theorem scanModeFrom_eq {fuel : Nat} (hf : s.length ≤ fuel) (last : Option Bool) :
    scanModeFrom fuel s last = (lastSetting s).or last := by
  induction fuel generalizing s last with
  | zero =>
    obtain rfl := length_eq_zero_iff.mp (Nat.le_zero.mp hf)
    rfl
  | succ fuel ih =>
    cases s with
    | nil => rfl
    | cons b bytes =>
      have hlen : bytes.length ≤ fuel := Nat.le_of_succ_le_succ hf
      -- Where no whole sequence starts, the scan goes on with the next byte.
      have hnext (hat : settingAt (b :: bytes) = none) :
          scanModeFrom fuel bytes last = (lastSetting (b :: bytes)).or last := by
        rw [ih hlen, lastSetting, hat, Option.or_none]
      rw [scanModeFrom]
      by_cases hp : [esc, '['.toUInt8, '?'.toUInt8].isPrefixOf (b :: bytes) = true
      · obtain ⟨rest, hrest⟩ := isPrefixOf_iff_prefix.mp hp
        obtain rfl : esc = b := (cons.inj hrest).1
        obtain rfl : '['.toUInt8 :: '?'.toUInt8 :: rest = bytes := (cons.inj hrest).2
        rw [if_pos hp]
        simp only [drop_succ_cons, drop_zero]
        split
        next final after hdrop =>
          replace hdrop : rest.dropWhile isModeByte = final :: after := hdrop
          by_cases hfinal : final = 'h'.toUInt8 ∨ final = 'l'.toUInt8
          · -- The sequence is skipped: no other one starts inside it.
            have hsplit : rest = rest.takeWhile isModeByte ++ final :: after := by
              rw [← hdrop, takeWhile_append_dropWhile]
            have hno : esc ∉ '['.toUInt8 :: '?'.toUInt8 :: (rest.takeWhile isModeByte ++ [final]) := by
              simp only [mem_cons, mem_append, not_mem_nil, or_false, not_or]
              refine ⟨by decide, by decide, fun h => ?_, ?_⟩
              · exact absurd (mem_takeWhile_imp h) (by decide)
              · rcases hfinal with rfl | rfl <;> decide
            have hskip := lastSetting_append_of_not_mem (t := after) hno
            simp only [cons_append, append_assoc, nil_append, ← hsplit] at hskip
            have hlt : after.length ≤ fuel := by
              have := congrArg length hsplit
              simp only [length_cons, length_append] at this hlen
              omega
            simp only [if_pos hfinal]
            rw [ih hlt, lastSetting, hskip]
            change (lastSetting after).or (if ((rest.takeWhile isModeByte).splitOn ';'.toUInt8).contains (ascii "2004") then
              _ else _) = _
            by_cases hnamed : ascii "2004" ∈ (rest.takeWhile isModeByte).splitOn ';'.toUInt8 <;>
              simp [settingAt, hdrop, hfinal, hnamed]
          · simp only [if_neg hfinal]
            exact hnext (by simp [settingAt, hdrop, hfinal])
        next hdrop =>
          replace hdrop : rest.dropWhile isModeByte = [] := hdrop
          exact hnext (by simp [settingAt, hdrop])
      · rw [if_neg hp]
        refine hnext ?_
        unfold settingAt
        split
        next e l q rest heq =>
          rw [heq] at hp
          refine if_neg fun h => hp ?_
          obtain ⟨rfl, rfl, rfl⟩ : e = esc ∧ l = '['.toUInt8 ∧ q = '?'.toUInt8 := by simpa using h.1
          simp
        · rfl

theorem scanDecMode2004_eq (bytes : List UInt8) : scanDecMode2004 bytes = lastSetting bytes := by
  unfold scanDecMode2004
  split
  · rw [scanModeFrom_eq (le_refl _), Option.or_none]
  next h => exact (lastSetting_of_not_mem (by simpa using h)).symm

theorem lastSetting_append (h : ∀ u ∈ s.tails, u ≠ [] → settingAt u = none → settingAt (u ++ t) = none) :
    lastSetting (s ++ t) = (lastSetting t).or (lastSetting s) := by
  induction s with
  | nil => simp [lastSetting]
  | cons b s ih =>
    have hat : settingAt (b :: s ++ t) = settingAt (b :: s) := by
      by_cases hb : settingAt (b :: s) = none
      · rw [hb, h _ (by simp) (cons_ne_nil b s) hb]
      · exact settingAt_append hb t
    have htail := ih fun u hu => h u (by simp [hu])
    rw [cons_append, lastSetting, ← cons_append, htail, hat, lastSetting, Option.or_assoc]

theorem foldl_scan {cs : List (List UInt8)} (h : Uncut cs) (v : Bool) :
    cs.foldl (fun v c => (scanDecMode2004 c).getD v) v = (lastSetting cs.flatten).getD v := by
  induction cs generalizing v with
  | nil => rfl
  | cons c cs ih =>
    rw [foldl_cons, ih h.2, scanDecMode2004_eq, flatten_cons, lastSetting_append h.1]
    cases lastSetting cs.flatten <;> rfl

namespace Feed
variable {σ : Type} [ScreenMirror σ]

def published : HubOp → List (List UInt8)
  | .publish bytes _ => [bytes]
  | _ => []

theorem enabled_step (f : Feed σ) (op : HubOp) : (f.step op).hub.isBracketedPasteEnabled =
      (published op).foldl (fun v c => (scanDecMode2004 c).getD v) f.hub.isBracketedPasteEnabled := by
  cases op with
  | publish bytes micros =>
    simp only [step, SessionHub.publish, BoundedBuffer.pushWithReadTimestamp, published, foldl_cons, foldl_nil]
    by_cases hb : bytes = []
    · rw [if_pos hb, hb]
      rfl
    · rw [if_neg hb]
      rfl
  | publishGap => rfl
  | recordInitialSize cols rows =>
    simp only [step, SessionHub.recordInitialSize]
    split <;> rfl
  | recordResize cols rows => rfl

/-- The paste mode is the last setting in the stream, if no chunk ends within one. -/
theorem paste_ignores_cuts (capacity : Nat) (retention : RetentionBudget) (ops : List HubOp)
    (h : Uncut (ops.flatMap published)) :
    (run capacity retention ops : Feed σ).hub.isBracketedPasteEnabled = (lastSetting (ops.flatMap published).flatten).getD
      false := by
  rw [← foldl_scan h]
  clear h
  induction ops using reverseRecOn with
  | nil => rfl
  | append_singleton ops op ih =>
    rw [run, foldl_append, foldl_cons, foldl_nil, enabled_step, flatMap_append, foldl_append,
      flatMap_singleton, ← ih]
    rfl

@[reducible] def noScreen : ScreenMirror Unit :=
  ⟨fun _ _ => none, fun s _ => s, fun s _ => s, fun s _ _ => s, fun _ => false, fun _ => none⟩

/-- Two reads that cut the sequence which switches bracketed paste on. -/
def cutReads : List HubOp := [.publish ([esc] ++ ascii "[?20") none, .publish (ascii "04h") none]

/-- The sequence is read whole, and its end once more as text. -/
def wholeReads : List HubOp := [.publish ([esc] ++ ascii "[?2004h") none, .publish (ascii "04h") none]

theorem paste_ignores_cuts_wholeReads : (@run Unit noScreen 64 ⟨64, 64⟩ wholeReads).hub.isBracketedPasteEnabled = true :=
  (@paste_ignores_cuts Unit noScreen 64 ⟨64, 64⟩ wholeReads ⟨by decide +kernel, by decide +kernel, trivial⟩).trans
    (by decide +kernel)

theorem paste_missed_at_cut : (@run Unit noScreen 64 ⟨64, 64⟩ cutReads).hub.isBracketedPasteEnabled = false ∧
    lastSetting (cutReads.flatMap published).flatten = some true := by
  decide +kernel

end Feed
end Ferryx.Terminal
