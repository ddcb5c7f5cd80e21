import Ferryx.Lib.BigEndian

/-!
# Decoders of bytes, and the encoders they invert

A decoder inverts an encoder (`Inverts`) if it reads back every valid value, whatever follows, and accepts only what the
encoder writes. Length fields have a fixed width, so the first part is for encodings shorter than a `limit`.
-/

namespace Ferryx.Lib
open List

abbrev Decoder (ε α : Type) := StateT (List UInt8) (Except ε) α

variable {ε α β : Type} {limit : Nat}

namespace Decoder

theorem bind_ok {x : Decoder ε α} {f : α → Decoder ε β} {s t : List UInt8} {b : β} :
    (x >>= f) s = .ok (b, t) ↔ ∃ a r, x s = .ok (a, r) ∧ f a r = .ok (b, t) := by
  show (x s >>= fun p => f p.1 p.2) = .ok (b, t) ↔ _
  cases x s with
  | error e => exact ⟨fun h => (nomatch h), fun ⟨_, _, h, _⟩ => (nomatch h)⟩
  | ok p => exact ⟨fun h => ⟨p.1, p.2, rfl, h⟩, fun ⟨_, _, h, hf⟩ => by cases h; exact hf⟩

theorem bind_of_ok {x : Decoder ε α} {f : α → Decoder ε β} {s r : List UInt8} {a : α} (h : x s = .ok (a, r)) :
    (x >>= f) s = f a r := by
  show (x s >>= fun p => f p.1 p.2) = _
  rw [h]
  rfl

theorem pure_ok {a b : α} {s t : List UInt8} : (pure a : Decoder ε α) s = .ok (b, t) ↔ a = b ∧ s = t := by
  show Except.ok (a, s) = .ok (b, t) ↔ _
  simp

def take (err : ε) (n : Nat) : Decoder ε (List UInt8) := fun s =>
  if s.length < n then .error err else .ok (s.take n, s.drop n)

theorem take_append (err : ε) (s rest : List UInt8) : take err s.length (s ++ rest) = .ok (s, rest) := by
  simp [take]

theorem take_ok {err : ε} {n : Nat} {s t bs : List UInt8} (h : take err n s = .ok (bs, t)) : s = bs ++ t ∧
    bs.length = n := by
  unfold take at h
  split at h
  · cases h
  next hlen =>
    cases h
    exact ⟨(take_append_drop n s).symm, length_take_of_le (Nat.le_of_not_lt hlen)⟩

def array (err : ε) (n : Nat) : Decoder ε { bs : List UInt8 // bs.length = n } := fun s =>
  if h : n ≤ s.length then .ok (⟨s.take n, List.length_take_of_le h⟩, s.drop n) else .error err

def nat (err : ε) (k : Nat) : Decoder ε Nat := do
  let bs ← take err k
  pure (beValue bs)

def ofOption (err : ε) : Option α → Decoder ε α
  | some a => pure a
  | none => throw err

def check (c : Except ε Unit) : Decoder ε Unit := fun s => c.map fun _ => ((), s)

theorem check_ok {c : Except ε Unit} {u : Unit} {s t : List UInt8} : check c s = .ok (u, t) ↔ c.isOk = true ∧ s = t := by
  cases c with
  | error e => exact ⟨fun h => (nomatch h), fun h => (nomatch h.1)⟩
  | ok v =>
    show Except.ok ((), s) = .ok (u, t) ↔ _
    simp [Except.isOk, Except.toBool]

def times (x : Decoder ε α) : Nat → Decoder ε (List α)
  | 0 => pure []
  | n + 1 => do
    let a ← x
    let as ← times x n
    pure (a :: as)

end Decoder

open Decoder

/-- The decoder `dec` reads what the encoder `enc` writes for the valid values, and nothing else. -/
structure Inverts (limit : Nat) (valid : α → Bool) (enc : α → List UInt8) (dec : Decoder ε α) : Prop where
  reads : ∀ {a}, valid a = true → (enc a).length < limit → ∀ rest, dec (enc a ++ rest) = .ok (a, rest)
  canonical : ∀ {s a rest}, dec s = .ok (a, rest) → valid a = true ∧ s = enc a ++ rest
  nonempty : ∀ a, enc a ≠ []

namespace Inverts
variable {va : α → Bool} {ea : α → List UInt8} {da : Decoder ε α} {vb : β → Bool} {eb : β → List UInt8} {db : Decoder ε β}

section
variable (ha : Inverts limit va ea da)
include ha

theorem prod (hb : Inverts limit vb eb db) :
    Inverts limit (fun p : α × β => va p.1 && vb p.2) (fun p => ea p.1 ++ eb p.2) (do
      let a ← da
      let b ← db
      pure (a, b)) where
  reads {p} hv hlen rest := by
    rw [Bool.and_eq_true] at hv
    rw [length_append] at hlen
    rw [append_assoc, bind_of_ok (ha.reads hv.1 (by omega) _), bind_of_ok (hb.reads hv.2 (by omega) _)]
    rfl
  canonical {s p rest} h := by
    obtain ⟨a, r, hda, h⟩ := bind_ok.mp h
    obtain ⟨b, t, hdb, h⟩ := bind_ok.mp h
    obtain ⟨rfl, rfl⟩ := pure_ok.mp h
    obtain ⟨hva, rfl⟩ := ha.canonical hda
    obtain ⟨hvb, rfl⟩ := hb.canonical hdb
    exact ⟨by rw [hva, hvb]; rfl, (append_assoc ..).symm⟩
  nonempty p h := ha.nonempty p.1 (append_eq_nil_iff.mp h).1

theorem iso (fields : β → α) (make : α → β) (hfm : ∀ {a}, va a = true → fields (make a) = a)
    (hmf : ∀ b, make (fields b) = b) : Inverts limit (fun b => va (fields b)) (fun b => ea (fields b)) (do
      let a ← da
      pure (make a)) where
  reads {b} hv hlen rest := by
    rw [bind_of_ok (ha.reads hv hlen rest), hmf]
    rfl
  canonical {s b rest} h := by
    obtain ⟨a, r, hda, h⟩ := bind_ok.mp h
    obtain ⟨rfl, rfl⟩ := pure_ok.mp h
    obtain ⟨hva, rfl⟩ := ha.canonical hda
    rw [hfm hva]
    exact ⟨hva, rfl⟩
  nonempty b := ha.nonempty (fields b)

theorem congr {v : α → Bool} {e : α → List UInt8} (hv : ∀ a, v a = va a) (he : ∀ a, e a = ea a) : Inverts limit v e da := by
  rw [funext hv, funext he]
  exact ha

/-- The same values under another type, with a check of their own. -/
theorem record {fields : β → α} {make : α → β} (hfm : ∀ {a}, va a = true → fields (make a) = a)
    (hmf : ∀ b, make (fields b) = b) (rule : β → Except ε Unit) :
    Inverts limit (fun b => va (fields b) && (rule b).isOk) (fun b => ea (fields b)) (do
      let a ← da
      Decoder.check (rule (make a))
      pure (make a)) where
  reads {b} hv hlen rest := by
    rw [Bool.and_eq_true] at hv
    rw [bind_of_ok (ha.reads hv.1 hlen rest), hmf, bind_of_ok (check_ok (u := ()) |>.mpr ⟨hv.2, rfl⟩)]
    rfl
  canonical {s b rest} h := by
    obtain ⟨a, r, hda, h⟩ := bind_ok.mp h
    obtain ⟨u, t, hc, h⟩ := bind_ok.mp h
    obtain ⟨rfl, rfl⟩ := pure_ok.mp h
    obtain ⟨hok, rfl⟩ := check_ok.mp hc
    obtain ⟨hva, rfl⟩ := ha.canonical hda
    rw [hfm hva, hva, hok]
    exact ⟨rfl, rfl⟩
  nonempty b := ha.nonempty (fields b)

end

theorem lookup (ha : Inverts limit (fun _ => true) ea da) (code : β → α) (find : α → Option β)
    (hfind : ∀ b, find (code b) = some b)
    (hcode : ∀ {a b}, find a = some b → code b = a) (err : ε) :
    Inverts limit (fun _ : β => true) (fun b => ea (code b)) (do
      let a ← da
      Decoder.ofOption err (find a)) where
  reads {b} _ hlen rest := by
    rw [bind_of_ok (ha.reads rfl hlen rest), hfind]
    rfl
  canonical {s b rest} h := by
    obtain ⟨a, r, hda, hfound⟩ := bind_ok.mp h
    obtain ⟨-, rfl⟩ := ha.canonical hda
    cases hf : find a with
    | none =>
      rw [hf] at hfound
      cases hfound
    | some b' =>
      rw [hf] at hfound
      obtain ⟨rfl, rfl⟩ := pure_ok.mp hfound
      rw [hcode hf]
      exact ⟨rfl, rfl⟩
  nonempty b := ha.nonempty (code b)

theorem tagged {byte : Decoder ε UInt8} (hb : Inverts limit (fun _ => true) (fun b => [b]) byte) (tag : α → UInt8)
    (body : α → List UInt8) {alt : UInt8 → Decoder ε α}
    (hreads : ∀ {a}, va a = true → (body a).length < limit → ∀ rest, alt (tag a) (body a ++ rest) = .ok (a, rest))
    (hcan : ∀ {t s a rest}, alt t s = .ok (a, rest) → va a = true ∧ tag a = t ∧ s = body a ++ rest) :
    Inverts limit va (fun a => tag a :: body a) (do
      let t ← byte
      alt t) where
  reads {a} hv hlen rest := by
    rw [length_cons] at hlen
    have htag := hb.reads (a := tag a) rfl (by rw [length_singleton]; omega) (body a ++ rest)
    rw [cons_append, ← singleton_append, bind_of_ok htag]
    exact hreads hv (by omega) rest
  canonical {s a rest} h := by
    obtain ⟨t, r, hbyte, halt⟩ := bind_ok.mp h
    obtain ⟨-, rfl⟩ := hb.canonical hbyte
    obtain ⟨hv, rfl, rfl⟩ := hcan halt
    exact ⟨hv, rfl⟩
  nonempty a := cons_ne_nil _ _

theorem nat (err : ε) {k : Nat} (hk : 0 < k) : Inverts limit (fun v => decide (v < 256 ^ k)) (beBytes k)
    (Decoder.nat err k) where
  reads {v} hv _ rest := by
    have htake := take_append err (beBytes k v) rest
    rw [length_beBytes] at htake
    rw [Decoder.nat, bind_of_ok htake, beValue_beBytes, Nat.mod_eq_of_lt (of_decide_eq_true hv)]
    rfl
  canonical {s v rest} h := by
    obtain ⟨bs, r, htake, hpure⟩ := bind_ok.mp h
    obtain ⟨rfl, rfl⟩ := pure_ok.mp hpure
    obtain ⟨rfl, rfl⟩ := take_ok htake
    exact ⟨decide_eq_true (beValue_lt bs), by rw [beBytes_beValue]⟩
  nonempty v h := by
    have hlen := congrArg length h
    rw [length_beBytes, length_nil] at hlen
    omega

theorem array (err : ε) {n : Nat} (hn : 0 < n) : Inverts limit (fun _ => true) Subtype.val (Decoder.array err n) where
  reads {a} _ _ rest := by
    obtain ⟨bs, rfl⟩ := a
    simp [Decoder.array]
  canonical {s a rest} h := by
    unfold Decoder.array at h
    split at h
    · cases h
      exact ⟨rfl, (take_append_drop n s).symm⟩
    · cases h
  nonempty a h := by
    have hlen := a.2
    rw [h, length_nil] at hlen
    omega

section Counted
variable {count : Nat → List UInt8} {dn : Decoder ε Nat} (hc : Inverts limit (fun n => decide (n < limit)) count dn)
include hc

theorem bytes (err : ε) : Inverts limit (fun _ => true) (fun bs : List UInt8 => count bs.length ++ bs) (do
    let n ← dn
    take err n) where
  reads {bs} _ hlen rest := by
    rw [length_append] at hlen
    have hn := hc.reads (a := bs.length) (decide_eq_true (by omega)) (by omega) (bs ++ rest)
    rw [append_assoc, bind_of_ok hn]
    exact take_append err bs rest
  canonical {s bs rest} h := by
    obtain ⟨n, r, hn, htake⟩ := bind_ok.mp h
    obtain ⟨-, rfl⟩ := hc.canonical hn
    obtain ⟨rfl, rfl⟩ := take_ok htake
    exact ⟨rfl, (append_assoc ..).symm⟩
  nonempty bs h := hc.nonempty _ (append_eq_nil_iff.mp h).1

omit hc in
theorem times_reads (ha : Inverts limit va ea da) {as : List α} (hv : as.all va = true)
    (hlen : (as.flatMap ea).length < limit)
    (rest : List UInt8) : times da as.length (as.flatMap ea ++ rest) = .ok (as, rest) := by
  induction as with
  | nil => rfl
  | cons a as ih =>
    rw [all_cons, Bool.and_eq_true] at hv
    rw [flatMap_cons, length_append] at hlen
    rw [flatMap_cons, append_assoc, length_cons, times, bind_of_ok (ha.reads hv.1 (by omega) _),
      bind_of_ok (ih hv.2 (by omega))]
    rfl

omit hc in
theorem times_canonical (ha : Inverts limit va ea da) {n : Nat} {s rest : List UInt8} {as : List α}
    (h : times da n s = .ok (as, rest)) : as.length = n ∧ as.all va = true ∧ s = as.flatMap ea ++ rest := by
  induction n generalizing s as with
  | zero =>
    obtain ⟨rfl, rfl⟩ := pure_ok.mp h
    exact ⟨rfl, rfl, rfl⟩
  | succ n ih =>
    obtain ⟨a, r, hda, h⟩ := bind_ok.mp h
    obtain ⟨as', t, htimes, h⟩ := bind_ok.mp h
    obtain ⟨rfl, rfl⟩ := pure_ok.mp h
    obtain ⟨hva, rfl⟩ := ha.canonical hda
    obtain ⟨rfl, hall, rfl⟩ := ih htimes
    exact ⟨rfl, by rw [all_cons, hva, hall]; rfl, by rw [flatMap_cons, append_assoc]⟩

omit hc in
theorem length_le_flatMap (ha : Inverts limit va ea da) (as : List α) : as.length ≤ (as.flatMap ea).length := by
  induction as with
  | nil => exact le_rfl
  | cons a as ih =>
    have hpos := length_pos_iff.mpr (ha.nonempty a)
    rw [flatMap_cons, length_append, length_cons]
    omega

theorem counted (ha : Inverts limit va ea da) :
    Inverts limit (fun as : List α => as.all va) (fun as => count as.length ++ as.flatMap ea) (do
      let n ← dn
      times da n) where
  reads {as} hv hlen rest := by
    rw [length_append] at hlen
    have hle := ha.length_le_flatMap as
    have hn := hc.reads (a := as.length) (decide_eq_true (by omega)) (by omega) (as.flatMap ea ++ rest)
    rw [append_assoc, bind_of_ok hn]
    exact ha.times_reads hv (by omega) rest
  canonical {s as rest} h := by
    obtain ⟨n, r, hn, htimes⟩ := bind_ok.mp h
    obtain ⟨-, rfl⟩ := hc.canonical hn
    obtain ⟨rfl, hall, rfl⟩ := ha.times_canonical htimes
    exact ⟨hall, (append_assoc ..).symm⟩
  nonempty as h := hc.nonempty _ (append_eq_nil_iff.mp h).1

end Counted

end Inverts
end Ferryx.Lib
