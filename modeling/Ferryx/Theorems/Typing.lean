import Ferryx.Network
import Ferryx.Theorems.AuthorHoldings

/-! The bytes an author typed are its streams, the bytes it dropped at a rebind and the bytes that have no epoch yet, each
byte in one place. Along the epochs of one session they are in typing order. -/

namespace Ferryx
open Lib Function List TypedByte
variable {H : Type}

theorem TypedByte.getElem?_tag {i : H} {start j : Nat} {vals : List UInt8} {b : TypedByte H}
    (h : (tag i start vals)[j]? = some b) : b.author = i ∧ b.index = start + j := by
  rw [tag, getElem?_mapIdx, Option.map_eq_some_iff] at h
  obtain ⟨v, -, rfl⟩ := h
  exact ⟨rfl, rfl⟩

@[simp] theorem TypedByte.length_tag (i : H) (start : Nat) (vals : List UInt8) :
    (tag i start vals).length = vals.length := by
  simp [tag]

/-- The bytes of `i` in typing order from `start`. -/
def Numbered (i : H) (start : Nat) (bs : List (TypedByte H)) : Prop :=
  ∀ (j : Nat) (b : TypedByte H), bs[j]? = some b → b.author = i ∧ b.index = start + j

theorem numbered_tag (i : H) (start : Nat) (vals : List UInt8) : Numbered i start (tag i start vals) :=
  fun _ _ h => getElem?_tag h

namespace Numbered
variable {i : H} {start : Nat} {bs cs : List (TypedByte H)}

section
variable (hb : Numbered i start bs)
include hb

theorem append (hc : Numbered i (start + bs.length) cs) : Numbered i start (bs ++ cs) := by
  intro j b h
  rw [getElem?_append] at h
  split at h
  · exact hb j b h
  · obtain ⟨ha, hi⟩ := hc _ b h
    exact ⟨ha, by omega⟩

theorem mem {b : TypedByte H} (h : b ∈ bs) : b.author = i ∧ start ≤ b.index ∧ b.index < start + bs.length := by
  obtain ⟨j, hj, rfl⟩ := getElem_of_mem h
  obtain ⟨ha, hi⟩ := hb j bs[j] (getElem?_eq_getElem hj)
  exact ⟨ha, by omega, by omega⟩

theorem exists_index {m : Nat} (h : start ≤ m) (h' : m < start + bs.length) : ∃ b ∈ bs, b.index = m := by
  have hj : m - start < bs.length := by omega
  refine ⟨bs[m - start], getElem_mem hj, ?_⟩
  have := (hb _ _ (getElem?_eq_getElem hj)).2
  omega

theorem pairwise : bs.Pairwise fun x y => x.index < y.index := by
  rw [pairwise_iff_getElem]
  intro j k hj hk hjk
  have := (hb j _ (getElem?_eq_getElem hj)).2
  have := (hb k _ (getElem?_eq_getElem hk)).2
  omega

end

end Numbered

/-- The bytes of an author are numbered in each place and across epochs. -/
structure Typing (i : H) (typedFor : List Nat) (st : Stock (TypedByte H)) : Prop where
  le : st.unassigned.length ≤ typedFor.length
  numbered : Numbered i (typedFor.length - st.unassigned.length) st.unassigned
  bound : ∀ b ∈ st.unassigned, typedFor[b.index]? = some st.session
  byte : ∀ {k}, ∀ b ∈ st.streams k, b.author = i ∧ typedFor[b.index]? = some k.1 ∧
    b.index < typedFor.length - st.unassigned.length
  sorted : ∀ k, (st.streams k).Pairwise fun x y => x.index < y.index
  across : ∀ {s e e'}, e < e' → ∀ x ∈ st.streams (s, e), ∀ y ∈ st.streams (s, e'), x.index < y.index
  dropped : ∀ p ∈ st.dropped, p.2.author = i ∧ typedFor[p.2.index]? = some p.1 ∧
    p.2.index < typedFor.length - st.unassigned.length ∧ ∀ k, ∀ b ∈ st.streams k, b.index ≠ p.2.index
  once : (st.dropped.map fun p => p.2.index).Nodup
  all : ∀ m < typedFor.length - st.unassigned.length,
    (∃ k, ∃ b ∈ st.streams k, b.index = m) ∨ ∃ p ∈ st.dropped, p.2.index = m

namespace Typing
variable {i : H} {typedFor : List Nat} {st : Stock (TypedByte H)}

theorem start (i : H) (s : Nat) : Typing i [] ⟨s, fun _ => [], [], []⟩ := by
  constructor <;> simp [Numbered]

section
variable (T : Typing i typedFor st)
include T

theorem disjoint {k k' : EpochKey} {x y : TypedByte H} (hx : x ∈ st.streams k)
    (hy : y ∈ st.streams k') (hxy : x.index = y.index) : k = k' := by
  obtain ⟨s, e⟩ := k
  obtain ⟨s', e'⟩ := k'
  have hs : s = s' := by
    have h := (T.byte x hx).2.1
    rw [hxy, (T.byte y hy).2.1] at h
    exact (Option.some.inj h).symm
  subst hs
  rcases Nat.lt_trichotomy e e' with h | h | h
  · exact absurd hxy (Nat.ne_of_lt (T.across h x hx y hy))
  · rw [h]
  · exact absurd hxy.symm (Nat.ne_of_lt (T.across h y hy x hx))

theorem rebind (s : Nat) : Typing i typedFor { st.drop with session := s } := by
  have hold : ∀ {m : Nat}, m < typedFor.length - st.unassigned.length → m < typedFor.length := fun h => by omega
  have hle := T.le
  have hnew : ∀ b ∈ st.unassigned, b.author = i ∧ typedFor.length - st.unassigned.length ≤ b.index ∧
      b.index < typedFor.length := fun b hb => by
    obtain ⟨ha, h1, h2⟩ := T.numbered.mem hb
    exact ⟨ha, h1, by omega⟩
  exact { T with
    le := Nat.zero_le _
    numbered := fun j b h => by simp [Stock.drop] at h
    bound := fun b hb => by simp [Stock.drop] at hb
    byte := fun b hb => by
      obtain ⟨ha, hf, hlt⟩ := T.byte b hb
      exact ⟨ha, hf, hold hlt⟩
    dropped := fun p hp => by
      rcases mem_append.mp hp with hp | hp
      · obtain ⟨ha, hf, hlt, hne⟩ := T.dropped p hp
        exact ⟨ha, hf, hold hlt, hne⟩
      · obtain ⟨b, hb, rfl⟩ := mem_map.mp hp
        obtain ⟨ha, hge, hlt⟩ := hnew b hb
        refine ⟨ha, T.bound b hb, hlt, fun k c hc => ?_⟩
        have := (T.byte c hc).2.2
        dsimp only
        omega
    once := by
      simp only [Stock.drop, map_append, map_map]
      refine T.once.append ?_ ?_
      · exact (pairwise_map.mpr (T.numbered.pairwise.imp fun h => Nat.ne_of_lt h))
      · intro m hm hm'
        obtain ⟨p, hp, rfl⟩ := mem_map.mp hm
        obtain ⟨b, hb, hbp⟩ := mem_map.mp hm'
        have := (T.dropped p hp).2.2.1
        have := (hnew b hb).2.1
        simp only [Function.comp] at hbp
        omega
    all := fun m hm => by
      by_cases hlt : m < typedFor.length - st.unassigned.length
      · refine (T.all m hlt).imp_right fun h => ?_
        obtain ⟨p, hp, hpm⟩ := h
        exact ⟨p, mem_append_left _ hp, hpm⟩
      · simp only [Stock.drop, length_nil] at hm
        obtain ⟨b, hb, hbm⟩ := T.numbered.exists_index (Nat.le_of_not_lt hlt) (by omega)
        exact .inr ⟨(st.session, b), mem_append_right _ (mem_map.mpr ⟨b, hb, rfl⟩), hbm⟩ }

theorem grow {typedFor' : List Nat} (hpre : typedFor <+: typedFor') (e : Nat)
    {bs : List (TypedByte H)} (hbs : Numbered i (typedFor.length - st.unassigned.length) bs)
    (hlen : typedFor.length - st.unassigned.length + bs.length = typedFor'.length)
      (hfor : ∀ b ∈ bs, typedFor'[b.index]? = some st.session)
    (hlast : ∀ e', e < e' → st.streams (st.session, e') = []) : Typing i typedFor' { st with
      streams := update st.streams (st.session, e) (st.streams (st.session, e) ++ bs), unassigned := [] } := by
  have hold : ∀ {m : Nat}, m < typedFor.length - st.unassigned.length → m < typedFor'.length := fun h => by omega
  have hfor' : ∀ {m s : Nat}, typedFor[m]? = some s → typedFor'[m]? = some s := by
    intro m s h
    obtain ⟨r, rfl⟩ := hpre
    obtain ⟨hm, -⟩ := List.getElem?_eq_some_iff.mp h
    rw [getElem?_append_left hm, h]
  have hmem : ∀ {k b}, b ∈ update st.streams (st.session, e) (st.streams (st.session, e) ++ bs) k →
      b ∈ st.streams k ∨ k = (st.session, e) ∧ b ∈ bs := by
    intro k b hb
    by_cases hk : k = (st.session, e)
    · subst hk
      rw [update_self] at hb
      exact (mem_append.mp hb).imp_right fun hb => ⟨rfl, hb⟩
    · rw [update_of_ne hk] at hb
      exact .inl hb
  have hlt : ∀ {k b}, b ∈ st.streams k → ∀ x ∈ bs, b.index < x.index := fun {k b} hb x hx => by
    have := (T.byte b hb).2.2
    have := (hbs.mem hx).2.1
    omega
  exact {
    le := Nat.zero_le _
    numbered := fun j b h => by simp at h
    bound := fun b hb => by simp at hb
    byte := fun {k} b hb => by
      rcases hmem hb with hold' | ⟨rfl, hnew⟩
      · obtain ⟨ha, hf, hlt⟩ := T.byte b hold'
        exact ⟨ha, hfor' hf, hold hlt⟩
      · obtain ⟨ha, -, hlt⟩ := hbs.mem hnew
        exact ⟨ha, hfor b hnew, hlen ▸ hlt⟩
    sorted := fun k => by
      by_cases hk : k = (st.session, e)
      · subst hk
        simp only [update_self]
        rw [pairwise_append]
        exact ⟨T.sorted _, hbs.pairwise, fun x hx y hy => hlt hx y hy⟩
      · simp only [update_of_ne hk]
        exact T.sorted k
    across := fun {s e₁ e₂} h x hx y hy => by
      rcases hmem hy with hy | ⟨hk, hy⟩
      · rcases hmem hx with hx | ⟨hk, hx⟩
        · exact T.across h x hx y hy
        · cases hk
          rw [hlast e₂ h] at hy
          cases hy
      · rcases hmem hx with hx | ⟨hk', hx⟩
        · exact hlt hx y hy
        · cases hk
          cases hk'
          exact absurd h (Nat.lt_irrefl _)
    dropped := fun p hp => by
      obtain ⟨ha, hf, hlt', hne⟩ := T.dropped p hp
      refine ⟨ha, hfor' hf, hold hlt', fun k b hb => ?_⟩
      rcases hmem hb with hb | ⟨-, hb⟩
      · exact hne k b hb
      · have := (hbs.mem hb).2.1
        omega
    once := T.once
    all := fun m hm => by
      by_cases hlt : m < typedFor.length - st.unassigned.length
      · refine (T.all m hlt).imp_left fun ⟨k, b, hb, hbm⟩ => ⟨k, b, ?_, hbm⟩
        by_cases hk : k = (st.session, e)
        · subst hk
          simp only [update_self]
          exact mem_append_left _ hb
        · simp only [update_of_ne hk]
          exact hb
      · obtain ⟨b, hb, hbm⟩ := hbs.exists_index (Nat.le_of_not_lt hlt) (hlen ▸ hm)
        refine .inl ⟨(st.session, e), b, ?_, hbm⟩
        simp only [update_self]
        exact mem_append_right _ hb }

theorem assign {e : Nat} (hlast : ∀ e', e ≤ e' → st.streams (st.session, e') = []) : Typing i typedFor (st.assign e) := by
  have hle := T.le
  have h := T.grow (prefix_refl _) e T.numbered (by omega) T.bound fun e' he => hlast e' he.le
  rwa [hlast e le_rfl, nil_append] at h

end

theorem getElem?_typed {typedFor : List Nat} {vals : List UInt8} {s m : Nat} (h : typedFor.length ≤ m)
    (h' : m < typedFor.length + vals.length) : (typedFor ++ vals.map fun _ => s)[m]? = some s := by
  rw [getElem?_append_right h, getElem?_map, getElem?_eq_getElem (by omega), Option.map_some]

theorem typeCur (T : Typing i typedFor st) (hu : st.unassigned = []) {e : Nat}
    (hlast : ∀ e', e < e' → st.streams (st.session, e') = []) (vals : List UInt8) :
      Typing i (typedFor ++ vals.map fun _ => st.session)
      (st.typeCur e (tag i typedFor.length vals)) := by
  have htag : Numbered i (typedFor.length - st.unassigned.length) (tag i typedFor.length vals) := by
    simpa [hu] using numbered_tag i _ vals
  have h := T.grow (prefix_append _ (vals.map fun _ => st.session)) e htag (by simp [hu]) (fun b hb => ?_) hlast
  · rw [Stock.typeCur, hu]
    exact h
  · obtain ⟨-, h1, h2⟩ := (numbered_tag i typedFor.length vals).mem hb
    exact getElem?_typed h1 (by simpa using h2)

theorem typeUnassigned (T : Typing i typedFor st) (vals : List UInt8) : Typing i (typedFor ++ vals.map fun _ => st.session)
      (st.typeUnassigned (TypedByte.tag i typedFor.length vals)) := by
  have hle := T.le
  have hfor' : ∀ {m s : Nat}, typedFor[m]? = some s → (typedFor ++ vals.map fun _ => st.session)[m]? = some s := by
    intro m s h
    obtain ⟨hm, -⟩ := List.getElem?_eq_some_iff.mp h
    rw [getElem?_append_left hm, h]
  have hN : (typedFor ++ vals.map fun _ => st.session).length -
      (st.unassigned ++ TypedByte.tag i typedFor.length vals).length = typedFor.length - st.unassigned.length := by
    simp only [length_append, length_map, TypedByte.length_tag]
    omega
  exact { T with
    le := by
      simp only [Stock.typeUnassigned, length_append, length_map, TypedByte.length_tag]
      omega
    numbered := by
      simp only [Stock.typeUnassigned, hN]
      refine T.numbered.append ?_
      rw [Nat.sub_add_cancel hle]
      exact numbered_tag i _ vals
    bound := fun b hb => by
      rcases mem_append.mp hb with hb | hb
      · exact hfor' (T.bound b hb)
      · obtain ⟨-, h1, h2⟩ := (numbered_tag i typedFor.length vals).mem hb
        exact getElem?_typed h1 (by simpa using h2)
    byte := fun b hb => by
      obtain ⟨ha, hf, hlt⟩ := T.byte b hb
      exact ⟨ha, hfor' hf, hN ▸ hlt⟩
    dropped := fun p hp => by
      obtain ⟨ha, hf, hlt, hne⟩ := T.dropped p hp
      exact ⟨ha, hfor' hf, hN ▸ hlt, hne⟩
    all := fun m hm => T.all m (by simpa only [Stock.typeUnassigned, hN] using hm) }

end Typing
end Ferryx
