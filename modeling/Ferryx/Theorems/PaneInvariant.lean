import Ferryx.Theorems.PaneQuiescence

/-! What every handler of a pane leaves behind, in any order and with any arguments. The numbers of the sizes increase
within an epoch as long as no epoch is granted twice and the numbers that the handlers are given are so small that no call
can exceed `u64`. -/

namespace Ferryx
open Std Lib List Option

instance linearOrderUInt64 : LinearOrder UInt64 where
  le_refl := UInt64.le_refl
  le_trans _ _ _ := UInt64.le_trans
  le_antisymm _ _ := UInt64.le_antisymm
  lt_iff_le_not_ge _ _ := by simp only [UInt64.le_iff_toNat_le, UInt64.lt_iff_toNat_lt]; omega
  le_total := UInt64.le_total
  toDecidableLE := inferInstance

variable {σ : Type}

namespace Pane

/-- The number of a size that is sent in the epoch `k`. -/
def Out.seqAt (k : EpochKey) : Out σ → Option σ
  | .resize session epoch seq _ _ => if (session, epoch) = k then some seq else none
  | _ => none

theorem Out.seqAt_eq_none {k : EpochKey} {o : Out σ} {id : Nat} (h : o.id? = some id) : o.seqAt k = none := by
  cases o <;> first | rfl | cases h

end Pane

namespace PaneLease

/-- No lease while one is asked for, and the leased session is not disowned. -/
structure Owns (a : PaneLease σ) : Prop where
  acquiring : ∀ {p}, a.pending = some p → p.kind = .acquire → a.lease = none
  owned : ∀ {l}, a.lease = some l → l.session ∉ a.disowned

section Invariants
variable {a b : PaneLease σ} {k : EpochKey}

/-- With that, the identifiers of the requests increase. -/
structure Core (a : PaneLease σ) : Prop extends Owns a where
  ids : (a.out.filterMap Pane.Out.id?).Pairwise (· < ·)
  issued : ∀ o ∈ a.out, ∀ id, o.id? = some id → id ≤ a.nextRequestId

section
variable [LinearOrder σ]

theorem Core.keeps (h : Core a) (hk : Keeps False a b) : Core b where
  acquiring := hk.acquiring h.acquiring
  owned hl hm := h.owned (hk.lease hl) (hk.owned h.acquiring hl hm)
  ids := by
    obtain ⟨os, ho, hasc, hids⟩ := hk.out
    rw [ho, filterMap_append, pairwise_append]
    refine ⟨h.ids, hasc, fun i hi j hj => ?_⟩
    obtain ⟨o, hmem, hi⟩ := mem_filterMap.mp hi
    obtain ⟨o', hmem', hj⟩ := mem_filterMap.mp hj
    obtain ⟨_, hid, hlt, -⟩ := hids o' hmem'
    obtain rfl := some.inj (hj.symm.trans hid)
    exact (h.issued o hmem i hi).trans_lt hlt
  issued o ho id hid := by
    obtain ⟨os, hout, -, hids⟩ := hk.out
    rw [hout, mem_append] at ho
    obtain ho | ho := ho
    · exact (h.issued o ho id hid).trans hk.nextId
    · obtain ⟨_, hid', -, hle⟩ := hids o ho
      obtain rfl := some.inj (hid.symm.trans hid')
      exact hle

end

theorem Core.ptySync [Add σ] [OfNat σ 1] (h : Core a) : Core a.ptySync := by
  obtain ⟨heq, -⟩ | ⟨l, d, -, -, -, heq⟩ := ptySync_cases a
  · rw [heq]
    exact h
  · rw [heq]
    refine ⟨⟨h.acquiring, h.owned⟩, ?_, fun o ho id hid => ?_⟩
    · rw [push, filterMap_append]
      simpa [List.filterMap, Pane.Out.id?] using h.ids
    · obtain ho | ho := mem_append.mp ho
      · exact h.issued o ho id hid
      · obtain rfl := mem_singleton.mp ho
        cases hid

theorem Core.adopts (h : Core a) (hb : Adopts a b k) : Core b where
  acquiring hp := by simp [hb.pending] at hp
  owned hl := by
    obtain ⟨l, hlease, -, hmem, -⟩ := hb.lease
    obtain rfl := some.inj (hlease.symm.trans hl)
    exact hmem
  ids := by
    rw [hb.out]
    exact h.ids
  issued := by
    rw [hb.out, hb.nextId]
    exact h.issued

theorem Core.prepared (h : Core a) (c : Call σ) : Core (a.prepared c) := by
  cases c <;> exact ⟨⟨h.acquiring, h.owned⟩, h.ids, h.issued⟩

theorem Core.call [LinearOrder σ] [Add σ] [OfNat σ 1] (h : Core a) (c : Call σ) : Core (a.call c) :=
  call_induction Core.keeps Core.ptySync (fun _ => (h.prepared c).adopts) (h.prepared c)

/-- The numbers sent in the epoch `k`. -/
def seqsAt (a : PaneLease σ) (k : EpochKey) : List σ := a.out.filterMap (Pane.Out.seqAt k)

theorem seqsAt_keeps [LinearOrder σ] (hk : Keeps False a b) (k : EpochKey) : b.seqsAt k = a.seqsAt k := by
  obtain ⟨os, ho, -, hids⟩ := hk.out
  have hnil : os.filterMap (Pane.Out.seqAt k) = [] := by
    rw [filterMap_eq_nil_iff]
    intro o hmem
    obtain ⟨id, hid, -⟩ := hids o hmem
    exact Pane.Out.seqAt_eq_none hid
  rw [seqsAt, seqsAt, ho, filterMap_append, hnil, append_nil]

end Invariants

section Numbers
variable {a b : PaneLease UInt64} {keys : List EpochKey} {k : EpochKey} {top : Nat}

/-- The sizes of a pane that was granted the epochs `keys` and whose next number exceeds `top` by at most one. -/
structure Numbered (keys : List EpochKey) (top : Nat) (a : PaneLease UInt64) : Prop where
  known : ∀ {k}, k ∉ keys → a.seqsAt k = []
  lease : ∀ {l}, a.lease = some l → (l.session, l.epoch) ∈ keys ∧ ∀ q ∈ a.seqsAt (l.session, l.epoch), q ≤ a.nextSeq
  order : ∀ k, (a.seqsAt k).Pairwise (· < ·)
  below : a.nextSeq.toNat ≤ top

theorem Numbered.keeps (h : Numbered keys top a) (hk : Keeps False a b) (hb : b.nextSeq.toNat ≤ top) :
    Numbered keys top b where
  known hkey := (seqsAt_keeps hk _).trans (h.known hkey)
  lease hl := by
    obtain ⟨hkey, hle⟩ := h.lease (hk.lease hl)
    refine ⟨hkey, fun q hq => ?_⟩
    rw [seqsAt_keeps hk] at hq
    exact (hle q hq).trans hk.nextSeq
  order k := by
    rw [seqsAt_keeps hk]
    exact h.order k
  below := hb

theorem Numbered.still (h : Numbered keys top a) (hk : Keeps True a b) : Numbered keys top b :=
  h.keeps hk.weaken (hk.numbers trivial ▸ h.below)

theorem Numbered.mono (h : Numbered keys top a) : Numbered keys (top + 1) a := { h with below := Nat.le_succ_of_le h.below }

theorem Numbered.ptySync (h : Numbered keys top a) (htop : top + 1 < 2 ^ 64) : Numbered keys (top + 1) a.ptySync := by
  obtain ⟨heq, -⟩ | ⟨l, d, hl, -, -, heq⟩ := ptySync_cases a
  · rw [heq]
    exact h.mono
  obtain ⟨hkey, hle⟩ := h.lease hl
  have hbelow := h.below
  have hnat : (a.nextSeq + 1).toNat = a.nextSeq.toNat + 1 := by
    rw [UInt64.toNat_add, UInt64.toNat_one, Nat.mod_eq_of_lt (by omega)]
  have hlt : a.nextSeq < a.nextSeq + 1 := by
    rw [UInt64.lt_iff_toNat_lt, hnat]
    exact Nat.lt_succ_self _
  have hseqs : ∀ k, a.ptySync.seqsAt k = a.seqsAt k ++ if (l.session, l.epoch) = k then [a.nextSeq + 1] else [] := by
    intro k
    rw [heq, seqsAt, seqsAt, push, filterMap_append]
    congr 1
    by_cases hk : (l.session, l.epoch) = k <;> simp [Pane.Out.seqAt, hk]
  have hlease : a.ptySync.lease = a.lease := by rw [heq]; rfl
  have hnext : a.ptySync.nextSeq = a.nextSeq + 1 := by rw [heq]; rfl
  refine ⟨fun {k} hk => ?_, fun {l'} hl' => ?_, fun k => ?_, ?_⟩
  · have hne : (l.session, l.epoch) ≠ k := by
      rintro rfl
      exact hk hkey
    rw [hseqs, h.known hk, if_neg hne]
    rfl
  · rw [hlease] at hl'
    obtain rfl := some.inj (hl.symm.trans hl')
    refine ⟨hkey, fun q hq => ?_⟩
    rw [hseqs, if_pos rfl, mem_append, mem_singleton] at hq
    rw [hnext]
    obtain hq | rfl := hq
    · exact (hle q hq).trans hlt.le
    · exact le_rfl
  · rw [hseqs, pairwise_append]
    split
    next heq =>
      subst heq
      refine ⟨h.order _, pairwise_singleton _ _, fun q hq q' hq' => ?_⟩
      obtain rfl := mem_singleton.mp hq'
      exact (hle q hq).trans_lt hlt
    · exact ⟨h.order k, .nil, by simp⟩
  · rw [hnext, hnat]
    exact Nat.succ_le_succ hbelow

theorem Numbered.adopts (h : Numbered keys top a) (hb : Adopts a b k) (hk : k ∉ keys) (hbelow : b.nextSeq.toNat ≤ top) :
    Numbered (keys ++ [k]) top b := by
  have hseqs : ∀ j, b.seqsAt j = a.seqsAt j := by
    intro j
    rw [seqsAt, seqsAt, hb.out]
  refine ⟨fun {j} hj => ?_, fun {l} hl => ?_, fun j => ?_, hbelow⟩
  · rw [hseqs]
    exact h.known fun hmem => hj (mem_append_left _ hmem)
  · obtain ⟨l', hlease, rfl, -⟩ := hb.lease
    obtain rfl := some.inj (hlease.symm.trans hl)
    refine ⟨mem_append_right _ (mem_singleton.mpr rfl), fun q hq => ?_⟩
    rw [hseqs, h.known hk] at hq
    cases hq
  · rw [hseqs]
    exact h.order j

end Numbers

/-- A pane with the leases that it has kept. -/
structure Tenant where
  pane : PaneLease UInt64 := .new
  grants : List EpochKey := []

def Tenant.call (t : Tenant) (c : Call UInt64) : Tenant := ⟨t.pane.call c, t.grants ++ (t.pane.takes c).toList⟩

/-- What every handler leaves behind. -/
structure Settled (a : PaneLease σ) : Prop extends Owns a where
  entitled : ∀ {l}, a.lease = some l → a.eligible = true
  rests : a.pending = none → a.retryTimer = false →
    ¬ (a.eligible = true ∧ a.lease = none) ∧ ¬ (a.lease ≠ none ∧ a.needsReclaim = true) ∧ a.disowned = ∅
  ids : (a.out.filterMap Pane.Out.id?).Pairwise (· < ·)

section Runs
variable {t : Tenant} {top : Nat}

theorem settled_of_core {a : PaneLease σ} (h : Core a) (hentitled : Entitled a) (hheeds : Heeds a) : Settled a := by
  refine ⟨h.toOwns, hentitled, fun hp ht => ?_, h.ids⟩
  obtain ⟨hreclaim, -, hacquire, hrelease⟩ := hheeds hp ht
  refine ⟨fun ⟨helig, hl⟩ => ?_, fun ⟨hl, hneeds⟩ => ?_, hrelease⟩
  · have hbound : a.policy.boundSession.isSome = true := by
      simp only [eligible, Bool.and_eq_true] at helig
      exact helig.1.1.1.1.2
    obtain ⟨s, hs⟩ := isSome_iff_exists.mp hbound
    simp [hacquire hl hs] at helig
  · obtain ⟨l, hl⟩ := ne_none_iff_exists'.mp hl
    simp [hreclaim hl] at hneeds

theorem Numbered.call (h : Numbered t.grants top t.pane) {c : Call UInt64} (hnodup : (t.call c).grants.Nodup)
    (happlied : ∀ seq ∈ c.appliedSeq, seq.toNat ≤ top) (htop : top + 1 < 2 ^ 64) :
    Numbered (t.call c).grants (top + 1) (t.call c).pane := by
  simp only [Tenant.call] at hnodup ⊢
  rw [call_eq]
  refine Numbered.still ?_ (.reevaluate _)
  have h' : Numbered t.grants top (t.pane.prepared c) := by
    cases c <;> exact ⟨h.known, h.lease, h.order, h.below⟩
  obtain ⟨hnone, hb | ⟨b, heq, hb, -, hseq⟩⟩ | ⟨k, b, hsome, heq, hb, hseq⟩ := effect_cases t.pane c
  · rw [hnone, toList_none, append_nil]
    exact (h'.still hb).mono
  · have hbelow : b.nextSeq.toNat ≤ top := hseq.elim (fun hseq => hseq ▸ h.below) (happlied _)
    rw [heq, hnone, toList_none, append_nil]
    exact (h'.keeps hb hbelow).ptySync htop
  · rw [hsome, toList_some] at hnodup
    rw [heq, hsome, toList_some]
    refine (h'.adopts hb ?_ (happlied _ hseq)).ptySync htop
    exact fun hmem => (nodup_append.mp hnodup).2.2 k hmem k (mem_singleton.mpr rfl) rfl

theorem core_of_calls (calls : List (Call UInt64)) : Core (calls.foldl Tenant.call {}).pane := by
  induction calls using List.reverseRecOn with
  | nil => exact ⟨⟨by rintro _ ⟨⟩, by rintro _ ⟨⟩⟩, .nil, by rintro _ ⟨⟩⟩
  | append_singleton calls c ih =>
    rw [foldl_append, foldl_cons, foldl_nil]
    exact ih.call c

theorem numbered_of_calls (calls : List (Call UInt64)) (hnodup : (calls.foldl Tenant.call {}).grants.Nodup)
    (happlied : ∀ c ∈ calls, ∀ seq ∈ c.appliedSeq, seq.toNat ≤ top) (htop : top + calls.length < 2 ^ 64) :
    Numbered (calls.foldl Tenant.call {}).grants (top + calls.length) (calls.foldl Tenant.call {}).pane := by
  induction calls using List.reverseRecOn with
  | nil => exact ⟨fun _ => rfl, by rintro _ ⟨⟩, fun _ => .nil, Nat.zero_le _⟩
  | append_singleton calls c ih =>
    rw [length_append, length_singleton] at htop ⊢
    rw [foldl_append, foldl_cons, foldl_nil] at hnodup ⊢
    have hprev := ih (nodup_append.mp hnodup).1 (fun c' hc' => happlied c' (mem_append_left _ hc')) (by omega)
    refine hprev.call hnodup (fun seq hseq => ?_) (by omega)
    exact (happlied c (mem_append_right _ (mem_singleton.mpr rfl)) seq hseq).trans (Nat.le_add_right _ _)

/-- After any calls the pane is settled. Its numbers increase within an epoch if it has kept no epoch twice and every number
that a handler was given leaves room for one more number per call. -/
theorem settled_of_calls (calls : List (Call UInt64)) : Settled (calls.foldl Tenant.call {}).pane ∧
    ((calls.foldl Tenant.call {}).grants.Nodup →
      ∀ top, (∀ c ∈ calls, ∀ seq ∈ c.appliedSeq, seq.toNat ≤ top) → top + calls.length < 2 ^ 64 →
        ∀ k, ((calls.foldl Tenant.call {}).pane.seqsAt k).Pairwise (· < ·)) := by
  refine ⟨?_, fun hnodup top happlied htop k => (numbered_of_calls calls hnodup happlied htop).order k⟩
  cases calls using List.reverseRecOn with
  | nil =>
    exact settled_of_core (core_of_calls []) (by rintro _ ⟨⟩) fun _ _ =>
      ⟨by rintro _ ⟨⟩, by rintro _ _ ⟨⟩, by rintro _ _ ⟨⟩, rfl⟩
  | append_singleton calls c =>
    have hcore := core_of_calls (calls ++ [c])
    rw [foldl_append, foldl_cons, foldl_nil] at hcore ⊢
    simp only [Tenant.call, call_eq] at hcore ⊢
    exact settled_of_core hcore (entitled_reevaluate _) (heeds_reevaluate _)

/-- A pane sends two sizes with the lease of epoch 7 and, once that is revoked, one with the lease of epoch `next`. -/
def twoLeases (next : Nat) : List (Call UInt64) :=
  [.setPolicy { boundSession := some 0, visibleFocused := true, gpuReady := true } false, .onVisibleApplied 80 24,
    .onGranted 1 0 7 5, .onVisibleApplied 100 30, .onRevoked 0 7 0, .onGranted 2 0 next 0]

theorem settled_of_calls_twoLeases : ((twoLeases 8).foldl Tenant.call {}).pane.seqsAt (0, 7) = [6, 7] ∧
    Settled ((twoLeases 8).foldl Tenant.call {}).pane ∧ ∀ k, (((twoLeases 8).foldl Tenant.call {}).pane.seqsAt k).Pairwise
      (· < ·) := by
  obtain ⟨hsettled, hseqs⟩ := settled_of_calls (twoLeases 8)
  exact ⟨by decide, hsettled, hseqs (by decide) 5 (by simp [twoLeases, Call.appliedSeq]) (by simp [twoLeases])⟩

/-- Two sizes with a lease whose host has applied the number before the largest. -/
def lastNumber : List (Call UInt64) :=
  [.setPolicy { boundSession := some 0, visibleFocused := true, gpuReady := true } false, .onVisibleApplied 80 24,
    .onGranted 1 0 7 18446744073709551614, .onVisibleApplied 100 30]

/-- A grant sets the number back, so a second grant of the same epoch repeats numbers; and the number after the largest is
0. -/
theorem seqs_restart : ((twoLeases 7).foldl Tenant.call {}).pane.seqsAt (0, 7) = [6, 7, 1] ∧
    (lastNumber.foldl Tenant.call {}).grants.Nodup ∧
    (lastNumber.foldl Tenant.call {}).pane.seqsAt (0, 7) = [18446744073709551615, 0] := by
  decide

end Runs

end PaneLease
end Ferryx
