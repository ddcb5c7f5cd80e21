import Ferryx.Theorems.LeaseAuthor
import Ferryx.Theorems.NetBooks

/-! Each author of a network, with the sessions and its messages, is a view of the lease protocol
(`Net.leaseView`). What an author does takes its view along a sequence of moves and leaves the views of
the others alone. -/

namespace Ferryx
open Std Lib LeaseView Function

theorem requests_filter {β : Type} (os : List (Out β)) : requests (os.filter Out.isMessage) = requests os := by
  ext r
  constructor
  · rintro ⟨o, ho, hr⟩
    exact ⟨o, List.mem_of_mem_filter ho, hr⟩
  · rintro ⟨o, ho, hr⟩
    refine ⟨o, List.mem_filter.mpr ⟨ho, ?_⟩, hr⟩
    cases o with
    | classified => cases hr
    | _ => rfl

namespace Net
variable {H : Type} [DecidableEq H] {n : Net H} {i j : H} {loose strand : Prop}

def env (n : Net H) (i : H) : LeaseEnv (TypedByte H) where
  flight := n.toHost i (n.conn i)
  late := { r | ∃ c ≠ n.conn i, r ∈ requests (n.toHost i c) }
  live := n.toClient i (n.conn i)
  last s := (n.hosts s).lastRequest i
  top s := (n.hosts s).current
  held := { k | (n.hosts k.1).holder = some i ∧ (n.hosts k.1).current = k.2 }
  gid := n.gid i
  blocked := { s | ∃ j ≠ i, (n.hosts s).holder = some j ∧ i ∈ (n.hosts s).revokees }

def leaseView (n : Net H) (i : H) : LeaseView := (n.authors i).view (n.env i)

/-- Nothing is on a connection that was not dialed. -/
structure Dialed (n : Net H) : Prop where
  toHost : ∀ {i c}, n.conn i < c → n.toHost i c = []
  toClient : ∀ {i c}, n.conn i < c → n.toClient i c = []

theorem leaseView_flush (n : Net H) (i : H) (a : Author (TypedByte H)) : (n.flush i a).leaseView i = a.view (n.env i) := by
  have hlate : (n.flush i a).env i = { n.env i with flight := (n.env i).flight ++ a.out.filter Out.isMessage } := by
    have : ∀ {c}, c ≠ n.conn i → (n.flush i a).toHost i c = n.toHost i c := fun hc => setAt_of_ne _ _ fun h => hc h.2
    have hset : { r | ∃ c ≠ n.conn i, r ∈ requests ((n.flush i a).toHost i c) } = (n.env i).late := by
      ext r
      refine exists_congr fun c => and_congr_right fun hc => ?_
      rw [this hc]
    have hnow : (n.flush i a).toHost i (n.conn i) = (n.env i).flight ++ a.out.filter Out.isMessage := setAt_self ..
    simp only [env] at hset hnow ⊢
    simp only [flush] at hset hnow ⊢
    rw [hset, hnow]
    rfl
  have ha : (n.flush i a).authors i = { a with out := [] } := update_self ..
  rw [leaseView, hlate, ha]
  simp only [Author.view, requests_append, requests_filter]
  simp [Author.current, requests]

theorem leaseView_flush_of_ne (n : Net H) {i j : H} (a : Author (TypedByte H)) (hj : j ≠ i) :
    (n.flush i a).leaseView j = n.leaseView j := by
  have ha : (n.flush i a).authors j = n.authors j := update_of_ne hj ..
  have hto : (n.flush i a).toHost j = n.toHost j := by
    funext c
    exact setAt_of_ne _ _ fun h => hj h.1
  have henv : (n.flush i a).env j = n.env j := by
    simp only [env, hto]
    rfl
  rw [leaseView, ha, henv]
  rfl

theorem moves_flush {a : Author (TypedByte H)} (h : Moves loose strand (n.leaseView i) (a.view (n.env i))) (j : H) :
    Moves loose strand (n.leaseView j) ((n.flush i a).leaseView j) := by
  by_cases hj : j = i
  · subst hj
    rw [leaseView_flush]
    exact h
  · exact .of_eq (leaseView_flush_of_ne n a hj)

theorem moves_typeBytes (h : Core (n.leaseView i)) (vals : List UInt8) (j : H) :
    Moves loose strand (n.leaseView j) ((n.typeBytes i vals).leaseView j) :=
  moves_flush (n := { n with typedFor := _ }) (Author.moves_typeBytes h _) j

theorem env_reconnect (D : Dialed n) : ({ n with conn := update n.conn i (n.conn i + 1) } : Net H).env i =
    (n.env i).redialed := by
  have hto := D.toHost (Nat.lt_succ_self (n.conn i))
  have hcl := D.toClient (Nat.lt_succ_self (n.conn i))
  have hlate := others_of_fresh (fun c => requests (n.toHost i c))
      (Nat.lt_succ_self (n.conn i)).ne (by simp [hto, requests])
  simp only [env] at hlate ⊢
  simp only [update_self, hto, hcl, hlate]
  rfl

theorem moves_reconnect (D : Dialed n) (h : Core (n.leaseView i)) (ho : (n.authors i).out = []) (j : H) :
    Moves loose strand (n.leaseView j) ((n.reconnect i).leaseView j) := by
  by_cases hj : j = i
  · subst hj
    rw [reconnect, leaseView_flush, env_reconnect D]
    exact Author.moves_onReconnect h ho
  · have hv : (n.reconnect i).leaseView j = n.leaseView j := by
      rw [reconnect, leaseView_flush_of_ne _ _ hj]
      simp only [leaseView, env, update_of_ne hj]
      rfl
    exact .of_eq hv

theorem moves_deliverToClient {c : Nat} (h : Sound loose strand (n.leaseView i))
    (hu : strand ∨ ∀ {p e}, (n.toClient i (n.conn i)).head? = some (.reclaimUnknown p.id) → c = n.conn i →
      (n.authors i).pending = some p → p.kind ≠ .reclaim e) (j : H) :
    Moves loose strand (n.leaseView j) ((n.deliverToClient i c).leaseView j) := by
  unfold deliverToClient
  split
  · exact .refl _
  next m rest hc =>
    have henv : ∀ {j}, ¬(j = i ∧ n.conn j = c) → ({ n with toClient := setAt n.toClient i c rest } : Net H).env j =
        n.env j := by
      intro j hj
      simp only [env, setAt_of_ne n.toClient rest hj]
      rfl
    dsimp only
    split
    next hne =>
      refine .of_eq ?_
      rw [leaseView, henv fun hj => ?_]
      · rfl
      · obtain ⟨rfl, hj⟩ := hj
        exact hne hj.symm
    next heq =>
      obtain rfl : c = n.conn i := of_not_not heq
      by_cases hj : j = i
      · subst hj
        have hrest : ({ n with toClient := setAt n.toClient j (n.conn j) rest } : Net H).env j =
            (n.env j).reading rest := by
          simp only [env, LeaseEnv.reading, setAt_self]
          rfl
        rw [leaseView_flush, hrest]
        refine Author.moves_handle hc h.core h.kept h.waiting (hu.imp_right fun hu => ?_)
        rintro p e rfl hp
        exact hu (by rw [hc]; rfl) rfl hp
      · rw [leaseView_flush_of_ne _ _ hj]
        refine .of_eq ?_
        rw [leaseView, henv fun h => hj h.1]
        rfl

theorem Dialed.flush (D : Dialed n) (i : H) (a : Author (TypedByte H)) : Dialed (n.flush i a) where
  toHost {j c} hc := by
    have hc : n.conn j < c := hc
    have hne : ¬(j = i ∧ c = n.conn i) := by
      rintro ⟨rfl, rfl⟩
      exact Nat.lt_irrefl _ hc
    exact (setAt_of_ne n.toHost _ hne).trans (D.toHost hc)
  toClient := D.toClient

theorem Dialed.reply (D : Dialed n) {c : Nat} (hc : c ≤ n.conn i) (m : ToClient) : Dialed (n.reply i c m) where
  toHost := D.toHost
  toClient {j d} hd := by
    have hd : n.conn j < d := hd
    have hne : ¬(j = i ∧ d = c) := by
      rintro ⟨rfl, rfl⟩
      exact Nat.not_lt_of_le hc hd
    exact (setAt_of_ne n.toClient _ hne).trans (D.toClient hd)

theorem Dialed.vacate (D : Dialed n) (s : Nat) (revokees : List H) : Dialed (n.vacate s revokees) := by
  induction revokees generalizing n with
  | nil => exact D
  | cons h hs ih => exact ih (D.reply le_rfl _)

end Net
end Ferryx
