import Ferryx.Theorems.Ledger
import Ferryx.Theorems.Typing

/-! The joint invariant of authors, messages and ledgers (`Inv`): each ledger keeps its books, each author's bytes are
accounted for by the ledgers' counters, what is accepted in an epoch begins the author's stream for it, and every message in
flight is true. -/

namespace Ferryx
open Lib

namespace Net
variable {H : Type}

def log (n : Net H) (s : Nat) : List (Nat × TypedByte H) := (n.hosts s).log (n.tap s)

/-- The bytes that a session accepted in an epoch. -/
def bytesOf (n : Net H) (k : EpochKey) : List (TypedByte H) := entriesAt k.2 (n.log k.1)

/-- The ledgers as their authors may know them. -/
def view (n : Net H) : View where
  accepted := n.counter
  committed k := (entriesAt k.2 (n.tap k.1)).length
  Closed k := (n.hosts k.1).Closed k.2

/-- The bytes of an author and where they went. -/
def stock (n : Net H) (i : H) : Stock (TypedByte H) where
  session := (n.authors i).session
  streams := n.assigned i
  unassigned := (n.authors i).unassigned
  dropped := droppedBytes (n.sent i)

def gid [DecidableEq H] (n : Net H) (i : H) (k : EpochKey) : Option Nat :=
  (n.grant k).bind fun g => if g.1 = i then some g.2 else none

theorem gid_eq_some [DecidableEq H] {n : Net H} {i : H} {k : EpochKey} {id : Nat} : n.gid i k = some id ↔
    n.grant k = some (i, id) := by
  simp only [gid, Option.bind_eq_some_iff]
  constructor
  · rintro ⟨⟨j, id'⟩, hg, h⟩
    split at h
    next hj =>
      dsimp only at hj
      cases h
      rw [hg, hj]
    · cases h
  · intro h
    exact ⟨_, h, by simp⟩

/-- What a message to author `i` tells is true, where it put out `sent`. A reclaim of an epoch that
    another author has tells nothing. -/
def MsgOk (v : View) (grant : EpochKey → Option (H × Nat)) (i : H) (sent : List (Out (TypedByte H))) :
    ToClient → Prop
  | .granted id s e => grant (s, e) = some (i, id)
  | .ack _ s e acc com => acc ≤ v.accepted (s, e) ∧ com ≤ v.committed (s, e)
  | .retry _ s e gap => ∀ acc, gap = some acc → acc ≤ v.accepted (s, e)
  | .reclaimed id ok _ acc com finals => ∃ s e, Out.reclaim id s e ∈ sent ∧
    (ok = true → acc ≤ v.accepted (s, e) ∧ com ≤ v.committed (s, e)) ∧
      (FinalsOk v (s, e) finals ∨ ∃ j id, grant (s, e) = some (j, id) ∧ j ≠ i)
  | .epoch _ s e fa cm pd fenced => fenced = true → FinalsOk v (s, e) (some (fa, cm, pd))
  | _ => True

theorem MsgOk.mono {v w : View} {grant grant' : EpochKey → Option (H × Nat)} {i : H}
    {sent sent' : List (Out (TypedByte H))} {m : ToClient} (h : MsgOk v grant i sent m) (hvw : v.Le w)
    (hg : ∀ {k g}, grant k = some g → grant' k = some g) (hs : sent ⊆ sent') : MsgOk w grant' i sent' m := by
  have hfin : ∀ {k finals}, FinalsOk v k finals → FinalsOk w k finals := by
    intro k finals hf fa cm pd heq
    obtain ⟨hcl, hfa, hcm, hpd⟩ := hf fa cm pd heq
    obtain ⟨hcl', hacc⟩ := hvw.closed hcl
    exact ⟨hcl', hfa.trans hacc.symm, hcm.trans (hvw.committed k), hpd⟩
  cases m with
  | granted => exact hg h
  | ack _ s e => exact ⟨h.1.trans (hvw.accepted (s, e)), h.2.trans (hvw.committed (s, e))⟩
  | retry _ s e => exact fun acc hacc => (h acc hacc).trans (hvw.accepted (s, e))
  | reclaimed =>
    obtain ⟨s, e, hmem, hok, hf⟩ := h
    refine ⟨s, e, hs hmem, fun ht => ?_, hf.imp hfin ?_⟩
    · exact ⟨(hok ht).1.trans (hvw.accepted (s, e)), (hok ht).2.trans (hvw.committed (s, e))⟩
    · rintro ⟨j, id, hj, hne⟩
      exact ⟨j, id, hg hj, hne⟩
  | epoch => exact fun hf => hfin (h hf)
  | _ => trivial

structure HostsOk (n : Net H) : Prop where
  books : ∀ s, (n.hosts s).Books (n.tap s)
  counter : ∀ k, n.counter k = (n.bytesOf k).length

/-- Every epoch up to the current one was granted once, and the last to its holder. -/
structure GrantsOk (n : Net H) : Prop where
  upto : ∀ {s e g}, n.grant (s, e) = some g → 1 ≤ e ∧ e ≤ (n.hosts s).current
  held : ∀ {s i}, (n.hosts s).holder = some i → ∃ id, n.grant (s, (n.hosts s).current) = some (i, id)
  last : ∀ {s e i id}, n.grant (s, e) = some (i, id) → id ≤ (n.hosts s).lastRequest i
  order : ∀ {s e e' i id id'}, n.grant (s, e) = some (i, id) → n.grant (s, e') = some (i, id') → e < e' → id < id'

/-- A session accepts a prefix of what the author assigned to the epoch. -/
structure StreamsOk (n : Net H) : Prop where
  granted : ∀ {k i id}, n.grant k = some (i, id) → n.bytesOf k <+: n.assigned i k
  free : ∀ {k}, n.grant k = none → n.bytesOf k = []

variable [DecidableEq H]

/-- The holdings, the ids and the bytes of an author are in order. -/
structure AuthorOk (n : Net H) (i : H) : Prop where
  out : (n.authors i).out = []
  holdings : (n.authors i).Holdings n.view (n.stock i) (n.sent i)
  ids : (n.authors i).Ids (n.gid i) (n.sent i)
  typing : Typing i (n.typedFor i) (n.stock i)

structure Inv (n : Net H) : Prop where
  hosts : n.HostsOk
  grants : n.GrantsOk
  streams : n.StreamsOk
  author : ∀ i, n.AuthorOk i
  toHost : ∀ {i c m}, m ∈ n.toHost i c → m ∈ n.sent i
  toClient : ∀ {i c m}, m ∈ n.toClient i c → MsgOk n.view n.grant i (n.sent i) m

variable {n : Net H}

theorem Inv.congr (I : n.Inv) {conn : H → Nat} {toHost : H → Nat → List (Out (TypedByte H))}
    {toClient : H → Nat → List ToClient} (hh : ∀ {i c m}, m ∈ toHost i c → m ∈ n.toHost i c)
    (hc : ∀ {i c m}, m ∈ toClient i c → m ∈ n.toClient i c) : Inv { n with conn, toHost, toClient } where
  hosts := ⟨I.hosts.books, I.hosts.counter⟩
  grants := ⟨I.grants.upto, I.grants.held, I.grants.last, I.grants.order⟩
  streams := ⟨I.streams.granted, I.streams.free⟩
  author i := ⟨(I.author i).out, (I.author i).holdings, (I.author i).ids, (I.author i).typing⟩
  toHost hm := I.toHost (hh hm)
  toClient hm := I.toClient (hc hm)

theorem Inv.flush (I : n.Inv) {i : H} {a : Author (TypedByte H)} {st : Stock (TypedByte H)} {typedFor : List Nat}
    (hold : a.Holdings n.view st (n.sent i)) (hids : a.Ids (n.gid i) (n.sent i))
    (hrec : a.recordCur (n.assigned i) = st.streams) (hgrow : ∀ k, n.assigned i k <+: st.streams k)
      (htyp : Typing i typedFor st) :
    Inv ({ n with typedFor := Function.update n.typedFor i typedFor }.flush i a) := by
  generalize hn' : { n with typedFor := Function.update n.typedFor i typedFor }.flush i a = n'
  have hview : n'.view = n.view := by rw [← hn']; rfl
  have hgid : n'.gid = n.gid := by rw [← hn']; rfl
  have hsent : n'.sent i = n.sent i ++ a.out := by simp [← hn', Net.flush]
  have hauth : n'.authors i = { a with out := [] } := by simp [← hn', Net.flush]
  have hassigned : n'.assigned i = st.streams := by simp [← hn', Net.flush, hrec]
  have hstock : n'.stock i = st := by
    have hd : droppedBytes (n'.sent i) = st.dropped := by rw [hsent, hold.dropped]
    simp only [stock, hauth, hd, hassigned, hold.session, hold.unassigned]
  have hne : ∀ {j}, j ≠ i → n'.authors j = n.authors j ∧ n'.sent j = n.sent j ∧ n'.assigned j = n.assigned j ∧
      n'.typedFor j = n.typedFor j := by
    intro j hj
    simp [← hn', Net.flush, Function.update_of_ne hj]
  exact {
    hosts := by rw [← hn']; exact ⟨I.hosts.books, I.hosts.counter⟩
    grants := by rw [← hn']; exact ⟨I.grants.upto, I.grants.held, I.grants.last, I.grants.order⟩
    streams := by
      have hb : n'.bytesOf = n.bytesOf := by rw [← hn']; rfl
      have hg : n'.grant = n.grant := by rw [← hn']; rfl
      refine ⟨fun {k j id} hk => ?_, fun hk => ?_⟩
      · rw [hb]
        rw [hg] at hk
        by_cases hj : j = i
        · subst hj
          rw [hassigned]
          exact (I.streams.granted hk).trans (hgrow k)
        · rw [(hne hj).2.2.1]
          exact I.streams.granted hk
      · rw [hb]
        rw [hg] at hk
        exact I.streams.free hk
    author := fun j => by
      by_cases hj : j = i
      · subst hj
        refine ⟨by rw [hauth], ?_, ?_, ?_⟩
        · rw [hstock, hview, hsent, hauth]
          exact hold.flush
        · rw [hgid, hsent, hauth]
          exact hids.flush
        · have : n'.typedFor j = typedFor := by simp [← hn', Net.flush]
          rw [this, hstock]
          exact htyp
      · obtain ⟨h1, h2, h3, h4⟩ := hne hj
        have hs : n'.stock j = n.stock j := by simp only [stock, h1, h2, h3]
        have A := I.author j
        refine ⟨by rw [h1]; exact A.out, ?_, ?_, ?_⟩
        · rw [h1, h2, hs, hview]
          exact A.holdings
        · rw [h1, h2, hgid]
          exact A.ids
        · rw [hs, h4]
          exact A.typing
    toHost := fun {j c m} hm => by
      have hm' : m ∈ enqueue n.toHost i (n.conn i) (a.out.filter Out.isMessage) j c := by
        rw [← hn'] at hm
        exact hm
      rcases mem_enqueue.mp hm' with hm | ⟨⟨rfl, -⟩, hm⟩
      · by_cases hj : j = i
        · subst hj
          rw [hsent]
          exact List.mem_append_left _ (I.toHost hm)
        · rw [(hne hj).2.1]
          exact I.toHost hm
      · rw [hsent]
        exact List.mem_append_right _ (List.mem_of_mem_filter hm)
    toClient := fun {j c m} hm => by
      have hm' : m ∈ n.toClient j c := by
        rw [← hn'] at hm
        exact hm
      have hg : n'.grant = n.grant := by rw [← hn']; rfl
      rw [hview, hg]
      refine (I.toClient hm').mono (View.Le.refl _) (fun h => h) ?_
      by_cases hj : j = i
      · subst hj
        rw [hsent]
        exact List.subset_append_left _ _
      · rw [(hne hj).2.1]
        exact List.Subset.refl _ }

end Net
end Ferryx
