import Ferryx.Network

/-!
# The lease protocol

A `LeaseView` is one author's side of the lease, the sessions' side as far as it is concerned, and what is on its way
between them, without the bytes. Every handler of an author and every operation of a session is a sequence of `Move`s.
-/

namespace Ferryx

inductive Req where
  | acquire (id session : Nat)
  | reclaim (id session epoch : Nat)
  | release (id session epoch : Nat)
  | query (session epoch : Nat)
  | write (session epoch : Nat)

def Req.id? : Req → Option Nat
  | .acquire id _ | .reclaim id _ _ | .release id _ _ => some id
  | .query .. | .write .. => none

inductive Req.Lead (id session : Nat) : Req → Prop
  | acquire : Lead id session (.acquire id session)
  | release : Lead id session (.release id session 0)

def ToClient.id? : ToClient → Option Nat
  | .granted id _ _ | .released id | .reclaimed id .. | .reclaimUnknown id => some id
  | _ => none

def ToClient.grantedKey? : ToClient → Option EpochKey
  | .granted _ s e => some (s, e)
  | _ => none

def Pending.Asks (p : Pending) : Req → Prop
  | .acquire id session => id = p.id ∧ p.kind = .acquire ∧ session = p.session
  | .reclaim id session epoch => id = p.id ∧ session = p.session ∧ (p.kind = .reclaim epoch ∨ p.kind = .probe)
  | .release id session epoch => id = p.id ∧ p.kind = .release ∧ session = p.session ∧ epoch = 0
  | _ => False

def Pending.AnsweredBy (p : Pending) : ToClient → Prop
  | .granted _ session _ => p.kind = .acquire ∧ session = p.session
  | .released _ => p.kind = .release
  | .reclaimed .. | .reclaimUnknown _ => p.kind ≠ .acquire ∧ p.kind ≠ .release
  | _ => True

def Pending.disown (p : Pending) (disowned : Set Nat) : Set Nat :=
  if p.kind = .acquire then insert p.session disowned else disowned

structure LeaseView where
  session : Nat
  nextId : Nat
  pending : Option Pending
  current : Option EpochKey
  needsReclaim : Bool
  suppressed : Bool
  needsProbe : Bool
  disowned : Set Nat
  lost : Set EpochKey
  /-- The requests on the live connection, and on dropped ones. -/
  now : Set Req
  late : Set Req
  live : List ToClient
  /-- For each session, the last request of the author that it admitted, and its current epoch. -/
  last : Nat → Nat
  top : Nat → Nat
  /-- The epochs that a session says the author holds. -/
  held : Set EpochKey
  /-- The request of the author that an epoch was granted to. -/
  gid : EpochKey → Option Nat
  /-- The sessions that another author holds and that will tell this author when it is done. -/
  blocked : Set Nat

structure LeaseView.Calm (v w : LeaseView) : Prop where
  session : w.session = v.session
  nextId : v.nextId ≤ w.nextId
  pending : w.pending = v.pending
  current : w.current = v.current
  needsReclaim : w.needsReclaim = v.needsReclaim
  suppressed : w.suppressed = false ∨ w.suppressed = v.suppressed ∧ w.needsProbe = v.needsProbe
  disowned : v.disowned ⊆ w.disowned
  foreign : ∀ {k}, v.current = some k → k.1 ∈ w.disowned → k.1 ∈ v.disowned
  lost : w.lost = v.lost
  now : w.now ⊆ v.now
  late : w.late ⊆ v.late
  live : w.live = v.live
  last : ∀ s, v.last s ≤ w.last s
  top : ∀ s, v.top s ≤ w.top s
  held_top : ∀ {k}, k ∈ v.held → w.top k.1 = v.top k.1
  held : w.held = v.held
  gid : w.gid = v.gid
  blocked : v.blocked ⊆ w.blocked

namespace LeaseView

def Alive (v : LeaseView) (k : EpochKey) : Prop :=
  v.current = some k ∨ ∃ p, v.pending = some p ∧ v.gid k = some p.id

def Closed (v : LeaseView) (k : EpochKey) : Prop := k.2 ≤ v.top k.1 ∧ k ∉ v.held

def ToldLost (live : List ToClient) (k : EpochKey) : Prop := ∃ o, ToClient.lost k.1 k.2 o ∈ live

def May (v : LeaseView) (session : Nat) : PendingKind → Prop
  | .acquire => v.current = none ∧ v.suppressed = false
  | .reclaim epoch => v.current = some (session, epoch)
  | .probe => v.suppressed = true ∧ session = v.session
  | .release => session ∈ v.disowned

/-- A message that the author reads without consequences for the lease. -/
def Idle (v : LeaseView) : ToClient → Prop
  | .granted .. => False
  | .released id | .reclaimed id .. | .reclaimUnknown id => ∀ p, v.pending = some p → p.id ≠ id
  | .lost session epoch _ => v.current ≠ some (session, epoch)
  | .vacated session => v.suppressed = true → session ≠ v.session
  | _ => True

/-- What a message says when it is sent. -/
def Tells (v : LeaseView) : ToClient → Prop
  | .granted .. => False
  | .released id => id ≤ v.nextId ∧ ∀ p, v.pending = some p → p.id = id →
    p.kind = .release ∧ id ≤ v.last p.session ∧ ∀ e, (p.session, e) ∉ v.held
  | .reclaimed id ok epoch _ _ _ => id ≤ v.nextId ∧ ∀ p, v.pending = some p → p.id = id →
    (∃ e, p.kind = .reclaim e ∧ (ok = true ∧ epoch = e ∧ (p.session, e) ∈ v.held ∨
      ok = false ∧ v.Closed (p.session, e) ∧ (epoch ≠ 0 → p.session ∈ v.blocked))) ∨
    p.kind = .probe ∧ (epoch ≠ 0 → p.session ∈ v.blocked)
  | .reclaimUnknown id => id ≤ v.nextId ∧ ∀ p, v.pending = some p → p.id = id →
    (∃ e, p.kind = .reclaim e ∧ v.Closed (p.session, e)) ∨ p.kind = .probe
  | .epoch _ session epoch _ _ _ fenced => fenced = true → v.Closed (session, epoch)
  | .epochUnknown session epoch => v.Closed (session, epoch)
  | .lost session epoch _ => v.Closed (session, epoch)
  | _ => True

/-- A message that an epoch went to another author is the first one, and this author is blocked. -/
def FirstLoss (v : LeaseView) : ToClient → Prop
  | .lost s e o => o ≠ 0 → v.Alive (s, e) → ¬ToldLost v.live (s, e) → s ∈ v.blocked
  | _ => True

/-- The session of the author is held by another one, or will be once it was told that it is free. -/
def Waits (v : LeaseView) (s : Nat) : Prop := s ∈ v.blocked ∨ ToClient.vacated s ∈ v.live

/-- Request `id` opens the next epoch of session `s`; `told` is what reaches the live connection. -/
structure Grants (v : LeaseView) (s id : Nat) (told : List ToClient) : Prop where
  foreign : ∀ {k}, v.current = some k → k.1 ≠ s
  wanted : v.pending = some ⟨id, .acquire, s⟩ ∨ s ∈ v.disowned
  reaches : told = [] ∨ told = [.granted id s (v.top s + 1)]
  newest : ∀ {p}, v.pending = some p → id ≤ p.id
  mine : ∀ {p}, v.pending = some p → p.id = id → p = ⟨id, .acquire, s⟩ ∧ told = [.granted id s (v.top s + 1)]
  later : ∀ {e id'}, v.gid (s, e) = some id' → id' < id
  sent : id ≤ v.nextId
  admitted : v.last s = id
  unsuppressed : v.suppressed = true → v.session ≠ s
  unprobed : ∀ {p}, v.pending = some p → p.kind = .probe → p.session ≠ s

def grantTo (v : LeaseView) (s id : Nat) (told : List ToClient) (blocked : Set Nat) : LeaseView :=
  { v with
    top := Function.update v.top s (v.top s + 1)
    held := insert (s, v.top s + 1) { k ∈ v.held | k.1 ≠ s }
    gid := Function.update v.gid (s, v.top s + 1) (some id)
    live := v.live ++ told
    blocked := blocked }

/-- What can happen to a lease. `loose`: a session may end it for a late write and tell only the dropped connection.
`strand`: a session may suppress an author and not tell it when the lease is free. -/
inductive Move (loose strand : Prop) : LeaseView → LeaseView → Prop
  | calm {v w : LeaseView} : Calm v w → Move loose strand v w
  -- The author.
  | ask {v : LeaseView} {kind : PendingKind} {s : Nat} {r : Req} : v.pending = none → v.May s kind →
    Pending.Asks ⟨v.nextId + 1, kind, s⟩ r →
    Move loose strand v
      { v with nextId := v.nextId + 1, pending := some ⟨v.nextId + 1, kind, s⟩, now := insert r v.now }
  | query {v : LeaseView} {k : EpochKey} : k ∈ v.lost →
    Move loose strand v { v with nextId := v.nextId + 1, now := insert (.query k.1 k.2) v.now }
  | write {v : LeaseView} {k : EpochKey} : v.current = some k → v.needsReclaim = false →
    Move loose strand v { v with nextId := v.nextId + 1, now := insert (.write k.1 k.2) v.now }
  -- A write that has no identifier of its own.
  | notify {v : LeaseView} {k : EpochKey} : v.current = some k → v.needsReclaim = false →
    Move loose strand v { v with now := insert (.write k.1 k.2) v.now }
  | releaseLost {v : LeaseView} {k : EpochKey} : k ∈ v.lost →
    Move loose strand v { v with nextId := v.nextId + 1, now := insert (.release (v.nextId + 1) k.1 k.2) v.now }
  | bind {v : LeaseView} (s : Nat) : v.current = none → v.suppressed = false →
    (∀ {p}, v.pending = some p → p.kind ≠ .probe) →
    Move loose strand v { v with session := s }
  | yield {v : LeaseView} {p : Pending} : v.pending = some p →
    Move loose strand v { v with pending := none, disowned := p.disown v.disowned }
  | detach {v : LeaseView} {k : EpochKey} {other : Bool} : v.current = some k →
    (∀ {p e}, v.pending = some p → p.kind ≠ .reclaim e) → (other = true → k ∉ v.held) →
    (other = true → strand ∨ v.Waits k.1) →
    Move loose strand v
      { v with current := none, needsReclaim := false, lost := insert k v.lost, suppressed := v.suppressed || other }
  | forget {v : LeaseView} {k : EpochKey} : k ∉ v.held → Move loose strand v { v with lost := v.lost \ {k} }
  | forgetDisowned {v : LeaseView} {k : EpochKey} : k.1 ∈ v.disowned →
    Move loose strand v { v with lost := v.lost \ {k} }
  | disownNot {v : LeaseView} {s : Nat} : (∀ e, (s, e) ∉ v.held) →
    (∀ {id}, Req.acquire id s ∈ v.now ∪ v.late → id ≤ v.last s) →
    Move loose strand v { v with disowned := v.disowned \ {s} }
  | confirm {v : LeaseView} : loose ∨ (∀ {k}, v.current = some k → k ∈ v.held ∨ ToldLost v.live k) →
    Move loose strand v { v with needsReclaim := false }
  | probed {v : LeaseView} : (v.suppressed = true → strand ∨ v.Waits v.session) →
    Move loose strand v { v with needsProbe := false }
  | recv {v : LeaseView} {m : ToClient} {rest : List ToClient} : v.live = m :: rest → v.Idle m →
    Move loose strand v { v with live := rest }
  | adopt {v : LeaseView} {id s e : Nat} {rest : List ToClient} : v.live = .granted id s e :: rest →
    v.pending = some ⟨id, .acquire, s⟩ → s = v.session → v.suppressed = false →
    Move loose strand v
      { v with live := rest, pending := none, current := some (s, e), disowned := v.disowned \ {s} }
  | giveBack {v : LeaseView} {id s e : Nat} {rest : List ToClient} : v.live = .granted id s e :: rest →
    (∀ {p}, v.pending = some p → p.id ≠ id) →
    Move loose strand v
      { v with nextId := v.nextId + 1, live := rest, now := insert (.release (v.nextId + 1) s e) v.now }
  | reconnect {v : LeaseView} : v.pending = none →
    Move loose strand v
      { v with
        now := ∅, late := v.now ∪ v.late, live := []
        needsReclaim := v.needsReclaim || v.current.isSome
        needsProbe := v.needsProbe || v.suppressed }
  -- The sessions.
  | tell {v : LeaseView} {m : ToClient} : v.Tells m → loose ∨ v.FirstLoss m →
    Move loose strand v { v with live := v.live ++ [m] }
  | grant {v : LeaseView} {s id : Nat} {told : List ToClient} {blocked : Set Nat} : v.Grants s id told →
    v.blocked \ {s} ⊆ blocked → Move loose strand v (v.grantTo s id told blocked)
  | revoke {v : LeaseView} {k : EpochKey} {o : Nat} : k ∈ v.held →
    Move loose strand v
      { v with
        held := v.held \ {k}, top := Function.update v.top k.1 (v.top k.1 + 1), blocked := insert k.1 v.blocked
        live := v.live ++ [.lost k.1 k.2 o] }
  | unhold {v : LeaseView} {k : EpochKey} : loose ∨ ¬v.Alive k → Move loose strand v { v with held := v.held \ {k} }
  | fence {v : LeaseView} {k : EpochKey} : k ∈ v.held →
    Move loose strand v { v with held := v.held \ {k}, live := v.live ++ [.lost k.1 k.2 0] }
  | vacate {v : LeaseView} (s : Nat) :
    Move loose strand v { v with blocked := v.blocked \ {s}, live := v.live ++ [.vacated s] }

end LeaseView
end Ferryx
