import Ferryx.Daemon.LocalSplit

/-! Only the call that reserves the request spawns. Before it returns it publishes its session in the journal of its
workspace and reads the cancel fence; a cancel raises the fence and reads the journals. So one of the two sees the other,
and closes the session. -/

namespace Ferryx.Daemon
open Lib Std List Option SplitJournal SplitPhase

/-! ### The journals -/

namespace SplitJournal
variable {previous : Option SplitJournalEntry} {existing entry result : SplitJournalEntry} {fingerprint : String}

theorem begin_some : begin (some existing) entry = .error .journalConflict ∨
    begin (some existing) entry = .ok (false, some existing) := by
  simp only [begin]
  split
  · exact .inl rfl
  · exact .inr rfl

theorem upsert_none : upsert none entry = .ok entry := rfl

theorem upsert_same (h : existing.fingerprint = entry.fingerprint) : upsert (some existing) entry = .ok entry ∨
      upsert (some existing) entry = .ok { existing with sessionId := existing.sessionId <|> entry.sessionId } := by
  simp only [upsert, conflicts, h, any_some, ne_eq, not_true_eq_false, and_false, decide_false, Bool.false_eq_true,
    if_false]
  split
  · exact .inr rfl
  · exact .inl rfl

@[simp] theorem tombstone_outcome : (tombstone previous fingerprint).outcome = some .cancelled := rfl

theorem tombstone_some : (tombstone (some existing) fingerprint).fingerprint = existing.fingerprint ∧
    (tombstone (some existing) fingerprint).sessionId = existing.sessionId := ⟨rfl, rfl⟩

end SplitJournal

def Scope.isWorkspace : Scope → Bool
  | .workspace _ => true
  | _ => false

def SplitOperationResult.isCreated : SplitOperationResult → Bool
  | .created .. => true
  | _ => false

def SplitJournalEntry.created (e : SplitJournalEntry) : Prop := ∃ outcome, e.outcome = some outcome ∧
    outcome.isCreated = true

theorem SplitJournal.tombstone_not_created {previous : Option SplitJournalEntry} {fingerprint : String} :
    ¬(tombstone previous fingerprint).created := by
  intro hcreated
  obtain ⟨outcome, houtcome, hc⟩ := hcreated
  rw [tombstone_outcome, some_inj] at houtcome
  rw [← houtcome] at hc
  cases hc

/-! ### Steps that take nothing back -/

namespace SplitStore
variable {s s' : SplitStore} {scope scope' : Scope} {entry e : SplitJournalEntry}

theorem load_write : (s.write entry scope).load scope' = if scope = scope' then some entry else s.load scope' := by
  cases scope <;> cases scope' <;> simp [write, load, lookup_insert]

theorem mem_listing {order : List Scope} {name : String} (h : s.workspaces[name]? = some e) :
    Scope.workspace name ∈ s.listing order := by
  by_cases horder : Scope.workspace name ∈ order
  · exact mem_append_left _ horder
  · have hkey : name ∈ s.workspaces := ExtTreeMap.mem_iff_isSome_getElem?.mpr (by simp [h])
    simp [listing, horder, hkey]

def SomePublished (s : SplitStore) : Prop :=
  ∃ (name : String) (e : SplitJournalEntry) (S : Nat), s.workspaces[name]? = some e ∧ e.sessionId = some S

/-- What a step keeps that does not reserve, spawn or publish. -/
structure Quiet (s s' : SplitStore) : Prop where
  requestId : s'.requestId = s.requestId
  spawned : s'.spawned = s.spawned
  fenced : s.cancelled.isSome = true → s'.cancelled.isSome = true
  unreserved : s.requests = none → s'.requests = none
  unnamed : ∀ name : String, s.workspaces[name]? = none → s'.workspaces[name]? = none
  entries : ∀ scope e, s.load scope = some e → ∃ e', s'.load scope = some e' ∧ e'.fingerprint = e.fingerprint ∧
    (scope.isWorkspace = true → e'.sessionId = e.sessionId)
  sessions : ∀ (S : Nat) (m : StoredSessionMeta), s'.sessions[S]? = some m → s.sessions[S]? = some m
  created : ∀ scope e', s'.load scope = some e' → e'.created → s.SomePublished ∨ ∃ e, s.load scope = some e ∧ e.created

theorem Quiet.refl : Quiet s s where
  requestId := rfl
  spawned := rfl
  fenced := id
  unreserved := id
  unnamed := fun _ => id
  entries := fun _ e h => ⟨e, h, rfl, fun _ => rfl⟩
  sessions := fun _ _ => id
  created := fun _ e h hc => .inr ⟨e, h, hc⟩

theorem Quiet.write (h : s.load scope = some e) (hfingerprint : entry.fingerprint = e.fingerprint)
    (hsession : scope.isWorkspace = true → entry.sessionId = e.sessionId)
    (hcreated : entry.created → s.SomePublished ∨ e.created) : Quiet s (s.write entry scope) where
  requestId := by cases scope <;> rfl
  spawned := by cases scope <;> rfl
  fenced := by
    cases scope with
    | cancelled => exact fun _ => rfl
    | requests => exact id
    | workspace name => exact id
  unreserved := by
    cases scope with
    | cancelled => exact id
    | requests => exact fun hnone => absurd (hnone.symm.trans h) (by simp)
    | workspace name => exact id
  unnamed := by
    intro name hnone
    have hload : (s.write entry scope).load (.workspace name) = _ := load_write
    refine hload.trans ?_
    split
    next heq =>
      rw [heq] at h
      exact absurd (hnone.symm.trans h) (by simp)
    · exact hnone
  entries := by
    intro scope' e' he'
    rw [load_write]
    split
    next heq =>
      subst heq
      rw [h, some_inj] at he'
      subst he'
      exact ⟨entry, rfl, hfingerprint, hsession⟩
    · exact ⟨e', he', rfl, fun _ => rfl⟩
  sessions := by cases scope <;> exact fun _ _ => id
  created := by
    intro scope' e' he' hc
    rw [load_write] at he'
    split at he'
    next heq =>
      subst heq
      obtain hpub | hold := hcreated (some.inj he' ▸ hc)
      · exact .inl hpub
      · exact .inr ⟨e, h, hold⟩
    · exact .inr ⟨e', he', hc⟩

theorem Quiet.published (h : Quiet s s') (hp : s.SomePublished) : s'.SomePublished := by
  obtain ⟨name, e, S, he, hS⟩ := hp
  obtain ⟨e', he', -, hsession⟩ := h.entries (.workspace name) e he
  exact ⟨name, e', S, he', (hsession rfl).trans hS⟩

/-- The workspace of the request names the session. -/
def Published (s : SplitStore) (p : CreateParams) (S : Nat) : Prop := ∃ e, s.workspaces[p.workspace]? = some e ∧
    e.sessionId = some S

/-- A cancel at this phase has closed the session, or will. -/
def Covers (s : SplitStore) (p : CreateParams) (S : Nat) : SplitPhase → Prop
  | .cancelFence => True
  | .cancelList => True
  | .cancelLoad todo owned => S ∈ owned ∨ .workspace p.workspace ∈ todo
  | .cancelTombstone _ _ todo owned => S ∈ owned ∨ .workspace p.workspace ∈ todo
  | .closing owned => S ∈ owned ∨ s.sessions[S]? = none
  | .done _ => s.sessions[S]? = none
  | _ => False

variable {p : CreateParams} {S : Nat} {phase : SplitPhase} {choice : SplitChoice}

theorem Quiet.closed (h : Quiet s s') (hc : s.sessions[S]? = none) : s'.sessions[S]? = none := by
  cases hs : s'.sessions[S]? with
  | none => rfl
  | some m => exact absurd (hc.symm.trans (h.sessions S m hs)) (by simp)

theorem Quiet.keeps_published (h : Quiet s s') (hp : s.Published p S) : s'.Published p S := by
  obtain ⟨e, he, hS⟩ := hp
  obtain ⟨e', he', -, hsession⟩ := h.entries (.workspace p.workspace) e he
  exact ⟨e', he', (hsession rfl).trans hS⟩

theorem Covers.quiet (h : Quiet s s') (hc : s.Covers p S phase) : s'.Covers p S phase := by
  cases phase with
  | cancelFence | cancelList => trivial
  | cancelLoad | cancelTombstone => exact hc
  | closing => exact hc.imp id h.closed
  | done => exact h.closed hc
  | _ => exact hc

/-- Every session was spawned for this request. -/
def Mine (s : SplitStore) : Prop := ∀ (S : Nat) (m : StoredSessionMeta), s.sessions[S]? = some m →
    m.clientRequestId = s.requestId

theorem cancelStep_covers (hmine : s.Mine) (hp : s.Published p S) (hphase : phase.isCancel = true)
    (hc : s.Covers p S phase) :
    (s.cancelStep choice phase).1.Covers p S (s.cancelStep choice phase).2 := by
  obtain ⟨e, he, hS⟩ := hp
  cases phase with
  | cancelFence => trivial
  | cancelList => exact .inr (mem_listing he)
  | cancelLoad todo owned =>
    cases todo with
    | nil =>
      have howned : S ∈ owned := by simpa [Covers] using hc
      refine .inl ?_
      simpa using howned
    | cons scope todo =>
      simp only [cancelStep]
      obtain howned | htodo := hc
      · split
        · exact .inl howned
        · exact .inl (mem_append_left _ howned)
      · obtain hscope | htodo := mem_cons.mp htodo
        · have hload : s.load scope = some e := by
            rw [← hscope]
            exact he
          simp [hload, hS, Covers]
        · split
          · exact .inr htodo
          · exact .inr htodo
  | cancelTombstone scope fingerprint todo owned => exact hc
  | closing owned =>
    cases owned with
    | nil => simpa [Covers, cancelStep] using hc
    | cons sessionId owned =>
      have hclosed : s.sessions[S]? = none → (s.cancelStep choice (.closing (sessionId :: owned))).1.sessions[S]? =
          none := by
        intro hnone
        simp only [cancelStep]
        split
        · rw [lookup_erase, hnone, ite_self]
        · exact hnone
      obtain howned | hnone := hc
      · obtain rfl | howned := mem_cons.mp howned
        · right
          cases hsession : s.sessions[S]? with
          | none => exact hclosed hsession
          | some m => simp [cancelStep, hsession, hmine S m hsession]
        · exact .inl howned
      · exact .inr (hclosed hnone)
  | _ => cases hphase

/-! ### What a call knows at its phase -/

/-- The entry that a rebinding call is about to store is the journal's, but for its outcome and, among the requests, its
session. -/
def StoreOk (s : SplitStore) (scope : Scope) (r : SplitJournalEntry) : Prop :=
  ∃ e, s.load scope = some e ∧ e.fingerprint = r.fingerprint ∧ (scope.isWorkspace = true → e.sessionId = r.sessionId)

/-- What a call knows at its phase. -/
def PhaseOk (s : SplitStore) (c : SplitCall) : SplitPhase → Prop
  | .reserve | .spawn | .describe _ | .publish _ | .publishRequest _ | .fence _ => c.reserved = true
  | .statusDescribe .. | .rebindFence .. | .rebindList .. | .rebindLoad .. => s.SomePublished ∧ c.op ≠ .cancel
  | .rebindStore _ _ scope r _ => (s.SomePublished ∧ s.StoreOk scope r) ∧ c.op ≠ .cancel
  | .cancelFence => c.op = .cancel ∨ c.reserved = true
  | .cancelList | .cancelLoad .. | .closing _ => s.cancelled.isSome = true ∧ (c.op = .cancel ∨ c.reserved = true)
  | .cancelTombstone scope .. =>
    (s.cancelled.isSome = true ∧ (c.op = .cancel ∨ c.reserved = true)) ∧ (s.load scope).isSome = true
  | .done result => c.op = .cancel → result = .ok .cancelled ∧ s.cancelled.isSome = true
  | .admission | .fingerprints | .begin | .statusFence _ | .statusList _ | .statusScan .. => c.op ≠ .cancel

/-- Where a call can be that started after a cancel had returned. -/
def LateOk (s : SplitStore) : SplitOp → SplitPhase → Prop
  | .cancel, _ => True
  | _, .admission => True
  | _, .fingerprints => True
  | _, .statusFence false => True
  | _, .done (.ok .cancelled) => True
  | .create p, .done (.error .remoteWorkspace) => p.remote = true
  | .create _, .done (.error .admissionBudget) => True
  | .create p, .done (.error .requestConflict) =>
    ∃ recorded, s.requests = some recorded ∧ recorded.fingerprint ≠ p.fingerprint
  | _, _ => False

/-- A call knows what it should and reserves only to create. -/
structure CallOk (s : SplitStore) (c : SplitCall) : Prop where
  phase : s.PhaseOk c c.phase
  reserved : c.reserved = true → ∃ p, c.op = .create p
  late : c.late = true → s.cancelled.isSome = true ∧ s.LateOk c.op c.phase

variable {c : SplitCall}

/-- What a step keeps for the calls that do not take it. -/
structure Extends (s s' : SplitStore) : Prop where
  fenced : s.cancelled.isSome = true → s'.cancelled.isSome = true
  entries : ∀ scope e, s.load scope = some e → ∃ e', s'.load scope = some e' ∧ e'.fingerprint = e.fingerprint
  rebinding : s.SomePublished → s'.SomePublished ∧ ∀ scope r, s.StoreOk scope r → s'.StoreOk scope r

theorem Quiet.extends (h : Quiet s s') : Extends s s' where
  fenced := h.fenced
  entries := by
    intro scope e he
    obtain ⟨e', he', hfingerprint, -⟩ := h.entries scope e he
    exact ⟨e', he', hfingerprint⟩
  rebinding := by
    refine fun hp => ⟨h.published hp, ?_⟩
    intro scope r hr
    obtain ⟨e, he, hfingerprint, hsession⟩ := hr
    obtain ⟨e', he', hfingerprint', hsession'⟩ := h.entries scope e he
    exact ⟨e', he', hfingerprint'.trans hfingerprint, fun hw => (hsession' hw).trans (hsession hw)⟩

theorem Extends.load_isSome (h : Extends s s') (hs : (s.load scope).isSome = true) : (s'.load scope).isSome = true := by
  obtain ⟨e, he⟩ := isSome_iff_exists.mp hs
  obtain ⟨e', he', -⟩ := h.entries scope e he
  simp [he']

theorem PhaseOk.extends (h : Extends s s') (hp : s.PhaseOk c phase) : s'.PhaseOk c phase := by
  cases phase with
  | statusDescribe | rebindFence | rebindList | rebindLoad => exact ⟨(h.rebinding hp.1).1, hp.2⟩
  | rebindStore => exact ⟨⟨(h.rebinding hp.1.1).1, (h.rebinding hp.1.1).2 _ _ hp.1.2⟩, hp.2⟩
  | cancelList | cancelLoad | closing => exact ⟨h.fenced hp.1, hp.2⟩
  | cancelTombstone => exact ⟨⟨h.fenced hp.1.1, hp.1.2⟩, h.load_isSome hp.2⟩
  | done => exact fun hop => ⟨(hp hop).1, h.fenced (hp hop).2⟩
  | _ => exact hp

theorem LateOk.extends {op : SplitOp} (h : Extends s s') (hl : s.LateOk op phase) : s'.LateOk op phase := by
  unfold LateOk at hl ⊢
  split at hl <;> try exact hl
  next p =>
    obtain ⟨recorded, hrecorded, hne⟩ := hl
    obtain ⟨e', he', hsame⟩ := h.entries .requests recorded hrecorded
    exact ⟨e', he', hsame ▸ hne⟩

theorem CallOk.extends (h : Extends s s') (hc : s.CallOk c) : s'.CallOk c where
  phase := hc.phase.extends h
  reserved := hc.reserved
  late := fun hlate => ⟨h.fenced (hc.late hlate).1, (hc.late hlate).2.extends h⟩

theorem afterStatus_phase {retry : Bool} {result : SplitOperationResult} (h : c.op ≠ .cancel) :
    s.PhaseOk c (c.op.afterStatus retry result) := by
  unfold SplitOp.afterStatus
  split
  · exact h
  · exact fun hop => absurd hop h

/-- Whoever finds the outcome of a creation finds a session that is published. -/
def Sourced (s : SplitStore) : Prop := ∀ scope e, s.load scope = some e → e.created → s.SomePublished

theorem Sourced.quiet (h : Quiet s s') (hs : s.Sourced) : s'.Sourced := by
  intro scope e' he' hc
  obtain hp | ⟨e, he, hc⟩ := h.created scope e' he' hc
  · exact h.published hp
  · exact h.published (hs scope e he hc)

theorem store_quiet {r : SplitJournalEntry} {next : SplitPhase} (hr : s.StoreOk scope r)
    (hcreated : r.created → s.SomePublished) :
    Quiet s (s.store scope r next).1 ∧ (s.store scope r next).2 = next := by
  obtain ⟨e, he, hfingerprint, hsession⟩ := hr
  obtain hupsert | hupsert := upsert_same hfingerprint
  · simp only [store, he, hupsert, and_true]
    exact .write he hfingerprint.symm (fun hw => (hsession hw).symm) fun hc => .inl (hcreated hc)
  · simp only [store, he, hupsert, and_true]
    refine .write he rfl (fun hw => ?_) .inr
    simp [hsession hw]

/-! ### Steps of a status call -/

theorem statusStep_quiet (hc : s.CallOk c) (hphase : c.phase.isStatus = true) :
    Quiet s (s.statusStep c.op choice c.phase).1 := by
  have hok := hc.phase
  cases hp : c.phase with
  | rebindStore retry rebound scope r todo =>
    rw [hp] at hok
    exact (store_quiet hok.1.2 fun _ => hok.1.1).1
  | statusScan retry todo reserved => cases todo <;> exact .refl
  | rebindLoad retry rebound todo => cases todo <;> exact .refl
  | statusFence | statusList | statusDescribe | rebindFence | rebindList => exact .refl
  | _ => simp [hp, isStatus] at hphase

theorem statusStep_phase (hc : s.CallOk c) (hs : s.Sourced) (hphase : c.phase.isStatus = true) :
    s.PhaseOk c (s.statusStep c.op choice c.phase).2 := by
  have hok := hc.phase
  cases hp : c.phase with rw [hp] at hok
  | statusFence retry =>
    simp only [statusStep]
    split
    · exact afterStatus_phase hok
    · exact hok
  | statusList retry =>
    exact hok
  | statusScan retry todo reserved =>
    cases todo with
    | nil => exact afterStatus_phase hok
    | cons scope todo =>
      simp only [statusStep]
      split
      · exact hok
      next record hrecord =>
        split
        · exact hok
        next outcome => exact ⟨hs scope record hrecord ⟨_, outcome, rfl⟩, hok⟩
        · exact afterStatus_phase hok
  | statusDescribe retry sessionId recorded =>
    simp only [statusStep]
    split
    · exact hok
    · exact afterStatus_phase hok.2
  | rebindFence retry rebound =>
    simp only [statusStep]
    split
    · exact afterStatus_phase hok.2
    · exact hok
  | rebindList retry rebound =>
    exact hok
  | rebindLoad retry rebound todo =>
    cases todo with
    | nil => exact afterStatus_phase hok.2
    | cons scope todo =>
      simp only [statusStep]
      split
      · exact hok
      next record hrecord => exact ⟨⟨hok.1, record, hrecord, rfl, fun _ => rfl⟩, hok.2⟩
  | rebindStore retry rebound scope r todo =>
    have hnext : (s.statusStep c.op choice (.rebindStore retry rebound scope r todo)).2 = .rebindLoad retry rebound todo :=
      (store_quiet hok.1.2 fun _ => hok.1.1).2
    rw [hnext]
    exact ⟨hok.1.1, hok.2⟩
  | _ => simp [hp, isStatus] at hphase

theorem statusStep_late (hc : s.CallOk c) (hphase : c.phase.isStatus = true) (hlate : c.late = true) :
    s.LateOk c.op (s.statusStep c.op choice c.phase).2 := by
  obtain ⟨hfenced, hl⟩ := hc.late hlate
  have hok := hc.phase
  cases hp : c.phase with
  | statusFence retry =>
    rw [hp] at hl hok
    simp only [statusStep, hfenced, if_true]
    cases hop : c.op with
    | cancel => trivial
    | create p =>
      cases retry with
      | false => trivial
      | true => simp [LateOk, hop] at hl
    | status expiresAt =>
      cases retry with
      | false => trivial
      | true => simp [LateOk, hop] at hl
  | statusList | statusScan | statusDescribe | rebindFence | rebindList | rebindLoad | rebindStore =>
    rw [hp] at hl
    cases hop : c.op with
    | cancel => trivial
    | create p => simp [LateOk, hop] at hl
    | status expiresAt => simp [LateOk, hop] at hl
  | _ => simp [hp, isStatus] at hphase

section
variable (hc : s.CallOk c) (hphase : c.phase.isCancel = true)
include hc hphase

/-! ### Steps of a cancel call -/

theorem cancelStep_quiet : Quiet s (s.cancelStep choice c.phase).1 := by
  have hok := hc.phase
  cases hp : c.phase with
  | cancelFence =>
    refine ⟨rfl, rfl, fun _ => rfl, id, fun _ => id, ?_, fun _ _ => id, ?_⟩
    · intro scope e he
      simp only [cancelStep, load_write]
      split
      next heq =>
        subst heq
        simp only [load] at he
        exact ⟨_, rfl, by rw [he]; rfl, fun hw => by cases hw⟩
      · exact ⟨e, he, rfl, fun _ => rfl⟩
    · intro scope e' he' hcreated
      simp only [cancelStep, load_write] at he'
      split at he'
      · exact absurd (some.inj he' ▸ hcreated) tombstone_not_created
      · exact .inr ⟨e', he', hcreated⟩
  | cancelLoad todo owned => cases todo <;> exact .refl
  | cancelTombstone scope fingerprint todo owned =>
    rw [hp] at hok
    obtain ⟨e, he⟩ := isSome_iff_exists.mp hok.2
    simp only [cancelStep, he]
    exact .write he tombstone_some.1 (fun _ => tombstone_some.2) fun hcreated =>
      absurd hcreated tombstone_not_created
  | closing owned =>
    cases owned with
    | nil => exact .refl
    | cons sessionId owned =>
      simp only [cancelStep]
      split
      · refine ⟨rfl, rfl, id, id, fun _ => id, fun _ e he => ⟨e, he, rfl, fun _ => rfl⟩, ?_, fun _ e he hc =>
          .inr ⟨e, he, hc⟩⟩
        intro S m hm
        rw [lookup_erase] at hm
        split at hm
        · cases hm
        · exact hm
      · exact .refl
  | cancelList => exact .refl
  | _ => simp [hp, isCancel] at hphase

theorem cancelStep_phase : (s.cancelStep choice c.phase).1.PhaseOk c (s.cancelStep choice c.phase).2 := by
  have hok := hc.phase
  have hext : Extends s (s.cancelStep choice c.phase).1 := (cancelStep_quiet hc hphase).extends
  cases hp : c.phase with
  | cancelFence =>
    rw [hp] at hok
    exact ⟨rfl, hok⟩
  | cancelList =>
    rw [hp] at hok
    exact hok
  | cancelLoad todo owned =>
    rw [hp] at hok
    cases todo with
    | nil => exact hok
    | cons scope todo =>
      simp only [cancelStep]
      split
      · exact hok
      next record hrecord => exact ⟨hok, by simp [hrecord]⟩
  | cancelTombstone scope fingerprint todo owned =>
    rw [hp] at hok hext
    exact ⟨hext.fenced hok.1.1, hok.1.2⟩
  | closing owned =>
    rw [hp] at hok hext
    cases owned with
    | nil => exact fun _ => ⟨rfl, hok.1⟩
    | cons sessionId owned => exact ⟨hext.fenced hok.1, hok.2⟩
  | _ => simp [hp, isCancel] at hphase

theorem cancelStep_late (hlate : c.late = true) (phase' : SplitPhase) : s.LateOk c.op phase' := by
  have hl := (hc.late hlate).2
  cases hop : c.op with
  | cancel => cases phase' <;> trivial
  | create p =>
    rw [hop] at hl
    cases hp : c.phase <;> simp [hp, isCancel] at hphase <;> simp [hp, LateOk] at hl
  | status expiresAt =>
    rw [hop] at hl
    cases hp : c.phase <;> simp [hp, isCancel] at hphase <;> simp [hp, LateOk] at hl

end

/-- The workspace of the request has an entry without a session. -/
def Unnamed (s : SplitStore) (p : CreateParams) : Prop := ∃ e, s.workspaces[p.workspace]? = some e ∧ e.sessionId = none

theorem Unnamed.quiet (h : Quiet s s') (hu : s.Unnamed p) : s'.Unnamed p := by
  obtain ⟨e, he, hnone⟩ := hu
  obtain ⟨e', he', -, hsession⟩ := h.entries (.workspace p.workspace) e he
  exact ⟨e', he', (hsession rfl).trans hnone⟩

end SplitStore

/-! ### The invariant of a request -/

namespace Splits
open SplitStore
variable {w w' : Splits} {s' : SplitStore} {c c' : SplitCall} {i : Nat} {p : CreateParams} {S : Nat} {phase : SplitPhase}
  {choice : SplitChoice}

/-- What has been spawned and published when the call that reserved the request is at this phase. -/
def OwnerState (w : Splits) (p : CreateParams) : SplitPhase → Prop
  | .reserve => w.store.spawned = [] ∧ ∀ name : String, w.store.workspaces[name]? = none
  | .spawn => w.store.spawned = [] ∧ w.store.Unnamed p
  | .describe S => w.store.spawned = [S] ∧ w.store.Unnamed p
  | .publish e => w.store.Unnamed p ∧ e.fingerprint = p.fingerprint ∧
      ((w.store.spawned = [] ∧ e.sessionId = none ∧ ¬e.created) ∨ ∃ S, w.store.spawned = [S] ∧ e.sessionId = some S)
  | .publishRequest e => e.fingerprint = p.fingerprint ∧
      ((w.store.spawned = [] ∧ ¬e.created) ∨ ∃ S, w.store.spawned = [S] ∧ w.store.Published p S)
  | .fence _ => w.store.spawned = [] ∨ ∃ S, w.store.spawned = [S] ∧ w.store.Published p S
  | .done _ => w.store.spawned = [] ∨ ∃ S, w.store.spawned = [S] ∧ w.store.Published p S ∧
      (w.store.sessions[S]? = none ∨ ∀ d ∈ w.calls, d.op = .cancel → w.store.Covers p S d.phase)
  | phase => phase.isCancel = true ∧
      (w.store.spawned = [] ∨ ∃ S, w.store.spawned = [S] ∧ w.store.Published p S ∧ w.store.Covers p S phase)

/-- The call `i` alone has reserved the request. -/
structure Reserved (w : Splits) (i : Nat) (c : SplitCall) (p : CreateParams) : Prop where
  call : w.calls[i]? = some c
  op : c.op = .create p
  flag : c.reserved = true
  only : ∀ j d, w.calls[j]? = some d → d.reserved = true → j = i
  requests : ∃ e, w.store.requests = some e ∧ e.fingerprint = p.fingerprint
  workspaces : ∀ (name : String) (e : SplitJournalEntry), w.store.workspaces[name]? = some e →
    name = p.workspace ∧ e.fingerprint = p.fingerprint
  state : w.OwnerState p c.phase

structure Fresh (w : Splits) : Prop where
  requests : w.store.requests = none
  workspaces : ∀ name : String, w.store.workspaces[name]? = none
  spawned : w.store.spawned = []
  flags : ∀ d ∈ w.calls, d.reserved = false

/-- The sessions are the request's own, and one call at most has reserved it. -/
structure Inv (w : Splits) : Prop where
  mine : w.store.Mine
  sourced : w.store.Sourced
  calls : ∀ d ∈ w.calls, w.store.CallOk d
  owner : w.Fresh ∨ ∃ i c p, w.Reserved i c p

/-- What the cancels among the calls cover, they cover after the step. -/
def CoversOn (w w' : Splits) : Prop :=
  ∀ p S, w.store.Published p S → (∀ d ∈ w.calls, d.op = .cancel → w.store.Covers p S d.phase) →
    ∀ d ∈ w'.calls, d.op = .cancel → w'.store.Covers p S d.phase

theorem OwnerState.quiet (hq : Quiet w.store w'.store) (hcovers : w.CoversOn w') (h : w.OwnerState p phase) :
    w'.OwnerState p phase := by
  have hs := hq.spawned
  have hpub : ∀ {S}, w.store.Published p S → w'.store.Published p S := hq.keeps_published
  cases phase with
  | reserve => exact ⟨hs.trans h.1, fun name => hq.unnamed name (h.2 name)⟩
  | spawn => exact ⟨hs.trans h.1, h.2.quiet hq⟩
  | describe S => exact ⟨hs.trans h.1, h.2.quiet hq⟩
  | publish e =>
    refine ⟨h.1.quiet hq, h.2.1, ?_⟩
    obtain ⟨hnil, hnone⟩ | ⟨S, hone, hS⟩ := h.2.2
    · exact .inl ⟨hs.trans hnil, hnone⟩
    · exact .inr ⟨S, hs.trans hone, hS⟩
  | publishRequest e =>
    refine ⟨h.1, ?_⟩
    obtain ⟨hnil, hnot⟩ | ⟨S, hone, hp⟩ := h.2
    · exact .inl ⟨hs.trans hnil, hnot⟩
    · exact .inr ⟨S, hs.trans hone, hpub hp⟩
  | fence e =>
    obtain hnil | ⟨S, hone, hp⟩ := h
    · exact .inl (hs.trans hnil)
    · exact .inr ⟨S, hs.trans hone, hpub hp⟩
  | done result =>
    obtain hnil | ⟨S, hone, hp, hclosed | hcov⟩ := h
    · exact .inl (hs.trans hnil)
    · exact .inr ⟨S, hs.trans hone, hpub hp, .inl (hq.closed hclosed)⟩
    · exact .inr ⟨S, hs.trans hone, hpub hp, .inr (hcovers p S hp hcov)⟩
  | cancelFence | cancelList | cancelLoad | cancelTombstone | closing =>
    refine ⟨rfl, ?_⟩
    obtain hnil | ⟨S, hone, hp, hcov⟩ := h.2
    · exact .inl (hs.trans hnil)
    · exact .inr ⟨S, hs.trans hone, hpub hp, hcov.quiet hq⟩
  | _ => cases h.1

variable {s s' : SplitStore}

theorem Mine.quiet (hq : Quiet s s') (h : s.Mine) : s'.Mine := fun S m hm =>
  (h S m (hq.sessions S m hm)).trans hq.requestId.symm

theorem Reserved.quiet (hq : Quiet w.store w'.store) (h : w.Reserved i c p) (hcall : w'.calls[i]? = some c')
    (hop : c'.op = c.op)
    (hflag : c'.reserved = c.reserved) (honly : ∀ j d, w'.calls[j]? = some d → d.reserved = true → j = i)
    (hstate : w'.OwnerState p c'.phase) : w'.Reserved i c' p where
  call := hcall
  op := hop.trans h.op
  flag := hflag.trans h.flag
  only := honly
  requests := by
    obtain ⟨e, he, hfingerprint⟩ := h.requests
    obtain ⟨e', he', hsame, -⟩ := hq.entries .requests e he
    exact ⟨e', he', hsame.trans hfingerprint⟩
  workspaces := by
    intro name e' he'
    cases hload : w.store.workspaces[name]? with
    | none => exact absurd ((hq.unnamed name hload).symm.trans he') (by simp)
    | some e =>
      obtain ⟨hname, hfingerprint⟩ := h.workspaces name e hload
      obtain ⟨e'', he'', hsame, -⟩ := hq.entries (.workspace name) e hload
      obtain rfl : e' = e'' := some.inj (he'.symm.trans he'')
      exact ⟨hname, hsame.trans hfingerprint⟩
  state := hstate

theorem calls_set_only (h : ∀ j d, w.calls[j]? = some d → d.reserved = true → j = i) {k : Nat}
    (hflag : c'.reserved = true → k = i) :
    ∀ j d, (w.calls.set k c')[j]? = some d → d.reserved = true → j = i := by
  intro j d hj hd
  rw [getElem?_set] at hj
  split at hj
  next heq =>
    split at hj
    · exact heq ▸ hflag (some.inj hj ▸ hd)
    · cases hj
  · exact h j d hj hd

theorem Inv.quiet_step (h : Inv w) (hc : w.calls[i]? = some c) (hq : Quiet w.store s') (hok : s'.CallOk c')
    (hop : c'.op = c.op)
    (hflag : c'.reserved = c.reserved)
    (hcancel : ∀ p S, w.store.Published p S → c.op = .cancel → w.store.Covers p S c.phase → s'.Covers p S c'.phase)
    (howner : ∀ p, w.Reserved i c p → OwnerState ⟨s', w.calls.set i c'⟩ p c'.phase) : Inv ⟨s', w.calls.set i c'⟩ := by
  have hlt : i < w.calls.length := (List.getElem?_eq_some_iff.mp hc).1
  have hmem : c ∈ w.calls := mem_of_getElem? hc
  have hcovers : w.CoversOn ⟨s', w.calls.set i c'⟩ := by
    intro p S hp hcov d hd hdop
    obtain hd | rfl := mem_or_eq_of_mem_set hd
    · exact (hcov d hd hdop).quiet hq
    · exact hcancel p S hp (hop ▸ hdop) (hcov c hmem (hop ▸ hdop))
  refine ⟨Mine.quiet hq h.mine, h.sourced.quiet hq, ?_, ?_⟩
  · intro d hd
    obtain hd | rfl := mem_or_eq_of_mem_set hd
    · exact (h.calls d hd).extends hq.extends
    · exact hok
  · obtain hfresh | ⟨j, d, p, hres⟩ := h.owner
    · refine .inl ⟨hq.unreserved hfresh.requests, fun name => hq.unnamed name (hfresh.workspaces name),
        hq.spawned.trans hfresh.spawned, ?_⟩
      intro d hd
      obtain hd | rfl := mem_or_eq_of_mem_set hd
      · exact hfresh.flags d hd
      · exact hflag.trans (hfresh.flags c hmem)
    · right
      by_cases hij : i = j
      · subst hij
        obtain rfl : c = d := some.inj (hc.symm.trans hres.call)
        exact ⟨i, c', p, hres.quiet hq (by simp [hlt]) hop hflag (calls_set_only hres.only fun _ => rfl) (howner p hres)⟩
      · refine ⟨j, d, p, hres.quiet hq ?_ rfl rfl (calls_set_only hres.only fun hf => ?_) (hres.state.quiet hq hcovers)⟩
        · show (w.calls.set i c')[j]? = some d
          rw [getElem?_set_ne hij]
          exact hres.call
        · exact hres.only i c hc (hflag ▸ hf)

def movedTo (c : SplitCall) (phase : SplitPhase) : SplitCall :=
  { c with phase := phase, reserved := c.reserved || c.phase.reserves phase }

theorem movedTo_reserved (h : c.phase.reserves phase = false) : (movedTo c phase).reserved = c.reserved := by
  simp [movedTo, h]

theorem reserves_of_ne_begin (h : c.phase ≠ .begin) : c.phase.reserves phase = false := by
  cases hp : c.phase with
  | begin => exact absurd hp h
  | _ => rfl

theorem phaseOk_congr (hop : c'.op = c.op) (hflag : c'.reserved = c.reserved) (h : s.PhaseOk c phase) :
    s.PhaseOk c' phase := by
  cases phase <;> simpa [PhaseOk, hop, hflag] using h

theorem callOk_movedTo (hc : s.CallOk c) (hext : Extends s s') (hreserves : c.phase.reserves phase = false)
    (hphase : s'.PhaseOk c phase) (hlate : c.late = true → s'.LateOk c.op phase) : s'.CallOk (movedTo c phase) where
  phase := phaseOk_congr (c := c) rfl (movedTo_reserved hreserves) hphase
  reserved := fun h => hc.reserved ((movedTo_reserved hreserves).symm.trans h)
  late := fun h => ⟨hext.fenced (hc.late h).1, hlate h⟩

theorem Inv.reserved_of (h : Inv w) (hc : w.calls[i]? = some c) (hflag : c.reserved = true) (hop : c.op = .create p) :
    w.Reserved i c p := by
  obtain hfresh | ⟨j, d, p', hres⟩ := h.owner
  · exact absurd hflag (by simp [hfresh.flags c (mem_of_getElem? hc)])
  · obtain rfl := hres.only i c hc hflag
    obtain rfl : c = d := some.inj (hc.symm.trans hres.call)
    obtain rfl : p = p' := by
      have hsame := hop.symm.trans hres.op
      injection hsame
    exact hres

/-! ### Status and cancel calls keep the invariant -/

theorem Inv.status_step (h : Inv w) (hc : w.calls[i]? = some c) (hphase : c.phase.isStatus = true) :
    Inv ⟨(w.store.statusStep c.op choice c.phase).1,
      w.calls.set i (movedTo c (w.store.statusStep c.op choice c.phase).2)⟩ := by
  have hcall := h.calls c (mem_of_getElem? hc)
  have hq : Quiet w.store (w.store.statusStep c.op choice c.phase).1 := statusStep_quiet hcall hphase
  have hreserves : ∀ phase', c.phase.reserves phase' = false := fun _ =>
    reserves_of_ne_begin fun hbegin => by simp [hbegin, isStatus] at hphase
  refine h.quiet_step hc hq ?_ rfl (movedTo_reserved (hreserves _)) ?_ ?_
  · exact callOk_movedTo hcall hq.extends (hreserves _) ((statusStep_phase hcall h.sourced hphase).extends hq.extends)
      fun hlate => (statusStep_late hcall hphase hlate).extends hq.extends
  · intro p S _ _ hcov
    cases hp : c.phase <;> simp [hp, isStatus] at hphase <;> simp [hp, Covers] at hcov
  · intro p hres
    have hstate := hres.state
    cases hp : c.phase <;> simp [hp, isStatus] at hphase <;> simp [hp, OwnerState, isCancel] at hstate

theorem cancelStep_next (hphase : phase.isCancel = true) :
    (s.cancelStep choice phase).2.isCancel = true ∨ (s.cancelStep choice phase).2 = .done (.ok .cancelled) := by
  cases phase with
  | cancelFence | cancelList | cancelTombstone => exact .inl rfl
  | cancelLoad todo owned =>
    cases todo with
    | nil => exact .inl rfl
    | cons scope todo =>
      simp only [cancelStep]
      split <;> exact .inl rfl
  | closing owned =>
    cases owned with
    | nil => exact .inr rfl
    | cons sessionId owned => exact .inl rfl
  | _ => cases hphase

theorem ownerState_of_covers (hphase : phase.isCancel = true ∨ phase = .done (.ok .cancelled))
    (h : w.store.spawned = [] ∨ ∃ S, w.store.spawned = [S] ∧ w.store.Published p S ∧ w.store.Covers p S phase) :
      w.OwnerState p phase := by
  obtain hcancel | rfl := hphase
  · cases phase with
    | cancelFence | cancelList | cancelLoad | cancelTombstone | closing => exact ⟨rfl, h⟩
    | _ => cases hcancel
  · obtain hnil | ⟨S, hone, hp, hcov⟩ := h
    · exact .inl hnil
    · exact .inr ⟨S, hone, hp, .inl hcov⟩

theorem Inv.cancel_step (h : Inv w) (hc : w.calls[i]? = some c) (hphase : c.phase.isCancel = true) :
    Inv ⟨(w.store.cancelStep choice c.phase).1, w.calls.set i (movedTo c (w.store.cancelStep choice c.phase).2)⟩ := by
  have hcall := h.calls c (mem_of_getElem? hc)
  have hq : Quiet w.store (w.store.cancelStep choice c.phase).1 := cancelStep_quiet hcall hphase
  have hreserves : ∀ phase', c.phase.reserves phase' = false := fun _ =>
    reserves_of_ne_begin fun hbegin => by simp [hbegin, isCancel] at hphase
  refine h.quiet_step hc hq ?_ rfl (movedTo_reserved (hreserves _)) ?_ ?_
  · exact callOk_movedTo hcall hq.extends (hreserves _) (cancelStep_phase hcall hphase)
      fun hlate => (cancelStep_late hcall hphase hlate _).extends hq.extends
  · intro p S hp _ hcov
    exact cancelStep_covers h.mine hp hphase hcov
  · intro p hres
    refine ownerState_of_covers (cancelStep_next hphase) ?_
    have hstate : w.store.spawned = [] ∨ ∃ S, w.store.spawned = [S] ∧ w.store.Published p S ∧
        w.store.Covers p S c.phase := by
      have hstate := hres.state
      cases hp : c.phase <;> simp only [hp, isCancel, Bool.false_eq_true] at hphase <;> simp only [hp] at hstate <;>
        exact hstate.2
    obtain hnil | ⟨S, hone, hp, hcov⟩ := hstate
    · exact .inl (hq.spawned.trans hnil)
    · exact .inr ⟨S, hq.spawned.trans hone, hq.keeps_published hp, cancelStep_covers h.mine hp hphase hcov⟩

theorem Inv.still_step (h : Inv w) (hc : w.calls[i]? = some c) (hop : c.op = .create p)
    (hreserves : c.phase.reserves phase = false)
    (hphase : w.store.PhaseOk c phase) (hlate : c.late = true → w.store.LateOk c.op phase)
    (howner : w.Reserved i c p → OwnerState ⟨w.store, w.calls.set i (movedTo c phase)⟩ p phase) :
    Inv ⟨w.store, w.calls.set i (movedTo c phase)⟩ := by
  refine h.quiet_step hc .refl (callOk_movedTo (h.calls c (mem_of_getElem? hc)) Quiet.refl.extends hreserves hphase hlate)
    rfl
    (movedTo_reserved hreserves) (fun _ _ _ hcancel => absurd hcancel (by simp [hop])) fun p' hres => ?_
  obtain rfl := SplitOp.create.inj (hop.symm.trans hres.op)
  exact howner hres

theorem Inv.owner_step (h : Inv w) (hres : w.Reserved i c p) (hext : Extends w.store s') (hmine : s'.Mine)
    (hsourced : s'.Sourced)
    (hrequests : s'.requests = w.store.requests)
      (hworkspaces : ∀ (name : String) (e : SplitJournalEntry), s'.workspaces[name]? = some e →
      name = p.workspace ∧ e.fingerprint = p.fingerprint)
    (hok : s'.CallOk (movedTo c phase)) (hstate : OwnerState ⟨s', w.calls.set i (movedTo c phase)⟩ p phase) :
    Inv ⟨s', w.calls.set i (movedTo c phase)⟩ := by
  have hlt : i < w.calls.length := (List.getElem?_eq_some_iff.mp hres.call).1
  refine ⟨hmine, hsourced, ?_, .inr ⟨i, movedTo c phase, p, ?_⟩⟩
  · intro d hd
    obtain hd | rfl := mem_or_eq_of_mem_set hd
    · exact (h.calls d hd).extends hext
    · exact hok
  · refine ⟨by simp [hlt], hres.op, by simp [movedTo,
      hres.flag], calls_set_only hres.only fun _ => rfl, ?_, hworkspaces, hstate⟩
    show ∃ e, s'.requests = some e ∧ e.fingerprint = p.fingerprint
    rw [hrequests]
    exact hres.requests

/-! ### The call that reserves the request -/

theorem Inv.reserve_step (h : Inv w) (hc : w.calls[i]? = some c) (hop : c.op = .create p) (hphase : c.phase = .begin)
    (hnone : w.store.requests = none) :
      Inv ⟨{ w.store with requests := some p.entry }, w.calls.set i (movedTo c .reserve)⟩ := by
  have hlt : i < w.calls.length := (List.getElem?_eq_some_iff.mp hc).1
  have hmem : c ∈ w.calls := mem_of_getElem? hc
  have hfresh : w.Fresh := by
    obtain hfresh | ⟨j, d, p', hres⟩ := h.owner
    · exact hfresh
    · obtain ⟨e, he, -⟩ := hres.requests
      exact absurd (hnone.symm.trans he) (by simp)
  have hload : ∀ scope, scope ≠ .requests → ({ w.store with requests := some p.entry } : SplitStore).load scope =
      w.store.load scope := by
    intro scope hne
    cases scope with
    | requests => exact absurd rfl hne
    | cancelled | workspace => rfl
  have hkept : ∀ scope e, w.store.load scope = some e →
      ({ w.store with requests := some p.entry } : SplitStore).load scope = some e := by
    intro scope e he
    rw [hload scope, he]
    intro hreq
    rw [hreq] at he
    exact absurd (hnone.symm.trans he) (by simp)
  have hext : Extends w.store { w.store with requests := some p.entry } := by
    refine ⟨id, fun scope e he => ⟨e, hkept scope e he, rfl⟩, fun hp => ⟨hp, ?_⟩⟩
    intro scope r hr
    obtain ⟨e, he, hsame⟩ := hr
    exact ⟨e, hkept scope e he, hsame⟩
  refine ⟨h.mine, ?_, ?_, .inr ⟨i, movedTo c .reserve, p, ?_⟩⟩
  · intro scope e he hcreated
    by_cases hreq : scope = .requests
    · obtain ⟨outcome, houtcome, -⟩ := hcreated
      rw [hreq] at he
      rw [← some.inj he] at houtcome
      cases houtcome
    · exact h.sourced scope e (hload scope hreq ▸ he) hcreated
  · intro d hd
    obtain hd | rfl := mem_or_eq_of_mem_set hd
    · exact (h.calls d hd).extends hext
    · refine ⟨by simp [movedTo, PhaseOk, hphase, reserves], fun _ => ⟨p, hop⟩, fun hlate => ?_⟩
      -- a call that started after a cancel has returned never reaches `begin`
      have hl := ((h.calls c hmem).late hlate).2
      simp [hphase, hop, LateOk] at hl
  · refine ⟨by simp [hlt], hop, by simp [movedTo, hphase, reserves], ?_, ⟨_, rfl,
      rfl⟩, ?_, hfresh.spawned, hfresh.workspaces⟩
    · refine calls_set_only (fun j d hj hd => ?_) fun _ => rfl
      exact absurd hd (by simp [hfresh.flags d (mem_of_getElem? hj)])
    · intro name e he
      exact absurd ((hfresh.workspaces name).symm.trans he) (by simp)

theorem Inv.not_late (h : Inv w) (hc : w.calls[i]? = some c) (hl : ¬w.store.LateOk c.op c.phase) : c.late = false := by
  cases hlate : c.late with
  | false => rfl
  | true => exact absurd ((h.calls c (mem_of_getElem? hc)).late hlate).2 hl

section
variable (h : Inv w) (hres : w.Reserved i c p)
include h hres

theorem Inv.owner_ok (hl : ¬w.store.LateOk c.op c.phase) (hphase : s'.PhaseOk (movedTo c phase) phase) :
    s'.CallOk (movedTo c phase) where
  phase := hphase
  reserved := fun _ => ⟨p, hres.op⟩
  late := fun hlate => absurd (show c.late = true from hlate) (by simp [h.not_late hres.call hl])

theorem Inv.enter_workspace (hphase : c.phase = .reserve) :
    Inv ⟨w.store.write p.entry (.workspace p.workspace), w.calls.set i (movedTo c .spawn)⟩ := by
  have hstate := hres.state
  rw [hphase] at hstate
  obtain ⟨hspawned, hnone⟩ := hstate
  have hunpublished : ¬w.store.SomePublished := by
    intro hp
    obtain ⟨name, e, S, he, -⟩ := hp
    exact absurd ((hnone name).symm.trans he) (by simp)
  have hlookup : ∀ name : String, (w.store.workspaces.insert p.workspace p.entry)[name]? =
      if p.workspace = name then some p.entry else w.store.workspaces[name]? := fun _ => lookup_insert ..
  refine h.owner_step hres ⟨id, ?_, fun hp => absurd hp hunpublished⟩ h.mine ?_ rfl ?_ ?_ ⟨hspawned, p.entry, ?_, rfl⟩
  · intro scope e he
    rw [load_write]
    split
    next heq =>
      rw [← heq] at he
      exact absurd ((hnone _).symm.trans he) (by simp)
    · exact ⟨e, he, rfl⟩
  · intro scope e he hcreated
    rw [load_write] at he
    split at he
    · obtain ⟨outcome, houtcome, -⟩ := hcreated
      rw [← some.inj he] at houtcome
      cases houtcome
    · exact absurd (h.sourced scope e he hcreated) hunpublished
  · intro name e he
    simp only [write, hlookup] at he
    split at he
    next heq => exact ⟨heq.symm, some.inj he ▸ rfl⟩
    · exact absurd ((hnone name).symm.trans he) (by simp)
  · exact h.owner_ok hres (by simp [hphase, hres.op, LateOk]) (by simp [PhaseOk, movedTo, hres.flag])
  · simp [write]

theorem Inv.spawn_session {details : SessionDetails} (hphase : c.phase = .spawn) : Inv ⟨{ w.store with
        sessions := w.store.sessions.insert w.store.nextSession ⟨w.store.requestId, details⟩
        nextSession := w.store.nextSession + 1
        spawned := w.store.nextSession :: w.store.spawned },
      w.calls.set i (movedTo c (.describe w.store.nextSession))⟩ := by
  have hstate := hres.state
  rw [hphase] at hstate
  refine h.owner_step hres ⟨id, fun scope e he => ⟨e, ?_, rfl⟩, fun hp => ⟨hp, fun scope r hr => ?_⟩⟩ ?_ ?_ rfl
    hres.workspaces ?_
    ⟨by rw [hstate.1], hstate.2⟩
  · cases scope <;> exact he
  · cases scope <;> exact hr
  · intro S m hm
    rw [lookup_insert] at hm
    split at hm
    · exact some.inj hm ▸ rfl
    · exact h.mine S m hm
  · intro scope e he hcreated
    exact h.sourced scope e (by cases scope <;> exact he) hcreated
  · exact h.owner_ok hres (by simp [hphase, hres.op, LateOk]) (by simp [PhaseOk, movedTo, hres.flag])

theorem Inv.publish_session {entry : SplitJournalEntry} (hphase : c.phase = .publish entry) :
    ∃ e, w.store.store (.workspace p.workspace) entry (.publishRequest entry) =
      (w.store.write e (.workspace p.workspace), .publishRequest entry) ∧
      Inv ⟨w.store.write e (.workspace p.workspace), w.calls.set i (movedTo c (.publishRequest entry))⟩ := by
  have hstate := hres.state
  rw [hphase] at hstate
  obtain ⟨⟨e₀, he₀, hnone⟩, hfingerprint, hspawned⟩ := hstate
  have hsame := (hres.workspaces _ _ he₀).2
  have hunpublished : ¬w.store.SomePublished := by
    intro hp
    obtain ⟨name, e, S, he, hS⟩ := hp
    obtain rfl := (hres.workspaces name e he).1
    rw [he₀, some_inj] at he
    rw [he, hS] at hnone
    cases hnone
  -- either way the entry gets the session of the call
  have hupsert : ∃ e, upsert (some e₀) entry = .ok e ∧ e.fingerprint = p.fingerprint ∧ e.sessionId = entry.sessionId ∧
      (e.created → entry.created) := by
    obtain hnew | hold := upsert_same (hsame.trans hfingerprint.symm)
    · exact ⟨entry, hnew, hfingerprint, rfl, id⟩
    · refine ⟨_, hold, hsame, by simp [hnone], fun hcreated => ?_⟩
      exact absurd (h.sourced (.workspace p.workspace) e₀ he₀ hcreated) hunpublished
  obtain ⟨e, hok, hefp, hesession, hecreated⟩ := hupsert
  have hpublished : ∀ S, entry.sessionId = some S → (w.store.write e (.workspace p.workspace)).Published p S := fun S hS =>
    ⟨e, by simp [write], hesession.trans hS⟩
  refine ⟨e, by simp only [SplitStore.store, SplitStore.load, he₀, hok], ?_⟩
  refine h.owner_step hres ⟨id, ?_, fun hp => absurd hp hunpublished⟩ h.mine ?_ rfl ?_ ?_ ⟨hfingerprint, ?_⟩
  · intro scope e' he'
    rw [load_write]
    split
    next heq =>
      rw [← heq] at he'
      obtain rfl : e₀ = e' := some.inj (he₀.symm.trans he')
      exact ⟨e, rfl, hefp.trans hsame.symm⟩
    · exact ⟨e', he', rfl⟩
  · intro scope e' he' hcreated
    rw [load_write] at he'
    split at he'
    · have hentry := hecreated (some.inj he' ▸ hcreated)
      obtain ⟨-, -, hnot⟩ | ⟨S, -, hS⟩ := hspawned
      · exact absurd hentry hnot
      · obtain ⟨e'', he'', hS'⟩ := hpublished S hS
        exact ⟨p.workspace, e'', S, he'', hS'⟩
    · exact absurd (h.sourced scope e' he' hcreated) hunpublished
  · intro name e' he'
    simp only [write, lookup_insert] at he'
    split at he'
    next heq => exact ⟨heq.symm, some.inj he' ▸ hefp⟩
    · exact hres.workspaces name e' he'
  · exact h.owner_ok hres (by simp [hphase, hres.op, LateOk]) (by simp [PhaseOk, movedTo, hres.flag])
  · obtain ⟨hnil, -, hnot⟩ | ⟨S, hone, hS⟩ := hspawned
    · exact .inl ⟨hnil, hnot⟩
    · exact .inr ⟨S, hone, hpublished S hS⟩

end

theorem Inv.unfenced (h : Inv w) (hnone : w.store.cancelled = none) {d : SplitCall} (hd : d ∈ w.calls)
    (hop : d.op = .cancel) :
    d.phase = .cancelFence := by
  have hok := (h.calls d hd).phase
  have hreserved : d.reserved = false := by
    cases hr : d.reserved with
    | false => rfl
    | true =>
      obtain ⟨p, hp⟩ := (h.calls d hd).reserved hr
      exact absurd (hop.symm.trans hp) (by simp)
  cases hphase : d.phase <;> simp [hphase, PhaseOk, hop, hnone, hreserved] at hok ⊢

theorem not_owner (hphase : c.phase = .admission ∨ c.phase = .fingerprints ∨ c.phase = .begin) : ¬w.Reserved i c p := by
  intro hres
  have hstate := hres.state
  obtain hp | hp | hp := hphase <;> rw [hp] at hstate <;> cases hstate.1

/-! ### Every step keeps the invariant -/

theorem Inv.create_step {gateHeld : Bool} (h : Inv w) (hc : w.calls[i]? = some c) (hop : c.op = .create p)
    (hstatus : c.phase.isStatus = false) (hcancel : c.phase.isCancel = false) :
    Inv ⟨(w.store.createStep p gateHeld choice c.phase).1,
      w.calls.set i (movedTo c (w.store.createStep p gateHeld choice c.phase).2)⟩ := by
  have hne : c.op ≠ .cancel := by simp [hop]
  have hcall := h.calls c (mem_of_getElem? hc)
  have hok := hcall.phase
  have hlate := hcall.late
  have hdone : ∀ {result}, w.store.PhaseOk c (.done result) := fun hcancel => absurd hcancel hne
  cases hphase : c.phase with
  | admission =>
    rw [hphase] at hlate
    have howner : ¬w.Reserved i c p := not_owner (by simp [hphase])
    simp only [createStep]
    split
    · exact h.still_step hc hop (hphase ▸ rfl) hne (fun _ => by simp [hop, LateOk]) (absurd · howner)
    split
    · exact h.still_step hc hop (hphase ▸ rfl) hdone (fun _ => by simp [hop, LateOk]) (absurd · howner)
    · exact h.still_step hc hop (by rw [hphase]; rfl) hne (fun _ => by simp [hop, LateOk]) (absurd · howner)
  | fingerprints =>
    have howner : ¬w.Reserved i c p := not_owner (by simp [hphase])
    simp only [createStep]
    split
    next hconflict =>
      refine h.still_step hc hop (hphase ▸ rfl) hdone (fun _ => ?_) (absurd · howner)
      obtain ⟨recorded, hrecorded, hdiff⟩ := (any_eq_true _ _).mp hconflict
      rw [hop]
      exact ⟨recorded, hrecorded, by simpa using hdiff⟩
    · exact h.still_step hc hop (hphase ▸ rfl) hne (fun _ => by simp [hop, LateOk]) (absurd · howner)
  | begin =>
    have hnever : c.late = false := h.not_late hc (by simp [hphase, hop, LateOk])
    have howner : ¬w.Reserved i c p := not_owner (by simp [hphase])
    simp only [createStep]
    split
    · exact h.still_step hc hop (hphase ▸ rfl) hdone (by simp [hnever]) (absurd · howner)
    cases hrequests : w.store.requests with
    | none => exact h.reserve_step hc hop hphase hrequests
    | some e =>
      obtain hbegin | hbegin := show SplitJournal.begin (some e) p.entry = _ ∨ _ from SplitJournal.begin_some
      · rw [hbegin]
        exact h.still_step hc hop (hphase ▸ rfl) hdone (by simp [hnever]) (absurd · howner)
      · rw [hbegin]
        exact h.still_step hc hop (hphase ▸ rfl) hne (by simp [hnever]) (absurd · howner)
  | reserve =>
    rw [hphase] at hok
    have hres := h.reserved_of hc hok hop
    have hstate := hres.state
    rw [hphase] at hstate
    have hstore : w.store.createStep p gateHeld choice .reserve =
        (w.store.write p.entry (.workspace p.workspace), .spawn) := by
      simp only [createStep, SplitStore.store, SplitStore.load, hstate.2, SplitJournal.upsert_none]
    rw [hstore]
    exact h.enter_workspace hres hphase
  | spawn =>
    rw [hphase] at hok
    have hres := h.reserved_of hc hok hop
    simp only [createStep]
    split
    · exact h.spawn_session hres hphase
    · have hnever : c.late = false := h.not_late hc (by simp [hphase, hop, LateOk])
      refine h.still_step hc hop (hphase ▸ rfl) hok (by simp [hnever]) fun hres' => ?_
      have hstate := hres'.state
      rw [hphase] at hstate
      exact ⟨hstate.2, rfl, .inl ⟨hstate.1, rfl, by simp [SplitJournalEntry.created, SplitOperationResult.isCreated]⟩⟩
  | describe S =>
    rw [hphase] at hok
    have hnever : c.late = false := h.not_late hc (by simp [hphase, hop, LateOk])
    refine h.still_step hc hop (by rw [hphase]; rfl) hok (by simp [hnever]) fun hres' => ?_
    have hstate := hres'.state
    rw [hphase] at hstate
    exact ⟨hstate.2, rfl, .inr ⟨S, hstate.1, rfl⟩⟩
  | publish entry =>
    rw [hphase] at hok
    obtain ⟨e, hstore, hinv⟩ := h.publish_session (h.reserved_of hc hok hop) hphase
    have hstep : w.store.createStep p gateHeld choice (.publish entry) = _ := hstore
    rw [hstep]
    exact hinv
  | publishRequest entry =>
    rw [hphase] at hok
    have hres := h.reserved_of hc hok hop
    have hstate := hres.state
    rw [hphase] at hstate
    obtain ⟨hfingerprint, hspawned⟩ := hstate
    obtain ⟨e₀, he₀, hsame⟩ := hres.requests
    have hstore : w.store.StoreOk .requests entry := ⟨e₀, he₀, hsame.trans hfingerprint.symm, fun hw => by cases hw⟩
    have hcreated : entry.created → w.store.SomePublished := by
      intro hcreated
      obtain ⟨-, hnot⟩ | ⟨S, -, e, he, hS⟩ := hspawned
      · exact absurd hcreated hnot
      · exact ⟨p.workspace, e, S, he, hS⟩
    obtain ⟨hq, hnext⟩ := show Quiet w.store (w.store.store .requests entry (.fence entry)).1 ∧
        _ from store_quiet hstore hcreated
    have hstep : w.store.createStep p gateHeld choice (.publishRequest entry) =
        ((w.store.store .requests entry (.fence entry)).1, .fence entry) := Prod.ext rfl hnext
    rw [hstep]
    have hnever : c.late = false := h.not_late hc (by simp [hphase, hop, LateOk])
    have hreserves : c.phase.reserves (.fence entry) = false := by simp [hphase, SplitPhase.reserves]
    refine h.quiet_step hc hq (callOk_movedTo hcall hq.extends hreserves hok (by simp [hnever])) rfl
      (movedTo_reserved hreserves)
      (fun _ _ _ hcancel => absurd hcancel hne) fun p' hres' => ?_
    obtain rfl := SplitOp.create.inj (hop.symm.trans hres'.op)
    obtain ⟨hnil, -⟩ | ⟨S, hone, hp⟩ := hspawned
    · exact .inl (hq.spawned.trans hnil)
    · exact .inr ⟨S, hq.spawned.trans hone, hq.keeps_published hp⟩
  | fence entry =>
    rw [hphase] at hok
    have hstate := (h.reserved_of hc hok hop).state
    rw [hphase] at hstate
    have hnever : c.late = false := h.not_late hc (by simp [hphase, hop, LateOk])
    simp only [createStep]
    split
    · refine h.still_step hc hop (hphase ▸ rfl) (.inr hok) (by simp [hnever]) fun hres' => ?_
      refine ⟨rfl, ?_⟩
      obtain hnil | ⟨S, hone, hp⟩ := hstate
      · exact .inl hnil
      · exact .inr ⟨S, hone, hp, trivial⟩
    next hunfenced =>
      refine h.still_step hc hop (hphase ▸ rfl) hdone (by simp [hnever]) fun hres' => ?_
      obtain hnil | ⟨S, hone, hp⟩ := hstate
      · exact .inl hnil
      · refine .inr ⟨S, hone, hp, .inr ?_⟩
        intro d hd hdop
        obtain hd | rfl := mem_or_eq_of_mem_set hd
        · rw [h.unfenced (by simpa using hunfenced) hd hdop]
          trivial
        · exact absurd hdop hne
  | done result =>
    rw [hphase] at hlate
    refine h.still_step hc hop (by rw [hphase]; rfl) hdone (fun hl => (hlate hl).2) fun hres' => ?_
    have hstate := hres'.state
    rw [hphase] at hstate
    obtain hnil | ⟨S, hone, hp, hclosed | hcov⟩ := hstate
    · exact .inl hnil
    · exact .inr ⟨S, hone, hp, .inl hclosed⟩
    · refine .inr ⟨S, hone, hp, .inr ?_⟩
      intro d hd hdop
      obtain hd | rfl := mem_or_eq_of_mem_set hd
      · exact hcov d hd hdop
      · exact absurd hdop hne
  | _ => simp [hphase, SplitPhase.isStatus, SplitPhase.isCancel] at hstatus hcancel

theorem Inv.rest_step (h : Inv w) (hc : w.calls[i]? = some c) (hop : ∀ p, c.op ≠ .create p) :
    Inv ⟨w.store, w.calls.set i (movedTo c c.phase)⟩ := by
  have hreserves : c.phase.reserves c.phase = false := by cases c.phase <;> rfl
  have hcall := h.calls c (mem_of_getElem? hc)
  exact h.quiet_step hc .refl (callOk_movedTo hcall Quiet.refl.extends hreserves hcall.phase fun hlate =>
    (hcall.late hlate).2) rfl
    (movedTo_reserved hreserves) (fun _ _ _ _ hcov => hcov) fun p hres => absurd hres.op (hop p)

theorem Inv.run_step (h : Inv w) (hc : w.calls[i]? = some c) :
    Inv ⟨(c.run w choice).1, w.calls.set i (movedTo c (c.run w choice).2)⟩ := by
  unfold SplitCall.run
  split
  next hstatus => exact h.status_step hc hstatus
  next hstatus =>
    split
    next hcancel => exact h.cancel_step hc hcancel
    next hcancel =>
      cases hop : c.op with
      | create p => exact h.create_step hc hop (by simpa using hstatus) (by simpa using hcancel)
      | cancel => exact h.rest_step hc (by simp [hop])
      | status expiresAt => exact h.rest_step hc (by simp [hop])

theorem Inv.start_step {op : SplitOp} (h : Inv w) : Inv (w.step (.start op)) := by
  have hmem : ∀ {d}, d ∈ (w.step (.start op)).calls →
      d ∈ w.calls ∨ d = { op := op, phase := op.start, late := w.calls.any (·.returnedCancelled) } := by
    intro d hd
    simpa [step] using hd
  have hfenced : w.calls.any (·.returnedCancelled) = true → w.store.cancelled.isSome = true := by
    intro hany
    obtain ⟨d, hd, hreturned⟩ := any_eq_true.mp hany
    have hok := (h.calls d hd).phase
    unfold SplitCall.returnedCancelled at hreturned
    split at hreturned
    next hop hphase =>
      rw [hphase] at hok
      exact (hok hop).2
    · cases hreturned
  refine ⟨h.mine, h.sourced, ?_, ?_⟩
  · intro d hd
    obtain hd | rfl := hmem hd
    · exact h.calls d hd
    · refine ⟨?_, by simp, fun hlate => ⟨hfenced hlate, ?_⟩⟩
      · cases op with
        | create p =>
          simp only [SplitOp.start]
          split <;> simp [PhaseOk]
        | cancel => exact .inl rfl
        | status expiresAt => simp [SplitOp.start, PhaseOk]
      · cases op with
        | create p =>
          simp only [SplitOp.start]
          split
          next hremote => exact hremote
          · trivial
        | cancel => trivial
        | status expiresAt => trivial
  · have hkept : ∀ {j : Nat} {d : SplitCall}, w.calls[j]? = some d → (w.step (.start op)).calls[j]? = some d := by
      intro j d hj
      have hlt := (List.getElem?_eq_some_iff.mp hj).1
      simp only [step]
      rw [getElem?_append_left hlt]
      exact hj
    obtain hfresh | ⟨i, c, p, hres⟩ := h.owner
    · refine .inl ⟨hfresh.requests, hfresh.workspaces, hfresh.spawned, ?_⟩
      intro d hd
      obtain hd | rfl := hmem hd
      · exact hfresh.flags d hd
      · rfl
    · have hq : Quiet w.store (w.step (.start op)).store := .refl
      refine .inr ⟨i, c, p, hres.quiet hq (hkept hres.call) rfl rfl ?_ (hres.state.quiet hq ?_)⟩
      · intro j d hj hd
        simp only [step] at hj
        rw [getElem?_append] at hj
        split at hj
        · exact hres.only j d hj hd
        · rw [getElem?_singleton] at hj
          split at hj
          · rw [← some.inj hj] at hd
            cases hd
          · cases hj
      · intro p S _ hcov d hd hdop
        obtain hd | rfl := hmem hd
        · exact hcov d hd hdop
        · obtain rfl : op = .cancel := hdop
          trivial

theorem Inv.close_step {sessionId : Nat} (h : Inv w) : Inv (w.step (.close sessionId)) := by
  have hq : Quiet w.store { w.store with sessions := w.store.sessions.erase sessionId } := by
    refine ⟨rfl, rfl, id, id, fun _ => id, fun _ e he => ⟨e, he, rfl, fun _ => rfl⟩, ?_, fun _ e he hc => .inr ⟨e, he, hc⟩⟩
    intro S m hm
    rw [lookup_erase] at hm
    split at hm
    · cases hm
    · exact hm
  refine ⟨Mine.quiet hq h.mine, h.sourced.quiet hq, fun d hd => (h.calls d hd).extends hq.extends, ?_⟩
  obtain hfresh | ⟨i, c, p, hres⟩ := h.owner
  · exact .inl ⟨hfresh.requests, hfresh.workspaces, hfresh.spawned, hfresh.flags⟩
  · exact .inr ⟨i, c, p, hres.quiet hq hres.call rfl rfl hres.only
      (hres.state.quiet hq fun p S _ hcov d hd hdop => (hcov d hd hdop).quiet hq)⟩

theorem inv_step {a : SplitsAction} (h : Inv w) : Inv (w.step a) := by
  cases a with
  | start op => exact h.start_step
  | run i choice =>
    simp only [step]
    split
    · exact h
    next c hc => exact h.run_step hc
  | close sessionId => exact h.close_step

theorem inv_of_reachable (h : splits.Reachable System.anyAction w) : Inv w := by
  refine h.inv ?_ ?_
  · intro w₀ hinit
    obtain ⟨requestId, epoch, rfl⟩ := hinit
    refine ⟨?_, ?_, by simp, .inl ⟨rfl, by simp, rfl, by simp⟩⟩
    · intro S m hm
      simp at hm
    · intro scope e he
      cases scope <;> simp [load] at he
  · intro w w' a _ hstep hp
    exact hstep ▸ inv_step hp

/-! ### What the callers are told -/

theorem Inv.spawned_once (h : Inv w) : w.store.spawned.length ≤ 1 := by
  obtain hfresh | ⟨i, c, p, hres⟩ := h.owner
  · simp [hfresh.spawned]
  · have hstate := hres.state
    have hone : w.store.spawned = [] ∨ ∃ S, w.store.spawned = [S] := by
      cases hphase : c.phase <;> rw [hphase] at hstate <;> simp only [OwnerState, isCancel] at hstate <;> grind
    obtain hnil | ⟨S, hone⟩ := hone
    · simp [hnil]
    · simp [hone]

/-- What a call that started after a cancel had returned can answer. -/
def LateAnswer (w : Splits) : SplitOp → Except SplitError SplitOperationResult → Prop
  | .cancel, result => result = .ok .cancelled
  | .status _, result => result = .ok .cancelled
  | .create p, result =>
    result = .ok .cancelled ∨ (result = .error .remoteWorkspace ∧ p.remote = true) ∨ result = .error .admissionBudget ∨
      (result = .error .requestConflict ∧ ∃ recorded, w.store.requests = some recorded ∧
        recorded.fingerprint ≠ p.fingerprint)

theorem Inv.late_answer {result : Except SplitError SplitOperationResult} (h : Inv w) (hc : c ∈ w.calls)
    (hlate : c.late = true)
    (hdone : c.phase = .done result) : w.LateAnswer c.op result := by
  have hl := ((h.calls c hc).late hlate).2
  have hok := (h.calls c hc).phase
  rw [hdone] at hl hok
  cases hop : c.op with
  | cancel => exact (hok hop).1
  | create p =>
    rw [hop] at hl
    cases result with
    | ok result =>
      cases result with
      | cancelled => exact .inl rfl
      | _ => cases hl
    | error e =>
      cases e with
      | remoteWorkspace => exact .inr (.inl ⟨rfl, hl⟩)
      | admissionBudget => exact .inr (.inr (.inl rfl))
      | requestConflict => exact .inr (.inr (.inr ⟨rfl, hl⟩))
      | _ => cases hl
  | status expiresAt =>
    rw [hop] at hl
    cases result with
    | ok result =>
      cases result with
      | cancelled => rfl
      | _ => cases hl
    | error e => cases e <;> cases hl

theorem Inv.closed (h : Inv w) (hreturned : ∃ c ∈ w.calls, c.returnedCancelled = true)
    (hcreates : ∀ c ∈ w.calls, c.op.isCreate = true → c.phase.isDone = true) : ∀ S ∈ w.store.spawned, w.store.sessions[S]? =
      none := by
  intro S hS
  obtain hfresh | ⟨i, c, p, hres⟩ := h.owner
  · rw [hfresh.spawned] at hS
    cases hS
  · have hdone := hcreates c (mem_of_getElem? hres.call) (by rw [hres.op]; rfl)
    have hstate := hres.state
    cases hphase : c.phase with
    | done result =>
      rw [hphase] at hstate
      obtain hnil | ⟨S', hone, hp, hclosed⟩ := hstate
      · rw [hnil] at hS
        cases hS
      · rw [hone, mem_singleton] at hS
        subst hS
        obtain hclosed | hcov := hclosed
        · exact hclosed
        · obtain ⟨d, hd, hdr⟩ := hreturned
          unfold SplitCall.returnedCancelled at hdr
          split at hdr
          next hdop hdphase =>
            have hcovered := hcov d hd hdop
            rw [hdphase] at hcovered
            exact hcovered
          · cases hdr
    | _ => simp [hphase, isDone] at hdone

/-- A request spawns once at most, and its cancellation is final. -/
theorem split_operations (h : splits.Reachable System.anyAction w) : w.store.spawned.length ≤ 1 ∧
      (∀ c ∈ w.calls, c.late = true → ∀ result, c.phase = .done result → w.LateAnswer c.op result) ∧
      ((∃ c ∈ w.calls, c.returnedCancelled = true) → (∀ c ∈ w.calls, c.op.isCreate = true → c.phase.isDone = true) →
        ∀ S ∈ w.store.spawned, w.store.sessions[S]? = none) :=
  have hinv := inv_of_reachable h
  ⟨hinv.spawned_once, fun _ hc hlate _ hdone => hinv.late_answer hc hlate hdone, hinv.closed⟩

open SplitsAction in
/-- A create spawns and reaches the fence, a cancel runs to its end, and the create returns. -/
def racing : List SplitsAction :=
  let params : CreateParams := ⟨"w", false, "80x24", 100⟩
  let spawns : SplitChoice := { spawned := some ⟨some "i", some "w", none⟩ }
  [start (.create params), start .cancel] ++ List.replicate 13 (run 0 spawns) ++ List.replicate 11 (run 1 {}) ++
    List.replicate 13 (run 0 {}) ++ [start (.create params)] ++ List.replicate 3 (run 2 {})

theorem split_operations_racing : ∃ w, splits.Reachable System.anyAction w ∧ w.store.spawned = [0] ∧
    w.store.sessions[0]? = none ∧
      w.calls[2]?.map (·.phase) = some (.done (.ok .cancelled)) :=
  have h : splits.Reachable System.anyAction (racing.foldl step { store := { requestId := "r", epoch := 1 } }) :=
    ⟨_, ⟨_, _, rfl⟩, .of_admits (by decide +kernel)⟩
  ⟨_, h, by decide +kernel, (split_operations
    h).2.2 (by decide +kernel) (by decide +kernel) 0 (by decide +kernel), by decide +kernel⟩

open SplitsAction in
/-- A create and a cancel of it run to their ends. Then come a create with the same request and another size, one for an
SSH workspace, and one whose admission runs out while a fourth, just admitted, holds the gate. -/
def reused : List SplitsAction :=
  let params : CreateParams := ⟨"w", false, "80x24", 100⟩
  let spawns : SplitChoice := { spawned := some ⟨some "i", some "w", none⟩ }
  [start (.create params)] ++ List.replicate 14 (run 0 spawns) ++ [start .cancel] ++ List.replicate 11 (run 1 {}) ++
    [start (.create { params with fingerprint := "120x40" })] ++ List.replicate 2 (run 2 {}) ++
    [start (.create { params with remote := true }), start (.create params), run 4 {}, start (.create params),
      run 5 { expired := true }]

theorem refused_after_cancelled : ∃ w, splits.Reachable System.anyAction w ∧
    ∀ e ∈ [SplitError.requestConflict, .remoteWorkspace, .admissionBudget],
      ∃ c ∈ w.calls, c.op.isCreate = true ∧ c.late = true ∧ c.phase = .done (.error e) :=
  ⟨reused.foldl step { store := { requestId := "r", epoch := 1 } }, ⟨_, ⟨_, _, rfl⟩, .of_admits (by decide +kernel)⟩,
    by decide +kernel⟩

end Splits
end Ferryx.Daemon
