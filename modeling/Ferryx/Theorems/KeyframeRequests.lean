import Ferryx.Theorems.FrameOrder

/-! While frames are suppressed, a keyframe has been requested, or a deferred request is pending that the successor of the
last frame makes due, if no gap follows an overload before that. -/

namespace Ferryx.Rd
open Lib Bool

namespace FrameQueue
variable {q : FrameQueue} {f : QueuedFrame}

theorem overflow_request (q : FrameQueue) (f : QueuedFrame) : (q.overflow f).1.config = q.config ∧
    ((q.overflow f).1.recovering = q.recovering ∧ (q.overflow f).1.pendingRequestSince = q.pendingRequestSince ∧
        ((q.overflow f).2 = true → q.config.retainPrefix = false) ∨
      q.recovering = false ∧ (q.overflow f).2 = false ∧ (q.overflow f).1.pendingRequestSince = some f.received ∧
        q.config.retainPrefix = true) := by
  obtain ⟨hconf, -, hrec, -, hpend⟩ := q.skipToLatestKey_frame
  let r := if f.key then { q with frames := [] } else q.skipToLatestKey
  have hr : r.config = q.config ∧ r.recovering = q.recovering ∧ r.pendingRequestSince = q.pendingRequestSince := by
    simp only [r]
    split
    · exact ⟨rfl, rfl, rfl⟩
    · exact ⟨hconf, hrec, hpend⟩
  obtain ⟨hconf, hrec, hpend⟩ := hr
  have hover : q.overflow f = if r.frames.length ≥ r.config.maxBacklog then
      if r.config.retainPrefix then
        (if r.recovering then r else { r with recovering := true, pendingRequestSince := some f.received }, false)
      else (r, true)
    else (r, false) := rfl
  rw [hover, ← hconf, ← hrec, ← hpend]
  split
  · split
    next hretain =>
      split
      · exact ⟨rfl, .inl ⟨rfl, rfl, nofun⟩⟩
      next hnot => exact ⟨rfl, .inr ⟨eq_false_of_not_eq_true hnot, rfl, rfl, hretain⟩⟩
    next hretain => exact ⟨rfl, .inl ⟨rfl, rfl, fun _ => eq_false_of_not_eq_true hretain⟩⟩
  · exact ⟨rfl, .inl ⟨rfl, rfl, nofun⟩⟩

theorem makeRoom_request (q : FrameQueue) (f : QueuedFrame) (gap : Bool) : (q.makeRoom f gap).1.config = q.config ∧
    ((q.makeRoom f gap).2 = (!q.recovering && !f.key) ∧ (gap = true ∨ q.config.retainPrefix = false) ∨
      (q.makeRoom f gap).2 = false ∧ (q.makeRoom f gap).1.recovering = q.recovering ∧
        (q.makeRoom f gap).1.pendingRequestSince = q.pendingRequestSince ∨
      q.recovering = false ∧ (q.makeRoom f gap).1.pendingRequestSince = some f.received ∧
        q.config.retainPrefix = true) := by
  cases gap with
  | true => exact ⟨rfl, .inl ⟨rfl, .inl rfl⟩⟩
  | false =>
    by_cases hfull : q.frames.length ≥ q.config.capacity
    · obtain ⟨hconf, hcases⟩ := q.overflow_request f
      simp only [makeRoom, hfull, Bool.not_false, decide_true, Bool.and_self, if_true]
      rcases hcases with ⟨hrec, hpend, hdrop⟩ | ⟨hrec, hdrop, hpend, hretain⟩
      · split
        next h =>
          refine ⟨hconf, .inl ⟨?_, .inr (hdrop h)⟩⟩
          rw [← hrec]
          rfl
        · exact ⟨hconf, .inr (.inl ⟨rfl, hrec, hpend⟩)⟩
      · rw [hdrop]
        exact ⟨hconf, .inr (.inr ⟨hrec, hpend, hretain⟩)⟩
    · simp [makeRoom, hfull]

theorem accept_request (q : FrameQueue) (f : QueuedFrame) (request : Bool) : (q.accept f request).1.config = q.config ∧
    (q.accept f request).2 = (request || q.requestDue f) ∧
      ((q.accept f request).1.recovering = true → q.recovering = true ∧ f.key = false ∧
      (q.requestDue f = false → (q.accept f request).1.pendingRequestSince = q.pendingRequestSince)) := by
  unfold accept
  dsimp only
  cases hkey : f.key <;> cases hrec : q.recovering <;> cases q.requestDue f <;> simp [hrec]

theorem poll_frame (q : FrameQueue) (now : Nat) : (q.poll now).1.config = q.config ∧
    (q.poll now).1.pendingRequestSince = q.pendingRequestSince := by
  obtain ⟨hconf, -, -, -, hpend, -⟩ := q.skipStale_frame
  unfold poll
  split
  · exact ⟨rfl, rfl⟩
  · unfold take
    dsimp only
    split
    · exact ⟨hconf, hpend⟩
    · split <;> exact ⟨hconf, hpend⟩

/-- The queue waits with its request while it retains a prefix. -/
def Defers (q : FrameQueue) : Prop := (∃ since, q.pendingRequestSince = some since) ∧ q.config.retainPrefix = true

theorem push_request (hs : q.stopped = false) (hl : q.late f.id = false) (hrec : (q.push f).1.recovering = true) :
    (q.push f).2 = .ok true ∨
      ((q.push f).1.Defers ∨ q.recovering = true ∧ ¬(q.Defers ∧ (f.key = true ∨ q.discontinuity f.id = false))) := by
  obtain ⟨hpush, hres⟩ := push_eq hs hl
  rw [hpush] at hrec ⊢
  rw [hres]
  obtain ⟨hconf, hroom⟩ := (q.arrived f).makeRoom_request f (q.discontinuity f.id)
  generalize (q.arrived f).makeRoom f (q.discontinuity f.id) = r at *
  obtain ⟨hconf', hok, hacc⟩ := r.1.accept_request f r.2
  obtain ⟨hrec', hkey, hpend⟩ := hacc hrec
  have hconf : (r.1.accept f r.2).1.config = q.config := hconf'.trans hconf
  by_cases hdue : r.1.requestDue f = true
  · exact .inl (by rw [hok, hdue, Bool.or_true])
  · have hpend := hpend (Bool.eq_false_of_not_eq_true hdue)
    rcases hroom with ⟨hreq, hgap⟩ | ⟨-, hsame, hpend'⟩ | ⟨-, hpend', hretain⟩
    · cases hq : q.recovering with
      | false =>
        have hreq : r.2 = true := by
          rw [hreq, hkey, show (q.arrived f).recovering = false from hq]
          rfl
        exact .inl (by rw [hok, hreq, Bool.true_or])
      | true =>
        refine .inr (.inr ⟨rfl, ?_⟩)
        rintro ⟨⟨-, hretain⟩, hor⟩
        rcases hor with hor | hor
        · cases hkey.symm.trans hor
        · rcases hgap with hgap | hgap
          · cases hor.symm.trans hgap
          · cases hretain.symm.trans hgap
    · by_cases hdef : q.Defers
      · exact .inr (.inl ⟨(hpend.trans hpend') ▸ hdef.1, hconf ▸ hdef.2⟩)
      · exact .inr (.inr ⟨hsame.symm.trans hrec', fun h => hdef h.1⟩)
    · exact .inr (.inl ⟨⟨_, hpend.trans hpend'⟩, hconf ▸ hretain⟩)

theorem push_due {since : Nat} {last : UInt32} (hs : q.stopped = false) (hrec : q.recovering = true)
    (hpend : q.pendingRequestSince = some since) (hretain : q.config.retainPrefix = true)
      (hlast : q.lastFrameId = some last)
    (hid : f.id = last + 1) (hkey : f.key = false) (ht : since + q.config.idrDefer ≤ f.received) :
      (q.push f).2 = .ok true := by
  have hone : f.id - last = 1 := UInt32.toNat_inj.mp (ahead_eq_one_iff.mpr hid)
  have hl : q.late f.id = false := by
    simp only [late, hlast, hone, Option.any_some]
    decide
  have hg : q.discontinuity f.id = false := by simp [discontinuity, hlast, hone]
  rw [(push_eq hs hl).2, hg]
  obtain ⟨hconf, hroom⟩ := (q.arrived f).makeRoom_request f false
  have hrec : (q.arrived f).recovering = true := hrec
  have hpend : (q.arrived f).pendingRequestSince = some since := hpend
  have hretain : (q.arrived f).config.retainPrefix = true := hretain
  have ht : since + (q.arrived f).config.idrDefer ≤ f.received := ht
  generalize (q.arrived f).makeRoom f false = r at *
  have hpend' : r.1.pendingRequestSince = some since := by
    rcases hroom with ⟨-, h | h⟩ | ⟨-, -, h⟩ | ⟨h, -, -⟩
    · cases h
    · cases hretain.symm.trans h
    · exact h.trans hpend
    · cases hrec.symm.trans h
  have hdue : r.1.requestDue f = true := by
    simp only [requestDue, hpend', hconf, hkey, Option.any_some, Bool.not_false, Bool.true_and, decide_eq_true_eq]
    omega
  rw [(r.1.accept_request f r.2).2.1, hdue, Bool.or_true]

end FrameQueue

namespace Playback
variable {w : Playback}

/-- No gap is found while a request is deferred. -/
def unbroken (w : Playback) : FrameQueueCall → Prop
  | .push f =>
    w.queue.pendingRequestSince = none ∨ f.key = true ∨ w.queue.late f.id = true ∨ w.queue.discontinuity f.id = false
  | .poll _ => True
  | .decodeFailed => True
  | _ => False

instance (w : Playback) : DecidablePred w.unbroken
  | .push _ => inferInstanceAs (Decidable (_ ∨ _))
  | .poll _ => isTrue trivial
  | .decodeFailed => isTrue trivial
  | .reconfigure _ => isFalse id
  | .setPlayoutMode _ => isFalse id
  | .stop => isFalse id

/-- A recovering queue has asked for a keyframe or defers it. -/
structure Served (w : Playback) : Prop where
  stopped : w.queue.stopped = false
  asked : w.queue.recovering = true → w.asked = true ∨ w.queue.Defers

theorem served_push {f : QueuedFrame} (h : w.Served) (hg : w.unbroken (.push f)) : (w.step (.push f)).Served := by
  rw [step_push]
  by_cases hl : w.queue.late f.id = true
  · have hpush : w.queue.push f = (w.queue, .ok false) := by rw [FrameQueue.push, h.stopped, hl]; rfl
    rw [hpush]
    refine ⟨h.stopped, fun hr => ?_⟩
    have hr : w.queue.recovering = true := hr
    refine (h.asked hr).imp_left fun ha => ?_
    simp [called, hr, ha]
  · have hl := eq_false_of_not_eq_true hl
    refine ⟨(FrameQueue.push_cases h.stopped hl).1, fun hr => ?_⟩
    have hr : (w.queue.push f).1.recovering = true := hr
    rcases FrameQueue.push_request h.stopped hl hr with hok | hdef | ⟨hq, hnot⟩
    · refine .inl ?_
      rw [hok]
      simp [called, hr, Except.toOption]
    · exact .inr hdef
    · refine .inl ?_
      have hasked : w.asked = true := by
        refine (h.asked hq).resolve_right fun hdef => hnot ⟨hdef, ?_⟩
        rcases hg with hnone | hkey | hlate | hgap
        · obtain ⟨⟨since, hsome⟩, -⟩ := hdef
          cases hnone.symm.trans hsome
        · exact .inl hkey
        · cases hl.symm.trans hlate
        · exact .inr hgap
      simp [called, hr, hq, hasked]

theorem served_decodeFailed (h : w.Served) : (w.step .decodeFailed).Served := by
  refine ⟨(FrameQueue.decodeFailed_cases h.stopped).2.1, fun hr => .inl ?_⟩
  have hr : w.queue.decodeFailed.1.recovering = true := hr
  have hreq : w.queue.decodeFailed.2 = true ∨ w.queue.recovering = true ∧ w.asked = true := by
    revert hr
    unfold FrameQueue.decodeFailed
    rw [h.stopped, if_neg Bool.false_ne_true]
    split
    · nofun
    · intro _
      cases hq : w.queue.recovering with
      | false => exact .inl rfl
      | true =>
        rcases h.asked hq with ha | ⟨⟨since, hsome⟩, -⟩
        · exact .inr ⟨rfl, ha⟩
        · exact .inl (by simp [hsome])
  show (w.queue.decodeFailed.1.recovering && (w.queue.recovering && w.asked || w.queue.decodeFailed.2)) = true
  rcases hreq with h | ⟨h₁, h₂⟩
  · rw [hr, h, Bool.or_true, Bool.true_and]
  · rw [hr, h₁, h₂]
    rfl

theorem served_poll (h : w.Served) (now : Nat) : (w.step (.poll now)).Served := by
  obtain ⟨-, hrec, hstop, hcases⟩ := w.queue.poll_cases now
  obtain ⟨hconf, hpend⟩ := w.queue.poll_frame now
  have hq : (w.step (.poll now)).queue = (w.queue.poll now).1 ∧ (w.step (.poll now)).asked = w.asked := by
    rcases hcases with ⟨f, hf, -, -⟩ | ⟨hf, -⟩
    · rw [step_poll hf]
      exact ⟨rfl, rfl⟩
    · rw [step_poll_none hf]
      exact ⟨rfl, rfl⟩
  refine ⟨?_, ?_⟩ <;> rw [hq.1]
  · exact hstop.trans h.stopped
  · intro hr
    rw [hq.2]
    refine (h.asked (hrec.symm.trans hr)).imp_right fun hdef => ?_
    exact ⟨hpend ▸ hdef.1, hconf ▸ hdef.2⟩

theorem served_step {call : FrameQueueCall} (h : w.Served) (hg : w.unbroken call) : (w.step call).Served := by
  cases call with
  | push f => exact served_push h hg
  | poll now => exact served_poll h now
  | decodeFailed => exact served_decodeFailed h
  | reconfigure c => exact hg.elim
  | setPlayoutMode mode => exact hg.elim
  | stop => exact hg.elim

/-- A queue that recovers has asked for a keyframe, or will. -/
theorem keyframe_requested (h : playback.Reachable unbroken w) (hr : w.queue.recovering = true) :
    w.asked = true ∨ ∃ since, w.queue.pendingRequestSince = some since ∧
      ∀ last f, w.queue.lastFrameId = some last → f.id = last + 1 → f.key = false → since + w.queue.config.idrDefer ≤
        f.received →
        (w.queue.push f).2 = .ok true := by
  have hserved : w.Served := by
    refine h.inv (P := Served) ?_ ?_
    · rintro w ⟨c, rfl⟩
      exact ⟨rfl, nofun⟩
    · rintro w _ call hg rfl h
      exact served_step h hg
  rcases hserved.asked hr with ha | ⟨⟨since, hsince⟩, hretain⟩
  · exact .inl ha
  · refine .inr ⟨since, hsince, fun last f hlast hid hkey ht => ?_⟩
    exact FrameQueue.push_due hserved.stopped hr hsince hretain hlast hid hkey ht

def waiting : Playback := (overloaded ++ [FrameQueueCall.poll 6]).foldl step shortQueue

theorem keyframe_requested_waiting : (∀ f ∈ waiting.queue.frames, f.key = false) ∧ (waiting.asked = true ∨
    ∃ since, waiting.queue.pendingRequestSince = some since ∧ ∀ last f, waiting.queue.lastFrameId = some last →
      f.id = last + 1 →
      f.key = false → since + waiting.queue.config.idrDefer ≤ f.received → (waiting.queue.push f).2 = .ok true) := by
  refine ⟨by decide, keyframe_requested ⟨_, ⟨_, rfl⟩, .of_admits ?_⟩ ?_⟩
  all_goals decide

/-- A gap follows the overload. The backlog is dropped, and with it the deferred request. -/
theorem deferred_request_dropped : ∃ w : Playback, playback.Reachable System.anyAction w ∧ w.queue.recovering = true ∧
    w.queue.frames = [] ∧ w.asked = false ∧ w.queue.pendingRequestSince = none := by
  have hr : playback.Reachable System.anyAction
      ((overloaded ++ [FrameQueueCall.push (small 9 false 9)]).foldl step shortQueue) :=
    ⟨_, ⟨_, rfl⟩, .of_admits (by decide)⟩
  refine ⟨_, hr, ?_, ?_, ?_, ?_⟩
  all_goals decide

end Playback
end Ferryx.Rd
