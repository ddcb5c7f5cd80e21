import Ferryx.Network
import Ferryx.Theorems.AuthorFrames

/-! After every handler, an author without a pending request and without a running retry timer has no request
to make. -/

namespace Ferryx
open Std

namespace Author
variable {β : Type} {a : Author β}

structure Rests (a : Author β) : Prop where
  reclaim : a.cur ≠ none → a.needsReclaim = false
  probe : a.cur = none → a.suppressed = true → a.needsProbe = false
  acquire : a.cur = none → a.acquireCond = false
  disowned : a.disowned.toList = []

/-- An author with neither a request nor a timer rests. -/
def Prompt (a : Author β) : Prop := a.pending = none → a.retryTimer = false → a.Rests

theorem request_pending (a : Author β) (kind : PendingKind) (s : Nat) : (a.request kind s).pending ≠ none := nofun

theorem nextRequest_rests (h : a.nextRequest.pending = none) : a.nextRequest = a ∧ a.Rests := by
  unfold nextRequest at h ⊢
  split at h
  · exact (request_pending _ _ _ h).elim
  next hno =>
    split at h
    · exact (request_pending _ _ _ h).elim
    next hprobe =>
      split at h
      · exact (request_pending _ _ _ h).elim
      next hacq =>
        split at h
        · exact (request_pending _ _ _ h).elim
        next hdis =>
          refine ⟨?_, fun hc => ?_, fun hc hs => ?_, fun hc => ?_, ?_⟩
          · simp [hprobe, hacq]
          · obtain ⟨c, hc⟩ := Option.ne_none_iff_exists'.mp hc
            by_contra hn
            exact hno c hc (by simpa using hn)
          · simpa [hc, hs] using hprobe
          · simpa [hc] using hacq
          · exact List.head?_eq_none_iff.mp hdis

theorem requestDue_prompt (a : Author β) : a.requestDue.Prompt := by
  intro hp ht
  unfold requestDue at hp ht ⊢
  split at hp
  next hdue =>
    rw [if_pos hdue] at ht ⊢
    obtain ⟨heq, hr⟩ := nextRequest_rests hp
    rw [heq]
    exact hr
  next hdue =>
    rw [if_neg hdue] at ht
    exact (hdue (by simp [hp, ht])).elim

theorem reevaluate_prompt (a : Author β) : a.reevaluate.Prompt := by
  unfold reevaluate
  have h := requestDue_prompt a.queryDue.releaseIdle
  obtain ⟨inflight, nextId, out, hs⟩ := send_eq a.queryDue.releaseIdle.requestDue
  rw [hs]
  intro hp ht
  obtain ⟨hr, hpr, ha, hd⟩ := h hp ht
  exact ⟨hr, hpr, ha, hd⟩

theorem handle_prompt (h : a.Prompt) (m : ToClient) : (a.handle m).Prompt := by
  cases m with
  | retry attempt s e gap =>
    show (a.onWriteRetryable attempt s e gap).Prompt
    unfold onWriteRetryable
    split
    · exact h
    · exact reevaluate_prompt _
  | reclaimed id ok epoch acc com finals =>
    show (a.onReclaimResult id ok epoch acc com finals).Prompt
    unfold onReclaimResult
    split
    · split
      · exact reevaluate_prompt _
      · exact h
    · split
      · exact reevaluate_prompt _
      · exact h
    · exact h
  | reclaimUnknown id =>
    show (a.onReclaimEpochUnknown id).Prompt
    unfold onReclaimEpochUnknown
    split
    · split
      · dsimp only
        split <;> exact reevaluate_prompt _
      · exact h
    · exact h
  | epoch id s e fa cm pd fenced =>
    show (a.onEpochState id s e fa cm pd fenced).Prompt
    unfold onEpochState
    split
    · exact h
    · split
      · exact h
      · split <;> exact reevaluate_prompt _
  | _ => exact reevaluate_prompt _

end Author
end Ferryx
