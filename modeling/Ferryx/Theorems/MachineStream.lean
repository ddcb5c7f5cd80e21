import Ferryx.Terminal.MachineOutput
import Ferryx.Theorems.AttachJoin

/-! As long as the budget holds, what `recv` returned and what is queued is all that was sent since the attach (`Sound`).
`recv` looks at the status before the queue, so all is returned only if the queue is empty when the session ends
(`drained`). -/

namespace Ferryx.Terminal
open Lib Function List Option

/-- A channel has delivered a part of what was sent since it joined, in order. -/
structure MachineChannel.Sound (sent : List OutputChunk) (ended : Bool) (c : MachineChannel) : Prop where
  joined : c.joined ≤ sent.length
  live : c.sender = .live ↔ c.status = none
  isPrefix : c.returned ++ c.queue <+: sent.drop c.joined
  whole : c.receiverClosed = false → c.status ≠ some .overflow → c.returned ++ c.queue = sent.drop c.joined
  answered : c.answer ≠ none → c.queue = [] ∧ c.sender ≠ .live
  drained : c.receiverClosed = true → c.queue = []
  closed : c.receiverClosed = true → c.phase = .gone ∨ c.answer ≠ none
  stopped : ended = true → c.sender ≠ .live
  done : c.status = some .closed → c.receiverClosed = false → ended = true

/-- What a step of the system does to a channel, with the chunks sent and the end of the session before and after.
Where `D` holds, the session ends with an empty queue. -/
inductive MachineChannel.ChannelStep (D : Prop) : List OutputChunk → Bool → MachineChannel → List OutputChunk → Bool →
    MachineChannel → Prop
  | same {sent ended c} : ChannelStep D sent ended c sent ended c
  | offers {sent c} (new : List OutputChunk) :
      ChannelStep D sent false c (sent ++ new) false (new.foldl MachineChannel.offer c)
  | endSession {sent c} (h : D → c.sender = .live → c.receiverClosed = false → c.queue = []) :
    ChannelStep D sent false c sent true (if c.sender = .live then c.dropSender else c)
  | senderGone {sent ended c} (h : c.sender = .dropping) : ChannelStep D sent ended c sent ended { c with sender := .gone }
  | poll {sent ended c c'} (h : c.poll = some c') : ChannelStep D sent ended c sent ended c'
  | cancel {sent ended c} (h : c.phase ≠ .gone) : ChannelStep D sent ended c sent ended { c with phase := .idle }
  | dropReceiver {sent ended c} : ChannelStep D sent ended c sent ended { c.closeAndDrain with phase := .gone }
  | budget {sent ended c} (available : Nat) (held : List Nat) :
      ChannelStep D sent ended c sent ended { c with available, held }

namespace MachineChannel
variable {sent : List OutputChunk} {ended : Bool} {c c' : MachineChannel}

theorem Sound.frame (h : Sound sent ended c) (hq : c'.queue = c.queue) (hs : c'.status = c.status)
    (hsender : c'.sender = c.sender)
    (hrx : c'.receiverClosed = c.receiverClosed) (hj : c'.joined = c.joined) (hr : c'.returned = c.returned)
      (ha : c'.answer = c.answer)
    (hp : c.phase = .gone → c'.phase = .gone) : Sound sent ended c' where
  joined := hj ▸ h.joined
  live := by rw [hs, hsender]; exact h.live
  isPrefix := by rw [hr, hq, hj]; exact h.isPrefix
  whole := by rw [hr, hq, hj, hs, hrx]; exact h.whole
  answered := by rw [ha, hq, hsender]; exact h.answered
  drained := by rw [hrx, hq]; exact h.drained
  closed := by
    rw [hrx, ha]
    exact fun hc => (h.closed hc).imp_left hp
  stopped := by rw [hsender]; exact h.stopped
  done := by rw [hs, hrx]; exact h.done

theorem Sound.isPrefix_append (h : Sound sent ended c) (chunk : OutputChunk) :
    c.returned ++ c.queue <+: (sent ++ [chunk]).drop c.joined := by
  rw [drop_append_of_le_length h.joined]
  exact h.isPrefix.trans (List.prefix_append ..)

section
variable (h : Sound sent false c)
include h

theorem Sound.other (hsender : c.sender ≠ .live) (chunk : OutputChunk) : Sound (sent ++ [chunk]) false c := { h with
  joined := h.joined.trans (by simp)
  isPrefix := h.isPrefix_append chunk
  whole := by
    intro hrx hov
    cases hs : c.status with
    | none => exact absurd (h.live.mpr hs) hsender
    | some e => cases e with
      | overflow => exact absurd hs hov
      | closed => exact absurd (h.done hs hrx) (by simp) }

theorem Sound.overflow (chunk : OutputChunk) :
    Sound (sent ++ [chunk]) false { c with status := some .overflow }.dropSender := { h with
  joined := h.joined.trans (by simp)
  live := by simp [dropSender]
  isPrefix := h.isPrefix_append chunk
  whole := by simp [dropSender]
  answered := fun ha => ⟨(h.answered ha).1, by simp [dropSender]⟩
  stopped := by simp
  done := by simp [dropSender] }

theorem Sound.publish (hlive : c.sender = .live) (chunk : OutputChunk) :
    Sound (sent ++ [chunk]) false (c.publish chunk) := by
  have hstatus := h.live.mp hlive
  unfold MachineChannel.publish
  split
  next hrx =>
    -- The receiver is gone already.
    have hq := h.drained hrx
    refine ⟨h.joined.trans
      (by simp), by simp [dropSender, hstatus], h.isPrefix_append chunk, ?_, fun _ => ⟨hq, by simp [dropSender]⟩,
      h.drained, h.closed, by simp, ?_⟩
    · intro hrx'
      exact absurd (hrx.symm.trans hrx') (by simp)
    · intro _ hrx'
      exact absurd (hrx.symm.trans hrx') (by simp)
  next hrx =>
    have hrx : c.receiverClosed = false := by simpa using hrx
    have hanswer : c.answer = none := by
      by_contra ha
      exact (h.answered ha).2 hlive
    split
    next =>
      split
      next =>
        have hall := h.whole hrx (by simp [hstatus])
        have hall' : c.returned ++ (c.queue ++ [chunk]) = (sent ++ [chunk]).drop c.joined := by
          rw [drop_append_of_le_length h.joined, ← hall, append_assoc]
        refine ⟨h.joined.trans (by simp), h.live, hall' ▸ List.prefix_refl _, fun _ _ => hall', fun ha => absurd hanswer ha,
          ?_, h.closed,
          by simp, ?_⟩
        · intro hrx'
          exact absurd (hrx.symm.trans hrx') (by simp)
        · intro hs
          exact absurd (hstatus.symm.trans hs) (by simp)
      next => exact h.overflow chunk
    next => exact h.overflow chunk

theorem Sound.endSession : Sound sent true (if c.sender = .live then c.dropSender else c) := by
  split
  next hlive =>
    have hstatus := h.live.mp hlive
    exact ⟨h.joined, by simp [dropSender, hstatus], h.isPrefix, fun hrx _ => h.whole hrx (by simp [hstatus]),
      fun ha => ⟨(h.answered ha).1, by simp [dropSender]⟩, h.drained, h.closed, by simp [dropSender], fun _ _ => rfl⟩
  next hlive =>
    exact ⟨h.joined, h.live, h.isPrefix, h.whole, h.answered, h.drained, h.closed, fun _ => hlive, fun _ _ => rfl⟩

end

theorem Sound.fail (h : Sound sent ended c) {e : MachineOutputError} (hs : c.status = some e) :
    Sound sent ended (c.fail e) := { h with
  isPrefix := by
    obtain ⟨rest, hrest⟩ := h.isPrefix
    exact ⟨c.queue ++ rest, by simp [MachineChannel.fail, closeAndDrain, ← hrest]⟩
  whole := by simp [MachineChannel.fail, closeAndDrain]
  answered _ := ⟨rfl, fun hl => absurd (h.live.mp hl) (by simp [hs])⟩
  drained _ := rfl
  closed _ := .inr (by simp [MachineChannel.fail])
  done := by simp [MachineChannel.fail, closeAndDrain] }

theorem Sound.poll (h : Sound sent ended c) (hpoll : c.poll = some c') : Sound sent ended c' := by
  unfold MachineChannel.poll at hpoll
  split at hpoll
  case h_1 hp =>
    split at hpoll <;> cases hpoll
    next hs => exact h.fail hs
    next => exact h.frame rfl rfl rfl rfl rfl rfl rfl (by simp [hp])
  case h_2 hp =>
    split at hpoll <;> cases hpoll
    next hs => exact h.fail hs
    next => exact h.frame rfl rfl rfl rfl rfl rfl rfl (by simp [hp])
  case h_3 hp =>
    split at hpoll
    next chunk queue hq =>
      cases hpoll
      have hmove : c.returned ++ [chunk] ++ queue = c.returned ++ c.queue := by simp [hq]
      have hanswer : c.answer = none := by
        by_contra ha
        rw [(h.answered ha).1] at hq
        cases hq
      have hrx : c.receiverClosed = false := by
        by_contra hrx
        rw [h.drained (by simpa using hrx)] at hq
        cases hq
      refine ⟨h.joined, h.live, ?_, ?_, fun ha => absurd hanswer ha, ?_, ?_, h.stopped, h.done⟩
      · rw [hmove]
        exact h.isPrefix
      · rw [hmove]
        exact h.whole
      · intro hrx'
        exact absurd (hrx.symm.trans hrx') (by simp)
      · intro hrx'
        exact absurd (hrx.symm.trans hrx') (by simp)
    next hq =>
      split at hpoll <;> cases hpoll
      next hgone =>
        have hnl : c.sender ≠ .live := by simp [hgone]
        exact ⟨h.joined, h.live, h.isPrefix, h.whole, fun _ => ⟨hq, hnl⟩, h.drained, fun _ => .inr (by simp),
          h.stopped, h.done⟩
      next => exact h.frame rfl rfl rfl rfl rfl rfl rfl (by simp [hp])
  case h_4 => cases hpoll

theorem Sound.dropReceiver (h : Sound sent ended c) : Sound sent ended { c.closeAndDrain with phase := .gone } := { h with
  isPrefix := by
    obtain ⟨rest, hrest⟩ := h.isPrefix
    exact ⟨c.queue ++ rest, by simp [closeAndDrain, ← hrest]⟩
  whole := by simp [closeAndDrain]
  answered ha := ⟨rfl, (h.answered ha).2⟩
  drained _ := rfl
  closed _ := .inl rfl
  done := by simp [closeAndDrain] }

theorem Sound.offers (h : Sound sent false c) (new : List OutputChunk) : Sound (sent ++ new) false (new.foldl offer c) := by
  induction new generalizing sent c with
  | nil => rwa [append_nil]
  | cons chunk new ih =>
    rw [foldl_cons, append_cons sent chunk new]
    apply ih
    unfold offer
    split
    next hlive => exact h.publish hlive chunk
    next hlive => exact h.other hlive chunk

theorem offers_of_not_live (hlive : c.sender ≠ .live) (new : List OutputChunk) : new.foldl offer c = c := by
  induction new with
  | nil => rfl
  | cons chunk new ih => rw [foldl_cons, offer, if_neg hlive, ih]

variable {D : Prop} {sent' : List OutputChunk} {ended' : Bool}

theorem Sound.step (hstep : ChannelStep D sent ended c sent' ended' c') (h : Sound sent ended c) :
    Sound sent' ended' c' := by
  cases hstep with
  | same => exact h
  | offers new => exact h.offers new
  | endSession => exact h.endSession
  | senderGone hd =>
    have hnone : c.status ≠ none := fun hs => absurd (h.live.mpr hs) (by simp [hd])
    exact ⟨h.joined, by simp [hnone], h.isPrefix, h.whole, fun ha => ⟨(h.answered
      ha).1, by simp⟩, h.drained, h.closed, by simp, h.done⟩
  | poll hp => exact h.poll hp
  | cancel hp => exact h.frame rfl rfl rfl rfl rfl rfl rfl (fun hg => absurd hg hp)
  | dropReceiver => exact h.dropReceiver
  | budget => exact h.frame rfl rfl rfl rfl rfl rfl rfl id

theorem Sound.step_answered (hstep : ChannelStep D sent ended c sent' ended' c') (h : Sound sent ended c)
    (ha : c.answer ≠ none) :
    c'.returned = c.returned ∧ c'.answer = c.answer := by
  obtain ⟨hq, hlive⟩ := h.answered ha
  obtain ⟨e, he⟩ := ne_none_iff_exists'.mp ha
  cases hstep with
  | offers new => rw [offers_of_not_live hlive]; exact ⟨rfl, rfl⟩
  | endSession => rw [if_neg hlive]; exact ⟨rfl, rfl⟩
  | poll hp =>
    unfold MachineChannel.poll at hp
    grind [MachineChannel.fail, closeAndDrain]
  | _ => exact ⟨rfl, rfl⟩

/-- The queue is empty when the session ends, and everything was returned when `recv` answers so. -/
structure Returned (sent : List OutputChunk) (ended : Bool) (c : MachineChannel) : Prop where
  empty : c.status = some .closed → c.queue = []
  all : c.answer = some .closed → c.status ≠ some .overflow → ended = true ∧ c.returned = sent.drop c.joined

theorem Returned.offer (h : Sound sent false c) (R : Returned sent false c) (chunk : OutputChunk) :
    Returned (sent ++ [chunk]) false (c.offer chunk) := by
  have hall : c.answer = some .closed → c.status ≠ some .overflow → False := fun ha hs => by simpa using (R.all ha hs).1
  unfold MachineChannel.offer MachineChannel.publish
  split
  next hlive =>
    have hanswer : c.answer = none := by
      by_contra ha
      exact (h.answered ha).2 hlive
    have hstatus := h.live.mp hlive
    split
    next hrx => exact ⟨fun _ => h.drained hrx, fun ha => absurd (hanswer.symm.trans ha) (by simp)⟩
    next hrx =>
      have hover : Returned (sent ++ [chunk]) false { c with status := some .overflow }.dropSender :=
        ⟨by simp [dropSender], by simp [dropSender]⟩
      split
      next =>
        split
        next => exact ⟨fun hs => absurd (hstatus.symm.trans hs) (by simp), fun ha => absurd (hanswer.symm.trans ha)
          (by simp)⟩
        next => exact hover
      next => exact hover
  next => exact ⟨R.empty, fun ha hs => (hall ha hs).elim⟩

theorem Returned.offers (h : Sound sent false c) (R : Returned sent false c) (new : List OutputChunk) :
    Returned (sent ++ new) false (new.foldl MachineChannel.offer c) := by
  induction new generalizing sent c with
  | nil => rwa [append_nil]
  | cons chunk new ih =>
    rw [foldl_cons, append_cons sent chunk new]
    exact ih (h.offers [chunk]) (R.offer h chunk)

theorem Returned.fail (h : Sound sent ended c) (R : Returned sent ended c) {e : MachineOutputError} (hs : c.status = some e)
    (hphase : c.phase ≠ .gone) : Returned sent ended (c.fail e) := by
  refine ⟨fun _ => rfl, fun ha hov => ?_⟩
  cases hanswer : c.answer with
  | some e' =>
    have ha' : c.answer = some .closed := by simpa [MachineChannel.fail, hanswer] using ha
    exact R.all ha' hov
  | none =>
    -- The first error: the receiver was open, and nothing was queued.
    have he : e = .closed := by simpa [MachineChannel.fail, hanswer] using ha
    have hrx : c.receiverClosed = false := by
      by_contra hrx
      exact (h.closed (by simpa using hrx)).elim hphase (fun hne => hne hanswer)
    have hwhole := h.whole hrx hov
    rw [R.empty (he ▸ hs), append_nil] at hwhole
    exact ⟨h.done (he ▸ hs) hrx, hwhole⟩

theorem Returned.poll (h : Sound sent ended c) (R : Returned sent ended c) (hpoll : c.poll = some c') :
    Returned sent ended c' := by
  unfold MachineChannel.poll at hpoll
  split at hpoll
  case h_1 hp =>
    split at hpoll <;> cases hpoll
    next hs => exact R.fail h hs (by simp [hp])
    next => exact ⟨R.empty, R.all⟩
  case h_2 hp =>
    split at hpoll <;> cases hpoll
    next hs => exact R.fail h hs (by simp [hp])
    next => exact ⟨R.empty, R.all⟩
  case h_3 hp =>
    split at hpoll
    next chunk queue hq =>
      cases hpoll
      have hnone : c.answer = none := by
        by_contra ha
        rw [(h.answered ha).1] at hq
        cases hq
      exact ⟨fun hs => absurd (R.empty hs) (by simp [hq]), fun ha => absurd (hnone.symm.trans ha) (by simp)⟩
    next hq =>
      split at hpoll <;> cases hpoll
      next hgone =>
        refine ⟨fun _ => hq, fun ha hov => ?_⟩
        cases hanswer : c.answer with
        | some e => exact R.all (by simpa [hanswer] using ha) hov
        | none =>
          have hrx : c.receiverClosed = false := by
            by_contra hrx
            exact (h.closed (by simpa using hrx)).elim (by simp [hp]) (fun hne => hne hanswer)
          have hs : c.status = some .closed := by
            cases hs : c.status with
            | none => exact absurd (h.live.mpr hs) (by simp [hgone])
            | some e => cases e with
              | overflow => exact absurd hs hov
              | closed => rfl
          have hwhole := h.whole hrx hov
          rw [hq, append_nil] at hwhole
          exact ⟨h.done hs hrx, hwhole⟩
      next => exact ⟨R.empty, R.all⟩
  case h_4 => cases hpoll

theorem Returned.step (hD : D) (hstep : ChannelStep D sent ended c sent' ended' c') (h : Sound sent ended c)
    (R : Returned sent ended c) :
    Returned sent' ended' c' := by
  cases hstep with
  | same => exact R
  | offers new => exact R.offers h new
  | endSession hq =>
    split
    next hlive =>
      refine ⟨fun _ => ?_, fun ha => absurd hlive (h.answered (by rw [show c.answer = _ from ha]; simp)).2⟩
      cases hrx : c.receiverClosed with
      | false => exact hq hD hlive hrx
      | true => exact h.drained hrx
    next => exact ⟨R.empty, fun ha hs => ⟨rfl, (R.all ha hs).2⟩⟩
  | senderGone hd => exact ⟨R.empty, R.all⟩
  | poll hp => exact R.poll h hp
  | cancel hp => exact ⟨R.empty, R.all⟩
  | dropReceiver => exact ⟨fun _ => rfl, R.all⟩
  | budget => exact ⟨R.empty, R.all⟩

end MachineChannel

namespace Machines
open MachineChannel

section Runs
variable {σ ι : Type} [ScreenMirror σ] [DecidableEq ι] {capacity : Nat} {retention : RetentionBudget} {w w' : Machines σ ι}
variable {c : MachineChannel} {i : ι}

/-- The session ends only when nothing is queued for a receiver. -/
def drained (w : Machines σ ι) : MachineAction ι → Prop
  | .endSession => ∀ i, ∀ c ∈ w.channel i, c.sender = .live → c.receiverClosed = false → c.queue = []
  | _ => True

omit [ScreenMirror σ] [DecidableEq ι] in
theorem subscribeMachine_channel {hub : SessionHub σ} {after : Option Nat} {joined : Nat}
    {r : MachineChannel × AttachmentSnapshot × List HistoryRange}
    (h : hub.subscribeMachine after joined = .ok r) : ∃ available held, r.1 = { available, held, joined } := by
  unfold SessionHub.subscribeMachine at h
  cases h₁ : charge machineOutputBytes machineControlBytes with
  | error e => simp [h₁, bind, Except.bind] at h
  | ok available =>
    simp only [h₁, bind, Except.bind] at h
    split at h
    · cases h
    · cases h
      exact ⟨_, _, rfl⟩

variable {i j : ι} {f : MachineChannel → Option MachineChannel} {D : Prop} {a : MachineAction ι}

omit [ScreenMirror σ] in
theorem modify_channel (h : w.modify i f = some w') :
    w'.feed = w.feed ∧ w'.ended = w.ended ∧
      ((w'.channel j = w.channel j ∧ j ≠ i) ∨ j = i ∧ ∃ c c', w.channel j = some c ∧ f c = some c' ∧
        w'.channel j = some c') := by
  obtain ⟨c', hc', rfl⟩ := map_eq_some_iff.mp h
  obtain ⟨c, hc, hf⟩ := bind_eq_some_iff.mp hc'
  refine ⟨rfl, rfl, ?_⟩
  by_cases hj : j = i
  · subst hj
    exact .inr ⟨rfl, c, c', hc, hf, update_self ..⟩
  · exact .inl ⟨update_of_ne hj .., hj⟩

omit [ScreenMirror σ] in
theorem modify_step (h : w.modify i f = some w')
    (hf : ∀ {c c'}, f c = some c' → ChannelStep D w.feed.sent w.ended c w.feed.sent w.ended c')
    (hc : w.channel j = some c) : ∃ c', w'.channel j = some c' ∧
      ChannelStep D w.feed.sent w.ended c w'.feed.sent w'.ended c' := by
  obtain ⟨hfeed, hended, ⟨hsame, -⟩ | ⟨rfl, c₁, c', hc₁, hfc, hc'⟩⟩ := modify_channel (j := j) h
  · rw [hfeed, hended]
    exact ⟨c, hsame.trans hc, .same⟩
  · rw [hfeed, hended]
    cases hc.symm.trans hc₁
    exact ⟨c', hc', hf hfc⟩

theorem step_channel (hD : D → w.drained a) (hstep : w.step a = some w')
    (hc : w.channel i = some c) : ∃ c', w'.channel i = some c' ∧
      ChannelStep D w.feed.sent w.ended c w'.feed.sent w'.ended c' := by
  cases a with
  | op o =>
    simp only [step] at hstep
    split at hstep <;> cases hstep
    next hended =>
      have hended : w.ended = false := by simpa using hended
      obtain ⟨new, hnew⟩ := w.feed.sent_step o
      refine ⟨_, congrArg (Option.map _) hc, ?_⟩
      simp only [hended, ← hnew, drop_left]
      exact .offers new
  | subscribe j after =>
    simp only [step] at hstep
    split at hstep
    next => cases hstep
    next hfree =>
      split at hstep <;> cases hstep
      next =>
        have hij : i ≠ j := by
          intro e
          rw [e] at hc
          simp [hc] at hfree
        exact ⟨c, by simp only [update_of_ne hij, hc], .same⟩
      next => exact ⟨c, hc, .same⟩
  | endSession =>
    simp only [step] at hstep
    split at hstep <;> cases hstep
    next hended =>
      have hended : w.ended = false := by simpa using hended
      refine ⟨_, congrArg (Option.map _) hc, ?_⟩
      simp only [hended]
      exact .endSession fun hd hlive hrx => hD hd i c hc hlive hrx
  | senderGone j =>
    refine modify_step hstep ?_ hc
    intro c c' hf
    split at hf <;> cases hf
    next hd => exact .senderGone hd
  | poll j => exact modify_step hstep .poll hc
  | cancel j =>
    refine modify_step hstep ?_ hc
    intro c c' hf
    split at hf <;> cases hf
    next hp => exact .cancel hp
  | dropReceiver j =>
    refine modify_step hstep ?_ hc
    intro c c' hf
    split at hf <;> cases hf
    exact .dropReceiver
  | giveBack j k =>
    refine modify_step hstep ?_ hc
    intro c c' hf
    obtain ⟨bytes, -, rfl⟩ := map_eq_some_iff.mp hf
    exact .budget ..
  | tryCharge j bytes =>
    refine modify_step hstep ?_ hc
    intro c c' hf
    split at hf <;> cases hf
    · exact .budget ..
    · exact .same

theorem step_fresh (hstep : w.step a = some w') (hnone : w.channel i = none)
    (hc : w'.channel i = some c) : w'.ended = false ∧ ∃ available held,
      c = { available, held, joined := w'.feed.sent.length } := by
  have hmod : ∀ {j f}, w.modify j f = some w' → False := by
    intro j f h
    obtain ⟨-, -, ⟨hsame, -⟩ | ⟨-, c₁, c', hc₁, -⟩⟩ := modify_channel (j := i) h
    · simp [hsame, hnone] at hc
    · simp [hnone] at hc₁
  cases a with simp only [step] at hstep
  | op o =>
    split at hstep <;> cases hstep
    simp [hnone] at hc
  | subscribe j after =>
    split at hstep
    next => cases hstep
    next hfree =>
      split at hstep <;> cases hstep
      next c₁ _ hok =>
        by_cases hij : i = j
        · subst hij
          cases (update_self ..).symm.trans hc
          exact ⟨by simpa using (not_or.mp hfree).1, subscribeMachine_channel hok⟩
        · simp [update_of_ne hij, hnone] at hc
      next => simp [hnone] at hc
  | endSession =>
    split at hstep <;> cases hstep
    simp [hnone] at hc
  | senderGone | poll | cancel | dropReceiver | giveBack | tryCharge => exact (hmod hstep).elim

theorem sound_fresh {sent : List OutputChunk} {available : Nat} {held : List Nat} :
    Sound sent false { available, held, joined := sent.length } := by
  constructor <;> simp

theorem sound_reachable {ok : Machines σ ι → MachineAction ι → Prop} (h : (machines σ ι capacity retention).Reachable ok w)
    (hc : w.channel i = some c) : Sound w.feed.sent w.ended c := by
  refine h.inv (P := fun w => ∀ i c, w.channel i = some c → Sound w.feed.sent w.ended c) ?_ ?_ i c hc
  · rintro _ rfl
    simp
  · intro w w' a _ hstep hs i c' hc'
    cases hw : w.channel i with
    | none =>
      obtain ⟨hended, available, held, rfl⟩ := step_fresh hstep hw hc'
      rw [hended]
      exact sound_fresh
    | some c =>
      obtain ⟨c'', hc'', hch⟩ := step_channel (D := False) False.elim hstep hw
      cases hc'.symm.trans hc''
      exact (hs i c hw).step hch

theorem returned_reachable (h : (machines σ ι capacity retention).Reachable drained w)
    (hc : w.channel i = some c) : Returned w.feed.sent w.ended c := by
  refine h.inv_of (Q := fun w => ∀ i c, w.channel i = some c → Sound w.feed.sent w.ended c)
    (P := fun w => ∀ i c, w.channel i = some c → Returned w.feed.sent w.ended c) (fun h i c => sound_reachable h) ?_
      ?_ i c hc
  · rintro _ rfl
    simp
  · intro w w' a hok hstep hs hr i c' hc'
    cases hw : w.channel i with
    | none =>
      obtain ⟨-, available, held, rfl⟩ := step_fresh hstep hw hc'
      exact ⟨by simp, by simp⟩
    | some c =>
      obtain ⟨c'', hc'', hch⟩ := step_channel (D := True) (fun _ => hok) hstep hw
      cases hc'.symm.trans hc''
      exact (hr i c hw).step trivial hch (hs i c hw)

/-- A subscriber gets what is sent after it joined, in order, and at a close all of it. -/
theorem machine_output_complete (h : (machines σ ι capacity retention).Reachable System.anyAction w)
    (hc : w.channel i = some c) :
    c.returned <+: w.feed.sent.drop c.joined ∧
    (c.answer = some .overflow → ∀ {w'}, (machines σ ι capacity retention).Run System.anyAction w w' →
      ∃ c', w'.channel i = some c' ∧ c'.returned = c.returned) ∧
    ((machines σ ι capacity retention).Reachable drained w → c.answer = some .closed → c.status ≠ some .overflow →
      c.returned = w.feed.sent.drop c.joined) := by
  refine ⟨(List.prefix_append ..).trans (sound_reachable h hc).isPrefix, fun ha w' hrun => ?_, fun hd ha hs =>
    ((returned_reachable hd hc).all ha hs).2⟩
  have hkeep : ∃ c', w'.channel i = some c' ∧ Sound w'.feed.sent w'.ended c' ∧ c'.returned = c.returned ∧
      c'.answer = some .overflow := by
    refine hrun.keeps (P := fun w => ∃ c', w.channel i = some c' ∧ Sound w.feed.sent w.ended c' ∧ c'.returned = c.returned ∧
      c'.answer = some .overflow) ?_ ⟨c, hc, sound_reachable h hc, rfl, ha⟩
    rintro w w' a - hstep ⟨c₁, hc₁, hs₁, hr₁, ha₁⟩
    obtain ⟨c₂, hc₂, hch⟩ := step_channel (D := False) False.elim hstep hc₁
    obtain ⟨hr, hans⟩ := hs₁.step_answered hch (by simp [ha₁])
    exact ⟨c₂, hc₂, hs₁.step hch, hr.trans hr₁, hans.trans ha₁⟩
  obtain ⟨c', hc', -, hr, -⟩ := hkeep
  exact ⟨c', hc', hr⟩

end Runs

instance {σ : Type} {w : Machines σ Unit} : DecidablePred (drained w)
  | .endSession => by unfold drained; infer_instance
  | .op _ | .subscribe .. | .senderGone _ | .poll _ | .cancel _ | .dropReceiver _ | .giveBack .. | .tryCharge .. =>
    isTrue trivial

def takenFirst : List (MachineAction Unit) :=
  [.subscribe () none, .op (.publish (ascii "ab") none), .poll (), .poll (), .poll (), .endSession, .poll ()]

open Feed in
theorem machine_output_complete_takenFirst :
    ∃ w c, (@machines (List UInt8) Unit transcript _ 8 (.fromTextCapacity 8)).Reachable drained w ∧
    w.channel () = some c ∧ c.answer = some .closed ∧ c.returned = w.feed.sent.drop c.joined ∧
      c.returned.map OutputChunk.bytes = [ascii "ab"] := by
  let := transcript
  let w₀ : Machines (List UInt8) Unit := { feed := .run 8 (.fromTextCapacity 8) [] }
  have hrun : ((System.admitted step drained takenFirst w₀).bind (·.channel ())).map
      (fun c => (c.answer, c.status, c.returned.map OutputChunk.bytes)) =
      some (some .closed, some .closed, [ascii "ab"]) := by decide +kernel
  obtain ⟨c, hc, hshown⟩ := map_eq_some_iff.mp hrun
  obtain ⟨w, hw, hwc⟩ := bind_eq_some_iff.mp hc
  simp only [Prod.mk.injEq] at hshown
  obtain ⟨hanswer, hstatus, hreturned⟩ := hshown
  have h : (machines (List UInt8) Unit 8 (.fromTextCapacity 8)).Reachable drained w := ⟨w₀, rfl, .of_admitted id hw⟩
  have hany : (machines (List UInt8) Unit 8 (.fromTextCapacity 8)).Reachable System.anyAction w :=
    h.mono fun _ _ _ => trivial
  exact ⟨w, c, h, hwc, hanswer, (machine_output_complete hany hwc).2.2 h hanswer (by simp [hstatus]), hreturned⟩

def endedFirst : List (MachineAction Unit) := [.subscribe () none, .op (.publish (ascii "ab") none), .endSession, .poll ()]

open Feed in
/-- The receiver answers that it is closed and has returned nothing. -/
theorem queued_chunk_dropped : ∃ w c, (@machines (List UInt8) Unit transcript _ 8 (.fromTextCapacity 8)).Reachable
    System.anyAction w ∧
    w.channel () = some c ∧ c.answer = some .closed ∧ c.status = some .closed ∧ c.returned = [] ∧
    (w.feed.sent.drop c.joined).map OutputChunk.bytes = [ascii "ab"] := by
  let := transcript
  let w₀ : Machines (List UInt8) Unit := { feed := .run 8 (.fromTextCapacity 8) [] }
  have hrun : (System.admitted step System.anyAction endedFirst w₀).bind (fun w => (w.channel ()).map fun c =>
      (c.answer, c.status, c.returned, (w.feed.sent.drop c.joined).map OutputChunk.bytes)) =
      some (some .closed, some .closed, [], [ascii "ab"]) := by decide +kernel
  obtain ⟨w, hw, hmap⟩ := bind_eq_some_iff.mp hrun
  obtain ⟨c, hc, hshown⟩ := map_eq_some_iff.mp hmap
  simp only [Prod.mk.injEq] at hshown
  exact ⟨w, c, ⟨w₀, rfl, .of_admitted id hw⟩, hc, hshown⟩

end Machines
end Ferryx.Terminal
