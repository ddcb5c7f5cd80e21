import Ferryx.Hub.Approval

/-! # Consent covers what the owner saw -/

namespace Ferryx.Hub
open Lib List Classification
open AgentControl (trim isWhitespace)

theorem Effect.asStr_injective {e e' : Effect} (h : e.asStr = e'.asStr) : e = e' := by
  cases e <;> cases e' <;> first | rfl | exact absurd h (by decide)

theorem Effect.colon_notMem_asStr (e : Effect) : ':' ∉ e.asStr.toList := by
  cases e <;> decide

theorem Effect.bar_notMem_asStr (e : Effect) : '|' ∉ e.asStr.toList := by
  cases e <;> decide

theorem split_unique {c : Char} {a a' b b' : List Char} (ha : c ∉ a) (ha' : c ∉ a') (h : a ++ c :: b = a' ++ c :: b') :
    a = a' ∧ b = b' := by
  induction a generalizing a' with
  | nil =>
    cases a' with
    | nil => exact ⟨rfl, by simpa using h⟩
    | cons d a' =>
      obtain ⟨rfl, -⟩ := List.cons.inj h
      exact absurd (mem_cons_self ..) ha'
  | cons d a ih =>
    cases a' with
    | nil =>
      obtain ⟨rfl, -⟩ := List.cons.inj h
      exact absurd (mem_cons_self ..) ha
    | cons d' a' =>
      obtain ⟨rfl, hrest⟩ := List.cons.inj h
      obtain ⟨rfl, rfl⟩ := ih (fun hm => ha (mem_cons_of_mem _ hm)) (fun hm => ha' (mem_cons_of_mem _ hm)) hrest
      exact ⟨rfl, rfl⟩

/-- A signature starts with the effect, and carries the command if the effect does. -/
structure Signed (c : Classification) : Prop where
  effect : ∃ rest, c.signature = c.effect.asStr ++ ":" ++ rest
  carried : signatureCarriesCommand c.effect →
    c.signature = pushExactCommand (signatureBase c.effect c.program c.target) c.summary

theorem pushExactCommand_base (effect : Effect) (program target command : String) :
    ∃ rest, pushExactCommand (signatureBase effect program target) command = effect.asStr ++ ":" ++ rest := by
  unfold pushExactCommand signatureBase
  split
  · exact ⟨program ++ ":" ++ target ++ "|" ++ exactCommand command, by simp [String.append_assoc]⟩
  · exact ⟨program ++ ":" ++ target, by simp [String.append_assoc]⟩

theorem Rating.signed (r : Rating) (summary : String) : Signed (r.classification summary) := by
  constructor
  · simp only [Rating.classification]
    split
    · exact pushExactCommand_base ..
    · exact ⟨r.program ++ ":" ++ normalizeTarget r.target, by simp [signatureBase, String.append_assoc]⟩
  · intro h
    simp only [Rating.classification] at h ⊢
    rw [if_pos h]

theorem Classification.new_signed (effect : Effect) (program target summary : String) :
    Signed (new effect program target summary) := Rating.signed _ _

section Hashed
variable [CodeHash]

variable {c : Classification} {worst : Option Classification} {f : String → Option String → Classification}

theorem Signed.covering (h : Signed c) (line : String) : Signed (c.covering line) := by
  constructor
  · simp only [Classification.covering]
    split
    · exact pushExactCommand_base ..
    · obtain ⟨rest, hrest⟩ := h.effect
      exact ⟨rest ++ "|" ++ codeHash line, by rw [hrest]; simp [String.append_assoc]⟩
  · intro hc
    simp only [Classification.covering] at hc ⊢
    rw [if_pos hc]

omit [CodeHash] in
theorem moreConsequential_signed (hc : Signed c)
    (hworst : ∀ w ∈ worst, Signed w) : ∀ w ∈ moreConsequential c worst, Signed w := by
  intro w hw
  cases worst with
  | none =>
    obtain rfl : c = w := by simpa [moreConsequential] using hw
    exact hc
  | some v =>
    simp only [moreConsequential] at hw
    split at hw
    · obtain rfl : c = w := by simpa using hw
      exact hc
    · exact hworst w hw

omit [CodeHash] in
theorem worstSegment_signed (hf : ∀ s cwd, Signed (f s cwd)) (cwd : Option String) (hworst : ∀ w ∈ worst, Signed w)
    (segments : List String) :
    ∀ w ∈ worstSegment f cwd worst segments, Signed w := by
  induction segments generalizing cwd worst with
  | nil => exact hworst
  | cons seg segments ih =>
    simp only [worstSegment]
    split
    · exact ih _ hworst
    · split
      · exact ih _ hworst
      · exact ih _ (moreConsequential_signed (hf ..) hworst)

theorem classifyStep_signed (hf : ∀ s cwd, Signed (f s cwd)) (command : String)
    (cwd : Option String) : Signed (classifyStep f command cwd) := by
  simp only [classifyStep]
  split_ifs
  · exact new_signed ..
  · exact new_signed ..
  · split
    · rename_i c hc
      exact (worstSegment_signed hf cwd (by simp) _ c hc).covering _
    · exact new_signed ..
  · split
    · exact new_signed ..
    · split
      · exact new_signed ..
      · split
        · exact hf ..
        · exact Rating.signed ..

theorem classifyWithin_signed (n : Nat) (command : String) (cwd : Option String) :
    Signed (classifyWithin n command cwd) := by
  induction n generalizing command cwd with
  | zero => exact new_signed ..
  | succ n ih => exact classifyStep_signed ih command cwd

theorem classifyFrame_signed (frame : Frame) (cwd : Option String) : Signed (classifyFrame frame cwd) := by
  simp only [classifyFrame]
  split
  · exact new_signed ..
  · split
    · exact classifyWithin_signed ..
    · split
      · exact new_signed ..
      · split <;> exact new_signed ..

end Hashed

theorem Signed.effect_eq {c c' : Classification} (h : Signed c) (h' : Signed c') (hs : c.signature = c'.signature) :
    c.effect = c'.effect := by
  obtain ⟨rest, hrest⟩ := h.effect
  obtain ⟨rest', hrest'⟩ := h'.effect
  rw [hrest, hrest', ← String.toList_inj] at hs
  simp only [String.toList_append, append_assoc] at hs
  exact Effect.asStr_injective
    (String.toList_inj.mp (split_unique c.effect.colon_notMem_asStr c'.effect.colon_notMem_asStr hs).1)

theorem bar_notMem_signatureBase {effect : Effect} {program target : String} (hp : '|' ∉ program.toList)
    (ht : '|' ∉ target.toList) : '|' ∉ (signatureBase effect program target).toList := by
  have hcolon : '|' ∉ ":".toList := by decide
  simp only [signatureBase, String.toList_append, mem_append, not_or]
  exact ⟨⟨⟨⟨effect.bar_notMem_asStr, hcolon⟩, hp⟩, hcolon⟩, ht⟩

theorem exactCommand_of_push {base base' command command' : String} (hb : '|' ∉ base.toList) (hb' : '|' ∉ base'.toList)
    (h : pushExactCommand base command = pushExactCommand base' command') :
      exactCommand command = exactCommand command' := by
  have hbar : ∀ s x : String, (s ++ "|" ++ x).toList = s.toList ++ '|' :: x.toList := by
    intro s x
    simp [String.toList_append]
  unfold pushExactCommand at h
  split_ifs at h with h1 h2 h3
  · rw [← String.toList_inj, hbar, hbar] at h
    exact String.toList_inj.mp (split_unique hb hb' h).2
  · rw [← h, hbar] at hb'
    exact absurd (by simp) hb'
  · rw [h, hbar] at hb
    exact absurd (by simp) hb
  · rw [not_not.mp h1, not_not.mp h3]

def shellWords (command : String) : List (List String) := (splitShellSegments command).map tokenizeShell

namespace Approvals
variable [CodeHash] {w w' : Approvals} {a b : Ask} {retired : Frame → Bool}

/-- A request whose signature would carry its command shows that command on its card, as one that reads the same with its
white space folded; and no bar stands before it. -/
def PlainRequest (frame : Frame) (cwd : Option String) : Prop :=
  signatureCarriesCommand (classifyFrame frame cwd).effect →
    frame.shellCommand = some (classifyFrame frame cwd).summary ∧
      shellWords (exactCommand (classifyFrame frame cwd).summary) = shellWords (classifyFrame frame cwd).summary ∧
      '|' ∉ (classifyFrame frame cwd).program.toList ∧ '|' ∉ (classifyFrame frame cwd).target.toList

/-- Requests are plain, and the owner makes no precedent of a spending. -/
def plain (w : Approvals) : ApprovalsAction → Prop
  | .request _ frame cwd _ => PlainRequest frame cwd
  | .click i choice _ => ∀ a ∈ w.asks[i]?, (Ask.classification a).effect = .spend → choice ≠ .session ∧ choice ≠ .always
  | _ => True

instance (frame : Frame) (cwd : Option String) : Decidable (PlainRequest frame cwd) := inferInstanceAs (Decidable (_ → _))

instance : ∀ w, DecidablePred (plain w)
  | _, .request _ frame cwd _ => inferInstanceAs (Decidable (PlainRequest frame cwd))
  | w, .click i choice _ =>
    inferInstanceAs
      (Decidable (∀ a ∈ w.asks[i]?, (Ask.classification a).effect = .spend → choice ≠ .session ∧ choice ≠ .always))
  | _, .allowlisted .. | _, .posted .. | _, .resume .. | _, .expire .. | _, .restart => isTrue trivial

/-- The owner answered a card so that the answer covers a signature in a session. -/
def Taught (w : Approvals) (session signature : String) : Prop :=
  ∃ b ∈ w.asks, (Ask.classification b).signature = signature ∧
    (b.answer = some .session ∧ b.session = session ∨ b.answer = some .always)

/-- How an ask came to its answer. -/
structure AskOk (w : Approvals) (a : Ask) : Prop where
  plain : PlainRequest a.frame a.cwd
  spend : (Ask.classification a).effect = .spend → a.answer ≠ some .session ∧ a.answer ≠ some .always
  policy : a.stage = .done .policy → approvalVerdict false false a.frame a.cwd = none
  answered : ∀ choice, a.stage = .done (.answered choice) → a.answer = some choice
  granted : a.stage = .done .granted → w.Taught a.session (Ask.classification a).signature

/-- Each ask is in order, and each grant and each entry of the allowlist was taught by one. -/
structure Inv (w : Approvals) : Prop where
  asks : ∀ a ∈ w.asks, w.AskOk a
  sessions : ∀ session signature, (session, signature) ∈ w.sessionGrants → w.Taught session signature
  allowlist : ∀ signature ∈ w.allowlist, ∀ session, w.Taught session signature

/-- A request goes on: what it asks for stays, and what was answered too. -/
structure GoesOn (a b : Ask) : Prop where
  session : b.session = a.session
  frame : b.frame = a.frame
  cwd : b.cwd = a.cwd
  answer : ∀ choice, a.answer = some choice → b.answer = some choice

theorem GoesOn.classification (h : GoesOn a b) : Ask.classification b = Ask.classification a := by
  rw [Ask.classification, Ask.classification, h.frame, h.cwd]

def Later (w w' : Approvals) : Prop := ∀ a ∈ w.asks, ∃ b ∈ w'.asks, GoesOn a b

omit [CodeHash] in
theorem GoesOn.refl (a : Ask) : GoesOn a a := ⟨rfl, rfl, rfl, fun _ h => h⟩

theorem Taught.later {session signature : String} (h : w.Taught session signature) (hl : Later w w') :
    w'.Taught session signature := by
  obtain ⟨b, hb, hs, hanswer⟩ := h
  obtain ⟨c, hc, hgo⟩ := hl b hb
  refine ⟨c, hc, hgo.classification ▸ hs, ?_⟩
  obtain ⟨hsession, hin⟩ | halways := hanswer
  · exact .inl ⟨hgo.answer _ hsession, hgo.session.trans hin⟩
  · exact .inr (hgo.answer _ halways)

theorem AskOk.later (h : w.AskOk a) (hl : Later w w') : w'.AskOk a :=
  ⟨h.plain, h.spend, h.policy, h.answered, fun hg => (h.granted hg).later hl⟩

omit [CodeHash] in
theorem later_setAsk {i : Nat} (ha : w.asks[i]? = some a) (hgo : GoesOn a b) : Later w (w.setAsk i b) := by
  intro x hx
  obtain ⟨j, hj⟩ := mem_iff_getElem?.mp hx
  by_cases hij : i = j
  · subst hij
    obtain rfl : a = x := Option.some.inj (ha.symm.trans hj)
    have hlt := (List.getElem?_eq_some_iff.mp hj).1
    exact ⟨b, mem_set hlt b, hgo⟩
  · refine ⟨x, mem_iff_getElem?.mpr ⟨j, ?_⟩, .refl x⟩
    rw [setAsk, getElem?_set_ne hij, hj]

theorem Inv.setAsk {i : Nat} (h : Inv w) (ha : w.asks[i]? = some a) (hgo : GoesOn a b) (hb : (w.setAsk i b).AskOk b) :
    Inv (w.setAsk i b) := by
  have hl := later_setAsk ha hgo
  refine ⟨?_, fun session signature hs => (h.sessions session signature hs).later hl,
    fun signature hs session => (h.allowlist signature hs session).later hl⟩
  intro x hx
  obtain hx | rfl := mem_or_eq_of_mem_set hx
  · exact (h.asks x hx).later hl
  · exact hb

omit [CodeHash] in
theorem goesOn_endAsk (a : Ask) : GoesOn a (endAsk a) := by
  unfold endAsk
  split <;> exact ⟨rfl, rfl, rfl, fun _ h => h⟩

theorem AskOk.endAsk (h : w.AskOk a) : w.AskOk (endAsk a) := by
  unfold Approvals.endAsk
  split
  · exact h
  · exact ⟨h.plain, h.spend, by simp, by simp, by simp⟩

theorem Inv.request (h : Inv w) {session : String} {frame : Frame} {cwd : Option String} (attended : Bool)
    (hplain : PlainRequest frame cwd) : Inv (w.step false false retired (.request session frame cwd attended)) := by
  have hl : Later w (w.step false false retired (.request session frame cwd attended)) := fun a ha =>
    ⟨a, mem_append_left _ ha, .refl a⟩
  refine ⟨?_, fun session signature hs => (h.sessions session signature hs).later hl,
    fun signature hs session => (h.allowlist signature hs session).later hl⟩
  intro x hx
  obtain hx | hx := mem_append.mp hx
  · exact (h.asks x hx).later hl
  · obtain rfl := mem_singleton.mp hx
    refine ⟨hplain, by simp, ?_, ?_, ?_⟩
    · intro hpolicy
      simp only [firstStage] at hpolicy
      split at hpolicy
      · simp at hpolicy
      · split at hpolicy
        · assumption
        · split_ifs at hpolicy <;> simp at hpolicy
    · intro choice hchoice
      simp only [firstStage] at hchoice
      split at hchoice
      · simp at hchoice
      · split at hchoice
        · simp at hchoice
        · split_ifs at hchoice <;> simp at hchoice
    · intro hgranted
      simp only [firstStage] at hgranted
      split at hgranted
      · simp at hgranted
      · split at hgranted
        · simp at hgranted
        · split_ifs at hgranted with hattended hmem
          · simp at hgranted
          · exact (h.sessions _ _ hmem).later hl

theorem Inv.grant (h : Inv w) (ha : a ∈ w.asks) {choice : Choice} (hchoice : a.answer = some choice) (stored : Bool) :
    Inv (w.grant a choice stored) ∧ (w.grant a choice stored).asks = w.asks := by
  have hl : ∀ {v : Approvals}, v.asks = w.asks → Later w v := fun hv x hx => ⟨x, hv ▸ hx, .refl x⟩
  cases choice with
  | once => exact ⟨h, rfl⟩
  | deny => exact ⟨h, rfl⟩
  | session =>
    refine ⟨⟨fun x hx => (h.asks x hx).later (hl rfl), ?_, fun signature hs session =>
      (h.allowlist signature hs session).later (hl rfl)⟩,
      rfl⟩
    intro session signature hs
    obtain he | hs := mem_cons.mp hs
    · obtain ⟨rfl, rfl⟩ := Prod.mk.inj he
      exact ⟨a, ha, rfl, .inl ⟨hchoice, rfl⟩⟩
    · exact (h.sessions session signature hs).later (hl rfl)
  | always =>
    simp only [Approvals.grant]
    split
    · refine ⟨⟨fun x hx => (h.asks x hx).later (hl rfl),
        fun session signature hs => (h.sessions session signature hs).later (hl rfl), ?_⟩, rfl⟩
      intro signature hs session
      obtain rfl | hs := mem_cons.mp hs
      · exact ⟨a, ha, rfl, .inr hchoice⟩
      · exact (h.allowlist signature hs session).later (hl rfl)
    · exact ⟨h, rfl⟩

theorem Inv.step (h : Inv w) {action : ApprovalsAction} (hok : plain w action) :
    Inv (w.step false false retired action) := by
  cases action with simp only [Approvals.step]
  | request session frame cwd attended => exact h.request attended hok
  | allowlisted i readable =>
    split
    · rename_i a ha
      split
      · have hok := h.asks a (mem_of_getElem? ha)
        refine h.setAsk ha ⟨rfl, rfl, rfl, fun _ hc => hc⟩ ⟨hok.plain, hok.spend, ?_, ?_, ?_⟩
        · split <;> simp
        · split <;> simp
        · intro hgranted
          split at hgranted
          · rename_i hfound
            simp only [Bool.and_eq_true, decide_eq_true_eq] at hfound
            exact (h.allowlist _ hfound.2 a.session).later (later_setAsk ha ⟨rfl, rfl, rfl, fun _ hc => hc⟩)
          · simp at hgranted
      · exact h
    · exact h
  | posted i ok =>
    split
    · rename_i a ha
      split
      · have hok := h.asks a (mem_of_getElem? ha)
        refine h.setAsk ha ⟨rfl, rfl, rfl, fun _ hc => hc⟩ ⟨hok.plain, hok.spend, ?_, ?_, ?_⟩ <;> split <;> simp
      · exact h
    · exact h
  | click i choice authorized =>
    split
    · rename_i a ha
      split
      · rename_i hclick
        obtain ⟨-, hstage, hnone⟩ := hclick
        have haok := h.asks a (mem_of_getElem? ha)
        have hnot : ∀ o, a.stage ≠ .done o := by
          intro o ho
          rw [ho] at hstage
          simp at hstage
        refine h.setAsk ha ⟨rfl, rfl, rfl, fun c hc => ?_⟩ ⟨haok.plain, fun hspend => ?_, fun hs => absurd hs (hnot _),
          fun c hs => absurd hs (hnot _), fun hs => absurd hs (hnot _)⟩
        · rw [hnone] at hc
          cases hc
        · have := hok a ha hspend
          exact ⟨fun he => this.1 (Option.some.inj he), fun he => this.2 (Option.some.inj he)⟩
      · exact h
    · exact h
  | resume i stored =>
    split
    · rename_i a ha
      split
      · rename_i choice hchoice
        split
        · have hmem := mem_of_getElem? ha
          have haok := h.asks a hmem
          obtain ⟨hinv, hasks⟩ := h.grant hmem hchoice stored
          refine hinv.setAsk (a := a) (by rw [hasks, ha]) ⟨rfl, rfl, rfl, fun _ hc => hc⟩
            ⟨haok.plain, haok.spend, by simp, ?_, by simp⟩
          intro c hc
          obtain rfl : choice = c := by simpa using hc
          exact hchoice
        · exact h
      · exact h
    · exact h
  | expire i =>
    split
    · rename_i a ha
      have hgo := goesOn_endAsk a
      exact h.setAsk ha hgo (((h.asks a (mem_of_getElem? ha)).later (later_setAsk ha hgo)).endAsk)
    · exact h
  | restart =>
    have hl : Later w (w.step false false retired .restart) := fun a ha =>
      ⟨endAsk a, mem_map_of_mem ha, goesOn_endAsk a⟩
    refine ⟨?_, by simp, fun signature hs session => (h.allowlist signature hs session).later hl⟩
    intro x hx
    obtain ⟨a, ha, rfl⟩ := mem_map.mp hx
    exact ((h.asks a ha).later hl).endAsk

theorem inv_of_reachable (h : (approvals false false retired).Reachable plain w) : Inv w := by
  refine h.inv ?_ ?_
  · rintro w rfl
    exact ⟨by simp, by simp, by simp⟩
  · rintro w w' action hok rfl hinv
    exact hinv.step hok

/-- Two asks for commands with the same words. -/
def SameCommand (a b : Ask) : Prop :=
  ∃ command command', a.frame.shellCommand = some command ∧ b.frame.shellCommand = some command' ∧
    shellWords command = shellWords command'

theorem sameCommand_of_signature (ha : PlainRequest a.frame a.cwd) (hb : PlainRequest b.frame b.cwd)
    (hs : (Ask.classification b).signature = (Ask.classification a).signature) :
    (Ask.classification b).effect = (Ask.classification a).effect ∧
      (signatureCarriesCommand (Ask.classification a).effect → SameCommand b a) := by
  have hsa : Signed (Ask.classification a) := classifyFrame_signed ..
  have hsb : Signed (Ask.classification b) := classifyFrame_signed ..
  have heffect := hsb.effect_eq hsa hs
  refine ⟨heffect, fun hcarries => ?_⟩
  obtain ⟨hca, hwa, hpa, hta⟩ := ha hcarries
  obtain ⟨hcb, hwb, hpb, htb⟩ := hb (heffect ▸ hcarries)
  refine ⟨_, _, hcb, hca, ?_⟩
  rw [← hwa, ← hwb]
  have hexact := exactCommand_of_push (bar_notMem_signatureBase hpb htb) (bar_notMem_signatureBase hpa hta)
    ((hsb.carried (heffect ▸ hcarries)).symm.trans (hs.trans (hsa.carried hcarries)))
  exact congrArg shellWords hexact

/-- With full access off and approval mode not always, if the owner makes no precedent of a spending: a spending is approved
only on its own card; and what carries its command is approved without a card only after a card of the same effect and
command, for the session or for always. -/
theorem consent_covers (h : (approvals false false retired).Reachable plain w) (ha : a ∈ w.asks) {outcome : Outcome}
    (hdone : a.stage = .done outcome) (happroved : outcome.verdict = none) :
    ((Ask.classification a).effect = .spend → ∃ choice, outcome = .answered choice ∧ a.answer = some choice) ∧
      (signatureCarriesCommand (Ask.classification a).effect → (∀ choice, outcome ≠ .answered choice) →
        ∃ b ∈ w.asks, (Ask.classification b).effect = (Ask.classification a).effect ∧ SameCommand b a ∧
          (b.answer = some .session ∧ b.session = a.session ∨ b.answer = some .always)) := by
  have hinv := inv_of_reachable h
  have haok := hinv.asks a ha
  have hpolicy : ∀ e, (Ask.classification a).effect = e → e = .spend ∨ signatureCarriesCommand e → outcome ≠ .policy := by
    rintro e he hkind rfl
    have hverdict := haok.policy hdone
    simp only [approvalVerdict, Bool.false_eq_true, if_false] at hverdict
    rw [← Ask.classification, he] at hverdict
    cases e <;> simp [signatureCarriesCommand] at hkind hverdict
  cases outcome with
  | declined reason => cases happroved
  | unanswered => cases happroved
  | policy =>
    exact ⟨fun hspend => absurd rfl (hpolicy _ hspend (.inl rfl)), fun hcarries =>
      absurd rfl (hpolicy _ rfl (.inr hcarries))⟩
  | answered choice => exact ⟨fun _ => ⟨choice, rfl, haok.answered choice hdone⟩, fun _ hnot => absurd rfl (hnot choice)⟩
  | granted =>
    obtain ⟨b, hb, hs, hanswer⟩ := haok.granted hdone
    obtain ⟨heffect, hsame⟩ := sameCommand_of_signature haok.plain (hinv.asks b hb).plain hs
    refine ⟨fun hspend => ?_, fun hcarries _ => ⟨b, hb, heffect, hsame hcarries, hanswer⟩⟩
    obtain ⟨hsession, halways⟩ := (hinv.asks b hb).spend (heffect.trans hspend)
    obtain ⟨hgiven, -⟩ | hgiven := hanswer
    · exact absurd hgiven hsession
    · exact absurd hgiven halways

end Approvals

namespace Approvals

/-- The first command is answered with `choice`, and the second is asked for. -/
def taughtThen (choice : Choice) (first second : String) : List ApprovalsAction :=
  [.request "s" { command := some first } (some "/repo") true, .allowlisted 0 true, .posted 0 true, .click 0 choice true,
    .resume 0 true, .request "s" { command := some second } (some "/repo") true]

def afterTaught (choice : Choice) (first second : String) : Approvals :=
  (taughtThen choice first second).foldl (@step noHash false false fun _ => false) {}

theorem consent_covers_spaced : ∃ b ∈ (afterTaught .session "rm -r out" "rm  -r  out").asks,
    (@Ask.classification noHash b).effect =
          (@Ask.classification noHash ⟨"s", { command := some "rm  -r  out" }, some "/repo", .done .granted, none⟩).effect ∧
        SameCommand b ⟨"s", { command := some "rm  -r  out" }, some "/repo", .done .granted, none⟩ ∧
        (b.answer = some .session ∧ b.session = "s" ∨ b.answer = some .always) := by
  have hreach : (@approvals noHash false false fun _ => false).Reachable (@plain noHash)
      (afterTaught .session "rm -r out" "rm  -r  out") :=
    ⟨_, rfl, .of_admits (by decide +kernel)⟩
  exact (@consent_covers noHash _ _ _ hreach (by decide +kernel) .granted rfl rfl).2 (by decide +kernel) (by simp)

def charge : Ask := ⟨"s", { command := some "stripe charges create --amount 990000" }, some "/repo", .done .granted, none⟩

/-- Allowed for the session, one charge covers another. -/
theorem spending_without_card : (@Ask.classification noHash charge).effect = .spend ∧
      ∃ w, (@approvals noHash false false fun _ => false).Reachable System.anyAction w ∧ charge ∈ w.asks := by
  refine ⟨by decide +kernel,
    afterTaught .session "stripe charges create --amount 10" "stripe charges create --amount 990000",
    ⟨_, rfl, .of_admits (by decide +kernel)⟩, ?_⟩
  decide +kernel

/-- Other commands with the signature of an answer: another number of commands, another file, another argument of a script.
-/
def confused : List (String × String) :=
  [("rm a\nls", "rm a ls"), ("rm 'a  b'", "rm 'a b'"), ("sh -c 'rm $1' _ a", "sh -c 'rm $1' _ b")]

theorem signature_confused :
    ∀ x ∈ confused, shellWords x.1 ≠ shellWords x.2 ∧ (@classifyCommand noHash x.1 (some "/repo")).effect = .delete ∧
      (@classifyCommand noHash x.1 (some "/repo")).signature = (@classifyCommand noHash x.2 (some "/repo")).signature := by
  decide +kernel

end Approvals
end Ferryx.Hub
