import Mathlib

/-! # Labelled transition systems

A guard restricts the actions of a run: a property of the runs that meet a condition is one of the states reachable under a
guard. -/

namespace Ferryx.Lib

structure System (σ α : Type*) where
  init : σ → Prop
  step : σ → α → σ → Prop

namespace System
variable {σ α : Type*} (M : System σ α)

def anyAction : σ → α → Prop := fun _ _ => True

def Next (ok : σ → α → Prop) (s t : σ) : Prop := ∃ a, ok s a ∧ M.step s a t

def Run (ok : σ → α → Prop) : σ → σ → Prop := Relation.ReflTransGen (M.Next ok)

def Reachable (ok : σ → α → Prop) (s : σ) : Prop := ∃ s₀, M.init s₀ ∧ M.Run ok s₀ s

variable {M} {ok ok' : σ → α → Prop} {s t : σ} {P Q : σ → Prop}

theorem Reachable.init (h : M.init s) : M.Reachable ok s := ⟨s, h, .refl⟩

theorem Reachable.run (h : M.Reachable ok s) (hr : M.Run ok s t) : M.Reachable ok t := by
  obtain ⟨s₀, h₀, hr₀⟩ := h
  exact ⟨s₀, h₀, hr₀.trans hr⟩

theorem Reachable.step {a : α} (h : M.Reachable ok s) (ha : ok s a) (hs : M.step s a t) : M.Reachable ok t :=
  h.run (.single ⟨a, ha, hs⟩)

theorem Run.keeps (hstep : ∀ {s t a}, ok s a → M.step s a t → P s → P t) (hr : M.Run ok s t) (h : P s) : P t := by
  induction hr with
  | refl => exact h
  | tail _ hn ih =>
    obtain ⟨a, ha, hs⟩ := hn
    exact hstep ha hs ih

theorem Reachable.inv (hinit : ∀ {s}, M.init s → P s) (hstep : ∀ {s t a}, ok s a → M.step s a t → P s → P t)
    (h : M.Reachable ok s) : P s := by
  obtain ⟨s₀, h₀, hr⟩ := h
  exact hr.keeps hstep (hinit h₀)

/-- The invariant rule relative to an invariant that is known already. -/
theorem Reachable.inv_of (hQ : ∀ {s}, M.Reachable ok s → Q s) (hinit : ∀ {s}, M.init s → P s)
    (hstep : ∀ {s t a}, ok s a → M.step s a t → Q s → P s → P t) (h : M.Reachable ok s) : P s := by
  obtain ⟨s₀, h₀, hr⟩ := h
  induction hr with
  | refl => exact hinit h₀
  | tail hr hn ih =>
    obtain ⟨a, ha, hs⟩ := hn
    exact hstep ha hs (hQ ⟨s₀, h₀, hr⟩) ih

theorem Reachable.mono (hok : ∀ s a, ok s a → ok' s a) (h : M.Reachable ok s) : M.Reachable ok' s := by
  obtain ⟨s₀, h₀, hr⟩ := h
  have hnext : ∀ u v, M.Next ok u v → M.Next ok' u v := by
    rintro u v ⟨a, ha, hs⟩
    exact ⟨a, hok u a ha, hs⟩
  exact ⟨s₀, h₀, Relation.ReflTransGen.mono hnext _ _ hr⟩

/-- The state after a list of actions, if the guard admits each of them where it is taken. -/
def admitted (step : σ → α → Option σ) (ok : σ → α → Prop) [∀ s, DecidablePred (ok s)] : List α → σ → Option σ
  | [], s => some s
  | a :: as, s => if ok s a then (step s a).bind (admitted step ok as) else none

theorem Run.of_admitted {step : σ → α → Option σ} [∀ s, DecidablePred (ok s)] (hstep : ∀ {s t a}, step s a = some t →
    M.step s a t)
    {as : List α} (h : admitted step ok as s = some t) : M.Run ok s t := by
  induction as generalizing s with
  | nil => exact Option.some_inj.mp h ▸ .refl
  | cons a as ih =>
    unfold admitted at h
    split at h
    next ha =>
      obtain ⟨u, hu, hrest⟩ := Option.bind_eq_some_iff.mp h
      exact .head ⟨a, ha, hstep hu⟩ (ih hrest)
    next => simp at h

/-- The guard admits each action of a list where it is taken; every action leads to one state. -/
def Admits (step : σ → α → σ) (ok : σ → α → Prop) : List α → σ → Prop
  | [], _ => True
  | a :: as, s => ok s a ∧ Admits step ok as (step s a)

instance decidableAdmits (step : σ → α → σ) (ok : σ → α → Prop) [∀ s, DecidablePred (ok s)] :
    ∀ as s, Decidable (Admits step ok as s)
  | [], _ => isTrue trivial
  | a :: as, s => @instDecidableAnd (ok s a) _ inferInstance (decidableAdmits step ok as (step s a))

theorem admits_anyAction {step : σ → α → σ} {as : List α} : Admits step anyAction as s := by
  induction as generalizing s with
  | nil => trivial
  | cons a as ih => exact ⟨trivial, ih⟩

theorem Run.of_admits {step : σ → α → σ} {as : List α} (h : Admits step ok as s)
    (hstep : ∀ s a, M.step s a (step s a) := by exact fun _ _ => rfl) : M.Run ok s (as.foldl step s) := by
  induction as generalizing s with
  | nil => exact .refl
  | cons a as ih => exact .head ⟨a, h.1, hstep s a⟩ (ih h.2)

instance : ∀ s : σ, DecidablePred (anyAction (α := α) s) := fun _ _ => isTrue trivial

end System
end Ferryx.Lib
