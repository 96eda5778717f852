import Mathlib.Logic.Relation

/-!
# OcuFilestore.Lib.System

Transition systems: initial states, a step relation, the states some run
reaches, and the invariant rule.  A system can be restricted to the runs
whose steps all meet a condition.
-/

namespace OcuFilestore

structure System (σ : Type) where
  init : σ → Prop
  step : σ → σ → Prop

namespace System

variable {σ : Type} {S : System σ}

/-- The states a run can be in. -/
inductive Reachable (S : System σ) : σ → Prop
  | init {s : σ} (h : S.init s) : Reachable S s
  | step {s s' : σ} (h : Reachable S s) (hs : S.step s s') : Reachable S s'

/-- A property that holds initially and is kept by every step from a
reachable state holds along every run. -/
theorem Reachable.invariant {P : σ → Prop} (hinit : ∀ s, S.init s → P s)
    (hstep : ∀ s s', S.Reachable s → P s → S.step s s' → P s') {s : σ} (h : S.Reachable s) :
    P s := by
  induction h with
  | init h => exact hinit _ h
  | step h hs ih => exact hstep _ _ h ih hs

/-- The runs whose steps all meet a condition. -/
def restrict (S : System σ) (P : σ → σ → Prop) : System σ where
  init := S.init
  step s s' := S.step s s' ∧ P s s'

/-- What is reached with fewer steps is reached with all. -/
theorem Reachable.of_restrict {P : σ → σ → Prop} {s : σ} (h : (S.restrict P).Reachable s) :
    S.Reachable s := by
  induction h with
  | init h => exact .init h
  | step _ hs ih => exact ih.step hs.1

/-- What is reached from a state that is reached is reached. -/
theorem Reachable.trans {s s' : σ} (h : S.Reachable s) (hs : Relation.ReflTransGen S.step s s') :
    S.Reachable s' := by
  induction hs with
  | refl => exact h
  | tail _ hstep ih => exact ih.step hstep

end System

end OcuFilestore
