import OcuFilestore.Lib.Environment
import OcuFilestore.Lib.System

/-!
# OcuFilestore.Lib.Interleaving

Programs that run concurrently on one shared state.  Each effect is atomic;
between two effects of one program the others may take any number of theirs.

A `Discipline` says what holds of the shared state at all times (`inv`) and
how the state may move on (`rely`).  A program is `Guarded` when its effects
keep to the discipline, whatever the others do within it; what it has learnt
from its answers it may use later if it is stable under `rely`.
`reachable_guarded` is the soundness of this: if every program that can be
started is guarded, the invariant holds in every reachable state.
-/

namespace OcuFilestore

open Prog

variable {E : Type} {R : E → Type} {σ α β : Type}

structure Discipline (R : E → Type) (σ : Type) where
  env : Env R σ
  inv : σ → Prop
  rely : σ → σ → Prop
  refl : ∀ s, rely s s
  trans : ∀ s s' s'', rely s s' → rely s' s'' → rely s s''

namespace Discipline

variable {D : Discipline R σ}

/-- From a state on, every effect of the program keeps to the discipline, and
the result is related by `Q` to the state. -/
def Guarded (D : Discipline R σ) (Q : σ → α → Prop) : σ → Prog R α → Prop
  | s, .ret a => ∀ s', D.rely s s' → D.inv s' → Q s' a
  | s, .op e k => ∀ s', D.rely s s' → D.inv s' → ∀ r s'', D.env s' e r s'' →
      D.inv s'' ∧ D.rely s' s'' ∧ Guarded D Q s'' (k r)

/-- The others may run first. -/
theorem guarded_iff {Q : σ → α → Prop} {s : σ} {p : Prog R α} :
    D.Guarded Q s p ↔ ∀ s', D.rely s s' → D.inv s' → D.Guarded Q s' p := by
  cases p with
  | ret a =>
      exact ⟨fun h s' hs' _ s'' hs'' hi => h s'' (D.trans _ _ _ hs' hs'') hi,
        fun h s' hs' hi => h s' hs' hi s' (D.refl s') hi⟩
  | op e k =>
      exact ⟨fun h s' hs' _ s'' hs'' hi => h s'' (D.trans _ _ _ hs' hs'') hi,
        fun h s' hs' hi => h s' hs' hi s' (D.refl s') hi⟩

/-- The rule for sequences. -/
theorem Guarded.bind {Q : σ → α → Prop} {Q' : σ → β → Prop} {s : σ} {p : Prog R α}
    {f : α → Prog R β} (hp : D.Guarded Q s p)
    (hf : ∀ s a, D.inv s → Q s a → D.Guarded Q' s (f a)) : D.Guarded Q' s (p >>= f) := by
  induction p generalizing s with
  | ret a => exact guarded_iff.mpr fun s' hs' hi => hf s' a hi (hp s' hs' hi)
  | op e k ih =>
      intro s' hs' hi r s'' he
      obtain ⟨hi', hr, hk⟩ := hp s' hs' hi r s'' he
      exact ⟨hi', hr, ih r hk⟩

/-- What is stable still holds when the program is done. -/
theorem Guarded.frame {Q : σ → α → Prop} {F : σ → Prop} {s : σ} {p : Prog R α}
    (hp : D.Guarded Q s p) (hF : F s) (hstable : ∀ s s', F s → D.rely s s' → F s') :
    D.Guarded (fun s a => Q s a ∧ F s) s p := by
  induction p generalizing s with
  | ret a => exact fun s' hs' hi => ⟨hp s' hs' hi, hstable s s' hF hs'⟩
  | op e k ih =>
      intro s' hs' hi r s'' he
      obtain ⟨hi', hr, hk⟩ := hp s' hs' hi r s'' he
      exact ⟨hi', hr, ih r hk (hstable s s'' hF (D.trans _ _ _ hs' hr))⟩

/-- An effect that the discipline allows and that ends in `Q`. -/
theorem guarded_perform {e : E} {Q : σ → R e → Prop} {s : σ}
    (h : ∀ s', D.rely s s' → D.inv s' → ∀ r s'', D.env s' e r s'' →
      D.inv s'' ∧ D.rely s' s'' ∧ Q s'' r)
    (hQ : ∀ s r s', Q s r → D.rely s s' → Q s' r) : D.Guarded Q s (.perform e) := by
  intro s' hs' hi r s'' he
  obtain ⟨hi', hr, hq⟩ := h s' hs' hi r s'' he
  exact ⟨hi', hr, fun s₃ hs₃ _ => hQ _ _ _ hq hs₃⟩

/-! ## the system -/

/-- One step of a pool of programs: a new one, or an effect of one of them. -/
inductive Interleaved (env : Env R σ) (start : Prog R α → Prop) :
    σ × List (Prog R α) → σ × List (Prog R α) → Prop
  | spawn {s : σ} {ps : List (Prog R α)} {p : Prog R α} (h : start p) :
      Interleaved env start (s, ps) (s, ps ++ [p])
  | effect {s s' : σ} {ps : List (Prog R α)} {i : Nat} {e : E} {k : R e → Prog R α} {r : R e}
      (h : ps[i]? = some (.op e k)) (he : env s e r s') :
      Interleaved env start (s, ps) (s', ps.set i (k r))

/-- The pools that start empty. -/
def interleave (env : Env R σ) (init : σ → Prop) (start : Prog R α → Prop) :
    System (σ × List (Prog R α)) where
  init s := init s.1 ∧ s.2 = []
  step := Interleaved env start

/-- One of the programs may run while the others wait. -/
theorem reachable_runsIn {env : Env R σ} {init : σ → Prop} {start : Prog R α → Prop} {s s' : σ}
    {ps : List (Prog R α)} {i : Nat} {p p' : Prog R α}
    (h : (interleave env init start).Reachable (s, ps)) (hi : ps[i]? = some p)
    (hrun : RunsIn env s p s' p') : (interleave env init start).Reachable (s', ps.set i p') := by
  induction hrun generalizing ps with
  | refl s p =>
      obtain ⟨hlt, rfl⟩ := List.getElem?_eq_some_iff.mp hi
      rwa [List.set_getElem_self]
  | @step s s₁ s' e k r p' he _ ih =>
      have hlt : i < ps.length := (List.getElem?_eq_some_iff.mp hi).1
      have h₁ := ih (h.step (.effect hi he)) (List.getElem?_set_self hlt)
      rwa [List.set_set] at h₁

/-- A program may be started and run to its end while the others wait. -/
theorem reachable_evalsTo {env : Env R σ} {init : σ → Prop} {start : Prog R α → Prop} {s s' : σ}
    {ps : List (Prog R α)} {p : Prog R α} {a : α}
    (h : (interleave env init start).Reachable (s, ps)) (hp : start p)
    (hrun : EvalsTo env s p s' a) :
    (interleave env init start).Reachable (s', ps ++ [.ret a]) := by
  have hs := reachable_runsIn (h.step (.spawn hp)) List.getElem?_concat_length hrun
  rwa [List.set_append_right _ _ (Nat.le_refl _), Nat.sub_self] at hs

/-- Guarded programs keep the invariant and stay guarded. -/
theorem reachable_guarded {Q : σ → α → Prop} {init : σ → Prop} {start : Prog R α → Prop}
    (hinit : ∀ s, init s → D.inv s)
    (hstart : ∀ p, start p → ∀ s, D.inv s → D.Guarded Q s p)
    {t : σ × List (Prog R α)} (h : (interleave D.env init start).Reachable t) :
    D.inv t.1 ∧ ∀ p ∈ t.2, D.Guarded Q t.1 p := by
  induction h with
  | @init t h =>
      obtain ⟨hi, hnil⟩ := h
      rw [hnil]
      exact ⟨hinit _ hi, List.forall_mem_nil _⟩
  | step _ hs ih =>
      obtain ⟨hi, hps⟩ := ih
      cases hs with
      | spawn hp =>
          refine ⟨hi, fun p hp' => ?_⟩
          rcases List.mem_append.mp hp' with hp' | hp'
          · exact hps p hp'
          · rw [List.mem_singleton.mp hp']
            exact hstart _ hp _ hi
      | @effect s s' ps i e k r hget he =>
          have hop := hps _ (List.mem_of_getElem? hget)
          obtain ⟨hi', hr, hk⟩ := hop s (D.refl s) hi r s' he
          refine ⟨hi', fun p hp => ?_⟩
          rcases List.mem_or_eq_of_mem_set hp with hp | rfl
          · exact guarded_iff.mp (hps p hp) s' hr hi'
          · exact hk

end Discipline

end OcuFilestore
