import OcuFilestore.Lib.Environment
import OcuFilestore.Lib.System

/-!
# OcuFilestore.Lib.Pool

A fixed pool of programs on one shared state, where every program also has a
state of its own.  An effect sees and changes both; besides, the shared state
may drift and a program's own state may be signalled at any time.

`Pool.invariant` is the rule for the reachable states of a pool: something
holds of every program by itself, and something of the whole.  An effect of
one program has to establish its part again, and to keep that of the others.
-/

namespace OcuFilestore

open Prog

variable {E : Type} {R : E → Type} {σ κ α : Type}

/-- A program with its own state. -/
structure Thread (R : E → Type) (κ α : Type) where
  own : κ
  prog : Prog R α

structure Pool (R : E → Type) (σ κ : Type) where
  env : Env R (σ × κ)
  drift : σ → σ → Prop
  signal : κ → κ → Prop

namespace Pool

variable {P : Pool R σ κ} {init : σ → Prop} {ts ts₀ : List (Thread R κ α)} {s s' : σ}

inductive Step (P : Pool R σ κ) :
    σ × List (Thread R κ α) → σ × List (Thread R κ α) → Prop
  | drift {s s' : σ} {ts : List (Thread R κ α)} (h : P.drift s s') : Step P (s, ts) (s', ts)
  | signal {s : σ} {ts : List (Thread R κ α)} {i : Nat} {th : Thread R κ α} {c : κ}
      (hi : ts[i]? = some th) (h : P.signal th.own c) :
      Step P (s, ts) (s, ts.set i { th with own := c })
  | effect {s s' : σ} {ts : List (Thread R κ α)} {i : Nat} {c c' : κ} {e : E}
      {k : R e → Prog R α} {r : R e} (hi : ts[i]? = some ⟨c, .op e k⟩)
      (h : P.env (s, c) e r (s', c')) : Step P (s, ts) (s', ts.set i ⟨c', k r⟩)

/-- The runs of a pool of given threads. -/
def system (P : Pool R σ κ) (init : σ → Prop) (ts : List (Thread R κ α)) :
    System (σ × List (Thread R κ α)) where
  init t := init t.1 ∧ t.2 = ts
  step := P.Step

/-! ## building runs -/

/-- One thread takes an effect. -/
theorem reachable_effect {i : Nat} {c c' : κ} {e : E} {k : R e → Prog R α} {r : R e}
    (h : (P.system init ts₀).Reachable (s, ts)) (hi : ts[i]? = some ⟨c, .op e k⟩)
    (he : P.env (s, c) e r (s', c')) :
    (P.system init ts₀).Reachable (s', ts.set i ⟨c', k r⟩) :=
  h.step (.effect hi he)

/-- One thread may run while the others wait. -/
theorem reachable_runsIn {i : Nat} {c c' : κ} {p p' : Prog R α}
    (h : (P.system init ts₀).Reachable (s, ts)) (hi : ts[i]? = some ⟨c, p⟩)
    (hrun : RunsIn P.env (s, c) p (s', c') p') :
    (P.system init ts₀).Reachable (s', ts.set i ⟨c', p'⟩) := by
  generalize hfrom : (s, c) = from' at hrun
  generalize hto : (s', c') = to' at hrun
  induction hrun generalizing s c ts with
  | refl sc p =>
      obtain ⟨rfl, rfl⟩ := Prod.mk.inj (hfrom.trans hto.symm)
      obtain ⟨hlt, hget⟩ := List.getElem?_eq_some_iff.mp hi
      rwa [← hget, List.set_getElem_self]
  | @step sc sc₁ sc' e k r p' he _ ih =>
      cases hfrom
      have hlt : i < ts.length := (List.getElem?_eq_some_iff.mp hi).1
      have h₁ := ih (reachable_effect h hi he) (List.getElem?_set_self hlt) rfl hto
      rwa [List.set_set] at h₁

/-- A signalled thread goes on with the same program. -/
theorem reachable_signal {i : Nat} {c c' : κ} {p : Prog R α}
    (h : (P.system init ts₀).Reachable (s, ts)) (hi : ts[i]? = some ⟨c, p⟩)
    (hs : P.signal c c') : (P.system init ts₀).Reachable (s, ts.set i ⟨c', p⟩) :=
  h.step (.signal hi hs)

/-! ## invariants -/

/-- What a thread keeps, the list of all threads keeps. -/
theorem map_set_same {β : Type} {g : Thread R κ α → β} {i : Nat} {th : Thread R κ α}
    (th' : Thread R κ α) (hi : ts[i]? = some th) (h : g th' = g th) :
    (ts.set i th').map g = ts.map g := by
  have hget : (ts.map g)[i]? = some (g th) := by rw [List.getElem?_map, hi, Option.map_some]
  obtain ⟨hlt, hget⟩ := List.getElem?_eq_some_iff.mp hget
  rw [List.map_set, h, ← hget, List.set_getElem_self]

/-- What holds of one thread after it is replaced, and of the others as
before. -/
theorem forall_set {Q Q' : Thread R κ α → Prop} {i : Nat} {th : Thread R κ α}
    (h : ∀ (j : Nat) th', ts[j]? = some th' → Q th')
    (hother : ∀ (j : Nat) th', j ≠ i → ts[j]? = some th' → Q th' → Q' th') (hnew : Q' th) :
    ∀ (j : Nat) th', (ts.set i th)[j]? = some th' → Q' th' := by
  intro j th' hj
  rw [List.getElem?_set] at hj
  split at hj
  · split at hj
    · exact Option.some.inj hj ▸ hnew
    · cases hj
  · next hij => exact hother j th' (Ne.symm hij) hj (h j th' hj)

/-- **The invariant rule**: `Each` holds of every thread and `All` of the
whole, if they hold at the start, drifting and signals keep them, and an
effect of a thread establishes them again and keeps `Each` of the other
threads. -/
theorem invariant (Each : σ → Thread R κ α → Prop) (All : σ → List (Thread R κ α) → Prop)
    (hinit : ∀ s, init s → All s ts₀ ∧ ∀ (i : Nat) th, ts₀[i]? = some th → Each s th)
    (hdrift : ∀ s s' ts, P.drift s s' → All s ts →
      (∀ (i : Nat) th, ts[i]? = some th → Each s th) →
        All s' ts ∧ ∀ (i : Nat) th, ts[i]? = some th → Each s' th)
    (hsignal : ∀ s ts (i : Nat) th c, ts[i]? = some th → P.signal th.own c → All s ts → Each s th →
      All s (ts.set i { th with own := c }) ∧ Each s { th with own := c })
    (heffect : ∀ s s' ts (i : Nat) c c' e k r, ts[i]? = some ⟨c, .op e k⟩ →
      P.env (s, c) e r (s', c') → All s ts → (∀ (j : Nat) th, ts[j]? = some th → Each s th) →
        All s' (ts.set i ⟨c', k r⟩) ∧ Each s' ⟨c', k r⟩ ∧
          ∀ (j : Nat) th, j ≠ i → ts[j]? = some th → Each s th → Each s' th)
    {t : σ × List (Thread R κ α)} (h : (P.system init ts₀).Reachable t) :
    All t.1 t.2 ∧ ∀ (i : Nat) th, t.2[i]? = some th → Each t.1 th := by
  induction h with
  | @init t h =>
      obtain ⟨hi, hts⟩ := h
      rw [hts]
      exact hinit t.1 hi
  | step _ hs ih =>
      obtain ⟨hall, heach⟩ := ih
      cases hs with
      | drift hd => exact hdrift _ _ _ hd hall heach
      | signal hi hsig =>
          obtain ⟨hall', heach'⟩ := hsignal _ _ _ _ _ hi hsig hall (heach _ _ hi)
          exact ⟨hall', forall_set heach (fun _ _ _ _ h => h) heach'⟩
      | effect hi he =>
          obtain ⟨hall', heach', hother⟩ := heffect _ _ _ _ _ _ _ _ _ hi he hall heach
          exact ⟨hall', forall_set heach hother heach'⟩

end Pool

end OcuFilestore
