import OcuFilestore.Lib.Program

/-!
# OcuFilestore.Lib.Monitor

Safety monitors for programs.  A monitor has a state, says in each state
which effects are allowed, and moves with every effect and its answer.  A
program *keeps* a monitor when every effect any run can issue is allowed at
that point of the run; what it returns is related to the monitor's state at
the end.

The rule for sequencing, `Keeps.bind`, hands the state from the first program
to the second, so a loop is one induction.
-/

namespace OcuFilestore

/-- Which effects are allowed in a state, and how the state moves. -/
structure Monitor {E : Type} (R : E → Type) (σ : Type) where
  ok : σ → E → Prop
  next : σ → (e : E) → R e → σ

namespace Prog

variable {E : Type} {R : E → Type} {σ α β : Type} {M : Monitor R σ}

/-- Every run of the program from this state of the monitor issues allowed
effects only, and ends with `Q`. -/
def Keeps (M : Monitor R σ) (Q : σ → α → Prop) : σ → Prog R α → Prop
  | s, .ret a => Q s a
  | s, .op e k => M.ok s e ∧ ∀ r, Keeps M Q (M.next s e r) (k r)

/-- The rule for sequences. -/
theorem Keeps.bind {Q : σ → α → Prop} {Q' : σ → β → Prop} {s : σ} {p : Prog R α}
    {f : α → Prog R β} (hp : Keeps M Q s p) (hf : ∀ s a, Q s a → Keeps M Q' s (f a)) :
    Keeps M Q' s (p >>= f) := by
  induction p generalizing s with
  | ret a => exact hf s a hp
  | op e k ih => exact ⟨hp.1, fun r => ih r (hp.2 r)⟩

/-- What every effect keeps of the monitor's state holds at the end as well. -/
theorem Keeps.inv {I : σ → Prop} (hI : ∀ s e r, I s → I (M.next s e r)) {Q : σ → α → Prop} {s : σ}
    {p : Prog R α} (hp : Keeps M Q s p) (hs : I s) : Keeps M (fun s a => I s ∧ Q s a) s p := by
  induction p generalizing s with
  | ret a => exact ⟨hs, hp⟩
  | op e k ih => exact ⟨hp.1, fun r => ih r (hp.2 r) (hI s e r hs)⟩

/-! ## recorded runs -/

/-- The monitor that allows everything and keeps the run so far. -/
def recording : Monitor R (List (Answered R)) where
  ok _ _ := True
  next tr e r := tr ++ [⟨e, r⟩]

/-- What a recorded program ends with holds of its finished runs. -/
theorem Keeps.exec {Q : List (Answered R) → α → Prop} {tr tr' : List (Answered R)} {p : Prog R α}
    {a : α} (hp : Keeps recording Q tr p) (h : Exec p tr' a) : Q (tr ++ tr') a := by
  induction p generalizing tr tr' with
  | ret b =>
      obtain ⟨rfl, rfl⟩ := exec_ret h
      rw [List.append_nil]
      exact hp
  | op e k ih =>
      obtain ⟨r, tr', rfl, h'⟩ := exec_op h
      have := ih r (hp.2 r) h'
      rwa [recording, List.append_assoc] at this

end Prog

end OcuFilestore
