/-!
# OcuFilestore.Lib.Program

Programs that talk to an environment.  A program either returns a value or
issues an *effect* `e` and goes on with a continuation that receives the
environment's answer, of the type `R e` the effect promises.  The tree is
inductive, so every run of a program against any sequence of answers is
finite.

Two semantics are given:

* `Runs` — the partial runs: a program, the effects it issued with the
  answers they got, and the program that is left;
* `Exec` — the finished runs.

Three predicates on programs carry the reasoning, each with a rule for
sequencing and an adequacy theorem that reads it off the runs:

* `Always P Q` — every effect a run can issue satisfies `P`, every result `Q`;
* `Returns Q` — every result satisfies `Q`;
* `After bad Q` — once an answer is `bad`, the result is related to that
  answer by `Q`, whatever the environment says afterwards.
-/

namespace OcuFilestore

/-- A program over effects `E`, where effect `e` is answered by a value of
type `R e`. -/
inductive Prog {E : Type} (R : E → Type) (α : Type) where
  | ret (a : α)
  | op (e : E) (k : R e → Prog R α)

namespace Prog

variable {E : Type} {R : E → Type} {α β : Type}

/-- Sequencing: run `p`, then `f` on its result. -/
def bind : Prog R α → (α → Prog R β) → Prog R β
  | .ret a, f => f a
  | .op e k, f => .op e fun r => bind (k r) f

instance : Monad (Prog R) where
  pure := .ret
  bind := Prog.bind

/-- Issue one effect and return its answer. -/
def perform (e : E) : Prog R (R e) := .op e .ret

@[simp] theorem pure_eq (a : α) : (pure a : Prog R α) = .ret a := rfl

@[simp] theorem ret_bind (a : α) (f : α → Prog R β) : ((.ret a : Prog R α) >>= f) = f a := rfl

@[simp] theorem op_bind (e : E) (k : R e → Prog R α) (f : α → Prog R β) :
    ((.op e k : Prog R α) >>= f) = .op e fun r => k r >>= f := rfl

theorem bind_assoc {γ : Type} (p : Prog R α) (f : α → Prog R β) (g : β → Prog R γ) :
    ((p >>= f) >>= g) = p >>= fun a => f a >>= g := by
  induction p with
  | ret a => rfl
  | op e k ih =>
      simp only [op_bind]
      congr 1
      funext r
      exact ih r

/-- The same program over a larger set of effects: each effect is renamed,
and the answer to the new effect is read as an answer to the old one. -/
def lift {E' : Type} {R' : E' → Type} (i : E → E') (down : (e : E) → R' (i e) → R e) :
    Prog R α → Prog R' α
  | .ret a => .ret a
  | .op e k => .op (i e) fun r => lift i down (k (down e r))

/-! ## runs -/

/-- One effect with the answer it got. -/
abbrev Answered (R : E → Type) : Type := (e : E) × R e

/-- Partial runs: `p` issues the effects of the trace, gets the answers of
the trace, and `p'` is what is left of it. -/
inductive Runs : Prog R α → List (Answered R) → Prog R α → Prop
  | refl (p : Prog R α) : Runs p [] p
  | step {e : E} {k : R e → Prog R α} {r : R e} {tr : List (Answered R)} {p' : Prog R α} :
      Runs (k r) tr p' → Runs (.op e k) (⟨e, r⟩ :: tr) p'

/-- Finished runs. -/
def Exec (p : Prog R α) (tr : List (Answered R)) (a : α) : Prop := Runs p tr (.ret a)

/-- A program that has returned asks for nothing. -/
theorem exec_ret {a b : α} {tr : List (Answered R)} (h : Exec (.ret a : Prog R α) tr b) :
    tr = [] ∧ a = b := by
  unfold Exec at h
  cases h
  exact ⟨rfl, rfl⟩

/-- A run of an effect begins with its answer. -/
theorem exec_op {e : E} {k : R e → Prog R α} {tr : List (Answered R)} {a : α}
    (h : Exec (.op e k) tr a) : ∃ r tr', tr = ⟨e, r⟩ :: tr' ∧ Exec (k r) tr' a := by
  unfold Exec at h
  cases h with
  | step h => exact ⟨_, _, rfl, h⟩

/-- A finished run of a sequence is a run of its first part and one of the
rest. -/
theorem exec_bind {p : Prog R α} {f : α → Prog R β} {tr : List (Answered R)} {b : β}
    (h : Exec (p >>= f) tr b) :
    ∃ tr₁ tr₂ a, tr = tr₁ ++ tr₂ ∧ Exec p tr₁ a ∧ Exec (f a) tr₂ b := by
  induction p generalizing tr with
  | ret a => exact ⟨[], tr, a, rfl, .refl _, h⟩
  | op e k ih =>
      obtain ⟨r, tr', rfl, h'⟩ := exec_op h
      obtain ⟨tr₁, tr₂, a, rfl, h₁, h₂⟩ := ih r h'
      exact ⟨⟨e, r⟩ :: tr₁, tr₂, a, rfl, .step h₁, h₂⟩

/-- The run against an oracle that answers the `i`-th effect: the effects
issued, in order, and the result. -/
def runWith (oracle : Nat → (e : E) → R e) : Nat → Prog R α → List E × α
  | _, .ret a => ([], a)
  | i, .op e k =>
      let r := runWith oracle (i + 1) (k (oracle i e))
      (e :: r.1, r.2)

@[simp] theorem runWith_ret (oracle : Nat → (e : E) → R e) (i : Nat) (a : α) :
    runWith oracle i (.ret a : Prog R α) = ([], a) := rfl

@[simp] theorem runWith_op (oracle : Nat → (e : E) → R e) (i : Nat) (e : E)
    (k : R e → Prog R α) :
    runWith oracle i (.op e k) =
      (e :: (runWith oracle (i + 1) (k (oracle i e))).1,
        (runWith oracle (i + 1) (k (oracle i e))).2) := rfl

/-- The second part of a sequence is answered behind the first. -/
@[simp] theorem runWith_bind (oracle : Nat → (e : E) → R e) (i : Nat) (p : Prog R α)
    (f : α → Prog R β) :
    runWith oracle i (p >>= f) =
      ((runWith oracle i p).1 ++
          (runWith oracle (i + (runWith oracle i p).1.length) (f (runWith oracle i p).2)).1,
        (runWith oracle (i + (runWith oracle i p).1.length) (f (runWith oracle i p).2)).2) := by
  induction p generalizing i with
  | ret a => rfl
  | op e k ih =>
      rw [op_bind, runWith_op, runWith_op, ih]
      simp [Nat.add_assoc, Nat.add_comm 1]

/-! ## what every run does -/

/-- Every effect any run can issue satisfies `P`, and every result `Q`. -/
def Always (P : E → Prop) (Q : α → Prop) : Prog R α → Prop
  | .ret a => Q a
  | .op e k => P e ∧ ∀ r, Always P Q (k r)

/-- Every result satisfies `Q`. -/
def Returns (Q : α → Prop) : Prog R α → Prop
  | .ret a => Q a
  | .op _ k => ∀ r, Returns Q (k r)

/-- Once an answer is `bad`, the result is related to it by `Q`. -/
def After (bad : (e : E) → R e → Prop) (Q : (e : E) → R e → α → Prop) : Prog R α → Prop
  | .ret _ => True
  | .op e k => ∀ r, (bad e r → Returns (Q e r) (k r)) ∧ After bad Q (k r)

@[simp] theorem always_ret {P : E → Prop} {Q : α → Prop} {a : α} :
    Always P Q (.ret a : Prog R α) ↔ Q a := Iff.rfl

@[simp] theorem always_op {P : E → Prop} {Q : α → Prop} {e : E} {k : R e → Prog R α} :
    Always P Q (.op e k) ↔ P e ∧ ∀ r, Always P Q (k r) := Iff.rfl

/-- Sequencing keeps `Always`: the first program's results meet the second
program's precondition. -/
theorem Always.bind {P : E → Prop} {Q : α → Prop} {Q' : β → Prop} {p : Prog R α}
    {f : α → Prog R β} (hp : Always P Q p) (hf : ∀ a, Q a → Always P Q' (f a)) :
    Always P Q' (p >>= f) := by
  induction p with
  | ret a => exact hf a hp
  | op e k ih => exact ⟨hp.1, fun r => ih r (hp.2 r)⟩

/-- Consequence. -/
theorem Always.mono {P P' : E → Prop} {Q Q' : α → Prop} {p : Prog R α} (h : Always P Q p)
    (hP : ∀ e, P e → P' e) (hQ : ∀ a, Q a → Q' a) : Always P' Q' p := by
  induction p with
  | ret a => exact hQ a h
  | op e k ih => exact ⟨hP e h.1, fun r => ih r (h.2 r)⟩

/-- The rule for sequences. -/
theorem Returns.bind {Q : α → Prop} {Q' : β → Prop} {p : Prog R α} {f : α → Prog R β}
    (hp : Returns Q p) (hf : ∀ a, Q a → Returns Q' (f a)) : Returns Q' (p >>= f) := by
  induction p with
  | ret a => exact hf a hp
  | op e k ih => exact fun r => ih r (hp r)

/-- Consequence. -/
theorem Returns.mono {Q Q' : α → Prop} {p : Prog R α} (h : Returns Q p)
    (hQ : ∀ a, Q a → Q' a) : Returns Q' p := by
  induction p with
  | ret a => exact hQ a h
  | op e k ih => exact fun r => ih r (h r)

/-- Sequencing keeps `After`: a bad answer to the first program fixes its
result, and the second program turns that result into one that still
answers for it. -/
theorem After.bind {bad : (e : E) → R e → Prop} {Q : (e : E) → R e → α → Prop}
    {Q' : (e : E) → R e → β → Prop} {p : Prog R α} {f : α → Prog R β} (hp : After bad Q p)
    (hq : ∀ e r a, bad e r → Q e r a → Returns (Q' e r) (f a))
    (hf : ∀ a, After bad Q' (f a)) : After bad Q' (p >>= f) := by
  induction p with
  | ret a => exact hf a
  | op e k ih =>
      refine fun r => ⟨fun hb => ?_, ih r (hp r).2⟩
      exact Returns.bind ((hp r).1 hb) (hq e r · hb)

/-- Consequence. -/
theorem After.mono {bad : (e : E) → R e → Prop} {Q Q' : (e : E) → R e → α → Prop} {p : Prog R α}
    (h : After bad Q p) (hQ : ∀ e r a, Q e r a → Q' e r a) : After bad Q' p := by
  induction p with
  | ret a => exact True.intro
  | op e k ih => exact fun r => ⟨fun hb => ((h r).1 hb).mono (hQ e r), ih r (h r).2⟩

section Lift

variable {E' : Type} {R' : E' → Type} {i : E → E'} {down : (e : E) → R' (i e) → R e}

/-- What holds of a program holds of it among more effects. -/
theorem Always.lift {P : E → Prop} {P' : E' → Prop} {Q : α → Prop} {p : Prog R α}
    (h : Always P Q p) (hP : ∀ e, P e → P' (i e)) : Always P' Q (p.lift i down) := by
  induction p with
  | ret a => exact h
  | op e k ih => exact ⟨hP e h.1, fun r => ih _ (h.2 _)⟩

/-- What a program returns it returns among more effects. -/
theorem Returns.lift {Q : α → Prop} {p : Prog R α} (h : Returns Q p) :
    Returns Q (p.lift i down) := by
  induction p with
  | ret a => exact h
  | op e k ih => exact fun r => ih _ (h _)

/-- What follows a bad answer follows it among more effects. -/
theorem After.lift {bad : (e : E) → R e → Prop} {bad' : (e : E') → R' e → Prop}
    {Q : (e : E) → R e → α → Prop} {Q' : (e : E') → R' e → α → Prop} {p : Prog R α}
    (h : After bad Q p) (hbad : ∀ e r, bad' (i e) r → bad e (down e r))
    (hQ : ∀ e r a, Q e (down e r) a → Q' (i e) r a) : After bad' Q' (p.lift i down) := by
  induction p with
  | ret a => exact True.intro
  | op e k ih =>
      refine fun r => ⟨fun hb => ?_, ih _ (h _).2⟩
      have hr := (h (down e r)).1 (hbad e r hb)
      exact Returns.lift (Returns.mono hr fun a => hQ e r a)

end Lift

/-! ## adequacy -/

/-- What a program returns, the rest of it returns. -/
theorem Runs.returns {Q : α → Prop} {p p' : Prog R α} {tr : List (Answered R)}
    (h : Runs p tr p') (hp : Returns Q p) : Returns Q p' := by
  induction h with
  | refl p => exact hp
  | step h ih => exact ih (hp _)

/-- A bad answer anywhere in a finished run is answered for by the result. -/
theorem Exec.after {bad : (e : E) → R e → Prop} {Q : (e : E) → R e → α → Prop} {p : Prog R α}
    {tr : List (Answered R)} {a : α} (h : Exec p tr a) (hp : After bad Q p) :
    ∀ e r, ⟨e, r⟩ ∈ tr → bad e r → Q e r a := by
  induction p generalizing tr with
  | ret b =>
      obtain ⟨rfl, -⟩ := exec_ret h
      intro e r hx
      cases hx
  | op e k ih =>
      obtain ⟨r, tr', rfl, h'⟩ := exec_op h
      intro e' r' hx hb
      rcases List.mem_cons.mp hx with heq | hx
      · cases heq
        exact Runs.returns h' ((hp r).1 hb)
      · exact ih r h' (hp r).2 e' r' hx hb

end Prog

end OcuFilestore
