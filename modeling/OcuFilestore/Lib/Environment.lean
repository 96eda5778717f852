import OcuFilestore.Lib.Program

/-!
# OcuFilestore.Lib.Environment

Programs run against an environment with a state of its own.  The environment
is a relation: in a state, which answers an effect can get and which state it
leaves behind.

* `RunsIn` — the partial runs, with the state at both ends;
* `Safe ok Q` — every effect a run can issue is `ok` in the state it is issued
  in, and every result is related by `Q` to the state at the end;
* `Ensures Q` — the same without a condition on the effects;
* `Meets Q` — the same where every effect can be answered;
* `Tries ok Q` — for programs that can fail: `Q` of the results that are no
  failure.

`Safe` has a rule for sequencing and is kept by every run (`RunsIn.safe`), so
it carries postconditions as well as invariants of the program that is left.
-/

namespace OcuFilestore

/-- In this state the effect can get this answer, and leaves that state. -/
abbrev Env {E : Type} (R : E → Type) (σ : Type) : Type := σ → (e : E) → R e → σ → Prop

namespace Prog

variable {E : Type} {R : E → Type} {σ α β : Type} {env : Env R σ} {ok ok' : σ → E → Prop}

/-- Partial runs: from a state and a program to the state that is reached and
the program that is left. -/
inductive RunsIn (env : Env R σ) : σ → Prog R α → σ → Prog R α → Prop
  | refl (s : σ) (p : Prog R α) : RunsIn env s p s p
  | step {s s₁ s' : σ} {e : E} {k : R e → Prog R α} {r : R e} {p' : Prog R α}
      (h : env s e r s₁) (hr : RunsIn env s₁ (k r) s' p') : RunsIn env s (.op e k) s' p'

/-- Finished runs. -/
def EvalsTo (env : Env R σ) (s : σ) (p : Prog R α) (s' : σ) (a : α) : Prop :=
  RunsIn env s p s' (.ret a)

theorem evalsTo_perform {s s' : σ} {e : E} {r : R e} (h : env s e r s') :
    EvalsTo env s (.perform e) s' r :=
  .step h (.refl s' _)

/-- A run of what comes after a finished one. -/
theorem EvalsTo.bind {s s₁ s' : σ} {p : Prog R α} {a : α} {f : α → Prog R β} {p' : Prog R β}
    (hp : EvalsTo env s p s₁ a) (hf : RunsIn env s₁ (f a) s' p') :
    RunsIn env s (p >>= f) s' p' := by
  unfold EvalsTo at hp
  generalize hret : Prog.ret a = q at hp
  induction hp with
  | refl s q =>
      subst hret
      exact hf
  | step h _ ih => exact .step h (ih hf hret)

/-- Every effect any run can issue is `ok` where it is issued, and every run
ends with `Q`. -/
def Safe (env : Env R σ) (ok : σ → E → Prop) (Q : σ → α → Prop) : σ → Prog R α → Prop
  | s, .ret a => Q s a
  | s, .op e k => ok s e ∧ ∀ r s', env s e r s' → Safe env ok Q s' (k r)

/-- The rule for sequences: what the first part ensures is what the second
starts from. -/
theorem Safe.bind {Q : σ → α → Prop} {Q' : σ → β → Prop} {s : σ} {p : Prog R α}
    {f : α → Prog R β} (hp : Safe env ok Q s p) (hf : ∀ s a, Q s a → Safe env ok Q' s (f a)) :
    Safe env ok Q' s (p >>= f) := by
  induction p generalizing s with
  | ret a => exact hf s a hp
  | op e k ih => exact ⟨hp.1, fun r s' h => ih r (hp.2 r s' h)⟩

/-- Consequence: fewer effects may be asked for, and more may hold in the end.
-/
theorem Safe.mono {Q Q' : σ → α → Prop} {s : σ} {p : Prog R α} (hp : Safe env ok Q s p)
    (hok : ∀ s e, ok s e → ok' s e) (hQ : ∀ s a, Q s a → Q' s a) : Safe env ok' Q' s p := by
  induction p generalizing s with
  | ret a => exact hQ s a hp
  | op e k ih => exact ⟨hok s e hp.1, fun r s' h => ih r (hp.2 r s' h)⟩

/-- A run leaves a safe program. -/
theorem RunsIn.safe {Q : σ → α → Prop} {s s' : σ} {p p' : Prog R α} (h : RunsIn env s p s' p')
    (hp : Safe env ok Q s p) : Safe env ok Q s' p' := by
  induction h with
  | refl s p => exact hp
  | step h _ ih => exact ih (hp.2 _ _ h)

/-- The postcondition holds at the end of every finished run. -/
theorem EvalsTo.post {Q : σ → α → Prop} {s s' : σ} {p : Prog R α} {a : α}
    (h : EvalsTo env s p s' a) (hp : Safe env ok Q s p) : Q s' a :=
  RunsIn.safe h hp

/-- What every effect does to the state, of a program that issues no others,
holds between the ends of a run. -/
theorem RunsIn.rel {P : E → Prop} {Q : α → Prop} {T : σ → σ → Prop} (hrefl : ∀ s, T s s)
    (htrans : ∀ s s₁ s', T s s₁ → T s₁ s' → T s s')
    (hstep : ∀ s e r s', P e → env s e r s' → T s s') {s s' : σ} {p p' : Prog R α}
    (h : RunsIn env s p s' p') (hp : Always P Q p) : T s s' := by
  induction h with
  | refl s p => exact hrefl s
  | step h _ ih => exact htrans _ _ _ (hstep _ _ _ _ hp.1 h) (ih (hp.2 _))

/-! ## postconditions -/

/-- Every run ends with `Q`. -/
abbrev Ensures (env : Env R σ) (Q : σ → α → Prop) : σ → Prog R α → Prop :=
  Safe env (fun _ _ => True) Q

/-- The rule for an effect: all of its answers have to be coped with. -/
theorem ensures_op {Q : σ → α → Prop} {s : σ} {e : E} {k : R e → Prog R α}
    (h : ∀ r s', env s e r s' → Ensures env Q s' (k r)) : Ensures env Q s (.op e k) :=
  ⟨trivial, h⟩

/-- The rule for an effect whose answer is used. -/
theorem ensures_perform_bind {Q : σ → β → Prop} {s : σ} {e : E} {k : R e → Prog R β}
    (h : ∀ r s', env s e r s' → Ensures env Q s' (k r)) :
    Ensures env Q s (.perform e >>= k) :=
  ⟨trivial, h⟩

/-- Consequence. -/
theorem Ensures.mono {Q Q' : σ → α → Prop} {s : σ} {p : Prog R α} (hp : Ensures env Q s p)
    (hQ : ∀ s a, Q s a → Q' s a) : Ensures env Q' s p :=
  Safe.mono hp (fun _ _ h => h) hQ

/-- Where every effect of a kind has an answer, every program of such effects
finishes. -/
theorem exists_evalsTo_of_always {P : E → Prop} {Q : α → Prop} {I : σ → Prop}
    (total : ∀ s e, I s → P e → ∃ r s', env s e r s' ∧ I s') {s : σ} {p : Prog R α} (hs : I s)
    (hp : Always P Q p) : ∃ s' a, EvalsTo env s p s' a := by
  induction p generalizing s with
  | ret a => exact ⟨s, a, .refl s _⟩
  | op e k ih =>
      obtain ⟨r, s₁, h, hs₁⟩ := total s e hs hp.1
      obtain ⟨s', a, hr⟩ := ih r hs₁ (hp.2 r)
      exact ⟨s', a, .step h hr⟩

/-- Where every effect has an answer, every program finishes. -/
theorem exists_evalsTo (total : ∀ s e, ∃ r s', env s e r s') (s : σ) (p : Prog R α) :
    ∃ s' a, EvalsTo env s p s' a := by
  induction p generalizing s with
  | ret a => exact ⟨s, a, .refl s _⟩
  | op e k ih =>
      obtain ⟨r, s₁, h⟩ := total s e
      obtain ⟨s', a, hr⟩ := ih r s₁
      exact ⟨s', a, .step h hr⟩

/-- The program can finish, and does so with `Q` however it is answered. -/
def Yields (env : Env R σ) (Q : σ → α → Prop) (s : σ) (p : Prog R α) : Prop :=
  (∃ s' a, EvalsTo env s p s' a) ∧ ∀ s' a, EvalsTo env s p s' a → Q s' a

/-- What every run ensures is yielded, if there is a run. -/
theorem Ensures.yields {Q : σ → α → Prop} {s : σ} {p : Prog R α} (h : Ensures env Q s p)
    (hrun : ∃ s' a, EvalsTo env s p s' a) : Yields env Q s p :=
  ⟨hrun, fun _ _ hev => hev.post h⟩

/-- The environment has an answer. -/
def Answerable (env : Env R σ) (s : σ) (e : E) : Prop := ∃ r s', env s e r s'

/-- Total correctness: every effect a run can issue has an answer, and every
run ends with `Q`. -/
abbrev Meets (env : Env R σ) (Q : σ → α → Prop) : σ → Prog R α → Prop :=
  Safe env (Answerable env) Q

/-- The rule for an effect that has to be answerable. -/
theorem meets_perform_bind {Q : σ → β → Prop} {s : σ} {e : E} {k : R e → Prog R β}
    (hsome : Answerable env s e) (h : ∀ r s', env s e r s' → Meets env Q s' (k r)) :
    Meets env Q s (.perform e >>= k) :=
  ⟨hsome, h⟩

/-- Consequence. -/
theorem Meets.mono {Q Q' : σ → α → Prop} {s : σ} {p : Prog R α} (hp : Meets env Q s p)
    (hQ : ∀ s a, Q s a → Q' s a) : Meets env Q' s p :=
  Safe.mono hp (fun _ _ h => h) hQ

/-- A program that meets a condition has a run, and every run ends in it. -/
theorem Meets.yields {Q : σ → α → Prop} {s : σ} {p : Prog R α} (hp : Meets env Q s p) :
    Yields env Q s p := by
  refine ⟨?_, fun s' a hev => hev.post hp⟩
  induction p generalizing s with
  | ret a => exact ⟨s, a, .refl s _⟩
  | op e k ih =>
      obtain ⟨r, s₁, h⟩ := hp.1
      obtain ⟨s', a, hr⟩ := ih r (hp.2 r s₁ h)
      exact ⟨s', a, .step h hr⟩

/-! ## one environment behind another -/

section Behind

variable {E' : Type} {R' : E' → Type} {τ ρ : Type}

/-- Every effect is carried out by a program that has an environment of its
own, and what that program returns is conveyed as the answer. -/
def through (inner : Env R' σ) (handler : E → Prog R' ρ) (conveys : (e : E) → ρ → R e → Prop) :
    Env R σ :=
  fun s e r s' => ∃ b, EvalsTo inner s (handler e) s' b ∧ conveys e b r

/-- An effect is answerable when its handler runs and its reply can be brought
back. -/
theorem answerable_through {inner : Env R' σ} {handler : E → Prog R' ρ}
    {conveys : (e : E) → ρ → R e → Prop} {s : σ} {e : E}
    (hrun : ∃ s' b, EvalsTo inner s (handler e) s' b) (hsome : ∀ b, ∃ r, conveys e b r) :
    Answerable (through inner handler conveys) s e := by
  obtain ⟨s', b, hev⟩ := hrun
  obtain ⟨r, hr⟩ := hsome b
  exact ⟨r, s', b, hev, hr⟩

/-- Before every effect others act on the state. -/
def amid (others : σ → σ → Prop) (env : Env R σ) : Env R σ :=
  fun s e r s' => ∃ s₁, others s s₁ ∧ env s₁ e r s'

/-- One effect among others. -/
theorem meets_amid {others : σ → σ → Prop} {Q : σ → α → Prop} {s : σ} {e : E}
    {k : R e → Prog R α} (hself : others s s)
    (hsome : Answerable env s e)
    (h : ∀ s₁ r s', others s s₁ → env s₁ e r s' → Meets (amid others env) Q s' (k r)) :
    Meets (amid others env) Q s (.op e k) := by
  constructor
  · obtain ⟨r, s', hr⟩ := hsome
    exact ⟨r, s', s, hself, hr⟩
  · rintro r s' ⟨s₁, hothers, hr⟩
    exact h s₁ r s' hothers hr

/-- A program among others: a step of the larger environment is one of its own
on the state that it has a part in. -/
theorem Meets.lift {outer : Env R' τ} {i : E → E'} {down : (e : E) → R' (i e) → R e}
    {part : σ → τ → Prop}
    (hdown : ∀ s t e r t', part s t → outer t (i e) r t' →
      ∃ s', part s' t' ∧ env s e (down e r) s')
    (hsome : ∀ s t e, part s t → Answerable env s e → Answerable outer t (i e))
    {Q : σ → α → Prop} {s : σ} {t : τ} {p : Prog R α} (hst : part s t) (hp : Meets env Q s p) :
    Meets outer (fun t a => ∃ s', part s' t ∧ Q s' a) t (p.lift i down) := by
  induction p generalizing s t with
  | ret a => exact ⟨s, hst, hp⟩
  | op e k ih =>
      refine ⟨hsome s t e hst hp.1, fun r t' ht => ?_⟩
      obtain ⟨s', hst', hs'⟩ := hdown s t e r t' hst ht
      exact ih _ hst' (hp.2 _ s' hs')

end Behind

/-! ## programs that can fail -/

variable {ε ε' : Type}

/-- Every effect any run can issue is `ok` where it is issued, and every run
that does not fail ends with `Q`. -/
def Tries (env : Env R σ) (ok : σ → E → Prop) (Q : σ → α → Prop) (s : σ)
    (x : ExceptT ε (Prog R) α) : Prop :=
  Safe env ok (fun s' r => ∀ a, r = .ok a → Q s' a) s x.run

theorem tries_pure {Q : σ → α → Prop} {s : σ} {a : α} (h : Q s a) :
    Tries env ok Q s (pure a : ExceptT ε (Prog R) α) := by
  rintro _ ⟨⟩
  exact h

/-- A program that throws ensures everything. -/
theorem tries_throw {Q : σ → α → Prop} (s : σ) (e : ε) :
    Tries env ok Q s (throw e : ExceptT ε (Prog R) α) := by
  rintro _ ⟨⟩

/-- The rule for sequences of programs that can end in an error. -/
theorem Tries.bind {Q : σ → α → Prop} {Q' : σ → β → Prop} {s : σ} {x : ExceptT ε (Prog R) α}
    {f : α → ExceptT ε (Prog R) β} (hx : Tries env ok Q s x)
    (hf : ∀ s a, Q s a → Tries env ok Q' s (f a)) : Tries env ok Q' s (x >>= f) := by
  refine Safe.bind hx fun s' r hr => ?_
  cases r with
  | ok a => exact hf s' a (hr a rfl)
  | error e => exact tries_throw s' e

theorem Tries.mono {Q Q' : σ → α → Prop} {s : σ} {x : ExceptT ε (Prog R) α}
    (hx : Tries env ok Q s x) (hQ : ∀ s a, Q s a → Q' s a) : Tries env ok Q' s x :=
  Safe.mono hx (fun _ _ h => h) fun s' _ h a ha => hQ s' a (h a ha)

/-- The same program with its failures rewritten. -/
def mapErr (f : ε → ε') (x : ExceptT ε (Prog R) α) : ExceptT ε' (Prog R) α :=
  ExceptT.mk (x.run >>= fun r => .ret (r.mapError f))

/-- Errors that are wrapped are errors. -/
theorem Tries.mapErr {Q : σ → α → Prop} {s : σ} {x : ExceptT ε (Prog R) α}
    (hx : Tries env ok Q s x) (f : ε → ε') : Tries env ok Q s (mapErr f x) := by
  refine Safe.bind hx fun s' r hr => ?_
  cases r with
  | ok a =>
      rintro _ ⟨⟩
      exact hr a rfl
  | error e => rintro _ ⟨⟩

/-! ## an environment that answers by a function -/

/-- The run in which every effect is answered as `answer` says. -/
def runIn (answer : σ → (e : E) → R e × σ) : σ → Prog R α → σ × α
  | s, .ret a => (s, a)
  | s, .op e k => runIn answer (answer s e).2 (k (answer s e).1)

@[simp] theorem runIn_ret (answer : σ → (e : E) → R e × σ) (s : σ) (a : α) :
    runIn answer s (.ret a) = (s, a) :=
  rfl

/-- A run of a sequence is the one run behind the other. -/
theorem runIn_bind (answer : σ → (e : E) → R e × σ) (s : σ) (p : Prog R α) (f : α → Prog R β) :
    runIn answer s (p >>= f) = runIn answer (runIn answer s p).1 (f (runIn answer s p).2) := by
  induction p generalizing s with
  | ret a => rfl
  | op e k ih => exact ih _ _

theorem runIn_perform_bind (answer : σ → (e : E) → R e × σ) (s : σ) (e : E)
    (f : R e → Prog R β) :
    runIn answer s (.perform e >>= f) = runIn answer (answer s e).2 (f (answer s e).1) :=
  rfl

/-- The answers are the environment's where something holds that they keep. -/
theorem evalsTo_runIn_of_inv {answer : σ → (e : E) → R e × σ} {I : σ → Prop}
    (h : ∀ s e, I s → env s e (answer s e).1 (answer s e).2 ∧ I (answer s e).2) {s : σ}
    (hs : I s) (p : Prog R α) : EvalsTo env s p (runIn answer s p).1 (runIn answer s p).2 := by
  induction p generalizing s with
  | ret a => exact .refl s _
  | op e k ih => exact .step (h s e hs).1 (ih _ (h s e hs).2)

/-- Where the answers are the environment's, the run is one in it. -/
theorem evalsTo_runIn {answer : σ → (e : E) → R e × σ}
    (h : ∀ s e, env s e (answer s e).1 (answer s e).2) (s : σ) (p : Prog R α) :
    EvalsTo env s p (runIn answer s p).1 (runIn answer s p).2 :=
  evalsTo_runIn_of_inv (I := fun _ => True) (fun s e _ => ⟨h s e, trivial⟩) trivial p

end Prog

end OcuFilestore
