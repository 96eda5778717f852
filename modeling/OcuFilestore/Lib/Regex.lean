/-!
# OcuFilestore.Lib.Regex

Regular expressions over an arbitrary alphabet, with character classes as
predicates: the language of an expression as a relation, and a matcher by
derivatives.  `test_iff` says that the matcher decides the language.
-/

namespace OcuFilestore

inductive Regex (α : Type) where
  | empty
  | eps
  | cls (p : α → Bool)
  | seq (r t : Regex α)
  | alt (r t : Regex α)
  | star (r : Regex α)

namespace Regex

variable {α : Type}

/-- The words of an expression. -/
inductive Matches : Regex α → List α → Prop
  | eps : Matches .eps []
  | cls {p : α → Bool} {c : α} (h : p c = true) : Matches (.cls p) [c]
  | seq {r t : Regex α} {s s' : List α} (h : Matches r s) (h' : Matches t s') :
      Matches (.seq r t) (s ++ s')
  | altLeft {r t : Regex α} {s : List α} (h : Matches r s) : Matches (.alt r t) s
  | altRight {r t : Regex α} {s : List α} (h : Matches t s) : Matches (.alt r t) s
  | starNil {r : Regex α} : Matches (.star r) []
  | starCons {r : Regex α} {s s' : List α} (h : Matches r s) (h' : Matches (.star r) s') :
      Matches (.star r) (s ++ s')

/-! ## derived forms -/

/-- Any one symbol. -/
def any : Regex α := .cls fun _ => true

def lit [DecidableEq α] : List α → Regex α
  | [] => .eps
  | c :: cs => .seq (.cls (· = c)) (lit cs)

def plus (r : Regex α) : Regex α := .seq r (.star r)

def opt (r : Regex α) : Regex α := .alt r .eps

/-- Exactly `n` times. -/
def times : Nat → Regex α → Regex α
  | 0, _ => .eps
  | n + 1, r => .seq r (times n r)

/-- An expression that is not anchored at the end. -/
def startsWith (r : Regex α) : Regex α := .seq r (.star any)

/-- An expression that is not anchored at all. -/
def occurs (r : Regex α) : Regex α := .seq (.star any) (startsWith r)

/-! ## the matcher -/

/-- The empty word is in the language. -/
def nullable : Regex α → Bool
  | .empty => false
  | .eps => true
  | .cls _ => false
  | .seq r t => nullable r && nullable t
  | .alt r t => nullable r || nullable t
  | .star _ => true

/-- What is left of the words that begin with `c`. -/
def deriv (c : α) : Regex α → Regex α
  | .empty => .empty
  | .eps => .empty
  | .cls p => if p c then .eps else .empty
  | .seq r t => if nullable r then .alt (.seq (deriv c r) t) (deriv c t) else .seq (deriv c r) t
  | .alt r t => .alt (deriv c r) (deriv c t)
  | .star r => .seq (deriv c r) (.star r)

def test (r : Regex α) : List α → Bool
  | [] => nullable r
  | c :: s => test (deriv c r) s

/-! ## the matcher decides the language -/

theorem not_matches_empty {s : List α} : ¬ Matches .empty s := nofun

theorem matches_eps {s : List α} : Matches .eps s ↔ s = [] :=
  ⟨fun h => by cases h; rfl, fun h => by subst h; exact .eps⟩

theorem matches_cls {p : α → Bool} {s : List α} :
    Matches (.cls p) s ↔ ∃ c, s = [c] ∧ p c = true := by
  constructor
  · intro h
    cases h with
    | cls h => exact ⟨_, rfl, h⟩
  · rintro ⟨c, rfl, h⟩
    exact .cls h

/-- A sequence matches what can be split in two. -/
theorem matches_seq {r t : Regex α} {s : List α} :
    Matches (.seq r t) s ↔ ∃ s₁ s₂, s = s₁ ++ s₂ ∧ Matches r s₁ ∧ Matches t s₂ := by
  constructor
  · intro h
    cases h with
    | seq h h' => exact ⟨_, _, rfl, h, h'⟩
  · rintro ⟨s₁, s₂, rfl, h, h'⟩
    exact .seq h h'

/-- An alternative matches what either side does. -/
theorem matches_alt {r t : Regex α} {s : List α} :
    Matches (.alt r t) s ↔ Matches r s ∨ Matches t s := by
  constructor
  · intro h
    cases h with
    | altLeft h => exact .inl h
    | altRight h => exact .inr h
  · rintro (h | h)
    · exact .altLeft h
    · exact .altRight h

/-- A non-empty word of a repetition begins with a non-empty word. -/
theorem matches_star_cons {r : Regex α} {c : α} {s : List α} :
    Matches (.star r) (c :: s) ↔
      ∃ s₁ s₂, s = s₁ ++ s₂ ∧ Matches r (c :: s₁) ∧ Matches (.star r) s₂ := by
  constructor
  · intro h
    -- the leading empty words of the repetition are skipped
    generalize hr : Regex.star r = r', hs : c :: s = s' at h
    induction h with
    | @starCons r₀ w w' hw hw' _ ih =>
        cases hr
        cases w with
        | nil => exact ih rfl hs
        | cons d w =>
            rw [List.cons_append, List.cons.injEq] at hs
            obtain ⟨rfl, rfl⟩ := hs
            exact ⟨w, w', rfl, hw, hw'⟩
    | starNil => cases hs
    | _ => cases hr
  · rintro ⟨s₁, s₂, rfl, h, h'⟩
    exact .starCons h h'

/-- A regular expression is nullable when it matches the empty word. -/
theorem nullable_iff {r : Regex α} : nullable r = true ↔ Matches r [] := by
  induction r with
  | empty => simp [nullable, not_matches_empty]
  | eps => simp [nullable, matches_eps]
  | cls p => simp [nullable, matches_cls]
  | seq r t ihr iht =>
      simp only [nullable, Bool.and_eq_true, ihr, iht, matches_seq]
      constructor
      · rintro ⟨h, h'⟩
        exact ⟨[], [], rfl, h, h'⟩
      · rintro ⟨s₁, s₂, hs, h, h'⟩
        obtain ⟨rfl, rfl⟩ := List.append_eq_nil_iff.mp hs.symm
        exact ⟨h, h'⟩
  | alt r t ihr iht => simp [nullable, ihr, iht, matches_alt]
  | star r => simp [nullable, Matches.starNil]

/-- The derivative matches what is left behind a character. -/
theorem matches_deriv {c : α} {r : Regex α} {s : List α} :
    Matches (deriv c r) s ↔ Matches r (c :: s) := by
  induction r generalizing s with
  | empty => simp [deriv, not_matches_empty]
  | eps => simp [deriv, not_matches_empty, matches_eps]
  | cls p =>
      have hone : Matches (.cls p) (c :: s) ↔ s = [] ∧ p c = true := by
        rw [matches_cls]
        constructor
        · rintro ⟨d, hd, hp⟩
          cases hd
          exact ⟨rfl, hp⟩
        · rintro ⟨rfl, hp⟩
          exact ⟨c, rfl, hp⟩
      rw [hone, deriv]
      split
      · next hp => simp [matches_eps, hp]
      · next hp => simp [not_matches_empty, hp]
  | alt r t ihr iht => simp [deriv, matches_alt, ihr, iht]
  | star r ih => simp [deriv, matches_seq, matches_star_cons, ih]
  | seq r t ihr iht =>
      have hsplit : Matches (.seq r t) (c :: s) ↔
          (∃ s₁ s₂, s = s₁ ++ s₂ ∧ Matches r (c :: s₁) ∧ Matches t s₂) ∨
            Matches r [] ∧ Matches t (c :: s) := by
        rw [matches_seq]
        constructor
        · rintro ⟨s₁, s₂, hs, h, h'⟩
          cases s₁ with
          | nil =>
              rw [List.nil_append] at hs
              subst hs
              exact .inr ⟨h, h'⟩
          | cons d s₁ =>
              rw [List.cons_append, List.cons.injEq] at hs
              obtain ⟨rfl, rfl⟩ := hs
              exact .inl ⟨s₁, s₂, rfl, h, h'⟩
        · rintro (⟨s₁, s₂, rfl, h, h'⟩ | ⟨h, h'⟩)
          · exact ⟨c :: s₁, s₂, rfl, h, h'⟩
          · exact ⟨[], c :: s, rfl, h, h'⟩
      rw [hsplit]
      simp only [deriv]
      split
      · next hn =>
          rw [nullable_iff] at hn
          simp [matches_alt, matches_seq, ihr, iht, hn]
      · next hn =>
          rw [nullable_iff] at hn
          simp [matches_seq, ihr, hn]

/-- **The matcher decides the language.** -/
theorem test_iff {r : Regex α} {s : List α} : test r s = true ↔ Matches r s := by
  induction s generalizing r with
  | nil => exact nullable_iff
  | cons c s ih => rw [test, ih, matches_deriv]

/-! ## the derived forms -/

/-- Everything is a repetition of any characters. -/
theorem matches_star_any (s : List α) : Matches (.star any) s := by
  induction s with
  | nil => exact .starNil
  | cons c s ih => exact .starCons (s := [c]) (.cls rfl) ih

/-- A class, and then anything that goes on. -/
theorem matches_seq_cls {p : α → Bool} {r : Regex α} {s : List α} :
    Matches (.seq (.cls p) r) s ↔ ∃ c s', s = c :: s' ∧ p c = true ∧ Matches r s' := by
  rw [matches_seq]
  constructor
  · rintro ⟨s₁, s₂, rfl, h, h'⟩
    obtain ⟨c, rfl, hc⟩ := matches_cls.mp h
    exact ⟨c, s₂, rfl, hc, h'⟩
  · rintro ⟨c, s', rfl, hc, h'⟩
    exact ⟨[c], s', rfl, .cls hc, h'⟩

/-- A repetition of a class is a word over it. -/
theorem matches_star_cls {p : α → Bool} {s : List α} :
    Matches (.star (.cls p)) s ↔ ∀ c ∈ s, p c = true := by
  induction s with
  | nil => simp [Matches.starNil]
  | cons c s ih =>
      rw [List.forall_mem_cons, ← ih]
      constructor
      · intro h
        obtain ⟨s₁, s₂, rfl, hc, hrest⟩ := matches_star_cons.mp h
        obtain ⟨d, heq, hd⟩ := matches_cls.mp hc
        obtain ⟨rfl, rfl⟩ := List.cons.inj heq
        exact ⟨hd, hrest⟩
      · rintro ⟨hc, h⟩
        exact .starCons (s := [c]) (.cls hc) h

/-- A class, once or more often. -/
theorem matches_plus_cls {p : α → Bool} {s : List α} :
    Matches (plus (.cls p)) s ↔ s ≠ [] ∧ ∀ c ∈ s, p c = true := by
  rw [plus, matches_seq_cls]
  constructor
  · rintro ⟨c, s', rfl, hc, h⟩
    exact ⟨List.cons_ne_nil _ _, List.forall_mem_cons.mpr ⟨hc, matches_star_cls.mp h⟩⟩
  · rintro ⟨hne, h⟩
    obtain ⟨c, s', rfl⟩ := List.exists_cons_of_ne_nil hne
    obtain ⟨hc, h⟩ := List.forall_mem_cons.mp h
    exact ⟨c, s', rfl, hc, matches_star_cls.mpr h⟩

/-- A repeated class that is not anchored at the end says something about the
first symbol only. -/
theorem matches_startsWith_plus {p : α → Bool} {s : List α} :
    Matches (startsWith (plus (.cls p))) s ↔ ∃ c s', s = c :: s' ∧ p c = true := by
  rw [startsWith, matches_seq]
  constructor
  · rintro ⟨s₁, s₂, rfl, h, -⟩
    obtain ⟨c, s', rfl, hc, -⟩ := matches_seq_cls.mp h
    exact ⟨c, s' ++ s₂, rfl, hc⟩
  · rintro ⟨c, s', rfl, hc⟩
    exact ⟨[c], s', rfl, matches_seq_cls.mpr ⟨c, [], rfl, hc, .starNil⟩, matches_star_any s'⟩

/-- A literal matches itself only. -/
theorem matches_lit [DecidableEq α] {w s : List α} : Matches (lit w) s ↔ s = w := by
  induction w generalizing s with
  | nil => exact matches_eps
  | cons c w ih =>
      rw [lit, matches_seq_cls]
      constructor
      · rintro ⟨d, s', rfl, hd, h⟩
        rw [ih.mp h, of_decide_eq_true hd]
      · rintro rfl
        exact ⟨c, w, rfl, decide_eq_true rfl, ih.mpr rfl⟩

/-- What starts with a literal has it as a prefix. -/
theorem matches_startsWith_lit [DecidableEq α] {w s : List α} :
    Matches (startsWith (lit w)) s ↔ w <+: s := by
  rw [startsWith, matches_seq]
  constructor
  · rintro ⟨s₁, s₂, rfl, h, -⟩
    rw [matches_lit.mp h]
    exact List.prefix_append w s₂
  · rintro ⟨t, rfl⟩
    exact ⟨w, t, rfl, matches_lit.mpr rfl, matches_star_any t⟩

/-- What occurs somewhere in a word is not longer than the word. -/
theorem ne_nil_of_occurs_lit [DecidableEq α] {w s : List α} (hw : w ≠ [])
    (h : Matches (occurs (lit w)) s) : s ≠ [] := by
  obtain ⟨s₁, s₂, rfl, -, h₂⟩ := matches_seq.mp h
  obtain ⟨t, rfl⟩ := matches_startsWith_lit.mp h₂
  simp [hw]

end Regex

end OcuFilestore
