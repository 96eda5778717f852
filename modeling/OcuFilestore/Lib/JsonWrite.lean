import Mathlib.Data.List.Basic
import Mathlib.Data.Nat.Digits.Defs
import OcuFilestore.Lib.JsonParse
import OcuFilestore.Lib.JsonSchema

/-!
# OcuFilestore.Lib.JsonWrite

Writing JSON.  A writer is told how to spell the characters of a string
(`Speller`) and where to put white space (`Layout`); both carry the proof that
they stay inside the grammar, so whatever a writer is told, what it writes is
a text of its value (`value_write`) and the parser returns the value
(`firstValue_write`).

No value is read from a text that was cut short: `firstValue_cut`.
-/

namespace OcuFilestore.Json

/-! ## numbers -/

/-- The decimal literal of an integer. -/
def Number.ofInt (x : Int) : Number := ⟨x < 0, Nat.toDigits 10 x.natAbs, none, none⟩

/-- Decimal digits are digits. -/
theorem isDigit_of_mem_toDigits {n : Nat} {c : Char} (h : c ∈ Nat.toDigits 10 n) :
    isDigit c = true := by
  have hc := Nat.isDigit_of_mem_toDigits (by omega) (by omega) h
  simp only [Char.isDigit, Bool.and_eq_true, decide_eq_true_eq] at hc
  simp only [isDigit, inRange, Bool.and_eq_true, decide_eq_true_eq]
  exact hc

/-- A number has a digit. -/
theorem digits_toDigits (n : Nat) : Number.Digits (Nat.toDigits 10 n) :=
  ⟨Nat.toDigits_ne_nil, fun _ => isDigit_of_mem_toDigits⟩

/-- Only zero is written with a zero in front. -/
theorem head?_toDigits {n : Nat} (h : n ≠ 0) : (Nat.toDigits 10 n).head? ≠ some '0' := by
  induction n using Nat.strongRecOn with
  | _ n ih =>
      rw [Nat.toDigits_eq_if (by omega)]
      split
      · next hlt =>
          have hdigit : ∀ d, d < 10 → d ≠ 0 → d.digitChar ≠ '0' := by decide
          simpa using hdigit n hlt h
      · have hhead := ih (n / 10) (by omega) (by omega)
        cases hd : Nat.toDigits 10 (n / 10) with
        | nil => exact absurd hd Nat.toDigits_ne_nil
        | cons c cs => simpa [hd] using hhead

/-- An integer is written as a literal of the grammar. -/
theorem wellFormed_ofInt (x : Int) : (Number.ofInt x).WellFormed where
  int := by
    by_cases hx : x.natAbs = 0
    · exact .inl (by simp [Number.ofInt, hx])
    · exact .inr ⟨digits_toDigits _, head?_toDigits hx⟩
  frac := by simp [Number.ofInt]
  exp := by simp [Number.ofInt]

/-- The digits of a number are read as the number. -/
theorem digitsVal_toDigits (n : Nat) : Number.digitsVal (Nat.toDigits 10 n) = n :=
  Nat.ofDigitChars_toDigits (by omega) (by omega)

/-- A number below a power of ten has that many digits, and a sign. -/
theorem Number.length_text_ofInt {x : Int} {k : Nat} (hk : 0 < k) (hx : x.natAbs < 10 ^ k) :
    (Number.ofInt x).text.length ≤ k + 1 := by
  have hdigits := Nat.toDigits_length 10 x.natAbs k hk hx
  unfold Number.ofInt Number.text
  by_cases hneg : x < 0
  · simp [hneg, signText, fracText, expText]
    omega
  · simp [hneg, signText, fracText, expText]
    omega

/-! ## strings -/

/-- Inside a string literal the text stands for the character. -/
inductive Spells : List Char → Char → Prop
  | plain {c : Char} (hc : 0x20 ≤ c.toNat) (hq : c ≠ '"') (hb : c ≠ '\\') : Spells [c] c
  | short {e c : Char} (he : escapeVal e = some c) : Spells ['\\', e] c
  | unit {a b c d r : Char} {w x y z : Nat} (ha : hexVal a = some w) (hb : hexVal b = some x)
      (hc : hexVal c = some y) (hd : hexVal d = some z)
      (hr : ((w * 16 + x) * 16 + y) * 16 + z = r.toNat) :
      Spells ['\\', 'u', a, b, c, d] r

/-- How a writer spells characters. -/
structure Speller where
  spell : Char → List Char
  spells : ∀ c, Spells (spell c) c

/-- No character is a surrogate. -/
theorem strVal_unit_toNat (c : Char) (items : List StrItem) :
    strVal (.unit c.toNat :: items) = c :: strVal items := by
  have hvalid : c.toNat < 0xD800 ∨ 0xE000 ≤ c.toNat := by
    have hc := c.valid
    simp only [UInt32.isValidChar, Nat.isValidChar] at hc
    unfold Char.toNat
    omega
  have hhigh : isHighSurrogate c.toNat = false := by
    simp only [isHighSurrogate, Bool.and_eq_false_iff, decide_eq_false_iff_not]
    omega
  have hlow : isLowSurrogate c.toNat = false := by
    simp only [isLowSurrogate, Bool.and_eq_false_iff, decide_eq_false_iff_not]
    omega
  rw [strVal.eq_def]
  simp [hhigh, hlow, Char.ofNat_toNat]

/-- One more character of a string. -/
theorem Spells.cons {t cs : List Char} {c : Char} {items : List StrItem} (h : Spells t c)
    (hs : StrText cs items) :
    ∃ items', StrText (t ++ cs) items' ∧ strVal items' = c :: strVal items := by
  cases h with
  | plain hc hq hb => exact ⟨_, .char hc hq hb hs, by rw [strVal]⟩
  | short he => exact ⟨_, .escape he hs, by rw [strVal]⟩
  | unit ha hb hc hd hr =>
      refine ⟨_, .unit ha hb hc hd hs, ?_⟩
      rw [hr, strVal_unit_toNat]

/-- What is written for a string stands for it. -/
theorem Speller.strText (sp : Speller) (s : List Char) :
    ∃ items, StrText (s.flatMap sp.spell) items ∧ strVal items = s := by
  induction s with
  | nil => exact ⟨[], .nil, by rw [strVal]⟩
  | cons c s ih =>
      obtain ⟨items, hs, hval⟩ := ih
      obtain ⟨items', hs', hval'⟩ := (sp.spells c).cons hs
      exact ⟨items', hs', by rw [hval', hval]⟩

/-! ## values -/

/-- Where a writer puts white space: in front of what stands this many
brackets deep, and behind a colon. -/
structure Layout where
  line : Nat → List Char
  colon : List Char
  line_ws : ∀ depth, Ws (line depth)
  colon_ws : Ws colon

def Speller.quote (sp : Speller) (s : List Char) : List Char :=
  '"' :: (s.flatMap sp.spell ++ ['"'])

/-- A character is spelled with at most six. -/
theorem Spells.length_bounds {t : List Char} {c : Char} (h : Spells t c) :
    1 ≤ t.length ∧ t.length ≤ 6 := by
  cases h <;> simp

/-- A literal is longer than its string, but at most six times as long. -/
theorem Speller.length_quote (sp : Speller) (s : List Char) :
    s.length + 2 ≤ (sp.quote s).length ∧ (sp.quote s).length ≤ 6 * s.length + 2 := by
  have hspelled : s.length ≤ (s.flatMap sp.spell).length ∧
      (s.flatMap sp.spell).length ≤ 6 * s.length := by
    induction s with
    | nil => exact ⟨Nat.le_refl _, Nat.le_refl _⟩
    | cons c s ih =>
        have hc := (sp.spells c).length_bounds
        simp only [List.flatMap_cons, List.length_append, List.length_cons]
        omega
  simp only [Speller.quote, List.length_cons, List.length_append, List.length_nil]
  omega

section Write

variable (L : Layout) (sp : Speller)

mutual

def write : Nat → Json → List Char
  | _, .null => ['n', 'u', 'l', 'l']
  | _, .bool true => ['t', 'r', 'u', 'e']
  | _, .bool false => ['f', 'a', 'l', 's', 'e']
  | _, .num n => n.text
  | _, .str s => sp.quote s
  | _, .arr [] => ['[', ']']
  | depth, .arr vs => '[' :: (writeElems depth vs ++ [']'])
  | _, .obj [] => ['{', '}']
  | depth, .obj ms => '{' :: (writeMembers depth ms ++ ['}'])

/-- The inside of a non-empty array. -/
def writeElems : Nat → List Json → List Char
  | _, [] => []
  | depth, [v] => L.line (depth + 1) ++ (write (depth + 1) v ++ L.line depth)
  | depth, v :: vs =>
      L.line (depth + 1) ++ (write (depth + 1) v ++ ([] ++ ',' :: writeElems depth vs))

/-- The inside of a non-empty object. -/
def writeMembers : Nat → List (List Char × Json) → List Char
  | _, [] => []
  | depth, [(key, v)] =>
      L.line (depth + 1) ++ ('"' :: (key.flatMap sp.spell ++ '"' :: ([] ++ ':' :: (L.colon ++
        (write (depth + 1) v ++ L.line depth)))))
  | depth, (key, v) :: ms =>
      L.line (depth + 1) ++ ('"' :: (key.flatMap sp.spell ++ '"' :: ([] ++ ':' :: (L.colon ++
        (write (depth + 1) v ++ ([] ++ ',' :: writeMembers depth ms))))))

end

end Write

/-- Every number of the value is a literal. -/
inductive WellFormed : Json → Prop
  | null : WellFormed .null
  | bool (b : Bool) : WellFormed (.bool b)
  | num {n : Number} (h : n.WellFormed) : WellFormed (.num n)
  | str (s : List Char) : WellFormed (.str s)
  | arr {vs : List Json} (h : ∀ v ∈ vs, WellFormed v) : WellFormed (.arr vs)
  | obj {ms : List (List Char × Json)} (h : ∀ m ∈ ms, WellFormed m.2) : WellFormed (.obj ms)

section Sound

variable {L : Layout} {sp : Speller}

theorem ws_nil : Ws [] := by simp [Ws]

/-- The elements of an array are written as the grammar has them. -/
theorem elems_write {vs : List Json} (hne : vs ≠ [])
    (h : ∀ v ∈ vs, ∀ depth, Value (write L sp depth v) v) (depth : Nat) :
    Elems (writeElems L sp depth vs) vs := by
  induction vs with
  | nil => exact absurd rfl hne
  | cons v vs ih =>
      have hv := h v List.mem_cons_self (depth + 1)
      cases vs with
      | nil =>
          rw [writeElems]
          exact .one (L.line_ws _) hv (L.line_ws _)
      | cons v' vs =>
          rw [writeElems.eq_def]
          exact .cons (L.line_ws _) hv ws_nil
            (ih (by simp) fun u hu => h u (List.mem_cons_of_mem v hu))

/-- The members of an object are written as the grammar has them. -/
theorem members_write {ms : List (List Char × Json)} (hne : ms ≠ [])
    (h : ∀ m ∈ ms, ∀ depth, Value (write L sp depth m.2) m.2) (depth : Nat) :
    Members (writeMembers L sp depth ms) ms := by
  induction ms with
  | nil => exact absurd rfl hne
  | cons m ms ih =>
      obtain ⟨key, v⟩ := m
      have hv : Value (write L sp (depth + 1) v) v := h (key, v) List.mem_cons_self (depth + 1)
      obtain ⟨items, hkey, hval⟩ := sp.strText key
      cases ms with
      | nil =>
          have hone := Members.one (L.line_ws (depth + 1)) hkey ws_nil L.colon_ws hv
            (L.line_ws depth)
          rw [hval] at hone
          rw [writeMembers]
          exact hone
      | cons m' ms =>
          have hcons := Members.cons (L.line_ws (depth + 1)) hkey ws_nil L.colon_ws hv ws_nil
            (ih (by simp) fun u hu => h u (List.mem_cons_of_mem _ hu))
          rw [hval] at hcons
          rw [writeMembers.eq_def]
          exact hcons

/-- **What is written is a text of the value**, however strings are spelled
and wherever white space stands. -/
theorem value_write {v : Json} (h : v.WellFormed) (depth : Nat) :
    Value (write L sp depth v) v := by
  induction h generalizing depth with
  | null =>
      rw [write]
      exact .litNull
  | bool b =>
      cases b with
      | true =>
          rw [write]
          exact .litTrue
      | false =>
          rw [write]
          exact .litFalse
  | num h =>
      rw [write]
      exact .num h
  | str s =>
      obtain ⟨items, hs, hval⟩ := sp.strText s
      rw [write]
      have hstr := Value.str hs
      rwa [hval] at hstr
  | @arr vs h ih =>
      cases vs with
      | nil =>
          rw [write]
          exact .arrNil ws_nil
      | cons v vs =>
          rw [write.eq_def]
          exact .arr (elems_write (by simp) ih depth)
  | @obj ms h ih =>
      cases ms with
      | nil =>
          rw [write]
          exact .objNil ws_nil
      | cons m ms =>
          rw [write.eq_def]
          exact .obj (members_write (by simp) ih depth)

end Sound

/-! ## reading back -/

/-- A text of a value at the front of a text. -/
theorem firstValue_value {t rest : List Char} {v : Json} (h : Value t v) (hrest : Follow rest) :
    firstValue (t ++ rest) = some (v, rest) := by
  have hskip : skipWs ([] ++ (t ++ rest)) = t ++ rest := skipWs_value ws_nil h
  rw [List.nil_append] at hskip
  rw [firstValue, hskip]
  exact (parse_complete _).1 t v rest h (by rw [List.length_append]; omega) hrest

/-- White space can follow a value. -/
theorem follow_of_ws {w : List Char} (hw : Ws w) : Follow w := by
  intro c hc
  have hws := hw c (List.mem_of_mem_head? hc)
  simp only [isWs, Bool.or_eq_true, decide_eq_true_eq] at hws
  rcases hws with ((rfl | rfl) | rfl) | rfl <;> decide

/-- **Round trip**: the value that was written is read, and the white space
behind it is left. -/
theorem firstValue_write (L : Layout) (sp : Speller) {v : Json} (h : v.WellFormed) {w : List Char}
    (hw : Ws w) : firstValue (write L sp 0 v ++ w) = some (v, w) :=
  firstValue_value (value_write h 0) (follow_of_ws hw)

/-- A closing brace ends an object, whatever comes behind it. -/
theorem value_obj {fuel : Nat} {t rest : List Char} {ms : List (List Char × Json)}
    (h : Value t (.obj ms)) (hfuel : t.length ≤ fuel) :
    value (fuel + 1) (t ++ rest) = some (.obj ms, rest) := by
  cases h with
  | objNil hw => simp [value, bracketed_empty hw (by decide : isWs '}' = false)]
  | obj hs =>
      obtain ⟨cs, hskip⟩ := hs.head ('}' :: rest)
      have hms := (parse_complete fuel).2.2 _ _ rest hs (by simp at hfuel; omega)
      simp [value, bracketed_inside hms hskip (by decide : '"' ≠ '}')]

/-- A text that begins with a brace is an object's. -/
theorem exists_obj_of_brace {t : List Char} {v : Json} (h : Value t v)
    (hhead : t.head? = some '{') : ∃ ms, v = .obj ms := by
  cases h with
  | objNil hw => exact ⟨_, rfl⟩
  | obj hs => exact ⟨_, rfl⟩
  | num hn =>
      obtain ⟨c, cs, htext, hc⟩ := hn.text_cons
      rw [htext] at hhead
      exact absurd (Option.some.inj hhead) (hc.ne (by decide))
  | _ => simp at hhead

/-- An object begins with a brace. -/
theorem head?_of_obj {t : List Char} {ms : List (List Char × Json)} (h : Value t (.obj ms)) :
    t.head? = some '{' := by
  cases h <;> rfl

/-- An object ends with a brace. -/
theorem getLast?_of_obj {t : List Char} {ms : List (List Char × Json)} (h : Value t (.obj ms)) :
    t.getLast? = some '}' := by
  cases h <;> simp [List.getLast?_cons]

/-- **A cut text**: no value begins a text that stops inside of an object, nor
when something without a closing brace stands in for the rest. -/
theorem firstValue_cut {t cut junk : List Char} {ms : List (List Char × Json)}
    (h : Value t (.obj ms)) (hcut : cut <+: t) (hne : cut ≠ t) (hnil : cut ≠ [])
    (hjunk : '}' ∉ junk) : firstValue (cut ++ junk) = none := by
  cases hread : firstValue (cut ++ junk) with
  | none => rfl
  | some p =>
      exfalso
      obtain ⟨v, rest⟩ := p
      obtain ⟨w, t', hsplit, hw, hv⟩ := firstValue_sound hread
      have hbrace : (cut ++ junk).head? = some '{' := by
        obtain ⟨more, rfl⟩ := hcut
        have hhead := head?_of_obj h
        rw [List.head?_append_of_ne_nil _ hnil] at hhead
        rw [List.head?_append_of_ne_nil _ hnil, hhead]
      rw [hsplit] at hbrace
      -- no white space is in front of the brace, so the value that was read is an object
      have hw : w = [] := by
        cases w with
        | nil => rfl
        | cons c w =>
            obtain rfl : c = '{' := by simpa using hbrace
            exact absurd (hw '{' List.mem_cons_self) (by decide)
      rw [hw, List.nil_append] at hsplit hbrace
      obtain ⟨c, cs, ht', -, -⟩ := hv.head
      obtain ⟨ms', rfl⟩ := exists_obj_of_brace hv (by simpa [ht'] using hbrace)
      -- its closing brace is before the cut
      have hshort : t' <+: cut := by
        rcases List.append_eq_append_iff.mp hsplit with ⟨as, hcs, hjs⟩ | ⟨as, hcs, -⟩
        · by_cases has : as = []
          · exact ⟨[], by rw [hcs, has, List.append_nil, List.append_nil]⟩
          · have hlast := getLast?_of_obj hv
            rw [hcs, List.getLast?_append_of_ne_nil _ has] at hlast
            exact absurd (hjs ▸ List.mem_append_left _ (List.mem_of_getLast? hlast)) hjunk
        · exact ⟨as, hcs.symm⟩
      obtain ⟨more, hmore⟩ := hshort.trans hcut
      -- both texts are read from the uncut one
      have hfull : value (t.length + 1) (t ++ []) = _ := value_obj h (Nat.le_refl _)
      have hpart : value (t.length + 1) (t' ++ more) = _ := value_obj hv (by simp [← hmore])
      rw [List.append_nil] at hfull
      rw [hmore, hfull] at hpart
      have hend : more = [] := (Prod.ext_iff.mp (Option.some.inj hpart)).2.symm
      rw [hend, List.append_nil] at hmore
      rw [hmore] at hshort
      exact hne (hcut.eq_of_length_le hshort.length_le)

end OcuFilestore.Json
