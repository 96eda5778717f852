import OcuFilestore.Go.Utf8
import OcuFilestore.Lib.JsonWrite

/-!
# OcuFilestore.Go.JsonMarshal

What Go's `encoding/json` writes: `json.Marshal`, `json.MarshalIndent` with two
blanks and `Encoder.Encode`, of a value whose members stand in the order of
the record's fields.

Strings are spelled as `appendString` spells them with `escapeHTML` set.
-/

namespace OcuFilestore

namespace Json

/-! ## strings -/

/-- A code below 256 as a four-digit escape. -/
def escapeByte (n : Nat) : List Char :=
  ['\\', 'u', '0', '0', Nat.digitChar (n / 16), Nat.digitChar (n % 16)]

/-- `appendString`, character by character. -/
def appendChar (c : Char) : List Char :=
  if c = '\\' ∨ c = '"' then ['\\', c]
  else if c = Char.ofNat 8 then ['\\', 'b']
  else if c = Char.ofNat 12 then ['\\', 'f']
  else if c = '\n' then ['\\', 'n']
  else if c = '\r' then ['\\', 'r']
  else if c = '\t' then ['\\', 't']
  else if c.toNat < 0x20 ∨ c = '<' ∨ c = '>' ∨ c = '&' then escapeByte c.toNat
  -- line separators that JSON allows and JavaScript does not
  else if c.toNat = 0x2028 ∨ c.toNat = 0x2029 then
    ['\\', 'u', '2', '0', '2', Nat.digitChar (c.toNat % 16)]
  else [c]

theorem hexVal_digitChar : ∀ n, n < 16 → hexVal (Nat.digitChar n) = some n := by decide

theorem spells_escapeByte {c : Char} (h : c.toNat < 256) : Spells (escapeByte c.toNat) c :=
  .unit (w := 0) (x := 0) rfl rfl (hexVal_digitChar _ (by omega)) (hexVal_digitChar _ (by omega))
    (by omega)

/-- What the encoder writes for a character is read back as that character. -/
theorem spells_appendChar (c : Char) : Spells (appendChar c) c := by
  unfold appendChar
  split
  · next h =>
      rcases h with rfl | rfl
      · exact .short (by decide)
      · exact .short (by decide)
  · next hquote =>
      rw [not_or] at hquote
      split
      · next h => exact h ▸ .short (by decide)
      split
      · next h => exact h ▸ .short (by decide)
      split
      · next h => exact h ▸ .short (by decide)
      split
      · next h => exact h ▸ .short (by decide)
      split
      · next h => exact h ▸ .short (by decide)
      split
      · next h =>
          refine spells_escapeByte ?_
          rcases h with h | rfl | rfl | rfl
          · omega
          all_goals decide
      · next hhtml =>
          rw [not_or] at hhtml
          split
          · exact .unit (w := 2) (x := 0) (y := 2) (by decide) (by decide) (by decide)
              (hexVal_digitChar _ (by omega)) (by omega)
          · exact .plain (by omega) hquote.2 hquote.1

def goSpeller : Speller := ⟨appendChar, spells_appendChar⟩

/-! ## values -/

def compact : Layout where
  line _ := []
  colon := []
  line_ws _ := ws_nil
  colon_ws := ws_nil

theorem ws_replicate (n : Nat) : Ws (List.replicate n ' ') := by
  intro c hc
  rw [List.eq_of_mem_replicate hc]
  decide

/-- The prefix is empty and the indent two blanks. -/
def indented : Layout where
  line depth := '\n' :: List.replicate (2 * depth) ' '
  colon := [' ']
  line_ws depth := by
    intro c hc
    rcases List.mem_cons.mp hc with rfl | hc
    · decide
    · exact ws_replicate _ c hc
  colon_ws := ws_replicate 1

/-- `json.Marshal` -/
def marshal (v : Json) : List UInt8 := utf8 (write compact goSpeller 0 v)

/-- `json.MarshalIndent` -/
def marshalIndent (v : Json) : List UInt8 := utf8 (write indented goSpeller 0 v)

/-- `Encoder.Encode`: a line of its own. -/
def encodeLine (v : Json) : List UInt8 := utf8 (write compact goSpeller 0 v ++ ['\n'])

def ofInt (x : Int) : Json := .num (.ofInt x)

/-- A member that is left out when its value is empty. -/
def omitEmpty (empty : Bool) (key : List Char) (v : Json) : List (List Char × Json) :=
  if empty then [] else [(key, v)]

/-! ## well-formed values -/

section WellFormed

@[simp] theorem wellFormed_null : WellFormed .null := .null

@[simp] theorem wellFormed_bool (b : Bool) : WellFormed (.bool b) := .bool b

@[simp] theorem wellFormed_str (s : List Char) : WellFormed (.str s) := .str s

@[simp] theorem wellFormed_ofInt' (x : Int) : WellFormed (ofInt x) := .num (wellFormed_ofInt x)

@[simp] theorem wellFormed_arr_iff {vs : List Json} :
    WellFormed (.arr vs) ↔ ∀ v ∈ vs, WellFormed v := by
  constructor
  · intro h
    cases h with
    | arr h => exact h
  · exact .arr

@[simp] theorem wellFormed_obj_iff {ms : List (List Char × Json)} :
    WellFormed (.obj ms) ↔ ∀ m ∈ ms, WellFormed m.2 := by
  constructor
  · intro h
    cases h with
    | obj h => exact h
  · exact .obj

theorem mem_omitEmpty {empty : Bool} {key : List Char} {v : Json} {m : List Char × Json} :
    m ∈ omitEmpty empty key v ↔ empty = false ∧ m = (key, v) := by
  cases empty <;> simp [omitEmpty]

end WellFormed

/-! ## reading back -/

/-- A marshalled value is read back. -/
theorem firstValue_marshal {v : Json} (h : v.WellFormed) :
    firstValue (text (marshal v)) = some (v, []) := by
  have hread := firstValue_write compact goSpeller h ws_nil
  rw [List.append_nil] at hread
  rw [marshal, text_utf8, hread]

/-- So is an indented one. -/
theorem firstValue_marshalIndent {v : Json} (h : v.WellFormed) :
    firstValue (text (marshalIndent v)) = some (v, []) := by
  have hread := firstValue_write indented goSpeller h ws_nil
  rw [List.append_nil] at hread
  rw [marshalIndent, text_utf8, hread]

/-- So is one that is written as a line. -/
theorem firstValue_encodeLine {v : Json} (h : v.WellFormed) :
    firstValue (text (encodeLine v)) = some (v, ['\n']) := by
  rw [encodeLine, text_utf8]
  exact firstValue_write compact goSpeller h (by decide)

theorem encodeLine_eq (v : Json) : encodeLine v = marshal v ++ utf8 ['\n'] := by
  rw [encodeLine, marshal, utf8, List.flatMap_append, ← utf8, ← utf8]

/-! ## lengths -/

/-- The characters of a member: its key, its value, a colon, and a comma or
the brace behind the last one. -/
def memberLength (depth : Nat) (m : List Char × Json) : Nat :=
  (goSpeller.quote m.1).length + (write compact goSpeller (depth + 1) m.2).length + 2

/-- The members, the commas between them, and no more. -/
theorem length_writeMembers (depth : Nat) {ms : List (List Char × Json)} (hne : ms ≠ []) :
    (writeMembers compact goSpeller depth ms).length + 1 = (ms.map (memberLength depth)).sum := by
  induction ms with
  | nil => exact absurd rfl hne
  | cons m ms ih =>
      obtain ⟨key, v⟩ := m
      cases ms with
      | nil =>
          simp [writeMembers, memberLength, Speller.quote, compact]
          omega
      | cons m' ms =>
          have hrest := ih (by simp)
          rw [writeMembers.eq_def, List.map_cons, List.sum_cons, ← hrest]
          simp [memberLength, Speller.quote, compact]
          omega

/-- An object is as long as its members. -/
theorem length_write_obj (depth : Nat) (ms : List (List Char × Json)) :
    (ms.map (memberLength depth)).sum ≤ (write compact goSpeller depth (.obj ms)).length ∧
      (write compact goSpeller depth (.obj ms)).length ≤ (ms.map (memberLength depth)).sum + 2 := by
  cases ms with
  | nil => simp [write]
  | cons m ms =>
      have hms := length_writeMembers depth (List.cons_ne_nil m ms)
      rw [write.eq_def]
      simp only [List.length_cons, List.length_append, List.length_nil]
      omega

/-- No character of a string member is lost, and none takes over six. -/
theorem memberLength_str (depth : Nat) (key s : List Char) :
    s.length ≤ memberLength depth (key, .str s) ∧
      memberLength depth (key, .str s) ≤ 6 * (key.length + s.length) + 6 := by
  have hkey := goSpeller.length_quote key
  have hs := goSpeller.length_quote s
  simp only [memberLength, write]
  omega

/-- Omitting a member makes nothing longer. -/
theorem sum_omitEmpty_le (depth : Nat) (empty : Bool) (key : List Char) (v : Json) :
    ((omitEmpty empty key v).map (memberLength depth)).sum ≤ memberLength depth (key, v) := by
  cases empty <;> simp [omitEmpty]

/-- A string that may be left out. -/
theorem sum_omitEmpty_str (depth : Nat) (empty : Bool) {key s : List Char} {k n : Nat}
    (hkey : key.length ≤ k) (hs : s.length ≤ n) :
    ((omitEmpty empty key (.str s)).map (memberLength depth)).sum ≤ 6 * (k + n) + 6 := by
  have hle := sum_omitEmpty_le depth empty key (.str s)
  have hmember := (memberLength_str depth key s).2
  omega

/-- A string that is a member of a record is no longer than the record. -/
theorem length_le_marshal {ms : List (List Char × Json)} {key s : List Char}
    (h : (key, .str s) ∈ ms) : s.length ≤ (marshal (.obj ms)).length := by
  have hsum : memberLength 0 (key, .str s) ≤ (ms.map (memberLength 0)).sum := by
    obtain ⟨before, after, rfl⟩ := List.append_of_mem h
    simp only [List.map_append, List.map_cons, List.sum_append, List.sum_cons]
    omega
  have hmember := (memberLength_str 0 key s).1
  have hwrite := (length_write_obj 0 ms).1
  have hbytes := (length_utf8 (write compact goSpeller 0 (.obj ms))).1
  rw [marshal]
  omega

/-! ## cut short -/

theorem firstValue_replacements (n : Nat) : firstValue (List.replicate n replacement) = none := by
  cases n with
  | zero => rfl
  | succ n =>
      rw [List.replicate_succ, firstValue, skipWs_cons (by decide)]
      rfl

/-- No value is read from the first bytes of a record that was marshalled. -/
theorem firstValue_take_marshal {ms : List (List Char × Json)} (h : (Json.obj ms).WellFormed)
    {n : Nat} (hn : n < (marshal (.obj ms)).length) :
    firstValue (text ((marshal (.obj ms)).take n)) = none := by
  obtain ⟨k, errs, htext, hk⟩ := text_take_utf8 (write compact goSpeller 0 (.obj ms)) n
  rw [marshal, htext]
  by_cases hnil : (write compact goSpeller 0 (.obj ms)).take k = []
  · rw [hnil]
    exact firstValue_replacements errs
  · refine firstValue_cut (value_write h 0) (List.take_prefix _ _) (fun heq => ?_) hnil ?_
    · have hlength := congrArg List.length heq
      rw [List.length_take] at hlength
      have := hk hn
      omega
    · intro hmem
      exact absurd (List.eq_of_mem_replicate hmem) (by decide)

/-- What is read of the first bytes of a line. -/
theorem firstValue_take_encodeLine {ms : List (List Char × Json)} (h : (Json.obj ms).WellFormed)
    (n : Nat) :
    (firstValue (text ((encodeLine (.obj ms)).take n))).map Prod.fst =
      if (marshal (.obj ms)).length ≤ n then some (.obj ms) else none := by
  split
  · next hle =>
      by_cases hn : n = (marshal (.obj ms)).length
      · rw [encodeLine_eq, hn, List.take_left' rfl, firstValue_marshal h]
        rfl
      · have hlen : (encodeLine (.obj ms)).length = (marshal (.obj ms)).length + 1 := by
          rw [encodeLine_eq, List.length_append]
          rfl
        rw [List.take_of_length_le (by omega), firstValue_encodeLine h]
        rfl
  · next hlt =>
      rw [encodeLine_eq, List.take_append_of_le_length (by omega),
        firstValue_take_marshal h (by omega)]
      rfl

end Json

end OcuFilestore
