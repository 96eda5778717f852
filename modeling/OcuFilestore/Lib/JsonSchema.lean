import OcuFilestore.Lib.Json
import OcuFilestore.Lib.Regex

/-!
# OcuFilestore.Lib.JsonSchema

The part of JSON Schema that a closed record format uses.  Each keyword is an
assertion of its own, with the standard's rule that a keyword says nothing
about values of other types; a schema object is the conjunction of its
keywords (`all`).

The meaning of a `format` is a parameter.
-/

namespace OcuFilestore

namespace Json

/-! ## numbers as the schema reads them -/

namespace Number

def digitsVal (ds : List Char) : Nat := ds.foldl (fun n c => 10 * n + (c.toNat - '0'.toNat)) 0

/-- All digits of the literal, as one natural number. -/
def mantissa (n : Number) : Nat := digitsVal (n.int ++ n.frac.getD [])

/-- The power of ten the mantissa is multiplied with. -/
def scale (n : Number) : Int :=
  (match n.exp with
    | none => 0
    | some (_, sign, ds) => if sign = some '-' then -(digitsVal ds : Int) else digitsVal ds) -
    (n.frac.getD []).length

def powTen : Nat → Nat
  | 0 => 1
  | k + 1 => 10 * powTen k

/-- A value with a zero fractional part, however it is written. -/
def isInteger (n : Number) : Bool :=
  0 ≤ n.scale || n.mantissa % powTen (-n.scale).toNat == 0

def isNonneg (n : Number) : Bool := !n.neg || n.mantissa == 0

end Number

end Json

inductive JsonType where
  | string
  | integer
  | boolean
  | array
  | object
  deriving DecidableEq, Repr

/-- Assertions about a value. -/
inductive Schema where
  | type (t : JsonType)
  | pattern (r : Regex Char)
  | format (name : String)
  | minLength (n : Nat)
  | maxLength (n : Nat)
  /-- `minimum: 0`. -/
  | nonneg
  | enum (values : List (List Char))
  | required (names : List (List Char))
  /-- `properties` together with `additionalProperties: false`. -/
  | closed (properties : List (List Char × Schema))
  | items (s : Schema)
  | neg (s : Schema)
  | oneOf (ss : List Schema)
  | all (ss : List Schema)

namespace Schema

def hasType : JsonType → Json → Bool
  | .string, .str _ => true
  | .integer, .num n => n.isInteger
  | .boolean, .bool _ => true
  | .array, .arr _ => true
  | .object, .obj _ => true
  | _, _ => false

variable (format : String → List Char → Bool)

mutual

def validates : Schema → Json → Bool
  | .type t, v => hasType t v
  | .pattern r, .str s => r.test s
  | .format name, .str s => format name s
  | .minLength n, .str s => n ≤ s.length
  | .maxLength n, .str s => s.length ≤ n
  | .nonneg, .num n => n.isNonneg
  | .enum values, .str s => values.contains s
  | .enum _, _ => false
  | .required names, .obj ms => names.all fun n => (ms.map Prod.fst).contains n
  | .closed properties, .obj ms =>
      (ms.all fun m => (properties.map Prod.fst).contains m.1) && validatesMembers properties ms
  | .items s, .arr vs => vs.all (validates s)
  | .neg s, v => !validates s v
  | .oneOf ss, v => countValid ss v == 1
  | .all ss, v => validatesAll ss v
  | _, _ => true

def validatesAll : List Schema → Json → Bool
  | [], _ => true
  | s :: ss, v => validates s v && validatesAll ss v

/-- How many of the schemas hold. -/
def countValid : List Schema → Json → Nat
  | [], _ => 0
  | s :: ss, v => (if validates s v then 1 else 0) + countValid ss v

/-- Every member is valid for the property of its name. -/
def validatesMembers : List (List Char × Schema) → List (List Char × Json) → Bool
  | [], _ => true
  | p :: ps, ms =>
      (ms.all fun m => !(m.1 == p.1) || validates p.2 m.2) && validatesMembers ps ms

end

/-! ## the keywords as propositions -/

variable {format : String → List Char → Bool}

/-- A conjunction of schemas asks for each of them. -/
theorem validates_all_iff {ss : List Schema} {v : Json} :
    validates format (.all ss) v = true ↔ ∀ s ∈ ss, validates format s v = true := by
  rw [validates]
  induction ss with
  | nil => simp [validatesAll]
  | cons s ss ih => rw [validatesAll, Bool.and_eq_true, ih, List.forall_mem_cons]

/-- The keywords of a record. -/
theorem validates_record_iff {ss : List Schema} {ms : List (List Char × Json)} :
    validates format (.all (.type .object :: ss)) (.obj ms) = true ↔
      ∀ s ∈ ss, validates format s (.obj ms) = true := by
  have htype : validates format (.type .object) (.obj ms) = true := rfl
  rw [validates_all_iff, List.forall_mem_cons]
  simp [htype]

/-- Each member is asked to meet the schema of its name. -/
theorem validatesMembers_iff {ps : List (List Char × Schema)} {ms : List (List Char × Json)} :
    validatesMembers format ps ms = true ↔
      ∀ p ∈ ps, ∀ v, (p.1, v) ∈ ms → validates format p.2 v = true := by
  induction ps with
  | nil => simp [validatesMembers]
  | cons p ps ih =>
      have hhead : (ms.all fun m => !(m.1 == p.1) || validates format p.2 m.2) = true ↔
          ∀ v, (p.1, v) ∈ ms → validates format p.2 v = true := by
        rw [List.all_eq_true]
        constructor
        · intro h v hv
          simpa using h (p.1, v) hv
        · rintro h ⟨key, v⟩ hm
          by_cases hkey : key = p.1
          · subst hkey
            simp [h v hm]
          · simp [hkey]
      rw [validatesMembers, Bool.and_eq_true, hhead, ih, List.forall_mem_cons]

/-- A closed record: every key is a property, and every member is valid for
its property. -/
theorem validates_closed_iff {ps : List (List Char × Schema)} {ms : List (List Char × Json)} :
    validates format (.closed ps) (.obj ms) = true ↔
      (∀ key ∈ ms.map Prod.fst, key ∈ ps.map Prod.fst) ∧
        ∀ p ∈ ps, ∀ v, (p.1, v) ∈ ms → validates format p.2 v = true := by
  rw [validates, Bool.and_eq_true, validatesMembers_iff, List.all_eq_true]
  simp

/-- The required members have to be there. -/
theorem validates_required_iff {names : List (List Char)} {ms : List (List Char × Json)} :
    validates format (.required names) (.obj ms) = true ↔
      ∀ n ∈ names, n ∈ ms.map Prod.fst := by
  rw [validates, List.all_eq_true]
  simp

/-- The two conjunctions of a string property. -/
theorem validates_string_iff {ss : List Schema} {v : Json} :
    validates format (.all (.type .string :: ss)) v = true ↔
      ∃ s, v = .str s ∧ validatesAll format ss (.str s) = true := by
  rw [validates, validatesAll, Bool.and_eq_true, validates]
  cases v <;> simp [hasType]

end Schema

end OcuFilestore
