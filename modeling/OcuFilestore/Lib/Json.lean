/-!
# OcuFilestore.Lib.Json

JSON texts (RFC 8259): values, the grammar as a relation between texts and
values, and a parser for the value a text begins with.  That the two agree is
`OcuFilestore.Lib.JsonParse`.

Numbers keep their literal, and objects keep their members in order and with
repetitions, so a reader can apply its own rules to both.
-/

namespace OcuFilestore

namespace Json

/-- A number literal, part by part. -/
structure Number where
  neg : Bool
  int : List Char
  frac : Option (List Char)
  /-- The exponent's letter, sign and digits. -/
  exp : Option (Char × Option Char × List Char)
  deriving DecidableEq, Repr

end Json

inductive Json where
  | null
  | bool (b : Bool)
  | num (n : Json.Number)
  | str (s : List Char)
  | arr (vs : List Json)
  | obj (ms : List (List Char × Json))

namespace Json

/-! ## characters -/

def isWs (c : Char) : Bool := c = ' ' || c = '\t' || c = '\n' || c = '\r'

/-- The character is one of a range of the code. -/
def inRange (lo hi c : Char) : Bool := lo.toNat ≤ c.toNat && c.toNat ≤ hi.toNat

def isDigit : Char → Bool := inRange '0' '9'

def hexVal (c : Char) : Option Nat :=
  if inRange '0' '9' c then some (c.toNat - '0'.toNat)
  else if inRange 'a' 'f' c then some (c.toNat - 'a'.toNat + 10)
  else if inRange 'A' 'F' c then some (c.toNat - 'A'.toNat + 10)
  else none

/-- The character a one-letter escape stands for. -/
def escapeVal (c : Char) : Option Char :=
  if c = '"' then some '"'
  else if c = '\\' then some '\\'
  else if c = '/' then some '/'
  else if c = 'b' then some (Char.ofNat 8)
  else if c = 'f' then some (Char.ofNat 12)
  else if c = 'n' then some '\n'
  else if c = 'r' then some '\r'
  else if c = 't' then some '\t'
  else none

/-- What a string literal is made of: characters, and the UTF-16 code units
of its four-digit escapes. -/
inductive StrItem where
  | char (c : Char)
  | unit (n : Nat)
  deriving DecidableEq, Repr

/-- U+FFFD. -/
def replacement : Char := Char.ofNat 0xFFFD

def isHighSurrogate (n : Nat) : Bool := 0xD800 ≤ n && n < 0xDC00

def isLowSurrogate (n : Nat) : Bool := 0xDC00 ≤ n && n < 0xE000

/-- The characters of a string literal: a surrogate pair is one character, a
lone surrogate the replacement character. -/
def strVal : List StrItem → List Char
  | [] => []
  | .char c :: rest => c :: strVal rest
  | .unit n :: rest =>
      if isHighSurrogate n then
        match rest with
        | .unit m :: rest' =>
            if isLowSurrogate m then
              Char.ofNat (0x10000 + (n - 0xD800) * 0x400 + (m - 0xDC00)) :: strVal rest'
            else replacement :: strVal (.unit m :: rest')
        | rest => replacement :: strVal rest
      else if isLowSurrogate n then replacement :: strVal rest
      else Char.ofNat n :: strVal rest

/-! ## the grammar -/

/-- White space only. -/
def Ws (cs : List Char) : Prop := ∀ c ∈ cs, isWs c = true

instance (cs : List Char) : Decidable (Ws cs) := List.decidableBAll _ cs

namespace Number

def Digits (ds : List Char) : Prop := ds ≠ [] ∧ ∀ c ∈ ds, isDigit c = true

/-- The parts are those of a literal. -/
structure WellFormed (n : Number) : Prop where
  int : n.int = ['0'] ∨ Digits n.int ∧ n.int.head? ≠ some '0'
  frac : ∀ ds, n.frac = some ds → Digits ds
  exp : ∀ e sign ds, n.exp = some (e, sign, ds) →
    (e = 'e' ∨ e = 'E') ∧ (∀ c, sign = some c → c = '+' ∨ c = '-') ∧ Digits ds

def signText (neg : Bool) : List Char := if neg then ['-'] else []

def fracText : Option (List Char) → List Char
  | none => []
  | some ds => '.' :: ds

def expText : Option (Char × Option Char × List Char) → List Char
  | none => []
  | some (e, sign, ds) => e :: (sign.toList ++ ds)

/-- The literal. -/
def text (n : Number) : List Char :=
  signText n.neg ++ n.int ++ fracText n.frac ++ expText n.exp

end Number

/-- The inside of a string literal. -/
inductive StrText : List Char → List StrItem → Prop
  | nil : StrText [] []
  | char {c : Char} {cs : List Char} {items : List StrItem} (hc : 0x20 ≤ c.toNat) (hq : c ≠ '"')
      (hb : c ≠ '\\') (h : StrText cs items) : StrText (c :: cs) (.char c :: items)
  | escape {e c : Char} {cs : List Char} {items : List StrItem} (he : escapeVal e = some c)
      (h : StrText cs items) : StrText ('\\' :: e :: cs) (.char c :: items)
  | unit {a b c d : Char} {w x y z : Nat} {cs : List Char} {items : List StrItem}
      (ha : hexVal a = some w) (hb : hexVal b = some x) (hc : hexVal c = some y)
      (hd : hexVal d = some z) (h : StrText cs items) :
      StrText ('\\' :: 'u' :: a :: b :: c :: d :: cs)
        (.unit (((w * 16 + x) * 16 + y) * 16 + z) :: items)

mutual

/-- `Value cs v`: the text `cs`, with no white space around it, is a literal
of the value `v`. -/
inductive Value : List Char → Json → Prop
  | litNull : Value ['n', 'u', 'l', 'l'] .null
  | litTrue : Value ['t', 'r', 'u', 'e'] (.bool true)
  | litFalse : Value ['f', 'a', 'l', 's', 'e'] (.bool false)
  | num {n : Number} (h : n.WellFormed) : Value n.text (.num n)
  | str {cs : List Char} {items : List StrItem} (h : StrText cs items) :
      Value ('"' :: (cs ++ ['"'])) (.str (strVal items))
  | arrNil {w : List Char} (hw : Ws w) : Value ('[' :: (w ++ [']'])) (.arr [])
  | arr {cs : List Char} {vs : List Json} (h : Elems cs vs) :
      Value ('[' :: (cs ++ [']'])) (.arr vs)
  | objNil {w : List Char} (hw : Ws w) : Value ('{' :: (w ++ ['}'])) (.obj [])
  | obj {cs : List Char} {ms : List (List Char × Json)} (h : Members cs ms) :
      Value ('{' :: (cs ++ ['}'])) (.obj ms)

/-- The elements of a non-empty array. -/
inductive Elems : List Char → List Json → Prop
  | one {w cs w' : List Char} {v : Json} (hw : Ws w) (h : Value cs v) (hw' : Ws w') :
      Elems (w ++ (cs ++ w')) [v]
  | cons {w cs w' rest : List Char} {v : Json} {vs : List Json} (hw : Ws w) (h : Value cs v)
      (hw' : Ws w') (hs : Elems rest vs) : Elems (w ++ (cs ++ (w' ++ ',' :: rest))) (v :: vs)

/-- The members of a non-empty object. -/
inductive Members : List Char → List (List Char × Json) → Prop
  | one {w key w₁ w₂ cs w' : List Char} {items : List StrItem} {v : Json} (hw : Ws w)
      (hk : StrText key items) (hw₁ : Ws w₁) (hw₂ : Ws w₂) (h : Value cs v) (hw' : Ws w') :
      Members (w ++ ('"' :: (key ++ '"' :: (w₁ ++ ':' :: (w₂ ++ (cs ++ w'))))))
        [(strVal items, v)]
  | cons {w key w₁ w₂ cs w' rest : List Char} {items : List StrItem} {v : Json}
      {ms : List (List Char × Json)} (hw : Ws w) (hk : StrText key items) (hw₁ : Ws w₁)
      (hw₂ : Ws w₂) (h : Value cs v) (hw' : Ws w') (hs : Members rest ms) :
      Members (w ++ ('"' :: (key ++ '"' :: (w₁ ++ ':' :: (w₂ ++ (cs ++ (w' ++ ',' :: rest)))))))
        ((strVal items, v) :: ms)

end

/-- The text is one value, with white space around it. -/
def Document (cs : List Char) (v : Json) : Prop :=
  ∃ w t w', cs = w ++ (t ++ w') ∧ Ws w ∧ Value t v ∧ Ws w'

/-! ## the parser -/

def skipWs (cs : List Char) : List Char := cs.dropWhile isWs

/-- A fixed word. -/
def word (lit : List Char) (v : Json) (cs : List Char) : Option (Json × List Char) :=
  if lit <+: cs then some (v, cs.drop lit.length) else none

/-- The inside of a string literal, after the opening quote. -/
def string : List Char → Option (List StrItem × List Char)
  | [] => none
  | c :: cs =>
      if c = '"' then some ([], cs)
      else if c = '\\' then
        match cs with
        | [] => none
        | e :: cs =>
            if e = 'u' then
              match cs with
              | a :: b :: c :: d :: cs =>
                  match hexVal a, hexVal b, hexVal c, hexVal d with
                  | some w, some x, some y, some z =>
                      match string cs with
                      | some (items, rest) =>
                          some (.unit (((w * 16 + x) * 16 + y) * 16 + z) :: items, rest)
                      | none => none
                  | _, _, _, _ => none
              | _ => none
            else
              match escapeVal e, string cs with
              | some c, some (items, rest) => some (.char c :: items, rest)
              | _, _ => none
      else if c.toNat < 0x20 then none
      else
        match string cs with
        | some (items, rest) => some (.char c :: items, rest)
        | none => none

/-- A non-empty run of digits. -/
def digits (cs : List Char) : Option (List Char × List Char) :=
  let ds := cs.takeWhile isDigit
  if ds = [] then none else some (ds, cs.dropWhile isDigit)

def intPart : List Char → Option (List Char × List Char)
  | [] => none
  | c :: cs => if c = '0' then some (['0'], cs) else digits (c :: cs)

def fracPart : List Char → Option (Option (List Char) × List Char)
  | [] => some (none, [])
  | c :: cs =>
      if c = '.' then
        match digits cs with
        | some (ds, rest) => some (some ds, rest)
        | none => none
      else some (none, c :: cs)

def expSign : List Char → Option Char × List Char
  | [] => (none, [])
  | c :: cs => if c = '+' ∨ c = '-' then (some c, cs) else (none, c :: cs)

def expPart : List Char → Option (Option (Char × Option Char × List Char) × List Char)
  | [] => some (none, [])
  | c :: cs =>
      if c = 'e' ∨ c = 'E' then
        match digits (expSign cs).2 with
        | some (ds, rest) => some (some (c, (expSign cs).1, ds), rest)
        | none => none
      else some (none, c :: cs)

def sign : List Char → Bool × List Char
  | [] => (false, [])
  | c :: cs => if c = '-' then (true, cs) else (false, c :: cs)

def number (cs : List Char) : Option (Number × List Char) := do
  let (int, r) ← intPart (sign cs).2
  let (frac, r) ← fracPart r
  let (exp, r) ← expPart r
  return (⟨(sign cs).1, int, frac, exp⟩, r)

/-- An array or an object after its opening bracket, with a parser for what is
inside when it is not empty. -/
def bracketed {α : Type} (close : Char) (wrap : List α → Json)
    (inside : List Char → Option (List α × List Char)) (cs : List Char) :
    Option (Json × List Char) :=
  match skipWs cs with
  | [] => none
  | d :: rest =>
      if d = close then some (wrap [], rest)
      else
        match inside cs with
        | some (xs, rest) => some (wrap xs, rest)
        | none => none

mutual

/-- The value a text begins with, and the text behind it. -/
def value : Nat → List Char → Option (Json × List Char)
  | 0, _ => none
  | _ + 1, [] => none
  | fuel + 1, c :: cs =>
      if c = 'n' then word ['n', 'u', 'l', 'l'] .null (c :: cs)
      else if c = 't' then word ['t', 'r', 'u', 'e'] (.bool true) (c :: cs)
      else if c = 'f' then word ['f', 'a', 'l', 's', 'e'] (.bool false) (c :: cs)
      else if c = '"' then
        match string cs with
        | some (items, rest) => some (.str (strVal items), rest)
        | none => none
      else if c = '[' then bracketed ']' .arr (elems fuel) cs
      else if c = '{' then bracketed '}' .obj (members fuel) cs
      else
        match number (c :: cs) with
        | some (n, rest) => some (.num n, rest)
        | none => none

/-- The elements of an array, with the closing bracket. -/
def elems : Nat → List Char → Option (List Json × List Char)
  | 0, _ => none
  | fuel + 1, cs =>
      match value fuel (skipWs cs) with
      | none => none
      | some (v, rest) =>
          match skipWs rest with
          | [] => none
          | d :: rest =>
              if d = ']' then some ([v], rest)
              else if d = ',' then
                match elems fuel rest with
                | some (vs, rest) => some (v :: vs, rest)
                | none => none
              else none

/-- The members of an object, with the closing brace. -/
def members : Nat → List Char → Option (List (List Char × Json) × List Char)
  | 0, _ => none
  | fuel + 1, cs =>
      match skipWs cs with
      | [] => none
      | q :: cs =>
          if q = '"' then
            match string cs with
            | none => none
            | some (items, rest) =>
                match skipWs rest with
                | [] => none
                | k :: rest =>
                    if k = ':' then
                      match value fuel (skipWs rest) with
                      | none => none
                      | some (v, rest) =>
                          match skipWs rest with
                          | [] => none
                          | d :: rest =>
                              if d = '}' then some ([(strVal items, v)], rest)
                              else if d = ',' then
                                match members fuel rest with
                                | some (ms, rest) => some ((strVal items, v) :: ms, rest)
                                | none => none
                              else none
                    else none
          else none

end

/-- The first value of a text. -/
def firstValue (cs : List Char) : Option (Json × List Char) :=
  value (cs.length + 1) (skipWs cs)

end Json

end OcuFilestore
