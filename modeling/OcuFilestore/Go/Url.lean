import OcuFilestore.Go.Utf8
import OcuFilestore.Lib.Uri

/-!
# OcuFilestore.Go.Url

Go's `net/url` parser (Go 1.26), as far as a text is accepted by it and gives
a scheme and a host: `url.Parse`, which cuts off a fragment first, and
`url.ParseRequestURI`, which takes a `#` for a character like others.  The
address in an IP literal is read by `netip.ParseAddr`.

The parser cuts at `?` and at `/` on its own; `parse_https` says that for an
`https://` text the authority it looks at is the one of RFC 3986.
-/

namespace OcuFilestore

/-- The parts of a parsed URL that are looked at; the host is unescaped. -/
structure URL where
  scheme : List Char
  host : List UInt8
  deriving DecidableEq, Repr

/-- `strings.Cut` at a character. -/
def cut (c : Char) (s : List Char) : List Char × List Char :=
  (s.takeWhile (· ≠ c), (s.dropWhile (· ≠ c)).tail)

/-- The texts before and after the last `c`. -/
def cutLast (c : Char) (s : List Char) : Option (List Char × List Char) :=
  if c ∈ s then some ((cut c s.reverse).2.reverse, (cut c s.reverse).1.reverse) else none

/-! ## addresses -/

namespace Netip

inductive Addr where
  | v4
  | v6
  deriving DecidableEq, Repr

def byte (c : Char) : UInt8 := UInt8.ofNat c.toNat

def isDigit (b : UInt8) : Bool := byte '0' ≤ b && b ≤ byte '9'

def isHex (b : UInt8) : Bool :=
  isDigit b || (byte 'a' ≤ b && b ≤ byte 'f') || (byte 'A' ≤ b && b ≤ byte 'F')

/-- `parseIPv4Fields`, with the value and the number of digits of the current
field, the number of fields before it, and whether it has just begun. -/
def parseIPv4Fields (val digLen pos : Nat) (fresh : Bool) : List UInt8 → Bool
  | [] => 3 ≤ pos
  | b :: s =>
      if isDigit b then
        if digLen = 1 ∧ val = 0 then false
        else
          let val := val * 10 + (b.toNat - 48)
          if 255 < val then false else parseIPv4Fields val (digLen + 1) pos false s
      else if b = byte '.' then
        if fresh ∨ s = [] then false
        else if pos = 3 then false
        else parseIPv4Fields 0 0 (pos + 1) true s
      else false

/-- The loop of `parseIPv6`, with room for `room` more fields; `ellipsis` is
whether `::` was seen. -/
def parseFields : (room : Nat) → (ellipsis : Bool) → List UInt8 → Bool
  | 0, ellipsis, s => s.isEmpty && !ellipsis
  | room + 1, ellipsis, s =>
      let digits := s.takeWhile isHex
      if 4 < digits.length ∨ digits = [] then false
      else
        match s.dropWhile isHex with
        -- the end of the text: a `::` must stand for one field at least
        | [] => if room = 0 then !ellipsis else ellipsis
        | b :: rest =>
            if b = byte '.' then
              if ¬ ellipsis ∧ room ≠ 1 then false
              else if room = 0 then false
              else if !parseIPv4Fields 0 0 0 true s then false
              else if room = 1 then !ellipsis else ellipsis
            else if b ≠ byte ':' then false
            else
              match rest with
              | [] => false
              | c :: rest' =>
                  if c = byte ':' then
                    if ellipsis then false
                    else if rest' = [] then room ≠ 0
                    else parseFields room true rest'
                  else parseFields room ellipsis rest

def parseIPv6 (s : List UInt8) : Bool :=
  let addr := s.takeWhile (· ≠ byte '%')
  if s.dropWhile (· ≠ byte '%') = [byte '%'] then false
  else
    match addr with
    | b :: c :: rest =>
        if b = byte ':' ∧ c = byte ':' then rest = [] || parseFields 8 true rest
        else parseFields 8 false addr
    | _ => parseFields 8 false addr

/-- `netip.ParseAddr`: the first of `.`, `:` and `%` decides. -/
def parseAddr (s : List UInt8) : Option Addr :=
  match s.find? ([byte '.', byte ':', byte '%'].contains ·) with
  | none => none
  | some b =>
      if b = byte '.' then if parseIPv4Fields 0 0 0 true s then some .v4 else none
      else if b = byte ':' then if parseIPv6 s then some .v6 else none
      else none

end Netip

namespace URL

/-! ## escapes -/

inductive Encoding where
  | path
  | host
  | zone
  | userPassword
  | fragment
  deriving DecidableEq, Repr

/-- What `shouldEscape` leaves alone in a host. -/
def hostByte (c : Char) : Bool :=
  c.isAlphanum || "!$&'()*+,;=:[]<>\"".toList.contains c || "-_.~".toList.contains c

def unhex (c : Char) : Option Nat :=
  if '0' ≤ c ∧ c ≤ '9' then some (c.toNat - 48)
  else if 'a' ≤ c ∧ c ≤ 'f' then some (c.toNat - 87)
  else if 'A' ≤ c ∧ c ≤ 'F' then some (c.toNat - 55)
  else none

/-- Whether the byte `%xy` may be escaped: in a host only bytes outside of
ASCII, in a zone only what may stand there, and the percent sign in both. -/
def Encoding.mayEscape (x y : Nat) : Encoding → Bool
  | .host => 8 ≤ x || 16 * x + y = 0x25
  | .zone => 16 * x + y = 0x25 || 16 * x + y = 0x20 || hostByte (Char.ofNat (16 * x + y))
  | _ => true

/-- Whether a character may stand for itself. -/
def Encoding.mayStand (c : Char) : Encoding → Bool
  | .host | .zone => 0x80 ≤ c.toNat || hostByte c
  | _ => true

def unescape (mode : Encoding) : List Char → Option (List UInt8)
  | [] => some []
  | '%' :: x :: y :: s =>
      match unhex x, unhex y with
      | some x, some y =>
          if mode.mayEscape x y then (unescape mode s).map (UInt8.ofNat (16 * x + y) :: ·)
          else none
      | _, _ => none
  | '%' :: _ => none
  | c :: s =>
      if mode.mayStand c then (unescape mode s).map (String.utf8EncodeChar c ++ ·) else none

/-! ## the authority -/

def validOptionalPort : List Char → Bool
  | [] => true
  | c :: s => c = ':' && s.all Char.isDigit

def validUserinfo (s : List Char) : Bool :=
  s.all fun c => c.isAlphanum || "-._:~!$&'()*+,;=%@".toList.contains c

/-- The text before the first `%25`, and the text from there on. -/
def cutZone : List Char → List Char × List Char
  | [] => ([], [])
  | c :: s =>
      if "%25".toList <+: c :: s then ([], c :: s) else (c :: (cutZone s).1, (cutZone s).2)

/-- `parseHost` behind the opening bracket of an IP literal. -/
def parseIPLiteral (s : List Char) : Option (List UInt8) := do
  let (hostname, colonPort) ← cutLast ']' s
  guard (validOptionalPort colonPort)
  let port ← unescape .host colonPort
  let name ← unescape .host (cutZone hostname).1
  let zone ← unescape .zone (cutZone hostname).2
  guard (Netip.parseAddr (name ++ zone) = some .v6)
  return utf8 ['['] ++ name ++ zone ++ utf8 [']'] ++ port

def parseHost (host : List Char) : Option (List UInt8) :=
  match cutLast '[' host with
  | some ([], s) => parseIPLiteral s
  | some (_ :: _, _) => none
  | none =>
      if validOptionalPort (host.dropWhile (· ≠ ':')) then unescape .host host else none

def parseAuthority (authority : List Char) : Option (List UInt8) :=
  match cutLast '@' authority with
  | none => parseHost authority
  | some (userinfo, host) => do
      let host ← parseHost host
      guard (validUserinfo userinfo)
      let _ ← unescape .userPassword (cut ':' userinfo).1
      let _ ← unescape .userPassword (cut ':' userinfo).2
      return host

/-! ## the parser -/

def isCTL (c : Char) : Bool := c.toNat < 0x20 || c.toNat = 0x7F

/-- `getScheme` behind the characters `seen`; `none` where a colon stands at
the front. -/
def getScheme (rawURL seen : List Char) : List Char → Option (List Char × List Char)
  | [] => some ([], rawURL)
  | c :: s =>
      if c.isAlpha then getScheme rawURL (seen ++ [c]) s
      else if c.isDigit ∨ c = '+' ∨ c = '-' ∨ c = '.' then
        if seen = [] then some ([], rawURL) else getScheme rawURL (seen ++ [c]) s
      else if c = ':' then if seen = [] then none else some (seen, s)
      else some ([], rawURL)

/-- The end of the parser: the path only has to unescape. -/
def setPath (scheme : List Char) (host : List UInt8) (path : List Char) : Option URL :=
  (unescape .path path).map fun _ => ⟨scheme, host⟩

/-- The parser behind the scheme, with the query cut off. -/
def parseRest (viaRequest : Bool) (scheme rest : List Char) : Option URL :=
  if ¬ ['/'] <+: rest then
    if scheme ≠ [] then some ⟨scheme, []⟩
    else if viaRequest then none
    else if ':' ∈ (cut '/' rest).1 then none
    else setPath scheme [] rest
  else if (scheme ≠ [] ∨ (¬ viaRequest ∧ ¬ ['/', '/', '/'] <+: rest)) ∧ ['/', '/'] <+: rest then
    (parseAuthority ((rest.drop 2).takeWhile (· ≠ '/'))).bind fun host =>
      setPath scheme host ((rest.drop 2).dropWhile (· ≠ '/'))
  else setPath scheme [] rest

def parse (viaRequest : Bool) (rawURL : List Char) : Option URL :=
  if rawURL.any isCTL then none
  else if rawURL = [] ∧ viaRequest then none
  else if rawURL = ['*'] then some ⟨[], []⟩
  else
    match getScheme rawURL [] rawURL with
    | none => none
    | some (scheme, rest) => parseRest viaRequest (scheme.map Char.toLower) (cut '?' rest).1

/-- `url.ParseRequestURI`. -/
def parseRequestURI (rawURL : List Char) : Option URL := parse true rawURL

/-- `url.Parse`. -/
def parseReference (rawURL : List Char) : Option URL :=
  (parse false (cut '#' rawURL).1).bind fun u =>
    (unescape .fragment (cut '#' rawURL).2).map fun _ => u

/-! ## `https` texts -/

def https : List Char := "https".toList

/-- A cut passes over what has no mark in it. -/
theorem cut_fst_append {c : Char} {a : List Char} (ha : c ∉ a) (s : List Char) :
    (cut c (a ++ s)).1 = a ++ (cut c s).1 := by
  have hne : ∀ d ∈ a, decide (d ≠ c) = true := fun d hd => decide_eq_true fun h => ha (h ▸ hd)
  rw [cut, List.takeWhile_append_of_pos hne, cut]

theorem getScheme_https (rawURL rest : List Char) :
    getScheme rawURL [] (https ++ ':' :: rest) = some (https, rest) := rfl

/-- The parser takes the authority up to the first slash in front of the
query. -/
theorem parse_https {viaRequest : Bool} {rest : List Char} {u : URL}
    (h : parse viaRequest (https ++ ':' :: '/' :: '/' :: rest) = some u) :
    u.scheme = https ∧ parseAuthority ((cut '?' rest).1.takeWhile (· ≠ '/')) = some u.host := by
  have hcut : (cut '?' ('/' :: '/' :: rest)).1 = '/' :: '/' :: (cut '?' rest).1 :=
    cut_fst_append (a := ['/', '/']) (by decide) rest
  unfold parse at h
  split at h
  · cases h
  · rw [if_neg (by simp), if_neg (by simp [https]), getScheme_https] at h
    simp only [hcut] at h
    rw [parseRest, if_neg (by simp), if_pos ⟨Or.inl (by decide), by simp⟩] at h
    obtain ⟨host, hhost, hpath⟩ := Option.bind_eq_some_iff.mp h
    obtain ⟨-, -, rfl⟩ := Option.map_eq_some_iff.mp hpath
    exact ⟨rfl, hhost⟩

/-- **The authority of an `https` text**: `url.Parse` looks at the authority
that RFC 3986 splits off. -/
theorem parseReference_https {rest : List Char} {u : URL}
    (h : parseReference (https ++ ':' :: '/' :: '/' :: rest) = some u) :
    u.scheme = https ∧
      parseAuthority (rest.takeWhile (Uri.free Uri.authorityEnd)) = some u.host := by
  obtain ⟨u, hparse, hfrag⟩ := Option.bind_eq_some_iff.mp h
  obtain ⟨-, -, rfl⟩ := Option.map_eq_some_iff.mp hfrag
  have hcut : (cut '#' (https ++ ':' :: '/' :: '/' :: rest)).1 =
      https ++ ':' :: '/' :: '/' :: (cut '#' rest).1 := by
    simpa using cut_fst_append (c := '#') (a := https ++ [':', '/', '/']) (by decide) rest
  rw [hcut] at hparse
  obtain ⟨hscheme, hhost⟩ := parse_https hparse
  refine ⟨hscheme, ?_⟩
  -- cutting at `#`, `?` and `/` in turn is cutting at the first of them
  simp only [cut, List.takeWhile_takeWhile] at hhost
  rw [← hhost]
  congr 2
  funext c
  simp [Uri.free, Uri.authorityEnd]

theorem parseAuthority_nil : parseAuthority [] = some [] := rfl

/-- The two parsers differ on a fragment behind the host. -/
example : parseReference "https://[::1%25en0]:80#f".toList =
      some ⟨https, utf8 "[::1%en0]:80".toList⟩ ∧
    parseRequestURI "https://h#f".toList = none ∧
    (parseRequestURI "https://u:p@h/#f".toList).isSome := by
  decide +kernel

end URL

end OcuFilestore
