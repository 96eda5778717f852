import OcuFilestore.Go.Errors
import OcuFilestore.Go.Int64
import OcuFilestore.Go.Utf8
import OcuFilestore.Lib.JsonParse
import OcuFilestore.Lib.JsonSchema

/-!
# OcuFilestore.Mountcfg.Load

The loader of the guest mount config (`internal/mountcfg/mountcfg.go`): a
strict decode into the config record by the rules of Go's `encoding/json`,
then every structural rule, in the source's order, each with its own error.

The decoder's rules are modelled as they are: the first JSON value of the
file is decoded and what follows it is not looked at; a key that names no
field exactly is tried without regard to case; an unknown key is an error;
`null` leaves a field as it is, or empties it when it is a pointer or a slice;
a repeated key decodes into what the earlier one left behind.
-/

namespace OcuFilestore.Mountcfg

/-! ## the config -/

/-- One mount entry.  Optional fields tell absence from a zero value. -/
@[ext]
structure Mount where
  destination : Path
  authToken : List Char
  filesystemID : Option (List Char)
  memoryStoreID : Option (List Char)
  readonly : Option Bool
  vfsCacheMode : List Char
  cacheDurationS : Option Int
  vfsCacheMaxSize : List Char
  dirPerms : List Char
  filePerms : List Char
  vfsWriteBack : List Char
  deriving DecidableEq, Repr

def Mount.zero : Mount := ⟨[], [], none, none, none, [], none, [], [], [], []⟩

/-- A Go slice: its elements, and what its array holds behind them. -/
structure Slice (α : Type) where
  elems : List α
  stale : List α
  deriving DecidableEq, Repr

@[ext]
structure Config where
  schemaVersion : List Char
  serviceURL : List Char
  caCertPEM : List Char
  /-- `none` is the nil slice. -/
  mounts : Option (Slice Mount)
  backendCacheTTL : Option Int
  deriving DecidableEq, Repr

def Config.zero : Config := ⟨[], [], [], none, none⟩

/-! ## decoding -/

inductive JsonErr where
  | malformed
  | unknownField (key : List Char)
  /-- A value of the wrong kind, or a number the field cannot hold. -/
  | unmarshalType (value : List Char)
  deriving DecidableEq, Repr

/-- How an `UnmarshalTypeError` names a value. -/
def valueKind : Json → List Char
  | .null => "null".toList
  | .bool _ => "bool".toList
  | .num _ => "number".toList
  | .str _ => "string".toList
  | .arr _ => "array".toList
  | .obj _ => "object".toList

def decodeString (cur : List Char) : Json → Except JsonErr (List Char)
  | .str s => .ok s
  | .null => .ok cur
  | v => .error (.unmarshalType (valueKind v))

/-- `strconv.ParseInt` of a number literal. -/
def parseInt (n : Json.Number) : Option Int :=
  if n.frac.isSome || n.exp.isSome then none
  else
    let x : Int := if n.neg then -(Json.Number.digitsVal n.int) else Json.Number.digitsVal n.int
    if -maxInt64 - 1 ≤ x ∧ x ≤ maxInt64 then some x else none

/-- A pointer field: `null` empties it. -/
def decodePtr {α : Type} (dec : Json → Except JsonErr α) : Json → Except JsonErr (Option α)
  | .null => .ok none
  | v =>
      match dec v with
      | .ok x => .ok (some x)
      | .error e => .error e

def decodeBool : Json → Except JsonErr Bool
  | .bool b => .ok b
  | v => .error (.unmarshalType (valueKind v))

def decodeInt : Json → Except JsonErr Int
  | .num n =>
      match parseInt n with
      | some x => .ok x
      | none => .error (.unmarshalType ("number ".toList ++ n.text))
  | v => .error (.unmarshalType (valueKind v))

/-- A decoded integer fits in 64 bits. -/
theorem decodeInt_range {v : Json} {x : Int} (h : decodeInt v = .ok x) :
    -maxInt64 - 1 ≤ x ∧ x ≤ maxInt64 := by
  unfold decodeInt at h
  split at h
  · split at h
    · next n y hy =>
        cases h
        simp only [parseInt, Option.ite_none_left_eq_some, Option.ite_none_right_eq_some] at hy
        obtain ⟨-, hrange, hx⟩ := hy
        exact Option.some.inj hx ▸ hrange
    · cases h
  · cases h

/-- The case folding of the decoder: the smallest rune of the folding orbit.
Outside of ASCII only the Kelvin sign and the long s fold to a letter that a
field name can have. -/
def foldRune (c : Char) : Char :=
  if Json.inRange 'a' 'z' c then Char.ofNat (c.toNat - 32)
  else if c = Char.ofNat 0x212A then 'K'
  else if c = Char.ofNat 0x17F then 'S'
  else c

def foldName (key : List Char) : List Char := key.map foldRune

/-- The field a key names: exactly, else without regard to case. -/
def fieldOf {F : Type} (fields : List (List Char × F)) (key : List Char) : Option F :=
  match fields.find? fun f => f.1 = key with
  | some f => some f.2
  | none => (fields.find? fun f => foldName f.1 = foldName key).map Prod.snd

inductive MountField where
  | destination
  | authToken
  | filesystemID
  | memoryStoreID
  | readonly
  | vfsCacheMode
  | cacheDurationS
  | vfsCacheMaxSize
  | dirPerms
  | filePerms
  | vfsWriteBack
  deriving DecidableEq, Repr

/-- The fields of a mount under their JSON names. -/
def mountFields : List (List Char × MountField) :=
  [("destination".toList, .destination), ("auth_token".toList, .authToken),
    ("filesystem_id".toList, .filesystemID), ("memory_store_id".toList, .memoryStoreID),
    ("readonly".toList, .readonly), ("vfs_cache_mode".toList, .vfsCacheMode),
    ("cache_duration_s".toList, .cacheDurationS),
    ("vfs_cache_max_size".toList, .vfsCacheMaxSize), ("dir_perms".toList, .dirPerms),
    ("file_perms".toList, .filePerms), ("vfs_write_back".toList, .vfsWriteBack)]

def Mount.set (m : Mount) (v : Json) : MountField → Except JsonErr Mount
  | .destination => return { m with destination := ← decodeString m.destination v }
  | .authToken => return { m with authToken := ← decodeString m.authToken v }
  | .filesystemID => return { m with filesystemID := ← decodePtr (decodeString []) v }
  | .memoryStoreID => return { m with memoryStoreID := ← decodePtr (decodeString []) v }
  | .readonly => return { m with readonly := ← decodePtr decodeBool v }
  | .vfsCacheMode => return { m with vfsCacheMode := ← decodeString m.vfsCacheMode v }
  | .cacheDurationS => return { m with cacheDurationS := ← decodePtr decodeInt v }
  | .vfsCacheMaxSize => return { m with vfsCacheMaxSize := ← decodeString m.vfsCacheMaxSize v }
  | .dirPerms => return { m with dirPerms := ← decodeString m.dirPerms v }
  | .filePerms => return { m with filePerms := ← decodeString m.filePerms v }
  | .vfsWriteBack => return { m with vfsWriteBack := ← decodeString m.vfsWriteBack v }

/-- An object into a record: the members in order, an unknown key refused. -/
def decodeMembers {F σ : Type} (fields : List (List Char × F))
    (set : σ → Json → F → Except JsonErr σ) : σ → List (List Char × Json) → Except JsonErr σ
  | s, [] => .ok s
  | s, (key, v) :: ms =>
      match fieldOf fields key with
      | none => .error (.unknownField key)
      | some f =>
          match set s v f with
          | .error e => .error e
          | .ok s' => decodeMembers fields set s' ms

/-- A value into a record. -/
def decodeStruct {F σ : Type} (fields : List (List Char × F))
    (set : σ → Json → F → Except JsonErr σ) (s : σ) : Json → Except JsonErr σ
  | .null => .ok s
  | .obj ms => decodeMembers fields set s ms
  | v => .error (.unmarshalType (valueKind v))

/-- The elements of an array, each into the element that is there already. -/
def decodeElems : List Mount → List Json → Except JsonErr (List Mount)
  | _, [] => .ok []
  | existing, v :: vs => do
      let m ← decodeStruct mountFields Mount.set (existing.head?.getD .zero) v
      return m :: (← decodeElems existing.tail vs)

/-- What the array behind a slice holds. -/
def backing : Option (Slice Mount) → List Mount
  | none => []
  | some s => s.elems ++ s.stale

def decodeMounts (cur : Option (Slice Mount)) : Json → Except JsonErr (Option (Slice Mount))
  | .null => .ok none
  | .arr [] => .ok (some ⟨[], []⟩)
  | .arr (v :: vs) =>
      return some ⟨← decodeElems (backing cur) (v :: vs), (backing cur).drop (vs.length + 1)⟩
  | v => .error (.unmarshalType (valueKind v))

inductive ConfigField where
  | schemaVersion
  | serviceURL
  | caCertPEM
  | mounts
  | backendCacheTTL
  deriving DecidableEq, Repr

/-- The fields of the config under their JSON names. -/
def configFields : List (List Char × ConfigField) :=
  [("schema_version".toList, .schemaVersion), ("service_url".toList, .serviceURL),
    ("ca_cert_pem".toList, .caCertPEM), ("mounts".toList, .mounts),
    ("backend_cache_ttl".toList, .backendCacheTTL)]

def Config.set (cfg : Config) (v : Json) : ConfigField → Except JsonErr Config
  | .schemaVersion => return { cfg with schemaVersion := ← decodeString cfg.schemaVersion v }
  | .serviceURL => return { cfg with serviceURL := ← decodeString cfg.serviceURL v }
  | .caCertPEM => return { cfg with caCertPEM := ← decodeString cfg.caCertPEM v }
  | .mounts => return { cfg with mounts := ← decodeMounts cfg.mounts v }
  | .backendCacheTTL => return { cfg with backendCacheTTL := ← decodePtr decodeInt v }

/-- `dec.Decode(&cfg)`: the first value of the file. -/
def decode (raw : List UInt8) : Except JsonErr Config :=
  match Json.firstValue (text raw) with
  | none => .error .malformed
  | some (v, _) => decodeStruct configFields Config.set .zero v

/-! ## the rules -/

inductive LoadErr where
  | read (path : Path) (e : Err)
  | errDecode (e : JsonErr)
  | errSchemaVersion (value : List Char)
  | errServiceURL (value : List Char) (reason : String)
  | errMissingField (field : String)
  | errDestination (index : Nat) (value : Path)
  | errAuthToken (index : Nat)
  | errMountScope (index : Nat) (hasFilesystem hasMemory : Bool)
  | errScopeID (index : Nat) (field : String)
  | errReadonlyMissing (index : Nat)
  | errCacheDuration (index : Nat) (missing : Bool) (value : Int)
  | errPerms (index : Nat) (field : String) (value : List Char)
  | errByteSize (index : Nat) (value : List Char)
  | errCacheMode (index : Nat) (value : List Char)
  deriving DecidableEq, Repr

def digit : Regex Char := .cls (Json.inRange '0' '9')

/-- `^v[0-9]+(alpha|beta)?[0-9]*$` -/
def schemaVersionRe : Regex Char :=
  .seq (.lit ['v']) (.seq (.plus digit)
    (.seq (.opt (.alt (.lit "alpha".toList) (.lit "beta".toList))) (.star digit)))

/-- `^/.+`, where the dot is Go's: anything but a line feed. -/
def destinationRe : Regex Char :=
  .seq (.cls (· = '/')) (.startsWith (.plus (.cls (· ≠ '\n'))))

/-- `^0[0-7]{3}$` -/
def octalRe : Regex Char := .seq (.lit ['0']) (.times 3 (.cls (Json.inRange '0' '7')))

/-- `^[0-9]+(B|K|M|G|T)?$` -/
def byteSizeRe : Regex Char :=
  .seq (.plus digit) (.opt (.alt (.lit ['B']) (.alt (.lit ['K']) (.alt (.lit ['M'])
    (.alt (.lit ['G']) (.lit ['T']))))))

def cacheModes : List (List Char) :=
  ["off".toList, "minimal".toList, "writes".toList, "full".toList]

section Validate

-- whether `url.ParseRequestURI` accepts a string
variable (parseRequestURI : List Char → Bool)

def validateServiceURL (raw : List Char) : Except LoadErr Unit :=
  if ¬ "https://".toList <+: raw then .error (.errServiceURL raw "must begin https://")
  else if !parseRequestURI raw then .error (.errServiceURL raw "is not a parseable URI")
  else .ok ()

def validateMount (i : Nat) (m : Mount) : Except LoadErr Unit :=
  if !destinationRe.test m.destination then .error (.errDestination i m.destination)
  else if m.authToken = [] then .error (.errAuthToken i)
  else if m.filesystemID.isSome = m.memoryStoreID.isSome then
    .error (.errMountScope i m.filesystemID.isSome m.memoryStoreID.isSome)
  else if m.filesystemID = some [] then .error (.errScopeID i "filesystem_id")
  else if m.memoryStoreID = some [] then .error (.errScopeID i "memory_store_id")
  else if m.readonly = none then .error (.errReadonlyMissing i)
  else
    match m.cacheDurationS with
    | none => .error (.errCacheDuration i true 0)
    | some d =>
        if d < 0 then .error (.errCacheDuration i false d)
        else if !octalRe.test m.dirPerms then .error (.errPerms i "dir_perms" m.dirPerms)
        else if !octalRe.test m.filePerms then .error (.errPerms i "file_perms" m.filePerms)
        else if !byteSizeRe.test m.vfsCacheMaxSize then .error (.errByteSize i m.vfsCacheMaxSize)
        else if !cacheModes.contains m.vfsCacheMode then .error (.errCacheMode i m.vfsCacheMode)
        else .ok ()

def validateMounts : Nat → List Mount → Except LoadErr Unit
  | _, [] => .ok ()
  | i, m :: ms =>
      match validateMount i m with
      | .error e => .error e
      | .ok () => validateMounts (i + 1) ms

def validate (cfg : Config) : Except LoadErr Unit :=
  if !schemaVersionRe.test cfg.schemaVersion then .error (.errSchemaVersion cfg.schemaVersion)
  else
    match validateServiceURL parseRequestURI cfg.serviceURL with
    | .error e => .error e
    | .ok () =>
        if cfg.caCertPEM = [] then .error (.errMissingField "ca_cert_pem")
        else
          match cfg.mounts with
          | none => .error (.errMissingField "mounts")
          | some s => validateMounts 0 s.elems

/-- Decode and validate the bytes of a config file. -/
def loadBytes (raw : List UInt8) : Except LoadErr Config :=
  match decode raw with
  | .error e => .error (.errDecode e)
  | .ok cfg =>
      match validate parseRequestURI cfg with
      | .error e => .error e
      | .ok () => .ok cfg

def load (readFile : Path → Except Err (List UInt8)) (path : Path) : Except LoadErr Config :=
  match readFile path with
  | .error e => .error (.read path e)
  | .ok raw => loadBytes parseRequestURI raw

end Validate

end OcuFilestore.Mountcfg
