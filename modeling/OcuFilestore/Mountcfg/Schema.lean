import OcuFilestore.Mountcfg.Load

/-!
# OcuFilestore.Mountcfg.Schema

The vendored contract of the mount config
(`internal/contract/testdata/mount-config.schema.json`), keyword by keyword.
Where the schema has the same pattern as the loader the same expression
stands for both; the patterns that the loader does not have, or reads by
another dialect, are here.

The mount entry is stated with a list of further properties, so that the
contract can also be given with the loader's own addition to it,
`vfs_write_back` (`loaderSchema`).
-/

namespace OcuFilestore.Mountcfg

/-- The line terminators that the dot of an ECMA-262 pattern leaves out. -/
def lineTerminators : List Char := ['\n', '\r', Char.ofNat 0x2028, Char.ofNat 0x2029]

/-- `^/.+`, where the dot is ECMA-262's. -/
def schemaDestinationRe : Regex Char :=
  .seq (.cls (· = '/')) (.startsWith (.plus (.cls fun c => !lineTerminators.contains c)))

/-- `-----BEGIN CERTIFICATE-----` -/
def beginCertificate : List Char := "-----BEGIN CERTIFICATE-----".toList

/-- `#/$defs/FilesystemId`, and the same rules for `memory_store_id`. -/
def scopeIDSchema : Schema := .all [.type .string, .minLength 1, .maxLength 256]

/-- `#/$defs/Octal` -/
def octalSchema : Schema := .all [.type .string, .pattern octalRe]

/-- `#/$defs/CacheDurationSeconds`, `#/$defs/BackendCacheTtlSeconds` -/
def secondsSchema : Schema := .all [.type .integer, .nonneg]

/-- `#/$defs/Mount/properties` -/
def mountProperties : List (List Char × Schema) :=
  [("destination".toList, .all [.type .string, .pattern schemaDestinationRe]),
    ("auth_token".toList, .all [.type .string, .minLength 1]),
    ("filesystem_id".toList, scopeIDSchema), ("memory_store_id".toList, scopeIDSchema),
    ("readonly".toList, .type .boolean),
    ("vfs_cache_mode".toList, .all [.type .string, .enum cacheModes]),
    ("cache_duration_s".toList, secondsSchema),
    ("vfs_cache_max_size".toList, .all [.type .string, .pattern byteSizeRe]),
    ("dir_perms".toList, octalSchema), ("file_perms".toList, octalSchema)]

def mountRequired : List (List Char) :=
  ["destination".toList, "auth_token".toList, "readonly".toList, "vfs_cache_mode".toList,
    "cache_duration_s".toList, "vfs_cache_max_size".toList, "dir_perms".toList,
    "file_perms".toList]

/-- One of the two arms of the scope: the first id and not the second. -/
def scopeArm (has hasNot : List Char) : Schema :=
  .all [.required [has], .neg (.required [hasNot])]

/-- `#/$defs/Mount`, with further properties. -/
def mountSchema (extra : List (List Char × Schema)) : Schema :=
  .all [.type .object, .required mountRequired,
    .oneOf [scopeArm "filesystem_id".toList "memory_store_id".toList,
      scopeArm "memory_store_id".toList "filesystem_id".toList],
    .closed (mountProperties ++ extra)]

/-- The root of the schema, with further properties of the mount entries. -/
def rootSchema (extra : List (List Char × Schema)) : Schema :=
  .all [.type .object,
    .required ["schema_version".toList, "service_url".toList, "ca_cert_pem".toList,
      "mounts".toList],
    .closed [("schema_version".toList, .all [.type .string, .pattern schemaVersionRe]),
      ("service_url".toList,
        .all [.type .string, .format "uri", .pattern (.startsWith (.lit "https://".toList))]),
      ("ca_cert_pem".toList, .all [.type .string, .pattern (.occurs (.lit beginCertificate))]),
      ("mounts".toList, .all [.type .array, .items (mountSchema extra)]),
      ("backend_cache_ttl".toList, secondsSchema)]]

/-- The schema as it is vendored. -/
def vendoredSchema : Schema := rootSchema []

/-- The loader's additive, optional field. -/
def writeBackProperty : List (List Char × Schema) :=
  [("vfs_write_back".toList, .all [.type .string])]

/-- The vendored schema with the loader's addition. -/
def loaderSchema : Schema := rootSchema writeBackProperty

/-- The document is one JSON value, in UTF-8, and validates.  `uri` is the
meaning of the format of that name. -/
def Conforms (uri : List Char → Bool) (schema : Schema) (raw : List UInt8) : Prop :=
  validUTF8 raw = true ∧ ∃ v, Json.Document (text raw) v ∧
    schema.validates (fun _ => uri) v = true

/-- `Conforms` by the parser. -/
def conformsTest (uri : List Char → Bool) (schema : Schema) (raw : List UInt8) : Bool :=
  validUTF8 raw &&
    match Json.firstValue (text raw) with
    | none => false
    | some (v, rest) => Json.Ws rest && schema.validates (fun _ => uri) v

/-- The computable test for conformance is right. -/
theorem conforms_iff {uri : List Char → Bool} {schema : Schema} {raw : List UInt8} :
    Conforms uri schema raw ↔ conformsTest uri schema raw = true := by
  rw [Conforms, conformsTest, Bool.and_eq_true]
  refine and_congr_right fun _ => ?_
  constructor
  · rintro ⟨v, hdoc, hvalid⟩
    obtain ⟨rest, hfirst, hrest⟩ := Json.firstValue_complete hdoc
    rw [hfirst]
    simp [hvalid, hrest]
  · intro h
    split at h
    · cases h
    · next v rest hfirst =>
        obtain ⟨w, t, htext, hw, hv⟩ := Json.firstValue_sound hfirst
        rw [Bool.and_eq_true, decide_eq_true_eq] at h
        exact ⟨v, ⟨w, t, rest, htext, hw, hv, h.1⟩, h.2⟩

instance {uri : List Char → Bool} {schema : Schema} {raw : List UInt8} :
    Decidable (Conforms uri schema raw) := decidable_of_iff' _ conforms_iff

end OcuFilestore.Mountcfg
