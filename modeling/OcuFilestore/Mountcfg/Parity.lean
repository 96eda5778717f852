import OcuFilestore.Mountcfg.Decode
import OcuFilestore.Mountcfg.Schema

/-!
# OcuFilestore.Mountcfg.Parity

The loader against the schema.  For a plain document the two agree, once the
schema is given the loader's additive field (`load_accepts_iff`): the decoder's
table of fields and the rules of the validation are compared with the
properties of the schema one field at a time, for a mount entry
(`mount_parity`), for the config (`config_parity`) and for the document.

A plain document (`plainDocument`) is one that the decoder does not read in a
way of its own.  Left out are: bytes that are not UTF-8, data behind the first
value, repeated keys and keys that name a field only up to case, `null` for an
optional field, scope ids longer than the schema has them, integers in another
notation or beyond 64 bits, a negative lifetime, a bundle without a
certificate, and destinations on which the two dialects of `.` differ.
-/

namespace OcuFilestore.Mountcfg

/-! ## plain documents -/

/-- Keys that are exact and not repeated, and plain values. -/
def plainMembers {F : Type} (fields : List (List Char × F)) (plain : F → Json → Bool)
    (ms : List (List Char × Json)) : Bool :=
  (ms.map Prod.fst).Nodup && ExactKeys fields ms &&
    fields.all fun p => (ms.lookup p.1).all (plain p.2)

/-- The two dialects read the dot of the destination's pattern alike. -/
def plainDestination : Json → Bool
  | .str (_ :: c :: _) => c = '\n' || !lineTerminators.contains c
  | _ => true

def notNull : Json → Bool
  | .null => false
  | _ => true

/-- A scope id is not `null`, and not over-long. -/
def plainScopeID : Json → Bool
  | .null => false
  | .str s => s.length ≤ 256
  | _ => true

/-- An integer is written as one, and fits. -/
def plainInt : Json → Bool
  | .num n => !n.isInteger || (parseInt n).isSome
  | _ => true

def plainMountValue : MountField → Json → Bool
  | .destination => plainDestination
  | .filesystemID => plainScopeID
  | .memoryStoreID => plainScopeID
  | .cacheDurationS => plainInt
  | .vfsWriteBack => notNull
  | _ => fun _ => true

def plainMount : Json → Bool
  | .obj ms => plainMembers mountFields plainMountValue ms
  | _ => true

/-- A certificate bundle that is there has a certificate. -/
def plainCert : Json → Bool
  | .str s => s.isEmpty || (Regex.occurs (.lit beginCertificate)).test s
  | _ => true

/-- A lifetime is not `null`, and not negative. -/
def plainTTL : Json → Bool
  | .null => false
  | .num n => plainInt (.num n) && (!n.isInteger || n.isNonneg)
  | _ => true

def plainMounts : Json → Bool
  | .arr vs => vs.all plainMount
  | _ => true

def plainConfigValue : ConfigField → Json → Bool
  | .caCertPEM => plainCert
  | .mounts => plainMounts
  | .backendCacheTTL => plainTTL
  | _ => fun _ => true

def plainConfig : Json → Bool
  | .obj ms => plainMembers configFields plainConfigValue ms
  | _ => true

/-- The documents that the loader reads by the letter of the schema: UTF-8,
nothing behind the first value, and plain members. -/
def plainDocument (raw : List UInt8) : Bool :=
  validUTF8 raw &&
    match Json.firstValue (text raw) with
    | none => true
    | some (v, rest) => Json.Ws rest && plainConfig v

/-- The computable check for plain members is right. -/
theorem plainMembers_iff {F : Type} {fields : List (List Char × F)} {plain : F → Json → Bool}
    {ms : List (List Char × Json)} :
    plainMembers fields plain ms = true ↔
      (ms.map Prod.fst).Nodup ∧ ExactKeys fields ms ∧
        ∀ p ∈ fields, ∀ v, ms.lookup p.1 = some v → plain p.2 v = true := by
  simp only [plainMembers, Bool.and_eq_true, decide_eq_true_eq, List.all_eq_true,
    Option.all_eq_true, and_assoc]

/-! ## field by field -/

section Field

variable (format : String → List Char → Bool) (x : Option Json)

/-- A required string with rules that the empty string does not meet. -/
theorem text_field (P : List Char → Prop) (rules : List Schema) (hnil : ¬ P [])
    (hrules : ∀ s, x = some (.str s) → (P s ↔ Schema.validatesAll format rules (.str s) = true)) :
    ((∀ v, x = some v → TakesString v) ∧ P (readText x)) ↔
      (x ≠ none ∧ ∀ v, x = some v →
        (Schema.all (.type .string :: rules)).validates format v = true) := by
  simp only [Schema.validates_string_iff]
  cases x with
  | none => simp [readText, hnil]
  | some v =>
      cases v with
      | str s => simp [readText, TakesString, textOr, hrules s rfl]
      | _ => simp [readText, TakesString, textOr, hnil]

/-- A required string with a pattern that the empty string does not match. -/
theorem pattern_field (r : Regex Char) (hnil : r.test [] = false) :
    ((∀ v, x = some v → TakesString v) ∧ r.test (readText x) = true) ↔
      (x ≠ none ∧ ∀ v, x = some v →
        (Schema.all [.type .string, .pattern r]).validates format v = true) :=
  text_field format x (fun s => r.test s = true) [.pattern r] (by simp [hnil])
    (by simp [Schema.validatesAll, Schema.validates])

/-- An optional scope id. -/
theorem scopeID_field (hplain : ∀ v, x = some v → plainScopeID v = true) :
    ((∀ v, x = some v → TakesString v) ∧ x.elim none stringPtr ≠ some []) ↔
      ∀ v, x = some v → scopeIDSchema.validates format v = true := by
  cases x with
  | none => simp
  | some v =>
      cases v with
      | null => exact absurd (hplain _ rfl) (by decide)
      | str s =>
          have hlen : s.length ≤ 256 := of_decide_eq_true (hplain _ rfl)
          have hpos : 1 ≤ s.length ↔ s ≠ [] := by
            cases s <;> simp
          simp [TakesString, stringPtr, scopeIDSchema, Schema.validates, Schema.validatesAll,
            Schema.hasType, hlen, hpos]
      | _ => simp [TakesString, stringPtr, scopeIDSchema, Schema.validates_string_iff]

/-- A required flag. -/
theorem bool_field :
    ((∀ v, x = some v → TakesBool v) ∧ x.elim none boolPtr ≠ none) ↔
      (x ≠ none ∧ ∀ v, x = some v → (Schema.type .boolean).validates format v = true) := by
  cases x with
  | none => simp
  | some v =>
      cases v <;> simp [TakesBool, boolPtr, Schema.validates, Schema.hasType]

/-- What reads as an integer is one, with its sign. -/
theorem parseInt_spec {n : Json.Number} {x : Int} (h : parseInt n = some x) :
    n.isInteger = true ∧ (0 ≤ x ↔ n.isNonneg = true) := by
  unfold parseInt at h
  split at h
  · cases h
  · next hplain =>
      rw [Bool.or_eq_true, not_or, Bool.not_eq_true, Bool.not_eq_true, Option.isSome_eq_false_iff,
        Option.isSome_eq_false_iff, Option.isNone_iff_eq_none, Option.isNone_iff_eq_none] at hplain
      have hscale : n.scale = 0 := by simp [Json.Number.scale, hplain.1, hplain.2]
      have hmantissa : n.mantissa = Json.Number.digitsVal n.int := by
        simp [Json.Number.mantissa, hplain.1]
      refine ⟨by simp [Json.Number.isInteger, hscale], ?_⟩
      simp only [Option.ite_none_right_eq_some, Option.some.injEq] at h
      obtain ⟨-, rfl⟩ := h
      rw [Json.Number.isNonneg, hmantissa]
      cases n.neg <;> simp

/-- A required number of seconds. -/
theorem seconds_field (hplain : ∀ v, x = some v → plainInt v = true) :
    ((∀ v, x = some v → TakesInt v) ∧ ∃ d, x.elim none intPtr = some d ∧ 0 ≤ d) ↔
      (x ≠ none ∧ ∀ v, x = some v → secondsSchema.validates format v = true) := by
  cases x with
  | none => simp
  | some v =>
      cases v with
      | num n =>
          have hn := hplain _ rfl
          cases hp : parseInt n with
          | none =>
              have hint : n.isInteger = false := by
                simpa [plainInt, hp] using hn
              simp [TakesInt, intPtr, hp, secondsSchema, Schema.validates, Schema.validatesAll,
                Schema.hasType, hint]
          | some d =>
              obtain ⟨hint, hd⟩ := parseInt_spec hp
              simp [TakesInt, intPtr, hp, secondsSchema, Schema.validates, Schema.validatesAll,
                Schema.hasType, hint, hd]
      | _ =>
          simp [TakesInt, intPtr, secondsSchema, Schema.validates, Schema.validatesAll,
            Schema.hasType]

/-- An optional string without a rule. -/
theorem writeBack_field (hplain : ∀ v, x = some v → notNull v = true) :
    (∀ v, x = some v → TakesString v) ↔
      ∀ v, x = some v → (Schema.all [.type .string]).validates format v = true := by
  cases x with
  | none => simp
  | some v =>
      cases v with
      | null => exact absurd (hplain _ rfl) (by decide)
      | _ => simp [TakesString, Schema.validates, Schema.validatesAll, Schema.hasType]

/-- A field that takes its member, which is not `null`, holds it. -/
theorem stringPtr_isSome (hplain : ∀ v, x = some v → plainScopeID v = true)
    (h : ∀ v, x = some v → TakesString v) :
    (x.elim none stringPtr).isSome ↔ x ≠ none := by
  cases x with
  | none => simp
  | some v =>
      rcases h v rfl with rfl | ⟨s, rfl⟩
      · exact absurd (hplain _ rfl) (by decide)
      · simp [stringPtr]

end Field

/-! ## a mount entry -/

/-- The two spellings of the destination pattern agree on plain text. -/
theorem destination_dialects {s : List Char} (hplain : plainDestination (.str s) = true) :
    destinationRe.test s = true ↔ schemaDestinationRe.test s = true := by
  rw [destinationRe, schemaDestinationRe, Regex.test_iff, Regex.test_iff, Regex.matches_seq_cls,
    Regex.matches_seq_cls]
  refine exists_congr fun c => exists_congr fun s' => and_congr_right fun hs =>
    and_congr_right fun hc => ?_
  rw [Regex.matches_startsWith_plus, Regex.matches_startsWith_plus]
  refine exists_congr fun d => exists_congr fun s'' => and_congr_right fun hs' => ?_
  subst hs hs'
  simp only [plainDestination, Bool.or_eq_true, decide_eq_true_eq] at hplain
  constructor
  · intro hnl
    exact hplain.resolve_left (by simpa using hnl)
  · intro hterm
    simp only [decide_eq_true_eq]
    rintro rfl
    exact absurd hterm (by decide)

/-- The scope arms: exactly one of the two ids is there. -/
theorem scope_arms {format : String → List Char → Bool} {ms : List (List Char × Json)}
    {a b : List Char} :
    (Schema.oneOf [scopeArm a b, scopeArm b a]).validates format (.obj ms) = true ↔
      (a ∈ ms.map Prod.fst ↔ b ∉ ms.map Prod.fst) := by
  have harm : ∀ a b, (scopeArm a b).validates format (.obj ms) = true ↔
      a ∈ ms.map Prod.fst ∧ b ∉ ms.map Prod.fst := by
    intro a b
    simp only [scopeArm, Schema.validates, Schema.validatesAll]
    simp
  have hab := harm a b
  have hba := harm b a
  simp only [Schema.validates, Schema.countValid, beq_iff_eq]
  by_cases ha : a ∈ ms.map Prod.fst <;> by_cases hb : b ∈ ms.map Prod.fst <;>
    simp only [ha, hb, not_true_eq_false, not_false_eq_true, and_true, and_false, iff_false,
      iff_true] at hab hba <;> simp [hab, hba, ha, hb]

section MountParity

variable {format : String → List Char → Bool} {ms : List (List Char × Json)}

/-- The schema's verdict on a mount entry, field by field. -/
theorem schema_mount_iff (hnd : (ms.map Prod.fst).Nodup) {extra : List (List Char × Schema)} :
    (mountSchema extra).validates format (.obj ms) = true ↔
      (∀ n ∈ mountRequired, ms.lookup n ≠ none) ∧
      (ms.lookup "filesystem_id".toList ≠ none ↔ ¬ ms.lookup "memory_store_id".toList ≠ none) ∧
      (∀ key ∈ ms.map Prod.fst, key ∈ (mountProperties ++ extra).map Prod.fst) ∧
      ∀ p ∈ mountProperties ++ extra, ∀ v, ms.lookup p.1 = some v →
        p.2.validates format v = true := by
  have hmem : ∀ n : List Char, ms.lookup n ≠ none ↔ n ∈ ms.map Prod.fst := by
    intro n
    rw [Ne, lookup_eq_none_iff, Decidable.not_not]
  rw [mountSchema, Schema.validates_record_iff]
  simp only [List.forall_mem_cons, List.not_mem_nil, false_imp_iff, implies_true, and_true]
  rw [Schema.validates_required_iff, scope_arms, Schema.validates_closed_iff]
  simp only [hmem, lookup_eq_some_iff hnd]

/-- **A mount entry**: the loader takes it exactly when it meets the schema
and the loader's additive field. -/
theorem mount_parity (hplain : plainMembers mountFields plainMountValue ms = true) :
    (∃ m, decodeMembers mountFields Mount.set .zero ms = .ok m ∧ MountRules m) ↔
      (mountSchema writeBackProperty).validates format (.obj ms) = true := by
  obtain ⟨hnd, hexact, hvalues⟩ := plainMembers_iff.mp hplain
  have hnames : mountFields.map Prod.fst = (mountProperties ++ writeBackProperty).map Prod.fst :=
    rfl
  rw [decodeMembers_rules_iff mountFields_table hexact Mount.set_spec hnd
    (fun _ => decode_mount hexact hnd), schema_mount_iff hnd, ← hnames]
  simp only [mountFields, List.forall_mem_cons, List.not_mem_nil, false_imp_iff, implies_true,
    and_true, plainMountValue, true_and] at hvalues
  obtain ⟨hdest, hfs, hmem, hseconds, hback⟩ := hvalues
  -- each field, as the one and as the other reads it
  have hdestination := text_field format _ (fun s => destinationRe.test s = true)
    [.pattern schemaDestinationRe] (by decide)
    (fun s hs => by
      simpa [Schema.validatesAll, Schema.validates] using destination_dialects (hdest _ hs))
  have htoken := text_field format (ms.lookup "auth_token".toList) (· ≠ []) [.minLength 1]
    (by decide) (by simp [Schema.validatesAll, Schema.validates, Nat.one_le_iff_ne_zero])
  have hmode := text_field format (ms.lookup "vfs_cache_mode".toList) (· ∈ cacheModes)
    [.enum cacheModes] (by decide) (by simp [Schema.validatesAll, Schema.validates])
  have hsize := pattern_field format (ms.lookup "vfs_cache_max_size".toList) byteSizeRe (by decide)
  have hdir := pattern_field format (ms.lookup "dir_perms".toList) octalRe (by decide)
  have hfile := pattern_field format (ms.lookup "file_perms".toList) octalRe (by decide)
  have hreadonly := bool_field format (ms.lookup "readonly".toList)
  have hduration := seconds_field format _ hseconds
  have hwriteBack := writeBack_field format _ hback
  have hfsID := scopeID_field format _ hfs
  have hmemID := scopeID_field format _ hmem
  have hfsSome := stringPtr_isSome _ hfs
  have hmemSome := stringPtr_isSome _ hmem
  have hxor : ∀ a b : Bool, a ≠ b ↔ (a = true ↔ ¬ b = true) := by decide
  simp only [mountFields, mountProperties, writeBackProperty, mountRequired, List.cons_append,
    List.nil_append, List.forall_mem_cons, List.not_mem_nil, false_imp_iff, implies_true, and_true,
    MountField.Takes]
  constructor
  · rintro ⟨⟨hkeys, t₁, t₂, t₃, t₄, t₅, t₆, t₇, t₈, t₉, t₁₀, t₁₁⟩, hrules⟩
    obtain ⟨r₁, v₁⟩ := hdestination.mp ⟨t₁, hrules.destination⟩
    obtain ⟨r₂, v₂⟩ := htoken.mp ⟨t₂, hrules.authToken⟩
    have v₃ := hfsID.mp ⟨t₃, hrules.filesystemID⟩
    have v₄ := hmemID.mp ⟨t₄, hrules.memoryStoreID⟩
    obtain ⟨r₅, v₅⟩ := hreadonly.mp ⟨t₅, hrules.readonly⟩
    obtain ⟨r₆, v₆⟩ := hmode.mp ⟨t₆, hrules.vfsCacheMode⟩
    obtain ⟨r₇, v₇⟩ := hduration.mp ⟨t₇, hrules.cacheDurationS⟩
    obtain ⟨r₈, v₈⟩ := hsize.mp ⟨t₈, hrules.vfsCacheMaxSize⟩
    obtain ⟨r₉, v₉⟩ := hdir.mp ⟨t₉, hrules.dirPerms⟩
    obtain ⟨r₁₀, v₁₀⟩ := hfile.mp ⟨t₁₀, hrules.filePerms⟩
    have hone : _ ↔ ¬ _ := (hfsSome t₃).symm.trans
      (((hxor _ _).mp hrules.scope).trans (not_congr (hmemSome t₄)))
    exact ⟨⟨r₁, r₂, r₅, r₆, r₇, r₈, r₉, r₁₀⟩, hone, hkeys, v₁, v₂, v₃, v₄, v₅, v₆, v₇, v₈, v₉, v₁₀,
      hwriteBack.mp t₁₁⟩
  · rintro ⟨⟨r₁, r₂, r₅, r₆, r₇, r₈, r₉, r₁₀⟩, hone, hkeys, v₁, v₂, v₃, v₄, v₅, v₆, v₇, v₈, v₉, v₁₀,
      v₁₁⟩
    obtain ⟨t₁, m₁⟩ := hdestination.mpr ⟨r₁, v₁⟩
    obtain ⟨t₂, m₂⟩ := htoken.mpr ⟨r₂, v₂⟩
    obtain ⟨t₃, m₃⟩ := hfsID.mpr v₃
    obtain ⟨t₄, m₄⟩ := hmemID.mpr v₄
    obtain ⟨t₅, m₅⟩ := hreadonly.mpr ⟨r₅, v₅⟩
    obtain ⟨t₆, m₆⟩ := hmode.mpr ⟨r₆, v₆⟩
    obtain ⟨t₇, m₇⟩ := hduration.mpr ⟨r₇, v₇⟩
    obtain ⟨t₈, m₈⟩ := hsize.mpr ⟨r₈, v₈⟩
    obtain ⟨t₉, m₉⟩ := hdir.mpr ⟨r₉, v₉⟩
    obtain ⟨t₁₀, m₁₀⟩ := hfile.mpr ⟨r₁₀, v₁₀⟩
    rw [← hfsSome t₃, ← hmemSome t₄] at hone
    exact ⟨⟨hkeys, t₁, t₂, t₃, t₄, t₅, t₆, t₇, t₈, t₉, t₁₀, hwriteBack.mpr v₁₁⟩,
      ⟨m₁, m₂, (hxor _ _).mpr hone, m₃, m₄, m₅, m₇, m₉, m₁₀, m₈, m₆⟩⟩

end MountParity

/-! ## the config -/

section ConfigField

variable (format : String → List Char → Bool) (x : Option Json)

/-- The optional lifetime, whose sign the loader does not look at. -/
theorem ttl_field (hplain : ∀ v, x = some v → plainTTL v = true) :
    (∀ v, x = some v → TakesInt v) ↔
      ∀ v, x = some v → secondsSchema.validates format v = true := by
  cases x with
  | none => simp
  | some v =>
      cases v with
      | null => exact absurd (hplain _ rfl) (by decide)
      | num n =>
          have hn := hplain _ rfl
          rw [plainTTL, plainInt, Bool.and_eq_true] at hn
          have hint : n.isInteger = true → (parseInt n).isSome = true := by
            intro h
            simpa [h] using hn.1
          have hsign : n.isInteger = true → n.isNonneg = true := by
            intro h
            simpa [h] using hn.2
          have hiff : (parseInt n).isSome ↔ n.isInteger = true := by
            constructor
            · intro h
              obtain ⟨d, hd⟩ := Option.isSome_iff_exists.mp h
              exact (parseInt_spec hd).1
            · exact hint
          simpa [TakesInt, secondsSchema, Schema.validates, Schema.validatesAll, Schema.hasType,
            hiff] using hsign
      | _ => simp [TakesInt, secondsSchema, Schema.validates, Schema.validatesAll, Schema.hasType]

/-- The elements of the mount list, each of them decoded afresh. -/
theorem decodeElems_rules_iff (vs : List Json) :
    (∃ es, decodeElems [] vs = .ok es ∧ ∀ m ∈ es, MountRules m) ↔
      ∀ v ∈ vs, ∃ m, decodeStruct mountFields Mount.set .zero v = .ok m ∧ MountRules m := by
  induction vs with
  | nil => simp [decodeElems]
  | cons v vs ih =>
      rw [List.forall_mem_cons, ← ih]
      simp only [decodeElems_cons]
      constructor
      · rintro ⟨es, ⟨m, es', hm, hes, rfl⟩, hrules⟩
        rw [List.forall_mem_cons] at hrules
        exact ⟨⟨m, hm, hrules.1⟩, es', hes, hrules.2⟩
      · rintro ⟨⟨m, hm, hmr⟩, es', hes, hrules⟩
        exact ⟨_, ⟨m, es', hm, hes, rfl⟩, List.forall_mem_cons.mpr ⟨hmr, hrules⟩⟩

/-- An element of the mount list.  A `null` decodes to a mount without a
destination. -/
theorem element_parity {v : Json} (hplain : plainMount v = true) :
    (∃ m, decodeStruct mountFields Mount.set .zero v = .ok m ∧ MountRules m) ↔
      (mountSchema writeBackProperty).validates format v = true := by
  cases v with
  | obj ms => exact mount_parity hplain
  | null =>
      have hzero : ¬ MountRules .zero := fun h => absurd h.destination (by decide)
      simp [decodeStruct, hzero, mountSchema, Schema.validates, Schema.validatesAll,
        Schema.hasType]
  | _ => simp [decodeStruct, mountSchema, Schema.validates, Schema.validatesAll, Schema.hasType]

/-- The mount list. -/
theorem mounts_field (hplain : ∀ v, x = some v → plainMounts v = true) :
    ((∀ v, x = some v → TakesMounts v) ∧
        ∃ s, x.elim none (mountsAfter none) = some s ∧ ∀ m ∈ s.elems, MountRules m) ↔
      (x ≠ none ∧ ∀ v, x = some v →
        (Schema.all [.type .array, .items (mountSchema writeBackProperty)]).validates format v =
          true) := by
  cases x with
  | none => simp
  | some v =>
      cases v with
      | arr vs =>
          have helems : (∀ v ∈ vs, (mountSchema writeBackProperty).validates format v = true) ↔
              ∃ es, decodeElems [] vs = .ok es ∧ ∀ m ∈ es, MountRules m := by
            rw [decodeElems_rules_iff]
            have hall := List.all_eq_true.mp (hplain _ rfl)
            exact forall₂_congr fun v hv => (element_parity format (hall v hv)).symm
          have hschema :
              (Schema.all [.type .array, .items (mountSchema writeBackProperty)]).validates
                format (.arr vs) = true ↔
                ∀ v ∈ vs, (mountSchema writeBackProperty).validates format v = true := by
            simp [Schema.validates, Schema.validatesAll, Schema.hasType]
          have htakes := decodeMounts_ok_iff none (.arr vs)
          rw [decodeMounts_none_arr] at htakes
          simp only [ne_eq, reduceCtorEq, not_false_eq_true, Option.some.injEq, forall_eq',
            true_and, Option.elim_some, mountsAfter, decodeMounts_none_arr, hschema, helems,
            ← htakes]
          cases decodeElems [] vs <;> simp [Except.map]
      | _ =>
          simp [TakesMounts, mountsAfter, decodeMounts, Schema.validates, Schema.validatesAll,
            Schema.hasType]

end ConfigField

section ConfigParity

variable {uri : List Char → Bool} {ms : List (List Char × Json)}

/-- **A config**: the loader takes its members exactly when they meet the
schema with the loader's addition. -/
theorem config_parity (hplain : plainMembers configFields plainConfigValue ms = true) :
    (∃ cfg, decodeMembers configFields Config.set .zero ms = .ok cfg ∧ ConfigRules uri cfg) ↔
      loaderSchema.validates (fun _ => uri) (.obj ms) = true := by
  obtain ⟨hnd, hexact, hvalues⟩ := plainMembers_iff.mp hplain
  simp only [configFields, List.forall_mem_cons, List.not_mem_nil, false_imp_iff, implies_true,
    and_true, plainConfigValue, true_and] at hvalues
  obtain ⟨hplainCert, hplainMounts, hplainTTL⟩ := hvalues
  have hmem : ∀ n : List Char, n ∈ ms.map Prod.fst ↔ ms.lookup n ≠ none := by
    intro n
    rw [Ne, lookup_eq_none_iff, Decidable.not_not]
  have hversion := pattern_field (fun _ => uri) (ms.lookup "schema_version".toList)
    schemaVersionRe (by decide)
  have hurl := text_field (fun _ => uri) (ms.lookup "service_url".toList)
    (fun s => "https://".toList <+: s ∧ uri s = true)
    [.format "uri", .pattern (.startsWith (.lit "https://".toList))] (by simp)
    (by simp [Schema.validatesAll, Schema.validates, Regex.test_iff, Regex.matches_startsWith_lit,
      and_comm])
  have hcert := text_field (fun _ => uri) (ms.lookup "ca_cert_pem".toList) (· ≠ [])
    [.pattern (.occurs (.lit beginCertificate))] (by decide) (fun s hs => by
      have hs' := hplainCert _ hs
      simp only [plainCert, Bool.or_eq_true, List.isEmpty_iff] at hs'
      simp only [Schema.validatesAll, Schema.validates, Bool.and_true]
      constructor
      · exact hs'.resolve_left
      · exact fun h => Regex.ne_nil_of_occurs_lit (by decide) (Regex.test_iff.mp h))
  have hmounts := mounts_field (fun _ => uri) _ hplainMounts
  have httl := ttl_field (fun _ => uri) _ hplainTTL
  rw [decodeMembers_rules_iff configFields_table hexact Config.set_spec hnd
    (fun _ => decode_config hexact hnd), loaderSchema, rootSchema, Schema.validates_record_iff]
  simp only [List.forall_mem_cons, List.not_mem_nil, false_imp_iff, implies_true, and_true]
  rw [Schema.validates_required_iff, Schema.validates_closed_iff]
  simp only [← lookup_eq_some_iff hnd, configFields, List.map_cons, List.map_nil,
    List.forall_mem_cons, List.not_mem_nil, false_imp_iff, implies_true, and_true,
    ConfigField.Takes, hmem "schema_version".toList, hmem "service_url".toList,
    hmem "ca_cert_pem".toList, hmem "mounts".toList]
  constructor
  · rintro ⟨⟨hkeys, t₁, t₂, t₃, t₄, t₅⟩, hrules⟩
    obtain ⟨r₁, v₁⟩ := hversion.mp ⟨t₁, hrules.schemaVersion⟩
    obtain ⟨r₂, v₂⟩ := hurl.mp ⟨t₂, hrules.serviceURL⟩
    obtain ⟨r₃, v₃⟩ := hcert.mp ⟨t₃, hrules.caCertPEM⟩
    obtain ⟨r₄, v₄⟩ := hmounts.mp ⟨t₄, hrules.mounts⟩
    exact ⟨⟨r₁, r₂, r₃, r₄⟩, hkeys, v₁, v₂, v₃, v₄, httl.mp t₅⟩
  · rintro ⟨⟨r₁, r₂, r₃, r₄⟩, hkeys, v₁, v₂, v₃, v₄, v₅⟩
    obtain ⟨t₁, m₁⟩ := hversion.mpr ⟨r₁, v₁⟩
    obtain ⟨t₂, m₂⟩ := hurl.mpr ⟨r₂, v₂⟩
    obtain ⟨t₃, m₃⟩ := hcert.mpr ⟨r₃, v₃⟩
    obtain ⟨t₄, m₄⟩ := hmounts.mpr ⟨r₄, v₄⟩
    exact ⟨⟨hkeys, t₁, t₂, t₃, t₄, httl.mpr v₅⟩, m₁, m₂, m₃, m₄⟩

end ConfigParity

/-! ## the document -/

/-- The loader accepts a plain value exactly if the schema does. -/
theorem value_parity {uri : List Char → Bool} {v : Json} (hplain : plainConfig v = true) :
    (∃ cfg, decodeStruct configFields Config.set .zero v = .ok cfg ∧ ConfigRules uri cfg) ↔
      loaderSchema.validates (fun _ => uri) v = true := by
  cases v with
  | obj ms => exact config_parity hplain
  | null =>
      have hzero : ¬ ConfigRules uri .zero := fun h => absurd h.schemaVersion (by decide)
      simp [decodeStruct, hzero, loaderSchema, rootSchema, Schema.validates, Schema.validatesAll,
        Schema.hasType]
  | _ =>
      simp [decodeStruct, loaderSchema, rootSchema, Schema.validates, Schema.validatesAll,
        Schema.hasType]

/-- **Loader and schema**: a plain document is accepted exactly when it is one
JSON value that validates against the vendored schema with the loader's
additive `vfs_write_back`. -/
theorem load_accepts_iff (parseRequestURI : List Char → Bool)
    (readFile : Path → Except Err (List UInt8)) (path : Path) (raw : List UInt8)
    (hread : readFile path = .ok raw) (hplain : plainDocument raw = true) :
    (∃ cfg, load parseRequestURI readFile path = .ok cfg) ↔
      Conforms parseRequestURI loaderSchema raw := by
  rw [plainDocument, Bool.and_eq_true] at hplain
  obtain ⟨hutf8, hplain⟩ := hplain
  simp only [load, hread, loadBytes_ok_iff, decode, conforms_iff, conformsTest, hutf8,
    Bool.true_and]
  cases hfirst : Json.firstValue (text raw) with
  | none => simp
  | some p =>
      obtain ⟨v, rest⟩ := p
      simp only [hfirst, Bool.and_eq_true, decide_eq_true_eq] at hplain
      simp only [Bool.and_eq_true, decide_eq_true_eq, hplain.1, true_and]
      exact value_parity hplain.2

/-- A document that uses the loader's additive field. -/
def writeBackDocument : List UInt8 :=
  ("\x7b\"schema_version\":\"v1\",\"service_url\":\"https://h\",".toList ++
    "\"ca_cert_pem\":\"-----BEGIN CERTIFICATE-----\",\"mounts\":[\x7b".toList ++
    "\"destination\":\"/d\",\"auth_token\":\"t\",\"filesystem_id\":\"f\",".toList ++
    "\"readonly\":true,\"vfs_cache_mode\":\"off\",\"cache_duration_s\":0,".toList ++
    "\"vfs_cache_max_size\":\"1G\",\"dir_perms\":\"0755\",".toList ++
    "\"file_perms\":\"0644\",\"vfs_write_back\":\"5s\"\x7d]\x7d".toList).map
      fun c => UInt8.ofNat c.toNat

def writeBackConfig : Config where
  schemaVersion := "v1".toList
  serviceURL := "https://h".toList
  caCertPEM := beginCertificate
  mounts := some ⟨[{
    destination := "/d".toList
    authToken := "t".toList
    filesystemID := some "f".toList
    memoryStoreID := none
    readonly := some true
    vfsCacheMode := "off".toList
    cacheDurationS := some 0
    vfsCacheMaxSize := "1G".toList
    dirPerms := "0755".toList
    filePerms := "0644".toList
    vfsWriteBack := "5s".toList }], []⟩
  backendCacheTTL := none

/-- The verdicts on it, computed. -/
theorem writeBackDocument_verdicts :
    plainDocument writeBackDocument = true ∧
      conformsTest (· == "https://h".toList) loaderSchema writeBackDocument = true ∧
      conformsTest (· == "https://h".toList) vendoredSchema writeBackDocument = false ∧
      (loadBytes (· == "https://h".toList) writeBackDocument).toOption = some writeBackConfig := by
  decide +kernel

/-- The document is plain, and accepted since it conforms. -/
theorem load_accepts_writeBack :
    plainDocument writeBackDocument = true ∧
      ∃ cfg, load (· == "https://h".toList) (fun _ => .ok writeBackDocument) [] = .ok cfg := by
  obtain ⟨hplain, hconforms, -⟩ := writeBackDocument_verdicts
  exact ⟨hplain, (load_accepts_iff _ _ [] writeBackDocument rfl hplain).mpr
    (conforms_iff.mpr hconforms)⟩

/-- The schema as it is vendored refuses what the loader reads. -/
theorem load_writeBack_not_vendored :
    load (· == "https://h".toList) (fun _ => .ok writeBackDocument) [] = .ok writeBackConfig ∧
      ¬ Conforms (· == "https://h".toList) vendoredSchema writeBackDocument := by
  obtain ⟨-, -, hvendored, hload⟩ := writeBackDocument_verdicts
  constructor
  · exact ok_of_toOption hload
  · rw [conforms_iff, hvendored]
    decide

end OcuFilestore.Mountcfg
