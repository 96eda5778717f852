import OcuFilestore.Mountcfg.Load

/-!
# OcuFilestore.Mountcfg.Decode

What the loader's decoder and its rules come to.  A member is either taken by
its field or refused (`Mount.set_spec`, `Config.set_spec`), so a record
decodes exactly when every key names a field that takes its value
(`decodeMembers_ok_iff`); and when the keys are exact and not repeated, each
component of the record is what its member says (`decode_mount`,
`decode_config`).  The rules of the validation are collected in `MountRules`
and `ConfigRules`.
-/

namespace OcuFilestore.Mountcfg

/-! ## members -/

/-- Among distinct keys, looking a key up finds its member. -/
theorem lookup_eq_some_iff {ms : List (List Char × Json)} (hnd : (ms.map Prod.fst).Nodup)
    {key : List Char} {v : Json} : ms.lookup key = some v ↔ (key, v) ∈ ms := by
  induction ms with
  | nil => simp
  | cons m ms ih =>
      obtain ⟨k, w⟩ := m
      rw [List.map_cons, List.nodup_cons] at hnd
      by_cases hk : key = k
      · subst hk
        have hno : (key, v) ∉ ms := fun h => hnd.1 (List.mem_map.mpr ⟨_, h, rfl⟩)
        simp [hno, eq_comm]
      · have hbeq : (key == k) = false := by simpa using hk
        simp [List.lookup_cons, hbeq, hk, ih hnd.2]

/-- A key that is not found is not there. -/
theorem lookup_eq_none_iff {ms : List (List Char × Json)} {key : List Char} :
    ms.lookup key = none ↔ key ∉ ms.map Prod.fst := by
  induction ms with
  | nil => simp
  | cons m ms ih =>
      obtain ⟨k, w⟩ := m
      by_cases hk : key = k
      · subst hk
        simp
      · have hbeq : (key == k) = false := by simpa using hk
        rw [List.lookup_cons, hbeq, List.map_cons, List.mem_cons, ih]
        simp [hk]

section Decode

variable {F σ : Type} {fields : List (List Char × F)} {set : σ → Json → F → Except JsonErr σ}

/-- One member: its key names a field, the field takes its value, and the
rest goes on from there. -/
theorem decodeMembers_cons {s s' : σ} {key : List Char} {v : Json}
    {ms : List (List Char × Json)} :
    decodeMembers fields set s ((key, v) :: ms) = .ok s' ↔
      ∃ f s₁, fieldOf fields key = some f ∧ set s v f = .ok s₁ ∧
        decodeMembers fields set s₁ ms = .ok s' := by
  simp only [decodeMembers]
  cases fieldOf fields key with
  | none => simp
  | some f => cases hset : set s v f <;> simp [hset]

-- `takes` are the values a field takes, `put` is what it does with them
variable {takes : F → Json → Prop} {put : σ → Json → F → σ}
  (hset : ∀ s v f, (takes f v ∧ set s v f = .ok (put s v f)) ∨
    (¬ takes f v ∧ ∃ e, set s v f = .error e))
include hset

/-- A field is set exactly if it takes the value. -/
theorem set_ok_iff {s s' : σ} {v : Json} {f : F} :
    set s v f = .ok s' ↔ takes f v ∧ s' = put s v f := by
  rcases hset s v f with ⟨ht, h⟩ | ⟨ht, e, h⟩
  · simp [h, ht, eq_comm]
  · simp [h, ht]

/-- A record decodes when every key names a field that takes its value. -/
theorem decodeMembers_ok_iff (s : σ) (ms : List (List Char × Json)) :
    (∃ s', decodeMembers fields set s ms = .ok s') ↔
      ∀ key v, (key, v) ∈ ms → ∃ f, fieldOf fields key = some f ∧ takes f v := by
  induction ms generalizing s with
  | nil => simp [decodeMembers]
  | cons m ms ih =>
      obtain ⟨key, v⟩ := m
      constructor
      · rintro ⟨s', h⟩ key' v' hmem
        obtain ⟨f, s₁, hf, hs₁, hrest⟩ := decodeMembers_cons.mp h
        rcases List.mem_cons.mp hmem with heq | hmem
        · cases heq
          exact ⟨f, hf, ((set_ok_iff hset).mp hs₁).1⟩
        · exact (ih s₁).mp ⟨s', hrest⟩ key' v' hmem
      · intro h
        obtain ⟨f, hf, ht⟩ := h key v List.mem_cons_self
        obtain ⟨s', hrest⟩ := (ih (put s v f)).mpr fun key' v' hmem =>
          h key' v' (List.mem_cons_of_mem _ hmem)
        exact ⟨s', decodeMembers_cons.mpr ⟨f, _, hf, (set_ok_iff hset).mpr ⟨ht, rfl⟩, hrest⟩⟩

/-- What a component of the record holds in the end, when every key is the
exact name of its field and no key is repeated: what its member says. -/
theorem decodeMembers_get {T : Type} (get : σ → T) (dec : T → Json → T) (f₀ : F) (n₀ : List Char)
    (hget : ∀ s v f, (f = f₀ → get (put s v f) = dec (get s) v) ∧
      (f ≠ f₀ → get (put s v f) = get s))
    {s s' : σ} {ms : List (List Char × Json)}
    (hname : ∀ key ∈ ms.map Prod.fst, ∀ f, fieldOf fields key = some f → (f = f₀ ↔ key = n₀))
    (hnd : (ms.map Prod.fst).Nodup) (h : decodeMembers fields set s ms = .ok s') :
    get s' = (ms.lookup n₀).elim (get s) (dec (get s)) := by
  induction ms generalizing s with
  | nil =>
      cases h
      rfl
  | cons m ms ih =>
      obtain ⟨key, v⟩ := m
      obtain ⟨f, s₁, hf, hs₁, hrest⟩ := decodeMembers_cons.mp h
      obtain ⟨-, rfl⟩ := (set_ok_iff hset).mp hs₁
      rw [List.map_cons, List.nodup_cons] at hnd
      have hkey := hname key List.mem_cons_self f hf
      have hlast := ih (fun k hk => hname k (List.mem_cons_of_mem _ hk)) hnd.2 hrest
      by_cases hn : key = n₀
      · subst hn
        rw [lookup_eq_none_iff.mpr hnd.1] at hlast
        simpa [(hget s v f).1 (hkey.mpr rfl)] using hlast
      · have hbeq : (n₀ == key) = false := beq_eq_false_iff_ne.mpr (Ne.symm hn)
        rw [(hget s v f).2 fun hf₀ => hn (hkey.mp hf₀)] at hlast
        simpa [List.lookup_cons, hbeq] using hlast

end Decode

/-- Every key that names a field names it exactly. -/
def ExactKeys {F : Type} (fields : List (List Char × F)) (ms : List (List Char × Json)) : Prop :=
  ∀ key ∈ ms.map Prod.fst, (fieldOf fields key).isSome → key ∈ fields.map Prod.fst

instance {F : Type} (fields : List (List Char × F)) (ms : List (List Char × Json)) :
    Decidable (ExactKeys fields ms) := inferInstanceAs (Decidable (∀ key ∈ ms.map Prod.fst, _))

section Exact

variable {F : Type} {fields : List (List Char × F)} {ms : List (List Char × Json)}
  (htable : ∀ p ∈ fields, fieldOf fields p.1 = some p.2) (hexact : ExactKeys fields ms)
include htable hexact

/-- A key that names a field exactly is in the table with it. -/
theorem mem_of_fieldOf {key : List Char} (hkey : key ∈ ms.map Prod.fst) {f : F}
    (hf : fieldOf fields key = some f) : (key, f) ∈ fields := by
  obtain ⟨⟨k, g⟩, hmem, rfl⟩ := List.mem_map.mp (hexact key hkey (by rw [hf]; rfl))
  have hg := htable _ hmem
  dsimp only at hf hg
  rw [hf, Option.some.injEq] at hg
  rwa [hg]

/-- Field by field: every key is a name, and every field takes its member. -/
theorem members_take_iff {takes : F → Json → Prop} (hnd : (ms.map Prod.fst).Nodup) :
    (∀ key v, (key, v) ∈ ms → ∃ f, fieldOf fields key = some f ∧ takes f v) ↔
      (∀ key ∈ ms.map Prod.fst, key ∈ fields.map Prod.fst) ∧
        ∀ p ∈ fields, ∀ v, ms.lookup p.1 = some v → takes p.2 v := by
  constructor
  · intro h
    refine ⟨fun key hkey => ?_, fun p hp v hv => ?_⟩
    · obtain ⟨⟨k, v⟩, hm, rfl⟩ := List.mem_map.mp hkey
      obtain ⟨f, hf, -⟩ := h k v hm
      exact hexact k hkey (by rw [hf]; rfl)
    · obtain ⟨f, hf, ht⟩ := h p.1 v ((lookup_eq_some_iff hnd).mp hv)
      rw [htable p hp, Option.some.injEq] at hf
      rwa [hf]
  · rintro ⟨hkeys, htakes⟩ key v hm
    obtain ⟨⟨k, f⟩, hp, rfl⟩ := List.mem_map.mp (hkeys key (List.mem_map.mpr ⟨_, hm, rfl⟩))
    exact ⟨f, htable _ hp, htakes _ hp v ((lookup_eq_some_iff hnd).mpr hm)⟩

variable {σ : Type} {set : σ → Json → F → Except JsonErr σ} {takes : F → Json → Prop}
  {put : σ → Json → F → σ}
  (hset : ∀ s v f, (takes f v ∧ set s v f = .ok (put s v f)) ∨
    (¬ takes f v ∧ ∃ e, set s v f = .error e))
  (hnd : (ms.map Prod.fst).Nodup)
include hset hnd

/-- What the component of a field holds in the end: what the member of its
name says. -/
theorem decodeMembers_field {T : Type} {s s' : σ} (h : decodeMembers fields set s ms = .ok s')
    (get : σ → T) (dec : T → Json → T) (f₀ : F) (n₀ : List Char)
    (hname : ∀ p ∈ fields, p.2 = f₀ ↔ p.1 = n₀)
    (hget : ∀ s v f, (f = f₀ → get (put s v f) = dec (get s) v) ∧
      (f ≠ f₀ → get (put s v f) = get s)) :
    get s' = (ms.lookup n₀).elim (get s) (dec (get s)) :=
  decodeMembers_get hset get dec f₀ n₀ hget
    (fun _ hkey _ hf => hname _ (mem_of_fieldOf htable hexact hkey hf)) hnd h

/-- A record that decodes to `read` and meets the rules, field by field. -/
theorem decodeMembers_rules_iff {s read : σ}
    (hread : ∀ s', decodeMembers fields set s ms = .ok s' → s' = read) (R : σ → Prop) :
    (∃ s', decodeMembers fields set s ms = .ok s' ∧ R s') ↔
      ((∀ key ∈ ms.map Prod.fst, key ∈ fields.map Prod.fst) ∧
        ∀ p ∈ fields, ∀ v, ms.lookup p.1 = some v → takes p.2 v) ∧ R read := by
  rw [← members_take_iff htable hexact hnd, ← decodeMembers_ok_iff hset s]
  constructor
  · rintro ⟨s', hs', hR⟩
    exact ⟨⟨s', hs'⟩, hread s' hs' ▸ hR⟩
  · rintro ⟨⟨s', hs'⟩, hR⟩
    exact ⟨s', hs', (hread s' hs').symm ▸ hR⟩

end Exact

/-! ## the fields -/

/-- The values a string field takes, plain or by pointer. -/
def TakesString (v : Json) : Prop := v = .null ∨ ∃ s, v = .str s

def TakesBool (v : Json) : Prop := v = .null ∨ ∃ b, v = .bool b

def TakesInt (v : Json) : Prop := v = .null ∨ ∃ n, v = .num n ∧ (parseInt n).isSome

/-- What a plain string field holds after its member. -/
def textOr (cur : List Char) : Json → List Char
  | .str s => s
  | _ => cur

/-- What a pointer holds after its member. -/
def stringPtr : Json → Option (List Char)
  | .str s => some s
  | _ => none

def boolPtr : Json → Option Bool
  | .bool b => some b
  | _ => none

def intPtr : Json → Option Int
  | .num n => parseInt n
  | _ => none

/-- A string field takes a string, and keeps its value at `null`. -/
theorem decodeString_spec (cur : List Char) (v : Json) :
    (TakesString v ∧ decodeString cur v = .ok (textOr cur v)) ∨
      (¬ TakesString v ∧ ∃ e, decodeString cur v = .error e) := by
  cases v <;> simp [TakesString, decodeString, textOr]

/-- A string pointer takes a string or `null`. -/
theorem decodePtr_string_spec (v : Json) :
    (TakesString v ∧ decodePtr (decodeString []) v = .ok (stringPtr v)) ∨
      (¬ TakesString v ∧ ∃ e, decodePtr (decodeString []) v = .error e) := by
  cases v <;> simp [TakesString, decodePtr, decodeString, stringPtr]

/-- A Boolean pointer takes a Boolean or `null`. -/
theorem decodePtr_bool_spec (v : Json) :
    (TakesBool v ∧ decodePtr decodeBool v = .ok (boolPtr v)) ∨
      (¬ TakesBool v ∧ ∃ e, decodePtr decodeBool v = .error e) := by
  cases v <;> simp [TakesBool, decodePtr, decodeBool, boolPtr]

/-- An integer pointer takes an integer in range or `null`. -/
theorem decodePtr_int_spec (v : Json) :
    (TakesInt v ∧ decodePtr decodeInt v = .ok (intPtr v)) ∨
      (¬ TakesInt v ∧ ∃ e, decodePtr decodeInt v = .error e) := by
  cases v with
  | num n => cases h : parseInt n <;> simp [TakesInt, decodePtr, decodeInt, intPtr, h]
  | _ => simp [TakesInt, decodePtr, decodeInt, intPtr]

/-- The values a field of a mount takes. -/
def MountField.Takes : MountField → Json → Prop
  | .readonly => TakesBool
  | .cacheDurationS => TakesInt
  | _ => TakesString

/-- The mount after a member that its field takes. -/
def Mount.put (m : Mount) (v : Json) : MountField → Mount
  | .destination => { m with destination := textOr m.destination v }
  | .authToken => { m with authToken := textOr m.authToken v }
  | .filesystemID => { m with filesystemID := stringPtr v }
  | .memoryStoreID => { m with memoryStoreID := stringPtr v }
  | .readonly => { m with readonly := boolPtr v }
  | .vfsCacheMode => { m with vfsCacheMode := textOr m.vfsCacheMode v }
  | .cacheDurationS => { m with cacheDurationS := intPtr v }
  | .vfsCacheMaxSize => { m with vfsCacheMaxSize := textOr m.vfsCacheMaxSize v }
  | .dirPerms => { m with dirPerms := textOr m.dirPerms v }
  | .filePerms => { m with filePerms := textOr m.filePerms v }
  | .vfsWriteBack => { m with vfsWriteBack := textOr m.vfsWriteBack v }

/-- Storing what was decoded cannot fail. -/
theorem bind_spec {α β : Type} {P : Prop} {x : Except JsonErr α} {a : α} (g : α → β)
    (h : (P ∧ x = .ok a) ∨ (¬ P ∧ ∃ e, x = .error e)) :
    (P ∧ (x >>= fun a => pure (g a)) = .ok (g a)) ∨
      (¬ P ∧ ∃ e, (x >>= fun a => pure (g a)) = .error e) := by
  rcases h with ⟨hP, rfl⟩ | ⟨hP, e, rfl⟩
  · exact .inl ⟨hP, rfl⟩
  · exact .inr ⟨hP, e, rfl⟩

/-- What each field of a mount takes, and what becomes of it. -/
theorem Mount.set_spec (m : Mount) (v : Json) (f : MountField) :
    (f.Takes v ∧ m.set v f = .ok (m.put v f)) ∨ (¬ f.Takes v ∧ ∃ e, m.set v f = .error e) := by
  cases f with
  | readonly => exact bind_spec _ (decodePtr_bool_spec v)
  | cacheDurationS => exact bind_spec _ (decodePtr_int_spec v)
  | filesystemID => exact bind_spec _ (decodePtr_string_spec v)
  | memoryStoreID => exact bind_spec _ (decodePtr_string_spec v)
  | _ => exact bind_spec _ (decodeString_spec _ v)

/-- Each name in the table of mount fields is found there. -/
theorem mountFields_table : ∀ p ∈ mountFields, fieldOf mountFields p.1 = some p.2 := by
  decide

/-- What a plain string field holds for its member. -/
def readText (x : Option Json) : List Char := x.elim [] (textOr [])

/-- The mount a list of members stands for, key by key. -/
def mountOf (ms : List (List Char × Json)) : Mount where
  destination := readText (ms.lookup "destination".toList)
  authToken := readText (ms.lookup "auth_token".toList)
  filesystemID := (ms.lookup "filesystem_id".toList).elim none stringPtr
  memoryStoreID := (ms.lookup "memory_store_id".toList).elim none stringPtr
  readonly := (ms.lookup "readonly".toList).elim none boolPtr
  vfsCacheMode := readText (ms.lookup "vfs_cache_mode".toList)
  cacheDurationS := (ms.lookup "cache_duration_s".toList).elim none intPtr
  vfsCacheMaxSize := readText (ms.lookup "vfs_cache_max_size".toList)
  dirPerms := readText (ms.lookup "dir_perms".toList)
  filePerms := readText (ms.lookup "file_perms".toList)
  vfsWriteBack := readText (ms.lookup "vfs_write_back".toList)

section Mount

variable {ms : List (List Char × Json)} (hexact : ExactKeys mountFields ms)
  (hnd : (ms.map Prod.fst).Nodup)
include hexact hnd

/-- A decoded mount has the values of its members. -/
theorem decode_mount {m : Mount} (h : decodeMembers mountFields Mount.set .zero ms = .ok m) :
    m = mountOf ms := by
  have hget {T : Type} (get : Mount → T) :=
    decodeMembers_field mountFields_table hexact Mount.set_spec hnd h get
  apply Mount.ext
  · exact hget Mount.destination textOr .destination "destination".toList (by decide)
      (by intro m v f; cases f <;> simp [Mount.put])
  · exact hget Mount.authToken textOr .authToken "auth_token".toList (by decide)
      (by intro m v f; cases f <;> simp [Mount.put])
  · exact hget Mount.filesystemID (fun _ => stringPtr) .filesystemID "filesystem_id".toList
      (by decide) (by intro m v f; cases f <;> simp [Mount.put])
  · exact hget Mount.memoryStoreID (fun _ => stringPtr) .memoryStoreID "memory_store_id".toList
      (by decide) (by intro m v f; cases f <;> simp [Mount.put])
  · exact hget Mount.readonly (fun _ => boolPtr) .readonly "readonly".toList (by decide)
      (by intro m v f; cases f <;> simp [Mount.put])
  · exact hget Mount.vfsCacheMode textOr .vfsCacheMode "vfs_cache_mode".toList (by decide)
      (by intro m v f; cases f <;> simp [Mount.put])
  · exact hget Mount.cacheDurationS (fun _ => intPtr) .cacheDurationS "cache_duration_s".toList
      (by decide) (by intro m v f; cases f <;> simp [Mount.put])
  · exact hget Mount.vfsCacheMaxSize textOr .vfsCacheMaxSize "vfs_cache_max_size".toList (by decide)
      (by intro m v f; cases f <;> simp [Mount.put])
  · exact hget Mount.dirPerms textOr .dirPerms "dir_perms".toList (by decide)
      (by intro m v f; cases f <;> simp [Mount.put])
  · exact hget Mount.filePerms textOr .filePerms "file_perms".toList (by decide)
      (by intro m v f; cases f <;> simp [Mount.put])
  · exact hget Mount.vfsWriteBack textOr .vfsWriteBack "vfs_write_back".toList (by decide)
      (by intro m v f; cases f <;> simp [Mount.put])

end Mount

/-! ## the config -/

/-- The values an element of the mount list takes. -/
def TakesMount (v : Json) : Prop :=
  v = .null ∨ ∃ ms, v = .obj ms ∧
    ∀ key w, (key, w) ∈ ms → ∃ f, fieldOf mountFields key = some f ∧ f.Takes w

def TakesMounts (v : Json) : Prop := v = .null ∨ ∃ vs, v = .arr vs ∧ ∀ w ∈ vs, TakesMount w

/-- Which values decode as a mount. -/
theorem decodeStruct_mount_ok_iff (m : Mount) (v : Json) :
    (∃ m', decodeStruct mountFields Mount.set m v = .ok m') ↔ TakesMount v := by
  cases v with
  | obj ms => simp [decodeStruct, TakesMount, decodeMembers_ok_iff Mount.set_spec]
  | _ => simp [decodeStruct, TakesMount]

/-- The elements are decoded one after another, over what the slice held
before. -/
theorem decodeElems_cons {existing es : List Mount} {v : Json} {vs : List Json} :
    decodeElems existing (v :: vs) = .ok es ↔
      ∃ m es', decodeStruct mountFields Mount.set (existing.head?.getD .zero) v = .ok m ∧
        decodeElems existing.tail vs = .ok es' ∧ es = m :: es' := by
  rw [decodeElems]
  cases decodeStruct mountFields Mount.set (existing.head?.getD .zero) v with
  | error e => simp [bind, Except.bind]
  | ok m =>
      cases decodeElems existing.tail vs <;>
        simp [bind, Except.bind, pure, Except.pure, eq_comm]

/-- A list of mounts decodes if each of its elements does. -/
theorem decodeElems_ok_iff (existing : List Mount) (vs : List Json) :
    (∃ es, decodeElems existing vs = .ok es) ↔ ∀ v ∈ vs, TakesMount v := by
  induction vs generalizing existing with
  | nil => simp [decodeElems]
  | cons v vs ih =>
      rw [List.forall_mem_cons, ← ih existing.tail,
        ← decodeStruct_mount_ok_iff (existing.head?.getD .zero)]
      simp only [decodeElems_cons]
      constructor
      · rintro ⟨es, m, es', hm, hes, -⟩
        exact ⟨⟨m, hm⟩, es', hes⟩
      · rintro ⟨⟨m, hm⟩, es', hes⟩
        exact ⟨_, m, es', hm, hes, rfl⟩

/-- What the mount list holds after its member. -/
def mountsAfter (cur : Option (Slice Mount)) (v : Json) : Option (Slice Mount) :=
  match decodeMounts cur v with
  | .ok s => s
  | .error _ => cur

/-- A list into the nil slice: nothing is there to decode into. -/
theorem decodeMounts_none_arr (vs : List Json) :
    decodeMounts none (.arr vs) = (decodeElems [] vs).map fun es => some ⟨es, []⟩ := by
  cases vs with
  | nil => rfl
  | cons v vs =>
      simp only [decodeMounts, backing, List.drop_nil]
      cases decodeElems [] (v :: vs) <;> rfl

/-- Which values decode as the list of mounts. -/
theorem decodeMounts_ok_iff (cur : Option (Slice Mount)) (v : Json) :
    (∃ s, decodeMounts cur v = .ok s) ↔ TakesMounts v := by
  cases v with
  | arr vs =>
      cases vs with
      | nil => simp [decodeMounts, TakesMounts]
      | cons v vs =>
          simp only [TakesMounts, reduceCtorEq, false_or, Json.arr.injEq, exists_eq_left',
            decodeMounts]
          rw [← decodeElems_ok_iff (backing cur)]
          cases decodeElems _ (v :: vs) <;> simp [bind, Except.bind, pure, Except.pure]
  | _ => simp [decodeMounts, TakesMounts]

/-- The list of mounts is decoded as a whole, or refused. -/
theorem decodeMounts_spec (cur : Option (Slice Mount)) (v : Json) :
    (TakesMounts v ∧ decodeMounts cur v = .ok (mountsAfter cur v)) ∨
      (¬ TakesMounts v ∧ ∃ e, decodeMounts cur v = .error e) := by
  rw [← decodeMounts_ok_iff cur v, mountsAfter]
  cases decodeMounts cur v <;> simp

/-- The values a field of the config takes. -/
def ConfigField.Takes : ConfigField → Json → Prop
  | .mounts => TakesMounts
  | .backendCacheTTL => TakesInt
  | _ => TakesString

/-- The config after a member that its field takes. -/
def Config.put (cfg : Config) (v : Json) : ConfigField → Config
  | .schemaVersion => { cfg with schemaVersion := textOr cfg.schemaVersion v }
  | .serviceURL => { cfg with serviceURL := textOr cfg.serviceURL v }
  | .caCertPEM => { cfg with caCertPEM := textOr cfg.caCertPEM v }
  | .mounts => { cfg with mounts := mountsAfter cfg.mounts v }
  | .backendCacheTTL => { cfg with backendCacheTTL := intPtr v }

/-- What each field of the configuration takes, and what becomes of it. -/
theorem Config.set_spec (cfg : Config) (v : Json) (f : ConfigField) :
    (f.Takes v ∧ cfg.set v f = .ok (cfg.put v f)) ∨
      (¬ f.Takes v ∧ ∃ e, cfg.set v f = .error e) := by
  cases f with
  | mounts => exact bind_spec _ (decodeMounts_spec _ v)
  | backendCacheTTL => exact bind_spec _ (decodePtr_int_spec v)
  | _ => exact bind_spec _ (decodeString_spec _ v)

/-- Each name in the table of configuration fields is found there. -/
theorem configFields_table : ∀ p ∈ configFields, fieldOf configFields p.1 = some p.2 := by
  decide

/-- The config a list of members stands for, key by key. -/
def configOf (ms : List (List Char × Json)) : Config where
  schemaVersion := readText (ms.lookup "schema_version".toList)
  serviceURL := readText (ms.lookup "service_url".toList)
  caCertPEM := readText (ms.lookup "ca_cert_pem".toList)
  mounts := (ms.lookup "mounts".toList).elim none (mountsAfter none)
  backendCacheTTL := (ms.lookup "backend_cache_ttl".toList).elim none intPtr

/-- A decoded configuration has the values of its members. -/
theorem decode_config {ms : List (List Char × Json)} (hexact : ExactKeys configFields ms)
    (hnd : (ms.map Prod.fst).Nodup) {cfg : Config}
    (h : decodeMembers configFields Config.set .zero ms = .ok cfg) : cfg = configOf ms := by
  have hget {T : Type} (get : Config → T) :=
    decodeMembers_field configFields_table hexact Config.set_spec hnd h get
  apply Config.ext
  · exact hget Config.schemaVersion textOr .schemaVersion "schema_version".toList (by decide)
      (by intro cfg v f; cases f <;> simp [Config.put])
  · exact hget Config.serviceURL textOr .serviceURL "service_url".toList (by decide)
      (by intro cfg v f; cases f <;> simp [Config.put])
  · exact hget Config.caCertPEM textOr .caCertPEM "ca_cert_pem".toList (by decide)
      (by intro cfg v f; cases f <;> simp [Config.put])
  · exact hget Config.mounts mountsAfter .mounts "mounts".toList (by decide)
      (by intro cfg v f; cases f <;> simp [Config.put])
  · exact hget Config.backendCacheTTL (fun _ => intPtr) .backendCacheTTL
      "backend_cache_ttl".toList (by decide) (by intro cfg v f; cases f <;> simp [Config.put])

/-! ## the rules -/

/-- The rules `validateMount` checks. -/
structure MountRules (m : Mount) : Prop where
  destination : destinationRe.test m.destination = true
  authToken : m.authToken ≠ []
  scope : m.filesystemID.isSome ≠ m.memoryStoreID.isSome
  filesystemID : m.filesystemID ≠ some []
  memoryStoreID : m.memoryStoreID ≠ some []
  readonly : m.readonly ≠ none
  cacheDurationS : ∃ d, m.cacheDurationS = some d ∧ 0 ≤ d
  dirPerms : octalRe.test m.dirPerms = true
  filePerms : octalRe.test m.filePerms = true
  vfsCacheMaxSize : byteSizeRe.test m.vfsCacheMaxSize = true
  vfsCacheMode : m.vfsCacheMode ∈ cacheModes

/-- A mount passes exactly if it keeps the rules of a mount. -/
theorem validateMount_iff {i : Nat} {m : Mount} : validateMount i m = .ok () ↔ MountRules m := by
  constructor
  · intro h
    simp only [validateMount, guard_ok_iff] at h
    obtain ⟨hdest, htoken, hscope, hfs, hmem, hro, h⟩ := h
    cases hd : m.cacheDurationS with
    | none => simp [hd] at h
    | some d =>
        simp only [hd, guard_ok_iff] at h
        obtain ⟨hneg, hdir, hfile, hsize, hmode, -⟩ := h
        exact ⟨by simpa using hdest, htoken, hscope, hfs, hmem, hro, ⟨d, hd, Int.not_lt.mp hneg⟩,
          by simpa using hdir, by simpa using hfile, by simpa using hsize, by simpa using hmode⟩
  · intro h
    obtain ⟨d, hd, hd₀⟩ := h.cacheDurationS
    simp [validateMount, h.destination, h.authToken, h.scope, h.filesystemID, h.memoryStoreID,
      h.readonly, hd, Int.not_lt.mpr hd₀, h.dirPerms, h.filePerms, h.vfsCacheMaxSize,
      h.vfsCacheMode]

/-- The mounts pass exactly if each of them does. -/
theorem validateMounts_iff {i : Nat} {ms : List Mount} :
    validateMounts i ms = .ok () ↔ ∀ m ∈ ms, MountRules m := by
  induction ms generalizing i with
  | nil => simp [validateMounts]
  | cons m ms ih =>
      rw [validateMounts, List.forall_mem_cons, ← ih (i := i + 1), ← validateMount_iff (i := i)]
      cases hv : validateMount i m <;> simp

/-- The rules `validate` checks. -/
structure ConfigRules (parseRequestURI : List Char → Bool) (cfg : Config) : Prop where
  schemaVersion : schemaVersionRe.test cfg.schemaVersion = true
  serviceURL : "https://".toList <+: cfg.serviceURL ∧ parseRequestURI cfg.serviceURL = true
  caCertPEM : cfg.caCertPEM ≠ []
  mounts : ∃ s, cfg.mounts = some s ∧ ∀ m ∈ s.elems, MountRules m

/-- The service URL is an `https` one that parses. -/
theorem validateServiceURL_iff {parseRequestURI : List Char → Bool} {raw : List Char} :
    validateServiceURL parseRequestURI raw = .ok () ↔
      "https://".toList <+: raw ∧ parseRequestURI raw = true := by
  simp only [validateServiceURL, guard_ok_iff, and_true, Decidable.not_not, Bool.not_eq_true',
    Bool.not_eq_false]

/-- A configuration passes exactly if it keeps the rules. -/
theorem validate_iff {parseRequestURI : List Char → Bool} {cfg : Config} :
    validate parseRequestURI cfg = .ok () ↔ ConfigRules parseRequestURI cfg := by
  constructor
  · intro h
    simp only [validate, guard_ok_iff] at h
    obtain ⟨hversion, h⟩ := h
    cases hurl : validateServiceURL parseRequestURI cfg.serviceURL with
    | error e => simp [hurl] at h
    | ok _ =>
        simp only [hurl, guard_ok_iff] at h
        obtain ⟨hcert, h⟩ := h
        cases hmounts : cfg.mounts with
        | none => simp [hmounts] at h
        | some s =>
            rw [hmounts] at h
            exact ⟨by simpa using hversion, validateServiceURL_iff.mp hurl, hcert, s, hmounts,
              validateMounts_iff.mp h⟩
  · intro h
    obtain ⟨s, hs, hrules⟩ := h.mounts
    simp [validate, h.schemaVersion, validateServiceURL_iff.mpr h.serviceURL, h.caCertPEM, hs,
      validateMounts_iff.mpr hrules]

/-- Loading is decoding, and then the rules. -/
theorem loadBytes_ok_iff {parseRequestURI : List Char → Bool} {raw : List UInt8} {cfg : Config} :
    loadBytes parseRequestURI raw = .ok cfg ↔
      decode raw = .ok cfg ∧ ConfigRules parseRequestURI cfg := by
  unfold loadBytes
  cases decode raw with
  | error e => simp
  | ok cfg' =>
      dsimp only
      rw [Except.ok.injEq]
      cases hval : validate parseRequestURI cfg' with
      | error e =>
          have hno : ¬ ConfigRules parseRequestURI cfg' := by
            rw [← validate_iff, hval]
            simp
          simp only [reduceCtorEq, false_iff, not_and]
          rintro rfl
          exact hno
      | ok _ =>
          have hrules := validate_iff.mp hval
          simp only [Except.ok.injEq]
          exact ⟨fun h => ⟨h, h ▸ hrules⟩, And.left⟩

end OcuFilestore.Mountcfg
