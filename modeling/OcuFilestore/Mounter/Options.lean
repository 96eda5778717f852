import OcuFilestore.Go.Int64
import OcuFilestore.Mountcfg.Decode

/-!
# OcuFilestore.Mounter.Options

The VFS options of a mount (`buildVFSOptions`, `internal/mounter/options.go`).
The texts of the config are read by the `Set` methods of rclone's types, which
are parameters here; what is assumed of them is `ReadsSizes`.

A cache size and a write-back delay arrive as they were declared, or not at
all.  The cache duration is multiplied into nanoseconds without a look at its
size, and the loader bounds it from below only: from 9223372037 seconds on the
product wraps.
-/

namespace OcuFilestore.Mounter

open Mountcfg

/-! ## the options -/

inductive CacheMode where
  | off
  | minimal
  | writes
  | full
  deriving DecidableEq, Repr

/-- The VFS options that are mapped; sizes are in bytes, times in
nanoseconds. -/
structure VfsOptions where
  cacheMode : CacheMode
  cacheMaxSize : Int
  dirCacheTime : Int
  writeBack : Int
  dirPerms : Nat
  filePerms : Nat
  umask : Nat
  readOnly : Bool
  deriving DecidableEq, Repr

/-- The `Set` methods of rclone's option types. -/
structure Setters where
  cacheMode : List Char → Except Err CacheMode
  sizeSuffix : List Char → Except Err Int
  duration : List Char → Except Err Int
  fileMode : List Char → Except Err Nat

/-- What a `Set` method makes of the field's text. -/
def setField {α : Type} (field : String) (value : List Char) (set : List Char → Except Err α)
    (raw : List Char) : Except Err α :=
  match set raw with
  | .error e => .error (.wrap [.lit field, .lit " ", .quoted value, .lit ": "] e [])
  | .ok a => .ok a

def isAllDigits (s : List Char) : Bool := s ≠ [] && s.all (Json.inRange '0' '9')

/-- A size without a unit is one in bytes. -/
def rawSize (s : List Char) : List Char := if isAllDigits s then s ++ ['B'] else s

/-- The delay of the write-back: the registered one, unless one is given. -/
def writeBackOf (set : Setters) (registered : Int) (value : List Char) : Except Err Int :=
  if value = [] then .ok registered
  else do
    let wb ← setField "vfs_write_back" value set.duration value
    if wb ≤ 0 then
      .error (.text [.lit "vfs_write_back ", .quoted value, .lit ": must be a positive duration"])
    else .ok wb

def buildVFSOptions (set : Setters) (registered : VfsOptions) (m : Mount) (readOnly : Bool) :
    Except Err VfsOptions := do
  let mode ← setField "vfs_cache_mode" m.vfsCacheMode set.cacheMode m.vfsCacheMode
  let size ← setField "vfs_cache_max_size" m.vfsCacheMaxSize set.sizeSuffix
    (rawSize m.vfsCacheMaxSize)
  let seconds := m.cacheDurationS.getD 0
  let wb ← writeBackOf set registered.writeBack m.vfsWriteBack
  let dirPerms ← setField "dir_perms" m.dirPerms set.fileMode m.dirPerms
  let filePerms ← setField "file_perms" m.filePerms set.fileMode m.filePerms
  return { registered with
    cacheMode := mode
    cacheMaxSize := size
    dirCacheTime := int64 (seconds * 1000000000)
    writeBack := wb
    dirPerms := dirPerms
    filePerms := filePerms
    umask := 0
    readOnly := readOnly }

/-! ## what is declared -/

/-- The bytes of a unit. -/
def unitBytes : Char → Option Nat
  | 'B' => some 1
  | 'K' => some 1024
  | 'M' => some 1048576
  | 'G' => some 1073741824
  | 'T' => some 1099511627776
  | _ => none

/-- The number of bytes a size declares. -/
def declaredBytes (s : List Char) : Nat :=
  match s.getLast?.bind unitBytes with
  | some factor => Json.Number.digitsVal s.dropLast * factor
  | none => Json.Number.digitsVal s

/-- rclone's `SizeSuffix.Set` on a number with a unit: exact, or an error. -/
def ReadsSizes (set : List Char → Except Err Int) : Prop :=
  ∀ ds u factor n, isAllDigits ds = true → unitBytes u = some factor → set (ds ++ [u]) = .ok n →
    n = (Json.Number.digitsVal ds * factor : Nat)

/-- The options say what the mount declares, if there are options at all. -/
def Faithful (m : Mount) (res : Except Err VfsOptions) : Prop :=
  ∀ opt, res = .ok opt →
    (∃ d, m.cacheDurationS = some d ∧ opt.dirCacheTime = d * 1000000000) ∧
    opt.cacheMaxSize = declaredBytes m.vfsCacheMaxSize ∧
    (m.vfsWriteBack ≠ [] → 0 < opt.writeBack)

/-- No text of the mount is refused by the methods. -/
structure Parses (set : Setters) (m : Mount) : Prop where
  cacheMode : ∃ mode, set.cacheMode m.vfsCacheMode = .ok mode
  sizeSuffix : ∃ n, set.sizeSuffix (rawSize m.vfsCacheMaxSize) = .ok n
  writeBack : m.vfsWriteBack ≠ [] → ∃ wb, set.duration m.vfsWriteBack = .ok wb ∧ 0 < wb
  dirPerms : ∃ mode, set.fileMode m.dirPerms = .ok mode
  filePerms : ∃ mode, set.fileMode m.filePerms = .ok mode

/-! ## sizes -/

/-- Digits only, and at least one of them. -/
theorem isAllDigits_iff {s : List Char} :
    isAllDigits s = true ↔ s ≠ [] ∧ ∀ c ∈ s, Json.inRange '0' '9' c = true := by
  simp [isAllDigits]

theorem unitBytes_of_digit {c : Char} (h : Json.inRange '0' '9' c = true) : unitBytes c = none := by
  unfold unitBytes
  split
  iterate 5 exact absurd h (by decide)
  rfl

/-- A bare number is a number of bytes. -/
theorem declaredBytes_digits {ds : List Char} (h : isAllDigits ds = true) :
    declaredBytes ds = Json.Number.digitsVal ds := by
  obtain ⟨hne, hds⟩ := isAllDigits_iff.mp h
  have hlast : unitBytes (ds.getLast hne) = none :=
    unitBytes_of_digit (hds _ (List.getLast_mem hne))
  simp [declaredBytes, List.getLast?_eq_some_getLast hne, hlast]

/-- A suffixed number is multiplied by its unit. -/
theorem declaredBytes_unit (ds : List Char) {u : Char} {factor : Nat}
    (h : unitBytes u = some factor) :
    declaredBytes (ds ++ [u]) = Json.Number.digitsVal ds * factor := by
  simp [declaredBytes, h]

/-- The sizes the loader accepts. -/
theorem byteSize_cases {s : List Char} (h : byteSizeRe.test s = true) :
    isAllDigits s = true ∨
      ∃ ds u factor, s = ds ++ [u] ∧ isAllDigits ds = true ∧ unitBytes u = some factor := by
  obtain ⟨ds, unit, rfl, hds, hunit⟩ := Regex.matches_seq.mp (Regex.test_iff.mp h)
  have hdigits : isAllDigits ds = true := isAllDigits_iff.mpr (Regex.matches_plus_cls.mp hds)
  simp only [Regex.opt, Regex.matches_alt, Regex.matches_lit, Regex.matches_eps] at hunit
  rcases hunit with (rfl | rfl | rfl | rfl | rfl) | rfl
  iterate 5 exact Or.inr ⟨ds, _, _, rfl, hdigits, rfl⟩
  rw [List.append_nil]
  exact Or.inl hdigits

/-- A size that is read is the one declared. -/
theorem rawSize_exact {set : List Char → Except Err Int} (hset : ReadsSizes set) {s : List Char}
    (hs : byteSizeRe.test s = true) {n : Int} (hn : set (rawSize s) = .ok n) :
    n = declaredBytes s := by
  rcases byteSize_cases hs with hdigits | ⟨ds, u, factor, rfl, hdigits, hu⟩
  · rw [rawSize, if_pos hdigits] at hn
    rw [hset s 'B' 1 n hdigits rfl hn, Nat.mul_one, declaredBytes_digits hdigits]
  · have hnot : ¬ isAllDigits (ds ++ [u]) = true := by
      intro h
      have := unitBytes_of_digit ((isAllDigits_iff.mp h).2 u (by simp))
      rw [hu] at this
      cases this
    rw [rawSize, if_neg hnot] at hn
    rw [hset ds u factor n hdigits hu hn, declaredBytes_unit ds hu]

/-! ## the options of a mount -/

/-- Naming the field in its error changes no value. -/
theorem setField_ok_iff {α : Type} {field : String} {value raw : List Char}
    {set : List Char → Except Err α} {a : α} :
    setField field value set raw = .ok a ↔ set raw = .ok a := by
  unfold setField
  cases set raw <;> simp

/-- An empty write-back keeps the registered default; any other must be
positive. -/
theorem writeBackOf_ok_iff {set : Setters} {registered wb : Int} {value : List Char} :
    writeBackOf set registered value = .ok wb ↔
      if value = [] then wb = registered else set.duration value = .ok wb ∧ 0 < wb := by
  unfold writeBackOf
  split
  · simp [eq_comm]
  · simp only [bind_ok_iff, setField_ok_iff, guard_ok_iff, Except.ok.injEq]
    constructor
    · rintro ⟨_, hwb, hpos, rfl⟩
      exact ⟨hwb, by omega⟩
    · rintro ⟨hwb, hpos⟩
      exact ⟨wb, hwb, by omega, rfl⟩

section Build

variable {set : Setters} {registered : VfsOptions} {m : Mount} {readOnly : Bool}

/-- What the options of a mount are. -/
theorem buildVFSOptions_ok_iff {opt : VfsOptions} :
    buildVFSOptions set registered m readOnly = .ok opt ↔
      ∃ mode size wb dirPerms filePerms,
        set.cacheMode m.vfsCacheMode = .ok mode ∧
        set.sizeSuffix (rawSize m.vfsCacheMaxSize) = .ok size ∧
        writeBackOf set registered.writeBack m.vfsWriteBack = .ok wb ∧
        set.fileMode m.dirPerms = .ok dirPerms ∧ set.fileMode m.filePerms = .ok filePerms ∧
        opt = ⟨mode, size, int64 (m.cacheDurationS.getD 0 * 1000000000), wb, dirPerms, filePerms,
          0, readOnly⟩ := by
  simp only [buildVFSOptions, bind_ok_iff, setField_ok_iff, pure, Except.pure, Except.ok.injEq]
  constructor
  · rintro ⟨mode, hmode, size, hsize, wb, hwb, dp, hdp, fp, hfp, rfl⟩
    exact ⟨mode, size, wb, dp, fp, hmode, hsize, hwb, hdp, hfp, rfl⟩
  · rintro ⟨mode, size, wb, dp, fp, hmode, hsize, hwb, hdp, hfp, rfl⟩
    exact ⟨mode, hmode, size, hsize, wb, hwb, dp, hdp, fp, hfp, rfl⟩

/-- The options are refused exactly when a text is. -/
theorem exists_buildVFSOptions_iff :
    (∃ opt, buildVFSOptions set registered m readOnly = .ok opt) ↔ Parses set m := by
  simp only [buildVFSOptions_ok_iff, writeBackOf_ok_iff]
  constructor
  · rintro ⟨opt, mode, size, wb, dp, fp, hmode, hsize, hwb, hdp, hfp, -⟩
    refine ⟨⟨mode, hmode⟩, ⟨size, hsize⟩, fun hne => ⟨wb, ?_⟩, ⟨dp, hdp⟩, ⟨fp, hfp⟩⟩
    rwa [if_neg hne] at hwb
  · rintro ⟨⟨mode, hmode⟩, ⟨size, hsize⟩, hwb, ⟨dp, hdp⟩, ⟨fp, hfp⟩⟩
    by_cases h : m.vfsWriteBack = []
    · exact ⟨_, mode, size, registered.writeBack, dp, fp, hmode, hsize, by rw [if_pos h], hdp, hfp,
        rfl⟩
    · obtain ⟨wb, hwb⟩ := hwb h
      exact ⟨_, mode, size, wb, dp, fp, hmode, hsize, by rwa [if_neg h], hdp, hfp, rfl⟩

end Build

/-- **Faithful cache options**: the options of an accepted mount, if there are
any, say what it declares exactly when its cache duration in nanoseconds is an
`int64`, or there are none. -/
theorem buildVFSOptions_faithful_iff {parseRequestURI : List Char → Bool} {raw : List UInt8}
    {cfg : Config} (hload : loadBytes parseRequestURI raw = .ok cfg) {mounts : Slice Mount}
    (hmounts : cfg.mounts = some mounts) {m : Mount} (hm : m ∈ mounts.elems) {set : Setters}
    (hset : ReadsSizes set.sizeSuffix) (registered : VfsOptions) (readOnly : Bool) :
    Faithful m (buildVFSOptions set registered m readOnly) ↔
      (Parses set m → ∃ d, m.cacheDurationS = some d ∧ d ≤ 9223372036) := by
  obtain ⟨s, hs, hrules⟩ := (loadBytes_ok_iff.mp hload).2.mounts
  rw [hmounts] at hs
  cases hs
  obtain ⟨d, hd, hpos⟩ := (hrules m hm).cacheDurationS
  constructor
  · intro hfaithful hparses
    obtain ⟨opt, hopt⟩ := exists_buildVFSOptions_iff.mpr hparses
    obtain ⟨⟨d', hd', htime⟩, -⟩ := hfaithful opt hopt
    obtain ⟨mode, size, wb, dp, fp, -, -, -, -, -, rfl⟩ := buildVFSOptions_ok_iff.mp hopt
    cases hd.symm.trans hd'
    refine ⟨d, hd, Decidable.byContradiction fun hgt => ?_⟩
    -- beyond this the product is above the range, which the wrapped one is not
    refine int64_ne_of_gt (x := d * 1000000000) ?_ (by simpa [hd] using htime)
    unfold maxInt64
    omega
  · intro hbound opt hopt
    obtain ⟨d', hd', hle⟩ := hbound (exists_buildVFSOptions_iff.mp ⟨opt, hopt⟩)
    cases hd.symm.trans hd'
    obtain ⟨mode, size, wb, dp, fp, -, hsize, hwb, -, -, rfl⟩ := buildVFSOptions_ok_iff.mp hopt
    refine ⟨⟨d, hd, ?_⟩, rawSize_exact hset (hrules m hm).vfsCacheMaxSize hsize, fun hne => ?_⟩
    · rw [hd, Option.getD_some]
      refine int64_of_range ?_ ?_ <;> unfold maxInt64 <;> omega
    · have := writeBackOf_ok_iff.mp hwb
      rw [if_neg hne] at this
      exact this.2

/-! ## two durations -/

/-- A reading of sizes: a bare number is one in KiB, and what is too large is
refused. -/
def readSize (s : List Char) : Except Err Int :=
  let (digits, factor) :=
    match s.getLast?.bind unitBytes with
    | some factor => (s.dropLast, factor)
    | none => (s, 1024)
  if ¬ isAllDigits digits then .error (.text [.lit "bad suffix"])
  else if maxInt64 < (Json.Number.digitsVal digits * factor : Nat) then
    .error (.text [.lit "value out of range"])
  else .ok (Json.Number.digitsVal digits * factor : Nat)

/-- It reads what the suffixed sizes say. -/
theorem readsSizes_readSize : ReadsSizes readSize := by
  intro ds u factor n hds hu hn
  simp only [readSize, List.getLast?_concat, Option.bind_some, hu, List.dropLast_concat,
    guard_ok_iff, Except.ok.injEq] at hn
  exact hn.2.2.symm

def plainSetters : Setters where
  cacheMode s := if s = "off".toList then .ok .off else .error (.text [.lit "unknown cache mode"])
  sizeSuffix := readSize
  duration s :=
    if s = "1s".toList then .ok 1000000000 else .error (.text [.lit "parse error"])
  fileMode s := .ok (s.foldl (fun n c => 8 * n + (c.toNat - '0'.toNat)) 0)

def registeredOptions : VfsOptions :=
  ⟨.off, -1, 300000000000, 5000000000, 511, 438, 18, false⟩

/-- A config whose one mount has this cache duration. -/
def cachedDocument (seconds : String) : List UInt8 :=
  ("\x7b\"schema_version\":\"v1\",\"service_url\":\"https://h\",".toList ++
    "\"ca_cert_pem\":\"pem\",\"mounts\":[\x7b\"destination\":\"/a\",".toList ++
    "\"auth_token\":\"t\",\"filesystem_id\":\"f\",\"readonly\":true,".toList ++
    "\"vfs_cache_mode\":\"off\",\"vfs_cache_max_size\":\"2048\",".toList ++
    "\"dir_perms\":\"0755\",\"file_perms\":\"0644\",\"vfs_write_back\":\"1s\",".toList ++
    "\"cache_duration_s\":".toList ++ seconds.toList ++ "\x7d]\x7d".toList).map
    fun c => UInt8.ofNat c.toNat

def cachedMount (d : Int) : Mount where
  destination := "/a".toList
  authToken := "t".toList
  filesystemID := some "f".toList
  memoryStoreID := none
  readonly := some true
  vfsCacheMode := "off".toList
  cacheDurationS := some d
  vfsCacheMaxSize := "2048".toList
  dirPerms := "0755".toList
  filePerms := "0644".toList
  vfsWriteBack := "1s".toList

def cachedConfig (d : Int) : Config :=
  ⟨"v1".toList, "https://h".toList, "pem".toList, some ⟨[cachedMount d], []⟩, none⟩

theorem loadBytes_cached :
    (loadBytes (· == "https://h".toList) (cachedDocument "9223372036")).toOption =
        some (cachedConfig 9223372036) ∧
      (loadBytes (· == "https://h".toList) (cachedDocument "9223372037")).toOption =
        some (cachedConfig 9223372037) := by
  decide +kernel

/-- The largest duration that is kept. -/
theorem buildVFSOptions_faithful_largest :
    Faithful (cachedMount 9223372036)
      (buildVFSOptions plainSetters registeredOptions (cachedMount 9223372036) true) :=
  (buildVFSOptions_faithful_iff (ok_of_toOption loadBytes_cached.1) rfl
    (List.mem_singleton.mpr rfl) readsSizes_readSize registeredOptions true).mpr
    fun _ => ⟨_, rfl, by decide⟩

/-- The options of the duration that is one second longer. -/
def wrappedOptions : VfsOptions :=
  ⟨.off, 2048, -9223372036709551616, 1000000000, 493, 420, 0, true⟩

/-- It is accepted by the loader, and comes out as a negative time. -/
theorem dirCacheTime_wraps :
    loadBytes (· == "https://h".toList) (cachedDocument "9223372037") =
        .ok (cachedConfig 9223372037) ∧
      buildVFSOptions plainSetters registeredOptions (cachedMount 9223372037) true =
        .ok wrappedOptions ∧
      ¬ Faithful (cachedMount 9223372037)
        (buildVFSOptions plainSetters registeredOptions (cachedMount 9223372037) true) := by
  have hbuild : buildVFSOptions plainSetters registeredOptions (cachedMount 9223372037) true =
      .ok wrappedOptions := ok_of_toOption (by decide +kernel)
  refine ⟨ok_of_toOption loadBytes_cached.2, hbuild, fun h => ?_⟩
  obtain ⟨⟨d, hd, htime⟩, -⟩ := h _ hbuild
  cases hd
  exact absurd htime (by decide)

end OcuFilestore.Mounter
