import OcuFilestore.Mountcfg.Decode
import OcuFilestore.Mounter.Orchestrator

/-!
# OcuFilestore.Mounter.Specs

What `buildSpecs` makes of a loaded config.  There is one spec per mount, and
the loop compares each cleaned destination with all before it, so what it
tests of two of them holds pairwise (`buildSpecsFrom_ok`).

The test for nesting is a text prefix up to a separator.  It finds every
ancestor but the root: a mount whose destination cleans to `/` is accepted
beside mounts below it.
-/

namespace OcuFilestore.Mounter

open Mountcfg SlashPath

/-- The mounter of the entrypoint (`internal/mounter/mounter.go`). -/
structure OrchestratorMounter where
  /-- Whether `newSeam` is set. -/
  newSeam : Bool
  readyFilePath : Path
  /-- Whether a signal channel is injected. -/
  signals : Bool
  deriving DecidableEq, Repr

/-- The orchestrator that `Mount` runs; the transport values are the
config's. -/
def OrchestratorMounter.orchestrator (m : OrchestratorMounter) (cfg : Config) : Orchestrator where
  seam := false
  newSeam := m.newSeam
  readyFilePath := m.readyFilePath
  signals := m.signals
  serviceURL := cfg.serviceURL
  caCertPEM := cfg.caCertPEM

/-- The spec of a mount. -/
def Orchestrator.specOf (o : Orchestrator) (m : Mount) : MountSpec :=
  ⟨m, m.readonly = some true, o.serviceURL, o.caCertPEM⟩

/-- Where a spec mounts. -/
def MountSpec.cleaned (spec : MountSpec) : Path := clean spec.mount.destination

/-! ## the loop -/

/-- What the loop tests of a destination and an earlier one. -/
def Apart (prior cleaned : Path) : Prop := prior ≠ cleaned ∧ nested cleaned prior = false

section Loop

variable {visit : List Path → List Path} {o : Orchestrator}

/-- One round of a loop that succeeds. -/
theorem buildSpecsFrom_cons {seen : List Path} {m : Mount} {ms : List Mount}
    {specs : List MountSpec} (hvisit : ∀ l, (visit l).Perm l)
    (h : o.buildSpecsFrom visit seen (m :: ms) = .ok specs) :
    m.memoryStoreID = none ∧ (∀ prior ∈ seen, Apart prior (clean m.destination)) ∧
      ∃ rest, o.buildSpecsFrom visit (seen ++ [clean m.destination]) ms = .ok rest ∧
        specs = o.specOf m :: rest := by
  rw [Orchestrator.buildSpecsFrom] at h
  split at h
  · cases h
  · next hmem =>
      split at h
      · cases h
      · next hseen =>
          split at h
          · cases h
          · next hfind =>
              split at h
              · cases h
              · next rest hrest =>
                  refine ⟨by simpa using hmem, fun prior hp => ⟨?_, ?_⟩, rest, hrest,
                    (Except.ok.inj h).symm⟩
                  · rintro rfl
                    exact hseen hp
                  · have := List.find?_eq_none.mp hfind prior ((hvisit seen).mem_iff.mpr hp)
                    simpa using this

/-- A loop that succeeds makes one spec per mount, and has found every two
destinations apart. -/
theorem buildSpecsFrom_ok {seen : List Path} {ms : List Mount} {specs : List MountSpec}
    (hvisit : ∀ l, (visit l).Perm l) (h : o.buildSpecsFrom visit seen ms = .ok specs) :
    specs = ms.map o.specOf ∧ (∀ m ∈ ms, m.memoryStoreID = none) ∧
      (∀ m ∈ ms, ∀ prior ∈ seen, Apart prior (clean m.destination)) ∧
      ms.Pairwise fun a b => Apart (clean a.destination) (clean b.destination) := by
  induction ms generalizing seen specs with
  | nil =>
      rw [Orchestrator.buildSpecsFrom] at h
      simp [← Except.ok.inj h]
  | cons m ms ih =>
      obtain ⟨hmem, hseen, rest, hrest, rfl⟩ := buildSpecsFrom_cons hvisit h
      obtain ⟨rfl, hmems, hseens, hpair⟩ := ih hrest
      refine ⟨rfl, List.forall_mem_cons.mpr ⟨hmem, hmems⟩, List.forall_mem_cons.mpr ⟨hseen, ?_⟩,
        List.pairwise_cons.mpr ⟨?_, hpair⟩⟩
      · exact fun b hb prior hp => hseens b hb prior (List.mem_append_left _ hp)
      · exact fun b hb => hseens b hb _ (List.mem_append_right _ List.mem_cons_self)

end Loop

/-! ## loaded destinations -/

/-- A destination that passes its pattern is rooted. -/
theorem exists_clean_of_destinationRe {d : Path} (h : destinationRe.test d = true) :
    ∃ ts : List Path, (∀ s ∈ ts, Plain s) ∧ clean d = fromRoot ts := by
  obtain ⟨c, rest, rfl, hc, -⟩ := Regex.matches_seq_cls.mp (Regex.test_iff.mp h)
  obtain rfl : c = '/' := by simpa using hc
  exact exists_clean_sep rest

/-- A destination and an earlier one that the loop found apart: neither is an
ancestor of the other, unless one of them is the root. -/
theorem not_ancestor_of_apart {ts us : List Path} (ht : ∀ s ∈ ts, Plain s) (hu : ∀ s ∈ us, Plain s)
    (ht0 : ts ≠ []) (hu0 : us ≠ []) (h : Apart (fromRoot ts) (fromRoot us)) :
    ¬ Ancestor (fromRoot ts) (fromRoot us) ∧ ¬ Ancestor (fromRoot us) (fromRoot ts) := by
  have hn := h.2
  simp only [nested, Bool.or_eq_false_iff, decide_eq_false_iff_not] at hn
  exact ⟨fun ha => hn.1 ((sep_prefix_iff_ancestor ht hu ht0).mpr ha),
    fun ha => hn.2 ((sep_prefix_iff_ancestor hu ht hu0).mpr ha)⟩

/-- A path below the root has names. -/
theorem fromRoot_ne_root {ts : List Path} (ht : ∀ s ∈ ts, Plain s) :
    fromRoot ts ≠ ['/'] ↔ ts ≠ [] :=
  not_congr ⟨fun h => fromRoot_injective ht (by simp) (h.trans rfl), fun h => h ▸ rfl⟩

/-- Neither of two mount points is above the other. -/
def Unnested (a b : MountSpec) : Prop :=
  ¬ Ancestor a.cleaned b.cleaned ∧ ¬ Ancestor b.cleaned a.cleaned

/-- A mount at the root is above any that is not. -/
theorem not_unnested_of_root {r x : MountSpec} (hr : r.cleaned = ['/']) {us : List Path}
    (hus : ∀ s ∈ us, Plain s) (hx : x.cleaned = fromRoot us) (hne : x.cleaned ≠ r.cleaned) :
    Ancestor r.cleaned x.cleaned := by
  rw [hr, hx, fromRoot_ne_root hus] at hne
  rw [hr, hx]
  exact root_ancestor hus hne

/-- Specs that are pairwise apart are pairwise unnested exactly when none of
several mounts is at the root. -/
theorem pairwise_unnested_iff {specs : List MountSpec}
    (hrooted : ∀ spec ∈ specs, ∃ ts : List Path, (∀ s ∈ ts, Plain s) ∧ spec.cleaned = fromRoot ts)
    (hapart : specs.Pairwise fun a b => Apart a.cleaned b.cleaned) :
    specs.Pairwise Unnested ↔ specs.length ≤ 1 ∨ ∀ spec ∈ specs, spec.cleaned ≠ ['/'] := by
  constructor
  · intro h
    by_cases hlen : specs.length ≤ 1
    · exact Or.inl hlen
    refine Or.inr fun r hr hroot => ?_
    obtain ⟨l₁, l₂, rfl⟩ := List.append_of_mem hr
    obtain ⟨-, hr₂, hr₁⟩ := List.pairwise_append.mp (h.and hapart)
    -- another mount, before the root or after it
    obtain ⟨x, hx⟩ : ∃ x, x ∈ l₁ ∨ x ∈ l₂ := by
      rcases l₁ with _ | ⟨x, l₁⟩
      · rcases l₂ with _ | ⟨x, l₂⟩
        · simp at hlen
        · exact ⟨x, Or.inr List.mem_cons_self⟩
      · exact ⟨x, Or.inl List.mem_cons_self⟩
    obtain ⟨us, hus, hxus⟩ := hrooted x (by grind)
    rcases hx with hx | hx
    · obtain ⟨hun, hap⟩ := hr₁ x hx r List.mem_cons_self
      exact hun.2 (not_unnested_of_root hroot hus hxus hap.1)
    · obtain ⟨hun, hap⟩ := (List.pairwise_cons.mp hr₂).1 x hx
      exact hun.1 (not_unnested_of_root hroot hus hxus hap.1.symm)
  · rintro (hlen | hroot)
    · rcases specs with _ | ⟨a, _ | ⟨b, specs⟩⟩
      · exact .nil
      · exact List.pairwise_singleton ..
      · simp at hlen
    · refine hapart.imp_of_mem fun {a b} ha hb hab => ?_
      obtain ⟨ts, hts, hats⟩ := hrooted a ha
      obtain ⟨us, hus, hbus⟩ := hrooted b hb
      have hta := hroot a ha
      have hub := hroot b hb
      rw [hats, fromRoot_ne_root hts] at hta
      rw [hbus, fromRoot_ne_root hus] at hub
      rw [hats, hbus] at hab
      rw [Unnested, hats, hbus]
      exact not_ancestor_of_apart hts hus hta hub hab

/-- **Destination disjointness**: of a loaded config, a `buildSpecs` that
succeeds makes one spec per mount, in order, with its posture and the config's
transport values and none for a memory store.  The cleaned destinations are
pairwise distinct; they are pairwise unnested exactly when none of several
mounts cleans to the root. -/
theorem buildSpecs_disjoint (parseRequestURI : List Char → Bool)
    (readFile : Path → Except Err (List UInt8)) (path : Path) (cfg : Config)
    (hload : load parseRequestURI readFile path = .ok cfg) (visit : List Path → List Path)
    (hvisit : ∀ l, (visit l).Perm l) (m : OrchestratorMounter) (specs : List MountSpec)
    (h : (m.orchestrator cfg).buildSpecs visit cfg = .ok specs) :
    (∃ s, cfg.mounts = some s ∧ specs.map MountSpec.mount = s.elems) ∧
    (∀ spec ∈ specs, spec.mount.readonly = some spec.readOnly ∧ spec.serviceURL = cfg.serviceURL ∧
      spec.caCertPEM = cfg.caCertPEM ∧ spec.mount.memoryStoreID = none) ∧
    (specs.map MountSpec.cleaned).Nodup ∧
    (specs.Pairwise Unnested ↔
      specs.length ≤ 1 ∨ ∀ spec ∈ specs, spec.cleaned ≠ ['/']) := by
  obtain ⟨raw, hraw⟩ : ∃ raw, loadBytes parseRequestURI raw = .ok cfg := by
    unfold load at hload
    split at hload
    · cases hload
    · exact ⟨_, hload⟩
  obtain ⟨s, hs, hrules⟩ := (loadBytes_ok_iff.mp hraw).2.mounts
  rw [Orchestrator.buildSpecs, hs] at h
  obtain ⟨rfl, hmem, -, hpair⟩ := buildSpecsFrom_ok hvisit h
  have hapart : (s.elems.map (m.orchestrator cfg).specOf).Pairwise
      fun a b => Apart a.cleaned b.cleaned := List.pairwise_map.mpr hpair
  have hrooted : ∀ spec ∈ s.elems.map (m.orchestrator cfg).specOf,
      ∃ ts : List Path, (∀ s ∈ ts, Plain s) ∧ spec.cleaned = fromRoot ts := by
    intro spec hspec
    obtain ⟨mt, hmt, rfl⟩ := List.mem_map.mp hspec
    exact exists_clean_of_destinationRe (hrules mt hmt).destination
  refine ⟨⟨s, hs, by simp [Function.comp_def, Orchestrator.specOf]⟩, ?_, ?_,
    pairwise_unnested_iff hrooted hapart⟩
  · intro spec hspec
    obtain ⟨mt, hmt, rfl⟩ := List.mem_map.mp hspec
    refine ⟨?_, rfl, rfl, hmem mt hmt⟩
    have hro := (hrules mt hmt).readonly
    rcases hval : mt.readonly with _ | _ | _
    · exact absurd hval hro
    · simp [Orchestrator.specOf, hval]
    · simp [Orchestrator.specOf, hval]
  · exact List.pairwise_map.mpr (hapart.imp And.left)

/-- The document of a mount. -/
def mountText (destination : String) : List Char :=
  "\x7b\"destination\":\"".toList ++ destination.toList ++
    "\",\"auth_token\":\"t\",\"filesystem_id\":\"f\",\"readonly\":true,".toList ++
    "\"vfs_cache_mode\":\"off\",\"cache_duration_s\":0,\"vfs_cache_max_size\":\"1G\",".toList ++
    "\"dir_perms\":\"0755\",\"file_perms\":\"0644\"\x7d".toList

/-- A document with two mounts. -/
def twoMountsDocument (a b : String) : List UInt8 :=
  ("\x7b\"schema_version\":\"v1\",\"service_url\":\"https://h\",".toList ++
    "\"ca_cert_pem\":\"pem\",\"mounts\":[".toList ++ mountText a ++ [','] ++ mountText b ++
    "]\x7d".toList).map fun c => UInt8.ofNat c.toNat

def readonlyMount (destination : String) : Mount where
  destination := destination.toList
  authToken := "t".toList
  filesystemID := some "f".toList
  memoryStoreID := none
  readonly := some true
  vfsCacheMode := "off".toList
  cacheDurationS := some 0
  vfsCacheMaxSize := "1G".toList
  dirPerms := "0755".toList
  filePerms := "0644".toList
  vfsWriteBack := []

def twoMountsConfig (a b : String) : Config where
  schemaVersion := "v1".toList
  serviceURL := "https://h".toList
  caCertPEM := "pem".toList
  mounts := some ⟨[readonlyMount a, readonlyMount b], []⟩
  backendCacheTTL := none

/-- The loader's verdicts, computed. -/
theorem loadBytes_twoMounts :
    (loadBytes (· == "https://h".toList) (twoMountsDocument "/a" "/b")).toOption =
        some (twoMountsConfig "/a" "/b") ∧
      (loadBytes (· == "https://h".toList) (twoMountsDocument "/." "/mnt")).toOption =
        some (twoMountsConfig "/." "/mnt") := by
  decide +kernel

theorem load_twoMounts :
    load (· == "https://h".toList) (fun _ => .ok (twoMountsDocument "/a" "/b")) [] =
        .ok (twoMountsConfig "/a" "/b") ∧
      load (· == "https://h".toList) (fun _ => .ok (twoMountsDocument "/." "/mnt")) [] =
        .ok (twoMountsConfig "/." "/mnt") :=
  ⟨ok_of_toOption loadBytes_twoMounts.1, ok_of_toOption loadBytes_twoMounts.2⟩

def bareMounter : OrchestratorMounter := ⟨true, [], true⟩

theorem buildSpecs_disjoint_two :
    ∃ specs, (bareMounter.orchestrator (twoMountsConfig "/a" "/b")).buildSpecs id
        (twoMountsConfig "/a" "/b") = .ok specs ∧ specs.length = 2 ∧ specs.Pairwise Unnested := by
  refine ⟨_, rfl, rfl, ?_⟩
  exact (buildSpecs_disjoint _ _ _ _ load_twoMounts.1 id
    (fun _ => .refl _) bareMounter _ rfl).2.2.2.mpr (Or.inr (by decide))

/-- A mount at `/.` is accepted beside one at `/mnt`, which it is above. -/
theorem root_mount_above_another :
    load (· == "https://h".toList) (fun _ => .ok (twoMountsDocument "/." "/mnt")) [] =
        .ok (twoMountsConfig "/." "/mnt") ∧
      ∃ a b, (bareMounter.orchestrator (twoMountsConfig "/." "/mnt")).buildSpecs id
        (twoMountsConfig "/." "/mnt") = .ok [a, b] ∧ Ancestor a.cleaned b.cleaned := by
  refine ⟨load_twoMounts.2, _, _, rfl, [], ["mnt".toList], ?_, ?_, ?_, ?_⟩
  · decide
  · decide
  · decide
  · decide

end OcuFilestore.Mounter
