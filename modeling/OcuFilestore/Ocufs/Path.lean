import OcuFilestore.Brokerrpc.Client

/-!
# OcuFilestore.Ocufs.Path

The path codec of the backend (`backend/ocufs/ocufs.go`): `absPath` maps an
rclone remote to the path the broker addresses, `immediateChildRemote` maps a
listing entry back to a remote and filters a recursive listing to depth one.

Paths meet the codec as lists of names.  For an encoder that works segment
by segment, `absPath` of a remote is the rooted path of its encoded names
(`absPath_remote`), and the round trip is a statement about name lists.
-/

namespace OcuFilestore.Ocufs

open Brokerrpc SlashPath

/-- rclone's path encoder. -/
structure Encoder where
  fromStandardPath : Path → Path
  toStandardPath : Path → Path

/-- A backend instance.  Two instances are the same one exactly when `ref`,
the pointer, is the same. -/
structure Fs where
  ref : Nat
  root : Path
  client : Client
  readOnly : Bool
  enc : Encoder

/-- A leading slash, and no trailing one except for the root itself. -/
def cleanPath (p : Path) : Path := clean ('/' :: p)

/-- The path the broker addresses for an rclone-relative path. -/
def Fs.absPath (f : Fs) (rel : Path) : Path :=
  let std := if rel ≠ [] then join f.root rel else f.root
  cleanPath (f.enc.fromStandardPath std)

/-- `strings.TrimPrefix`. -/
def trimPrefix (s front : Path) : Path :=
  if front.isPrefixOf s then s.drop front.length else s

/-- The path of the arm an entry carries; the file arm is looked at first. -/
def entryPath (entry : ListDirEntry) : Option Path :=
  match entry.file, entry.directory with
  | some f, _ => some f.path
  | none, some d => some d.path
  | none, none => none

/-- The remote of an entry that is an immediate child of `dir`, whose
`absPath` is `parentPath`. -/
def Fs.immediateChildRemote (f : Fs) (dir parentPath : Path) (entry : ListDirEntry) :
    Option Path :=
  match entryPath entry with
  | none => none
  | some p =>
      let entryPath := cleanPath p
      if entryPath = parentPath then none
      else if !(parentPath ++ ['/']).isPrefixOf entryPath &&
          (parentPath ≠ ['/'] || (trimPrefix entryPath ['/']).count '/' > 0) then none
      else
        let rel := trimPrefix (trimPrefix entryPath parentPath) ['/']
        if '/' ∈ rel then none
        else
          let rel := f.enc.toStandardPath rel
          if dir = [] then some rel else some (join dir rel)

/-! ## outbound paths -/

theorem canonical_cleanPath (p : Path) : Canonical (cleanPath p) := canonical_clean p

/-- Whatever the root, the remote and the encoder, the path that goes out is
canonical. -/
theorem canonical_absPath (f : Fs) (rel : Path) : Canonical (f.absPath rel) :=
  canonical_cleanPath _

/-! ## the codec on names -/

/-- What the codec relies on of an encoder, for the names `Std` that are in
standard encoding. -/
structure Segmentwise (enc : Encoder) (Std : Path → Prop) where
  fromSeg : Path → Path
  toSeg : Path → Path
  fromStandardPath_eq : ∀ p, enc.fromStandardPath p = rel ((segs p).map fromSeg)
  toStandardPath_eq : ∀ p, enc.toStandardPath p = rel ((segs p).map toSeg)
  fromSeg_nil : fromSeg [] = []
  fromSeg_ne_nil : ∀ s, s ≠ [] → fromSeg s ≠ []
  toSeg_ne_nil : ∀ s, s ≠ [] → toSeg s ≠ []
  sep_notMem_fromSeg : ∀ s, Std s → '/' ∉ s → '/' ∉ fromSeg s
  sep_notMem_toSeg : ∀ s, '/' ∉ s → '/' ∉ toSeg s
  fromSeg_ne_dot : ∀ s, Plain s → Std s → fromSeg s ≠ ['.']
  fromSeg_ne_dotdot : ∀ s, Plain s → Std s → fromSeg s ≠ ['.', '.']
  toSeg_fromSeg : ∀ s, Std s → toSeg (fromSeg s) = s

/-- A file name in standard encoding. -/
abbrev Name (Std : Path → Prop) := { s : Path // Plain s ∧ Std s }

variable {Std : Path → Prop}

/-- The clean relative path with these names. -/
def remote (ns : List (Name Std)) : Path := rel (ns.map Subtype.val)

theorem plain_names (ns : List (Name Std)) : ∀ s ∈ ns.map Subtype.val, Plain s := by
  intro s hs
  obtain ⟨n, -, rfl⟩ := List.mem_map.mp hs
  exact n.2.1

/-- Joining remotes joins their names. -/
theorem join_remote (ds ns : List (Name Std)) :
    join (remote ds) (remote ns) = remote (ds ++ ns) := by
  rw [remote, remote, join_rel (plain_names ds) (plain_names ns), remote, List.map_append]

theorem remote_singleton (n : Name Std) : remote [n] = n.1 := by simp [remote, rel]

theorem remote_eq_nil {ns : List (Name Std)} : remote ns = [] ↔ ns = [] := by
  constructor
  · intro h
    by_cases hns : ns = []
    · exact hns
    · exact absurd h (rel_ne_nil (mt List.map_eq_nil_iff.mp hns) (plain_names ns))
  · rintro rfl
    rfl

namespace Segmentwise

variable {enc : Encoder} (E : Segmentwise enc Std)

/-- The names as they go over the wire. -/
def wire (ns : List (Name Std)) : List Path := ns.map fun n => E.fromSeg n.1

theorem plain_fromSeg (n : Name Std) : Plain (E.fromSeg n.1) :=
  ⟨E.fromSeg_ne_nil _ n.2.1.ne_nil, E.fromSeg_ne_dot _ n.2.1 n.2.2,
    E.fromSeg_ne_dotdot _ n.2.1 n.2.2, E.sep_notMem_fromSeg _ n.2.2 n.2.1.sep_notMem⟩

/-- The names on the wire are plain. -/
theorem plain_wire (ns : List (Name Std)) : ∀ s ∈ E.wire ns, Plain s := by
  intro s hs
  obtain ⟨n, -, rfl⟩ := List.mem_map.mp hs
  exact E.plain_fromSeg n

/-- Different names go out as different names. -/
theorem wire_injective {ns ms : List (Name Std)} (h : E.wire ns = E.wire ms) : ns = ms := by
  refine (List.map_inj_right fun n m hnm => Subtype.ext ?_).mp h
  calc n.1 = E.toSeg (E.fromSeg n.1) := (E.toSeg_fromSeg _ n.2.2).symm
    _ = E.toSeg (E.fromSeg m.1) := congrArg E.toSeg hnm
    _ = m.1 := E.toSeg_fromSeg _ m.2.2

/-- A remote is encoded name by name. -/
theorem fromStandardPath_remote (ns : List (Name Std)) :
    enc.fromStandardPath (remote ns) = rel (E.wire ns) := by
  rw [E.fromStandardPath_eq]
  by_cases hns : ns = []
  · simp [hns, remote, segs, E.fromSeg_nil, wire, rel]
  · rw [remote, segs_rel (mt List.map_eq_nil_iff.mp hns) fun s hs =>
      (plain_names ns s hs).sep_notMem, List.map_map]
    rfl

theorem fromStandardPath_sep_remote (ns : List (Name Std)) :
    enc.fromStandardPath ('/' :: remote ns) = fromRoot (E.wire ns) := by
  have h := E.fromStandardPath_remote ns
  rw [E.fromStandardPath_eq] at h ⊢
  rw [show segs ('/' :: remote ns) = [] :: segs (remote ns) from segs_sep_cons _, List.map_cons,
    E.fromSeg_nil, fromRoot, ← h]
  have hne : (segs (remote ns)).map E.fromSeg ≠ [] := by
    simp [segs, List.splitOn_ne_nil]
  rw [rel, List.intercalate_cons_of_ne_nil hne]
  rfl

end Segmentwise

/-- A root that is empty or a clean path, relative or rooted, of these names. -/
def Fs.RootOf (f : Fs) (rs : List (Name Std)) : Prop :=
  f.root = remote rs ∨ f.root = '/' :: remote rs

section Codec

variable {f : Fs} (E : Segmentwise f.enc Std) {rs : List (Name Std)}

/-- On remotes `absPath` is the rooted path of the encoded names of the root
and the remote. -/
theorem absPath_remote (hroot : f.RootOf rs) (ds : List (Name Std)) :
    f.absPath (remote ds) = fromRoot (E.wire (rs ++ ds)) := by
  have hp := E.plain_wire (rs ++ ds)
  rcases hroot with hroot | hroot
  · have hstd : (if remote ds ≠ [] then join f.root (remote ds) else f.root)
        = remote (rs ++ ds) := by
      rw [hroot]
      split
      · exact join_remote rs ds
      · next h => rw [remote_eq_nil.mp (Decidable.not_not.mp h), List.append_nil]
    rw [Fs.absPath, hstd, E.fromStandardPath_remote]
    exact clean_fromRoot hp
  · have hstd : (if remote ds ≠ [] then join f.root (remote ds) else f.root)
        = '/' :: remote (rs ++ ds) := by
      rw [hroot]
      split
      · next h =>
          have hds : ds.map Subtype.val ≠ [] :=
            fun h0 => h (remote_eq_nil.mpr (List.map_eq_nil_iff.mp h0))
          have hj := join_fromRoot (plain_names rs) (plain_names ds) hds
          rw [← List.map_append] at hj
          exact hj
      · next h => rw [remote_eq_nil.mp (Decidable.not_not.mp h), List.append_nil]
    rw [Fs.absPath, hstd, E.fromStandardPath_sep_remote]
    exact clean_sep_fromRoot hp

include E in
/-- Distinct remotes have distinct wire paths. -/
theorem absPath_injective (hroot : f.RootOf rs) {ds es : List (Name Std)}
    (h : f.absPath (remote ds) = f.absPath (remote es)) : ds = es := by
  rw [absPath_remote E hroot, absPath_remote E hroot] at h
  have hw := E.wire_injective (fromRoot_injective (E.plain_wire _) (E.plain_wire _) h)
  exact List.append_cancel_left hw

end Codec

/-! ## the depth-one filter -/

theorem trimPrefix_append (front s : Path) : trimPrefix (front ++ s) front = s := by
  rw [trimPrefix, if_pos (by simp), List.drop_left]

theorem trimPrefix_sep_of_notMem {s : Path} (h : '/' ∉ s) : trimPrefix s ['/'] = s := by
  refine if_neg fun hp => h ?_
  exact (List.isPrefixOf_iff_prefix.mp hp).subset List.mem_cons_self

/-- The segment of a child below its parent. -/
theorem trimPrefix_child (ts : List Path) {m : Path} (hm : Plain m) :
    trimPrefix (trimPrefix (fromRoot (ts ++ [m])) (fromRoot ts)) ['/'] = m := by
  by_cases hts : ts = []
  · subst hts
    have h1 : trimPrefix (fromRoot ([] ++ [m])) (fromRoot []) = m := by
      have := trimPrefix_append ['/'] m
      simpa [fromRoot, rel, PathAlphabet.sep] using this
    rw [h1, trimPrefix_sep_of_notMem hm.sep_notMem]
  · rw [fromRoot_concat hts, trimPrefix_append]
    exact trimPrefix_append ['/'] m

/-- A child passes the prefix test; below the root it does so through the
special case. -/
theorem child_below (ts : List Path) {m : Path} (hm : Plain m) :
    (!(fromRoot ts ++ ['/']).isPrefixOf (fromRoot (ts ++ [m])) &&
      (fromRoot ts ≠ ['/'] || (trimPrefix (fromRoot (ts ++ [m])) ['/']).count '/' > 0)) =
        false := by
  by_cases hts : ts = []
  · subst hts
    have htrim : trimPrefix (fromRoot ([] ++ [m])) ['/'] = m := by
      have := trimPrefix_append ['/'] m
      simpa [fromRoot, rel, PathAlphabet.sep] using this
    have hcount : m.count '/' = 0 := List.count_eq_zero_of_not_mem hm.sep_notMem
    rw [htrim, hcount]
    simp [fromRoot, PathAlphabet.sep]
  · have hp : (fromRoot ts ++ ['/']).isPrefixOf (fromRoot (ts ++ [m])) = true := by
      rw [fromRoot_concat hts, List.isPrefixOf_iff_prefix]
      exact ⟨m, by simp [PathAlphabet.sep]⟩
    rw [hp, Bool.not_true, Bool.false_and]

/-- The last name of `p`, when the names before it are those of `parent`. -/
def childName (parent p : Path) : Option Path :=
  if (names p).dropLast = names parent then (names p).getLast? else none

/-- Of what lies below a directory, the child name is that of an immediate
child. -/
theorem childName_fromRoot {ts es : List Path} (hts : ∀ s ∈ ts, Plain s) (hes : ∀ s ∈ es, Plain s)
    {w : Path} : childName (fromRoot ts) (fromRoot es) = some w ↔ es = ts ++ [w] := by
  rw [childName, names_fromRoot fun s hs => ⟨(hts s hs).ne_nil, (hts s hs).sep_notMem⟩,
    names_fromRoot fun s hs => ⟨(hes s hs).ne_nil, (hes s hs).sep_notMem⟩]
  constructor
  · intro h
    split at h
    · next hd =>
        have hne : es ≠ [] := by
          rintro rfl
          cases h
        rw [List.getLast?_eq_some_getLast hne] at h
        rw [← hd, ← Option.some.inj h, List.dropLast_concat_getLast hne]
    · cases h
  · rintro rfl
    simp

/-- An entry that is no child of the directory fails one of the tests. -/
theorem not_child {ts es : List Path} (hts : ∀ s ∈ ts, Plain s) (hes : ∀ s ∈ es, Plain s)
    (hne : es ≠ ts) (hnot : ∀ w, es ≠ ts ++ [w])
    (hbelow : (!(fromRoot ts ++ ['/']).isPrefixOf (fromRoot es) &&
      (fromRoot ts ≠ ['/'] || (trimPrefix (fromRoot es) ['/']).count '/' > 0)) = false) :
    '/' ∈ trimPrefix (trimPrefix (fromRoot es) (fromRoot ts)) ['/'] := by
  by_cases hts0 : ts = []
  · -- below the root the prefix test never holds, and the count is of all separators
    subst hts0
    have hpre : (fromRoot [] ++ ['/']).isPrefixOf (fromRoot es) = false := by
      rw [← Bool.not_eq_true, List.isPrefixOf_iff_prefix]
      exact not_root_sep_prefix hes
    have htrim : trimPrefix (fromRoot es) ['/'] = rel es := trimPrefix_append ['/'] (rel es)
    rw [hpre, htrim] at hbelow
    have hmem : '/' ∉ rel es := by simpa [fromRoot, PathAlphabet.sep] using hbelow
    rw [show ('/' : Char) = PathAlphabet.sep from rfl,
      sep_mem_rel_iff fun s hs => (hes s hs).sep_notMem] at hmem
    rcases es with _ | ⟨w, _ | ⟨w', es⟩⟩
    · exact absurd rfl hne
    · exact absurd rfl (hnot w)
    · simp at hmem
  · have hroot : fromRoot ts ≠ ['/'] := by
      intro h
      exact hts0 (fromRoot_injective hts (by simp) (h.trans rfl))
    have hpre : fromRoot ts ++ ['/'] <+: fromRoot es := by
      simpa [hroot, List.isPrefixOf_iff_prefix] using hbelow
    obtain ⟨us, hus, rfl⟩ := (fromRoot_sep_prefix_iff hts hes hts0).mp hpre
    have hsep : ∀ s ∈ us, '/' ∉ s := fun s hs => (hes s (List.mem_append_right _ hs)).sep_notMem
    rw [fromRoot, fromRoot, rel_append hts0 hus, ← List.cons_append, trimPrefix_append,
      show PathAlphabet.sep :: rel us = ['/'] ++ rel us from rfl, trimPrefix_append]
    refine (sep_mem_rel_iff hsep).mpr ?_
    rcases us with _ | ⟨w, _ | ⟨w', us⟩⟩
    · exact absurd rfl hus
    · exact absurd rfl (hnot w)
    · simp

/-- The filter is the segment-level one: an entry below a canonical directory
is kept exactly when its path has one name more. -/
theorem immediateChildRemote_eq (f : Fs) (dir : Path) {ts : List Path} (hts : ∀ s ∈ ts, Plain s)
    (entry : ListDirEntry) :
    f.immediateChildRemote dir (fromRoot ts) entry =
      (entryPath entry).bind fun p => (childName (fromRoot ts) (cleanPath p)).map fun w =>
        if dir = [] then f.enc.toStandardPath w else join dir (f.enc.toStandardPath w) := by
  unfold Fs.immediateChildRemote
  cases entryPath entry with
  | none => rfl
  | some p =>
      obtain ⟨es, hes, hclean⟩ := exists_clean_sep p
      have hp : cleanPath p = fromRoot es := hclean
      simp only [hp, Option.bind_some]
      by_cases hchild : ∃ w, es = ts ++ [w]
      · obtain ⟨w, rfl⟩ := hchild
        have hw := hes w (by simp)
        have hne : fromRoot (ts ++ [w]) ≠ fromRoot ts := fun h => by
          simpa using fromRoot_injective hes hts h
        rw [if_neg hne, child_below _ hw, trimPrefix_child _ hw, if_neg Bool.false_ne_true,
          if_neg (show '/' ∉ w from hw.sep_notMem), (childName_fromRoot hts hes).mpr rfl,
          Option.map_some]
        split <;> rfl
      · have hnone : childName (fromRoot ts) (fromRoot es) = none :=
          Option.eq_none_iff_forall_not_mem.mpr fun w hw =>
            hchild ⟨w, (childName_fromRoot hts hes).mp hw⟩
        rw [hnone, Option.map_none]
        by_cases heq : fromRoot es = fromRoot ts
        · rw [if_pos heq]
        · rw [if_neg heq]
          split
          · rfl
          · next hbelow =>
              have hsep := not_child hts hes (fun h => heq (by rw [h]))
                (fun w h => hchild ⟨w, h⟩) (Bool.not_eq_true _ ▸ hbelow)
              rw [if_pos hsep]

/-- **Path codec round trip**: an entry at the wire path of `d/n` lists as
the remote `d/n`, and distinct remotes have distinct wire paths. -/
theorem immediateChildRemote_absPath (f : Fs) (E : Segmentwise f.enc Std) (rs : List (Name Std))
    (hroot : f.RootOf rs) :
    (∀ (ds : List (Name Std)) (n : Name Std) (entry : ListDirEntry),
      entryPath entry = some (f.absPath (join (remote ds) n.1)) →
      f.immediateChildRemote (remote ds) (f.absPath (remote ds)) entry =
        some (join (remote ds) n.1)) ∧
    (∀ (ds ds' : List (Name Std)) (n n' : Name Std),
      join (remote ds) n.1 ≠ join (remote ds') n'.1 →
      f.absPath (join (remote ds) n.1) ≠ f.absPath (join (remote ds') n'.1)) := by
  have hjoin : ∀ (ds : List (Name Std)) (n : Name Std),
      join (remote ds) n.1 = remote (ds ++ [n]) := by
    intro ds n
    rw [← remote_singleton n, join_remote]
  constructor
  · intro ds n entry hentry
    have hm := E.plain_fromSeg n
    have hwire : E.wire (rs ++ (ds ++ [n])) = E.wire (rs ++ ds) ++ [E.fromSeg n.1] := by
      simp [Segmentwise.wire]
    have hchild : childName (fromRoot (E.wire (rs ++ ds)))
        (cleanPath (f.absPath (join (remote ds) n.1))) = some (E.fromSeg n.1) := by
      rw [hjoin, absPath_remote E hroot, cleanPath]
      rw [show clean ('/' :: fromRoot (E.wire (rs ++ (ds ++ [n])))) = _ from
        clean_sep_fromRoot (E.plain_wire _)]
      exact (childName_fromRoot (E.plain_wire _) (E.plain_wire _)).mpr hwire
    have hdec : f.enc.toStandardPath (E.fromSeg n.1) = n.1 := by
      rw [E.toStandardPath_eq, segs_of_notMem hm.sep_notMem, List.map_singleton,
        E.toSeg_fromSeg _ n.2.2]
      simp [rel]
    rw [absPath_remote E hroot ds, immediateChildRemote_eq f _ (E.plain_wire _), hentry,
      Option.bind_some, hchild, Option.map_some, hdec]
    split
    · next hd =>
        rw [hjoin, remote_eq_nil.mp hd, List.nil_append, remote_singleton]
    · rfl
  · intro ds ds' n n' hne h
    rw [hjoin, hjoin] at h
    exact hne (by rw [hjoin, hjoin, absPath_injective E hroot h])

/-! ## an encoder that works segment by segment -/

/-- The backslash arm of the default encoding: `\` goes over the wire as its
fullwidth form. -/
def encodeBackSlash (c : Char) : Char := if c = '\\' then '＼' else c

def decodeBackSlash (c : Char) : Char := if c = '＼' then '\\' else c

def backSlashEncoder : Encoder where
  fromStandardPath p := rel ((segs p).map (List.map encodeBackSlash))
  toStandardPath p := rel ((segs p).map (List.map decodeBackSlash))

theorem encodeBackSlash_eq_iff {c d : Char} (hd : d ≠ '＼') (hd' : d ≠ '\\') :
    encodeBackSlash c = d ↔ c = d := by
  unfold encodeBackSlash
  split
  · next h =>
      subst h
      exact ⟨fun h => absurd h.symm hd, fun h => absurd h.symm hd'⟩
  · exact Iff.rfl

/-- Names without the fullwidth form are in standard encoding. -/
def backSlashSegmentwise : Segmentwise backSlashEncoder (fun s => '＼' ∉ s) where
  fromSeg := List.map encodeBackSlash
  toSeg := List.map decodeBackSlash
  fromStandardPath_eq _ := rfl
  toStandardPath_eq _ := rfl
  fromSeg_nil := rfl
  fromSeg_ne_nil s h := by simpa using h
  toSeg_ne_nil s h := by simpa using h
  sep_notMem_fromSeg s _ h hm := by
    obtain ⟨c, hc, he⟩ := List.mem_map.mp hm
    rw [encodeBackSlash_eq_iff (by decide) (by decide)] at he
    exact h (he ▸ hc)
  sep_notMem_toSeg s h hm := by
    obtain ⟨c, hc, he⟩ := List.mem_map.mp hm
    unfold decodeBackSlash at he
    split at he
    · exact absurd he (by decide)
    · exact h (he ▸ hc)
  fromSeg_ne_dot s h _ he := by
    obtain ⟨c, rfl, hc⟩ := List.map_eq_singleton_iff.mp he
    rw [encodeBackSlash_eq_iff (by decide) (by decide)] at hc
    exact h.ne_dot (by rw [hc]; rfl)
  fromSeg_ne_dotdot s h _ he := by
    obtain ⟨c, cs, rfl, hc, hcs⟩ := List.map_eq_cons_iff.mp he
    obtain ⟨d, rfl, hd⟩ := List.map_eq_singleton_iff.mp hcs
    rw [encodeBackSlash_eq_iff (by decide) (by decide)] at hc hd
    exact h.ne_dotdot (by rw [hc, hd]; rfl)
  toSeg_fromSeg s h := by
    have hid : ∀ c ∈ s, (decodeBackSlash ∘ encodeBackSlash) c = id c := by
      intro c hc
      by_cases hb : c = '\\'
      · subst hb
        rfl
      · have hw : c ≠ '＼' := fun hw => h (hw ▸ hc)
        simp [encodeBackSlash, decodeBackSlash, hb, hw]
    rw [List.map_map, List.map_congr_left hid, List.map_id]

def srvFs : Fs :=
  ⟨0, "/srv".toList, ⟨"https://filestore", "fs", "token", 1, 1, 1⟩, false, backSlashEncoder⟩

def docsName : Name (fun s => '＼' ∉ s) := ⟨"docs".toList, by decide⟩

def backSlashName : Name (fun s => '＼' ∉ s) := ⟨"a\\b".toList, by decide⟩

theorem immediateChildRemote_absPath_srv :
    srvFs.RootOf [(⟨"srv".toList, by decide⟩ : Name (fun s => '＼' ∉ s))] ∧
      srvFs.immediateChildRemote "docs".toList (srvFs.absPath "docs".toList)
        ⟨none, some ⟨"/srv/docs/a＼b".toList, "", ""⟩⟩ = some "docs/a\\b".toList := by
  have hroot : srvFs.RootOf [(⟨"srv".toList, by decide⟩ : Name (fun s => '＼' ∉ s))] :=
    Or.inr (by decide)
  exact ⟨hroot, (immediateChildRemote_absPath srvFs backSlashSegmentwise _ hroot).1 [docsName]
    backSlashName _ (by decide)⟩

end OcuFilestore.Ocufs
