import OcuFilestore.Ocufs.Listing
import OcuFilestore.Rclone.Encoder

/-!
# OcuFilestore.Ocufs.Readdress

Whether a listed name leads back to what was listed.  A listing turns the last
name of a broker path into a remote by decoding it, and a later request turns
the remote into a path by encoding it again.  With the backend's default
encoding this gives the path back exactly when the name is one that encoding
can produce; a broker that stores other names, say one with a backslash, lists
entries the backend cannot address.
-/

namespace OcuFilestore.Ocufs

open Brokerrpc SlashPath Rclone

/-- The encoding the backend applies on the wire.  Its flag for invalid UTF-8
is left out, since names are sequences of characters here. -/
def defaultEncoding : MultiEncoder where
  ctl := true
  del := false
  slash := false
  backSlash := true
  doubleQuote := true
  rightSpace := true
  rightPeriod := true
  dot := false

def encoderOf (m : MultiEncoder) : Encoder := ⟨m.fromStandardPath, m.toStandardPath⟩

/-- A standard name that goes out as one name and comes back as it was. -/
def Faithful (m : MultiEncoder) (s : Path) : Prop :=
  '/' ∉ MultiEncoder.standard.decode s ∧ m.toStandardName (m.fromStandardName s) = s

instance (m : MultiEncoder) (s : Path) : Decidable (Faithful m s) :=
  inferInstanceAs (Decidable (_ ∧ _))

/-- The backend's encoding works name by name. -/
def defaultSegmentwise :
    Segmentwise (encoderOf defaultEncoding) (Faithful defaultEncoding) where
  fromSeg := defaultEncoding.fromStandardName
  toSeg := defaultEncoding.toStandardName
  fromStandardPath_eq _ := rfl
  toStandardPath_eq _ := rfl
  fromSeg_nil := defaultEncoding.fromStandardName_nil
  fromSeg_ne_nil _ h := defaultEncoding.encode_ne_nil (MultiEncoder.standard.decode_ne_nil h)
  toSeg_ne_nil _ h := MultiEncoder.standard.encode_ne_nil (defaultEncoding.decode_ne_nil h)
  sep_notMem_fromSeg _ hstd _ := defaultEncoding.sep_notMem_encode hstd.1
  sep_notMem_toSeg _ h :=
    MultiEncoder.standard.sep_notMem_encode (MultiEncoder.sep_notMem_decode rfl h)
  fromSeg_ne_dot s _ _ := (MultiEncoder.encode_ne_dots rfl (MultiEncoder.standard.decode s)).1
  fromSeg_ne_dotdot s _ _ := (MultiEncoder.encode_ne_dots rfl (MultiEncoder.standard.decode s)).2
  toSeg_fromSeg _ hstd := hstd.2

/-! ## the wire path of a remote -/

/-- Whether the standard path is rooted makes no difference on the wire. -/
theorem cleanPath_fromStandardPath_build (m : MultiEncoder) (rooted : Bool) {ss : List Path}
    (h : ∀ s ∈ ss, '/' ∉ s) :
    cleanPath (m.fromStandardPath (build rooted ss)) =
      clean ('/' :: rel (ss.map m.fromStandardName)) := by
  have hrel : m.fromStandardPath (rel ss) = rel (ss.map m.fromStandardName) := by
    by_cases hss : ss = []
    · simp [hss, MultiEncoder.fromStandardPath, segs, rel, m.fromStandardName_nil]
    · rw [MultiEncoder.fromStandardPath, segs_rel hss h]
  cases rooted with
  | false => exact congrArg cleanPath hrel
  | true =>
      have hroot : m.fromStandardPath (fromRoot ss) = '/' :: m.fromStandardPath (rel ss) := by
        have hne : (segs (rel ss)).map m.fromStandardName ≠ [] := by
          simp [segs, List.splitOn_ne_nil]
        rw [MultiEncoder.fromStandardPath, fromRoot, segs_sep_cons, List.map_cons,
          m.fromStandardName_nil, rel, List.intercalate_cons_of_ne_nil hne]
        rfl
      have hsep : ∀ q : Path, clean ('/' :: '/' :: q) = clean ('/' :: q) := by
        intro q
        have h₂ : segs ('/' :: q) = [] :: segs q := segs_sep_cons q
        exact (clean_sep_cons _).trans (by rw [h₂, resolve_nil_cons, ← clean_sep_cons]; rfl)
      rw [build, if_pos rfl, hroot, hrel]
      exact hsep _

section Default

variable {f : Fs} {m : MultiEncoder} {ds : List Path}

/-- The names of the root, as far as they are not resolved away. -/
def Fs.rootNames (f : Fs) : List Path := resolve (isRooted f.root) (segs f.root)

/-- On a clean root the wire path of a directory is that of the encoded
names, root first.  The root `.` is the exception: it is a name of its own as
long as nothing is joined to it. -/
theorem absPath_rel (henc : f.enc = encoderOf m) (hroot : f.root = [] ∨ clean f.root = f.root)
    (hds : ∀ s ∈ ds, Plain s) (hdot : ¬(f.root = ['.'] ∧ ds = [])) :
    f.absPath (rel ds) = clean ('/' :: rel ((f.rootNames ++ ds).map m.fromStandardName)) := by
  have hstd : (if rel ds ≠ [] then join f.root (rel ds) else f.root) =
      build (isRooted f.root) (f.rootNames ++ ds) := by
    by_cases h0 : ds = []
    · subst h0
      rw [if_neg (by simp), List.append_nil]
      exact eq_build_of_clean hroot fun h => hdot ⟨h, rfl⟩
    · rw [if_pos (rel_ne_nil h0 hds), join_eq_build _ hds h0, Fs.rootNames]
  rw [Fs.absPath, hstd, henc]
  refine cleanPath_fromStandardPath_build m _ fun s hs => ?_
  rcases List.mem_append.mp hs with hs | hs
  · exact sep_notMem_of_mem_resolve (sep_notMem_of_mem_segs _) s hs
  · exact (hds s hs).sep_notMem

/-- One more name in the remote is one more name on the wire. -/
theorem absPath_child (henc : f.enc = encoderOf m) (hroot : f.root = [] ∨ clean f.root = f.root)
    (hds : ∀ s ∈ ds, Plain s) (hdot : ¬(f.root = ['.'] ∧ ds = [])) {ts : List Path}
    (hts : ∀ s ∈ ts, Plain s) (hdir : f.absPath (rel ds) = fromRoot ts) {d : Path} (hd : Plain d)
    (hwire : Plain (m.fromStandardName d)) :
    f.absPath (rel (ds ++ [d])) = fromRoot (ts ++ [m.fromStandardName d]) := by
  rw [absPath_rel henc hroot hds hdot] at hdir
  rw [absPath_rel henc hroot (plain_concat hds hd) (by simp), ← List.append_assoc, List.map_append,
    List.map_singleton]
  generalize (f.rootNames ++ ds).map m.fromStandardName = X at hdir
  by_cases hX : X = []
  · subst hX
    have hts0 : ts = [] := fromRoot_injective hts (by simp) (hdir.symm.trans (by decide))
    rw [hts0, List.nil_append]
    exact clean_fromRoot (by simpa using hwire)
  · have htsX : resolve true (segs (rel X)) = ts :=
      fromRoot_injective (plain_of_mem_resolve (sep_notMem_of_mem_segs _)) hts
        ((clean_sep_cons _).symm.trans hdir)
    rw [rel_append hX (by simp), ← htsX]
    have hone : rel [m.fromStandardName d] = m.fromStandardName d := by simp [rel]
    rw [hone]
    exact clean_sep_append hwire

end Default

/-! ## listed names -/

/-- The name a listing keeps of an entry. -/
def lastName (p : Path) : Path := (names (cleanPath p)).getLastD []

/-- What an entry needs to be addressed again: a name in the encoding's own
form, and not the listing of a root `.` itself. -/
def Fs.Addressable (f : Fs) (ds : List Path) (p : Path) : Prop :=
  ¬(f.root = ['.'] ∧ ds = []) ∧
    defaultEncoding.encode (defaultEncoding.decode (lastName p)) = lastName p

/-- An accepted entry: its path below the directory's, and its remote. -/
theorem exists_child_of_remote {f : Fs} (henc : f.enc = encoderOf defaultEncoding) {ds : List Path}
    (hds : ∀ s ∈ ds, Plain s) {entry : ListDirEntry} {p r : Path} (hp : entryPath entry = some p)
    (hr : f.immediateChildRemote (rel ds) (f.absPath (rel ds)) entry = some r) :
    ∃ ts, (∀ s ∈ ts, Plain s) ∧ f.absPath (rel ds) = fromRoot ts ∧ Plain (lastName p) ∧
      cleanPath p = fromRoot (ts ++ [lastName p]) ∧
      r = rel (ds ++ [defaultEncoding.toStandardName (lastName p)]) := by
  obtain ⟨ts, hts, habs⟩ := exists_absPath f (rel ds)
  obtain ⟨es, hes, hclean⟩ := exists_clean_sep p
  have hpath : cleanPath p = fromRoot es := hclean
  rw [habs, immediateChildRemote_eq f _ hts, hp, Option.bind_some, Option.map_eq_some_iff] at hr
  obtain ⟨w, hw, hr⟩ := hr
  rw [hpath, childName_fromRoot hts hes] at hw
  subst hw
  have hplain : Plain w := hes w (by simp)
  have hlast : lastName p = w := by
    rw [lastName, hpath, names_fromRoot fun s hs => ⟨(hes s hs).ne_nil, (hes s hs).sep_notMem⟩]
    simp
  have hstd : f.enc.toStandardPath w = defaultEncoding.toStandardName w := by
    rw [henc]
    exact MultiEncoder.toStandardPath_of_plain hplain
  have hd := MultiEncoder.plain_toStandardName (m := defaultEncoding) rfl hplain
  refine ⟨ts, hts, habs, hlast ▸ hplain, hlast ▸ hpath, ?_⟩
  rw [hlast, ← hr, hstd]
  by_cases h0 : ds = []
  · simp [h0, rel]
  · have hone : rel [defaultEncoding.toStandardName w] = defaultEncoding.toStandardName w := by
      simp [rel]
    rw [if_neg (rel_ne_nil h0 hds), ← hone, join_rel hds (by simpa using hd)]
    rw [hone]

/-- An accepted entry is addressed by its remote exactly when it is
addressable. -/
theorem absPath_remote_iff {f : Fs} (henc : f.enc = encoderOf defaultEncoding)
    (hroot : f.root = [] ∨ clean f.root = f.root) {ds : List Path} (hds : ∀ s ∈ ds, Plain s)
    {entry : ListDirEntry} {p r : Path} (hp : entryPath entry = some p)
    (hr : f.immediateChildRemote (rel ds) (f.absPath (rel ds)) entry = some r) :
    f.absPath r = cleanPath p ↔ f.Addressable ds p := by
  obtain ⟨ts, hts, habs, hw, hpath, rfl⟩ := exists_child_of_remote henc hds hp hr
  have hd := MultiEncoder.plain_toStandardName (m := defaultEncoding) rfl hw
  have hback := MultiEncoder.fromStandardName_toStandardName (m := defaultEncoding) (lastName p)
  have hwire := MultiEncoder.plain_encode_decode (m := defaultEncoding) rfl rfl hw
  have htsw := plain_concat hts hw
  rw [Fs.Addressable, hpath]
  by_cases hdot : f.root = ['.'] ∧ ds = []
  · -- the root `.` is listed as a name of its own, and vanishes once a name is joined to it
    obtain ⟨hr0, rfl⟩ := hdot
    have hts1 : ts = [['．']] := by
      refine fromRoot_injective hts (by decide) (habs.symm.trans ?_)
      rw [Fs.absPath, henc, hr0]
      decide
    have hone : f.absPath (rel ([] ++ [defaultEncoding.toStandardName (lastName p)])) =
        fromRoot [defaultEncoding.encode (defaultEncoding.decode (lastName p))] := by
      have hnames : f.rootNames = [] := by
        rw [Fs.rootNames, hr0]
        decide
      rw [absPath_rel henc hroot (by simpa using hd) (by simp), hnames, ← hback]
      exact clean_fromRoot (by simpa [hback] using hwire)
    rw [hone, hts1]
    constructor
    · intro h
      have := fromRoot_injective (by simpa using hwire) (hts1 ▸ htsw) h
      simp at this
    · rintro ⟨h, -⟩
      exact absurd ⟨hr0, rfl⟩ h
  · rw [absPath_child henc hroot hds hdot hts habs hd (hback ▸ hwire), hback]
    constructor
    · intro h
      have heq := fromRoot_injective (plain_concat hts hwire) htsw h
      exact ⟨hdot, List.singleton_inj.mp (List.append_cancel_left heq)⟩
    · rintro ⟨-, h⟩
      rw [h]

/-- **Listed names**: an entry a listing accepts is addressed by its remote
exactly when it is addressable, and addressable entries with different cleaned
paths get different remotes. -/
theorem listed_readdress (f : Fs) (henc : f.enc = encoderOf defaultEncoding)
    (hroot : f.root = [] ∨ clean f.root = f.root) :
    (∀ ds : List Path, (∀ s ∈ ds, Plain s) → ∀ entry p r, entryPath entry = some p →
      f.immediateChildRemote (rel ds) (f.absPath (rel ds)) entry = some r →
      (f.absPath r = cleanPath p ↔ f.Addressable ds p)) ∧
    (∀ ds ds' : List Path, (∀ s ∈ ds, Plain s) → (∀ s ∈ ds', Plain s) →
      ∀ entry entry' p p' r r', entryPath entry = some p → entryPath entry' = some p' →
      f.immediateChildRemote (rel ds) (f.absPath (rel ds)) entry = some r →
      f.immediateChildRemote (rel ds') (f.absPath (rel ds')) entry' = some r' →
      f.Addressable ds p → f.Addressable ds' p' → cleanPath p ≠ cleanPath p' → r ≠ r') := by
  refine ⟨fun ds hds entry p r hp hr => absPath_remote_iff henc hroot hds hp hr, ?_⟩
  intro ds ds' hds hds' entry entry' p p' r r' hp hp' hr hr' ha ha' hne heq
  have h := (absPath_remote_iff henc hroot hds hp hr).mpr ha
  have h' := (absPath_remote_iff henc hroot hds' hp' hr').mpr ha'
  exact hne (by rw [← h, ← h', heq])

/-- An instance of `/srv` with the default encoding. -/
def encodedFs : Fs := { srvFs with enc := encoderOf defaultEncoding }

/-- A directory entry at a wire path. -/
def dirAt (p : Path) : ListDirEntry := ⟨none, some ⟨p, "", ""⟩⟩

theorem listed_readdress_backslash :
    encodedFs.Addressable [] "/srv/a＼b".toList ∧
      encodedFs.absPath "a\\b".toList = cleanPath "/srv/a＼b".toList := by
  have haddr : encodedFs.Addressable [] "/srv/a＼b".toList := ⟨by decide, by decide⟩
  exact ⟨haddr, ((listed_readdress encodedFs rfl (Or.inr (by decide))).1 [] (by simp)
    (dirAt "/srv/a＼b".toList) _ _ rfl (by decide)).mpr haddr⟩

/-- A name the broker stores with a backslash is listed under a remote that
addresses another path, and shares that remote with the entry there. -/
theorem listed_name_lost :
    (encodedFs.immediateChildRemote [] (encodedFs.absPath []) (dirAt "/srv/a\\b".toList) =
        some "a\\b".toList) ∧
      encodedFs.absPath "a\\b".toList ≠ cleanPath "/srv/a\\b".toList ∧
      (encodedFs.immediateChildRemote [] (encodedFs.absPath []) (dirAt "/srv/a＼b".toList) =
        some "a\\b".toList) ∧
      cleanPath "/srv/a\\b".toList ≠ cleanPath "/srv/a＼b".toList := by
  decide

end OcuFilestore.Ocufs
