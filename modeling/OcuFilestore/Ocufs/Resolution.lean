import OcuFilestore.Ocufs.Readdress

/-!
# OcuFilestore.Ocufs.Resolution

What becomes of `.` and `..` on the way to the broker.  `absPath` joins first,
encodes then and cleans last, and the encoding rewrites a final period: a dot
segment that the join leaves in place goes out as a file name, and the last
clean no longer sees it.  The join leaves one in place where a relative path
comes to nothing or climbs above its start, and nothing is joined at all for
the root itself; the production seam passes the empty root, so a remote `..`
is such a path.
-/

namespace OcuFilestore.Ocufs

open Brokerrpc SlashPath Rclone

/-- What resolution relies on of an encoder, for the segments `Std`: it works
segment by segment, and as it rewrites a final period it writes a segment,
dots included, as a name. -/
structure RewritesDots (enc : Encoder) (fromSeg : Path → Path) (Std : Path → Prop) : Prop where
  fromStandardPath_eq : ∀ p, enc.fromStandardPath p = rel ((segs p).map fromSeg)
  fromSeg_nil : fromSeg [] = []
  fromSeg_ne_nil : ∀ s, Std s → s ≠ [] → fromSeg s ≠ []
  sep_notMem_fromSeg : ∀ s, Std s → '/' ∉ s → '/' ∉ fromSeg s
  fromSeg_ne_dot : ∀ s, Std s → fromSeg s ≠ ['.']
  fromSeg_ne_dotdot : ∀ s, Std s → fromSeg s ≠ ['.', '.']
  std_dot : Std ['.']

namespace RewritesDots

variable {enc : Encoder} {fromSeg : Path → Path} {Std : Path → Prop}

/-- A name that is neither empty nor holds a slash becomes a plain one. -/
theorem plain_fromSeg (E : RewritesDots enc fromSeg Std) {s : Path} (hstd : Std s) (hs : s ≠ [])
    (hsep : '/' ∉ s) : Plain (fromSeg s) :=
  ⟨E.fromSeg_ne_nil s hstd hs, E.fromSeg_ne_dot s hstd, E.fromSeg_ne_dotdot s hstd,
    E.sep_notMem_fromSeg s hstd hsep⟩

theorem plain_of_mem_map (E : RewritesDots enc fromSeg Std) {ss : List Path}
    (h : ∀ s ∈ ss, Std s ∧ s ≠ [] ∧ '/' ∉ s) : ∀ t ∈ ss.map fromSeg, Plain t := by
  intro t ht
  obtain ⟨s, hs, rfl⟩ := List.mem_map.mp ht
  obtain ⟨hstd, h0, hsep⟩ := h s hs
  exact E.plain_fromSeg hstd h0 hsep

/-- The clean after the encoding keeps every name of the path. -/
theorem cleanPath_fromStandardPath (E : RewritesDots enc fromSeg Std) {p : Path}
    (hstd : ∀ s ∈ names p, Std s) :
    cleanPath (enc.fromStandardPath p) = fromRoot ((names p).map fromSeg) := by
  -- an encoded segment is empty or a name
  have hcases : ∀ s ∈ segs p, s = [] ∨ Plain (fromSeg s) := by
    intro s hs
    refine Decidable.or_iff_not_imp_left.mpr fun h0 => ?_
    have hmem : s ∈ names p := List.mem_filter.mpr ⟨hs, by simpa using h0⟩
    exact E.plain_fromSeg (hstd s hmem) h0 (sep_notMem_of_mem_segs p s hs)
  have hseg : segs (rel ((segs p).map fromSeg)) = (segs p).map fromSeg := by
    refine segs_rel (by simp [segs, List.splitOn_ne_nil]) fun t ht => ?_
    obtain ⟨s, hs, rfl⟩ := List.mem_map.mp ht
    rcases hcases s hs with rfl | h
    · simp [E.fromSeg_nil]
    · exact h.sep_notMem
  have hdots : ∀ t ∈ (segs p).map fromSeg, t ≠ ['.'] ∧ t ≠ ['.', '.'] := by
    intro t ht
    obtain ⟨s, hs, rfl⟩ := List.mem_map.mp ht
    rcases hcases s hs with rfl | h
    · simp [E.fromSeg_nil]
    · exact ⟨h.ne_dot, h.ne_dotdot⟩
  have hnil : ∀ s ∈ segs p, decide (fromSeg s ≠ []) = decide (s ≠ []) := by
    intro s hs
    rcases hcases s hs with rfl | h
    · simp [E.fromSeg_nil]
    · have h0 : s ≠ [] := by
        rintro rfl
        exact h.ne_nil E.fromSeg_nil
      simp [h0, h.ne_nil]
  have hclean : cleanPath (rel ((segs p).map fromSeg)) =
      fromRoot (resolve true (segs (rel ((segs p).map fromSeg)))) := clean_sep_cons _
  rw [E.fromStandardPath_eq, hclean, hseg, resolve, foldl_keep_no_dots true hdots,
    List.append_nil, List.reverse_reverse, List.filter_map, names]
  exact congrArg (fun ss => fromRoot (ss.map fromSeg)) (List.filter_congr hnil)

end RewritesDots

/-- Where the join resolves every dot segment: nothing to join and no dot
segment in the root, a rooted path, or a relative one that stays below its
start. -/
def Fs.DotsResolve (f : Fs) (r : Path) : Prop :=
  if r = [] then ∀ s ∈ segs f.root, s ≠ ['.'] ∧ s ≠ ['.', '.']
  else isRooted f.root ∨ (f.root = [] ∧ isRooted r) ∨
    ∃ d, climb 0 (segs f.root ++ segs r) = some (d + 1)

/-- The segments of the root and of a path below it. -/
theorem segs_root_append (root r : Path) :
    resolve true (segs ('/' :: root ++ '/' :: r)) = resolve true (segs root ++ segs r) := by
  have hsplit : segs (root ++ '/' :: r) = segs root ++ segs r :=
    List.splitOn_append_cons_self ..
  have hcons : segs ('/' :: (root ++ '/' :: r)) = [] :: segs (root ++ '/' :: r) :=
    segs_sep_cons _
  rw [List.cons_append, hcons, resolve_nil_cons, hsplit]

/-- The joined path is one that is cleaned, with the segments of the root and
then those below it. -/
theorem exists_join_eq (root : Path) {r : Path} (hr : r ≠ []) :
    ∃ p, join root r = clean p ∧ (isRooted p ↔ isRooted root ∨ root = [] ∧ isRooted r) ∧
      (∀ s ∈ segs p, s ∈ segs root ++ segs r) ∧
      (∀ rooted, resolve rooted (segs p) = resolve rooted (segs root ++ segs r)) ∧
      climb 0 (segs p) = climb 0 (segs root ++ segs r) := by
  cases root with
  | nil =>
      refine ⟨r, by simp [join, hr], by simp [isRooted], fun s hs => by simp [hs], ?_, ?_⟩
      · intro rooted
        simp [segs]
      · simp [segs, climb]
  | cons c root =>
      have hsplit : segs (c :: root ++ '/' :: r) = segs (c :: root) ++ segs r :=
        List.splitOn_append_cons_self ..
      refine ⟨c :: root ++ '/' :: r, rfl, by simp [isRooted], ?_, ?_, ?_⟩
      · exact fun s hs => hsplit ▸ hs
      · exact fun rooted => by rw [hsplit]
      · rw [hsplit]

/-- **Lexical resolution before encoding**: the wire path of a remote is the
encoding, segment by segment, of the lexical resolution of the root and the
remote exactly when the join resolves every dot segment. -/
theorem absPath_resolved_iff (f : Fs) {fromSeg : Path → Path} {Std : Path → Prop}
    (E : RewritesDots f.enc fromSeg Std) (r : Path)
    (hstd : ∀ s ∈ segs f.root ++ segs r, Std s) :
    f.absPath r = fromRoot ((resolve true (segs ('/' :: f.root ++ '/' :: r))).map fromSeg) ↔
      f.DotsResolve r := by
  have hok : ∀ s ∈ segs f.root ++ segs r, s ≠ [] → Std s ∧ s ≠ [] ∧ '/' ∉ s := by
    intro s hs h0
    refine ⟨hstd s hs, h0, ?_⟩
    exact (List.mem_append.mp hs).elim (sep_notMem_of_mem_segs _ s) (sep_notMem_of_mem_segs _ s)
  -- both sides are rooted paths of names, so it is the names that are compared
  have hiff : ∀ ns : List Path, (∀ s ∈ ns, Std s ∧ s ≠ [] ∧ '/' ∉ s) →
      (fromRoot (ns.map fromSeg) =
          fromRoot ((resolve true (segs f.root ++ segs r)).map fromSeg) ↔
        ns.map fromSeg = (resolve true (segs f.root ++ segs r)).map fromSeg) := by
    intro ns hns
    refine ⟨fromRoot_injective (E.plain_of_mem_map hns) (E.plain_of_mem_map fun s hs => ?_),
      congrArg _⟩
    exact hok s (mem_of_mem_resolve hs).1 (mem_of_mem_resolve hs).2
  rw [segs_root_append, Fs.DotsResolve, Fs.absPath]
  by_cases hr : r = []
  · subst hr
    have hnil : segs ([] : Path) = [[]] := rfl
    have hnames : ∀ s ∈ names f.root, Std s ∧ s ≠ [] ∧ '/' ∉ s := by
      intro s hs
      obtain ⟨hs, h0⟩ := List.mem_filter.mp hs
      exact hok s (List.mem_append_left _ hs) (of_decide_eq_true h0)
    rw [if_neg (by simp), if_pos rfl, E.cleanPath_fromStandardPath fun s hs => (hnames s hs).1,
      hiff _ hnames, hnil, resolve_concat_nil]
    exact map_names_eq_iff f.root fromSeg
  · obtain ⟨p, hp, hroot, hmem, hres, hclimb⟩ := exists_join_eq f.root hr
    have hnames : ∀ s ∈ names (clean p), Std s ∧ s ≠ [] ∧ '/' ∉ s := by
      have hkept : ∀ rooted, ∀ s ∈ resolve rooted (segs p), Std s ∧ s ≠ [] ∧ '/' ∉ s :=
        fun rooted s hs => hok s (hmem s (mem_of_mem_resolve hs).1) (mem_of_mem_resolve hs).2
      rw [names_clean]
      split
      · exact hkept true
      · split
        · intro s hs
          obtain rfl : s = ['.'] := List.mem_singleton.mp hs
          exact ⟨E.std_dot, by decide, by decide⟩
        · exact hkept false
    rw [if_pos hr, if_neg hr, hp, E.cleanPath_fromStandardPath fun s hs => (hnames s hs).1,
      hiff _ hnames, ← hres, map_names_clean_eq_iff, hroot, hclimb, or_assoc]

/-! ## the default encoding -/

/-- The backend's encoding, on the segments that do not decode to several. -/
theorem rewritesDots_default :
    RewritesDots (encoderOf defaultEncoding) defaultEncoding.fromStandardName
      fun s => '/' ∉ MultiEncoder.standard.decode s where
  fromStandardPath_eq _ := rfl
  fromSeg_nil := defaultEncoding.fromStandardName_nil
  fromSeg_ne_nil _ _ h := defaultEncoding.encode_ne_nil (MultiEncoder.standard.decode_ne_nil h)
  sep_notMem_fromSeg _ hstd _ := defaultEncoding.sep_notMem_encode hstd
  fromSeg_ne_dot s _ := (MultiEncoder.encode_ne_dots rfl (MultiEncoder.standard.decode s)).1
  fromSeg_ne_dotdot s _ := (MultiEncoder.encode_ne_dots rfl (MultiEncoder.standard.decode s)).2
  std_dot := by decide

/-- The backend at a root, with its encoding. -/
def fsAt (root : Path) : Fs := { encodedFs with root := root }

/-- A remote that climbs out of a rooted root is resolved. -/
theorem absPath_resolved_rooted :
    (fsAt "/srv".toList).DotsResolve "../../x./.".toList ∧
      (fsAt "/srv".toList).absPath "../../x./.".toList = "/x．".toList := by
  have h : (fsAt "/srv".toList).DotsResolve "../../x./.".toList := by
    rw [Fs.DotsResolve, if_neg (by decide)]
    exact Or.inl (by decide)
  refine ⟨h, ?_⟩
  rw [(absPath_resolved_iff (fsAt "/srv".toList) rewritesDots_default _ (by decide)).mpr h]
  decide

/-- Below the empty root `..` goes out as the name of a file. -/
theorem absPath_dotdot_encoded :
    (fsAt []).absPath "..".toList = "/.．".toList ∧
      (fsAt []).absPath "..".toList ≠
        fromRoot ((resolve true (segs ('/' :: (fsAt []).root ++ '/' :: "..".toList))).map
          defaultEncoding.fromStandardName) := by
  decide

end OcuFilestore.Ocufs
