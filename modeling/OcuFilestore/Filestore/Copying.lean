import OcuFilestore.Filestore.Isolation

/-!
# OcuFilestore.Filestore.Copying

`copyFile` of the filestore peer.  The disk may fail in any way, but what it
says about an entry is so, and only files can be read (`seeing`).

A copy opens its source, cuts the destination to nothing and streams; so a
copy of a file onto itself reads what it has just cut.  `ensures_copyFile`
says what every copy that goes through leaves, and the main result follows by
comparing that with what a copy should leave.
-/

namespace OcuFilestore.Peer

open SlashPath

/-! ## resolved paths -/

/-- `os.Getwd` gives an absolute path. -/
def Server.Grounded (srv : Server) : Prop :=
  ∀ wd, srv.workingDir = some wd → isRooted wd = true

/-- An absolute path is cleaned to plain names below the root. -/
theorem exists_fromRoot_of_isRooted {p : Path} (h : isRooted p = true) :
    ∃ ss, (∀ s ∈ ss, Plain s) ∧ clean p = fromRoot ss := by
  cases p with
  | nil => cases h
  | cons c p =>
      have hc : c = PathAlphabet.sep := by simpa [isRooted] using h
      rw [hc]
      exact exists_clean_sep p

/-- So is every path that `filepath.Abs` gives. -/
theorem exists_fromRoot_of_abs {srv : Server} (hwd : srv.Grounded) {p abs : Path}
    (h : srv.abs p = some abs) : ∃ ss, (∀ s ∈ ss, Plain s) ∧ abs = fromRoot ss := by
  unfold Server.abs at h
  split at h
  · next hp =>
      obtain ⟨ss, hss, hclean⟩ := exists_fromRoot_of_isRooted hp
      exact ⟨ss, hss, (Option.some.inj h).symm.trans hclean⟩
  · obtain ⟨wd, hsome, hjoin⟩ := Option.map_eq_some_iff.mp h
    have hroot := hwd wd hsome
    have hne : wd ≠ [] := by
      rintro rfl
      cases hroot
    rw [join, if_neg hne] at hjoin
    have hroot' : isRooted (wd ++ PathAlphabet.sep :: p) = true := by
      cases wd with
      | nil => exact absurd rfl hne
      | cons c wd => exact hroot
    obtain ⟨ss, hss, hclean⟩ := exists_fromRoot_of_isRooted hroot'
    exact ⟨ss, hss, hjoin.symm.trans hclean⟩

/-- The directory of a resolved path is the place above. -/
theorem loc_dir_of_resolveUnder {srv : Server} (hwd : srv.Grounded) {root rel abs : Path}
    (h : srv.resolveUnder root rel = some abs) : loc (dir abs) = (loc abs).dropLast := by
  obtain ⟨ss, hss, rfl⟩ : ∃ ss, (∀ s ∈ ss, Plain s) ∧ abs = fromRoot ss := by
    unfold Server.resolveUnder at h
    split at h
    · next absAbs _ habs =>
        split at h
        · cases h
        · exact Option.some.inj h ▸ exists_fromRoot_of_abs hwd habs
    · cases h
  have hlast : ∀ s ∈ ss.dropLast, Plain s := fun s hs => hss s (List.dropLast_subset _ hs)
  rw [dir_fromRoot hss, loc_fromRoot hlast, loc_fromRoot hss]

/-! ## the disk -/

/-- Looking at an entry that is there does not fail, and reading what is no
file does. -/
def Looks (w : World) : (e : Eff) → e.Reply → Prop
  | .stat p, r => (∃ e, r = .error e) → w.tree (loc p) = none
  | .read p _ _, r => r.2 = none → w.tree.content (loc p) ≠ none
  | _, _ => True

def seeing (tempDir : Path) : Env Eff.Reply World :=
  fun w e r w' => disk tempDir w e r w' ∧ Looks w e r

/-! ## copies -/

/-- What a copy should leave. -/
structure Copied (t t' : Tree) (src dst : Loc) : Prop where
  destination : ∃ bs, t.content src = some bs ∧ t'.content dst = some bs
  source : t'.content src = t.content src
  others : ∀ x, x ≠ src → x ≠ dst → t'.content x = t.content x

/-- What it does leave: the source is read after the destination is cut. -/
def Streamed (t t' : Tree) (src dst : Loc) : Prop :=
  ∃ bs, t.content src = some bs ∧
    ∀ x, t'.content x = if x = dst then some (if src = dst then [] else bs) else t.content x

/-- A stream is a copy unless a file with content is streamed onto itself. -/
theorem Streamed.copied_iff {t t' : Tree} {src dst : Loc} (h : Streamed t t' src dst) :
    Copied t t' src dst ↔ ¬ (src = dst ∧ t.content src ≠ some []) := by
  obtain ⟨bs, hbs, hafter⟩ := h
  by_cases heq : src = dst
  · subst heq
    have hsrc : t'.content src = some [] := by rw [hafter, if_pos rfl, if_pos rfl]
    constructor
    · rintro hcopied ⟨-, hne⟩
      exact hne (hcopied.source ▸ hsrc)
    · intro hempty
      have hnil : t.content src = some [] := by simpa using hempty
      refine ⟨⟨[], hnil, hsrc⟩, hsrc.trans hnil.symm, fun x hx _ => ?_⟩
      rw [hafter, if_neg hx]
  · refine iff_of_true ⟨⟨bs, hbs, ?_⟩, ?_, fun x _ hx => ?_⟩ fun h => heq h.1
    · rw [hafter, if_pos rfl, if_neg heq]
    · rw [hafter, if_neg heq]
    · rw [hafter, if_neg hx]

section Copies

variable {tempDir src dst : Path} {w : World}

/-- Storing a longer content is one way to append. -/
theorem appends_store {t : Tree} {x : Loc} {old : List UInt8} (h : t.content x = some old)
    (i : EntryInfo) (bs : List UInt8) : Appends t x bs (t.store x i (old ++ bs)) := by
  unfold Appends
  rw [h]
  exact ⟨i, rfl⟩

/-- Appending changes the content of its file and of no other. -/
theorem content_of_appends {t t' : Tree} {x : Loc} {old bs : List UInt8}
    (hold : t.content x = some old) (h : Appends t x bs t') (y : Loc) :
    t'.content y = if y = x then some (old ++ bs) else t.content y := by
  unfold Appends at h
  rw [hold] at h
  obtain ⟨i, rfl⟩ := h
  exact FileTree.content_store ..

/-- Cut, read, write. -/
theorem streamed_of_cut {t t' : Tree} {src dst : Loc} {i above : EntryInfo} {n : Nat}
    {bytes : List UInt8} (hsrc : t src ≠ none) (hdst : ¬ t.IsDir dst)
    (hfile : (t.put dst i [] above).content src ≠ none)
    (hbytes : bytes = window (((t.put dst i [] above).content src).getD []) 0 none)
    (hn : n = bytes.length) (happ : Appends (t.put dst i [] above) dst (bytes.take n) t') :
    Streamed t t' src dst := by
  have hput (x : Loc) :
      (t.put dst i [] above).content x = if x = dst then some [] else t.content x :=
    FileTree.content_put ..
  have hafter (x : Loc) : t'.content x = if x = dst then some bytes else t.content x := by
    rw [content_of_appends (hput dst ▸ if_pos rfl) happ x, hput, hn, List.take_length,
      List.nil_append]
    split <;> rfl
  rw [hput] at hfile hbytes
  by_cases heq : src = dst
  · subst heq
    obtain ⟨bs, hbs⟩ := FileTree.exists_content hsrc hdst
    refine ⟨bs, hbs, fun x => ?_⟩
    rw [hafter, hbytes, if_pos rfl, if_pos rfl]
    rfl
  · rw [if_neg heq] at hfile hbytes
    obtain ⟨bs, hbs⟩ := Option.ne_none_iff_exists'.mp hfile
    refine ⟨bs, hbs, fun x => ?_⟩
    rw [hafter, hbytes, hbs, if_neg heq]
    rfl

/-- A copy that succeeds has streamed its source into its destination. -/
theorem ensures_copyFileContents (src dst : Path) (w : World) :
    Prog.Ensures (seeing tempDir)
      (fun w' r => r = .ok () → Streamed w.tree w'.tree (loc src) (loc dst)) w
      (copyFileContents src dst) := by
  refine Prog.ensures_op fun opened w₁ hopened => ?_
  obtain ⟨⟨rfl, hthere⟩, -⟩ := hopened
  cases opened with
  | error e => exact nofun
  | ok u =>
      refine Prog.ensures_op fun created w₂ hcreated => ?_
      obtain ⟨⟨rfl, e, rfl⟩ | ⟨rfl, -, hdst, i, above, rfl⟩, -⟩ := hcreated
      · exact nofun
      · refine Prog.ensures_op fun read w₃ hread => ?_
        obtain ⟨⟨rfl, -, hbytes⟩, hfile⟩ := hread
        refine Prog.ensures_op fun wrote w₄ hwrote => ?_
        obtain ⟨⟨-, hall, t, happ, rfl⟩, -⟩ := hwrote
        refine Prog.ensures_op fun closed w₅ hclosed => ?_
        obtain ⟨rfl, -⟩ := hclosed
        obtain ⟨bytes, readErr⟩ := read
        obtain ⟨n, writeErr⟩ := wrote
        cases readErr with
        | some e => exact nofun
        | none =>
            cases writeErr with
            | some e => exact nofun
            | none =>
                rintro -
                exact streamed_of_cut (hthere rfl) hdst (hfile rfl) (hbytes rfl) (hall rfl) happ

/-- The check for a conflict finds what is there. -/
theorem ensures_destinationExists (overwrite : Bool) (abs : Path) (w : World) :
    Prog.Ensures (seeing tempDir)
      (fun w' there => w' = w ∧ (there = false → overwrite = true ∨ w.tree (loc abs) = none)) w
      (destinationExists overwrite abs) := by
  unfold destinationExists
  split
  · next hover => exact ⟨rfl, fun _ => .inl hover⟩
  · refine Prog.ensures_op fun r w₁ hr => ?_
    obtain ⟨⟨rfl, -⟩, hlook⟩ := hr
    cases r with
    | ok info => exact ⟨rfl, nofun⟩
    | error e => exact ⟨rfl, fun _ => .inr (hlook ⟨e, rfl⟩)⟩

/-- A copy that is answered 2xx. -/
theorem ensures_handleCopyFile {srv : Server} {sc : Scope} {body : CommonBody} {sd : SrcDstBody}
    (hbody : srcDstFromBody body.raw = some sd)
    (hsrc : srv.resolveUnder sc.root sd.source = some src)
    (hdst : srv.resolveUnder sc.root sd.destination = some dst) (w : World) :
    Prog.Ensures (seeing tempDir)
      (fun w' resp => resp.Ok → Streamed w.tree w'.tree (loc src) (loc dst) ∧
        (sd.overwriteExisting = true ∨ w.tree (loc dst) = none)) w
      (srv.handleCopyFile sc body) := by
  unfold Server.handleCopyFile Server.applySrcDstOp
  rw [hbody]
  dsimp only
  rw [hsrc]
  dsimp only
  rw [hdst]
  refine Prog.Safe.bind (ensures_destinationExists sd.overwriteExisting dst w) ?_
  rintro _ there ⟨rfl, hfree⟩
  cases there with
  | true => exact fun hok => absurd hok (by decide)
  | false =>
      refine Prog.ensures_perform_bind fun made w₁ hmade => ?_
      cases made with
      | error e => exact fun hok => absurd hok (not_ok_mkdirFailed e)
      | ok u =>
          obtain ⟨⟨-, e, he⟩ | ⟨x, i, -, -, -, rfl⟩, -⟩ := hmade
          · cases he
          · refine Prog.Safe.bind (ensures_copyFileContents src dst _) fun w' r hr => ?_
            cases r with
            | error e => exact fun hok => absurd hok (not_ok_metaError e)
            | ok u =>
                refine fun _ => ⟨?_, hfree rfl⟩
                simpa only [Streamed, FileTree.content_mkdirs] using hr rfl

/-- Nothing stops a file from being copied onto itself. -/
theorem exists_copyFileContents_self (hsame : loc src = loc dst)
    (hdir : w.tree.IsDir (loc dst).dropLast) {bs : List UInt8}
    (hbs : w.tree.content (loc dst) = some bs) :
    ∃ w', Prog.EvalsTo (seeing tempDir) w (copyFileContents src dst) w' (.ok ()) := by
  have hfile := FileTree.content_eq_some_iff.mp hbs
  have hcut : (w.tree.put (loc dst) newEntry [] newEntry).content (loc dst) = some [] := by
    rw [FileTree.content_put, if_pos rfl]
  have hopen : seeing tempDir w (.openFile src) (.ok ()) w := by
    refine ⟨⟨rfl, fun _ hnone => ?_⟩, trivial⟩
    rw [hsame, ← FileTree.shape_eq_none_iff, hfile] at hnone
    cases hnone
  have hcreate : seeing tempDir w (.create dst) (.ok ())
      { w with tree := w.tree.put (loc dst) newEntry [] newEntry } := by
    refine ⟨.inr ⟨rfl, hdir, fun h => ?_, newEntry, newEntry, rfl⟩, trivial⟩
    rw [FileTree.isDir_iff_shape, hfile] at h
    cases h
  have hread : seeing tempDir { w with tree := w.tree.put (loc dst) newEntry [] newEntry }
      (.read src 0 none) ([], none)
      ⟨w.tree.put (loc dst) newEntry [] newEntry, loc src :: w.reads, w.writeCount⟩ := by
    refine ⟨⟨rfl, List.nil_prefix, fun _ => ?_⟩, fun _ => ?_⟩
    · simp [hsame, hcut, window]
    · simp [hsame, hcut]
  have hwrite : seeing tempDir
      ⟨w.tree.put (loc dst) newEntry [] newEntry, loc src :: w.reads, w.writeCount⟩
      (.write dst []) (0, none)
      ⟨(w.tree.put (loc dst) newEntry [] newEntry).store (loc dst) newEntry [],
        loc src :: w.reads, w.writeCount⟩ :=
    ⟨⟨Nat.le_refl _, fun _ => rfl, _, appends_store hcut newEntry [], rfl⟩, trivial⟩
  exact ⟨_, .step hopen (.step hcreate (.step hread (.step hwrite
    (.step (r := .ok ()) ⟨rfl, trivial⟩ (.refl ..)))))⟩

/-- A file that is copied onto itself is cut to nothing. -/
theorem exists_selfCopy {srv : Server} {sc : Scope} {body : CommonBody} {sd : SrcDstBody}
    (hwd : srv.Grounded) (hbody : srcDstFromBody body.raw = some sd)
    (hsrc : srv.resolveUnder sc.root sd.source = some src)
    (hdst : srv.resolveUnder sc.root sd.destination = some dst) (hsame : loc src = loc dst)
    (hover : sd.overwriteExisting = true) (htree : w.tree.WellFormed) {bs : List UInt8}
    (hbs : w.tree.content (loc dst) = some bs) :
    ∃ w', Prog.EvalsTo (seeing tempDir) w (srv.handleCopyFile sc body) w' .done := by
  have hfile : w.tree.shape (loc dst) = some (some bs) := FileTree.content_eq_some_iff.mp hbs
  have hsome : w.tree (loc dst) ≠ none := by
    rw [Ne, ← FileTree.shape_eq_none_iff, hfile]
    simp
  have hne : loc dst ≠ [] := by
    intro hnil
    rw [hnil] at hfile
    cases hfile.symm.trans (FileTree.isDir_iff_shape.mp htree.root)
  have hproper : ¬ loc dst <+: (loc dst).dropLast := fun h => by
    have := h.length_le
    have := List.length_pos_iff.mpr hne
    rw [List.length_dropLast] at *
    omega
  -- the directories above are there
  have habove (y : Loc) (hy : y <+: (loc dst).dropLast) : w.tree.content y = none := by
    obtain ⟨i, hi⟩ := htree.isDir_of_prefix hsome (hy.trans (List.dropLast_prefix _)) (by
      rintro rfl
      exact hproper hy)
    rw [FileTree.content, hi]
    rfl
  have hdir := loc_dir_of_resolveUnder hwd hdst
  unfold Server.handleCopyFile Server.applySrcDstOp
  rw [hbody]
  dsimp only
  rw [hsrc]
  dsimp only
  have hfree : destinationExists sd.overwriteExisting dst = .ret false := by
    rw [hover]
    rfl
  rw [hdst]
  dsimp only
  rw [hfree, Prog.ret_bind, if_neg (by simp)]
  have hmkdir : seeing tempDir w (.mkdirAll (dir dst)) (.ok ())
      { w with tree := w.tree.mkdirs (loc dst).dropLast fun _ => newEntry } :=
    ⟨.inr ⟨_, _, hdir ▸ List.prefix_refl _, habove, fun _ => hdir.symm, rfl⟩, trivial⟩
  have hparent : (w.tree.mkdirs (loc dst).dropLast fun _ => newEntry).IsDir (loc dst).dropLast := by
    rw [FileTree.isDir_iff_shape, FileTree.shape_mkdirs, if_pos (List.prefix_refl _),
      habove _ (List.prefix_refl _)]
  obtain ⟨w', hcopy⟩ : ∃ w', Prog.EvalsTo (seeing tempDir)
      { w with tree := w.tree.mkdirs (loc dst).dropLast fun _ => newEntry }
      (copyFileContents src dst) w' (.ok ()) :=
    exists_copyFileContents_self hsame hparent ((FileTree.content_mkdirs ..).trans hbs)
  exact ⟨w', (Prog.evalsTo_perform hmkdir).bind (hcopy.bind (.refl ..))⟩

end Copies

/-- **Copies**: every copy that is answered 2xx leaves the content of the source
at the destination and changes nothing else, if and only if it is not an
overwriting copy of a file with content onto itself. -/
theorem copy_semantics_iff {srv : Server} (hwd : srv.Grounded) {sc : Scope} {body : CommonBody}
    {sd : SrcDstBody} (hbody : srcDstFromBody body.raw = some sd) {src dst : Path}
    (hsrc : srv.resolveUnder sc.root sd.source = some src)
    (hdst : srv.resolveUnder sc.root sd.destination = some dst) {w : World}
    (htree : w.tree.WellFormed) :
    (∀ w' resp, Prog.EvalsTo (seeing srv.tempDir) w (srv.handleCopyFile sc body) w' resp →
        resp.Ok → Copied w.tree w'.tree (loc src) (loc dst)) ↔
      ¬ (loc src = loc dst ∧ sd.overwriteExisting = true ∧
        ∃ b bs, w.tree.content (loc src) = some (b :: bs)) := by
  constructor
  · rintro h ⟨hsame, hover, b, bs, hbs⟩
    obtain ⟨w', hrun⟩ := exists_selfCopy hwd hbody hsrc hdst hsame hover htree (hsame ▸ hbs)
    obtain ⟨hstreamed, -⟩ := hrun.post (ensures_handleCopyFile hbody hsrc hdst w) (by decide)
    refine hstreamed.copied_iff.mp (h w' .done hrun (by decide)) ⟨hsame, ?_⟩
    simp [hbs]
  · intro h w' resp hrun hok
    obtain ⟨hstreamed, hfree⟩ := hrun.post (ensures_handleCopyFile hbody hsrc hdst w) hok
    refine hstreamed.copied_iff.mpr ?_
    rintro ⟨hsame, hne⟩
    obtain ⟨bs, hbs, -⟩ := hstreamed
    rcases hfree with hover | hnone
    · cases bs with
      | nil => exact hne hbs
      | cons b bs => exact h ⟨hsame, hover, b, bs, hbs⟩
    · rw [hsame, FileTree.content, hnone] at hbs
      cases hbs

/-! ## a volume with one file -/

def rwScope : Scope := ⟨"fsrw".toList, "/rw".toList, false⟩

/-- The scope to write to has a file `x` of one byte. -/
def oneFile : World :=
  { emptyVolumes with
    tree := emptyVolumes.tree.store ["rw".toList, "x".toList] newEntry [7] }

theorem twoScopes_grounded : twoScopes.Grounded := by
  rintro wd ⟨⟩

theorem emptyVolumes_wellFormed : emptyVolumes.tree.WellFormed := by
  refine ⟨⟨newEntry, rfl⟩, fun x s hxs => ?_⟩
  have hmem : x ++ [s] ∈ [[], ["rw".toList], ["ro".toList]] :=
    Decidable.byContradiction fun hnot => hxs (if_neg hnot)
  simp only [List.mem_cons, List.append_eq_nil_iff, List.cons_ne_self, and_false, false_or,
    List.not_mem_nil, or_false, List.append_eq_singleton_iff] at hmem
  have hnil : x = [] := by grind
  exact ⟨newEntry, hnil ▸ rfl⟩

theorem oneFile_wellFormed : oneFile.tree.WellFormed :=
  emptyVolumes_wellFormed.store (isDir_iff.mp (by decide +kernel))
    (fun h => absurd (isDir_iff.mpr h) (by decide +kernel)) _ _

def copyBody (text : String) : CommonBody := ⟨[], ⟨[], false⟩, text.toUTF8.toList⟩

/-- From `x` to `y`. -/
def copyAway : CommonBody := copyBody "\x7b\"source\":\"x\",\"destination\":\"y\"\x7d"

/-- From `x` to `x`, spelled in two ways. -/
def copyOnto : CommonBody :=
  copyBody "\x7b\"source\":\"x\",\"destination\":\"y/../x\",\"overwrite_existing\":true\x7d"

/-- A copy to another place is as it should be. -/
theorem copy_semantics_away :
    oneFile.tree.content ["rw".toList, "x".toList] = some [7] ∧
      ∀ w' resp, Prog.EvalsTo (seeing twoScopes.tempDir) oneFile
        (twoScopes.handleCopyFile rwScope copyAway) w' resp → resp.Ok →
          Copied oneFile.tree w'.tree ["rw".toList, "x".toList] ["rw".toList, "y".toList] := by
  have hbody : srcDstFromBody copyAway.raw = some ⟨"x".toList, "y".toList, false⟩ := by
    decide +kernel
  have hsrc : twoScopes.resolveUnder rwScope.root "x".toList = some "/rw/x".toList := by
    decide +kernel
  have hdst : twoScopes.resolveUnder rwScope.root "y".toList = some "/rw/y".toList := by
    decide +kernel
  have hlocs : loc "/rw/x".toList = ["rw".toList, "x".toList] ∧
      loc "/rw/y".toList = ["rw".toList, "y".toList] := by
    decide +kernel
  refine ⟨by decide +kernel, ?_⟩
  rw [← hlocs.1, ← hlocs.2]
  refine (copy_semantics_iff twoScopes_grounded hbody hsrc hdst oneFile_wellFormed).mpr ?_
  rintro ⟨-, hover, -⟩
  cases hover

/-- A copy onto itself empties the file and is answered 200. -/
theorem copy_onto_itself_empties :
    oneFile.tree.content ["rw".toList, "x".toList] = some [7] ∧
      ∃ w', Prog.EvalsTo (seeing twoScopes.tempDir) oneFile
          (twoScopes.handleCopyFile rwScope copyOnto) w' .done ∧
        Response.done.Ok ∧ w'.tree.content ["rw".toList, "x".toList] = some [] := by
  have hbody : srcDstFromBody copyOnto.raw = some ⟨"x".toList, "y/../x".toList, true⟩ := by
    decide +kernel
  have hsrc : twoScopes.resolveUnder rwScope.root "x".toList = some "/rw/x".toList := by
    decide +kernel
  have hdst : twoScopes.resolveUnder rwScope.root "y/../x".toList = some "/rw/x".toList := by
    decide +kernel
  have hloc : loc "/rw/x".toList = ["rw".toList, "x".toList] := by decide +kernel
  have hbs : oneFile.tree.content (loc "/rw/x".toList) = some [7] := by decide +kernel
  obtain ⟨w', hrun⟩ : ∃ w', Prog.EvalsTo (seeing twoScopes.tempDir) oneFile
      (twoScopes.handleCopyFile rwScope copyOnto) w' .done :=
    exists_selfCopy twoScopes_grounded hbody hsrc hdst rfl rfl oneFile_wellFormed hbs
  obtain ⟨⟨bs, -, hafter⟩, -⟩ :=
    hrun.post (ensures_handleCopyFile hbody hsrc hdst oneFile) (by decide)
  refine ⟨hloc ▸ hbs, w', hrun, by decide, ?_⟩
  rw [← hloc, hafter, if_pos rfl, if_pos rfl]

end OcuFilestore.Peer
