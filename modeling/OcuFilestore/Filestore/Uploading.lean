import OcuFilestore.Filestore.Forms

/-!
# OcuFilestore.Filestore.Uploading

`fileUpload` of the filestore peer, on a disk that is given beforehand.

An upload opens its destination before it knows whether all of the part will
arrive.  `Opens` says when it comes to that; `received` is what is at the
destination afterwards.
-/

namespace OcuFilestore.Peer

open SlashPath

/-! ## the destination -/

/-- The destination can be opened. -/
structure DiskRun.Ready {tempDir : Path} {dst : Loc} (o : DiskRun tempDir dst) (w : World)
    (overwrite : Bool) : Prop where
  free : overwrite = true ∨ w.tree dst = none
  mkdirErr : o.mkdirErr = none
  above : ∀ y, y <+: dst.dropLast → w.tree.content y = none
  createErr : o.createErr = none
  notRoot : dst ≠ []
  notDir : ¬ w.tree.IsDir dst

/-- What is at the destination once it was opened and these bytes were sent. -/
def DiskRun.received {tempDir : Path} {dst : Loc} (o : DiskRun tempDir dst) (declared : Int)
    (sent : List UInt8) : Option (List UInt8) :=
  if o.copyErr.isSome then some (sent.take o.copied)
  else if o.closeErr.isSome then some sent
  else if (sent.length : Int) ≠ declared ∧ o.removeErr.isNone then none
  else some sent

structure DiskRun.Accepts {tempDir : Path} {dst : Loc} (o : DiskRun tempDir dst) (declared : Int)
    (sent : List UInt8) : Prop where
  copyErr : o.copyErr = none
  closeErr : o.closeErr = none
  size : (sent.length : Int) = declared

/-- A request that is refused, and leaves the destination as it is. -/
structure Refused (dst : Loc) (w : World) (r : World × Response) : Prop where
  status : ¬ r.2.Ok
  content : r.1.tree.content dst = w.tree.content dst

/-- A request that has opened the destination. -/
structure Stored {tempDir : Path} {dst : Loc} (o : DiskRun tempDir dst) (declared : Int)
    (sent : List UInt8) (r : World × Response) : Prop where
  status : r.2.Ok ↔ o.Accepts declared sent
  content : r.1.tree.content dst = o.received declared sent

section Destination

variable {tempDir : Path} {dst : Loc} {o : DiskRun tempDir dst} {w : World} {abs : Path}
  {bytes : List UInt8}

/-- The check for a conflict looks at the tree, unless overwriting is allowed.
-/
theorem runIn_destinationExists (o : DiskRun tempDir dst) (w : World) (overwrite : Bool)
    (abs : Path) :
    Prog.runIn o.answer w (destinationExists overwrite abs) =
      (w, !overwrite && (w.tree (loc abs)).isSome) := by
  cases overwrite with
  | true => rfl
  | false =>
      have hstat : o.answer w (.stat abs) = Peer.answer w (.stat abs) := rfl
      rw [destinationExists, if_neg (by simp), Prog.runIn_perform_bind, hstat]
      simp only [Peer.answer]
      cases w.tree (loc abs) <;> rfl

/-- The parents of the destination are made, or something is in the way and
the tree stays. -/
theorem answer_mkdirAll (hdir : loc (dir abs) = dst.dropLast) :
    (o.mkdirErr = none ∧ (∀ y, y <+: dst.dropLast → w.tree.content y = none) ∧
        o.answer w (.mkdirAll (dir abs)) =
          (.ok (), { w with tree := w.tree.mkdirs dst.dropLast fun _ => newEntry })) ∨
      (∃ e, o.answer w (.mkdirAll (dir abs)) = (.error e, w)) ∧
        ¬ (o.mkdirErr = none ∧ ∀ y, y <+: dst.dropLast → w.tree.content y = none) := by
  simp only [DiskRun.answer, Peer.answer, hdir]
  cases herr : o.mkdirErr with
  | some e => exact .inr ⟨⟨e, rfl⟩, fun h => by cases h.1⟩
  | none =>
      have hiff : (dst.dropLast.inits.all fun y => (w.tree.content y).isNone) = true ↔
          ∀ y, y <+: dst.dropLast → w.tree.content y = none := by
        simp [List.all_eq_true]
      dsimp only
      split
      · next hall => exact .inl ⟨rfl, hiff.mp hall, rfl⟩
      · next hall => exact .inr ⟨⟨_, rfl⟩, fun h => hall (hiff.mpr h.2)⟩

/-- The destination is truncated or made, or stays as it is. -/
theorem answer_create (hdst : loc abs = dst) (hparent : w.tree.IsDir dst.dropLast) :
    (o.createErr = none ∧ ¬ w.tree.IsDir dst ∧
        o.answer w (.create abs) =
          (.ok (), { w with tree := w.tree.put dst newEntry [] newEntry })) ∨
      (∃ e, o.answer w (.create abs) = (.error e, w)) ∧
        ¬ (o.createErr = none ∧ ¬ w.tree.IsDir dst) := by
  simp only [DiskRun.answer, Peer.answer, hdst]
  cases herr : o.createErr with
  | some e => exact .inr ⟨⟨e, rfl⟩, fun h => by cases h.1⟩
  | none =>
      have hiff : (isDir w.tree dst.dropLast && !isDir w.tree dst) = true ↔
          ¬ w.tree.IsDir dst := by
        rw [isDir_iff.mpr hparent, Bool.true_and, Bool.not_eq_true', ← isDir_iff,
          Bool.not_eq_true]
      dsimp only
      split
      · next hfree => exact .inl ⟨rfl, hiff.mp hfree, rfl⟩
      · next hbusy => exact .inr ⟨⟨_, rfl⟩, fun h => hbusy (hiff.mpr h.2)⟩

/-- Of a part that is too long the front is sent. -/
theorem runIn_readPart {part : FileSource} (h : part.Holds w dst bytes) :
    ∃ w₁, Prog.runIn o.answer w (readPart part) = (w₁, bytes.take maxUploadBytes, none) ∧
      w₁.tree = w.tree := by
  cases part with
  | memory bs => exact ⟨w, by rw [← h]; rfl, rfl⟩
  | disk tmp start size =>
      obtain ⟨-, pre, post, hcontent, rfl, rfl⟩ := h
      refine ⟨{ w with reads := loc tmp :: w.reads }, ?_, rfl⟩
      have hread : window ((w.tree.content (loc tmp)).getD []) pre.length
          (some (min bytes.length maxUploadBytes)) = bytes.take maxUploadBytes := by
        rw [hcontent, Option.getD_some, window, List.append_assoc, List.drop_left,
          List.take_append_of_le_length (Nat.min_le_left ..), Nat.min_comm, ← List.take_take,
          List.take_length]
      exact Prod.ext rfl (Prod.ext hread rfl)

/-- A part is not touched by what happens at the destination. -/
theorem FileSource.Holds.congr {part : FileSource} {w₁ : World} (h : part.Holds w dst bytes)
    (hsame : ∀ x, x ≠ dst → w₁.tree.content x = w.tree.content x) : part.Holds w₁ dst bytes := by
  cases part with
  | memory bs => exact h
  | disk tmp start size =>
      obtain ⟨hne, pre, post, hcontent, hstart, hsize⟩ := h
      exact ⟨hne, pre, post, (hsame _ hne).trans hcontent, hstart, hsize⟩

/-- The copy, as far as it gets. -/
theorem answer_copy (hdst : loc abs = dst) (hcut : w.tree.content dst = some [])
    (sent : List UInt8) :
    ∃ w₁, o.answer w (.write abs sent) =
        ((if o.copyErr.isSome then min o.copied sent.length else sent.length, o.copyErr), w₁) ∧
      w₁.tree.content dst = some (if o.copyErr.isSome then sent.take o.copied else sent) := by
  have hwrite (bs : List UInt8) :
      (Peer.answer w (.write abs bs)).2.tree.content dst = some bs := by
    rw [FileTree.content_eq_some_iff, shape_write (hdst ▸ hcut), if_pos hdst.symm, List.nil_append]
  simp only [DiskRun.answer, hdst, DiskRun.writeFails, if_true]
  cases o.copyErr with
  | none => exact ⟨_, rfl, hwrite sent⟩
  | some e =>
      refine ⟨_, rfl, (hwrite _).trans ?_⟩
      rw [← List.take_take, List.take_length]
      rfl

/-- A removal at the destination. -/
theorem content_remove (hdst : loc abs = dst) {bs : List UInt8} (h : w.tree.content dst = some bs) :
    (o.answer w (.remove abs)).2.tree.content dst =
      if o.removeErr.isNone then none else some bs := by
  simp only [DiskRun.answer, hdst, if_true]
  cases o.removeErr with
  | some e => exact h
  | none =>
      dsimp only
      rw [h, Option.isSome_some, if_pos rfl, FileTree.content_eq_join, FileTree.shape_prune]
      simp

/-- The disk with the destination made and empty. -/
def opened (w : World) (dst : Loc) : World :=
  { w with
    tree := (w.tree.mkdirs dst.dropLast fun _ => newEntry).put dst newEntry [] newEntry }

/-- What `storePart` does once the destination is open. -/
def copyPart (scope : Scope) (params : UploadParams) (abs : Path) (part : FileSource) :
    FsProg Response := do
  let (bytes, readErr) ← readPart part
  let (written, writeErr) ← .perform (Eff.write abs bytes)
  let closed ← .perform (Eff.close abs)
  if readErr.isSome || writeErr.isSome then return refuse 500 "write failed"
  match closed with
  | .error _ => return refuse 500 "close failed"
  | .ok () =>
      if (written : Int) ≠ params.declaredSizeBytes then
        let _ ← .perform (Eff.remove abs)
        return refuse 422 "streamed size does not match declared size"
      else fileMeta scope params.path abs

/-- Storing a part, up to the copy and from the copy on. -/
theorem storePart_eq (scope : Scope) (params : UploadParams) (abs : Path) (part : FileSource) :
    storePart scope params abs part = (do
      if ← destinationExists params.overwriteExisting abs then
        return refuse 409 "destination exists"
      match ← .perform (Eff.mkdirAll (dir abs)) with
      | .error _ => return refuse 500 "mkdir parent failed"
      | .ok () =>
          match ← .perform (Eff.create abs) with
          | .error e => return metaError e
          | .ok () => copyPart scope params abs part) :=
  rfl

theorem answer_close (o : DiskRun tempDir dst) (w : World) (p : Path) :
    o.answer w (.close p) = (match o.closeErr with | some e => .error e | none => .ok (), w) := by
  simp only [DiskRun.answer]
  cases o.closeErr <;> rfl

/-- The entry of a file that is there can be looked at. -/
theorem runIn_fileMeta (hdst : loc abs = dst) {bs : List UInt8} (h : w.tree.content dst = some bs)
    (scope : Scope) (rel : Path) :
    ∃ f, Prog.runIn o.answer w (fileMeta scope rel abs) = (w, .file f) := by
  have hstat : o.answer w (.stat abs) = Peer.answer w (.stat abs) := rfl
  rw [fileMeta, Prog.runIn_perform_bind, hstat]
  simp only [Peer.answer, hdst]
  rw [FileTree.content] at h
  cases hn : w.tree dst with
  | none => simp [hn] at h
  | some n => exact ⟨_, rfl⟩

/-- The copy of a part leaves what the disk took of it, or nothing. -/
theorem runIn_copyPart (hdst : loc abs = dst) {scope : Scope} {params : UploadParams}
    {part : FileSource} (hpart : part.Holds w dst bytes) :
    Stored o params.declaredSizeBytes (bytes.take maxUploadBytes)
      (Prog.runIn o.answer (opened w dst) (copyPart scope params abs part)) := by
  have hother (x : Loc) (hx : x ≠ dst) : (opened w dst).tree.content x = w.tree.content x := by
    rw [opened, FileTree.content_put, if_neg hx, FileTree.content_mkdirs]
  obtain ⟨w₃, hread, htree⟩ := runIn_readPart (o := o) (hpart.congr hother)
  have hcut : w₃.tree.content dst = some [] := by
    rw [htree, opened, FileTree.content_put, if_pos rfl]
  generalize bytes.take maxUploadBytes = sent at hread ⊢
  obtain ⟨w₄, hwrite, hcontent⟩ := answer_copy (o := o) hdst hcut sent
  rw [copyPart, Prog.runIn_bind, hread]
  dsimp only
  rw [Prog.runIn_perform_bind, hwrite, Prog.runIn_perform_bind, answer_close]
  dsimp only
  rw [Option.isSome_none, Bool.false_or]
  cases hcopy : o.copyErr with
  | some e =>
      rw [hcopy, Option.isSome_some, if_pos rfl] at hcontent
      refine ⟨iff_of_false (not_ok_refuse (by decide)) fun h => ?_, hcontent.trans ?_⟩
      · cases hcopy.symm.trans h.copyErr
      · simp [DiskRun.received, hcopy]
  | none =>
      rw [hcopy, Option.isSome_none, if_neg (by simp)] at hcontent
      rw [Option.isSome_none, if_neg (by simp)]
      cases hclose : o.closeErr with
      | some e =>
          refine ⟨iff_of_false (not_ok_refuse (by decide)) fun h => ?_, hcontent.trans ?_⟩
          · cases hclose.symm.trans h.closeErr
          · simp [DiskRun.received, hcopy, hclose]
      | none =>
          simp only [Bool.false_eq_true, if_false]
          by_cases hsize : (sent.length : Int) = params.declaredSizeBytes
          · obtain ⟨f, hmeta⟩ := runIn_fileMeta (o := o) hdst hcontent scope params.path
            rw [if_neg (not_not_intro hsize), hmeta]
            refine ⟨iff_of_true (ok_file f) ⟨hcopy, hclose, hsize⟩, hcontent.trans ?_⟩
            simp [DiskRun.received, hcopy, hclose, hsize]
          · rw [if_pos hsize, Prog.runIn_perform_bind]
            refine ⟨iff_of_false (not_ok_refuse (by decide)) fun h => hsize h.size, ?_⟩
            refine (content_remove hdst hcontent).trans ?_
            simp [DiskRun.received, hcopy, hclose, hsize]

/-- What is done with a part for which there is a place, or not. -/
theorem runIn_storePart (hdst : loc abs = dst) (hdir : loc (dir abs) = dst.dropLast)
    {scope : Scope} {params : UploadParams} {part : FileSource} (hpart : part.Holds w dst bytes) :
    (o.Ready w params.overwriteExisting ∧ Stored o params.declaredSizeBytes
        (bytes.take maxUploadBytes)
        (Prog.runIn o.answer w (storePart scope params abs part))) ∨
      ¬ o.Ready w params.overwriteExisting ∧
        Refused dst w (Prog.runIn o.answer w (storePart scope params abs part)) := by
  rw [storePart_eq, Prog.runIn_bind, runIn_destinationExists, hdst]
  dsimp only
  by_cases hfree : params.overwriteExisting = true ∨ w.tree dst = none
  · have hthere : (!params.overwriteExisting && (w.tree dst).isSome) = false := by
      rcases hfree with h | h <;> simp [h]
    rw [hthere, if_neg (by simp), Prog.runIn_perform_bind]
    rcases answer_mkdirAll (o := o) (w := w) hdir with ⟨hmk, habove, hmade⟩ | ⟨⟨e, herr⟩, hnot⟩
    · rw [hmade]
      dsimp only
      rw [Prog.runIn_perform_bind]
      have hparent : (w.tree.mkdirs dst.dropLast fun _ => newEntry).IsDir dst.dropLast := by
        rw [FileTree.isDir_iff_shape, FileTree.shape_mkdirs, if_pos (List.prefix_refl _),
          habove _ (List.prefix_refl _)]
      have hsame (hne : dst ≠ []) :
          (w.tree.mkdirs dst.dropLast fun _ => newEntry).shape dst = w.tree.shape dst := by
        rw [FileTree.shape_mkdirs, if_neg (not_prefix_dropLast hne)]
      rcases answer_create (o := o)
          (w := { w with tree := w.tree.mkdirs dst.dropLast fun _ => newEntry }) hdst hparent with
        ⟨hcr, hnotDir, hcreated⟩ | ⟨⟨e, herr⟩, hnot⟩
      · rw [hcreated]
        have hroot : dst ≠ [] := by
          rintro rfl
          exact hnotDir hparent
        rw [FileTree.isDir_iff_shape, hsame hroot, ← FileTree.isDir_iff_shape] at hnotDir
        refine .inl ⟨⟨hfree, hmk, habove, hcr, hroot, hnotDir⟩, ?_⟩
        exact runIn_copyPart hdst hpart
      · rw [herr]
        refine .inr ⟨fun h => hnot ⟨h.createErr, ?_⟩, not_ok_metaError e,
          FileTree.content_mkdirs ..⟩
        rw [FileTree.isDir_iff_shape, hsame h.notRoot, ← FileTree.isDir_iff_shape]
        exact h.notDir
    · rw [herr]
      exact .inr ⟨fun h => hnot ⟨h.mkdirErr, h.above⟩, not_ok_refuse (by decide), rfl⟩
  · have hthere : (!params.overwriteExisting && (w.tree dst).isSome) = true := by
      simp only [not_or, Bool.not_eq_true] at hfree
      simp [hfree.1, Option.isSome_iff_ne_none.mpr hfree.2]
    rw [hthere, if_pos rfl]
    exact .inr ⟨fun h => hfree h.free, not_ok_refuse (by decide), rfl⟩

end Destination

/-! ## whole uploads -/

/-- What an upload asks for: its parameters, and where they lead. -/
structure Server.Target (srv : Server) (q : Request) (body : MultipartBody) (params : UploadParams)
    (abs : Path) : Prop where
  multipart : q.multipart = some body
  asked : uploadParams (formValue q.query (partValues body.parts) "params".toList) = some params
  resolves : ∃ sc, srv.scopeOf params.filesystemID = some sc ∧
    srv.resolveUnder sc.root params.path = some abs

/-- The file part of an upload. -/
def filePart (body : MultipartBody) : Option (List UInt8) :=
  (partFiles body.parts).lookup "file".toList

/-- The upload of a part gets as far as opening its destination. -/
structure DiskRun.Opens {tempDir : Path} {dst : Loc} (o : DiskRun tempDir dst) (srv : Server)
    (w : World) (q : Request) (body : MultipartBody) (params : UploadParams)
    (part : List UInt8) : Prop where
  subject : srv.credentials.subject o.now q.authorization = .ok params.filesystemID
  complete : body.complete = true
  query : q.queryParses = true
  authorized : ∃ sc,
    srv.authorize (some .fileUpload) params.filesystemID params.filesystemID = .ok sc
  allowed : srv.perOpScope = some params.filesystemID → o.allow = true
  turn : ¬ (0 < srv.throttleEvery ∧ (w.writeCount + 1).tmod srv.throttleEvery = 0)
  file : filePart body = some part
  spooled : spools multipartMemory body.parts = true →
    ∃ n, o.TempFree w n ∧ o.spoolErr = none ∧ ¬ loc (tempPath tempDir n) <+: dst
  ready : o.Ready w params.overwriteExisting

section Uploads

variable {tempDir : Path} {dst : Loc} {o : DiskRun tempDir dst} {w w₁ w₂ : World} {srv : Server}

/-- The credential is checked at the time of the run. -/
theorem runIn_validate (o : DiskRun tempDir dst) (w : World) (v : Validator) (header : List Char) :
    Prog.runIn o.answer w (v.validate header) = (w, v.subject o.now header) := by
  cases v with
  | static credentials => rfl
  | jwt ec jwks issuer audience => rfl

/-- The charge of an operation is decided by the run. -/
theorem runIn_chargePerOp (o : DiskRun tempDir dst) (w : World) (srv : Server) (fsID : List Char) :
    Prog.runIn o.answer w (srv.chargePerOp fsID) =
      (w, if srv.perOpScope = some fsID then o.allow else true) := by
  unfold Server.chargePerOp
  split <;> rfl

/-- Throttling counts, and touches nothing else. -/
theorem runIn_throttled (o : DiskRun tempDir dst) (w : World) (srv : Server) :
    ∃ w₁, Prog.runIn o.answer w srv.throttled =
        (w₁, decide (0 < srv.throttleEvery ∧ (w.writeCount + 1).tmod srv.throttleEvery = 0)) ∧
      w₁.tree = w.tree := by
  unfold Server.throttled
  split
  · next h => exact ⟨w, Prod.ext rfl (by simp; omega), rfl⟩
  · next h =>
      refine ⟨{ w with writeCount := w.writeCount + 1 }, Prod.ext rfl ?_, rfl⟩
      have hpos : 0 < srv.throttleEvery := by omega
      rw [Prog.runIn_perform_bind]
      simp [hpos, DiskRun.answer, Peer.answer]
      rfl

/-- The first file of a name. -/
theorem lookup_holdsAll {sources : List (List Char × FileSource)}
    {files : List (List Char × List UInt8)} (h : HoldsAll w dst sources files) (key : List Char) :
    sources.lookup key = none ∧ files.lookup key = none ∨
      ∃ source bytes, sources.lookup key = some source ∧ files.lookup key = some bytes ∧
        source.Holds w dst bytes := by
  induction h with
  | nil => exact .inl ⟨rfl, rfl⟩
  | @cons a b _ _ hab _ ih =>
      obtain ⟨name, source⟩ := a
      obtain ⟨_, bytes⟩ := b
      obtain ⟨rfl, hholds⟩ := hab
      rw [List.lookup_cons, List.lookup_cons]
      dsimp only
      cases key == name with
      | true => exact .inr ⟨source, bytes, rfl, rfl, hholds⟩
      | false => exact ih

/-- The file part that is opened is the first of its name, with its bytes. -/
theorem runIn_formFile {form : Form} {files : List (List Char × List UInt8)}
    (h : HoldsAll w dst form.files files) (key : List Char) :
    Prog.runIn o.answer w (formFile form key) = (w, none) ∧ files.lookup key = none ∨
      ∃ source bytes, Prog.runIn o.answer w (formFile form key) = (w, some source) ∧
        files.lookup key = some bytes ∧ source.Holds w dst bytes := by
  unfold formFile
  rcases lookup_holdsAll h key with ⟨hsource, hfile⟩ | ⟨source, bytes, hsource, hfile, hholds⟩
  · rw [hsource]
    exact .inl ⟨rfl, hfile⟩
  · rw [hsource]
    refine .inr ⟨source, bytes, ?_, hfile, hholds⟩
    cases source with
    | memory bs => rfl
    | disk tmp start size =>
        obtain ⟨-, pre, post, hcontent, -⟩ := hholds
        have hsome : (w.tree (loc tmp)).isSome = true := by
          obtain ⟨i, hi⟩ := FileTree.exists_node hcontent
          rw [hi]
          rfl
        have hopen : o.answer w (.openFile tmp) = (.ok (), w) := by
          simp only [DiskRun.answer, Peer.answer, hsome, if_true]
        rw [Prog.runIn_perform_bind, hopen]
        rfl

/-- A temporary file is in the way of the destination only when it is above
it. -/
theorem ready_iff {tmp : Option (Path × Nat)} (h : Spooled o w w₁ tmp) (htree : w₂.tree = w₁.tree)
    (overwrite : Bool) :
    o.Ready w₂ overwrite ↔ o.Ready w overwrite ∧ ∀ spot ∈ tmp, ¬ loc spot.1 <+: dst := by
  have hdst : w₂.tree.shape dst = w.tree.shape dst := htree ▸ h.shape_dst
  have hnone : w₂.tree dst = none ↔ w.tree dst = none := by
    rw [← FileTree.shape_eq_none_iff, hdst, FileTree.shape_eq_none_iff]
  have hdir : w₂.tree.IsDir dst ↔ w.tree.IsDir dst := by
    rw [FileTree.isDir_iff_shape, hdst, ← FileTree.isDir_iff_shape]
  have habove : (∀ y, y <+: dst.dropLast → w₂.tree.content y = none) ↔
      (∀ y, y <+: dst.dropLast → w.tree.content y = none) ∧
        ∀ spot ∈ tmp, ¬ loc spot.1 <+: dst := by
    rw [htree]
    cases h with
    | none => simp
    | @some _ n bs has _ =>
        have hne := o.fresh n has.temp
        have hcontent (y : Loc) (hy : y ≠ loc (tempPath tempDir n)) :
            w₁.tree.content y = w.tree.content y :=
          FileTree.content_of_shape ((has.shape y).trans (if_neg hy))
        constructor
        · intro h
          have htemp : ¬ loc (tempPath tempDir n) <+: dst := fun hprefix =>
            absurd ((h _ (prefix_dropLast hprefix hne)).symm.trans has.content_temp) nofun
          refine ⟨fun y hy => ?_, fun spot hspot => ?_⟩
          · rw [← hcontent y, h y hy]
            rintro rfl
            exact htemp (hy.trans (List.dropLast_prefix _))
          · cases hspot
            exact htemp
        · rintro ⟨h, htemp⟩ y hy
          rw [hcontent y, h y hy]
          rintro rfl
          exact htemp _ rfl (hy.trans (List.dropLast_prefix _))
  constructor
  · intro hr
    obtain ⟨ha, htemp⟩ := habove.mp hr.above
    exact ⟨⟨hr.free.imp_right hnone.mp, hr.mkdirErr, ha, hr.createErr, hr.notRoot,
      fun hd => hr.notDir (hdir.mpr hd)⟩, htemp⟩
  · rintro ⟨hr, htemp⟩
    exact ⟨hr.free.imp_right hnone.mpr, hr.mkdirErr, habove.mpr ⟨hr.above, htemp⟩, hr.createErr,
      hr.notRoot, fun hd => hr.notDir (hdir.mp hd)⟩

/-- What is granted is a scope of the table, and a refusal is an error. -/
theorem authorize_cases (srv : Server) (opName : Option Op) (subject fsID : List Char) :
    (∃ sc, srv.authorize opName subject fsID = .ok sc ∧ srv.scopeOf fsID = some sc ∧
        subject = fsID) ∨
      ∃ status msg, srv.authorize opName subject fsID = .error (status, msg) ∧ 300 ≤ status := by
  unfold Server.authorize
  split
  · exact .inr ⟨_, _, rfl, by decide⟩
  · split
    · exact .inr ⟨_, _, rfl, by decide⟩
    · next hsubject =>
        cases hscope : srv.scopeOf fsID with
        | none => exact .inr ⟨_, _, rfl, by decide⟩
        | some sc =>
            dsimp only
            split
            · exact .inr ⟨_, _, rfl, by decide⟩
            · exact .inl ⟨sc, rfl, rfl, not_not.mp hsubject⟩

/-- A step that leaves the tree alone lets it grow by nothing. -/
theorem grows_of_tree (h : w₁.tree = w.tree) : Grows w w₁ :=
  fun x bs hbs => ⟨[], by rw [h, hbs, List.append_nil]⟩

/-- A reply that is no success, with the destination as it was, is a refusal.
-/
theorem refused_of_shape {r : World × Response} (hshape : r.1.tree.shape dst = w.tree.shape dst)
    (hstatus : ¬ r.2.Ok) : Refused dst w r :=
  ⟨hstatus, FileTree.content_of_shape hshape⟩

/-- Cleaning up behind a refusal leaves it a refusal. -/
theorem Refused.of_shape {r : World × Response} (h : Refused dst w r)
    (hshape : w₁.tree.shape dst = r.1.tree.shape dst) : Refused dst w (w₁, r.2) :=
  ⟨h.status, (FileTree.content_of_shape hshape).trans h.content⟩

/-- Cleaning up behind a stored part leaves it stored. -/
theorem Stored.of_shape {r : World × Response} {declared : Int} {sent : List UInt8}
    (h : Stored o declared sent r) (hshape : w₁.tree.shape dst = r.1.tree.shape dst) :
    Stored o declared sent (w₁, r.2) :=
  ⟨h.status, (FileTree.content_of_shape hshape).trans h.content⟩

variable {q : Request} {body : MultipartBody} {subject : List Char}
  {r : World × Option Form × Option Path} {form : Form} {tmp : Option (Path × Nat)}

/-- What was spooled is not above the destination. -/
theorem FormRead.spooled_iff {values files : List (List Char × List UInt8)} {spooled : Bool}
    (h : FormRead o w values files spooled r form tmp) :
    (∀ spot ∈ tmp, ¬ loc spot.1 <+: dst) ↔ (spooled = true →
      ∃ n, o.TempFree w n ∧ o.spoolErr = none ∧ ¬ loc (tempPath tempDir n) <+: dst) := by
  rw [← h.temp]
  cases h.spool with
  | none => simp
  | @some _ n bs has hspool =>
      constructor
      · exact fun hclear _ => ⟨n, has.toTempFree, hspool, hclear _ rfl⟩
      · intro hfree spot hspot
        obtain ⟨m, hm, -, hclear⟩ := hfree rfl
        cases hspot
        cases has.temp.symm.trans hm.temp
        exact hclear

/-- What `upload` does with parameters that are allowed. -/
def Server.uploadTo (srv : Server) (scope : Scope) (params : UploadParams) (form : Form) :
    FsProg Response := do
  if !(← srv.chargePerOp params.filesystemID) then
    return refuse 418 "per-op ceiling exceeded; back off and retry"
  if ← srv.throttled then
    return .retryAfter "1" 429 [.lit "throttled; retry after backoff"]
  match srv.resolveUnder scope.root params.path with
  | none => return refuse 400 "path escapes scope"
  | some abs =>
      match ← formFile form "file".toList with
      | none => return refuse 400 "missing file part"
      | some part => storePart scope params abs part

/-- An upload that gets past its checks is stored at its destination or
refused there. -/
theorem runIn_uploadTo (hwd : srv.Grounded) {params : UploadParams} {sc : Scope}
    (hbody : q.multipart = some body)
    (hdst : ∀ params abs, srv.Target q body params abs → loc abs = dst)
    (hsubject : srv.credentials.subject o.now q.authorization = .ok params.filesystemID)
    (hcomplete : body.complete = true) (hquery : q.queryParses = true)
    (hparams : uploadParams (formValue q.query (partValues body.parts) "params".toList) =
      some params)
    (hauthorized : srv.authorize (some .fileUpload) params.filesystemID params.filesystemID =
      .ok sc) (hscope : srv.scopeOf params.filesystemID = some sc)
    (hread : FormRead o w (partValues body.parts) (partFiles body.parts)
      (spools multipartMemory body.parts) r form tmp) :
    (∃ abs part, srv.Target q body params abs ∧ o.Opens srv w q body params part ∧
        Stored o params.declaredSizeBytes (part.take maxUploadBytes)
          (Prog.runIn o.answer r.1 (srv.uploadTo sc params form))) ∨
      (∀ abs part, srv.Target q body params abs → ¬ o.Opens srv w q body params part) ∧
        Refused dst w (Prog.runIn o.answer r.1 (srv.uploadTo sc params form)) := by
  have hkeep : r.1.tree.shape dst = w.tree.shape dst := hread.spool.shape_dst
  obtain ⟨w₁, hthrottled, htree⟩ := runIn_throttled o r.1 srv
  have hkeep₁ : w₁.tree.shape dst = w.tree.shape dst := htree ▸ hkeep
  rw [hread.spool.count] at hthrottled
  rw [Server.uploadTo, Prog.runIn_bind, runIn_chargePerOp]
  by_cases hallowed : srv.perOpScope = some params.filesystemID → o.allow = true
  · have hcharged : (if srv.perOpScope = some params.filesystemID then o.allow else true) =
        true := by
      split
      · next h => exact hallowed h
      · rfl
    rw [hcharged]
    dsimp only
    rw [if_neg (by simp), Prog.runIn_bind, hthrottled]
    by_cases hturn : 0 < srv.throttleEvery ∧ (w.writeCount + 1).tmod srv.throttleEvery = 0
    · dsimp only
      rw [if_pos (decide_eq_true hturn)]
      exact .inr ⟨fun _ _ _ h => h.turn hturn, refused_of_shape hkeep₁ not_ok_retryAfter⟩
    · dsimp only
      rw [if_neg (by simpa using hturn)]
      cases hres : srv.resolveUnder sc.root params.path with
      | none =>
          refine .inr ⟨fun abs part htarget _ => ?_,
            refused_of_shape hkeep₁ (not_ok_refuse (by decide))⟩
          obtain ⟨sc', hsc', habs⟩ := htarget.resolves
          cases hscope.symm.trans hsc'
          cases hres.symm.trans habs
      | some abs =>
          have htarget : srv.Target q body params abs := ⟨hbody, hparams, sc, hscope, hres⟩
          have hloc := hdst params abs htarget
          have hdir : loc (dir abs) = dst.dropLast := hloc ▸ loc_dir_of_resolveUnder hwd hres
          dsimp only
          rw [Prog.runIn_bind]
          rcases runIn_formFile (o := o) (hread.files.grow (grows_of_tree htree)) "file".toList with
            ⟨hrun, hnone⟩ | ⟨source, bytes, hrun, hfile, hholds⟩
          · rw [hrun]
            refine .inr ⟨fun abs part _ h => ?_,
              refused_of_shape hkeep₁ (not_ok_refuse (by decide))⟩
            cases hnone.symm.trans h.file
          · rw [hrun]
            dsimp only
            have hready := ready_iff hread.spool htree params.overwriteExisting
            rw [hread.spooled_iff] at hready
            rcases runIn_storePart (o := o) hloc hdir hholds with
              ⟨hr, hstored⟩ | ⟨hr, hrefused⟩
            · obtain ⟨hr', hspooled⟩ := hready.mp hr
              exact .inl ⟨abs, bytes, htarget, ⟨hsubject, hcomplete, hquery, ⟨sc, hauthorized⟩,
                hallowed, hturn, hfile, hspooled, hr'⟩, hstored⟩
            · exact .inr ⟨fun _ _ _ h => hr (hready.mpr ⟨h.ready, h.spooled⟩), hrefused.status,
                hrefused.content.trans (FileTree.content_of_shape hkeep₁)⟩
  · have hcharged : (if srv.perOpScope = some params.filesystemID then o.allow else true) =
        false := by
      rw [Classical.not_imp] at hallowed
      rw [if_pos hallowed.1]
      simpa using hallowed.2
    rw [hcharged]
    exact .inr ⟨fun _ _ _ h => hallowed h.allowed,
      refused_of_shape hkeep (not_ok_refuse (by decide))⟩

/-- `upload` refuses before it does anything, or goes on with its parameters. -/
theorem upload_cases (srv : Server) (q : Request) (subject : List Char) (form : Form) :
    (∃ params sc, q.queryParses = true ∧
        uploadParams (formValue q.query form.values "params".toList) = some params ∧
        srv.authorize (some .fileUpload) subject params.filesystemID = .ok sc ∧
        srv.scopeOf params.filesystemID = some sc ∧ subject = params.filesystemID ∧
        srv.upload q subject form = srv.uploadTo sc params form) ∨
      ∃ resp, srv.upload q subject form = .ret resp ∧ ¬ resp.Ok ∧ ∀ params sc,
        q.queryParses = true →
        uploadParams (formValue q.query form.values "params".toList) = some params →
        srv.authorize (some .fileUpload) subject params.filesystemID ≠ .ok sc := by
  have hnil : uploadParams [] = none := by decide +kernel
  unfold Server.upload
  dsimp only
  cases hquery : q.queryParses with
  | false => exact .inr ⟨_, if_pos rfl, not_ok_refuse (by decide), nofun⟩
  | true =>
      rw [if_neg (by simp)]
      by_cases hraw : formValue q.query form.values "params".toList = []
      · rw [if_pos hraw, hraw, hnil]
        exact .inr ⟨_, rfl, not_ok_refuse (by decide), fun _ _ _ h => nomatch h⟩
      · rw [if_neg hraw]
        cases hparams : uploadParams (formValue q.query form.values "params".toList) with
        | none => exact .inr ⟨_, rfl, not_ok_refuse (by decide), fun _ _ _ h => nomatch h⟩
        | some params =>
            dsimp only
            rcases authorize_cases srv (some .fileUpload) subject params.filesystemID with
              ⟨sc, hsc, hscope, hid⟩ | ⟨status, msg, herr, hstatus⟩
            · rw [hsc]
              exact .inl ⟨params, sc, rfl, rfl, hsc, hscope, hid, rfl⟩
            · rw [herr]
              refine .inr ⟨_, rfl, not_ok_refuse hstatus, fun params' sc _ h hok => ?_⟩
              cases h
              cases herr.symm.trans hok

/-- What becomes of an upload whose form was read. -/
theorem runIn_upload (hwd : srv.Grounded) (hbody : q.multipart = some body)
    (hdst : ∀ params abs, srv.Target q body params abs → loc abs = dst)
    (hsubject : srv.credentials.subject o.now q.authorization = .ok subject)
    (hcomplete : body.complete = true)
    (hread : FormRead o w (partValues body.parts) (partFiles body.parts)
      (spools multipartMemory body.parts) r form tmp) :
    (∃ params abs part, srv.Target q body params abs ∧ o.Opens srv w q body params part ∧
        Stored o params.declaredSizeBytes (part.take maxUploadBytes)
          (Prog.runIn o.answer r.1 (srv.upload q subject form))) ∨
      (∀ params abs part, srv.Target q body params abs → ¬ o.Opens srv w q body params part) ∧
        Refused dst w (Prog.runIn o.answer r.1 (srv.upload q subject form)) := by
  have hkeep : r.1.tree.shape dst = w.tree.shape dst := hread.spool.shape_dst
  rcases upload_cases srv q subject form with
    ⟨params, sc, hquery, hparams, hauthorized, hscope, rfl, heq⟩ | ⟨resp, heq, hstatus, hnot⟩
  · rw [hread.values] at hparams
    rw [heq]
    rcases runIn_uploadTo hwd hbody hdst hsubject hcomplete hquery hparams hauthorized hscope hread
      with ⟨abs, part, h⟩ | ⟨hnot, hrefused⟩
    · exact .inl ⟨params, abs, part, h⟩
    · refine .inr ⟨fun params' abs part htarget => ?_, hrefused⟩
      cases hparams.symm.trans htarget.asked
      exact hnot abs part htarget
  · rw [hread.values] at hnot
    rw [heq]
    refine .inr ⟨fun params abs part htarget h => ?_, refused_of_shape hkeep hstatus⟩
    obtain ⟨sc, hsc⟩ := h.authorized
    cases hsubject.symm.trans h.subject
    exact hnot params sc h.query htarget.asked hsc

/-- **Every upload** opens the destination of its parameters and is stored
there, or is refused and leaves it alone. -/
theorem serve_cases (hwd : srv.Grounded) (q : Request)
    (hdst : ∀ body params abs, srv.Target q body params abs → loc abs = dst)
    (o : DiskRun srv.tempDir dst) (w : World) :
    (∃ body params abs part, srv.Target q body params abs ∧ o.Opens srv w q body params part ∧
        Stored o params.declaredSizeBytes (part.take maxUploadBytes) (o.serve srv w q)) ∨
      (∀ body params abs part, srv.Target q body params abs →
        ¬ o.Opens srv w q body params part) ∧ Refused dst w (o.serve srv w q) := by
  unfold DiskRun.serve Server.handleFileUpload
  rw [Prog.runIn_bind, runIn_validate]
  cases hsubject : srv.credentials.subject o.now q.authorization with
  | error e =>
      refine .inr ⟨fun body params abs part _ h => ?_,
        refused_of_shape rfl (not_ok_refuse (by decide))⟩
      cases hsubject.symm.trans h.subject
  | ok subject =>
      dsimp only
      cases hbody : q.multipart with
      | none =>
          refine .inr ⟨fun body params abs part h _ => ?_,
            refused_of_shape rfl (not_ok_refuse (by decide))⟩
          cases hbody.symm.trans h.multipart
      | some body =>
          dsimp only
          rw [Prog.runIn_bind]
          rcases runIn_readForm o w body with ⟨form, tmp, hcomplete, hread⟩ | ⟨hnone, hshape, hlost⟩
          · rw [hread.result]
            dsimp only
            rw [Prog.runIn_bind, Prog.runIn_bind]
            have hremoved (w₁ : World) : (Prog.runIn o.answer w₁
                (removeTemp (tmp.map Prod.fst))).1.tree.shape dst = w₁.tree.shape dst := by
              refine shape_removeTemp fun p hp => ?_
              obtain ⟨spot, hspot, rfl⟩ := Option.map_eq_some_iff.mp hp
              exact hread.spool.temp_ne spot hspot
            rcases runIn_upload hwd hbody (hdst body) hsubject hcomplete hread with
              ⟨params, abs, part, htarget, hopens, hstored⟩ | ⟨hnot, hrefused⟩
            · exact .inl ⟨body, params, abs, part, htarget, hopens, hstored.of_shape (hremoved _)⟩
            · refine .inr ⟨fun body' params abs part htarget => ?_,
                hrefused.of_shape (hremoved _)⟩
              cases hbody.symm.trans htarget.multipart
              exact hnot params abs part htarget
          · generalize Prog.runIn o.answer w (readForm srv.tempDir body) = r at hnone hshape
            obtain ⟨w₁, form, tmp⟩ := r
            cases hnone
            refine .inr ⟨fun body' params abs part htarget h => ?_,
              refused_of_shape hshape (not_ok_refuse (by decide))⟩
            cases hbody.symm.trans htarget.multipart
            rcases hlost with hpartial | ⟨hspools, hlost⟩
            · cases hpartial.symm.trans h.complete
            · obtain ⟨n, hfree, hspool, -⟩ := h.spooled hspools
              exact hlost n hfree hspool

end Uploads

/-! ## all or nothing -/

/-- A success leaves the whole part at the destination, and it has the size
that was declared; anything else leaves the destination as it was. -/
def Server.AllOrNothing (srv : Server) (q : Request) (dst : Loc) (w : World)
    (r : World × Response) : Prop :=
  if r.2.Ok then
    ∃ body params abs part, srv.Target q body params abs ∧ filePart body = some part ∧
      (part.length : Int) = params.declaredSizeBytes ∧ r.1.tree.content dst = some part
  else r.1.tree.content dst = w.tree.content dst

/-- The copy goes well for a part of the size declared, up to the limit, or
what is left of it happens to be what was there before. -/
def DiskRun.Undamaged {tempDir : Path} {dst : Loc} (o : DiskRun tempDir dst)
    (old : Option (List UInt8)) (declared : Int) (part : List UInt8) : Prop :=
  let sent := part.take maxUploadBytes
  if o.copyErr.isSome then old = some (sent.take o.copied)
  else if o.closeErr.isSome then old = some sent
  else if (sent.length : Int) ≠ declared then
    old = if o.removeErr.isNone then none else some sent
  else part.length ≤ maxUploadBytes

section AllOrNothing

variable {dst : Loc} {srv : Server} {q : Request} {body : MultipartBody} {params : UploadParams}
  {abs : Path} {part : List UInt8} {w : World}

/-- A request has one destination at most. -/
theorem Server.Target.unique (h : srv.Target q body params abs) {body' : MultipartBody}
    {params' : UploadParams} {abs' : Path} (h' : srv.Target q body' params' abs') :
    body' = body ∧ params' = params ∧ abs' = abs := by
  cases h.multipart.symm.trans h'.multipart
  cases h.asked.symm.trans h'.asked
  obtain ⟨sc, hsc, habs⟩ := h.resolves
  obtain ⟨sc', hsc', habs'⟩ := h'.resolves
  cases hsc.symm.trans hsc'
  cases habs.symm.trans habs'
  exact ⟨rfl, rfl, rfl⟩

/-- A refused upload has left its destination alone. -/
theorem Refused.allOrNothing {r : World × Response} (h : Refused dst w r) :
    srv.AllOrNothing q dst w r := by
  rw [Server.AllOrNothing, if_neg h.status]
  exact h.content

/-- An upload that opened its destination is all or nothing if and only if
nothing was damaged. -/
theorem Stored.allOrNothing_iff {o : DiskRun srv.tempDir dst} {r : World × Response}
    (h : Stored o params.declaredSizeBytes (part.take maxUploadBytes) r)
    (htarget : srv.Target q body params abs) (hfile : filePart body = some part) :
    srv.AllOrNothing q dst w r ↔
      o.Undamaged (w.tree.content dst) params.declaredSizeBytes part := by
  unfold Server.AllOrNothing DiskRun.Undamaged
  rw [h.content, DiskRun.received]
  dsimp only
  by_cases haccepts : o.Accepts params.declaredSizeBytes (part.take maxUploadBytes)
  · obtain ⟨hcopy, hclose, hsize⟩ := haccepts
    rw [if_pos (h.status.mpr ⟨hcopy, hclose, hsize⟩), hcopy, hclose]
    simp only [hsize, Option.isSome_none, Bool.false_eq_true, if_false, ne_eq, not_true_eq_false,
      false_and, Option.some.injEq]
    constructor
    · rintro ⟨body', params', abs', part', htarget', hfile', -, hle⟩
      obtain ⟨rfl, rfl, -⟩ := htarget.unique htarget'
      cases hfile.symm.trans hfile'
      exact (List.take_eq_self_iff _).mp hle
    · intro hle
      have hwhole := List.take_of_length_le hle
      exact ⟨body, params, abs, part, htarget, hfile, hwhole ▸ hsize, hwhole⟩
  · rw [if_neg fun hok => haccepts (h.status.mp hok)]
    cases hcopy : o.copyErr with
    | some e => exact eq_comm
    | none =>
        cases hclose : o.closeErr with
        | some e => exact eq_comm
        | none =>
            have hsize : ((part.take maxUploadBytes).length : Int) ≠ params.declaredSizeBytes :=
              fun hsize => haccepts ⟨hcopy, hclose, hsize⟩
            simp only [Option.isSome_none, Bool.false_eq_true, if_false, ne_eq, hsize,
              not_false_eq_true, true_and, if_true]
            exact eq_comm

/-- **All or nothing**: an upload is exact unless it opens its destination and
the copy or its end fails, or the size is not the one declared, or the part is
over the limit. -/
theorem upload_all_or_nothing_iff (hwd : srv.Grounded)
    (hdst : ∀ body params abs, srv.Target q body params abs → loc abs = dst)
    (o : DiskRun srv.tempDir dst) (w : World) :
    srv.AllOrNothing q dst w (o.serve srv w q) ↔
      ∀ body params abs part, srv.Target q body params abs → o.Opens srv w q body params part →
        o.Undamaged (w.tree.content dst) params.declaredSizeBytes part := by
  rcases serve_cases hwd q hdst o w with
    ⟨body, params, abs, part, htarget, hopens, hstored⟩ | ⟨hnot, hrefused⟩
  · rw [hstored.allOrNothing_iff htarget hopens.file]
    constructor
    · intro hundamaged body' params' abs' part' htarget' hopens'
      obtain ⟨rfl, rfl, -⟩ := htarget.unique htarget'
      cases hopens.file.symm.trans hopens'.file
      exact hundamaged
    · exact fun h => h body params abs part htarget hopens
  · exact iff_of_true hrefused.allOrNothing fun body params abs part htarget hopens =>
      absurd hopens (hnot body params abs part htarget)

end AllOrNothing

/-- Nothing goes wrong, and there is no temporary file. -/
def noFaults (tempDir : Path) (dst : Loc) : DiskRun tempDir dst where
  now := zeroTime
  allow := true
  temp := .error failed
  fresh := nofun
  spoolErr := none
  mkdirErr := none
  createErr := none
  copied := 0
  copyErr := none
  closeErr := none
  removeErr := none

/-- An upload of one byte, with these parameters. -/
def oneByte (params : String) : MultipartBody :=
  ⟨[⟨"params".toList, [], params.toUTF8.toList⟩, ⟨"file".toList, "f".toList, [8]⟩], true⟩

def uploadOf (body : MultipartBody) : Request :=
  { uploadRequest with query := [], multipart := some body }

/-- Over `x`, with its size declared. -/
def rightSize : MultipartBody :=
  oneByte <| "\x7b\"filesystem_id\":\"fsrw\",\"path\":\"x\"," ++
    "\"declared_size_bytes\":1,\"overwrite_existing\":true\x7d"

/-- Over `x`, with another size declared. -/
def wrongSize : MultipartBody :=
  oneByte <| "\x7b\"filesystem_id\":\"fsrw\",\"path\":\"x\"," ++
    "\"declared_size_bytes\":2,\"overwrite_existing\":true\x7d"

/-- An upload of the size declared takes the place of the file. -/
theorem upload_all_or_nothing_rightSize :
    ((noFaults twoScopes.tempDir ["rw".toList, "x".toList]).serve twoScopes oneFile
        (uploadOf rightSize)).2.Ok ∧
      twoScopes.AllOrNothing (uploadOf rightSize) ["rw".toList, "x".toList] oneFile
        ((noFaults twoScopes.tempDir ["rw".toList, "x".toList]).serve twoScopes oneFile
          (uploadOf rightSize)) := by
  have htarget : twoScopes.Target (uploadOf rightSize) rightSize
      ⟨"fsrw".toList, "x".toList, 1, true, ⟨[], false⟩⟩ "/rw/x".toList := by
    refine ⟨rfl, by decide +kernel, rwScope, by decide +kernel, by decide +kernel⟩
  have hdst : ∀ body params abs, twoScopes.Target (uploadOf rightSize) body params abs →
      loc abs = ["rw".toList, "x".toList] := by
    intro body params abs h
    obtain ⟨-, -, rfl⟩ := htarget.unique h
    decide +kernel
  refine ⟨by decide +kernel, (upload_all_or_nothing_iff twoScopes_grounded hdst _ _).mpr ?_⟩
  intro body params abs part h hopens
  obtain ⟨rfl, rfl, -⟩ := htarget.unique h
  cases hopens.file
  show ([8] : List UInt8).length ≤ maxUploadBytes
  decide

/-- An upload of another size is answered 422, and the file that was there is
gone. -/
theorem upload_wrong_size_deletes :
    oneFile.tree.content ["rw".toList, "x".toList] = some [7] ∧
      ((noFaults twoScopes.tempDir ["rw".toList, "x".toList]).serve twoScopes oneFile
        (uploadOf wrongSize)).2.status = 422 ∧
      ((noFaults twoScopes.tempDir ["rw".toList, "x".toList]).serve twoScopes oneFile
        (uploadOf wrongSize)).1.tree.content ["rw".toList, "x".toList] = none ∧
      ¬ twoScopes.AllOrNothing (uploadOf wrongSize) ["rw".toList, "x".toList] oneFile
        ((noFaults twoScopes.tempDir ["rw".toList, "x".toList]).serve twoScopes oneFile
          (uploadOf wrongSize)) := by
  have hbefore : oneFile.tree.content ["rw".toList, "x".toList] = some [7] := by decide +kernel
  have hstatus : ((noFaults twoScopes.tempDir ["rw".toList, "x".toList]).serve twoScopes oneFile
      (uploadOf wrongSize)).2.status = 422 := by
    decide +kernel
  have hafter : ((noFaults twoScopes.tempDir ["rw".toList, "x".toList]).serve twoScopes oneFile
      (uploadOf wrongSize)).1.tree.content ["rw".toList, "x".toList] = none := by
    decide +kernel
  refine ⟨hbefore, hstatus, hafter, fun h => ?_⟩
  rw [Server.AllOrNothing, if_neg fun hok => absurd hok.2 (hstatus ▸ by decide), hafter,
    hbefore] at h
  cases h

end OcuFilestore.Peer
