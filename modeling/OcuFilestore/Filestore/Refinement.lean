import OcuFilestore.Filestore.Forms
import OcuFilestore.Filestore.Store

/-!
# OcuFilestore.Filestore.Refinement

The filestore peer refines the store of its volumes.

`Server.asked` is what a request comes to once it is read: it is refused, or
it is a command in a scope.  `Server.Steps` is what the store then does.  A
request on a disk that works is such a step (`meets_route`), temporary files
of large uploads notwithstanding, and so is every request of a sequence
(`serves_refines`).
-/

namespace OcuFilestore.Peer

open SlashPath
open Prog (Meets)

/-! ## what is asked -/

/-- A command of one path, or the status the body is refused with. -/
def CommonBody.ofPath (body : CommonBody) (mk : Path → Command) : Except Int Command :=
  match pathFromBody body.raw with
  | none => .error 400
  | some rel => .ok (mk rel)

/-- A command of two paths, or the status the body is refused with. -/
def CommonBody.ofSrcDst (body : CommonBody) (mk : SrcDstBody → Command) : Except Int Command :=
  match srcDstFromBody body.raw with
  | none => .error 400
  | some sd => .ok (mk sd)

def CommonBody.ofDownload (body : CommonBody) : Except Int Command :=
  match downloadBody body.raw with
  | none => .error 400
  | some db => .ok (.download db.uuid db.range)

/-- The command of a body, or the status it is refused with. -/
def command (opName : Option Op) (body : CommonBody) : Except Int Command :=
  match opName with
  | some .createFile => body.ofPath .createFile
  | some .readFile => body.ofPath .readFile
  | some .readMetadata => body.ofPath .readMetadata
  | some .listDirectory => body.ofPath .listDirectory
  | some .copyFile => body.ofSrcDst .copyFile
  | some .moveFile => body.ofSrcDst .move
  | some .removeFile => body.ofPath .removeFile
  | some .makeDirectory => body.ofPath .makeDirectory
  | some .moveDirectory => body.ofSrcDst .move
  | some .removeDirectory => body.ofPath .removeDirectory
  | some .fileDownload => body.ofDownload
  | some .fileUpload | none => .error 404

/-- The upload of a form, or the status it is refused with. -/
def uploadCommand (params : UploadParams) (parts : List Part) : Except Int Command :=
  match (partFiles parts).lookup "file".toList with
  | none => .error 400
  | some bytes => .ok (.upload params (bytes.take maxUploadBytes))

/-- What an upload asks for. -/
def Server.askedUpload (srv : Server) (q : Request) (subjectFSID : List Char)
    (parts : List Part) : Except Int (Scope × Except Int Command) :=
  let rawParams := formValue q.query (partValues parts) "params".toList
  if q.queryParses = false then .error 400
  else if rawParams = [] then .error 400
  else
    match uploadParams rawParams with
    | none => .error 400
    | some params =>
        match srv.authorize (some .fileUpload) subjectFSID params.filesystemID with
        | .error (status, _) => .error status
        | .ok scope => .ok (scope, uploadCommand params parts)

/-- What a multipart body asks for. -/
def Server.askedForm (srv : Server) (q : Request) (subjectFSID : List Char) :
    Except Int (Scope × Except Int Command) :=
  match q.multipart with
  | none => .error 400
  | some body =>
      if body.complete then srv.askedUpload q subjectFSID body.parts else .error 400

/-- What a JSON body asks for. -/
def Server.askedBody (srv : Server) (q : Request) (subjectFSID : List Char) :
    Except Int (Scope × Except Int Command) :=
  match decodeCommon q.body with
  | none => .error 400
  | some body =>
      match srv.authorize q.opName subjectFSID body.filesystemID with
      | .error (status, _) => .error status
      | .ok scope => .ok (scope, command q.opName body)

/-- What a request asks for, at a time. -/
def Server.asked (srv : Server) (now : Time) (q : Request) :
    Except Int (Scope × Except Int Command) :=
  if q.method ≠ "POST" then .error 405
  else
    match srv.credentials.subject now q.authorization with
    | .error _ => .error 401
    | .ok subjectFSID =>
        if q.opName = some .fileUpload then srv.askedForm q subjectFSID
        else srv.askedBody q subjectFSID

/-! ## what the store does -/

/-- The uploads are counted, when some are to be refused. -/
def Server.counts (srv : Server) (q : Request) : Prop :=
  q.opName = some .fileUpload ∧ 0 < srv.throttleEvery

instance (srv : Server) (q : Request) : Decidable (srv.counts q) :=
  inferInstanceAs (Decidable (_ ∧ _))

/-- The store once the request is counted. -/
def Server.counted (srv : Server) (q : Request) (s : Store) : Store :=
  if srv.counts q then { s with writes := s.writes + 1 } else s

/-- Counting leaves the volume alone. -/
theorem volume_counted (srv : Server) (q : Request) (s : Store) :
    (srv.counted q s).volume = s.volume := by
  unfold Server.counted
  split <;> rfl

/-- Counting does not look at the volume. -/
theorem counted_volume (srv : Server) (q : Request) (s : Store) (V : Vol) :
    srv.counted q { s with volume := V } = { srv.counted q s with volume := V } := by
  unfold Server.counted
  split <;> rfl

/-- It is the turn of this request to be refused. -/
def Server.refusesTurn (srv : Server) (q : Request) (s : Store) : Prop :=
  srv.counts q ∧ (s.writes + 1).tmod srv.throttleEvery = 0

/-- The command of a request that is admitted. -/
def Executes (sc : Scope) (s : Store) (resp : Response) (s' : Store) : Except Int Command → Prop
  | .error status => resp.status = status ∧ s' = s
  | .ok cmd => cmd.Answered sc s.volume resp ∧ s' = { s with volume := cmd.next sc s.volume }

/-- What becomes of a request.  The ceiling per operation admits whom it
likes. -/
def Server.Admits (srv : Server) (q : Request) (s : Store) (resp : Response) (s' : Store) :
    Except Int (Scope × Except Int Command) → Prop
  | .error status => resp.status = status ∧ s' = s
  | .ok (sc, cmd) =>
      srv.perOpScope = some sc.filesystemID ∧ resp.status = 418 ∧ s' = s ∨
      srv.refusesTurn q s ∧ resp.status = 429 ∧ s' = srv.counted q s ∨
      ¬ srv.refusesTurn q s ∧ Executes sc (srv.counted q s) resp s' cmd

/-- A request of the store. -/
def Server.Steps (srv : Server) (q : Request) (s : Store) (resp : Response) (s' : Store) : Prop :=
  ∃ now, srv.Admits q s resp s' (srv.asked now q)

/-- The roots of the scopes are clean and apart from where temporary files
are made. -/
structure Server.Sound (srv : Server) (ts : Loc) : Prop where
  clean : ∀ sc ∈ srv.scopes, sc.CleanRoot
  plain : ∀ t ∈ ts, Plain t
  tempDir : srv.tempDir = fromRoot ts
  apart : ∀ sc ∈ srv.scopes, ∀ p, IsTemp srv.tempDir p → Apart (loc p) sc.loc

/-! ## dispatch -/

section Dispatch

variable {srv : Server} {sc : Scope} {w : World} {s : Store} {tempDir : Path}

/-- The program does what the command says. -/
def Performs (sc : Scope) (s : Store) (cmd : Except Int Command) (w : World) (resp : Response) :
    Prop :=
  ∃ s', Executes sc s resp s' cmd ∧ Has w s'

/-- A command that is carried out is performed. -/
theorem Fulfils.performs {cmd : Command} {resp : Response} (h : Fulfils sc s cmd w resp) :
    Performs sc s (.ok cmd) w resp :=
  ⟨_, ⟨h.1, rfl⟩, h.2⟩

/-- A body that cannot be read is refused, and nothing happens. -/
theorem Has.performs_refused (h : Has w s) {status : Int} {resp : Response}
    (hresp : resp.status = status) : Performs sc s (.error status) w resp :=
  ⟨s, ⟨hresp, rfl⟩, h⟩

/-- A handler of one path; without one it refuses. -/
theorem meets_ofPath {body : CommonBody} {mk : Path → Command}
    {handler : Path → Path → FsProg Response} (h : Has w s)
    (hok : ∀ rel, pathFromBody body.raw = some rel →
      Meets (working tempDir) (Fulfils sc s (mk rel)) w (srv.withPath sc body handler)) :
    Meets (working tempDir) (Performs sc s (body.ofPath mk)) w (srv.withPath sc body handler) := by
  unfold CommonBody.ofPath
  cases hpath : pathFromBody body.raw with
  | some rel => exact (hok rel hpath).mono fun _ _ h => h.performs
  | none =>
      rw [Server.withPath, hpath]
      exact h.performs_refused rfl

/-- A handler of two paths; without them it refuses. -/
theorem meets_ofSrcDst {body : CommonBody} {mk : SrcDstBody → Command}
    {op : Path → Path → FsProg (Except OSErr Unit)} (h : Has w s)
    (hok : ∀ sd, srcDstFromBody body.raw = some sd →
      Meets (working tempDir) (Fulfils sc s (mk sd)) w (srv.applySrcDstOp sc body op)) :
    Meets (working tempDir) (Performs sc s (body.ofSrcDst mk)) w
      (srv.applySrcDstOp sc body op) := by
  unfold CommonBody.ofSrcDst
  cases hbody : srcDstFromBody body.raw with
  | some sd => exact (hok sd hbody).mono fun _ _ h => h.performs
  | none =>
      rw [Server.applySrcDstOp, hbody]
      exact h.performs_refused rfl

/-- Every JSON operation performs the command of its body. -/
theorem meets_dispatch (hroot : sc.CleanRoot) (h : Has w s)
    (hplain : s.volume.Named Plain) (opName : Option Op)
    (body : CommonBody) :
    Meets (working tempDir) (Performs sc s (command opName body)) w
      (srv.dispatch opName sc body) := by
  cases opName with
  | none => exact h.performs_refused rfl
  | some op =>
      cases op with
      | createFile => exact meets_ofPath h fun rel hpath => meets_createFile hroot h hpath
      | readFile => exact meets_ofPath h fun rel hpath => meets_readFile hroot h hpath
      | readMetadata => exact meets_ofPath h fun rel hpath => meets_readMetadata hroot h hpath
      | listDirectory => exact meets_ofPath h fun rel hpath => meets_listDirectory hroot h hpath
      | copyFile => exact meets_ofSrcDst h fun sd hbody => meets_copyFile hroot h hbody
      | moveFile => exact meets_ofSrcDst h fun sd hbody => meets_move hroot h hbody
      | removeFile => exact meets_ofPath h fun rel hpath => meets_removeFile hroot h hpath
      | makeDirectory => exact meets_ofPath h fun rel hpath => meets_makeDirectory hroot h hpath
      | moveDirectory => exact meets_ofSrcDst h fun sd hbody => meets_move hroot h hbody
      | removeDirectory =>
          exact meets_ofPath h fun rel hpath => meets_removeDirectory hroot h hpath
      | fileUpload => exact h.performs_refused rfl
      | fileDownload =>
          rw [command, CommonBody.ofDownload]
          cases hbody : downloadBody body.raw with
          | some db => exact (meets_download hroot h hplain hbody).mono fun _ _ h => h.performs
          | none =>
              rw [Server.dispatch, Server.handleFileDownload, hbody]
              exact h.performs_refused rfl

end Dispatch

/-! ## forms -/

/-- The volume while parts are read: a temporary file is added. -/
inductive Spool (tempDir : Path) (V : Vol) : Vol → Option (Path × Nat) → Prop
  | none : Spool tempDir V V none
  | some {n : Nat} {bs : List UInt8} (hf : V.Free (loc (tempPath tempDir n)))
      (hnone : V.node (loc (tempPath tempDir n)) = none) :
      Spool tempDir V (V.put (loc (tempPath tempDir n)) bs hf)
        (some (tempPath tempDir n, bs.length))

/-- The sources have the contents of the parts they are named after. -/
abbrev KeepsAll (tempDir : Path) (V : Vol) (sources : List (List Char × FileSource))
    (files : List (List Char × List UInt8)) : Prop :=
  List.Forall₂ (fun a b => a.1 = b.1 ∧ a.2.Keeps tempDir V b.2) sources files

/-- Files are only added to. -/
def Grown (V₁ V₂ : Vol) : Prop :=
  ∀ x bs, V₁.file x = some bs → ∃ more, V₂.file x = some (bs ++ more)

/-- The form as it is read. -/
def FormHas (tempDir : Path) (V : Vol) (s : Store) (values files : List (List Char × List UInt8))
    (w : World) (r : Option Form × Option Path) : Prop :=
  ∃ form tmp V₁, r = (some form, tmp.map Prod.fst) ∧ Spool tempDir V V₁ tmp ∧
    Has w { s with volume := V₁ } ∧ form.values = values ∧ KeepsAll tempDir V₁ form.files files

section Forms

variable {tempDir : Path} {w : World} {s : Store} {V V₁ V₂ : Vol} {tmp : Option (Path × Nat)}
  {sources : List (List Char × FileSource)} {files : List (List Char × List UInt8)}

theorem grown_refl (V : Vol) : Grown V V := fun _ bs h => ⟨[], by rw [h, List.append_nil]⟩

/-- A part is kept while temporary files grow. -/
theorem FileSource.Keeps.grow {part : FileSource} {bytes : List UInt8}
    (h : part.Keeps tempDir V₁ bytes) (hgrow : Grown V₁ V₂) : part.Keeps tempDir V₂ bytes := by
  cases part with
  | memory bs => exact h
  | disk tmp start size =>
      obtain ⟨htmp, pre, post, hfile, hstart, hsize⟩ := h
      obtain ⟨more, hmore⟩ := hgrow _ _ hfile
      exact ⟨htmp, pre, post ++ more, by rw [hmore]; simp, hstart, hsize⟩

/-- All parts are kept while temporary files grow. -/
theorem KeepsAll.grow (h : KeepsAll tempDir V₁ sources files) (hgrow : Grown V₁ V₂) :
    KeepsAll tempDir V₂ sources files :=
  List.Forall₂.imp (fun _ _ hab => ⟨hab.1, hab.2.grow hgrow⟩) h

/-- A new file. -/
theorem grown_put {x : Loc} (hf : V.Free x) (hnone : V.node x = none) (bs : List UInt8) :
    Grown V (V.put x bs hf) := by
  intro y old hy
  have hne : y ≠ x := by
    rintro rfl
    rw [FileVolume.file, hnone] at hy
    cases hy
  exact ⟨[], by rw [FileVolume.file_put, if_neg hne, hy, List.append_nil]⟩

/-- A file that gets longer. -/
theorem grown_put_append {x : Loc} (hf : V.Free x) (bs more : List UInt8) :
    Grown (V.put x bs hf) (V.put x (bs ++ more) hf) := by
  intro y old hy
  rw [FileVolume.file_put] at hy ⊢
  split at hy
  · next heq =>
      cases hy
      exact ⟨more, if_pos heq⟩
  · next hne => exact ⟨[], by rw [if_neg hne, hy, List.append_nil]⟩

section Temp

variable {ts : Loc} (hts : ∀ t ∈ ts, Plain t) (hdir : V.IsDir ts)
include hts hdir

/-- The temporary file, made if there is none yet. -/
theorem meets_openTemp (h : Has w { s with volume := V₁ })
    (hspool : Spool (fromRoot ts) V V₁ tmp) {α : Type} {Q : World → α → Prop}
    {k : Except OSErr (Path × Nat) → FsProg α}
    (hok : ∀ w' n bs (hf : V.Free (loc (tempPath (fromRoot ts) n))),
      V.node (loc (tempPath (fromRoot ts) n)) = none →
      Grown V₁ (V.put (loc (tempPath (fromRoot ts) n)) bs hf) →
      Has w' { s with volume := V.put (loc (tempPath (fromRoot ts) n)) bs hf } →
      Meets (working (fromRoot ts)) Q w' (k (.ok (tempPath (fromRoot ts) n, bs.length)))) :
    Meets (working (fromRoot ts)) Q w (openTemp (fromRoot ts) tmp >>= k) := by
  cases hspool with
  | none =>
      unfold openTemp
      rw [Prog.bind_assoc]
      refine meets_createTemp hts h hdir fun w₁ n hf hnone h₁ => ?_
      exact hok w₁ n [] hf hnone (grown_put hf hnone []) h₁
  | some hf hnone => exact hok w _ _ hf hnone (grown_refl _) h

/-- The parts of a form end up in memory or in one temporary file, in their
order. -/
theorem meets_readParts (parts : List Part) (memory : Nat) (form : Form)
    (h : Has w { s with volume := V₁ }) (hspool : Spool (fromRoot ts) V V₁ tmp)
    (hfiles : KeepsAll (fromRoot ts) V₁ form.files files) :
    Meets (working (fromRoot ts)) (FormHas (fromRoot ts) V s (form.values ++ partValues parts)
      (files ++ partFiles parts)) w (readParts (fromRoot ts) memory tmp form parts) := by
  induction parts generalizing memory form files w V₁ tmp with
  | nil =>
      refine ⟨form, tmp, V₁, rfl, hspool, h, (List.append_nil _).symm, ?_⟩
      rw [partFiles, List.filter_nil, List.map_nil, List.append_nil]
      exact hfiles
  | cons part parts ih =>
      unfold readParts
      by_cases hname : part.name = []
      · rw [if_pos hname]
        have hvalues : partValues (part :: parts) = partValues parts := by simp [partValues, hname]
        have hparts : partFiles (part :: parts) = partFiles parts := by simp [partFiles, hname]
        rw [hvalues, hparts]
        exact ih memory form h hspool hfiles
      · rw [if_neg hname]
        by_cases hfile : part.filename = []
        · rw [if_pos hfile]
          have hvalues : form.values ++ partValues (part :: parts) =
              (form.values ++ [(part.name, part.content)]) ++ partValues parts := by
            simp [partValues, hname, hfile]
          have hparts : partFiles (part :: parts) = partFiles parts := by simp [partFiles, hfile]
          rw [hvalues, hparts]
          exact ih memory { form with values := form.values ++ [(part.name, part.content)] } h
            hspool hfiles
        · rw [if_neg hfile]
          have hvalues : partValues (part :: parts) = partValues parts := by
            simp [partValues, hfile]
          have hparts : files ++ partFiles (part :: parts) =
              (files ++ [(part.name, part.content)]) ++ partFiles parts := by
            simp [partFiles, hname, hfile]
          rw [hvalues, hparts]
          split
          · refine ih _ { form with files := form.files ++ [(part.name, .memory part.content)] } h
              hspool ?_
            exact List.rel_append hfiles (.cons ⟨rfl, rfl⟩ .nil)
          · refine meets_openTemp hts hdir h hspool fun w₂ n bs hf hnone hgrow h₂ => ?_
            refine meets_write rfl h₂ (FileVolume.file_put_self hf) _ fun w₃ h₃ => ?_
            rw [FileVolume.put_put] at h₃
            have hlength : bs.length + part.content.length = (bs ++ part.content).length := by simp
            dsimp only
            rw [Option.isSome_none, if_neg (by simp), hlength]
            refine ih memory { form with files := form.files ++
              [(part.name, .disk (tempPath (fromRoot ts) n) bs.length part.content.length)] }
              h₃ (.some hf hnone) ?_
            refine List.rel_append ((hfiles.grow hgrow).grow (grown_put_append hf bs _))
              (.cons ⟨rfl, ⟨n, rfl⟩, bs, [], ?_, rfl, rfl⟩ .nil)
            rw [FileVolume.file_put_self, List.append_nil]

end Temp

end Forms

/-! ## beside a temporary file -/

/-- The volume `W` is `V` and the temporary file of an upload. -/
inductive Beside (tempDir : Path) (V W : Vol) : Option Path → Prop
  | without (h : W = V) : Beside tempDir V W none
  | made (n : Nat) (hne : loc (tempPath tempDir n) ≠ [])
      (hnone : V.node (loc (tempPath tempDir n)) = none)
      (hagree : FileVolume.AgreesOff (loc (tempPath tempDir n)) V W)
      (hfile : W.file (loc (tempPath tempDir n)) ≠ none) :
      Beside tempDir V W (some (tempPath tempDir n))

/-- What was spooled is beside the volume: one temporary file at most. -/
theorem Spool.beside {ts : Loc} {V W : Vol} {tmp : Option (Path × Nat)}
    (hts : ∀ t ∈ ts, Plain t) (hdir : V.IsDir ts) (h : Spool (fromRoot ts) V W tmp) :
    Beside (fromRoot ts) V W (tmp.map Prod.fst) := by
  cases h with
  | none => exact .without rfl
  | @some n bs hf hnone =>
      refine .made n hf.ne_nil hnone (FileVolume.agreesOff_put hf ?_) ?_
      · rwa [loc_tempPath hts, List.dropLast_concat]
      · rw [FileVolume.file_put_self]
        exact Option.some_ne_none bs

section Beside

variable {tempDir : Path} {V W : Vol} {tmp : Option Path} {sc : Scope} {w : World} {s : Store}

/-- The temporary file goes. -/
theorem meets_removeTemp {α : Type} {Q : World → α → Prop} {k : Unit → FsProg α}
    (hbeside : Beside tempDir V W tmp) (h : Has w { s with volume := W })
    (hok : ∀ w', Has w' { s with volume := V } → Meets (working tempDir) Q w' (k ())) :
    Meets (working tempDir) Q w (removeTemp tmp >>= k) := by
  cases hbeside with
  | without heq =>
      subst heq
      exact hok w h
  | made n hne hnone hagree hfile =>
      obtain ⟨bs, hbs⟩ := Option.ne_none_iff_exists'.mp hfile
      rw [removeTemp, Prog.bind_assoc]
      refine meets_remove_file rfl h hne hbs fun w₁ h₁ => ?_
      rw [hagree.cut_eq hne hnone] at h₁
      exact hok w₁ h₁

/-- What is apart from a root is apart from everything below it. -/
theorem Apart.locOf {x : Loc} (h : Apart x sc.loc) (rel : Path) : Apart x (sc.locOf rel) := by
  refine ⟨fun hx => ?_, fun hx => h.2 ((List.prefix_append _ _).trans hx)⟩
  exact (List.prefix_or_prefix_of_prefix hx (List.prefix_append sc.loc _)).elim h.1 h.2

/-- Something else goes. -/
theorem Beside.cut {n : Nat} {x : Loc} (h : Beside tempDir V W (some (tempPath tempDir n)))
    (hx : x ≠ []) (hapart : ¬ x <+: loc (tempPath tempDir n)) :
    Beside tempDir (V.cut x hx) (W.cut x hx) (some (tempPath tempDir n)) := by
  generalize hpath : tempPath tempDir n = path at h hapart ⊢
  cases h with
  | made m hne hnone hagree hfile =>
      refine .made m hne ?_ (hagree.cut hx) ?_
      · rw [FileVolume.node_cut, if_neg hapart, hnone]
      · rwa [FileVolume.file_cut, if_neg hapart]

/-- An upload does not see the temporary file. -/
theorem Beside.upload (h : Beside tempDir V W tmp)
    (hapart : ∀ p, IsTemp tempDir p → Apart (loc p) sc.loc) (params : UploadParams)
    (bytes : List UInt8) :
    Beside tempDir ((Command.upload params bytes).next sc V)
        ((Command.upload params bytes).next sc W) tmp ∧
      ∀ resp, (Command.upload params bytes).Answered sc W resp →
        (Command.upload params bytes).Answered sc V resp := by
  cases h with
  | without heq =>
      subst heq
      exact ⟨.without rfl, fun _ h => h⟩
  | made n hne hnone hagree hfile =>
      obtain ⟨hx, hx'⟩ := (hapart _ ⟨n, rfl⟩).locOf params.path
      have htaken : Taken W params.overwriteExisting (sc.locOf params.path) ↔
          Taken V params.overwriteExisting (sc.locOf params.path) := by
        rw [Taken, hagree _ hx, Taken]
      have hfree := hagree.free hx
      have hne' : loc (tempPath tempDir n) ≠ sc.locOf params.path :=
        fun heq => hx (heq ▸ List.prefix_refl _)
      refine ⟨?_, fun resp hresp => ?_⟩
      · by_cases ht : Taken V params.overwriteExisting (sc.locOf params.path)
        · rw [Command.next, if_pos ht, Command.next, if_pos (htaken.mpr ht)]
          exact .made n hne hnone hagree hfile
        · by_cases hf : V.Free (sc.locOf params.path)
          · have hput : Beside tempDir (V.put (sc.locOf params.path) bytes hf)
                (W.put (sc.locOf params.path) bytes (hfree.mpr hf))
                (some (tempPath tempDir n)) := by
              refine .made n hne ?_ (hagree.put hf _) ?_
              · rw [FileVolume.node_put, if_neg hne', if_neg hx, hnone]
              · rwa [FileVolume.file_put, if_neg hne']
            rw [Command.next, if_neg ht, dif_pos hf, Command.next, if_neg (mt htaken.mp ht),
              dif_pos (hfree.mpr hf)]
            split
            · exact hput
            · exact hput.cut hf.ne_nil hx'
          · rw [Command.next, if_neg ht, dif_neg hf, Command.next, if_neg (mt htaken.mp ht),
              dif_neg (mt hfree.mp hf)]
            exact .made n hne hnone hagree hfile
      · rw [Command.Answered, propext htaken, propext hfree] at hresp
        exact hresp

end Beside

/-! ## requests -/

section Requests

variable {srv : Server} {sc : Scope} {q : Request} {w : World} {s : Store} {tempDir : Path}
  {Q : World → Response → Prop}

/-- The credential is checked against the clock of that moment. -/
theorem meets_validate {v : Validator} {header : List Char} (h : Has w s)
    {k : Except CredentialErr (List Char) → FsProg Response}
    (hok : ∀ now, Meets (working tempDir) Q w (k (v.subject now header))) :
    Meets (working tempDir) Q w (v.validate header >>= k) := by
  cases v with
  | static credentials => exact hok zeroTime
  | jwt ec jwks issuer audience =>
      unfold Validator.validate
      rw [Prog.bind_assoc]
      exact meets_now h fun now => hok now

/-- The ceiling per operation holds for one scope only. -/
theorem meets_chargePerOp {fsID : List Char} (h : Has w s) {k : Bool → FsProg Response}
    (hok : Meets (working tempDir) Q w (k true))
    (hrefused : srv.perOpScope = some fsID → Meets (working tempDir) Q w (k false)) :
    Meets (working tempDir) Q w (srv.chargePerOp fsID >>= k) := by
  unfold Server.chargePerOp
  split
  · next hscope =>
      refine meets_allow h fun admitted => ?_
      cases admitted with
      | true => exact hok
      | false => exact hrefused hscope
  · exact hok

/-- The turns are counted for uploads. -/
theorem meets_throttled (hop : q.opName = some .fileUpload) (h : Has w s)
    {k : Bool → FsProg Response}
    (hok : ∀ w', ¬ srv.refusesTurn q s → Has w' (srv.counted q s) →
      Meets (working tempDir) Q w' (k false))
    (hrefused : ∀ w', srv.refusesTurn q s → Has w' (srv.counted q s) →
      Meets (working tempDir) Q w' (k true)) :
    Meets (working tempDir) Q w (srv.throttled >>= k) := by
  unfold Server.throttled
  split
  · next hoff =>
      have hnot : ¬ srv.counts q := fun hcounts => absurd hcounts.2 (by omega)
      refine hok w (fun hturn => hnot hturn.1) ?_
      rwa [Server.counted, if_neg hnot]
  · next hon =>
      have hcounts : srv.counts q := ⟨hop, by omega⟩
      rw [Prog.bind_assoc]
      refine meets_countWrite h fun w₁ h₁ => ?_
      have hhas : Has w₁ (srv.counted q s) := by rwa [Server.counted, if_pos hcounts]
      rw [Prog.pure_eq, Prog.ret_bind]
      by_cases hturn : (s.writes + 1).tmod srv.throttleEvery = 0
      · rw [hturn]
        exact hrefused w₁ ⟨hcounts, hturn⟩ hhas
      · have hfalse : ((s.writes + 1).tmod srv.throttleEvery == 0) = false := by simpa using hturn
        rw [hfalse]
        exact hok w₁ (fun h => hturn h.2) hhas

/-- The first file part of a name is opened. -/
theorem lookup_keepsAll {sources : List (List Char × FileSource)}
    {files : List (List Char × List UInt8)} {V : Vol} (h : KeepsAll tempDir V sources files)
    (key : List Char) :
    (sources.lookup key = none ∧ files.lookup key = none) ∨
      ∃ part bytes, sources.lookup key = some part ∧ files.lookup key = some bytes ∧
        part.Keeps tempDir V bytes := by
  induction h with
  | nil => exact .inl ⟨rfl, rfl⟩
  | @cons a b sources files hab _ ih =>
      obtain ⟨name, part⟩ := a
      obtain ⟨name', bytes⟩ := b
      obtain ⟨rfl, hkeeps⟩ : name = name' ∧ part.Keeps tempDir V bytes := hab
      rw [List.lookup_cons, List.lookup_cons]
      cases key == name with
      | true => exact .inr ⟨part, bytes, rfl, rfl, hkeeps⟩
      | false => exact ih

/-- The file part that is opened is the first of its name. -/
theorem meets_formFile {form : Form} {files : List (List Char × List UInt8)} (h : Has w s)
    (hform : KeepsAll tempDir s.volume form.files files) {key : List Char}
    {k : Option FileSource → FsProg Response}
    (hnone : files.lookup key = none → Meets (working tempDir) Q w (k none))
    (hok : ∀ part bytes, files.lookup key = some bytes → part.Keeps tempDir s.volume bytes →
      Meets (working tempDir) Q w (k (some part))) :
    Meets (working tempDir) Q w (formFile form key >>= k) := by
  unfold formFile
  rcases lookup_keepsAll hform key with ⟨hsource, hfile⟩ | ⟨part, bytes, hsource, hfile, hkeeps⟩
  · rw [hsource]
    exact hnone hfile
  · rw [hsource]
    cases part with
    | memory bs => exact hok _ bytes hfile hkeeps
    | disk tmp start size =>
        obtain ⟨htmp, pre, post, hcontent, hrest⟩ := id hkeeps
        dsimp only
        rw [Prog.bind_assoc]
        refine meets_openFile rfl h (fun _ => hok _ bytes hfile hkeeps) fun e hnode _ => ?_
        cases (FileVolume.file_eq_some_iff.mp hcontent).symm.trans hnode

/-- What a request comes to, with the disk that is left. -/
def Handles (srv : Server) (q : Request) (s : Store)
    (asked : Except Int (Scope × Except Int Command)) (w : World) (resp : Response) : Prop :=
  ∃ s', srv.Admits q s resp s' asked ∧ Has w s'

/-- A request that is refused leaves the store as it is. -/
theorem Has.handles_refused (h : Has w s) {status : Int} {resp : Response}
    (hresp : resp.status = status) : Handles srv q s (.error status) w resp :=
  ⟨s, ⟨hresp, rfl⟩, h⟩

variable {ts : Loc} (hsrv : srv.Sound ts)
include hsrv

/-- An upload whose form has been read is handled as the store says. -/
theorem meets_upload (hop : q.opName = some .fileUpload) {form : Form} {parts : List Part}
    (h : Has w s) (hvalues : form.values = partValues parts)
    (hfiles : KeepsAll srv.tempDir s.volume form.files (partFiles parts))
    (subjectFSID : List Char) :
    Meets (working srv.tempDir) (Handles srv q s (srv.askedUpload q subjectFSID parts)) w
      (srv.upload q subjectFSID form) := by
  unfold Server.upload Server.askedUpload
  rw [hvalues]
  dsimp only
  split
  · exact h.handles_refused rfl
  · split
    · exact h.handles_refused rfl
    · cases uploadParams (formValue q.query (partValues parts) "params".toList) with
      | none => exact h.handles_refused rfl
      | some params =>
          dsimp only
          cases hsc : srv.authorize (some .fileUpload) subjectFSID params.filesystemID with
          | error e => exact h.handles_refused rfl
          | ok sc =>
              obtain ⟨hmem, hid, -⟩ := authorize_ok hsc
              refine meets_chargePerOp h ?_ fun hscope => ?_
              · refine meets_throttled hop h (fun w₁ hturn h₁ => ?_) fun w₁ hturn h₁ => ?_
                · have hperforms (w' : World) (resp : Response)
                      (hp : Performs sc (srv.counted q s) (uploadCommand params parts) w' resp) :
                      Handles srv q s (.ok (sc, uploadCommand params parts)) w' resp := by
                    obtain ⟨s', hexec, h'⟩ := hp
                    exact ⟨s', .inr (.inr ⟨hturn, hexec⟩), h'⟩
                  have hvolume := volume_counted srv q s
                  have hroot := hsrv.clean sc hmem
                  refine Meets.mono ?_ hperforms
                  rw [resolveUnder_eq hroot]
                  unfold uploadCommand
                  refine meets_formFile h₁ (hvolume ▸ hfiles) (fun hnone => ?_) ?_
                  · rw [hnone]
                    exact h₁.performs_refused rfl
                  · intro part bytes hsome hkeeps
                    rw [hsome]
                    refine (meets_storePart (on_resolveUnder hroot _) h₁ (fun p hp heq => ?_)
                      hkeeps).mono fun _ _ hf => hf.performs
                    have hapart := (hsrv.apart sc hmem p hp).locOf params.path
                    exact hapart.1 (heq ▸ List.prefix_refl _)
                · exact ⟨_, .inr (.inl ⟨hturn, rfl, rfl⟩), h₁⟩
              · exact ⟨s, .inl ⟨hid ▸ hscope, rfl, rfl⟩, h⟩

omit hsrv in
/-- An upload that gets past its checks is a command in a known scope. -/
theorem askedUpload_ok {subjectFSID : List Char} {parts : List Part} {cmd : Except Int Command}
    (h : srv.askedUpload q subjectFSID parts = .ok (sc, cmd)) :
    sc ∈ srv.scopes ∧ ∃ params, cmd = uploadCommand params parts := by
  unfold Server.askedUpload at h
  dsimp only at h
  split at h
  · cases h
  · split at h
    · cases h
    · split at h
      · cases h
      · next params _ =>
          split at h
          · cases h
          · next sc hsc =>
              cases h
              exact ⟨(authorize_ok hsc).1, params, rfl⟩

omit hsrv in
/-- The command of an upload has no more bytes than the ceiling allows. -/
theorem uploadCommand_cases (params : UploadParams) (parts : List Part) :
    uploadCommand params parts = .error 400 ∨ ∃ bytes, bytes.length ≤ maxUploadBytes ∧
      uploadCommand params parts = .ok (.upload params bytes) := by
  unfold uploadCommand
  split
  · exact .inl rfl
  · exact .inr ⟨_, List.length_take_le _ _, rfl⟩

/-- What an upload comes to beside a temporary file, it comes to without. -/
theorem Handles.beside {V W : Vol} {tmp : Option Path} {subjectFSID : List Char}
    {parts : List Part} {resp : Response} (hbeside : Beside srv.tempDir V W tmp)
    (h : Handles srv q { s with volume := W } (srv.askedUpload q subjectFSID parts) w resp) :
    ∃ s' W', srv.Admits q { s with volume := V } resp s' (srv.askedUpload q subjectFSID parts) ∧
      Beside srv.tempDir s'.volume W' tmp ∧ Has w { s' with volume := W' } := by
  obtain ⟨s₁, hadmits, hhas⟩ := h
  have hcounted := counted_volume srv q s
  have hturn (U : Vol) : srv.refusesTurn q { s with volume := U } ↔ srv.refusesTurn q s := Iff.rfl
  cases hasked : srv.askedUpload q subjectFSID parts with
  | error status =>
      rw [hasked] at hadmits
      obtain ⟨hstatus, rfl⟩ := hadmits
      exact ⟨{ s with volume := V }, W, ⟨hstatus, rfl⟩, hbeside, hhas⟩
  | ok r =>
      obtain ⟨sc, cmd⟩ := r
      rw [hasked] at hadmits
      obtain ⟨hscope, hstatus, rfl⟩ | ⟨hrefuses, hstatus, rfl⟩ | ⟨hrefuses, hexec⟩ := hadmits
      · exact ⟨{ s with volume := V }, W, .inl ⟨hscope, hstatus, rfl⟩, hbeside, hhas⟩
      · refine ⟨_, W, .inr (.inl ⟨hrefuses, hstatus, rfl⟩), ?_, ?_⟩
        · rwa [hcounted]
        · rw [hcounted] at hhas ⊢
          exact hhas
      · rw [hcounted] at hexec
        obtain ⟨hmem, params, rfl⟩ := askedUpload_ok hasked
        obtain hcmd | ⟨bytes, -, hcmd⟩ := uploadCommand_cases params parts <;>
          rw [hcmd] at hexec ⊢
        · obtain ⟨hstatus, rfl⟩ := hexec
          refine ⟨{ srv.counted q s with volume := V }, W, .inr (.inr ⟨hrefuses, ?_⟩), hbeside,
            hhas⟩
          rw [hcounted]
          exact ⟨hstatus, rfl⟩
        · obtain ⟨hanswered, rfl⟩ := hexec
          obtain ⟨hnext, hans⟩ := hbeside.upload (hsrv.apart sc hmem) params bytes
          refine ⟨{ srv.counted q s with volume := (Command.upload params bytes).next sc V }, _,
            .inr (.inr ⟨hrefuses, ?_⟩), hnext, hhas⟩
          rw [hcounted]
          exact ⟨hans resp hanswered, rfl⟩

/-- A form that ends is read; of one that does not, nothing is left. -/
theorem meets_readForm (h : Has w s) (hdir : s.volume.IsDir ts) (body : MultipartBody) :
    Meets (working srv.tempDir) (fun w' r =>
      (body.complete = true → ∃ form tmp W, r = (some form, tmp) ∧
        Beside srv.tempDir s.volume W tmp ∧ Has w' { s with volume := W } ∧
        form.values = partValues body.parts ∧
        KeepsAll srv.tempDir W form.files (partFiles body.parts)) ∧
      (body.complete = false → r = (none, none) ∧ Has w' s)) w (readForm srv.tempDir body) := by
  have hread := meets_readParts hsrv.plain hdir body.parts multipartMemory ⟨[], []⟩ h .none .nil
  rw [hsrv.tempDir]
  refine hread.bind fun w₁ r hr => ?_
  obtain ⟨form, tmp, W, rfl, hspool, h₁, hvalues, hfiles⟩ := hr
  have hbeside := hspool.beside hsrv.plain hdir
  dsimp only
  cases hcomplete : body.complete with
  | true =>
      rw [if_pos rfl]
      exact ⟨fun _ => ⟨form, _, W, rfl, hbeside, h₁, hvalues, hfiles⟩, fun hf => by cases hf⟩
  | false =>
      rw [if_neg (by simp)]
      exact meets_removeTemp hbeside h₁ fun w₂ h₂ => ⟨fun ht => (by cases ht), fun _ => ⟨rfl, h₂⟩⟩

/-- An upload is handled as the store says, and its temporary file is gone
then. -/
theorem meets_handleFileUpload (hop : q.opName = some .fileUpload) (hpost : q.method = "POST")
    (h : Has w s) (hdir : s.volume.IsDir ts) :
    Meets (working srv.tempDir) (fun w' resp => ∃ now, Handles srv q s (srv.asked now q) w' resp) w
      (srv.handleFileUpload q) := by
  refine meets_validate h fun now => Meets.mono ?_ fun _ _ h => ⟨now, h⟩
  rw [Server.asked, if_neg (not_not_intro hpost)]
  cases srv.credentials.subject now q.authorization with
  | error e => exact h.handles_refused rfl
  | ok subjectFSID =>
      dsimp only
      rw [if_pos hop, Server.askedForm]
      cases q.multipart with
      | none => exact h.handles_refused rfl
      | some body =>
          dsimp only
          refine Prog.Safe.bind (meets_readForm hsrv h hdir body) fun w₁ r hr => ?_
          cases hcomplete : body.complete with
          | false =>
              obtain ⟨rfl, h₁⟩ := hr.2 hcomplete
              exact h₁.handles_refused rfl
          | true =>
              obtain ⟨form, tmp, W, rfl, hbeside, h₁, hvalues, hfiles⟩ := hr.1 hcomplete
              refine Prog.Safe.bind (meets_upload hsrv hop h₁ hvalues hfiles subjectFSID)
                fun w₂ resp hhandles => ?_
              obtain ⟨s', W', hadmits, hbeside', h₂⟩ := hhandles.beside hsrv hbeside
              exact meets_removeTemp hbeside' h₂ fun w₃ h₃ => ⟨s', hadmits, h₃⟩

/-- A request on a disk that works is a step of the store. -/
theorem meets_route (h : Has w s) (hplain : s.volume.Named Plain) (hdir : s.volume.IsDir ts) :
    Meets (working srv.tempDir) (fun w' resp => ∃ s', srv.Steps q s resp s' ∧ Has w' s') w
      (srv.route q) := by
  have hsteps (w' : World) (resp : Response)
      (hex : ∃ now, Handles srv q s (srv.asked now q) w' resp) :
      ∃ s', srv.Steps q s resp s' ∧ Has w' s' := by
    obtain ⟨now, s', hadmits, h'⟩ := hex
    exact ⟨s', ⟨now, hadmits⟩, h'⟩
  refine Meets.mono ?_ hsteps
  unfold Server.route
  split
  · next hmethod =>
      refine ⟨zeroTime, ?_⟩
      rw [Server.asked, if_pos hmethod]
      exact h.handles_refused rfl
  · next hmethod =>
      split
      · next hop => exact meets_handleFileUpload hsrv hop (not_not.mp hmethod) h hdir
      · next hop =>
          refine meets_validate h fun now => Meets.mono ?_ fun _ _ h => ⟨now, h⟩
          rw [Server.asked, if_neg hmethod]
          cases srv.credentials.subject now q.authorization with
          | error e => exact h.handles_refused rfl
          | ok subjectFSID =>
              dsimp only
              rw [if_neg hop, Server.askedBody]
              cases decodeCommon q.body with
              | none => exact h.handles_refused rfl
              | some body =>
                  dsimp only
                  cases hsc : srv.authorize q.opName subjectFSID body.filesystemID with
                  | error e => exact h.handles_refused rfl
                  | ok sc =>
                      obtain ⟨hmem, hid, -⟩ := authorize_ok hsc
                      refine meets_chargePerOp h ?_ fun hscope => ?_
                      · have hnot : ¬ srv.counts q := fun hcounts => hop hcounts.1
                        refine (meets_dispatch (hsrv.clean sc hmem) h hplain q.opName body).mono ?_
                        rintro w' resp ⟨s', hexec, h'⟩
                        refine ⟨s', .inr (.inr ⟨fun hturn => hnot hturn.1, ?_⟩), h'⟩
                        rwa [Server.counted, if_neg hnot]
                      · exact ⟨s, .inl ⟨hid ▸ hscope, rfl, rfl⟩, h⟩

end Requests

/-! ## runs -/

/-- The volume is as scopes and temporary files need it. -/
structure Store.Regular (s : Store) (ts : Loc) : Prop where
  plain : s.volume.Named Plain
  temp : s.volume.IsDir ts

/-- Requests one after the other, with their replies, on a disk that works. -/
inductive Serving (srv : Server) : World → List (Request × Response) → World → Prop
  | nil (w : World) : Serving srv w [] w
  | cons {w w₁ w' : World} {q : Request} {resp : Response} {tr : List (Request × Response)}
      (h : Prog.EvalsTo (working srv.tempDir) w (srv.route q) w₁ resp)
      (hrest : Serving srv w₁ tr w') : Serving srv w ((q, resp) :: tr) w'

/-- The same requests and replies, of the store. -/
inductive Server.StepsAll (srv : Server) : Store → List (Request × Response) → Store → Prop
  | nil (s : Store) : StepsAll srv s [] s
  | cons {s s₁ s' : Store} {q : Request} {resp : Response} {tr : List (Request × Response)}
      (h : srv.Steps q s resp s₁) (hrest : StepsAll srv s₁ tr s') :
      StepsAll srv s ((q, resp) :: tr) s'

section Runs

variable {srv : Server} {ts : Loc} {s s' : Store}

/-- A request that is let in is of one scope, and its command is that of its
body or of its form. -/
theorem asked_ok {now : Time} {q : Request} {sc : Scope} {cmd : Except Int Command}
    (h : srv.asked now q = .ok (sc, cmd)) :
    sc ∈ srv.scopes ∧ ((∃ body, cmd = command q.opName body) ∨
      ∃ params parts, cmd = uploadCommand params parts) := by
  unfold Server.asked at h
  split at h
  · cases h
  · split at h
    · cases h
    · split at h
      · unfold Server.askedForm at h
        split at h
        · cases h
        · split at h
          · obtain ⟨hmem, params, hcmd⟩ := askedUpload_ok h
            exact ⟨hmem, .inr ⟨params, _, hcmd⟩⟩
          · cases h
      · unfold Server.askedBody at h
        split at h
        · cases h
        · split at h
          · cases h
          · next hsc =>
              cases h
              exact ⟨(authorize_ok hsc).1, .inl ⟨_, rfl⟩⟩

/-- A step leaves the volume alone, or edits one scope. -/
theorem Server.Steps.edit {q : Request} {resp : Response} (hsrv : srv.Sound ts)
    (h : srv.Steps q s resp s') :
    s'.volume = s.volume ∨ ∃ sc ∈ srv.scopes, FileVolume.Edit Plain sc.loc s.volume s'.volume := by
  have hcounted := volume_counted srv q s
  obtain ⟨now, hadmits⟩ := h
  cases hasked : srv.asked now q with
  | error status =>
      rw [hasked] at hadmits
      exact .inl (by rw [hadmits.2])
  | ok r =>
      obtain ⟨sc, cmd⟩ := r
      rw [hasked] at hadmits
      obtain ⟨-, -, rfl⟩ | ⟨-, -, rfl⟩ | ⟨-, hexec⟩ := hadmits
      · exact .inl rfl
      · exact .inl hcounted
      · have hmem := (asked_ok hasked).1
        cases cmd with
        | error status => exact .inl (by rw [hexec.2, hcounted])
        | ok cmd =>
            refine .inr ⟨sc, hmem, ?_⟩
            rw [hexec.2, ← hcounted]
            exact cmd.edit (hsrv.clean sc hmem) _

/-- A request keeps the names plain and the temporary directory in place. -/
theorem Store.Regular.step {q : Request} {resp : Response} (hsrv : srv.Sound ts)
    (hs : s.Regular ts) (h : srv.Steps q s resp s') : s'.Regular ts := by
  rcases h.edit hsrv with heq | ⟨sc, hmem, hedit⟩
  · exact ⟨heq ▸ hs.plain, heq ▸ hs.temp⟩
  · refine ⟨hedit.named hs.plain, ?_⟩
    have hnot : ¬ sc.loc <+: ts := by
      intro hpre
      have hapart := hsrv.apart sc hmem (tempPath srv.tempDir 0) ⟨0, rfl⟩
      rw [hsrv.tempDir, loc_tempPath hsrv.plain] at hapart
      exact hapart.2 (hpre.trans (List.prefix_append _ _))
    have hsome : s.volume.node ts ≠ none := by
      rw [show s.volume.node ts = some none from hs.temp]
      exact Option.some_ne_none _
    exact (hedit.elsewhere hnot hsome).trans hs.temp

/-- A run of the peer is a run of the store. -/
theorem Serving.steps (hsrv : srv.Sound ts) {w w' : World} {tr : List (Request × Response)}
    (hrun : Serving srv w tr w') (h : Has w s) (hs : s.Regular ts) :
    ∃ s', srv.StepsAll s tr s' ∧ Has w' s' := by
  induction hrun generalizing s with
  | nil w => exact ⟨s, .nil s, h⟩
  | cons hev _ ih =>
      obtain ⟨s₁, hstep, h₁⟩ := hev.post (meets_route hsrv h hs.plain hs.temp)
      obtain ⟨s', hrest, h'⟩ := ih h₁ (hs.step hsrv hstep)
      exact ⟨s', .cons hstep hrest, h'⟩

/-- Every request is answered. -/
theorem exists_reply (hsrv : srv.Sound ts) {w : World} (h : Has w s) (hs : s.Regular ts)
    (q : Request) : ∃ w' s' resp, Prog.EvalsTo (working srv.tempDir) w (srv.route q) w' resp ∧
      srv.Steps q s resp s' ∧ Has w' s' := by
  have hmeets := meets_route (q := q) hsrv h hs.plain hs.temp
  obtain ⟨w', resp, hev⟩ := hmeets.yields.1
  obtain ⟨s', hstep, h'⟩ := hev.post hmeets
  exact ⟨w', s', resp, hev, hstep, h'⟩

/-- Requests are answered one after the other. -/
theorem exists_serving (hsrv : srv.Sound ts) {w : World} (h : Has w s) (hs : s.Regular ts)
    (qs : List Request) : ∃ tr w', tr.map Prod.fst = qs ∧ Serving srv w tr w' := by
  induction qs generalizing w s with
  | nil => exact ⟨[], w, rfl, .nil w⟩
  | cons q qs ih =>
      obtain ⟨w₁, s₁, resp, hev, hstep, h₁⟩ := exists_reply hsrv h hs q
      obtain ⟨tr, w', rfl, hrest⟩ := ih h₁ (hs.step hsrv hstep)
      exact ⟨(q, resp) :: tr, w', rfl, .cons hev hrest⟩

/-- Any number of requests keep the volume regular. -/
theorem Server.StepsAll.regular {tr : List (Request × Response)} (hsrv : srv.Sound ts)
    (h : srv.StepsAll s tr s') (hs : s.Regular ts) : s'.Regular ts := by
  induction h with
  | nil s => exact hs
  | cons hstep _ ih => exact ih (hs.step hsrv hstep)

/-- **The peer refines the store**: whatever requests come one after the other
on a disk that works, every one is answered, and its reply and the volumes are
those of the store. -/
theorem serves_refines (hsrv : srv.Sound ts) {w : World} (h : Has w s) (hs : s.Regular ts) :
    (∀ tr w', Serving srv w tr w' → ∃ s', srv.StepsAll s tr s' ∧ Has w' s') ∧
      ∀ qs : List Request, ∃ tr w', tr.map Prod.fst = qs ∧ Serving srv w tr w' :=
  ⟨fun _ _ hrun => hrun.steps hsrv h hs, exists_serving hsrv h hs⟩

end Runs

/-! ## two scopes on an empty disk -/

/-- A disk that holds a volume. -/
def World.of (V : Vol) : World := ⟨fun x => (V.node x).map fun c => ⟨newEntry, c⟩, [], 0⟩

/-- The disk of a volume holds it. -/
theorem has_of (V : Vol) : Has (World.of V) ⟨V, 0⟩ := by
  refine ⟨fun x => ?_, rfl⟩
  simp only [FileTree.shape, World.of, Option.map_map]
  exact congrFun Option.map_id _

/-- Nothing but a directory for temporary files. -/
def justTemp : Vol := FileVolume.empty.mkdirs ["tmp".toList] (FileVolume.clear_empty _)

/-- A volume with a temporary directory is regular. -/
theorem justTemp_regular : Store.Regular ⟨justTemp, 0⟩ ["tmp".toList] := by
  have hplain : ∀ t ∈ ["tmp".toList], Plain t := by decide +kernel
  have hclear : (FileVolume.empty : Vol).Clear ["tmp".toList] := FileVolume.clear_empty _
  refine ⟨?_, FileVolume.isDir_mkdirs hclear (List.prefix_refl _)⟩
  have hedit := FileVolume.Edit.mkdirs (z := []) hclear (.inl List.nil_prefix) hplain
  refine hedit.named fun x hx => ?_
  obtain rfl : x = [] := by
    by_contra hne
    exact hx (if_neg hne)
  exact fun t ht => by cases ht

/-- The two scopes are apart from the temporary directory. -/
theorem twoScopes_sound : twoScopes.Sound ["tmp".toList] := by
  have htmp : twoScopes.tempDir = fromRoot ["tmp".toList] := by decide +kernel
  have hplain : ∀ t ∈ ["tmp".toList], Plain t := by decide +kernel
  have hroots : ∀ sc ∈ twoScopes.scopes, isRooted sc.root = true ∧ clean sc.root = sc.root ∧
      sc.root ≠ ['/'] := by decide +kernel
  have hlocs : ∀ sc ∈ twoScopes.scopes, sc.loc = ["rw".toList] ∨ sc.loc = ["ro".toList] := by
    decide +kernel
  refine ⟨fun sc hsc => ?_, hplain, htmp, ?_⟩
  · obtain ⟨hrooted, hclean, hne⟩ := hroots sc hsc
    exact ⟨hrooted, hclean, hne⟩
  · rintro sc hsc _ ⟨n, rfl⟩
    rw [htmp, loc_tempPath hplain]
    rcases hlocs sc hsc with hloc | hloc
    · rw [hloc]
      exact ⟨fun h => absurd (List.cons_prefix_cons.mp h).1 (by decide),
        fun h => absurd (List.cons_prefix_cons.mp h).1 (by decide)⟩
    · rw [hloc]
      exact ⟨fun h => absurd (List.cons_prefix_cons.mp h).1 (by decide),
        fun h => absurd (List.cons_prefix_cons.mp h).1 (by decide)⟩

/-- Two scopes, from an empty disk on. -/
theorem serves_refines_justTemp :
    (∀ tr w', Serving twoScopes (World.of justTemp) tr w' →
        ∃ s', twoScopes.StepsAll ⟨justTemp, 0⟩ tr s' ∧ Has w' s') ∧
      ∀ qs : List Request, ∃ tr w', tr.map Prod.fst = qs ∧
        Serving twoScopes (World.of justTemp) tr w' :=
  serves_refines twoScopes_sound (has_of justTemp) justTemp_regular

end OcuFilestore.Peer
