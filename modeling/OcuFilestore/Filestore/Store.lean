import OcuFilestore.Filestore.Working

/-!
# OcuFilestore.Filestore.Store

What the filestore peer is for: a store of files in directories, one volume
for each scope.  `Command` is what a request asks of it, `Command.next` what
becomes of the volume and `Command.Answered` what the reply says.

On a disk that works every handler does what its command says
(`meets_dispatch`, `meets_storePart`), errors and what they leave behind
included: a move that fails has made the directories above its destination,
and an upload of the wrong length leaves them without the file.
-/

namespace OcuFilestore.Peer

open SlashPath
open Filestore (resolveWindow)
open Prog (Meets)

/-! ## commands -/

inductive Command where
  | createFile (rel : Path)
  | readFile (rel : Path)
  | readMetadata (rel : Path)
  | listDirectory (rel : Path)
  | makeDirectory (rel : Path)
  | removeFile (rel : Path)
  | removeDirectory (rel : Path)
  | copyFile (sd : SrcDstBody)
  /-- Of a file or of a directory. -/
  | move (sd : SrcDstBody)
  | upload (params : UploadParams) (bytes : List UInt8)
  | download (uuid : List Char) (range : Option Brokerrpc.Range)

/-- Where a path of a request leads. -/
def Scope.locOf (sc : Scope) (rel : Path) : Loc := sc.loc ++ place rel

/-- The status of an error. -/
def ErrKind.status : ErrKind → Int
  | .notExist => 404
  | .exist => 409
  | .other => 500

section Meaning

open Classical

/-- The destination of a copy or of a move is taken. -/
def Taken (V : Vol) (overwrite : Bool) (x : Loc) : Prop := overwrite = false ∧ V.node x ≠ none

/-- The directories above the destination are made first. -/
noncomputable def transfer (V : Vol) (overwrite : Bool) (dst : Loc) (op : Vol → Vol) : Vol :=
  if Taken V overwrite dst then V
  else if h : V.Clear dst.dropLast then op (V.mkdirs dst.dropLast h)
  else V

/-- A file that is copied onto itself is cut before it is read; of a directory
an empty file is made. -/
noncomputable def copied (V : Vol) (src dst : Loc) : Vol :=
  if V.node src = none then V
  else if h : V.Free dst then
    V.put dst (if src = dst then [] else (V.file src).getD []) h
  else V

noncomputable def renamed (V : Vol) (src dst : Loc) : Vol :=
  if h : moveFault V src dst = none then V.moved src dst (movable_of_moveFault h) else V

/-- What a command makes of the volume. -/
noncomputable def Command.next (sc : Scope) (V : Vol) : Command → Vol
  | .createFile rel => if h : V.Free (sc.locOf rel) then V.put (sc.locOf rel) [] h else V
  | .makeDirectory rel => if h : V.Clear (sc.locOf rel) then V.mkdirs (sc.locOf rel) h else V
  | .removeFile rel =>
      if h : sc.locOf rel ≠ [] ∧ V.node (sc.locOf rel) ≠ none ∧ ¬ V.Occupied (sc.locOf rel) then
        V.cut (sc.locOf rel) h.1
      else V
  | .removeDirectory rel =>
      if h : sc.locOf rel ≠ [] ∧ V.Clear (sc.locOf rel).dropLast then V.cut (sc.locOf rel) h.1
      else V
  | .copyFile sd =>
      transfer V sd.overwriteExisting (sc.locOf sd.destination) fun V =>
        copied V (sc.locOf sd.source) (sc.locOf sd.destination)
  | .move sd =>
      transfer V sd.overwriteExisting (sc.locOf sd.destination) fun V =>
        renamed V (sc.locOf sd.source) (sc.locOf sd.destination)
  | .upload params bytes =>
      if Taken V params.overwriteExisting (sc.locOf params.path) then V
      else if h : V.Free (sc.locOf params.path) then
        if (bytes.length : Int) = params.declaredSizeBytes then V.put (sc.locOf params.path) bytes h
        else (V.put (sc.locOf params.path) bytes h).cut (sc.locOf params.path) h.ne_nil
      else V
  | .readFile _ | .readMetadata _ | .listDirectory _ | .download _ _ => V

/-- A file as it is reported under a path. -/
structure ReportsFile (sc : Scope) (rel : Path) (size : Nat) (f : WireFile) : Prop where
  path : f.path = rel
  size : f.size = size
  uuid : f.uuid = uuidForRelPath sc.filesystemID rel
  short : ShortTexts f.mtime f.mode

/-- An entry as it is reported under a path. -/
def Reports (sc : Scope) (V : Vol) (x : Loc) (rel : Path) : WireFile ⊕ WireDir → Prop
  | .inl f => ∃ bs, V.file x = some bs ∧ ReportsFile sc rel bs.length f
  | .inr d => V.IsDir x ∧ d.path = rel ∧ ShortTexts d.mtime d.mode

/-- The reply to a copy or to a move. -/
def TransferAnswered (V : Vol) (overwrite : Bool) (dst : Loc) (resp : Response)
    (op : Vol → Prop) : Prop :=
  if Taken V overwrite dst then resp.status = 409
  else if h : V.Clear dst.dropLast then op (V.mkdirs dst.dropLast h)
  else resp.status = 500

def CopyAnswered (V : Vol) (src dst : Loc) (resp : Response) : Prop :=
  if V.node src = none then resp.status = (absence V src).status
  else if V.Free dst ∧ ¬ V.IsDir src then resp = .done
  else resp.status = 500

def MoveAnswered (V : Vol) (src dst : Loc) (resp : Response) : Prop :=
  match moveFault V src dst with
  | none => resp = .done
  | some kind => resp.status = kind.status

/-- What a command is answered. -/
def Command.Answered (sc : Scope) (V : Vol) : Command → Response → Prop
  | .createFile rel, resp =>
      if V.Free (sc.locOf rel) then ∃ f, resp = .file f ∧ ReportsFile sc rel 0 f
      else resp.status = 500
  | .readFile rel, resp =>
      if V.node (sc.locOf rel) = none then resp.status = (absence V (sc.locOf rel)).status
      else ∃ f, resp = .file f ∧ f.path = rel ∧
        ∀ bs, V.file (sc.locOf rel) = some bs → ReportsFile sc rel bs.length f
  | .readMetadata rel, resp =>
      if V.node (sc.locOf rel) = none then resp.status = (absence V (sc.locOf rel)).status
      else ∃ e, resp = .entry e ∧ Reports sc V (sc.locOf rel) rel e
  | .listDirectory rel, resp =>
      if V.IsDir (sc.locOf rel) then
        -- every child once
        ∃ es names, resp = .entries es ∧ names.Nodup ∧
          (∀ name, name ∈ names ↔ V.node (sc.locOf rel ++ [name]) ≠ none) ∧
          List.Forall₂ (fun name => Reports sc V (sc.locOf rel ++ [name]) (join rel name)) names es
      else if V.node (sc.locOf rel) = none then resp.status = (absence V (sc.locOf rel)).status
      else resp.status = 500
  | .makeDirectory rel, resp =>
      if V.Clear (sc.locOf rel) then resp = .done else resp.status = 500
  | .removeFile rel, resp =>
      if V.node (sc.locOf rel) = none then resp.status = (absence V (sc.locOf rel)).status
      else if V.Occupied (sc.locOf rel) then resp.status = 409
      else resp = .done
  | .removeDirectory rel, resp =>
      if V.Clear (sc.locOf rel).dropLast then resp = .done else resp.status = 500
  | .copyFile sd, resp =>
      TransferAnswered V sd.overwriteExisting (sc.locOf sd.destination) resp fun V =>
        CopyAnswered V (sc.locOf sd.source) (sc.locOf sd.destination) resp
  | .move sd, resp =>
      TransferAnswered V sd.overwriteExisting (sc.locOf sd.destination) resp fun V =>
        MoveAnswered V (sc.locOf sd.source) (sc.locOf sd.destination) resp
  | .upload params bytes, resp =>
      if Taken V params.overwriteExisting (sc.locOf params.path) then resp.status = 409
      else if ¬ V.Free (sc.locOf params.path) then resp.status = 500
      else if (bytes.length : Int) ≠ params.declaredSizeBytes then resp.status = 422
      else ∃ f, resp = .file f ∧ ReportsFile sc params.path bytes.length f
  | .download uuid range, resp =>
      if uuid = [] then resp.status = 400
      else (∃ ss bs, V.file (sc.loc ++ ss) = some bs ∧
          uuidForRelPath sc.filesystemID (relText ss) = uuid ∧ resp = downloaded bs range) ∨
        (∀ ss, V.file (sc.loc ++ ss) ≠ none →
          uuidForRelPath sc.filesystemID (relText ss) ≠ uuid) ∧ resp.status = 404

end Meaning

/-- The kind of reply that a command has when it is no error. -/
def Command.Delivers : Command → Response → Prop
  | .createFile _, resp | .readFile _, resp | .upload _ _, resp => ∃ f, resp = .file f
  | .readMetadata _, resp => ∃ e, resp = .entry e
  | .listDirectory _, resp => ∃ es, resp = .entries es
  | .makeDirectory _, resp | .removeFile _, resp | .removeDirectory _, resp | .copyFile _, resp
  | .move _, resp => resp = .done
  | .download _ _, resp => ∃ n bytes, resp = .stream n bytes

section Replies

variable {sc : Scope} {V : Vol} {x : Loc} {bs : List UInt8} {resp : Response}

/-- Every kind of file system error is answered with an error. -/
theorem ErrKind.le_status (kind : ErrKind) : 400 ≤ kind.status := by
  cases kind <;> decide

/-- A reply about something that is not there is an error. -/
theorem le_of_status_absence (h : resp.status = (absence V x).status) : 400 ≤ resp.status :=
  h ▸ ErrKind.le_status _

/-- A window that cannot be resolved is the client's fault. -/
theorem status_of_resolveWindow {total status : Int} {range : Option Brokerrpc.Range}
    {msg : String} (h : resolveWindow total range = .error (status, msg)) : status = 400 := by
  cases range with
  | none => cases h
  | some rng =>
      rw [resolveWindow] at h
      split at h
      · cases h
        rfl
      · dsimp only at h
        generalize (if rng.offset > total then total else rng.offset) = start at h
        split at h
        · cases h
          rfl
        · cases h

/-- A download sends a stretch of the content, or is refused for its range. -/
theorem downloaded_cases (bs : List UInt8) (range : Option Brokerrpc.Range) :
    (∃ n bytes, downloaded bs range = .stream n bytes ∧ bytes <:+: bs) ∨
      (downloaded bs range).status = 400 := by
  unfold downloaded
  split
  · next hwindow => exact .inr (status_of_resolveWindow hwindow)
  · exact .inl ⟨_, _, rfl, (List.take_prefix _ _).isInfix.trans (List.drop_suffix _ _).isInfix⟩

/-- A command is answered in kind, or with an error. -/
theorem Command.Answered.delivers {cmd : Command} (h : cmd.Answered sc V resp) :
    cmd.Delivers resp ∨ 400 ≤ resp.status := by
  have herror {n : Int} (hn : 400 ≤ n) (h : resp.status = n) : 400 ≤ resp.status := h ▸ hn
  cases cmd with
  | createFile rel =>
      rw [Command.Answered] at h
      split at h
      · exact .inl (h.imp fun f hf => hf.1)
      · exact .inr (herror (by decide) h)
  | readFile rel | readMetadata rel =>
      rw [Command.Answered] at h
      split at h
      · exact .inr (le_of_status_absence h)
      · exact .inl (h.imp fun f hf => hf.1)
  | listDirectory rel =>
      rw [Command.Answered] at h
      split at h
      · obtain ⟨es, -, hes, -⟩ := h
        exact .inl ⟨es, hes⟩
      · split at h
        · exact .inr (le_of_status_absence h)
        · exact .inr (herror (by decide) h)
  | makeDirectory rel | removeDirectory rel =>
      rw [Command.Answered] at h
      split at h
      · exact .inl h
      · exact .inr (herror (by decide) h)
  | removeFile rel =>
      rw [Command.Answered] at h
      split at h
      · exact .inr (le_of_status_absence h)
      · split at h
        · exact .inr (herror (by decide) h)
        · exact .inl h
  | copyFile sd =>
      rw [Command.Answered, TransferAnswered] at h
      split at h
      · exact .inr (herror (by decide) h)
      · split at h
        · rw [CopyAnswered] at h
          split at h
          · exact .inr (le_of_status_absence h)
          · split at h
            · exact .inl h
            · exact .inr (herror (by decide) h)
        · exact .inr (herror (by decide) h)
  | move sd =>
      rw [Command.Answered, TransferAnswered] at h
      split at h
      · exact .inr (herror (by decide) h)
      · split at h
        · rw [MoveAnswered] at h
          split at h
          · exact .inl h
          · next kind _ => exact .inr (herror kind.le_status h)
        · exact .inr (herror (by decide) h)
  | upload params bytes =>
      rw [Command.Answered] at h
      split at h
      · exact .inr (herror (by decide) h)
      · split at h
        · exact .inr (herror (by decide) h)
        · split at h
          · exact .inr (herror (by decide) h)
          · exact .inl (h.imp fun f hf => hf.1)
  | download uuid range =>
      rw [Command.Answered] at h
      split at h
      · exact .inr (herror (by decide) h)
      · obtain ⟨ss, bs, -, -, rfl⟩ | ⟨-, hnone⟩ := h
        · obtain ⟨n, bytes, heq, -⟩ | hstatus := downloaded_cases bs range
          · exact .inl ⟨n, bytes, heq⟩
          · exact .inr (herror (by decide) hstatus)
        · exact .inr (herror (by decide) hnone)

end Replies

/-! ## what a command leaves alone -/

section Edits

variable {sc : Scope} {V : Vol}

/-- A path below a clean root leads to plain names. -/
theorem plain_locOf (hroot : sc.CleanRoot) (rel : Path) : ∀ t ∈ sc.locOf rel, Plain t :=
  plain_append hroot.eq_fromRoot.1 (plain_place rel)

theorem prefix_locOf (sc : Scope) (rel : Path) : sc.loc <+: sc.locOf rel := List.prefix_append ..

/-- A transfer changes the scope at most, if what it does at the destination
does. -/
theorem edit_transfer (hroot : sc.CleanRoot) (rel : Path) (overwrite : Bool) {op : Vol → Vol}
    (hop : ∀ V, FileVolume.Edit Plain sc.loc V (op V)) :
    FileVolume.Edit Plain sc.loc V (transfer V overwrite (sc.locOf rel) op) := by
  unfold transfer
  split
  · exact .refl V
  · split
    · next hc =>
        refine .trans (.mkdirs hc ?_ fun t ht => ?_) (hop _)
        · exact List.prefix_or_prefix_of_prefix (prefix_locOf sc rel) (List.dropLast_prefix _)
        · exact plain_locOf hroot rel t (List.dropLast_subset _ ht)
    · exact .refl V

/-- A command edits its scope. -/
theorem Command.edit (hroot : sc.CleanRoot) (V : Vol) (cmd : Command) :
    FileVolume.Edit Plain sc.loc V (cmd.next sc V) := by
  have hplain := plain_locOf hroot
  have hbelow := prefix_locOf sc
  cases cmd with
  | createFile rel =>
      rw [Command.next]
      split
      · next hf => exact .put hf (hbelow rel) (hplain rel)
      · exact .refl V
  | makeDirectory rel =>
      rw [Command.next]
      split
      · next hc => exact .mkdirs hc (.inl (hbelow rel)) (hplain rel)
      · exact .refl V
  | removeFile rel | removeDirectory rel =>
      rw [Command.next]
      split
      · next h => exact .cut h.1 (hbelow rel)
      · exact .refl V
  | copyFile sd =>
      rw [Command.next]
      refine edit_transfer hroot _ _ fun V => ?_
      unfold copied
      split
      · exact .refl V
      · split
        · next hf => exact .put hf (hbelow _) (hplain _)
        · exact .refl V
  | move sd =>
      rw [Command.next]
      refine edit_transfer hroot _ _ fun V => ?_
      unfold renamed
      split
      · exact .moved _ (hbelow _) (hbelow _) (hplain _)
      · exact .refl V
  | upload params bytes =>
      rw [Command.next]
      split
      · exact .refl V
      · split
        · next hf =>
            split
            · exact .put hf (hbelow _) (hplain _)
            · exact .trans (.put hf (hbelow _) (hplain _)) (.cut hf.ne_nil (hbelow _))
        · exact .refl V
  | readFile rel | readMetadata rel | listDirectory rel | download uuid range => exact .refl V

end Edits

/-! ## handlers -/

/-- The status of a metadata error is that of its kind. -/
theorem status_metaError (e : OSErr) : (metaError e).status = e.kind.status := by
  unfold metaError
  cases e.kind <;> rfl

section Handlers

variable {srv : Server} {sc : Scope} {w : World} {s : Store} {body : CommonBody} {rel : Path}
  {tempDir : Path}

/-- What a handler has to do for a command. -/
def Fulfils (sc : Scope) (s : Store) (cmd : Command) (w : World) (resp : Response) : Prop :=
  cmd.Answered sc s.volume resp ∧ Has w { s with volume := cmd.next sc s.volume }

/-- A command is carried out when the reply and the volume are the command's.
-/
theorem Fulfils.of_eq {cmd : Command} {V : Vol} {resp : Response}
    (hhas : Has w { s with volume := V }) (hnext : cmd.next sc s.volume = V)
    (hans : cmd.Answered sc s.volume resp) :
    Fulfils sc s cmd w resp :=
  ⟨hans, hnext ▸ hhas⟩

/-- The path of a request, on the disk. -/
structure On (sc : Scope) (rel abs : Path) : Prop where
  loc : Peer.loc abs = sc.locOf rel
  dir : Peer.loc (dir abs) = (sc.locOf rel).dropLast
  ne_nil : sc.locOf rel ≠ []

/-- A path that is resolved under a clean root stands for its place below it.
-/
theorem on_resolveUnder (hroot : sc.CleanRoot) (rel : Path) :
    On sc rel (fromRoot (sc.loc ++ place rel)) := by
  obtain ⟨hss, -, hne⟩ := hroot.eq_fromRoot
  have hplain := plain_append hss (plain_place rel)
  refine ⟨loc_fromRoot hplain, ?_, by simp [Scope.locOf, hne]⟩
  rw [dir_fromRoot hplain, loc_fromRoot fun s hs => hplain s (List.dropLast_subset _ hs)]
  rfl

/-- The handlers that take one path, up to their own part. -/
theorem meets_withPath {Q : World → Response → Prop} (hroot : sc.CleanRoot)
    (hpath : pathFromBody body.raw = some rel) {handler : Path → Path → FsProg Response}
    (h : ∀ abs, On sc rel abs → Meets (working tempDir) Q w (handler rel abs)) :
    Meets (working tempDir) Q w (srv.withPath sc body handler) := by
  unfold Server.withPath
  rw [hpath]
  dsimp only
  rw [resolveUnder_eq hroot]
  exact h _ (on_resolveUnder hroot rel)

/-- The entry of a file that was just written. -/
theorem meets_fileMeta {abs : Path} {bs : List UInt8} (h : Has w s) (hon : On sc rel abs)
    (hfile : s.volume.file (sc.locOf rel) = some bs) :
    Meets (working tempDir) (fun w' resp => w' = w ∧
      ∃ f, resp = .file f ∧ ReportsFile sc rel bs.length f) w (fileMeta sc rel abs) := by
  have hnode := FileVolume.file_eq_some_iff.mp hfile
  refine meets_stat hon.loc h (fun info _ htells => ?_) fun e hnone _ => ?_
  · exact ⟨rfl, _, rfl, rfl, htells.size bs hfile, rfl, htells.short⟩
  · cases hnode.symm.trans hnone

/-- `createFile` leaves an empty file, in place of what was there. -/
theorem meets_createFile (hroot : sc.CleanRoot) (h : Has w s)
    (hpath : pathFromBody body.raw = some rel) :
    Meets (working tempDir) (Fulfils sc s (.createFile rel)) w (srv.handleCreateFile sc body) := by
  refine meets_withPath hroot hpath fun abs hon => ?_
  refine meets_mkdirAll hon.dir h (fun w₁ hc h₁ => ?_) fun w₁ e hc hkind h₁ => ?_
  · have hparent := FileVolume.isDir_mkdirs hc (List.prefix_refl _)
    refine meets_create hon.loc h₁ hparent (fun w₂ hf h₂ => ?_) fun w₂ e hdir hkind h₂ => ?_
    · have hfree := (FileVolume.free_mkdirs hc hon.ne_nil).mp hf
      rw [FileVolume.put_mkdirs hc hf hfree] at h₂
      refine meets_close h₂ ((meets_fileMeta h₂ hon (FileVolume.file_put_self hfree)).mono ?_)
      rintro _ resp ⟨rfl, hresp⟩
      exact .of_eq h₂ (dif_pos hfree) ((if_pos hfree).mpr hresp)
    · have hsome : s.volume.node (sc.locOf rel) = some none :=
        (FileVolume.node_mkdirs_dropLast hc hon.ne_nil).symm.trans hdir
      have hnot : ¬ s.volume.Free (sc.locOf rel) := fun hfree => hfree.notDir hsome
      rw [FileVolume.mkdirs_dropLast_of_some hc (by simp [hsome]) hon.ne_nil] at h₂
      refine .of_eq h₂ (dif_neg hnot) ((if_neg hnot).mpr ?_)
      rw [status_metaError, hkind]
      rfl
  · have hnot : ¬ s.volume.Free (sc.locOf rel) := fun hfree => hc hfree.clear
    exact .of_eq h₁ (dif_neg hnot) ((if_neg hnot).mpr rfl)

/-- `readFile` reports the metadata of what is there. -/
theorem meets_readFile (hroot : sc.CleanRoot) (h : Has w s)
    (hpath : pathFromBody body.raw = some rel) :
    Meets (working tempDir) (Fulfils sc s (.readFile rel)) w (srv.handleReadFile sc body) := by
  refine meets_withPath hroot hpath fun abs hon => ?_
  refine meets_stat hon.loc h (fun info hsome htells => ?_) fun e hnone hkind => ?_
  · exact ⟨(if_neg hsome).mpr ⟨_, rfl, rfl, fun bs hbs =>
      ⟨rfl, htells.size bs hbs, rfl, htells.short⟩⟩, h⟩
  · refine ⟨(if_pos hnone).mpr ?_, h⟩
    rw [status_metaError, hkind]

/-- What `os.Stat` tells is reported. -/
theorem Tells.reports {V : Vol} {x : Loc} {info : FileInfo} (h : Tells V x info)
    (hx : V.node x ≠ none) (sc : Scope) (rel : Path) :
    Reports sc V x rel
      (if info.isDir then .inr ⟨rel, info.mode, info.mtime⟩ else .inl (wireFile sc rel info)) := by
  split
  · next hdir => exact ⟨h.isDir.mp hdir, rfl, h.short⟩
  · next hdir =>
      cases hfile : V.file x with
      | none => exact absurd (h.isDir.mpr (FileVolume.isDir_of_file_eq_none hx hfile)) hdir
      | some bs => exact ⟨bs, hfile, rfl, h.size bs hfile, rfl, h.short⟩

/-- `readMetadata` reports a file or a directory under the path that was asked
for. -/
theorem meets_readMetadata (hroot : sc.CleanRoot) (h : Has w s)
    (hpath : pathFromBody body.raw = some rel) :
    Meets (working tempDir) (Fulfils sc s (.readMetadata rel)) w
      (srv.handleReadMetadata sc body) := by
  refine meets_withPath hroot hpath fun abs hon => ?_
  refine meets_stat hon.loc h (fun info hsome htells => ?_) fun e hnone hkind => ?_
  · have hreports := htells.reports hsome sc rel
    dsimp only
    split
    · next hdir =>
        rw [if_pos hdir] at hreports
        exact ⟨(if_neg hsome).mpr ⟨_, rfl, hreports⟩, h⟩
    · next hdir =>
        rw [if_neg hdir] at hreports
        exact ⟨(if_neg hsome).mpr ⟨_, rfl, hreports⟩, h⟩
  · refine ⟨(if_pos hnone).mpr ?_, h⟩
    rw [status_metaError, hkind]

/-- Every entry of a directory is listed. -/
theorem forall₂_listDirEntry {V : Vol} {x : Loc} {es : List DirEntry}
    (h : ∀ e ∈ es, V.node (x ++ [e.name]) ≠ none ∧ ∃ info, e.info = .ok info ∧
      info.isDir = e.isDir ∧ Tells V (x ++ [e.name]) info) (sc : Scope) (rel : Path) :
    List.Forall₂ (fun name => Reports sc V (x ++ [name]) (join rel name)) (es.map DirEntry.name)
      (es.filterMap (listDirEntry sc rel)) := by
  induction es with
  | nil => exact .nil
  | cons e es ih =>
      obtain ⟨hsome, info, hinfo, hisDir, htells⟩ := h e (List.mem_cons_self ..)
      have hreports := htells.reports hsome sc (join rel e.name)
      have hentry : listDirEntry sc rel e = some (if info.isDir then
          .inr ⟨join rel e.name, info.mode, info.mtime⟩
          else .inl (wireFile sc (join rel e.name) info)) := by
        rw [listDirEntry, hinfo, hisDir]
        cases e.isDir <;> rfl
      rw [List.filterMap_cons_some hentry, List.map_cons]
      exact .cons hreports (ih fun e' he' => h e' (List.mem_cons_of_mem e he'))

/-- `listDirectory` reports every child under its own path. -/
theorem meets_listDirectory (hroot : sc.CleanRoot) (h : Has w s)
    (hpath : pathFromBody body.raw = some rel) :
    Meets (working tempDir) (Fulfils sc s (.listDirectory rel)) w
      (srv.handleListDirectory sc body) := by
  refine meets_withPath hroot hpath fun abs hon => ?_
  refine meets_readDir hon.loc h (fun es hdir hlists => ?_) fun e hdir hkind => ?_
  · refine ⟨(if_pos hdir).mpr ⟨_, es.map DirEntry.name, rfl, hlists.once, fun name => ?_, ?_⟩, h⟩
    · rw [hlists.all, List.mem_map]
    · refine forall₂_listDirEntry (fun e he => ⟨?_, hlists.entry e he⟩) sc rel
      exact (hlists.all e.name).mpr ⟨e, he, rfl⟩
  · refine ⟨(if_neg hdir).mpr ?_, h⟩
    split at hkind
    · next hnone =>
        rw [if_pos hnone, status_metaError, hkind]
    · next hsome =>
        rw [if_neg hsome, status_metaError, hkind]
        rfl

/-- `makeDirectory` makes the directories on the way as well. -/
theorem meets_makeDirectory (hroot : sc.CleanRoot) (h : Has w s)
    (hpath : pathFromBody body.raw = some rel) :
    Meets (working tempDir) (Fulfils sc s (.makeDirectory rel)) w
      (srv.handleMakeDirectory sc body) := by
  refine meets_withPath hroot hpath fun abs hon => ?_
  refine meets_mkdirAll hon.loc h (fun w₁ hc h₁ => ?_) fun w₁ e hc hkind h₁ => ?_
  · exact .of_eq h₁ (dif_pos hc) ((if_pos hc).mpr rfl)
  · refine .of_eq h₁ (dif_neg hc) ((if_neg hc).mpr ?_)
    rw [status_metaError, hkind]
    rfl

/-- `removeDirectory` takes what is below with it. -/
theorem meets_removeDirectory (hroot : sc.CleanRoot) (h : Has w s)
    (hpath : pathFromBody body.raw = some rel) :
    Meets (working tempDir) (Fulfils sc s (.removeDirectory rel)) w
      (srv.handleRemoveDirectory sc body) := by
  refine meets_withPath hroot hpath fun abs hon => ?_
  refine meets_removeAll hon.loc h hon.ne_nil (fun w₁ hc h₁ => ?_) fun w₁ e hc hkind h₁ => ?_
  · exact .of_eq h₁ (dif_pos ⟨hon.ne_nil, hc⟩) ((if_pos hc).mpr rfl)
  · refine .of_eq h₁ (dif_neg fun hand => hc hand.2) ((if_neg hc).mpr ?_)
    rw [status_metaError, hkind]
    rfl

/-- `removeFile` removes a file or an empty directory. -/
theorem meets_removeFile (hroot : sc.CleanRoot) (h : Has w s)
    (hpath : pathFromBody body.raw = some rel) :
    Meets (working tempDir) (Fulfils sc s (.removeFile rel)) w
      (srv.handleRemoveFile sc body) := by
  refine meets_withPath hroot hpath fun abs hon => ?_
  refine meets_remove hon.loc h hon.ne_nil (fun w₁ hsome hempty h₁ => ?_)
    (fun w₁ e hnone hkind h₁ => ?_) fun w₁ e hfull hkind h₁ => ?_
  · refine .of_eq h₁ (dif_pos ⟨hon.ne_nil, hsome, hempty⟩) ((if_neg hsome).mpr ?_)
    rw [if_neg hempty]
  · refine .of_eq h₁ (dif_neg fun hand => hand.2.1 hnone) ((if_pos hnone).mpr ?_)
    rw [status_metaError, hkind]
  · have hsome : s.volume.node (sc.locOf rel) ≠ none := by
      obtain ⟨name, hname⟩ := hfull
      simp [s.volume.parent _ _ hname]
    refine .of_eq h₁ (dif_neg fun hand => hand.2.2 hfull) ((if_neg hsome).mpr ?_)
    rw [if_pos hfull, status_metaError, hkind]
    rfl

/-! ## copies and moves -/

/-- The check for a conflict, which is skipped when the destination may be
overwritten. -/
theorem meets_destinationExists {Q : World → Response → Prop} {overwrite : Bool} {abs : Path}
    {x : Loc} (hx : loc abs = x) (h : Has w s) {k : Bool → FsProg Response}
    (hok : ¬ Taken s.volume overwrite x → Meets (working tempDir) Q w (k false))
    (htaken : Taken s.volume overwrite x → Meets (working tempDir) Q w (k true)) :
    Meets (working tempDir) Q w (destinationExists overwrite abs >>= k) := by
  cases overwrite with
  | true => exact hok fun htaken => by cases htaken.1
  | false =>
      refine meets_stat hx h (fun info hsome _ => ?_) fun e hnone _ => ?_
      · exact htaken ⟨rfl, hsome⟩
      · exact hok fun htaken => htaken.2 hnone

/-- A transfer makes the parents of the destination before its own part. -/
theorem meets_applySrcDstOp {sd : SrcDstBody} (next : Vol → Vol)
    (answered : Vol → Response → Prop) (hroot : sc.CleanRoot) (h : Has w s)
    (hbody : srcDstFromBody body.raw = some sd) {op : Path → Path → FsProg (Except OSErr Unit)}
    (hop : ∀ w₁ src dst (hc : s.volume.Clear (sc.locOf sd.destination).dropLast),
      On sc sd.source src → On sc sd.destination dst →
      Has w₁ { s with volume := s.volume.mkdirs _ hc } →
      Meets (working tempDir) (fun w' r =>
        Has w' { s with volume := next (s.volume.mkdirs _ hc) } ∧
          (r = .ok () → answered (s.volume.mkdirs _ hc) .done) ∧
          ∀ e, r = .error e → answered (s.volume.mkdirs _ hc) (metaError e)) w₁ (op src dst)) :
    Meets (working tempDir) (fun w' resp =>
      TransferAnswered s.volume sd.overwriteExisting (sc.locOf sd.destination) resp
          (fun V => answered V resp) ∧
        Has w' { s with
          volume := transfer s.volume sd.overwriteExisting (sc.locOf sd.destination) next })
      w (srv.applySrcDstOp sc body op) := by
  unfold Server.applySrcDstOp
  rw [hbody]
  dsimp only
  rw [resolveUnder_eq hroot, resolveUnder_eq hroot]
  have hsrc := on_resolveUnder hroot sd.source
  have hdst := on_resolveUnder hroot sd.destination
  refine meets_destinationExists hdst.loc h (fun hfree => ?_) fun htaken => ?_
  · refine meets_mkdirAll hdst.dir h (fun w₁ hc h₁ => ?_) fun w₁ e hc hkind h₁ => ?_
    · refine (hop w₁ _ _ hc hsrc hdst h₁).bind fun w₂ r hr => ?_
      obtain ⟨h₂, hdone, hfailed⟩ := hr
      have hnext : transfer s.volume sd.overwriteExisting (sc.locOf sd.destination) next =
          next (s.volume.mkdirs _ hc) :=
        (if_neg hfree).trans (dif_pos hc)
      have hanswered (resp : Response) (hresp : answered (s.volume.mkdirs _ hc) resp) :
          TransferAnswered s.volume sd.overwriteExisting (sc.locOf sd.destination) resp
            (fun V => answered V resp) :=
        (if_neg hfree).mpr ((dif_pos hc).mpr hresp)
      cases r with
      | ok _ => exact ⟨hanswered _ (hdone rfl), hnext ▸ h₂⟩
      | error e => exact ⟨hanswered _ (hfailed e rfl), hnext ▸ h₂⟩
    · refine ⟨(if_neg hfree).mpr ((dif_neg hc).mpr rfl), ?_⟩
      rwa [transfer, if_neg hfree, dif_neg hc]
  · refine ⟨(if_pos htaken).mpr rfl, ?_⟩
    rwa [transfer, if_pos htaken]

/-- The two moves rename, files and directories alike. -/
theorem meets_move {sd : SrcDstBody} (hroot : sc.CleanRoot) (h : Has w s)
    (hbody : srcDstFromBody body.raw = some sd) :
    Meets (working tempDir) (Fulfils sc s (.move sd)) w
      (srv.applySrcDstOp sc body fun srcAbs dstAbs => .perform (Eff.rename srcAbs dstAbs)) := by
  refine meets_applySrcDstOp (fun V => renamed V (sc.locOf sd.source) (sc.locOf sd.destination))
    (fun V => MoveAnswered V (sc.locOf sd.source) (sc.locOf sd.destination)) hroot h hbody
    fun w₁ src dst hc hsrc hdst h₁ => ?_
  refine meets_rename (k := .ret) hsrc.loc hdst.loc h₁ (fun w₂ hm hfault h₂ => ?_)
    fun w₂ e hfault h₂ => ?_
  · refine ⟨?_, fun _ => ?_, fun e he => (by cases he)⟩
    · rwa [renamed, dif_pos hfault]
    · rw [MoveAnswered, hfault]
  · refine ⟨?_, fun hok => (by cases hok), fun e' he => ?_⟩
    · rwa [renamed, dif_neg (by simp [hfault])]
    · cases he
      rw [MoveAnswered, hfault]
      exact status_metaError e

/-- The contents of a copy, once the directories above it are made. -/
theorem meets_copyFileContents {x y : Loc} {src dst : Path} (hx : loc src = x) (hy : loc dst = y)
    (h : Has w s) (hparent : s.volume.IsDir y.dropLast) :
    Meets (working tempDir) (fun w' r => Has w' { s with volume := copied s.volume x y } ∧
      (r = .ok () → CopyAnswered s.volume x y .done) ∧
      ∀ e, r = .error e → CopyAnswered s.volume x y (metaError e)) w
      (copyFileContents src dst) := by
  refine meets_openFile hx h (fun hsome => ?_) fun e hnone hkind => ?_
  · refine meets_create hy h hparent (fun w₁ hf h₁ => ?_) fun w₁ e hdir hkind h₁ => ?_
    · have hsome₁ : (s.volume.put y [] hf).node x ≠ none := by
        rw [FileVolume.node_put]
        split
        · exact Option.some_ne_none _
        · split
          · exact Option.some_ne_none _
          · exact hsome
      refine meets_read hx h₁ (fun w₂ bs hbs h₂ => ?_) (fun w₂ e hdir hkind h₂ => ?_) hsome₁
      · have hbytes : bs = if x = y then [] else (s.volume.file x).getD [] := by
          rw [FileVolume.file_put] at hbs
          split at hbs
          · next heq => rw [if_pos heq, Option.some.inj hbs]
          · next hne => rw [if_neg hne, hbs, Option.getD_some]
        have hfile : ¬ s.volume.IsDir x := by
          intro hdir
          rw [FileVolume.file_put] at hbs
          split at hbs
          · next heq => exact hf.notDir (heq ▸ hdir)
          · rw [FileVolume.file_of_isDir hdir] at hbs
            cases hbs
        refine meets_write hy h₂ (FileVolume.file_put_self hf) _ fun w₃ h₃ => ?_
        rw [FileVolume.put_put] at h₃
        refine meets_close h₃ ⟨?_, fun _ => ?_, fun e he => (by cases he)⟩
        · rw [copied, if_neg hsome, dif_pos hf, ← hbytes]
          exact h₃
        · rw [CopyAnswered, if_neg hsome, if_pos ⟨hf, hfile⟩]
      · -- a directory is opened, and cannot be read
        have hnone : s.volume.file x = none ∧ x ≠ y := by
          have hdir' := FileVolume.file_of_isDir hdir
          rw [FileVolume.file_put] at hdir'
          split at hdir'
          · cases hdir'
          · next hne => exact ⟨hdir', hne⟩
        refine meets_write hy h₂ (FileVolume.file_put_self hf) _ fun w₃ h₃ => ?_
        rw [FileVolume.put_put] at h₃
        refine meets_close h₃ ⟨?_, fun hok => (by cases hok), fun e' he => ?_⟩
        · rw [copied, if_neg hsome, dif_pos hf, if_neg hnone.2, hnone.1]
          exact h₃
        · cases he
          rw [CopyAnswered, if_neg hsome, if_neg, status_metaError, hkind]
          · rfl
          · exact fun hand => hand.2 (FileVolume.isDir_of_file_eq_none hsome hnone.1)
    · refine ⟨?_, fun hok => (by cases hok), fun e' he => ?_⟩
      · rwa [copied, if_neg hsome, dif_neg fun hf => hf.notDir hdir]
      · cases he
        rw [CopyAnswered, if_neg hsome, if_neg fun hf => hf.1.notDir hdir, status_metaError, hkind]
        rfl
  · refine ⟨?_, fun hok => (by cases hok), fun e' he => ?_⟩
    · rwa [copied, if_pos hnone]
    · cases he
      rw [CopyAnswered, if_pos hnone, status_metaError, hkind]

/-- `copyFile` truncates its destination before it reads. -/
theorem meets_copyFile {sd : SrcDstBody} (hroot : sc.CleanRoot) (h : Has w s)
    (hbody : srcDstFromBody body.raw = some sd) :
    Meets (working tempDir) (Fulfils sc s (.copyFile sd)) w (srv.handleCopyFile sc body) :=
  meets_applySrcDstOp (fun V => copied V (sc.locOf sd.source) (sc.locOf sd.destination))
    (fun V => CopyAnswered V (sc.locOf sd.source) (sc.locOf sd.destination)) hroot h hbody
    fun _ _ _ hc hsrc hdst h₁ => meets_copyFileContents hsrc.loc hdst.loc h₁
      (FileVolume.isDir_mkdirs hc (List.prefix_refl _))

/-! ## downloads -/

theorem meets_seekTo {abs : Path} {start : Int} {Q : World → Response → Prop} (h : Has w s)
    {k : Except OSErr Unit → FsProg Response} (hok : Meets (working tempDir) Q w (k (.ok ()))) :
    Meets (working tempDir) Q w (seekTo abs start >>= k) := by
  unfold seekTo
  split
  · exact meets_seek h hok
  · exact hok

/-- Streaming a file sends the window of its content. -/
theorem meets_streamFile {abs : Path} {x : Loc} {bs : List UInt8} (hx : loc abs = x) (h : Has w s)
    (hfile : s.volume.file x = some bs) (range : Option Brokerrpc.Range) :
    Meets (working tempDir) (fun w' resp => resp = downloaded bs range ∧ Has w' s) w
      (streamFile abs range) := by
  have hnode := FileVolume.file_eq_some_iff.mp hfile
  have hsome : s.volume.node x ≠ none := by simp [hnode]
  refine meets_openFile hx h (fun _ => ?_) fun e hnone _ => absurd hnone hsome
  refine meets_stat hx h (fun info _ htells => ?_) fun e hnone _ => absurd hnone hsome
  dsimp only
  rw [htells.size bs hfile]
  unfold downloaded
  cases resolveWindow bs.length range with
  | error e => exact ⟨rfl, h⟩
  | ok win =>
      refine meets_seekTo h
        (meets_read hx h (fun w₁ bs' hbs' h₁ => ?_) (fun w₁ e hdir _ _ => ?_) hsome)
      · obtain rfl := Option.some.inj (hfile.symm.trans hbs')
        exact ⟨rfl, h₁⟩
      · cases hnode.symm.trans hdir

/-- `fileDownload` finds the file by its uuid and sends the window. -/
theorem meets_download {db : DownloadBody} (hroot : sc.CleanRoot) (h : Has w s)
    (hplain : s.volume.Named Plain)
    (hbody : downloadBody body.raw = some db) :
    Meets (working tempDir) (Fulfils sc s (.download db.uuid db.range)) w
      (srv.handleFileDownload sc body) := by
  unfold Server.handleFileDownload
  rw [hbody]
  dsimp only
  split
  · next hempty => exact ⟨(if_pos hempty).mpr rfl, h⟩
  · next hne =>
      unfold relPathForUUID
      rw [Prog.bind_assoc]
      refine meets_walk (x := sc.loc) rfl h fun rels hrels => ?_
      rw [Prog.pure_eq, Prog.ret_bind]
      cases hfind : rels.find? fun rel => uuidForRelPath sc.filesystemID rel = db.uuid with
      | none =>
          refine ⟨(if_neg hne).mpr (.inr ⟨fun ss hss => ?_, rfl⟩), h⟩
          have hnot := List.find?_eq_none.mp hfind (relText ss) ((hrels _).mpr ⟨ss, rfl, hss⟩)
          simpa using hnot
      | some rel =>
          obtain ⟨ss, rfl, hss⟩ := (hrels rel).mp (List.mem_of_find?_eq_some hfind)
          have huuid : uuidForRelPath sc.filesystemID (relText ss) = db.uuid := by
            simpa using List.find?_some hfind
          obtain ⟨bs, hbs⟩ := Option.ne_none_iff_exists'.mp hss
          have hnode : s.volume.node (sc.loc ++ ss) ≠ none := by
            simp [FileVolume.file_eq_some_iff.mp hbs]
          have hplace : place (relText ss) = ss :=
            place_relText fun t ht => hplain _ hnode t (List.mem_append_right _ ht)
          have hfile : s.volume.file (sc.locOf (relText ss)) = some bs := by
            rw [Scope.locOf, hplace]
            exact hbs
          have hon := on_resolveUnder hroot (relText ss)
          dsimp only
          rw [resolveUnder_eq hroot]
          refine (meets_streamFile hon.loc h hfile db.range).mono fun w' resp hresp => ?_
          exact ⟨(if_neg hne).mpr (.inl ⟨ss, bs, hbs, huuid, hresp.1⟩), hresp.2⟩

/-! ## uploads -/

/-- The bytes of a file part, in memory or in a temporary file. -/
def FileSource.Keeps (tempDir : Path) (V : Vol) : FileSource → List UInt8 → Prop
  | .memory bs, bytes => bs = bytes
  | .disk tmp start size, bytes => IsTemp tempDir tmp ∧ ∃ pre post,
      V.file (loc tmp) = some (pre ++ bytes ++ post) ∧ pre.length = start ∧ bytes.length = size

/-- A file is put somewhere else. -/
theorem FileSource.Keeps.put {part : FileSource} {V : Vol} {dst : Loc} {bytes bs : List UInt8}
    (h : part.Keeps tempDir V bytes) (hdst : ∀ tmp, IsTemp tempDir tmp → loc tmp ≠ dst)
    (hf : V.Free dst) : part.Keeps tempDir (V.put dst bs hf) bytes := by
  cases part with
  | memory bs' => exact h
  | disk tmp start size =>
      obtain ⟨htmp, pre, post, hfile, hstart, hsize⟩ := h
      refine ⟨htmp, pre, post, ?_, hstart, hsize⟩
      rw [FileVolume.file_put, if_neg (hdst tmp htmp), hfile]

/-- Of a part that is too long the front is read. -/
theorem meets_readPart {part : FileSource} {bytes : List UInt8} {Q : World → Response → Prop}
    (h : Has w s) (hpart : part.Keeps tempDir s.volume bytes)
    {k : List UInt8 × Option OSErr → FsProg Response}
    (hok : ∀ w', Has w' s → Meets (working tempDir) Q w' (k (bytes.take maxUploadBytes, none))) :
    Meets (working tempDir) Q w (readPart part >>= k) := by
  cases part with
  | memory bs =>
      obtain rfl : bs = bytes := hpart
      exact hok w h
  | disk tmp start size =>
      obtain ⟨-, pre, post, hfile, rfl, rfl⟩ := hpart
      have hnode := FileVolume.file_eq_some_iff.mp hfile
      refine meets_read rfl h (fun w₁ bs hbs h₁ => ?_) (fun w₁ e hdir _ _ => ?_) (by simp [hnode])
      · obtain rfl := Option.some.inj (hfile.symm.trans hbs)
        have hwindow : window (pre ++ bytes ++ post) pre.length
            (some (min bytes.length maxUploadBytes)) = bytes.take maxUploadBytes := by
          rw [window, List.append_assoc, List.drop_left,
            List.take_append_of_le_length (Nat.min_le_left ..), Nat.min_comm, ← List.take_take,
            List.take_length]
        rw [hwindow]
        exact hok w₁ h₁
      · cases hnode.symm.trans hdir

/-- What is at the destination is a file. -/
theorem meets_remove_file {α : Type} {abs : Path} {x : Loc} {bs : List UInt8}
    {Q : World → α → Prop}
    (hx : loc abs = x) (h : Has w s) (hne : x ≠ []) (hfile : s.volume.file x = some bs)
    {k : Except OSErr Unit → FsProg α}
    (hok : ∀ w', Has w' { s with volume := s.volume.cut x hne } →
      Meets (working tempDir) Q w' (k (.ok ()))) :
    Meets (working tempDir) Q w (.perform (.remove abs) >>= k) := by
  refine meets_remove hx h hne (fun w₁ _ _ h₁ => hok w₁ h₁) (fun w₁ e hnone _ _ => ?_)
    fun w₁ e hfull _ _ => ?_
  · cases (FileVolume.file_eq_some_iff.mp hfile).symm.trans hnone
  · exact absurd hfull (FileVolume.not_occupied_of_file hfile)

/-- An upload is stored when its size is the declared one, and removed when it
is not. -/
theorem meets_storePart {params : UploadParams} {abs : Path} {part : FileSource}
    {bytes : List UInt8} (hon : On sc params.path abs) (h : Has w s)
    (htemp : ∀ tmp, IsTemp tempDir tmp → loc tmp ≠ sc.locOf params.path)
    (hpart : part.Keeps tempDir s.volume bytes) :
    Meets (working tempDir) (Fulfils sc s (.upload params (bytes.take maxUploadBytes))) w
      (storePart sc params abs part) := by
  refine meets_destinationExists hon.loc h (fun hfree => ?_) fun htaken => ?_
  · have hrefused {w' : World} {resp : Response} (h' : Has w' s) (hstatus : resp.status = 500)
        (hnot : ¬ s.volume.Free (sc.locOf params.path)) :
        Fulfils sc s (.upload params (bytes.take maxUploadBytes)) w' resp := by
      refine .of_eq h' ?_ ((if_neg hfree).mpr ((if_pos hnot).mpr hstatus))
      rw [Command.next, if_neg hfree, dif_neg hnot]
    refine meets_mkdirAll hon.dir h (fun w₁ hc h₁ => ?_) fun w₁ e hc hkind h₁ => ?_
    · have hparent := FileVolume.isDir_mkdirs hc (List.prefix_refl _)
      refine meets_create hon.loc h₁ hparent (fun w₂ hf h₂ => ?_) fun w₂ e hdir hkind h₂ => ?_
      · have hf' := (FileVolume.free_mkdirs hc hon.ne_nil).mp hf
        rw [FileVolume.put_mkdirs hc hf hf'] at h₂
        refine meets_readPart h₂ (hpart.put htemp hf') fun w₃ h₃ => ?_
        generalize bytes.take maxUploadBytes = sent
        refine meets_write hon.loc h₃ (FileVolume.file_put_self hf') sent fun w₄ h₄ => ?_
        rw [FileVolume.put_put, List.nil_append] at h₄
        refine meets_close h₄ ?_
        dsimp only
        rw [Option.isSome_none, Bool.or_self, if_neg (by simp)]
        by_cases hsize : (sent.length : Int) = params.declaredSizeBytes
        · rw [if_neg (not_not_intro hsize)]
          refine (meets_fileMeta h₄ hon (FileVolume.file_put_self hf')).mono ?_
          rintro _ resp ⟨rfl, hresp⟩
          refine .of_eq h₄ ?_ ((if_neg hfree).mpr ?_)
          · rw [Command.next, if_neg hfree, dif_pos hf', if_pos hsize]
          · rw [if_neg (not_not_intro hf'), if_neg (not_not_intro hsize)]
            exact hresp
        · rw [if_pos hsize]
          refine meets_remove_file hon.loc h₄ hon.ne_nil (FileVolume.file_put_self hf')
            fun w₅ h₅ => ?_
          refine .of_eq h₅ ?_ ((if_neg hfree).mpr ?_)
          · rw [Command.next, if_neg hfree, dif_pos hf', if_neg hsize]
          · rw [if_neg (not_not_intro hf'), if_pos hsize]
            rfl
      · have hsome : s.volume.node (sc.locOf params.path) = some none :=
          (FileVolume.node_mkdirs_dropLast hc hon.ne_nil).symm.trans hdir
        rw [FileVolume.mkdirs_dropLast_of_some hc (by simp [hsome]) hon.ne_nil] at h₂
        refine hrefused h₂ ?_ fun hf => hf.notDir hsome
        rw [status_metaError, hkind]
        rfl
    · exact hrefused h₁ rfl fun hf => hc hf.clear
  · exact .of_eq h (if_pos htaken) ((if_pos htaken).mpr rfl)

end Handlers

end OcuFilestore.Peer
