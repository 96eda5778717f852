import OcuFilestore.Filestore.Refinement
import OcuFilestore.Filestore.Uploading
import OcuFilestore.Filestore.Wire

/-!
# OcuFilestore.Filestore.Persistence

What was uploaded to the filestore peer is what is downloaded, whatever other
requests come in between, of this scope or of others, as long as none of them
is about the file itself or takes away a directory it is in.

`Command.Spares` says which commands those are.  That they leave a file alone
is a fact about volumes; what it means for the peer is read off the
refinement.
-/

namespace OcuFilestore.Peer

open SlashPath

/-! ## commands that leave a file alone -/

/-- The command neither writes to a place nor removes or moves it or what it
is in. -/
def Command.Spares (sc : Scope) (x : Loc) : Command → Prop
  | .createFile rel | .removeFile rel => sc.locOf rel ≠ x
  | .upload params _ => sc.locOf params.path ≠ x
  | .removeDirectory rel => ¬ sc.locOf rel <+: x
  | .copyFile sd => sc.locOf sd.destination ≠ x
  | .move sd => ¬ sc.locOf sd.source <+: x ∧ sc.locOf sd.destination ≠ x
  | .readFile _ | .readMetadata _ | .listDirectory _ | .makeDirectory _ | .download _ _ => True

section Files

variable {sc : Scope} {V : Vol} {x : Loc} {bs : List UInt8}

/-- A put leaves other files alone. -/
theorem file_put_of_ne {y : Loc} {bs' : List UInt8} (h : V.file x = some bs) (hf : V.Free y)
    (hne : y ≠ x) : (V.put y bs' hf).file x = some bs := by
  rw [FileVolume.file_put, if_neg hne.symm, h]

/-- What goes is not above the file. -/
theorem file_cut_of_not_prefix {y : Loc} (h : V.file x = some bs) (hy : y ≠ [])
    (hnot : ¬ y <+: x) : (V.cut y hy).file x = some bs := by
  rw [FileVolume.file_cut, if_neg hnot, h]

/-- What is not a directory is not above a file. -/
theorem not_prefix_of_file {y : Loc} (h : V.file x = some bs) (hy : ¬ V.IsDir y) (hne : y ≠ x) :
    ¬ y <+: x := by
  intro hpre
  have hnone := FileVolume.node_below hy hpre hne
  rw [FileVolume.file, hnone] at h
  cases h

/-- A transfer keeps a file if what it does at its destination does. -/
theorem file_transfer {dst : Loc} {overwrite : Bool} {op : Vol → Vol} (h : V.file x = some bs)
    (hop : ∀ V : Vol, V.file x = some bs → (op V).file x = some bs) :
    (transfer V overwrite dst op).file x = some bs := by
  unfold transfer
  split
  · exact h
  · split
    · exact hop _ (by rw [FileVolume.file_mkdirs, h])
    · exact h

/-- A command that spares a file leaves it as it is. -/
theorem Command.Spares.file {cmd : Command} (hspares : cmd.Spares sc x)
    (h : V.file x = some bs) : (cmd.next sc V).file x = some bs := by
  cases cmd with
  | createFile rel =>
      rw [Command.next]
      split
      · next hf => exact file_put_of_ne h hf hspares
      · exact h
  | makeDirectory rel =>
      rw [Command.next]
      split
      · rw [FileVolume.file_mkdirs, h]
      · exact h
  | removeFile rel =>
      rw [Command.next]
      split
      · next hgone =>
          refine file_cut_of_not_prefix h hgone.1 fun hpre => ?_
          obtain ⟨ss, rfl⟩ := hpre
          cases ss with
          | nil => exact hspares (List.append_nil _).symm
          | cons name ss =>
              refine hgone.2.2 ⟨name, fun hnone => ?_⟩
              have hbelow := not_prefix_of_file (y := sc.locOf rel ++ [name]) h
                (by simp [FileVolume.IsDir, hnone])
              by_cases hss : ss = []
              · subst hss
                rw [FileVolume.file, hnone] at h
                cases h
              · exact hbelow (by simpa using Ne.symm hss) (by simp)
      · exact h
  | removeDirectory rel =>
      rw [Command.next]
      split
      · next hgone => exact file_cut_of_not_prefix h hgone.1 hspares
      · exact h
  | copyFile sd =>
      rw [Command.next]
      refine file_transfer h fun V h => ?_
      unfold copied
      split
      · exact h
      · split
        · next hf => exact file_put_of_ne h hf hspares
        · exact h
  | move sd =>
      rw [Command.next]
      refine file_transfer h fun V h => ?_
      unfold renamed
      split
      · next hfault =>
          have hm := movable_of_moveFault hfault
          rw [FileVolume.file, FileVolume.node_moved,
            if_neg (not_prefix_of_file h hm.notDir hspares.2), if_neg hspares.1]
          exact h
      · exact h
  | upload params bytes =>
      rw [Command.next]
      split
      · exact h
      · split
        · next hf =>
            have hput : (V.put _ bytes hf).file x = some bs := file_put_of_ne h hf hspares
            split
            · exact hput
            · exact file_cut_of_not_prefix hput hf.ne_nil (not_prefix_of_file h hf.notDir hspares)
        · exact h
  | readFile rel | readMetadata rel | listDirectory rel | download uuid range => exact h

end Files

/-! ## requests -/

/-- Whenever it is admitted, the request asks for this. -/
def Server.Asks (srv : Server) (q : Request) (sc : Scope) (cmd : Command) : Prop :=
  ∀ now r, srv.asked now q = .ok r → r = (sc, .ok cmd)

/-- A request that is admitted at any time. -/
theorem asks_of_asked {srv : Server} {q : Request} {sc : Scope} {cmd : Command}
    (h : ∀ now, srv.asked now q = .ok (sc, .ok cmd)) : srv.Asks q sc cmd :=
  fun now _ hr => Except.ok.inj (hr.symm.trans (h now))

/-- The reply turns the request away before its command is looked at: at some
time it is not admitted, or one of the two ceilings is reached. -/
inductive Server.TurnsAway (srv : Server) (sc : Scope) (q : Request) (resp : Response) : Prop
  | refused {now : Time} (h : srv.asked now q = .error resp.status)
  | metered (h : srv.perOpScope = some sc.filesystemID) (hstatus : resp.status = 418)
  | throttled (h : srv.counts q) (hstatus : resp.status = 429)

/-- The request has no command in the scope that is about the place. -/
def Server.SparesIn (srv : Server) (sc : Scope) (x : Loc) (q : Request) : Prop :=
  ∀ now cmd, srv.asked now q = .ok (sc, .ok cmd) → cmd.Spares sc x

section Requests

variable {srv : Server} {ts : Loc} {sc : Scope} {s s' : Store} {q : Request} {resp : Response}
  {x : Loc} {bs : List UInt8}

/-- A request that is not authorized is answered with an error. -/
theorem authorize_error {opName : Option Op} {subjectFSID requestedFSID : List Char}
    {status : Int} {msg : String}
    (h : srv.authorize opName subjectFSID requestedFSID = .error (status, msg)) :
    400 ≤ status := by
  unfold Server.authorize at h
  split at h
  · cases h
    decide
  · split at h
    · cases h
      decide
    · split at h
      · cases h
        decide
      · split at h
        · cases h
          decide
        · cases h

/-- A request that fails its checks is answered with an error. -/
theorem asked_error {now : Time} {status : Int} (h : srv.asked now q = .error status) :
    400 ≤ status := by
  have h400 {r : Except Int (Scope × Except Int Command)} {n : Int} (hn : 400 ≤ n)
      (hr : r = .error n) (h : r = .error status) : 400 ≤ status := by
    cases hr.symm.trans h
    exact hn
  unfold Server.asked at h
  split at h
  · exact h400 (by decide) rfl h
  · split at h
    · exact h400 (by decide) rfl h
    · split at h
      · unfold Server.askedForm at h
        split at h
        · exact h400 (by decide) rfl h
        · split at h
          · unfold Server.askedUpload at h
            dsimp only at h
            split at h
            · exact h400 (by decide) rfl h
            · split at h
              · exact h400 (by decide) rfl h
              · split at h
                · exact h400 (by decide) rfl h
                · split at h
                  · next herr => exact h400 (authorize_error herr) rfl h
                  · cases h
          · exact h400 (by decide) rfl h
      · unfold Server.askedBody at h
        split at h
        · exact h400 (by decide) rfl h
        · split at h
          · next herr => exact h400 (authorize_error herr) rfl h
          · cases h

/-- Whoever is turned away gets an error. -/
theorem Server.TurnsAway.le (h : srv.TurnsAway sc q resp) : 400 ≤ resp.status := by
  cases h with
  | refused h => exact asked_error h
  | metered _ hstatus | throttled _ hstatus =>
      rw [hstatus]
      decide

/-- A request is turned away, or its command is carried out. -/
theorem Server.Steps.turned_or_executes {cmd : Command} (h : srv.Steps q s resp s')
    (hasks : srv.Asks q sc cmd) :
    srv.TurnsAway sc q resp ∨
      cmd.Answered sc s.volume resp ∧ s'.volume = cmd.next sc s.volume := by
  obtain ⟨now, hadmits⟩ := h
  cases hasked : srv.asked now q with
  | error status =>
      rw [hasked] at hadmits
      exact .inl (.refused (hadmits.1 ▸ hasked))
  | ok r =>
      obtain rfl := hasks now r hasked
      rw [hasked] at hadmits
      obtain ⟨hscope, h418, -⟩ | ⟨hturn, h429, -⟩ | ⟨-, hanswered, rfl⟩ := hadmits
      · exact .inl (.metered hscope h418)
      · exact .inl (.throttled hturn.1 h429)
      · rw [volume_counted] at hanswered ⊢
        exact .inr ⟨hanswered, rfl⟩

/-- A reply that is no error comes of the command. -/
theorem Server.Steps.executes {cmd : Command} (h : srv.Steps q s resp s')
    (hasks : srv.Asks q sc cmd) (hok : resp.Ok) :
    cmd.Answered sc s.volume resp ∧ s'.volume = cmd.next sc s.volume := by
  refine (h.turned_or_executes hasks).resolve_left fun haway => ?_
  have hle := haway.le
  have hlt := hok.2
  omega

/-- An upload that is accepted has stored its bytes, as many as it declared. -/
theorem uploaded_of_answered {V : Vol} {params : UploadParams} {bytes : List UInt8}
    (h : (Command.upload params bytes).Answered sc V resp) (hok : resp.Ok) :
    ((Command.upload params bytes).next sc V).file (sc.locOf params.path) = some bytes ∧
      (bytes.length : Int) = params.declaredSizeBytes ∧
        ∃ f, resp = .file f ∧ ReportsFile sc params.path bytes.length f := by
  have hstatus {n : Int} (hn : 400 ≤ n) (h : resp.status = n) : False := by
    have hlt := hok.2
    rw [h] at hlt
    omega
  rw [Command.Answered] at h
  split at h
  · exact (hstatus (by decide) h).elim
  · next hfree =>
      split at h
      · exact (hstatus (by decide) h).elim
      · next hf =>
          split at h
          · exact (hstatus (by decide) h).elim
          · next hsize =>
              refine ⟨?_, not_not.mp hsize, h⟩
              rw [Command.next, if_neg hfree, dif_pos (not_not.mp hf), if_pos (not_not.mp hsize),
                FileVolume.file_put_self]

/-- An upload that is accepted is stored, and answered with the uuid of its
path. -/
theorem Server.Steps.uploaded {params : UploadParams} {bytes : List UInt8}
    (h : srv.Steps q s resp s') (hasks : srv.Asks q sc (.upload params bytes)) (hok : resp.Ok) :
    s'.volume.file (sc.locOf params.path) = some bytes ∧
      ∃ f, resp = .file f ∧ ReportsFile sc params.path bytes.length f := by
  obtain ⟨hanswered, hnext⟩ := h.executes hasks hok
  obtain ⟨hfile, -, hreply⟩ := uploaded_of_answered hanswered hok
  exact ⟨hnext ▸ hfile, hreply⟩

/-- Requests of other scopes do not matter, and those that spare a file. -/
theorem Server.Steps.file (hsrv : srv.Sound ts) (hroots : srv.Rooted) (hsc : sc ∈ srv.scopes)
    (hx : sc.loc <+: x) (h : srv.Steps q s resp s') (hspares : srv.SparesIn sc x q)
    (hfile : s.volume.file x = some bs) : s'.volume.file x = some bs := by
  obtain ⟨now, hadmits⟩ := h
  cases hasked : srv.asked now q with
  | error status =>
      rw [hasked] at hadmits
      rwa [hadmits.2]
  | ok r =>
      obtain ⟨sc', cmd⟩ := r
      rw [hasked] at hadmits
      obtain ⟨-, -, rfl⟩ | ⟨-, -, rfl⟩ | ⟨-, hexec⟩ := hadmits
      · exact hfile
      · rwa [volume_counted]
      · cases cmd with
        | error status => rwa [hexec.2, volume_counted]
        | ok cmd =>
            rw [hexec.2]
            dsimp only
            rw [volume_counted]
            by_cases heq : sc = sc'
            · subst heq
              exact (hspares now cmd hasked).file hfile
            · have hmem := (asked_ok hasked).1
              have hedit := cmd.edit (hsrv.clean sc' hmem) s.volume
              have hapart := hroots.apart sc hsc sc' hmem heq
              have hnot : ¬ sc'.loc <+: x := fun hpre =>
                (List.prefix_or_prefix_of_prefix hpre hx).elim hapart.2 hapart.1
              have hnode := FileVolume.file_eq_some_iff.mp hfile
              rw [FileVolume.file, hedit.elsewhere hnot (by simp [hnode])]
              exact hfile

/-- A file that is spared stays. -/
theorem Server.StepsAll.file (hsrv : srv.Sound ts) (hroots : srv.Rooted) (hsc : sc ∈ srv.scopes)
    (hx : sc.loc <+: x) {tr : List (Request × Response)} (h : srv.StepsAll s tr s')
    (hspares : ∀ e ∈ tr, srv.SparesIn sc x e.1) (hfile : s.volume.file x = some bs) :
    s'.volume.file x = some bs := by
  induction h with
  | nil s => exact hfile
  | cons hstep _ ih =>
      refine ih (fun e he => hspares e (List.mem_cons_of_mem _ he)) ?_
      exact hstep.file hsrv hroots hsc hx (hspares _ (List.mem_cons_self ..)) hfile

/-- The uuid of a file leads to it. -/
theorem downloaded_of_answered {V : Vol} {rel : Path} {range : Option Brokerrpc.Range}
    (huuid : ∀ ss, V.file (sc.loc ++ ss) ≠ none →
      uuidForRelPath sc.filesystemID (relText ss) = uuidForRelPath sc.filesystemID rel →
      ss = place rel)
    (hfile : V.file (sc.locOf rel) = some bs)
    (h : (Command.download (uuidForRelPath sc.filesystemID rel) range).Answered sc V resp) :
    resp = downloaded bs range := by
  rw [Command.Answered, if_neg (uuidForRelPath_ne_nil _ _)] at h
  obtain ⟨ss, bs', hbs', heq, rfl⟩ | ⟨hnone, -⟩ := h
  · obtain rfl := huuid ss (by simp [hbs']) heq
    obtain rfl := Option.some.inj (hfile.symm.trans hbs')
    rfl
  · refine absurd ?_ (hnone (place rel) (by rw [Scope.locOf] at hfile; simp [hfile]))
    exact uuidForRelPath_congr _ (place_relText (plain_place rel))

end Requests

/-! ## uploads and downloads -/

section Transfers

variable {srv : Server} {ts : Loc} {sc : Scope} {s : Store} {w w₁ w₂ : World} {q : Request}
  {resp : Response}

end Transfers

/-! ## an upload of one byte -/

/-- The server without ceilings turns nobody away whom it admits at any time. -/
theorem not_turnsAway {q : Request} {resp : Response} {r : Scope × Except Int Command}
    (hasked : ∀ now, twoScopes.asked now q = .ok r) : ¬ twoScopes.TurnsAway rwScope q resp := by
  rintro (⟨h⟩ | ⟨h, -⟩ | ⟨h, -⟩)
  · cases (hasked _).symm.trans h
  · cases h
  · exact absurd h.2 (by decide)

/-- The parameters of an upload of one byte. -/
def oneByteParams : UploadParams := ⟨"fsrw".toList, "x".toList, 1, true, ⟨[], false⟩⟩

theorem asked_rightSize (now : Time) : twoScopes.asked now (uploadOf rightSize) =
    .ok (rwScope, .ok (.upload oneByteParams [8])) := by
  have hop : (uploadOf rightSize).opName = some .fileUpload := by decide +kernel
  have hsubject : twoScopes.credentials.subject now (uploadOf rightSize).authorization =
      .ok "fsrw".toList := rfl
  have hraw : formValue (uploadOf rightSize).query (partValues rightSize.parts) "params".toList ≠
      [] := by decide +kernel
  have hparams : uploadParams (formValue (uploadOf rightSize).query (partValues rightSize.parts)
      "params".toList) = some oneByteParams := by decide +kernel
  have hauth : twoScopes.authorize (some .fileUpload) "fsrw".toList oneByteParams.filesystemID =
      .ok rwScope := rfl
  have hfile : (partFiles rightSize.parts).lookup "file".toList = some [8] := by decide +kernel
  rw [Server.asked, if_neg (by decide +kernel), hsubject]
  dsimp only
  rw [if_pos hop]
  show twoScopes.askedUpload (uploadOf rightSize) "fsrw".toList rightSize.parts = _
  unfold Server.askedUpload
  dsimp only
  rw [if_neg (by decide +kernel), if_neg hraw, hparams]
  dsimp only
  rw [hauth, uploadCommand, hfile]
  rfl

/-- What the client asks of the byte. -/
def byteDownload : Brokerrpc.FileDownloadRequest :=
  ⟨"fsrw", String.ofList (uuidForRelPath "fsrw".toList "x".toList), some ⟨0, 1⟩, ⟨.read, false⟩⟩

/-- The request for the byte. -/
def downloadByte : Request where
  method := "POST"
  path := restBase ++ "fileDownload".toList
  authorization := "Bearer c".toList
  body := ⟨(Brokerrpc.Request.fileDownload byteDownload).payload, false⟩
  query := []
  queryParses := true
  multipart := none

theorem asked_downloadByte (now : Time) : twoScopes.asked now downloadByte =
    .ok (rwScope, .ok (.download (uuidForRelPath "fsrw".toList "x".toList) (some ⟨0, 1⟩))) := by
  have hop : downloadByte.opName = some .fileDownload := by decide +kernel
  have hsubject : twoScopes.credentials.subject now downloadByte.authorization =
      .ok "fsrw".toList := rfl
  have hlen : (Brokerrpc.Request.fileDownload byteDownload).payload.length ≤ maxRequestBytes := by
    decide +kernel
  have hbody : downloadBody (Brokerrpc.Request.fileDownload byteDownload).payload =
      some ⟨"fsrw".toList, byteDownload.uuid.toList, some ⟨0, 1⟩,
        readMetadata byteDownload.authorizationMetadata⟩ :=
    downloadBody_download byteDownload fun rng hrng => by
      cases hrng
      decide
  have huuid : byteDownload.uuid.toList = uuidForRelPath "fsrw".toList "x".toList :=
    String.toList_ofList
  have hcommon : decodeCommon downloadByte.body = some ⟨"fsrw".toList,
      readMetadata byteDownload.authorizationMetadata,
      (Brokerrpc.Request.fileDownload byteDownload).payload⟩ := decodeCommon_payload _ hlen
  have hauth : twoScopes.authorize (some .fileDownload) "fsrw".toList "fsrw".toList =
      .ok rwScope := rfl
  rw [Server.asked, if_neg (by decide +kernel), hsubject]
  dsimp only
  rw [hop, if_neg (by decide), Server.askedBody, hcommon, hop]
  dsimp only
  rw [hauth]
  simp only [command, CommonBody.ofDownload, hbody, huuid]

/-- The upload of the byte is accepted, and then there is no other file in the
scope. -/
theorem exists_oneByte : ∃ w₁ s₁ f, Prog.EvalsTo (working twoScopes.tempDir) (World.of justTemp)
    (twoScopes.route (uploadOf rightSize)) w₁ (.file f) ∧ Has w₁ s₁ ∧
      s₁.Regular ["tmp".toList] ∧ ReportsFile rwScope "x".toList 1 f ∧
      s₁.volume.file (rwScope.locOf "x".toList) = some [8] ∧
      ∀ ss, s₁.volume.file (rwScope.loc ++ ss) ≠ none → ss = place "x".toList := by
  have hs := justTemp_regular
  obtain ⟨w₁, s₁, resp, hev, hstep, h₁⟩ :=
    exists_reply twoScopes_sound (has_of justTemp) hs (uploadOf rightSize)
  have hasks := asks_of_asked asked_rightSize
  obtain ⟨hanswered, hnext⟩ := (hstep.turned_or_executes hasks).resolve_left
    (not_turnsAway asked_rightSize)
  have htaken : ¬ Taken justTemp oneByteParams.overwriteExisting (rwScope.locOf "x".toList) :=
    fun h => by cases h.1
  have hnone (x : Loc) : justTemp.file x = none := by
    rw [justTemp, FileVolume.file_mkdirs, FileVolume.file_empty]
  have hfree : justTemp.Free (rwScope.locOf "x".toList) := by
    have hnode : justTemp.node (rwScope.locOf "x".toList) = none := by decide +kernel
    exact ⟨fun y _ => hnone y, fun hdir => by cases hnode.symm.trans hdir⟩
  have hvolume : s₁.volume = justTemp.put (rwScope.locOf "x".toList) [8] hfree :=
    hnext.trans ((if_neg htaken).trans ((dif_pos hfree).trans (if_pos rfl)))
  obtain ⟨f, rfl, hreports⟩ : ∃ f, resp = .file f ∧ ReportsFile rwScope "x".toList 1 f := by
    rw [Command.Answered] at hanswered
    exact ((if_neg htaken).mp hanswered |> (if_neg (not_not_intro hfree)).mp |>
      (if_neg (by decide)).mp)
  refine ⟨w₁, s₁, f, hev, h₁, hs.step twoScopes_sound hstep, hreports, ?_, fun ss hss => ?_⟩
  · rw [hvolume, FileVolume.file_put_self]
  · rw [hvolume, FileVolume.file_put, hnone] at hss
    split at hss
    · next heq => exact List.append_cancel_left heq
    · exact absurd rfl hss

end OcuFilestore.Peer
