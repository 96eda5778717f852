import OcuFilestore.Brokerrpc.Cursor
import OcuFilestore.Brokerrpc.Download
import OcuFilestore.Brokerrpc.Route
import OcuFilestore.Brokerrpc.Upload
import OcuFilestore.Filestore.Provenance
import OcuFilestore.Filestore.Wire
import Mathlib.Logic.Relation

/-!
# OcuFilestore.Filestore.Network

The client of a mount and the filestore peer on one network.  `received` is a
request of the client as it reaches the peer, `Conveys` a reply of the peer as
it reaches the client, and `broker` the environment of the client that is made
of the two with the peer in between, on a disk that works.

A client that is `Bound` to a scope asks for one command with every request
(`commandOf`).  The request is refused for one of the reasons of `Refusal`,
without effect, or the store carries out the command (`Bound.turn`).  What the
methods of the client then return is said one by one.
-/

namespace OcuFilestore.Peer

open Prog (Meets)
open Brokerrpc (Wire WireProg Client HttpResp Exchange UploadExchange callResult uploadResult)
open Mountcfg (JsonErr)

/-! ## requests -/

/-- The operations of the client that the peer has. -/
def servedOp : Brokerrpc.Op → Option Op
  | .createFile => some .createFile
  | .readFile => some .readFile
  | .readMetadata => some .readMetadata
  | .listDirectory => some .listDirectory
  | .copyFile => some .copyFile
  | .moveFile => some .moveFile
  | .removeFile => some .removeFile
  | .makeDirectory => some .makeDirectory
  | .moveDirectory => some .moveDirectory
  | .removeDirectory => some .removeDirectory
  | .fileUpload => some .fileUpload
  | .fileDownload => some .fileDownload
  | .getFileMetadata | .listFiles | .importFiles | .importZip | .migrateFilesystem
  | .removeFilesystem => none

def opOf : Brokerrpc.Request → Op
  | .listDirectory _ => .listDirectory
  | .readMetadata _ => .readMetadata
  | .ack (.makeDirectory _) => .makeDirectory
  | .ack (.moveDirectory _) => .moveDirectory
  | .ack (.removeDirectory _) => .removeDirectory
  | .ack (.copyFile _) => .copyFile
  | .ack (.moveFile _) => .moveFile
  | .ack (.removeFile _) => .removeFile
  | .fileUpload _ => .fileUpload
  | .fileDownload _ => .fileDownload

/-- What an upload reads from: the bytes that it gives, and the error behind
them.  The body writer sends the closing boundary in any case, and then breaks
the body off if the source has failed.  So behind a fault the boundary still
reaches the peer or does not, and behind the end of the stream it does. -/
structure Source where
  bytes : List UInt8
  last : Err
  closes : Bool
  closes_of_eof : last = .sentinel .eof → closes = true

/-- The source comes to its end. -/
def Source.Ends (source : Source) : Prop := source.last = .sentinel .eof

/-- A source of these bytes that comes to its end. -/
def Source.of (bytes : List UInt8) : Source := ⟨bytes, .sentinel .eof, true, fun _ => rfl⟩

/-- The form of an upload. -/
def uploadForm (r : Brokerrpc.FileUploadRequest) (source : Source) : MultipartBody :=
  ⟨[⟨"params".toList, [], (Brokerrpc.Request.fileUpload r).payload⟩,
    ⟨"file".toList, "upload".toList, source.bytes⟩], source.closes⟩

/-- A request as it reaches the peer.  The credential is the client's own, or
the one that was put in its place on the way; an upload takes its bytes from
`source`. -/
def received (authorization : List Char) (source : Source) (w : Wire) : Request where
  method := "POST"
  path := (Uri.split (w.client.opURL w.req.op)).path
  authorization := authorization
  body :=
    match w.req with
    | .fileUpload _ => ⟨[], false⟩
    | q => ⟨q.payload, false⟩
  query := []
  queryParses := true
  multipart :=
    match w.req with
    | .fileUpload r => some (uploadForm r source)
    | _ => none

/-- What a request asks of the store. -/
def commandOf (source : Source) : Brokerrpc.Request → Command
  | .listDirectory r => .listDirectory r.path
  | .readMetadata r => .readMetadata r.path
  | .ack (.makeDirectory r) => .makeDirectory r.path
  | .ack (.moveDirectory r) => .move ⟨r.source, r.destination, false⟩
  | .ack (.removeDirectory r) => .removeDirectory r.path
  | .ack (.copyFile r) => .copyFile ⟨r.source, r.destination, r.overwriteExisting⟩
  | .ack (.moveFile r) => .move ⟨r.source, r.destination, r.overwriteExisting⟩
  | .ack (.removeFile r) => .removeFile r.path
  | .fileUpload r => .upload ⟨r.filesystemID.toList, r.path, r.declaredSizeBytes,
      r.overwriteExisting, readMetadata r.authorizationMetadata⟩ (source.bytes.take maxUploadBytes)
  | .fileDownload r => .download r.uuid.toList r.range

/-- The client is bound to a scope of the server: its requests name the scope,
its credential is for no other one, and it posts to the routes of the peer. -/
structure Bound (srv : Server) (sc : Scope) (authorization : List Char) (c : Client) : Prop where
  scope : srv.scopeOf sc.filesystemID = some sc
  filesystemID : c.fsID.toList = sc.filesystemID
  named : sc.filesystemID ≠ []
  credential : ∀ now fsID, srv.credentials.subject now authorization = .ok fsID →
    fsID = sc.filesystemID
  route : ∀ op, (Uri.split (c.opURL op)).path = restBase ++ op.name.toList

/-- Why a request is refused before its command is looked at, and with which
status. -/
inductive Refusal (srv : Server) (sc : Scope) (authorization : List Char)
    (q : Brokerrpc.Request) : Int → Prop
  | tooLong (hop : opOf q ≠ .fileUpload) (h : maxRequestBytes < q.payload.length) :
      Refusal srv sc authorization q 400
  | lapsed {now : Time} {e : CredentialErr}
      (h : srv.credentials.subject now authorization = .error e) :
      Refusal srv sc authorization q 401
  | readOnly (hop : writeIntentOps (opOf q) = true) (h : sc.readOnly = true) :
      Refusal srv sc authorization q 403
  | metered (h : srv.perOpScope = some sc.filesystemID) : Refusal srv sc authorization q 418
  | throttled (hop : opOf q = .fileUpload) (h : 0 < srv.throttleEvery) :
      Refusal srv sc authorization q 429

/-- The form of an upload is not there as a whole, and this is the status it
is refused with. -/
def CutOff (source : Source) (q : Brokerrpc.Request) (status : Int) : Prop :=
  opOf q = .fileUpload ∧ source.closes = false ∧ status = 400

/-- The peer reads the request to its end. -/
def ReadWhole (q : Brokerrpc.Request) : Prop :=
  opOf q ≠ .fileUpload → q.payload.length ≤ maxRequestBytes

/-- What becomes of a request: it is refused without effect, or carried out. -/
def Turn (srv : Server) (sc : Scope) (authorization : List Char) (source : Source)
    (q : Brokerrpc.Request) (V : Vol) (resp : Response) (V' : Vol) : Prop :=
  Refusal srv sc authorization q resp.status ∧ V' = V ∨
    CutOff source q resp.status ∧ V' = V ∨
    ReadWhole q ∧ (commandOf source q).Answered sc V resp ∧ V' = (commandOf source q).next sc V

section Requests

variable {srv : Server} {sc : Scope} {authorization : List Char} {source : Source}
  {c : Client} {q : Brokerrpc.Request}

/-- A request that reads changes nothing. -/
theorem Turn.volume {V V' : Vol} {resp : Response}
    (h : Turn srv sc authorization source q V resp V') (hop : writeIntentOps (opOf q) = false) :
    V' = V := by
  obtain ⟨-, rfl⟩ | ⟨-, rfl⟩ | ⟨-, -, rfl⟩ := h
  · rfl
  · rfl
  · cases q with
    | ack r => cases r <;> cases hop
    | fileUpload r => cases hop
    | listDirectory r | readMetadata r | fileDownload r => rfl

/-- The peer serves every operation under the client's name for it. -/
theorem lookup_name (op : Brokerrpc.Op) : ops.lookup op.name.toList = servedOp op := by
  cases op <;> decide +kernel

/-- The route of the client's request is that of its operation. -/
theorem opName_received (hb : Bound srv sc authorization c) :
    (received authorization source ⟨c, q⟩).opName = some (opOf q) := by
  have htrim : Ocufs.trimPrefix (restBase ++ q.op.name.toList) restBase = q.op.name.toList :=
    Ocufs.trimPrefix_append _ _
  unfold Request.opName received
  dsimp only
  rw [hb.route, htrim, lookup_name]
  cases q with
  | ack r => cases r <;> rfl
  | _ => rfl

/-- A request that names its own scope is refused only for the sake of a
read-only one. -/
theorem authorize_bound (hb : Bound srv sc authorization c) (op : Op) :
    srv.authorize (some op) sc.filesystemID sc.filesystemID =
      if sc.readOnly && writeIntentOps op then .error (403, "scope is read-only; write refused")
      else .ok sc := by
  unfold Server.authorize
  rw [if_neg hb.named, if_neg (fun h => h rfl), hb.scope]
  rfl

/-- The handler reads the command from the body. -/
theorem command_payload (hop : opOf q ≠ .fileUpload) (hread : ReadBack q) {body : CommonBody}
    (hraw : body.raw = q.payload) :
    command (some (opOf q)) body = .ok (commandOf source q) := by
  cases q with
  | listDirectory r | readMetadata r =>
      have hpath : pathFromBody body.raw = some r.path := hraw ▸ hread
      simp only [opOf, command, CommonBody.ofPath, hpath, commandOf]
  | ack r =>
      cases r with
      | makeDirectory r | removeDirectory r | removeFile r =>
          have hpath : pathFromBody body.raw = some r.path := hraw ▸ hread
          simp only [opOf, command, CommonBody.ofPath, hpath, commandOf]
      | moveDirectory r =>
          have hpaths : srcDstFromBody body.raw = some ⟨r.source, r.destination, false⟩ :=
            hraw ▸ hread
          simp only [opOf, command, CommonBody.ofSrcDst, hpaths, commandOf]
      | copyFile r | moveFile r =>
          have hpaths : srcDstFromBody body.raw =
              some ⟨r.source, r.destination, r.overwriteExisting⟩ := hraw ▸ hread
          simp only [opOf, command, CommonBody.ofSrcDst, hpaths, commandOf]
  | fileUpload r => exact absurd rfl hop
  | fileDownload r =>
      have hbody : downloadBody body.raw = some ⟨r.filesystemID.toList, r.uuid.toList, r.range,
          readMetadata r.authorizationMetadata⟩ := hraw ▸ hread
      simp only [opOf, command, CommonBody.ofDownload, hbody, commandOf]

/-- What a JSON request asks for. -/
theorem askedBody_received (hb : Bound srv sc authorization c) (hfs : q.filesystemID = c.fsID)
    (hop : opOf q ≠ .fileUpload) (hrange : InRange q) :
    srv.askedBody (received authorization source ⟨c, q⟩) sc.filesystemID =
      if maxRequestBytes < q.payload.length then .error 400
      else if sc.readOnly && writeIntentOps (opOf q) then .error 403
      else .ok (sc, .ok (commandOf source q)) := by
  have hbody : (received authorization source ⟨c, q⟩).body = ⟨q.payload, false⟩ := by
    cases q with
    | fileUpload r => exact absurd rfl hop
    | _ => rfl
  unfold Server.askedBody
  rw [hbody, opName_received hb]
  by_cases hlen : maxRequestBytes < q.payload.length
  · rw [if_pos hlen, decodeCommon_too_long q hlen]
  · rw [if_neg hlen, decodeCommon_payload q (Nat.le_of_not_lt hlen)]
    dsimp only
    rw [hfs, hb.filesystemID, authorize_bound hb]
    by_cases hro : (sc.readOnly && writeIntentOps (opOf q)) = true
    · rw [if_pos hro, if_pos hro]
    · rw [if_neg hro, if_neg hro]
      exact congrArg (fun cmd => Except.ok (sc, cmd))
        (command_payload hop (readBack_of_inRange hrange) rfl)

/-- What an upload asks for. -/
theorem askedForm_received (hb : Bound srv sc authorization c)
    {r : Brokerrpc.FileUploadRequest} (hfs : r.filesystemID = c.fsID)
    (hrange : InRange (.fileUpload r)) :
    srv.askedForm (received authorization source ⟨c, .fileUpload r⟩) sc.filesystemID =
      if source.closes = false then .error 400
      else if sc.readOnly && writeIntentOps .fileUpload then .error 403
      else .ok (sc, .ok (commandOf source (.fileUpload r))) := by
  have hparams : uploadParams (Brokerrpc.Request.fileUpload r).payload = some
      ⟨r.filesystemID.toList, r.path, r.declaredSizeBytes, r.overwriteExisting,
        readMetadata r.authorizationMetadata⟩ := readBack_of_inRange hrange
  have hne : (Brokerrpc.Request.fileUpload r).payload ≠ [] := by
    intro hnil
    rw [hnil] at hparams
    cases hparams
  have hquery : (received authorization source ⟨c, .fileUpload r⟩).queryParses ≠ false :=
    fun h => by cases h
  have hvalue : formValue (received authorization source ⟨c, .fileUpload r⟩).query
      (partValues (uploadForm r source).parts) "params".toList =
        (Brokerrpc.Request.fileUpload r).payload := rfl
  have hfile : (partFiles (uploadForm r source).parts).lookup "file".toList =
      some source.bytes := rfl
  unfold Server.askedForm
  show (if source.closes then srv.askedUpload _ _ (uploadForm r source).parts else _) = _
  cases source.closes with
  | false => rfl
  | true =>
      rw [if_pos rfl, if_neg Bool.noConfusion]
      unfold Server.askedUpload
      dsimp only
      rw [if_neg hquery, hvalue, if_neg hne, hparams]
      dsimp only
      rw [hfs, hb.filesystemID, authorize_bound hb]
      by_cases hro : (sc.readOnly && writeIntentOps .fileUpload) = true
      · rw [if_pos hro, if_pos hro]
      · rw [if_neg hro, if_neg hro, uploadCommand, hfile]
        simp only [commandOf, hfs, hb.filesystemID]

/-- What a request of the client asks for. -/
theorem asked_received (hb : Bound srv sc authorization c) (hfs : q.filesystemID = c.fsID)
    (hrange : InRange q) {now : Time}
    (hnow : srv.credentials.subject now authorization = .ok sc.filesystemID) :
    srv.asked now (received authorization source ⟨c, q⟩) =
      if opOf q ≠ .fileUpload ∧ maxRequestBytes < q.payload.length then .error 400
      else if opOf q = .fileUpload ∧ source.closes = false then .error 400
      else if sc.readOnly && writeIntentOps (opOf q) then .error 403
      else .ok (sc, .ok (commandOf source q)) := by
  have hsubject : srv.credentials.subject now
      (received authorization source ⟨c, q⟩).authorization = .ok sc.filesystemID := hnow
  unfold Server.asked
  rw [if_neg (fun h => h rfl), hsubject, opName_received hb]
  dsimp only
  by_cases hop : opOf q = .fileUpload
  · obtain ⟨r, rfl⟩ : ∃ r, q = .fileUpload r := by
      cases q with
      | fileUpload r => exact ⟨r, rfl⟩
      | ack r => cases r <;> cases hop
      | _ => cases hop
    have hshort : ¬ (opOf (.fileUpload r) ≠ .fileUpload ∧
        maxRequestBytes < (Brokerrpc.Request.fileUpload r).payload.length) := fun h => h.1 hop
    rw [if_pos (congrArg some hop), askedForm_received hb hfs hrange, if_neg hshort]
    simp only [hop, true_and]
  · have hwhole : ¬ (opOf q = .fileUpload ∧ source.closes = false) := fun h => hop h.1
    rw [if_neg fun h => hop (Option.some.inj h), askedBody_received hb hfs hop hrange]
    by_cases hlen : maxRequestBytes < q.payload.length
    · rw [if_pos hlen, if_pos ⟨hop, hlen⟩]
    · have hshort : ¬ (opOf q ≠ .fileUpload ∧ maxRequestBytes < q.payload.length) :=
        fun h => hlen h.2
      rw [if_neg hlen, if_neg hshort, if_neg hwhole]

/-- A request of the client is refused without effect, or carried out. -/
theorem Bound.turn (hb : Bound srv sc authorization c) (hfs : q.filesystemID = c.fsID)
    (hrange : InRange q) {s s' : Store} {resp : Response}
    (h : srv.Steps (received authorization source ⟨c, q⟩) s resp s') :
    Turn srv sc authorization source q s.volume resp s'.volume := by
  obtain ⟨now, hadmits⟩ := h
  have hrefused {status : Int} (hr : Refusal srv sc authorization q status)
      (h : resp.status = status ∧ s' = s) :
      Turn srv sc authorization source q s.volume resp s'.volume := by
    obtain ⟨rfl, rfl⟩ := h
    exact .inl ⟨hr, rfl⟩
  cases hnow : srv.credentials.subject now authorization with
  | error e =>
      have hasked : srv.asked now (received authorization source ⟨c, q⟩) = .error 401 := by
        have hsubject : srv.credentials.subject now
            (received authorization source ⟨c, q⟩).authorization = .error e := hnow
        unfold Server.asked
        rw [if_neg (fun h => h rfl), hsubject]
      rw [hasked] at hadmits
      exact hrefused (.lapsed hnow) hadmits
  | ok fsID =>
      obtain rfl := hb.credential now fsID hnow
      rw [asked_received hb hfs hrange hnow] at hadmits
      split at hadmits
      · next hlong => exact hrefused (.tooLong hlong.1 hlong.2) hadmits
      · next hshort =>
        have hwhole : ReadWhole q := fun hop => Nat.le_of_not_lt fun hlt => hshort ⟨hop, hlt⟩
        split at hadmits
        · next hcut =>
            obtain ⟨hstatus, rfl⟩ := hadmits
            exact .inr (.inl ⟨⟨hcut.1, hcut.2, hstatus⟩, rfl⟩)
        · split at hadmits
          · next hro =>
              obtain ⟨hro, hop⟩ := Bool.and_eq_true_iff.mp hro
              exact hrefused (.readOnly hop hro) hadmits
          · obtain ⟨hscope, hstatus, rfl⟩ | ⟨⟨hcounts, -⟩, hstatus, rfl⟩ | ⟨-, hanswered, rfl⟩ :=
              hadmits
            · exact hrefused (.metered hscope) ⟨hstatus, rfl⟩
            · have hop : opOf q = .fileUpload :=
                Option.some.inj ((opName_received hb).symm.trans hcounts.1)
              refine .inl ⟨?_, volume_counted _ _ _⟩
              rw [hstatus]
              exact .throttled hop hcounts.2
            · rw [volume_counted] at hanswered
              refine .inr (.inr ⟨hwhole, hanswered, ?_⟩)
              dsimp only
              rw [volume_counted]

end Requests

/-! ## replies -/

/-- A reply as it comes over the network: its body in any chunks, to the end.
What is in the body of an error, and in the headers, is left open. -/
structure Carries (resp : Response) (h : HttpResp) : Prop where
  status : h.status = resp.status
  members : ∀ ms, resp.members = some ms → h.body.items = okBody ms
  stream : ∀ n bytes, resp = .stream n bytes → h.contentLength = n ∧ h.body.items = bytes
  ends : h.body.err = .sentinel .eof

/-- What the decoder of the client reports; its errors are texts. -/
def Decodes {ρ : Type} (read : Except JsonErr ρ) (decoded : Except Err ρ) : Prop :=
  match read with
  | .ok a => decoded = .ok a
  | .error _ => ∃ text, decoded = .error (.text text)

/-- A reply as the client has it.  When the source of an upload comes to its
end, the writer has no error to report or has found the pipe closed.  When the
source fails, the writer may report anything, and the round trip may fail
although there is a reply. -/
def Conveys (source : Source) : (q : Brokerrpc.Request) → Response → q.Reply → Prop
  | .listDirectory _, resp, x => ∃ h decoded, x = .replied h decoded ∧ Carries resp h ∧
      Decodes (Brokerrpc.decodeListDirectory h.body.items) decoded
  | .readMetadata _, resp, x => ∃ h decoded, x = .replied h decoded ∧ Carries resp h ∧
      Decodes (Brokerrpc.decodeReadMetadata h.body.items) decoded
  | .ack _, resp, x => ∃ h decoded, x = .replied h decoded ∧ Carries resp h ∧
      Decodes (Brokerrpc.decodeAck h.body.items) decoded
  | .fileUpload _, resp, x =>
      (∃ h, x.trip = .replied h () ∧ Carries resp h ∧
        (source.Ends → ∀ e, x.writeErr = some e → Brokerrpc.isPipeClosure e = true)) ∨
      ¬ source.Ends ∧ ∃ e, x.trip = .failed e
  | .fileDownload _, resp, x => ∃ h, x = .replied h () ∧ Carries resp h

section Replies

variable {resp : Response} {h : HttpResp}

/-- Every reply can be brought over the network. -/
theorem exists_carries (resp : Response) : ∃ h, Carries resp h := by
  cases hms : resp.members with
  | some ms =>
      refine ⟨⟨resp.status, -1, .last (okBody ms) (.sentinel .eof), ⟨"", none⟩⟩, rfl,
        fun ms' h => ?_, fun n bytes h => ?_, rfl⟩
      · rw [← Option.some.inj (hms.symm.trans h)]
        rfl
      · subst h
        cases hms
  | none =>
      cases resp with
      | stream n bytes =>
          refine ⟨⟨200, n, .last bytes (.sentinel .eof), ⟨"", none⟩⟩, rfl, fun ms' h => ?_,
            fun n bytes h => ?_, rfl⟩
          · cases h
          · cases h
            exact ⟨rfl, rfl⟩
      | _ =>
          refine ⟨⟨_, -1, .last [] (.sentinel .eof), ⟨"", none⟩⟩, rfl, fun ms' h => ?_,
            fun n bytes h => ?_, rfl⟩
          · rw [hms] at h
            cases h
          · cases h

theorem exists_decodes {ρ : Type} (read : Except JsonErr ρ) : ∃ decoded, Decodes read decoded := by
  cases read with
  | ok a => exact ⟨.ok a, rfl⟩
  | error e => exact ⟨.error (.text []), [], rfl⟩

/-- For every reply there is something that the client gets. -/
theorem exists_conveys (source : Source) (q : Brokerrpc.Request) (resp : Response) :
    ∃ x, Conveys source q resp x := by
  obtain ⟨h, hcarries⟩ := exists_carries resp
  cases q with
  | listDirectory r =>
      obtain ⟨decoded, hd⟩ := exists_decodes (Brokerrpc.decodeListDirectory h.body.items)
      exact ⟨.replied h decoded, h, decoded, rfl, hcarries, hd⟩
  | readMetadata r =>
      obtain ⟨decoded, hd⟩ := exists_decodes (Brokerrpc.decodeReadMetadata h.body.items)
      exact ⟨.replied h decoded, h, decoded, rfl, hcarries, hd⟩
  | ack r =>
      obtain ⟨decoded, hd⟩ := exists_decodes (Brokerrpc.decodeAck h.body.items)
      exact ⟨.replied h decoded, h, decoded, rfl, hcarries, hd⟩
  | fileUpload r =>
      exact ⟨⟨.replied h (), none⟩, .inl ⟨h, rfl, hcarries, fun _ e he => by cases he⟩⟩
  | fileDownload r => exact ⟨.replied h (), h, rfl, hcarries⟩

end Replies

/-! ## the broker -/

/-- No file is too large for its size. -/
def Store.Small (s : Store) : Prop := ∀ x bs, s.volume.file x = some bs → bs.length ≤ maxInt64

/-- A disk that holds a store in good order. -/
structure Site (ts : Loc) (w : World) (s : Store) : Prop where
  has : Has w s
  regular : s.Regular ts
  small : s.Small

/-- A client and the peer that it is bound to.  The requests of others come in
between its own. -/
structure Deployment where
  srv : Server
  ts : Loc
  sc : Scope
  /-- The credential with which the requests of the client reach the peer. -/
  authorization : List Char
  client : Client
  others : Request → Prop
  sound : srv.Sound ts
  bound : Bound srv sc authorization client

namespace Deployment

variable (d : Deployment)

/-- Others are served. -/
def Busy (w w' : World) : Prop := ∃ tr, Serving d.srv w tr w' ∧ ∀ e ∈ tr, d.others e.1

/-- What the store makes of the requests of others. -/
def Drifts (s s' : Store) : Prop := ∃ tr, d.srv.StepsAll s tr s' ∧ ∀ e ∈ tr, d.others e.1

/-- The peer, as the client finds it; uploads take their bytes from `source`. -/
def broker (source : Source) : Env Wire.Reply World :=
  Prog.amid d.Busy (Prog.through (working d.srv.tempDir)
    (fun w => d.srv.route (received d.authorization source w)) fun w => Conveys source w.req)

/-- What becomes of a request of the client. -/
abbrev Turn (source : Source) (q : Brokerrpc.Request) (V : Vol) (resp : Response) (V' : Vol) :
    Prop :=
  Peer.Turn d.srv d.sc d.authorization source q V resp V'

/-- Nothing happens to the volume but what others do. -/
def Quiet : Store → Store → Prop :=
  Relation.ReflTransGen fun s s' => d.Drifts s s' ∨ s'.volume = s.volume

/-- The request has its turn, at one moment. -/
def Once (source : Source) (q : Brokerrpc.Request) (resp : Response) (s s' : Store) : Prop :=
  ∃ s₁ s₂, d.Quiet s s₁ ∧ d.Turn source q s₁.volume resp s₂.volume ∧ d.Quiet s₂ s'

end Deployment

section Broker

variable {srv : Server} {ts : Loc} {s s' : Store}

/-- A request leaves files as they were, or empty, or as they were uploaded. -/
theorem Store.Small.step {q : Request} {resp : Response} (hs : s.Small)
    (h : srv.Steps q s resp s') : s'.Small := by
  intro x bs hfile
  obtain ⟨now, hadmits⟩ := h
  cases hasked : srv.asked now q with
  | error status =>
      rw [hasked] at hadmits
      exact hs x bs (hadmits.2 ▸ hfile)
  | ok r =>
      obtain ⟨sc, cmd⟩ := r
      rw [hasked] at hadmits
      obtain ⟨-, -, rfl⟩ | ⟨-, -, rfl⟩ | ⟨-, hexec⟩ := hadmits
      · exact hs x bs hfile
      · rw [volume_counted] at hfile
        exact hs x bs hfile
      · cases cmd with
        | error status =>
            rw [hexec.2, volume_counted] at hfile
            exact hs x bs hfile
        | ok cmd =>
            rw [hexec.2] at hfile
            dsimp only at hfile
            rw [volume_counted] at hfile
            obtain hold | ⟨-, rfl | ⟨y, -, hold⟩ | ⟨params, rfl⟩⟩ := Command.file_next hfile
            · exact hs x bs hold
            · decide
            · exact hs y bs hold
            · have hlen := length_of_asked_upload hasked
              have hmax : (maxUploadBytes : Int) ≤ maxInt64 := by decide
              omega

/-- A request leaves the disk fit for the next one. -/
theorem Site.step {w w' : World} {q : Request} {resp : Response} (hsrv : srv.Sound ts)
    (hsite : Site ts w s) (h : srv.Steps q s resp s') (h' : Has w' s') : Site ts w' s' :=
  ⟨h', hsite.regular.step hsrv h, hsite.small.step h⟩

variable {d : Deployment} {w w' : World}

theorem Deployment.busy_refl (d : Deployment) (w : World) : d.Busy w w :=
  ⟨[], .nil w, fun e he => by cases he⟩

theorem Deployment.drifts_refl (d : Deployment) (s : Store) : d.Drifts s s :=
  ⟨[], .nil s, fun e he => by cases he⟩

/-- What others do is quiet. -/
theorem Deployment.Drifts.quiet (h : d.Drifts s s') : d.Quiet s s' := .single (.inl h)

/-- What leaves the volume as it is is quiet. -/
theorem Deployment.quiet_of_volume (h : s'.volume = s.volume) : d.Quiet s s' := .single (.inr h)

/-- The peer answers a request, and does what the store does. -/
theorem Deployment.yields_route (hsite : Site d.ts w s) (q : Request) :
    Prog.Yields (working d.srv.tempDir)
      (fun w' resp => ∃ s', d.srv.Steps q s resp s' ∧ Site d.ts w' s') w (d.srv.route q) := by
  have hmeets := meets_route (q := q) d.sound hsite.has hsite.regular.plain hsite.regular.temp
  refine ⟨hmeets.yields.1, fun w' resp hev => ?_⟩
  obtain ⟨s', hstep, h'⟩ := hmeets.yields.2 w' resp hev
  exact ⟨s', hstep, hsite.step d.sound hstep h'⟩

/-- Others leave the disk in good order. -/
theorem Deployment.Busy.site (h : d.Busy w w') (hsite : Site d.ts w s) :
    ∃ s', d.Drifts s s' ∧ Site d.ts w' s' := by
  obtain ⟨tr, hrun, hothers⟩ := h
  induction hrun generalizing s with
  | nil w => exact ⟨s, d.drifts_refl s, hsite⟩
  | @cons w w₁ w' q resp tr hev _ ih =>
      obtain ⟨hq, hrest⟩ := List.forall_mem_cons.mp hothers
      obtain ⟨s₁, hstep, hsite₁⟩ := (Deployment.yields_route hsite q).2 w₁ resp hev
      obtain ⟨s', ⟨tr', hsteps, htr'⟩, hsite'⟩ := ih hsite₁ hrest
      exact ⟨s', ⟨_, .cons hstep hsteps, List.forall_mem_cons.mpr ⟨hq, htr'⟩⟩, hsite'⟩

/-- One request of the client. -/
theorem meets_request {α : Type} {source : Source} (hsite : Site d.ts w s)
    {q : Brokerrpc.Request} (hfs : q.filesystemID = d.client.fsID) (hrange : InRange q)
    {k : q.Reply → WireProg α} {Q : World → α → Prop}
    (hk : ∀ s₁ w' s' resp x, d.Drifts s s₁ → s₁.Small → Site d.ts w' s' →
      d.Turn source q s₁.volume resp s'.volume → Conveys source q resp x →
      Prog.Meets (d.broker source) Q w' (k x)) :
    Prog.Meets (d.broker source) Q w (.op ⟨d.client, q⟩ k) := by
  have hroute {w : World} {s : Store} (hsite : Site d.ts w s) :=
    Deployment.yields_route hsite (received d.authorization source ⟨d.client, q⟩)
  refine Prog.meets_amid (d.busy_refl w)
    (Prog.answerable_through (hroute hsite).1 (exists_conveys source q)) ?_
  rintro w₁ x w' hbusy ⟨resp, hev, hx⟩
  obtain ⟨s₁, hdrifts, hsite₁⟩ := hbusy.site hsite
  obtain ⟨s', hstep, hsite'⟩ := (hroute hsite₁).2 w' resp hev
  exact hk s₁ w' s' resp x hdrifts hsite₁.small hsite' (d.bound.turn hfs hrange hstep) hx

end Broker

/-! ## a client of one scope -/

/-- A client of the scope to write to. -/
def rwClient : Client := ⟨"https://filestore", "fsrw", "c", 1048576, 1048576, 16⟩

/-- The client of the scope to write to is bound to it. -/
theorem rwClient_bound : Bound twoScopes rwScope "Bearer c".toList rwClient where
  scope := by decide +kernel
  filesystemID := rfl
  named := by decide +kernel
  credential _ fsID h := by
    have hsubject : Except.ok "fsrw".toList = Except.ok fsID := h
    cases hsubject
    rfl
  route op := by cases op <;> decide +kernel

def rwDeployment (others : Request → Prop) : Deployment where
  srv := twoScopes
  ts := ["tmp".toList]
  sc := rwScope
  authorization := "Bearer c".toList
  client := rwClient
  others := others
  sound := twoScopes_sound
  bound := rwClient_bound

theorem justTemp_site : Site ["tmp".toList] (World.of justTemp) ⟨justTemp, 0⟩ := by
  refine ⟨has_of justTemp, justTemp_regular, fun x bs hfile => ?_⟩
  rw [justTemp, FileVolume.file_mkdirs, FileVolume.file_empty] at hfile
  cases hfile

end OcuFilestore.Peer
