import OcuFilestore.Brokerrpc.Marshal
import OcuFilestore.Filestore.Server

/-!
# OcuFilestore.Filestore.Wire

The client and the filestore peer over one wire.  The two sides share no
code: the client marshals its own records (`internal/brokerrpc/messages.go`),
the peer unmarshals each body several times, into records that have some of
the members (`test/harness/filestore`), and on the way back the same holds the
other way round.

`request_read_back` says that the peer reads of a request what the client
wrote, `response_read_back` that the client reads of a reply what the peer
wrote.
-/

namespace OcuFilestore.Peer

open Harness
open Mountcfg (JsonErr decodeString decodeInt)
open Brokerrpc (ListDirectoryRequest PathRequest MoveDirectoryRequest TransferFileRequest
  FileUploadRequest FileDownloadRequest)

/-! ## well-formed bodies -/

section WellFormed

@[simp] theorem wellFormed_metadata (am : Brokerrpc.AuthorizationMetadata) :
    am.json.WellFormed := by
  simp [Brokerrpc.AuthorizationMetadata.json]

/-- The body of a listing request is well formed, with or without a cursor. -/
theorem wellFormed_listing (r : ListDirectoryRequest) : (Json.obj r.members).WellFormed := by
  simp [ListDirectoryRequest.members, Json.mem_omitEmpty, or_imp, forall_and]

theorem wellFormed_path (r : PathRequest) : (Json.obj r.members).WellFormed := by
  simp [PathRequest.members]

theorem wellFormed_moveDirectory (r : MoveDirectoryRequest) :
    (Json.obj r.members).WellFormed := by
  simp [MoveDirectoryRequest.members]

theorem wellFormed_transfer (r : TransferFileRequest) : (Json.obj r.members).WellFormed := by
  simp [TransferFileRequest.members]

/-- The params of an upload are well formed, with or without the overwrite
flag. -/
theorem wellFormed_upload (r : FileUploadRequest) : (Json.obj r.members).WellFormed := by
  simp [FileUploadRequest.members, Json.mem_omitEmpty, or_imp, forall_and]

/-- The body of a download is well formed, with or without a range. -/
theorem wellFormed_download (r : FileDownloadRequest) : (Json.obj r.members).WellFormed := by
  have hrange : (r.range.elim Json.null Brokerrpc.Range.json).WellFormed := by
    cases r.range <;> simp [Brokerrpc.Range.json]
  simp [FileDownloadRequest.members, Json.mem_omitEmpty, or_imp, forall_and, hrange]

/-- Whatever the client posts is a well-formed object. -/
theorem wellFormed_members (q : Brokerrpc.Request) : (Json.obj q.members).WellFormed := by
  cases q with
  | listDirectory r => exact wellFormed_listing r
  | readMetadata r => exact wellFormed_path r
  | ack r =>
      cases r with
      | makeDirectory r | removeDirectory r | removeFile r => exact wellFormed_path r
      | moveDirectory r => exact wellFormed_moveDirectory r
      | copyFile r | moveFile r => exact wellFormed_transfer r
  | fileUpload r => exact wellFormed_upload r
  | fileDownload r => exact wellFormed_download r

end WellFormed

/-! ## what the router reads -/

/-- The metadata of a request, as the peer has them. -/
def readMetadata (am : Brokerrpc.AuthorizationMetadata) : AuthorizationMetadata :=
  ⟨am.intent.name, am.downloadable⟩

/-- The scope and the metadata of a request. -/
theorem decodeCommon_payload (q : Brokerrpc.Request)
    (hlen : q.payload.length ≤ maxRequestBytes) :
    decodeCommon ⟨q.payload, false⟩ =
      some ⟨q.filesystemID.toList, readMetadata q.authorizationMetadata, q.payload⟩ := by
  have hraw : readAllLimited ⟨q.payload, false⟩ = some q.payload := by
    simp [readAllLimited, List.take_of_length_le hlen]
  unfold decodeCommon
  rw [hraw]
  dsimp only [bind, Option.bind]
  rw [Brokerrpc.Request.payload, unmarshal_marshal (wellFormed_members q)]
  cases q with
  | listDirectory r =>
      simp only [Brokerrpc.Request.members, ListDirectoryRequest.members, List.cons_append,
        List.nil_append]
      rw [← List.append_nil (Json.omitEmpty _ _ _), fillMembers_set (by rfl) (by rfl),
        fillMembers_skip (by rfl), fillMembers_set (by rfl) (by rfl),
        fillMembers_skip_omitEmpty (by rfl)]
      rfl
  | readMetadata r =>
      rw [Brokerrpc.Request.members, PathRequest.members, fillMembers_set (by rfl) (by rfl),
        fillMembers_skip (by rfl), fillMembers_set (by rfl) (by rfl)]
      rfl
  | ack r =>
      rw [Brokerrpc.Request.members]
      cases r with
      | makeDirectory r | removeDirectory r | removeFile r =>
          rw [Brokerrpc.AckRequest.members, PathRequest.members, fillMembers_set (by rfl) (by rfl),
            fillMembers_skip (by rfl), fillMembers_set (by rfl) (by rfl)]
          rfl
      | moveDirectory r =>
          rw [Brokerrpc.AckRequest.members, MoveDirectoryRequest.members,
            fillMembers_set (by rfl) (by rfl), fillMembers_skip (by rfl),
            fillMembers_skip (by rfl), fillMembers_set (by rfl) (by rfl)]
          rfl
      | copyFile r | moveFile r =>
          rw [Brokerrpc.AckRequest.members, TransferFileRequest.members,
            fillMembers_set (by rfl) (by rfl), fillMembers_skip (by rfl),
            fillMembers_skip (by rfl), fillMembers_skip (by rfl), fillMembers_set (by rfl) (by rfl)]
          rfl
  | fileUpload r =>
      simp only [Brokerrpc.Request.members, FileUploadRequest.members, List.cons_append,
        List.nil_append]
      rw [fillMembers_set (by rfl) (by rfl), fillMembers_skip (by rfl), fillMembers_skip (by rfl),
        fillMembers_skip_omitEmpty (by rfl), fillMembers_set (by rfl) (by rfl)]
      rfl
  | fileDownload r =>
      simp only [Brokerrpc.Request.members, FileDownloadRequest.members, List.cons_append,
        List.nil_append]
      rw [fillMembers_set (by rfl) (by rfl), fillMembers_skip (by rfl),
        fillMembers_skip_omitEmpty (by rfl), fillMembers_set (by rfl) (by rfl)]
      rfl

/-- A body that exceeds the limit is cut, and what is left is no JSON. -/
theorem decodeCommon_too_long (q : Brokerrpc.Request) (hlen : maxRequestBytes < q.payload.length) :
    decodeCommon ⟨q.payload, false⟩ = none := by
  have hraw : readAllLimited ⟨q.payload, false⟩ = some (q.payload.take maxRequestBytes) := by
    simp [readAllLimited]
  unfold decodeCommon
  rw [hraw]
  dsimp only [bind, Option.bind]
  rw [Brokerrpc.Request.payload, unmarshal_take_marshal (wellFormed_members q) hlen]
  rfl

/-! ## what the handlers read -/

/-- The handler of a listing reads the path of the request, past the cursor.
-/
theorem pathFromBody_listing (r : ListDirectoryRequest) :
    pathFromBody (Json.marshal (.obj r.members)) = some r.path := by
  rw [pathFromBody, unmarshal_marshal (wellFormed_listing r), ListDirectoryRequest.members]
  simp only [List.cons_append, List.nil_append]
  rw [← List.append_nil (Json.omitEmpty _ _ _), fillMembers_skip (by rfl),
    fillMembers_set (by rfl) (by rfl), fillMembers_skip (by rfl),
    fillMembers_skip_omitEmpty (by rfl)]
  rfl

/-- The handlers that take one path read the path of the request. -/
theorem pathFromBody_path (r : PathRequest) :
    pathFromBody (Json.marshal (.obj r.members)) = some r.path := by
  rw [pathFromBody, unmarshal_marshal (wellFormed_path r), PathRequest.members,
    fillMembers_skip (by rfl), fillMembers_set (by rfl) (by rfl), fillMembers_skip (by rfl)]
  rfl

/-- A move of a directory does not say whether to overwrite. -/
theorem srcDstFromBody_moveDirectory (r : MoveDirectoryRequest) :
    srcDstFromBody (Json.marshal (.obj r.members)) = some ⟨r.source, r.destination, false⟩ := by
  rw [srcDstFromBody, unmarshal_marshal (wellFormed_moveDirectory r),
    MoveDirectoryRequest.members, fillMembers_skip (by rfl), fillMembers_set (by rfl) (by rfl),
    fillMembers_set (by rfl) (by rfl), fillMembers_skip (by rfl)]
  rfl

/-- The handlers of a copy and of a move read both paths and the overwrite
flag. -/
theorem srcDstFromBody_transfer (r : TransferFileRequest) :
    srcDstFromBody (Json.marshal (.obj r.members)) =
      some ⟨r.source, r.destination, r.overwriteExisting⟩ := by
  rw [srcDstFromBody, unmarshal_marshal (wellFormed_transfer r),
    TransferFileRequest.members, fillMembers_skip (by rfl), fillMembers_set (by rfl) (by rfl),
    fillMembers_set (by rfl) (by rfl), fillMembers_set (by rfl) (by rfl),
    fillMembers_skip (by rfl)]
  rfl

/-- An `int64` into a field that is a number. -/
theorem orKeep_ofInt (cur : Int) {x : Int} (h : -maxInt64 - 1 ≤ x ∧ x ≤ maxInt64) :
    orKeep decodeInt cur (Json.ofInt x) = .ok x :=
  decodeInt_ofInt h.1 h.2

/-- The `params` field is read as the params of the upload; an overwrite flag
that is left out reads as false. -/
theorem uploadParams_upload (r : FileUploadRequest)
    (h : -maxInt64 - 1 ≤ r.declaredSizeBytes ∧ r.declaredSizeBytes ≤ maxInt64) :
    uploadParams (Json.marshal (.obj r.members)) = some ⟨r.filesystemID.toList, r.path,
      r.declaredSizeBytes, r.overwriteExisting, readMetadata r.authorizationMetadata⟩ := by
  rw [uploadParams, unmarshal_marshal (wellFormed_upload r), FileUploadRequest.members]
  simp only [List.cons_append, List.nil_append]
  rw [fillMembers_set (by rfl) (by rfl), fillMembers_set (by rfl) (by rfl),
    fillMembers_set (by rfl) (by rw [orKeep_ofInt _ h]; rfl),
    fillMembers_omitEmpty (by rfl) (by rfl) fun hempty => ?_, fillMembers_set (by rfl) (by rfl)]
  · rfl
  · rw [Bool.not_eq_true'] at hempty
    rw [hempty]

/-- A range is read back if its ends are `int64` values. -/
theorem decodeRange_json {rng : Brokerrpc.Range}
    (ho : -maxInt64 - 1 ≤ rng.offset ∧ rng.offset ≤ maxInt64)
    (hl : -maxInt64 - 1 ≤ rng.length ∧ rng.length ≤ maxInt64) :
    decodeRange none rng.json = .ok (some rng) := by
  unfold decodeRange Brokerrpc.Range.json
  dsimp only
  rw [fillStruct, fillMembers_set (by rfl) (by simp [orKeep_ofInt _ ho]; rfl),
    fillMembers_set (by rfl) (by simp [orKeep_ofInt _ hl]; rfl)]
  rfl

/-- The handler of a download reads the uuid and the range; a range that is
left out reads as none. -/
theorem downloadBody_download (r : FileDownloadRequest)
    (h : ∀ rng, r.range = some rng → (-maxInt64 - 1 ≤ rng.offset ∧ rng.offset ≤ maxInt64) ∧
      -maxInt64 - 1 ≤ rng.length ∧ rng.length ≤ maxInt64) :
    downloadBody (Json.marshal (.obj r.members)) = some ⟨r.filesystemID.toList, r.uuid.toList,
      r.range, readMetadata r.authorizationMetadata⟩ := by
  have hrange : decodeRange none (r.range.elim .null Brokerrpc.Range.json) = .ok r.range := by
    cases hr : r.range with
    | none => rfl
    | some rng => exact decodeRange_json (h rng hr).1 (h rng hr).2
  rw [downloadBody, unmarshal_marshal (wellFormed_download r), FileDownloadRequest.members]
  simp only [List.cons_append, List.nil_append]
  rw [fillMembers_set (by rfl) (by rfl), fillMembers_set (by rfl) (by rfl),
    fillMembers_omitEmpty (by rfl) (by rw [hrange]; rfl) fun hempty => ?_,
    fillMembers_set (by rfl) (by rfl)]
  · rfl
  · rw [Option.isNone_iff_eq_none.mp hempty]

/-- What the handler of the operation reads of the body. -/
def ReadBack (q : Brokerrpc.Request) : Prop :=
  match q with
  | .listDirectory r => pathFromBody q.payload = some r.path
  | .readMetadata r | .ack (.makeDirectory r) | .ack (.removeDirectory r) | .ack (.removeFile r) =>
      pathFromBody q.payload = some r.path
  | .ack (.moveDirectory r) => srcDstFromBody q.payload = some ⟨r.source, r.destination, false⟩
  | .ack (.copyFile r) | .ack (.moveFile r) =>
      srcDstFromBody q.payload = some ⟨r.source, r.destination, r.overwriteExisting⟩
  | .fileUpload r =>
      uploadParams q.payload = some ⟨r.filesystemID.toList, r.path, r.declaredSizeBytes,
        r.overwriteExisting, readMetadata r.authorizationMetadata⟩
  | .fileDownload r =>
      downloadBody q.payload = some ⟨r.filesystemID.toList, r.uuid.toList, r.range,
        readMetadata r.authorizationMetadata⟩

/-- The integers of the request are `int64` values. -/
def InRange (q : Brokerrpc.Request) : Prop :=
  match q with
  | .fileUpload r => -maxInt64 - 1 ≤ r.declaredSizeBytes ∧ r.declaredSizeBytes ≤ maxInt64
  | .fileDownload r => ∀ rng, r.range = some rng →
      (-maxInt64 - 1 ≤ rng.offset ∧ rng.offset ≤ maxInt64) ∧
        -maxInt64 - 1 ≤ rng.length ∧ rng.length ≤ maxInt64
  | .listDirectory _ | .readMetadata _ | .ack _ => True

/-- Each handler reads what the client has written, operation by operation. -/
theorem readBack_of_inRange {q : Brokerrpc.Request} (h : InRange q) : ReadBack q := by
  cases q with
  | listDirectory r => exact pathFromBody_listing r
  | readMetadata r => exact pathFromBody_path r
  | ack r =>
      cases r with
      | makeDirectory r | removeDirectory r | removeFile r => exact pathFromBody_path r
      | moveDirectory r => exact srcDstFromBody_moveDirectory r
      | copyFile r | moveFile r => exact srcDstFromBody_transfer r
  | fileUpload r => exact uploadParams_upload r h
  | fileDownload r => exact downloadBody_download r h

/-- **Requests**: the peer reads of every request what the client wrote, with
the router and with the handler of the operation; a body beyond the limit is
refused, and not read as another request. -/
theorem request_read_back (q : Brokerrpc.Request) (h : InRange q) :
    ReadBack q ∧ decodeCommon ⟨q.payload, false⟩ =
      if q.payload.length ≤ maxRequestBytes then
        some ⟨q.filesystemID.toList, readMetadata q.authorizationMetadata, q.payload⟩
      else none := by
  refine ⟨readBack_of_inRange h, ?_⟩
  split
  · next hlen => exact decodeCommon_payload q hlen
  · next hlen => exact decodeCommon_too_long q (Nat.lt_of_not_le hlen)

/-- A download of the last byte that an offset can name, of a uuid that has to
be escaped. -/
def lastByteRequest : Brokerrpc.Request :=
  .fileDownload ⟨"fs-1", "a\"<b", some ⟨maxInt64, 1⟩, ⟨.read, false⟩⟩

/-- Escapes and the largest offset survive the way to the peer. -/
theorem request_read_back_lastByte :
    InRange lastByteRequest ∧ ReadBack lastByteRequest ∧
      decodeCommon ⟨lastByteRequest.payload, false⟩ =
        some ⟨"fs-1".toList, ⟨"read".toList, false⟩, lastByteRequest.payload⟩ := by
  have hrange : InRange lastByteRequest := by
    rintro rng ⟨⟩
    decide
  have hread := request_read_back lastByteRequest hrange
  rw [if_pos (by decide +kernel)] at hread
  exact ⟨hrange, hread⟩

/-! ## responses -/

def WireFile.members (f : WireFile) : List (List Char × Json) :=
  Json.omitEmpty (f.path = []) "path".toList (.str f.path) ++
  Json.omitEmpty (f.size = 0) "size".toList (.ofInt f.size) ++
  Json.omitEmpty (f.mtime = []) "mtime".toList (.str f.mtime) ++
  Json.omitEmpty (f.mode = []) "mode".toList (.str f.mode) ++
  -- the peer never sets `mime`
  Json.omitEmpty (f.uuid = []) "uuid".toList (.str f.uuid)

def WireDir.members (d : WireDir) : List (List Char × Json) :=
  Json.omitEmpty (d.path = []) "path".toList (.str d.path) ++
  Json.omitEmpty (d.mode = []) "mode".toList (.str d.mode) ++
  Json.omitEmpty (d.mtime = []) "mtime".toList (.str d.mtime)

def entryMembers : WireFile ⊕ WireDir → List (List Char × Json)
  | .inl f => [("file".toList, .obj f.members)]
  | .inr d => [("directory".toList, .obj d.members)]

/-- The members of a reply that is JSON and no error.  A listing without
entries is the nil slice. -/
def Response.members : Response → Option (List (List Char × Json))
  | .done => some []
  | .file f => some [("file".toList, .obj f.members)]
  | .entry e => some (entryMembers e)
  | .entries es => some [("entries".toList,
      if es = [] then .null else .arr (es.map fun e => .obj (entryMembers e)))]
  | .error _ _ | .retryAfter _ _ _ | .stream _ _ => none

/-- `httpjson.OK` -/
def okBody (ms : List (List Char × Json)) : List UInt8 := Json.encodeLine (.obj ms)

/-- The client's record of a file that the peer describes. -/
def WireFile.file (f : WireFile) : Brokerrpc.File :=
  ⟨f.path, f.size, String.ofList f.mtime, String.ofList f.mode, "", "", String.ofList f.uuid⟩

def WireDir.directory (d : WireDir) : Brokerrpc.Directory :=
  ⟨d.path, String.ofList d.mode, String.ofList d.mtime⟩

def listEntry : WireFile ⊕ WireDir → Brokerrpc.ListDirEntry
  | .inl f => ⟨some f.file.toFilesystemFile, none⟩
  | .inr d => ⟨none, some d.directory⟩

def metadataResponse : WireFile ⊕ WireDir → Brokerrpc.ReadMetadataResponse
  | .inl f => ⟨f.file, .zero⟩
  | .inr d => ⟨.zero, d.directory⟩

/-- The size is an `int64`. -/
def SizeInRange : WireFile ⊕ WireDir → Prop
  | .inl f => -maxInt64 - 1 ≤ f.size ∧ f.size ≤ maxInt64
  | .inr _ => True

/-- The client's decoder restores every field of a file, those that were left
out included. -/
theorem decode_wireFile (f : WireFile) (h : -maxInt64 - 1 ≤ f.size ∧ f.size ≤ maxInt64) :
    Brokerrpc.File.decode .zero (.obj f.members) = .ok f.file := by
  unfold Brokerrpc.File.decode WireFile.members
  rw [fillStruct, ← List.append_nil (Json.omitEmpty (decide (f.uuid = [])) _ _)]
  simp only [List.append_assoc]
  rw [fillMembers_omitEmpty (by rfl) (by rfl) fun hempty => ?_,
    fillMembers_omitEmpty (by rfl) (by rw [Brokerrpc.File.set, orKeep_ofInt _ h]; rfl)
      fun hempty => ?_,
    fillMembers_omitEmpty (by rfl) (by rfl) fun hempty => ?_,
    fillMembers_omitEmpty (by rfl) (by rfl) fun hempty => ?_,
    fillMembers_omitEmpty (by rfl) (by rfl) fun hempty => ?_]
  · rfl
  all_goals
    rw [of_decide_eq_true hempty]
    rfl

/-- The client's decoder restores every field of a directory. -/
theorem decode_wireDir (d : WireDir) :
    Brokerrpc.Directory.decode .zero (.obj d.members) = .ok d.directory := by
  unfold Brokerrpc.Directory.decode WireDir.members
  rw [fillStruct, ← List.append_nil (Json.omitEmpty (decide (d.mtime = [])) _ _)]
  simp only [List.append_assoc]
  rw [fillMembers_omitEmpty (by rfl) (by rfl) fun hempty => ?_,
    fillMembers_omitEmpty (by rfl) (by rfl) fun hempty => ?_,
    fillMembers_omitEmpty (by rfl) (by rfl) fun hempty => ?_]
  · rfl
  all_goals
    rw [of_decide_eq_true hempty]
    rfl

/-- What the peer writes about one entry is well formed. -/
theorem wellFormed_entry (e : WireFile ⊕ WireDir) : (Json.obj (entryMembers e)).WellFormed := by
  cases e <;>
    simp [entryMembers, WireFile.members, WireDir.members, Json.mem_omitEmpty, or_imp, forall_and]

/-- The file of a listing is read like the file of a metadata reply. -/
theorem decode_filesystemFile (f : WireFile) (h : -maxInt64 - 1 ≤ f.size ∧ f.size ≤ maxInt64) :
    Brokerrpc.FilesystemFile.decode .zero (.obj f.members) = .ok f.file.toFilesystemFile := by
  rw [Brokerrpc.FilesystemFile.decode, show Brokerrpc.FilesystemFile.zero.toFile = .zero from rfl,
    decode_wireFile f h]
  rfl

/-- An entry of a listing. -/
theorem decode_entry {e : WireFile ⊕ WireDir} (h : SizeInRange e) :
    Brokerrpc.ListDirEntry.decode .zero (.obj (entryMembers e)) = .ok (listEntry e) := by
  rw [Brokerrpc.ListDirEntry.decode, fillStruct]
  cases e with
  | inl f =>
      have hfile : fillPtr .zero Brokerrpc.FilesystemFile.decode none (.obj f.members) =
          .ok (some f.file.toFilesystemFile) :=
        fillPtr_obj (decode_filesystemFile f h)
      have hset : Brokerrpc.ListDirEntry.set .zero (.obj f.members) .file =
          .ok (listEntry (.inl f)) := by
        simp only [Brokerrpc.ListDirEntry.set, Brokerrpc.ListDirEntry.zero, hfile]
        rfl
      rw [entryMembers, fillMembers_set (by rfl) hset]
      rfl
  | inr d =>
      have hdir : fillPtr .zero Brokerrpc.Directory.decode none (.obj d.members) =
          .ok (some d.directory) :=
        fillPtr_obj (decode_wireDir d)
      have hset : Brokerrpc.ListDirEntry.set .zero (.obj d.members) .directory =
          .ok (listEntry (.inr d)) := by
        simp only [Brokerrpc.ListDirEntry.set, Brokerrpc.ListDirEntry.zero, hdir]
        rfl
      rw [entryMembers, fillMembers_set (by rfl) hset]
      rfl

/-- A reply that is read whole is read member by member; of one that is cut
there is nothing to read. -/
theorem decodeResponse_okBody {F σ : Type} (fields : List (List Char × F))
    (set : σ → Json → F → Except JsonErr σ) (zero : σ) {ms : List (List Char × Json)}
    (h : (Json.obj ms).WellFormed) :
    Brokerrpc.decodeResponse fields set zero (okBody ms) =
      if (Json.marshal (.obj ms)).length ≤ Brokerrpc.maxJSONResponseBytes then
        fillMembers fields set zero ms
      else .error .malformed := by
  have hread := Json.firstValue_take_encodeLine h Brokerrpc.maxJSONResponseBytes
  unfold Brokerrpc.decodeResponse okBody
  split
  · next hnone =>
      rw [hnone] at hread
      split at hread
      · cases hread
      · next hlen => rw [if_neg hlen]
  · next v rest hsome =>
      rw [hsome] at hread
      split at hread
      · next hlen =>
          cases hread
          rw [if_pos hlen, fillStruct]
      · cases hread

/-- The sizes in a reply are `int64` values. -/
def Response.SizesInRange : Response → Prop
  | .entry e => SizeInRange e
  | .entries es => ∀ e ∈ es, SizeInRange e
  | .error _ _ | .retryAfter _ _ _ | .done | .file _ | .stream _ _ => True

/-- What the client reads of a reply with these members: the record of the
operation, or an error when the reply exceeds the limit.  No operation of the
client looks into the reply about a file that was written. -/
def Response.ReadBack (resp : Response) (ms : List (List Char × Json)) : Prop :=
  let fits := (Json.marshal (.obj ms)).length ≤ Brokerrpc.maxJSONResponseBytes
  match resp with
  | .done => Brokerrpc.decodeAck (okBody ms) = if fits then .ok () else .error .malformed
  | .entry e => Brokerrpc.decodeReadMetadata (okBody ms) =
      if fits then .ok (metadataResponse e) else .error .malformed
  | .entries es => Brokerrpc.decodeListDirectory (okBody ms) =
      if fits then .ok ⟨es.map listEntry, ""⟩ else .error .malformed
  | .error _ _ | .retryAfter _ _ _ | .file _ | .stream _ _ => True

/-- Every reply with a JSON body is well formed. -/
theorem wellFormed_reply {resp : Response} {ms : List (List Char × Json)}
    (h : resp.members = some ms) : (Json.obj ms).WellFormed := by
  cases resp with
  | done =>
      cases h
      simp
  | file f =>
      cases h
      exact wellFormed_entry (.inl f)
  | entry e =>
      cases h
      exact wellFormed_entry e
  | entries es =>
      cases h
      by_cases hnil : es = []
      · simp [hnil]
      · have hes : ∀ v ∈ es.map fun e => Json.obj (entryMembers e), v.WellFormed := by
          intro v hv
          obtain ⟨e, -, rfl⟩ := List.mem_map.mp hv
          exact wellFormed_entry e
        rw [if_neg hnil]
        simpa using hes
  | error status msg => cases h
  | retryAfter seconds status msg => cases h
  | stream contentLength bytes => cases h

/-- The members of a listing, into a listing. -/
theorem fillMembers_entries {es : List (WireFile ⊕ WireDir)} {ms : List (List Char × Json)}
    (h : ∀ e ∈ es, SizeInRange e) (hms : (Response.entries es).members = some ms) :
    fillMembers Brokerrpc.listFields Brokerrpc.ListingState.set ⟨none, ""⟩ ms =
      .ok ⟨if es = [] then none else some ⟨es.map listEntry, []⟩, ""⟩ := by
  cases hms
  by_cases hnil : es = []
  · rw [if_pos hnil, if_pos hnil]
    rfl
  · have hslice := fillSlice_none hnil fun e he => decode_entry (h e he)
    rw [if_neg hnil, if_neg hnil, fillMembers_set (by rfl)
      (by simp only [Brokerrpc.ListingState.set, hslice]; rfl)]
    rfl

/-- The one arm that the peer sets is the one that the client finds. -/
theorem fillMembers_metadata {e : WireFile ⊕ WireDir} (h : SizeInRange e) :
    fillMembers Brokerrpc.armFields Brokerrpc.ReadMetadataResponse.set .zero (entryMembers e) =
      .ok (metadataResponse e) := by
  cases e with
  | inl f =>
      have hset : Brokerrpc.ReadMetadataResponse.set .zero (.obj f.members) .file =
          .ok (metadataResponse (.inl f)) := by
        simp only [Brokerrpc.ReadMetadataResponse.set, Brokerrpc.ReadMetadataResponse.zero,
          decode_wireFile f h]
        rfl
      rw [entryMembers, fillMembers_set (by rfl) hset]
      rfl
  | inr d =>
      have hset : Brokerrpc.ReadMetadataResponse.set .zero (.obj d.members) .directory =
          .ok (metadataResponse (.inr d)) := by
        simp only [Brokerrpc.ReadMetadataResponse.set, Brokerrpc.ReadMetadataResponse.zero,
          decode_wireDir d]
        rfl
      rw [entryMembers, fillMembers_set (by rfl) hset]
      rfl

/-- An acknowledgement is an empty object, and always fits. -/
theorem decodeAck_okBody : Brokerrpc.decodeAck (okBody []) = .ok () := by
  have hmembers : Response.done.members = some [] := rfl
  rw [Brokerrpc.decodeAck, decodeResponse_okBody _ _ _ (wellFormed_reply hmembers),
    if_pos (by decide +kernel), fillMembers_nil]

/-- A metadata reply is read whole or, beyond the limit, not at all. -/
theorem decodeReadMetadata_okBody {e : WireFile ⊕ WireDir} (h : SizeInRange e) :
    Brokerrpc.decodeReadMetadata (okBody (entryMembers e)) =
      if (Json.marshal (.obj (entryMembers e))).length ≤ Brokerrpc.maxJSONResponseBytes then
        .ok (metadataResponse e)
      else .error .malformed := by
  rw [Brokerrpc.decodeReadMetadata, decodeResponse_okBody _ _ _ (wellFormed_entry e),
    fillMembers_metadata h]

/-- A listing is read whole, in its order, or, beyond the limit, not at all.
-/
theorem decodeListDirectory_okBody {es : List (WireFile ⊕ WireDir)}
    {ms : List (List Char × Json)} (h : ∀ e ∈ es, SizeInRange e)
    (hms : (Response.entries es).members = some ms) :
    Brokerrpc.decodeListDirectory (okBody ms) =
      if (Json.marshal (.obj ms)).length ≤ Brokerrpc.maxJSONResponseBytes then
        .ok ⟨es.map listEntry, ""⟩
      else .error .malformed := by
  rw [Brokerrpc.decodeListDirectory, decodeResponse_okBody _ _ _ (wellFormed_reply hms),
    fillMembers_entries h hms]
  split
  · by_cases hnil : es = []
    · subst hnil
      rfl
    · rw [if_neg hnil]
      rfl
  · rfl

/-- **Responses**: the client reads of every reply what the peer wrote, and of
one that exceeds its limit nothing at all. -/
theorem response_read_back (resp : Response) (hsize : resp.SizesInRange)
    (ms : List (List Char × Json)) (hms : resp.members = some ms) : resp.ReadBack ms := by
  unfold Response.ReadBack
  cases resp with
  | done =>
      cases hms
      have hfits : (Json.marshal (.obj [])).length ≤ Brokerrpc.maxJSONResponseBytes := by
        decide +kernel
      exact decodeAck_okBody.trans (if_pos hfits).symm
  | entry e =>
      cases hms
      exact decodeReadMetadata_okBody hsize
  | entries es => exact decodeListDirectory_okBody hsize hms
  | error status msg => trivial
  | retryAfter seconds status msg => trivial
  | file f => trivial
  | stream contentLength bytes => trivial

/-- The reply about a file without a uuid and with a name that has to be
escaped. -/
def escapedReply : Response :=
  .entry (.inl ⟨"/a\n&b".toList, 7, "2024-05-01T00:00:00Z".toList, "0644".toList, []⟩)

/-- A line break and an ampersand survive the way to the client. -/
theorem response_read_back_escaped :
    Brokerrpc.decodeReadMetadata (okBody (entryMembers
        (.inl ⟨"/a\n&b".toList, 7, "2024-05-01T00:00:00Z".toList, "0644".toList, []⟩))) =
      .ok ⟨⟨"/a\n&b".toList, 7, "2024-05-01T00:00:00Z", "0644", "", "", ""⟩, .zero⟩ := by
  have hread := response_read_back escapedReply ⟨by decide, by decide⟩ _ rfl
  exact hread.trans (if_pos (by decide +kernel))

end OcuFilestore.Peer
