import OcuFilestore.Brokerrpc.Client
import OcuFilestore.Harness.Json

/-!
# OcuFilestore.Brokerrpc.Marshal

The messages of the file service on the wire (`internal/brokerrpc/messages.go`
through `encoding/json`): the bodies the client posts, and what its decoder
makes of the bodies it gets back.

A request is marshalled with its members in the order of the record's fields;
`cursor`, `range` and, for an upload, `overwrite_existing` are left out when
empty.  A response is read up to `maxJSONResponseBytes` and its first value is
decoded.
-/

namespace OcuFilestore.Brokerrpc

open Harness
open Mountcfg (JsonErr decodeString decodeInt Slice)

/-! ## requests -/

def Intent.name : Intent → List Char
  | .read => "read".toList
  | .write => "write".toList

def AuthorizationMetadata.json (am : AuthorizationMetadata) : Json :=
  .obj [("intent".toList, .str am.intent.name), ("downloadable".toList, .bool am.downloadable)]

def Range.json (rng : Range) : Json :=
  .obj [("offset".toList, .ofInt rng.offset), ("length".toList, .ofInt rng.length)]

def ListDirectoryRequest.members (r : ListDirectoryRequest) : List (List Char × Json) :=
  [("filesystem_id".toList, .str r.filesystemID.toList), ("path".toList, .str r.path),
    ("authorization_metadata".toList, r.authorizationMetadata.json)] ++
  Json.omitEmpty (r.cursor = "") "cursor".toList (.str r.cursor.toList)

def PathRequest.members (r : PathRequest) : List (List Char × Json) :=
  [("filesystem_id".toList, .str r.filesystemID.toList), ("path".toList, .str r.path),
    ("authorization_metadata".toList, r.authorizationMetadata.json)]

def MoveDirectoryRequest.members (r : MoveDirectoryRequest) : List (List Char × Json) :=
  [("filesystem_id".toList, .str r.filesystemID.toList), ("source".toList, .str r.source),
    ("destination".toList, .str r.destination),
    ("authorization_metadata".toList, r.authorizationMetadata.json)]

def TransferFileRequest.members (r : TransferFileRequest) : List (List Char × Json) :=
  [("filesystem_id".toList, .str r.filesystemID.toList), ("source".toList, .str r.source),
    ("destination".toList, .str r.destination),
    ("overwrite_existing".toList, .bool r.overwriteExisting),
    ("authorization_metadata".toList, r.authorizationMetadata.json)]

def FileUploadRequest.members (r : FileUploadRequest) : List (List Char × Json) :=
  [("filesystem_id".toList, .str r.filesystemID.toList), ("path".toList, .str r.path),
    ("declared_size_bytes".toList, .ofInt r.declaredSizeBytes)] ++
  Json.omitEmpty (!r.overwriteExisting) "overwrite_existing".toList (.bool r.overwriteExisting) ++
  [("authorization_metadata".toList, r.authorizationMetadata.json)]

def FileDownloadRequest.members (r : FileDownloadRequest) : List (List Char × Json) :=
  [("filesystem_id".toList, .str r.filesystemID.toList), ("uuid".toList, .str r.uuid.toList)] ++
  Json.omitEmpty r.range.isNone "range".toList (r.range.elim .null Range.json) ++
  [("authorization_metadata".toList, r.authorizationMetadata.json)]

def AckRequest.members : AckRequest → List (List Char × Json)
  | makeDirectory r | removeDirectory r | removeFile r => r.members
  | moveDirectory r => r.members
  | copyFile r | moveFile r => r.members

def Request.members : Request → List (List Char × Json)
  | listDirectory r => r.members
  | readMetadata r => r.members
  | ack r => r.members
  | fileUpload r => r.members
  | fileDownload r => r.members

/-- What the client posts; of an upload this is the `params` field. -/
def Request.payload (q : Request) : List UInt8 := Json.marshal (.obj q.members)

/-! ## responses -/

inductive FileField where
  | path
  | size
  | mtime
  | mode
  | sha
  | mime
  | uuid
  deriving DecidableEq, Repr

def fileFields : List (List Char × FileField) :=
  [("path".toList, .path), ("size".toList, .size), ("mtime".toList, .mtime),
    ("mode".toList, .mode), ("sha".toList, .sha), ("mime".toList, .mime), ("uuid".toList, .uuid)]

/-- A JSON string into a field. -/
def decodeText (cur : String) (v : Json) : Except JsonErr String :=
  return String.ofList (← decodeString cur.toList v)

def File.zero : File := ⟨[], 0, "", "", "", "", ""⟩

def File.set (f : File) (v : Json) : FileField → Except JsonErr File
  | .path => return { f with path := ← decodeString f.path v }
  | .size => return { f with size := ← orKeep decodeInt f.size v }
  | .mtime => return { f with mtime := ← decodeText f.mtime v }
  | .mode => return { f with mode := ← decodeText f.mode v }
  | .sha => return { f with sha := ← decodeText f.sha v }
  | .mime => return { f with mime := ← decodeText f.mime v }
  | .uuid => return { f with uuid := ← decodeText f.uuid v }

def File.decode (f : File) (v : Json) : Except JsonErr File := fillStruct fileFields File.set f v

/-- The two file messages have the same fields. -/
def File.toFilesystemFile (f : File) : FilesystemFile :=
  ⟨f.path, f.size, f.mtime, f.mode, f.sha, f.mime, f.uuid⟩

def FilesystemFile.toFile (f : FilesystemFile) : File :=
  ⟨f.path, f.size, f.mtime, f.mode, f.sha, f.mime, f.uuid⟩

def FilesystemFile.zero : FilesystemFile := File.zero.toFilesystemFile

def FilesystemFile.decode (f : FilesystemFile) (v : Json) : Except JsonErr FilesystemFile :=
  return (← f.toFile.decode v).toFilesystemFile

inductive DirectoryField where
  | path
  | mode
  | mtime
  deriving DecidableEq, Repr

def directoryFields : List (List Char × DirectoryField) :=
  [("path".toList, .path), ("mode".toList, .mode), ("mtime".toList, .mtime)]

def Directory.zero : Directory := ⟨[], "", ""⟩

def Directory.set (d : Directory) (v : Json) : DirectoryField → Except JsonErr Directory
  | .path => return { d with path := ← decodeString d.path v }
  | .mode => return { d with mode := ← decodeText d.mode v }
  | .mtime => return { d with mtime := ← decodeText d.mtime v }

def Directory.decode (d : Directory) (v : Json) : Except JsonErr Directory :=
  fillStruct directoryFields Directory.set d v

/-- The arms of a listing entry and of a metadata response. -/
inductive ArmField where
  | file
  | directory
  deriving DecidableEq, Repr

def armFields : List (List Char × ArmField) :=
  [("file".toList, .file), ("directory".toList, .directory)]

def ListDirEntry.zero : ListDirEntry := ⟨none, none⟩

def ListDirEntry.set (e : ListDirEntry) (v : Json) : ArmField → Except JsonErr ListDirEntry
  | .file => return { e with file := ← fillPtr .zero FilesystemFile.decode e.file v }
  | .directory => return { e with directory := ← fillPtr .zero Directory.decode e.directory v }

def ListDirEntry.decode (e : ListDirEntry) (v : Json) : Except JsonErr ListDirEntry :=
  fillStruct armFields ListDirEntry.set e v

def ReadMetadataResponse.zero : ReadMetadataResponse := ⟨.zero, .zero⟩

def ReadMetadataResponse.set (r : ReadMetadataResponse) (v : Json) :
    ArmField → Except JsonErr ReadMetadataResponse
  | .file => return { r with file := ← r.file.decode v }
  | .directory => return { r with directory := ← r.directory.decode v }

inductive ListField where
  | entries
  | cursor
  deriving DecidableEq, Repr

def listFields : List (List Char × ListField) :=
  [("entries".toList, .entries), ("cursor".toList, .cursor)]

/-- A listing while it is decoded. -/
structure ListingState where
  entries : Option (Slice ListDirEntry)
  cursor : String

def ListingState.set (s : ListingState) (v : Json) : ListField → Except JsonErr ListingState
  | .entries => return { s with entries := ← fillSlice .zero ListDirEntry.decode s.entries v }
  | .cursor => return { s with cursor := ← decodeText s.cursor v }

def ListingState.response (s : ListingState) : ListDirectoryResponse :=
  ⟨s.entries.elim [] Slice.elems, s.cursor⟩

def maxJSONResponseBytes : Nat := 64 <<< 20

/-- The first value of a response body, as far as it is read, into a
record. -/
def decodeResponse {F σ : Type} (fields : List (List Char × F))
    (set : σ → Json → F → Except JsonErr σ) (zero : σ) (body : List UInt8) : Except JsonErr σ :=
  match Json.firstValue (text (body.take maxJSONResponseBytes)) with
  | none => .error .malformed
  | some (v, _) => fillStruct fields set zero v

def decodeListDirectory (body : List UInt8) : Except JsonErr ListDirectoryResponse :=
  return (← decodeResponse listFields ListingState.set ⟨none, ""⟩ body).response

def decodeReadMetadata (body : List UInt8) : Except JsonErr ReadMetadataResponse :=
  decodeResponse armFields ReadMetadataResponse.set .zero body

/-- An acknowledgement has no fields. -/
def decodeAck (body : List UInt8) : Except JsonErr Unit :=
  decodeResponse ([] : List (List Char × Unit)) (fun _ _ _ => .ok ()) () body

end OcuFilestore.Brokerrpc
