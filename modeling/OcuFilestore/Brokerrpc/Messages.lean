import OcuFilestore.Brokerrpc.Errors

/-!
# OcuFilestore.Brokerrpc.Messages

The operations of the broker's file service with their intents
(`internal/brokerrpc/intent.go`), the request and response bodies
(`internal/brokerrpc/messages.go`), and what one HTTP exchange can end in.

Every request is stamped by `stampAuthMeta`: the intent comes from
`opIntentTable` and `downloadable` is false.
-/

namespace OcuFilestore.Brokerrpc

/-! ## operations and intents -/

/-- The operations of the file service; each value is the last segment of
its REST route. -/
inductive Op where
  | listDirectory
  | readFile
  | readMetadata
  | getFileMetadata
  | listFiles
  | fileDownload
  | makeDirectory
  | moveDirectory
  | removeDirectory
  | createFile
  | copyFile
  | moveFile
  | removeFile
  | fileUpload
  | importFiles
  | importZip
  | migrateFilesystem
  | removeFilesystem
  deriving DecidableEq, Repr

def Op.name : Op → String
  | .listDirectory => "listDirectory"
  | .readFile => "readFile"
  | .readMetadata => "readMetadata"
  | .getFileMetadata => "getFileMetadata"
  | .listFiles => "listFiles"
  | .fileDownload => "fileDownload"
  | .makeDirectory => "makeDirectory"
  | .moveDirectory => "moveDirectory"
  | .removeDirectory => "removeDirectory"
  | .createFile => "createFile"
  | .copyFile => "copyFile"
  | .moveFile => "moveFile"
  | .removeFile => "removeFile"
  | .fileUpload => "fileUpload"
  | .importFiles => "importFiles"
  | .importZip => "importZip"
  | .migrateFilesystem => "migrateFilesystem"
  | .removeFilesystem => "removeFilesystem"

inductive Intent where
  | read
  | write
  deriving DecidableEq, Repr

/-- The one mapping from operations to intents. -/
def opIntentTable : List (Op × Intent) :=
  [(.listDirectory, .read), (.readFile, .read), (.readMetadata, .read), (.getFileMetadata, .read),
   (.listFiles, .read), (.fileDownload, .read),
   (.makeDirectory, .write), (.moveDirectory, .write), (.removeDirectory, .write),
   (.createFile, .write), (.copyFile, .write), (.moveFile, .write), (.removeFile, .write),
   (.fileUpload, .write), (.importFiles, .write), (.importZip, .write),
   (.migrateFilesystem, .write), (.removeFilesystem, .write)]

/-- The intent of an operation; an operation outside the table is an error. -/
def intentFor (op : Op) : Except Err Intent :=
  match opIntentTable.lookup op with
  | some intent => .ok intent
  | none =>
      .error (.text [.lit "brokerrpc: unknown op ", .quoted op.name.toList,
        .lit " — not in intent table"])

structure AuthorizationMetadata where
  intent : Intent
  downloadable : Bool
  deriving DecidableEq, Repr

def stampAuthMeta (op : Op) : Except Err AuthorizationMetadata := do
  let intent ← intentFor op
  return { intent := intent, downloadable := false }

/-! ## requests -/

/-- The byte window of a ranged download. -/
structure Range where
  offset : Int
  length : Int
  deriving DecidableEq, Repr

structure ListDirectoryRequest where
  filesystemID : String
  path : Path
  authorizationMetadata : AuthorizationMetadata
  /-- Left out of the body when empty. -/
  cursor : String
  deriving DecidableEq, Repr

/-- The body of the operations that name one path: makeDirectory,
removeDirectory, readMetadata and removeFile. -/
structure PathRequest where
  filesystemID : String
  path : Path
  authorizationMetadata : AuthorizationMetadata
  deriving DecidableEq, Repr

abbrev MakeDirectoryRequest := PathRequest
abbrev RemoveDirectoryRequest := PathRequest
abbrev ReadMetadataRequest := PathRequest
abbrev RemoveFileRequest := PathRequest

structure MoveDirectoryRequest where
  filesystemID : String
  source : Path
  destination : Path
  authorizationMetadata : AuthorizationMetadata
  deriving DecidableEq, Repr

/-- The body of copyFile and moveFile. -/
structure TransferFileRequest where
  filesystemID : String
  source : Path
  destination : Path
  overwriteExisting : Bool
  authorizationMetadata : AuthorizationMetadata
  deriving DecidableEq, Repr

abbrev CopyFileRequest := TransferFileRequest
abbrev MoveFileRequest := TransferFileRequest

/-- The `params` field of the upload form. -/
structure FileUploadRequest where
  filesystemID : String
  path : Path
  declaredSizeBytes : Int
  overwriteExisting : Bool
  authorizationMetadata : AuthorizationMetadata
  deriving DecidableEq, Repr

structure FileDownloadRequest where
  filesystemID : String
  uuid : String
  range : Option Range
  authorizationMetadata : AuthorizationMetadata
  deriving DecidableEq, Repr

/-- The requests that the broker answers with a bare acknowledgement. -/
inductive AckRequest where
  | makeDirectory (r : MakeDirectoryRequest)
  | moveDirectory (r : MoveDirectoryRequest)
  | removeDirectory (r : RemoveDirectoryRequest)
  | copyFile (r : CopyFileRequest)
  | moveFile (r : MoveFileRequest)
  | removeFile (r : RemoveFileRequest)
  deriving DecidableEq, Repr

namespace AckRequest

def op : AckRequest → Op
  | makeDirectory _ => .makeDirectory
  | moveDirectory _ => .moveDirectory
  | removeDirectory _ => .removeDirectory
  | copyFile _ => .copyFile
  | moveFile _ => .moveFile
  | removeFile _ => .removeFile

def filesystemID : AckRequest → String
  | makeDirectory r => r.filesystemID
  | moveDirectory r => r.filesystemID
  | removeDirectory r => r.filesystemID
  | copyFile r => r.filesystemID
  | moveFile r => r.filesystemID
  | removeFile r => r.filesystemID

def authorizationMetadata : AckRequest → AuthorizationMetadata
  | makeDirectory r => r.authorizationMetadata
  | moveDirectory r => r.authorizationMetadata
  | removeDirectory r => r.authorizationMetadata
  | copyFile r => r.authorizationMetadata
  | moveFile r => r.authorizationMetadata
  | removeFile r => r.authorizationMetadata

def paths : AckRequest → List Path
  | makeDirectory r => [r.path]
  | moveDirectory r => [r.source, r.destination]
  | removeDirectory r => [r.path]
  | copyFile r => [r.source, r.destination]
  | moveFile r => [r.source, r.destination]
  | removeFile r => [r.path]

end AckRequest

/-- The requests this client can build. -/
inductive Request where
  | listDirectory (r : ListDirectoryRequest)
  | readMetadata (r : ReadMetadataRequest)
  | ack (r : AckRequest)
  | fileUpload (r : FileUploadRequest)
  | fileDownload (r : FileDownloadRequest)
  deriving DecidableEq, Repr

namespace Request

/-- The route the request is posted to. -/
def op : Request → Op
  | listDirectory _ => .listDirectory
  | readMetadata _ => .readMetadata
  | ack r => r.op
  | fileUpload _ => .fileUpload
  | fileDownload _ => .fileDownload

def filesystemID : Request → String
  | listDirectory r => r.filesystemID
  | readMetadata r => r.filesystemID
  | ack r => r.filesystemID
  | fileUpload r => r.filesystemID
  | fileDownload r => r.filesystemID

def authorizationMetadata : Request → AuthorizationMetadata
  | listDirectory r => r.authorizationMetadata
  | readMetadata r => r.authorizationMetadata
  | ack r => r.authorizationMetadata
  | fileUpload r => r.authorizationMetadata
  | fileDownload r => r.authorizationMetadata

/-- Every path the request carries. -/
def paths : Request → List Path
  | listDirectory r => [r.path]
  | readMetadata r => [r.path]
  | ack r => r.paths
  | fileUpload r => [r.path]
  | fileDownload _ => []

end Request

/-! ## responses -/

/-- A file entry of a readMetadata response. -/
structure File where
  path : Path
  size : Int
  mtime : String
  mode : String
  sha : String
  mime : String
  uuid : String
  deriving DecidableEq, Repr

/-- A file entry of a listing; a wire message of its own. -/
structure FilesystemFile where
  path : Path
  size : Int
  mtime : String
  mode : String
  sha : String
  mime : String
  uuid : String
  deriving DecidableEq, Repr

structure Directory where
  path : Path
  mode : String
  mtime : String
  deriving DecidableEq, Repr

/-- A listing entry: a file arm, a directory arm, or (from a broker that
does not keep to the union) both or neither. -/
structure ListDirEntry where
  file : Option FilesystemFile
  directory : Option Directory
  deriving DecidableEq, Repr

structure ListDirectoryResponse where
  entries : List ListDirEntry
  cursor : String
  deriving DecidableEq, Repr

structure ReadMetadataResponse where
  file : File
  directory : Directory
  deriving DecidableEq, Repr

/-! ## exchanges -/

/-- An HTTP response as the client looks at it. -/
structure HttpResp where
  status : Int
  /-- Negative when the response declares no length. -/
  contentLength : Int
  body : Script UInt8 Err
  retryAfter : RetryAfter

/-- An empty response with status 200. -/
def respOk : HttpResp := ⟨200, -1, .last [] (.sentinel .eof), ⟨"", none⟩⟩

/-- How a round trip ends: the request could not be built, the transport
failed, or a response came back.  `x` is what else the client learns from
the response. -/
inductive Exchange (ρ : Type) where
  | notBuilt (e : Err)
  | failed (e : Err)
  | replied (resp : HttpResp) (x : ρ)

/-- The end of an upload: the round trip, and the error the goroutine that
writes the request body ended with. -/
structure UploadExchange where
  trip : Exchange Unit
  writeErr : Option Err

/-- What the answer to a request carries.  For the JSON operations this is
what the decoder makes of a 2xx body, for a download the body itself is
what the caller gets. -/
def Request.Reply : Request → Type
  | listDirectory _ => Exchange (Except Err ListDirectoryResponse)
  | readMetadata _ => Exchange (Except Err ReadMetadataResponse)
  | ack _ => Exchange (Except Err Unit)
  | fileUpload _ => UploadExchange
  | fileDownload _ => Exchange Unit

/-! ## refusals -/

/-- The typed error of a non-2xx response. -/
def HttpResp.err (resp : HttpResp) : Err :=
  mapHTTPStatus resp.status (captureErrorBody resp.body) resp.retryAfter

/-- The result of a round trip.  A request that could not be built and a
transport failure are wrapped, each in its own words; a non-2xx status goes
through `mapHTTPStatus`. -/
def Exchange.result {ρ α : Type} (build fail : List Frag)
    (success : HttpResp → ρ → Except Err α) : Exchange ρ → Except Err α
  | .notBuilt e => .error (.wrap build e [])
  | .failed e => .error (.wrap fail e [])
  | .replied resp x => if nonSuccess resp.status then .error resp.err else success resp x

/-- The response of a round trip that the broker refused. -/
def Exchange.refusal {ρ : Type} : Exchange ρ → Option HttpResp
  | .replied resp _ => if nonSuccess resp.status then some resp else none
  | .notBuilt _ | .failed _ => none

/-- The response of a refused request. -/
def Request.refusal : (q : Request) → q.Reply → Option HttpResp
  | listDirectory _, x => Exchange.refusal x
  | readMetadata _, x => Exchange.refusal x
  | ack _, x => Exchange.refusal x
  | fileUpload _, x => x.trip.refusal
  | fileDownload _, x => Exchange.refusal x

/-- A refusal is a reply with a status that is no success. -/
theorem Exchange.refusal_some {ρ : Type} {x : Exchange ρ} {resp : HttpResp}
    (h : x.refusal = some resp) : nonSuccess resp.status = true ∧ ∃ y, x = .replied resp y := by
  cases x with
  | notBuilt e => cases h
  | failed e => cases h
  | replied resp' y =>
      simp only [refusal] at h
      split at h
      · next hs =>
          cases h
          exact ⟨hs, y, rfl⟩
      · cases h

/-- A refusal becomes the typed error of its status. -/
theorem Exchange.result_refusal {ρ α : Type} {build fail : List Frag}
    {success : HttpResp → ρ → Except Err α} {x : Exchange ρ} {resp : HttpResp}
    (h : x.refusal = some resp) : x.result build fail success = .error resp.err := by
  obtain ⟨hs, y, rfl⟩ := refusal_some h
  simp only [result, hs, if_true]

end OcuFilestore.Brokerrpc
