import OcuFilestore.Filestore.Transfer
import OcuFilestore.Go.Strings
import OcuFilestore.Harness.Jwtmint
import OcuFilestore.Lib.Program
import OcuFilestore.Ocufs.Path

/-!
# OcuFilestore.Filestore.Server

The filestore peer (`test/harness/filestore`): credentials, scopes, the
router, and the handlers of the twelve operations.

A request is a program over the effects it has on the file system.  Paths are
resolved lexically before they are used (`resolveUnder`); an upload parses its
own body, which `net/http` does with a temporary file once the parts exceed
the memory it is given, and authorises itself from what it found there.
-/

namespace OcuFilestore.Peer

open SlashPath Filestore
open Ocufs (trimPrefix)
open Mountcfg (JsonErr decodeString decodeBool decodeInt)
open Harness (orKeep fillStruct unmarshal)
open Jwtmint

/-! ## operations and scopes -/

inductive Op where
  | createFile
  | readFile
  | readMetadata
  | listDirectory
  | copyFile
  | moveFile
  | removeFile
  | makeDirectory
  | moveDirectory
  | removeDirectory
  | fileUpload
  | fileDownload
  deriving DecidableEq, Repr

def ops : List (Path × Op) :=
  [("createFile".toList, .createFile), ("readFile".toList, .readFile),
    ("readMetadata".toList, .readMetadata), ("listDirectory".toList, .listDirectory),
    ("copyFile".toList, .copyFile), ("moveFile".toList, .moveFile),
    ("removeFile".toList, .removeFile), ("makeDirectory".toList, .makeDirectory),
    ("moveDirectory".toList, .moveDirectory), ("removeDirectory".toList, .removeDirectory),
    ("fileUpload".toList, .fileUpload), ("fileDownload".toList, .fileDownload)]

/-- The operations that a read-only scope refuses. -/
def writeIntentOps : Op → Bool
  | .createFile | .copyFile | .moveFile | .removeFile | .makeDirectory | .moveDirectory
  | .removeDirectory | .fileUpload => true
  | .readFile | .readMetadata | .listDirectory | .fileDownload => false

structure Scope where
  filesystemID : List Char
  root : Path
  readOnly : Bool
  deriving DecidableEq, Repr

/-! ## credentials -/

inductive CredentialErr where
  | noCredential
  | unverified (e : VerifyErr)
  | noFilesystemID

/-- The two validators: a fixed table, and tokens of the exchange. -/
inductive Validator where
  | static (credentials : List Char → Option (List Char))
  | jwt (ec : Ecdsa) (jwks : List JWK) (issuer audience : List Char)

/-- The bare credential of an `Authorization` header. -/
def bearer (header : List Char) : Option (List Char) :=
  if "Bearer ".toList.isPrefixOf header then
    let cred := trimSpace (trimPrefix header "Bearer ".toList)
    if cred = [] then none else some cred
  else none

/-- The `filesystem_id` a credential is bound to. -/
def Validator.subject (v : Validator) (now : Time) (header : List Char) :
    Except CredentialErr (List Char) :=
  match bearer header with
  | none => .error .noCredential
  | some cred =>
      match v with
      | .static credentials =>
          match credentials cred with
          | none => .error .noCredential
          | some fsID => .ok fsID
      | .jwt ec jwks issuer audience =>
          match verify ec cred jwks issuer audience now with
          | .error e => .error (.unverified e)
          | .ok claims =>
              if claims.filesystemID = [] then .error .noFilesystemID
              else .ok claims.filesystemID

/-! ## the server -/

structure Server where
  scopes : List Scope
  credentials : Validator
  throttleEvery : Int
  /-- The scope with a ceiling per operation, if there is one. -/
  perOpScope : Option (List Char)
  /-- `os.Getwd`, for roots that are not absolute. -/
  workingDir : Option Path
  /-- `os.TempDir`. -/
  tempDir : Path

/-- A later scope of the same id replaces an earlier one. -/
def Server.scopeOf (srv : Server) (fsID : List Char) : Option Scope :=
  srv.scopes.reverse.find? fun sc => sc.filesystemID = fsID

/-- The scope rules.  An operation that is none of the twelve writes
nothing. -/
def Server.authorize (srv : Server) (opName : Option Op) (subjectFSID requestedFSID : List Char) :
    Except (Int × String) Scope :=
  if requestedFSID = [] then .error (400, "filesystem_id is required")
  else if subjectFSID ≠ requestedFSID then
    .error (403, "credential is not bound to the requested filesystem_id")
  else
    match srv.scopeOf requestedFSID with
    | none => .error (403, "unknown filesystem_id")
    | some scope =>
        if scope.readOnly && opName.any writeIntentOps then
          .error (403, "scope is read-only; write refused")
        else .ok scope

/-! ## paths -/

/-- `filepath.Abs`. -/
def Server.abs (srv : Server) (p : Path) : Option Path :=
  if isRooted p then some (clean p) else srv.workingDir.map fun wd => join wd p

/-- A path of a request, from the root of the volume. -/
def cleanRel (rel : Path) : Path := clean ('/' :: trimPrefix rel ['/'])

/-- The path on the disk, if it stays under the root of the scope. -/
def Server.resolveUnder (srv : Server) (root rel : Path) : Option Path :=
  match srv.abs root, srv.abs (join root (cleanRel rel)) with
  | some rootAbs, some absAbs =>
      if absAbs ≠ rootAbs ∧ ¬ (rootAbs ++ ['/']).isPrefixOf absAbs then none else some absAbs
  | _, _ => none

def hexDigit (n : Nat) : Char :=
  Char.ofNat (if n < 10 then '0'.toNat + n else 'a'.toNat + (n - 10))

def hexString (bs : List UInt8) : List Char :=
  bs.flatMap fun b => [hexDigit (b.toNat / 16), hexDigit (b.toNat % 16)]

def uuidForRelPath (fsID rel : Path) : List Char :=
  hexString ((sum256 (String.ofList (fsID ++ Char.ofNat 0 :: cleanRel rel)).toUTF8.toList).take 16)

/-! ## bodies -/

/-- A request body: its bytes, and whether reading past them fails. -/
structure Body where
  bytes : List UInt8
  broken : Bool

def maxRequestBytes : Nat := 1 <<< 20

def readAllLimited (body : Body) : Option (List UInt8) :=
  if body.broken && body.bytes.length < maxRequestBytes then none
  else some (body.bytes.take maxRequestBytes)

structure AuthorizationMetadata where
  intent : List Char
  downloadable : Bool
  deriving DecidableEq, Repr

inductive MetadataField where
  | intent
  | downloadable

def AuthorizationMetadata.set (m : AuthorizationMetadata) (v : Json) :
    MetadataField → Except JsonErr AuthorizationMetadata
  | .intent => return { m with intent := ← decodeString m.intent v }
  | .downloadable => return { m with downloadable := ← orKeep decodeBool m.downloadable v }

def AuthorizationMetadata.decode (m : AuthorizationMetadata) (v : Json) :
    Except JsonErr AuthorizationMetadata :=
  fillStruct [("intent".toList, .intent), ("downloadable".toList, .downloadable)]
    AuthorizationMetadata.set m v

/-- The fields of the JSON bodies; each record fills its own. -/
inductive BodyField where
  | filesystemID
  | authorizationMetadata
  | path
  | source
  | destination
  | declaredSizeBytes
  | overwriteExisting
  | uuid
  | range
  deriving DecidableEq, Repr

structure CommonBody where
  filesystemID : List Char
  authorizationMetadata : AuthorizationMetadata
  raw : List UInt8

def decodeCommon (body : Body) : Option CommonBody := do
  let raw ← readAllLimited body
  let zero : CommonBody := ⟨[], ⟨[], false⟩, raw⟩
  (unmarshal [("filesystem_id".toList, .filesystemID),
      ("authorization_metadata".toList, .authorizationMetadata)]
    (fun cb v field =>
      match field with
      | BodyField.filesystemID =>
          return { cb with filesystemID := ← decodeString cb.filesystemID v }
      | .authorizationMetadata =>
          return { cb with authorizationMetadata := ← cb.authorizationMetadata.decode v }
      | _ => return cb) zero raw).toOption

def pathFromBody (raw : List UInt8) : Option Path :=
  (unmarshal [("path".toList, ())] (fun p v _ => decodeString p v) [] raw).toOption

structure SrcDstBody where
  source : Path
  destination : Path
  overwriteExisting : Bool
  deriving DecidableEq, Repr

def srcDstFromBody (raw : List UInt8) : Option SrcDstBody :=
  (unmarshal [("source".toList, .source), ("destination".toList, .destination),
      ("overwrite_existing".toList, .overwriteExisting)]
    (fun (sd : SrcDstBody) v field =>
      match field with
      | BodyField.source => return { sd with source := ← decodeString sd.source v }
      | .destination => return { sd with destination := ← decodeString sd.destination v }
      | .overwriteExisting =>
          return { sd with overwriteExisting := ← orKeep decodeBool sd.overwriteExisting v }
      | _ => return sd) ⟨[], [], false⟩ raw).toOption

structure UploadParams where
  filesystemID : List Char
  path : Path
  declaredSizeBytes : Int
  overwriteExisting : Bool
  authorizationMetadata : AuthorizationMetadata
  deriving DecidableEq, Repr

def uploadParams (raw : List UInt8) : Option UploadParams :=
  (unmarshal [("filesystem_id".toList, .filesystemID), ("path".toList, .path),
      ("declared_size_bytes".toList, .declaredSizeBytes),
      ("overwrite_existing".toList, .overwriteExisting),
      ("authorization_metadata".toList, .authorizationMetadata)]
    (fun (p : UploadParams) v field =>
      match field with
      | BodyField.filesystemID => return { p with filesystemID := ← decodeString p.filesystemID v }
      | .path => return { p with path := ← decodeString p.path v }
      | .declaredSizeBytes =>
          return { p with declaredSizeBytes := ← orKeep decodeInt p.declaredSizeBytes v }
      | .overwriteExisting =>
          return { p with overwriteExisting := ← orKeep decodeBool p.overwriteExisting v }
      | .authorizationMetadata =>
          return { p with authorizationMetadata := ← p.authorizationMetadata.decode v }
      | _ => return p) ⟨[], [], 0, false, ⟨[], false⟩⟩ raw).toOption

/-- The window of a download; `null` takes it away. -/
def decodeRange (cur : Option Brokerrpc.Range) : Json → Except JsonErr (Option Brokerrpc.Range)
  | .null => .ok none
  | v => do
      let rng ← fillStruct [("offset".toList, true), ("length".toList, false)]
        (fun (rng : Brokerrpc.Range) v isOffset =>
          if isOffset then return { rng with offset := ← orKeep decodeInt rng.offset v }
          else return { rng with length := ← orKeep decodeInt rng.length v })
        (cur.getD ⟨0, 0⟩) v
      return some rng

structure DownloadBody where
  filesystemID : List Char
  uuid : List Char
  range : Option Brokerrpc.Range
  authorizationMetadata : AuthorizationMetadata

def downloadBody (raw : List UInt8) : Option DownloadBody :=
  (unmarshal [("filesystem_id".toList, .filesystemID), ("uuid".toList, .uuid),
      ("range".toList, .range), ("authorization_metadata".toList, .authorizationMetadata)]
    (fun (b : DownloadBody) v field =>
      match field with
      | BodyField.filesystemID => return { b with filesystemID := ← decodeString b.filesystemID v }
      | .uuid => return { b with uuid := ← decodeString b.uuid v }
      | .range => return { b with range := ← decodeRange b.range v }
      | .authorizationMetadata =>
          return { b with authorizationMetadata := ← b.authorizationMetadata.decode v }
      | _ => return b) ⟨[], [], none, ⟨[], false⟩⟩ raw).toOption

/-! ## effects -/

inductive ErrKind where
  | notExist
  | exist
  | other
  deriving DecidableEq, Repr

/-- An error of the file system. -/
structure OSErr where
  kind : ErrKind
  text : List Char

structure FileInfo where
  size : Int
  mtime : List Char
  mode : List Char
  isDir : Bool

/-- An entry of a directory; its `Info` is asked for afterwards and may
fail. -/
structure DirEntry where
  name : List Char
  isDir : Bool
  info : Except OSErr FileInfo

inductive Eff where
  | now
  /-- The token bucket of the ceiling per operation. -/
  | allow
  /-- The write counter goes up by one. -/
  | countWrite
  | stat (p : Path)
  | mkdirAll (p : Path)
  /-- Open for writing: created, or cut to nothing. -/
  | create (p : Path)
  /-- Write to a file that is open for writing. -/
  | write (p : Path) (bs : List UInt8)
  | close (p : Path)
  | openFile (p : Path)
  | seek (p : Path) (start : Int)
  /-- Read from a file that is open for reading, a window of it or to its
  end. -/
  | read (p : Path) (start : Nat) (length : Option Nat)
  | readDir (p : Path)
  /-- The files below a directory, as `WalkDir` comes to them. -/
  | walk (p : Path)
  | remove (p : Path)
  | removeAll (p : Path)
  | rename (src dst : Path)
  /-- `os.CreateTemp`: the number that made the name a new one. -/
  | createTemp

@[reducible] def Eff.Reply : Eff → Type
  | now => Time
  | allow => Bool
  | countWrite => Int
  | stat _ => Except OSErr FileInfo
  | mkdirAll _ => Except OSErr Unit
  | create _ => Except OSErr Unit
  | write _ _ => Nat × Option OSErr
  | close _ => Except OSErr Unit
  | openFile _ => Except OSErr Unit
  | seek _ _ => Except OSErr Unit
  | read _ _ _ => List UInt8 × Option OSErr
  | readDir _ => Except OSErr (List DirEntry)
  | walk _ => List Path
  | remove _ => Except OSErr Unit
  | removeAll _ => Except OSErr Unit
  | rename _ _ => Except OSErr Unit
  | createTemp => Except OSErr Nat

abbrev FsProg (α : Type) : Type := Prog Eff.Reply α

def Validator.validate (v : Validator) (header : List Char) :
    FsProg (Except CredentialErr (List Char)) :=
  match v with
  | .static _ => return v.subject zeroTime header
  | .jwt _ _ _ _ => do
      let now ← .perform Eff.now
      return v.subject now header

/-- One token of the ceiling, when it is on the requested scope. -/
def Server.chargePerOp (srv : Server) (requestedFSID : List Char) : FsProg Bool :=
  if srv.perOpScope = some requestedFSID then .perform Eff.allow else return true

/-- Every so many writes one is refused. -/
def Server.throttled (srv : Server) : FsProg Bool :=
  if srv.throttleEvery ≤ 0 then return false
  else do
    let n ← .perform Eff.countWrite
    return n.tmod srv.throttleEvery == 0

/-! ## responses -/

structure WireFile where
  path : Path
  size : Int
  mtime : List Char
  mode : List Char
  uuid : List Char

structure WireDir where
  path : Path
  mode : List Char
  mtime : List Char

inductive Response where
  | error (status : Int) (msg : List Frag)
  /-- With a `Retry-After` header. -/
  | retryAfter (seconds : String) (status : Int) (msg : List Frag)
  | done
  | file (f : WireFile)
  | entry (e : WireFile ⊕ WireDir)
  | entries (es : List (WireFile ⊕ WireDir))
  | stream (contentLength : Int) (bytes : List UInt8)

/-- What the status line says. -/
def Response.status : Response → Int
  | .error status _ | .retryAfter _ status _ => status
  | .done | .file _ | .entry _ | .entries _ | .stream _ _ => 200

/-- The reply is 2xx. -/
def Response.Ok (r : Response) : Prop := 200 ≤ r.status ∧ r.status < 300

instance (r : Response) : Decidable r.Ok := inferInstanceAs (Decidable (_ ∧ _))

/-- The reply about a file is a success. -/
theorem ok_file (f : WireFile) : (Response.file f).Ok :=
  ⟨show (200 : Int) ≤ 200 by decide, show (200 : Int) < 300 by decide⟩

def refuse (status : Int) (msg : String) : Response := .error status [.lit msg]

theorem not_ok_refuse {status : Int} {msg : String} (h : 300 ≤ status) :
    ¬ (refuse status msg).Ok :=
  fun hok => Int.not_lt.mpr h hok.2

theorem not_ok_retryAfter {after : String} {msg : List Frag} :
    ¬ (Response.retryAfter after 429 msg).Ok :=
  fun h => absurd (show (429 : Int) < 300 from h.2) (by decide)

def metaError (e : OSErr) : Response :=
  match e.kind with
  | .notExist => refuse 404 "not found"
  | .exist => refuse 409 "already exists"
  | .other => refuse 500 "operation failed"

/-- No file system error is answered with a success. -/
theorem not_ok_metaError (e : OSErr) : ¬ (metaError e).Ok := by
  unfold metaError
  split <;> decide

def mkdirFailed (e : OSErr) : Response :=
  .error 500 [.lit "mkdir parent failed: ", .str (String.ofList e.text)]

theorem not_ok_mkdirFailed (e : OSErr) : ¬ (mkdirFailed e).Ok :=
  fun h => absurd (show (500 : Int) < 300 from h.2) (by decide)

def wireFile (scope : Scope) (rel : Path) (info : FileInfo) : WireFile :=
  ⟨rel, info.size, info.mtime, info.mode, uuidForRelPath scope.filesystemID rel⟩

/-- The response that describes the file at a path. -/
def fileMeta (scope : Scope) (rel abs : Path) : FsProg Response := do
  match ← .perform (Eff.stat abs) with
  | .error e => return metaError e
  | .ok info => return .file (wireFile scope rel info)

/-! ## handlers -/

/-- The part the handlers of a path have in common. -/
def Server.withPath (srv : Server) (scope : Scope) (body : CommonBody)
    (handler : Path → Path → FsProg Response) : FsProg Response :=
  match pathFromBody body.raw with
  | none => return refuse 400 "malformed body"
  | some rel =>
      match srv.resolveUnder scope.root rel with
      | none => return refuse 400 "path escapes scope"
      | some abs => handler rel abs

def Server.handleCreateFile (srv : Server) (scope : Scope) (body : CommonBody) :
    FsProg Response :=
  srv.withPath scope body fun rel abs => do
    match ← .perform (Eff.mkdirAll (dir abs)) with
    | .error e => return mkdirFailed e
    | .ok () =>
        match ← .perform (Eff.create abs) with
        | .error e => return metaError e
        | .ok () =>
            let _ ← .perform (Eff.close abs)
            fileMeta scope rel abs

def Server.handleReadFile (srv : Server) (scope : Scope) (body : CommonBody) : FsProg Response :=
  srv.withPath scope body fun rel abs => fileMeta scope rel abs

def Server.handleReadMetadata (srv : Server) (scope : Scope) (body : CommonBody) :
    FsProg Response :=
  srv.withPath scope body fun rel abs => do
    match ← .perform (Eff.stat abs) with
    | .error e => return metaError e
    | .ok info =>
        if info.isDir then return .entry (.inr ⟨rel, info.mode, info.mtime⟩)
        else return .entry (.inl (wireFile scope rel info))

/-- What is listed for an entry; one whose `Info` fails is left out. -/
def listDirEntry (scope : Scope) (rel : Path) (e : DirEntry) : Option (WireFile ⊕ WireDir) :=
  let childRel := join rel e.name
  match e.info with
  | .error _ => none
  | .ok info =>
      if e.isDir then some (.inr ⟨childRel, info.mode, info.mtime⟩)
      else some (.inl (wireFile scope childRel info))

def Server.handleListDirectory (srv : Server) (scope : Scope) (body : CommonBody) :
    FsProg Response :=
  srv.withPath scope body fun rel abs => do
    match ← .perform (Eff.readDir abs) with
    | .error e => return metaError e
    | .ok entries => return .entries (entries.filterMap (listDirEntry scope rel))

/-- The handlers that end with one operation on the path. -/
def Server.withPathOp (srv : Server) (scope : Scope) (body : CommonBody)
    (op : Path → FsProg (Except OSErr Unit)) : FsProg Response :=
  srv.withPath scope body fun _ abs => do
    match ← op abs with
    | .error e => return metaError e
    | .ok () => return .done

def Server.handleMakeDirectory (srv : Server) (scope : Scope) (body : CommonBody) :
    FsProg Response :=
  srv.withPathOp scope body fun abs => .perform (Eff.mkdirAll abs)

def Server.handleRemoveDirectory (srv : Server) (scope : Scope) (body : CommonBody) :
    FsProg Response :=
  srv.withPathOp scope body fun abs => .perform (Eff.removeAll abs)

def Server.handleRemoveFile (srv : Server) (scope : Scope) (body : CommonBody) : FsProg Response :=
  srv.withPathOp scope body fun abs => .perform (Eff.remove abs)

/-- A destination that is there is refused. -/
def destinationExists (overwrite : Bool) (abs : Path) : FsProg Bool :=
  if overwrite then return false
  else do
    match ← .perform (Eff.stat abs) with
    | .ok _ => return true
    | .error _ => return false

/-- The part that copies and moves have in common. -/
def Server.applySrcDstOp (srv : Server) (scope : Scope) (body : CommonBody)
    (op : Path → Path → FsProg (Except OSErr Unit)) : FsProg Response :=
  match srcDstFromBody body.raw with
  | none => return refuse 400 "malformed body"
  | some sd =>
      match srv.resolveUnder scope.root sd.source with
      | none => return refuse 400 "source escapes scope"
      | some srcAbs =>
          match srv.resolveUnder scope.root sd.destination with
          | none => return refuse 400 "destination escapes scope"
          | some dstAbs => do
              if ← destinationExists sd.overwriteExisting dstAbs then
                return refuse 409 "destination exists"
              match ← .perform (Eff.mkdirAll (dir dstAbs)) with
              | .error e => return mkdirFailed e
              | .ok () =>
                  match ← op srcAbs dstAbs with
                  | .error e => return metaError e
                  | .ok () => return .done

/-- The bytes are streamed; they are read and written here in one piece. -/
def copyFileContents (srcAbs dstAbs : Path) : FsProg (Except OSErr Unit) := do
  match ← .perform (Eff.openFile srcAbs) with
  | .error e => return .error e
  | .ok () =>
      match ← .perform (Eff.create dstAbs) with
      | .error e => return .error e
      | .ok () =>
          let (bytes, readErr) ← .perform (Eff.read srcAbs 0 none)
          let (_, writeErr) ← .perform (Eff.write dstAbs bytes)
          let closed ← .perform (Eff.close dstAbs)
          match readErr, writeErr with
          | some e, _ => return .error e
          | none, some e => return .error e
          | none, none => return closed

def Server.handleCopyFile (srv : Server) (scope : Scope) (body : CommonBody) : FsProg Response :=
  srv.applySrcDstOp scope body copyFileContents

def Server.handleMoveFile (srv : Server) (scope : Scope) (body : CommonBody) : FsProg Response :=
  srv.applySrcDstOp scope body fun srcAbs dstAbs => .perform (Eff.rename srcAbs dstAbs)

def Server.handleMoveDirectory (srv : Server) (scope : Scope) (body : CommonBody) :
    FsProg Response :=
  srv.applySrcDstOp scope body fun srcAbs dstAbs => .perform (Eff.rename srcAbs dstAbs)

/-- The first file of the volume whose path has the uuid. -/
def relPathForUUID (scope : Scope) (uuid : List Char) : FsProg (Option Path) := do
  let rels ← .perform (Eff.walk scope.root)
  return rels.find? fun rel => uuidForRelPath scope.filesystemID rel = uuid

def seekTo (abs : Path) (start : Int) : FsProg (Except OSErr Unit) :=
  if start > 0 then .perform (Eff.seek abs start) else return .ok ()

/-- Open, measure, seek and stream. -/
def streamFile (abs : Path) (range : Option Brokerrpc.Range) : FsProg Response := do
  match ← .perform (Eff.openFile abs) with
  | .error e => return metaError e
  | .ok () =>
      match ← .perform (Eff.stat abs) with
      | .error e => return metaError e
      | .ok info =>
          match resolveWindow info.size range with
          | .error (status, msg) => return refuse status msg
          | .ok (start, length) =>
              match ← seekTo abs start with
              | .error e => return metaError e
              | .ok () =>
                  -- a copy that ends early ends the body
                  let (bytes, _) ← .perform (Eff.read abs start.toNat (some length.toNat))
                  return .stream length bytes

def Server.handleFileDownload (srv : Server) (scope : Scope) (body : CommonBody) :
    FsProg Response :=
  match downloadBody body.raw with
  | none => return refuse 400 "malformed body"
  | some db =>
      if db.uuid = [] then return refuse 400 "uuid is required"
      else do
        match ← relPathForUUID scope db.uuid with
        | none => return refuse 404 "not found"
        | some rel =>
            match srv.resolveUnder scope.root rel with
            | none => return refuse 400 "path escapes scope"
            | some abs => streamFile abs db.range

/-! ## multipart bodies -/

structure Part where
  name : List Char
  filename : List Char
  content : List UInt8

/-- What the multipart reader makes of a body: the parts it comes to, and
whether it comes to the end.  A body with more than `ReadForm` takes (1000
parts, 10 MB of values over the memory for files) counts as one that is given
up behind the parts that it takes. -/
structure MultipartBody where
  parts : List Part
  complete : Bool

/-- The content of a file part: held in memory, or a stretch of the temporary
file. -/
inductive FileSource where
  | memory (bytes : List UInt8)
  | disk (tmp : Path) (start size : Nat)

structure Form where
  values : List (List Char × List UInt8)
  files : List (List Char × FileSource)

def multipartMemory : Nat := 1 <<< 20
def maxUploadBytes : Nat := 1 <<< 30

def tempPath (tempDir : Path) (n : Nat) : Path :=
  join tempDir ("multipart-".toList ++ (toString n).toList)

/-- The temporary file and how much is in it; made when it is first needed. -/
def openTemp (tempDir : Path) : Option (Path × Nat) → FsProg (Except OSErr (Path × Nat))
  | some tmp => return .ok tmp
  | none => do
      match ← .perform Eff.createTemp with
      | .error e => return .error e
      | .ok n => return .ok (tempPath tempDir n, 0)

/-- The parts in order.  A file part that no longer fits into the memory that
is left goes to the temporary file, behind what is there.  Also returned is
the temporary file, once there is one. -/
def readParts (tempDir : Path) (memory : Nat) (tmp : Option (Path × Nat)) (form : Form) :
    List Part → FsProg (Option Form × Option Path)
  | [] => return (some form, tmp.map Prod.fst)
  | part :: parts =>
      if part.name = [] then readParts tempDir memory tmp form parts
      else if part.filename = [] then
        readParts tempDir memory tmp
          { form with values := form.values ++ [(part.name, part.content)] } parts
      else if part.content.length ≤ memory then
        readParts tempDir (memory - part.content.length) tmp
          { form with files := form.files ++ [(part.name, .memory part.content)] } parts
      else do
        match ← openTemp tempDir tmp with
        | .error _ => return (none, none)
        | .ok (path, start) =>
            let (_, writeErr) ← .perform (Eff.write path part.content)
            if writeErr.isSome then return (none, some path)
            else
              let source := FileSource.disk path start part.content.length
              readParts tempDir memory (some (path, start + part.content.length))
                { form with files := form.files ++ [(part.name, source)] } parts

/-- The temporary file goes. -/
def removeTemp : Option Path → FsProg Unit
  | none => return ()
  | some tmp => do
      let _ ← .perform (Eff.remove tmp)
      return ()

/-- `Reader.ReadForm`: of a form that is given up, no file is left.  Its limits
on the number of parts and on the values are part of `complete`. -/
def readForm (tempDir : Path) (body : MultipartBody) : FsProg (Option Form × Option Path) := do
  match ← readParts tempDir multipartMemory none ⟨[], []⟩ body.parts with
  | (some form, tmp) =>
      if body.complete then return (some form, tmp)
      else
        removeTemp tmp
        return (none, none)
  | (none, tmp) =>
      removeTemp tmp
      return (none, none)

/-! ## requests -/

structure Request where
  method : String
  path : Path
  authorization : List Char
  body : Body
  /-- The query of the URL, or what of it parses. -/
  query : List (List Char × List UInt8)
  queryParses : Bool
  /-- The body as a multipart form, if it is one. -/
  multipart : Option MultipartBody

def restBase : Path := "/v1/filestore/fs/".toList

def Request.opName (q : Request) : Option Op := ops.lookup (trimPrefix q.path restBase)

/-- `Request.FormValue` of a multipart request: the query comes before the
body. -/
def formValue (query values : List (List Char × List UInt8)) (key : List Char) : List UInt8 :=
  ((query ++ values).lookup key).getD []

/-- `Request.FormFile`: the first file of the name, opened. -/
def formFile (form : Form) (key : List Char) : FsProg (Option FileSource) :=
  match form.files.lookup key with
  | none => return none
  | some (.memory bytes) => return some (.memory bytes)
  | some (.disk tmp start size) => do
      match ← .perform (Eff.openFile tmp) with
      | .error _ => return none
      | .ok () => return some (.disk tmp start size)

/-- The bytes of an upload, as far as they are taken. -/
def readPart : FileSource → FsProg (List UInt8 × Option OSErr)
  | .memory bytes => return (bytes.take maxUploadBytes, none)
  | .disk tmp start size => .perform (Eff.read tmp start (some (min size maxUploadBytes)))

/-- The bytes go to their destination; an upload of the wrong length is taken
back. -/
def storePart (scope : Scope) (params : UploadParams) (abs : Path) (part : FileSource) :
    FsProg Response := do
  if ← destinationExists params.overwriteExisting abs then return refuse 409 "destination exists"
  match ← .perform (Eff.mkdirAll (dir abs)) with
  | .error _ => return refuse 500 "mkdir parent failed"
  | .ok () =>
      match ← .perform (Eff.create abs) with
      | .error e => return metaError e
      | .ok () =>
          let (bytes, readErr) ← readPart part
          let (written, writeErr) ← .perform (Eff.write abs bytes)
          let closed ← .perform (Eff.close abs)
          if readErr.isSome || writeErr.isSome then return refuse 500 "write failed"
          match closed with
          | .error _ => return refuse 500 "close failed"
          | .ok () =>
              if (written : Int) ≠ params.declaredSizeBytes then
                let _ ← .perform (Eff.remove abs)
                return refuse 422 "streamed size does not match declared size"
              else fileMeta scope params.path abs

/-- What is done with a form.  A query that does not parse is reported after
the form is read. -/
def Server.upload (srv : Server) (q : Request) (subjectFSID : List Char) (form : Form) :
    FsProg Response :=
  let rawParams := formValue q.query form.values "params".toList
  if q.queryParses = false then return refuse 400 "malformed multipart body"
  else if rawParams = [] then return refuse 400 "missing params field"
  else
    match uploadParams rawParams with
    | none => return refuse 400 "malformed params field"
    | some params =>
        match srv.authorize (some .fileUpload) subjectFSID params.filesystemID with
        | .error (status, msg) => return refuse status msg
        | .ok scope => do
            if !(← srv.chargePerOp params.filesystemID) then
              return refuse 418 "per-op ceiling exceeded; back off and retry"
            if ← srv.throttled then
              return .retryAfter "1" 429 [.lit "throttled; retry after backoff"]
            match srv.resolveUnder scope.root params.path with
            | none => return refuse 400 "path escapes scope"
            | some abs =>
                match ← formFile form "file".toList with
                | none => return refuse 400 "missing file part"
                | some part => storePart scope params abs part

def Server.handleFileUpload (srv : Server) (q : Request) : FsProg Response := do
  match ← srv.credentials.validate q.authorization with
  | .error _ => return refuse 401 "missing or unknown credential"
  | .ok subjectFSID =>
      match q.multipart with
      | none => return refuse 400 "malformed multipart body"
      | some body =>
          match ← readForm srv.tempDir body with
          | (none, _) => return refuse 400 "malformed multipart body"
          | (some form, tmp) =>
              let resp ← srv.upload q subjectFSID form
              -- the HTTP server removes what is left of a form
              removeTemp tmp
              return resp

/-! ## the router -/

def Server.dispatch (srv : Server) (opName : Option Op) (scope : Scope) (body : CommonBody) :
    FsProg Response :=
  match opName with
  | some .createFile => srv.handleCreateFile scope body
  | some .readFile => srv.handleReadFile scope body
  | some .readMetadata => srv.handleReadMetadata scope body
  | some .listDirectory => srv.handleListDirectory scope body
  | some .copyFile => srv.handleCopyFile scope body
  | some .moveFile => srv.handleMoveFile scope body
  | some .removeFile => srv.handleRemoveFile scope body
  | some .makeDirectory => srv.handleMakeDirectory scope body
  | some .moveDirectory => srv.handleMoveDirectory scope body
  | some .removeDirectory => srv.handleRemoveDirectory scope body
  | some .fileDownload => srv.handleFileDownload scope body
  | some .fileUpload | none => return refuse 404 "unimplemented operation"

def Server.route (srv : Server) (q : Request) : FsProg Response := do
  if q.method ≠ "POST" then return refuse 405 "only POST is supported"
  if q.opName = some .fileUpload then srv.handleFileUpload q
  else
    match ← srv.credentials.validate q.authorization with
    | .error _ => return refuse 401 "missing or unknown credential"
    | .ok subjectFSID =>
        match decodeCommon q.body with
        | none => return refuse 400 "malformed request body"
        | some body =>
            match srv.authorize q.opName subjectFSID body.filesystemID with
            | .error (status, msg) => return refuse status msg
            | .ok scope => do
                if !(← srv.chargePerOp body.filesystemID) then
                  return refuse 418 "per-op ceiling exceeded; back off and retry"
                srv.dispatch q.opName scope body

end OcuFilestore.Peer
