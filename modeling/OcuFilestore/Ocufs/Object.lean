import OcuFilestore.Brokerrpc.Download
import OcuFilestore.Brokerrpc.Upload
import OcuFilestore.Go.Int64
import OcuFilestore.Ocufs.Path

/-!
# OcuFilestore.Ocufs.Object

The methods of an object (`backend/ocufs/object.go`) and the error
translation they share with the file system methods (`errors.go`).

An object has an immutable part (`Object`) and the fields its mutex guards
(`Meta`).  A method is a program with three effects: a request on the wire,
a locked read of the guarded fields, and a locked write of them.  Nothing is
held across a request, so between two effects of one call any other call on
the object may run.
-/

namespace OcuFilestore.Ocufs

open Brokerrpc

/-- The fields guarded by an object's mutex.  `uuid` is empty on an object
built from an acknowledgement; `mtime` is kept as the broker wrote it. -/
structure Meta where
  uuid : String
  size : Int
  mtime : String
  mode : String
  sha : String
  mime : String
  deriving DecidableEq, Repr

/-- The fields of an acknowledged object: only the size is known. -/
def Meta.ofSize (size : Int) : Meta := ⟨"", size, "", "", "", ""⟩

/-- The immutable part of an object. -/
structure Object where
  fs : Fs
  remote : Path
  path : Path

/-- What a method does to the world around it.  A method touches the guarded
fields of one existing object at most. -/
inductive Eff where
  | send (w : Wire)
  | peek
  | poke (f : Meta → Meta)

def Eff.Reply : Eff → Type
  | send w => w.Reply
  | peek => Meta
  | poke _ => Unit

/-- Programs of the backend. -/
abbrev FsProg (α : Type) : Type := Prog Eff.Reply α

/-- Run a client method. -/
def send {α : Type} (p : WireProg α) : FsProg α := p.lift Eff.send fun _ r => r

def peek : FsProg Meta := .perform Eff.peek

def poke (f : Meta → Meta) : FsProg Unit := .perform (Eff.poke f)

@[simp] theorem peek_bind {α : Type} (k : Meta → FsProg α) : (peek >>= k) = .op .peek k := rfl

/-! ## errors -/

/-- Broker errors that rclone has a sentinel for. -/
def mapBrokerError (e : Err) : Err :=
  if e.is .errPermissionDenied then .sentinel .fsErrorPermissionDenied
  else if e.is .errNotFound then .sentinel .fsErrorObjectNotFound
  else e

/-! ## metadata responses -/

inductive MetaArm where
  | absent
  | file
  | directory
  deriving DecidableEq, Repr

/-- Which arm of the union a response carries.  A lone uuid does not win over
a directory. -/
def classifyMetaArms (filePath : Path) (fileUUID fileMtime : String) (fileSize : Int)
    (dirPath : Path) : MetaArm :=
  let fileSubstantive := filePath ≠ [] || fileMtime ≠ "" || fileSize ≠ 0
  let fileArm := fileSubstantive || fileUUID ≠ ""
  let dirArm := dirPath ≠ []
  if dirArm && !fileSubstantive then .directory
  else if fileArm then .file
  else .absent

def classifyReadMetadata (resp : ReadMetadataResponse) : MetaArm :=
  classifyMetaArms resp.file.path resp.file.uuid resp.file.mtime resp.file.size
    resp.directory.path

/-- The guarded fields as a metadata response has them. -/
def Meta.ofFile (f : File) : Meta := ⟨f.uuid, f.size, f.mtime, f.mode, f.sha, f.mime⟩

namespace Object

/-- Fetch the guarded fields of an object without a uuid.  The lock is not
held on the wire, and what arrives is written back unconditionally. -/
def resolve (o : Object) : FsProg (Except Err Unit) := do
  let m ← peek
  if m.uuid ≠ "" then return .ok ()
  match ← send (o.fs.client.readMetadata o.path) with
  | .error e =>
      if e.is .errNotFound then return .error (.sentinel .fsErrorObjectNotFound)
      else return .error (.wrap [.lit "ocufs: resolve ", .quoted o.path, .lit ": "] e [])
  | .ok resp =>
      match classifyReadMetadata resp with
      | .directory => return .error (.sentinel .fsErrorIsDir)
      | .absent => return .error (.sentinel .fsErrorObjectNotFound)
      | .file =>
          poke fun _ => .ofFile resp.file
          return .ok ()

/-- The shape of the three field getters: resolve when the field may be
unknown, ignore the outcome, and read the field. -/
def getter {α : Type} (o : Object) (unresolved : Meta → Bool) (field : Meta → α) : FsProg α := do
  let m ← peek
  if unresolved m then
    let _ ← o.resolve
  let m ← peek
  return field m

def modTime (o : Object) : FsProg String := o.getter (fun m => m.uuid = "") Meta.mtime

def size (o : Object) : FsProg Int := o.getter (fun m => m.uuid = "" && m.size = 0) Meta.size

def mimeType (o : Object) : FsProg String :=
  o.getter (fun m => m.uuid = "" && m.mime = "") Meta.mime

def setModTime (o : Object) : Err :=
  if o.fs.readOnly then .sentinel .fsErrorPermissionDenied else .sentinel .fsErrorCantSetModTime

/-- Overwrite the object in place with `size` bytes; the uuid is cleared. -/
def update (o : Object) (size : Int) : FsProg (Except Err Unit) := do
  if o.fs.readOnly then return .error (.sentinel .fsErrorPermissionDenied)
  match ← send (o.fs.client.upload o.path size true) with
  | .error e =>
      return .error (.wrap [.lit "ocufs: Update ", .quoted o.path, .lit ": "] (mapBrokerError e) [])
  | .ok () =>
      poke fun m => { m with uuid := "", size := size }
      return .ok ()

def remove (o : Object) : FsProg (Except Err Unit) := do
  if o.fs.readOnly then return .error (.sentinel .fsErrorPermissionDenied)
  match ← send (o.fs.client.removeFile o.path) with
  | .error e =>
      return .error (.wrap [.lit "ocufs: Remove ", .quoted o.path, .lit ": "] (mapBrokerError e) [])
  | .ok () => return .ok ()

end Object

/-! ## opening -/

/-- rclone's `fs.RangeOption`: its two ends, negative where one is not given,
and its method `Decode`, which is rclone's own.  `Decode` turns the ends into
the offset and the length of a range in an object of the given size, with a
length of −1 for one up to the end of the object. -/
structure RangeOption where
  start : Int
  stop : Int
  decode : Int → Int × Int

/-- The options of an open call. -/
inductive OpenOption where
  | seek (offset : Int)
  | range (r : RangeOption)
  /-- Any other option, with its type's name. -/
  | other (mandatory : Bool) (typeName : String)

/-- The byte window an open call asks for. -/
structure Window where
  offset : Int
  length : Int
  fullRead : Bool
  deriving DecidableEq, Repr

/-- The length from an offset to the end of the object. -/
def toEnd (size offset : Int) : Int :=
  let length := int64 (size - offset)
  if length < 0 then 0 else length

/-- One option; a later one overrides the window of an earlier one. -/
def applyOption (size : Int) (w : Window) : OpenOption → Except Err Window
  | .seek offset => .ok ⟨offset, toEnd size offset, false⟩
  | .range r =>
      let (off, limit) := r.decode size
      if limit = -1 then .ok ⟨off, toEnd size off, false⟩ else .ok ⟨off, limit, false⟩
  | .other mandatory typeName =>
      if mandatory then
        .error (.text [.lit "ocufs: Open: unsupported mandatory option ", .str typeName])
      else .ok w

def applyOptions (size : Int) : Window → List OpenOption → Except Err Window
  | w, [] => .ok w
  | w, opt :: opts => do applyOptions size (← applyOption size w opt) opts

/-- Open an object for reading. -/
def Object.open (o : Object) (options : List OpenOption) : FsProg (Except Err Body) := do
  match ← o.resolve with
  | .error e => return .error e
  | .ok () =>
      let m ← peek
      if m.uuid = "" then
        return .error (.text [.lit "ocufs: Open ", .quoted o.path,
          .lit ": resolved metadata carries no uuid handle"])
      match applyOptions m.size ⟨0, 0, true⟩ options with
      | .error e => return .error e
      | .ok w =>
          if w.fullRead then send (o.fs.client.download m.uuid)
          else send (o.fs.client.downloadRange m.uuid w.offset w.length)

/-- An object of `/srv`. -/
def srvObject : Object := ⟨srvFs, "a".toList, "/srv/a".toList⟩

end OcuFilestore.Ocufs
