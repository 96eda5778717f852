import OcuFilestore.Brokerrpc.Cursor
import OcuFilestore.Ocufs.Object

/-!
# OcuFilestore.Ocufs.Fs

The methods of the backend instance: listing, lookup, put and the directory
operations (`backend/ocufs/ocufs.go`), and the server-side copy and move
(`backend/ocufs/copymove.go`).

A method that hands out objects returns them with their guarded fields; the
caller owns them from then on.
-/

namespace OcuFilestore.Ocufs

open Brokerrpc

/-- A listing entry as rclone gets it. -/
inductive DirEntry where
  | object (o : Object) (m : Meta)
  | dir (remote : Path) (mtime : String)

/-- The object of a listing's file arm.  The broker's path is made canonical
before it is kept: later requests send it back. -/
def objectFromFile (f : Fs) (remote : Path) (ff : FilesystemFile) : Object × Meta :=
  (⟨f, remote, cleanPath ff.path⟩, ⟨ff.uuid, ff.size, ff.mtime, ff.mode, ff.sha, ff.mime⟩)

namespace Fs

/-- What a listing keeps of one entry; it never fails. -/
def listYield (f : Fs) (dir dirPath : Path) (entries : List DirEntry) (entry : ListDirEntry) :
    List DirEntry × Option Err :=
  match f.immediateChildRemote dir dirPath entry with
  | none => (entries, none)
  | some remote =>
      match entry.file, entry.directory with
      | some ff, _ =>
          let (o, m) := objectFromFile f remote ff
          (entries ++ [.object o m], none)
      | none, some d => (entries ++ [.dir remote d.mtime], none)
      | none, none => (entries, none)

def list (f : Fs) (dir : Path) : FsProg (Except Err (List DirEntry)) := do
  let dirPath := f.absPath dir
  let (entries, err) ← send (f.client.listDirectoryStream dirPath (f.listYield dir dirPath) [])
  match err with
  | some e =>
      if e.is .errNotFound then return .error (.sentinel .fsErrorDirNotFound)
      else return .error (.wrap [.lit "ocufs: List ", .quoted dirPath, .lit ": "] e [])
  | none => return .ok entries

def newObject (f : Fs) (remote : Path) : FsProg (Except Err (Object × Meta)) := do
  let p := f.absPath remote
  match ← send (f.client.readMetadata p) with
  | .error e =>
      if e.is .errNotFound then return .error (.sentinel .fsErrorObjectNotFound)
      else return .error (.wrap [.lit "ocufs: NewObject ", .quoted p, .lit ": "] e [])
  | .ok resp =>
      match classifyReadMetadata resp with
      | .file => return .ok (⟨f, remote, p⟩, .ofFile resp.file)
      | .directory => return .error (.sentinel .fsErrorIsDir)
      | .absent => return .error (.sentinel .fsErrorObjectNotFound)

def put (f : Fs) (remote : Path) (size : Int) : FsProg (Except Err (Object × Meta)) := do
  if f.readOnly then return .error (.sentinel .fsErrorPermissionDenied)
  let dstPath := f.absPath remote
  match ← send (f.client.upload dstPath size true) with
  | .error e =>
      return .error (.wrap [.lit "ocufs: Put ", .quoted dstPath, .lit ": "] (mapBrokerError e) [])
  | .ok () => return .ok (⟨f, remote, dstPath⟩, .ofSize size)

/-- Creating a directory that is there already is a success. -/
def mkdir (f : Fs) (dir : Path) : FsProg (Except Err Unit) := do
  if f.readOnly then return .error (.sentinel .fsErrorPermissionDenied)
  let p := f.absPath dir
  match ← send (f.client.makeDirectory p) with
  | .error e =>
      if e.is .errAlreadyExists then return .ok ()
      else
        return .error (.wrap [.lit "ocufs: Mkdir ", .quoted p, .lit ": "] (mapBrokerError e) [])
  | .ok () => return .ok ()

def rmdir (f : Fs) (dir : Path) : FsProg (Except Err Unit) := do
  if f.readOnly then return .error (.sentinel .fsErrorPermissionDenied)
  let p := f.absPath dir
  match ← send (f.client.removeDirectory p) with
  | .error e =>
      return .error (.wrap [.lit "ocufs: Rmdir ", .quoted p, .lit ": "] (mapBrokerError e) [])
  | .ok () => return .ok ()

/-- The shared body of `copy` and `move`.  A source of another instance is
refused before anything goes out. -/
def transferFile (f : Fs) (src : Object) (dstRemote : Path) (opName : String)
    (cantSentinel : Sentinel) (call : Path → Path → WireProg (Except Err Unit)) :
    FsProg (Except Err (Object × Meta)) := do
  if f.readOnly then return .error (.sentinel .fsErrorPermissionDenied)
  if src.fs.ref ≠ f.ref then return .error (.sentinel cantSentinel)
  let dstPath := f.absPath dstRemote
  match ← send (call src.path dstPath) with
  | .error e =>
      return .error (.wrap [.lit "ocufs: ", .str opName, .lit " ", .quoted src.path, .lit " → ",
        .quoted dstPath, .lit ": "] (mapBrokerError e) [])
  | .ok () =>
      let size ← src.size
      return .ok (⟨f, dstRemote, dstPath⟩, .ofSize size)

def copy (f : Fs) (src : Object) (dstRemote : Path) : FsProg (Except Err (Object × Meta)) :=
  f.transferFile src dstRemote "Copy" .fsErrorCantCopy f.client.copyFile

def move (f : Fs) (src : Object) (dstRemote : Path) : FsProg (Except Err (Object × Meta)) :=
  f.transferFile src dstRemote "Move" .fsErrorCantMove f.client.moveFile

def dirMove (f : Fs) (src : Fs) (srcRemote dstRemote : Path) : FsProg (Except Err Unit) := do
  if f.readOnly then return .error (.sentinel .fsErrorPermissionDenied)
  if src.ref ≠ f.ref then return .error (.sentinel .fsErrorCantDirMove)
  let srcPath := f.absPath srcRemote
  let dstPath := f.absPath dstRemote
  match ← send (f.client.moveDirectory srcPath dstPath) with
  | .error e =>
      return .error (.wrap [.lit "ocufs: DirMove ", .quoted srcPath, .lit " → ", .quoted dstPath,
        .lit ": "] (mapBrokerError e) [])
  | .ok () => return .ok ()

end Fs

end OcuFilestore.Ocufs
