import Mathlib.Logic.Relation
import OcuFilestore.Lib.Environment
import OcuFilestore.Ocufs.Object

/-!
# OcuFilestore.Ocufs.Freshness

What the field getters report after an update.  An update clears the uuid and
sets the size; the other fields stay as they were until a getter resolves the
object, and each getter has its own idea of when that is needed.  `ModTime`
resolves whenever the uuid is gone and `Size` unless it holds a size, which
the update has just set.  `MimeType` resolves only if it holds no mime type,
so it goes on reporting the one from before the update.
-/

namespace OcuFilestore.Ocufs

open Brokerrpc Prog

/-! ## a broker with one file -/

/-- The metadata the broker has of an object's file, and the fields the
object holds. -/
structure Served where
  file : Meta
  cell : Meta

/-- A metadata response that is the file's. -/
def Describes (file : Meta) (resp : ReadMetadataResponse) : Prop :=
  classifyReadMetadata resp = .file ∧ Meta.ofFile resp.file = file

/-- The calls on the object at `path` alone with the broker.  An acknowledged
upload leaves a file of the declared size, with whatever other metadata;
metadata responses are those of the file.  With `up` no metadata request
fails. -/
def serving (path : Path) (up : Bool) : Env Eff.Reply Served
  | s, .send ⟨_, .readMetadata q⟩, x, s' =>
      s' = s ∧ (q.path = path → ∀ resp, callResult .readMetadata x = .ok resp →
        Describes s.file resp) ∧
      (up = true → (callResult .readMetadata x).isOk)
  | s, .send ⟨_, .fileUpload q⟩, x, s' =>
      s'.cell = s.cell ∧ ((uploadResult x).isOk → s'.file.size = q.declaredSizeBytes)
  | s, .send ⟨_, .ack _⟩, _, s' | s, .send ⟨_, .listDirectory _⟩, _, s'
  | s, .send ⟨_, .fileDownload _⟩, _, s' => s' = s
  | s, .peek, m, s' => m = s.cell ∧ s' = s
  | s, .poke g, _, s' => s' = { s with cell := g s.cell }

/-! ## the getters -/

inductive Accessor where
  | modTime
  | mimeType
  | size
  deriving DecidableEq, Repr

namespace Accessor

def Value : Accessor → Type
  | modTime | mimeType => String
  | size => Int

def call (o : Object) : (a : Accessor) → FsProg a.Value
  | modTime => o.modTime
  | mimeType => o.mimeType
  | size => o.size

def field : (a : Accessor) → Meta → a.Value
  | modTime => Meta.mtime
  | mimeType => Meta.mime
  | size => Meta.size

/-- When a getter resolves first. -/
def unresolved : Accessor → Meta → Bool
  | modTime, m => m.uuid = ""
  | mimeType, m => m.uuid = "" && m.mime = ""
  | size, m => m.uuid = "" && m.size = 0

/-- Each accessor is the getter at its own check and field. -/
theorem call_eq (o : Object) (a : Accessor) : a.call o = o.getter a.unresolved a.field := by
  cases a <;> rfl

/-- An unresolved object has no uuid. -/
theorem uuid_of_unresolved {a : Accessor} {m : Meta} (h : a.unresolved m = true) : m.uuid = "" := by
  cases a <;> simp_all [unresolved]

end Accessor

/-- The getters called so far, each with its metadata request answered or
failed. -/
def Called (o : Object) : Served → Served → Prop :=
  Relation.ReflTransGen fun s s' => ∃ (a : Accessor) (v : a.Value),
    EvalsTo (serving o.path false) s (a.call o) s' v

/-- After the getters called so far, a call that is not refused its metadata
returns what the broker has. -/
def GettersFresh (o : Object) (s : Served) : Prop :=
  ∀ s', Called o s s' → ∀ (a : Accessor) s'' (v : a.Value),
    EvalsTo (serving o.path true) s' (a.call o) s'' v → v = a.field s.file

section Getters

variable {o : Object} {up : Bool}

/-- Reading the metadata of a served file describes it. -/
theorem ensures_readMetadata_served (s : Served) :
    Ensures (serving o.path up) (fun s' res => s' = s ∧ (up = true → res.isOk) ∧
      ∀ resp, res = .ok resp → Describes s.file resp) s
      (send (o.fs.client.readMetadata o.path)) := by
  rw [Client.readMetadata, Client.stamped_eq]
  refine ensures_op ?_
  rintro x s' ⟨rfl, htrue, hok⟩
  exact ⟨rfl, hok, htrue rfl⟩

/-- Resolving leaves the object as it was or with the file's metadata; it does
the latter if the uuid is gone and the broker answers. -/
theorem ensures_resolve_served (s : Served) :
    Ensures (serving o.path up) (fun s' _ => s'.file = s.file ∧
      (s'.cell = s.cell ∨ s'.cell = s.file) ∧
      (up = true → s.cell.uuid = "" → s'.cell = s.file)) s o.resolve := by
  unfold Object.resolve
  rw [peek_bind]
  refine ensures_op ?_
  rintro m s ⟨rfl, rfl⟩
  split
  · next huuid => exact ⟨rfl, Or.inl rfl, fun _ h => absurd h huuid⟩
  · refine (ensures_readMetadata_served s).bind ?_
    rintro s res ⟨rfl, hok, htrue⟩
    cases res with
    | error e =>
        have hdown : up = true → False := fun h => Bool.false_ne_true (hok h)
        dsimp only
        split <;> exact ⟨rfl, Or.inl rfl, fun h => (hdown h).elim⟩
    | ok resp =>
        obtain ⟨hfile, hmeta⟩ := htrue resp rfl
        simp only [hfile]
        refine ensures_op ?_
        rintro _ _ rfl
        exact ⟨rfl, Or.inr hmeta, fun _ _ => hmeta⟩

/-- A getter reads its field of what is held at the end, which is the file's
metadata if it had to resolve and the broker answers. -/
theorem ensures_call (a : Accessor) (s : Served) :
    Ensures (serving o.path up) (fun s' v => s'.file = s.file ∧
      (s'.cell = s.cell ∨ s'.cell = s.file) ∧ v = a.field s'.cell ∧
      (up = true → a.unresolved s.cell = true → s'.cell = s.file) ∧
      (a.unresolved s.cell = false → s'.cell = s.cell)) s (a.call o) := by
  rw [a.call_eq]
  unfold Object.getter
  rw [peek_bind]
  refine ensures_op ?_
  rintro m s ⟨rfl, rfl⟩
  dsimp only
  split
  · next hun =>
      refine (ensures_resolve_served s).bind ?_
      rintro s' res ⟨hfile, hcell, hup⟩
      refine ensures_op ?_
      rintro _ _ ⟨rfl, rfl⟩
      refine ⟨hfile, hcell, rfl, fun h _ => hup h (a.uuid_of_unresolved hun), fun h => ?_⟩
      exact absurd (hun.symm.trans h) Bool.noConfusion
  · next hun =>
      refine ensures_op ?_
      rintro _ _ ⟨rfl, rfl⟩
      exact ⟨rfl, Or.inl rfl, rfl, fun _ h => absurd h hun, fun _ => rfl⟩

/-- Getters leave the file alone, and the object as it was or resolved. -/
theorem called_inv {s s' : Served} (h : Called o s s') :
    s'.file = s.file ∧ (s'.cell = s.cell ∨ s'.cell = s.file) := by
  induction h with
  | refl => exact ⟨rfl, Or.inl rfl⟩
  | tail _ hstep ih =>
      obtain ⟨a, v, hrun⟩ := hstep
      obtain ⟨hfile, hcell, -⟩ := hrun.post (ensures_call a _)
      refine ⟨hfile.trans ih.1, ?_⟩
      rcases hcell with hcell | hcell
      · rw [hcell]
        exact ih.2
      · exact Or.inr (hcell.trans ih.1)

/-- A call of a getter whose field is right wherever it does not resolve. -/
theorem value_of_call {a : Accessor} {s s' : Served} {v : a.Value}
    (h : EvalsTo (serving o.path true) s (a.call o) s' v)
    (hheld : a.unresolved s.cell = false → a.field s.cell = a.field s.file) :
    v = a.field s.file := by
  obtain ⟨-, -, rfl, hres, hkeep⟩ := h.post (ensures_call a s)
  cases hun : a.unresolved s.cell with
  | true => rw [hres rfl hun]
  | false => rw [hkeep hun, hheld hun]

/-- An upload that succeeds leaves a file of its size. -/
theorem ensures_upload_served (size : Int) (s : Served) :
    Ensures (serving o.path up) (fun s' res => s'.cell = s.cell ∧
      (res.isOk → s'.file.size = size)) s (send (o.fs.client.upload o.path size true)) := by
  rw [Client.upload, Client.stamped_eq]
  exact ensures_op fun _ _ h => h

/-- An update that succeeds leaves a file of its size, and the object without
a uuid and with that size. -/
theorem ensures_update_served (size : Int) (s : Served) :
    Ensures (serving o.path up) (fun s' res => res = .ok () →
      s'.file.size = size ∧ s'.cell = { s.cell with uuid := "", size := size }) s
      (o.update size) := by
  unfold Object.update
  split
  · exact nofun
  · refine (ensures_upload_served size s).bind ?_
    rintro s' res ⟨hcell, hsize⟩
    cases res with
    | error e => exact nofun
    | ok u =>
        refine ensures_op ?_
        rintro _ _ rfl _
        exact ⟨hsize rfl, by rw [← hcell]⟩

/-- Every request can be answered, metadata requests with the truth. -/
theorem serving_total (path : Path) (up : Bool) (s : Served) (e : Eff) :
    ∃ r s', serving path up s e r s' := by
  cases e with
  | send w =>
      obtain ⟨c, q⟩ := w
      cases q with
      | readMetadata q =>
          refine ⟨.replied ⟨200, -1, .last [] (.sentinel .eof), ⟨"", none⟩⟩
            (.ok ⟨⟨['/'], s.file.size, s.file.mtime, s.file.mode, s.file.sha, s.file.mime,
              s.file.uuid⟩, ⟨[], "", ""⟩⟩), s, rfl, ?_, fun _ => rfl⟩
          rintro - _ ⟨⟩
          exact ⟨rfl, rfl⟩
      | fileUpload q => exact ⟨⟨.failed (.text []), none⟩, s, rfl, nofun⟩
      | listDirectory q => exact ⟨Exchange.failed (.text []), s, rfl⟩
      | ack q => exact ⟨Exchange.failed (.text []), s, rfl⟩
      | fileDownload q => exact ⟨Exchange.failed (.text []), s, rfl⟩
  | peek => exact ⟨s.cell, s, rfl, rfl⟩
  | poke g => exact ⟨(), _, rfl⟩

end Getters

/-- An update that the broker takes, leaving the metadata `file'`. -/
theorem evalsTo_update {o : Object} (ho : o.fs.readOnly = false) (file cell file' : Meta) :
    EvalsTo (serving o.path false) ⟨file, cell⟩ (o.update file'.size)
      ⟨file', { cell with uuid := "", size := file'.size }⟩ (.ok ()) := by
  unfold Object.update
  rw [if_neg (by simp [ho]), Client.upload, Client.stamped_eq]
  refine .step (r := accepted) (?_ : serving o.path false ⟨file, cell⟩ _ _ ⟨file', cell⟩) ?_
  · exact ⟨rfl, fun _ => rfl⟩
  change RunsIn _ _ (Prog.bind (.ret (uploadResult accepted)) _) _ _
  rw [uploadResult_accepted]
  exact .step (r := ()) rfl (.refl _ _)

/-- **Freshness after an update**: from a successful update on the getters
return the broker's metadata, in every order and with any metadata requests
failed in between, exactly when the object held no mime type before, or the
one the file has after. -/
theorem fresh_after_update_iff (o : Object) (size : Int) {s s₁ : Served}
    (h : EvalsTo (serving o.path false) s (o.update size) s₁ (.ok ())) :
    GettersFresh o s₁ ↔ s.cell.mime = "" ∨ s.cell.mime = s₁.file.mime := by
  obtain ⟨hsize, hcell⟩ := h.post (ensures_update_served size s) rfl
  constructor
  · intro hfresh
    obtain ⟨s', v, hrun⟩ := exists_evalsTo (serving_total o.path true) s₁ (Accessor.mimeType.call o)
    refine Decidable.or_iff_not_imp_left.mpr fun hmime => ?_
    have hun : Accessor.mimeType.unresolved s₁.cell = false := by
      simp [Accessor.unresolved, hcell, hmime]
    obtain ⟨-, -, hv, -, hkeep⟩ := hrun.post (ensures_call _ _)
    have hval := hfresh s₁ .refl .mimeType s' v hrun
    rw [hv, hkeep hun, hcell] at hval
    exact hval
  · intro hmime s' hcalled a s'' v hrun
    obtain ⟨hfile, hheld⟩ := called_inv hcalled
    rw [← hfile]
    refine value_of_call hrun fun hun => ?_
    rcases hheld with hheld | hheld
    · -- as the update left it: no uuid, the new size, the old mime type
      rw [hheld, hcell] at hun ⊢
      rw [hfile]
      cases a with
      | modTime => simp [Accessor.unresolved] at hun
      | mimeType =>
          have hne : s.cell.mime ≠ "" := by simpa [Accessor.unresolved] using hun
          exact hmime.resolve_left hne
      | size => exact hsize.symm
    · rw [hheld, hfile]

/-- The metadata of a file of three bytes. -/
def threeBytes (mime : String) : Meta := ⟨"v", 3, "t", "", "", mime⟩

/-- An object from an acknowledgement holds no mime type. -/
theorem fresh_after_update_ack :
    GettersFresh srvObject ⟨threeBytes "text/plain", ⟨"", 3, "", "", "", ""⟩⟩ :=
  (fresh_after_update_iff srvObject 3
    (evalsTo_update rfl (.ofSize 1) (.ofSize 1) (threeBytes "text/plain"))).mpr (Or.inl rfl)

/-- An object that was looked up as a text, then overwritten by an image: the
getter still says text. -/
theorem mimeType_stale :
    EvalsTo (serving srvObject.path false) ⟨threeBytes "text/plain", threeBytes "text/plain"⟩
      (srvObject.update 3)
      ⟨threeBytes "image/png", { threeBytes "text/plain" with uuid := "" }⟩ (.ok ()) ∧
    EvalsTo (serving srvObject.path true)
      ⟨threeBytes "image/png", { threeBytes "text/plain" with uuid := "" }⟩ srvObject.mimeType
      ⟨threeBytes "image/png", { threeBytes "text/plain" with uuid := "" }⟩ "text/plain" :=
  ⟨evalsTo_update rfl (threeBytes "text/plain") (threeBytes "text/plain") (threeBytes "image/png"),
    .step ⟨rfl, rfl⟩ (.step ⟨rfl, rfl⟩ (.refl _ _))⟩

end OcuFilestore.Ocufs
