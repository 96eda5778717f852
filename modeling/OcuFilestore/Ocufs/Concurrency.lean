import OcuFilestore.Ocufs.Session

/-!
# OcuFilestore.Ocufs.Concurrency

Calls of `Open`, `Size`, `ModTime`, `MimeType` and `Update` on one object,
interleaved effect by effect, against a broker that commits uploads and
serves the object's metadata.

What a call writes into the guarded fields is a function of the round trip
before it (`writeBack`, `proto_prog`).  A write-back that is still to come
when an upload is committed carries the metadata of an earlier state; that
is how an object ends up with the uuid and size of a file that is gone
(`stale_after_update`).  In the runs where no commit meets such a call, and
every committed upload is reported as a success, the object's fields agree
with the last upload whenever no call is in progress
(`fresh_of_careful`).
-/

namespace OcuFilestore.Ocufs

open Brokerrpc

/-! ## what a call writes back -/

/-- What `update` writes after an upload of `n` bytes. -/
def clearUUID (n : Int) (m : Meta) : Meta := { m with uuid := "", size := n }

/-- The write that follows a metadata lookup: the fields of a file. -/
def metadataWriteBack : Except Err ReadMetadataResponse → Option (Meta → Meta)
  | .ok resp =>
      match classifyReadMetadata resp with
      | .file => some fun _ => .ofFile resp.file
      | .directory => none
      | .absent => none
  | .error _ => none

/-- The write that follows an upload of `n` bytes. -/
def uploadWriteBack (n : Int) : Except Err Unit → Option (Meta → Meta)
  | .ok () => some (clearUUID n)
  | .error _ => none

/-- The write that follows a round trip, if one does. -/
def writeBack : (w : Wire) → w.Reply → Option (Meta → Meta)
  | ⟨_, .readMetadata _⟩, x => metadataWriteBack (callResult .readMetadata x)
  | ⟨_, .fileUpload q⟩, x => uploadWriteBack q.declaredSizeBytes (uploadResult x)
  | ⟨_, .listDirectory _⟩, _ => none
  | ⟨_, .ack _⟩, _ => none
  | ⟨_, .fileDownload _⟩, _ => none

/-- A program whose writes are the ones its round trips call for: `none`
when no write is due, `some g` when the next effect is the write `g`. -/
def Proto {α : Type} : Option (Meta → Meta) → FsProg α → Prop
  | none, .ret _ => True
  | none, .op .peek k => ∀ m, Proto none (k m)
  | none, .op (.send w) k => ∀ r, Proto (writeBack w r) (k r)
  | none, .op (.poke _) _ => False
  | some g, .op (.poke g') k => g' = g ∧ Proto none (k ())
  | some _, _ => False

/-- Sequencing, when no write is due in between. -/
theorem Proto.bind {α β : Type} {due : Option (Meta → Meta)} {p : FsProg α} {f : α → FsProg β}
    (hp : Proto due p) (hf : ∀ a, Proto none (f a)) : Proto due (p >>= f) := by
  induction p generalizing due with
  | ret a =>
      cases due with
      | none => exact hf a
      | some g => exact False.elim hp
  | op e k ih =>
      cases due with
      | none =>
          cases e with
          | peek => exact fun m => ih m (hp m)
          | send w => exact fun r => ih r (hp r)
          | poke g => exact False.elim hp
      | some g =>
          cases e with
          | poke g' => exact ⟨hp.1, ih () hp.2⟩
          | peek => exact False.elim hp
          | send w => exact False.elim hp

/-- A metadata read may leave its answer to be written back. -/
theorem proto_send_readMetadata {α : Type} {c : Client} {path : Path}
    {f : Except Err ReadMetadataResponse → FsProg α}
    (h : ∀ r, Proto (metadataWriteBack r) (f r)) :
    Proto none (send (c.readMetadata path) >>= f) := by
  rw [Client.readMetadata, Client.stamped_eq]
  exact fun x => h (callResult .readMetadata x)

/-- So may an upload. -/
theorem proto_send_upload {α : Type} {c : Client} {path : Path} {n : Int} {overwrite : Bool}
    {f : Except Err Unit → FsProg α} (h : ∀ r, Proto (uploadWriteBack n r) (f r)) :
    Proto none (send (c.upload path n overwrite) >>= f) := by
  rw [Client.upload, Client.stamped_eq]
  exact fun x => h (uploadResult x)

section Methods

variable {o : Object}

theorem proto_resolve : Proto none o.resolve := by
  unfold Object.resolve
  rw [peek_bind]
  intro m
  dsimp only
  split
  · trivial
  · refine proto_send_readMetadata fun r => ?_
    cases r with
    | error e =>
        dsimp only [metadataWriteBack]
        split <;> trivial
    | ok resp =>
        dsimp only [metadataWriteBack]
        cases classifyReadMetadata resp with
        | file => exact ⟨rfl, trivial⟩
        | directory => trivial
        | absent => trivial

/-- An accessor writes back what it resolved, at once. -/
theorem proto_getter {α : Type} (unresolved : Meta → Bool) (field : Meta → α) :
    Proto none (o.getter unresolved field) := by
  unfold Object.getter
  rw [peek_bind]
  intro m
  dsimp only
  split
  · exact proto_resolve.bind fun _ => fun _ => trivial
  · exact fun _ => trivial

/-- An update writes back what it uploaded, at once. -/
theorem proto_update (n : Int) : Proto none (o.update n) := by
  unfold Object.update
  split
  · trivial
  · refine proto_send_upload fun r => ?_
    cases r with
    | error e => trivial
    | ok u => exact ⟨rfl, trivial⟩

theorem proto_download {c : Client} {fsID uuid : String} {am : AuthorizationMetadata}
    {rng : Option Range} {limit : Int} :
    Proto none (send (c.doDownload fsID uuid am rng limit)) := fun _ => trivial

/-- So does an open what it resolved. -/
theorem proto_open (options : List OpenOption) : Proto none (o.open options) := by
  unfold Object.open
  refine proto_resolve.bind fun r => ?_
  split
  · trivial
  · rw [peek_bind]
    intro m
    dsimp only
    split
    · trivial
    · split
      · trivial
      · split
        · rw [Client.download, Client.stamped_eq]
          exact proto_download
        · unfold Client.downloadRange
          split
          · trivial
          · split
            · trivial
            · split
              · trivial
              · rw [Client.stamped_eq]
                exact proto_download

end Methods

/-- The calls on one object that read or write its guarded fields. -/
inductive OnObject (o : Object) : Call → Prop
  | openObject (options : List OpenOption) : OnObject o (.openObject o options)
  | size : OnObject o (.size o)
  | modTime : OnObject o (.modTime o)
  | mimeType : OnObject o (.mimeType o)
  | update (n : Int) : OnObject o (.update o n)

/-- Every call on an object follows the protocol of its cell. -/
theorem proto_prog {o : Object} {call : Call} (h : OnObject o call) : Proto none call.prog := by
  cases h with
  | openObject options => exact (proto_open options).bind fun _ => trivial
  | size => exact (proto_getter _ _).bind fun _ => trivial
  | modTime => exact (proto_getter _ _).bind fun _ => trivial
  | mimeType => exact (proto_getter _ _).bind fun _ => trivial
  | update n => exact (proto_update n).bind fun _ => trivial

/-! ## the object and the broker -/

/-- A call in progress. -/
structure Thread where
  call : Call
  rest : FsProg Outcome

/-- The object, the broker and the calls in progress. -/
structure Shared where
  fields : Meta
  /-- What the broker has at the object's path. -/
  file : File
  /-- The uuids the broker has given out. -/
  used : List String
  /-- The last committed upload. -/
  last : Option File
  threads : List Thread
  /-- An `Update` has returned without an error. -/
  updated : Bool

/-- A call between its round trip and its locked write. -/
def AtPoke {α : Type} : FsProg α → Prop
  | .op (.poke _) _ => True
  | _ => False

/-- The call is an update that succeeded. -/
def succeeded : Call → Outcome → Bool
  | .update _ _, out => out.err.isNone
  | _, _ => false

/-- One step.  The broker serves metadata from its state at that instant, or
the request fails; it commits an upload under a fresh uuid, with any reply,
or turns it down and reports no success.  Which commits may happen is
restricted by `ok`, on the state before it, the call and the reply. -/
inductive ObjectStep (o : Object) (ok : Shared → Nat → UploadExchange → Prop) :
    Shared → Shared → Prop
  | start {s : Shared} {call : Call} (h : OnObject o call) :
      ObjectStep o ok s { s with threads := s.threads ++ [⟨call, call.prog⟩] }
  | served {s : Shared} {i : Nat} {call : Call} {c : Client} {q : ReadMetadataRequest}
      {k : Exchange (Except Err ReadMetadataResponse) → FsProg Outcome}
      (h : s.threads[i]? = some ⟨call, .op (.send ⟨c, .readMetadata q⟩) k⟩)
      (x : Exchange (Except Err ReadMetadataResponse))
      (hx : callResult .readMetadata x = .ok ⟨s.file, ⟨[], "", ""⟩⟩) :
      ObjectStep o ok s { s with threads := s.threads.set i ⟨call, k x⟩ }
  | metadataFailed {s : Shared} {i : Nat} {call : Call} {c : Client} {q : ReadMetadataRequest}
      {k : Exchange (Except Err ReadMetadataResponse) → FsProg Outcome}
      (h : s.threads[i]? = some ⟨call, .op (.send ⟨c, .readMetadata q⟩) k⟩)
      (x : Exchange (Except Err ReadMetadataResponse)) {e : Err}
      (hx : callResult .readMetadata x = .error e) :
      ObjectStep o ok s { s with threads := s.threads.set i ⟨call, k x⟩ }
  | committed {s : Shared} {i : Nat} {call : Call} {c : Client} {q : FileUploadRequest}
      {k : UploadExchange → FsProg Outcome}
      (h : s.threads[i]? = some ⟨call, .op (.send ⟨c, .fileUpload q⟩) k⟩)
      {f : File} (hsize : f.size = q.declaredSizeBytes) (hne : f.uuid ≠ "")
      (hfresh : f.uuid ∉ s.used) {x : UploadExchange} (hok : ok s i x) :
      ObjectStep o ok s
        { s with file := f, used := f.uuid :: s.used, last := some f,
                 threads := s.threads.set i ⟨call, k x⟩ }
  | turnedDown {s : Shared} {i : Nat} {call : Call} {c : Client} {q : FileUploadRequest}
      {k : UploadExchange → FsProg Outcome}
      (h : s.threads[i]? = some ⟨call, .op (.send ⟨c, .fileUpload q⟩) k⟩)
      (x : UploadExchange) {e : Err} (hx : uploadResult x = .error e) :
      ObjectStep o ok s { s with threads := s.threads.set i ⟨call, k x⟩ }
  | downloaded {s : Shared} {i : Nat} {call : Call} {c : Client} {q : FileDownloadRequest}
      {k : Exchange Unit → FsProg Outcome}
      (h : s.threads[i]? = some ⟨call, .op (.send ⟨c, .fileDownload q⟩) k⟩) (x : Exchange Unit) :
      ObjectStep o ok s { s with threads := s.threads.set i ⟨call, k x⟩ }
  | peeked {s : Shared} {i : Nat} {call : Call} {k : Meta → FsProg Outcome}
      (h : s.threads[i]? = some ⟨call, .op .peek k⟩) :
      ObjectStep o ok s { s with threads := s.threads.set i ⟨call, k s.fields⟩ }
  | poked {s : Shared} {i : Nat} {call : Call} {g : Meta → Meta} {k : Unit → FsProg Outcome}
      (h : s.threads[i]? = some ⟨call, .op (.poke g) k⟩) :
      ObjectStep o ok s { s with fields := g s.fields, threads := s.threads.set i ⟨call, k ()⟩ }
  | finished {s : Shared} {i : Nat} {call : Call} {out : Outcome}
      (h : s.threads[i]? = some ⟨call, .ret out⟩) :
      ObjectStep o ok s { s with threads := s.threads.eraseIdx i,
                                 updated := s.updated || succeeded call out }

/-- The runs of calls on the object `o`, from any fields and any file. -/
def objectRuns (o : Object) (ok : Shared → Nat → UploadExchange → Prop) : System Shared where
  init s := s.threads = [] ∧ s.last = none ∧ s.updated = false ∧ s.file.uuid ∈ s.used
  step := ObjectStep o ok

/-- No call in progress and an update behind us: the fields are those of the
last committed upload, or the uuid is to be looked up again. -/
def Fresh (s : Shared) : Prop :=
  s.threads = [] → s.updated = true →
    ∃ f, s.last = some f ∧ (s.fields.uuid = "" ∨ s.fields.uuid = f.uuid) ∧
      s.fields.size = f.size

/-! ## success is reported after a commit only -/

/-- The call does not count as a successful update before one of its uploads
is reported as a success. -/
def NeedsUpload (call : Call) : FsProg Outcome → Prop
  | .ret out => succeeded call out = false
  | .op (.send ⟨_, .fileUpload _⟩) k => ∀ x e, uploadResult x = .error e → NeedsUpload call (k x)
  | .op _ k => ∀ r, NeedsUpload call (k r)

theorem needsUpload_of_never {call : Call} (h : ∀ out, succeeded call out = false)
    (p : FsProg Outcome) : NeedsUpload call p := by
  induction p with
  | ret out => exact h out
  | op e k ih =>
      cases e with
      | send w =>
          obtain ⟨c, q⟩ := w
          cases q with
          | fileUpload q => exact fun x _ _ => ih x
          | listDirectory q => exact fun r => ih r
          | readMetadata q => exact fun r => ih r
          | ack q => exact fun r => ih r
          | fileDownload q => exact fun r => ih r
      | peek => exact fun r => ih r
      | poke g => exact fun r => ih r

theorem needsUpload_send_upload {call : Call} {c : Client} {path : Path} {n : Int}
    {overwrite : Bool} {f : Except Err Unit → FsProg Outcome}
    (h : ∀ e, NeedsUpload call (f (.error e))) :
    NeedsUpload call (send (c.upload path n overwrite) >>= f) := by
  rw [Client.upload, Client.stamped_eq]
  intro x e hx
  show NeedsUpload call (f (uploadResult x))
  rw [hx]
  exact h e

/-- No call succeeds as an update before an upload of it was reported as a
success. -/
theorem needsUpload_prog {o : Object} {call : Call} (h : OnObject o call) :
    NeedsUpload call call.prog := by
  cases h with
  | openObject options => exact needsUpload_of_never (fun _ => rfl) _
  | size => exact needsUpload_of_never (fun _ => rfl) _
  | modTime => exact needsUpload_of_never (fun _ => rfl) _
  | mimeType => exact needsUpload_of_never (fun _ => rfl) _
  | update n =>
      unfold Call.prog Object.update
      dsimp only
      split
      · rfl
      · rw [Prog.bind_assoc]
        exact needsUpload_send_upload fun e => rfl

/-! ## the careful runs -/

/-- A commit that meets no call on its way to a write-back, and that is
reported as a success. -/
structure Careful (s : Shared) (i : Nat) (x : UploadExchange) : Prop where
  alone : ∀ j t, j ≠ i → s.threads[j]? = some t → ¬ AtPoke t.rest
  reported : uploadResult x = .ok ()

/-- Fields that are those of the file, or that ask for a new lookup. -/
def FieldsOf (f : File) (m : Meta) : Prop := (m.uuid = "" ∨ m.uuid = f.uuid) ∧ m.size = f.size

theorem fieldsOf_ofFile (f : File) : FieldsOf f (.ofFile f) := ⟨Or.inr rfl, rfl⟩

theorem fieldsOf_clearUUID {f : File} {n : Int} (h : f.size = n) (m : Meta) :
    FieldsOf f (clearUUID n m) := ⟨Or.inl rfl, h.symm⟩

/-- What holds of a call in progress. -/
structure Thread.Ok (last : Option File) (t : Thread) : Prop where
  proto : ∃ due, Proto due t.rest
  success : last = none → NeedsUpload t.call t.rest
  /-- A write that is still to come writes fields of the last upload. -/
  pending : ∀ f, last = some f → ∀ g k, t.rest = .op (.poke g) k → ∀ m, FieldsOf f (g m)

/-- What holds along the careful runs. -/
structure Shared.Inv (s : Shared) : Prop where
  threads : ∀ t ∈ s.threads, t.Ok s.last
  served : ∀ f, s.last = some f → s.file = f
  settled : ∀ f, s.last = some f → FieldsOf f s.fields ∨ ∃ t ∈ s.threads, AtPoke t.rest
  updated : s.updated = true → s.last ≠ none

theorem atPoke_iff {α : Type} {p : FsProg α} : AtPoke p ↔ ∃ g k, p = .op (.poke g) k := by
  cases p with
  | ret a => simp [AtPoke]
  | op e k => cases e <;> simp [AtPoke]

/-- Where a write is due, the program stands at it. -/
theorem Proto.eq_poke {α : Type} {g : Meta → Meta} {p : FsProg α} (h : Proto (some g) p) :
    ∃ k, p = .op (.poke g) k := by
  cases p with
  | ret a => exact False.elim h
  | op e k =>
      cases e with
      | poke g' => exact ⟨k, by rw [h.1]⟩
      | peek => exact False.elim h
      | send w => exact False.elim h

/-- Where no write is due, the program does not stand at one. -/
theorem Proto.not_atPoke {α : Type} {p : FsProg α} (h : Proto none p) : ¬ AtPoke p := by
  rw [atPoke_iff]
  rintro ⟨g, k, rfl⟩
  exact h

theorem Proto.of_send {α : Type} {due : Option (Meta → Meta)} {w : Wire}
    {k : w.Reply → FsProg α} (h : Proto due (.op (.send w) k)) (r : w.Reply) :
    Proto (writeBack w r) (k r) := by
  cases due with
  | none => exact h r
  | some g => exact False.elim h

theorem Proto.of_peek {α : Type} {due : Option (Meta → Meta)} {k : Meta → FsProg α}
    (h : Proto due (.op .peek k)) (m : Meta) : Proto none (k m) := by
  cases due with
  | none => exact h m
  | some g => exact False.elim h

theorem Proto.of_poke {α : Type} {due : Option (Meta → Meta)} {g : Meta → Meta}
    {k : Unit → FsProg α} (h : Proto due (.op (.poke g) k)) : Proto none (k ()) := by
  cases due with
  | none => exact False.elim h
  | some g' => exact h.2

section Steps

variable {s : Shared} {i : Nat} {t t' : Thread}

/-- A thread that moves on without a write being due. -/
theorem Thread.ok_of_steady {last : Option File} {call : Call} {p : FsProg Outcome}
    (hp : Proto none p) (hs : last = none → NeedsUpload call p) : Thread.Ok last ⟨call, p⟩ := by
  refine ⟨⟨none, hp⟩, hs, fun f _ g k hk => ?_⟩
  have hat : AtPoke p := atPoke_iff.mpr ⟨g, k, hk⟩
  exact absurd hat hp.not_atPoke

/-- A thread that is to write next. -/
theorem Thread.ok_of_due {last : Option File} {call : Call} {p : FsProg Outcome} {g : Meta → Meta}
    (hp : Proto (some g) p) (hs : last = none → NeedsUpload call p)
    (hg : ∀ f, last = some f → ∀ m, FieldsOf f (g m)) : Thread.Ok last ⟨call, p⟩ := by
  refine ⟨⟨some g, hp⟩, hs, fun f hf g' k hk => ?_⟩
  obtain ⟨k', hk'⟩ := hp.eq_poke
  have heq : (.op (.poke g') k : FsProg Outcome) = .op (.poke g) k' := hk.symm.trans hk'
  cases heq
  exact hg f hf

theorem ok_set (h : ∀ t ∈ s.threads, t.Ok s.last) (ht' : t'.Ok s.last) :
    ∀ t ∈ s.threads.set i t', t.Ok s.last := by
  intro t ht
  rcases List.mem_or_eq_of_mem_set ht with ht | rfl
  · exact h t ht
  · exact ht'

/-- A pending write stays pending while another call moves. -/
theorem atPoke_set (hi : s.threads[i]? = some t) (hn : ¬ AtPoke t.rest)
    (h : ∃ u ∈ s.threads, AtPoke u.rest) : ∃ u ∈ s.threads.set i t', AtPoke u.rest := by
  obtain ⟨u, hu, hat⟩ := h
  obtain ⟨j, hj⟩ := List.mem_iff_getElem?.mp hu
  have hij : i ≠ j := by
    rintro rfl
    rw [hi] at hj
    exact hn (Option.some.inj hj ▸ hat)
  refine ⟨u, List.mem_iff_getElem?.mpr ⟨j, ?_⟩, hat⟩
  rw [List.getElem?_set_ne hij, hj]

end Steps

namespace Shared.Inv

variable {s s' : Shared}

theorem of_get (inv : s.Inv) {i : Nat} {t : Thread} (h : s.threads[i]? = some t) : t.Ok s.last :=
  inv.threads t (List.mem_of_getElem? h)

/-- A call that is not at a write moves on; only the threads change. -/
theorem set (inv : s.Inv) {i : Nat} {t t' : Thread} (hi : s.threads[i]? = some t)
    (hn : ¬ AtPoke t.rest) (ht' : t'.Ok s.last) :
    Inv { s with threads := s.threads.set i t' } where
  threads := ok_set inv.threads ht'
  served := inv.served
  settled f hf := by
    rcases inv.settled f hf with h | h
    · exact Or.inl h
    · exact Or.inr (atPoke_set hi hn h)
  updated := inv.updated

/-- The step at the heart of it: a commit that nobody is about to overwrite. -/
theorem committed (inv : s.Inv) {i : Nat} {call : Call} {c : Client} {q : FileUploadRequest}
    {k : UploadExchange → FsProg Outcome}
    (hi : s.threads[i]? = some ⟨call, .op (.send ⟨c, .fileUpload q⟩) k⟩) {f : File}
    (hsize : f.size = q.declaredSizeBytes) {x : UploadExchange} (hcare : Careful s i x) :
    Inv { s with file := f, used := f.uuid :: s.used, last := some f,
                 threads := s.threads.set i ⟨call, k x⟩ } := by
  obtain ⟨due, hdue⟩ := (inv.of_get hi).proto
  have hwb : writeBack ⟨c, .fileUpload q⟩ x = some (clearUUID q.declaredSizeBytes) := by
    simp only [writeBack, hcare.reported, uploadWriteBack]
  have hk : Proto (some (clearUUID q.declaredSizeBytes)) (k x) := by
    have h := hdue.of_send x
    rwa [hwb] at h
  have hok : Thread.Ok (some f) ⟨call, k x⟩ := by
    refine Thread.ok_of_due hk nofun fun f' hf' m => ?_
    cases hf'
    exact fieldsOf_clearUUID hsize m
  have hmem : (⟨call, k x⟩ : Thread) ∈ s.threads.set i ⟨call, k x⟩ := by
    have hlen := (List.getElem?_eq_some_iff.mp hi).1
    exact List.mem_iff_getElem?.mpr ⟨i, by simp [hlen]⟩
  refine ⟨fun t ht => ?_, fun f' hf' => Option.some.inj hf', fun f' _ => Or.inr ⟨_, hmem, ?_⟩,
    fun _ => nofun⟩
  · obtain ⟨j, hj⟩ := List.mem_iff_getElem?.mp ht
    by_cases hij : i = j
    · subst hij
      have hlen := (List.getElem?_eq_some_iff.mp hi).1
      rw [List.getElem?_set_self hlen] at hj
      cases hj
      exact hok
    · -- the other calls are not at a write
      rw [List.getElem?_set_ne hij] at hj
      have hn := hcare.alone j t (Ne.symm hij) hj
      obtain ⟨hp, -, -⟩ := inv.of_get hj
      refine ⟨hp, nofun, fun f' _ g k' hk' => ?_⟩
      exact absurd (atPoke_iff.mpr ⟨g, k', hk'⟩) hn
  · obtain ⟨k', hk'⟩ := hk.eq_poke
    exact atPoke_iff.mpr ⟨_, k', hk'⟩

/-- A careful step keeps the invariant. -/
theorem step {o : Object} (inv : s.Inv) (h : ObjectStep o Careful s s') : s'.Inv := by
  cases h with
  | start h =>
      have hnew : Thread.Ok s.last ⟨_, _⟩ :=
        Thread.ok_of_steady (proto_prog h) fun _ => needsUpload_prog h
      refine ⟨fun t ht => ?_, inv.served, fun f hf => ?_, inv.updated⟩
      · rcases List.mem_append.mp ht with ht | ht
        · exact inv.threads t ht
        · rw [List.mem_singleton.mp ht]
          exact hnew
      · rcases inv.settled f hf with h | ⟨t, ht, hat⟩
        · exact Or.inl h
        · exact Or.inr ⟨t, List.mem_append_left _ ht, hat⟩
  | served hi x hx =>
      obtain ⟨⟨due, hdue⟩, hneeds, -⟩ := inv.of_get hi
      refine inv.set hi (fun h => h) ?_
      have hk := hdue.of_send x
      simp only [writeBack, hx, metadataWriteBack] at hk
      split at hk
      · refine Thread.ok_of_due hk (fun hl => hneeds hl _) fun f hf m => ?_
        rw [inv.served f hf]
        exact fieldsOf_ofFile f
      · exact Thread.ok_of_steady hk fun hl => hneeds hl _
      · exact Thread.ok_of_steady hk fun hl => hneeds hl _
  | metadataFailed hi x hx =>
      obtain ⟨⟨due, hdue⟩, hneeds, -⟩ := inv.of_get hi
      refine inv.set hi (fun h => h) ?_
      have hk := hdue.of_send x
      simp only [writeBack, hx, metadataWriteBack] at hk
      exact Thread.ok_of_steady hk fun hl => hneeds hl _
  | committed hi hsize hne hfresh hok => exact inv.committed hi hsize hok
  | turnedDown hi x hx =>
      obtain ⟨⟨due, hdue⟩, hneeds, -⟩ := inv.of_get hi
      refine inv.set hi (fun h => h) ?_
      have hk := hdue.of_send x
      simp only [writeBack, hx, uploadWriteBack] at hk
      exact Thread.ok_of_steady hk fun hl => hneeds hl _ _ hx
  | downloaded hi x =>
      obtain ⟨⟨due, hdue⟩, hneeds, -⟩ := inv.of_get hi
      refine inv.set hi (fun h => h) ?_
      exact Thread.ok_of_steady (hdue.of_send x) fun hl => hneeds hl x
  | peeked hi =>
      obtain ⟨⟨due, hdue⟩, hneeds, -⟩ := inv.of_get hi
      refine inv.set hi (fun h => h) ?_
      exact Thread.ok_of_steady (hdue.of_peek _) fun hl => hneeds hl _
  | poked hi =>
      obtain ⟨⟨due, hdue⟩, hneeds, hpend⟩ := inv.of_get hi
      have hok := Thread.ok_of_steady hdue.of_poke fun hl => hneeds hl ()
      refine ⟨ok_set inv.threads hok, inv.served, fun f hf => Or.inl ?_, inv.updated⟩
      exact hpend f hf _ _ rfl _
  | finished hi =>
      obtain ⟨-, hneeds, -⟩ := inv.of_get hi
      refine ⟨fun t ht => inv.threads t (List.mem_of_mem_eraseIdx ht), inv.served, fun f hf => ?_,
        fun hup hl => ?_⟩
      · rcases inv.settled f hf with h | ⟨t, ht, hat⟩
        · exact Or.inl h
        · obtain ⟨j, hj⟩ := List.mem_iff_getElem?.mp ht
          refine Or.inr ⟨t, List.mem_eraseIdx_iff_getElem?.mpr ⟨j, ?_, hj⟩, hat⟩
          rintro rfl
          rw [hi] at hj
          cases hj
          exact hat
      · have hs := hneeds hl
        simp only [NeedsUpload] at hs
        simp only [hs, Bool.or_false] at hup
        exact inv.updated hup hl

end Shared.Inv

/-- **No stale metadata in careful runs**: when no commit meets a call on its
way to a write-back and every commit is reported, an object at rest after an
update has the fields of the last upload. -/
theorem fresh_of_careful (o : Object) {s : Shared} (h : (objectRuns o Careful).Reachable s) :
    Fresh s := by
  have inv : s.Inv := by
    refine h.invariant (fun s hs => ?_) fun _ _ _ inv hs => inv.step hs
    obtain ⟨ht, hl, hu, -⟩ := hs
    refine ⟨by simp [ht], by simp [hl], by simp [hl], by simp [hu]⟩
  intro ht hu
  cases hl : s.last with
  | none => exact absurd hl (inv.updated hu)
  | some f =>
      rcases inv.settled f hl with h | ⟨t, hmem, -⟩
      · exact ⟨f, rfl, h.1, h.2⟩
      · rw [ht] at hmem
        cases hmem

/-! ## runs of an update -/

/-- What is left of an update after its upload. -/
def updateRest (o : Object) (n : Int) : Except Err Unit → FsProg Outcome
  | .error e =>
      .ret ⟨[], some (.wrap [.lit "ocufs: Update ", .quoted o.path, .lit ": "]
        (mapBrokerError e) [])⟩
  | .ok () => .op (.poke (clearUUID n)) fun _ => .ret ⟨[], none⟩

/-- The request an update sends. -/
def uploadRequest (o : Object) (n : Int) : FileUploadRequest :=
  ⟨o.fs.client.fsID, o.path, n, true, Client.authMeta .fileUpload⟩

theorem update_prog (o : Object) (n : Int) (h : o.fs.readOnly = false) :
    (Call.update o n).prog = .op (.send ⟨o.fs.client, .fileUpload (uploadRequest o n)⟩)
      fun x => updateRest o n (uploadResult x) := by
  have hrest : ∀ r : Except Err Unit, ((match r with
        | .error e => pure (.error (.wrap [.lit "ocufs: Update ", .quoted o.path, .lit ": "]
            (mapBrokerError e) []))
        | .ok () => do
            poke fun m => { m with uuid := "", size := n }
            pure (.ok ()) : FsProg (Except Err Unit)) >>=
          fun r => pure (Outcome.of (fun _ => []) r)) = updateRest o n r := by
    intro r
    cases r <;> rfl
  unfold Call.prog Object.update
  simp only [h, Bool.false_eq_true, if_false]
  rw [Prog.bind_assoc, Client.upload, Client.stamped_eq]
  refine congrArg (Prog.op _) (funext fun x => ?_)
  exact hrest (uploadResult x)

/-- The file at the path before the update, and the one after it. -/
def oldFile : File := ⟨"/srv/a".toList, 1, "t1", "", "", "", "u1"⟩

def newFile : File := ⟨"/srv/a".toList, 2, "t2", "", "", "", "u2"⟩

/-- An object known from an acknowledgement only, at rest. -/
def atRest : Shared := ⟨.ofSize 0, oldFile, ["u1"], none, [], false⟩

/-- From any state, an update can run from its start to its end. -/
theorem reachable_update {o : Object} {ok : Shared → Nat → UploadExchange → Prop} {s : Shared}
    (h : (objectRuns o ok).Reachable s) (hrw : o.fs.readOnly = false) {f : File}
    (hne : f.uuid ≠ "") (hfresh : f.uuid ∉ s.used)
    (hok : ok { s with threads := s.threads ++ [⟨.update o f.size, (Call.update o f.size).prog⟩] }
      s.threads.length accepted) :
    (objectRuns o ok).Reachable
      { s with fields := clearUUID f.size s.fields, file := f, used := f.uuid :: s.used,
               last := some f, updated := true } := by
  have hget : ∀ t : Thread, (s.threads ++ [t])[s.threads.length]? = some t := by simp
  have hset : ∀ t t' : Thread, (s.threads ++ [t]).set s.threads.length t' = s.threads ++ [t'] := by
    simp
  have herase : ∀ t : Thread, (s.threads ++ [t]).eraseIdx s.threads.length = s.threads := by
    simp [List.eraseIdx_append_of_length_le]
  have h₁ := h.step (.start (.update f.size))
  rw [update_prog o f.size hrw] at h₁ hok
  have h₂ := h₁.step (.committed (s := { s with threads := s.threads ++ [_] }) (hget _) rfl hne
    hfresh hok)
  simp only [hset, uploadResult_accepted] at h₂
  have h₃ := h₂.step (.poked (hget _))
  simp only [hset] at h₃
  have h₄ := h₃.step (.finished (hget _))
  simp only [herase] at h₄
  simpa [succeeded] using h₄

theorem reachable_atRest (ok : Shared → Nat → UploadExchange → Prop) :
    (objectRuns srvObject ok).Reachable atRest := .init ⟨rfl, rfl, rfl, by decide⟩

theorem fresh_of_careful_update :
    ∃ s, (objectRuns srvObject Careful).Reachable s ∧ s.threads = [] ∧ s.updated = true ∧
      ∃ f, s.last = some f ∧ s.fields.size = f.size := by
  have hcare : Careful
      { atRest with
        threads := [⟨.update srvObject 2, (Call.update srvObject 2).prog⟩] } 0 accepted := by
    refine ⟨fun j t hj ht => ?_, uploadResult_accepted⟩
    have hnone :
        ([⟨.update srvObject 2, (Call.update srvObject 2).prog⟩] : List Thread)[j]? = none := by
      simp
      omega
    rw [hnone] at ht
    cases ht
  have h := reachable_update (f := newFile) (reachable_atRest Careful) rfl (by decide) (by decide)
    hcare
  obtain ⟨f, hf, -, hsize⟩ := fresh_of_careful srvObject h rfl rfl
  exact ⟨_, h, rfl, rfl, f, hf, hsize⟩

/-- A lookup that reads the old file before an update and writes it back
after it: the object at rest has the uuid and the size of the old file. -/
theorem stale_after_update :
    ∃ s, (objectRuns srvObject fun _ _ _ => True).Reachable s ∧ ¬ Fresh s := by
  have h₀ := reachable_atRest fun _ _ _ => True
  have h₁ := h₀.step (.start .modTime)
  -- the two checks of the uuid, and the lookup
  have h₂ := h₁.step (.peeked (i := 0) rfl)
  have h₃ := h₂.step (.peeked (i := 0) rfl)
  have h₄ := h₃.step (.served (i := 0) rfl (.replied respOk (.ok ⟨oldFile, ⟨[], "", ""⟩⟩)) rfl)
  have h₅ := reachable_update (f := newFile) h₄ rfl (by decide) (by decide) trivial
  have h₆ := h₅.step (.poked (i := 0) rfl)
  have h₇ := h₆.step (.peeked (i := 0) rfl)
  have h₈ := h₇.step (.finished (i := 0) rfl)
  refine ⟨_, h₈, fun hfresh => ?_⟩
  obtain ⟨f, hf, -, hsize⟩ := hfresh rfl rfl
  cases hf
  exact absurd hsize (by decide)

end OcuFilestore.Ocufs
