import Mathlib.Logic.Function.Basic
import OcuFilestore.Lib.Environment
import OcuFilestore.Ocufs.Session

/-!
# OcuFilestore.Ocufs.Sizes

The sizes that objects report, over whole histories of calls against a broker
that keeps files.

The broker is a map from paths to byte counts.  It commits an upload only with
the declared number of bytes, keeps the count on copy and move, tells the
truth in listings and metadata, and may fail any request (`Fulfils`).  It may
also carry out a request whose caller is told that it failed; `kept` is the
broker without that freedom.

Each method has a lemma of the form `ensures_…`: from a state in which the
object's size agrees with the broker's, the run ends in such a state, and so
do the objects it hands out.
-/

namespace OcuFilestore.Ocufs

open Brokerrpc Prog

/-! ## the broker's files -/

/-- A path of a file system of the broker. -/
abbrev Key := String × Path

/-- The byte count of each file. -/
abbrev Files := Key → Option Nat

def Object.key (o : Object) : Key := (o.fs.client.fsID, o.path)

/-- What carrying out a request does to the files; `none` if it cannot be
carried out.  The directory requests are left out: no call of a history
sends them. -/
def effect (files : Files) : Request → Option Files
  | .ack (.copyFile q) => (files (q.filesystemID, q.source)).map fun n =>
      Function.update files (q.filesystemID, q.destination) (some n)
  | .ack (.moveFile q) => (files (q.filesystemID, q.source)).map fun n =>
      Function.update (Function.update files (q.filesystemID, q.source) none)
        (q.filesystemID, q.destination) (some n)
  | .ack (.removeFile q) => some (Function.update files (q.filesystemID, q.path) none)
  | .fileUpload q =>
      match q.declaredSizeBytes with
      | .ofNat n => some (Function.update files (q.filesystemID, q.path) (some n))
      | .negSucc _ => none
  | .ack _ | .listDirectory _ | .readMetadata _ | .fileDownload _ => some files

/-- The caller is told that the request succeeded. -/
def acknowledged : (q : Request) → q.Reply → Bool
  | .listDirectory _, x => (callResult .listDirectory x).isOk
  | .readMetadata _, x => (callResult .readMetadata x).isOk
  | .ack r, x => (callResult r.op x).isOk
  | .fileUpload _, x => (uploadResult x).isOk
  | .fileDownload _, x => (Exchange.refusal x).isNone

/-- Sizes in listings and metadata are those of the files. -/
def Truthful (files : Files) : (q : Request) → q.Reply → Prop
  | .listDirectory q, x => ∀ resp, callResult .listDirectory x = .ok resp →
      ∀ entry ∈ resp.entries, ∀ ff, entry.file = some ff →
        ∃ n : Nat, files (q.filesystemID, cleanPath ff.path) = some n ∧ ff.size = n
  | .readMetadata q, x => ∀ resp, callResult .readMetadata x = .ok resp →
      classifyReadMetadata resp = .file →
        ∃ n : Nat, files (q.filesystemID, q.path) = some n ∧ resp.file.size = n
  | .ack _, _ | .fileUpload _, _ | .fileDownload _, _ => True

/-- The broker: a request takes effect as a whole or not at all, and does if
it is acknowledged. -/
structure Fulfils (files : Files) (q : Request) (r : q.Reply) (files' : Files) : Prop where
  effect : files' = files ∨ effect files q = some files'
  done : acknowledged q r = true → Ocufs.effect files q = some files'
  truthful : Truthful files q r

/-- The broker's files, and the guarded fields of the object a call works on. -/
structure World where
  files : Files
  cell : Meta

/-- A call alone with the broker. -/
def broker : Env Eff.Reply World
  | s, .send w, r, s' => Fulfils s.files w.req r s'.files ∧ s'.cell = s.cell
  | s, .peek, m, s' => m = s.cell ∧ s' = s
  | s, .poke g, _, s' => s' = { s with cell := g s.cell }

/-- The runs in which no request took effect that its caller was told had
failed. -/
def kept : Env Eff.Reply World
  | s, .send w, r, s' =>
      broker s (.send w) r s' ∧ (acknowledged w.req r = false → s'.files = s.files)
  | s, .peek, m, s' => broker s .peek m s'
  | s, .poke g, u, s' => broker s (.poke g) u s'

/-- One request of a kept run: it is acknowledged and takes effect, or
nothing happens. -/
theorem kept_send {s s' : World} {w : Wire} {r : w.Reply} (h : kept s (.send w) r s') :
    s'.cell = s.cell ∧ Truthful s.files w.req r ∧
      if acknowledged w.req r then effect s.files w.req = some s'.files
      else s'.files = s.files := by
  obtain ⟨⟨hs, hcell⟩, hfail⟩ := h
  refine ⟨hcell, hs.truthful, ?_⟩
  split
  · next ha => exact hs.done ha
  · next ha => exact hfail (Bool.eq_false_iff.mpr ha)

/-- An acknowledged request that had its effect is one the broker kept. -/
theorem kept_of_acknowledged {s s' : World} {w : Wire} {r : w.Reply}
    (hack : acknowledged w.req r = true) (heff : effect s.files w.req = some s'.files)
    (htrue : Truthful s.files w.req r) (hcell : s'.cell = s.cell) : kept s (.send w) r s' :=
  ⟨⟨⟨Or.inr heff, fun _ => heff, htrue⟩, hcell⟩,
    fun h => absurd (hack.symm.trans h) Bool.false_ne_true.symm⟩

/-- A request that only reads leaves everything as it was. -/
theorem kept_send_read {s s' : World} {w : Wire} {r : w.Reply} (h : kept s (.send w) r s')
    (hread : effect s.files w.req = some s.files) : s' = s ∧ Truthful s.files w.req r := by
  obtain ⟨hcell, htrue, hfiles⟩ := kept_send h
  have hsame : s'.files = s.files := by
    split at hfiles
    · exact (Option.some.inj (hread.symm.trans hfiles)).symm
    · exact hfiles
  refine ⟨?_, htrue⟩
  cases s'
  cases s
  simp_all

/-- Every request can be failed, so every call can end. -/
theorem kept_total (s : World) (e : Eff) : ∃ r s', kept s e r s' := by
  have hfail {w : Wire} {r : w.Reply} (hdone : acknowledged w.req r = true →
      effect s.files w.req = some s.files) (ht : Truthful s.files w.req r) :
      ∃ r s', kept s (.send w) r s' :=
    ⟨r, s, ⟨⟨Or.inl rfl, hdone, ht⟩, rfl⟩, fun _ => rfl⟩
  cases e with
  | send w =>
      obtain ⟨c, q⟩ := w
      cases q with
      | listDirectory q => exact hfail (r := Exchange.failed (.text [])) nofun nofun
      | readMetadata q => exact hfail (r := Exchange.failed (.text [])) nofun nofun
      | ack q => exact hfail (r := Exchange.failed (.text [])) nofun trivial
      | fileUpload q => exact hfail (r := ⟨.failed (.text []), none⟩) nofun trivial
      | fileDownload q => exact hfail (r := Exchange.failed (.text [])) (fun _ => rfl) trivial
  | peek => exact ⟨s.cell, s, rfl, rfl⟩
  | poke g => exact ⟨(), _, rfl⟩

/-! ## the requests of the client -/

/-- How a request that is answered with a bare acknowledgement ends. -/
def Settles (s : World) (q : Request) (s' : World) : Except Err Unit → Prop
  | .ok () => s'.cell = s.cell ∧ effect s.files q = some s'.files
  | .error _ => s' = s

/-- What the client returns tells whether the request had its effect. -/
theorem settles_of_kept {s s' : World} {w : Wire} {r : w.Reply} {res : Except Err Unit}
    (h : kept s (.send w) r s') (hres : acknowledged w.req r = res.isOk) :
    Settles s w.req s' res := by
  obtain ⟨hcell, -, hfiles⟩ := kept_send h
  rw [hres] at hfiles
  cases res with
  | ok u => exact ⟨hcell, hfiles⟩
  | error e =>
      cases s'
      cases s
      simp_all [Settles, Except.isOk, Except.toBool]

/-- A unary write settles its request. -/
theorem ensures_ackCall {c : Client} {op : Op} {mk : String → AuthorizationMetadata → AckRequest}
    (hop : (mk c.fsID (Client.authMeta op)).op = op) (s : World) :
    Ensures kept (Settles s (.ack (mk c.fsID (Client.authMeta op)))) s
      (send (c.ackCall op mk)) := by
  rw [Client.ackCall, Client.stamped_eq]
  refine ensures_op fun r s' h => settles_of_kept h ?_
  show (callResult (mk c.fsID (Client.authMeta op)).op r).isOk = _
  rw [hop]

/-- So does an upload. -/
theorem ensures_upload (c : Client) (path : Path) (size : Int) (overwrite : Bool) (s : World) :
    Ensures kept (Settles s
        (.fileUpload ⟨c.fsID, path, size, overwrite, Client.authMeta .fileUpload⟩))
      s (send (c.upload path size overwrite)) := by
  rw [Client.upload, Client.stamped_eq]
  exact ensures_op fun r s' h => settles_of_kept h rfl

/-- The metadata of a file tells its size. -/
theorem ensures_readMetadata (c : Client) (path : Path) (s : World) :
    Ensures kept (fun s' res => s' = s ∧ ∀ resp, res = .ok resp →
        classifyReadMetadata resp = .file →
          ∃ n : Nat, s.files (c.fsID, path) = some n ∧ resp.file.size = n)
      s (send (c.readMetadata path)) := by
  rw [Client.readMetadata, Client.stamped_eq]
  exact ensures_op fun r s' h => kept_send_read h rfl

/-- A download changes nothing. -/
theorem ensures_download (c : Client) (uuid : String) {s : World} :
    Ensures kept (fun s' _ => s' = s) s (send (c.download uuid)) := by
  rw [Client.download, Client.stamped_eq]
  exact ensures_op fun _ _ h => (kept_send_read h rfl).1

theorem ensures_downloadRange (c : Client) (uuid : String) (offset length : Int) {s : World} :
    Ensures kept (fun s' _ => s' = s) s (send (c.downloadRange uuid offset length)) := by
  unfold Client.downloadRange
  rw [Client.stamped_eq]
  split
  · rfl
  · split
    · rfl
    · split
      · rfl
      · exact ensures_op fun _ _ h => (kept_send_read h rfl).1

/-! ## the methods of an object -/

/-- The object's size is `n`, and the broker has no other count for the path. -/
def Agrees (k : Key) (n : Int) (s : World) : Prop :=
  s.cell.size = n ∧ ∀ b : Nat, s.files k = some b → (b : Int) = n

section Methods

variable {s : World} {o : Object} {n : Int}

/-- A resolve that fails leaves the object alone, and one that succeeds
brings the same size. -/
theorem ensures_resolve (h : Agrees o.key n s) :
    Ensures kept (fun s' _ => s'.files = s.files ∧ Agrees o.key n s') s o.resolve := by
  unfold Object.resolve
  rw [peek_bind]
  refine ensures_op ?_
  rintro m s ⟨rfl, rfl⟩
  split
  · exact ⟨rfl, h⟩
  · refine (ensures_readMetadata _ _ _).bind ?_
    rintro _ res ⟨rfl, hres⟩
    cases res with
    | error e =>
        dsimp only
        split <;> exact ⟨rfl, h⟩
    | ok resp =>
        dsimp only
        split
        · exact ⟨rfl, h⟩
        · exact ⟨rfl, h⟩
        · next hfile =>
            obtain ⟨b, hb, hsize⟩ := hres resp rfl hfile
            refine ensures_op ?_
            rintro _ _ rfl
            exact ⟨rfl, hsize.trans (h.2 b hb), h.2⟩

/-- An accessor agrees with the broker. -/
theorem ensures_getter {α : Type} (h : Agrees o.key n s) (unresolved : Meta → Bool)
    (field : Meta → α) :
    Ensures kept (fun s' a => s'.files = s.files ∧ Agrees o.key n s' ∧ a = field s'.cell) s
      (o.getter unresolved field) := by
  have hread : ∀ s' : World, s'.files = s.files ∧ Agrees o.key n s' →
      Ensures kept (fun s' a => s'.files = s.files ∧ Agrees o.key n s' ∧ a = field s'.cell) s'
        (.op .peek fun m => .ret (field m)) := by
    rintro s' ⟨hf, ha⟩
    refine ensures_op ?_
    rintro _ _ ⟨rfl, rfl⟩
    exact ⟨hf, ha, rfl⟩
  unfold Object.getter
  rw [peek_bind]
  refine ensures_op ?_
  rintro m s ⟨rfl, rfl⟩
  dsimp only
  split
  · exact (ensures_resolve h).bind fun s' _ hs' => hread s' hs'
  · exact hread s ⟨rfl, h⟩

/-- So does an object after an open. -/
theorem ensures_open (h : Agrees o.key n s) (options : List OpenOption) :
    Ensures kept (fun s' _ => s'.files = s.files ∧ Agrees o.key n s') s (o.open options) := by
  unfold Object.open
  refine (ensures_resolve h).bind ?_
  rintro s' res hs'
  cases res with
  | error e => exact hs'
  | ok u =>
      rw [peek_bind]
      refine ensures_op ?_
      rintro _ _ ⟨rfl, rfl⟩
      split
      · exact hs'
      · split
        · exact hs'
        · split
          · exact (ensures_download _ _).mono fun s'' _ h => h ▸ hs'
          · exact (ensures_downloadRange _ _ _ _).mono fun s'' _ h => h ▸ hs'

/-- An acknowledged upload has the declared count. -/
theorem files_of_upload {files files' : Files} {q : FileUploadRequest}
    (h : effect files (.fileUpload q) = some files') :
    ∃ b : Nat, q.declaredSizeBytes = b ∧ files' (q.filesystemID, q.path) = some b ∧
      ∀ k, k ≠ (q.filesystemID, q.path) → files' k = files k := by
  simp only [effect] at h
  split at h
  · next b hb =>
      cases h
      exact ⟨b, hb, Function.update_self .., fun k hk => Function.update_of_ne hk _ _⟩
  · cases h

/-- An update leaves the object in agreement, with the size it has then. -/
theorem ensures_update (h : Agrees o.key n s) (size : Int) :
    Ensures kept (fun s' _ => (∀ k, k ≠ o.key → s'.files k = s.files k) ∧
      ∃ n', Agrees o.key n' s') s (o.update size) := by
  unfold Object.update
  split
  · exact ⟨fun _ _ => rfl, n, h⟩
  · refine (ensures_upload _ _ _ _ _).bind ?_
    rintro s' res hs'
    cases res with
    | error e =>
        rw [hs']
        exact ⟨fun _ _ => rfl, n, h⟩
    | ok u =>
        obtain ⟨-, heff⟩ := hs'
        obtain ⟨b, hsize, hfile, hrest⟩ := files_of_upload heff
        refine ensures_op ?_
        rintro _ _ rfl
        refine ⟨hrest, size, rfl, fun b' hb' => ?_⟩
        cases hfile.symm.trans hb'
        exact hsize.symm

/-- A removal touches no other file. -/
theorem ensures_remove (h : Agrees o.key n s) :
    Ensures kept (fun s' _ => (∀ k b, s'.files k = some b → s.files k = some b) ∧
      Agrees o.key n s') s o.remove := by
  unfold Object.remove
  split
  · exact ⟨fun _ _ hb => hb, h⟩
  · refine (ensures_ackCall rfl s).bind ?_
    rintro s' res hs'
    cases res with
    | error e =>
        rw [hs']
        exact ⟨fun _ _ hb => hb, h⟩
    | ok u =>
        obtain ⟨hcell, heff⟩ := hs'
        have hfewer : ∀ k b, s'.files k = some b → s.files k = some b := by
          intro k b hb
          rw [← Option.some.inj heff, Function.update_apply] at hb
          split at hb
          · cases hb
          · exact hb
        exact ⟨hfewer, hcell ▸ h.1, fun b hb => h.2 b (hfewer _ b hb)⟩

end Methods

/-! ## the objects handed out -/

/-- An object of an instance whose size is the broker's. -/
def Sized (f : Fs) (files : Files) (om : Object × Meta) : Prop :=
  om.1.fs = f ∧ ∀ b : Nat, files om.1.key = some b → om.2.size = b

/-- The objects handed out have the broker's sizes, and no other path has
got a new count. -/
def Hands (f : Fs) (s s' : World) (created : List (Object × Meta)) : Prop :=
  (∀ om ∈ created, Sized f s'.files om) ∧
    ∀ k b, s'.files k = some b → s.files k = some b ∨ ∃ om ∈ created, om.1.key = k

section HandingOut

variable {s : World} {f : Fs}

theorem hands_nil (f : Fs) (s : World) : Hands f s s [] :=
  ⟨List.forall_mem_nil _, fun _ _ hb => Or.inl hb⟩

theorem hands_one {s' : World} {om : Object × Meta} (h : Sized f s'.files om)
    (hrest : ∀ k b, k ≠ om.1.key → s'.files k = some b → s.files k = some b) :
    Hands f s s' [om] := by
  refine ⟨List.forall_mem_singleton.mpr h, fun k b hb => ?_⟩
  by_cases hk : k = om.1.key
  · exact Or.inr ⟨om, List.mem_singleton_self om, hk.symm⟩
  · exact Or.inl (hrest k b hk hb)

/-- `NewObject` hands out an object of the right size. -/
theorem ensures_newObject (f : Fs) (remote : Path) :
    Ensures kept (fun s' res => Hands f s s' (Outcome.of (fun om => [om]) res).created) s
      (f.newObject remote) := by
  unfold Fs.newObject
  refine (ensures_readMetadata _ _ _).bind ?_
  rintro s' res ⟨rfl, hres⟩
  cases res with
  | error e =>
      dsimp only
      split <;> exact hands_nil f s'
  | ok resp =>
      dsimp only
      split
      · next hfile =>
          obtain ⟨b, hb, hsize⟩ := hres resp rfl hfile
          refine hands_one ⟨rfl, fun b' hb' => ?_⟩ fun _ _ _ hb => hb
          cases hb.symm.trans hb'
          exact hsize
      · exact hands_nil f s'
      · exact hands_nil f s'

/-- So does `Put`. -/
theorem ensures_put (f : Fs) (remote : Path) (size : Int) :
    Ensures kept (fun s' res => Hands f s s' (Outcome.of (fun om => [om]) res).created) s
      (f.put remote size) := by
  unfold Fs.put
  split
  · exact hands_nil f s
  · refine (ensures_upload _ _ _ _ _).bind ?_
    rintro s' res hs'
    cases res with
    | error e =>
        rw [hs']
        exact hands_nil f s
    | ok u =>
        obtain ⟨b, hsize, hfile, hrest⟩ := files_of_upload hs'.2
        refine hands_one ⟨rfl, fun b' hb' => ?_⟩ fun k b' hk hb' => (hrest k hk).symm.trans hb'
        cases hfile.symm.trans hb'
        exact hsize

/-- A listing keeps objects with the sizes of the entries. -/
theorem sized_listYield {files : Files} {dir dirPath : Path} {entries : List DirEntry}
    {entry : ListDirEntry}
    (hentry : ∀ ff, entry.file = some ff →
      ∃ n : Nat, files (f.client.fsID, cleanPath ff.path) = some n ∧ ff.size = n)
    (h : ∀ om ∈ entries.filterMap DirEntry.object?, Sized f files om) :
    ∀ om ∈ (f.listYield dir dirPath entries entry).1.filterMap DirEntry.object?,
      Sized f files om := by
  unfold Fs.listYield
  split
  · exact h
  · split
    · next ff hff =>
        intro om hom
        rw [List.filterMap_append] at hom
        rcases List.mem_append.mp hom with hom | hom
        · exact h om hom
        · simp only [objectFromFile, DirEntry.object?, List.filterMap_cons, List.filterMap_nil,
            List.mem_singleton] at hom
          obtain ⟨b, hb, hsize⟩ := hentry ff hff
          rw [hom]
          refine ⟨rfl, fun b' hb' => ?_⟩
          cases hb.symm.trans hb'
          exact hsize
    · simpa [List.filterMap_append, DirEntry.object?] using h
    · exact h

/-- The listing loop leaves the broker alone, and an invariant of the callback
on truthful entries holds at its end. -/
theorem ensures_listDirectoryStream {σ : Type} {c : Client} {path : Path}
    {yield : σ → ListDirEntry → σ × Option Err} (Inv : σ → Prop)
    (hyield : ∀ e : ListDirEntry, (∀ ff, e.file = some ff →
        ∃ n : Nat, s.files (c.fsID, cleanPath ff.path) = some n ∧ ff.size = n) →
      ∀ t, Inv t → Inv (yield t e).1) {t : σ} (ht : Inv t) :
    Ensures kept (fun s' r => s' = s ∧ Inv r.1) s (send (c.listDirectoryStream path yield t)) := by
  rw [Client.listDirectoryStream, Client.stamped_eq]
  generalize newPageGuard "ListDirectoryStream" c.maxListPages = g, "" = cursor
  -- on the pages left under the ceiling
  induction hn : g.maxPages - g.pages using Nat.strongRecOn generalizing g cursor t with
  | ind n ih =>
      rw [Client.streamLoop_eq]
      refine ensures_op fun x s' h => ?_
      obtain ⟨rfl, htrue⟩ := kept_send_read h rfl
      change Exchange (Except Err ListDirectoryResponse) at x
      dsimp only
      split
      · exact ⟨rfl, ht⟩
      · next resp hresp =>
          have hinv := yieldAll_inv resp.entries
            (fun e he t => hyield e (htrue resp hresp e he) t) ht
          split
          · next hy =>
              rw [hy] at hinv
              exact ⟨rfl, hinv⟩
          · next hy =>
              rw [hy] at hinv
              split
              · exact ⟨rfl, hinv⟩
              · split
                · exact ⟨rfl, hinv⟩
                · next hg =>
                    obtain ⟨hlt, -, rfl⟩ := PageGuard.admitPage_ok hg
                    exact ih _ (by dsimp only; omega) hinv _ _ rfl

/-- So does `List`, for each of its objects. -/
theorem ensures_list (f : Fs) (dir : Path) :
    Ensures kept (fun s' res =>
        Hands f s s' (Outcome.of (List.filterMap DirEntry.object?) res).created) s
      (f.list dir) := by
  unfold Fs.list
  refine (ensures_listDirectoryStream
    (fun entries => ∀ om ∈ entries.filterMap DirEntry.object?, Sized f s.files om)
    (fun e he entries => sized_listYield he) (by simp)).bind ?_
  rintro s' ⟨entries, err⟩ ⟨rfl, hentries⟩
  cases err with
  | some e =>
      dsimp only
      split <;> exact hands_nil f s'
  | none => exact ⟨hentries, fun _ _ hb => Or.inl hb⟩

/-- What copyFile and moveFile have in common: the destination gets the
source's count, and no other path a new one. -/
def Transfers (mk : Path → Path → AckRequest) (fsID : String) : Prop :=
  ∀ p q files files', effect files (.ack (mk p q)) = some files' →
    ∃ b, files (fsID, p) = some b ∧ files' (fsID, q) = some b ∧
      ∀ k b', k ≠ (fsID, q) → files' k = some b' → files k = some b'

theorem transfers_copyFile (fsID : String) (am : AuthorizationMetadata) :
    Transfers (fun p q => .copyFile ⟨fsID, p, q, true, am⟩) fsID := by
  intro p q files files' h
  obtain ⟨b, hb, rfl⟩ := Option.map_eq_some_iff.mp h
  refine ⟨b, hb, Function.update_self .., fun k b' hk hb' => ?_⟩
  rwa [Function.update_of_ne hk] at hb'

theorem transfers_moveFile (fsID : String) (am : AuthorizationMetadata) :
    Transfers (fun p q => .moveFile ⟨fsID, p, q, true, am⟩) fsID := by
  intro p q files files' h
  obtain ⟨b, hb, rfl⟩ := Option.map_eq_some_iff.mp h
  refine ⟨b, hb, Function.update_self .., fun k b' hk hb' => ?_⟩
  rw [Function.update_of_ne hk, Function.update_apply] at hb'
  split at hb'
  · cases hb'
  · exact hb'

/-- The source's size is read after the transfer, when its path may be gone;
it still is the count that was transferred. -/
theorem ensures_transferFile {src : Object} {n : Int} (hsrc : src.fs.ref = f.ref → src.fs = f)
    (h : Agrees src.key n s) {op : Op}
    {mk : String → AuthorizationMetadata → Path → Path → AckRequest}
    (hop : ∀ p q, (mk f.client.fsID (Client.authMeta op) p q).op = op)
    (hmk : Transfers (mk f.client.fsID (Client.authMeta op)) f.client.fsID)
    (dstRemote : Path) (opName : String) (cant : Sentinel) :
    Ensures kept (fun s' res => Hands f s s' (Outcome.of (fun om => [om]) res).created ∧
        Agrees src.key n s') s
      (f.transferFile src dstRemote opName cant fun p q =>
        f.client.ackCall op fun fsID am => mk fsID am p q) := by
  unfold Fs.transferFile
  split
  · exact ⟨hands_nil f s, h⟩
  · split
    · exact ⟨hands_nil f s, h⟩
    · next href =>
        have hfs : src.fs = f := hsrc (Decidable.not_not.mp href)
        refine (ensures_ackCall (hop _ _) s).bind ?_
        rintro s₁ res hs₁
        cases res with
        | error e =>
            rw [hs₁]
            exact ⟨hands_nil f s, h⟩
        | ok u =>
            obtain ⟨hcell, heff⟩ := hs₁
            obtain ⟨b, hb, hdst, hrest⟩ := hmk _ _ _ _ heff
            have hbn : (b : Int) = n := h.2 b (by rw [Object.key, hfs]; exact hb)
            have hagree : Agrees src.key n s₁ := by
              refine ⟨hcell ▸ h.1, fun b' hb' => ?_⟩
              by_cases hk : src.key = (f.client.fsID, f.absPath dstRemote)
              · rw [hk, hdst] at hb'
                cases hb'
                exact hbn
              · exact h.2 b' (hrest _ _ hk hb')
            refine (ensures_getter hagree _ _).bind ?_
            rintro s₂ size ⟨hfiles, hagree₂, rfl⟩
            refine ⟨hands_one ⟨rfl, fun b' hb' => ?_⟩ fun k b' hk hb' => ?_, hagree₂⟩
            · rw [hfiles] at hb'
              cases hdst.symm.trans hb'
              exact hagree₂.1.trans hbn.symm
            · rw [hfiles] at hb'
              exact hrest k b' hk hb'

end HandingOut

/-! ## calls -/

/-- The calls of a history: those on files. -/
def Call.onFiles : Call → Bool
  | mkdir _ _ | rmdir _ _ | dirMove _ _ _ _ | setModTime _ => false
  | _ => true

/-- What a call leaves: the objects it hands out and the object it works on
have the broker's sizes, and no other path has got a new count. -/
structure Call.Leaves (call : Call) (s s' : World) (created : List (Object × Meta)) : Prop where
  sized : ∀ om ∈ created, Sized call.receiver s'.files om
  files : ∀ k b, s'.files k = some b →
    s.files k = some b ∨ (∃ o, call.object = some o ∧ o.key = k) ∨ ∃ om ∈ created, om.1.key = k
  object : ∀ o, call.object = some o → ∃ n, Agrees o.key n s'

theorem leaves_of_hands {call : Call} {s s' : World} {created : List (Object × Meta)}
    (h : Hands call.receiver s s' created)
    (hobj : ∀ o, call.object = some o → ∃ n, Agrees o.key n s') : call.Leaves s s' created :=
  ⟨h.1, fun k b hb => (h.2 k b hb).imp id Or.inr, hobj⟩

/-- A call on an object that hands out none. -/
theorem leaves_of_agrees {call : Call} {o : Object} {n : Int} {s s' : World}
    (hcall : call.object = some o)
    (hfiles : ∀ k b, k ≠ o.key → s'.files k = some b → s.files k = some b)
    (h : Agrees o.key n s') : call.Leaves s s' [] := by
  refine ⟨List.forall_mem_nil _, fun k b hb => ?_, fun o' ho' => ?_⟩
  · by_cases hk : k = o.key
    · exact Or.inr (Or.inl ⟨o, hcall, hk.symm⟩)
    · exact Or.inl (hfiles k b hk hb)
  · cases hcall.symm.trans ho'
    exact ⟨n, h⟩

/-- Every call on files leaves sizes as they should be. -/
theorem ensures_prog {call : Call} {s : World} (hcall : call.onFiles = true)
    (hobj : ∀ o, call.object = some o → (∃ n, Agrees o.key n s) ∧
      (o.fs.ref = call.receiver.ref → o.fs = call.receiver)) :
    Ensures kept (fun s' out => call.Leaves s s' out.created) s call.prog := by
  have hnone : ∀ {α : Type} {s' : World} (r : Except Err α), call.Leaves s s' [] →
      call.Leaves s s' (Outcome.of (fun _ => []) r).created := by
    intro α s' r h
    cases r <;> exact h
  cases call with
  | list f dir => exact (ensures_list f dir).bind fun s' r h => leaves_of_hands h (by rintro o ⟨⟩)
  | newObject f remote =>
      exact (ensures_newObject f remote).bind fun s' r h => leaves_of_hands h (by rintro o ⟨⟩)
  | put f remote size =>
      exact (ensures_put f remote size).bind fun s' r h => leaves_of_hands h (by rintro o ⟨⟩)
  | copy f src dstRemote =>
      obtain ⟨⟨n, hn⟩, hfs⟩ := hobj src rfl
      exact (ensures_transferFile hfs hn (fun _ _ => rfl) (transfers_copyFile _ _) _ _ _).bind
        fun s' r h => leaves_of_hands h.1 (by rintro o ⟨⟩; exact ⟨n, h.2⟩)
  | move f src dstRemote =>
      obtain ⟨⟨n, hn⟩, hfs⟩ := hobj src rfl
      exact (ensures_transferFile hfs hn (fun _ _ => rfl) (transfers_moveFile _ _) _ _ _).bind
        fun s' r h => leaves_of_hands h.1 (by rintro o ⟨⟩; exact ⟨n, h.2⟩)
  | openObject o options =>
      obtain ⟨⟨n, hn⟩, -⟩ := hobj o rfl
      exact (ensures_open hn options).bind fun s' r h =>
        hnone r (leaves_of_agrees rfl (fun k b _ hb => h.1 ▸ hb) h.2)
  | update o size =>
      obtain ⟨⟨n, hn⟩, -⟩ := hobj o rfl
      refine (ensures_update hn size).bind fun s' r h => ?_
      obtain ⟨hrest, n', hn'⟩ := h
      exact hnone r (leaves_of_agrees rfl (fun k b hk hb => hrest k hk ▸ hb) hn')
  | remove o =>
      obtain ⟨⟨n, hn⟩, -⟩ := hobj o rfl
      exact (ensures_remove hn).bind fun s' r h =>
        hnone r (leaves_of_agrees rfl (fun k b _ hb => h.1 k b hb) h.2)
  | size o | modTime o | mimeType o =>
      obtain ⟨⟨n, hn⟩, -⟩ := hobj o rfl
      exact (ensures_getter hn _ _).bind fun s' r h =>
        leaves_of_agrees rfl (fun k b _ hb => h.1 ▸ hb) h.2.1
  | mkdir | rmdir | dirMove | setModTime => cases hcall

/-! ## histories -/

/-- The broker's files, and the most recently obtained object of each path. -/
structure History where
  files : Files
  current : Key → Option (Object × Meta)

/-- An object becomes the current one of its path. -/
def obtain (current : Key → Option (Object × Meta)) (om : Object × Meta) :
    Key → Option (Object × Meta) := Function.update current om.1.key (some om)

theorem obtain_key (current : Key → Option (Object × Meta)) (om : Object × Meta) :
    obtain current om om.1.key = some om := Function.update_self ..

/-- The object at a key is the last one obtained there. -/
theorem obtained_cases (created : List (Object × Meta)) (current : Key → Option (Object × Meta))
    (k : Key) :
    (∃ om ∈ created, om.1.key = k ∧ created.foldl obtain current k = some om) ∨
      (∀ om ∈ created, om.1.key ≠ k) ∧ created.foldl obtain current k = current k := by
  induction created generalizing current with
  | nil => exact Or.inr ⟨List.forall_mem_nil _, rfl⟩
  | cons om created ih =>
      rw [List.foldl_cons]
      rcases ih (obtain current om) with ⟨om', hom', hk, hval⟩ | ⟨hnone, hval⟩
      · exact Or.inl ⟨om', List.mem_cons_of_mem _ hom', hk, hval⟩
      · by_cases hk : om.1.key = k
        · refine Or.inl ⟨om, List.mem_cons_self, hk, hval.trans ?_⟩
          rw [← hk]
          exact obtain_key current om
        · refine Or.inr ⟨List.forall_mem_cons.mpr ⟨hk, hnone⟩, hval.trans ?_⟩
          rw [obtain, Function.update_of_ne (Ne.symm hk)]

/-- One call of a history, run to its end: on an instance, or on the current
object of a path. -/
inductive Used (env : Env Eff.Reply World) (pool : Pool) : History → History → Prop
  | onInstance {h : History} {call : Call} {m m' : Meta} {files' : Files} {out : Outcome}
      (hcall : call.onFiles = true) (hobj : call.object = none)
      (hfs : ∀ f ∈ call.instances, f ∈ pool.instances)
      (hrun : EvalsTo env ⟨h.files, m⟩ call.prog ⟨files', m'⟩ out) :
      Used env pool h ⟨files', out.created.foldl obtain h.current⟩
  | onObject {h : History} {call : Call} {o : Object} {m m' : Meta} {files' : Files}
      {out : Outcome} (hcall : call.onFiles = true) (hobj : call.object = some o)
      (hcur : h.current o.key = some (o, m)) (hfs : ∀ f ∈ call.instances, f ∈ pool.instances)
      (hrun : EvalsTo env ⟨h.files, m⟩ call.prog ⟨files', m'⟩ out) :
      Used env pool h ⟨files', out.created.foldl obtain (obtain h.current (o, m'))⟩

/-- Histories start with any files and no object obtained. -/
def histories (env : Env Eff.Reply World) (pool : Pool) : System History where
  init h := h.current = fun _ => none
  step := Used env pool

/-- The current objects are filed under their own paths and have the broker's
sizes. -/
def History.Sound (pool : Pool) (h : History) : Prop :=
  ∀ k o m, h.current k = some (o, m) →
    o.key = k ∧ o.fs ∈ pool.instances ∧ ∀ b : Nat, h.files k = some b → m.size = b

/-- What a call leaves is sound when the objects it found are: a path with a
new count has a new object, or is the one the call worked on. -/
theorem sound_obtained {pool : Pool} {call : Call} {s s' : World}
    {created : List (Object × Meta)} {current : Key → Option (Object × Meta)}
    (hleaves : call.Leaves s s' created) (hrecv : call.receiver ∈ pool.instances)
    (hcur : ∀ k o m, current k = some (o, m) → o.key = k ∧ o.fs ∈ pool.instances ∧
      ((∀ om ∈ created, om.1.key ≠ k) → ∀ b : Nat, s'.files k = some b → m.size = b)) :
    History.Sound pool ⟨s'.files, created.foldl obtain current⟩ := by
  intro k o m h
  rcases obtained_cases created current k with ⟨om, hom, hk, hval⟩ | ⟨hnone, hval⟩
  · cases hval.symm.trans h
    obtain ⟨hfs, hsize⟩ := hleaves.sized _ hom
    exact ⟨hk, hfs ▸ hrecv, hk ▸ hsize⟩
  · obtain ⟨hkey, hfs, hsize⟩ := hcur k o m (hval.symm.trans h)
    exact ⟨hkey, hfs, hsize hnone⟩

/-- One call keeps a history sound. -/
theorem sound_used {pool : Pool} {h h' : History} (hs : h.Sound pool)
    (hstep : Used kept pool h h') : h'.Sound pool := by
  cases hstep with
  | @onInstance call m m' files' out hcall hobj hfs hrun =>
      have hno : ∀ {o : Object} {P : Prop}, call.object = some o → P :=
        fun ho => absurd (hobj.symm.trans ho) (Option.some_ne_none _).symm
      have hleaves := hrun.post (ensures_prog hcall fun o ho => hno ho)
      refine sound_obtained hleaves (Call.receiver_mem hfs fun o ho => hno ho) fun k o m hk => ?_
      obtain ⟨hkey, hpool, hsize⟩ := hs k o m hk
      refine ⟨hkey, hpool, fun hnone b hb => ?_⟩
      rcases hleaves.files k b hb with hb | ⟨o', ho', -⟩ | ⟨om, hom, hkom⟩
      · exact hsize b hb
      · exact hno ho'
      · exact absurd hkom (hnone om hom)
  | @onObject call o m m' files' out hcall hobj hcur hfs hrun =>
      obtain ⟨-, hpool, hsize⟩ := hs o.key o m hcur
      have hrecv : call.receiver ∈ pool.instances :=
        Call.receiver_mem hfs fun o' ho' => Option.some.inj (hobj.symm.trans ho') ▸ hpool
      have hleaves := hrun.post (ensures_prog hcall fun o' ho' => by
        cases hobj.symm.trans ho'
        exact ⟨⟨m.size, rfl, fun b hb => (hsize b hb).symm⟩, pool.eq_of_ref hpool hrecv⟩)
      refine sound_obtained hleaves hrecv fun k o₀ m₀ hk => ?_
      rw [obtain, Function.update_apply] at hk
      split at hk
      · next hkey =>
          cases hk
          obtain ⟨n, hcell, hn⟩ := hleaves.object o hobj
          exact ⟨hkey.symm, hpool, fun _ b hb => hcell.trans (hn b (hkey ▸ hb)).symm⟩
      · next hkey =>
          obtain ⟨hkey₀, hpool₀, hsize₀⟩ := hs k o₀ m₀ hk
          refine ⟨hkey₀, hpool₀, fun hnone b hb => ?_⟩
          rcases hleaves.files k b hb with hb | ⟨o', ho', hko'⟩ | ⟨om, hom, hkom⟩
          · exact hsize₀ b hb
          · cases hobj.symm.trans ho'
            exact absurd hko'.symm hkey
          · exact absurd hkom (hnone om hom)

/-- **Truthful sizes**: after any history in which no request took effect
behind its caller's back, `Size` of the current object of a file ends, and
always with the broker's byte count. -/
theorem size_truthful {pool : Pool} {h : History} (hr : (histories kept pool).Reachable h)
    {k : Key} {o : Object} {m : Meta} {b : Nat} (hcur : h.current k = some (o, m))
    (hfile : h.files k = some b) :
    (∃ s', EvalsTo kept ⟨h.files, m⟩ o.size s' b) ∧
      ∀ s' size, EvalsTo kept ⟨h.files, m⟩ o.size s' size → size = b := by
  have hsound : h.Sound pool := by
    refine hr.invariant (P := History.Sound pool) (fun h₀ hinit k o m hk => ?_)
      fun _ _ _ hs hstep => sound_used hs hstep
    rw [show h₀.current = fun _ => none from hinit] at hk
    cases hk
  obtain ⟨rfl, -, hsize⟩ := hsound k o m hcur
  have hall : ∀ s' size, EvalsTo kept ⟨h.files, m⟩ o.size s' size → size = b := by
    intro s' size hrun
    have hagree : Agrees o.key m.size ⟨h.files, m⟩ := ⟨rfl, fun b hb => (hsize b hb).symm⟩
    obtain ⟨-, hagree', rfl⟩ := hrun.post (ensures_getter hagree _ _)
    exact hagree'.1.trans (hsize b hfile)
  obtain ⟨s', size, hrun⟩ := exists_evalsTo kept_total ⟨h.files, m⟩ o.size
  exact ⟨⟨s', hall s' size hrun ▸ hrun⟩, hall⟩

/-- The broker's count of `/srv/a`, and nothing else. -/
def srvFiles (n : Nat) : Files := Function.update (fun _ => none) srvObject.key (some n)

theorem srvFiles_key (n : Nat) : srvFiles n srvObject.key = some n := Function.update_self ..

def srvUpload (n : Nat) : Wire :=
  ⟨srvFs.client, .fileUpload ⟨"fs", srvObject.path, n, true, Client.authMeta .fileUpload⟩⟩

/-- A put of three bytes to an empty broker. -/
theorem evalsTo_put :
    EvalsTo kept ⟨fun _ => none, .ofSize 0⟩ (Call.prog (.put srvFs "a".toList 3))
      ⟨srvFiles 3, .ofSize 0⟩ ⟨[(srvObject, .ofSize 3)], none⟩ := by
  have hserved : kept ⟨fun _ => none, .ofSize 0⟩ (.send (srvUpload 3)) accepted
      ⟨srvFiles 3, .ofSize 0⟩ :=
    kept_of_acknowledged (congrArg Except.isOk uploadResult_accepted) rfl trivial rfl
  refine .step hserved ?_
  simp only [uploadResult_accepted]
  exact .refl _ _

theorem size_truthful_put :
    ∃ h, (histories kept srvPool).Reachable h ∧ h.files srvObject.key = some 3 ∧
      ∃ s', EvalsTo kept ⟨h.files, .ofSize 3⟩ srvObject.size s' 3 := by
  have h₀ : (histories kept srvPool).Reachable ⟨fun _ => none, fun _ => none⟩ := .init rfl
  have hput := h₀.step (.onInstance rfl rfl (by simp [Call.instances, srvPool]) evalsTo_put)
  have h₁ : (histories kept srvPool).Reachable
      ⟨srvFiles 3, obtain (fun _ => none) (srvObject, .ofSize 3)⟩ := hput
  have hcur := obtain_key (fun _ => none) (srvObject, .ofSize 3)
  exact ⟨_, h₁, srvFiles_key 3, (size_truthful (k := srvObject.key) h₁ hcur (srvFiles_key 3)).1⟩

/-! ## an upload that takes effect behind its caller's back -/

def srvMeta : Meta := ⟨"u", 3, "", "", "", ""⟩

def srvReadMetadata : Wire :=
  ⟨srvFs.client, .readMetadata ⟨"fs", srvObject.path, Client.authMeta .readMetadata⟩⟩

/-- The metadata of `/srv/a` when it has three bytes. -/
def srvFound : Exchange (Except Err ReadMetadataResponse) :=
  .replied respOk (.ok ⟨⟨srvObject.path, 3, "", "", "", "", "u"⟩, ⟨[], "", ""⟩⟩)

/-- The reader of an upload fails where it should report its end. -/
def sourceFault : Err := .wrap [.lit "read source: "] (.text [.lit "input/output error"]) []

/-- The error of the round trip: the pipe is closed with the error of the
reader, and the transport reads it from there. -/
def tripFault : Err :=
  .wrap [.lit "Post ", .quoted "https://filestore/v1/filestore/fs/fileUpload".toList, .lit ": "]
    sourceFault []

/-- All bytes arrive, the closing boundary behind them, and are committed; the
round trip fails. -/
def committedReadFault : UploadExchange := ⟨.failed tripFault, some sourceFault⟩

theorem evalsTo_newObject :
    EvalsTo broker ⟨srvFiles 3, .ofSize 0⟩ (Call.prog (.newObject srvFs "a".toList))
      ⟨srvFiles 3, .ofSize 0⟩ ⟨[(srvObject, srvMeta)], none⟩ := by
  have hserved : broker ⟨srvFiles 3, .ofSize 0⟩ (.send srvReadMetadata) srvFound
      ⟨srvFiles 3, .ofSize 0⟩ := by
    refine ⟨⟨Or.inl rfl, fun _ => rfl, ?_⟩, rfl⟩
    rintro resp ⟨⟩ -
    exact ⟨3, srvFiles_key 3, rfl⟩
  exact .step hserved (.refl _ _)

/-- The error the update is reported with. -/
def readFault : Err :=
  .wrap [.lit "ocufs: Update ", .quoted srvObject.path, .lit ": "]
    (.wrap [.lit "brokerrpc: fileUpload: "] tripFault []) []

theorem evalsTo_update_fault :
    EvalsTo broker ⟨srvFiles 3, srvMeta⟩ (Call.prog (.update srvObject 5))
      ⟨srvFiles 5, srvMeta⟩ ⟨[], some readFault⟩ := by
  have hserved : broker ⟨srvFiles 3, srvMeta⟩ (.send (srvUpload 5)) committedReadFault
      ⟨srvFiles 5, srvMeta⟩ := by
    have heff : effect (srvFiles 3) (srvUpload 5).req = some (srvFiles 5) :=
      congrArg some (Function.update_idem ..)
    exact ⟨⟨Or.inr heff, fun _ => heff, trivial⟩, rfl⟩
  exact .step hserved (.refl _ _)

/-- The object of `/srv/a` is looked up with three bytes and updated with
five; the broker commits all five, the update is reported as failed, and
`Size` goes on saying three. -/
theorem stale_size_after_failed_update :
    ∃ h, (histories broker srvPool).Reachable h ∧ h.files srvObject.key = some 5 ∧
      h.current srvObject.key = some (srvObject, srvMeta) ∧
      EvalsTo broker ⟨h.files, srvMeta⟩ srvObject.size ⟨h.files, srvMeta⟩ 3 := by
  have h₀ : (histories broker srvPool).Reachable ⟨srvFiles 3, fun _ => none⟩ := .init rfl
  have hfound := h₀.step (.onInstance rfl rfl (by simp [Call.instances, srvPool]) evalsTo_newObject)
  have h₁ : (histories broker srvPool).Reachable
      ⟨srvFiles 3, obtain (fun _ => none) (srvObject, srvMeta)⟩ := hfound
  have hcur := obtain_key (fun _ => none) (srvObject, srvMeta)
  have h₂ := h₁.step (.onObject (o := srvObject) rfl rfl hcur (by simp [Call.instances])
    evalsTo_update_fault)
  have hpeek : ∀ s : World, broker s .peek s.cell s := fun s => ⟨rfl, rfl⟩
  -- the object has a uuid, so nothing is asked of the broker
  have hsize : EvalsTo broker ⟨srvFiles 5, srvMeta⟩ srvObject.size ⟨srvFiles 5, srvMeta⟩ 3 :=
    .step (hpeek _) (.step (hpeek _) (.refl _ _))
  exact ⟨_, h₂, srvFiles_key 5,
    obtain_key (obtain (fun _ => none) (srvObject, srvMeta)) (srvObject, srvMeta), hsize⟩

end OcuFilestore.Ocufs
