import OcuFilestore.Filestore.Served
import OcuFilestore.Ocufs.Readdress
import OcuFilestore.Ocufs.Session

/-!
# OcuFilestore.Mounted.Reading

The whole of a mount: the methods of the backend, the client below them, the
network, and the filestore peer on a disk that works.  Other requests reach the
peer between any two of a call, and other calls on the same object write to its
guarded fields.

This module is about the methods that read.  Each leaves the volume alone, and
says of it what it is at the moment it is asked for (`Looked`, `Opened`,
`Found`, `Listed`).  The uuid that an object comes to hold is that of its own
path (`Handles`).
-/

namespace OcuFilestore.Mounted

open Prog (Meets)
open SlashPath (fromRoot Plain join)
open Brokerrpc (Wire WireProg Client ReadMetadataResponse)
open Ocufs (Fs Object Meta Eff FsProg send peek poke Call Outcome DirEntry OpenOption mapBrokerError
  classifyReadMetadata Window)
open Peer (World Store Vol Loc Scope Source Response WireFile WireDir Deployment Site Acked
  MetadataRead ListingRead Downloaded Errs Refusal Reports ReportsFile uuidForRelPath place InRange
  FitsReply entryMembers metadataResponse listEntry)

/-! ## the backend over the peer -/

/-- The guarded fields of the object of a call, beside the broker. -/
def fields (broker : Env Wire.Reply World) : Env Eff.Reply (World × Meta)
  | s, .send q, r, s' => broker s.1 q r s'.1 ∧ s'.2 = s.2
  | s, .peek, r, s' => r = s.2 ∧ s' = s
  | s, .poke f, _, s' => s' = (s.1, f s.2)

/-- The backend in use.  Other calls write to the guarded fields meanwhile, as
`others` says. -/
def mounted (d : Deployment) (source : Source) (others : Meta → Meta → Prop) :
    Env Eff.Reply (World × Meta) :=
  Prog.amid (fun s s' => s'.1 = s.1 ∧ others s.2 s'.2) (fields (d.broker source))

/-- Other calls leave a `cell`, whatever was there. -/
def leaving (cell : Meta → Prop) : Meta → Meta → Prop := fun _ m' => cell m'

/-- What holds of the guarded fields whatever other calls do, and it may be
that they do nothing. -/
structure Stable (others : Meta → Meta → Prop) (cell : Meta → Prop) : Prop where
  refl : ∀ m, cell m → others m m
  keeps : ∀ m m', cell m → others m m' → cell m'

theorem stable_leaving (cell : Meta → Prop) : Stable (leaving cell) cell :=
  ⟨fun _ h => h, fun _ _ _ h => h⟩

section Rules

variable {d : Deployment} {source : Source} {others : Meta → Meta → Prop} {cell : Meta → Prop}
  {w : World} {m : Meta} {α β : Type} {Q : World × Meta → β → Prop}

/-- A method of the client. -/
theorem meets_sent {p : WireProg α} {Q₀ : World → α → Prop} (hstable : Stable others cell)
    (hcell : cell m) (hp : Meets (d.broker source) Q₀ w p) :
    Meets (mounted d source others) (fun t a => cell t.2 ∧ Q₀ t.1 a) (w, m) (send p) := by
  have hlift : Meets (mounted d source others)
      (fun t a => ∃ w', (t.1 = w' ∧ cell t.2) ∧ Q₀ w' a) (w, m) (send p) := by
    refine Prog.Meets.lift ?_ ?_ ⟨rfl, hcell⟩ hp
    · rintro w ⟨w₀, m⟩ q r ⟨w', m'⟩ ⟨rfl, hcell⟩ ⟨⟨w₁, m₁⟩, ⟨rfl, hothers⟩, hr, hm⟩
      obtain rfl : m' = m₁ := hm
      exact ⟨w', ⟨rfl, hstable.keeps m m' hcell hothers⟩, hr⟩
    · rintro w ⟨w₀, m⟩ q ⟨rfl, hcell⟩ ⟨r, w', hr⟩
      exact ⟨r, (w', m), (w₀, m), ⟨rfl, hstable.refl m hcell⟩, hr, rfl⟩
  refine hlift.mono ?_
  rintro ⟨w', m'⟩ a ⟨_, ⟨rfl, hcell'⟩, ha⟩
  exact ⟨hcell', ha⟩

/-- What a request meets at the broker, it meets from the mount. -/
theorem meets_send {p : WireProg α} {k : α → FsProg β} {Q₀ : World → α → Prop}
    (hstable : Stable others cell) (hcell : cell m) (hp : Meets (d.broker source) Q₀ w p)
    (hk : ∀ w' m' a, cell m' → Q₀ w' a → Meets (mounted d source others) Q (w', m') (k a)) :
    Meets (mounted d source others) Q (w, m) (send p >>= k) :=
  Prog.Safe.bind (meets_sent hstable hcell hp) fun t a h => hk t.1 t.2 a h.1 h.2

/-- A look at the guarded fields. -/
theorem meets_peek {k : Meta → FsProg β} (hstable : Stable others cell) (hcell : cell m)
    (hk : ∀ m', cell m' → Meets (mounted d source others) Q (w, m') (k m')) :
    Meets (mounted d source others) Q (w, m) (peek >>= k) := by
  refine Prog.meets_amid ⟨rfl, hstable.refl m hcell⟩ ⟨m, (w, m), rfl, rfl⟩ ?_
  rintro ⟨w₁, m₁⟩ r s' ⟨rfl, hothers⟩ ⟨hr, rfl⟩
  obtain rfl : r = m₁ := hr
  exact hk r (hstable.keeps m r hcell hothers)

/-- A write to the guarded fields.  Something else may hold of them after. -/
theorem meets_poke {f : Meta → Meta} {k : Unit → FsProg β} {cell' : Meta → Prop}
    (hstable : Stable others cell) (hcell : cell m) (hf : ∀ m, cell m → cell' (f m))
    (hk : ∀ m', cell' m' → Meets (mounted d source others) Q (w, m') (k ())) :
    Meets (mounted d source others) Q (w, m) (poke f >>= k) := by
  refine Prog.meets_amid ⟨rfl, hstable.refl m hcell⟩ ⟨(), (w, f m), rfl⟩ ?_
  rintro ⟨w₁, m₁⟩ r s' ⟨rfl, hothers⟩ rfl
  exact hk (f m₁) (hf m₁ (hstable.keeps m m₁ hcell hothers))

end Rules

/-! ## looking up a path -/

/-- The uuid that an object of this path has, if it has one, is the one of the
path. -/
def Handles (sc : Scope) (path : Path) (m : Meta) : Prop :=
  m.uuid = "" ∨ m.uuid.toList = uuidForRelPath sc.filesystemID path

def metadataRequest (d : Deployment) (path : Path) : Brokerrpc.Request :=
  .readMetadata ⟨d.client.fsID, path, Client.authMeta .readMetadata⟩

/-- An error with texts around it. -/
inductive Wraps (cause : Err) : Err → Prop
  | self : Wraps cause cause
  | wrap {e : Err} {pre post : List Frag} (h : Wraps cause e) : Wraps cause (.wrap pre e post)

/-- The request was refused, and this is the error of it. -/
def Refused (d : Deployment) (q : Brokerrpc.Request) (e : Err) : Prop :=
  ∃ resp cause, Refusal d.srv d.sc d.authorization q resp.status ∧ Errs resp cause ∧ Wraps cause e

/-- The reply was longer than the client reads, and this is the error of it. -/
def Unread (op : Brokerrpc.Op) (e : Err) : Prop := ∃ text, Wraps (Peer.unread op text) e

/-- What `readMetadata` says of a path. -/
inductive Looked (d : Deployment) (path : Path) (V : Vol) : Except Err ReadMetadataResponse → Prop
  | file {bs : List UInt8} {resp : ReadMetadataResponse}
      (hfile : V.file (d.sc.locOf path) = some bs) (harm : classifyReadMetadata resp = .file)
      (hsize : resp.file.size = bs.length)
      (huuid : resp.file.uuid.toList = uuidForRelPath d.sc.filesystemID path) :
      Looked d path V (.ok resp)
  | directory {resp : ReadMetadataResponse} (hdir : V.IsDir (d.sc.locOf path))
      (harm : classifyReadMetadata resp = .directory) : Looked d path V (.ok resp)
  | missing {e : Err} (hnone : V.node (d.sc.locOf path) = none) (he : e.is .errNotFound = true) :
      Looked d path V (.error e)
  /-- Below a file. -/
  | beyond {e : Err} (hnone : V.node (d.sc.locOf path) = none) (he : e.is .errNotFound = false) :
      Looked d path V (.error e)
  | refused {e : Err} (h : Refused d (metadataRequest d path) e)
      (he : e.is .errNotFound = false) : Looked d path V (.error e)

section Lookups

variable {d : Deployment} {source : Source} {w : World} {s : Store} {m : Meta} {path : Path}

theorem Refused.wrap {q : Brokerrpc.Request} {e : Err} {pre post : List Frag}
    (h : Refused d q e) : Refused d q (.wrap pre e post) := by
  obtain ⟨resp, cause, hrefused, herrs, hwraps⟩ := h
  exact ⟨resp, cause, hrefused, herrs, hwraps.wrap⟩

/-- A refusal is not taken for an absence. -/
theorem notFound_of_refusal {q : Brokerrpc.Request} {resp : Response} {e : Err}
    (h : Refusal d.srv d.sc d.authorization q resp.status) (he : Errs resp e) :
    e.is .errNotFound = false := by
  rw [← Bool.not_eq_true, he.is_iff]
  revert h
  generalize resp.status = status
  intro h
  cases h <;> decide

/-- A reported entry is classified as what it is. -/
theorem classify_entry {e : WireFile ⊕ WireDir} {V : Vol} {x : Loc} (hpath : path ≠ [])
    (h : Reports d.sc V x path e) :
    classifyReadMetadata (metadataResponse e) = e.elim (fun _ => .file) fun _ => .directory := by
  cases e with
  | inl f =>
      obtain ⟨bs, -, hf⟩ := h
      simp [metadataResponse, classifyReadMetadata, Ocufs.classifyMetaArms,
        Peer.WireFile.file, hf.path, hpath]
  | inr d =>
      obtain ⟨-, hd, -⟩ := h
      simp [metadataResponse, classifyReadMetadata, Ocufs.classifyMetaArms,
        Peer.WireDir.directory, Brokerrpc.File.zero, hd, hpath]

/-- What a metadata read returns is what the store has there. -/
theorem looked_of_turn {V V' : Vol} {resp : Response} {r : Except Err ReadMetadataResponse}
    (hpath : path ≠ []) (hturn : d.Turn source (metadataRequest d path) V resp V')
    (hr : MetadataRead resp r) : Looked d path V r := by
  cases hr with
  | @read e h =>
      subst h
      have he := hturn.reports
      have harm := classify_entry hpath he
      cases e with
      | inl f =>
          obtain ⟨bs, hfile, hf⟩ := he
          refine .file hfile harm hf.size ?_
          rw [← hf.uuid]
          exact String.toList_ofList
      | inr dir => exact .directory he.1 harm
  | @failed e he =>
      obtain hrefused | hanswered := hturn.of_ne_upload (by simp [metadataRequest, Peer.opOf])
      · exact .refused ⟨resp, _, hrefused, he, .self⟩ (notFound_of_refusal hrefused he)
      · have hnone : V.node (d.sc.locOf path) = none := by
          rw [metadataRequest, Peer.commandOf, Peer.Command.Answered] at hanswered
          split at hanswered
          · assumption
          · obtain ⟨e', rfl, -⟩ := hanswered
            exact absurd he.le (Peer.ok_of_status rfl).not_le
        cases his : e.is .errNotFound with
        | true => exact .missing hnone his
        | false => exact .beyond hnone his

/-- A request that only reads. -/
theorem quiet_of_turn {q : Brokerrpc.Request} {s s₁ s' : Store} {resp : Response}
    (hdrifts : d.Drifts s s₁) (hturn : d.Turn source q s₁.volume resp s'.volume)
    (hop : Peer.writeIntentOps (Peer.opOf q) = false) : d.Quiet s s' :=
  hdrifts.quiet.trans (Peer.Deployment.quiet_of_volume (hturn.volume hop))

end Lookups

/-! ## methods that read -/

/-- Why an object is not resolved. -/
inductive Unresolved (d : Deployment) (path : Path) (V : Vol) : Err → Prop
  | absent {e : Err} (h : V.file (d.sc.locOf path) = none) : Unresolved d path V e
  | refused {e : Err} (h : Refused d (metadataRequest d path) e) : Unresolved d path V e

/-- What becomes of a lookup that has to find a file.  What is `known` of the
guarded fields then holds. -/
inductive Resolved (d : Deployment) (path : Path) (known : Meta → Prop) (s s' : Store) (m : Meta) :
    Except Err Unit → Prop
  | ok (h : d.Quiet s s') (hm : known m) : Resolved d path known s s' m (.ok ())
  | error {s₁ : Store} {e : Err} (h : d.Quiet s s₁) (h' : s'.volume = s₁.volume)
      (hwhy : Unresolved d path s₁.volume e) : Resolved d path known s s' m (.error e)

theorem Resolved.quiet {d : Deployment} {path : Path} {known : Meta → Prop} {s s' : Store}
    {m : Meta} {r : Except Err Unit} (h : Resolved d path known s s' m r) : d.Quiet s s' := by
  cases h with
  | ok h => exact h
  | error h h' => exact h.trans (Peer.Deployment.quiet_of_volume h')

/-- What holds of the guarded fields of an object all the while, and what from
the moment on that it has its uuid, whatever other calls do. -/
structure Resolving (d : Deployment) (path : Path) (s : Store) (others : Meta → Meta → Prop)
    (cell known : Meta → Prop) : Prop where
  stable : Stable others cell
  stays : Stable others known
  cell_of_known : ∀ m, known m → cell m
  of_uuid : ∀ m, cell m → m.uuid ≠ "" → known m
  of_file : ∀ (s₁ : Store) (bs : List UInt8) (file : Brokerrpc.File), d.Quiet s s₁ →
    s₁.volume.file (d.sc.locOf path) = some bs → file.size = bs.length →
    file.uuid.toList = uuidForRelPath d.sc.filesystemID path → known (.ofFile file)

/-- Other calls leave any uuid that the path can have. -/
theorem resolving_leaving (d : Deployment) (path : Path) (s : Store) :
    Resolving d path s (leaving (Handles d.sc path)) (Handles d.sc path) (Handles d.sc path) where
  stable := stable_leaving _
  stays := stable_leaving _
  cell_of_known _ h := h
  of_uuid _ h _ := h
  of_file _ _ _ _ _ _ huuid := .inr huuid

section Reading

variable {d : Deployment} {source : Source} {others : Meta → Meta → Prop} {cell known : Meta → Prop}
  {w : World} {s : Store} {m : Meta} {o : Object} {f : Fs}

theorem file_none_of_node {V : Vol} {x : Loc} (h : V.node x = none) : V.file x = none := by
  rw [FileVolume.file, h]
  rfl

/-- Resolving an object. -/
theorem meets_resolve (hc : o.fs.client = d.client) (hpath : o.path ≠ []) (hsite : Site d.ts w s)
    (hres : Resolving d o.path s others cell known) (hcell : cell m) :
    Meets (mounted d source others) (fun t r => ∃ s', Site d.ts t.1 s' ∧ cell t.2 ∧
      Resolved d o.path known s s' t.2 r) (w, m) o.resolve := by
  unfold Object.resolve
  refine meets_peek hres.stable hcell fun m hcell => ?_
  split
  · next huuid => exact ⟨s, hsite, hcell, .ok .refl (hres.of_uuid m hcell huuid)⟩
  · rw [hc]
    refine meets_send hres.stable hcell (Peer.meets_readMetadata_client hsite o.path)
      fun w' m' r hcell' hr => ?_
    obtain ⟨s₁, s', resp, hdrifts, hsite', hturn, htells⟩ := hr
    have hquiet := quiet_of_turn hdrifts hturn rfl
    have hvolume : s'.volume = s₁.volume := hturn.volume rfl
    have hfail {e : Err} (hwhy : Unresolved d o.path s₁.volume e) :
        Meets (mounted d source others) (fun t r => ∃ s', Site d.ts t.1 s' ∧ cell t.2 ∧
          Resolved d o.path known s s' t.2 r) (w', m') (.ret (.error e)) :=
      ⟨s', hsite', hcell', .error hdrifts.quiet hvolume hwhy⟩
    cases looked_of_turn hpath hturn htells with
    | file hfile harm hsize huuid =>
        dsimp only
        rw [harm]
        refine meets_poke hres.stable hcell' (fun _ _ =>
          hres.of_file s₁ _ _ hdrifts.quiet hfile hsize huuid) fun m'' hknown => ?_
        exact ⟨s', hsite', hres.cell_of_known m'' hknown, .ok hquiet hknown⟩
    | directory hdir harm =>
        dsimp only
        rw [harm]
        exact hfail (.absent (FileVolume.file_of_isDir hdir))
    | missing hnone he =>
        dsimp only
        rw [if_pos he]
        exact hfail (.absent (file_none_of_node hnone))
    | beyond hnone he =>
        dsimp only
        rw [he]
        exact hfail (.absent (file_none_of_node hnone))
    | refused h he =>
        dsimp only
        rw [he]
        exact hfail (.refused h.wrap)

/-- A field of an object, which is resolved before if need be. -/
theorem meets_getter {α : Type} (hc : o.fs.client = d.client) (hpath : o.path ≠ [])
    (hsite : Site d.ts w s) (hres : Resolving d o.path s others cell known) (hcell : cell m)
    (unresolved : Meta → Bool) (field : Meta → α) :
    Meets (mounted d source others) (fun t _ => ∃ s', Site d.ts t.1 s' ∧ cell t.2 ∧ d.Quiet s s')
      (w, m) (o.getter unresolved field) := by
  unfold Object.getter
  refine meets_peek hres.stable hcell fun m hcell => ?_
  dsimp only
  split
  · refine Prog.Safe.bind (meets_resolve hc hpath hsite hres hcell) ?_
    rintro ⟨w', m'⟩ r ⟨s', hsite', hcell', hr⟩
    exact meets_peek hres.stable hcell' fun m'' hcell'' => ⟨s', hsite', hcell'', hr.quiet⟩
  · exact meets_peek hres.stable hcell fun m' hcell' => ⟨s, hsite, hcell', .refl⟩

end Reading

/-! ## opening -/

/-- Values of Go's `int64`: an offset, and what `Decode` returns. -/
def Int64Option : OpenOption → Prop
  | .seek offset => -maxInt64 - 1 ≤ offset ∧ offset ≤ maxInt64
  | .range r => ∀ size, (-maxInt64 - 1 ≤ (r.decode size).1 ∧ (r.decode size).1 ≤ maxInt64) ∧
      -maxInt64 - 1 ≤ (r.decode size).2 ∧ (r.decode size).2 ≤ maxInt64
  | .other _ _ => True

structure Int64Window (w : Window) : Prop where
  offset : -maxInt64 - 1 ≤ w.offset ∧ w.offset ≤ maxInt64
  length : -maxInt64 - 1 ≤ w.length ∧ w.length ≤ maxInt64

theorem toEnd_range (size offset : Int) :
    -maxInt64 - 1 ≤ Ocufs.toEnd size offset ∧ Ocufs.toEnd size offset ≤ maxInt64 := by
  have hrange := int64_range (size - offset)
  unfold Ocufs.toEnd
  dsimp only
  split
  · decide
  · exact hrange

theorem Int64Window.apply {size : Int} {w w' : Window} {opt : OpenOption} (hw : Int64Window w)
    (hopt : Int64Option opt) (h : Ocufs.applyOption size w opt = .ok w') : Int64Window w' := by
  cases opt with
  | seek offset =>
      cases h
      exact ⟨hopt, toEnd_range size offset⟩
  | range r =>
      have hdecode := hopt size
      rw [Ocufs.applyOption] at h
      dsimp only at h
      split at h
      · cases h
        exact ⟨hdecode.1, toEnd_range size _⟩
      · cases h
        exact ⟨hdecode.1, hdecode.2⟩
  | other mandatory typeName =>
      rw [Ocufs.applyOption] at h
      split at h
      · cases h
      · cases h
        exact hw

/-- The options keep the window within 64 bits. -/
theorem Int64Window.applyAll {size : Int} {w w' : Window} {options : List OpenOption}
    (hw : Int64Window w) (hopts : ∀ opt ∈ options, Int64Option opt)
    (h : Ocufs.applyOptions size w options = .ok w') : Int64Window w' := by
  induction options generalizing w with
  | nil =>
      cases h
      exact hw
  | cons opt options ih =>
      obtain ⟨hopt, hrest⟩ := List.forall_mem_cons.mp hopts
      rw [Ocufs.applyOptions] at h
      cases hone : Ocufs.applyOption size w opt with
      | error e =>
          rw [hone] at h
          cases h
      | ok w₁ =>
          rw [hone] at h
          exact ih (hw.apply hopt hone) hrest h

/-- The bytes of a file that a window is of. -/
def bytesOf (w : Window) (bs : List UInt8) : List UInt8 :=
  if w.fullRead then bs else (bs.drop w.offset.toNat).take w.length.toNat

/-- The range that is asked for of a window. -/
def rangeOf (w : Window) : Option Brokerrpc.Range :=
  if w.fullRead then none else some ⟨w.offset, w.length⟩

/-- How much of a window is read. -/
def limitOf (d : Deployment) (w : Window) : Int :=
  if w.fullRead then d.client.maxDownloadBytes else w.length

/-- The window that the options ask for of an object whose guarded fields are
`known`. -/
def Asks (known : Meta → Prop) (options : List OpenOption) (w : Window) : Prop :=
  ∃ m, known m ∧ Ocufs.applyOptions m.size ⟨0, 0, true⟩ options = .ok w

/-- The error of a window that starts or ends before its file. -/
def negativeWindow (w : Window) : Err :=
  if w.offset < 0 then .text [.lit "brokerrpc: DownloadRange: negative offset ", .int w.offset]
  else .text [.lit "brokerrpc: DownloadRange: negative length ", .int w.length]

def downloadRequest (d : Deployment) (uuid : String) (rng : Option Brokerrpc.Range) :
    Brokerrpc.Request :=
  .fileDownload ⟨d.client.fsID, uuid, rng, Client.authMeta .fileDownload⟩

/-- A file of the scope that has the uuid of a path. -/
structure Holds (d : Deployment) (path : Path) (V : Vol) (ss : Loc) (bs : List UInt8) : Prop where
  file : V.file (d.sc.loc ++ ss) = some bs
  uuid : uuidForRelPath d.sc.filesystemID (Peer.relText ss) =
    uuidForRelPath d.sc.filesystemID path

/-- Why a file is not opened. -/
inductive Unopened (d : Deployment) (path : Path) (known : Meta → Prop)
    (options : List OpenOption) (V : Vol) : Err → Prop
  | unresolved {e : Err} (h : Unresolved d path V e) : Unopened d path known options V e
  /-- Another call has cleared the uuid in the meantime. -/
  | noHandle {m : Meta} (hm : known m) (hnone : m.uuid = "") :
      Unopened d path known options V (.text [.lit "ocufs: Open ", .quoted path,
        .lit ": resolved metadata carries no uuid handle"])
  | badOption {m : Meta} {e : Err} (hm : known m)
      (h : Ocufs.applyOptions m.size ⟨0, 0, true⟩ options = .error e) :
      Unopened d path known options V e
  | negative {w : Window} (hw : Asks known options w) (hfull : w.fullRead = false)
      (h : w.offset < 0 ∨ w.length < 0) : Unopened d path known options V (negativeWindow w)
  | overflows {w : Window} {ss : Loc} {bs : List UInt8} {resp : Response} {e : Err}
      (hw : Asks known options w) (hfull : w.fullRead = false) (hfile : Holds d path V ss bs)
      (hlong : maxInt64 < min w.offset bs.length + w.length) (hstatus : resp.status = 400)
      (herrs : Errs resp e) : Unopened d path known options V e
  | gone {e : Err} (h : V.file (d.sc.locOf path) = none) : Unopened d path known options V e
  | refused {w : Window} {uuid : String} {e : Err} (hw : Asks known options w)
      (huuid : uuid.toList = uuidForRelPath d.sc.filesystemID path)
      (h : Refused d (downloadRequest d uuid (rangeOf w)) e) : Unopened d path known options V e
  | tooLong {w : Window} {ss : Loc} {bs : List UInt8} {text : List Frag}
      (hw : Asks known options w) (hfull : w.fullRead = true) (hfile : Holds d path V ss bs)
      (hlong : d.client.maxDownloadBytes < bs.length) :
      Unopened d path known options V (.text text)

/-- What opening a file gives, as the volume is when it is asked for. -/
inductive Opened (d : Deployment) (path : Path) (known : Meta → Prop) (options : List OpenOption)
    (V : Vol) : Except Err Brokerrpc.Body → Prop
  | read {ss : Loc} {bs : List UInt8} {w : Window} {body : Brokerrpc.Body}
      (hfile : Holds d path V ss bs) (hw : Asks known options w)
      (hbody : Ocufs.ReadsTo body (bytesOf w bs)) : Opened d path known options V (.ok body)
  | empty {w : Window} {body : Brokerrpc.Body} (hw : Asks known options w)
      (hfull : w.fullRead = false) (hzero : w.length = 0) (hbody : Ocufs.ReadsTo body []) :
      Opened d path known options V (.ok body)
  | failed {e : Err} (h : Unopened d path known options V e) :
      Opened d path known options V (.error e)

section Opening

variable {d : Deployment} {source : Source} {others : Meta → Meta → Prop} {cell known : Meta → Prop}
  {w : World} {s : Store} {m : Meta} {o : Object} {options : List OpenOption} {path : Path}

/-- What the peer sends of a window: its bytes, no more than are read unless
the whole file is too long; or it finds that the window ends nowhere. -/
theorem downloaded_rangeOf {win : Window} {bs : List UInt8} (hint : Int64Window win)
    (hpos : win.fullRead = false → 0 ≤ win.offset ∧ 0 ≤ win.length)
    (hbs : (bs.length : Int) ≤ maxInt64) :
    (∃ n, Peer.downloaded bs (rangeOf win) = .stream n (bytesOf win bs) ∧
      (limitOf d win < n → win.fullRead = true ∧ d.client.maxDownloadBytes < bs.length)) ∨
    win.fullRead = false ∧ maxInt64 < min win.offset bs.length + win.length ∧
      (Peer.downloaded bs (rangeOf win)).status = 400 := by
  cases hfull : win.fullRead with
  | true =>
      rw [rangeOf, bytesOf, limitOf, if_pos hfull, if_pos hfull, if_pos hfull,
        Peer.downloaded_whole]
      exact .inl ⟨_, rfl, fun hlong => ⟨rfl, hlong⟩⟩
  | false =>
      have hnot : ¬ win.fullRead = true := by simp [hfull]
      rw [rangeOf, bytesOf, limitOf, if_neg hnot, if_neg hnot, if_neg hnot]
      obtain ⟨ho, hl⟩ := hpos hfull
      obtain ⟨n, hn, hstream⟩ | ⟨hlong, hstatus⟩ :=
        Peer.downloaded_window ho hl hint.length.2 hbs
      · exact .inl ⟨n, hstream, fun hlt => absurd hn (Int.not_le.mpr hlt)⟩
      · exact .inr ⟨rfl, hlong, hstatus⟩

/-- What a download by the uuid of a path finds. -/
theorem opened_of_turn {V V' : Vol} {resp : Response} {uuid : String}
    {r : Except Err Brokerrpc.Body} {win : Window}
    (huuid : uuid.toList = uuidForRelPath d.sc.filesystemID path) (hw : Asks known options win)
    (hint : Int64Window win) (hpos : win.fullRead = false → 0 ≤ win.offset ∧ 0 ≤ win.length)
    (hsmall : ∀ x bs, V.file x = some bs → (bs.length : Int) ≤ maxInt64)
    (hturn : d.Turn source (downloadRequest d uuid (rangeOf win)) V resp V')
    (hr : Downloaded (limitOf d win) resp r) : Opened d path known options V r := by
  obtain hrefused | hanswered := hturn.of_ne_upload nofun
  · cases hr with
    | failed he => exact .failed (.refused hw huuid ⟨resp, _, hrefused, he, .self⟩)
    | read h | tooLong h =>
        subst h
        exact absurd hrefused.le (Peer.ok_of_status rfl).not_le
  · have hne : uuid.toList ≠ [] := by
      rw [huuid]
      exact Peer.uuidForRelPath_ne_nil _ _
    rw [downloadRequest, Peer.commandOf, Peer.Command.Answered, if_neg hne, huuid] at hanswered
    obtain ⟨ss, bs, hbs, heq, rfl⟩ | ⟨hnone, hstatus⟩ := hanswered
    · have hfile : Holds d path V ss bs := ⟨hbs, heq⟩
      obtain ⟨n, hstream, hlimit⟩ | ⟨hfull, hlong, hstatus⟩ :=
        downloaded_rangeOf (d := d) hint hpos (hsmall _ bs hbs)
      · rw [hstream] at hr
        cases hr with
        | read h hfits hbody =>
            cases h
            exact .read hfile hw hbody
        | tooLong h hlt =>
            cases h
            exact .failed (.tooLong hw (hlimit hlt).1 hfile (hlimit hlt).2)
        | failed he => exact absurd he.le (Peer.ok_of_status rfl).not_le
      · cases hr with
        | read h | tooLong h =>
            rw [h] at hstatus
            cases hstatus
        | failed he => exact .failed (.overflows hw hfull hfile hlong hstatus he)
    · have hgone : V.file (d.sc.locOf path) = none := by
        by_contra hfile
        refine hnone (place path) hfile ?_
        exact Peer.uuidForRelPath_congr _ (Peer.place_relText (Peer.plain_place path))
      cases hr with
      | failed he => exact .failed (.gone hgone)
      | read h | tooLong h =>
          subst h
          cases hstatus

/-- A window that is asked for. -/
theorem meets_download (source : Source) {s₀ : Store} {win : Window} (hsite : Site d.ts w s)
    (hstable : Stable others cell) (hcell : cell m)
    (huuid : m.uuid.toList = uuidForRelPath d.sc.filesystemID path)
    (hasks : Asks known options win) (hint : Int64Window win)
    (hpos : win.fullRead = false → 0 ≤ win.offset ∧ 0 ≤ win.length) (hquiet : d.Quiet s₀ s) :
    Meets (mounted d source others) (fun t r => ∃ s₁ s', Site d.ts t.1 s' ∧ cell t.2 ∧
      d.Quiet s₀ s₁ ∧ s'.volume = s₁.volume ∧ Opened d path known options s₁.volume r) (w, m)
      (send (d.client.stamped .fileDownload .error fun fsID am =>
        d.client.doDownload fsID m.uuid am (rangeOf win) (limitOf d win))) := by
  rw [Client.stamped_eq]
  refine (meets_sent hstable hcell (Peer.meets_doDownload hsite m.uuid _ _ ?_)).mono ?_
  · intro rng hrng
    have hrange : rangeOf win = some rng := hrng
    unfold rangeOf at hrange
    split at hrange
    · cases hrange
    · cases hrange
      exact ⟨hint.offset, hint.length⟩
  · rintro ⟨w', m'⟩ r ⟨hcell', s₂, s', resp, hdrifts, hsite', hturn, htells⟩
    have hvolume : s'.volume = s₂.volume := hturn.volume rfl
    refine ⟨s₂, s', hsite', hcell', hquiet.trans hdrifts.quiet, hvolume, ?_⟩
    exact opened_of_turn huuid hasks hint hpos (hvolume ▸ hsite'.small) hturn htells

/-- A window of a file: one with a negative bound and an empty one are settled
without a request. -/
theorem meets_downloadRange (source : Source) {s₀ : Store} {win : Window} (hsite : Site d.ts w s)
    (hstable : Stable others cell) (hcell : cell m)
    (huuid : m.uuid.toList = uuidForRelPath d.sc.filesystemID path)
    (hasks : Asks known options win) (hint : Int64Window win) (hfull : win.fullRead = false)
    (hquiet : d.Quiet s₀ s) :
    Meets (mounted d source others) (fun t r => ∃ s₁ s', Site d.ts t.1 s' ∧ cell t.2 ∧
      d.Quiet s₀ s₁ ∧ s'.volume = s₁.volume ∧ Opened d path known options s₁.volume r) (w, m)
      (send (d.client.downloadRange m.uuid win.offset win.length)) := by
  have hlocal {r : Except Err Brokerrpc.Body} (hr : Opened d path known options s.volume r) :
      Meets (mounted d source others) (fun t r => ∃ s₁ s', Site d.ts t.1 s' ∧ cell t.2 ∧
        d.Quiet s₀ s₁ ∧ s'.volume = s₁.volume ∧ Opened d path known options s₁.volume r)
        (w, m) (.ret r) :=
    ⟨s, s, hsite, hcell, hquiet, rfl, hr⟩
  unfold Client.downloadRange
  split
  · next hneg =>
      have hfailed : Unopened d path known options s.volume _ := .negative hasks hfull (.inl hneg)
      rw [negativeWindow, if_pos hneg] at hfailed
      exact hlocal (.failed hfailed)
  · next ho =>
      split
      · next hneg =>
          have hfailed : Unopened d path known options s.volume _ :=
            .negative hasks hfull (.inr hneg)
          rw [negativeWindow, if_neg ho] at hfailed
          exact hlocal (.failed hfailed)
      · next hl =>
          split
          · next hzero => exact hlocal (.empty hasks hfull hzero Ocufs.readsTo_noBody)
          · have hnot : ¬ win.fullRead = true := by simp [hfull]
            have hwindow := meets_download source hsite hstable hcell huuid hasks hint
              (fun _ => ⟨Int.not_lt.mp ho, Int.not_lt.mp hl⟩) hquiet
            rw [rangeOf, limitOf, if_neg hnot, if_neg hnot] at hwindow
            exact hwindow

/-- Opening a file, with any options. -/
theorem meets_open (hc : o.fs.client = d.client) (hpath : o.path ≠ []) (hsite : Site d.ts w s)
    (hres : Resolving d o.path s others cell known)
    (hhandles : ∀ m, known m → Handles d.sc o.path m) (hcell : cell m)
    (hopts : ∀ opt ∈ options, Int64Option opt) :
    Meets (mounted d source others) (fun t r => ∃ s₁ s', Site d.ts t.1 s' ∧ cell t.2 ∧
      d.Quiet s s₁ ∧ s'.volume = s₁.volume ∧ Opened d o.path known options s₁.volume r) (w, m)
      (o.open options) := by
  unfold Object.open
  refine Prog.Safe.bind (meets_resolve hc hpath hsite hres hcell) ?_
  rintro ⟨w₁, m₁⟩ r ⟨s₁, hsite₁, hcell₁, hresolved⟩
  cases hresolved with
  | error h h' hwhy => exact ⟨_, s₁, hsite₁, hcell₁, h, h', .failed (.unresolved hwhy)⟩
  | ok hquiet hknown =>
      refine meets_peek hres.stays hknown fun m₂ hknown₂ => ?_
      have hcell₂ := hres.cell_of_known m₂ hknown₂
      have hlocal {r : Except Err Brokerrpc.Body}
          (hr : Opened d o.path known options s₁.volume r) :
          Meets (mounted d source others) (fun t r => ∃ s₁ s', Site d.ts t.1 s' ∧ cell t.2 ∧
            d.Quiet s s₁ ∧ s'.volume = s₁.volume ∧ Opened d o.path known options s₁.volume r)
            (w₁, m₂) (.ret r) :=
        ⟨s₁, s₁, hsite₁, hcell₂, hquiet, rfl, hr⟩
      split
      · next hnone => exact hlocal (.failed (.noHandle hknown₂ hnone))
      · next hne =>
          have huuid := (hhandles m₂ hknown₂).resolve_left hne
          split
          · next e happly => exact hlocal (.failed (.badOption hknown₂ happly))
          · next win happly =>
              have hasks : Asks known options win := ⟨m₂, hknown₂, happly⟩
              have hint := Int64Window.applyAll ⟨by decide, by decide⟩ hopts happly
              rw [hc]
              split
              · next hfull =>
                  have hwhole := meets_download source hsite₁ hres.stable hcell₂ huuid hasks hint
                    (fun hfalse => by cases hfull.symm.trans hfalse) hquiet
                  rw [rangeOf, limitOf, if_pos hfull, if_pos hfull] at hwhole
                  exact hwhole
              · next hnot =>
                  exact meets_downloadRange source hsite₁ hres.stable hcell₂ huuid hasks hint
                    (Bool.not_eq_true _ ▸ hnot) hquiet

end Opening

/-! ## lookups and listings -/

/-- What `NewObject` finds. -/
inductive Found (d : Deployment) (f : Fs) (remote : Path) (V : Vol) :
    Except Err (Object × Meta) → Prop
  | file {bs : List UInt8} {m : Meta} (hfile : V.file (d.sc.locOf (f.absPath remote)) = some bs)
      (hsize : m.size = bs.length)
      (huuid : m.uuid.toList = uuidForRelPath d.sc.filesystemID (f.absPath remote)) :
      Found d f remote V (.ok (⟨f, remote, f.absPath remote⟩, m))
  | directory (hdir : V.IsDir (d.sc.locOf (f.absPath remote))) :
      Found d f remote V (.error (.sentinel .fsErrorIsDir))
  | missing (hnone : V.node (d.sc.locOf (f.absPath remote)) = none) :
      Found d f remote V (.error (.sentinel .fsErrorObjectNotFound))
  | failed {e : Err} (h : Unresolved d (f.absPath remote) V e) : Found d f remote V (.error e)

/-- The remote of a child, by its name on the wire. -/
def childRemote (f : Fs) (dir : Path) (name : Path) : Path :=
  if dir = [] then f.enc.toStandardPath name else join dir (f.enc.toStandardPath name)

/-- The path of a child. -/
def childPath (f : Fs) (dir : Path) (name : Path) : Path :=
  fromRoot (place (f.absPath dir) ++ [name])

/-- What a listing shows of a child. -/
inductive Shown (d : Deployment) (f : Fs) (dir : Path) (V : Vol) (name : Path) : DirEntry → Prop
  | file {bs : List UInt8} {m : Meta}
      (hfile : V.file (d.sc.locOf (f.absPath dir) ++ [name]) = some bs) (hsize : m.size = bs.length)
      (huuid : m.uuid.toList = uuidForRelPath d.sc.filesystemID (childPath f dir name)) :
      Shown d f dir V name (.object ⟨f, childRemote f dir name, childPath f dir name⟩ m)
  | directory {mtime : String} (hdir : V.IsDir (d.sc.locOf (f.absPath dir) ++ [name])) :
      Shown d f dir V name (.dir (childRemote f dir name) mtime)

def listRequest (d : Deployment) (path : Path) : Brokerrpc.Request :=
  .listDirectory ⟨d.client.fsID, path, Client.authMeta .listDirectory, ""⟩

/-- Why a directory is not listed. -/
inductive Unlisted (d : Deployment) (path : Path) (V : Vol) : Err → Prop
  | noDirectory {e : Err} (h : ¬ V.IsDir (d.sc.locOf path)) : Unlisted d path V e
  | refused {e : Err} (h : Refused d (listRequest d path) e) : Unlisted d path V e
  | tooLong {e : Err} {es : List (WireFile ⊕ WireDir)}
      (h : (Peer.Command.listDirectory path).Answered d.sc V (.entries es))
      (hlong : ¬ FitsReply (Peer.entriesMembers es)) (hunread : Unread .listDirectory e) :
      Unlisted d path V e

/-- What a listing returns: every child once. -/
inductive Listed (d : Deployment) (f : Fs) (dir : Path) (V : Vol) :
    Except Err (List DirEntry) → Prop
  | entries {names : List Path} {entries : List DirEntry}
      (hdir : V.IsDir (d.sc.locOf (f.absPath dir))) (hnodup : names.Nodup)
      (hnames : ∀ name, name ∈ names ↔ V.node (d.sc.locOf (f.absPath dir) ++ [name]) ≠ none)
      (hall : List.Forall₂ (Shown d f dir V) names entries) : Listed d f dir V (.ok entries)
  | missing (hnone : V.node (d.sc.locOf (f.absPath dir)) = none) :
      Listed d f dir V (.error (.sentinel .fsErrorDirNotFound))
  | failed {e : Err} (h : Unlisted d (f.absPath dir) V e) : Listed d f dir V (.error e)

section Listings

variable {d : Deployment} {source : Source} {cell : Meta → Prop} {w : World} {s : Store}
  {m : Meta} {f : Fs}

theorem absPath_ne_nil (f : Fs) (rel : Path) : f.absPath rel ≠ [] := by
  obtain ⟨ts, -, habs⟩ := Ocufs.exists_absPath f rel
  rw [habs, fromRoot]
  exact List.cons_ne_nil _ _

/-- `NewObject` finds what the store has. -/
theorem meets_newObject (hc : f.client = d.client) (hsite : Site d.ts w s) (hcell : cell m)
    (remote : Path) :
    Meets (mounted d source (leaving cell)) (fun t r => ∃ s₁ s', Site d.ts t.1 s' ∧ cell t.2 ∧
      d.Quiet s s₁ ∧ s'.volume = s₁.volume ∧ Found d f remote s₁.volume r) (w, m)
      (f.newObject remote) := by
  unfold Fs.newObject
  dsimp only
  rw [hc]
  refine meets_send (stable_leaving cell) hcell (Peer.meets_readMetadata_client hsite _)
    fun w' m' r hcell' hr => ?_
  obtain ⟨s₁, s', resp, hdrifts, hsite', hturn, htells⟩ := hr
  have hret {r : Except Err (Object × Meta)} (hr : Found d f remote s₁.volume r) :
      Meets (mounted d source (leaving cell)) (fun t r => ∃ s₁ s', Site d.ts t.1 s' ∧ cell t.2 ∧
        d.Quiet s s₁ ∧ s'.volume = s₁.volume ∧ Found d f remote s₁.volume r) (w', m') (.ret r) :=
    ⟨s₁, s', hsite', hcell', hdrifts.quiet, hturn.volume rfl, hr⟩
  cases looked_of_turn (absPath_ne_nil f remote) hturn htells with
  | file hfile harm hsize huuid =>
      dsimp only
      rw [harm]
      exact hret (.file hfile hsize huuid)
  | directory hdir harm =>
      dsimp only
      rw [harm]
      exact hret (.directory hdir)
  | missing hnone he =>
      dsimp only
      rw [if_pos he]
      exact hret (.missing hnone)
  | beyond hnone he =>
      dsimp only
      rw [he]
      exact hret (.failed (.absent (file_none_of_node hnone)))
  | refused h he =>
      dsimp only
      rw [he]
      exact hret (.failed (.refused h.wrap))

theorem cleanPath_eq (p : Path) : Ocufs.cleanPath p = fromRoot (place p) :=
  SlashPath.clean_sep_cons p

theorem place_fromRoot {ts : Loc} (hts : ∀ t ∈ ts, Plain t) : place (fromRoot ts) = ts := by
  have hclean : Ocufs.cleanPath (fromRoot ts) = fromRoot ts := SlashPath.clean_sep_fromRoot hts
  exact SlashPath.fromRoot_injective (Peer.plain_place _) hts
    ((cleanPath_eq _).symm.trans hclean)

/-- A child is kept, under its name. -/
theorem childName_join {dir name : Path} (hname : Plain name) :
    Ocufs.childName (f.absPath dir) (Ocufs.cleanPath (join (f.absPath dir) name)) = some name := by
  obtain ⟨ts, hts, habs⟩ := Ocufs.exists_absPath f dir
  rw [cleanPath_eq, Peer.place_join _ hname, habs, place_fromRoot hts]
  have hplain : ∀ t ∈ ts ++ [name], Plain t :=
    List.forall_mem_append.mpr ⟨hts, by simpa using hname⟩
  exact (Ocufs.childName_fromRoot hts hplain).mpr rfl

/-- The entry of a child. -/
theorem shown_childEntry {V : Vol} {dir name : Path} {e : WireFile ⊕ WireDir} (hname : Plain name)
    (h : Reports d.sc V (d.sc.locOf (f.absPath dir) ++ [name]) (join (f.absPath dir) name) e) :
    ∃ entry, f.childEntry dir (listEntry e) = some entry ∧ Shown d f dir V name entry := by
  have hplace := Peer.place_join (f.absPath dir) hname
  cases e with
  | inl wf =>
      obtain ⟨bs, hfile, hreports⟩ := h
      have hpath : Ocufs.entryPath (listEntry (.inl wf)) = some (join (f.absPath dir) name) :=
        congrArg some hreports.path
      have hclean : Ocufs.cleanPath wf.path = childPath f dir name := by
        rw [hreports.path, cleanPath_eq, hplace, childPath]
      unfold Fs.childEntry
      rw [hpath, Option.bind_some, childName_join hname, Option.map_some]
      refine ⟨_, rfl, ?_⟩
      have hobject := Shown.file (d := d) (f := f) (m := .ofFile wf.file) hfile hreports.size ?_
      · rw [← hclean] at hobject
        exact hobject
      · show (String.ofList wf.uuid).toList = _
        rw [String.toList_ofList, hreports.uuid]
        refine Peer.uuidForRelPath_congr _ (hplace.trans (place_fromRoot ?_).symm)
        exact List.forall_mem_append.mpr ⟨Peer.plain_place _, by simpa using hname⟩
  | inr wd =>
      obtain ⟨hdir, hwd, -⟩ := h
      have hpath : Ocufs.entryPath (listEntry (.inr wd)) = some (join (f.absPath dir) name) :=
        congrArg some hwd
      unfold Fs.childEntry
      rw [hpath, Option.bind_some, childName_join hname, Option.map_some]
      exact ⟨_, rfl, .directory hdir⟩

/-- What the entries of a directory are listed as. -/
theorem forall_shown {V : Vol} {dir : Path} {names : List Path}
    {es : List (WireFile ⊕ WireDir)} (hplain : ∀ name ∈ names, Plain name)
    (h : List.Forall₂ (fun name => Reports d.sc V (d.sc.locOf (f.absPath dir) ++ [name])
      (join (f.absPath dir) name)) names es) :
    List.Forall₂ (Shown d f dir V) names
      ((es.map listEntry).filterMap (f.childEntry dir)) := by
  induction h with
  | nil => exact .nil
  | @cons name e names es hreports _ ih =>
      obtain ⟨hname, hrest⟩ := List.forall_mem_cons.mp hplain
      obtain ⟨entry, hentry, hshown⟩ := shown_childEntry hname hreports
      rw [List.map_cons, List.filterMap_cons, hentry]
      exact .cons hshown (ih hrest)

/-- What a listing returns is what the store has there. -/
theorem listed_of_turn {V V' : Vol} {resp : Response} {dir : Path}
    {r : List DirEntry × Option Err} (hplain : V.Named Plain)
    (hturn : d.Turn source (listRequest d (f.absPath dir)) V resp V')
    (hr : ListingRead (f.listYield dir (f.absPath dir)) [] resp r) :
    Listed d f dir V (match r.2 with
      | some e => if e.is .errNotFound then .error (.sentinel .fsErrorDirNotFound)
          else .error (.wrap [.lit "ocufs: List ", .quoted (f.absPath dir), .lit ": "] e [])
      | none => .ok r.1) := by
  cases hr with
  | @read es h hfits =>
      subst h
      obtain ⟨hdir, names, hnodup, hnames, hall⟩ := hturn.lists
      rw [Ocufs.yieldAll_listYield, List.nil_append]
      refine .entries hdir hnodup hnames (forall_shown (fun name hname => ?_) hall)
      exact hplain _ ((hnames name).mp hname) name (by simp)
  | @tooLong es text h hlong =>
      subst h
      have hanswered := (hturn.answered (Peer.ok_of_status rfl)).1
      exact .failed (.tooLong hanswered hlong ⟨text, .wrap (.wrap .self)⟩)
  | @failed e he =>
      show Listed d f dir V (if e.is .errNotFound then .error _ else .error _)
      obtain hrefused | hanswered := hturn.of_ne_upload nofun
      · rw [notFound_of_refusal hrefused he]
        exact .failed (.refused ⟨resp, _, hrefused, he, .wrap (.wrap .self)⟩)
      rw [listRequest, Peer.commandOf, Peer.Command.Answered] at hanswered
      split at hanswered
      · obtain ⟨es', names, rfl, -⟩ := hanswered
        exact absurd he.le (Peer.ok_of_status rfl).not_le
      · next hdir =>
          split at hanswered
          · next hnone =>
              split
              · exact .missing hnone
              · exact .failed (.noDirectory hdir)
          · have hnot : ¬ e.is .errNotFound = true := by
              rw [he.is_iff, hanswered]
              decide
            rw [if_neg hnot]
            exact .failed (.noDirectory hdir)

/-- `List` lists what the store has. -/
theorem meets_list (hc : f.client = d.client) (hsite : Site d.ts w s) (hcell : cell m)
    (dir : Path) :
    Meets (mounted d source (leaving cell)) (fun t r => ∃ s₁ s', Site d.ts t.1 s' ∧ cell t.2 ∧
      d.Quiet s s₁ ∧ s'.volume = s₁.volume ∧ Listed d f dir s₁.volume r) (w, m) (f.list dir) := by
  unfold Fs.list
  dsimp only
  rw [hc]
  refine meets_send (stable_leaving cell) hcell (Peer.meets_listDirectoryStream hsite _ _ [])
    fun w' m' r hcell' hr => ?_
  obtain ⟨s₁, s', resp, hdrifts, hsite', hturn, htells⟩ := hr
  have hvolume : s'.volume = s₁.volume := hturn.volume rfl
  have hplain : s₁.volume.Named Plain := hvolume ▸ hsite'.regular.plain
  have hlisted := listed_of_turn hplain hturn htells
  obtain ⟨entries, err⟩ := r
  cases err with
  | none => exact ⟨s₁, s', hsite', hcell', hdrifts.quiet, hvolume, hlisted⟩
  | some e =>
      dsimp only at hlisted ⊢
      split at hlisted
      · next he =>
          rw [if_pos he]
          exact ⟨s₁, s', hsite', hcell', hdrifts.quiet, hvolume, hlisted⟩
      · next he =>
          rw [if_neg he]
          exact ⟨s₁, s', hsite', hcell', hdrifts.quiet, hvolume, hlisted⟩

end Listings

end OcuFilestore.Mounted
