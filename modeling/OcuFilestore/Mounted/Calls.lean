import OcuFilestore.Mounted.Reading

/-!
# OcuFilestore.Mounted.Calls

The methods of a mount that change something.  Each sends one request that
does, so whatever else is going on it takes effect at one moment, and it
reports success exactly if the store has carried it out (`call_once`), except
that an upload whose source fails may have been carried out all the same.  A
mount that is read-only, or that is given a file of another one, sends nothing.
-/

namespace OcuFilestore.Mounted

open Prog (Meets)
open Brokerrpc (WireProg Client)
open Ocufs (Fs Object Meta FsProg send peek poke Call Outcome DirEntry OpenOption)
open Peer (World Store Vol Source Response Deployment Site Acked Errs Refusal uuidForRelPath)

/-! ## one change -/

/-- A call with this request may not learn that it was carried out. -/
def Missed (source : Source) (q : Brokerrpc.Request) : Prop :=
  Peer.opOf q = .fileUpload ∧ ¬ source.Ends

/-- What became of a call that is to change something. -/
inductive Did (d : Deployment) (source : Source) (q : Brokerrpc.Request) (barred : Prop)
    {α : Type} (P : α → Prop) (s s' : Store) : Except Err α → Prop
  | barred {t : Sentinel} (h : barred) (hs : s' = s) :
      Did d source q barred P s s' (.error (.sentinel t))
  | done {resp : Response} {a : α} (hfree : ¬ barred) (h : d.Once source q resp s s')
      (hok : resp.Ok) (ha : P a) : Did d source q barred P s s' (.ok a)
  | failed {resp : Response} {e : Err} (hfree : ¬ barred) (h : d.Once source q resp s s')
      (hno : resp.Ok → Missed source q) : Did d source q barred P s s' (.error e)

section Changes

variable {d : Deployment} {source : Source} {cell : Meta → Prop} {w : World} {s : Store}
  {m : Meta} {f : Fs} {o : Object} {q : Brokerrpc.Request}

theorem Errs.not_ok {resp : Response} {e : Err} (h : Errs resp e) : ¬ resp.Ok := fun hok =>
  hok.not_le h.le

/-- A request that is acknowledged. -/
theorem meets_acked {α : Type} {Q : World × Meta → α → Prop} {lost : Prop}
    {p : WireProg (Except Err Unit)} {k : Except Err Unit → FsProg α} (hcell : cell m)
    (hp : Meets (d.broker source) (Peer.Served d source q s (Acked lost)) w p)
    (hok : ∀ w' m' s' resp, Site d.ts w' s' → cell m' → d.Once source q resp s s' → resp.Ok →
      Meets (mounted d source (leaving cell)) Q (w', m') (k (.ok ())))
    (hfail : ∀ w' m' s' resp e, Site d.ts w' s' → cell m' → d.Once source q resp s s' →
      Errs resp e ∨ lost → Meets (mounted d source (leaving cell)) Q (w', m') (k (.error e))) :
    Meets (mounted d source (leaving cell)) Q (w, m) (send p >>= k) := by
  refine meets_send (stable_leaving cell) hcell hp fun w' m' r hcell' hr => ?_
  obtain ⟨s₁, s', resp, hdrifts, hsite', hturn, htells⟩ := hr
  have honce : d.Once source q resp s s' := ⟨s₁, s', hdrifts.quiet, hturn, .refl⟩
  cases htells with
  | done h => exact hok w' m' s' resp hsite' hcell' honce h
  | failed he => exact hfail w' m' s' resp _ hsite' hcell' honce (.inl he)
  | untold h => exact hfail w' m' s' resp _ hsite' hcell' honce (.inr h)

/-- A call that fails although its request was carried out has missed it. -/
theorem missed_of_fail {lost : Prop} {resp : Response} {e : Err} (h : Errs resp e ∨ lost)
    (hlost : lost → Missed source q) : resp.Ok → Missed source q :=
  fun hok => hlost (h.resolve_left fun he => Errs.not_ok he hok)

/-- A call that returns when its request is acknowledged. -/
theorem meets_answered {α : Type} {P : α → Prop} {barred lost : Prop}
    {p : WireProg (Except Err Unit)} {k : Except Err Unit → FsProg (Except Err α)} {a : α}
    (hfree : ¬ barred) (hcell : cell m)
    (hp : Meets (d.broker source) (Peer.Served d source q s (Acked lost)) w p)
    (hlost : lost → Missed source q) (hok : k (.ok ()) = .ret (.ok a))
    (hfail : ∀ e, ∃ e', k (.error e) = .ret (.error e')) (ha : P a) :
    Meets (mounted d source (leaving cell)) (fun t r => ∃ s', Site d.ts t.1 s' ∧ cell t.2 ∧
      Did d source q barred P s s' r) (w, m) (send p >>= k) := by
  refine meets_acked hcell hp ?_ ?_
  · intro w' m' s' resp hsite' hcell' honce h
    rw [hok]
    exact ⟨s', hsite', hcell', .done hfree honce h ha⟩
  · intro w' m' s' resp e hsite' hcell' honce hwhy
    obtain ⟨e', he'⟩ := hfail e
    rw [he']
    exact ⟨s', hsite', hcell', .failed hfree honce (missed_of_fail hwhy hlost)⟩

/-- Others may go on after the one request. -/
theorem Once.quiet {resp : Response} {s₁ s' : Store} (h : d.Once source q resp s s₁)
    (h' : d.Quiet s₁ s') : d.Once source q resp s s' := by
  obtain ⟨s₂, s₃, hbefore, hturn, hafter⟩ := h
  exact ⟨s₂, s₃, hbefore, hturn, hafter.trans h'⟩

def uploadRequest (d : Deployment) (path : Path) (size : Int) : Brokerrpc.Request :=
  .fileUpload ⟨d.client.fsID, path, size, true, Client.authMeta .fileUpload⟩

/-- `Put` uploads the file once, or fails. -/
theorem meets_put (hc : f.client = d.client) (hsite : Site d.ts w s) (hcell : cell m)
    (remote : Path) {size : Int} (hsize : -maxInt64 - 1 ≤ size ∧ size ≤ maxInt64) :
    Meets (mounted d source (leaving cell)) (fun t r => ∃ s', Site d.ts t.1 s' ∧ cell t.2 ∧
      Did d source (uploadRequest d (f.absPath remote) size) (f.readOnly = true)
        (· = (⟨f, remote, f.absPath remote⟩, .ofSize size)) s s' r) (w, m) (f.put remote size) := by
  unfold Fs.put
  split
  · next hro => exact ⟨s, hsite, hcell, .barred hro rfl⟩
  · next hro =>
      dsimp only
      rw [hc]
      exact meets_answered hro hcell (Peer.meets_upload_client hsite _ true hsize)
        (fun hlost => ⟨rfl, hlost⟩) rfl (fun e => ⟨_, rfl⟩) rfl

/-- `Update` overwrites the file once, or fails. -/
theorem meets_update (hc : o.fs.client = d.client) (hsite : Site d.ts w s)
    (hcell : Handles d.sc o.path m) {size : Int} (hsize : -maxInt64 - 1 ≤ size ∧ size ≤ maxInt64) :
    Meets (mounted d source (leaving (Handles d.sc o.path))) (fun t r => ∃ s', Site d.ts t.1 s' ∧
      Handles d.sc o.path t.2 ∧ Did d source (uploadRequest d o.path size) (o.fs.readOnly = true)
        (fun _ => True) s s' r) (w, m) (o.update size) := by
  unfold Object.update
  split
  · next hro => exact ⟨s, hsite, hcell, .barred hro rfl⟩
  · next hro =>
      rw [hc]
      refine meets_acked hcell (Peer.meets_upload_client hsite _ true hsize) ?_ ?_
      · intro w' m' s' resp hsite' hcell' honce hok
        have hcleared : ∀ m, Handles d.sc o.path m →
            Handles d.sc o.path { m with uuid := "", size := size } := fun _ _ => .inl rfl
        refine meets_poke (stable_leaving _) hcell' hcleared fun m'' hcell'' => ?_
        exact ⟨s', hsite', hcell'', .done hro honce hok trivial⟩
      · intro w' m' s' resp e hsite' hcell' honce hwhy
        exact ⟨s', hsite', hcell', .failed hro honce
          (missed_of_fail hwhy fun hlost => ⟨rfl, hlost⟩)⟩

def removeFileRequest (d : Deployment) (path : Path) : Brokerrpc.Request :=
  .ack (.removeFile ⟨d.client.fsID, path, Client.authMeta .removeFile⟩)

/-- `Remove` removes the file once, or fails. -/
theorem meets_remove (hc : o.fs.client = d.client) (hsite : Site d.ts w s) (hcell : cell m) :
    Meets (mounted d source (leaving cell)) (fun t r => ∃ s', Site d.ts t.1 s' ∧ cell t.2 ∧
      Did d source (removeFileRequest d o.path) (o.fs.readOnly = true) (fun _ => True) s s' r)
      (w, m) o.remove := by
  unfold Object.remove
  split
  · next hro => exact ⟨s, hsite, hcell, .barred hro rfl⟩
  · next hro =>
      rw [hc]
      have hcall : Meets (d.broker source) _ w (d.client.removeFile o.path) :=
        Peer.meets_ackCall hsite rfl
      exact meets_answered hro hcell hcall False.elim rfl (fun e => ⟨_, rfl⟩) trivial

def removeDirectoryRequest (d : Deployment) (path : Path) : Brokerrpc.Request :=
  .ack (.removeDirectory ⟨d.client.fsID, path, Client.authMeta .removeDirectory⟩)

/-- `Rmdir` removes the directory once, or fails. -/
theorem meets_rmdir (hc : f.client = d.client) (hsite : Site d.ts w s) (hcell : cell m)
    (dir : Path) :
    Meets (mounted d source (leaving cell)) (fun t r => ∃ s', Site d.ts t.1 s' ∧ cell t.2 ∧
      Did d source (removeDirectoryRequest d (f.absPath dir)) (f.readOnly = true) (fun _ => True)
        s s' r) (w, m) (f.rmdir dir) := by
  unfold Fs.rmdir
  split
  · next hro => exact ⟨s, hsite, hcell, .barred hro rfl⟩
  · next hro =>
      dsimp only
      rw [hc]
      have hcall : Meets (d.broker source) _ w (d.client.removeDirectory (f.absPath dir)) :=
        Peer.meets_ackCall hsite rfl
      exact meets_answered hro hcell hcall False.elim rfl (fun e => ⟨_, rfl⟩) trivial

def makeDirectoryRequest (d : Deployment) (path : Path) : Brokerrpc.Request :=
  .ack (.makeDirectory ⟨d.client.fsID, path, Client.authMeta .makeDirectory⟩)

/-- The peer has no conflict for a directory that is there. -/
theorem not_alreadyExists {path : Path} {resp : Response} {e : Err} {s' : Store}
    (h : d.Once source (makeDirectoryRequest d path) resp s s') (he : Errs resp e) :
    e.is .errAlreadyExists = false := by
  obtain ⟨s₁, s₂, -, hturn, -⟩ := h
  rw [← Bool.not_eq_true, he.is_iff]
  obtain hrefused | hanswered := hturn.of_ne_upload nofun
  · revert hrefused
    generalize resp.status = status
    intro hrefused
    cases hrefused <;> decide
  · rw [makeDirectoryRequest, Peer.commandOf, Peer.Command.Answered] at hanswered
    split at hanswered
    · subst hanswered
      decide
    · rw [hanswered]
      decide

/-- `Mkdir` makes the directory once, or fails. -/
theorem meets_mkdir (hc : f.client = d.client) (hsite : Site d.ts w s) (hcell : cell m)
    (dir : Path) :
    Meets (mounted d source (leaving cell)) (fun t r => ∃ s', Site d.ts t.1 s' ∧ cell t.2 ∧
      Did d source (makeDirectoryRequest d (f.absPath dir)) (f.readOnly = true) (fun _ => True)
        s s' r) (w, m) (f.mkdir dir) := by
  unfold Fs.mkdir
  split
  · next hro => exact ⟨s, hsite, hcell, .barred hro rfl⟩
  · next hro =>
      dsimp only
      rw [hc]
      refine meets_acked hcell (Peer.meets_ackCall hsite rfl) ?_ ?_
      · intro w' m' s' resp hsite' hcell' honce hok
        exact ⟨s', hsite', hcell', .done hro honce hok trivial⟩
      · intro w' m' s' resp e hsite' hcell' honce hwhy
        dsimp only
        rw [not_alreadyExists honce (hwhy.resolve_right id)]
        exact ⟨s', hsite', hcell', .failed hro honce (missed_of_fail hwhy False.elim)⟩

/-- A copy or a move of a file. -/
theorem meets_transferFile {src : Object}
    (hsrc : src.fs.ref = f.ref → src.fs.client = d.client) (hpath : src.path ≠ [])
    (hsite : Site d.ts w s) (hcell : Handles d.sc src.path m) {dstRemote : Path} {opName : String}
    {cant : Sentinel} {call : Path → Path → WireProg (Except Err Unit)}
    (hcall : Meets (d.broker source) (Peer.Served d source q s (Acked False)) w
      (call src.path (f.absPath dstRemote))) :
    Meets (mounted d source (leaving (Handles d.sc src.path))) (fun t r => ∃ s', Site d.ts t.1 s' ∧
      Handles d.sc src.path t.2 ∧ Did d source q (f.readOnly = true ∨ src.fs.ref ≠ f.ref)
        (fun om => ∃ size, om = (⟨f, dstRemote, f.absPath dstRemote⟩, .ofSize size)) s s' r)
      (w, m) (f.transferFile src dstRemote opName cant call) := by
  unfold Fs.transferFile
  split
  · next hro => exact ⟨s, hsite, hcell, .barred (.inl hro) rfl⟩
  · next hro =>
      split
      · next hforeign => exact ⟨s, hsite, hcell, .barred (.inr hforeign) rfl⟩
      · next hown =>
          have hfree : ¬ (f.readOnly = true ∨ src.fs.ref ≠ f.ref) := fun h => h.elim hro hown
          dsimp only
          refine meets_acked hcell hcall ?_ ?_
          · intro w' m' s' resp hsite' hcell' honce hok
            refine Prog.Safe.bind (meets_getter (hsrc (not_not.mp hown)) hpath hsite'
              (resolving_leaving d src.path s') hcell' _ _) ?_
            rintro ⟨w₂, m₂⟩ size ⟨s₂, hsite₂, hcell₂, hquiet⟩
            exact ⟨s₂, hsite₂, hcell₂, .done hfree (Once.quiet honce hquiet) hok ⟨size, rfl⟩⟩
          · intro w' m' s' resp e hsite' hcell' honce hwhy
            exact ⟨s', hsite', hcell', .failed hfree honce (missed_of_fail hwhy False.elim)⟩

def copyFileRequest (d : Deployment) (src dst : Path) : Brokerrpc.Request :=
  .ack (.copyFile ⟨d.client.fsID, src, dst, true, Client.authMeta .copyFile⟩)

/-- `Copy` copies the file once, or fails. -/
theorem meets_copy {src : Object} (hc : f.client = d.client)
    (hsrc : src.fs.ref = f.ref → src.fs.client = d.client) (hpath : src.path ≠ [])
    (hsite : Site d.ts w s) (hcell : Handles d.sc src.path m) (dstRemote : Path) :
    Meets (mounted d source (leaving (Handles d.sc src.path))) (fun t r => ∃ s', Site d.ts t.1 s' ∧
      Handles d.sc src.path t.2 ∧ Did d source (copyFileRequest d src.path (f.absPath dstRemote))
        (f.readOnly = true ∨ src.fs.ref ≠ f.ref)
        (fun om => ∃ size, om = (⟨f, dstRemote, f.absPath dstRemote⟩, .ofSize size)) s s' r)
      (w, m) (f.copy src dstRemote) := by
  have hcall : Meets (d.broker source) _ w (d.client.copyFile src.path (f.absPath dstRemote)) :=
    Peer.meets_ackCall hsite rfl
  rw [Fs.copy, hc]
  exact meets_transferFile hsrc hpath hsite hcell hcall

def moveFileRequest (d : Deployment) (src dst : Path) : Brokerrpc.Request :=
  .ack (.moveFile ⟨d.client.fsID, src, dst, true, Client.authMeta .moveFile⟩)

/-- `Move` moves the file once, or fails. -/
theorem meets_move {src : Object} (hc : f.client = d.client)
    (hsrc : src.fs.ref = f.ref → src.fs.client = d.client) (hpath : src.path ≠ [])
    (hsite : Site d.ts w s) (hcell : Handles d.sc src.path m) (dstRemote : Path) :
    Meets (mounted d source (leaving (Handles d.sc src.path))) (fun t r => ∃ s', Site d.ts t.1 s' ∧
      Handles d.sc src.path t.2 ∧ Did d source (moveFileRequest d src.path (f.absPath dstRemote))
        (f.readOnly = true ∨ src.fs.ref ≠ f.ref)
        (fun om => ∃ size, om = (⟨f, dstRemote, f.absPath dstRemote⟩, .ofSize size)) s s' r)
      (w, m) (f.move src dstRemote) := by
  have hcall : Meets (d.broker source) _ w (d.client.moveFile src.path (f.absPath dstRemote)) :=
    Peer.meets_ackCall hsite rfl
  rw [Fs.move, hc]
  exact meets_transferFile hsrc hpath hsite hcell hcall

def moveDirectoryRequest (d : Deployment) (src dst : Path) : Brokerrpc.Request :=
  .ack (.moveDirectory ⟨d.client.fsID, src, dst, Client.authMeta .moveDirectory⟩)

/-- `DirMove` moves the directory once, or fails. -/
theorem meets_dirMove {src : Fs} (hc : f.client = d.client) (hsite : Site d.ts w s)
    (hcell : cell m) (srcRemote dstRemote : Path) :
    Meets (mounted d source (leaving cell)) (fun t r => ∃ s', Site d.ts t.1 s' ∧ cell t.2 ∧
      Did d source (moveDirectoryRequest d (f.absPath srcRemote) (f.absPath dstRemote))
        (f.readOnly = true ∨ src.ref ≠ f.ref) (fun _ => True) s s' r) (w, m)
      (f.dirMove src srcRemote dstRemote) := by
  unfold Fs.dirMove
  split
  · next hro => exact ⟨s, hsite, hcell, .barred (.inl hro) rfl⟩
  · next hro =>
      split
      · next hforeign => exact ⟨s, hsite, hcell, .barred (.inr hforeign) rfl⟩
      · next hown =>
          have hfree : ¬ (f.readOnly = true ∨ src.ref ≠ f.ref) := fun h => h.elim hro hown
          dsimp only
          rw [hc]
          have hcall : Meets (d.broker source) _ w (d.client.moveDirectory
              (f.absPath srcRemote) (f.absPath dstRemote)) :=
            Peer.meets_ackCall hsite rfl
          exact meets_answered hfree hcell hcall False.elim rfl (fun e => ⟨_, rfl⟩) trivial

end Changes

/-! ## calls -/

/-- The request of a call that is to change something. -/
def requestOf (d : Deployment) : Call → Option Brokerrpc.Request
  | .put f remote n => some (uploadRequest d (f.absPath remote) n)
  | .mkdir f dir => some (makeDirectoryRequest d (f.absPath dir))
  | .rmdir f dir => some (removeDirectoryRequest d (f.absPath dir))
  | .copy f src dstRemote => some (copyFileRequest d src.path (f.absPath dstRemote))
  | .move f src dstRemote => some (moveFileRequest d src.path (f.absPath dstRemote))
  | .dirMove f _ srcRemote dstRemote =>
      some (moveDirectoryRequest d (f.absPath srcRemote) (f.absPath dstRemote))
  | .update o n => some (uploadRequest d o.path n)
  | .remove o => some (removeFileRequest d o.path)
  | .list _ _ | .newObject _ _ | .openObject _ _ | .setModTime _ | .size _ | .modTime _
  | .mimeType _ => none

/-- The call is not let out. -/
def Barred (call : Call) : Prop := call.receiver.readOnly = true ∨ call.Foreign

/-- What a call does to the store. -/
inductive Effect (d : Deployment) (source : Source) (call : Call) (s s' : Store)
    (out : Outcome) : Prop
  | none (h : d.Quiet s s')
      (hwhy : requestOf d call = none ∨ Barred call ∧ out.err ≠ none)
  | once {q : Brokerrpc.Request} {resp : Response} (hq : requestOf d call = some q)
      (hfree : ¬ Barred call) (h : d.Once source q resp s s') (hout : out.err = none → resp.Ok)
      (hreported : resp.Ok → out.err = none ∨ Missed source q)

/-- The guarded fields of the object of a call. -/
def cellOf (d : Deployment) (call : Call) (m : Meta) : Prop :=
  ∀ o, call.object = some o → Handles d.sc o.path m

/-- Values of Go's `int64`. -/
def Int64Call : Call → Prop
  | .put _ _ n | .update _ n => -maxInt64 - 1 ≤ n ∧ n ≤ maxInt64
  | .openObject _ options => ∀ opt ∈ options, Int64Option opt
  | _ => True

/-- A call on a mount of the deployment. -/
structure Belongs (d : Deployment) (call : Call) : Prop where
  receiver : call.receiver.client = d.client
  object : ∀ o, call.object = some o → o.path ≠ []
  own : ∀ o, call.object = some o → ¬ call.Foreign → o.fs.client = d.client
  int64 : Int64Call call

/-- The end of a call. -/
def Ends (d : Deployment) (source : Source) (call : Call) (s : Store) (t : World × Meta)
    (out : Outcome) : Prop :=
  ∃ s', Site d.ts t.1 s' ∧ Effect d source call s s' out ∧ cellOf d call t.2 ∧
    ∀ om ∈ out.created, Handles d.sc om.1.path om.2

section Calls

variable {d : Deployment} {source : Source} {w : World} {s : Store} {m : Meta}

/-- A call that did its one request ends as it should. -/
theorem Did.ends {call : Call} {q : Brokerrpc.Request} {barred : Prop} {α : Type} {P : α → Prop}
    {created : α → List (Object × Meta)} {t : World × Meta} {r : Except Err α} {s' : Store}
    (hq : requestOf d call = some q) (hbarred : barred ↔ Barred call)
    (hcreated : ∀ a, P a → ∀ om ∈ created a, Handles d.sc om.1.path om.2)
    (hsite : Site d.ts t.1 s') (hcell : cellOf d call t.2) (h : Did d source q barred P s s' r) :
    Ends d source call s t (.of created r) := by
  cases h with
  | barred h hs =>
      subst hs
      exact ⟨s', hsite, .none .refl (.inr ⟨hbarred.mp h, Option.some_ne_none _⟩), hcell,
        List.forall_mem_nil _⟩
  | done hfree h hok ha =>
      exact ⟨s', hsite, .once hq (mt hbarred.mpr hfree) h (fun _ => hok) fun _ => .inl rfl, hcell,
        hcreated _ ha⟩
  | failed hfree h hno =>
      refine ⟨s', hsite, .once hq (mt hbarred.mpr hfree) h ?_ fun hok => .inr (hno hok), hcell,
        List.forall_mem_nil _⟩
      exact fun hnone => absurd hnone (Option.some_ne_none _)

/-- A call that only reads. -/
theorem Quiet.ends {call : Call} (hq : requestOf d call = none) {t : World × Meta} {s' : Store}
    {out : Outcome} (hsite : Site d.ts t.1 s') (hcell : cellOf d call t.2) (h : d.Quiet s s')
    (hcreated : ∀ om ∈ out.created, Handles d.sc om.1.path om.2) : Ends d source call s t out :=
  ⟨s', hsite, .none h (.inl hq), hcell, hcreated⟩

/-- The guarded fields of the one object. -/
theorem cellOf_iff {call : Call} {o : Object} (h : call.object = some o) {m : Meta} :
    cellOf d call m ↔ Handles d.sc o.path m := by
  constructor
  · exact fun hcell => hcell o h
  · intro hm o' ho'
    obtain rfl := Option.some.inj (h.symm.trans ho')
    exact hm

/-- A call that works on an object. -/
theorem meets_object {call : Call} {o : Object} {α : Type} {p : FsProg α} {k : α → FsProg Outcome}
    {Q : World × Meta → α → Prop} (ho : call.object = some o) (hcell : cellOf d call m)
    (hp : Handles d.sc o.path m →
      Meets (mounted d source (leaving (Handles d.sc o.path))) Q (w, m) p)
    (hk : ∀ t a, Q t a →
      Meets (mounted d source (leaving (cellOf d call))) (Ends d source call s) t (k a)) :
    Meets (mounted d source (leaving (cellOf d call))) (Ends d source call s) (w, m) (p >>= k) := by
  have hcells : cellOf d call = Handles d.sc o.path := funext fun m => propext (cellOf_iff ho)
  rw [← hcells] at hp
  exact Prog.Safe.bind (hp hcell) hk

theorem handles_of_shown {f : Fs} {dir : Path} {V : Vol} {names : List Path}
    {entries : List DirEntry} (h : List.Forall₂ (Shown d f dir V) names entries) :
    ∀ om ∈ entries.filterMap DirEntry.object?, Handles d.sc om.1.path om.2 := by
  have hentries : ∀ e ∈ entries, ∀ om, e.object? = some om → Handles d.sc om.1.path om.2 := by
    refine Peer.forall_right h fun name e hshown om hom => ?_
    cases hshown with
    | file hfile hsize huuid =>
        cases hom
        exact .inr huuid
    | directory hdir => cases hom
  intro om hom
  obtain ⟨e, he, hom⟩ := List.mem_filterMap.mp hom
  exact hentries e he om hom

/-- Every call of the mount ends as it should. -/
theorem meets_prog {call : Call} (hcall : Belongs d call) (hsite : Site d.ts w s)
    (hcell : cellOf d call m) :
    Meets (mounted d source (leaving (cellOf d call))) (Ends d source call s) (w, m) call.prog := by
  cases call with
  | list f dir =>
      refine Prog.Safe.bind (meets_list hcall.receiver hsite hcell dir) ?_
      rintro t r ⟨s₁, s', hsite', hcell', hquiet, hvolume, hlisted⟩
      refine Quiet.ends rfl hsite' hcell'
        (hquiet.trans (Peer.Deployment.quiet_of_volume hvolume)) ?_
      cases hlisted with
      | entries hdir hnodup hnames hall => exact handles_of_shown hall
      | missing | failed => exact List.forall_mem_nil _
  | newObject f remote =>
      refine Prog.Safe.bind (meets_newObject hcall.receiver hsite hcell remote) ?_
      rintro t r ⟨s₁, s', hsite', hcell', hquiet, hvolume, hfound⟩
      refine Quiet.ends rfl hsite' hcell'
        (hquiet.trans (Peer.Deployment.quiet_of_volume hvolume)) ?_
      cases hfound with
      | file hfile hsize huuid => exact List.forall_mem_singleton.mpr (.inr huuid)
      | directory | missing | failed => exact List.forall_mem_nil _
  | put f remote n =>
      refine Prog.Safe.bind (meets_put hcall.receiver hsite hcell remote hcall.int64) ?_
      rintro t r ⟨s', hsite', hcell', hdid⟩
      refine hdid.ends rfl (iff_of_eq (or_false _).symm) ?_ hsite' hcell'
      rintro om rfl
      exact List.forall_mem_singleton.mpr (.inl rfl)
  | mkdir f dir =>
      refine Prog.Safe.bind (meets_mkdir hcall.receiver hsite hcell dir) ?_
      rintro t r ⟨s', hsite', hcell', hdid⟩
      exact hdid.ends rfl (iff_of_eq (or_false _).symm) (fun _ _ => List.forall_mem_nil _) hsite'
        hcell'
  | rmdir f dir =>
      refine Prog.Safe.bind (meets_rmdir hcall.receiver hsite hcell dir) ?_
      rintro t r ⟨s', hsite', hcell', hdid⟩
      exact hdid.ends rfl (iff_of_eq (or_false _).symm) (fun _ _ => List.forall_mem_nil _) hsite'
        hcell'
  | copy f src dstRemote =>
      have hsrc (href : src.fs.ref = f.ref) := hcall.own src rfl (fun h => h href)
      refine meets_object rfl hcell (fun hcell =>
        meets_copy hcall.receiver hsrc (hcall.object src rfl) hsite hcell dstRemote) ?_
      rintro t r ⟨s', hsite', hcell', hdid⟩
      refine hdid.ends rfl .rfl ?_ hsite' ((cellOf_iff rfl).mpr hcell')
      rintro om ⟨size, rfl⟩
      exact List.forall_mem_singleton.mpr (.inl rfl)
  | move f src dstRemote =>
      have hsrc (href : src.fs.ref = f.ref) := hcall.own src rfl (fun h => h href)
      refine meets_object rfl hcell (fun hcell =>
        meets_move hcall.receiver hsrc (hcall.object src rfl) hsite hcell dstRemote) ?_
      rintro t r ⟨s', hsite', hcell', hdid⟩
      refine hdid.ends rfl .rfl ?_ hsite' ((cellOf_iff rfl).mpr hcell')
      rintro om ⟨size, rfl⟩
      exact List.forall_mem_singleton.mpr (.inl rfl)
  | dirMove f src srcRemote dstRemote =>
      refine Prog.Safe.bind (meets_dirMove hcall.receiver hsite hcell srcRemote dstRemote) ?_
      rintro t r ⟨s', hsite', hcell', hdid⟩
      exact hdid.ends rfl .rfl (fun _ _ => List.forall_mem_nil _) hsite' hcell'
  | openObject o options =>
      refine meets_object rfl hcell (fun hcell =>
        meets_open (hcall.own o rfl id) (hcall.object o rfl) hsite (resolving_leaving d o.path s)
          (fun _ h => h) hcell hcall.int64) ?_
      rintro t r ⟨s₁, s', hsite', hcell', hquiet, hvolume, -⟩
      refine Quiet.ends rfl hsite' ((cellOf_iff rfl).mpr hcell')
        (hquiet.trans (Peer.Deployment.quiet_of_volume hvolume)) ?_
      cases r <;> exact List.forall_mem_nil _
  | update o n =>
      refine meets_object rfl hcell (fun hcell =>
        meets_update (hcall.own o rfl id) hsite hcell hcall.int64) ?_
      rintro t r ⟨s', hsite', hcell', hdid⟩
      exact hdid.ends rfl (iff_of_eq (or_false _).symm) (fun _ _ => List.forall_mem_nil _) hsite'
        ((cellOf_iff rfl).mpr hcell')
  | remove o =>
      refine Prog.Safe.bind (meets_remove hcall.receiver hsite hcell) ?_
      rintro t r ⟨s', hsite', hcell', hdid⟩
      exact hdid.ends rfl (iff_of_eq (or_false _).symm) (fun _ _ => List.forall_mem_nil _) hsite'
        hcell'
  | setModTime o => exact Quiet.ends rfl hsite hcell .refl (List.forall_mem_nil _)
  | size o | modTime o | mimeType o =>
      refine meets_object rfl hcell (fun hcell =>
        meets_getter (hcall.own o rfl id) (hcall.object o rfl) hsite (resolving_leaving d o.path s)
          hcell _ _) ?_
      rintro t r ⟨s', hsite', hcell', hquiet⟩
      exact Quiet.ends rfl hsite' ((cellOf_iff rfl).mpr hcell') hquiet (List.forall_mem_nil _)

end Calls

/-- A mount of the scope to write to. -/
def rwFs : Fs := ⟨0, "/".toList, Peer.rwClient, false, Ocufs.encoderOf Ocufs.defaultEncoding⟩

/-- Anybody may ask for anything in between. -/
def rwAmidAll : Deployment := Peer.rwDeployment fun _ => True

/-- One byte for `x`. -/
def putByte : Call := .put rwFs "x".toList 1

theorem putByte_belongs : Belongs rwAmidAll putByte where
  receiver := rfl
  object o h := by cases h
  own o h := by cases h
  int64 := ⟨by decide, by decide⟩

end OcuFilestore.Mounted
