import OcuFilestore.Ocufs.Session

/-!
# OcuFilestore.Ocufs.ErrorSurface

What rclone sees of a broker refusal.  A refused request is followed through
the transport (`mapHTTPStatus`), the wrapping of each layer and the
translation to rclone's sentinels, for every call of the backend.

`surfacedKind` is the whole table: the class of the error a call ends in, as
a function of the call, the refused operation and the status.  No entry of
it depends on the response body or on a header.
-/

namespace OcuFilestore.Ocufs

open Brokerrpc

/-! ## the table -/

/-- The class of an error that was only wrapped. -/
def rawKind (status : Int) : Err.Kind := ⟨statusSentinels status, retryable status⟩

/-- The class of an error that went through `mapBrokerError`. -/
def mappedKind (status : Int) : Err.Kind :=
  if status = 401 ∨ status = 403 then ⟨[.fsErrorPermissionDenied], false⟩
  else if status = 404 then ⟨[.fsErrorObjectNotFound], false⟩
  else rawKind status

/-- The class of a lookup's error: only a missing object is translated. -/
def lookupKind (missing : Sentinel) (status : Int) : Err.Kind :=
  if status = 404 then ⟨[missing], false⟩ else rawKind status

/-- The class of the error a call ends in when the broker refuses one of its
requests; none when the call succeeds all the same. -/
def Call.surfacedKind (call : Call) (op : Op) (status : Int) : Option Err.Kind :=
  match call with
  | list _ _ => some (lookupKind .fsErrorDirNotFound status)
  | newObject _ _ => some (lookupKind .fsErrorObjectNotFound status)
  | openObject _ _ =>
      if op = .readMetadata then some (lookupKind .fsErrorObjectNotFound status)
      else some (rawKind status)
  | put _ _ _ | update _ _ | remove _ | rmdir _ _ | dirMove _ _ _ _ => some (mappedKind status)
  -- a directory that exists already
  | mkdir _ _ => if status = 409 then none else some (mappedKind status)
  -- the size of the source is looked up without regard to the outcome
  | copy _ _ _ | move _ _ _ => if op = .readMetadata then none else some (mappedKind status)
  | size _ | modTime _ | mimeType _ | setModTime _ => none

/-- The error `e` answers for the refusal `resp` with class `k`; a retry hint
comes with 429 only. -/
def Shows (resp : HttpResp) (k : Err.Kind) (e : Err) : Prop :=
  e.kind = k ∧ (resp.status ≠ 429 → e.retryAfterHint = none)

/-- A result that ends as the verdict says. -/
def Ends (resp : HttpResp) : Option Err.Kind → Option Err → Prop
  | some k, some e => Shows resp k e
  | none, none => True
  | _, _ => False

/-! ## errors of one refusal -/

theorem shows_err (resp : HttpResp) : Shows resp (rawKind resp.status) resp.err :=
  ⟨mapHTTPStatus_kind _ _ _, mapHTTPStatus_hint⟩

theorem shows_sentinel (resp : HttpResp) (s : Sentinel) :
    Shows resp ⟨[s], false⟩ (.sentinel s) := ⟨rfl, fun _ => rfl⟩

/-- Wrapping keeps the class and the hint. -/
theorem Shows.wrap {resp : HttpResp} {k : Err.Kind} {e : Err} (h : Shows resp k e)
    (pre post : List Frag) : Shows resp k (.wrap pre e post) := h

/-- Which sentinels the error of a status matches. -/
theorem err_is_iff (resp : HttpResp) (s : Sentinel) :
    resp.err.is s = true ↔ s ∈ statusSentinels resp.status := by
  rw [Err.is_iff_mem_sentinels]
  have h := congrArg Err.Kind.sentinels (shows_err resp).1
  simp only [Err.kind, rawKind] at h
  rw [h]

theorem mem_statusSentinels_permissionDenied (status : Int) :
    Sentinel.errPermissionDenied ∈ statusSentinels status ↔ status = 401 ∨ status = 403 := by
  unfold statusSentinels
  repeat' split
  all_goals simp_all

theorem mem_statusSentinels_notFound (status : Int) :
    Sentinel.errNotFound ∈ statusSentinels status ↔ status = 404 := by
  unfold statusSentinels
  repeat' split
  all_goals simp_all <;> omega

theorem mem_statusSentinels_alreadyExists (status : Int) :
    Sentinel.errAlreadyExists ∈ statusSentinels status ↔ status = 409 := by
  unfold statusSentinels
  repeat' split
  all_goals simp_all <;> omega

/-- What `mapBrokerError` makes of a refusal. -/
theorem shows_mapBrokerError (resp : HttpResp) :
    Shows resp (mappedKind resp.status) (mapBrokerError resp.err) := by
  unfold mapBrokerError mappedKind
  by_cases hperm : resp.status = 401 ∨ resp.status = 403
  · rw [if_pos ((err_is_iff resp _).mpr ((mem_statusSentinels_permissionDenied _).mpr hperm)),
      if_pos hperm]
    exact shows_sentinel resp _
  · rw [if_neg (mt (err_is_iff resp _).mp
      (mt (mem_statusSentinels_permissionDenied _).mp hperm)), if_neg hperm]
    by_cases hmiss : resp.status = 404
    · rw [if_pos ((err_is_iff resp _).mpr ((mem_statusSentinels_notFound _).mpr hmiss)),
        if_pos hmiss]
      exact shows_sentinel resp _
    · rw [if_neg (mt (err_is_iff resp _).mp (mt (mem_statusSentinels_notFound _).mp hmiss)),
        if_neg hmiss]
      exact shows_err resp

/-- What a lookup makes of an error that carries a refusal: its own sentinel
for a missing object, and a wrapped error otherwise. -/
theorem shows_lookup {resp : HttpResp} {e : Err} (he : Shows resp (rawKind resp.status) e)
    (missing : Sentinel) (pre post : List Frag) :
    Shows resp (lookupKind missing resp.status)
      (if e.is .errNotFound then .sentinel missing else .wrap pre e post) := by
  have his : e.is .errNotFound = true ↔ resp.status = 404 := by
    have hs : e.sentinels = statusSentinels resp.status := congrArg Err.Kind.sentinels he.1
    rw [Err.is_iff_mem_sentinels, hs, mem_statusSentinels_notFound]
  unfold lookupKind
  by_cases hmiss : resp.status = 404
  · rw [if_pos (his.mpr hmiss), if_pos hmiss]
    exact shows_sentinel resp _
  · rw [if_neg (mt his.mp hmiss), if_neg hmiss]
    exact he

/-! ## following a refusal through a program -/

/-- The answer is a refusal. -/
def Refused : (e : Eff) → e.Reply → Prop
  | .send w, r => (w.req.refusal r).isSome = true
  | .peek, _ => False
  | .poke _, _ => False

/-- The result `a` answers for a refusal as `Q` says. -/
def AnswersFor {α : Type} (Q : Op → HttpResp → α → Prop) : (e : Eff) → e.Reply → α → Prop
  | .send w, r, a => ∀ resp, w.req.refusal r = some resp → Q w.req.op resp a
  | .peek, _, _ => True
  | .poke _, _, _ => True

/-- Every refusal of a request shows in the result as `Q` says. -/
def FsSurfaces {α : Type} (Q : Op → HttpResp → α → Prop) (p : FsProg α) : Prop :=
  p.After Refused (AnswersFor Q)

section Rules

variable {α β : Type} {Q : Op → HttpResp → α → Prop} {Q' : Op → HttpResp → β → Prop}

/-- What the client surfaces, a call that sends it surfaces. -/
theorem surfaces_send {p : WireProg α} (h : Surfaces Q p) : FsSurfaces Q (send p) :=
  Prog.After.lift h (fun _ _ hb => hb) fun _ _ _ hq => hq

/-- What goes on with a surfaced error surfaces it again. -/
theorem FsSurfaces.bind {p : FsProg α} {f : α → FsProg β} (hp : FsSurfaces Q p)
    (hq : ∀ op resp a, Q op resp a → (f a).Returns (Q' op resp))
    (hf : ∀ a, FsSurfaces Q' (f a)) : FsSurfaces Q' (p >>= f) := by
  refine Prog.After.bind hp (fun e r a hb ha => ?_) hf
  cases e with
  | send w =>
      obtain ⟨resp, hr⟩ := Option.isSome_iff_exists.mp hb
      refine (hq _ resp a (ha resp hr)).mono fun b hb resp' hr' => ?_
      rw [hr] at hr'
      cases hr'
      exact hb
  | peek => exact False.elim hb
  | poke g => exact False.elim hb

theorem FsSurfaces.mono {Q₁ : Op → HttpResp → α → Prop} {p : FsProg α} (h : FsSurfaces Q p)
    (hQ : ∀ op resp a, Q op resp a → Q₁ op resp a) : FsSurfaces Q₁ p := by
  refine Prog.After.mono h fun e r a ha => ?_
  cases e with
  | send w => exact fun resp hr => hQ _ resp a (ha resp hr)
  | peek => trivial
  | poke g => trivial

/-- After a request whose refusal fixes the result, nothing more is sent. -/
theorem surfaces_send_bind {p : WireProg (Except Err α)} {op : Op}
    (h : Surfaces (fun op' resp a => op' = op ∧ a = .error resp.err) p)
    {f : Except Err α → FsProg β}
    (herr : ∀ resp : HttpResp, (f (.error resp.err)).Returns (Q' op resp))
    (hf : ∀ a, FsSurfaces Q' (f a)) : FsSurfaces Q' (send p >>= f) := by
  refine (surfaces_send h).bind (fun op' resp a ha => ?_) hf
  obtain ⟨rfl, rfl⟩ := ha
  exact herr resp

end Rules

/-! ## the methods -/

/-- The error a method returns. -/
def errOf {α : Type} : Except Err α → Option Err
  | .ok _ => none
  | .error e => some e

/-- A method whose refusals end as the table `K` says. -/
def Tabled {α : Type} (K : Op → Int → Option Err.Kind) (p : FsProg (Except Err α)) : Prop :=
  FsSurfaces (fun op resp r => Ends resp (K op resp.status) (errOf r)) p

/-- The error branch the lookups share. -/
theorem returns_lookup {α : Type} {resp : HttpResp} {e : Err}
    (he : Shows resp (rawKind resp.status) e) (missing : Sentinel) (pre post : List Frag) :
    (if e.is .errNotFound then pure (.error (.sentinel missing))
      else pure (.error (.wrap pre e post)) : FsProg (Except Err α)).Returns
      fun r => Ends resp (some (lookupKind missing resp.status)) (errOf r) := by
  have h := shows_lookup he missing pre post
  split at h
  · next hm => rw [if_pos hm]; exact h
  · next hm => rw [if_neg hm]; exact h

section Methods

variable {f : Fs} {o : Object}

/-- `List` reports a missing directory as one. -/
theorem tabled_list (dir : Path) :
    Tabled (fun _ st => some (lookupKind .fsErrorDirNotFound st)) (f.list dir) := by
  refine (surfaces_send Client.surfaces_listDirectoryStream).bind (fun op resp a ha => ?_)
    fun a => ?_
  · obtain ⟨entries, err⟩ := a
    obtain ⟨-, rfl⟩ := ha
    exact returns_lookup ((shows_err resp).wrap [.lit "brokerrpc: ListDirectoryStream: "] []) _ _ _
  · dsimp only
    split
    · split <;> trivial
    · trivial

/-- `NewObject` reports a missing object as one. -/
theorem tabled_newObject (remote : Path) :
    Tabled (fun _ st => some (lookupKind .fsErrorObjectNotFound st)) (f.newObject remote) := by
  refine surfaces_send_bind Client.surfaces_readMetadata (fun resp => ?_) fun a => ?_
  · exact returns_lookup (shows_err resp) _ _ _
  · split
    · split <;> trivial
    · split <;> trivial

/-- A refused resolve ends in a lookup's error. -/
theorem surfaces_resolve :
    FsSurfaces (fun op resp r => op = .readMetadata ∧
      Ends resp (some (lookupKind .fsErrorObjectNotFound resp.status)) (errOf r)) o.resolve := by
  unfold Object.resolve
  rw [peek_bind]
  refine fun m => ⟨False.elim, ?_⟩
  dsimp only
  split
  · trivial
  · refine surfaces_send_bind Client.surfaces_readMetadata (fun resp => ?_) fun a => ?_
    · exact (returns_lookup (shows_err resp) _ _ _).mono fun r hr => ⟨rfl, hr⟩
    · split
      · split <;> trivial
      · split
        · trivial
        · trivial
        · exact fun _ => ⟨False.elim, trivial⟩

/-- `Open` maps the status of its lookup, and leaves that of its download as
it is. -/
theorem tabled_open (options : List OpenOption) :
    Tabled (fun op st => if op = .readMetadata then some (lookupKind .fsErrorObjectNotFound st)
      else some (rawKind st)) (o.open options) := by
  -- both downloads surface a refusal as it is
  have hdown : ∀ {p : WireProg (Except Err Body)},
      Surfaces (fun op resp a => op = .fileDownload ∧ a = .error resp.err) p →
      FsSurfaces (fun op resp r => Ends resp (if op = .readMetadata
        then some (lookupKind .fsErrorObjectNotFound resp.status)
        else some (rawKind resp.status)) (errOf r)) (send p) := by
    intro p hp
    refine (surfaces_send hp).mono fun op resp a ha => ?_
    obtain ⟨rfl, rfl⟩ := ha
    exact shows_err resp
  unfold Object.open
  refine surfaces_resolve.bind (fun op resp a ha => ?_) fun a => ?_
  · obtain ⟨rfl, hend⟩ := ha
    cases a with
    | error e => exact hend
    | ok u => exact False.elim hend
  · split
    · trivial
    · rw [peek_bind]
      refine fun m => ⟨False.elim, ?_⟩
      dsimp only
      split
      · trivial
      · split
        · trivial
        · split
          · exact hdown Client.surfaces_download
          · exact hdown Client.surfaces_downloadRange

/-- The getters send metadata requests only, and answer whatever comes back. -/
theorem surfaces_getter {α : Type} (unresolved : Meta → Bool) (field : Meta → α) :
    FsSurfaces (fun op _ _ => op = .readMetadata) (o.getter unresolved field) := by
  unfold Object.getter
  rw [peek_bind]
  refine fun m => ⟨False.elim, ?_⟩
  dsimp only
  split
  · refine surfaces_resolve.bind (fun op resp a ha => ?_) fun a => ?_
    · exact fun _ => ha.1
    · exact fun _ => ⟨False.elim, trivial⟩
  · exact fun _ => ⟨False.elim, trivial⟩

/-- `Put` maps the status of its upload. -/
theorem tabled_put (remote : Path) (n : Int) :
    Tabled (fun _ st => some (mappedKind st)) (f.put remote n) := by
  unfold Fs.put
  split
  · trivial
  · refine surfaces_send_bind Client.surfaces_upload (fun resp => ?_) fun a => ?_
    · exact (shows_mapBrokerError resp).wrap _ _
    · split <;> trivial

/-- So does `Update`. -/
theorem tabled_update (n : Int) : Tabled (fun _ st => some (mappedKind st)) (o.update n) := by
  unfold Object.update
  split
  · trivial
  · refine surfaces_send_bind Client.surfaces_upload (fun resp => ?_) fun a => ?_
    · exact (shows_mapBrokerError resp).wrap _ _
    · split
      · trivial
      · exact fun _ => ⟨False.elim, trivial⟩

/-- `Remove` maps the status of its request. -/
theorem tabled_remove : Tabled (fun _ st => some (mappedKind st)) o.remove := by
  unfold Object.remove
  split
  · trivial
  · refine surfaces_send_bind (Client.surfaces_ackCall rfl) (fun resp => ?_) fun a => ?_
    · exact (shows_mapBrokerError resp).wrap _ _
    · split <;> trivial

/-- `Mkdir` takes a conflict for success, and maps every other status. -/
theorem tabled_mkdir (dir : Path) :
    Tabled (fun _ st => if st = 409 then none else some (mappedKind st)) (f.mkdir dir) := by
  unfold Fs.mkdir
  split
  · trivial
  · refine surfaces_send_bind (Client.surfaces_ackCall rfl) (fun resp => ?_) fun a => ?_
    · have his := (err_is_iff resp .errAlreadyExists).trans (mem_statusSentinels_alreadyExists _)
      by_cases h : resp.status = 409
      · simp only [his.mpr h, h, if_true]
        trivial
      · simp only [mt his.mp h, h, if_false]
        exact (shows_mapBrokerError resp).wrap _ _
    · split
      · split <;> trivial
      · trivial

/-- `Rmdir` maps the status of its request. -/
theorem tabled_rmdir (dir : Path) : Tabled (fun _ st => some (mappedKind st)) (f.rmdir dir) := by
  unfold Fs.rmdir
  split
  · trivial
  · refine surfaces_send_bind (Client.surfaces_ackCall rfl) (fun resp => ?_) fun a => ?_
    · exact (shows_mapBrokerError resp).wrap _ _
    · split <;> trivial

/-- So does `DirMove`. -/
theorem tabled_dirMove (src : Fs) (srcRemote dstRemote : Path) :
    Tabled (fun _ st => some (mappedKind st)) (f.dirMove src srcRemote dstRemote) := by
  unfold Fs.dirMove
  split
  · trivial
  · split
    · trivial
    · refine surfaces_send_bind (Client.surfaces_ackCall rfl) (fun resp => ?_) fun a => ?_
      · exact (shows_mapBrokerError resp).wrap _ _
      · split <;> trivial

/-- A transfer maps the status of its request; a lookup of the source's size
that is refused afterwards does not fail it. -/
theorem tabled_transferFile {op : Op} (hop : op ≠ .readMetadata)
    {call : Path → Path → WireProg (Except Err Unit)}
    (hcall : ∀ p q, Surfaces (fun op' resp a => op' = op ∧ a = .error resp.err) (call p q))
    (src : Object) (dstRemote : Path) (opName : String) (cant : Sentinel) :
    Tabled (fun op st => if op = .readMetadata then none else some (mappedKind st))
      (f.transferFile src dstRemote opName cant call) := by
  unfold Fs.transferFile
  split
  · trivial
  · split
    · trivial
    · refine surfaces_send_bind (hcall _ _) (fun resp => ?_) fun a => ?_
      · simp only [if_neg hop]
        exact (shows_mapBrokerError resp).wrap _ _
      · split
        · trivial
        · refine (surfaces_getter _ _).bind (fun op resp n hn => ?_) fun n => trivial
          simp only [hn, if_true]
          trivial

end Methods

/-- **The table is right**: every refusal of every call ends as the table
says. -/
theorem surfaces_prog (call : Call) :
    FsSurfaces (fun op resp out => Ends resp (call.surfacedKind op resp.status) out.err)
      call.prog := by
  have hof : ∀ {α : Type} {K : Op → Int → Option Err.Kind} {p : FsProg (Except Err α)}
      (c : α → List (Object × Meta)), Tabled K p →
      FsSurfaces (fun op resp out => Ends resp (K op resp.status) out.err)
        (p >>= fun r => pure (Outcome.of c r)) := by
    intro α K p c hp
    refine hp.bind (fun op resp r hr => ?_) fun r => trivial
    cases r <;> exact hr
  have hget : ∀ {α : Type} (o : Object) (unresolved : Meta → Bool) (field : Meta → α),
      FsSurfaces (fun _ resp (out : Outcome) => Ends resp none out.err)
        (o.getter unresolved field >>= fun _ => pure (⟨[], none⟩ : Outcome)) :=
    fun o unresolved field =>
      (surfaces_getter unresolved field).bind (fun _ _ _ _ => trivial) fun _ => trivial
  cases call with
  | list f dir => exact hof _ (tabled_list dir)
  | newObject f remote => exact hof _ (tabled_newObject remote)
  | put f remote n => exact hof _ (tabled_put remote n)
  | mkdir f dir => exact hof _ (tabled_mkdir dir)
  | rmdir f dir => exact hof _ (tabled_rmdir dir)
  | copy f src dstRemote =>
      exact hof _ (tabled_transferFile (by decide) (fun _ _ => Client.surfaces_ackCall rfl) _ _ _ _)
  | move f src dstRemote =>
      exact hof _ (tabled_transferFile (by decide) (fun _ _ => Client.surfaces_ackCall rfl) _ _ _ _)
  | dirMove f src srcRemote dstRemote => exact hof _ (tabled_dirMove src srcRemote dstRemote)
  | openObject o options => exact hof _ (tabled_open options)
  | update o n => exact hof _ (tabled_update n)
  | remove o => exact hof _ tabled_remove
  | setModTime o => trivial
  | size o => exact hget o _ _
  | modTime o => exact hget o _ _
  | mimeType o => exact hget o _ _

/-! ## finished runs -/

section Runs

variable {call : Call} {tr : List (Prog.Answered Eff.Reply)} {out : Outcome} {w : Wire}
  {r : w.Reply} {resp : HttpResp}

/-- A refusal anywhere in a finished run ends as the table says. -/
theorem ends_of_exec (hrun : call.prog.Exec tr out) (hr : ⟨.send w, r⟩ ∈ tr)
    (href : w.req.refusal r = some resp) :
    Ends resp (call.surfacedKind w.req.op resp.status) out.err := by
  have h := Prog.Exec.after hrun (surfaces_prog call) (.send w) r hr
  exact h (by simp [Refused, href]) resp href

/-- Where the table has an error, the run ends in one of that class. -/
theorem exists_err_of_exec (hrun : call.prog.Exec tr out) (hr : ⟨.send w, r⟩ ∈ tr)
    (href : w.req.refusal r = some resp) {k : Err.Kind}
    (hk : call.surfacedKind w.req.op resp.status = some k) :
    ∃ e, out.err = some e ∧ Shows resp k e := by
  have h := ends_of_exec hrun hr href
  rw [hk] at h
  cases herr : out.err with
  | none => rw [herr] at h; exact False.elim h
  | some e => rw [herr] at h; exact ⟨e, rfl, h⟩

end Runs

/-- The mapping keeps the retry mark of a status. -/
theorem retry_mappedKind (status : Int) : (mappedKind status).retry = retryable status := by
  unfold mappedKind
  split
  · next h => rcases h with rfl | rfl <;> rfl
  · split
    · next h => rw [h]; rfl
    · rfl

/-- So does the mapping of a lookup. -/
theorem retry_lookupKind (missing : Sentinel) (status : Int) :
    (lookupKind missing status).retry = retryable status := by
  unfold lookupKind
  split
  · next h => rw [h]; rfl
  · rfl

/-- No entry of the table changes the retry verdict of the status. -/
theorem retry_surfacedKind {call : Call} {op : Op} {status : Int} {k : Err.Kind}
    (h : call.surfacedKind op status = some k) : k.retry = retryable status := by
  cases call with
  | list | newObject =>
      cases h
      exact retry_lookupKind _ _
  | openObject o options =>
      simp only [Call.surfacedKind] at h
      split at h
      · cases h; exact retry_lookupKind _ _
      · cases h; rfl
  | put | update | remove | rmdir | dirMove =>
      cases h
      exact retry_mappedKind _
  | mkdir | copy | move =>
      simp only [Call.surfacedKind] at h
      split at h
      · cases h
      · cases h; exact retry_mappedKind _
  | size | modTime | mimeType | setModTime => cases h

/-- **Retry posture**: when a call fails on a refusal, rclone is told to
retry exactly for 429 and 503, the class of the error is the table's
whatever the body, the headers and the upload's body writer were, and a
retry-after hint comes with 429 only. -/
theorem retry_posture (call : Call) {tr : List (Prog.Answered Eff.Reply)} {out : Outcome}
    (hrun : call.prog.Exec tr out) {w : Wire} {r : w.Reply} (hr : ⟨.send w, r⟩ ∈ tr)
    {resp : HttpResp} (href : w.req.refusal r = some resp) {e : Err} (he : out.err = some e) :
    (e.isRetryError = true ↔ resp.status = 429 ∨ resp.status = 503) ∧
      call.surfacedKind w.req.op resp.status = some e.kind ∧
      (e.retryAfterHint ≠ none → resp.status = 429) := by
  have h := ends_of_exec hrun hr href
  rw [he] at h
  cases hk : call.surfacedKind w.req.op resp.status with
  | none => rw [hk] at h; exact False.elim h
  | some k =>
      rw [hk] at h
      obtain ⟨rfl, hhint⟩ := h
      refine ⟨?_, rfl, fun hne => Decidable.byContradiction fun h429 => hne (hhint h429)⟩
      have hretry : e.isRetryError = retryable resp.status := retry_surfacedKind hk
      simp [hretry, retryable]

def respUnavailable : HttpResp := ⟨503, -1, .last [] (.sentinel .eof), ⟨"120", none⟩⟩

theorem retry_posture_mkdir_unavailable :
    ∃ tr out e, (Call.mkdir srvFs "docs".toList).prog.Exec tr out ∧ out.err = some e ∧
      e.isRetryError = true := by
  have hrun : (Call.mkdir srvFs "docs".toList).prog.Exec
      [⟨.send mkdirDocs, (Exchange.replied respUnavailable (.ok ()) : Exchange (Except Err Unit))⟩]
      ⟨[], some (.wrap [.lit "ocufs: Mkdir ", .quoted (srvFs.absPath "docs".toList), .lit ": "]
        respUnavailable.err [])⟩ := Prog.Runs.step (Prog.Runs.refl _)
  have href : mkdirDocs.req.refusal (Exchange.replied respUnavailable (.ok ())) =
      some respUnavailable := rfl
  exact ⟨_, _, _, hrun, rfl,
    (retry_posture _ hrun List.mem_cons_self href rfl).1.mpr (Or.inr rfl)⟩

/-! ## translation to rclone's sentinels -/

/-- The write requests: the operation a mutating call is made for. -/
def Call.Writes (call : Call) (op : Op) : Prop :=
  match call with
  | put _ _ _ | update _ _ | remove _ | mkdir _ _ | rmdir _ _ | dirMove _ _ _ _ => True
  | copy _ _ _ | move _ _ _ => op ≠ .readMetadata
  | _ => False

/-- The lookups: the request that finds out whether something is there. -/
def Call.LooksUp (call : Call) (op : Op) : Prop :=
  match call with
  | list _ _ | newObject _ _ => True
  | openObject _ _ => op = .readMetadata
  | _ => False

/-- The metadata request with which a transfer completes the size of its
source. -/
def Call.Probes (call : Call) (op : Op) : Prop :=
  match call with
  | copy _ _ _ | move _ _ _ => op = .readMetadata
  | _ => False

/-- The run ends in a permission error as rclone knows it. -/
def Outcome.Denied (out : Outcome) : Prop :=
  ∃ e, out.err = some e ∧ e.is .fsErrorPermissionDenied = true

/-- The run ends in one of rclone's not-found errors. -/
def Outcome.NotFound (out : Outcome) : Prop :=
  ∃ e, out.err = some e ∧
    (e.is .fsErrorObjectNotFound = true ∨ e.is .fsErrorDirNotFound = true)

/-- What a write surfaces, a conflict apart. -/
theorem Call.Writes.surfacedKind {call : Call} {op : Op} (h : call.Writes op) (status : Int)
    (hst : status ≠ 409) : call.surfacedKind op status = some (mappedKind status) := by
  cases call with
  | put | update | remove | rmdir | dirMove => rfl
  | mkdir => exact if_neg hst
  | copy | move => exact if_neg h
  | _ => exact False.elim h

/-- What a lookup surfaces. -/
theorem Call.LooksUp.surfacedKind {call : Call} {op : Op} (h : call.LooksUp op) (status : Int) :
    ∃ missing, (missing = .fsErrorObjectNotFound ∨ missing = .fsErrorDirNotFound) ∧
      call.surfacedKind op status = some (lookupKind missing status) := by
  cases call with
  | list => exact ⟨_, Or.inr rfl, rfl⟩
  | newObject => exact ⟨_, Or.inl rfl, rfl⟩
  | openObject => exact ⟨_, Or.inl rfl, if_pos h⟩
  | _ => exact False.elim h

theorem Shows.is {resp : HttpResp} {s : Sentinel} {e : Err} (h : Shows resp ⟨[s], false⟩ e) :
    e.is s = true := by
  have hs : e.sentinels = [s] := congrArg Err.Kind.sentinels h.1
  rw [Err.is_iff_mem_sentinels, hs]
  exact List.mem_singleton_self s

/-- **Sentinel translation**: a write request refused with 401 or 403 ends
in rclone's permission error, one refused with 404 in a not-found error; a
lookup refused with 404 ends in a not-found error; a refused size probe of a
transfer does not fail it. -/
theorem refusal_translated (call : Call) {tr : List (Prog.Answered Eff.Reply)} {out : Outcome}
    (hrun : call.prog.Exec tr out) {w : Wire} {r : w.Reply} (hr : ⟨.send w, r⟩ ∈ tr)
    {resp : HttpResp} (href : w.req.refusal r = some resp) :
    (call.Writes w.req.op →
      (resp.status = 401 ∨ resp.status = 403 → out.Denied) ∧ (resp.status = 404 → out.NotFound)) ∧
    (call.LooksUp w.req.op → resp.status = 404 → out.NotFound) ∧
    (call.Probes w.req.op → out.err = none) := by
  refine ⟨fun hw => ⟨fun hst => ?_, fun hst => ?_⟩, fun hl hst => ?_, fun hp => ?_⟩
  · have hk := hw.surfacedKind resp.status (by omega)
    obtain ⟨e, he, hs⟩ := exists_err_of_exec hrun hr href hk
    rw [mappedKind, if_pos hst] at hs
    exact ⟨e, he, hs.is⟩
  · have hk := hw.surfacedKind resp.status (by omega)
    obtain ⟨e, he, hs⟩ := exists_err_of_exec hrun hr href hk
    rw [mappedKind, if_neg (by omega), if_pos hst] at hs
    exact ⟨e, he, Or.inl hs.is⟩
  · obtain ⟨missing, hmiss, hk⟩ := hl.surfacedKind resp.status
    obtain ⟨e, he, hs⟩ := exists_err_of_exec hrun hr href hk
    rw [lookupKind, if_pos hst] at hs
    rcases hmiss with rfl | rfl
    · exact ⟨e, he, Or.inl hs.is⟩
    · exact ⟨e, he, Or.inr hs.is⟩
  · have h := ends_of_exec hrun hr href
    have hk : call.surfacedKind w.req.op resp.status = none := by
      cases call with
      | copy | move => exact if_pos hp
      | _ => exact False.elim hp
    rw [hk] at h
    cases herr : out.err with
    | none => rfl
    | some e => rw [herr] at h; exact False.elim h

def respForbidden : HttpResp := ⟨403, -1, .last [] (.sentinel .eof), ⟨"", none⟩⟩

theorem refusal_translated_mkdir_forbidden :
    ∃ tr out, (Call.mkdir srvFs "docs".toList).prog.Exec tr out ∧ out.Denied := by
  have hrun : (Call.mkdir srvFs "docs".toList).prog.Exec
      [⟨.send mkdirDocs, (Exchange.replied respForbidden (.ok ()) : Exchange (Except Err Unit))⟩]
      ⟨[], some (.wrap [.lit "ocufs: Mkdir ", .quoted (srvFs.absPath "docs".toList), .lit ": "]
        (.sentinel .fsErrorPermissionDenied) [])⟩ := Prog.Runs.step (Prog.Runs.refl _)
  have href : mkdirDocs.req.refusal (Exchange.replied respForbidden (.ok ())) =
      some respForbidden := rfl
  exact ⟨_, _, hrun, ((refusal_translated _ hrun List.mem_cons_self href).1 trivial).1 (Or.inr rfl)⟩

def copyRequest : Wire :=
  ⟨srvFs.client, .ack (.copyFile
    ⟨"fs", srvObject.path, srvFs.absPath "b".toList, true, Client.authMeta .copyFile⟩)⟩

def probeRequest : Wire :=
  ⟨srvFs.client, .readMetadata ⟨"fs", srvObject.path, Client.authMeta .readMetadata⟩⟩

def probeRefused : probeRequest.Reply := Exchange.replied respForbidden (.error (.text []))

/-- A copy whose size probe is refused with 403 succeeds. -/
theorem copy_probe_forbidden :
    ∃ tr out, (Call.copy srvFs srvObject "b".toList).prog.Exec tr out ∧
      ⟨.send probeRequest, probeRefused⟩ ∈ tr ∧
      probeRequest.req.refusal probeRefused = some respForbidden ∧ ¬ out.Denied := by
  refine ⟨[⟨.send copyRequest, (Exchange.replied respOk (.ok ()) : Exchange (Except Err Unit))⟩,
      ⟨.peek, Meta.ofSize 0⟩, ⟨.peek, Meta.ofSize 0⟩,
      ⟨.send probeRequest, probeRefused⟩, ⟨.peek, Meta.ofSize 0⟩],
    ⟨[(⟨srvFs, "b".toList, srvFs.absPath "b".toList⟩, .ofSize 0)], none⟩,
    .step (.step (.step (.step (.step (.refl _))))), ?_, rfl, ?_⟩
  · simp
  · rintro ⟨e, he, -⟩
    cases he

end OcuFilestore.Ocufs
