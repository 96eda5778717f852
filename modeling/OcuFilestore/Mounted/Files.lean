import OcuFilestore.Mounted.Calls

/-!
# OcuFilestore.Mounted.Files

What is put is what is there.  A file that was put through a mount is read,
found and listed with its content as long as the requests of others spare it.
When it is not, the reason is one of those of `Hindered`, `FindsBack` and
`ListsBack`; that the file is missing is none of them.
-/

namespace OcuFilestore.Mounted

open Prog (Meets)
open SlashPath (Plain)
open Ocufs (Fs Object Meta OpenOption DirEntry Window Name Segmentwise remote)
open Peer (World Store Vol Loc Scope Source rwScope Response WireFile WireDir Deployment Site Errs
  Refusal FitsReply uuidForRelPath place)

/-! ## a file that is spared -/

/-- No other file has the uuid of this path. -/
def Unambiguous (sc : Scope) (V : Vol) (path : Path) : Prop :=
  ∀ ss, V.file (sc.loc ++ ss) ≠ none →
    uuidForRelPath sc.filesystemID (Peer.relText ss) = uuidForRelPath sc.filesystemID path →
    ss = place path

/-- The uuid of the path. -/
def HasUuid (sc : Scope) (path : Path) (m : Meta) : Prop :=
  m.uuid.toList = uuidForRelPath sc.filesystemID path

/-- Other calls on the object of a file resolve it, at any time. -/
def resolves (sc : Scope) (path : Path) (content : List UInt8) (m m' : Meta) : Prop :=
  m' = m ∨ m'.size = content.length ∧ HasUuid sc path m'

/-- The window of the content that the options ask for. -/
def Wants (content : List UInt8) (options : List OpenOption) (w : Window) : Prop :=
  Ocufs.applyOptions content.length ⟨0, 0, true⟩ options = .ok w

/-- What can keep a file that is there from being opened. -/
inductive Hindered (d : Deployment) (path : Path) (options : List OpenOption)
    (content : List UInt8) : Err → Prop
  | metadata {e : Err} (h : Refused d (metadataRequest d path) e) :
      Hindered d path options content e
  | badOption {e : Err}
      (h : Ocufs.applyOptions content.length ⟨0, 0, true⟩ options = .error e) :
      Hindered d path options content e
  | negative {w : Window} (hw : Wants content options w) (hfull : w.fullRead = false)
      (h : w.offset < 0 ∨ w.length < 0) : Hindered d path options content (negativeWindow w)
  | overflows {w : Window} {resp : Response} {e : Err} (hw : Wants content options w)
      (hfull : w.fullRead = false) (hlong : maxInt64 < min w.offset content.length + w.length)
      (hstatus : resp.status = 400) (herrs : Errs resp e) : Hindered d path options content e
  | download {w : Window} {uuid : String} {e : Err} (hw : Wants content options w)
      (huuid : uuid.toList = uuidForRelPath d.sc.filesystemID path)
      (h : Refused d (downloadRequest d uuid (rangeOf w)) e) : Hindered d path options content e
  | tooLong {w : Window} {text : List Frag} (hw : Wants content options w)
      (hfull : w.fullRead = true) (h : d.client.maxDownloadBytes < content.length) :
      Hindered d path options content (.text text)

/-- The content is read, or something else is in the way. -/
inductive ReadsBack (d : Deployment) (path : Path) (options : List OpenOption)
    (content : List UInt8) : Except Err Brokerrpc.Body → Prop
  | read {w : Window} {body : Brokerrpc.Body} (hw : Wants content options w)
      (hbody : Ocufs.ReadsTo body (bytesOf w content)) : ReadsBack d path options content (.ok body)
  | failed {e : Err} (h : Hindered d path options content e) :
      ReadsBack d path options content (.error e)

/-- The object is found, unless the request is refused. -/
inductive FindsBack (d : Deployment) (o : Object) (content : List UInt8) :
    Except Err (Object × Meta) → Prop
  | found {m : Meta} (hsize : m.size = content.length) (hm : HasUuid d.sc o.path m) :
      FindsBack d o content (.ok (o, m))
  | refused {e : Err} (h : Refused d (metadataRequest d o.path) e) :
      FindsBack d o content (.error e)

/-- The object is listed in a directory of the volume, unless the request is
refused or the listing too long. -/
inductive ListsBack (d : Deployment) (V : Vol) (dirPath : Path) (o : Object)
    (content : List UInt8) : Except Err (List DirEntry) → Prop
  | listed {m : Meta} {entries : List DirEntry} (hsize : m.size = content.length)
      (hm : HasUuid d.sc o.path m) (hmem : .object o m ∈ entries) :
      ListsBack d V dirPath o content (.ok entries)
  | refused {e : Err} (h : Refused d (listRequest d dirPath) e) :
      ListsBack d V dirPath o content (.error e)
  | unread {es : List (WireFile ⊕ WireDir)} {e : Err}
      (hlisting : (Peer.Command.listDirectory dirPath).Answered d.sc V (.entries es))
      (hlong : ¬ FitsReply (Peer.entriesMembers es)) (h : Unread .listDirectory e) :
      ListsBack d V dirPath o content (.error e)

/-- The requests of others have nothing to do with the file. -/
structure Spared (d : Deployment) (path : Path) : Prop where
  roots : d.srv.Rooted
  others : ∀ q, d.others q → d.srv.SparesIn d.sc (d.sc.locOf path) q

section Spared

variable {d : Deployment} {source : Source} {cell : Meta → Prop} {w w₁ : World}
  {s s' : Store} {m m' m₁ : Meta} {f : Fs} {path : Path} {content : List UInt8}

theorem scope_mem (d : Deployment) : d.sc ∈ d.srv.scopes :=
  List.mem_reverse.mp (List.mem_of_find?_eq_some d.bound.scope)

/-- What others spare keeps its content. -/
theorem Spared.file (h : Spared d path) (hquiet : d.Quiet s s')
    (hfile : s.volume.file (d.sc.locOf path) = some content) :
    s'.volume.file (d.sc.locOf path) = some content := by
  induction hquiet with
  | refl => exact hfile
  | tail _ hstep ih =>
      obtain ⟨tr, hsteps, htr⟩ | hvolume := hstep
      · exact hsteps.file d.sound h.roots (scope_mem d) (Peer.prefix_locOf d.sc path)
          (fun e he => h.others e.1 (htr e he)) ih
      · rw [hvolume]
        exact ih

/-- An upload that is acknowledged has stored its source, all of it. -/
theorem stored_of_once {resp : Response} (hspared : Spared d path)
    (h : d.Once source (uploadRequest d path source.bytes.length) resp s s') (hok : resp.Ok) :
    s'.volume.file (d.sc.locOf path) = some source.bytes := by
  obtain ⟨s₁, s₂, -, hturn, hafter⟩ := h
  refine hspared.file hafter ?_
  obtain ⟨hanswered, hnext⟩ := hturn.answered hok
  obtain ⟨hfile, hlen, -⟩ := Peer.uploaded_of_answered hanswered hok
  have hwhole : source.bytes.take Peer.maxUploadBytes = source.bytes := by
    have hshort : (source.bytes.take Peer.maxUploadBytes).length = source.bytes.length :=
      Int.ofNat.inj hlen
    rw [List.length_take] at hshort
    exact List.take_of_length_le (by omega)
  rw [hnext]
  exact hfile.trans (congrArg some hwhole)

/-- What was put is stored. -/
theorem stored_of_put {remote : Path} {o : Object} (hspared : Spared d (f.absPath remote))
    (hc : f.client = d.client) (hsite : Site d.ts w s) (hcell : cell m)
    (hsize : (source.bytes.length : Int) ≤ maxInt64)
    (hput : Prog.EvalsTo (mounted d source (leaving cell)) (w, m)
      (f.put remote source.bytes.length) (w₁, m₁) (.ok (o, m'))) :
    o = ⟨f, remote, f.absPath remote⟩ ∧ m' = .ofSize source.bytes.length ∧ cell m₁ ∧
      ∃ s₁, Site d.ts w₁ s₁ ∧
        s₁.volume.file (d.sc.locOf (f.absPath remote)) = some source.bytes := by
  have hrange : -maxInt64 - 1 ≤ (source.bytes.length : Int) ∧
      (source.bytes.length : Int) ≤ maxInt64 := by
    refine ⟨?_, hsize⟩
    unfold maxInt64
    omega
  obtain ⟨s₁, hsite₁, hcell₁, hdid⟩ := hput.post (meets_put hc hsite hcell remote hrange)
  cases hdid with
  | done hfree honce hok ha =>
      cases ha
      exact ⟨rfl, rfl, hcell₁, s₁, hsite₁, stored_of_once hspared honce hok⟩

/-- What other calls can make of the object of a file that is spared. -/
theorem Spared.resolving (h : Spared d path)
    (hfile : s.volume.file (d.sc.locOf path) = some content) :
    Resolving d path s (resolves d.sc path content)
      (fun m => m.size = content.length ∧ Handles d.sc path m)
      (fun m => m.size = content.length ∧ HasUuid d.sc path m) where
  stable := ⟨fun _ _ => .inl rfl, by
    rintro m m' hm (rfl | ⟨hsize, huuid⟩)
    · exact hm
    · exact ⟨hsize, .inr huuid⟩⟩
  stays := ⟨fun _ _ => .inl rfl, by
    rintro m m' hm (rfl | hm')
    · exact hm
    · exact hm'⟩
  cell_of_known _ hm := ⟨hm.1, .inr hm.2⟩
  of_uuid _ hm hne := ⟨hm.1, hm.2.resolve_left hne⟩
  of_file s₁ bs file hquiet hbs hsize huuid := by
    obtain rfl := Option.some.inj ((h.file hquiet hfile).symm.trans hbs)
    exact ⟨hsize, huuid⟩

/-- What is stored is read. -/
theorem read_of_stored {o : Object} {options : List OpenOption} (hspared : Spared d o.path)
    (hc : o.fs.client = d.client) (hpath : o.path ≠ []) (hsite : Site d.ts w s)
    (hm : m.size = content.length ∧ Handles d.sc o.path m)
    (hopts : ∀ opt ∈ options, Int64Option opt)
    (hfile : s.volume.file (d.sc.locOf o.path) = some content)
    (huuid : ∀ s', d.Quiet s s' → Unambiguous d.sc s'.volume o.path) :
    Meets (mounted d source (resolves d.sc o.path content))
      (fun _ r => ReadsBack d o.path options content r) (w, m) (o.open options) := by
  have hres := hspared.resolving hfile
  refine (meets_open hc hpath hsite hres (fun _ h => .inr h.2) hm hopts).mono ?_
  rintro t r ⟨s₁, s', -, -, hquiet, -, hopened⟩
  have hfile₁ := hspared.file hquiet hfile
  have hcontent {ss : Loc} {bs : List UInt8} (h : Holds d o.path s₁.volume ss bs) :
      bs = content := by
    have hbs := h.file
    obtain rfl := huuid s₁ hquiet ss (by simp [hbs]) h.uuid
    exact Option.some.inj (hbs.symm.trans hfile₁)
  have hwants {win : Window}
      (h : Asks (fun m => m.size = content.length ∧ HasUuid d.sc o.path m) options win) :
      Wants content options win := by
    obtain ⟨m, ⟨hsize, -⟩, happly⟩ := h
    rwa [hsize] at happly
  cases hopened with
  | read hbs hw hbody =>
      obtain rfl := hcontent hbs
      exact .read (hwants hw) hbody
  | @empty win body hw hfull hzero hbody =>
      refine .read (hwants hw) ?_
      rw [bytesOf, hfull, hzero]
      exact hbody
  | failed h =>
      refine .failed ?_
      cases h with
      | unresolved h =>
          cases h with
          | absent hnone => cases hfile₁.symm.trans hnone
          | refused h => exact .metadata h
      | @noHandle m hm hnone =>
          have huuid := hm.2
          rw [HasUuid, hnone] at huuid
          exact absurd huuid.symm (Peer.uuidForRelPath_ne_nil _ _)
      | @badOption m e hm h =>
          rw [hm.1] at h
          exact .badOption h
      | negative hw hfull h => exact .negative (hwants hw) hfull h
      | overflows hw hfull hbs hlong hstatus herrs =>
          obtain rfl := hcontent hbs
          exact .overflows (hwants hw) hfull hlong hstatus herrs
      | gone hnone => cases hfile₁.symm.trans hnone
      | refused hw huuid h => exact .download (hwants hw) huuid h
      | tooLong hw hfull hbs hlong =>
          obtain rfl := hcontent hbs
          exact .tooLong (hwants hw) hfull hlong

/-- What is stored is found. -/
theorem found_of_stored {remote : Path} (hspared : Spared d (f.absPath remote))
    (hc : f.client = d.client) (hsite : Site d.ts w s) (hcell : cell m)
    (hfile : s.volume.file (d.sc.locOf (f.absPath remote)) = some content) :
    Meets (mounted d source (leaving cell))
      (fun _ r => FindsBack d ⟨f, remote, f.absPath remote⟩ content r) (w, m)
      (f.newObject remote) := by
  refine (meets_newObject hc hsite hcell remote).mono ?_
  rintro t r ⟨s₁, s', -, -, hquiet, -, hfound⟩
  have hfile₁ := hspared.file hquiet hfile
  cases hfound with
  | @file bs m' hbs hsize huuid =>
      obtain rfl := Option.some.inj (hfile₁.symm.trans hbs)
      exact .found hsize huuid
  | directory hdir => cases hfile₁.symm.trans (FileVolume.file_of_isDir hdir)
  | missing hnone => cases hfile₁.symm.trans (file_none_of_node hnone)
  | failed h =>
      cases h with
      | absent hnone => cases hfile₁.symm.trans hnone
      | refused h => exact .refused h

theorem exists_of_forall₂ {α β : Type} {R : α → β → Prop} {as : List α} {bs : List β}
    (h : List.Forall₂ R as bs) {a : α} (ha : a ∈ as) : ∃ b, b ∈ bs ∧ R a b := by
  induction h with
  | nil => cases ha
  | @cons a' b as bs hab _ ih =>
      obtain rfl | ha := List.mem_cons.mp ha
      · exact ⟨b, List.mem_cons_self, hab⟩
      · obtain ⟨b', hb', hR⟩ := ih ha
        exact ⟨b', List.mem_cons_of_mem _ hb', hR⟩

/-- What is stored is listed. -/
theorem listed_of_stored {dir name : Path} (hspared : Spared d path)
    (hloc : d.sc.locOf path = d.sc.locOf (f.absPath dir) ++ [name]) (hc : f.client = d.client)
    (hsite : Site d.ts w s) (hcell : cell m)
    (hfile : s.volume.file (d.sc.locOf path) = some content) :
    Meets (mounted d source (leaving cell)) (fun t r => ∃ s', Site d.ts t.1 s' ∧ d.Quiet s s' ∧
      ListsBack d s'.volume (f.absPath dir) ⟨f, childRemote f dir name, childPath f dir name⟩
        content r) (w, m) (f.list dir) := by
  refine (meets_list hc hsite hcell dir).mono ?_
  rintro t r ⟨s₁, s', hsite', -, hquiet, hvolume, hlisted⟩
  have hfile₁ := hspared.file hquiet hfile
  rw [hloc] at hfile₁
  have hnode : s₁.volume.node (d.sc.locOf (f.absPath dir) ++ [name]) ≠ none := fun hnone => by
    cases hfile₁.symm.trans (file_none_of_node hnone)
  have hparent : s₁.volume.IsDir (d.sc.locOf (f.absPath dir)) :=
    FileVolume.isDir_above hnode (List.prefix_append ..) (by simp)
  refine ⟨s', hsite', hquiet.trans (Peer.Deployment.quiet_of_volume hvolume), ?_⟩
  rw [hvolume]
  cases hlisted with
  | entries hdir hnodup hnames hall =>
      obtain ⟨entry, hentry, hshown⟩ := exists_of_forall₂ hall ((hnames name).mpr hnode)
      cases hshown with
      | @file bs m' hbs hsize huuid =>
          obtain rfl := Option.some.inj (hfile₁.symm.trans hbs)
          exact .listed hsize huuid hentry
      | directory hdir => cases hfile₁.symm.trans (FileVolume.file_of_isDir hdir)
  | missing hnone => cases hnone.symm.trans hparent
  | failed h =>
      cases h with
      | noDirectory h => exact absurd hparent h
      | refused h => exact .refused h
      | tooLong h hlong hunread => exact .unread h hlong hunread

end Spared

/-! ## standard names -/

section Names

variable {f : Fs} {Std : Path → Prop} (E : Segmentwise f.enc Std) {rs : List (Name Std)}

/-- The remote under which a standard name is listed. -/
theorem childRemote_fromSeg (ds : List (Name Std)) (n : Name Std) :
    childRemote f (remote ds) (E.fromSeg n.1) = remote (ds ++ [n]) := by
  have hdec : f.enc.toStandardPath (E.fromSeg n.1) = n.1 := by
    rw [E.toStandardPath_eq, SlashPath.segs_of_notMem (E.plain_fromSeg n).sep_notMem,
      List.map_singleton, E.toSeg_fromSeg _ n.2.2]
    simp [SlashPath.rel]
  rw [childRemote, hdec]
  split
  · next hnil => rw [Ocufs.remote_eq_nil.mp hnil, List.nil_append, Ocufs.remote_singleton]
  · rw [← Ocufs.join_remote, Ocufs.remote_singleton]

/-- The path of a standard name below a directory. -/
theorem childPath_fromSeg (hroot : f.RootOf rs) (ds : List (Name Std)) (n : Name Std) :
    childPath f (remote ds) (E.fromSeg n.1) = f.absPath (remote (ds ++ [n])) := by
  rw [childPath, Ocufs.absPath_remote E hroot, Ocufs.absPath_remote E hroot,
    place_fromRoot (E.plain_wire _)]
  simp [Segmentwise.wire]

/-- A child lies one name below its directory. -/
theorem locOf_fromSeg (sc : Scope) (hroot : f.RootOf rs) (ds : List (Name Std)) (n : Name Std) :
    sc.locOf (f.absPath (remote (ds ++ [n]))) =
      sc.locOf (f.absPath (remote ds)) ++ [E.fromSeg n.1] := by
  rw [← childPath_fromSeg E hroot, childPath, Scope.locOf, Scope.locOf, List.append_assoc,
    place_fromRoot]
  refine List.forall_mem_append.mpr ⟨Peer.plain_place _, ?_⟩
  simpa using E.plain_fromSeg n

end Names

/-! ## what is put is there -/

section Put

variable {d : Deployment} {source source' : Source} {cell : Meta → Prop} {w w₁ : World} {s : Store}
  {m m' m₁ : Meta} {f : Fs}

end Put

/-! ## one byte -/

/-- Nobody else asks for anything. -/
def rwAlone : Deployment := Peer.rwDeployment fun _ => False

theorem volume_of_quiet_alone {s s' : Store} (h : rwAlone.Quiet s s') : s'.volume = s.volume := by
  induction h with
  | refl => rfl
  | tail _ hstep ih =>
      obtain ⟨tr, hsteps, htr⟩ | hvolume := hstep
      · cases hsteps with
        | nil => exact ih
        | cons _ _ => exact (htr _ List.mem_cons_self).elim
      · exact hvolume.trans ih

theorem spared_alone (path : Path) : Spared rwAlone path :=
  ⟨Peer.twoScopes_rooted, fun _ h => h.elim⟩

/-- No other client is let in, and nothing else is refused. -/
theorem not_refusal_upload {path : Path} {size status : Int} :
    ¬ Refusal rwAlone.srv rwAlone.sc rwAlone.authorization (uploadRequest rwAlone path size)
      status := by
  intro h
  cases h with
  | tooLong hop _ => exact hop rfl
  | lapsed h => cases h
  | readOnly _ h => cases h
  | metered h => cases h
  | throttled _ h => exact absurd h (by decide)

/-- `x` in the scope to write to. -/
def xObject : Object := ⟨rwFs, "x".toList, "/x".toList⟩

theorem absPath_x : rwFs.absPath "x".toList = "/x".toList := by decide +kernel

theorem free_x : Peer.justTemp.Free (rwAlone.sc.locOf "/x".toList) := by
  have hnode : Peer.justTemp.node (rwAlone.sc.locOf "/x".toList) = none := by decide +kernel
  refine ⟨fun y _ => ?_, fun hdir => by cases hnode.symm.trans hdir⟩
  rw [Peer.justTemp, FileVolume.file_mkdirs, FileVolume.file_empty]

/-- What the store makes of the upload of one byte. -/
theorem once_put_x {resp : Response} {s' : Store}
    (h : rwAlone.Once (.of [8]) (uploadRequest rwAlone "/x".toList 1) resp ⟨Peer.justTemp, 0⟩ s') :
    resp.Ok ∧ s'.volume = Peer.justTemp.put (rwAlone.sc.locOf "/x".toList) [8] free_x := by
  obtain ⟨s₁, s₂, hbefore, hturn, hafter⟩ := h
  have hvolume : s₁.volume = Peer.justTemp := volume_of_quiet_alone hbefore
  rw [hvolume] at hturn
  rw [volume_of_quiet_alone hafter]
  obtain ⟨hrefused, -⟩ | ⟨hcut, -⟩ | ⟨-, hanswered, hnext⟩ := hturn
  · exact absurd hrefused not_refusal_upload
  · cases hcut.2.1
  · have htaken : ¬ Peer.Taken Peer.justTemp true (rwAlone.sc.locOf "/x".toList) :=
      fun h => by cases h.1
    have hcommand : Peer.commandOf (.of [8]) (uploadRequest rwAlone "/x".toList 1) =
        .upload ⟨"fsrw".toList, "/x".toList, 1, true, _⟩ [8] := rfl
    rw [hcommand, Peer.Command.Answered] at hanswered
    rw [hcommand, Peer.Command.next] at hnext
    obtain ⟨f, rfl, -⟩ : ∃ f, resp = .file f ∧ _ :=
      (if_neg htaken).mp hanswered |> (if_neg (not_not_intro free_x)).mp |> (if_neg (by decide)).mp
    refine ⟨Peer.ok_file f, hnext.trans ?_⟩
    exact (if_neg htaken).trans ((dif_pos free_x).trans (if_pos rfl))

theorem exists_put_x : ∃ w₁ m₁ s₁,
    Prog.EvalsTo (mounted rwAlone (.of [8]) (leaving fun _ => True))
      (Peer.World.of Peer.justTemp, .ofSize 0) (rwFs.put "x".toList (1 : Nat)) (w₁, m₁)
      (.ok (xObject, .ofSize (1 : Nat))) ∧
    Site rwAlone.ts w₁ s₁ ∧
    s₁.volume = Peer.justTemp.put (rwAlone.sc.locOf "/x".toList) [8] free_x := by
  have hmeets : Meets (mounted rwAlone (.of [8]) (leaving fun _ => True)) _ _
      (rwFs.put "x".toList (1 : Nat)) :=
    meets_put (m := .ofSize 0) rfl Peer.justTemp_site trivial "x".toList ⟨by decide, by decide⟩
  obtain ⟨⟨w₁, m₁⟩, r, hev⟩ := hmeets.yields.1
  obtain ⟨s₁, hsite, -, hdid⟩ := hev.post hmeets
  rw [absPath_x] at hdid
  cases hdid with
  | barred h => cases h
  | done _ honce _ ha =>
      cases ha
      exact ⟨w₁, m₁, s₁, hev, hsite, (once_put_x honce).2⟩
  | failed _ honce hno => exact absurd rfl (hno (once_put_x honce).1).2

/-- The names of the root. -/
def rootNames : List (Name (Ocufs.Faithful Ocufs.defaultEncoding)) := []

def xName : Name (Ocufs.Faithful Ocufs.defaultEncoding) := ⟨"x".toList, by decide +kernel⟩

end OcuFilestore.Mounted
