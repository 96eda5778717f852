import OcuFilestore.Ocufs.Listing

/-!
# OcuFilestore.Ocufs.Lookup

Whether a listing and a point lookup agree on what a path is.  Both are given
the two arms of a union, a file and a directory: a listing entry has each arm
or not, in a metadata response an arm that is absent reads as one with empty
fields.  `List` goes by which arm is there, `NewObject` by which fields are
set.

The two differ on one kind of response, a file arm that is there without a
path: the listing takes its path for the entry's and drops the entry, the
lookup sees the directory arm or the file's other fields.
-/

namespace OcuFilestore.Ocufs

open Brokerrpc SlashPath

/-! ## the arms a broker returns for a path -/

/-- The metadata response with the arms of a listing entry. -/
def responseOf (arms : ListDirEntry) : ReadMetadataResponse where
  file :=
    match arms.file with
    | some ff => ⟨ff.path, ff.size, ff.mtime, ff.mode, ff.sha, ff.mime, ff.uuid⟩
    | none => ⟨[], 0, "", "", "", "", ""⟩
  directory := arms.directory.getD ⟨[], "", ""⟩

/-- Arms returned for the path `p`: each has no path or `p`, one has `p`. -/
structure ArmsFor (arms : ListDirEntry) (p : Path) : Prop where
  file : ∀ ff, arms.file = some ff → ff.path = [] ∨ ff.path = p
  directory : ∀ d, arms.directory = some d → d.path = [] ∨ d.path = p
  carried : (∃ ff, arms.file = some ff ∧ ff.path = p) ∨ ∃ d, arms.directory = some d ∧ d.path = p

def DirEntry.remote : DirEntry → Path
  | .object o _ => o.remote
  | .dir remote _ => remote

/-- The remote a listing of `dir` gives the child of that name. -/
def Fs.childRemote (f : Fs) (dir n : Path) : Path :=
  if dir = [] then f.enc.toStandardPath n else join dir (f.enc.toStandardPath n)

/-- The answers of a run that are the metadata response `resp`. -/
def AnsweredWith (resp : ReadMetadataResponse) (tr : List (Prog.Answered Eff.Reply)) : Prop :=
  ∀ c q x, (⟨.send ⟨c, .readMetadata q⟩, x⟩ : Prog.Answered Eff.Reply) ∈ tr →
    callResult .readMetadata x = .ok resp

/-- The listing of `dir` shows the child `n` as a file, as a directory or not
at all as the lookup of `remote` does, in all runs in which the broker returns
`arms`; the other entries of the listing are for other remotes. -/
def Fs.Agrees (f : Fs) (dir n remote : Path) (arms : ListDirEntry) : Prop :=
  ∀ es₁ es₂ tr entries tr' r,
    (∀ e ∈ es₁ ++ es₂,
      f.immediateChildRemote dir (f.absPath dir) e ≠ some (f.childRemote dir n)) →
    streamed tr = es₁ ++ arms :: es₂ → (f.list dir).Exec tr (.ok entries) →
    AnsweredWith (responseOf arms) tr' → (f.newObject remote).Exec tr' r →
    ((∃ o m, .object o m ∈ entries ∧ o.remote = f.childRemote dir n) ↔ ∃ o, r = .ok o) ∧
    ((∃ mtime, .dir (f.childRemote dir n) mtime ∈ entries) ↔
      r = .error (.sentinel .fsErrorIsDir))

/-! ## what a listing shows -/

section Listing

variable {f : Fs} {dir n : Path} {ts : List Path}

/-- A listed entry stands under the remote the filter gives it. -/
theorem remote_of_childEntry {e : ListDirEntry} {d : DirEntry} (h : f.childEntry dir e = some d) :
    f.immediateChildRemote dir (f.absPath dir) e = some d.remote := by
  obtain ⟨ts, hts, habs⟩ := exists_absPath f dir
  rw [Fs.childEntry, Option.bind_eq_some_iff] at h
  obtain ⟨p, hp, h⟩ := h
  obtain ⟨w, hw, rfl⟩ := Option.map_eq_some_iff.mp h
  rw [habs] at hw ⊢
  rw [immediateChildRemote_eq f dir hts, hp, Option.bind_some, hw, Option.map_some]
  cases e.file <;> rfl

/-- Among the entries of a listing, those of the child come from its arms. -/
theorem mem_entries_iff {arms : ListDirEntry} {es₁ es₂ : List ListDirEntry}
    (hother : ∀ e ∈ es₁ ++ es₂,
      f.immediateChildRemote dir (f.absPath dir) e ≠ some (f.childRemote dir n))
    {d : DirEntry} (hd : d.remote = f.childRemote dir n) :
    d ∈ (es₁ ++ arms :: es₂).filterMap (f.childEntry dir) ↔ f.childEntry dir arms = some d := by
  rw [List.mem_filterMap]
  constructor
  · rintro ⟨e, he, heq⟩
    rcases List.mem_append.mp he with h | h
    · exact absurd (hd ▸ remote_of_childEntry heq) (hother e (List.mem_append_left _ h))
    · rcases List.mem_cons.mp h with rfl | h
      · exact heq
      · exact absurd (hd ▸ remote_of_childEntry heq) (hother e (List.mem_append_right _ h))
  · exact fun h => ⟨arms, by simp, h⟩

variable (hts : ∀ s ∈ ts ++ [n], Plain s) (hdir : f.absPath dir = fromRoot ts)

include hts hdir in
/-- A child's path is that of its directory and one name more. -/
theorem childName_of_child : childName (f.absPath dir) (cleanPath (fromRoot (ts ++ [n]))) =
    some n := by
  have hclean : cleanPath (fromRoot (ts ++ [n])) = fromRoot (ts ++ [n]) := clean_sep_fromRoot hts
  rw [hdir, hclean]
  exact (childName_fromRoot (fun s hs => hts s (List.mem_append_left _ hs)) hts).mpr rfl

include hts hdir in
/-- A listed file becomes an object. -/
theorem childEntry_file {arms : ListDirEntry} {ff : FilesystemFile} (hf : arms.file = some ff)
    (hp : ff.path = fromRoot (ts ++ [n])) :
    ∃ o m, f.childEntry dir arms = some (.object o m) ∧ o.remote = f.childRemote dir n := by
  simp only [Fs.childEntry, entryPath, hf, hp, childName_of_child hts hdir, Option.bind_some,
    Option.map_some]
  exact ⟨_, _, rfl, rfl⟩

include hts hdir in
/-- A listed directory becomes a directory. -/
theorem childEntry_directory {arms : ListDirEntry} {d : Directory} (hf : arms.file = none)
    (hd : arms.directory = some d) (hp : d.path = fromRoot (ts ++ [n])) :
    f.childEntry dir arms = some (.dir (f.childRemote dir n) d.mtime) := by
  simp only [Fs.childEntry, entryPath, hf, hd, hp, childName_of_child hts hdir, Option.bind_some,
    Option.map_some]
  rfl

include hts hdir in
/-- A file arm without a path hides the entry. -/
theorem childEntry_no_path {arms : ListDirEntry} {ff : FilesystemFile}
    (hf : arms.file = some ff) (hp : ff.path = []) : f.childEntry dir arms = none := by
  have hclean : cleanPath [] = fromRoot [] := rfl
  have hnone : childName (fromRoot ts) (fromRoot []) = none := by
    refine Option.eq_none_iff_forall_not_mem.mpr fun w hw => ?_
    have := (childName_fromRoot (fun s hs => hts s (List.mem_append_left _ hs)) (by simp)).mp hw
    simp at this
  simp only [Fs.childEntry, entryPath, hf, hp, hclean, hdir, hnone, Option.bind_some,
    Option.map_none]

end Listing

/-! ## what a lookup shows -/

/-- What a lookup makes of a response, of the three kinds. -/
def Fs.lookedUp (f : Fs) (remote : Path) (resp : ReadMetadataResponse) :
    Except Err (Object × Meta) :=
  match classifyReadMetadata resp with
  | .file => .ok (⟨f, remote, f.absPath remote⟩, .ofFile resp.file)
  | .directory => .error (.sentinel .fsErrorIsDir)
  | .absent => .error (.sentinel .fsErrorObjectNotFound)

/-- What `NewObject` returns is decided by the metadata it reads. -/
theorem lookedUp_of_exec {f : Fs} {remote : Path} {resp : ReadMetadataResponse}
    {tr : List (Prog.Answered Eff.Reply)} {r : Except Err (Object × Meta)}
    (htr : AnsweredWith resp tr) (h : (f.newObject remote).Exec tr r) :
    r = f.lookedUp remote resp := by
  obtain ⟨tr₁, tr₂, res, rfl, h₁, h₂⟩ := Prog.exec_bind h
  rw [Client.readMetadata, Client.stamped_eq] at h₁
  obtain ⟨x, tr', rfl, hret⟩ := Prog.exec_op h₁
  have hx := htr _ _ x (List.mem_append_left _ List.mem_cons_self)
  have hres : res = .ok resp := (Prog.exec_ret hret).2.symm.trans hx
  subst hres
  unfold Fs.lookedUp
  dsimp only at h₂
  cases hc : classifyReadMetadata resp <;> rw [hc] at h₂ <;> exact (Prog.exec_ret h₂).2.symm

/-- The answer that serves a metadata response. -/
def okMetadata (f : Fs) (remote : Path) (resp : ReadMetadataResponse) :
    List (Prog.Answered Eff.Reply) :=
  [⟨.send ⟨f.client, .readMetadata ⟨f.client.fsID, f.absPath remote,
      Client.authMeta .readMetadata⟩⟩,
    .replied ⟨200, -1, .last [] (.sentinel .eof), ⟨"", none⟩⟩ (.ok resp)⟩]

theorem answeredWith_okMetadata (f : Fs) (remote : Path) (resp : ReadMetadataResponse) :
    AnsweredWith resp (okMetadata f remote resp) := by
  intro c q x hx
  cases List.mem_singleton.mp hx
  rfl

theorem exec_newObject_okMetadata (f : Fs) (remote : Path) (resp : ReadMetadataResponse) :
    (f.newObject remote).Exec (okMetadata f remote resp) (f.lookedUp remote resp) := by
  rw [Fs.newObject, Client.readMetadata, Client.stamped_eq, Fs.lookedUp]
  refine .step ?_
  change Prog.Runs (Prog.bind (.ret (Except.ok resp : Except Err ReadMetadataResponse)) _) [] _
  cases hc : classifyReadMetadata resp <;> simp only [Prog.bind, hc] <;> exact .refl _

/-- A file arm with a path is a file. -/
theorem classify_file {arms : ListDirEntry} {ff : FilesystemFile} (hf : arms.file = some ff)
    (hp : ff.path ≠ []) : classifyReadMetadata (responseOf arms) = .file := by
  simp [classifyReadMetadata, responseOf, hf, classifyMetaArms, hp]

/-- A directory arm with a path is a directory. -/
theorem classify_directory {arms : ListDirEntry} {d : Directory} (hf : arms.file = none)
    (hd : arms.directory = some d) (hp : d.path ≠ []) :
    classifyReadMetadata (responseOf arms) = .directory := by
  simp [classifyReadMetadata, responseOf, hf, hd, classifyMetaArms, hp]

/-- A directory's path is seen, whatever the file arm holds. -/
theorem classifyMetaArms_ne_absent (filePath : Path) (fileUUID fileMtime : String)
    (fileSize : Int) {dirPath : Path} (hp : dirPath ≠ []) :
    classifyMetaArms filePath fileUUID fileMtime fileSize dirPath ≠ .absent := by
  simp only [classifyMetaArms]
  split
  · exact nofun
  · split
    · exact nofun
    · simp_all

/-! ## agreement -/

/-- **Listing and lookup agree**: the arms a broker returns for a path lead to
the same kind of entry in a listing of the directory and in a point lookup
exactly when a file arm that is there carries the path. -/
theorem list_newObject_agree_iff (f : Fs) {dir n remote : Path} {ts : List Path}
    (hts : ∀ s ∈ ts ++ [n], Plain s) (hdir : f.absPath dir = fromRoot ts)
    (hremote : f.absPath remote = fromRoot (ts ++ [n])) {arms : ListDirEntry}
    (harms : ArmsFor arms (f.absPath remote)) :
    f.Agrees dir n remote arms ↔ ∀ ff, arms.file = some ff → ff.path = f.absPath remote := by
  have hp0 : f.absPath remote ≠ [] := by simp [hremote, fromRoot]
  constructor
  · intro h ff hff
    refine (harms.file ff hff).resolve_left fun hp => ?_
    obtain ⟨d, hd, hdp⟩ := harms.carried.resolve_left (by
      rintro ⟨ff', hff', hp'⟩
      cases hff.symm.trans hff'
      exact hp0 (hp'.symm.trans hp))
    have hrun := h [] [] _ _ _ _ (by simp) (streamed_onePage f dir [arms])
      (exec_list_onePage f dir [arms]) (answeredWith_okMetadata f remote _)
      (exec_newObject_okMetadata f remote _)
    -- nothing is listed, while the lookup finds something
    rw [List.filterMap_cons_none (childEntry_no_path hts hdir hff hp), List.filterMap_nil] at hrun
    have hne : classifyReadMetadata (responseOf arms) ≠ .absent := by
      refine classifyMetaArms_ne_absent _ _ _ _ ?_
      simpa [responseOf, hd, hdp] using hp0
    unfold Fs.lookedUp at hrun
    cases hc : classifyReadMetadata (responseOf arms) <;> simp [hc] at hne hrun
  · intro h es₁ es₂ tr entries tr' r hother hstr hlist hans hnew
    obtain rfl := entries_of_exec hlist
    obtain rfl := lookedUp_of_exec hans hnew
    rw [hstr]
    cases hf : arms.file with
    | some ff =>
        obtain ⟨o, m, hentry, ho⟩ := childEntry_file hts hdir hf ((h ff hf).trans hremote)
        have hc := classify_file hf (h ff hf ▸ hp0)
        simp only [Fs.lookedUp, hc]
        have hin := (mem_entries_iff (d := .object o m) hother ho).mpr hentry
        refine ⟨iff_of_true ⟨o, m, hin, ho⟩ ⟨_, rfl⟩, iff_of_false ?_ (by simp)⟩
        rintro ⟨mtime, hmem⟩
        cases hentry.symm.trans ((mem_entries_iff hother rfl).mp hmem)
    | none =>
        obtain ⟨d, hd, hdp⟩ := harms.carried.resolve_left (by simp [hf])
        have hentry := childEntry_directory hts hdir hf hd (hdp.trans hremote)
        have hc := classify_directory hf hd (hdp ▸ hp0)
        simp only [Fs.lookedUp, hc]
        refine ⟨iff_of_false ?_ (by simp),
          iff_of_true ⟨d.mtime, (mem_entries_iff hother rfl).mpr hentry⟩ trivial⟩
        rintro ⟨o, m, hmem, ho⟩
        cases hentry.symm.trans ((mem_entries_iff (d := .object o m) hother ho).mp hmem)

/-- A file arm with the path, next to a stray directory arm. -/
theorem list_newObject_agree_srv :
    srvFs.Agrees "d".toList "b".toList "d/b".toList
      ⟨some ⟨"/srv/d/b".toList, 3, "", "", "", "", "u"⟩, some ⟨[], "", ""⟩⟩ := by
  have hdir : srvFs.absPath "d".toList = fromRoot ["srv".toList, "d".toList] := by decide
  refine (list_newObject_agree_iff srvFs (by decide) hdir (by decide)
    ⟨?_, ?_, Or.inl ⟨_, rfl, by decide⟩⟩).mpr ?_
  · rintro _ ⟨⟩
    exact Or.inr (by decide)
  · rintro _ ⟨⟩
    exact Or.inl rfl
  · rintro _ ⟨⟩
    decide

/-- A directory whose response has a file arm without a path. -/
def strayArms : ListDirEntry :=
  ⟨some ⟨[], 0, "", "", "", "", "u"⟩, some ⟨"/srv/d/b".toList, "", ""⟩⟩

/-- The lookup says it is a directory, and the listing does not show it. -/
theorem list_newObject_disagree :
    ArmsFor strayArms (srvFs.absPath "d/b".toList) ∧
    (srvFs.list "d".toList).Exec (onePage srvFs "d".toList [strayArms]) (.ok []) ∧
    (srvFs.newObject "d/b".toList).Exec (okMetadata srvFs "d/b".toList (responseOf strayArms))
      (.error (.sentinel .fsErrorIsDir)) := by
  refine ⟨⟨?_, ?_, Or.inr ⟨_, rfl, by decide⟩⟩, exec_list_onePage srvFs "d".toList [strayArms],
    exec_newObject_okMetadata srvFs "d/b".toList (responseOf strayArms)⟩
  · rintro _ ⟨⟩
    exact Or.inl rfl
  · rintro _ ⟨⟩
    exact Or.inr (by decide)

end OcuFilestore.Ocufs
