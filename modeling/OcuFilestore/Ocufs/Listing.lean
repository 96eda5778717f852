import OcuFilestore.Ocufs.Fs

/-!
# OcuFilestore.Ocufs.Listing

What a listing of the backend returns.  The broker streams the whole tree
below a directory; `List` keeps the depth-one entries and names them by their
remotes.

`childEntry` says on path names what becomes of one streamed entry, and
`list_childEntries` that `List` returns exactly that for the entries of the
pages it was served.
-/

namespace OcuFilestore.Ocufs

open Brokerrpc SlashPath

/-- The entry a streamed entry is listed as: one whose cleaned path has one
name more than the directory's, under that name in standard encoding. -/
def Fs.childEntry (f : Fs) (dir : Path) (entry : ListDirEntry) : Option DirEntry :=
  (entryPath entry).bind fun p => (childName (f.absPath dir) (cleanPath p)).map fun w =>
    let std := f.enc.toStandardPath w
    let remote := if dir = [] then std else join dir std
    match entry.file with
    | some ff =>
        .object ⟨f, remote, cleanPath ff.path⟩
          ⟨ff.uuid, ff.size, ff.mtime, ff.mode, ff.sha, ff.mime⟩
    | none => .dir remote ((entry.directory.map (·.mtime)).getD "")

/-- The directory a listing filters by is canonical. -/
theorem exists_absPath (f : Fs) (dir : Path) :
    ∃ ts : List Path, (∀ s ∈ ts, Plain s) ∧ f.absPath dir = fromRoot ts := by
  unfold Fs.absPath
  exact exists_clean_sep _

/-- Each entry is taken up if it is a child, and none ends the listing. -/
theorem listYield_eq (f : Fs) (dir : Path) (entries : List DirEntry) (entry : ListDirEntry) :
    f.listYield dir (f.absPath dir) entries entry =
      (entries ++ (f.childEntry dir entry).toList, none) := by
  obtain ⟨ts, hts, habs⟩ := exists_absPath f dir
  unfold Fs.listYield Fs.childEntry
  rw [habs, immediateChildRemote_eq f dir hts]
  unfold entryPath
  cases entry.file with
  | some ff =>
      cases h : childName (fromRoot ts) (cleanPath ff.path) with
      | none => simp [h]
      | some w => simp [h, objectFromFile]
  | none =>
      cases entry.directory with
      | none => simp
      | some d =>
          cases h : childName (fromRoot ts) (cleanPath d.path) with
          | none => simp [h]
          | some w => simp [h]

/-- The callback over a run of entries; it never stops the listing. -/
theorem yieldAll_listYield (f : Fs) (dir : Path) (es : List ListDirEntry)
    (entries : List DirEntry) :
    yieldAll (f.listYield dir (f.absPath dir)) entries es =
      (entries ++ es.filterMap (f.childEntry dir), none) := by
  induction es generalizing entries with
  | nil => simp [yieldAll]
  | cons e es ih =>
      rw [yieldAll, listYield_eq]
      simp only [ih, List.filterMap_cons]
      cases f.childEntry dir e with
      | none => simp
      | some d => simp

/-! ## the streamed entries -/

/-- The entries one answer brought: those of a page that arrived. -/
def pageEntries : Prog.Answered Eff.Reply → List ListDirEntry
  | ⟨.send ⟨_, .listDirectory _⟩, x⟩ =>
      match callResult .listDirectory x with
      | .ok resp => resp.entries
      | .error _ => []
  | _ => []

/-- The entries of a page are those of its reply. -/
theorem pageEntries_ok {c : Client} {q : ListDirectoryRequest} {resp : ListDirectoryResponse}
    {x : Exchange (Except Err ListDirectoryResponse)} (h : callResult .listDirectory x = .ok resp) :
    pageEntries ⟨.send ⟨c, .listDirectory q⟩, x⟩ = resp.entries := by
  simp [pageEntries, h]

/-- The entries a run was served, in order. -/
def streamed (tr : List (Prog.Answered Eff.Reply)) : List ListDirEntry := tr.flatMap pageEntries

/-- A loop that ends without an error has handed every entry it was served to
the callback. -/
theorem streamed_of_exec {σ : Type} {c : Client} {fsID : String} {am : AuthorizationMetadata}
    {path : Path} {yield : σ → ListDirEntry → σ × Option Err} {g : PageGuard} {cursor : String}
    {s s' : σ} {tr : List (Prog.Answered Eff.Reply)}
    (h : (send (c.streamLoop fsID am path yield g cursor s)).Exec tr (s', none)) :
    yieldAll yield s (streamed tr) = (s', none) := by
  -- on the pages left under the ceiling
  induction hn : g.maxPages - g.pages using Nat.strongRecOn generalizing g cursor s tr with
  | ind n ih =>
      rw [Client.streamLoop_eq] at h
      obtain ⟨x, tr', rfl, h'⟩ := Prog.exec_op h
      change Exchange (Except Err ListDirectoryResponse) at x
      cases hx : callResult .listDirectory x with
      | error e =>
          simp only [hx] at h'
          cases (Prog.exec_ret h').2
      | ok resp =>
          simp only [hx] at h'
          cases hy : yieldAll yield s resp.entries with
          | mk s₁ err =>
          simp only [hy] at h'
          cases err with
          | some e => cases (Prog.exec_ret h').2
          | none =>
              have happ := yieldAll_append yield s resp.entries (streamed tr') (by rw [hy])
              rw [hy] at happ
              rw [streamed, List.flatMap_cons, pageEntries_ok hx]
              refine happ.trans ?_
              dsimp only at h'
              split at h'
              · obtain ⟨rfl, heq⟩ := Prog.exec_ret h'
                exact heq
              · cases hg : g.admitPage resp.cursor with
                | error e =>
                    simp only [hg] at h'
                    cases (Prog.exec_ret h').2
                | ok g' =>
                    simp only [hg] at h'
                    obtain ⟨hlt, -, rfl⟩ := PageGuard.admitPage_ok hg
                    exact ih _ (by dsimp only; omega) h' rfl

/-- The answers that serve `es` as one page. -/
def onePage (f : Fs) (dir : Path) (es : List ListDirEntry) : List (Prog.Answered Eff.Reply) :=
  [⟨.send ⟨f.client, .listDirectory ⟨f.client.fsID, f.absPath dir,
      Client.authMeta .listDirectory, ""⟩⟩, okPage es ""⟩]

theorem callResult_okPage (es : List ListDirEntry) (cursor : String) :
    callResult .listDirectory (okPage es cursor) = .ok ⟨es, cursor⟩ := rfl

theorem streamed_onePage (f : Fs) (dir : Path) (es : List ListDirEntry) :
    streamed (onePage f dir es) = es := by
  rw [streamed, onePage, List.flatMap_singleton, pageEntries_ok (callResult_okPage es "")]

theorem exec_list_onePage (f : Fs) (dir : Path) (es : List ListDirEntry) :
    (f.list dir).Exec (onePage f dir es) (.ok (es.filterMap (f.childEntry dir))) := by
  rw [Fs.list, Client.listDirectoryStream, Client.stamped_eq, Client.streamLoop_eq]
  refine .step ?_
  simp only [callResult_okPage, yieldAll_listYield]
  exact .refl _

/-- A listing that succeeds returns what becomes of the entries it was
served, in order. -/
theorem entries_of_exec {f : Fs} {dir : Path} {tr : List (Prog.Answered Eff.Reply)}
    {entries : List DirEntry} (h : (f.list dir).Exec tr (.ok entries)) :
    entries = (streamed tr).filterMap (f.childEntry dir) := by
  obtain ⟨tr₁, tr₂, ⟨kept, err⟩, rfl, h₁, h₂⟩ := Prog.exec_bind h
  cases err with
  | some e =>
      dsimp only at h₂
      split at h₂
      · cases (Prog.exec_ret h₂).2
      · cases (Prog.exec_ret h₂).2
  | none =>
      obtain ⟨rfl, heq⟩ := Prog.exec_ret h₂
      rw [Client.listDirectoryStream, Client.stamped_eq] at h₁
      have hall := streamed_of_exec h₁
      rw [yieldAll_listYield] at hall
      have hkept : kept = entries := Except.ok.inj heq
      rw [List.append_nil, ← hkept]
      exact (congrArg Prod.fst hall).symm

/-- **Depth-one listing**: whatever pages a listing is served, the entries it
returns are exactly the children among the streamed entries, in order; and
every stream of entries can be listed. -/
theorem list_childEntries (f : Fs) (dir : Path) :
    (∀ tr entries, (f.list dir).Exec tr (.ok entries) →
      entries = (streamed tr).filterMap (f.childEntry dir)) ∧
    ∀ es, ∃ tr, streamed tr = es ∧
      (f.list dir).Exec tr (.ok (es.filterMap (f.childEntry dir))) :=
  ⟨fun _ _ => entries_of_exec,
    fun es => ⟨_, streamed_onePage f dir es, exec_list_onePage f dir es⟩⟩

/-- Of the directory itself, two children and a grandchild, the children are
listed. -/
theorem list_childEntries_srv :
    ∃ tr, (srvFs.list "d".toList).Exec tr (.ok
      [.dir "d/a".toList "",
        .object ⟨srvFs, "d/b".toList, "/srv/d/b".toList⟩ ⟨"u", 3, "", "", "", ""⟩]) := by
  obtain ⟨tr, -, h⟩ := (list_childEntries srvFs "d".toList).2
    [⟨none, some ⟨"/srv/d".toList, "", ""⟩⟩, ⟨none, some ⟨"/srv/d/a/".toList, "", ""⟩⟩,
      ⟨some ⟨"/srv/d/b".toList, 3, "", "", "", "", "u"⟩, none⟩,
      ⟨none, some ⟨"/srv/d/a/c".toList, "", ""⟩⟩]
  exact ⟨tr, h⟩

end OcuFilestore.Ocufs
