import Mathlib.Data.Set.Finite.Basic
import OcuFilestore.Filestore.Copying
import OcuFilestore.Filestore.Transfer

/-!
# OcuFilestore.Filestore.Handles

The uuids of the filestore peer.  A request names a file by a path, a listing
names it by the joined path of its entry, and a download by the uuid that a
walk over the volume finds; each of the three is hashed and resolved on its
own.

All of them come down to `place`, the names that lead from the root of the
scope to the file: `resolveUnder` appends them to the root, the uuid is a hash
of them, and the paths of listings and walks are spellings of them.
-/

namespace OcuFilestore.Peer

open SlashPath
open Filestore (resolveWindow)

/-! ## places -/

/-- The path a walk gives a file. -/
theorem place_relText {ss : Loc} (h : ∀ s ∈ ss, Plain s) : place (relText ss) = ss := by
  unfold relText
  split
  · next hnil =>
      subst hnil
      rfl
  · next hne => rw [place, segs_rel hne fun s hs => (h s hs).sep_notMem, resolve_of_plain true h]

/-- The path a listing gives an entry. -/
theorem place_join (rel : Path) {name : List Char} (h : Plain name) :
    place (join rel name) = place rel ++ [name] := by
  have hname : ∀ s ∈ [name], Plain s := by simpa using h
  have hsegs := sep_notMem_of_mem_segs rel
  generalize hr : isRooted rel = r
  have hjoin : join rel name = build r (resolve r (segs rel) ++ [name]) := by
    rw [← hr]
    exact (congrArg (join rel) (List.append_nil name).symm).trans
      (join_eq_build rel hname (by simp))
  have hsep : ∀ s ∈ resolve r (segs rel) ++ [name], PathAlphabet.sep ∉ s := by
    intro s hs
    rcases List.mem_append.mp hs with hs | hs
    · exact sep_notMem_of_mem_resolve hsegs s hs
    · exact (hname s hs).sep_notMem
  have hbuild : place (build r (resolve r (segs rel) ++ [name])) =
      resolve true (resolve r (segs rel) ++ [name]) := by
    have hrel := segs_rel (by simp) hsep
    cases r with
    | true =>
        rw [place, build, if_pos rfl, fromRoot, segs_sep_cons, resolve_nil_cons, hrel]
    | false => rw [place, build, if_neg (by simp), hrel]
  rw [hjoin, hbuild, resolve_append_plain true _ hname, resolve_true_resolve hsegs, place]

/-! ## roots -/

/-- The root of a scope is an absolute clean path, and not `/`. -/
structure Scope.CleanRoot (sc : Scope) : Prop where
  rooted : isRooted sc.root = true
  clean : clean sc.root = sc.root
  ne_root : sc.root ≠ ['/']

section Roots

variable {srv : Server} {sc : Scope} {rel rel' abs : Path}

/-- A clean root is spelled from its names, and is not the root of the disk.
-/
theorem Scope.CleanRoot.eq_fromRoot (h : sc.CleanRoot) :
    (∀ s ∈ sc.loc, Plain s) ∧ sc.root = fromRoot sc.loc ∧ sc.loc ≠ [] := by
  obtain ⟨ss, hss, hclean⟩ := exists_fromRoot_of_isRooted h.rooted
  have hroot : sc.root = fromRoot ss := h.clean.symm.trans hclean
  have hloc : sc.loc = ss := by rw [Scope.loc, hroot, loc_fromRoot hss]
  refine ⟨hloc ▸ hss, hloc ▸ hroot, fun hnil => h.ne_root ?_⟩
  rw [hroot, ← hloc, hnil]
  rfl

/-- Every path resolves, to the place it leads to below the root. -/
theorem resolveUnder_eq (h : sc.CleanRoot) (srv : Server) (rel : Path) :
    srv.resolveUnder sc.root rel = some (fromRoot (sc.loc ++ place rel)) := by
  obtain ⟨hss, hroot, hne⟩ := h.eq_fromRoot
  have hplain := plain_append hss (plain_place rel)
  have hrootAbs : srv.abs sc.root = some (fromRoot sc.loc) := by
    rw [Server.abs, if_pos h.rooted, h.clean, ← hroot]
  unfold Server.resolveUnder
  rw [hrootAbs, (abs_join_cleanRel srv h.rooted rel).2]
  dsimp only
  rw [if_neg]
  rintro ⟨hneq, hout⟩
  have hbelow : place rel ≠ [] := fun hnil => hneq (by rw [hnil, List.append_nil])
  exact hout (List.isPrefixOf_iff_prefix.mpr
    ((fromRoot_sep_prefix_iff hss hplain hne).mpr ⟨_, hbelow, rfl⟩))

/-- A path is resolved to its place below the root. -/
theorem loc_of_resolveUnder (h : sc.CleanRoot) (habs : srv.resolveUnder sc.root rel = some abs) :
    loc abs = sc.loc ++ place rel := by
  obtain ⟨hss, -, -⟩ := h.eq_fromRoot
  obtain rfl := Option.some.inj ((resolveUnder_eq h srv rel).symm.trans habs)
  exact loc_fromRoot (plain_append hss (plain_place rel))

/-- Two spellings of one path. -/
theorem place_eq_of_resolveUnder (h : sc.CleanRoot)
    (habs : srv.resolveUnder sc.root rel = some abs)
    (habs' : srv.resolveUnder sc.root rel' = some abs) : place rel = place rel' :=
  List.append_cancel_left ((loc_of_resolveUnder h habs).symm.trans (loc_of_resolveUnder h habs'))

/-- A file is one name below its directory. -/
theorem exists_place_of_parent {parent : Path} (h : sc.CleanRoot)
    (habs : srv.resolveUnder sc.root rel = some abs)
    (hparent : srv.resolveUnder sc.root rel' = some parent)
    (hdir : loc parent = (loc abs).dropLast) : ∃ name, place rel = place rel' ++ [name] := by
  rw [loc_of_resolveUnder h hparent, loc_of_resolveUnder h habs] at hdir
  by_cases hnil : place rel = []
  · have hlength := congrArg List.length hdir
    have hpos := List.length_pos_iff.mpr h.eq_fromRoot.2.2
    rw [hnil, List.append_nil, List.length_append, List.length_dropLast] at hlength
    omega
  · rw [List.dropLast_append_of_ne_nil hnil] at hdir
    refine ⟨(place rel).getLast hnil, ?_⟩
    rw [List.append_cancel_left hdir, List.dropLast_append_getLast]

/-- The uuid depends on the place of a path, not on its spelling. -/
theorem uuidForRelPath_congr (fsID : Path) (h : place rel = place rel') :
    uuidForRelPath fsID rel = uuidForRelPath fsID rel' := by
  rw [uuidForRelPath, uuidForRelPath, cleanRel_eq, cleanRel_eq, h]

/-- Two digits for a byte. -/
theorem length_hexString (bs : List UInt8) : (hexString bs).length = 2 * bs.length := by
  induction bs with
  | nil => rfl
  | cons b bs ih =>
      rw [hexString, List.flatMap_cons, ← hexString, List.length_append, ih, List.length_cons]
      simp only [List.length_cons, List.length_nil]
      omega

/-- A handle is half a digest in hexadecimal. -/
theorem length_uuidForRelPath (fsID rel : Path) : (uuidForRelPath fsID rel).length = 32 := by
  rw [uuidForRelPath, length_hexString, List.length_take, length_sum256]
  rfl

/-- No file is without a uuid. -/
theorem uuidForRelPath_ne_nil (fsID rel : Path) : uuidForRelPath fsID rel ≠ [] := by
  refine List.ne_nil_of_length_pos ?_
  rw [length_uuidForRelPath]
  decide

end Roots

/-! ## a disk that can be read -/

/-- A tree as a disk has it: the entries are finitely many, and under names. -/
structure OnDisk (t : Tree) : Prop where
  wellFormed : t.WellFormed
  plain : ∀ x, t x ≠ none → ∀ s ∈ x, Plain s
  finite : {x | t x ≠ none}.Finite

/-- What is there is seen, and in full. -/
def Shows (w : World) : (e : Eff) → e.Reply → Prop
  | .stat p, r => (∃ e, r = .error e) → w.tree (loc p) = none
  | .openFile p, r => (∃ e, r = .error e) → w.tree (loc p) = none
  | .seek _ _, r => r = .ok ()
  | .read p _ _, r => w.tree.content (loc p) ≠ none → r.2 = none
  | .readDir p, r => ((∃ e, r = .error e) → ¬ w.tree.IsDir (loc p)) ∧
      ∀ es, r = .ok es →
        (∀ name, w.tree (loc p ++ [name]) ≠ none → ∃ e ∈ es, e.name = name) ∧
          ∀ e ∈ es, ∃ info, e.info = .ok info ∧ Describes (w.tree (loc p ++ [e.name])) info
  | .walk p, r => ∀ ss, w.tree.content (loc p ++ ss) ≠ none → relText ss ∈ r
  | _, _ => True

def readable (tempDir : Path) : Env Eff.Reply World :=
  fun w e r w' => disk tempDir w e r w' ∧ Shows w e r

def fileInfo (n : Node EntryInfo UInt8) : FileInfo :=
  ⟨(n.content.getD []).length, n.info.mtime, n.info.mode, n.content.isNone⟩

/-- The entry of a directory under a name. -/
def entryAt (t : Tree) (x : Loc) (name : List Char) : DirEntry :=
  match t (x ++ [name]) with
  | some n => ⟨name, n.content.isNone, .ok (fileInfo n)⟩
  | none => ⟨name, false, .error noEntry⟩

section Readable

variable (tempDir : Path) {w : World}

/-- The entry of a node describes it. -/
theorem describes_fileInfo (n : Node EntryInfo UInt8) : Describes (some n) (fileInfo n) :=
  ⟨n.info, n.content, rfl, rfl, rfl, rfl, fun bs hbs => by simp [fileInfo, hbs]⟩

/-- A directory of a disk can be read. -/
theorem exists_readDir (h : OnDisk w.tree) (p : Path) :
    ∃ r, readable tempDir w (.readDir p) r w := by
  by_cases hdir : w.tree.IsDir (loc p)
  · have hfinite : {name | w.tree (loc p ++ [name]) ≠ none}.Finite :=
      h.finite.preimage fun a _ b _ hab => by simpa using hab
    have hmem (e : DirEntry) (he : e ∈ hfinite.toFinset.toList.map (entryAt w.tree (loc p))) :
        ∃ n, w.tree (loc p ++ [e.name]) = some n ∧ e.isDir = n.content.isNone ∧
          ∃ info, e.info = .ok info ∧ Describes (w.tree (loc p ++ [e.name])) info := by
      obtain ⟨name, hname, rfl⟩ := List.mem_map.mp he
      have hsome : w.tree (loc p ++ [name]) ≠ none := by simpa using hname
      obtain ⟨n, hn⟩ := Option.ne_none_iff_exists'.mp hsome
      have hentry : entryAt w.tree (loc p) name =
          ⟨name, n.content.isNone, .ok (fileInfo n)⟩ := by
        rw [entryAt, hn]
      rw [hentry, hn]
      exact ⟨n, rfl, rfl, _, rfl, describes_fileInfo n⟩
    refine ⟨.ok (hfinite.toFinset.toList.map (entryAt w.tree (loc p))), ⟨rfl, ?_⟩, nofun, ?_⟩
    · rintro _ ⟨⟩ e he
      obtain ⟨n, hn, hisDir, -⟩ := hmem e he
      exact ⟨n, hn, hisDir⟩
    · rintro _ ⟨⟩
      refine ⟨fun name hname => ⟨entryAt w.tree (loc p) name, ?_, ?_⟩, fun e he => ?_⟩
      · exact List.mem_map_of_mem (by simpa using hname)
      · unfold entryAt
        split <;> rfl
      · obtain ⟨-, -, -, hinfo⟩ := hmem e he
        exact hinfo
  · exact ⟨.error failed, ⟨rfl, nofun⟩, fun _ => hdir, nofun⟩

/-- A tree of a disk can be walked. -/
theorem exists_walk (h : OnDisk w.tree) (p : Path) : ∃ r, readable tempDir w (.walk p) r w := by
  have hfinite : {ss | w.tree.content (loc p ++ ss) ≠ none}.Finite := by
    refine (h.finite.preimage (f := (loc p ++ ·)) fun a _ b _ hab => ?_).subset fun ss hss => ?_
    · exact List.append_cancel_left hab
    · exact FileTree.ne_none_of_content hss
  refine ⟨hfinite.toFinset.toList.map relText, ⟨rfl, fun rel hrel => ?_⟩, fun ss hss => ?_⟩
  · obtain ⟨ss, hss, rfl⟩ := List.mem_map.mp hrel
    exact ⟨ss, rfl, by simpa using hss⟩
  · exact List.mem_map_of_mem (by simpa using hss)

/-- Everything that only looks is answered. -/
theorem readable_total {root : Loc} (h : OnDisk w.tree) {e : Eff} (he : e.Reads root) :
    ∃ r w', readable tempDir w e r w' ∧ OnDisk w'.tree := by
  cases e with
  | now | allow | countWrite => exact ⟨_, _, ⟨disk_answer tempDir w _, trivial⟩, h⟩
  | stat p =>
      cases hn : w.tree (loc p) with
      | none => exact ⟨.error noEntry, w, ⟨⟨rfl, nofun⟩, fun _ => hn⟩, h⟩
      | some n =>
          refine ⟨.ok (fileInfo n), w, ⟨⟨rfl, ?_⟩, nofun⟩, h⟩
          rintro _ ⟨⟩
          exact hn ▸ describes_fileInfo n
  | openFile p =>
      by_cases hn : w.tree (loc p) = none
      · exact ⟨.error noEntry, w, ⟨⟨rfl, nofun⟩, fun _ => hn⟩, h⟩
      · exact ⟨.ok (), w, ⟨⟨rfl, fun _ => hn⟩, nofun⟩, h⟩
  | seek p start => exact ⟨.ok (), w, ⟨rfl, rfl⟩, h⟩
  | read p start length =>
      exact ⟨_, _, ⟨disk_answer tempDir w (.read p start length), fun _ => rfl⟩, h⟩
  | readDir p =>
      obtain ⟨r, hr⟩ := exists_readDir tempDir h p
      exact ⟨r, w, hr, h⟩
  | walk p =>
      obtain ⟨r, hr⟩ := exists_walk tempDir h p
      exact ⟨r, w, hr, h⟩
  | mkdirAll | create | write | close | remove | removeAll | rename | createTemp => exact he.elim

/-- What only looks finishes. -/
theorem exists_evalsTo_reads {root : Loc} {α : Type} {p : FsProg α}
    (hdisk : OnDisk w.tree) (hp : Does (Eff.Reads root) p) :
    ∃ w' a, Prog.EvalsTo (readable tempDir) w p w' a :=
  Prog.exists_evalsTo_of_always (I := fun w => OnDisk w.tree)
    (fun _ _ h he => readable_total tempDir h he) hdisk hp

end Readable

/-! ## what is reported -/

section Reports

variable {srv : Server} {sc : Scope} {w : World} {body : CommonBody} {rel abs : Path}
  {bs : List UInt8} {tempDir : Path}

/-- What a file is described by. -/
theorem Describes.of_content {x : Loc} {info : FileInfo} (h : Describes (w.tree x) info)
    (hfile : w.tree.content x = some bs) : info.isDir = false ∧ info.size = bs.length := by
  obtain ⟨i, hi⟩ := FileTree.exists_node hfile
  obtain ⟨j, content, hn, -, -, hdir, hsize⟩ := h
  cases hi.symm.trans hn
  exact ⟨hdir, hsize bs rfl⟩

/-- The metadata of a file carry its size and the uuid of its path. -/
theorem ensures_readMetadata (hpath : pathFromBody body.raw = some rel)
    (habs : srv.resolveUnder sc.root rel = some abs) (hfile : w.tree.content (loc abs) = some bs) :
    Prog.Ensures (readable tempDir) (fun _ resp => ∃ f, resp = .entry (.inl f) ∧ f.path = rel ∧
        f.size = (bs.length : Int) ∧ f.uuid = uuidForRelPath sc.filesystemID rel) w
      (srv.handleReadMetadata sc body) := by
  unfold Server.handleReadMetadata Server.withPath
  rw [hpath]
  dsimp only
  rw [habs]
  refine Prog.ensures_perform_bind fun r w' ⟨⟨hw, hinfo⟩, hshows⟩ => ?_
  cases r with
  | error e =>
      have hnone := hshows ⟨e, rfl⟩
      exact absurd hnone (FileTree.ne_none_of_content (by simp [hfile]))
  | ok info =>
      obtain ⟨hdir, hsize⟩ := (hinfo info rfl).of_content hfile
      dsimp only
      rw [if_neg (by simp [hdir])]
      exact ⟨_, rfl, rfl, hsize, rfl⟩

/-- Every file of a directory is listed, under the joined path of its name. -/
theorem ensures_listDirectory (hdisk : OnDisk w.tree) (hpath : pathFromBody body.raw = some rel)
    (habs : srv.resolveUnder sc.root rel = some abs) {name : List Char}
    (hfile : w.tree.content (loc abs ++ [name]) = some bs) :
    Prog.Ensures (readable tempDir) (fun _ resp => ∃ es, resp = .entries es ∧
        (∃ f, .inl f ∈ es ∧ f.path = join rel name ∧ f.size = (bs.length : Int)) ∧
        ∀ f, .inl f ∈ es → f.uuid = uuidForRelPath sc.filesystemID f.path) w
      (srv.handleListDirectory sc body) := by
  have hthere : w.tree (loc abs ++ [name]) ≠ none :=
    FileTree.ne_none_of_content (by simp [hfile])
  unfold Server.handleListDirectory Server.withPath
  rw [hpath]
  dsimp only
  rw [habs]
  refine Prog.ensures_perform_bind fun r w' ⟨⟨hw, hentries⟩, hshows⟩ => ?_
  cases r with
  | error e => exact absurd (hdisk.wellFormed.parent _ _ hthere) (hshows.1 ⟨e, rfl⟩)
  | ok es =>
      obtain ⟨hall, hinfos⟩ := hshows.2 es rfl
      refine ⟨_, rfl, ?_, ?_⟩
      · obtain ⟨e, he, rfl⟩ := hall name hthere
        obtain ⟨info, hinfo, hdescribes⟩ := hinfos e he
        obtain ⟨n, hn, hdir⟩ := hentries es rfl e he
        obtain ⟨i, hi⟩ := FileTree.exists_node hfile
        cases hi.symm.trans hn
        refine ⟨wireFile sc (join rel e.name) info, List.mem_filterMap.mpr ⟨e, he, ?_⟩, rfl,
          (hdescribes.of_content hfile).2⟩
        rw [listDirEntry, hinfo]
        dsimp only
        rw [if_neg (by simp [hdir])]
      · intro f hf
        obtain ⟨e, -, hentry⟩ := List.mem_filterMap.mp hf
        unfold listDirEntry at hentry
        dsimp only at hentry
        split at hentry
        · cases hentry
        · split at hentry
          · cases hentry
          · cases hentry
            rfl

/-- What the search for a uuid comes to. -/
def Located (sc : Scope) (t : Tree) (uuid : List Char) : Option Path → Prop
  | some rel => ∃ ss, rel = relText ss ∧ t.content (sc.loc ++ ss) ≠ none ∧
      uuidForRelPath sc.filesystemID rel = uuid
  | none => ∀ ss, t.content (sc.loc ++ ss) ≠ none →
      uuidForRelPath sc.filesystemID (relText ss) ≠ uuid

/-- A uuid is traced to a file that has it, or to none. -/
theorem ensures_relPathForUUID (sc : Scope) (w : World) (uuid : List Char) :
    Prog.Ensures (readable tempDir) (fun w' r => w' = w ∧ Located sc w.tree uuid r) w
      (relPathForUUID sc uuid) := by
  refine Prog.ensures_perform_bind fun rels w' ⟨⟨hw, hwalks⟩, hshows⟩ => ⟨hw, ?_⟩
  cases hfind : rels.find? fun rel => uuidForRelPath sc.filesystemID rel = uuid with
  | none =>
      intro ss hss
      have hnot := List.find?_eq_none.mp hfind (relText ss) (hshows ss hss)
      simpa using hnot
  | some rel =>
      obtain ⟨ss, rfl, hss⟩ := hwalks rel (List.mem_of_find?_eq_some hfind)
      exact ⟨ss, rfl, hss, by simpa using List.find?_some hfind⟩

end Reports

/-! ## downloads -/

/-- The answer to a download of a file with this content. -/
def downloaded (bs : List UInt8) (range : Option Brokerrpc.Range) : Response :=
  match resolveWindow bs.length range with
  | .error (status, msg) => refuse status msg
  | .ok (start, length) => .stream length ((bs.drop start.toNat).take length.toNat)

section Downloads

variable {srv : Server} {sc : Scope} {w : World} {body : CommonBody} {abs : Path}
  {bs : List UInt8} {tempDir : Path}

/-- Seeking succeeds on a disk that can be read. -/
theorem ensures_seekTo (w : World) (abs : Path) (start : Int) :
    Prog.Ensures (readable tempDir) (fun w' r => w' = w ∧ r = .ok ()) w (seekTo abs start) := by
  unfold seekTo
  split
  · exact ⟨trivial, fun r w' h => ⟨h.1, h.2⟩⟩
  · exact ⟨rfl, rfl⟩

/-- A download streams the window of the content. -/
theorem ensures_streamFile (hfile : w.tree.content (loc abs) = some bs)
    (range : Option Brokerrpc.Range) :
    Prog.Ensures (readable tempDir) (fun _ resp => resp = downloaded bs range) w
      (streamFile abs range) := by
  have hthere : w.tree (loc abs) ≠ none := FileTree.ne_none_of_content (by simp [hfile])
  refine Prog.ensures_perform_bind fun r w₁ ⟨⟨hw, _⟩, hopen⟩ => ?_
  subst hw
  cases r with
  | error e => exact absurd (hopen ⟨e, rfl⟩) hthere
  | ok _ =>
      refine Prog.ensures_perform_bind fun r w₁ ⟨⟨hw, hinfo⟩, hstat⟩ => ?_
      subst hw
      cases r with
      | error e => exact absurd (hstat ⟨e, rfl⟩) hthere
      | ok info =>
          dsimp only
          rw [((hinfo info rfl).of_content hfile).2]
          unfold downloaded
          cases resolveWindow bs.length range with
          | error e => exact rfl
          | ok window =>
              refine (ensures_seekTo w₁ abs window.1).bind fun w₂ r ⟨hw, hr⟩ => ?_
              subst hw hr
              refine Prog.ensures_perform_bind fun r w₃ ⟨⟨_, _, hbytes⟩, hread⟩ => ?_
              have hall := hbytes (hread (by simp [hfile]))
              rw [hfile] at hall
              exact congrArg _ hall

/-- No two files of the scope have one uuid. -/
def Scope.NoCollision (sc : Scope) (t : Tree) : Prop :=
  ∀ ss ts, t.content (sc.loc ++ ss) ≠ none → t.content (sc.loc ++ ts) ≠ none →
    uuidForRelPath sc.filesystemID (relText ss) = uuidForRelPath sc.filesystemID (relText ts) →
    ss = ts

/-- The search for the uuid of a file finds the file. -/
theorem Located.eq_relText {ss : Loc} {r : Option Path} (huuid : sc.NoCollision w.tree)
    (hfile : w.tree.content (sc.loc ++ ss) ≠ none)
    (h : Located sc w.tree (uuidForRelPath sc.filesystemID (relText ss)) r) :
    r = some (relText ss) := by
  cases r with
  | none => exact absurd rfl (h ss hfile)
  | some rel =>
      obtain ⟨ts, rfl, hts, heq⟩ := h
      rw [huuid ts ss hts hfile heq]

/-- A download by the uuid of a file is that file. -/
theorem ensures_fileDownload (hroot : sc.CleanRoot) (hdisk : OnDisk w.tree)
    (huuid : sc.NoCollision w.tree) {db : DownloadBody} (hbody : downloadBody body.raw = some db)
    {ss : Loc} (hfile : w.tree.content (sc.loc ++ ss) = some bs)
    (hdb : db.uuid = uuidForRelPath sc.filesystemID (relText ss)) :
    Prog.Ensures (readable tempDir) (fun _ resp => resp = downloaded bs db.range) w
      (srv.handleFileDownload sc body) := by
  have hthere : w.tree.content (sc.loc ++ ss) ≠ none := by simp [hfile]
  have hplain : ∀ s ∈ ss, Plain s := fun s hs =>
    hdisk.plain _ (FileTree.ne_none_of_content hthere) s (List.mem_append_right _ hs)
  unfold Server.handleFileDownload
  rw [hbody]
  dsimp only
  rw [hdb, if_neg (uuidForRelPath_ne_nil _ _)]
  refine (ensures_relPathForUUID sc w _).bind fun w₁ r ⟨hw, hlocated⟩ => ?_
  subst hw
  rw [hlocated.eq_relText huuid hthere]
  dsimp only
  rw [resolveUnder_eq hroot, place_relText hplain]
  refine ensures_streamFile ?_ db.range
  rw [loc_fromRoot (plain_append hroot.eq_fromRoot.1 hplain), hfile]

/-- What the peer writes for a reply of the model of downloads. -/
def reply : Filestore.DownloadReply → Response
  | .refused status msg => refuse status msg
  | .stream length bytes => .stream length bytes

/-- The files of a scope under their uuids. -/
structure Scope.Indexes (sc : Scope) (t : Tree) (volume : Filestore.Volume) : Prop where
  file : ∀ uuid bs, volume (String.ofList uuid) = some bs → ∃ ss,
    t.content (sc.loc ++ ss) = some bs ∧ uuidForRelPath sc.filesystemID (relText ss) = uuid
  none : ∀ uuid, volume (String.ofList uuid) = none → ∀ ss, t.content (sc.loc ++ ss) ≠ none →
    uuidForRelPath sc.filesystemID (relText ss) ≠ uuid

/-- Every tree has an index of its files by uuid. -/
theorem Scope.exists_indexes (sc : Scope) (t : Tree) : ∃ volume, sc.Indexes t volume := by
  classical
  refine ⟨fun uuid => if h : ∃ ss, t.content (sc.loc ++ ss) ≠ none ∧
    uuidForRelPath sc.filesystemID (relText ss) = uuid.toList then
      t.content (sc.loc ++ h.choose) else none, ?_, ?_⟩
  · intro uuid bs h
    split at h
    · next hex => exact ⟨_, h, by simpa using hex.choose_spec.2⟩
    · cases h
  · intro uuid h ss hss heq
    split at h
    · next hex => exact hex.choose_spec.1 h
    · next hex => exact hex ⟨ss, hss, by simpa using heq⟩

/-- The reply of the handler is the window of the content. -/
theorem reply_of_file {volume : Filestore.Volume} {uuid : String} (huuid : uuid ≠ "")
    (h : volume uuid = some bs) (range : Option Brokerrpc.Range) :
    reply (Filestore.handleFileDownload volume uuid range) = downloaded bs range := by
  rw [Filestore.handleFileDownload, if_neg huuid, h, downloaded]
  dsimp only
  cases resolveWindow bs.length range <;> rfl

/-- **Downloads refine** the model that has the files of the scope under their
uuids. -/
theorem download_refines (hroot : sc.CleanRoot) (hdisk : OnDisk w.tree)
    (huuid : sc.NoCollision w.tree) {volume : Filestore.Volume}
    (hvolume : sc.Indexes w.tree volume) {db : DownloadBody}
    (hbody : downloadBody body.raw = some db) :
    Prog.Yields (readable tempDir) (fun _ resp => resp =
      reply (Filestore.handleFileDownload volume (String.ofList db.uuid) db.range)) w
      (srv.handleFileDownload sc body) := by
  refine Prog.Ensures.yields ?_
    (exists_evalsTo_reads _ hdisk (does_handleFileDownload hroot.rooted))
  cases hv : volume (String.ofList db.uuid) with
  | some bs =>
      obtain ⟨ss, hfile, heq⟩ := hvolume.file _ _ hv
      have hne : String.ofList db.uuid ≠ "" := by
        rw [← heq]
        simpa using uuidForRelPath_ne_nil sc.filesystemID (relText ss)
      rw [reply_of_file hne hv]
      exact ensures_fileDownload hroot hdisk huuid hbody hfile heq.symm
  | none =>
      unfold Server.handleFileDownload
      rw [hbody]
      dsimp only
      by_cases hempty : db.uuid = []
      · rw [if_pos hempty, hempty]
        exact rfl
      · have hne : String.ofList db.uuid ≠ "" := by simpa using hempty
        rw [if_neg hempty, Filestore.handleFileDownload, if_neg hne, hv]
        refine (ensures_relPathForUUID sc w _).bind fun w₁ r hr => ?_
        have hlocated := hr.2
        cases r with
        | none => exact rfl
        | some rel =>
            obtain ⟨ss, rfl, hss, heq⟩ := hlocated
            exact absurd heq (hvolume.none _ hv ss hss)

end Downloads

/-! ## agreement -/

/-- All the ways to a file of a scope agree on its uuid, and the uuid leads
back to it. -/
structure Server.HandleAgrees (srv : Server) (sc : Scope) (w : World) (abs : Path)
    (bs : List UInt8) (uuid : List Char) : Prop where
  /-- `readMetadata` of any spelling reports it. -/
  metadata : ∀ body rel, pathFromBody body.raw = some rel →
    srv.resolveUnder sc.root rel = some abs →
    Prog.Yields (readable srv.tempDir) (fun _ resp => ∃ f, resp = .entry (.inl f) ∧
      f.path = rel ∧ f.size = (bs.length : Int) ∧ f.uuid = uuid) w (srv.handleReadMetadata sc body)
  /-- `listDirectory` of any spelling of the directory lists the file, and
  with it. -/
  listing : ∀ body rel parent, pathFromBody body.raw = some rel →
    srv.resolveUnder sc.root rel = some parent → loc parent = (loc abs).dropLast →
    Prog.Yields (readable srv.tempDir) (fun _ resp => ∃ es, resp = .entries es ∧
      (∃ f, .inl f ∈ es ∧ srv.resolveUnder sc.root f.path = some abs ∧
        f.size = (bs.length : Int)) ∧
      ∀ f, .inl f ∈ es → srv.resolveUnder sc.root f.path = some abs → f.uuid = uuid) w
      (srv.handleListDirectory sc body)
  /-- The search finds a path of the file. -/
  path : Prog.Yields (readable srv.tempDir) (fun _ r => ∃ rel, r = some rel ∧
    srv.resolveUnder sc.root rel = some abs) w (relPathForUUID sc uuid)
  /-- A download streams the file. -/
  download : ∀ body db, downloadBody body.raw = some db → db.uuid = uuid →
    Prog.Yields (readable srv.tempDir) (fun _ resp => resp = downloaded bs db.range) w
      (srv.handleFileDownload sc body)

section Agreement

variable {srv : Server} {sc : Scope} {w : World} {rel abs : Path} {bs : List UInt8}

end Agreement

/-- The entries of the disk with one file. -/
def oneFileEntries : List Loc := [[], ["rw".toList], ["ro".toList], ["rw".toList, "x".toList]]

theorem mem_oneFileEntries {x : Loc} (h : oneFile.tree x ≠ none) : x ∈ oneFileEntries := by
  by_cases hx : x = ["rw".toList, "x".toList]
  · simp [oneFileEntries, hx]
  · have hempty : oneFile.tree x = emptyVolumes.tree x := Function.update_of_ne hx ..
    have hmem : x ∈ [[], ["rw".toList], ["ro".toList]] :=
      Decidable.byContradiction fun hnot => h (hempty.trans (if_neg hnot))
    exact List.mem_append_left [["rw".toList, "x".toList]] hmem

/-- A tree with one file is as a disk has it. -/
theorem oneFile_onDisk : OnDisk oneFile.tree := by
  have hplain : (oneFileEntries.all fun x => x.all fun s => decide (Plain s)) = true := by
    decide +kernel
  refine ⟨oneFile_wellFormed, fun x hx s hs => ?_, ?_⟩
  · have hx := List.all_eq_true.mp hplain x (mem_oneFileEntries hx)
    exact of_decide_eq_true (List.all_eq_true.mp hx s hs)
  · exact (List.finite_toSet oneFileEntries).subset fun x hx => mem_oneFileEntries hx

/-- One file alone shares its uuid with no other. -/
theorem oneFile_noCollision : rwScope.NoCollision oneFile.tree := by
  have hloc : rwScope.loc = ["rw".toList] := by decide +kernel
  have hdir : oneFile.tree.content ["rw".toList] = none := by decide +kernel
  have honly (ss : Loc) (h : oneFile.tree.content (rwScope.loc ++ ss) ≠ none) :
      ss = ["x".toList] := by
    rw [hloc] at h
    have hmem := mem_oneFileEntries (FileTree.ne_none_of_content h)
    simp only [oneFileEntries, List.mem_cons, List.not_mem_nil, or_false, List.cons_append,
      List.nil_append, List.cons.injEq] at hmem
    rcases hmem with hmem | ⟨-, rfl⟩ | ⟨hro, -⟩ | ⟨-, hss⟩
    · cases hmem
    · exact absurd hdir h
    · exact absurd hro (by decide)
    · exact hss
  intro ss ts hss hts _
  rw [honly ss hss, honly ts hts]

end OcuFilestore.Peer
