import OcuFilestore.Filestore.Server
import OcuFilestore.Lib.Environment
import OcuFilestore.Lib.FileTree
import OcuFilestore.Lib.Quoting

/-!
# OcuFilestore.Filestore.Isolation

The filestore peer on a disk.  The disk is one file tree without links; the
content that is read is logged.

Every effect of a request is one its scope allows, whatever the disk answers
(`does_route`): reads at and under the root of the scope, changes as well
when the scope is not read-only, and the temporary file of an upload whose
parts exceed the memory.  What such an effect does to the tree is a step
lemma; what a request and a sequence of requests do follows from it.
-/

namespace OcuFilestore.Peer

open SlashPath
open Ocufs (trimPrefix)

/-! ## the disk -/

/-- A place on the disk. -/
abbrev Loc : Type := List (List Char)

/-- Where a path leads; without links this is a matter of its text. -/
def loc (p : Path) : Loc := names (clean p)

/-- The texts of a time (RFC 3339) and of a mode are short. -/
def ShortTexts (mtime mode : List Char) : Prop := mtime.length ≤ 64 ∧ mode.length ≤ 64

structure EntryInfo where
  mtime : List Char
  mode : List Char
  short : ShortTexts mtime mode
  deriving DecidableEq

abbrev Tree : Type := FileTree (List Char) EntryInfo UInt8

structure World where
  tree : Tree
  /-- The files whose content was read. -/
  reads : List Loc
  writeCount : Int

/-- `os.Stat` of what is at a place. -/
def Describes (n : Option (Node EntryInfo UInt8)) (info : FileInfo) : Prop :=
  ∃ i content, n = some ⟨i, content⟩ ∧ info.mtime = i.mtime ∧ info.mode = i.mode ∧
    info.isDir = content.isNone ∧ ∀ bs, content = some bs → info.size = bs.length

/-- A window of a file, to its end when it has no length. -/
def window (bs : List UInt8) (start : Nat) : Option Nat → List UInt8
  | none => bs.drop start
  | some length => (bs.drop start).take length

/-- The relative path of a file below a directory. -/
def relText (ss : Loc) : Path := if ss = [] then ['.'] else rel ss

/-- The files a walk comes to. -/
def Walks (t : Tree) (x : Loc) (rels : List Path) : Prop :=
  ∀ rel ∈ rels, ∃ ss, rel = relText ss ∧ t.content (x ++ ss) ≠ none

/-- Bytes are appended to a file, as far as it goes. -/
def Appends (t : Tree) (x : Loc) (bs : List UInt8) (t' : Tree) : Prop :=
  match t.content x with
  | some old => ∃ i, t' = t.store x i (old ++ bs)
  | none => t' = t

/-- The answers of the disk.  Every operation may fail; one that makes or
removes several things may be cut short. -/
def disk (tempDir : Path) : Env Eff.Reply World
  | w, .now, _, w' => w' = w
  | w, .allow, _, w' => w' = w
  | w, .countWrite, r, w' => r = w.writeCount + 1 ∧ w' = { w with writeCount := w.writeCount + 1 }
  | w, .stat p, r, w' => w' = w ∧ ∀ info, r = .ok info → Describes (w.tree (loc p)) info
  | w, .mkdirAll p, r, w' => w' = w ∧ (∃ e, r = .error e) ∨
      ∃ x i, x <+: loc p ∧ (∀ y, y <+: x → w.tree.content y = none) ∧ (r = .ok () → x = loc p) ∧
        w' = { w with tree := w.tree.mkdirs x i }
  | w, .create p, r, w' => w' = w ∧ (∃ e, r = .error e) ∨
      r = .ok () ∧ w.tree.IsDir (loc p).dropLast ∧ ¬ w.tree.IsDir (loc p) ∧
        ∃ i above, w' = { w with tree := w.tree.put (loc p) i [] above }
  | w, .write p bs, r, w' => r.1 ≤ bs.length ∧ (r.2 = none → r.1 = bs.length) ∧
      ∃ t, Appends w.tree (loc p) (bs.take r.1) t ∧ w' = { w with tree := t }
  | w, .close _, _, w' => w' = w
  | w, .openFile p, r, w' => w' = w ∧ (r = .ok () → w.tree (loc p) ≠ none)
  | w, .seek _ _, _, w' => w' = w
  | w, .read p start length, r, w' => w' = { w with reads := loc p :: w.reads } ∧
      r.1 <+: window ((w.tree.content (loc p)).getD []) start length ∧
      (r.2 = none → r.1 = window ((w.tree.content (loc p)).getD []) start length)
  | w, .readDir p, r, w' => w' = w ∧ ∀ es, r = .ok es → ∀ e ∈ es,
      ∃ n, w.tree (loc p ++ [e.name]) = some n ∧ e.isDir = n.content.isNone
  | w, .walk p, r, w' => w' = w ∧ Walks w.tree (loc p) r
  | w, .remove p, r, w' => w' = w ∧ (∃ e, r = .error e) ∨
      r = .ok () ∧ w.tree (loc p) ≠ none ∧ (∀ x, loc p <+: x → x ≠ loc p → w.tree x = none) ∧
        ∃ above, w' = { w with tree := w.tree.prune (loc p) (fun _ => false) above }
  | w, .removeAll p, r, w' => w' = w ∧ (∃ e, r = .error e) ∨
      ∃ kept above, (r = .ok () → kept = fun _ => false) ∧
        w' = { w with tree := w.tree.prune (loc p) kept above }
  | w, .rename src dst, r, w' => w' = w ∧ (∃ e, r = .error e) ∨
      r = .ok () ∧ w.tree (loc src) ≠ none ∧ w.tree.IsDir (loc dst).dropLast ∧
        ¬ w.tree.IsDir (loc dst) ∧ (loc src <+: loc dst → loc src = loc dst) ∧
        ∃ i j, w' = { w with tree := w.tree.move (loc src) (loc dst) i j }
  | w, .createTemp, r, w' => w' = w ∧ (∃ e, r = .error e) ∨
      ∃ n i above, r = .ok n ∧ w.tree (loc (tempPath tempDir n)) = none ∧
        w.tree.IsDir (loc (tempPath tempDir n)).dropLast ∧
        w' = { w with tree := w.tree.put (loc (tempPath tempDir n)) i [] above }

/-! ## a disk that answers -/

def newEntry : EntryInfo where
  mtime := "2025-01-01T00:00:00Z".toList
  mode := "-rw-------".toList
  short := ⟨by decide +kernel, by decide +kernel⟩
def noEntry : OSErr := ⟨.notExist, "no such file or directory".toList⟩
def failed : OSErr := ⟨.other, "input/output error".toList⟩

def isDir (t : Tree) (x : Loc) : Bool := (t x).any fun n => n.content.isNone

/-- The computable check for a directory is right. -/
theorem isDir_iff {t : Tree} {x : Loc} : isDir t x = true ↔ t.IsDir x := by
  unfold isDir FileTree.IsDir
  rcases t x with _ | ⟨i, _ | bs⟩ <;> simp

/-- Files are made and written, and looked at; the rest fails. -/
def answer (w : World) : (e : Eff) → e.Reply × World
  | .now => (zeroTime, w)
  | .allow => (true, w)
  | .countWrite => (w.writeCount + 1, { w with writeCount := w.writeCount + 1 })
  | .stat p =>
      match w.tree (loc p) with
      | none => (.error noEntry, w)
      | some n =>
          (.ok ⟨(n.content.getD []).length, n.info.mtime, n.info.mode, n.content.isNone⟩, w)
  | .mkdirAll p =>
      if (loc p).inits.all fun y => (w.tree.content y).isNone then
        (.ok (), { w with tree := w.tree.mkdirs (loc p) fun _ => newEntry })
      else (.error failed, w)
  | .create p =>
      if isDir w.tree (loc p).dropLast && !isDir w.tree (loc p) then
        (.ok (), { w with tree := w.tree.put (loc p) newEntry [] newEntry })
      else (.error failed, w)
  | .write p bs =>
      ((bs.length, none),
        match w.tree.content (loc p) with
        | some old => { w with tree := w.tree.store (loc p) newEntry (old ++ bs) }
        | none => w)
  | .close _ => (.ok (), w)
  | .openFile p => if (w.tree (loc p)).isSome then (.ok (), w) else (.error noEntry, w)
  | .seek _ _ => (.ok (), w)
  | .read p start length =>
      ((window ((w.tree.content (loc p)).getD []) start length, none),
        { w with reads := loc p :: w.reads })
  | .readDir _ => (.error failed, w)
  | .walk _ => ([], w)
  | .remove _ => (.error failed, w)
  | .removeAll _ => (.error failed, w)
  | .rename _ _ => (.error failed, w)
  | .createTemp => (.error failed, w)

/-- The answers of the disk that never fails are answers of a disk. -/
theorem disk_answer (tempDir : Path) (w : World) (e : Eff) :
    disk tempDir w e (answer w e).1 (answer w e).2 := by
  cases e with
  | now | allow | close p | seek p start => rfl
  | countWrite => exact ⟨rfl, rfl⟩
  | stat p =>
      simp only [answer]
      cases hn : w.tree (loc p) with
      | none => exact ⟨rfl, nofun⟩
      | some n =>
          refine ⟨rfl, ?_⟩
          rintro _ ⟨⟩
          exact ⟨n.info, n.content, hn, rfl, rfl, rfl, fun bs hbs => by simp [hbs]⟩
  | mkdirAll p =>
      simp only [answer]
      split
      · next hall =>
          refine .inr ⟨loc p, _, List.prefix_refl _, fun y hy => ?_, fun _ => rfl, rfl⟩
          have hy := List.all_eq_true.mp hall y ((List.mem_inits y _).mpr hy)
          exact Option.isNone_iff_eq_none.mp hy
      · exact .inl ⟨rfl, _, rfl⟩
  | create p =>
      simp only [answer]
      split
      · next hdir =>
          rw [Bool.and_eq_true, Bool.not_eq_true', isDir_iff] at hdir
          refine .inr ⟨rfl, hdir.1, fun h => ?_, _, _, rfl⟩
          exact absurd (isDir_iff.mpr h) (by simp [hdir.2])
      · exact .inl ⟨rfl, _, rfl⟩
  | write p bs =>
      simp only [answer]
      refine ⟨Nat.le_refl _, fun _ => rfl, ?_⟩
      rw [List.take_length]
      unfold Appends
      split
      · exact ⟨_, ⟨newEntry, rfl⟩, rfl⟩
      · exact ⟨_, rfl, rfl⟩
  | openFile p =>
      simp only [answer]
      split
      · next h => exact ⟨rfl, fun _ hnone => by simp [hnone] at h⟩
      · exact ⟨rfl, nofun⟩
  | read p start length => exact ⟨rfl, List.prefix_refl _, fun _ => rfl⟩
  | readDir p => exact ⟨rfl, nofun⟩
  | walk p => exact ⟨rfl, nofun⟩
  | remove p | rename src dst | createTemp | removeAll p => exact .inl ⟨rfl, _, rfl⟩

/-! ## what an effect may be -/

/-- It changes nothing, and looks only at and under a place. -/
def Eff.Reads (root : Loc) : Eff → Prop
  | .now | .allow | .countWrite => True
  | .stat p | .openFile p | .seek p _ | .read p _ _ | .readDir p | .walk p => root <+: loc p
  | _ => False

/-- It stays at and under a place, apart from directories that are made above
it. -/
def Eff.Edits (root : Loc) : Eff → Prop
  | .mkdirAll p => loc p <+: root ∨ root <+: loc p
  | .create p | .write p _ | .close p | .remove p | .removeAll p => root <+: loc p
  | .rename src dst => root <+: loc src ∧ root <+: loc dst
  | e => e.Reads root

/-- It is about a temporary file. -/
def Eff.Temps (tempDir : Path) : Eff → Prop
  | .createTemp => True
  | .write p _ | .openFile p | .read p _ _ | .remove p => ∃ n, p = tempPath tempDir n
  | _ => False

/-- Whoever may edit a tree may read it. -/
theorem Eff.Reads.edits {root : Loc} {e : Eff} (h : e.Reads root) : e.Edits root := by
  cases e <;> first | exact h | exact h.elim

/-! ## paths stay under the root -/

/-- Where a scope lives. -/
def Scope.loc (sc : Scope) : Loc := Peer.loc sc.root

/-- A path at or under a place; its directory may be just above. -/
structure Resolved (root : Loc) (abs : Path) : Prop where
  below : root <+: Peer.loc abs
  dir : Peer.loc (dir abs) <+: root ∨ root <+: Peer.loc (dir abs)

/-- A clean absolute path leads to its own names. -/
theorem loc_fromRoot {ss : Loc} (h : ∀ s ∈ ss, Plain s) : loc (fromRoot ss) = ss := by
  rw [loc, clean_fromRoot h]
  exact names_fromRoot fun s hs => ⟨(h s hs).ne_nil, (h s hs).sep_notMem⟩

/-- What is spelled below a root is resolved below it. -/
theorem resolved_fromRoot {ss us : Loc} (h : ∀ s ∈ ss ++ us, Plain s) :
    Resolved ss (fromRoot (ss ++ us)) := by
  have hlast : ∀ s ∈ (ss ++ us).dropLast, Plain s := fun s hs => h s (List.dropLast_subset _ hs)
  refine ⟨?_, ?_⟩
  · rw [loc_fromRoot h]
    exact List.prefix_append ss us
  · rw [dir_fromRoot h, loc_fromRoot hlast]
    exact List.prefix_or_prefix_of_prefix (List.dropLast_prefix _) (List.prefix_append ss us)

/-- The names a path of a request leads along. -/
def place (rel : Path) : Loc := resolve true (segs rel)

/-- The names of a place are plain: no dots, no slash, not empty. -/
theorem plain_place (rel : Path) : ∀ s ∈ place rel, Plain s :=
  plain_of_mem_resolve (sep_notMem_of_mem_segs rel)

/-- Cleaning a relative path spells out its place. -/
theorem cleanRel_eq (rel : Path) : cleanRel rel = fromRoot (place rel) := by
  have htrim : resolve true (segs (trimPrefix rel ['/'])) = place rel := by
    cases rel with
    | nil => rfl
    | cons c p =>
        by_cases hc : c = '/'
        · subst hc
          have hsegs : segs ('/' :: p) = [] :: segs p := segs_sep_cons p
          have hp : trimPrefix ('/' :: p) ['/'] = p := by simp [trimPrefix]
          rw [hp, place, hsegs, resolve_nil_cons]
        · have hp : trimPrefix (c :: p) ['/'] = c :: p := by
            simp [trimPrefix, Ne.symm hc]
          rw [hp, place]
  rw [cleanRel, ← htrim]
  exact clean_sep_cons _

/-- What a scope with an absolute root makes of a path. -/
theorem abs_join_cleanRel (srv : Server) {sc : Scope} (hroot : isRooted sc.root = true)
    (rel : Path) : (∀ s ∈ sc.loc, Plain s) ∧
      srv.abs (join sc.root (cleanRel rel)) = some (fromRoot (sc.loc ++ place rel)) := by
  obtain ⟨p, hp⟩ : ∃ p, sc.root = '/' :: p := by
    cases hr : sc.root with
    | nil => simp [hr, isRooted] at hroot
    | cons c p =>
        have hc : c = PathAlphabet.sep := by simpa [hr, isRooted] using hroot
        exact ⟨p, congrArg (· :: p) hc⟩
  have hloc : sc.loc = place p := by
    rw [Scope.loc, loc, hp]
    exact (congrArg names (clean_sep_cons p)).trans
      (names_fromRoot fun s hs => ⟨(plain_place p s hs).ne_nil, (plain_place p s hs).sep_notMem⟩)
  have hjoin : join sc.root (cleanRel rel) = fromRoot (place p ++ place rel) := by
    rw [hp, cleanRel_eq]
    exact join_sep_fromRoot p (plain_place rel)
  refine ⟨hloc ▸ plain_place p, ?_⟩
  rw [hjoin, hloc, Server.abs, if_pos (isRooted_fromRoot _),
    clean_fromRoot (plain_append (plain_place p) (plain_place rel))]

/-- Whatever the text of a path, it is resolved at or under the root, or
refused. -/
theorem resolved_of_resolveUnder {srv : Server} {sc : Scope} {rel abs : Path}
    (hroot : isRooted sc.root = true) (h : srv.resolveUnder sc.root rel = some abs) :
    Resolved sc.loc abs := by
  obtain ⟨hss, habs⟩ := abs_join_cleanRel srv hroot rel
  unfold Server.resolveUnder at h
  rw [habs] at h
  split at h
  · next rootAbs absAbs _ hsome =>
      split at h
      · cases h
      · obtain rfl := Option.some.inj hsome
        obtain rfl := Option.some.inj h
        exact resolved_fromRoot (plain_append hss (plain_place rel))
  · cases h

/-! ## the handlers keep to their scope -/

section Handlers

variable {srv : Server} {sc : Scope} {body : CommonBody} {abs : Path} {root : Loc}
  {P : Eff → Prop}

/-- A program all of whose effects are of a kind. -/
abbrev Does (P : Eff → Prop) {α : Type} (p : FsProg α) : Prop := Prog.Always P (fun _ => True) p

theorem does_perform {e : Eff} (h : P e) : Does P (.perform e) := ⟨h, fun _ => trivial⟩

theorem does_ret {α : Type} (a : α) : Does P (.ret a : FsProg α) := trivial

/-- What a program does, and what goes on with its result does. -/
theorem Does.bind {α β : Type} {p : FsProg α} {f : α → FsProg β} (hp : Does P p)
    (hf : ∀ a, Does P (f a)) : Does P (p >>= f) :=
  Prog.Always.bind hp fun a _ => hf a

theorem Does.mono {α : Type} {P' : Eff → Prop} {p : FsProg α} (h : Does P p)
    (hP : ∀ e, P e → P' e) : Does P' p :=
  Prog.Always.mono h hP fun _ h => h

/-- The handlers that take one path work on one that is resolved under the
root. -/
theorem does_withPath {handler : Path → Path → FsProg Response} (hroot : isRooted sc.root = true)
    (h : ∀ rel abs, Resolved sc.loc abs → Does P (handler rel abs)) :
    Does P (srv.withPath sc body handler) := by
  unfold Server.withPath
  split
  · exact does_ret _
  · split
    · exact does_ret _
    · next habs => exact h _ _ (resolved_of_resolveUnder hroot habs)

theorem does_fileMeta (scope : Scope) (rel : Path) (h : P (.stat abs)) :
    Does P (fileMeta scope rel abs) := by
  refine (does_perform h).bind fun r => ?_
  split
  · exact does_ret _
  · exact does_ret _

/-- The handlers of one path and one operation. -/
theorem does_withPathOp {op : Path → FsProg (Except OSErr Unit)} (hroot : isRooted sc.root = true)
    (h : ∀ abs, Resolved sc.loc abs → Does P (op abs)) :
    Does P (srv.withPathOp sc body op) := by
  refine does_withPath hroot fun _ abs habs => (h abs habs).bind fun r => ?_
  split
  · exact does_ret _
  · exact does_ret _

/-- `createFile` edits under the root of its scope only. -/
theorem does_handleCreateFile (hroot : isRooted sc.root = true) :
    Does (Eff.Edits sc.loc) (srv.handleCreateFile sc body) := by
  refine does_withPath hroot fun rel abs habs => (does_perform habs.dir).bind fun r => ?_
  split
  · exact does_ret _
  · refine (does_perform habs.below).bind fun r => ?_
    split
    · exact does_ret _
    · refine (does_perform habs.below).bind fun _ => does_fileMeta sc rel ?_
      exact habs.below

/-- `readFile` reads under the root of its scope only. -/
theorem does_handleReadFile (hroot : isRooted sc.root = true) :
    Does (Eff.Reads sc.loc) (srv.handleReadFile sc body) :=
  does_withPath hroot fun rel _ habs => does_fileMeta sc rel habs.below

/-- `readMetadata` reads under the root of its scope only. -/
theorem does_handleReadMetadata (hroot : isRooted sc.root = true) :
    Does (Eff.Reads sc.loc) (srv.handleReadMetadata sc body) := by
  refine does_withPath hroot fun _ abs habs => (does_perform habs.below).bind fun r => ?_
  split
  · exact does_ret _
  · split
    · exact does_ret _
    · exact does_ret _

/-- `listDirectory` reads under the root of its scope only. -/
theorem does_handleListDirectory (hroot : isRooted sc.root = true) :
    Does (Eff.Reads sc.loc) (srv.handleListDirectory sc body) := by
  refine does_withPath hroot fun _ abs habs => (does_perform habs.below).bind fun r => ?_
  split
  · exact does_ret _
  · exact does_ret _

theorem does_destinationExists (overwrite : Bool) (h : P (.stat abs)) :
    Does P (destinationExists overwrite abs) := by
  unfold destinationExists
  split
  · exact does_ret _
  · refine (does_perform h).bind fun r => ?_
    split
    · exact does_ret _
    · exact does_ret _

/-- A transfer works on two paths that are resolved under the root. -/
theorem does_applySrcDstOp {op : Path → Path → FsProg (Except OSErr Unit)}
    (hroot : isRooted sc.root = true)
    (h : ∀ src dst, Resolved sc.loc src → Resolved sc.loc dst →
      Does (Eff.Edits sc.loc) (op src dst)) :
    Does (Eff.Edits sc.loc) (srv.applySrcDstOp sc body op) := by
  unfold Server.applySrcDstOp
  split
  · exact does_ret _
  · split
    · exact does_ret _
    · next hsrc =>
        split
        · exact does_ret _
        · next hdst =>
            have hdst := resolved_of_resolveUnder hroot hdst
            refine (does_destinationExists _ hdst.below).bind fun there => ?_
            split
            · exact does_ret _
            · refine (does_perform hdst.dir).bind fun r => ?_
              split
              · exact does_ret _
              · refine (h _ _ (resolved_of_resolveUnder hroot hsrc) hdst).bind fun r => ?_
                split
                · exact does_ret _
                · exact does_ret _

/-- A copy stays where its two ends are. -/
theorem does_copyFileContents {src dst : Path} (hsrc : root <+: loc src) (hdst : root <+: loc dst) :
    Does (Eff.Edits root) (copyFileContents src dst) := by
  refine (does_perform hsrc).bind fun r => ?_
  split
  · exact does_ret _
  · refine (does_perform hdst).bind fun r => ?_
    split
    · exact does_ret _
    · refine (does_perform hsrc).bind fun r => (does_perform hdst).bind fun r' => ?_
      refine (does_perform hdst).bind fun closed => ?_
      split <;> exact does_ret _

theorem does_seekTo (start : Int) (h : root <+: loc abs) :
    Does (Eff.Reads root) (seekTo abs start) := by
  unfold seekTo
  split
  · exact does_perform h
  · exact does_ret _

/-- A download reads the one file it streams. -/
theorem does_streamFile (range : Option Brokerrpc.Range) (h : root <+: loc abs) :
    Does (Eff.Reads root) (streamFile abs range) := by
  refine (does_perform h).bind fun r => ?_
  split
  · exact does_ret _
  · refine (does_perform h).bind fun r => ?_
    split
    · exact does_ret _
    · split
      · exact does_ret _
      · refine (does_seekTo _ h).bind fun r => ?_
        split
        · exact does_ret _
        · exact (does_perform h).bind fun r => does_ret _

/-- A uuid is looked up under the root of the scope, and streamed from there.
-/
theorem does_handleFileDownload (hroot : isRooted sc.root = true) :
    Does (Eff.Reads sc.loc) (srv.handleFileDownload sc body) := by
  unfold Server.handleFileDownload
  split
  · exact does_ret _
  · split
    · exact does_ret _
    · have hwalk : Does (Eff.Reads sc.loc) (.perform (.walk sc.root)) :=
        does_perform (List.prefix_refl sc.loc)
      refine (hwalk.bind fun rels => does_ret _).bind fun rel => ?_
      split
      · exact does_ret _
      · split
        · exact does_ret _
        · next habs => exact does_streamFile _ (resolved_of_resolveUnder hroot habs).below

/-- An operation that writes nothing by its name writes nothing. -/
theorem does_dispatch_read {opName : Option Op} (hroot : isRooted sc.root = true)
    (hop : opName.any writeIntentOps = false) :
    Does (Eff.Reads sc.loc) (srv.dispatch opName sc body) := by
  unfold Server.dispatch
  split
  · cases hop
  · exact does_handleReadFile hroot
  · exact does_handleReadMetadata hroot
  · exact does_handleListDirectory hroot
  · cases hop
  · cases hop
  · cases hop
  · cases hop
  · cases hop
  · cases hop
  · exact does_handleFileDownload hroot
  · exact does_ret _
  · exact does_ret _

/-- Every JSON operation edits under the root of its scope only. -/
theorem does_dispatch (opName : Option Op) (hroot : isRooted sc.root = true) :
    Does (Eff.Edits sc.loc) (srv.dispatch opName sc body) := by
  have hrename (src dst : Path) (hsrc : Resolved sc.loc src) (hdst : Resolved sc.loc dst) :
      Does (Eff.Edits sc.loc) (.perform (.rename src dst)) :=
    does_perform ⟨hsrc.below, hdst.below⟩
  unfold Server.dispatch
  split
  · exact does_handleCreateFile hroot
  · exact (does_handleReadFile hroot).mono fun _ => Eff.Reads.edits
  · exact (does_handleReadMetadata hroot).mono fun _ => Eff.Reads.edits
  · exact (does_handleListDirectory hroot).mono fun _ => Eff.Reads.edits
  · exact does_applySrcDstOp hroot fun _ _ hsrc hdst =>
      does_copyFileContents hsrc.below hdst.below
  · exact does_applySrcDstOp hroot hrename
  · exact does_withPathOp hroot fun abs habs => does_perform habs.below
  · exact does_withPathOp hroot fun abs habs => does_perform (.inr habs.below)
  · exact does_applySrcDstOp hroot hrename
  · exact does_withPathOp hroot fun abs habs => does_perform habs.below
  · exact (does_handleFileDownload hroot).mono fun _ => Eff.Reads.edits
  · exact does_ret _
  · exact does_ret _

end Handlers

/-! ## uploads -/

/-- The values of a form, in order. -/
def partValues (parts : List Part) : List (List Char × List UInt8) :=
  (parts.filter fun part => part.name ≠ [] ∧ part.filename = []).map
    fun part => (part.name, part.content)

/-- Some file part does not fit into the memory that is left for it. -/
def spools (memory : Nat) : List Part → Bool
  | [] => false
  | part :: parts =>
      if part.name = [] ∨ part.filename = [] then spools memory parts
      else if part.content.length ≤ memory then spools (memory - part.content.length) parts
      else true

def IsTemp (tempDir p : Path) : Prop := ∃ n, p = tempPath tempDir n

section Uploads

variable {S : Prop} {tempDir : Path} {form : Form} {sc : Scope}

/-- What is on the disk of a form is in temporary files, and there only if
parts were spooled. -/
def Form.Sound (S : Prop) (tempDir : Path) (form : Form) : Prop :=
  ∀ key tmp start size, (key, FileSource.disk tmp start size) ∈ form.files →
    S ∧ IsTemp tempDir tmp

/-- What reading a form returns. -/
structure ReadsForm (S : Prop) (tempDir : Path) (values : List (List Char × List UInt8))
    (r : Option Form × Option Path) : Prop where
  form : ∀ form, r.1 = some form → form.values = values ∧ form.Sound S tempDir
  temp : ∀ tmp, r.2 = some tmp → S ∧ IsTemp tempDir tmp

/-- A file part that is held in memory. -/
theorem Form.Sound.add_memory (h : form.Sound S tempDir) (key : List Char) (bytes : List UInt8) :
    Form.Sound S tempDir { form with files := form.files ++ [(key, .memory bytes)] } := by
  intro key' tmp start size hmem
  rcases List.mem_append.mp hmem with hmem | hmem
  · exact h key' tmp start size hmem
  · simp at hmem

/-- A file part that is spooled to the temporary file. -/
theorem Form.Sound.add_disk {path : Path} (h : form.Sound S tempDir) (key : List Char)
    (start size : Nat) (hS : S) (hpath : IsTemp tempDir path) :
    Form.Sound S tempDir { form with files := form.files ++ [(key, .disk path start size)] } := by
  intro key' tmp start' size' hmem
  rcases List.mem_append.mp hmem with hmem | hmem
  · exact h key' tmp start' size' hmem
  · simp only [List.mem_singleton, Prod.mk.injEq, FileSource.disk.injEq] at hmem
    exact ⟨hS, hmem.2.1 ▸ hpath⟩

/-- The temporary file of a form is a temporary file, also when it is there
already. -/
theorem always_openTemp {tmp : Option (Path × Nat)} (hS : S)
    (htmp : ∀ spot, tmp = some spot → IsTemp tempDir spot.1) :
    Prog.Always (fun e => S ∧ e.Temps tempDir)
      (fun r => ∀ spot, r = .ok spot → IsTemp tempDir spot.1) (openTemp tempDir tmp) := by
  cases tmp with
  | some spot =>
      rintro _ ⟨⟩
      exact htmp spot rfl
  | none =>
      refine ⟨⟨hS, trivial⟩, fun r => ?_⟩
      cases r with
      | error e => exact nofun
      | ok n =>
          rintro _ ⟨⟩
          exact ⟨n, rfl⟩

/-- Reading the parts of a form touches temporary files only, and those only
if the parts do not fit into memory. -/
theorem always_readParts (parts : List Part) (memory : Nat) (tmp : Option (Path × Nat))
    (hS : spools memory parts = true → S)
    (htmp : ∀ spot, tmp = some spot → S ∧ IsTemp tempDir spot.1) (hform : form.Sound S tempDir) :
    Prog.Always (fun e => S ∧ e.Temps tempDir)
      (ReadsForm S tempDir (form.values ++ partValues parts))
      (readParts tempDir memory tmp form parts) := by
  induction parts generalizing memory tmp form with
  | nil =>
      refine ⟨?_, ?_⟩
      · rintro _ ⟨⟩
        exact ⟨(List.append_nil _).symm, hform⟩
      · intro path hpath
        obtain ⟨spot, hat, rfl⟩ := Option.map_eq_some_iff.mp hpath
        exact htmp spot hat
  | cons part parts ih =>
      unfold readParts
      split
      · next hname =>
          have hvalues : partValues (part :: parts) = partValues parts := by
            simp [partValues, hname]
          rw [hvalues]
          exact ih memory tmp (fun h => hS (by simpa [spools, hname] using h)) htmp hform
      · next hname =>
          split
          · next hfile =>
              have hvalues : form.values ++ partValues (part :: parts) =
                  form.values ++ [(part.name, part.content)] ++ partValues parts := by
                simp [partValues, hname, hfile]
              have hform' : Form.Sound S tempDir
                  { form with values := form.values ++ [(part.name, part.content)] } := hform
              rw [hvalues]
              exact ih memory tmp (fun h => hS (by simpa [spools, hfile] using h)) htmp hform'
          · next hfile =>
              have hvalues : partValues (part :: parts) = partValues parts := by
                simp [partValues, hfile]
              rw [hvalues]
              split
              · next hfits =>
                  refine ih _ tmp (fun h => hS ?_) htmp (hform.add_memory _ _)
                  simpa [spools, hname, hfile, hfits] using h
              · next hbig =>
                  have hspools : S := hS (by simp [spools, hname, hfile, hbig])
                  refine (always_openTemp hspools fun spot h => (htmp spot h).2).bind
                    fun r hr => ?_
                  split
                  · exact ⟨nofun, nofun⟩
                  · next path start =>
                      have hpath : IsTemp tempDir path := hr _ rfl
                      refine ⟨⟨hspools, hpath⟩, fun r => ?_⟩
                      obtain ⟨n, writeErr⟩ := r
                      cases writeErr with
                      | some e =>
                          refine ⟨nofun, ?_⟩
                          rintro _ ⟨⟩
                          exact ⟨hspools, hpath⟩
                      | none =>
                          refine ih memory _ (fun _ => hspools) ?_
                            (hform.add_disk _ _ _ hspools hpath)
                          rintro _ ⟨⟩
                          exact ⟨hspools, hpath⟩

/-- Removing the temporary file removes nothing else. -/
theorem does_removeTemp {P : Eff → Prop} {tmp : Option Path}
    (h : ∀ path, tmp = some path → P (.remove path)) : Does P (removeTemp tmp) := by
  cases tmp with
  | none => exact does_ret _
  | some path => exact (does_perform (h path rfl)).bind fun _ => does_ret _

/-- Reading a form touches temporary files only, if it has to spool. -/
theorem always_readForm (body : MultipartBody) (hS : spools multipartMemory body.parts = true → S) :
    Prog.Always (fun e => S ∧ e.Temps tempDir) (ReadsForm S tempDir (partValues body.parts))
      (readForm tempDir body) := by
  have hform : Form.Sound S tempDir ⟨[], []⟩ := nofun
  have hremove {r : Option Form × Option Path}
      (hr : ReadsForm S tempDir (partValues body.parts) r) :
      Does (fun e => S ∧ e.Temps tempDir) (removeTemp r.2) :=
    does_removeTemp fun path hpath => hr.temp path hpath
  refine (always_readParts body.parts multipartMemory none hS nofun hform).bind fun r hr => ?_
  split
  · split
    · exact hr
    · exact Prog.Always.bind (hremove hr) fun _ _ => ⟨nofun, nofun⟩
  · exact Prog.Always.bind (hremove hr) fun _ _ => ⟨nofun, nofun⟩

/-- What is read of an upload is in memory or in a temporary file. -/
def FileSource.Sound (S : Prop) (tempDir : Path) (part : FileSource) : Prop :=
  ∀ tmp start size, part = .disk tmp start size → S ∧ IsTemp tempDir tmp

/-- Opening a file part of a form touches its temporary file at most. -/
theorem always_formFile (hform : form.Sound S tempDir) (key : List Char) :
    Prog.Always (fun e => S ∧ e.Temps tempDir)
      (fun r => ∀ part, r = some part → part.Sound S tempDir) (formFile form key) := by
  unfold formFile
  split
  · exact nofun
  · rintro _ ⟨⟩
    exact nofun
  · next tmp start size hlookup =>
      have htmp : S ∧ IsTemp tempDir tmp := hform key tmp start size (Quoting.mem_of_lookup hlookup)
      refine ⟨htmp, fun r => ?_⟩
      cases r with
      | error e => exact nofun
      | ok u =>
          rintro _ ⟨⟩ _ _ _ ⟨⟩
          exact htmp

theorem does_readPart {part : FileSource} (hpart : part.Sound S tempDir) :
    Does (fun e => S ∧ e.Temps tempDir) (readPart part) := by
  cases part with
  | memory bytes => exact does_ret _
  | disk tmp start size => exact does_perform (hpart tmp start size rfl)

/-- An upload edits under the root of its scope, and reads its part. -/
theorem does_storePart {params : UploadParams} {abs : Path} {part : FileSource}
    (habs : Resolved sc.loc abs) (hpart : part.Sound S tempDir) :
    Does (fun e => e.Edits sc.loc ∨ S ∧ e.Temps tempDir) (storePart sc params abs part) := by
  refine (does_destinationExists _ (.inl habs.below)).bind fun there => ?_
  split
  · exact does_ret _
  · refine (does_perform (.inl habs.dir)).bind fun r => ?_
    split
    · exact does_ret _
    · refine (does_perform (.inl habs.below)).bind fun r => ?_
      split
      · exact does_ret _
      · refine ((does_readPart hpart).mono fun _ => .inr).bind fun r => ?_
        refine (does_perform (.inl habs.below)).bind fun r' => ?_
        refine (does_perform (.inl habs.below)).bind fun closed => ?_
        split
        · exact does_ret _
        · split
          · exact does_ret _
          · split
            · exact (does_perform (.inl habs.below)).bind fun _ => does_ret _
            · exact does_fileMeta _ _ (.inl habs.below)

end Uploads

/-! ## what a request may do -/

/-- It leaves the disk alone. -/
def Eff.Idle : Eff → Prop
  | .now | .allow | .countWrite => True
  | _ => False

/-- It is one a scope allows. -/
def Eff.In (sc : Scope) (e : Eff) : Prop :=
  if sc.readOnly = true then e.Reads sc.loc else e.Edits sc.loc

/-- The `filesystem_id` of a request, were this its query. -/
def Request.scopeIn (q : Request) (query : List (List Char × List UInt8)) : Option (List Char) :=
  if q.opName = some .fileUpload then do
    let body ← q.multipart
    let params ← uploadParams (formValue query (partValues body.parts) "params".toList)
    return params.filesystemID
  else (decodeCommon q.body).map CommonBody.filesystemID

/-- The `filesystem_id` that is named in the body. -/
def Request.named (q : Request) : Option (List Char) := q.scopeIn []

/-- The request is an upload, with file parts that do not fit into the
memory. -/
def Request.Spools (q : Request) : Prop :=
  q.opName = some .fileUpload ∧
    ∃ body, q.multipart = some body ∧ spools multipartMemory body.parts = true

/-- The credential of the request is bound to this `filesystem_id`. -/
def Server.BoundTo (srv : Server) (q : Request) (fsID : List Char) : Prop :=
  ∃ now, srv.credentials.subject now q.authorization = .ok fsID

structure Server.Grants (srv : Server) (q : Request) (sc : Scope) : Prop where
  mem : sc ∈ srv.scopes
  bound : srv.BoundTo q sc.filesystemID
  asked : q.scopeIn q.query = some sc.filesystemID

def Server.Permits (srv : Server) (q : Request) (e : Eff) : Prop :=
  e.Idle ∨ q.Spools ∧ e.Temps srv.tempDir ∨ ∃ sc, srv.Grants q sc ∧ e.In sc

section Requests

variable {srv : Server} {q : Request} {sc : Scope}

/-- What an authorization rests on: the scope is a known one, the credential
and the request name it, and a read-only scope is not written to. -/
theorem authorize_ok {opName : Option Op} {subjectFSID requestedFSID : List Char}
    (h : srv.authorize opName subjectFSID requestedFSID = .ok sc) :
    sc ∈ srv.scopes ∧ sc.filesystemID = requestedFSID ∧ subjectFSID = requestedFSID ∧
      (sc.readOnly = true → opName.any writeIntentOps = false) := by
  unfold Server.authorize at h
  split at h
  · cases h
  · split at h
    · cases h
    · next hsubject =>
        split at h
        · cases h
        · next scope hscope =>
            split at h
            · cases h
            · next hwrite =>
                cases h
                have hmem := List.mem_of_find?_eq_some hscope
                have hid := List.find?_some hscope
                refine ⟨List.mem_reverse.mp hmem, by simpa using hid, by simpa using hsubject, ?_⟩
                intro hro
                simpa [hro] using hwrite

/-- A credential that is accepted was good at some time. -/
theorem always_validate (v : Validator) (header : List Char) :
    Prog.Always Eff.Idle (fun r => ∀ fsID, r = .ok fsID → ∃ now, v.subject now header = .ok fsID)
      (v.validate header) := by
  cases v with
  | static credentials => exact fun fsID h => ⟨_, h⟩
  | jwt ec jwks issuer audience => exact ⟨trivial, fun now fsID h => ⟨now, h⟩⟩

/-- Charging an operation does nothing to the disk. -/
theorem does_chargePerOp (fsID : List Char) : Does Eff.Idle (srv.chargePerOp fsID) := by
  unfold Server.chargePerOp
  split
  · exact does_perform trivial
  · exact does_ret _

/-- The throttle does nothing to the disk. -/
theorem does_throttled : Does Eff.Idle srv.throttled := by
  unfold Server.throttled
  split
  · exact does_ret _
  · exact (does_perform trivial).bind fun n => does_ret _

/-- An operation that is authorised does what its scope allows. -/
theorem does_dispatch_in {opName : Option Op} {body : CommonBody} (hroot : isRooted sc.root = true)
    (hop : sc.readOnly = true → opName.any writeIntentOps = false) :
    Does (Eff.In sc) (srv.dispatch opName sc body) := by
  by_cases hro : sc.readOnly = true
  · exact (does_dispatch_read hroot (hop hro)).mono fun e h => by rwa [Eff.In, if_pos hro]
  · exact (does_dispatch opName hroot).mono fun e h => by rwa [Eff.In, if_neg hro]

/-- An upload with its form at hand does what its request permits. -/
theorem does_upload (hroots : ∀ sc ∈ srv.scopes, isRooted sc.root = true) {body : MultipartBody}
    {subjectFSID : List Char} {form : Form} (hop : q.opName = some .fileUpload)
    (hbody : q.multipart = some body) (hvalues : form.values = partValues body.parts)
    (hform : form.Sound q.Spools srv.tempDir) (hbound : srv.BoundTo q subjectFSID) :
    Does (srv.Permits q) (srv.upload q subjectFSID form) := by
  unfold Server.upload
  dsimp only
  split
  · exact does_ret _
  · split
    · exact does_ret _
    · split
      · exact does_ret _
      · next params hparams =>
          split
          · exact does_ret _
          · next sc hsc =>
              obtain ⟨hmem, hid, hsubject, hwrite⟩ := authorize_ok hsc
              have hro : sc.readOnly ≠ true := fun h => nomatch hwrite h
              have hgrants : srv.Grants q sc := by
                refine ⟨hmem, hid ▸ hsubject ▸ hbound, ?_⟩
                rw [hvalues] at hparams
                rw [Request.scopeIn, if_pos hop, hbody, hid]
                exact congrArg (fun r => r.bind fun params => some params.filesystemID) hparams
              refine ((does_chargePerOp _).mono fun e h => .inl h).bind fun admitted => ?_
              split
              · exact does_ret _
              · refine (does_throttled.mono fun e h => .inl h).bind fun refused => ?_
                split
                · exact does_ret _
                · split
                  · exact does_ret _
                  · next abs habs =>
                      have hroot := hroots sc hmem
                      have htemps (e : Eff) (h : q.Spools ∧ e.Temps srv.tempDir) :
                          srv.Permits q e := .inr (.inl h)
                      refine ((always_formFile hform _).mono htemps fun _ h => h).bind
                        fun part hpart => ?_
                      split
                      · exact does_ret _
                      · next part =>
                          refine (does_storePart (resolved_of_resolveUnder hroot habs)
                            (hpart part rfl)).mono fun e h => ?_
                          rcases h with h | h
                          · exact .inr (.inr ⟨sc, hgrants, by rwa [Eff.In, if_neg hro]⟩)
                          · exact htemps e h

/-- An upload does what its request permits, from the credential on. -/
theorem does_handleFileUpload (hroots : ∀ sc ∈ srv.scopes, isRooted sc.root = true)
    (hop : q.opName = some .fileUpload) : Does (srv.Permits q) (srv.handleFileUpload q) := by
  have htemps (e : Eff) (h : q.Spools ∧ e.Temps srv.tempDir) : srv.Permits q e := .inr (.inl h)
  refine ((always_validate srv.credentials q.authorization).mono (fun e h => .inl h)
    fun _ h => h).bind fun r hr => ?_
  split
  · exact does_ret _
  · next subjectFSID =>
      have hbound : srv.BoundTo q subjectFSID := hr subjectFSID rfl
      split
      · exact does_ret _
      · next body hbody =>
          refine ((always_readForm body fun h => ⟨hop, body, hbody, h⟩).mono htemps
            fun _ h => h).bind fun r hr => ?_
          split
          · exact does_ret _
          · next form tmp =>
              obtain ⟨hvalues, hform⟩ := hr.form form rfl
              refine (does_upload hroots hop hbody hvalues hform hbound).bind fun resp => ?_
              refine (does_removeTemp fun path hpath => ?_).bind fun _ => does_ret _
              exact htemps _ (hr.temp path hpath)

/-- Every effect of a request is one it is permitted, whatever the disk
answers. -/
theorem does_route (hroots : ∀ sc ∈ srv.scopes, isRooted sc.root = true) (q : Request) :
    Does (srv.Permits q) (srv.route q) := by
  unfold Server.route
  split
  · exact does_ret _
  · split
    · next hop => exact does_handleFileUpload hroots hop
    · next hop =>
        refine ((always_validate srv.credentials q.authorization).mono (fun e h => .inl h)
          fun _ h => h).bind fun r hr => ?_
        split
        · exact does_ret _
        · next subjectFSID =>
            have hbound : srv.BoundTo q subjectFSID := hr subjectFSID rfl
            split
            · exact does_ret _
            · next body hbody =>
                split
                · exact does_ret _
                · next sc hsc =>
                    obtain ⟨hmem, hid, hsubject, hwrite⟩ := authorize_ok hsc
                    have hgrants : srv.Grants q sc := by
                      refine ⟨hmem, hid ▸ hsubject ▸ hbound, ?_⟩
                      rw [Request.scopeIn, if_neg hop, hbody, hid, Option.map_some]
                    refine ((does_chargePerOp _).mono fun e h => .inl h).bind fun admitted => ?_
                    split
                    · exact does_ret _
                    · exact (does_dispatch_in (hroots sc hmem) hwrite).mono
                        fun e h => .inr (.inr ⟨sc, hgrants, h⟩)

end Requests

/-! ## what an effect does to the disk -/

/-- Only a place and what is under it is changed or read, apart from the
directories above. -/
structure StaysAt (root : Loc) (w w' : World) : Prop where
  tree : FileTree.ChangesAt root w.tree w'.tree
  reads : ∃ new, w'.reads = new ++ w.reads ∧ ∀ x ∈ new, root <+: x

section Steps

variable {root : Loc} {tempDir : Path} {w w' : World} {e : Eff} {r : e.Reply}

theorem StaysAt.refl (root : Loc) (w : World) : StaysAt root w w :=
  ⟨.refl root w.tree, [], rfl, nofun⟩

/-- Only the tree changes. -/
theorem staysAt_of_tree {t : Tree} (h : FileTree.ChangesAt root w.tree t) :
    StaysAt root w { w with tree := t } :=
  ⟨h, [], rfl, nofun⟩

/-- Appending to a file is a change at the file. -/
theorem changesAt_appends {t t' : Tree} {x : Loc} {bs : List UInt8} (h : Appends t x bs t') :
    FileTree.ChangesAt x t t' := by
  unfold Appends at h
  split at h
  · obtain ⟨i, rfl⟩ := h
    exact FileTree.changesAt_store t x i _
  · rw [h]
    exact .refl x t

/-- A write changes its file at most, also when it fails in the middle. -/
theorem staysAt_write {p : Path} {bs : List UInt8} {r : Nat × Option OSErr}
    (h : disk tempDir w (.write p bs) r w') : StaysAt (loc p) w w' := by
  obtain ⟨-, -, t, ht, rfl⟩ := h
  exact staysAt_of_tree (changesAt_appends ht)

/-- A removal changes what it removes and the entry of its directory. -/
theorem staysAt_remove {p : Path} {r : Except OSErr Unit} (h : disk tempDir w (.remove p) r w') :
    StaysAt (loc p) w w' := by
  obtain ⟨rfl, -⟩ | ⟨-, -, -, above, rfl⟩ := h
  · exact .refl _ _
  · exact staysAt_of_tree (FileTree.changesAt_prune _ _ _ _)

/-- A read changes nothing, and is on record. -/
theorem staysAt_read {p : Path} {start : Nat} {length : Option Nat}
    {r : List UInt8 × Option OSErr} (h : disk tempDir w (.read p start length) r w') :
    StaysAt (loc p) w w' := by
  obtain ⟨rfl, -⟩ := h
  exact ⟨.refl _ _, [loc p], rfl, by simp⟩

/-- What stays at a place stays at every place above it. -/
theorem StaysAt.above {x : Loc} (h : StaysAt x w w') (hx : root <+: x) : StaysAt root w w' := by
  obtain ⟨new, hnew, hreads⟩ := h.reads
  exact ⟨h.tree.above hx, new, hnew, fun y hy => hx.trans (hreads y hy)⟩

/-- An effect that reads leaves the tree as it is. -/
theorem staysAt_reads (h : disk tempDir w e r w') (he : e.Reads root) :
    w'.tree = w.tree ∧ StaysAt root w w' := by
  cases e with
  | now | allow => subst h; exact ⟨rfl, .refl _ _⟩
  | countWrite => obtain ⟨-, rfl⟩ := h; exact ⟨rfl, .refl _ _, [], rfl, nofun⟩
  | stat p | openFile p | readDir p | walk p => obtain ⟨rfl, -⟩ := h; exact ⟨rfl, .refl _ _⟩
  | seek p start => subst h; exact ⟨rfl, .refl _ _⟩
  | read p start length => exact ⟨by rw [h.1], (staysAt_read h).above he⟩
  | _ => exact he.elim

/-- An effect that edits stays at the root of its scope. -/
theorem staysAt_edits (h : disk tempDir w e r w') (he : e.Edits root) : StaysAt root w w' := by
  cases e with
  | mkdirAll p =>
      obtain ⟨rfl, -⟩ | ⟨x, i, hx, -, -, rfl⟩ := h
      · exact .refl _ _
      · refine staysAt_of_tree (FileTree.changesAt_mkdirs _ ?_ i)
        rcases he with he | he
        · exact .inl (hx.trans he)
        · exact List.prefix_or_prefix_of_prefix hx he
  | create p =>
      obtain ⟨rfl, -⟩ | ⟨-, -, -, i, above, rfl⟩ := h
      · exact .refl _ _
      · exact staysAt_of_tree ((FileTree.changesAt_put _ _ _ _ _).above he)
  | write p bs => exact (staysAt_write h).above he
  | close p => subst h; exact .refl _ _
  | remove p => exact (staysAt_remove h).above he
  | removeAll p =>
      obtain ⟨rfl, -⟩ | ⟨kept, above, -, rfl⟩ := h
      · exact .refl _ _
      · exact staysAt_of_tree ((FileTree.changesAt_prune _ _ _ _).above he)
  | rename src dst =>
      obtain ⟨rfl, -⟩ | ⟨-, -, -, -, -, i, j, rfl⟩ := h
      · exact .refl _ _
      · exact staysAt_of_tree (FileTree.changesAt_move _ he.1 he.2 i j)
  | _ => exact (staysAt_reads h he).2

/-- An effect on temporary files stays at one of them. -/
theorem staysAt_temps (h : disk tempDir w e r w') (he : e.Temps tempDir) :
    ∃ p, IsTemp tempDir p ∧ StaysAt (loc p) w w' := by
  cases e with
  | createTemp =>
      obtain ⟨rfl, -⟩ | ⟨n, i, above, -, -, -, rfl⟩ := h
      · exact ⟨tempPath tempDir 0, ⟨0, rfl⟩, .refl _ _⟩
      · exact ⟨tempPath tempDir n, ⟨n, rfl⟩,
          staysAt_of_tree (FileTree.changesAt_put _ _ _ _ _)⟩
  | write p bs => exact ⟨p, he, staysAt_write h⟩
  | openFile p => obtain ⟨rfl, -⟩ := h; exact ⟨p, he, .refl _ _⟩
  | read p start length => exact ⟨p, he, staysAt_read h⟩
  | remove p => exact ⟨p, he, staysAt_remove h⟩
  | _ => exact he.elim

end Steps

/-! ## isolation -/

/-- Neither place is above the other. -/
def Apart (a b : Loc) : Prop := ¬ a <+: b ∧ ¬ b <+: a

instance (a b : Loc) : Decidable (Apart a b) := inferInstanceAs (Decidable (_ ∧ _))

/-- The roots are absolute and apart from each other. -/
structure Server.Rooted (srv : Server) : Prop where
  absolute : ∀ sc ∈ srv.scopes, isRooted sc.root = true
  apart : ∀ a ∈ srv.scopes, ∀ b ∈ srv.scopes, a ≠ b → Apart a.loc b.loc

/-- No temporary file can be where a read-only scope is. -/
def Server.TempApart (srv : Server) : Prop :=
  ∀ sc ∈ srv.scopes, sc.readOnly = true → ∀ p, IsTemp srv.tempDir p → Apart (loc p) sc.loc

/-- The request has to do with the place. -/
def Server.Reaches (srv : Server) (q : Request) (x : Loc) : Prop :=
  (∃ sc, srv.Grants q sc ∧ sc.loc <+: x) ∨
    q.Spools ∧ ∃ p, IsTemp srv.tempDir p ∧ loc p <+: x

/-- What a request leaves alone. -/
structure Isolated (srv : Server) (q : Request) (w w' : World) : Prop where
  readOnly : ∀ sc ∈ srv.scopes, sc.readOnly = true → ∀ x, sc.loc <+: x → w'.tree x = w.tree x
  reads : ∃ new, w'.reads = new ++ w.reads ∧ ∀ x ∈ new, srv.Reaches q x
  content : ∀ x, w'.tree.content x ≠ w.tree.content x → srv.Reaches q x

section Isolation

variable {srv : Server} {q : Request} {w w₁ w' : World} {e : Eff} {r : e.Reply} {root : Loc}

theorem Isolated.refl (srv : Server) (q : Request) (w : World) : Isolated srv q w w :=
  ⟨fun _ _ _ _ _ => rfl, ⟨[], rfl, nofun⟩, fun _ h => absurd rfl h⟩

/-- Isolation holds along a run when it holds of its steps. -/
theorem Isolated.trans (h : Isolated srv q w w₁) (h' : Isolated srv q w₁ w') :
    Isolated srv q w w' := by
  obtain ⟨new, hnew, hreads⟩ := h.reads
  obtain ⟨new', hnew', hreads'⟩ := h'.reads
  refine ⟨fun sc hsc hro x hx => ?_, ⟨new' ++ new, ?_, ?_⟩, fun x hx => ?_⟩
  · rw [h'.readOnly sc hsc hro x hx, h.readOnly sc hsc hro x hx]
  · rw [hnew', hnew, List.append_assoc]
  · exact fun x hx => (List.mem_append.mp hx).elim (hreads' x) (hreads x)
  · by_cases hx₁ : w'.tree.content x = w₁.tree.content x
    · exact h.content x (hx₁ ▸ hx)
    · exact h'.content x hx₁

/-- An effect at a place that is the request's business. -/
theorem isolated_of_staysAt (h : StaysAt root w w')
    (hro : ∀ sc ∈ srv.scopes, sc.readOnly = true → ∀ x, sc.loc <+: x → w'.tree x = w.tree x)
    (hreach : ∀ x, root <+: x → srv.Reaches q x) : Isolated srv q w w' := by
  obtain ⟨new, hnew, hreads⟩ := h.reads
  refine ⟨hro, ⟨new, hnew, fun x hx => hreach x (hreads x hx)⟩, fun x hx => hreach x ?_⟩
  exact Decidable.byContradiction fun hroot => hx (h.tree.content x hroot)

/-- An effect that has nothing to do with the disk. -/
theorem isolated_idle {tempDir : Path} (h : disk tempDir w e r w') (he : e.Idle) :
    Isolated srv q w w' := by
  cases e with
  | now | allow => subst h; exact .refl srv q _
  | countWrite =>
      obtain ⟨-, rfl⟩ := h
      exact ⟨fun _ _ _ _ _ => rfl, ⟨[], rfl, nofun⟩, fun _ h => absurd rfl h⟩
  | _ => exact he.elim

/-- What a request is permitted leaves alone what is not its business; where
the temporary files are matters to the requests that make some. -/
theorem isolated_step (hroots : srv.Rooted) (htemp : q.Spools → srv.TempApart)
    (h : disk srv.tempDir w e r w') (he : srv.Permits q e) : Isolated srv q w w' := by
  rcases he with he | ⟨hspools, he⟩ | ⟨sc, hgrants, he⟩
  · exact isolated_idle h he
  · obtain ⟨p, hp, hstays⟩ := staysAt_temps h he
    refine isolated_of_staysAt hstays (fun ro hmem hro x hx => ?_)
      fun x hx => .inr ⟨hspools, p, hp, hx⟩
    obtain ⟨hps, hsp⟩ := htemp hspools ro hmem hro p hp
    exact hstays.tree.apart hps hsp hx
  · by_cases hsc : sc.readOnly = true
    · rw [Eff.In, if_pos hsc] at he
      obtain ⟨htree, hstays⟩ := staysAt_reads h he
      exact isolated_of_staysAt hstays (fun _ _ _ x _ => congrFun htree x)
        fun x hx => .inl ⟨sc, hgrants, hx⟩
    · rw [Eff.In, if_neg hsc] at he
      have hstays := staysAt_edits h he
      refine isolated_of_staysAt hstays (fun ro hmem hro x hx => ?_)
        fun x hx => .inl ⟨sc, hgrants, hx⟩
      have hne : sc ≠ ro := fun h => hsc (h ▸ hro)
      obtain ⟨hsr, hrs⟩ := hroots.apart sc hgrants.mem ro hmem hne
      exact hstays.tree.apart hsr hrs hx

/-- What is done of a request, to any point. -/
theorem isolated_route {resp : FsProg Response} (hroots : srv.Rooted)
    (htemp : q.Spools → srv.TempApart)
    (h : Prog.RunsIn (disk srv.tempDir) w (srv.route q) w' resp) : Isolated srv q w w' :=
  h.rel (P := srv.Permits q) (T := Isolated srv q) (.refl srv q) (fun _ _ _ => .trans)
    (fun _ _ _ _ he h => isolated_step hroots htemp h he) (does_route hroots.absolute q)

end Isolation

/-- Requests one after the other; any of them may be cut off. -/
inductive Serves (srv : Server) : World → List Request → World → Prop
  | nil (w : World) : Serves srv w [] w
  | cons {w w₁ w' : World} {q : Request} {qs : List Request} {p : FsProg Response}
      (h : Prog.RunsIn (disk srv.tempDir) w (srv.route q) w₁ p) (hs : Serves srv w₁ qs w') :
      Serves srv w (q :: qs) w'

/-- No sequence of requests changes what is in a read-only scope. -/
theorem Serves.readOnly {srv : Server} (hroots : srv.Rooted) {w w' : World} {qs : List Request}
    (htemp : ∀ q ∈ qs, q.Spools → srv.TempApart) (h : Serves srv w qs w') {sc : Scope}
    (hsc : sc ∈ srv.scopes) (hro : sc.readOnly = true) {x : Loc} (hx : sc.loc <+: x) :
    w'.tree x = w.tree x := by
  induction h with
  | nil w => rfl
  | cons h _ ih =>
      obtain ⟨hq, hqs⟩ := List.forall_mem_cons.mp htemp
      exact (ih hqs).trans ((isolated_route hroots hq h).readOnly sc hsc hro x hx)

/-- The query of an upload has no `params`. -/
def Request.ParamsInBody (q : Request) : Prop :=
  q.opName = some .fileUpload → q.query.lookup "params".toList = none

/-- A query without `params` leaves the scope to the body. -/
theorem Request.ParamsInBody.named {q : Request} (h : q.ParamsInBody) :
    q.scopeIn q.query = q.named := by
  unfold Request.named Request.scopeIn
  split
  · next hop =>
      have hvalue (values : List (List Char × List UInt8)) :
          formValue q.query values "params".toList = formValue [] values "params".toList := by
        rw [formValue, formValue, List.lookup_append, h hop, Option.none_or, List.nil_append]
      simp only [hvalue]
  · rfl

/-- The scope at whose root or under it the place is, is the one the
credential is bound to and the body names. -/
def Server.MayTouch (srv : Server) (q : Request) (x : Loc) : Prop :=
  ∃ sc ∈ srv.scopes, srv.BoundTo q sc.filesystemID ∧ q.named = some sc.filesystemID ∧ sc.loc <+: x

/-- A request that makes no temporary file and whose query does not stand in
for its body has to do with one scope only. -/
theorem Server.Reaches.mayTouch {srv : Server} {q : Request} {x : Loc} (h : srv.Reaches q x)
    (hparams : q.ParamsInBody) (hfits : ¬ q.Spools) : srv.MayTouch q x := by
  obtain ⟨sc, hgrants, hx⟩ := h.resolve_right fun hspools => hfits hspools.1
  exact ⟨sc, hgrants.mem, hgrants.bound, hparams.named ▸ hgrants.asked, hx⟩

/-! ## two scopes -/

/-- A scope to write to and one to read from. -/
def twoScopes : Server where
  scopes := [⟨"fsrw".toList, "/rw".toList, false⟩, ⟨"fsro".toList, "/ro".toList, true⟩]
  credentials := .static fun cred => if cred = ['c'] then some "fsrw".toList else none
  throttleEvery := 0
  perOpScope := none
  workingDir := none
  tempDir := "/tmp".toList

/-- Both roots are there, and empty. -/
def emptyVolumes : World where
  tree x := if x ∈ [[], ["rw".toList], ["ro".toList]] then some ⟨newEntry, none⟩ else none
  reads := []
  writeCount := 0

theorem twoScopes_rooted : twoScopes.Rooted := ⟨by decide +kernel, by decide +kernel⟩

/-- The name of a temporary file is plain. -/
theorem plain_tempName (n : Nat) : Plain ("multipart-".toList ++ (toString n).toList) := by
  have hdigits : (toString n).toList = Nat.toDigits 10 n := by simp
  have hsep : '/' ∉ Nat.toDigits 10 n := fun h =>
    absurd (Nat.isDigit_of_mem_toDigits (by decide) (by decide) h) (by decide)
  rw [hdigits]
  refine ⟨nofun, nofun, nofun, fun h => ?_⟩
  rcases List.mem_append.mp h with h | h
  · exact absurd h (by decide)
  · exact hsep h

/-- A temporary file is in the temporary directory itself. -/
theorem loc_tempPath {ss : Loc} (h : ∀ s ∈ ss, Plain s) (n : Nat) :
    loc (tempPath (fromRoot ss) n) = ss ++ ["multipart-".toList ++ (toString n).toList] := by
  have hname := plain_tempName n
  have hrel : rel ["multipart-".toList ++ (toString n).toList] =
      "multipart-".toList ++ (toString n).toList := by
    simp [rel]
  have hjoin := join_fromRoot h (fun s hs => List.mem_singleton.mp hs ▸ hname) (by simp)
  rw [hrel] at hjoin
  rw [tempPath, hjoin, loc_fromRoot (plain_concat h hname)]

theorem twoScopes_tempApart : twoScopes.TempApart := by
  rintro sc hsc hro _ ⟨n, rfl⟩
  have htmp : twoScopes.tempDir = fromRoot ["tmp".toList] := by decide +kernel
  have hplain : ∀ s ∈ ["tmp".toList], Plain s := by decide +kernel
  have hloc : sc.loc = ["ro".toList] := by
    revert sc
    decide +kernel
  rw [htmp, loc_tempPath hplain, hloc]
  exact ⟨fun h => absurd (List.cons_prefix_cons.mp h).1 (by decide),
    fun h => absurd (List.cons_prefix_cons.mp h).1 (by decide)⟩

def post (op : String) (body : String) : Request where
  method := "POST"
  path := restBase ++ op.toList
  authorization := "Bearer c".toList
  body := ⟨body.toUTF8.toList, false⟩
  query := []
  queryParses := true
  multipart := none

/-- `createFile` of `x` in the scope to write to. -/
def createRequest : Request :=
  post "createFile" "\x7b\"filesystem_id\":\"fsrw\",\"path\":\"x\"\x7d"

def queryParams : String :=
  "\x7b\"filesystem_id\":\"fsrw\",\"path\":\"x\",\"declared_size_bytes\":1\x7d"

def bodyParams : String := "\x7b\"filesystem_id\":\"fsro\",\"path\":\"x\"\x7d"

/-- An upload whose body names the one scope and whose query the other. -/
def uploadRequest : Request where
  method := "POST"
  path := restBase ++ "fileUpload".toList
  authorization := "Bearer c".toList
  body := ⟨[], false⟩
  query := [("params".toList, queryParams.toUTF8.toList)]
  queryParses := true
  multipart := some ⟨[⟨"params".toList, [], bodyParams.toUTF8.toList⟩,
    ⟨"file".toList, "f".toList, [7]⟩], true⟩

/-- The same server with its temporary files in the scope to read from. -/
def tempInScope : Server := { twoScopes with tempDir := "/ro".toList }

/-- An upload of one byte more than fits into memory. -/
def largeUpload : Request :=
  { uploadRequest with
    query := []
    multipart :=
      some ⟨[⟨"file".toList, "f".toList, List.replicate (multipartMemory + 1) 0⟩], true⟩ }

/-- A file part that does not fit makes a temporary file. -/
theorem readParts_large {tempDir : Path} {memory : Nat} {form : Form} {part : Part}
    {parts : List Part} (hname : part.name ≠ []) (hfile : part.filename ≠ [])
    (hbig : memory < part.content.length) :
    ∃ k, readParts tempDir memory none form (part :: parts) = .op .createTemp k := by
  rw [readParts, if_neg hname, if_neg hfile, if_neg (by omega)]
  exact ⟨_, rfl⟩

/-- The first effect of the large upload is the temporary file, before any
authorization. -/
theorem route_largeUpload : ∃ k, tempInScope.route largeUpload = .op .createTemp k := by
  obtain ⟨k, hk⟩ : ∃ k, readParts tempInScope.tempDir multipartMemory none ⟨[], []⟩
      [⟨"file".toList, "f".toList, List.replicate (multipartMemory + 1) 0⟩] = .op .createTemp k :=
    readParts_large (by decide) (by decide) (by simp)
  have hop : largeUpload.opName = some .fileUpload := by decide +kernel
  have hsubject : tempInScope.credentials.validate largeUpload.authorization =
      .ret (.ok "fsrw".toList) := rfl
  rw [Server.route, if_neg (by decide), if_pos hop, Server.handleFileUpload, hsubject,
    Prog.ret_bind]
  dsimp only [largeUpload]
  rw [readForm, hk]
  exact ⟨_, rfl⟩

/-- The first thing it does to the disk. -/
def spooled : World :=
  { emptyVolumes with
    tree := emptyVolumes.tree.put ["ro".toList, "multipart-0".toList] newEntry [] newEntry }

/-- It is made in the read-only scope. -/
theorem serves_largeUpload : Serves tempInScope emptyVolumes [largeUpload] spooled := by
  have htemp : loc (tempPath tempInScope.tempDir 0) = ["ro".toList, "multipart-0".toList] := by
    decide +kernel
  have hnone : emptyVolumes.tree ["ro".toList, "multipart-0".toList] = none := by decide +kernel
  have hdir : emptyVolumes.tree.IsDir ["ro".toList] := isDir_iff.mp (by decide +kernel)
  obtain ⟨k, hk⟩ := route_largeUpload
  refine .cons (p := k (.ok 0)) ?_ (.nil _)
  rw [hk]
  refine .step (.inr ⟨0, newEntry, newEntry, rfl, ?_, ?_, ?_⟩) (.refl _ _)
  · rw [htemp, hnone]
  · rw [htemp]
    exact hdir
  · rw [htemp, spooled]

/-- The disk that never fails gives a run of every request. -/
theorem evalsTo_route (w : World) (q : Request) :
    Prog.EvalsTo (disk twoScopes.tempDir) w (twoScopes.route q)
      (Prog.runIn answer w (twoScopes.route q)).1 (Prog.runIn answer w (twoScopes.route q)).2 :=
  Prog.evalsTo_runIn (disk_answer _) w _

def served (q : Request) : World := (Prog.runIn answer emptyVolumes (twoScopes.route q)).1

theorem served_create :
    (served createRequest).tree.content ["rw".toList, "x".toList] = some [] := by
  decide +kernel

theorem served_upload :
    (served uploadRequest).tree.content ["rw".toList, "x".toList] = some [7] := by
  decide +kernel

/-- **Scope isolation**: for a server whose roots are absolute and apart, no
sequence of requests changes the tree at and under the root of a read-only
scope, if the temporary files are elsewhere or every upload fits into memory;
and a request that fits into memory and whose query does not stand in for its
body changes or reads file content only at and under the root of the scope
that its credential is bound to and its body names. -/
theorem scope_isolation (srv : Server) (hroots : srv.Rooted) :
    (∀ w qs w', Serves srv w qs w' → (∀ q ∈ qs, q.Spools → srv.TempApart) →
      ∀ sc ∈ srv.scopes, sc.readOnly = true → ∀ x, sc.loc <+: x → w'.tree x = w.tree x) ∧
    ∀ w q w' rest, Prog.RunsIn (disk srv.tempDir) w (srv.route q) w' rest → q.ParamsInBody →
      ¬ q.Spools →
      (∃ new, w'.reads = new ++ w.reads ∧ ∀ x ∈ new, srv.MayTouch q x) ∧
      ∀ x, w'.tree.content x ≠ w.tree.content x → srv.MayTouch q x := by
  refine ⟨fun w qs w' h htemp sc hsc hro x hx => h.readOnly hroots htemp hsc hro hx, ?_⟩
  intro w q w' rest h hparams hfits
  have hisolated := isolated_route hroots (fun hspools => absurd hspools hfits) h
  obtain ⟨new, hnew, hreads⟩ := hisolated.reads
  exact ⟨⟨new, hnew, fun x hx => (hreads x hx).mayTouch hparams hfits⟩,
    fun x hx => (hisolated.content x hx).mayTouch hparams hfits⟩

/-- A file is created in the one scope, and the other stays as it is. -/
theorem scope_isolation_create :
    (served createRequest).tree.content ["rw".toList, "x".toList] ≠
        emptyVolumes.tree.content ["rw".toList, "x".toList] ∧
      twoScopes.MayTouch createRequest ["rw".toList, "x".toList] ∧
      (served createRequest).tree ["ro".toList] = emptyVolumes.tree ["ro".toList] := by
  obtain ⟨hreadOnly, htouch⟩ := scope_isolation twoScopes twoScopes_rooted
  have hfits : ¬ createRequest.Spools := fun h => absurd h.1 (by decide +kernel)
  have hrun := evalsTo_route emptyVolumes createRequest
  have hchanged : (served createRequest).tree.content ["rw".toList, "x".toList] ≠
      emptyVolumes.tree.content ["rw".toList, "x".toList] := by
    rw [served_create]
    decide +kernel
  refine ⟨hchanged,
    (htouch _ _ _ _ hrun (fun h => absurd h (by decide +kernel)) hfits).2 _ hchanged, ?_⟩
  exact hreadOnly _ [createRequest] _ (.cons hrun (.nil _)) (fun _ _ _ => twoScopes_tempApart)
    ⟨"fsro".toList, "/ro".toList, true⟩ (by decide) rfl _ (by decide +kernel)

/-- The `params` of the query come before those of the body: an upload whose
body names another scope than its credential is bound to changes a file.  And
with the temporary directory in a read-only scope, a large upload writes
there. -/
theorem query_stands_in_for_body :
    (twoScopes.Rooted ∧ Serves twoScopes emptyVolumes [uploadRequest] (served uploadRequest) ∧
      uploadRequest.named = some "fsro".toList ∧
      ∃ x, (served uploadRequest).tree.content x ≠ emptyVolumes.tree.content x ∧
        ¬ twoScopes.MayTouch uploadRequest x) ∧
    tempInScope.Rooted ∧ Serves tempInScope emptyVolumes [largeUpload] spooled ∧
      ∃ sc ∈ tempInScope.scopes, sc.readOnly = true ∧
        ∃ x, sc.loc <+: x ∧ spooled.tree x ≠ emptyVolumes.tree x := by
  have hnamed : uploadRequest.named = some "fsro".toList := by decide +kernel
  refine ⟨⟨twoScopes_rooted, .cons (evalsTo_route _ _) (.nil _), hnamed,
    ["rw".toList, "x".toList], ?_, ?_⟩, ⟨twoScopes_rooted.absolute, twoScopes_rooted.apart⟩,
    serves_largeUpload, ⟨"fsro".toList, "/ro".toList, true⟩, by decide, rfl,
    ["ro".toList, "multipart-0".toList], by decide +kernel, ?_⟩
  · rw [served_upload]
    decide +kernel
  · rintro ⟨sc, -, ⟨now, hbound⟩, hsc, -⟩
    have hsubject : twoScopes.credentials.subject now uploadRequest.authorization =
        .ok "fsrw".toList := rfl
    have hid : sc.filesystemID = "fsrw".toList := Except.ok.inj (hbound.symm.trans hsubject)
    rw [hnamed, hid] at hsc
    exact absurd hsc (by decide)
  · decide +kernel

end OcuFilestore.Peer
