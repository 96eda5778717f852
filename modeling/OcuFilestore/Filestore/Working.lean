import OcuFilestore.Filestore.Handles
import OcuFilestore.Lib.FileVolume

/-!
# OcuFilestore.Filestore.Working

The filestore peer on a disk that works.  `fault` says what a file system
objects to in an operation; a working disk fails in these cases, changes
nothing then, and does what it is asked in all others.

For every effect of a request there is a rule of total correctness: what has
to be shown of the program that goes on, in terms of the volume the disk
holds.
-/

namespace OcuFilestore.Peer

open SlashPath
open Prog (Meets Answerable)

abbrev Vol : Type := FileVolume (List Char) UInt8

/-! ## faults -/

section Faults

open Classical

/-- The error for what is not there: a file on the way to it is not a
directory. -/
noncomputable def absence (V : Vol) (x : Loc) : ErrKind :=
  if V.Clear x then .notExist else .other

/-- What keeps something from being moved.  Go looks at the source first, and
for a directory at the destination. -/
noncomputable def moveFault (V : Vol) (x y : Loc) : Option ErrKind :=
  if V.node x = none then some (absence V x)
  else if V.IsDir y then some .exist
  else if V.Movable x y ∧ (V.IsDir x → V.node y = none) then none
  else if V.IsDir y.dropLast then some .other
  else some (absence V y)

/-- What is wrong with an operation.  The root of the disk can neither be
removed nor moved.  Names that no disk takes (with a NUL, or longer than
`NAME_MAX`) are left out: a directory under such a name is not made, although
those above it are. -/
noncomputable def fault (tempDir : Path) (V : Vol) : Eff → Option ErrKind
  | .stat p | .openFile p => if V.node (loc p) = none then some (absence V (loc p)) else none
  | .mkdirAll p => if V.Clear (loc p) then none else some .other
  | .create p =>
      if V.IsDir (loc p) then some .other
      else if V.IsDir (loc p).dropLast then none
      else some (absence V (loc p))
  | .read p _ _ => if V.IsDir (loc p) then some .other else none
  | .readDir p =>
      if V.IsDir (loc p) then none
      else if V.node (loc p) = none then some (absence V (loc p))
      else some .other
  | .remove p =>
      if V.node (loc p) = none then some (absence V (loc p))
      else if V.Occupied (loc p) then some .exist
      else if loc p = [] then some .other
      else none
  | .removeAll p => if V.Clear (loc p).dropLast ∧ loc p ≠ [] then none else some .other
  | .rename src dst => moveFault V (loc src) (loc dst)
  | .createTemp => if V.IsDir (loc tempDir) then none else some (absence V (loc tempDir))
  | .now | .allow | .countWrite | .write _ _ | .close _ | .seek _ _ | .walk _ => none

end Faults

/-- The error of an answer. -/
def Eff.error : (e : Eff) → e.Reply → Option OSErr
  | .now, _ | .allow, _ | .countWrite, _ | .walk _, _ => none
  | .write _ _, r => r.2
  | .read _ _ _, r => r.2
  | .stat _, .error e => some e
  | .stat _, .ok _ => none
  | .readDir _, .error e => some e
  | .readDir _, .ok _ => none
  | .createTemp, .error e => some e
  | .createTemp, .ok _ => none
  | .mkdirAll _, .error e | .create _, .error e | .close _, .error e | .openFile _, .error e
  | .seek _ _, .error e | .remove _, .error e | .removeAll _, .error e
  | .rename _ _, .error e => some e
  | .mkdirAll _, .ok _ | .create _, .ok _ | .close _, .ok _ | .openFile _, .ok _
  | .seek _ _, .ok _ | .remove _, .ok _ | .removeAll _, .ok _ | .rename _ _, .ok _ => none

/-- The names of a directory are listed once. -/
def Once : (e : Eff) → e.Reply → Prop
  | .readDir _, .ok es => (es.map DirEntry.name).Nodup
  | _, _ => True

/-- The answers of a disk that works. -/
structure Working (tempDir : Path) (w : World) (e : Eff) (r : e.Reply) (w' : World) : Prop where
  answer : readable tempDir w e r w'
  once : Once e r
  errors : ∀ V, w.tree.Holds V →
    (e.error r).map OSErr.kind = fault tempDir V e ∧ (e.error r ≠ none → w'.tree = w.tree)

abbrev working (tempDir : Path) : Env Eff.Reply World := Working tempDir

/-! ## what a disk holds -/

/-- What is behind the peer, without entries. -/
structure Store where
  volume : Vol
  /-- The writes that were counted. -/
  writes : Int

structure Has (w : World) (s : Store) : Prop where
  tree : w.tree.Holds s.volume
  writes : w.writeCount = s.writes

/-- `os.Stat` tells what is at a place. -/
structure Tells (V : Vol) (x : Loc) (info : FileInfo) : Prop where
  isDir : info.isDir = true ↔ V.IsDir x
  size : ∀ bs, V.file x = some bs → info.size = bs.length
  short : ShortTexts info.mtime info.mode

section Holding

variable {w w' : World} {s : Store} {x : Loc} {t : Tree} {V : Vol}

/-- What `stat` says of an entry of the tree is true of the volume. -/
theorem Describes.tells {info : FileInfo} (h : Has w s) (hinfo : Describes (w.tree x) info) :
    Tells s.volume x info := by
  obtain ⟨i, content, hn, hmtime, hmode, hdir, hsize⟩ := hinfo
  have hnode : s.volume.node x = some content := by
    rw [← h.tree x, FileTree.shape, hn]
    rfl
  refine ⟨?_, fun bs hbs => hsize bs ?_, ?_⟩
  · rw [hdir, FileVolume.IsDir, hnode]
    simp
  · rw [FileVolume.file_eq_some_iff, hnode] at hbs
    exact Option.some.inj hbs
  · rw [hmtime, hmode]
    exact i.short

/-- The tree and the volume agree on what is there. -/
theorem Has.node_ne_none (h : Has w s) : s.volume.node x ≠ none ↔ w.tree x ≠ none :=
  not_congr h.tree.node_eq_none

/-- A new tree. -/
theorem Has.with_tree (h : Has w s) (ht : t.Holds V) :
    Has { w with tree := t } { s with volume := V } :=
  ⟨ht, h.writes⟩

/-- Only writes are counted. -/
theorem writeCount_of_disk {tempDir : Path} {e : Eff} {r : e.Reply}
    (h : disk tempDir w e r w') (he : e ≠ .countWrite) : w'.writeCount = w.writeCount := by
  cases e with
  | countWrite => exact absurd rfl he
  | now | allow | close p | seek p start => rw [h]
  | stat p | openFile p | readDir p | walk p => rw [h.1]
  | read p start length => rw [h.1]
  | mkdirAll p =>
      obtain ⟨rfl, -⟩ | ⟨x, i, -, -, -, rfl⟩ := h <;> rfl
  | create p =>
      obtain ⟨rfl, -⟩ | ⟨-, -, -, i, above, rfl⟩ := h <;> rfl
  | write p bs =>
      obtain ⟨-, -, t, -, rfl⟩ := h
      rfl
  | remove p =>
      obtain ⟨rfl, -⟩ | ⟨-, -, -, above, rfl⟩ := h <;> rfl
  | removeAll p =>
      obtain ⟨rfl, -⟩ | ⟨kept, above, -, rfl⟩ := h <;> rfl
  | rename src dst =>
      obtain ⟨rfl, -⟩ | ⟨-, -, -, -, -, i, j, rfl⟩ := h <;> rfl
  | createTemp =>
      obtain ⟨rfl, -⟩ | ⟨n, i, above, -, -, -, rfl⟩ := h <;> rfl

end Holding

/-! ## how an effect ends -/

section Answers

variable {tempDir : Path} {w w' : World} {s : Store} {e : Eff} {r : e.Reply}

/-- An error of a kind. -/
def errorOf (k : ErrKind) : OSErr := ⟨k, []⟩

/-- An operation with something wrong is answered by the error of it. -/
theorem answerable_of_fault {k : ErrKind} (h : Has w s)
    (hfault : fault tempDir s.volume e = some k) (hr : e.error r = some (errorOf k))
    (hread : readable tempDir w e r w) (honce : Once e r) : Answerable (working tempDir) w e := by
  refine ⟨r, w, hread, honce, fun V hV => ?_⟩
  obtain rfl : V = s.volume := FileVolume.ext fun x => (hV x).symm.trans (h.tree x)
  exact ⟨by rw [hr, hfault]; rfl, fun _ => rfl⟩

/-- An operation with nothing wrong is answered, and succeeds. -/
theorem answerable_of_ok (h : Has w s) (hfault : fault tempDir s.volume e = none)
    (hr : e.error r = none) (hread : readable tempDir w e r w') (honce : Once e r) :
    Answerable (working tempDir) w e := by
  refine ⟨r, w', hread, honce, fun V hV => ?_⟩
  obtain rfl : V = s.volume := FileVolume.ext fun x => (hV x).symm.trans (h.tree x)
  exact ⟨by rw [hr, hfault]; rfl, fun hne => absurd hr hne⟩

/-- An effect succeeds, or fails for a reason and changes nothing. -/
theorem Working.cases (h : Has w s) (hw : Working tempDir w e r w') :
    (fault tempDir s.volume e = none ∧ e.error r = none) ∨
      ∃ err, e.error r = some err ∧ fault tempDir s.volume e = some err.kind ∧ Has w' s := by
  obtain ⟨hfault, hsame⟩ := hw.errors s.volume h.tree
  cases hr : e.error r with
  | none => exact .inl ⟨by rw [← hfault, hr]; rfl, rfl⟩
  | some err =>
      refine .inr ⟨err, rfl, by rw [← hfault, hr]; rfl, ?_, ?_⟩
      · rw [hsame (by simp [hr])]
        exact h.tree
      · rw [writeCount_of_disk hw.answer.1, h.writes]
        rintro rfl
        cases hr

end Answers

/-! ## rules -/

section Rules

variable {tempDir : Path} {w : World} {s : Store} {α : Type} {Q : World → α → Prop} {p : Path}
  {x y : Loc}

/-- A rename that succeeds has something to move and somewhere to move it to.
-/
theorem movable_of_moveFault {V : Vol} {x y : Loc} (h : moveFault V x y = none) :
    V.Movable x y := by
  unfold moveFault at h
  split at h
  · cases h
  · split at h
    · cases h
    · split at h
      · next hm => exact hm.1
      · split at h <;> cases h

/-- There is a name for another temporary file. -/
theorem exists_fresh (h : Has w s) (ts : Loc) :
    ∃ n : Nat, w.tree (ts ++ ["multipart-".toList ++ (toString n).toList]) = none := by
  by_contra hall
  have hinj : Function.Injective fun n : Nat =>
      ts ++ ["multipart-".toList ++ (toString n).toList] := by
    intro m n hmn
    have hdigits : Nat.toDigits 10 m = Nat.toDigits 10 n := by
      rw [← Nat.toList_repr, ← Nat.toList_repr]
      simpa using hmn
    have hval := congrArg (Nat.ofDigitChars 10 · 0) hdigits
    rwa [Nat.ofDigitChars_toDigits (by decide) (by decide),
      Nat.ofDigitChars_toDigits (by decide) (by decide)] at hval
  refine (Set.infinite_range_of_injective hinj) (h.tree.finite.subset ?_)
  rintro _ ⟨n, rfl⟩
  exact fun hnone => hall ⟨n, hnone⟩

/-- `os.Stat` of what is there, and of what is not. -/
theorem meets_stat (hx : loc p = x) (h : Has w s) {k : Except OSErr FileInfo → FsProg α}
    (hok : ∀ info, s.volume.node x ≠ none → Tells s.volume x info →
      Meets (working tempDir) Q w (k (.ok info)))
    (herr : ∀ e, s.volume.node x = none → e.kind = absence s.volume x →
      Meets (working tempDir) Q w (k (.error e))) :
    Meets (working tempDir) Q w (.perform (.stat p) >>= k) := by
  subst hx
  refine Prog.meets_perform_bind ?_ fun r w' hw => ?_
  · cases hn : w.tree (loc p) with
    | none =>
        have hnode := h.tree.node_eq_none.mpr hn
        exact answerable_of_fault h (if_pos hnode) (r := .error (errorOf _)) rfl
          ⟨⟨rfl, nofun⟩, fun _ => hn⟩ trivial
    | some n =>
        have hnode : s.volume.node (loc p) ≠ none := h.node_ne_none.mpr (by simp [hn])
        refine answerable_of_ok h (if_neg hnode) (r := .ok (fileInfo n)) rfl
          ⟨⟨rfl, ?_⟩, nofun⟩ trivial
        rintro _ ⟨⟩
        exact hn ▸ describes_fileInfo n
  · obtain rfl := hw.answer.1.1
    cases r with
    | ok info =>
        have hinfo := hw.answer.1.2 info rfl
        refine hok info (h.node_ne_none.mpr ?_) (hinfo.tells h)
        obtain ⟨i, content, hn, -⟩ := hinfo
        simp [hn]
    | error e =>
        obtain ⟨-, hnone⟩ | ⟨err, herr', hfault, -⟩ := hw.cases h
        · cases hnone
        · cases herr'
          have hnode := h.tree.node_eq_none.mpr (hw.answer.2 ⟨e, rfl⟩)
          rw [fault, if_pos hnode] at hfault
          exact herr e hnode (Option.some.inj hfault).symm

/-- Opening to read: a directory can be opened too. -/
theorem meets_openFile (hx : loc p = x) (h : Has w s) {k : Except OSErr Unit → FsProg α}
    (hok : s.volume.node x ≠ none → Meets (working tempDir) Q w (k (.ok ())))
    (herr : ∀ e, s.volume.node x = none → e.kind = absence s.volume x →
      Meets (working tempDir) Q w (k (.error e))) :
    Meets (working tempDir) Q w (.perform (.openFile p) >>= k) := by
  subst hx
  refine Prog.meets_perform_bind ?_ fun r w' hw => ?_
  · by_cases hn : w.tree (loc p) = none
    · have hnode := h.tree.node_eq_none.mpr hn
      exact answerable_of_fault h (if_pos hnode) (r := .error (errorOf _)) rfl
        ⟨⟨rfl, nofun⟩, fun _ => hn⟩ trivial
    · exact answerable_of_ok h (if_neg (h.node_ne_none.mpr hn)) (r := .ok ()) rfl
        ⟨⟨rfl, fun _ => hn⟩, nofun⟩ trivial
  · obtain rfl := hw.answer.1.1
    cases r with
    | ok _ => exact hok (h.node_ne_none.mpr (hw.answer.1.2 rfl))
    | error e =>
        obtain ⟨-, hnone⟩ | ⟨err, herr', hfault, -⟩ := hw.cases h
        · cases hnone
        · cases herr'
          have hnode := h.tree.node_eq_none.mpr (hw.answer.2 ⟨e, rfl⟩)
          rw [fault, if_pos hnode] at hfault
          exact herr e hnode (Option.some.inj hfault).symm

/-- `os.MkdirAll` fails only at a file on the way, and then makes nothing. -/
theorem meets_mkdirAll (hx : loc p = x) (h : Has w s) {k : Except OSErr Unit → FsProg α}
    (hok : ∀ w' (hc : s.volume.Clear x),
      Has w' { s with volume := s.volume.mkdirs x hc } →
      Meets (working tempDir) Q w' (k (.ok ())))
    (herr : ∀ w' e, ¬ s.volume.Clear x → e.kind = .other → Has w' s →
      Meets (working tempDir) Q w' (k (.error e))) :
    Meets (working tempDir) Q w (.perform (.mkdirAll p) >>= k) := by
  subst hx
  refine Prog.meets_perform_bind ?_ fun r w' hw => ?_
  · by_cases hc : s.volume.Clear (loc p)
    · exact answerable_of_ok h (if_pos hc) (r := .ok ()) rfl
        ⟨.inr ⟨_, fun _ => newEntry, List.prefix_refl _, h.tree.clear.mp hc, fun _ => rfl, rfl⟩,
          trivial⟩ trivial
    · exact answerable_of_fault h (if_neg hc) (r := .error (errorOf _)) rfl
        ⟨.inl ⟨rfl, _, rfl⟩, trivial⟩ trivial
  · obtain ⟨hfault, hr⟩ | ⟨err, hr, hfault, hhas⟩ := hw.cases h
    · have hc : s.volume.Clear (loc p) := by
        by_contra hc
        rw [fault, if_neg hc] at hfault
        cases hfault
      cases r with
      | error e => cases hr
      | ok _ =>
          obtain ⟨-, e, he⟩ | ⟨x, i, -, -, hx, rfl⟩ := hw.answer.1
          · cases he
          · obtain rfl := hx rfl
            exact hok _ hc (h.with_tree (h.tree.mkdirs hc i))
    · rw [fault] at hfault
      split at hfault
      · cases hfault
      · next hc =>
          cases r with
          | ok _ => cases hr
          | error e =>
              obtain rfl : e = err := Option.some.inj hr
              exact herr w' e hc (Option.some.inj hfault).symm hhas

/-- Opening for writing, in a directory that is there. -/
theorem meets_create (hx : loc p = x) (h : Has w s) (hparent : s.volume.IsDir x.dropLast)
    {k : Except OSErr Unit → FsProg α}
    (hok : ∀ w' (hf : s.volume.Free x),
      Has w' { s with volume := s.volume.put x [] hf } →
      Meets (working tempDir) Q w' (k (.ok ())))
    (herr : ∀ w' e, s.volume.IsDir x → e.kind = .other → Has w' s →
      Meets (working tempDir) Q w' (k (.error e))) :
    Meets (working tempDir) Q w (.perform (.create p) >>= k) := by
  subst hx
  refine Prog.meets_perform_bind ?_ fun r w' hw => ?_
  · by_cases hdir : s.volume.IsDir (loc p)
    · exact answerable_of_fault h (if_pos hdir) (r := .error (errorOf _)) rfl
        ⟨.inl ⟨rfl, _, rfl⟩, trivial⟩ trivial
    · refine answerable_of_ok h ?_ (r := .ok ()) rfl
        ⟨.inr ⟨rfl, h.tree.isDir.mp hparent, mt h.tree.isDir.mpr hdir, newEntry, newEntry, rfl⟩,
          trivial⟩ trivial
      rw [fault, if_neg hdir, if_pos hparent]
  · obtain ⟨hfault, hr⟩ | ⟨err, hr, hfault, hhas⟩ := hw.cases h
    · cases r with
      | error e => cases hr
      | ok _ =>
          obtain ⟨-, e, he⟩ | ⟨-, -, hdir, i, above, rfl⟩ := hw.answer.1
          · cases he
          · have hf : s.volume.Free (loc p) :=
              ⟨FileVolume.clear_of_isDir hparent, mt h.tree.isDir.mp hdir⟩
            exact hok _ hf (h.with_tree (h.tree.put hf hparent i above))
    · rw [fault, if_pos hparent] at hfault
      split at hfault
      · next hdir =>
          cases r with
          | ok _ => cases hr
          | error e =>
              obtain rfl : e = err := Option.some.inj hr
              exact herr w' e hdir (Option.some.inj hfault).symm hhas
      · cases hfault

/-- Writing to a file that is there. -/
theorem meets_write (hx : loc p = x) (h : Has w s) {old : List UInt8}
    (hfile : s.volume.file x = some old) (bs : List UInt8) {k : Nat × Option OSErr → FsProg α}
    (hok : ∀ w', Has w' { s with
        volume := s.volume.put x (old ++ bs) (FileVolume.free_of_file hfile) } →
      Meets (working tempDir) Q w' (k (bs.length, none))) :
    Meets (working tempDir) Q w (.perform (.write p bs) >>= k) := by
  subst hx
  have hcontent : w.tree.content (loc p) = some old := h.tree.content.trans hfile
  refine Prog.meets_perform_bind ?_ fun r w' hw => ?_
  · have happ := appends_store hcontent newEntry bs
    rw [← List.take_length (l := bs)] at happ
    exact answerable_of_ok h rfl (r := (bs.length, none)) rfl
      ⟨⟨Nat.le_refl _, fun _ => rfl, _, happ, rfl⟩, trivial⟩ trivial
  · obtain ⟨-, hr⟩ | ⟨err, -, hfault, -⟩ := hw.cases h
    · obtain ⟨n, writeErr⟩ := r
      obtain rfl : writeErr = none := hr
      obtain ⟨-, hlen, t, happ, rfl⟩ := hw.answer.1
      obtain rfl : n = bs.length := hlen rfl
      rw [Appends, hcontent, List.take_length] at happ
      obtain ⟨i, rfl⟩ := happ
      exact hok _ (h.with_tree (h.tree.store hfile i _))
    · cases hfault

/-- Closing always succeeds on a disk that works. -/
theorem meets_close (h : Has w s) {k : Except OSErr Unit → FsProg α}
    (hok : Meets (working tempDir) Q w (k (.ok ()))) :
    Meets (working tempDir) Q w (.perform (.close p) >>= k) := by
  refine Prog.meets_perform_bind ?_ fun r w' hw => ?_
  · exact answerable_of_ok h rfl (r := .ok ()) rfl ⟨rfl, trivial⟩ trivial
  · obtain rfl := hw.answer.1
    obtain ⟨-, hr⟩ | ⟨err, -, hfault, -⟩ := hw.cases h
    · cases r with
      | ok _ => exact hok
      | error e => cases hr
    · cases hfault

/-- Seeking always succeeds on a disk that works. -/
theorem meets_seek (h : Has w s) {start : Int} {k : Except OSErr Unit → FsProg α}
    (hok : Meets (working tempDir) Q w (k (.ok ()))) :
    Meets (working tempDir) Q w (.perform (.seek p start) >>= k) := by
  refine Prog.meets_perform_bind ?_ fun r w' hw => ?_
  · exact answerable_of_ok h rfl (r := .ok ()) rfl ⟨rfl, rfl⟩ trivial
  · obtain rfl := hw.answer.1
    obtain rfl : r = .ok () := hw.answer.2
    exact hok

/-- Reading a file; a directory can be opened, but not read. -/
theorem meets_read (hx : loc p = x) (h : Has w s) {start : Nat} {length : Option Nat}
    {k : List UInt8 × Option OSErr → FsProg α}
    (hok : ∀ w' bs, s.volume.file x = some bs → Has w' s →
      Meets (working tempDir) Q w' (k (window bs start length, none)))
    (hdir : ∀ w' e, s.volume.IsDir x → e.kind = .other → Has w' s →
      Meets (working tempDir) Q w' (k ([], some e))) (hsome : s.volume.node x ≠ none) :
    Meets (working tempDir) Q w (.perform (.read p start length) >>= k) := by
  subst hx
  have hwindow : window [] start length = [] := by cases length <;> simp [window]
  refine Prog.meets_perform_bind ?_ fun r w' hw => ?_
  · by_cases hd : s.volume.IsDir (loc p)
    · have hnone : w.tree.content (loc p) = none :=
        h.tree.content.trans (FileVolume.file_of_isDir hd)
      exact ⟨([], some (errorOf .other)), { w with reads := loc p :: w.reads },
        ⟨⟨rfl, List.nil_prefix, fun h => (by cases h)⟩, fun hne => absurd hnone hne⟩, trivial,
        fun V hV => by
          obtain rfl : V = s.volume := FileVolume.ext fun x => (hV x).symm.trans (h.tree x)
          exact ⟨by rw [fault, if_pos hd]; rfl, fun _ => rfl⟩⟩
    · exact answerable_of_ok h (if_neg hd)
        (r := (window ((w.tree.content (loc p)).getD []) start length, none)) rfl
        ⟨⟨rfl, List.prefix_refl _, fun _ => rfl⟩, fun _ => rfl⟩ trivial
  · obtain ⟨bytes, readErr⟩ := r
    obtain ⟨rfl, hpre, hall⟩ := hw.answer.1
    rw [h.tree.content] at hpre hall
    obtain ⟨hfault, hr⟩ | ⟨err, hr, hfault, -⟩ := hw.cases h
    · obtain rfl : readErr = none := hr
      have hnot : ¬ s.volume.IsDir (loc p) := by
        intro hd
        rw [fault, if_pos hd] at hfault
        cases hfault
      cases hfile : s.volume.file (loc p) with
      | none => exact absurd (FileVolume.isDir_of_file_eq_none hsome hfile) hnot
      | some bs =>
          rw [hfile] at hall
          obtain rfl : bytes = window bs start length := hall rfl
          exact hok _ bs hfile ⟨h.tree, h.writes⟩
    · obtain rfl : readErr = some err := hr
      rw [fault] at hfault
      split at hfault
      · next hd =>
          rw [FileVolume.file_of_isDir hd, Option.getD_none, hwindow] at hpre
          obtain rfl : bytes = [] := List.prefix_nil.mp hpre
          exact hdir _ err hd (Option.some.inj hfault).symm ⟨h.tree, h.writes⟩
      · cases hfault

/-- What a directory has, and what its entries tell. -/
structure Lists (V : Vol) (x : Loc) (es : List DirEntry) : Prop where
  once : (es.map DirEntry.name).Nodup
  all : ∀ name, V.node (x ++ [name]) ≠ none ↔ ∃ e ∈ es, e.name = name
  entry : ∀ e ∈ es, ∃ info, e.info = .ok info ∧ info.isDir = e.isDir ∧
    Tells V (x ++ [e.name]) info

/-- The entries of a directory that is there. -/
theorem exists_entries (h : Has w s) (x : Loc) : ∃ es : List DirEntry,
    (es.map DirEntry.name).Nodup ∧
      (∀ name, w.tree (x ++ [name]) ≠ none → ∃ e ∈ es, e.name = name) ∧
      ∀ e ∈ es, ∃ n, w.tree (x ++ [e.name]) = some n ∧ e.isDir = n.content.isNone ∧
        e.info = .ok (fileInfo n) := by
  have hfinite : {name | w.tree (x ++ [name]) ≠ none}.Finite :=
    h.tree.finite.preimage fun a _ b _ hab => by simpa using hab
  have hname (name : List Char) : (entryAt w.tree x name).name = name := by
    unfold entryAt
    split <;> rfl
  refine ⟨hfinite.toFinset.toList.map (entryAt w.tree x), ?_, fun name hsome => ?_, fun e he => ?_⟩
  · have hid : DirEntry.name ∘ entryAt w.tree x = id := funext hname
    rw [List.map_map, hid, List.map_id]
    exact Finset.nodup_toList _
  · exact ⟨_, List.mem_map_of_mem (by simpa using hsome), hname name⟩
  · obtain ⟨name, hmem, rfl⟩ := List.mem_map.mp he
    have hsome : w.tree (x ++ [name]) ≠ none := by simpa using hmem
    obtain ⟨n, hn⟩ := Option.ne_none_iff_exists'.mp hsome
    have hentry : entryAt w.tree x name = ⟨name, n.content.isNone, .ok (fileInfo n)⟩ := by
      rw [entryAt, hn]
    rw [hentry]
    exact ⟨n, hn, rfl, rfl⟩

/-- `os.ReadDir` gives every child once. -/
theorem meets_readDir (hx : loc p = x) (h : Has w s) {k : Except OSErr (List DirEntry) → FsProg α}
    (hok : ∀ es, s.volume.IsDir x → Lists s.volume x es →
      Meets (working tempDir) Q w (k (.ok es)))
    (herr : ∀ e, ¬ s.volume.IsDir x →
      e.kind = (if s.volume.node x = none then absence s.volume x else .other) →
      Meets (working tempDir) Q w (k (.error e))) :
    Meets (working tempDir) Q w (.perform (.readDir p) >>= k) := by
  subst hx
  refine Prog.meets_perform_bind ?_ fun r w' hw => ?_
  · by_cases hdir : s.volume.IsDir (loc p)
    · obtain ⟨es, honce, hall, hentry⟩ := exists_entries h (loc p)
      refine answerable_of_ok h (if_pos hdir) (r := .ok es) rfl ⟨⟨rfl, ?_⟩, nofun, ?_⟩ honce
      · rintro _ ⟨⟩ e he
        obtain ⟨n, hn, hisDir, -⟩ := hentry e he
        exact ⟨n, hn, hisDir⟩
      · rintro _ ⟨⟩
        refine ⟨hall, fun e he => ?_⟩
        obtain ⟨n, hn, -, hinfo⟩ := hentry e he
        exact ⟨_, hinfo, hn ▸ describes_fileInfo n⟩
    · have hnot : ¬ w.tree.IsDir (loc p) := mt h.tree.isDir.mpr hdir
      obtain ⟨kind, hkind⟩ : ∃ kind, fault tempDir s.volume (.readDir p) = some kind := by
        rw [fault, if_neg hdir]
        split <;> exact ⟨_, rfl⟩
      exact answerable_of_fault h hkind (r := .error (errorOf kind)) rfl
        ⟨⟨rfl, nofun⟩, fun _ => hnot, nofun⟩ trivial
  · obtain rfl := hw.answer.1.1
    obtain ⟨hfault, hr⟩ | ⟨err, hr, hfault, -⟩ := hw.cases h
    · have hdir : s.volume.IsDir (loc p) := by
        by_contra hdir
        rw [fault, if_neg hdir] at hfault
        split at hfault <;> cases hfault
      cases r with
      | error e => cases hr
      | ok es =>
          obtain ⟨hall, hinfo⟩ := hw.answer.2.2 es rfl
          refine hok es hdir ⟨hw.once, fun name => ⟨fun hname => ?_, ?_⟩, fun e he => ?_⟩
          · exact hall name (h.node_ne_none.mp hname)
          · rintro ⟨e, he, rfl⟩
            obtain ⟨n, hn, -⟩ := hw.answer.1.2 es rfl e he
            exact h.node_ne_none.mpr (by simp [hn])
          · obtain ⟨info, heq, hdesc⟩ := hinfo e he
            refine ⟨info, heq, ?_, hdesc.tells h⟩
            obtain ⟨n, hn, hisDir⟩ := hw.answer.1.2 es rfl e he
            obtain ⟨i, content, hn', -, -, hdir', -⟩ := hdesc
            cases hn.symm.trans hn'
            rw [hdir', hisDir]
    · cases r with
      | ok es => cases hr
      | error e =>
          obtain rfl : e = err := Option.some.inj hr
          rw [fault] at hfault
          split at hfault
          · cases hfault
          · next hdir =>
              refine herr e hdir ?_
              split at hfault
              · next hnone => rw [if_pos hnone, Option.some.inj hfault]
              · next hsome => rw [if_neg hsome, Option.some.inj hfault]

/-- The walk gives the relative texts of all files below. -/
theorem meets_walk (hx : loc p = x) (h : Has w s) {k : List Path → FsProg α}
    (hok : ∀ rels, (∀ rel, rel ∈ rels ↔ ∃ ss, rel = relText ss ∧
        s.volume.file (x ++ ss) ≠ none) → Meets (working tempDir) Q w (k rels)) :
    Meets (working tempDir) Q w (.perform (.walk p) >>= k) := by
  subst hx
  refine Prog.meets_perform_bind ?_ fun r w' hw => ?_
  · have hfinite : {ss | w.tree.content (loc p ++ ss) ≠ none}.Finite := by
      refine (h.tree.finite.preimage (f := (loc p ++ ·)) fun a _ b _ hab => ?_).subset
        fun ss hss => FileTree.ne_none_of_content hss
      exact List.append_cancel_left hab
    refine answerable_of_ok h rfl (r := hfinite.toFinset.toList.map relText) rfl
      ⟨⟨rfl, fun rel hrel => ?_⟩, fun ss hss => ?_⟩ trivial
    · obtain ⟨ss, hss, rfl⟩ := List.mem_map.mp hrel
      exact ⟨ss, rfl, by simpa using hss⟩
    · exact List.mem_map_of_mem (by simpa using hss)
  · obtain rfl := hw.answer.1.1
    refine hok r fun rel => ⟨fun hrel => ?_, ?_⟩
    · obtain ⟨ss, hss, hfile⟩ := hw.answer.1.2 rel hrel
      exact ⟨ss, hss, by rwa [← h.tree.content]⟩
    · rintro ⟨ss, rfl, hfile⟩
      exact hw.answer.2 ss (by rwa [h.tree.content])

/-- `os.Remove`: a directory goes only when it is empty. -/
theorem meets_remove (hx : loc p = x) (h : Has w s) (hne : x ≠ [])
    {k : Except OSErr Unit → FsProg α}
    (hok : ∀ w', s.volume.node x ≠ none → ¬ s.volume.Occupied x →
      Has w' { s with volume := s.volume.cut x hne } →
      Meets (working tempDir) Q w' (k (.ok ())))
    (hnone : ∀ w' e, s.volume.node x = none → e.kind = absence s.volume x → Has w' s →
      Meets (working tempDir) Q w' (k (.error e)))
    (hfull : ∀ w' e, s.volume.Occupied x → e.kind = .exist → Has w' s →
      Meets (working tempDir) Q w' (k (.error e))) :
    Meets (working tempDir) Q w (.perform (.remove p) >>= k) := by
  subst hx
  refine Prog.meets_perform_bind ?_ fun r w' hw => ?_
  · by_cases hn : s.volume.node (loc p) = none
    · exact answerable_of_fault h (if_pos hn) (r := .error (errorOf _)) rfl
        ⟨.inl ⟨rfl, _, rfl⟩, trivial⟩ trivial
    · by_cases hfull' : s.volume.Occupied (loc p)
      · refine answerable_of_fault h (k := .exist) ?_ (r := .error (errorOf _)) rfl
          ⟨.inl ⟨rfl, _, rfl⟩, trivial⟩ trivial
        rw [fault, if_neg hn, if_pos hfull']
      · refine answerable_of_ok h ?_ (r := .ok ()) rfl
          ⟨.inr ⟨rfl, h.node_ne_none.mp hn, ?_, newEntry, rfl⟩, trivial⟩ trivial
        · rw [fault, if_neg hn, if_neg hfull', if_neg hne]
        · intro x hx hxne
          by_contra hsome
          obtain ⟨ss, rfl⟩ := hx
          cases ss with
          | nil => exact hxne (List.append_nil _)
          | cons name ss =>
              refine hfull' ⟨name, h.node_ne_none.mpr fun hnone => ?_⟩
              have hbelow := h.tree.wellFormed.below (x := loc p ++ [name])
                (by simp [FileTree.IsDir, hnone]) (y := loc p ++ name :: ss) (by simp)
              by_cases hss : ss = []
              · exact hsome (by rw [hss, hnone])
              · exact hsome (hbelow (by simpa using hss))
  · obtain ⟨hfault, hr⟩ | ⟨err, hr, hfault, hhas⟩ := hw.cases h
    · cases r with
      | error e => cases hr
      | ok _ =>
          rw [fault] at hfault
          split at hfault
          · cases hfault
          · next hn =>
              split at hfault
              · cases hfault
              · next hempty =>
                  obtain ⟨-, e, he⟩ | ⟨-, -, -, above, rfl⟩ := hw.answer.1
                  · cases he
                  · exact hok _ hn hempty (h.with_tree (h.tree.cut hne above))
    · cases r with
      | ok _ => cases hr
      | error e =>
          obtain rfl : e = err := Option.some.inj hr
          rw [fault] at hfault
          split at hfault
          · next hn => exact hnone w' e hn (Option.some.inj hfault).symm hhas
          · split at hfault
            · next hfull' => exact hfull w' e hfull' (Option.some.inj hfault).symm hhas
            · cases hfault

/-- `os.RemoveAll` fails only below a file, and succeeds where nothing is. -/
theorem meets_removeAll (hx : loc p = x) (h : Has w s) (hne : x ≠ [])
    {k : Except OSErr Unit → FsProg α}
    (hok : ∀ w', s.volume.Clear x.dropLast →
      Has w' { s with volume := s.volume.cut x hne } →
      Meets (working tempDir) Q w' (k (.ok ())))
    (herr : ∀ w' e, ¬ s.volume.Clear x.dropLast → e.kind = .other → Has w' s →
      Meets (working tempDir) Q w' (k (.error e))) :
    Meets (working tempDir) Q w (.perform (.removeAll p) >>= k) := by
  subst hx
  refine Prog.meets_perform_bind ?_ fun r w' hw => ?_
  · by_cases hc : s.volume.Clear (loc p).dropLast
    · exact answerable_of_ok h (if_pos ⟨hc, hne⟩) (r := .ok ()) rfl
        ⟨.inr ⟨_, newEntry, fun _ => rfl, rfl⟩, trivial⟩ trivial
    · exact answerable_of_fault h (if_neg fun hand => hc hand.1) (r := .error (errorOf _)) rfl
        ⟨.inl ⟨rfl, _, rfl⟩, trivial⟩ trivial
  · obtain ⟨hfault, hr⟩ | ⟨err, hr, hfault, hhas⟩ := hw.cases h
    · cases r with
      | error e => cases hr
      | ok _ =>
          rw [fault] at hfault
          split at hfault
          · next hc =>
              obtain ⟨-, e, he⟩ | ⟨kept, above, hkept, rfl⟩ := hw.answer.1
              · cases he
              · obtain rfl := hkept rfl
                exact hok _ hc.1 (h.with_tree (h.tree.cut hne above))
          · cases hfault
    · cases r with
      | ok _ => cases hr
      | error e =>
          obtain rfl : e = err := Option.some.inj hr
          rw [fault] at hfault
          split at hfault
          · cases hfault
          · next hc =>
              exact herr w' e (fun h => hc ⟨h, hne⟩) (Option.some.inj hfault).symm hhas

/-- Moving, whatever is at both ends. -/
theorem meets_rename {src dst : Path} (hx : loc src = x) (hy : loc dst = y) (h : Has w s)
    {k : Except OSErr Unit → FsProg α}
    (hok : ∀ w' (hm : s.volume.Movable x y),
      moveFault s.volume x y = none →
      Has w' { s with volume := s.volume.moved x y hm } →
      Meets (working tempDir) Q w' (k (.ok ())))
    (herr : ∀ w' e, moveFault s.volume x y = some e.kind → Has w' s →
      Meets (working tempDir) Q w' (k (.error e))) :
    Meets (working tempDir) Q w (.perform (.rename src dst) >>= k) := by
  subst hx hy
  refine Prog.meets_perform_bind ?_ fun r w' hw => ?_
  · cases hfault : moveFault s.volume (loc src) (loc dst) with
    | some kind =>
        exact answerable_of_fault h hfault (r := .error (errorOf kind)) rfl
          ⟨.inl ⟨rfl, _, rfl⟩, trivial⟩ trivial
    | none =>
        have hm := movable_of_moveFault hfault
        exact answerable_of_ok h hfault (r := .ok ()) rfl
          ⟨.inr ⟨rfl, h.node_ne_none.mp hm.source, h.tree.isDir.mp hm.parent,
            mt h.tree.isDir.mpr hm.notDir, hm.apart, newEntry, newEntry, rfl⟩, trivial⟩ trivial
  · obtain ⟨hfault, hr⟩ | ⟨err, hr, hfault, hhas⟩ := hw.cases h
    · cases r with
      | error e => cases hr
      | ok _ =>
          obtain ⟨-, e, he⟩ | ⟨-, -, -, -, -, i, j, rfl⟩ := hw.answer.1
          · cases he
          · have hm := movable_of_moveFault hfault
            exact hok _ hm hfault (h.with_tree (h.tree.moved hm i j))
    · cases r with
      | ok _ => cases hr
      | error e =>
          obtain rfl : e = err := Option.some.inj hr
          exact herr w' e hfault hhas

/-- A temporary file has a name that nothing had. -/
theorem meets_createTemp {ts : Loc} (hts : ∀ t ∈ ts, Plain t) (h : Has w s)
    (hdir : s.volume.IsDir ts) {k : Except OSErr Nat → FsProg α}
    (hok : ∀ w' n (hf : s.volume.Free (loc (tempPath (fromRoot ts) n))),
      s.volume.node (loc (tempPath (fromRoot ts) n)) = none →
      Has w' { s with volume := s.volume.put (loc (tempPath (fromRoot ts) n)) [] hf } →
      Meets (working (fromRoot ts)) Q w' (k (.ok n))) :
    Meets (working (fromRoot ts)) Q w (.perform .createTemp >>= k) := by
  have hloc : loc (fromRoot ts) = ts := loc_fromRoot hts
  have hfault : fault (fromRoot ts) s.volume .createTemp = none := if_pos (hloc.symm ▸ hdir)
  have hparent (n : Nat) : s.volume.IsDir (loc (tempPath (fromRoot ts) n)).dropLast := by
    rwa [loc_tempPath hts, List.dropLast_concat]
  refine Prog.meets_perform_bind ?_ fun r w' hw => ?_
  · obtain ⟨n, hn⟩ := exists_fresh h ts
    rw [← loc_tempPath hts] at hn
    exact answerable_of_ok h hfault (r := .ok n) rfl
      ⟨.inr ⟨n, newEntry, newEntry, rfl, hn, h.tree.isDir.mp (hparent n), rfl⟩, trivial⟩ trivial
  · obtain ⟨-, hr⟩ | ⟨err, -, hsome, -⟩ := hw.cases h
    · obtain ⟨-, e, rfl⟩ | ⟨n, i, above, rfl, hnone, -, rfl⟩ := hw.answer.1
      · cases hr
      · have hnode := h.tree.node_eq_none.mpr hnone
        have hf : s.volume.Free (loc (tempPath (fromRoot ts) n)) :=
          ⟨FileVolume.clear_of_isDir (hparent n), by simp [FileVolume.IsDir, hnode]⟩
        exact hok _ n hf hnode (h.with_tree (h.tree.put hf (hparent n) i above))
    · cases hfault.symm.trans hsome

theorem meets_now (h : Has w s) {k : Time → FsProg α}
    (hok : ∀ now, Meets (working tempDir) Q w (k now)) :
    Meets (working tempDir) Q w (.perform .now >>= k) := by
  refine Prog.meets_perform_bind ?_ fun r w' hw => ?_
  · exact answerable_of_ok h rfl (r := zeroTime) rfl ⟨rfl, trivial⟩ trivial
  · obtain rfl := hw.answer.1
    exact hok r

/-- The token bucket admits or not. -/
theorem meets_allow (h : Has w s) {k : Bool → FsProg α}
    (hok : ∀ admitted, Meets (working tempDir) Q w (k admitted)) :
    Meets (working tempDir) Q w (.perform .allow >>= k) := by
  refine Prog.meets_perform_bind ?_ fun r w' hw => ?_
  · exact answerable_of_ok h rfl (r := true) rfl ⟨rfl, trivial⟩ trivial
  · obtain rfl := hw.answer.1
    exact hok r

/-- The number of writes is all that counting changes. -/
theorem meets_countWrite (h : Has w s) {k : Int → FsProg α}
    (hok : ∀ w', Has w' { s with writes := s.writes + 1 } →
      Meets (working tempDir) Q w' (k (s.writes + 1))) :
    Meets (working tempDir) Q w (.perform .countWrite >>= k) := by
  refine Prog.meets_perform_bind ?_ fun r w' hw => ?_
  · exact answerable_of_ok h rfl (r := w.writeCount + 1) rfl ⟨⟨rfl, rfl⟩, trivial⟩ trivial
  · obtain ⟨rfl, rfl⟩ := hw.answer.1
    have hhas : Has { w with writeCount := w.writeCount + 1 } { s with writes := s.writes + 1 } :=
      ⟨h.tree, congrArg (· + 1) h.writes⟩
    have hgo := hok _ hhas
    rwa [← h.writes] at hgo

end Rules

end OcuFilestore.Peer
