import Mathlib.Data.List.Forall2
import OcuFilestore.Filestore.Copying

/-!
# OcuFilestore.Filestore.Forms

The disk while an upload is served, and the form that is read.  How the disk
behaves is given beforehand (`DiskRun`): which operations fail, and how far
the copy of the file part gets.  So a request has one outcome, and it is one
the disk can have (`evalsTo_serve`).

A form is read into memory as far as it fits, and the rest goes to a temporary
file; `runIn_readForm` says what is known of the parts afterwards, and that
the destination is as it was.
-/

namespace OcuFilestore.Peer

open SlashPath

/-! ## the disk of one upload -/

/-- What the disk does this time.  The name of the temporary file is a random
one, not that of the destination. -/
structure DiskRun (tempDir : Path) (dst : Loc) where
  now : Time
  allow : Bool
  temp : Except OSErr Nat
  fresh : ∀ n, temp = .ok n → loc (tempPath tempDir n) ≠ dst
  spoolErr : Option OSErr
  mkdirErr : Option OSErr
  createErr : Option OSErr
  /-- How many bytes are copied when the copy fails. -/
  copied : Nat
  copyErr : Option OSErr
  closeErr : Option OSErr
  removeErr : Option OSErr

namespace DiskRun

variable {tempDir : Path} {dst : Loc}

/-- How a write fails, if it does: the copy to the destination, or the spooling
of a part. -/
def writeFails (o : DiskRun tempDir dst) (x : Loc) (length : Nat) : Option (Nat × OSErr) :=
  if x = dst then o.copyErr.map fun e => (min o.copied length, e)
  else o.spoolErr.map fun e => (0, e)

def answer (o : DiskRun tempDir dst) (w : World) : (e : Eff) → e.Reply × World
  | .now => (o.now, w)
  | .allow => (o.allow, w)
  | .mkdirAll p =>
      match o.mkdirErr with
      | some e => (.error e, w)
      | none => Peer.answer w (.mkdirAll p)
  | .create p =>
      match o.createErr with
      | some e => (.error e, w)
      | none => Peer.answer w (.create p)
  | .write p bs =>
      match o.writeFails (loc p) bs.length with
      | some (n, e) => ((n, some e), (Peer.answer w (.write p (bs.take n))).2)
      | none => Peer.answer w (.write p bs)
  | .close _ =>
      match o.closeErr with
      | some e => (.error e, w)
      | none => (.ok (), w)
  | .remove p =>
      match if loc p = dst then o.removeErr else none with
      | some e => (.error e, w)
      | none =>
          if (w.tree.content (loc p)).isSome then
            (.ok (), { w with tree := w.tree.prune (loc p) (fun x => x ≠ loc p) newEntry })
          else (.error noEntry, w)
  | .createTemp =>
      match o.temp with
      | .error e => (.error e, w)
      | .ok n =>
          if (w.tree (loc (tempPath tempDir n))).isNone &&
              isDir w.tree (loc (tempPath tempDir n)).dropLast then
            (.ok n, { w with tree := w.tree.put (loc (tempPath tempDir n)) newEntry [] newEntry })
          else (.error failed, w)
  | e => Peer.answer w e

/-- An upload, served on this disk. -/
def serve (o : DiskRun tempDir dst) (srv : Server) (w : World) (q : Request) : World × Response :=
  Prog.runIn o.answer w (srv.handleFileUpload q)

end DiskRun

/-! ## it is one of the disks -/

section Refines

variable {tempDir : Path} {dst : Loc} {w : World}

/-- A file is no directory. -/
theorem not_isDir_of_content {t : Tree} {x : Loc} {bs : List UInt8} (h : t.content x = some bs) :
    ¬ t.IsDir x := by
  rw [FileTree.isDir_iff_shape, FileTree.content_eq_some_iff.mp h]
  simp

/-- A file that is appended to stays where it is. -/
theorem wellFormed_write (h : w.tree.WellFormed) (p : Path) (bs : List UInt8) :
    (Peer.answer w (.write p bs)).2.tree.WellFormed := by
  simp only [Peer.answer]
  split
  · next old hold =>
      have hdir := not_isDir_of_content hold
      have hsome : w.tree (loc p) ≠ none := by
        rw [Ne, ← FileTree.shape_eq_none_iff, FileTree.content_eq_some_iff.mp hold]
        simp
      have hne : (loc p).dropLast ≠ loc p := by
        intro heq
        have hnil : loc p = [] := by
          by_contra hne
          have := congrArg List.length heq
          have := List.length_pos_iff.mpr hne
          rw [List.length_dropLast] at *
          omega
        exact hdir (hnil ▸ h.root)
      exact h.store (h.isDir_of_prefix hsome (List.dropLast_prefix _) hne) hdir _ _
  · exact h

/-- The answers of a run are answers of a disk, and keep the tree well formed.
-/
theorem disk_answer_of_wellFormed (o : DiskRun tempDir dst) (w : World) (e : Eff)
    (h : w.tree.WellFormed) :
    disk tempDir w e (o.answer w e).1 (o.answer w e).2 ∧ (o.answer w e).2.tree.WellFormed := by
  cases e with
  | now => exact ⟨rfl, h⟩
  | allow => exact ⟨rfl, h⟩
  | mkdirAll p =>
      simp only [DiskRun.answer]
      split
      · exact ⟨.inl ⟨rfl, _, rfl⟩, h⟩
      · refine ⟨disk_answer tempDir w _, ?_⟩
        simp only [Peer.answer]
        split
        · next hall =>
            refine h.mkdirs (fun y hy => ?_) _
            have hy := List.all_eq_true.mp hall y ((List.mem_inits y _).mpr hy)
            exact Option.isNone_iff_eq_none.mp hy
        · exact h
  | create p =>
      simp only [DiskRun.answer]
      split
      · exact ⟨.inl ⟨rfl, _, rfl⟩, h⟩
      · refine ⟨disk_answer tempDir w _, ?_⟩
        simp only [Peer.answer]
        split
        · next hdir =>
            rw [Bool.and_eq_true, Bool.not_eq_true', isDir_iff] at hdir
            refine h.put hdir.1 (fun hp => ?_) _ _ _
            exact absurd (isDir_iff.mpr hp) (by simp [hdir.2])
        · exact h
  | write p bs =>
      simp only [DiskRun.answer]
      split
      · next n e hfails =>
          obtain ⟨hle, hlt, t, happ, hw⟩ := disk_answer tempDir w (.write p (bs.take n))
          refine ⟨⟨?_, fun herr => (by cases herr), t, ?_, hw⟩, wellFormed_write h p _⟩
          · unfold DiskRun.writeFails at hfails
            split at hfails
            · obtain ⟨err, -, herr⟩ := Option.map_eq_some_iff.mp hfails
              cases herr
              exact Nat.min_le_right ..
            · obtain ⟨err, -, herr⟩ := Option.map_eq_some_iff.mp hfails
              cases herr
              exact Nat.zero_le _
          · rwa [hlt rfl, List.take_length] at happ
      · exact ⟨disk_answer tempDir w _, wellFormed_write h p bs⟩
  | close p =>
      simp only [DiskRun.answer]
      split <;> exact ⟨rfl, h⟩
  | remove p =>
      simp only [DiskRun.answer]
      split
      · exact ⟨.inl ⟨rfl, _, rfl⟩, h⟩
      · split
        · next hsome =>
            obtain ⟨bs, hbs⟩ := Option.isSome_iff_exists.mp hsome
            have hdir := not_isDir_of_content hbs
            have hbelow (x : Loc) (hx : loc p <+: x) (hne : x ≠ loc p) : w.tree x = none :=
              h.below hdir hx (Ne.symm hne)
            rw [FileTree.prune_self hbelow]
            refine ⟨.inr ⟨rfl, ?_, hbelow, newEntry, rfl⟩, h.prune hdir _⟩
            rw [Ne, ← FileTree.shape_eq_none_iff, FileTree.content_eq_some_iff.mp hbs]
            simp
        · exact ⟨.inl ⟨rfl, _, rfl⟩, h⟩
  | createTemp =>
      simp only [DiskRun.answer]
      split
      · exact ⟨.inl ⟨rfl, _, rfl⟩, h⟩
      · next n hn =>
          split
          · next hfree =>
              rw [Bool.and_eq_true, Option.isNone_iff_eq_none, isDir_iff] at hfree
              refine ⟨.inr ⟨n, newEntry, newEntry, rfl, hfree.1, hfree.2, rfl⟩,
                h.put hfree.2 ?_ _ _ _⟩
              rintro ⟨i, hi⟩
              cases hfree.1.symm.trans hi
          · exact ⟨.inl ⟨rfl, _, rfl⟩, h⟩
  | stat p =>
      refine ⟨disk_answer tempDir w _, ?_⟩
      simp only [DiskRun.answer, Peer.answer]
      split <;> exact h
  | openFile p =>
      refine ⟨disk_answer tempDir w _, ?_⟩
      simp only [DiskRun.answer, Peer.answer]
      split <;> exact h
  | countWrite => exact ⟨disk_answer tempDir w _, h⟩
  | seek p start => exact ⟨disk_answer tempDir w _, h⟩
  | read p start length => exact ⟨disk_answer tempDir w _, h⟩
  | readDir p => exact ⟨disk_answer tempDir w _, h⟩
  | walk p => exact ⟨disk_answer tempDir w _, h⟩
  | removeAll p => exact ⟨disk_answer tempDir w _, h⟩
  | rename src dst => exact ⟨disk_answer tempDir w _, h⟩

/-- The outcome is one the disk can have. -/
theorem evalsTo_serve (o : DiskRun tempDir dst) (srv : Server) (q : Request)
    (h : w.tree.WellFormed) :
    Prog.EvalsTo (disk tempDir) w (srv.handleFileUpload q) (o.serve srv w q).1
      (o.serve srv w q).2 :=
  Prog.evalsTo_runIn_of_inv (I := fun w => w.tree.WellFormed)
    (fun w e hw => disk_answer_of_wellFormed o w e hw) h _

end Refines

/-! ## forms -/

/-- The file parts of a form, in order. -/
def partFiles (parts : List Part) : List (List Char × List UInt8) :=
  (parts.filter fun part => part.name ≠ [] ∧ part.filename ≠ []).map
    fun part => (part.name, part.content)

/-- The source has these bytes, and they are not at the destination. -/
def FileSource.Holds (w : World) (dst : Loc) : FileSource → List UInt8 → Prop
  | .memory bs, bytes => bs = bytes
  | .disk tmp start size, bytes => loc tmp ≠ dst ∧ ∃ pre post,
      w.tree.content (loc tmp) = some (pre ++ bytes ++ post) ∧ start = pre.length ∧
        size = bytes.length

/-- The sources have the contents of the parts they are named after. -/
abbrev HoldsAll (w : World) (dst : Loc) (sources : List (List Char × FileSource))
    (files : List (List Char × List UInt8)) : Prop :=
  List.Forall₂ (fun a b => a.1 = b.1 ∧ a.2.Holds w dst b.2) sources files

/-- A temporary file can be made. -/
structure DiskRun.TempFree {tempDir : Path} {dst : Loc} (o : DiskRun tempDir dst) (w : World)
    (n : Nat) : Prop where
  temp : o.temp = .ok n
  absent : w.tree (loc (tempPath tempDir n)) = none
  parent : w.tree.IsDir (loc (tempPath tempDir n)).dropLast

/-- A temporary file was made, and this is in it. -/
structure TempHas {tempDir : Path} {dst : Loc} (o : DiskRun tempDir dst) (w w₁ : World) (n : Nat)
    (bs : List UInt8) : Prop extends o.TempFree w n where
  count : w₁.writeCount = w.writeCount
  shape : ∀ x, w₁.tree.shape x =
    if x = loc (tempPath tempDir n) then some (some bs) else w.tree.shape x

/-- How the disk has changed while parts were read. -/
inductive Spooled {tempDir : Path} {dst : Loc} (o : DiskRun tempDir dst) (w : World) :
    World → Option (Path × Nat) → Prop
  | none : Spooled o w w none
  | some {w₁ : World} {n : Nat} {bs : List UInt8} (has : TempHas o w w₁ n bs)
      (spoolErr : o.spoolErr = none) : Spooled o w w₁ (some (tempPath tempDir n, bs.length))

section Forms

variable {tempDir : Path} {dst : Loc} {o : DiskRun tempDir dst} {w w₁ w₂ : World}
  {tmp : Option (Path × Nat)} {n : Nat} {bs : List UInt8}

/-- Nothing is spooled to the destination. -/
theorem TempHas.shape_dst (h : TempHas o w w₁ n bs) : w₁.tree.shape dst = w.tree.shape dst := by
  rw [h.shape, if_neg fun heq => o.fresh n h.temp heq.symm]

/-- The temporary file holds what was spooled. -/
theorem TempHas.content_temp (h : TempHas o w w₁ n bs) :
    w₁.tree.content (loc (tempPath tempDir n)) = some bs := by
  rw [FileTree.content_eq_some_iff, h.shape, if_pos rfl]

/-- Spooling does not touch the destination. -/
theorem Spooled.shape_dst (h : Spooled o w w₁ tmp) : w₁.tree.shape dst = w.tree.shape dst := by
  cases h with
  | none => rfl
  | some has _ => exact has.shape_dst

/-- Spooling is not counted as a write. -/
theorem Spooled.count (h : Spooled o w w₁ tmp) : w₁.writeCount = w.writeCount := by
  cases h with
  | none => rfl
  | some has _ => exact has.count

/-- The temporary file is not the destination. -/
theorem Spooled.temp_ne (h : Spooled o w w₁ tmp) : ∀ spot ∈ tmp, loc spot.1 ≠ dst := by
  intro spot hspot
  cases h with
  | none => cases hspot
  | some has _ =>
      cases hspot
      exact o.fresh _ has.temp

/-- Files are only added to. -/
def Grows (w w₁ : World) : Prop :=
  ∀ x bs, w.tree.content x = some bs → ∃ more, w₁.tree.content x = some (bs ++ more)

/-- A part holds its bytes while the tree grows. -/
theorem FileSource.Holds.grow {source : FileSource} {bytes : List UInt8}
    (h : source.Holds w dst bytes) (hg : Grows w w₁) : source.Holds w₁ dst bytes := by
  cases source with
  | memory bs => exact h
  | disk tmp start size =>
      obtain ⟨hne, pre, post, hcontent, hstart, hsize⟩ := h
      obtain ⟨more, hmore⟩ := hg _ _ hcontent
      refine ⟨hne, pre, post ++ more, ?_, hstart, hsize⟩
      rw [hmore, List.append_assoc _ post]

/-- All parts hold their bytes while the tree grows. -/
theorem HoldsAll.grow {sources : List (List Char × FileSource)}
    {files : List (List Char × List UInt8)} (h : HoldsAll w dst sources files)
    (hg : Grows w w₁) : HoldsAll w₁ dst sources files :=
  h.imp fun _ _ hab => ⟨hab.1, hab.2.grow hg⟩

/-- A write appends to its file and touches nothing else. -/
theorem shape_write {p : Path} {old bs : List UInt8} (h : w.tree.content (loc p) = some old)
    (x : Loc) : (Peer.answer w (.write p bs)).2.tree.shape x =
      if x = loc p then some (some (old ++ bs)) else w.tree.shape x := by
  simp only [Peer.answer, h]
  exact FileTree.shape_store ..

/-- A write lets the tree grow. -/
theorem grows_write (p : Path) (bs : List UInt8) : Grows w (Peer.answer w (.write p bs)).2 := by
  intro x old hold
  by_cases heq : x = loc p
  · subst heq
    exact ⟨bs, FileTree.content_eq_some_iff.mpr ((shape_write hold _).trans (if_pos rfl))⟩
  · refine ⟨[], ?_⟩
    rw [List.append_nil]
    simp only [Peer.answer]
    split
    · rw [FileTree.content_store, if_neg heq, hold]
    · exact hold

/-- A temporary file is made under a free name, or nothing is. -/
theorem answer_createTemp (o : DiskRun tempDir dst) (w : World) :
    (∃ n, o.TempFree w n ∧ o.answer w .createTemp =
        (.ok n, { w with tree := w.tree.put (loc (tempPath tempDir n)) newEntry [] newEntry })) ∨
      (∃ e, o.answer w .createTemp = (.error e, w)) ∧ ∀ n, ¬ o.TempFree w n := by
  simp only [DiskRun.answer]
  split
  · next e htemp => exact .inr ⟨⟨e, rfl⟩, fun n hn => by cases htemp.symm.trans hn.temp⟩
  · next n htemp =>
      have hiff : ((w.tree (loc (tempPath tempDir n))).isNone &&
          isDir w.tree (loc (tempPath tempDir n)).dropLast) = true ↔ o.TempFree w n := by
        rw [Bool.and_eq_true, Option.isNone_iff_eq_none, isDir_iff]
        exact ⟨fun h => ⟨htemp, h.1, h.2⟩, fun h => ⟨h.absent, h.parent⟩⟩
      split
      · next hfree => exact .inl ⟨n, hiff.mp hfree, rfl⟩
      · next hbusy =>
          refine .inr ⟨⟨failed, rfl⟩, fun m hm => hbusy (hiff.mpr ?_)⟩
          cases htemp.symm.trans hm.temp
          exact hm

/-- There is a temporary file already, or one is made. -/
theorem runIn_openTemp (h : Spooled o w w₁ tmp) :
    (∃ w₂ n bs, Prog.runIn o.answer w₁ (openTemp tempDir tmp) =
          (w₂, .ok (tempPath tempDir n, bs.length)) ∧ TempHas o w w₂ n bs ∧ Grows w₁ w₂) ∨
      (∃ e, Prog.runIn o.answer w₁ (openTemp tempDir tmp) = (w₁, .error e)) ∧ tmp = none ∧
        ∀ n, ¬ o.TempFree w n := by
  cases h with
  | @some _ n bs has _ =>
      exact .inl ⟨w₁, n, bs, rfl, has, fun x old hold => ⟨[], by rwa [List.append_nil]⟩⟩
  | none =>
      rcases answer_createTemp o w with ⟨n, hfree, hmade⟩ | ⟨⟨e, herr⟩, hbusy⟩
      · refine .inl
          ⟨{ w with tree := w.tree.put (loc (tempPath tempDir n)) newEntry [] newEntry }, n, [], ?_,
            ⟨hfree, rfl, fun x => ?_⟩, fun x old hold => ⟨[], ?_⟩⟩
        · rw [openTemp, Prog.runIn_perform_bind, hmade]
          rfl
        · exact FileTree.shape_put ..
        · have hne : x ≠ loc (tempPath tempDir n) := by
            rintro rfl
            rw [FileTree.content, hfree.absent] at hold
            cases hold
          rw [FileTree.content_put, if_neg hne, hold, List.append_nil]
      · refine .inr ⟨⟨e, ?_⟩, rfl, hbusy⟩
        rw [openTemp, Prog.runIn_perform_bind, herr]
        rfl

/-- Trees grow step by step. -/
theorem Grows.trans (h : Grows w w₁) (h' : Grows w₁ w₂) : Grows w w₂ := by
  intro x bs hbs
  obtain ⟨more, hmore⟩ := h x bs hbs
  obtain ⟨more', hmore'⟩ := h' x _ hmore
  exact ⟨more ++ more', by rw [hmore', List.append_assoc]⟩

/-- More in the temporary file. -/
theorem TempHas.write (h : TempHas o w w₁ n bs) (more : List UInt8) :
    TempHas o w (Peer.answer w₁ (.write (tempPath tempDir n) more)).2 n (bs ++ more) := by
  refine ⟨h.toTempFree, Eq.trans ?_ h.count, fun x => ?_⟩
  · simp only [Peer.answer]
    split <;> rfl
  · rw [shape_write h.content_temp, h.shape]
    split <;> rfl

/-- A form that was read. -/
structure FormRead (o : DiskRun tempDir dst) (w : World)
    (values files : List (List Char × List UInt8)) (spooled : Bool)
    (r : World × Option Form × Option Path) (form : Form) (tmp : Option (Path × Nat)) : Prop where
  result : r.2 = (some form, tmp.map Prod.fst)
  spool : Spooled o w r.1 tmp
  values : form.values = values
  files : HoldsAll r.1 dst form.files files
  temp : tmp.isSome = spooled

/-- A form that was given up, for want of a temporary file. -/
structure FormLost (o : DiskRun tempDir dst) (w : World) (r : World × Option Form × Option Path) :
    Prop where
  result : r.2.1 = none
  temp : ∀ p, r.2.2 = some p → loc p ≠ dst
  shape : r.1.tree.shape dst = w.tree.shape dst
  lost : ∀ n, o.TempFree w n → o.spoolErr ≠ none

/-- A part that does not fit into the memory. -/
theorem runIn_readParts_large {form : Form} {files : List (List Char × List UInt8)} {part : Part}
    {parts : List Part} {memory : Nat} (hname : part.name ≠ []) (hfile : part.filename ≠ [])
    (hbig : ¬ part.content.length ≤ memory) (hs : Spooled o w w₁ tmp)
    (hf : HoldsAll w₁ dst form.files files) :
    (∃ w₂ n bs, TempHas o w w₂ n (bs ++ part.content) ∧ o.spoolErr = none ∧
        HoldsAll w₂ dst (form.files ++
          [(part.name, .disk (tempPath tempDir n) bs.length part.content.length)])
          (files ++ [(part.name, part.content)]) ∧
        Prog.runIn o.answer w₁ (readParts tempDir memory tmp form (part :: parts)) =
          Prog.runIn o.answer w₂ (readParts tempDir memory
            (some (tempPath tempDir n, (bs ++ part.content).length))
            { form with files := form.files ++
              [(part.name, .disk (tempPath tempDir n) bs.length part.content.length)] } parts)) ∨
      FormLost o w
        (Prog.runIn o.answer w₁ (readParts tempDir memory tmp form (part :: parts))) := by
  rw [readParts, if_neg hname, if_neg hfile, if_neg hbig, Prog.runIn_bind]
  rcases runIn_openTemp hs with ⟨w₂, n, bs, hrun, has, hg⟩ | ⟨⟨e, hrun⟩, rfl, hbusy⟩
  · rw [hrun]
    dsimp only
    rw [Prog.runIn_perform_bind]
    cases hspool : o.spoolErr with
    | some e =>
        have hfails :
            o.writeFails (loc (tempPath tempDir n)) part.content.length = some (0, e) := by
          rw [DiskRun.writeFails, if_neg (o.fresh n has.temp), hspool, Option.map_some]
        refine .inr ?_
        simp only [DiskRun.answer, hfails]
        refine ⟨rfl, ?_, ?_, fun _ _ => by simp [hspool]⟩
        · rintro _ ⟨⟩
          exact o.fresh n has.temp
        · exact (has.write _).shape_dst
    | none =>
        have hfails : o.writeFails (loc (tempPath tempDir n)) part.content.length = none := by
          rw [DiskRun.writeFails, if_neg (o.fresh n has.temp), hspool, Option.map_none]
        refine .inl ⟨(Peer.answer w₂ (.write (tempPath tempDir n) part.content)).2, n, bs,
          has.write part.content, rfl, ?_, ?_⟩
        · refine List.rel_append (hf.grow (hg.trans (grows_write _ _))) (.cons ⟨rfl, ?_⟩ .nil)
          refine ⟨o.fresh n has.temp, bs, [], ?_, rfl, rfl⟩
          rw [List.append_nil]
          exact (has.write part.content).content_temp
        · simp only [DiskRun.answer, hfails, List.length_append]
          rfl
  · refine .inr ?_
    rw [hrun]
    exact ⟨rfl, fun p hp => (by cases hp), hs.shape_dst, fun n hn => absurd hn (hbusy n)⟩

/-- The parts, one after the other. -/
theorem runIn_readParts (parts : List Part) (memory : Nat) (form : Form)
    {files : List (List Char × List UInt8)} (hs : Spooled o w w₁ tmp)
    (hf : HoldsAll w₁ dst form.files files) :
    (∃ form' tmp', FormRead o w (form.values ++ partValues parts) (files ++ partFiles parts)
        (tmp.isSome || spools memory parts)
        (Prog.runIn o.answer w₁ (readParts tempDir memory tmp form parts)) form' tmp') ∨
      spools memory parts = true ∧
        FormLost o w (Prog.runIn o.answer w₁ (readParts tempDir memory tmp form parts)) := by
  induction parts generalizing memory tmp form files w₁ with
  | nil =>
      refine .inl ⟨form, tmp, rfl, hs, (List.append_nil _).symm, ?_, (Bool.or_false _).symm⟩
      rw [partFiles, List.filter_nil, List.map_nil, List.append_nil]
      exact hf
  | cons part parts ih =>
      by_cases hname : part.name = []
      · have hvalues : partValues (part :: parts) = partValues parts := by
          simp [partValues, hname]
        have hfiles : partFiles (part :: parts) = partFiles parts := by
          simp [partFiles, hname]
        have hspools : spools memory (part :: parts) = spools memory parts := by
          simp [spools, hname]
        rw [readParts, if_pos hname, hvalues, hfiles, hspools]
        exact ih memory form hs hf
      · by_cases hfile : part.filename = []
        · have hvalues : form.values ++ partValues (part :: parts) =
              form.values ++ [(part.name, part.content)] ++ partValues parts := by
            simp [partValues, hname, hfile]
          have hfiles : partFiles (part :: parts) = partFiles parts := by
            simp [partFiles, hfile]
          have hspools : spools memory (part :: parts) = spools memory parts := by
            simp [spools, hfile]
          rw [readParts, if_neg hname, if_pos hfile, hvalues, hfiles, hspools]
          exact ih memory { form with values := form.values ++ [(part.name, part.content)] } hs hf
        · have hvalues : partValues (part :: parts) = partValues parts := by
            simp [partValues, hfile]
          have hfiles : files ++ partFiles (part :: parts) =
              files ++ [(part.name, part.content)] ++ partFiles parts := by
            simp [partFiles, hname, hfile]
          rw [hvalues, hfiles]
          by_cases hfits : part.content.length ≤ memory
          · have hspools : spools memory (part :: parts) =
                spools (memory - part.content.length) parts := by
              simp [spools, hname, hfile, hfits]
            rw [readParts, if_neg hname, if_neg hfile, if_pos hfits, hspools]
            have hf' : HoldsAll w₁ dst (form.files ++ [(part.name, .memory part.content)])
                (files ++ [(part.name, part.content)]) :=
              List.rel_append hf (.cons ⟨rfl, rfl⟩ .nil)
            exact ih (memory - part.content.length)
              { form with files := form.files ++ [(part.name, .memory part.content)] } hs hf'
          · have hspools : spools memory (part :: parts) = true := by
              simp [spools, hname, hfile, hfits]
            rw [hspools, Bool.or_true]
            rcases runIn_readParts_large hname hfile hfits hs hf with
              ⟨w₂, n, bs, has, hspool, hf', hrun⟩ | hlost
            · rw [hrun]
              rcases ih memory { form with files := form.files ++ [(part.name,
                  .disk (tempPath tempDir n) bs.length part.content.length)] }
                  (.some has hspool) hf' with hread | ⟨-, hlost⟩
              · exact .inl hread
              · exact .inr ⟨rfl, hlost⟩
            · exact .inr ⟨rfl, hlost⟩

/-- A removal elsewhere. -/
theorem shape_remove {p : Path} (hp : loc p ≠ dst) :
    (o.answer w (.remove p)).2.tree.shape dst = w.tree.shape dst := by
  simp only [DiskRun.answer, if_neg hp]
  split
  · rw [FileTree.shape_prune]
    exact if_neg fun h => by simp [Ne.symm hp] at h
  · rfl

/-- Removing the temporary file leaves the destination alone. -/
theorem shape_removeTemp {tmp : Option Path} (h : ∀ p, tmp = some p → loc p ≠ dst) :
    (Prog.runIn o.answer w (removeTemp tmp)).1.tree.shape dst = w.tree.shape dst := by
  cases tmp with
  | none => rfl
  | some p => exact shape_remove (h p rfl)

/-- The form of a body is read, or given up. -/
theorem runIn_readForm (o : DiskRun tempDir dst) (w : World) (body : MultipartBody) :
    (∃ form tmp, body.complete = true ∧ FormRead o w (partValues body.parts)
        (partFiles body.parts) (spools multipartMemory body.parts)
        (Prog.runIn o.answer w (readForm tempDir body)) form tmp) ∨
      (Prog.runIn o.answer w (readForm tempDir body)).2.1 = none ∧
        (Prog.runIn o.answer w (readForm tempDir body)).1.tree.shape dst = w.tree.shape dst ∧
        (body.complete = false ∨ spools multipartMemory body.parts = true ∧
          ∀ n, o.TempFree w n → o.spoolErr ≠ none) := by
  -- a form that is given up
  have hgiveUp (w₁ : World) (tmp : Option Path) : Prog.runIn o.answer w₁
      (removeTemp tmp >>= fun _ => pure ((none, none) : Option Form × Option Path)) =
        ((Prog.runIn o.answer w₁ (removeTemp tmp)).1, (none, none)) :=
    Prog.runIn_bind ..
  rw [readForm, Prog.runIn_bind]
  rcases runIn_readParts body.parts multipartMemory ⟨[], []⟩ (Spooled.none (o := o) (w := w)) .nil
    with ⟨form, tmp, hread⟩ | ⟨hspools, hlost⟩
  · cases hcomplete : body.complete with
    | true =>
        refine .inl ⟨form, tmp, rfl, ?_⟩
        rw [hread.result]
        exact ⟨rfl, hread.spool, hread.values, hread.files, hread.temp⟩
    | false =>
        refine .inr ?_
        rw [hread.result]
        dsimp only
        rw [if_neg (by simp), hgiveUp]
        refine ⟨rfl, ?_, .inl rfl⟩
        refine (shape_removeTemp fun p hp => ?_).trans hread.spool.shape_dst
        obtain ⟨spot, hspot, rfl⟩ := Option.map_eq_some_iff.mp hp
        exact hread.spool.temp_ne spot hspot
  · refine .inr ?_
    have hresult := hlost.result
    have htemp := hlost.temp
    have hshape := hlost.shape
    generalize Prog.runIn o.answer w
      (readParts tempDir multipartMemory none ⟨[], []⟩ body.parts) = r at hresult htemp hshape
    obtain ⟨w₁, form, tmp⟩ := r
    cases hresult
    dsimp only
    rw [hgiveUp]
    exact ⟨rfl, (shape_removeTemp htemp).trans hshape, .inr ⟨hspools, hlost.lost⟩⟩

end Forms

end OcuFilestore.Peer
