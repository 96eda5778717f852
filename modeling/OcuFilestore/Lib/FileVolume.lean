import Mathlib.Data.Set.Finite.List
import OcuFilestore.Lib.FileTree

/-!
# OcuFilestore.Lib.FileVolume

What a file system holds, without its entries: at every place a directory, a
file with its content, or nothing.  A `FileVolume` has a root, keeps everything in
a directory and is finite, and so do the results of its operations: each one
asks for what makes that true.

`FileTree.Holds` says that a file tree holds a volume.  The operations of file
trees do to it what those of the same name do to the volume.
-/

namespace OcuFilestore

structure FileVolume (ν β : Type) where
  /-- `some none` is a directory. -/
  node : List ν → Option (Option (List β))
  root : node [] = some none
  parent : ∀ x s, node (x ++ [s]) ≠ none → node x = some none
  finite : {x | node x ≠ none}.Finite

namespace FileVolume

variable {ν β : Type} {V V' : FileVolume ν β} {x y z : List ν} {bs : List β}

/-- A volume is what it has at its places. -/
@[ext] theorem ext (h : ∀ x, V.node x = V'.node x) : V = V' := by
  cases V
  cases V'
  obtain rfl := funext h
  rfl

def IsDir (V : FileVolume ν β) (x : List ν) : Prop := V.node x = some none

/-- The content of the file at a place. -/
def file (V : FileVolume ν β) (x : List ν) : Option (List β) := (V.node x).join

/-- No file is at a place or on the way to it. -/
def Clear (V : FileVolume ν β) (x : List ν) : Prop := ∀ y, y <+: x → V.file y = none

/-- A file can be put at a place. -/
structure Free (V : FileVolume ν β) (x : List ν) : Prop where
  clear : V.Clear x.dropLast
  notDir : ¬ V.IsDir x

/-- There is something in the directory. -/
def Occupied (V : FileVolume ν β) (x : List ν) : Prop := ∃ s, V.node (x ++ [s]) ≠ none

/-! ## places -/

theorem file_eq_some_iff : V.file x = some bs ↔ V.node x = some (some bs) := by
  unfold file
  rcases V.node x with _ | _ | bs' <;> simp

/-- A directory has no content. -/
theorem file_of_isDir (h : V.IsDir x) : V.file x = none := by
  rw [file, h]
  rfl

/-- What is there without content is a directory. -/
theorem isDir_of_file_eq_none (hx : V.node x ≠ none) (h : V.file x = none) : V.IsDir x := by
  unfold file at h
  unfold IsDir
  rcases hn : V.node x with _ | _ | bs
  · exact absurd hn hx
  · rfl
  · simp [hn] at h

/-- What is above something is a directory. -/
theorem isDir_above (hx : V.node x ≠ none) (hy : y <+: x) (hne : y ≠ x) : V.IsDir y := by
  have hthere (z : List ν) (hz : V.IsDir z) : V.node z ≠ none := by
    rw [show V.node z = some none from hz]
    exact Option.some_ne_none _
  exact dir_of_prefix hthere V.parent hx hy hne

/-- There is nothing below what is no directory. -/
theorem node_below (hx : ¬ V.IsDir x) (hy : x <+: y) (hne : x ≠ y) : V.node y = none := by
  by_contra hsome
  exact hx (isDir_above hsome hy hne)

/-- The way to something is clear. -/
theorem clear_dropLast (hx : V.node x ≠ none) : V.Clear x.dropLast := by
  by_cases hnil : x = []
  · subst hnil
    intro y hy
    rw [List.prefix_nil.mp hy]
    exact file_of_isDir V.root
  · intro y hy
    refine file_of_isDir (isDir_above hx (hy.trans (List.dropLast_prefix x)) ?_)
    rintro rfl
    exact not_prefix_dropLast hnil hy

/-- The way to a directory is directories. -/
theorem isDir_of_isDir (hx : V.IsDir x) (hy : y <+: x) : V.IsDir y := by
  by_cases hyx : y = x
  · rwa [hyx]
  · refine isDir_above ?_ hy hyx
    rw [show V.node x = some none from hx]
    exact Option.some_ne_none _

/-- The way to a directory is clear. -/
theorem clear_of_isDir (hx : V.IsDir x) : V.Clear x :=
  fun _ hy => file_of_isDir (isDir_of_isDir hx hy)

/-- No file can be put in place of the root. -/
theorem Free.ne_nil (h : V.Free x) : x ≠ [] := fun hnil => h.notDir (hnil ▸ V.root)

/-- A file can be put in place of a file. -/
theorem free_of_file (h : V.file x = some bs) : V.Free x := by
  have hnode := file_eq_some_iff.mp h
  exact ⟨clear_dropLast (by simp [hnode]), by simp [IsDir, hnode]⟩

/-- There is nothing in a file. -/
theorem not_occupied_of_file (h : V.file x = some bs) : ¬ V.Occupied x := by
  rintro ⟨s, hs⟩
  rw [file_of_isDir (V.parent x s hs)] at h
  cases h

/-! ## operations -/

section Operations

variable [DecidableEq ν]

/-- Nothing but a root. -/
def empty : FileVolume ν β where
  node x := if x = [] then some none else none
  root := if_pos rfl
  parent y s hs := by simp at hs
  finite := (Set.finite_singleton []).subset fun y hy => by simpa using hy

omit [DecidableEq ν] in
theorem file_empty (x : List ν) : (empty : FileVolume ν β).file x = none := by
  simp only [file, empty]
  split <;> rfl

omit [DecidableEq ν] in
theorem clear_empty (x : List ν) : (empty : FileVolume ν β).Clear x := fun y _ => file_empty y

/-- Directories all the way down. -/
def mkdirs (V : FileVolume ν β) (x : List ν) (_h : V.Clear x) : FileVolume ν β where
  node y := if y <+: x then some none else V.node y
  root := if_pos List.nil_prefix
  parent y s hs := by
    by_cases hy : y <+: x
    · rw [if_pos hy]
    · have hys : ¬ y ++ [s] <+: x := fun h => hy ((List.prefix_append y [s]).trans h)
      rw [if_neg hys] at hs
      rw [if_neg hy, V.parent y s hs]
  finite := by
    refine ((List.finite_toSet x.inits).union V.finite).subset fun y hy => ?_
    by_cases hyx : y <+: x
    · exact .inl ((List.mem_inits y x).mpr hyx)
    · exact .inr (by simpa [hyx] using hy)

/-- A file, in directories that are made where they are missing. -/
def put (V : FileVolume ν β) (x : List ν) (bs : List β) (h : V.Free x) : FileVolume ν β where
  node y := if y = x then some (some bs) else if y <+: x then some none else V.node y
  root := by rw [if_neg h.ne_nil.symm, if_pos List.nil_prefix]
  parent y s hs := by
    by_cases hys : y ++ [s] <+: x
    · have hy : y <+: x := (List.prefix_append y [s]).trans hys
      have hne : y ≠ x := by
        rintro rfl
        exact absurd hys.length_le (by simp)
      rw [if_neg hne, if_pos hy]
    · have hne : y ++ [s] ≠ x := fun heq => hys (heq ▸ List.prefix_refl _)
      rw [if_neg hne, if_neg hys] at hs
      have hdir := V.parent y s hs
      have hyx : y ≠ x := fun heq => h.notDir (heq ▸ hdir)
      rw [if_neg hyx, hdir, ite_self]
  finite := by
    refine ((List.finite_toSet x.inits).union V.finite).subset fun y hy => ?_
    by_cases hyx : y <+: x
    · exact .inl ((List.mem_inits y x).mpr hyx)
    · have hne : y ≠ x := fun heq => hyx (heq ▸ List.prefix_refl y)
      exact .inr (by simpa [hyx, hne] using hy)

/-- What is at and below a place goes. -/
def cut (V : FileVolume ν β) (x : List ν) (h : x ≠ []) : FileVolume ν β where
  node y := if x <+: y then none else V.node y
  root := by rw [if_neg fun hx => h (List.prefix_nil.mp hx), V.root]
  parent y s hs := by
    have hxs : ¬ x <+: y ++ [s] := fun hx => hs (if_pos hx)
    rw [if_neg hxs] at hs
    rw [if_neg fun hx => hxs (hx.trans (List.prefix_append y [s])), V.parent y s hs]
  finite := by
    refine V.finite.subset fun y hy => ?_
    by_cases hxy : x <+: y
    · simp [hxy] at hy
    · simpa [hxy] using hy

/-- What is at `x` can be moved to `y`. -/
structure Movable (V : FileVolume ν β) (x y : List ν) : Prop where
  source : V.node x ≠ none
  ne_nil : x ≠ []
  parent : V.IsDir y.dropLast
  notDir : ¬ V.IsDir y
  /-- Nothing is moved into itself. -/
  apart : x <+: y → x = y

omit [DecidableEq ν] in
/-- Nothing is moved in place of the root. -/
theorem Movable.target_ne_nil (h : V.Movable x y) : y ≠ [] := fun hnil => h.notDir (hnil ▸ V.root)

omit [DecidableEq ν] in
/-- The directory something is moved to stays. -/
theorem Movable.not_prefix_dropLast (h : V.Movable x y) : ¬ x <+: y.dropLast := by
  intro hx
  have heq := h.apart (hx.trans (List.dropLast_prefix y))
  exact OcuFilestore.not_prefix_dropLast h.ne_nil (heq ▸ hx)

/-- What is at and below `x` is moved to `y`, in place of what is there. -/
def moved (V : FileVolume ν β) (x y : List ν) (h : V.Movable x y) : FileVolume ν β where
  node z :=
    if y <+: z then V.node (x ++ z.drop y.length) else if x <+: z then none else V.node z
  root := by
    rw [if_neg fun hy => h.target_ne_nil (List.prefix_nil.mp hy),
      if_neg fun hx => h.ne_nil (List.prefix_nil.mp hx), V.root]
  parent z s hs := by
    by_cases hyz : y <+: z
    · have hys := hyz.trans (List.prefix_append z [s])
      rw [if_pos hys, List.drop_append_of_le_length hyz.length_le, ← List.append_assoc] at hs
      rw [if_pos hyz, V.parent _ s hs]
    · rw [if_neg hyz]
      by_cases hys : y <+: z ++ [s]
      · -- `y` is the child `s` of `z` itself
        have hy : y = z ++ [s] := by
          rcases List.prefix_concat_iff.mp hys with heq | hpre
          · exact heq
          · exact absurd hpre hyz
        have hparent := h.parent
        have hx := h.not_prefix_dropLast
        rw [hy, List.dropLast_concat] at hparent hx
        rw [if_neg hx, hparent]
      · rw [if_neg hys] at hs
        have hxs : ¬ x <+: z ++ [s] := fun hx => hs (if_pos hx)
        rw [if_neg hxs] at hs
        rw [if_neg fun hx => hxs (hx.trans (List.prefix_append z [s])), V.parent z s hs]
  finite := by
    refine (V.finite.union (V.finite.image fun z => y ++ z.drop x.length)).subset fun z hz => ?_
    by_cases hyz : y <+: z
    · obtain ⟨ss, rfl⟩ := hyz
      refine .inr ⟨x ++ ss, by simpa using hz, by simp⟩
    · by_cases hxz : x <+: z
      · simp [hyz, hxz] at hz
      · exact .inl (by simpa [hyz, hxz] using hz)

/-! ## what is there afterwards -/

@[simp] theorem node_mkdirs (h : V.Clear x) (y : List ν) :
    (V.mkdirs x h).node y = if y <+: x then some none else V.node y := rfl

@[simp] theorem node_put (h : V.Free x) (y : List ν) : (V.put x bs h).node y =
    if y = x then some (some bs) else if y <+: x then some none else V.node y := rfl

@[simp] theorem node_cut (h : x ≠ []) (y : List ν) :
    (V.cut x h).node y = if x <+: y then none else V.node y := rfl

@[simp] theorem node_moved (h : V.Movable x y) (z : List ν) : (V.moved x y h).node z =
    if y <+: z then V.node (x ++ z.drop y.length) else if x <+: z then none else V.node z := rfl

/-- Making directories changes no file. -/
theorem file_mkdirs (h : V.Clear x) (y : List ν) : (V.mkdirs x h).file y = V.file y := by
  unfold file
  rw [node_mkdirs]
  split
  · next hy => exact (h y hy).symm
  · rfl

/-- A put changes the one file. -/
theorem file_put (h : V.Free x) (y : List ν) :
    (V.put x bs h).file y = if y = x then some bs else V.file y := by
  unfold file
  rw [node_put]
  split
  · rfl
  · next hne =>
      split
      · next hy => exact (h.clear y (prefix_dropLast hy hne)).symm
      · rfl

theorem file_put_self (h : V.Free x) : (V.put x bs h).file x = some bs := by
  rw [file_put, if_pos rfl]

/-- A removal takes the files at and below the place. -/
theorem file_cut (h : x ≠ []) (y : List ν) :
    (V.cut x h).file y = if x <+: y then none else V.file y := by
  unfold file
  rw [node_cut]
  split <;> rfl

/-- What was made, and what is above it, are directories. -/
theorem isDir_mkdirs (h : V.Clear x) (hy : y <+: x) : (V.mkdirs x h).IsDir y := if_pos hy

/-- Directories that are there need not be made. -/
theorem mkdirs_of_isDir (h : V.Clear x) (hx : V.IsDir x) : V.mkdirs x h = V := by
  ext1 y
  rw [node_mkdirs]
  split
  · next hy => exact (isDir_of_isDir hx hy).symm
  · rfl

omit [DecidableEq ν] in
/-- The directory something is in is there. -/
theorem isDir_dropLast (hx : V.node x ≠ none) (hne : x ≠ []) : V.IsDir x.dropLast := by
  refine isDir_above hx (List.dropLast_prefix x) fun heq => ?_
  exact not_prefix_dropLast hne (heq.symm ▸ List.prefix_refl _)

/-- Directories made above a place. -/
theorem node_mkdirs_dropLast (h : V.Clear x.dropLast) (hne : x ≠ []) :
    (V.mkdirs x.dropLast h).node x = V.node x :=
  if_neg (not_prefix_dropLast hne)

/-- The parents of what is there are there. -/
theorem mkdirs_dropLast_of_some (h : V.Clear x.dropLast) (hx : V.node x ≠ none) (hne : x ≠ []) :
    V.mkdirs x.dropLast h = V :=
  mkdirs_of_isDir h (isDir_dropLast hx hne)

/-- Making the parents of a place does not decide whether a file can be put
there. -/
theorem free_mkdirs (h : V.Clear x.dropLast) (hne : x ≠ []) :
    (V.mkdirs x.dropLast h).Free x ↔ V.Free x := by
  have hdir : (V.mkdirs x.dropLast h).IsDir x ↔ V.IsDir x := by
    rw [IsDir, node_mkdirs_dropLast h hne, IsDir]
  refine ⟨fun hf => ⟨h, mt hdir.mpr hf.notDir⟩, fun hf => ⟨fun y hy => ?_, mt hdir.mp hf.notDir⟩⟩
  rw [file_mkdirs, hf.clear y hy]

/-- Making the directories first comes to the same. -/
theorem put_mkdirs (h : V.Clear x.dropLast) (hf : (V.mkdirs x.dropLast h).Free x)
    (hf' : V.Free x) : (V.mkdirs x.dropLast h).put x bs hf = V.put x bs hf' := by
  ext1 y
  simp only [node_put, node_mkdirs]
  split
  · rfl
  · next hne =>
      split
      · rfl
      · next hy => rw [if_neg fun hy' => hy (hy'.trans (List.dropLast_prefix x))]

/-- The last content counts. -/
theorem put_put {bs' : List β} (h : V.Free x) (h' : (V.put x bs h).Free x) :
    (V.put x bs h).put x bs' h' = V.put x bs' h := by
  ext1 y
  simp only [node_put]
  split
  · rfl
  · split <;> rfl

/-- Nothing is there to go. -/
theorem cut_of_none (h : x ≠ []) (hx : V.node x = none) : V.cut x h = V := by
  ext1 y
  rw [node_cut]
  split
  · next hy =>
      by_cases hxy : x = y
      · exact hxy ▸ hx.symm
      · exact (node_below (by simp [IsDir, hx]) hy hxy).symm
  · rfl

/-! ## apart from a place -/

/-- The same but for what is at and below a place. -/
def AgreesOff (z : List ν) (V W : FileVolume ν β) : Prop := ∀ y, ¬ z <+: y → W.node y = V.node y

section Agreement

variable {W : FileVolume ν β}

omit [DecidableEq ν] in
/-- Volumes that agree off a place have the same files there. -/
theorem AgreesOff.file (h : AgreesOff z V W) (hx : ¬ z <+: x) : W.file x = V.file x := by
  rw [FileVolume.file, h x hx, FileVolume.file]

omit [DecidableEq ν] in
/-- Volumes that agree off a place have the same ways clear. -/
theorem AgreesOff.clear (h : AgreesOff z V W) (hx : ¬ z <+: x) : W.Clear x ↔ V.Clear x :=
  forall₂_congr fun _ hy => by rw [h.file fun hz => hx (hz.trans hy)]

omit [DecidableEq ν] in
/-- Volumes that agree off a place can take the same files. -/
theorem AgreesOff.free (h : AgreesOff z V W) (hx : ¬ z <+: x) : W.Free x ↔ V.Free x := by
  have hparent : ¬ z <+: x.dropLast := fun hz => hx (hz.trans (List.dropLast_prefix x))
  have hdir : W.IsDir x ↔ V.IsDir x := by rw [IsDir, h x hx, IsDir]
  exact ⟨fun hf => ⟨(h.clear hparent).mp hf.clear, mt hdir.mpr hf.notDir⟩,
    fun hf => ⟨(h.clear hparent).mpr hf.clear, mt hdir.mp hf.notDir⟩⟩

/-- Putting the same file into both keeps two volumes in agreement. -/
theorem AgreesOff.put (h : AgreesOff z V W) (hV : V.Free x) (hW : W.Free x) :
    AgreesOff z (V.put x bs hV) (W.put x bs hW) := by
  intro y hy
  rw [node_put, node_put, h y hy]

/-- Removing the same place from both keeps two volumes in agreement. -/
theorem AgreesOff.cut (h : AgreesOff z V W) (hx : x ≠ []) :
    AgreesOff z (V.cut x hx) (W.cut x hx) := by
  intro y hy
  rw [node_cut, node_cut, h y hy]

/-- What they do not agree on goes. -/
theorem AgreesOff.cut_eq (h : AgreesOff z V W) (hz : z ≠ []) (hnone : V.node z = none) :
    W.cut z hz = V := by
  rw [← cut_of_none hz hnone]
  ext1 y
  rw [node_cut, node_cut]
  split
  · rfl
  · next hy => exact h y hy

/-- A file put into a directory that is there. -/
theorem agreesOff_put (h : V.Free z) (hparent : V.IsDir z.dropLast) :
    AgreesOff z V (V.put z bs h) := by
  intro y hy
  have hne : y ≠ z := fun heq => hy (heq ▸ List.prefix_refl y)
  rw [node_put, if_neg hne]
  split
  · next hyz =>
      exact (isDir_of_isDir hparent (prefix_dropLast hyz hne)).symm
  · rfl

end Agreement

/-! ## edits below a place -/

/-- One operation after the other, at and below a place; directories are made
above it as well.  New names are of a kind. -/
inductive Edit (ok : ν → Prop) (z : List ν) : FileVolume ν β → FileVolume ν β → Prop
  | refl (V : FileVolume ν β) : Edit ok z V V
  | trans {V V' V'' : FileVolume ν β} : Edit ok z V V' → Edit ok z V' V'' → Edit ok z V V''
  | mkdirs {V : FileVolume ν β} {x : List ν} (h : V.Clear x) : z <+: x ∨ x <+: z → (∀ s ∈ x, ok s) →
      Edit ok z V (V.mkdirs x h)
  | put {V : FileVolume ν β} {x : List ν} {bs : List β} (h : V.Free x) : z <+: x → (∀ s ∈ x, ok s) →
      Edit ok z V (V.put x bs h)
  | cut {V : FileVolume ν β} {x : List ν} (h : x ≠ []) : z <+: x → Edit ok z V (V.cut x h)
  | moved {V : FileVolume ν β} {x y : List ν} (h : V.Movable x y) : z <+: x → z <+: y →
      (∀ s ∈ y, ok s) → Edit ok z V (V.moved x y h)

/-- All names are of a kind. -/
def Named (ok : ν → Prop) (V : FileVolume ν β) : Prop := ∀ x, V.node x ≠ none → ∀ s ∈ x, ok s

section Edits

variable {ok : ν → Prop}

/-- An edit brings in no names but good ones. -/
theorem Edit.named (h : Edit ok z V V') (hV : V.Named ok) : V'.Named ok := by
  induction h with
  | refl V => exact hV
  | trans _ _ ih ih' => exact ih' (ih hV)
  | mkdirs h _ hx =>
      intro y hy s hs
      rw [node_mkdirs] at hy
      split at hy
      · next hpre => exact hx s (hpre.subset hs)
      · exact hV y hy s hs
  | @put V x bs h _ hx =>
      intro y hy s hs
      rw [node_put] at hy
      by_cases hpre : y <+: x
      · exact hx s (hpre.subset hs)
      · have hne : y ≠ x := fun heq => hpre (heq ▸ List.prefix_refl y)
        rw [if_neg hne, if_neg hpre] at hy
        exact hV y hy s hs
  | cut h _ =>
      intro y hy
      rw [node_cut] at hy
      split at hy
      · exact absurd rfl hy
      · exact hV y hy
  | @moved V x y h _ _ hy =>
      intro u hu s hs
      rw [node_moved] at hu
      split at hu
      · next hpre =>
          obtain ⟨ss, rfl⟩ := hpre
          rw [List.drop_left] at hu
          rcases List.mem_append.mp hs with hs | hs
          · exact hy s hs
          · exact hV _ hu s (List.mem_append_right x hs)
      · split at hu
        · exact absurd rfl hu
        · exact hV u hu s hs

/-- What is elsewhere stays. -/
theorem Edit.elsewhere (h : Edit ok z V V') (hy : ¬ z <+: y) (hsome : V.node y ≠ none) :
    V'.node y = V.node y := by
  induction h with
  | refl V => rfl
  | trans _ _ ih ih' => rw [ih' (by rwa [ih hsome]), ih hsome]
  | mkdirs h _ _ =>
      rw [node_mkdirs]
      split
      · next hpre => exact (isDir_of_file_eq_none hsome (h y hpre)).symm
      · rfl
  | @put V x bs h hz _ =>
      have hne : y ≠ x := fun heq => hy (heq ▸ hz)
      rw [node_put, if_neg hne]
      split
      · next hpre =>
          exact (isDir_of_file_eq_none hsome (h.clear y (prefix_dropLast hpre hne))).symm
      · rfl
  | cut h hz => rw [node_cut, if_neg fun hpre => hy (hz.trans hpre)]
  | moved h hx hz _ =>
      rw [node_moved, if_neg fun hpre => hy (hz.trans hpre), if_neg fun hpre => hy (hx.trans hpre)]

/-- Nothing is made apart from it. -/
theorem Edit.apart (h : Edit ok z V V') (hy : ¬ z <+: y) (hz : ¬ y <+: z) :
    V'.node y = V.node y := by
  induction h with
  | refl V => rfl
  | trans _ _ ih ih' => rw [ih', ih]
  | mkdirs h hx _ =>
      refine if_neg fun hpre => ?_
      rcases hx with hzx | hxz
      · exact (List.prefix_or_prefix_of_prefix hpre hzx).elim hz hy
      · exact hz (hpre.trans hxz)
  | @put V x bs h hzx _ =>
      have hpre : ¬ y <+: x := fun hpre => (List.prefix_or_prefix_of_prefix hpre hzx).elim hz hy
      have hne : y ≠ x := fun heq => hpre (heq ▸ List.prefix_refl y)
      rw [node_put, if_neg hne, if_neg hpre]
  | cut h hz => rw [node_cut, if_neg fun hpre => hy (hz.trans hpre)]
  | moved h hx hz _ =>
      rw [node_moved, if_neg fun hpre => hy (hz.trans hpre), if_neg fun hpre => hy (hx.trans hpre)]

end Edits

end Operations

end FileVolume

/-! ## file trees -/

namespace FileTree

/-- The tree holds the volume. -/
def Holds {ν μ β : Type} (t : FileTree ν μ β) (V : FileVolume ν β) : Prop :=
  ∀ x, t.shape x = V.node x

namespace Holds

variable {ν μ β : Type} {t t' : FileTree ν μ β} {V V' : FileVolume ν β} {x y : List ν}
  {bs : List β}

/-- A tree that holds a volume is well formed. -/
theorem wellFormed (h : t.Holds V) : t.WellFormed := by
  refine ⟨FileTree.isDir_iff_shape.mpr ((h []).trans V.root), fun x s hs => ?_⟩
  rw [FileTree.isDir_iff_shape, h]
  refine V.parent x s ?_
  rwa [← h, Ne, FileTree.shape_eq_none_iff]

/-- A tree that holds a volume is finite. -/
theorem finite (h : t.Holds V) : {x | t x ≠ none}.Finite := by
  refine V.finite.subset fun x hx hnone => hx ?_
  rwa [← FileTree.shape_eq_none_iff, h]

theorem node_eq_none (h : t.Holds V) : V.node x = none ↔ t x = none := by
  rw [← h, FileTree.shape_eq_none_iff]

/-- The directories of a tree are those of its volume. -/
theorem isDir (h : t.Holds V) : V.IsDir x ↔ t.IsDir x := by
  rw [FileVolume.IsDir, ← h, FileTree.isDir_iff_shape]

/-- The files of a tree are those of its volume. -/
theorem content (h : t.Holds V) : t.content x = V.file x := by
  rw [FileTree.content_eq_join, h, FileVolume.file]

/-- The ways that are clear in a tree are those of its volume. -/
theorem clear (h : t.Holds V) : V.Clear x ↔ ∀ y, y <+: x → t.content y = none := by
  unfold FileVolume.Clear
  simp only [h.content]

/-- Entries alone make no difference to what a tree holds. -/
theorem congr (h : t.Holds V) (ht : ∀ x, t'.shape x = t.shape x) : t'.Holds V :=
  fun x => (ht x).trans (h x)

section Operations

variable [DecidableEq ν]

/-- Making directories in a tree makes them in its volume. -/
theorem mkdirs (h : t.Holds V) (hx : V.Clear x) (i : List ν → μ) :
    (t.mkdirs x i).Holds (V.mkdirs x hx) := by
  intro y
  rw [FileTree.shape_mkdirs, FileVolume.node_mkdirs, h.content, h y]
  split
  · next hy => rw [hx y hy]
  · rfl

/-- A file put into a directory that is there. -/
theorem put (h : t.Holds V) (hx : V.Free x) (hparent : V.IsDir x.dropLast) (i above : μ) :
    (t.put x i bs above).Holds (V.put x bs hx) := by
  intro y
  rw [FileTree.shape_put, FileVolume.node_put, h y]
  split
  · rfl
  · next hne =>
      split
      · next hy =>
          exact FileVolume.isDir_of_isDir hparent (prefix_dropLast hy hne)
      · rfl

/-- Storing a content in a tree stores it in its volume. -/
theorem store (h : t.Holds V) (hx : V.file x = some bs) (i : μ) (bs' : List β) :
    (t.store x i bs').Holds (V.put x bs' (FileVolume.free_of_file hx)) := by
  intro y
  rw [FileTree.shape_store, FileVolume.node_put, h y]
  split
  · rfl
  · next hne =>
      split
      · next hy =>
          refine FileVolume.isDir_above ?_ hy hne
          rw [FileVolume.file_eq_some_iff.mp hx]
          exact Option.some_ne_none _
      · rfl

/-- Pruning a tree removes the place from its volume. -/
theorem cut (h : t.Holds V) (hx : x ≠ []) (above : μ) :
    (t.prune x (fun _ => false) above).Holds (V.cut x hx) := by
  intro y
  rw [FileTree.shape_prune, FileVolume.node_cut, h y]
  simp

/-- Moving in a tree moves in its volume. -/
theorem moved (h : t.Holds V) (hxy : V.Movable x y) (i j : μ) :
    (t.move x y i j).Holds (V.moved x y hxy) := by
  intro z
  rw [FileTree.shape_move, FileVolume.node_moved, h, h]

end Operations

end Holds

end FileTree

end OcuFilestore
