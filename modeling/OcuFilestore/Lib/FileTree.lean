import Mathlib.Data.List.Infix
import Mathlib.Logic.Function.Basic

/-!
# OcuFilestore.Lib.FileTree

File trees without links, symbolic or hard: what is found at a place, where a
place is the list of the names on the way to it.  The operations are those of
a file system that succeed or are cut short; each is told what the file system
writes into the entries it touches (`info`: times and modes).

`ChangesAt p` says what an operation at `p` can do: it leaves alone every
place that is neither above nor below `p`, and of the places that are not
below it at most the entries of directories.
-/

namespace OcuFilestore

/-! ## places -/

section Places

variable {ν : Type} {x y : List ν}

/-- No place is at or above its own parent. -/
theorem not_prefix_dropLast (h : x ≠ []) : ¬ x <+: x.dropLast := by
  intro hprefix
  have hle := hprefix.length_le
  have hpos := List.length_pos_iff.mpr h
  rw [List.length_dropLast] at hle
  omega

/-- What is above a place is at or above its parent. -/
theorem prefix_dropLast (h : x <+: y) (hne : x ≠ y) : x <+: y.dropLast := by
  obtain ⟨ss, rfl⟩ := h
  have hss : ss ≠ [] := fun hnil => hne (by rw [hnil, List.append_nil])
  rw [List.dropLast_append_of_ne_nil hss]
  exact List.prefix_append x _

/-- If what is there is in a directory, and directories are there, then what is
above it is a directory. -/
theorem dir_of_prefix {there dir : List ν → Prop} (hthere : ∀ x, dir x → there x)
    (hparent : ∀ x s, there (x ++ [s]) → dir x) (hx : there x) (hy : y <+: x) (hne : y ≠ x) :
    dir y := by
  obtain ⟨ss, rfl⟩ := hy
  induction ss using List.reverseRecOn with
  | nil => exact absurd (List.append_nil y).symm hne
  | append_singleton ss s ih =>
      rw [← List.append_assoc] at hx
      have hdir := hparent (y ++ ss) s hx
      by_cases hss : ss = []
      · rwa [hss, List.append_nil] at hdir
      · exact ih (hthere _ hdir) (by simpa using hss)

end Places

/-! ## trees -/

structure Node (μ β : Type) where
  info : μ
  /-- `none` for a directory. -/
  content : Option (List β)
  deriving DecidableEq

abbrev FileTree (ν μ β : Type) : Type := List ν → Option (Node μ β)

namespace FileTree

variable {ν μ β : Type} [DecidableEq ν] {t t' t'' : FileTree ν μ β} {p q x root : List ν}

/-- The content of the file at a place. -/
def content (t : FileTree ν μ β) (x : List ν) : Option (List β) := (t x).bind Node.content

def IsDir (t : FileTree ν μ β) (x : List ν) : Prop := ∃ i, t x = some ⟨i, none⟩

/-- What is at a place, without its entry: nothing, a directory, or a file. -/
def shape (t : FileTree ν μ β) (x : List ν) : Option (Option (List β)) := (t x).map Node.content

omit [DecidableEq ν] in
theorem content_eq_join (t : FileTree ν μ β) (x : List ν) : t.content x = (t.shape x).join := by
  unfold content shape
  cases t x <;> rfl

omit [DecidableEq ν] in
/-- Trees of one shape have one content. -/
theorem content_of_shape {t' : FileTree ν μ β} (h : t'.shape x = t.shape x) :
    t'.content x = t.content x := by
  rw [content_eq_join, h, content_eq_join]

omit [DecidableEq ν] in
/-- There is something at a place if and only if its shape says so. -/
theorem shape_eq_none_iff : t.shape x = none ↔ t x = none := by
  unfold shape
  exact Option.map_eq_none_iff

omit [DecidableEq ν] in
/-- A directory is told by its shape. -/
theorem isDir_iff_shape : t.IsDir x ↔ t.shape x = some none := by
  unfold IsDir shape
  rcases t x with _ | ⟨i, _ | bs⟩ <;> simp

omit [DecidableEq ν] in
/-- A file is told by its shape. -/
theorem content_eq_some_iff {bs : List β} : t.content x = some bs ↔ t.shape x = some (some bs) := by
  rw [content_eq_join]
  rcases t.shape x with _ | _ | bs' <;> simp

omit [DecidableEq ν] in
/-- A file has an entry. -/
theorem exists_node {bs : List β} (h : t.content x = some bs) : ∃ i, t x = some ⟨i, some bs⟩ := by
  unfold content at h
  rcases hn : t x with _ | ⟨i, _ | bs'⟩ <;> rw [hn] at h <;> cases h
  exact ⟨i, rfl⟩

omit [DecidableEq ν] in
theorem ne_none_of_content (h : t.content x ≠ none) : t x ≠ none := by
  intro hnone
  exact h (by rw [content, hnone]; rfl)

omit [DecidableEq ν] in
/-- What is there and is no directory is a file. -/
theorem exists_content (hx : t x ≠ none) (hdir : ¬ t.IsDir x) : ∃ bs, t.content x = some bs := by
  unfold content
  rcases hn : t x with _ | ⟨i, _ | bs⟩
  · exact absurd hn hx
  · exact absurd ⟨i, hn⟩ hdir
  · exact ⟨bs, rfl⟩

/-! ## trees as they are on a disk -/

/-- Everything is in a directory. -/
structure WellFormed (t : FileTree ν μ β) : Prop where
  root : t.IsDir []
  parent : ∀ x s, t (x ++ [s]) ≠ none → t.IsDir x

omit [DecidableEq ν] in
/-- What is above something is a directory. -/
theorem WellFormed.isDir_of_prefix (h : t.WellFormed) {y : List ν} (hx : t x ≠ none)
    (hy : y <+: x) (hne : y ≠ x) : t.IsDir y := by
  have hthere (z : List ν) (hz : t.IsDir z) : t z ≠ none := by
    obtain ⟨i, hi⟩ := hz
    simp [hi]
  exact dir_of_prefix hthere h.parent hx hy hne

omit [DecidableEq ν] in
/-- There is nothing below what is no directory. -/
theorem WellFormed.below (h : t.WellFormed) (hx : ¬ t.IsDir x) {y : List ν} (hy : x <+: y)
    (hne : x ≠ y) : t y = none :=
  Decidable.byContradiction fun hsome => hx (h.isDir_of_prefix hsome hy hne)

/-! ## operations -/

/-- A new entry for what is there. -/
def mark (t : FileTree ν μ β) (p : List ν) (i : μ) : FileTree ν μ β :=
  fun x => if x = p then (t x).map fun n => { n with info := i } else t x

/-- A file gets this content. -/
def store (t : FileTree ν μ β) (p : List ν) (i : μ) (bs : List β) : FileTree ν μ β :=
  Function.update t p (some ⟨i, some bs⟩)

/-- A file is put somewhere; the directory it is in gets a new entry. -/
def put (t : FileTree ν μ β) (p : List ν) (i : μ) (bs : List β) (above : μ) : FileTree ν μ β :=
  mark (store t p i bs) p.dropLast above

/-- Directories are made all the way down. -/
def mkdirs (t : FileTree ν μ β) (p : List ν) (i : List ν → μ) : FileTree ν μ β :=
  fun x => if x <+: p then some ⟨i x, content t x⟩ else t x

/-- What is at and below a place goes, apart from what is kept. -/
def prune (t : FileTree ν μ β) (p : List ν) (kept : List ν → Bool) (above : μ) :
    FileTree ν μ β :=
  mark (fun x => if p <+: x ∧ kept x = false then none else t x) p.dropLast above

/-- What is at and below `p` is moved to `q`, in place of what is there. -/
def move (t : FileTree ν μ β) (p q : List ν) (abovep aboveq : μ) : FileTree ν μ β :=
  mark (mark (fun x => if q <+: x then t (p ++ x.drop q.length) else if p <+: x then none else t x)
    p.dropLast abovep) q.dropLast aboveq

/-! ## what is there afterwards -/

/-- A new entry leaves the shape. -/
@[simp] theorem shape_mark (t : FileTree ν μ β) (p : List ν) (i : μ) (x : List ν) :
    (mark t p i).shape x = t.shape x := by
  unfold shape mark
  split
  · cases t x <;> rfl
  · rfl

/-- A store makes its place a file. -/
@[simp] theorem shape_store (t : FileTree ν μ β) (p : List ν) (i : μ) (bs : List β)
    (x : List ν) : (store t p i bs).shape x = if x = p then some (some bs) else t.shape x := by
  unfold shape store
  rw [Function.update_apply]
  split <;> rfl

/-- A put makes its place a file. -/
@[simp] theorem shape_put (t : FileTree ν μ β) (p : List ν) (i : μ) (bs : List β) (above : μ)
    (x : List ν) : (put t p i bs above).shape x = if x = p then some (some bs) else t.shape x := by
  rw [put, shape_mark, shape_store]

/-- Making directories makes them all the way down, and leaves files. -/
@[simp] theorem shape_mkdirs (t : FileTree ν μ β) (p : List ν) (i : List ν → μ) (x : List ν) :
    (mkdirs t p i).shape x = if x <+: p then some (t.content x) else t.shape x := by
  unfold shape mkdirs
  split <;> rfl

/-- Pruning takes what is not kept. -/
@[simp] theorem shape_prune (t : FileTree ν μ β) (p : List ν) (kept : List ν → Bool) (above : μ)
    (x : List ν) : (prune t p kept above).shape x =
      if p <+: x ∧ kept x = false then none else t.shape x := by
  rw [prune, shape_mark, shape, shape]
  split <;> rfl

/-- A move puts one subtree in place of another. -/
@[simp] theorem shape_move (t : FileTree ν μ β) (p q : List ν) (i j : μ) (x : List ν) :
    (move t p q i j).shape x = if q <+: x then t.shape (p ++ x.drop q.length)
      else if p <+: x then none else t.shape x := by
  rw [move, shape_mark, shape_mark, shape, shape, shape]
  split
  · rfl
  · split <;> rfl

omit [DecidableEq ν] in
/-- Whether a tree is well formed does not depend on its entries. -/
theorem WellFormed.congr (h : t.WellFormed) (hshape : ∀ x, t'.shape x = t.shape x) :
    t'.WellFormed := by
  have hdir (x : List ν) (hx : t.IsDir x) : t'.IsDir x := by
    rwa [isDir_iff_shape, hshape, ← isDir_iff_shape]
  refine ⟨hdir [] h.root, fun x s hxs => hdir x (h.parent x s ?_)⟩
  rwa [Ne, ← shape_eq_none_iff, ← hshape, shape_eq_none_iff]

/-- A file in a directory. -/
theorem WellFormed.store (h : t.WellFormed) (hparent : t.IsDir p.dropLast)
    (hdir : ¬ t.IsDir p) (i : μ) (bs : List β) : (t.store p i bs).WellFormed := by
  have hkeep (x : List ν) (hx : t.IsDir x) : (t.store p i bs).IsDir x := by
    have hne : x ≠ p := fun heq => hdir (heq ▸ hx)
    rw [isDir_iff_shape, shape_store, if_neg hne]
    exact isDir_iff_shape.mp hx
  refine ⟨hkeep [] h.root, fun x s hxs => hkeep x ?_⟩
  by_cases heq : x ++ [s] = p
  · rwa [← heq, List.dropLast_concat] at hparent
  · refine h.parent x s fun hnone => hxs ?_
    rw [← shape_eq_none_iff, shape_store, if_neg heq, shape_eq_none_iff, hnone]

/-- Putting a file into a directory keeps a tree well formed. -/
theorem WellFormed.put (h : t.WellFormed) (hparent : t.IsDir p.dropLast) (hdir : ¬ t.IsDir p)
    (i : μ) (bs : List β) (above : μ) : (t.put p i bs above).WellFormed :=
  (h.store hparent hdir i bs).congr fun _ => shape_mark ..

/-- Directories where no file is in the way. -/
theorem WellFormed.mkdirs (h : t.WellFormed) (hfree : ∀ y, y <+: p → t.content y = none)
    (i : List ν → μ) : (t.mkdirs p i).WellFormed := by
  have hmade (x : List ν) (hx : x <+: p) : (t.mkdirs p i).IsDir x := by
    rw [isDir_iff_shape, shape_mkdirs, if_pos hx, hfree x hx]
  have hkeep (x : List ν) (hx : t.IsDir x) : (t.mkdirs p i).IsDir x := by
    by_cases hxp : x <+: p
    · exact hmade x hxp
    · rw [isDir_iff_shape, shape_mkdirs, if_neg hxp]
      exact isDir_iff_shape.mp hx
  refine ⟨hkeep [] h.root, fun x s hxs => ?_⟩
  by_cases hxp : x ++ [s] <+: p
  · exact hmade x ((List.prefix_append x [s]).trans hxp)
  · refine hkeep x (h.parent x s fun hnone => hxs ?_)
    rw [← shape_eq_none_iff, shape_mkdirs, if_neg hxp, shape_eq_none_iff, hnone]

/-- With nothing below a place, only the place goes. -/
theorem prune_self (h : ∀ x, p <+: x → x ≠ p → t x = none) (above : μ) :
    t.prune p (fun x => x ≠ p) above = t.prune p (fun _ => false) above := by
  unfold FileTree.prune
  congr 1
  funext x
  by_cases hpx : p <+: x
  · by_cases hx : x = p
    · simp [hx]
    · simp [hpx, hx, h x hpx hx]
  · simp [hpx]

/-- A file goes. -/
theorem WellFormed.prune (h : t.WellFormed) (hdir : ¬ t.IsDir p) (above : μ) :
    (t.prune p (fun _ => false) above).WellFormed := by
  have hkeep (x : List ν) (hx : t.IsDir x) : (t.prune p (fun _ => false) above).IsDir x := by
    have hnot : ¬ p <+: x := by
      intro hpx
      by_cases heq : p = x
      · exact hdir (heq ▸ hx)
      · obtain ⟨i, hi⟩ := hx
        rw [h.below hdir hpx heq] at hi
        cases hi
    rw [isDir_iff_shape, shape_prune, if_neg fun h => hnot h.1]
    exact isDir_iff_shape.mp hx
  refine ⟨hkeep [] h.root, fun x s hxs => hkeep x (h.parent x s fun hnone => hxs ?_)⟩
  rw [← shape_eq_none_iff, shape_prune]
  split
  · rfl
  · rw [shape_eq_none_iff, hnone]

/-! ## what an operation leaves alone -/

structure ChangesAt (p : List ν) (t t' : FileTree ν μ β) : Prop where
  tree : ∀ x, ¬ x <+: p → ¬ p <+: x → t' x = t x
  content : ∀ x, ¬ p <+: x → content t' x = content t x

omit [DecidableEq ν] in
theorem ChangesAt.refl (p : List ν) (t : FileTree ν μ β) : ChangesAt p t t :=
  ⟨fun _ _ _ => rfl, fun _ _ => rfl⟩

omit [DecidableEq ν] in
/-- Changes at a place add up to a change there. -/
theorem ChangesAt.trans (h : ChangesAt p t t') (h' : ChangesAt p t' t'') : ChangesAt p t t'' :=
  ⟨fun x hx hp => (h'.tree x hx hp).trans (h.tree x hx hp),
    fun x hp => (h'.content x hp).trans (h.content x hp)⟩

omit [DecidableEq ν] in
/-- An operation further down. -/
theorem ChangesAt.above (h : ChangesAt p t t') (hp : root <+: p) : ChangesAt root t t' := by
  refine ⟨fun x hx hr => ?_, fun x hr => h.content x fun hpx => hr (hp.trans hpx)⟩
  refine h.tree x (fun hxp => ?_) fun hpx => hr (hp.trans hpx)
  rcases List.prefix_or_prefix_of_prefix hxp hp with hxr | hrx
  · exact hx hxr
  · exact hr hrx

omit [DecidableEq ν] in
/-- A place that is neither above nor below keeps all that is under it. -/
theorem ChangesAt.apart (h : ChangesAt p t t') (hpr : ¬ p <+: root) (hrp : ¬ root <+: p)
    (hx : root <+: x) : t' x = t x := by
  refine h.tree x (fun hxp => hrp (hx.trans hxp)) fun hpx => ?_
  exact (List.prefix_or_prefix_of_prefix hpx hx).elim hpr hrp

/-- A new entry leaves every content. -/
theorem content_mark (t : FileTree ν μ β) (p : List ν) (i : μ) (x : List ν) :
    content (mark t p i) x = content t x := by
  rw [content_eq_join, shape_mark, content_eq_join]

/-- A store changes one content. -/
theorem content_store (t : FileTree ν μ β) (p : List ν) (i : μ) (bs : List β) (x : List ν) :
    content (store t p i bs) x = if x = p then some bs else content t x := by
  rw [content_eq_join, shape_store, content_eq_join]
  split <;> rfl

/-- A put changes one content. -/
theorem content_put (t : FileTree ν μ β) (p : List ν) (i : μ) (bs : List β) (above : μ)
    (x : List ν) : content (put t p i bs above) x = if x = p then some bs else content t x := by
  rw [put, content_mark, content_store]

/-- A new entry at the place or above it. -/
theorem changesAt_mark (t : FileTree ν μ β) {q : List ν} (hq : q <+: p) (i : μ) :
    ChangesAt p t (mark t q i) := by
  refine ⟨fun x hx _ => if_neg ?_, fun x _ => content_mark t q i x⟩
  rintro rfl
  exact hx hq

/-- A store is a change at its place. -/
theorem changesAt_store (t : FileTree ν μ β) (p : List ν) (i : μ) (bs : List β) :
    ChangesAt p t (store t p i bs) := by
  have hstore (x : List ν) (hx : ¬ p <+: x) : store t p i bs x = t x := by
    refine Function.update_of_ne ?_ _ _
    rintro rfl
    exact hx (List.prefix_refl x)
  exact ⟨fun x _ hx => hstore x hx,
    fun x hx => by rw [FileTree.content, hstore x hx, FileTree.content]⟩

/-- A put is a change at its place, the entry of the directory above included.
-/
theorem changesAt_put (t : FileTree ν μ β) (p : List ν) (i : μ) (bs : List β) (above : μ) :
    ChangesAt p t (put t p i bs above) :=
  (changesAt_store t p i bs).trans (changesAt_mark _ (List.dropLast_prefix p) above)

/-- Making directories changes the content of no file. -/
theorem content_mkdirs (t : FileTree ν μ β) (p : List ν) (i : List ν → μ) (x : List ν) :
    content (mkdirs t p i) x = content t x := by
  unfold mkdirs
  by_cases hx : x <+: p
  · rw [FileTree.content, if_pos hx, Option.bind_some]
  · rw [FileTree.content, if_neg hx, FileTree.content]

/-- Directories made above a place, or below it. -/
theorem changesAt_mkdirs (t : FileTree ν μ β) (h : p <+: root ∨ root <+: p) (i : List ν → μ) :
    ChangesAt root t (mkdirs t p i) := by
  refine ⟨fun x hx hr => if_neg fun hxp => ?_, fun x _ => content_mkdirs t p i x⟩
  rcases h with h | h
  · exact hx (hxp.trans h)
  · exact (List.prefix_or_prefix_of_prefix hxp h).elim hx hr

/-- Pruning is a change at its place. -/
theorem changesAt_prune (t : FileTree ν μ β) (p : List ν) (kept : List ν → Bool) (above : μ) :
    ChangesAt p t (prune t p kept above) := by
  have hgone (x : List ν) (hx : ¬ p <+: x) :
      (if p <+: x ∧ kept x = false then none else t x) = t x :=
    if_neg fun h => hx h.1
  have hset : ChangesAt p t fun x => if p <+: x ∧ kept x = false then none else t x :=
    ⟨fun x _ hx => hgone x hx, fun x hx => by rw [FileTree.content, hgone x hx, FileTree.content]⟩
  exact hset.trans (changesAt_mark _ (List.dropLast_prefix p) above)

/-- A move within a root is a change at the root. -/
theorem changesAt_move (t : FileTree ν μ β) (hp : root <+: p) (hq : root <+: q)
    (abovep aboveq : μ) : ChangesAt root t (move t p q abovep aboveq) := by
  have hmoved (x : List ν) (hx : ¬ root <+: x) :
      (if q <+: x then t (p ++ x.drop q.length) else if p <+: x then none else t x) = t x := by
    rw [if_neg fun h => hx (hq.trans h), if_neg fun h => hx (hp.trans h)]
  have hset : ChangesAt root t fun x =>
      if q <+: x then t (p ++ x.drop q.length) else if p <+: x then none else t x :=
    ⟨fun x _ hx => hmoved x hx, fun x hx => by rw [FileTree.content, hmoved x hx, FileTree.content]⟩
  have hmarkp := (changesAt_mark (fun x =>
      if q <+: x then t (p ++ x.drop q.length) else if p <+: x then none else t x)
    (List.dropLast_prefix p) abovep).above hp
  exact (hset.trans hmarkp).trans ((changesAt_mark _ (List.dropLast_prefix q) aboveq).above hq)

end FileTree

end OcuFilestore
