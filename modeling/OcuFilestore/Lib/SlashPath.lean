/-!
# OcuFilestore.Lib.SlashPath

Separator-delimited paths over an arbitrary alphabet, with the operations of
Go's `path` package: `clean` (lexical normalization), `join` and `dir`.

A path is a list of symbols; the alphabet marks one symbol as the separator
and another as the dot.  The normal forms are `rel ss` and `fromRoot ss`, the
relative and the rooted path with segments `ss`; on lists of *plain*
segments (non-empty, no separator, neither `.` nor `..`) `clean` is the
identity on them and `join` is the concatenation of segment lists, so every
fact about a normalized path becomes a fact about its segment list.
-/

namespace OcuFilestore

/-- An alphabet with a path separator and a dot. -/
class PathAlphabet (α : Type) where
  sep : α
  dot : α
  sep_ne_dot : sep ≠ dot

instance : PathAlphabet Char where
  sep := '/'
  dot := '.'
  sep_ne_dot := by decide

namespace SlashPath

open PathAlphabet

variable {α : Type} [DecidableEq α] [PathAlphabet α]

/-- The segments between separators; the empty path has one empty segment. -/
def segs (p : List α) : List (List α) := p.splitOn sep

/-- The relative path with the given segments. -/
def rel (ss : List (List α)) : List α := [sep].intercalate ss

/-- The rooted path with the given segments. -/
def fromRoot (ss : List (List α)) : List α := sep :: rel ss

def isRooted (p : List α) : Bool := p.head? == some sep

/-- What `..` does to the kept segments (top first): it removes the segment
before it; where there is none it is kept in a relative path and dropped in
a rooted one. -/
def ascend (rooted : Bool) : List (List α) → List (List α)
  | [] => if rooted then [] else [[dot, dot]]
  | t :: acc => if t = [dot, dot] then [dot, dot] :: t :: acc else acc

/-- One segment of the normalization pass: an empty segment and `.` are
dropped. -/
def keep (rooted : Bool) (acc : List (List α)) (s : List α) : List (List α) :=
  if s = [] ∨ s = [dot] then acc
  else if s = [dot, dot] then ascend rooted acc
  else s :: acc

/-- The segments that remain after the pass over all of them. -/
def resolve (rooted : Bool) (ss : List (List α)) : List (List α) :=
  (ss.foldl (keep rooted) []).reverse

/-- Go's `path.Clean`: the shortest path lexically equivalent to `p`. -/
def clean (p : List α) : List α :=
  if isRooted p then fromRoot (resolve true (segs p))
  else
    match resolve false (segs p) with
    | [] => [dot]
    | ss => rel ss

/-- Go's `path.Join` of two elements. -/
def join (a b : List α) : List α :=
  if a = [] then if b = [] then [] else clean b
  else clean (a ++ sep :: b)

/-- Go's `path.Dir`: what is in front of the last separator, cleaned. -/
def dir (p : List α) : List α := clean (p.reverse.dropWhile (· ≠ sep)).reverse

/-! ## plain segments and canonical paths -/

/-- A segment that names a file: non-empty, no separator, not `.` or `..`. -/
structure Plain (s : List α) : Prop where
  ne_nil : s ≠ []
  ne_dot : s ≠ [dot]
  ne_dotdot : s ≠ [dot, dot]
  sep_notMem : sep ∉ s

instance (s : List α) : Decidable (Plain s) :=
  decidable_of_iff (s ≠ [] ∧ s ≠ [dot] ∧ s ≠ [dot, dot] ∧ sep ∉ s)
    ⟨fun ⟨h₁, h₂, h₃, h₄⟩ => ⟨h₁, h₂, h₃, h₄⟩, fun ⟨h₁, h₂, h₃, h₄⟩ => ⟨h₁, h₂, h₃, h₄⟩⟩

omit [DecidableEq α] in
theorem plain_append {ss ts : List (List α)} (hss : ∀ s ∈ ss, Plain s) (hts : ∀ s ∈ ts, Plain s) :
    ∀ s ∈ ss ++ ts, Plain s :=
  fun s hs => (List.mem_append.mp hs).elim (hss s) (hts s)

/-- A canonical path: rooted, no empty, `.` or `..` segment, and no trailing
separator unless it is the root itself. -/
def Canonical (p : List α) : Prop :=
  p = [sep] ∨ isRooted p = true ∧ ∀ s ∈ segs p.tail, s ≠ [] ∧ s ≠ [dot] ∧ s ≠ [dot, dot]

instance (p : List α) : Decidable (Canonical p) := by unfold Canonical; infer_instance

/-- No segment of a path contains the separator. -/
theorem sep_notMem_of_mem_segs : ∀ (p : List α), ∀ s ∈ segs p, sep ∉ s
  | [], s, hs => by
      simp only [segs, List.splitOn_nil, List.mem_singleton] at hs
      simp [hs]
  | c :: p, s, hs => by
      have ih := sep_notMem_of_mem_segs p
      simp only [segs, List.splitOn_cons_eq_if_modifyHead] at hs ih
      split at hs
      · rcases List.mem_cons.mp hs with rfl | hs
        · simp
        · exact ih s hs
      · next hc =>
          cases hsp : p.splitOn sep with
          | nil => exact absurd hsp (List.splitOn_ne_nil _ _)
          | cons t ts =>
              rw [hsp] at hs ih
              rcases List.mem_cons.mp hs with rfl | hs
              · have ht := ih t List.mem_cons_self
                simp only [List.mem_cons, not_or]
                exact ⟨fun h => hc (by simp [h]), ht⟩
              · exact ih s (List.mem_cons_of_mem _ hs)

omit [DecidableEq α] in
@[simp] theorem rel_nil : rel ([] : List (List α)) = [] := rfl

/-- A path from the root is absolute. -/
@[simp] theorem isRooted_fromRoot (ss : List (List α)) : isRooted (fromRoot ss) = true := by
  simp [isRooted, fromRoot]

omit [DecidableEq α] in
/-- Relative paths are put together with a slash. -/
theorem rel_append {ss ts : List (List α)} (hs : ss ≠ []) (ht : ts ≠ []) :
    rel (ss ++ ts) = rel ss ++ sep :: rel ts := by
  induction ss with
  | nil => exact absurd rfl hs
  | cons s ss ih =>
      cases ss with
      | nil => simp [rel, List.intercalate_cons_of_ne_nil ht]
      | cons s' ss =>
          have h := ih (by simp)
          simp only [rel, List.cons_append] at h ⊢
          rw [List.intercalate_cons_cons, h, List.intercalate_cons_cons]
          simp

omit [DecidableEq α] in
/-- A child of a rooted path other than the root. -/
theorem fromRoot_concat {ss : List (List α)} (hs : ss ≠ []) (s : List α) :
    fromRoot (ss ++ [s]) = fromRoot ss ++ sep :: s := by
  rw [fromRoot, rel_append hs (by simp)]
  simp [fromRoot, rel]

/-- Splitting undoes joining when no segment contains the separator. -/
theorem segs_rel {ss : List (List α)} (hss : ss ≠ []) (h : ∀ s ∈ ss, sep ∉ s) :
    segs (rel ss) = ss :=
  List.splitOn_intercalate sep h hss

/-- Without a slash there is one segment. -/
theorem segs_of_notMem {s : List α} (h : sep ∉ s) : segs s = [s] := by
  have hs : segs (rel [s]) = [s] := segs_rel (by simp) (by simpa using h)
  simpa [rel] using hs

/-- A slash in front is an empty first segment. -/
theorem segs_sep_cons (p : List α) : segs (sep :: p) = [] :: segs p := by
  simp only [segs]
  rw [List.splitOn_cons_eq_if_modifyHead, if_pos (by simp)]

/-- A rooted path is canonical exactly when its segments are plain. -/
theorem canonical_fromRoot {ss : List (List α)} (h : ∀ s ∈ ss, Plain s) :
    Canonical (fromRoot ss) := by
  cases ss with
  | nil => exact Or.inl rfl
  | cons s ss =>
      refine Or.inr ⟨isRooted_fromRoot _, fun t ht => ?_⟩
      rw [fromRoot, List.tail_cons, segs_rel (by simp) fun t ht => (h t ht).sep_notMem] at ht
      exact ⟨(h t ht).ne_nil, (h t ht).ne_dot, (h t ht).ne_dotdot⟩

/-- A path from the root can be read back to its names. -/
theorem fromRoot_injective {ss ts : List (List α)} (hs : ∀ s ∈ ss, Plain s)
    (ht : ∀ s ∈ ts, Plain s) (h : fromRoot ss = fromRoot ts) : ss = ts := by
  have hrel : rel ss = rel ts := (List.cons.inj h).2
  -- the empty list is the one segment list that splitting does not recover
  by_cases hs0 : ss = []
  · by_cases ht0 : ts = []
    · rw [hs0, ht0]
    · have := segs_rel ht0 fun s h => (ht s h).sep_notMem
      rw [← hrel, hs0] at this
      simp only [rel_nil, segs, List.splitOn_nil] at this
      exact absurd rfl (ht [] (this ▸ List.mem_singleton_self _)).ne_nil
  · by_cases ht0 : ts = []
    · have := segs_rel hs0 fun s h => (hs s h).sep_notMem
      rw [hrel, ht0] at this
      simp only [rel_nil, segs, List.splitOn_nil] at this
      exact absurd rfl (hs [] (this ▸ List.mem_singleton_self _)).ne_nil
    · rw [← segs_rel hs0 fun s h => (hs s h).sep_notMem, hrel,
        segs_rel ht0 fun s h => (ht s h).sep_notMem]

/-! ## the normalization pass -/

@[simp] theorem keep_nil (rooted : Bool) (acc : List (List α)) : keep rooted acc [] = acc := by
  simp [keep]

/-- A plain segment is kept. -/
theorem keep_plain {rooted : Bool} {s : List α} (h : Plain s) (acc : List (List α)) :
    keep rooted acc s = s :: acc := by
  rw [keep, if_neg (by simp [h.ne_nil, h.ne_dot]), if_neg h.ne_dotdot]

@[simp] theorem resolve_nil_cons (rooted : Bool) (ss : List (List α)) :
    resolve rooted ([] :: ss) = resolve rooted ss := by
  simp [resolve]

/-- A trailing separator adds one empty segment, which the pass drops. -/
@[simp] theorem resolve_concat_nil (rooted : Bool) (ss : List (List α)) :
    resolve rooted (ss ++ [[]]) = resolve rooted ss := by
  simp [resolve]

/-- Plain segments are all kept, in their order. -/
theorem foldl_keep_plain (rooted : Bool) {ss : List (List α)} (h : ∀ s ∈ ss, Plain s)
    (acc : List (List α)) : ss.foldl (keep rooted) acc = ss.reverse ++ acc := by
  induction ss generalizing acc with
  | nil => rfl
  | cons s ss ih =>
      rw [List.foldl_cons, keep_plain (h s List.mem_cons_self),
        ih fun t ht => h t (List.mem_cons_of_mem _ ht)]
      simp

/-- Plain segments are all kept. -/
theorem resolve_of_plain (rooted : Bool) {ss : List (List α)} (h : ∀ s ∈ ss, Plain s) :
    resolve rooted ss = ss := by
  simp [resolve, foldl_keep_plain rooted h]

/-- Below the root only plain names are kept. -/
theorem plain_of_mem_keep {acc : List (List α)} {s : List α} (hacc : ∀ t ∈ acc, Plain t)
    (hs : sep ∉ s) : ∀ t ∈ keep true acc s, Plain t := by
  unfold keep
  split
  · exact hacc
  · next hne =>
      rw [not_or] at hne
      split
      · cases acc with
        | nil => simp [ascend]
        | cons t acc =>
            rw [ascend, if_neg (hacc t List.mem_cons_self).ne_dotdot]
            exact fun u hu => hacc u (List.mem_cons_of_mem _ hu)
      · next hdd =>
          intro u hu
          rcases List.mem_cons.mp hu with rfl | hu
          · exact ⟨hne.1, hne.2, hdd, hs⟩
          · exact hacc u hu

/-- What is left of an absolute path is plain names. -/
theorem plain_of_mem_foldl_keep {ss : List (List α)} (hs : ∀ s ∈ ss, sep ∉ s)
    {acc : List (List α)} (hacc : ∀ t ∈ acc, Plain t) :
    ∀ t ∈ ss.foldl (keep true) acc, Plain t := by
  induction ss generalizing acc with
  | nil => exact hacc
  | cons s ss ih =>
      exact ih (fun t ht => hs t (List.mem_cons_of_mem _ ht))
        (plain_of_mem_keep hacc (hs s List.mem_cons_self))

/-- In a rooted path only plain segments survive. -/
theorem plain_of_mem_resolve {ss : List (List α)} (hs : ∀ s ∈ ss, sep ∉ s) :
    ∀ t ∈ resolve true ss, Plain t := by
  intro t ht
  exact plain_of_mem_foldl_keep hs (by simp) t (List.mem_reverse.mp ht)

/-! ## clean and join on normal forms -/

/-- An absolute path is cleaned to the names that are left of it. -/
theorem clean_sep_cons (p : List α) : clean (sep :: p) = fromRoot (resolve true (segs p)) := by
  rw [clean, if_pos (by simp [isRooted]), segs_sep_cons, resolve_nil_cons]

/-- `clean` of a rooted path is canonical. -/
theorem canonical_clean (p : List α) : Canonical (clean (sep :: p)) := by
  rw [clean_sep_cons]
  exact canonical_fromRoot (plain_of_mem_resolve (sep_notMem_of_mem_segs p))

/-- A path from the root with plain names is clean. -/
theorem clean_fromRoot {ss : List (List α)} (h : ∀ s ∈ ss, Plain s) :
    clean (fromRoot ss) = fromRoot ss := by
  rw [fromRoot, clean_sep_cons]
  by_cases hss : ss = []
  · subst hss
    simp [segs, resolve, fromRoot]
  · rw [segs_rel hss fun s hs => (h s hs).sep_notMem, resolve_of_plain true h, fromRoot]

/-- A second leading separator is dropped. -/
theorem clean_sep_fromRoot {ss : List (List α)} (h : ∀ s ∈ ss, Plain s) :
    clean (sep :: fromRoot ss) = fromRoot ss := by
  have hseg : segs (fromRoot ss) = [] :: segs (rel ss) := segs_sep_cons _
  rw [clean_sep_cons, hseg, resolve_nil_cons, ← clean_sep_cons]
  exact clean_fromRoot h

/-- A relative path of plain names is not absolute. -/
theorem head?_rel_ne_sep {ss : List (List α)} (h : ∀ s ∈ ss, Plain s) :
    isRooted (rel ss) = false := by
  cases ss with
  | nil => simp [isRooted]
  | cons s ss =>
      obtain ⟨h₁, -, -, h₄⟩ := h s List.mem_cons_self
      cases s with
      | nil => exact absurd rfl h₁
      | cons c s =>
          have hc : c ≠ sep := fun hc => h₄ (by simp [hc])
          cases ss with
          | nil => simp [isRooted, rel, hc]
          | cons t ts => simp [isRooted, rel, List.intercalate_cons_cons, hc]

/-- A relative path of plain names is clean. -/
theorem clean_rel {ss : List (List α)} (hss : ss ≠ []) (h : ∀ s ∈ ss, Plain s) :
    clean (rel ss) = rel ss := by
  rw [clean, head?_rel_ne_sep h, if_neg (by simp), segs_rel hss fun s hs => (h s hs).sep_notMem,
    resolve_of_plain false h]
  cases ss with
  | nil => exact absurd rfl hss
  | cons s ss => rfl

theorem rel_ne_nil {ss : List (List α)} (hss : ss ≠ []) (h : ∀ s ∈ ss, Plain s) :
    rel ss ≠ [] := by
  intro h0
  have := segs_rel hss fun s hs => (h s hs).sep_notMem
  rw [h0, segs, List.splitOn_nil] at this
  exact (h [] (this ▸ List.mem_singleton_self _)).ne_nil rfl

/-- Joining relative paths concatenates their segment lists. -/
theorem join_rel {ss ts : List (List α)} (hs : ∀ s ∈ ss, Plain s) (ht : ∀ s ∈ ts, Plain s) :
    join (rel ss) (rel ts) = rel (ss ++ ts) := by
  have hst := plain_append hs ht
  by_cases hs0 : ss = []
  · subst hs0
    by_cases ht0 : ts = []
    · simp [join, ht0]
    · rw [join, if_pos rel_nil, if_neg (rel_ne_nil ht0 ht), clean_rel ht0 ht, List.nil_append]
  · rw [join, if_neg (rel_ne_nil hs0 hs)]
    by_cases ht0 : ts = []
    · subst ht0
      have hseg : segs (rel ss ++ [sep]) = ss ++ [[]] := by
        have hr := segs_rel hs0 fun s hs' => (hs s hs').sep_notMem
        rw [segs] at hr ⊢
        rw [List.splitOn_append_cons_self, hr, List.splitOn_nil]
      have hroot : isRooted (rel ss ++ [sep]) = false := by
        have h := head?_rel_ne_sep hs
        have hne := rel_ne_nil hs0 hs
        cases hr : rel ss with
        | nil => exact absurd hr hne
        | cons c cs => simpa [isRooted, hr] using h
      rw [rel_nil, clean, hroot, if_neg (by simp), hseg, resolve_concat_nil,
        resolve_of_plain false hs, List.append_nil]
      cases ss with
      | nil => exact absurd rfl hs0
      | cons s ss => rfl
    · rw [← rel_append hs0 ht0, clean_rel (by simp [hs0]) hst]

/-- Joining a relative path onto a rooted one concatenates the segment lists. -/
theorem join_fromRoot {ss ts : List (List α)} (hs : ∀ s ∈ ss, Plain s) (ht : ∀ s ∈ ts, Plain s)
    (ht0 : ts ≠ []) : join (fromRoot ss) (rel ts) = fromRoot (ss ++ ts) := by
  have hst := plain_append hs ht
  rw [join, if_neg (by simp [fromRoot])]
  by_cases hs0 : ss = []
  · subst hs0
    have hseg := segs_rel ht0 fun s h => (ht s h).sep_notMem
    rw [fromRoot, rel_nil, List.cons_append, List.nil_append, clean_sep_cons, segs_sep_cons,
      resolve_nil_cons, hseg, resolve_of_plain true ht, List.nil_append]
  · rw [fromRoot, List.cons_append, ← rel_append hs0 ht0, ← fromRoot, clean_fromRoot hst]

/-- Joining a rooted path onto a rooted one. -/
theorem join_sep_fromRoot (p : List α) {ts : List (List α)} (ht : ∀ s ∈ ts, Plain s) :
    join (sep :: p) (fromRoot ts) = fromRoot (resolve true (segs p) ++ ts) := by
  have hsplit : segs (p ++ sep :: fromRoot ts) = segs p ++ [] :: segs (rel ts) := by
    rw [fromRoot, ← segs_sep_cons]
    exact List.splitOn_append_cons_self ..
  have hrel : resolve true (segs p ++ [] :: segs (rel ts)) = resolve true (segs p) ++ ts := by
    by_cases ht0 : ts = []
    · simp [ht0, segs, resolve]
    · rw [segs_rel ht0 fun s hs => (ht s hs).sep_notMem]
      simp [resolve, foldl_keep_plain true ht]
  rw [join, if_neg (by simp), List.cons_append, clean_sep_cons, hsplit, hrel]

/-- The directory of a rooted path. -/
theorem dir_fromRoot {ss : List (List α)} (h : ∀ s ∈ ss, Plain s) :
    dir (fromRoot ss) = fromRoot ss.dropLast := by
  -- what is left of the last separator, with the separator
  have hcut (q s : List α) (hs : sep ∉ s) :
      ((q ++ sep :: s).reverse.dropWhile (· ≠ sep)).reverse = q ++ [sep] := by
    have hdrop : (s.reverse ++ sep :: q.reverse).dropWhile (· ≠ sep) = sep :: q.reverse := by
      rw [List.dropWhile_append_of_pos (by grind)]
      simp
    simp only [List.reverse_append, List.reverse_cons, List.append_assoc, List.singleton_append]
    rw [hdrop]
    simp
  have hroot : clean (fromRoot ([] : List (List α))) = fromRoot [] := clean_fromRoot (by simp)
  cases hss : ss.reverse with
  | nil =>
      obtain rfl := List.reverse_eq_nil_iff.mp hss
      rw [dir, fromRoot, rel_nil, List.dropLast_nil]
      exact (congrArg clean (hcut [] [] (by simp))).trans hroot
  | cons s us =>
      obtain rfl : ss = us.reverse ++ [s] := by simpa using congrArg List.reverse hss
      have hs : sep ∉ s := (h s (by simp)).sep_notMem
      have hus : ∀ t ∈ us.reverse, Plain t := fun t ht => h t (List.mem_append_left _ ht)
      rw [List.dropLast_concat, dir]
      by_cases hnil : us.reverse = []
      · have hrel : rel [s] = s := by simp [rel]
        rw [hnil, List.nil_append, fromRoot, hrel]
        exact (congrArg clean (hcut [] s hs)).trans hroot
      · rw [fromRoot_concat hnil, hcut _ _ hs, fromRoot, List.cons_append, clean_sep_cons]
        have hseg : segs (rel us.reverse ++ [sep]) = us.reverse ++ [[]] := by
          have hr := segs_rel hnil fun t ht => (hus t ht).sep_notMem
          rw [segs] at hr ⊢
          rw [List.splitOn_append_cons_self, hr, List.splitOn_nil]
        rw [hseg, resolve_concat_nil, resolve_of_plain true hus, fromRoot]

/-! ## cleaned paths of either kind -/

/-- The rooted or the relative path with the given segments. -/
def build (rooted : Bool) (ss : List (List α)) : List α := if rooted then fromRoot ss else rel ss

/-- Going up brings in nothing but two dots. -/
theorem mem_ascend {rooted : Bool} {acc : List (List α)} {t : List α} (h : t ∈ ascend rooted acc) :
    t = [dot, dot] ∨ t ∈ acc := by
  cases acc with
  | nil => cases rooted <;> simp_all [ascend]
  | cons u acc =>
      rw [ascend] at h
      split at h
      · exact List.mem_cons.mp h
      · exact Or.inr (List.mem_cons_of_mem _ h)

/-- What is kept was there, or is the segment itself. -/
theorem mem_keep {rooted : Bool} {acc : List (List α)} {s t : List α} (h : t ∈ keep rooted acc s) :
    t = s ∧ s ≠ [] ∨ t ∈ acc := by
  unfold keep at h
  split at h
  · exact Or.inr h
  · next hs =>
      have hs0 : s ≠ [] := fun h0 => hs (Or.inl h0)
      split at h
      · next hdd => exact (mem_ascend h).imp_left fun ht => ⟨ht.trans hdd.symm, hs0⟩
      · exact (List.mem_cons.mp h).imp_left fun ht => ⟨ht, hs0⟩

/-- The pass adds no segment, and drops the empty ones. -/
theorem mem_of_mem_resolve {rooted : Bool} {ss : List (List α)} {t : List α}
    (h : t ∈ resolve rooted ss) : t ∈ ss ∧ t ≠ [] := by
  have hfold : ∀ ss acc : List (List α), t ∈ ss.foldl (keep rooted) acc →
      (t ∈ ss ∧ t ≠ []) ∨ t ∈ acc := by
    intro ss
    induction ss with
    | nil => exact fun acc ht => Or.inr ht
    | cons s ss ih =>
        intro acc ht
        rcases ih _ ht with ht | ht
        · exact Or.inl ⟨List.mem_cons_of_mem _ ht.1, ht.2⟩
        · rcases mem_keep ht with ⟨rfl, hs⟩ | ht
          · exact Or.inl ⟨List.mem_cons_self, hs⟩
          · exact Or.inr ht
  simpa using hfold ss [] (List.mem_reverse.mp h)

/-- No segment that survives the pass contains the separator. -/
theorem sep_notMem_of_mem_resolve {rooted : Bool} {ss : List (List α)} (h : ∀ s ∈ ss, sep ∉ s) :
    ∀ t ∈ resolve rooted ss, sep ∉ t :=
  fun t ht => h t (mem_of_mem_resolve ht).1

/-- Plain segments are added at the end. -/
theorem resolve_append_plain (rooted : Bool) (ss : List (List α)) {ts : List (List α)}
    (h : ∀ s ∈ ts, Plain s) : resolve rooted (ss ++ ts) = resolve rooted ss ++ ts := by
  simp [resolve, foldl_keep_plain rooted h]

/-- Joining a relative path of plain segments onto any path. -/
theorem join_eq_build (p : List α) {ts : List (List α)} (h : ∀ s ∈ ts, Plain s) (hts : ts ≠ []) :
    join p (rel ts) = build (isRooted p) (resolve (isRooted p) (segs p) ++ ts) := by
  have hseg := segs_rel hts fun s hs => (h s hs).sep_notMem
  cases p with
  | nil =>
      rw [join, if_pos rfl, if_neg (rel_ne_nil hts h), clean_rel hts h]
      simp [build, isRooted, segs, resolve]
  | cons c p =>
      have hroot : isRooted (c :: p ++ sep :: rel ts) = isRooted (c :: p) := rfl
      have hsplit : segs (c :: p ++ sep :: rel ts) = segs (c :: p) ++ segs (rel ts) :=
        List.splitOn_append_cons_self ..
      rw [join, if_neg (by simp), clean, hroot, hsplit, hseg]
      cases isRooted (c :: p) with
      | true => rw [if_pos rfl, resolve_append_plain _ _ h, build, if_pos rfl]
      | false =>
          rw [if_neg (by simp), resolve_append_plain _ _ h, build, if_neg (by simp)]
          split
          · next hnil => exact absurd (List.append_eq_nil_iff.mp hnil).2 hts
          · rfl

/-- A clean path other than `.` is built from its segments. -/
theorem eq_build_of_clean {p : List α} (h : p = [] ∨ clean p = p) (hdot : p ≠ [dot]) :
    p = build (isRooted p) (resolve (isRooted p) (segs p)) := by
  rcases h with rfl | h
  · simp [build, isRooted, segs, resolve]
  · unfold clean at h
    split at h
    · next hr => rw [build, hr, if_pos rfl, h]
    · next hr =>
        rw [Bool.not_eq_true] at hr
        rw [build, hr, if_neg (by simp)]
        split at h
        · exact absurd h.symm hdot
        · exact h.symm

omit [DecidableEq α] in
theorem plain_concat {ss : List (List α)} {s : List α} (hss : ∀ t ∈ ss, Plain t) (hs : Plain s) :
    ∀ t ∈ ss ++ [s], Plain t :=
  plain_append hss (by simpa using hs)

/-- A plain segment after a separator is one more name. -/
theorem clean_sep_append {q s : List α} (h : Plain s) :
    clean (sep :: (q ++ sep :: s)) = fromRoot (resolve true (segs q) ++ [s]) := by
  have hsplit : segs (q ++ sep :: s) = segs q ++ segs s := List.splitOn_append_cons_self ..
  rw [clean_sep_cons, hsplit, segs_of_notMem h.sep_notMem,
    resolve_append_plain _ _ (by simpa using h)]

/-! ## climbing above the start -/

/-- The depth a walk along the segments ends at, from depth `d`; none when it
climbs above its start. -/
def climb : Nat → List (List α) → Option Nat
  | d, [] => some d
  | d, s :: ss =>
      if s = [] ∨ s = [dot] then climb d ss
      else if s = [dot, dot] then if d = 0 then none else climb (d - 1) ss
      else climb (d + 1) ss

/-- The pass over a relative path keeps what the rooted pass keeps, below the
`..` it could not resolve (`k` of them so far); it adds to these exactly when
the walk climbs above its start. -/
theorem foldl_keep_false (ss : List (List α)) {acc : List (List α)} (hacc : [dot, dot] ∉ acc)
    (k : Nat) :
    ∃ k', ss.foldl (keep false) (acc ++ List.replicate k [dot, dot]) =
        ss.foldl (keep true) acc ++ List.replicate k' [dot, dot] ∧ k ≤ k' ∧
      match climb acc.length ss with
      | none => k < k'
      | some d => k' = k ∧ (ss.foldl (keep true) acc).length = d := by
  induction ss generalizing acc k with
  | nil => exact ⟨k, rfl, Nat.le_refl k, rfl, rfl⟩
  | cons s ss ih =>
      simp only [List.foldl_cons, climb, keep]
      split
      · exact ih hacc k
      · split
        · cases acc with
          | nil =>
              -- the one place where the two passes differ
              obtain ⟨k', hk', hle, -⟩ := ih hacc (k + 1)
              have hup : ascend false (List.replicate k [dot, dot]) =
                  List.replicate (k + 1) ([dot, dot] : List α) := by
                cases k <;> simp [ascend, List.replicate_succ]
              rw [List.nil_append, hup]
              exact ⟨k', hk', by omega, by simpa using (by omega : k < k')⟩
          | cons t acc =>
              have ht : t ≠ [dot, dot] := fun h => hacc (by simp [h])
              have hacc' : [dot, dot] ∉ acc := fun h => hacc (List.mem_cons_of_mem _ h)
              simpa [ascend, ht] using ih hacc' k
        · next hdd =>
            have hacc' : [dot, dot] ∉ s :: acc := by
              simpa [eq_comm] using ⟨hdd, hacc⟩
            simpa using ih hacc' k

/-- A walk that does not climb above its start: the relative and the rooted
pass agree. -/
theorem resolve_false_of_climb {ss : List (List α)} {d : Nat} (h : climb 0 ss = some d) :
    resolve false ss = resolve true ss ∧ (resolve true ss).length = d := by
  obtain ⟨k', hk', -, hcl⟩ := foldl_keep_false ss (List.not_mem_nil (a := [dot, dot])) 0
  simp only [List.length_nil, h] at hcl
  simp only [hcl.1, List.replicate_zero, List.append_nil] at hk'
  exact ⟨by rw [resolve, resolve, hk'], by rw [resolve, List.length_reverse, hcl.2]⟩

/-- A walk that climbs above its start leaves the relative pass with more
segments than the rooted one. -/
theorem length_resolve_of_climb {ss : List (List α)} (h : climb 0 ss = none) :
    (resolve true ss).length < (resolve false ss).length := by
  obtain ⟨k', hk', -, hcl⟩ := foldl_keep_false ss (List.not_mem_nil (a := [dot, dot])) 0
  simp only [List.length_nil, h] at hcl
  simp only [List.replicate_zero, List.append_nil] at hk'
  simp only [resolve, hk', List.length_reverse, List.length_append, List.length_replicate]
  omega

/-- Resolving a path from the root comes to the same place when it was
resolved before: the `..` that a relative path keeps in front are dropped. -/
theorem resolve_true_resolve {rooted : Bool} {ss : List (List α)} (h : ∀ s ∈ ss, sep ∉ s) :
    resolve true (resolve rooted ss) = resolve true ss := by
  have hplain := plain_of_mem_resolve h
  cases rooted with
  | true => exact resolve_of_plain true hplain
  | false =>
      obtain ⟨k, hk, -⟩ := foldl_keep_false ss (List.not_mem_nil (a := [dot, dot])) 0
      have hfalse : resolve false ss = List.replicate k [dot, dot] ++ resolve true ss := by
        rw [List.replicate_zero, List.append_nil] at hk
        rw [resolve, hk, List.reverse_append, List.reverse_replicate, resolve]
      have hups : ∀ n, resolve true (List.replicate n ([dot, dot] : List α)) = [] := by
        intro n
        rw [resolve, List.reverse_eq_nil_iff]
        induction n with
        | zero => rfl
        | succ n ih => simpa [List.replicate_succ, keep, ascend] using ih
      rw [hfalse, resolve_append_plain true _ hplain, hups, List.nil_append]

/-! ## names and ancestors -/

/-- The names of a path: its segments without the empty ones. -/
def names (p : List α) : List (List α) := (segs p).filter (· ≠ [])

/-- A relative path can be read back to its names. -/
theorem names_rel {ss : List (List α)} (h : ∀ s ∈ ss, s ≠ [] ∧ sep ∉ s) : names (rel ss) = ss := by
  by_cases hss : ss = []
  · simp [hss, names, segs]
  · rw [names, segs_rel hss fun s hs => (h s hs).2, List.filter_eq_self]
    exact fun s hs => by simpa using (h s hs).1

/-- A path from the root can be read back to its names, dots included. -/
theorem names_fromRoot {ss : List (List α)} (h : ∀ s ∈ ss, s ≠ [] ∧ sep ∉ s) :
    names (fromRoot ss) = ss := by
  have hrel := names_rel h
  rw [names] at hrel ⊢
  rw [fromRoot, segs_sep_cons, List.filter_cons_of_neg (by simp), hrel]

/-- The names of a cleaned path: what the pass keeps, or `.` where a relative
path comes to nothing. -/
theorem names_clean (p : List α) :
    names (clean p) =
      if isRooted p then resolve true (segs p)
      else if resolve false (segs p) = [] then [[dot]] else resolve false (segs p) := by
  have hnames : ∀ rooted, ∀ s ∈ resolve rooted (segs p), s ≠ [] ∧ sep ∉ s := fun rooted s hs =>
    ⟨(mem_of_mem_resolve hs).2, sep_notMem_of_mem_resolve (sep_notMem_of_mem_segs p) s hs⟩
  unfold clean
  split
  · exact names_fromRoot (hnames true)
  · cases hr : resolve false (segs p) with
    | nil =>
        have hdot : sep ∉ ([dot] : List α) := by simp [sep_ne_dot]
        simp [names, segs_of_notMem hdot]
    | cons s ss =>
        have hrel := names_rel (hnames false)
        rw [hr] at hrel
        exact hrel

/-- The names of a cleaned path are what the rooted pass keeps, up to a
renaming, exactly when the path is rooted or stays below its start. -/
theorem map_names_clean_eq_iff (p : List α) (g : List α → List α) :
    (names (clean p)).map g = (resolve true (segs p)).map g ↔
      isRooted p ∨ ∃ d, climb 0 (segs p) = some (d + 1) := by
  rw [names_clean]
  by_cases hroot : isRooted p = true
  · simp [hroot]
  · simp only [hroot, Bool.false_eq_true, if_false, false_or]
    cases hcl : climb 0 (segs p) with
    | none =>
        have hlt := length_resolve_of_climb hcl
        have hne : resolve false (segs p) ≠ [] := List.ne_nil_of_length_pos (by omega)
        rw [if_neg hne]
        refine iff_of_false (fun h => ?_) (by simp)
        have := congrArg List.length h
        simp only [List.length_map] at this
        omega
    | some d =>
        obtain ⟨heq, hlen⟩ := resolve_false_of_climb hcl
        cases d with
        | zero =>
            rw [heq, List.length_eq_zero_iff.mp hlen]
            simp
        | succ d =>
            have hne : resolve true (segs p) ≠ [] := List.ne_nil_of_length_pos (by omega)
            rw [heq, if_neg hne]
            simp

/-- Without `.` and `..` the pass drops the empty segments only. -/
theorem foldl_keep_no_dots (rooted : Bool) {ss : List (List α)}
    (h : ∀ s ∈ ss, s ≠ [dot] ∧ s ≠ [dot, dot]) (acc : List (List α)) :
    ss.foldl (keep rooted) acc = (ss.filter (· ≠ [])).reverse ++ acc := by
  induction ss generalizing acc with
  | nil => rfl
  | cons s ss ih =>
      have ⟨hd, hdd⟩ := h s List.mem_cons_self
      rw [List.foldl_cons, ih fun t ht => h t (List.mem_cons_of_mem _ ht)]
      by_cases hs : s = [] <;> simp [keep, hs, hd, hdd]

/-- The rooted pass keeps at most the segments that are names. -/
theorem length_foldl_keep_le (ss : List (List α)) {acc : List (List α)}
    (hacc : [dot, dot] ∉ acc) :
    (ss.foldl (keep true) acc).length ≤
      acc.length + ((ss.filter (· ≠ [])).filter fun s => s ≠ [dot] ∧ s ≠ [dot, dot]).length := by
  induction ss generalizing acc with
  | nil => simp
  | cons s ss ih =>
      rw [List.foldl_cons, keep]
      split
      · next hs =>
          have := ih hacc
          rcases hs with rfl | rfl <;> simpa using this
      · next hs =>
          split
          · next hdd =>
              subst hdd
              cases acc with
              | nil => simpa [ascend] using ih hacc
              | cons t acc =>
                  have ht : t ≠ [dot, dot] := fun h => hacc (by simp [h])
                  have := ih fun h => hacc (List.mem_cons_of_mem t h)
                  simp [ascend, ht] at this ⊢
                  omega
          · next hdd =>
              have hacc' : [dot, dot] ∉ s :: acc := by
                simpa [eq_comm] using ⟨hdd, hacc⟩
              have := ih hacc'
              rw [not_or] at hs
              simp [hs, hdd] at this ⊢
              omega

/-- The names of a path are what the rooted pass keeps, up to a renaming,
exactly when none of them is `.` or `..`. -/
theorem map_names_eq_iff (p : List α) (g : List α → List α) :
    (names p).map g = (resolve true (segs p)).map g ↔
      ∀ s ∈ segs p, s ≠ [dot] ∧ s ≠ [dot, dot] := by
  constructor
  · intro h s hs
    refine Decidable.byContradiction fun hdots => ?_
    have hlen : (names p).length = (resolve true (segs p)).length := by
      simpa using congrArg List.length h
    have hmem : s ∈ names p := by
      refine List.mem_filter.mpr ⟨hs, ?_⟩
      have hne : s ≠ [] := by
        rintro rfl
        exact hdots (by simp)
      simpa using hne
    have hlt : ((names p).filter fun s => s ≠ [dot] ∧ s ≠ [dot, dot]).length <
        (names p).length :=
      List.length_filter_lt_length_iff_exists.mpr ⟨s, hmem, by simpa using hdots⟩
    have hle := length_foldl_keep_le (segs p) (List.not_mem_nil (a := [dot, dot]))
    rw [resolve, List.length_reverse] at hlen
    simp only [List.length_nil, Nat.zero_add] at hle
    rw [names] at hlt hlen
    omega
  · intro h
    rw [resolve, foldl_keep_no_dots true h, List.append_nil, List.reverse_reverse, names]

/-- A rooted path has plain names, whatever it was cleaned from. -/
theorem exists_clean_sep (p : List α) :
    ∃ ss : List (List α), (∀ s ∈ ss, Plain s) ∧ clean (sep :: p) = fromRoot ss :=
  ⟨_, plain_of_mem_resolve (sep_notMem_of_mem_segs p), clean_sep_cons p⟩

omit [DecidableEq α] in
/-- A relative path has a slash when it has two names. -/
theorem sep_mem_rel_iff {ss : List (List α)} (h : ∀ s ∈ ss, sep ∉ s) :
    sep ∈ rel ss ↔ 2 ≤ ss.length := by
  rcases ss with _ | ⟨s, _ | ⟨t, ss⟩⟩
  · simp
  · simpa [rel] using h
  · simp [rel, List.intercalate_cons_cons]

/-- Below a rooted path other than the root: the text goes on after a
separator exactly when the names go on. -/
theorem fromRoot_sep_prefix_iff {ss ts : List (List α)} (hs : ∀ s ∈ ss, Plain s)
    (ht : ∀ s ∈ ts, Plain s) (hs0 : ss ≠ []) :
    fromRoot ss ++ [sep] <+: fromRoot ts ↔ ∃ us, us ≠ [] ∧ ts = ss ++ us := by
  constructor
  · rintro ⟨rest, hrest⟩
    have hrel : rel ts = rel ss ++ sep :: rest := by
      simpa [fromRoot] using hrest.symm
    have ht0 : ts ≠ [] := by
      rintro rfl
      simp at hrel
    refine ⟨segs rest, List.splitOn_ne_nil _ _, ?_⟩
    have hsegs := congrArg segs hrel
    rw [segs_rel ht0 fun s hs => (ht s hs).sep_notMem] at hsegs
    have hsplit : segs (rel ss ++ sep :: rest) = segs (rel ss) ++ segs rest :=
      List.splitOn_append_cons_self ..
    rw [hsegs, hsplit, segs_rel hs0 fun s h => (hs s h).sep_notMem]
  · rintro ⟨us, hus, rfl⟩
    refine ⟨rel us, ?_⟩
    simp [fromRoot, rel_append hs0 hus]

/-- No rooted path of plain segments starts with two separators. -/
theorem not_root_sep_prefix {ts : List (List α)} (ht : ∀ s ∈ ts, Plain s) :
    ¬ fromRoot [] ++ [sep] <+: fromRoot ts := by
  rintro ⟨rest, hrest⟩
  have hroot := head?_rel_ne_sep ht
  have hrel : rel ts = sep :: rest := by simpa [fromRoot] using hrest.symm
  rw [hrel] at hroot
  simp [isRooted] at hroot

/-- A path that has the names of another and more is below it. -/
def Ancestor (p q : List α) : Prop :=
  ∃ ss us, (∀ s ∈ ss ++ us, Plain s) ∧ us ≠ [] ∧ p = fromRoot ss ∧ q = fromRoot (ss ++ us)

/-- One path is above another when its names are the first of the other's. -/
theorem ancestor_fromRoot_iff {ss ts : List (List α)} (hs : ∀ s ∈ ss, Plain s)
    (ht : ∀ s ∈ ts, Plain s) :
    Ancestor (fromRoot ss) (fromRoot ts) ↔ ∃ us, us ≠ [] ∧ ts = ss ++ us := by
  constructor
  · rintro ⟨ss', us, hp, hus, hss, hts⟩
    have hss' : ss = ss' :=
      fromRoot_injective hs (fun s hm => hp s (List.mem_append_left _ hm)) hss
    exact ⟨us, hus, hss' ▸ fromRoot_injective ht hp hts⟩
  · rintro ⟨us, hus, rfl⟩
    exact ⟨ss, us, ht, hus, rfl, rfl⟩

/-- The separator-boundary test finds every ancestor but the root. -/
theorem sep_prefix_iff_ancestor {ss ts : List (List α)} (hs : ∀ s ∈ ss, Plain s)
    (ht : ∀ s ∈ ts, Plain s) (hs0 : ss ≠ []) :
    fromRoot ss ++ [sep] <+: fromRoot ts ↔ Ancestor (fromRoot ss) (fromRoot ts) := by
  rw [fromRoot_sep_prefix_iff hs ht hs0, ancestor_fromRoot_iff hs ht]

omit [DecidableEq α] in
/-- The root is above every other path. -/
theorem root_ancestor {ts : List (List α)} (ht : ∀ s ∈ ts, Plain s) (ht0 : ts ≠ []) :
    Ancestor (fromRoot []) (fromRoot ts) :=
  ⟨[], ts, ht, ht0, rfl, rfl⟩

end SlashPath

end OcuFilestore
