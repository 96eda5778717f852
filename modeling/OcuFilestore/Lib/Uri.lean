import Mathlib.Data.List.TakeWhile

/-!
# OcuFilestore.Lib.Uri

The splitting of a URI reference into scheme, authority, path, query and
fragment, as RFC 3986 defines it (appendix B).  It accepts every text and
looks at the delimiters only.

`Hierarchical` is a text that has a scheme and an authority, kept as its parts
together with what makes them the parts: `split_text` reads them back, and
`exists_hierarchical` says that every text that begins like one is one.
-/

namespace OcuFilestore

/-- The five components; an absent one is told from an empty one. -/
structure Uri where
  scheme : Option (List Char)
  authority : Option (List Char)
  path : List Char
  query : Option (List Char)
  fragment : Option (List Char)
  deriving DecidableEq, Repr

namespace Uri

/-! ## splitting -/

/-- None of the delimiters. -/
def free (delims : List Char) (c : Char) : Bool := !delims.contains c

def schemeEnd : List Char := [':', '/', '?', '#']
def authorityEnd : List Char := ['/', '?', '#']
def pathEnd : List Char := ['?', '#']

def splitScheme (s : List Char) : Option (List Char) × List Char :=
  match s.takeWhile (free schemeEnd), s.dropWhile (free schemeEnd) with
  | c :: scheme, ':' :: rest => (some (c :: scheme), rest)
  | _, _ => (none, s)

def splitAuthority : List Char → Option (List Char) × List Char
  | '/' :: '/' :: rest =>
      (some (rest.takeWhile (free authorityEnd)), rest.dropWhile (free authorityEnd))
  | s => (none, s)

def splitQuery : List Char → Option (List Char) × List Char
  | '?' :: rest => (some (rest.takeWhile (free ['#'])), rest.dropWhile (free ['#']))
  | s => (none, s)

def splitFragment : List Char → Option (List Char)
  | '#' :: rest => some rest
  | _ => none

def split (s : List Char) : Uri :=
  let hier := (splitScheme s).2
  let rest := (splitAuthority hier).2
  let tail := rest.dropWhile (free pathEnd)
  { scheme := (splitScheme s).1
    authority := (splitAuthority hier).1
    path := rest.takeWhile (free pathEnd)
    query := (splitQuery tail).1
    fragment := splitFragment (splitQuery tail).2 }

theorem notMem_of_all_free {delims s : List Char} (h : s.all (free delims) = true) :
    ∀ c ∈ s, c ∉ delims := by
  simpa [free] using h

/-! ## taking parts off the front -/

/-- A text that is over, or goes on with one of the delimiters. -/
def Ends (delims s : List Char) : Prop := ∀ c ∈ s.head?, c ∈ delims

/-- What is left begins with a delimiter. -/
theorem ends_dropWhile (delims s : List Char) : Ends delims (s.dropWhile (free delims)) := by
  intro c hc
  have h := List.head?_dropWhile_not (free delims) s
  rw [Option.mem_def.mp hc] at h
  simpa [free] using h

section Front

variable {delims a b : List Char} (ha : ∀ c ∈ a, c ∉ delims) (hb : Ends delims b)
include ha hb

/-- A part ends at the first delimiter. -/
theorem takeWhile_free : (a ++ b).takeWhile (free delims) = a := by
  rw [List.takeWhile_append_of_pos (by simpa [free] using ha)]
  cases b with
  | nil => simp
  | cons c b => simp [free, hb c rfl]

/-- The rest begins at the first delimiter. -/
theorem dropWhile_free : (a ++ b).dropWhile (free delims) = b := by
  rw [List.dropWhile_append_of_pos (by simpa [free] using ha)]
  cases b with
  | nil => rfl
  | cons c b => simp [free, hb c rfl]

end Front

/-- No delimiter is in a part. -/
theorem notMem_of_mem_takeWhile {delims s : List Char} :
    ∀ c ∈ s.takeWhile (free delims), c ∉ delims := by
  intro c hc
  simpa [free] using List.mem_takeWhile_imp hc

theorem Ends.mono {delims delims' s : List Char} (h : Ends delims s) (hsub : delims ⊆ delims') :
    Ends delims' s := fun c hc => hsub (h c hc)

/-! ## texts with a scheme and an authority -/

/-- The parts of a text with a scheme and an authority.  The query and the
fragment are kept together, with the delimiter in front of them. -/
structure Hierarchical where
  scheme : List Char
  authority : List Char
  path : List Char
  tail : List Char
  scheme_ne_nil : scheme ≠ []
  scheme_free : ∀ c ∈ scheme, c ∉ schemeEnd
  authority_free : ∀ c ∈ authority, c ∉ authorityEnd
  path_ends : Ends ['/'] path
  path_free : ∀ c ∈ path, c ∉ pathEnd
  tail_ends : Ends pathEnd tail

namespace Hierarchical

def text (u : Hierarchical) : List Char :=
  u.scheme ++ ':' :: '/' :: '/' :: (u.authority ++ (u.path ++ u.tail))

/-- What follows the authority. -/
theorem path_tail_ends (u : Hierarchical) : Ends authorityEnd (u.path ++ u.tail) := by
  intro c hc
  cases h : u.path with
  | nil =>
      rw [h, List.nil_append] at hc
      exact u.tail_ends.mono (by simp [pathEnd, authorityEnd]) c hc
  | cons d path =>
      rw [h] at hc
      exact (h ▸ u.path_ends : Ends ['/'] (d :: path)).mono (by simp [authorityEnd]) c hc

/-- The scheme ends at the first colon. -/
theorem splitScheme_text (u : Hierarchical) :
    splitScheme u.text = (some u.scheme, '/' :: '/' :: (u.authority ++ (u.path ++ u.tail))) := by
  have hends : Ends schemeEnd (':' :: '/' :: '/' :: (u.authority ++ (u.path ++ u.tail))) := by
    simp [Ends, schemeEnd]
  obtain ⟨c, scheme, hs⟩ := List.exists_cons_of_ne_nil u.scheme_ne_nil
  rw [splitScheme, text, takeWhile_free u.scheme_free hends, dropWhile_free u.scheme_free hends]
  simp only [hs]

/-- The parts are read back. -/
theorem split_text (u : Hierarchical) :
    split u.text = ⟨some u.scheme, some u.authority, u.path, (splitQuery u.tail).1,
      splitFragment (splitQuery u.tail).2⟩ := by
  have hauth : splitAuthority ('/' :: '/' :: (u.authority ++ (u.path ++ u.tail))) =
      (some u.authority, u.path ++ u.tail) := by
    rw [splitAuthority, takeWhile_free u.authority_free u.path_tail_ends,
      dropWhile_free u.authority_free u.path_tail_ends]
  simp only [split, splitScheme_text, hauth, takeWhile_free u.path_free u.tail_ends,
    dropWhile_free u.path_free u.tail_ends]

end Hierarchical

/-- Every text that begins with a scheme and two slashes. -/
theorem exists_hierarchical {scheme : List Char} (hne : scheme ≠ [])
    (hfree : ∀ c ∈ scheme, c ∉ schemeEnd) (rest : List Char) :
    ∃ u : Hierarchical, u.scheme = scheme ∧ u.authority = rest.takeWhile (free authorityEnd) ∧
      u.text = scheme ++ ':' :: '/' :: '/' :: rest := by
  let s := rest.dropWhile (free authorityEnd)
  have hpath : Ends ['/'] (s.takeWhile (free pathEnd)) := by
    intro c hc
    have hstop : c ∉ pathEnd := notMem_of_mem_takeWhile c (List.mem_of_mem_head? hc)
    have hhead : c ∈ authorityEnd := by
      refine ends_dropWhile authorityEnd rest c ?_
      rw [Option.mem_def, List.head?_takeWhile, Option.filter_eq_some_iff] at hc
      exact hc.1
    have hnot : c ≠ '?' ∧ c ≠ '#' := by simpa [pathEnd] using hstop
    simpa [authorityEnd, hnot] using hhead
  exact ⟨{ scheme := scheme
           authority := rest.takeWhile (free authorityEnd)
           path := s.takeWhile (free pathEnd)
           tail := s.dropWhile (free pathEnd)
           scheme_ne_nil := hne
           scheme_free := hfree
           authority_free := notMem_of_mem_takeWhile
           path_ends := hpath
           path_free := notMem_of_mem_takeWhile
           tail_ends := ends_dropWhile _ _ }, rfl, rfl,
    by simp [Hierarchical.text, s, List.takeWhile_append_dropWhile]⟩

end Uri

end OcuFilestore
