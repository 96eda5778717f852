import OcuFilestore.Lib.Quoting
import OcuFilestore.Lib.SlashPath

/-!
# OcuFilestore.Rclone.Encoder

rclone's file name encoder (`lib/encoder`) for names of valid UTF-8.  A mask
says which characters a backend cannot store; `encode` replaces them by
look-alikes and `decode` reads these back.  Names are in the standard encoding
inside rclone, so a backend with mask `m` is sent `m.encode` of the decoded
name, and lists `standard.encode` of what `m.decode` makes of the stored one.

On the standard side nothing is lost (`decode_standard_encode`).  On the
backend's side a stored name is addressed again under its standard name
exactly when it is in the mask's own form, `m.encode (m.decode w) = w`.
-/

namespace OcuFilestore.Rclone

open SlashPath

/-- The flags of an encoding.  The null character is always encoded. -/
structure MultiEncoder where
  ctl : Bool
  del : Bool
  slash : Bool
  backSlash : Bool
  doubleQuote : Bool
  rightSpace : Bool
  rightPeriod : Bool
  dot : Bool
  deriving DecidableEq, Repr

def quoteRune : Char := '‛'

namespace MultiEncoder

/-- The encoding of names inside rclone. -/
def standard : MultiEncoder := ⟨true, true, true, false, false, false, false, true⟩

/-! ## the tables -/

/-- The characters a mask replaces wherever they stand, with their
look-alikes: the control characters have symbols, the others fullwidth
forms. -/
def lookalikes (m : MultiEncoder) : List (Char × Char) :=
  ('\x00', '␀') ::
    ((if m.ctl then (List.range 0x1f).map fun i => (.ofNat (i + 1), .ofNat (0x2401 + i)) else []) ++
    ((if m.del then [('\x7f', '␡')] else []) ++
    ((if m.slash then [('/', '／')] else []) ++
    ((if m.backSlash then [('\\', '＼')] else []) ++
    (if m.doubleQuote then [('"', '＂')] else [])))))

/-- The characters a mask replaces at the end of a name. -/
def rights (m : MultiEncoder) : List (Char × Char) :=
  (if m.rightSpace then [(' ', '␠')] else []) ++ (if m.rightPeriod then [('.', '．')] else [])

/-- The names a mask with the dot flag treats as a whole. -/
def dots (m : MultiEncoder) : List (List Char × List Char) :=
  if m.dot then
    [(['.'], ['．']), (['.', '.'], ['．', '．']), (['．'], [quoteRune, '．']),
      (['．', '．'], [quoteRune, '．', quoteRune, '．'])]
  else []

/-- The mask with all of the flags that `lookalikes` reads. -/
def everywhere : MultiEncoder := ⟨true, true, true, true, true, false, false, false⟩

theorem lookalikes_sublist (m : MultiEncoder) :
    m.lookalikes.Sublist everywhere.lookalikes := by
  have hif : ∀ (b : Bool) (l : List (Char × Char)), (if b then l else []).Sublist l := by
    rintro (_ | _) l <;> simp
  exact .cons_cons _ (.append (hif _ _) (.append (hif _ _) (.append (hif _ _)
    (.append (hif _ _) (hif _ _)))))

/-- What holds of every pair of the largest table holds of every mask's. -/
theorem of_mem_lookalikes {P : Char × Char → Bool} (hP : everywhere.lookalikes.all P = true)
    {m : MultiEncoder} {p : Char × Char} (h : p ∈ m.lookalikes) : P p = true :=
  List.all_eq_true.mp hP p (m.lookalikes_sublist.subset h)

/-- No two characters share a lookalike. -/
theorem nodup_lookalikes (m : MultiEncoder) : (m.lookalikes.map Prod.snd).Nodup :=
  List.Nodup.sublist (m.lookalikes_sublist.map _) (by decide)

theorem lookalikes_ne_quote (m : MultiEncoder) :
    ∀ p ∈ m.lookalikes, p.1 ≠ quoteRune ∧ p.2 ≠ quoteRune := by
  intro p hp
  have h := of_mem_lookalikes (P := fun p => p.1 != quoteRune && p.2 != quoteRune) (by decide) hp
  simpa using h

/-- The substitutions inside a name. -/
def quoting (m : MultiEncoder) : Quoting Char :=
  .ofTable quoteRune m.lookalikes m.nodup_lookalikes m.lookalikes_ne_quote

/-! ## encoding and decoding a name -/

/-- A name without a last character that must not be last, and what that
character is written as. -/
def encodeRight (m : MultiEncoder) (s : List Char) : List Char × List Char :=
  match s.getLast? with
  | none => (s, [])
  | some c =>
      match m.rights.lookup c with
      | some d => (s.dropLast, [d])
      | none => if c ∈ m.rights.map Prod.snd then (s.dropLast, [quoteRune, c]) else (s, [])

def encode (m : MultiEncoder) (s : List Char) : List Char :=
  match m.dots.lookup s with
  | some t => t
  | none => m.quoting.encode (m.encodeRight s).1 ++ (m.encodeRight s).2

/-- A name without a last look-alike, and what that stands for. -/
def decodeRight (m : MultiEncoder) (s : List Char) : List Char × List Char :=
  match s.getLast? with
  | none => (s, [])
  | some d =>
      match (m.rights.map Prod.swap).lookup d with
      | none => (s, [])
      | some c =>
          if s.dropLast.getLast? = some quoteRune then (s.dropLast.dropLast, [d])
          else (s.dropLast, [c])

def decode (m : MultiEncoder) (s : List Char) : List Char :=
  match (m.dots.map Prod.swap).lookup s with
  | some t => t
  | none => m.quoting.decode false (m.decodeRight s).1 ++ (m.decodeRight s).2

/-- A name in standard encoding as the backend stores it. -/
def fromStandardName (m : MultiEncoder) (s : List Char) : List Char := m.encode (standard.decode s)

/-- A stored name in standard encoding. -/
def toStandardName (m : MultiEncoder) (s : List Char) : List Char := standard.encode (m.decode s)

def fromStandardPath (m : MultiEncoder) (p : List Char) : List Char :=
  rel ((segs p).map m.fromStandardName)

def toStandardPath (m : MultiEncoder) (p : List Char) : List Char :=
  rel ((segs p).map m.toStandardName)

/-! ## the end of a name -/

/-- Either the name is encoded as it stands and its last character may be
last, or its last character is set apart. -/
theorem encodeRight_cases (m : MultiEncoder) (s : List Char) :
    (m.encodeRight s = (s, []) ∧ ∀ c, s.getLast? = some c → m.rights.lookup c = none) ∨
    ∃ c front, m.encodeRight s = (s.dropLast, front ++ [c]) ∧ c ∈ m.rights.map Prod.snd ∧
      ∀ b ∈ front, b = quoteRune := by
  unfold encodeRight
  cases hs : s.getLast? with
  | none => exact Or.inl ⟨rfl, nofun⟩
  | some c =>
      cases hc : m.rights.lookup c with
      | some d =>
          simp only [hc]
          exact Or.inr ⟨d, [], rfl, List.mem_map_of_mem (Quoting.mem_of_lookup hc), nofun⟩
      | none =>
          simp only [hc]
          split
          · next hmem => exact Or.inr ⟨c, [quoteRune], rfl, hmem, by simp⟩
          · refine Or.inl ⟨rfl, ?_⟩
            rintro _ ⟨⟩
            exact hc

/-- Either the name is decoded as it stands, or its last character is one of
the name or one that may not be last. -/
theorem decodeRight_cases (m : MultiEncoder) (s : List Char) :
    m.decodeRight s = (s, []) ∨ ∃ init c, m.decodeRight s = (init, [c]) ∧ init ⊆ s ∧
      (c ∈ s ∨ c ∈ m.rights.map Prod.fst) := by
  unfold decodeRight
  cases hs : s.getLast? with
  | none => exact Or.inl rfl
  | some d =>
      cases hc : (m.rights.map Prod.swap).lookup d with
      | none => simp [hc]
      | some c =>
          simp only [hc]
          right
          split
          · exact ⟨_, d, rfl, fun x hx => List.dropLast_subset _ (List.dropLast_subset _ hx),
              Or.inl (List.mem_of_getLast? hs)⟩
          · refine ⟨_, c, rfl, List.dropLast_subset _, Or.inr ?_⟩
            obtain ⟨p, hp, heq⟩ := List.mem_map.mp (Quoting.mem_of_lookup hc)
            exact List.mem_map.mpr ⟨p, hp, congrArg Prod.snd heq⟩

/-! ## what encoding keeps -/

/-- The names treated as a whole, and what they are written as, are names. -/
theorem dots_plain {m : MultiEncoder} {p : List Char × List Char} (h : p ∈ m.dots) :
    p.1 ≠ [] ∧ '/' ∉ p.1 ∧ Plain p.2 := by
  have hall : standard.dots.all fun p => p.1 ≠ [] && '/' ∉ p.1 && Plain p.2 := by decide
  unfold dots at h
  split at h
  · simpa [and_assoc] using List.all_eq_true.mp hall p h
  · cases h

theorem encode_ne_nil (m : MultiEncoder) {s : List Char} (h : s ≠ []) : m.encode s ≠ [] := by
  unfold encode
  split
  · next t ht => exact (dots_plain (Quoting.mem_of_lookup ht)).2.2.ne_nil
  · rcases m.encodeRight_cases s with ⟨heq, -⟩ | ⟨c, front, heq, -⟩
    · simpa [heq] using m.quoting.encode_ne_nil h
    · simp [heq]

/-- A whole name that is read back from `dots`. -/
theorem mem_dots_of_lookup {m : MultiEncoder} {s t : List Char}
    (h : (m.dots.map Prod.swap).lookup s = some t) : (t, s) ∈ m.dots := by
  obtain ⟨p, hp, heq⟩ := List.mem_map.mp (Quoting.mem_of_lookup h)
  cases heq
  exact hp

theorem decode_ne_nil (m : MultiEncoder) {s : List Char} (h : s ≠ []) : m.decode s ≠ [] := by
  unfold decode
  split
  · next t ht => exact (dots_plain (mem_dots_of_lookup ht)).1
  · rcases m.decodeRight_cases s with heq | ⟨init, c, heq, -⟩
    · simpa [heq] using m.quoting.decode_ne_nil (Or.inl h)
    · simp [heq]

theorem rights_ne_sep {m : MultiEncoder} {c : Char}
    (h : c ∈ m.rights.map Prod.fst ∨ c ∈ m.rights.map Prod.snd) : c ≠ '/' := by
  rintro rfl
  revert h
  unfold rights
  rcases m.rightSpace with _ | _ <;> rcases m.rightPeriod with _ | _ <;> decide

/-- Encoding brings no slash in. -/
theorem sep_notMem_encode (m : MultiEncoder) {s : List Char} (h : '/' ∉ s) : '/' ∉ m.encode s := by
  unfold encode
  split
  · next t ht => exact (dots_plain (Quoting.mem_of_lookup ht)).2.2.sep_notMem
  · have hbody : ∀ body : List Char, body ⊆ s → '/' ∉ m.quoting.encode body := by
      intro body hsub hmem
      rcases m.quoting.mem_encode hmem with hq | hin | ⟨b, -, hb⟩
      · exact absurd hq (by decide : '/' ≠ quoteRune)
      · exact h (hsub hin)
      · have := of_mem_lookalikes (P := fun p => p.2 != '/') (by decide) (Quoting.mem_of_lookup hb)
        simp at this
    rcases m.encodeRight_cases s with ⟨heq, -⟩ | ⟨c, front, heq, hc, hfront⟩
    · simpa [heq] using hbody s (fun _ => id)
    · simp only [heq, List.mem_append, not_or]
      refine ⟨hbody _ (List.dropLast_subset _), fun hin => ?_, fun hin => ?_⟩
      · exact absurd (hfront _ hin) (by decide)
      · exact rights_ne_sep (Or.inr hc) (List.mem_singleton.mp hin).symm

/-- The separator is in the table of a mask only with its flag. -/
theorem slash_of_mem_lookalikes {m : MultiEncoder} {d : Char} (h : ('/', d) ∈ m.lookalikes) :
    m.slash = true := by
  have hctl : ∀ i < 0x1f, Char.ofNat (i + 1) ≠ '/' := by decide
  refine Decidable.byContradiction fun hm => ?_
  simp only [lookalikes, hm, List.mem_cons, List.mem_append] at h
  rcases h with h | h | h | h | h | h
  · simp at h
  · split at h
    · obtain ⟨i, hi, heq⟩ := List.mem_map.mp h
      exact hctl i (List.mem_range.mp hi) (congrArg Prod.fst heq)
    · cases h
  all_goals
    split at h
    · simp_all
    · cases h

/-- A mask that leaves the separator alone does not read one back either. -/
theorem sep_notMem_decode {m : MultiEncoder} (hm : m.slash = false) {s : List Char} (h : '/' ∉ s) :
    '/' ∉ m.decode s := by
  unfold decode
  split
  · next t ht => exact (dots_plain (mem_dots_of_lookup ht)).2.1
  · have hbody : ∀ body : List Char, body ⊆ s → '/' ∉ m.quoting.decode false body := by
      intro body hsub hmem
      rcases m.quoting.mem_decode hmem with hq | hin | ⟨b, -, hb⟩
      · exact absurd hq (by decide : '/' ≠ quoteRune)
      · exact h (hsub hin)
      · obtain ⟨⟨c, d⟩, hp, heq⟩ := List.mem_map.mp (Quoting.mem_of_lookup hb)
        cases heq
        rw [slash_of_mem_lookalikes hp] at hm
        cases hm
    rcases m.decodeRight_cases s with heq | ⟨init, c, heq, hsub, hc⟩
    · simpa [heq] using hbody s (fun _ => id)
    · simp only [heq, List.mem_append, not_or]
      refine ⟨hbody _ hsub, fun hin => ?_⟩
      have hc' : '/' = c := List.mem_singleton.mp hin
      rcases hc with hc | hc
      · exact h (hc' ▸ hc)
      · exact rights_ne_sep (Or.inl hc) hc'.symm

/-! ## dots -/

/-- Dots are not look-alikes: the scan leaves them alone. -/
theorem decode_dots (m : MultiEncoder) :
    m.quoting.decode false ['.'] = ['.'] ∧ m.quoting.decode false ['.', '.'] = ['.', '.'] := by
  have hun : m.quoting.unswap '.' = none := by
    refine Option.eq_none_iff_forall_not_mem.mpr fun c hc => ?_
    obtain ⟨p, hp, heq⟩ := List.mem_map.mp (Quoting.mem_of_lookup hc)
    have := of_mem_lookalikes (P := fun p => p.2 != '.') (by decide) hp
    exact (by simpa using this : p.2 ≠ '.') (congrArg Prod.fst heq)
  have hne : '.' ≠ m.quoting.quote := (by decide : '.' ≠ quoteRune)
  simp [Quoting.decode, hun, hne]

/-- A mask that encodes a last period never writes `.` or `..`. -/
theorem encode_ne_dots {m : MultiEncoder} (hm : m.rightPeriod = true) (s : List Char) :
    m.encode s ≠ ['.'] ∧ m.encode s ≠ ['.', '.'] := by
  -- either way the encoded name would end in a period that stands for itself
  suffices h : ∀ t : List Char, t.getLast? = some '.' → m.quoting.decode false t = t →
      m.encode s = t → (∃ p ∈ m.dots, p.2 = t) by
    constructor
    · intro he
      obtain ⟨p, hp, ht⟩ := h _ rfl m.decode_dots.1 he
      exact (dots_plain hp).2.2.ne_dot ht
    · intro he
      obtain ⟨p, hp, ht⟩ := h _ rfl m.decode_dots.2 he
      exact (dots_plain hp).2.2.ne_dotdot ht
  intro t hlast hdec he
  unfold encode at he
  split at he
  · next t' ht => exact ⟨_, Quoting.mem_of_lookup ht, he⟩
  · exfalso
    rcases m.encodeRight_cases s with ⟨heq, hright⟩ | ⟨c, front, heq, hc, -⟩
    · rw [heq, List.append_nil] at he
      have hs : s = t := (m.quoting.eq_decode_of_encode he).trans hdec
      have hnone := hright '.' (hs ▸ hlast)
      cases hsp : m.rightSpace with
      | false =>
          rw [rights, hm, hsp] at hnone
          exact absurd hnone (by decide)
      | true =>
          rw [rights, hm, hsp] at hnone
          exact absurd hnone (by decide)
    · rw [heq, ← List.append_assoc] at he
      rw [← he, List.getLast?_concat] at hlast
      cases hlast
      revert hc
      unfold rights
      rcases m.rightSpace with _ | _ <;> rcases m.rightPeriod with _ | _ <;> decide

/-! ## the standard encoding -/

theorem standard_encode (s : List Char) :
    standard.encode s = (standard.dots.lookup s).getD (standard.quoting.encode s) := by
  unfold encode
  rcases standard.encodeRight_cases s with ⟨heq, -⟩ | ⟨c, front, -, hc, -⟩
  · cases standard.dots.lookup s with
    | none => simp [heq]
    | some t => rfl
  · cases hc

theorem standard_decode (s : List Char) :
    standard.decode s =
      ((standard.dots.map Prod.swap).lookup s).getD (standard.quoting.decode false s) := by
  have hright : standard.decodeRight s = (s, []) := by
    unfold decodeRight
    cases s.getLast? with
    | none => rfl
    | some d => rfl
  unfold decode
  rw [hright, List.append_nil]
  cases (standard.dots.map Prod.swap).lookup s with
  | none => rfl
  | some t => rfl

/-- No name comes out of the substitutions as one that is treated as a whole. -/
theorem lookup_encode_of_lookup_none {s : List Char} (h : standard.dots.lookup s = none) :
    (standard.dots.map Prod.swap).lookup (standard.quoting.encode s) = none := by
  refine Option.eq_none_iff_forall_not_mem.mpr fun t ht => ?_
  have hmem := mem_dots_of_lookup ht
  -- such a name decodes to itself, and is one of the whole names or has a quote too few
  have hdec : standard.dots.all fun p =>
      (standard.dots.lookup (standard.quoting.decode false p.2)).isSome ||
        standard.quoting.encode (standard.quoting.decode false p.2) != p.2 := by decide
  have := List.all_eq_true.mp hdec _ hmem
  rw [Quoting.decode_encode, h] at this
  simp at this

/-- Nothing is lost in standard encoding. -/
theorem decode_standard_encode (s : List Char) : standard.decode (standard.encode s) = s := by
  rw [standard_encode]
  cases h : standard.dots.lookup s with
  | some t =>
      have hall : standard.dots.all fun p => standard.decode p.2 == p.1 := by decide
      simpa using List.all_eq_true.mp hall _ (Quoting.mem_of_lookup h)
  | none =>
      rw [Option.getD_none, standard_decode, lookup_encode_of_lookup_none h, Option.getD_none,
        Quoting.decode_encode]

/-- The standard encoding leaves no dot name. -/
theorem standard_encode_ne_dots (s : List Char) :
    standard.encode s ≠ ['.'] ∧ standard.encode s ≠ ['.', '.'] := by
  rw [standard_encode]
  cases h : standard.dots.lookup s with
  | some t =>
      have := (dots_plain (Quoting.mem_of_lookup h)).2.2
      exact ⟨this.ne_dot, this.ne_dotdot⟩
  | none =>
      constructor
      · intro he
        rw [standard.quoting.eq_decode_of_encode he, standard.decode_dots.1] at h
        cases h
      · intro he
        rw [standard.quoting.eq_decode_of_encode he, standard.decode_dots.2] at h
        cases h

/-! ## names from and to the backend -/

section Backend

variable {m : MultiEncoder} {w : List Char}

/-- A plain name stays plain in the standard encoding. -/
theorem plain_toStandardName (hslash : m.slash = false) (hw : Plain w) :
    Plain (m.toStandardName w) where
  ne_nil := standard.encode_ne_nil (m.decode_ne_nil hw.ne_nil)
  ne_dot := (standard_encode_ne_dots _).1
  ne_dotdot := (standard_encode_ne_dots _).2
  sep_notMem := standard.sep_notMem_encode (sep_notMem_decode hslash hw.sep_notMem)

/-- A stored name comes back in the mask's own form. -/
theorem fromStandardName_toStandardName (w : List Char) :
    m.fromStandardName (m.toStandardName w) = m.encode (m.decode w) := by
  rw [fromStandardName, toStandardName, decode_standard_encode]

/-- A plain name is plain again after a round through the encoder. -/
theorem plain_encode_decode (hslash : m.slash = false) (hperiod : m.rightPeriod = true)
    (hw : Plain w) : Plain (m.encode (m.decode w)) where
  ne_nil := m.encode_ne_nil (m.decode_ne_nil hw.ne_nil)
  ne_dot := (encode_ne_dots hperiod _).1
  ne_dotdot := (encode_ne_dots hperiod _).2
  sep_notMem := m.sep_notMem_encode (sep_notMem_decode hslash hw.sep_notMem)

theorem fromStandardName_nil (m : MultiEncoder) : m.fromStandardName [] = [] := by
  have hdots : m.dots.lookup [] = none := by
    unfold dots
    split <;> rfl
  have hdec : standard.decode [] = [] := by decide
  rw [fromStandardName, hdec, encode, hdots]
  rfl

/-- One name is a path of one name. -/
theorem toStandardPath_of_plain (hw : Plain w) :
    m.toStandardPath w = m.toStandardName w := by
  rw [toStandardPath, segs_of_notMem hw.sep_notMem]
  simp [rel]

end Backend

end MultiEncoder

end OcuFilestore.Rclone
