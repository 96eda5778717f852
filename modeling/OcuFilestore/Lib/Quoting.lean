/-!
# OcuFilestore.Lib.Quoting

Substitution codes with a quote symbol.  Encoding replaces certain symbols by
look-alikes; a look-alike that is in the text already, and the quote symbol
itself, are kept apart from these by a quote before them.  Decoding is a scan
with one bit of state, whether the symbol before was an unanswered quote; it
accepts every text, and a quote before a symbol that needs none is kept.

`decode_encode` is the round trip.  The other way round a text comes back only
if it is one that encoding produces.
-/

namespace OcuFilestore

/-- A substitution code: `swap` gives the look-alike of a symbol that must not
stand for itself, `unswap` reads a look-alike back. -/
structure Quoting (α : Type) where
  quote : α
  swap : α → Option α
  unswap : α → Option α
  unswap_swap : ∀ c d, swap c = some d → unswap d = some c
  swap_quote : swap quote = none
  unswap_quote : unswap quote = none

namespace Quoting

variable {α : Type} [DecidableEq α]

/-! ## codes given by a table -/

/-- A table with different keys gives back each of its pairs. -/
theorem lookup_of_mem {l : List (α × α)} {c d : α} (hnd : (l.map Prod.fst).Nodup)
    (h : (c, d) ∈ l) : l.lookup c = some d := by
  induction l with
  | nil => cases h
  | cons p l ih =>
      obtain ⟨hp, hl⟩ := List.nodup_cons.mp hnd
      rcases List.mem_cons.mp h with rfl | h
      · simp
      · have hne : c ≠ p.1 := fun hc => hp (hc ▸ List.mem_map_of_mem h)
        rw [List.lookup_cons, beq_false_of_ne hne]
        exact ih hl h

omit [DecidableEq α] in
/-- A table gives back nothing but its pairs. -/
theorem mem_of_lookup {β : Type} [BEq α] [LawfulBEq α] {l : List (α × β)} {c : α} {d : β}
    (h : l.lookup c = some d) : (c, d) ∈ l := by
  obtain ⟨l₁, l₂, rfl, -⟩ := List.lookup_eq_some_iff.mp h
  simp

/-- The code of a table of symbols and look-alikes, read either way. -/
def ofTable (quote : α) (table : List (α × α)) (hnd : (table.map Prod.snd).Nodup)
    (hquote : ∀ p ∈ table, p.1 ≠ quote ∧ p.2 ≠ quote) : Quoting α where
  quote := quote
  swap c := table.lookup c
  unswap d := (table.map Prod.swap).lookup d
  unswap_swap c d h := by
    refine lookup_of_mem ?_ (List.mem_map_of_mem (mem_of_lookup h))
    rwa [List.map_map, show Prod.fst ∘ Prod.swap = (Prod.snd : α × α → α) from rfl]
  swap_quote := by
    refine Option.eq_none_iff_forall_not_mem.mpr fun d h => ?_
    exact (hquote _ (mem_of_lookup h)).1 rfl
  unswap_quote := by
    refine Option.eq_none_iff_forall_not_mem.mpr fun c h => ?_
    obtain ⟨p, hp, heq⟩ := List.mem_map.mp (mem_of_lookup h)
    exact (hquote p hp).2 (congrArg Prod.fst heq)

/-! ## encoding and decoding -/

variable (Q : Quoting α)

def encodeOne (c : α) : List α :=
  match Q.swap c with
  | some d => [d]
  | none => if c = Q.quote ∨ (Q.unswap c).isSome then [Q.quote, c] else [c]

def encode (xs : List α) : List α := xs.flatMap Q.encodeOne

/-- The scan; `quoted` says that a quote is waiting for its symbol. -/
def decode (quoted : Bool) : List α → List α
  | [] => if quoted then [Q.quote] else []
  | c :: cs =>
      if c = Q.quote then
        if quoted then Q.quote :: decode false cs else decode true cs
      else
        match Q.unswap c with
        | some d => (if quoted then c else d) :: decode false cs
        | none => if quoted then Q.quote :: c :: decode false cs else c :: decode false cs

/-- A symbol's encoding is read back as the symbol. -/
theorem decode_encodeOne (c : α) (rest : List α) :
    Q.decode false (Q.encodeOne c ++ rest) = c :: Q.decode false rest := by
  unfold encodeOne
  cases hs : Q.swap c with
  | some d =>
      have hu := Q.unswap_swap c d hs
      have hd : d ≠ Q.quote := by
        rintro rfl
        rw [Q.unswap_quote] at hu
        cases hu
      simp [decode, hd, hu]
  | none =>
      dsimp only
      split
      · next hq =>
          rcases hq with rfl | hu
          · simp [decode]
          · obtain ⟨d, hd⟩ := Option.isSome_iff_exists.mp hu
            have hne : c ≠ Q.quote := by
              rintro rfl
              rw [Q.unswap_quote] at hd
              cases hd
            simp [decode, hne, hd]
      · next hq =>
          rw [not_or, Option.not_isSome_iff_eq_none] at hq
          simp [decode, hq.1, hq.2]

/-- **Round trip**: what is encoded is decoded to what it was. -/
@[simp] theorem decode_encode (xs : List α) : Q.decode false (Q.encode xs) = xs := by
  induction xs with
  | nil => rfl
  | cons c xs ih =>
      rw [encode, List.flatMap_cons, decode_encodeOne]
      exact congrArg (c :: ·) ih

/-- A text whose encoding is `ys` is what `ys` decodes to. -/
theorem eq_decode_of_encode {xs ys : List α} (h : Q.encode xs = ys) : xs = Q.decode false ys := by
  rw [← h, decode_encode]

/-- Every character is encoded as something. -/
theorem encodeOne_ne_nil (c : α) : Q.encodeOne c ≠ [] := by
  unfold encodeOne
  split
  · simp
  · split <;> simp

/-- Nothing disappears in the encoding. -/
theorem encode_ne_nil {xs : List α} (h : xs ≠ []) : Q.encode xs ≠ [] := by
  cases xs with
  | nil => exact absurd rfl h
  | cons c xs => simp [encode, Q.encodeOne_ne_nil c]

/-- Nothing is lost: a text that is not empty, or a waiting quote, leaves a
trace. -/
theorem decode_ne_nil {quoted : Bool} {xs : List α} (h : xs ≠ [] ∨ quoted = true) :
    Q.decode quoted xs ≠ [] := by
  fun_induction Q.decode quoted xs with
  | case1 | case3 | case5 | case6 | case7 => simp
  | case2 quoted hq => simp_all
  | case4 quoted cs hq ih => exact ih (Or.inr rfl)

/-- Where the characters of an encoding come from. -/
theorem mem_encode {xs : List α} {c : α} (h : c ∈ Q.encode xs) :
    c = Q.quote ∨ c ∈ xs ∨ ∃ b ∈ xs, Q.swap b = some c := by
  obtain ⟨b, hb, hc⟩ := List.mem_flatMap.mp h
  unfold encodeOne at hc
  split at hc
  · next d hs => exact Or.inr (Or.inr ⟨b, hb, by rw [hs, List.mem_singleton.mp hc]⟩)
  · split at hc
    · rcases List.mem_cons.mp hc with rfl | hc
      · exact Or.inl rfl
      · exact Or.inr (Or.inl (List.mem_singleton.mp hc ▸ hb))
    · exact Or.inr (Or.inl (List.mem_singleton.mp hc ▸ hb))

/-- Where the characters of a decoding come from. -/
theorem mem_decode {quoted : Bool} {xs : List α} {c : α} (h : c ∈ Q.decode quoted xs) :
    c = Q.quote ∨ c ∈ xs ∨ ∃ b ∈ xs, Q.unswap b = some c := by
  fun_induction Q.decode quoted xs with
  | case1 => exact Or.inl (List.mem_singleton.mp h)
  | case2 => cases h
  | case3 | case4 | case5 | case6 | case7 => grind

end Quoting

end OcuFilestore
