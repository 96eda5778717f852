/-!
# OcuFilestore.Go.Strings

`strings.TrimSpace` and `strings.TrimRight`, on the characters of a text.
-/

namespace OcuFilestore

/-- `unicode.IsSpace`. -/
def isSpace (c : Char) : Bool :=
  [9, 10, 11, 12, 13, 32, 0x85, 0xA0, 0x1680, 0x2028, 0x2029, 0x202F, 0x205F, 0x3000].contains
    c.toNat || (0x2000 ≤ c.toNat && c.toNat ≤ 0x200A)

def trimSpace (cs : List Char) : List Char :=
  ((cs.dropWhile isSpace).reverse.dropWhile isSpace).reverse

/-- `strings.TrimRight` with a cutset of one character. -/
def trimRight (c : Char) (cs : List Char) : List Char :=
  (cs.reverse.dropWhile (· = c)).reverse

@[simp] theorem trimRight_nil (c : Char) : trimRight c [] = [] := rfl

/-- Nothing is trimmed in front of another character. -/
theorem trimRight_append_cons {c d : Char} (hd : d ≠ c) (as bs : List Char) :
    trimRight c (as ++ d :: bs) = as ++ d :: trimRight c bs := by
  have hrev : (as ++ d :: bs).reverse = bs.reverse ++ d :: as.reverse := by simp
  rw [trimRight, hrev, List.dropWhile_append]
  split
  · next h => simp [trimRight, List.isEmpty_iff.mp h, hd]
  · simp [trimRight]

/-- Trimming at the end leaves a part of the front. -/
theorem trimRight_isPrefixOf (c : Char) (cs : List Char) : trimRight c cs <+: cs := by
  rw [trimRight, ← List.reverse_suffix, List.reverse_reverse]
  exact List.dropWhile_suffix _

end OcuFilestore
