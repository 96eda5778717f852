/-!
# OcuFilestore.Go.Utf8

Go's reading of bytes as UTF-8: rune by rune, where a byte that begins no
well-formed sequence is an error of width one and reads as U+FFFD.

What is read of the bytes of a text is the text (`text_utf8`).
-/

namespace OcuFilestore

/-- The low six bits of a continuation byte. -/
def continuation (b : UInt8) : Option Nat :=
  if 0x80 ≤ b.toNat ∧ b.toNat < 0xC0 then some (b.toNat - 0x80) else none

/-- The rune of a two-byte sequence. -/
def rune2 (a b : UInt8) : Option Char :=
  match continuation b with
  | some y => if 0xC2 ≤ a.toNat ∧ a.toNat < 0xE0 then some (Char.ofNat ((a.toNat - 0xC0) * 64 + y))
      else none
  | none => none

/-- The rune of a three-byte sequence: no overlong form, no surrogate. -/
def rune3 (a b c : UInt8) : Option Char :=
  match continuation b, continuation c with
  | some y, some z =>
      let n := ((a.toNat - 0xE0) * 64 + y) * 64 + z
      if 0xE0 ≤ a.toNat ∧ a.toNat < 0xF0 ∧ 0x800 ≤ n ∧ ¬ (0xD800 ≤ n ∧ n < 0xE000) then
        some (Char.ofNat n)
      else none
  | _, _ => none

/-- The rune of a four-byte sequence: no overlong form, at most U+10FFFF. -/
def rune4 (a b c d : UInt8) : Option Char :=
  match continuation b, continuation c, continuation d with
  | some x, some y, some z =>
      let n := (((a.toNat - 0xF0) * 64 + x) * 64 + y) * 64 + z
      if 0xF0 ≤ a.toNat ∧ 0x10000 ≤ n ∧ n < 0x110000 then some (Char.ofNat n) else none
  | _, _, _ => none

/-- The rune that begins with byte `a`, `none` for an error, and how many of
the bytes behind `a` belong to it. -/
def decodeRune (a : UInt8) (rest : List UInt8) : Option Char × Nat :=
  if a.toNat < 0x80 then (some (Char.ofNat a.toNat), 0)
  else
    match rest with
    | [] => (none, 0)
    | b :: rest =>
        match rune2 a b with
        | some r => (some r, 1)
        | none =>
            match rest with
            | [] => (none, 0)
            | c :: rest =>
                match rune3 a b c with
                | some r => (some r, 2)
                | none =>
                    match rest with
                    | [] => (none, 0)
                    | d :: _ =>
                        match rune4 a b c d with
                        | some r => (some r, 3)
                        | none => (none, 0)

/-- The runes behind the next `skip` bytes. -/
def runesFrom : Nat → List UInt8 → List (Option Char)
  | _, [] => []
  | 0, a :: rest => (decodeRune a rest).1 :: runesFrom (decodeRune a rest).2 rest
  | skip + 1, _ :: rest => runesFrom skip rest

/-- The runes of a byte sequence, `none` for a byte that is in error. -/
def runes (bytes : List UInt8) : List (Option Char) := runesFrom 0 bytes

/-- The bytes as text, errors replaced. -/
def text (bytes : List UInt8) : List Char := (runes bytes).map (·.getD (Char.ofNat 0xFFFD))

/-- `utf8.Valid`. -/
def validUTF8 (bytes : List UInt8) : Bool := !(runes bytes).contains none

/-! ## the bytes of a text -/

/-- The UTF-8 bytes of a text. -/
def utf8 (s : List Char) : List UInt8 := s.flatMap String.utf8EncodeChar

/-- A character takes one to four bytes. -/
theorem length_utf8 (s : List Char) :
    s.length ≤ (utf8 s).length ∧ (utf8 s).length ≤ 4 * s.length := by
  induction s with
  | nil => decide
  | cons c s ih =>
      have hpos := c.utf8Size_pos
      have hle := c.utf8Size_le_four
      simp only [utf8, List.flatMap_cons, List.length_append, List.length_cons,
        String.length_utf8EncodeChar] at ih ⊢
      omega

theorem toNat_ofNat_of_lt {n : Nat} (h : n < 256) : (UInt8.ofNat n).toNat = n := by
  simp only [UInt8.toNat_ofNat']
  omega

theorem continuation_ofNat (n : Nat) :
    continuation (UInt8.ofNat (n % 64 + 128)) = some (n % 64) := by
  have h : (UInt8.ofNat (n % 64 + 128)).toNat = n % 64 + 128 := toNat_ofNat_of_lt (by omega)
  rw [continuation, h, if_pos (by omega)]
  exact congrArg some (by omega)

section Width

variable {v : Nat}

/-- Two bytes are read back. -/
theorem rune2_ofNat (h₁ : 0x80 ≤ v) (h₂ : v < 0x800) :
    rune2 (UInt8.ofNat (v / 64 % 32 + 192)) (UInt8.ofNat (v % 64 + 128)) = some (Char.ofNat v) := by
  have ha : (UInt8.ofNat (v / 64 % 32 + 192)).toNat = v / 64 % 32 + 192 :=
    toNat_ofNat_of_lt (by omega)
  rw [rune2, continuation_ofNat]
  dsimp only
  rw [ha, if_pos (by omega)]
  exact congrArg (fun n => some (Char.ofNat n)) (by omega)

/-- No two bytes of a longer sequence are a sequence of two. -/
theorem rune2_eq_none {a b : UInt8} (h : 0xE0 ≤ a.toNat) : rune2 a b = none := by
  unfold rune2
  split
  · rw [if_neg (by omega)]
  · rfl

/-- Three bytes are read back. -/
theorem rune3_ofNat (h₁ : 0x800 ≤ v) (h₂ : v < 0x10000) (h₃ : v < 0xD800 ∨ 0xE000 ≤ v) :
    rune3 (UInt8.ofNat (v / 4096 % 16 + 224)) (UInt8.ofNat (v / 64 % 64 + 128))
      (UInt8.ofNat (v % 64 + 128)) = some (Char.ofNat v) := by
  have ha : (UInt8.ofNat (v / 4096 % 16 + 224)).toNat = v / 4096 % 16 + 224 :=
    toNat_ofNat_of_lt (by omega)
  have hv : ((v / 4096 % 16 + 224 - 0xE0) * 64 + v / 64 % 64) * 64 + v % 64 = v := by omega
  rw [rune3, continuation_ofNat, continuation_ofNat]
  dsimp only
  rw [ha, hv, if_pos (by omega)]

theorem rune3_eq_none {a b c : UInt8} (h : 0xF0 ≤ a.toNat) : rune3 a b c = none := by
  unfold rune3
  split
  · rw [if_neg (by omega)]
  · rfl

/-- Four bytes are read back. -/
theorem rune4_ofNat (h₁ : 0x10000 ≤ v) (h₂ : v < 0x110000) :
    rune4 (UInt8.ofNat (v / 262144 % 8 + 240)) (UInt8.ofNat (v / 4096 % 64 + 128))
      (UInt8.ofNat (v / 64 % 64 + 128)) (UInt8.ofNat (v % 64 + 128)) = some (Char.ofNat v) := by
  have ha : (UInt8.ofNat (v / 262144 % 8 + 240)).toNat = v / 262144 % 8 + 240 :=
    toNat_ofNat_of_lt (by omega)
  have hv : (((v / 262144 % 8 + 240 - 0xF0) * 64 + v / 4096 % 64) * 64 + v / 64 % 64) * 64 +
      v % 64 = v := by omega
  rw [rune4, continuation_ofNat, continuation_ofNat, continuation_ofNat]
  dsimp only
  rw [ha, hv, if_pos (by omega)]

end Width

section Sequences

variable {a b c d : UInt8} {r : Char}

theorem decodeRune_two (ha : 0x80 ≤ a.toNat) (h : rune2 a b = some r) (rest : List UInt8) :
    decodeRune a (b :: rest) = (some r, 1) := by
  rw [decodeRune.eq_def, if_neg (by omega)]
  simp [h]

theorem decodeRune_three (ha : 0xE0 ≤ a.toNat) (h : rune3 a b c = some r) (rest : List UInt8) :
    decodeRune a (b :: c :: rest) = (some r, 2) := by
  rw [decodeRune.eq_def, if_neg (by omega)]
  simp [rune2_eq_none ha, h]

theorem decodeRune_four (ha : 0xF0 ≤ a.toNat) (h : rune4 a b c d = some r) (rest : List UInt8) :
    decodeRune a (b :: c :: d :: rest) = (some r, 3) := by
  rw [decodeRune.eq_def, if_neg (by omega)]
  simp [rune2_eq_none (b := b) (show 0xE0 ≤ a.toNat by omega), rune3_eq_none ha, h]

end Sequences

/-- A rune is read back from its bytes, whatever comes behind them. -/
theorem decodeRune_utf8EncodeChar (c : Char) :
    ∃ a as, String.utf8EncodeChar c = a :: as ∧
      ∀ rest, decodeRune a (as ++ rest) = (some c, as.length) := by
  have hvalid := c.valid
  simp only [UInt32.isValidChar, Nat.isValidChar] at hvalid
  have hc : Char.ofNat c.val.toNat = c := Char.ofNat_toNat c
  unfold String.utf8EncodeChar
  generalize hv : c.val.toNat = v at *
  dsimp only
  split
  · have ha : (UInt8.ofNat v).toNat = v := toNat_ofNat_of_lt (by omega)
    refine ⟨_, _, rfl, fun rest => ?_⟩
    rw [decodeRune.eq_def, ha, if_pos (by omega), hc]
    rfl
  · split
    · have ha : (UInt8.ofNat (v / 64 % 32 + 192)).toNat = v / 64 % 32 + 192 :=
        toNat_ofNat_of_lt (by omega)
      have hrune := rune2_ofNat (v := v) (by omega) (by omega)
      rw [hc] at hrune
      exact ⟨_, _, rfl, decodeRune_two (by omega) hrune⟩
    · split
      · have ha : (UInt8.ofNat (v / 4096 % 16 + 224)).toNat = v / 4096 % 16 + 224 :=
          toNat_ofNat_of_lt (by omega)
        have hrune := rune3_ofNat (v := v) (by omega) (by omega) (by omega)
        rw [hc] at hrune
        exact ⟨_, _, rfl, decodeRune_three (by omega) hrune⟩
      · have ha : (UInt8.ofNat (v / 262144 % 8 + 240)).toNat = v / 262144 % 8 + 240 :=
          toNat_ofNat_of_lt (by omega)
        have hrune := rune4_ofNat (v := v) (by omega) (by omega)
        rw [hc] at hrune
        exact ⟨_, _, rfl, decodeRune_four (by omega) hrune⟩

theorem runesFrom_append (as bs : List UInt8) :
    runesFrom as.length (as ++ bs) = runesFrom 0 bs := by
  induction as with
  | nil => rfl
  | cons a as ih => exact ih

/-- An encoded character is read back, whatever follows it. -/
theorem runes_utf8EncodeChar (c : Char) (bs : List UInt8) :
    runes (String.utf8EncodeChar c ++ bs) = some c :: runes bs := by
  obtain ⟨a, as, henc, hdec⟩ := decodeRune_utf8EncodeChar c
  rw [henc, List.cons_append, runes, runesFrom, hdec, runesFrom_append]
  rfl

/-- **Text round trip**: the bytes of a text are read as the text. -/
theorem text_utf8 (cs : List Char) : text (utf8 cs) = cs := by
  induction cs with
  | nil => rfl
  | cons c cs ih =>
      rw [text, utf8, List.flatMap_cons, runes_utf8EncodeChar, List.map_cons]
      exact congrArg (c :: ·) ih

/-! ## bytes that are cut off -/

/-- A continuation byte begins no rune. -/
theorem decodeRune_continuation {a : UInt8} (h₁ : 0x80 ≤ a.toNat) (h₂ : a.toNat < 0xC0)
    (rest : List UInt8) : decodeRune a rest = (none, 0) := by
  have h2 (b : UInt8) : rune2 a b = none := by
    unfold rune2
    split
    · rw [if_neg (by omega)]
    · rfl
  have h3 (b c : UInt8) : rune3 a b c = none := by
    unfold rune3
    split
    · rw [if_neg (by omega)]
    · rfl
  have h4 (b c d : UInt8) : rune4 a b c d = none := by
    unfold rune4
    split
    · rw [if_neg (by omega)]
    · rfl
  rw [decodeRune.eq_def, if_neg (by omega)]
  rcases rest with _ | ⟨b, _ | ⟨c, _ | ⟨d, rest⟩⟩⟩ <;> simp [h2, h3, h4]

/-- Stray continuation bytes are bad one by one. -/
theorem runes_continuation {as : List UInt8} (h : ∀ a ∈ as, 0x80 ≤ a.toNat ∧ a.toNat < 0xC0) :
    runes as = List.replicate as.length none := by
  induction as with
  | nil => rfl
  | cons a as ih =>
      obtain ⟨h₁, h₂⟩ := h a List.mem_cons_self
      rw [runes, runesFrom, decodeRune_continuation h₁ h₂, List.length_cons, List.replicate_succ]
      exact congrArg (none :: ·) (ih fun b hb => h b (List.mem_cons_of_mem a hb))

section Short

variable {a b c : UInt8}

theorem decodeRune_nil (h : 0x80 ≤ a.toNat) : decodeRune a [] = (none, 0) := by
  rw [decodeRune.eq_def, if_neg (by omega)]

theorem decodeRune_one (h : 0xE0 ≤ a.toNat) : decodeRune a [b] = (none, 0) := by
  rw [decodeRune.eq_def, if_neg (by omega)]
  simp [rune2_eq_none h]

theorem decodeRune_two_of_four (h : 0xF0 ≤ a.toNat) : decodeRune a [b, c] = (none, 0) := by
  rw [decodeRune.eq_def, if_neg (by omega)]
  simp [rune2_eq_none (b := b) (show 0xE0 ≤ a.toNat by omega), rune3_eq_none h]

end Short

/-- The bytes behind the first one are continuations, and without the last of
them there is no rune. -/
theorem utf8EncodeChar_cons (c : Char) :
    ∃ a as, String.utf8EncodeChar c = a :: as ∧
      (∀ b ∈ as, 0x80 ≤ b.toNat ∧ b.toNat < 0xC0) ∧
      ∀ k, k < as.length → decodeRune a (as.take k) = (none, 0) := by
  have hcont (n : Nat) : 0x80 ≤ (UInt8.ofNat (n % 64 + 128)).toNat ∧
      (UInt8.ofNat (n % 64 + 128)).toNat < 0xC0 := by
    rw [toNat_ofNat_of_lt (by omega)]
    omega
  unfold String.utf8EncodeChar
  generalize c.val.toNat = v
  dsimp only
  split
  · exact ⟨_, _, rfl, by simp, by simp⟩
  · split
    · have ha : (UInt8.ofNat (v / 64 % 32 + 192)).toNat = v / 64 % 32 + 192 :=
        toNat_ofNat_of_lt (by omega)
      refine ⟨_, _, rfl, by simpa only [List.forall_mem_singleton] using hcont _, fun k hk => ?_⟩
      obtain rfl : k = 0 := by simpa using hk
      exact decodeRune_nil (by omega)
    · split
      · have ha : (UInt8.ofNat (v / 4096 % 16 + 224)).toNat = v / 4096 % 16 + 224 :=
          toNat_ofNat_of_lt (by omega)
        refine ⟨_, _, rfl, ?_, fun k hk => ?_⟩
        · rw [List.forall_mem_cons, List.forall_mem_singleton]
          exact ⟨hcont _, hcont _⟩
        · simp only [List.length_cons, List.length_nil] at hk
          rcases k with _ | _ | k
          · exact decodeRune_nil (by omega)
          · exact decodeRune_one (by omega)
          · omega
      · have ha : (UInt8.ofNat (v / 262144 % 8 + 240)).toNat = v / 262144 % 8 + 240 :=
          toNat_ofNat_of_lt (by omega)
        refine ⟨_, _, rfl, ?_, fun k hk => ?_⟩
        · rw [List.forall_mem_cons, List.forall_mem_cons, List.forall_mem_singleton]
          exact ⟨hcont _, hcont _, hcont _⟩
        · simp only [List.length_cons, List.length_nil] at hk
          rcases k with _ | _ | _ | k
          · exact decodeRune_nil (by omega)
          · exact decodeRune_one (by omega)
          · exact decodeRune_two_of_four (by omega)
          · omega

/-- The first bytes of a rune are errors when the rest is missing. -/
theorem runes_take_utf8EncodeChar (c : Char) {n : Nat}
    (h : n < (String.utf8EncodeChar c).length) :
    runes ((String.utf8EncodeChar c).take n) = List.replicate n none := by
  obtain ⟨a, as, henc, hcont, hshort⟩ := utf8EncodeChar_cons c
  rw [henc] at h ⊢
  cases n with
  | zero => rfl
  | succ n =>
      have hn : n < as.length := by simpa using h
      have hrest : runes (as.take n) = _ :=
        runes_continuation fun b hb => hcont b (List.mem_of_mem_take hb)
      rw [List.length_take_of_le (by omega)] at hrest
      rw [List.take_succ_cons, runes, runesFrom, hshort n hn, List.replicate_succ]
      exact congrArg (none :: ·) hrest

/-- **Cut bytes**: the first bytes of a text read as its first characters and
replacements for a character that was cut. -/
theorem text_take_utf8 (cs : List Char) (n : Nat) :
    ∃ k errs, text ((utf8 cs).take n) = cs.take k ++ List.replicate errs (Char.ofNat 0xFFFD) ∧
      (n < (utf8 cs).length → k < cs.length) := by
  induction cs generalizing n with
  | nil => exact ⟨0, 0, by simp [utf8, text, runes, runesFrom], by simp [utf8]⟩
  | cons c cs ih =>
      rw [utf8, List.flatMap_cons, ← utf8, List.take_append]
      by_cases hn : n < (String.utf8EncodeChar c).length
      · refine ⟨0, n, ?_, by simp⟩
        rw [Nat.sub_eq_zero_of_le (Nat.le_of_lt hn), List.take_zero, List.append_nil, text,
          runes_take_utf8EncodeChar c hn, List.map_replicate]
        rfl
      · obtain ⟨k, errs, htext, hk⟩ := ih (n - (String.utf8EncodeChar c).length)
        refine ⟨k + 1, errs, ?_, fun h => ?_⟩
        · rw [List.take_of_length_le (by omega), text, runes_utf8EncodeChar, List.map_cons,
            List.take_succ_cons, List.cons_append]
          exact congrArg (c :: ·) htext
        · rw [List.length_append] at h
          simpa using hk (by omega)

end OcuFilestore
