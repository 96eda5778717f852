/-!
# OcuFilestore.Lib.Reader

Byte streams that are read through a buffer, in the manner of Go's
`io.Reader`.  A `Script` is what a stream is going to deliver: a finite
sequence of reads, each with any number of items (also none), closed by a
last delivery that comes together with the terminal error (end of file is
one of the errors).  A read with a buffer shorter than the next delivery
hands out its front and leaves the rest, so one script answers every
sequence of buffer sizes.

The two facts everything else rests on are `read_items` — a read hands out
the front of what is left and keeps the rest — and `weight_read_lt` — a read
that does not end the stream uses some of the script up.
-/

namespace OcuFilestore

/-- What a stream will deliver, ending in the terminal error `e`. -/
inductive Script (α ε : Type) where
  | last (xs : List α) (e : ε)
  | chunk (xs : List α) (rest : Script α ε)
  deriving DecidableEq, Repr

namespace Script

variable {α ε : Type}

/-- One read with a buffer of `n` items: the items handed out, the error if
the read ends the stream, and the stream after it.  After the end every read
repeats the terminal error. -/
def read (n : Nat) : Script α ε → (List α × Option ε) × Script α ε
  | last xs e =>
      if xs.length ≤ n then ((xs, some e), last [] e)
      else ((xs.take n, none), last (xs.drop n) e)
  | chunk xs rest =>
      if xs.length ≤ n then ((xs, none), rest)
      else ((xs.take n, none), chunk (xs.drop n) rest)

/-- Everything the stream delivers. -/
def items : Script α ε → List α
  | last xs _ => xs
  | chunk xs rest => xs ++ rest.items

/-- The error the stream ends in. -/
def err : Script α ε → ε
  | last _ e => e
  | chunk _ rest => rest.err

/-- How much of the script is left to use up. -/
def weight : Script α ε → Nat
  | last xs _ => xs.length
  | chunk xs rest => xs.length + 1 + rest.weight

/-- A read never overfills its buffer. -/
theorem length_read_le (n : Nat) (s : Script α ε) : (s.read n).1.1.length ≤ n := by
  cases s <;> simp only [read] <;> split <;> simp <;> omega

/-- A read hands out the front of what is left and keeps the rest. -/
theorem read_items (n : Nat) (s : Script α ε) :
    s.items = (s.read n).1.1 ++ (s.read n).2.items := by
  cases s with
  | last xs e => simp only [read]; split <;> simp [items]
  | chunk xs rest =>
      simp only [read]
      split
      · simp [items]
      · simp only [items]
        rw [← List.append_assoc, List.take_append_drop]

/-- A read leaves the terminal error as it is. -/
theorem read_err (n : Nat) (s : Script α ε) : (s.read n).2.err = s.err := by
  cases s <;> simp only [read] <;> split <;> simp [err]

/-- The read that ends the stream hands out all that was left, and reports
the terminal error. -/
theorem read_some {n : Nat} {s : Script α ε} {e : ε} (h : (s.read n).1.2 = some e) :
    e = s.err ∧ (s.read n).1.1 = s.items ∧ (s.read n).2.items = [] := by
  cases s with
  | last xs e' =>
      simp only [read] at h ⊢
      split at h
      · next hle =>
          rw [if_pos hle]
          exact ⟨(Option.some.inj h).symm, rfl, rfl⟩
      · simp at h
  | chunk xs rest =>
      simp only [read] at h
      split at h <;> simp at h

/-- With a non-empty buffer a read that does not end the stream uses some of
the script up. -/
theorem weight_read_lt {n : Nat} (hn : 0 < n) {s : Script α ε} (h : (s.read n).1.2 = none) :
    (s.read n).2.weight < s.weight := by
  cases s with
  | last xs e =>
      simp only [read] at h ⊢
      split at h
      · simp at h
      · next hle =>
          rw [if_neg hle]
          simp only [weight, List.length_drop]
          omega
  | chunk xs rest =>
      simp only [read]
      split
      · simp only [weight]; omega
      · simp only [weight, List.length_drop]; omega

/-! ## reading to a limit -/

/-- Read through buffers of `buf` items until `limit` items are in or the
stream ends, as `io.ReadAll(io.LimitReader(s, limit))` does: the items, the
error that ended the stream (none when the limit ended the read) and what is
left of the stream. -/
def readLimit (buf : Nat) (hbuf : 0 < buf) (limit : Nat) (s : Script α ε) :
    List α × Option ε × Script α ε :=
  if _hl : limit = 0 then ([], none, s)
  else
    match _hr : s.read (min buf limit) with
    | ((xs, some e), s') => (xs, some e, s')
    | ((xs, none), s') =>
        let (ys, e, s'') := readLimit buf hbuf (limit - xs.length) s'
        (xs ++ ys, e, s'')
termination_by s.weight
decreasing_by
  have h := weight_read_lt (s := s) (n := min buf limit) (by omega) (by rw [_hr])
  rw [_hr] at h
  exact h

/-- A buffer has room. -/
abbrev Buffer : Type := { n : Nat // 0 < n }

/-- The same with a buffer for every read. -/
def readUpTo (bufs : Nat → Buffer) (i limit : Nat) (s : Script α ε) :
    List α × Option ε × Script α ε :=
  if _hl : limit = 0 then ([], none, s)
  else
    match _hr : s.read (min (bufs i).1 limit) with
    | ((xs, some e), s') => (xs, some e, s')
    | ((xs, none), s') =>
        let (ys, e, s'') := readUpTo bufs (i + 1) (limit - xs.length) s'
        (xs ++ ys, e, s'')
termination_by s.weight
decreasing_by
  have hpos := (bufs i).2
  have h := weight_read_lt (s := s) (n := min (bufs i).1 limit) (by omega) (by rw [_hr])
  rw [_hr] at h
  exact h

/-- Whatever the buffers, what is read is the front of what is left, up to the
limit, and no more of it is used up. -/
theorem readUpTo_items (bufs : Nat → Buffer) (i limit : Nat) (s : Script α ε) :
    (s.readUpTo bufs i limit).1 = s.items.take limit ∧
      (s.readUpTo bufs i limit).2.2.items = s.items.drop limit := by
  induction i, limit, s using readUpTo.induct bufs with
  | case1 i s =>
      rw [readUpTo]
      simp
  | case2 i limit s hl xs e s' hr =>
      have hlen := length_read_le (min (bufs i).1 limit) s
      obtain ⟨-, hxs, hrest⟩ := read_some (congrArg (fun r => r.1.2) hr)
      rw [hr] at hlen hxs hrest
      dsimp only at hlen hxs hrest
      have hle : s.items.length ≤ limit := by rw [← hxs]; omega
      rw [readUpTo, dif_neg hl, hr]
      exact ⟨hxs.trans (List.take_of_length_le hle).symm,
        hrest.trans (List.drop_eq_nil_of_le hle).symm⟩
  | case3 i limit s hl xs s' hr ys e s'' _ ih =>
      have hlen := length_read_le (min (bufs i).1 limit) s
      have hitems := read_items (min (bufs i).1 limit) s
      rw [hr] at hlen hitems
      dsimp only at hlen hitems
      rw [readUpTo, dif_neg hl, hr]
      dsimp only
      rw [ih.1, ih.2, hitems, List.take_append, List.drop_append,
        List.take_of_length_le (by omega : xs.length ≤ limit),
        List.drop_eq_nil_of_le (by omega : xs.length ≤ limit), List.nil_append]
      exact ⟨rfl, rfl⟩

/-- An error that ends the read is the terminal one. -/
theorem readUpTo_err {bufs : Nat → Buffer} {i limit : Nat} {s : Script α ε} {e : ε}
    (h : (s.readUpTo bufs i limit).2.1 = some e) : e = s.err := by
  induction i, limit, s using readUpTo.induct bufs with
  | case1 i s =>
      rw [readUpTo, dif_pos rfl] at h
      cases h
  | case2 i limit s hl xs e' s' hr =>
      rw [readUpTo, dif_neg hl, hr] at h
      obtain rfl : e' = e := Option.some.inj h
      exact (read_some (congrArg (fun r => r.1.2) hr)).1
  | case3 i limit s hl xs s' hr ys e' s'' _ ih =>
      have herr := read_err (min (bufs i).1 limit) s
      rw [hr] at herr
      rw [readUpTo, dif_neg hl, hr] at h
      exact (ih h).trans herr

/-- One buffer for all reads. -/
theorem readLimit_eq_readUpTo {buf : Nat} (hbuf : 0 < buf) (i limit : Nat) (s : Script α ε) :
    s.readLimit buf hbuf limit = s.readUpTo (fun _ => ⟨buf, hbuf⟩) i limit := by
  induction i, limit, s using readUpTo.induct fun _ => ⟨buf, hbuf⟩ with
  | case1 i s => rw [readLimit, readUpTo, dif_pos rfl, dif_pos rfl]
  | case2 i limit s hl xs e s' hr =>
      dsimp only at hr
      rw [readLimit, readUpTo, dif_neg hl, dif_neg hl, hr]
  | case3 i limit s hl xs s' hr ys e s'' _ ih =>
      dsimp only at hr
      rw [readLimit, readUpTo, dif_neg hl, dif_neg hl, hr]
      dsimp only
      rw [ih]

end Script

/-! ## draining a reader -/

section Drain

variable {σ α ε : Type} (rd : σ → Nat → (List α × Option ε) × σ)

/-- Read from state `s` with the buffers `bufs i`, `bufs (i + 1)`, … up to
and including the first error, for at most `fuel` reads. -/
def drain (bufs : Nat → Nat) : Nat → Nat → σ → Option (List α × ε)
  | 0, _, _ => none
  | fuel + 1, i, s =>
      match rd s (bufs i) with
      | ((xs, some e), _) => some (xs, e)
      | ((xs, none), s') => (drain bufs fuel (i + 1) s').map fun r => (xs ++ r.1, r.2)

variable {rd}

/-- What a drain has come to does not change with more fuel. -/
theorem drain_mono {bufs : Nat → Nat} {fuel fuel' i : Nat} {s : σ} {r : List α × ε}
    (hle : fuel ≤ fuel') (h : drain rd bufs fuel i s = some r) :
    drain rd bufs fuel' i s = some r := by
  induction fuel generalizing fuel' i s r with
  | zero => cases h
  | succ fuel ih =>
      obtain ⟨fuel', rfl⟩ : ∃ n, fuel' = n + 1 := ⟨fuel' - 1, by omega⟩
      unfold drain at h ⊢
      split at h
      · exact h
      · obtain ⟨r', hr', rfl⟩ := Option.map_eq_some_iff.mp h
        rw [ih (by omega) hr']
        rfl

end Drain

end OcuFilestore
