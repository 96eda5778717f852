/-!
# OcuFilestore.Go.Errors

Go error values as the mount handles them: sentinels compared by identity,
`fmt.Errorf` with and without `%w`, and the two marks rclone's `fserrors`
package puts on an error.  Lookups (`errors.Is`, `fserrors.IsRetryError`, the
retry-after lookup) walk the `%w` chain.

An error text is kept as its fragments rather than as one string: literal
text, and the values the format verbs insert.
-/

namespace OcuFilestore

/-- A rooted or relative slash path, as the sequence of its characters. -/
abbrev Path := List Char

/-- A piece of an error text. -/
inductive Frag where
  | lit (s : String)
  | str (s : String)
  /-- `%q` -/
  | quoted (s : List Char)
  | int (n : Int)
  | bytes (bs : List UInt8)
  deriving DecidableEq, Repr

/-- The error values that are compared by identity. -/
inductive Sentinel where
  -- package brokerrpc
  | errPermissionDenied
  | errInvalidArgument
  | errNotFound
  | errAlreadyExists
  | errPermanentOther
  -- rclone's package fs
  | fsErrorPermissionDenied
  | fsErrorObjectNotFound
  | fsErrorDirNotFound
  | fsErrorIsDir
  | fsErrorCantCopy
  | fsErrorCantMove
  | fsErrorCantDirMove
  | fsErrorCantSetModTime
  -- package io
  | eof
  | errClosedPipe
  -- package context
  | contextCanceled
  | contextDeadlineExceeded
  deriving DecidableEq, Repr

/-- A Go error value. -/
inductive Err where
  | sentinel (s : Sentinel)
  /-- A text that wraps nothing. -/
  | text (msg : List Frag)
  /-- One `%w`, with the text before and after it. -/
  | wrap (pre : List Frag) (cause : Err) (post : List Frag)
  /-- `fmt.Errorf("%w: %w", first, second)`. -/
  | wrapBoth (first second : Err)
  /-- `fserrors.RetryError`. -/
  | retryError (cause : Err)
  /-- `fserrors.NewErrorRetryAfter`, with the delay in nanoseconds. -/
  | errorRetryAfter (d : Int)
  deriving DecidableEq, Repr

namespace Err

/-- `errors.Is` against a sentinel. -/
def is : Err → Sentinel → Bool
  | sentinel s, t => s == t
  | text _, _ => false
  | wrap _ cause _, t => cause.is t
  | wrapBoth first second, t => first.is t || second.is t
  | retryError cause, t => cause.is t
  | errorRetryAfter _, _ => false

/-- The error of a context that was cancelled or timed out is on the chain. -/
def isContext (e : Err) : Bool := e.is .contextCanceled || e.is .contextDeadlineExceeded

/-- `fserrors.IsRetryError`. -/
def isRetryError : Err → Bool
  | sentinel _ => false
  | text _ => false
  | wrap _ cause _ => cause.isRetryError
  | wrapBoth first second => first.isRetryError || second.isRetryError
  | retryError _ => true
  | errorRetryAfter _ => false

/-- The retry-after hint an error carries. -/
def retryAfterHint : Err → Option Int
  | sentinel _ => none
  | text _ => none
  | wrap _ cause _ => cause.retryAfterHint
  | wrapBoth first second => first.retryAfterHint <|> second.retryAfterHint
  | retryError cause => cause.retryAfterHint
  | errorRetryAfter d => some d

/-- What the layers above can tell two errors apart by, texts and delays
aside: the sentinels on the chain and the retry mark. -/
structure Kind where
  sentinels : List Sentinel
  retry : Bool
  deriving DecidableEq, Repr

def sentinels : Err → List Sentinel
  | sentinel s => [s]
  | text _ => []
  | wrap _ cause _ => cause.sentinels
  | wrapBoth first second => first.sentinels ++ second.sentinels
  | retryError cause => cause.sentinels
  | errorRetryAfter _ => []

def kind (e : Err) : Kind := ⟨e.sentinels, e.isRetryError⟩

/-- `errors.Is` asks whether a sentinel is on the chain. -/
theorem is_iff_mem_sentinels (e : Err) (t : Sentinel) : e.is t = true ↔ t ∈ e.sentinels := by
  induction e with
  | sentinel s =>
      simp only [is, sentinels, beq_iff_eq, List.mem_singleton]
      exact eq_comm
  | text msg => simp [is, sentinels]
  | wrap pre cause post ih => simpa [is, sentinels] using ih
  | wrapBoth first second ih₁ ih₂ => simp [is, sentinels, ih₁, ih₂]
  | retryError cause ih => simpa [is, sentinels] using ih
  | errorRetryAfter d => simp [is, sentinels]

end Err

/-! ## results -/

/-- A result whose value is computed is a success. -/
theorem ok_of_toOption {ε α : Type} {x : Except ε α} {a : α} (h : x.toOption = some a) :
    x = .ok a := by
  cases x with
  | error e => cases h
  | ok b => rw [Option.some.inj h]

/-- A step that succeeds. -/
theorem bind_ok_iff {ε α β : Type} {x : Except ε α} {f : α → Except ε β} {b : β} :
    (x >>= f) = .ok b ↔ ∃ a, x = .ok a ∧ f a = .ok b := by
  cases x with
  | error e => simp [bind, Except.bind]
  | ok a => simp [bind, Except.bind]

/-- A check that passes. -/
theorem guard_ok_iff {ε α : Type} {c : Prop} [Decidable c] {e : ε} {k : Except ε α} {a : α} :
    (if c then .error e else k) = .ok a ↔ ¬ c ∧ k = .ok a := by
  split <;> simp [*]

end OcuFilestore
