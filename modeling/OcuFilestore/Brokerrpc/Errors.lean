import OcuFilestore.Go.Errors
import OcuFilestore.Lib.Reader

/-!
# OcuFilestore.Brokerrpc.Errors

The mapping from HTTP statuses to typed errors (`internal/brokerrpc/errors.go`).
The status decides the class of the error; the response body is copied into
the text, bounded, and the `Retry-After` header is looked at for 429 only.

`mapHTTPStatus_kind` is the whole table in one statement: sentinel and retry
mark are a function of the status alone.
-/

namespace OcuFilestore.Brokerrpc

/-- What `strconv.ParseFloat` can return.  Rounding to 64 bits is not
modelled: a finite result is the rational number itself. -/
inductive F64 where
  | nan
  | inf (negative : Bool)
  | finite (q : Rat)
  deriving DecidableEq

namespace F64

def gtZero : F64 → Bool
  | nan => false
  | inf negative => !negative
  | finite q => 0 < q

def lt (bound : Rat) : F64 → Bool
  | nan => false
  | inf negative => negative
  | finite q => q < bound

/-- `time.Duration(secs * float64(time.Second))` on the accepted range. -/
def toNanos : F64 → Int
  | finite q => (q * 1000000000).floor
  | _ => 0

end F64

/-- A `Retry-After` header value with what `strconv.ParseFloat` makes of it. -/
structure RetryAfter where
  raw : String
  parsed : Option F64

def maxRetryAfterSeconds : Rat := 3600

/-- The diagnostics budget for a non-2xx response body: 64 KiB. -/
def maxErrorBodyBytes : Nat := 65536

/-- The bytes of `" ...[truncated]"`. -/
def errorBodyTruncationMarker : List UInt8 :=
  " ...[truncated]".toList.map fun c => c.toNat.toUInt8

/-- `io.ReadAll` starts out with a buffer of this size. -/
def readAllBuffer : Nat := 512

theorem readAllBuffer_pos : 0 < readAllBuffer := by decide

/-- The bounded capture of a non-2xx body.  One more byte is probed for when
the budget is used up, so that a body of exactly that size is not marked as
truncated; read errors are dropped. -/
def captureErrorBody (r : Script UInt8 Err) : List UInt8 :=
  let (body, _, rest) := r.readLimit readAllBuffer readAllBuffer_pos maxErrorBodyBytes
  if body.length = maxErrorBodyBytes then
    -- `io.ReadFull` into one byte: it skips empty reads, so it finds a byte
    -- exactly when the rest of the stream still carries one
    match rest.items with
    | [] => body
    | _ :: _ => body ++ errorBodyTruncationMarker
  else body

/-- The same with the buffers `io.ReadAll` reads through, and with what it
leaves of the reader. -/
def captureErrorBodyFrom (bufs : Nat → Script.Buffer) (r : Script UInt8 Err) :
    List UInt8 × Script UInt8 Err :=
  let (body, _, rest) := r.readUpTo bufs 0 maxErrorBodyBytes
  if body.length = maxErrorBodyBytes then
    let (probe, _, rest') := rest.readUpTo bufs 0 1
    if 0 < probe.length then (body ++ errorBodyTruncationMarker, rest') else (body, rest')
  else (body, rest)

/-- The copy of a body into an error text, bounded once more. -/
def boundErrorBody (body : List UInt8) : List UInt8 :=
  if body.length ≤ maxErrorBodyBytes then body
  else body.take maxErrorBodyBytes ++ errorBodyTruncationMarker

/-! ## the bound -/

/-- What a capture returns and what it leaves, by the length of the body. -/
theorem captureErrorBodyFrom_eq (bufs : Nat → Script.Buffer) (r : Script UInt8 Err) :
    (captureErrorBodyFrom bufs r).1 = boundErrorBody r.items ∧
      (captureErrorBodyFrom bufs r).2.items = r.items.drop (maxErrorBodyBytes + 1) := by
  obtain ⟨hbody, hrest⟩ := r.readUpTo_items bufs 0 maxErrorBodyBytes
  obtain ⟨hprobe, hrest'⟩ :=
    (r.readUpTo bufs 0 maxErrorBodyBytes).2.2.readUpTo_items bufs 0 1
  rw [hrest] at hprobe hrest'
  rw [List.drop_drop] at hrest'
  unfold captureErrorBodyFrom boundErrorBody
  dsimp only
  rw [hbody, hprobe, List.length_take]
  by_cases hfull : min maxErrorBodyBytes r.items.length = maxErrorBodyBytes
  · rw [if_pos hfull]
    by_cases hle : r.items.length ≤ maxErrorBodyBytes
    · -- a body of exactly the budget: the probe finds nothing
      have hnone : ¬ 0 < ((r.items.drop maxErrorBodyBytes).take 1).length := by
        simp [List.drop_eq_nil_of_le hle]
      rw [if_pos hle, if_neg hnone, List.take_of_length_le hle]
      exact ⟨rfl, hrest'⟩
    · have hpending : 0 < ((r.items.drop maxErrorBodyBytes).take 1).length := by
        rw [List.length_take, List.length_drop]
        omega
      rw [if_neg hle, if_pos hpending]
      exact ⟨rfl, hrest'⟩
  · have hlt : r.items.length < maxErrorBodyBytes := by omega
    rw [if_neg hfull, if_pos (Nat.le_of_lt hlt), hrest, List.take_of_length_le (by omega),
      List.drop_eq_nil_of_le (by omega), List.drop_eq_nil_of_le (by omega)]
    exact ⟨rfl, rfl⟩

/-- The result of a capture is the same for all buffers. -/
theorem captureErrorBody_eq (bufs : Nat → Script.Buffer) (r : Script UInt8 Err) :
    captureErrorBody r = (captureErrorBodyFrom bufs r).1 := by
  obtain ⟨hbody, hrest⟩ :=
    r.readUpTo_items (fun _ => ⟨readAllBuffer, readAllBuffer_pos⟩) 0 maxErrorBodyBytes
  rw [(captureErrorBodyFrom_eq bufs r).1, captureErrorBody,
    Script.readLimit_eq_readUpTo readAllBuffer_pos 0]
  unfold boundErrorBody
  dsimp only
  rw [hbody, hrest, List.length_take]
  rcases Nat.lt_trichotomy r.items.length maxErrorBodyBytes with hlt | heq | hgt
  · rw [if_neg (by omega), if_pos (by omega), List.take_of_length_le (by omega)]
  · rw [if_pos (by omega), if_pos (by omega), List.drop_eq_nil_of_le (by omega),
      List.take_of_length_le (by omega)]
  · obtain ⟨b, bs, hdrop⟩ : ∃ b bs, r.items.drop maxErrorBodyBytes = b :: bs := by
      refine List.exists_cons_of_ne_nil fun h => ?_
      have := List.drop_eq_nil_iff.mp h
      omega
    rw [if_pos (by omega), if_neg (by omega), hdrop]

/-- The marker pushes a bounded body over the budget again, and the second cut
takes just the marker off. -/
theorem boundErrorBody_boundErrorBody (body : List UInt8) :
    boundErrorBody (boundErrorBody body) = boundErrorBody body := by
  by_cases h : body.length ≤ maxErrorBodyBytes
  · have hbody : boundErrorBody body = body := if_pos h
    rw [hbody, hbody]
  · have hcut : (body.take maxErrorBodyBytes).length = maxErrorBodyBytes := by
      rw [List.length_take]
      omega
    have hbody : boundErrorBody body = body.take maxErrorBodyBytes ++ errorBodyTruncationMarker :=
      if_neg h
    have hover : ¬ (body.take maxErrorBodyBytes ++ errorBodyTruncationMarker).length ≤
        maxErrorBodyBytes := by
      have hmarker : 0 < errorBodyTruncationMarker.length := by decide
      rw [List.length_append, hcut]
      omega
    rw [hbody, boundErrorBody, if_neg hover, List.take_left' hcut]

/-- **Error bodies are bounded**: for every body, however it is delivered and
through whatever buffers it is read, the capture bounded once more is the
bounded body; bounding is idempotent; and no more than the budget and one byte
of the reader are used up. -/
theorem errorBody_bounded (bufs : Nat → Script.Buffer) (r : Script UInt8 Err) :
    captureErrorBody r = (captureErrorBodyFrom bufs r).1 ∧
      boundErrorBody (captureErrorBody r) = boundErrorBody r.items ∧
      (r.items.length ≤ maxErrorBodyBytes → boundErrorBody r.items = r.items) ∧
      (maxErrorBodyBytes < r.items.length →
        boundErrorBody r.items = r.items.take maxErrorBodyBytes ++ errorBodyTruncationMarker) ∧
      (∀ body, boundErrorBody (boundErrorBody body) = boundErrorBody body) ∧
      ∃ consumed, r.items = consumed ++ (captureErrorBodyFrom bufs r).2.items ∧
        consumed.length ≤ maxErrorBodyBytes + 1 := by
  obtain ⟨hcapture, hrest⟩ := captureErrorBodyFrom_eq bufs r
  have heq := captureErrorBody_eq bufs r
  refine ⟨heq, ?_, fun h => if_pos h, fun h => if_neg (Nat.not_le.mpr h),
    boundErrorBody_boundErrorBody, r.items.take (maxErrorBodyBytes + 1), ?_, ?_⟩
  · rw [heq, hcapture, boundErrorBody_boundErrorBody]
  · rw [hrest, List.take_append_drop]
  · exact List.length_take_le _ _

/-! ## statuses -/

/-- `"%w: status %d: %s"` around a sentinel. -/
def statusErr (s : Sentinel) (status : Int) (msg : List UInt8) : Err :=
  .wrap [] (.sentinel s) [.lit ": status ", .int status, .lit ": ", .bytes msg]

/-- `"brokerrpc: <what>: status %d: %s"`. -/
def statusText (what : String) (status : Int) (msg : List UInt8) : Err :=
  .text [.lit "brokerrpc: ", .lit what, .lit ": status ", .int status, .lit ": ", .bytes msg]

/-- The 429 arm: a usable `Retry-After` value (positive, finite, under an
hour) adds the hint, anything else leaves a plain retryable error. -/
def resourceExhausted (status : Int) (msg : List UInt8) (retryAfter : RetryAfter) : Err :=
  let base := statusText "resource exhausted" status msg
  if retryAfter.raw = "" then .retryError base
  else
    match retryAfter.parsed with
    | some secs =>
        if secs.gtZero && secs.lt maxRetryAfterSeconds then
          .retryError (.wrapBoth base (.errorRetryAfter secs.toNanos))
        else .retryError base
    | none => .retryError base

/-- The typed error of a non-2xx status. -/
def mapHTTPStatus (status : Int) (body : List UInt8) (retryAfter : RetryAfter) : Err :=
  let msg := boundErrorBody body
  if status = 401 ∨ status = 403 then statusErr .errPermissionDenied status msg
  else if status = 404 then statusErr .errNotFound status msg
  else if status = 409 then statusErr .errAlreadyExists status msg
  else if status = 400 ∨ status = 422 then statusErr .errInvalidArgument status msg
  else if status = 429 then resourceExhausted status msg retryAfter
  else if status = 503 then .retryError (statusText "unavailable" status msg)
  else statusErr .errPermanentOther status msg

/-- A status outside 200..299. -/
def nonSuccess (status : Int) : Bool := status < 200 || status > 299

/-- The statuses that ask the caller to try again. -/
def retryable (status : Int) : Bool := status = 429 || status = 503

/-- The sentinels a status is mapped to. -/
def statusSentinels (status : Int) : List Sentinel :=
  if status = 401 ∨ status = 403 then [.errPermissionDenied]
  else if status = 404 then [.errNotFound]
  else if status = 409 then [.errAlreadyExists]
  else if status = 400 ∨ status = 422 then [.errInvalidArgument]
  else if status = 429 ∨ status = 503 then []
  else [.errPermanentOther]

@[simp] theorem statusErr_kind (s : Sentinel) (status : Int) (msg : List UInt8) :
    (statusErr s status msg).kind = ⟨[s], false⟩ := rfl

@[simp] theorem statusErr_hint (s : Sentinel) (status : Int) (msg : List UInt8) :
    (statusErr s status msg).retryAfterHint = none := rfl

/-- With or without a hint, the 429 arm is retryable and matches no sentinel. -/
theorem resourceExhausted_kind (status : Int) (msg : List UInt8) (ra : RetryAfter) :
    (resourceExhausted status msg ra).kind = ⟨[], true⟩ := by
  unfold resourceExhausted
  dsimp only
  split
  · rfl
  · split
    · split <;> rfl
    · rfl

/-- The class of the mapped error is a function of the status alone. -/
theorem mapHTTPStatus_kind (status : Int) (body : List UInt8) (ra : RetryAfter) :
    (mapHTTPStatus status body ra).kind = ⟨statusSentinels status, retryable status⟩ := by
  unfold mapHTTPStatus statusSentinels retryable
  dsimp only
  by_cases h1 : status = 401 ∨ status = 403
  · rcases h1 with rfl | rfl <;> rfl
  by_cases h2 : status = 404
  · subst h2; rfl
  by_cases h3 : status = 409
  · subst h3; rfl
  by_cases h4 : status = 400 ∨ status = 422
  · rcases h4 with rfl | rfl <;> rfl
  by_cases h5 : status = 429
  · subst h5
    exact resourceExhausted_kind 429 _ ra
  by_cases h6 : status = 503
  · subst h6; rfl
  rw [if_neg h1, if_neg h2, if_neg h3, if_neg h4, if_neg h5, if_neg h6, if_neg h1, if_neg h2,
    if_neg h3, if_neg h4, if_neg (not_or.mpr ⟨h5, h6⟩)]
  simp [h5, h6]

/-- A retry-after hint comes with 429 and with no other status. -/
theorem mapHTTPStatus_hint {status : Int} {body : List UInt8} {ra : RetryAfter} (h : status ≠ 429) :
    (mapHTTPStatus status body ra).retryAfterHint = none := by
  unfold mapHTTPStatus
  dsimp only
  rw [if_neg h]
  repeat' split
  all_goals rfl

end OcuFilestore.Brokerrpc
