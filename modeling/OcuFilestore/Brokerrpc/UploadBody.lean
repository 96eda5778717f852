import OcuFilestore.Brokerrpc.Upload
import OcuFilestore.Lib.Monitor

/-!
# OcuFilestore.Brokerrpc.UploadBody

The goroutine that writes the body of an upload (`writeUploadMultipart` and
the end of it in `Upload`, `internal/brokerrpc/upload.go`): the params field,
the file part copied from the source in reads of at most the message ceiling,
and the closing boundary.

The body is a sequence of tokens, since the boundary does not occur in the
data.  The goroutine is a program with two effects, a read of the source and
a write to the pipe; a write is answered by the error it fails with.
`keeps_bodyWriter` says what reaches the pipe: a prefix of one complete body,
and the closing boundary only behind everything the source had to give.
-/

namespace OcuFilestore.Brokerrpc

/-! ## the multipart writer -/

/-- The pieces of a multipart body. -/
inductive Token where
  | formField (fieldname : String)
  | params (q : FileUploadRequest)
  | formFile (fieldname filename : String)
  | byte (b : UInt8)
  /-- The closing boundary. -/
  | closing
  deriving DecidableEq, Repr

/-- What the goroutine does to the world around it.  `read` reports what a
read of the source returned. -/
inductive BodyEff where
  | read (xs : List UInt8) (err : Option Err)
  | write (toks : List Token)

def BodyEff.Reply : BodyEff → Type
  | read _ _ => Unit
  | write _ => Option Err

abbrev BodyProg (α : Type) : Type := Prog BodyEff.Reply α

/-- A write to the pipe. -/
def pipeWrite (toks : List Token) : BodyProg (Option Err) := .perform (BodyEff.write toks)

/-- Go's `multipart.Writer`: the part that is open, with the error of its
last failed write. -/
structure MultipartWriter where
  lastpart : Option (Option Err)
  deriving DecidableEq, Repr

namespace MultipartWriter

/-- `part.close` of the open part: the error it carries. -/
def closeLast (mw : MultipartWriter) : Option Err := mw.lastpart.join

/-- `CreatePart`: close the open part, write the header, open the new one. -/
def createPart (mw : MultipartWriter) (header : Token) :
    BodyProg (Option Err × MultipartWriter) :=
  match mw.closeLast with
  | some e => return (some e, mw)
  | none => do
      match ← pipeWrite [header] with
      | some e => return (some e, mw)
      | none => return (none, ⟨some none⟩)

/-- `part.Write`: a failure stays with the part. -/
def partWrite (mw : MultipartWriter) (toks : List Token) :
    BodyProg (Option Err × MultipartWriter) := do
  match ← pipeWrite toks with
  | some e => return (some e, ⟨some (some e)⟩)
  | none => return (none, mw)

/-- `Close`: the closing boundary, unless the open part carries an error. -/
def close (mw : MultipartWriter) : BodyProg (Option Err) :=
  match mw.closeLast with
  | some e => return some e
  | none => pipeWrite [.closing]

end MultipartWriter

/-! ## the body -/

/-- The bytes asked of the source in one read. -/
def sourceChunkSize (ceiling : Int) : Nat := if ceiling < 1 then 1 else ceiling.toNat

theorem sourceChunkSize_pos (ceiling : Int) : 0 < sourceChunkSize ceiling := by
  unfold sourceChunkSize
  split <;> omega

/-- Write what a read returned, if anything, and go on. -/
def writeChunk (mw : MultipartWriter) (xs : List UInt8)
    (next : MultipartWriter → BodyProg (Option Err × MultipartWriter)) :
    BodyProg (Option Err × MultipartWriter) :=
  if xs = [] then next mw
  else do
    match ← mw.partWrite (xs.map .byte) with
    | (some werr, mw) => return (some (.wrap [.lit "write file chunk: "] werr []), mw)
    | (none, mw) => next mw

/-- The copy loop, in reads of at most `n` bytes. -/
def copySource (n : Nat) (hn : 0 < n) (mw : MultipartWriter) (src : Script UInt8 Err) :
    BodyProg (Option Err × MultipartWriter) :=
  match _h : src.read n with
  | ((xs, some readErr), _) =>
      .op (.read xs (some readErr)) fun _ => writeChunk mw xs fun mw =>
        if readErr = .sentinel .eof then return (none, mw)
        else return (some (.wrap [.lit "read source: "] readErr []), mw)
  | ((xs, none), src') =>
      .op (.read xs none) fun _ => writeChunk mw xs fun mw => copySource n hn mw src'
termination_by src.weight
decreasing_by
  have h := Script.weight_read_lt (s := src) hn (by rw [_h])
  rw [_h] at h
  exact h

def writeUploadMultipart (mw : MultipartWriter) (q : FileUploadRequest)
    (src : Script UInt8 Err) (ceiling : Int) : BodyProg (Option Err × MultipartWriter) := do
  match ← mw.createPart (.formField "params") with
  | (some e, mw) => return (some (.wrap [.lit "create params field: "] e []), mw)
  | (none, mw) =>
      match ← mw.partWrite [.params q] with
      | (some e, mw) => return (some (.wrap [.lit "write params field: "] e []), mw)
      | (none, mw) =>
          match ← mw.createPart (.formFile "file" "upload") with
          | (some e, mw) => return (some (.wrap [.lit "create file part: "] e []), mw)
          | (none, mw) =>
              copySource (sourceChunkSize ceiling) (sourceChunkSize_pos ceiling) mw src

/-- The goroutine: write the body, close the multipart writer whatever
happened, and report the first error. -/
def bodyWriter (q : FileUploadRequest) (src : Script UInt8 Err) (ceiling : Int) :
    BodyProg (Option Err) := do
  let (err, mw) ← writeUploadMultipart ⟨none⟩ q src ceiling
  let cerr ← mw.close
  match err with
  | none => return cerr
  | some e => return some e

/-! ## what reaches the pipe -/

/-- The body up to the content of the file part. -/
def bodyHead (q : FileUploadRequest) : List Token :=
  [.formField "params", .params q, .formFile "file" "upload"]

/-- A complete body. -/
def completeBody (q : FileUploadRequest) (content : List UInt8) : List Token :=
  bodyHead q ++ content.map .byte ++ [.closing]

/-- What the writer has done: the tokens in the pipe and the bytes read from
the source.  After a failed write the pipe takes nothing more. -/
inductive Written where
  | live (sent : List Token) (delivered : List UInt8)
  | dead (delivered : List UInt8)

/-- The closing boundary stands only behind the whole source. -/
def ClosedLast (q : FileUploadRequest) (items : List UInt8) (sent : List Token)
    (delivered : List UInt8) : Prop :=
  .closing ∈ sent → sent = completeBody q items ∧ delivered = items

/-- The rule the writer keeps: reads give the source's bytes in order, and
nothing that goes into the pipe puts the closing boundary early. -/
def bodyMonitor (q : FileUploadRequest) (items : List UInt8) :
    Monitor BodyEff.Reply Written where
  ok
    | .live _ delivered, .read xs _ => delivered ++ xs <+: items
    | .live sent delivered, .write toks =>
        ∀ front, front <+: toks → ClosedLast q items (sent ++ front) delivered
    | .dead _, .read _ _ => False
    | .dead _, .write _ => True
  next
    | .live sent delivered, .read xs _, _ => .live sent (delivered ++ xs)
    | .live sent delivered, .write toks, none => .live (sent ++ toks) delivered
    | .live _ delivered, .write _, some _ => .dead delivered
    | .dead delivered, _, _ => .dead delivered

@[simp] theorem bodyMonitor_written (q : FileUploadRequest) (items : List UInt8)
    (sent : List Token) (delivered : List UInt8) (toks : List Token) :
    (bodyMonitor q items).next (.live sent delivered) (.write toks) none =
      .live (sent ++ toks) delivered := rfl

section Keeps

variable {q : FileUploadRequest} {items : List UInt8} {sent : List Token} {delivered : List UInt8}

/-- How `writeUploadMultipart` ends: the whole source is in the pipe and the
open part carries no error, or a write has failed.  In the first case there is
no error unless the source ended in one. -/
def CopiedAll (q : FileUploadRequest) (items : List UInt8) (last : Err) :
    Written → Option Err × MultipartWriter → Prop
  | .live sent delivered, (err, mw) => sent = bodyHead q ++ items.map .byte ∧ delivered = items ∧
      mw.closeLast = none ∧ (last = .sentinel .eof → err = none)
  | .dead _, _ => True

/-- How the goroutine ends: a source that comes to its end is no error, so an
error is that of a write. -/
def EndsClean (last : Err) : Written → Option Err → Prop
  | .live _ _, err => last = .sentinel .eof → err = none
  | .dead _, _ => True

/-- The head and the content of the file part are free of the closing
boundary. -/
theorem closing_notMem_head (xs : List UInt8) : Token.closing ∉ bodyHead q ++ xs.map .byte := by
  simp [bodyHead]

/-- A write without the closing boundary. -/
theorem keeps_write {α : Type} {Q : Written → α → Prop} {toks : List Token}
    {k : Option Err → BodyProg α} (hno : Token.closing ∉ sent ++ toks)
    (hdone : (k none).Keeps (bodyMonitor q items) Q (.live (sent ++ toks) delivered))
    (hfail : ∀ e, (k (some e)).Keeps (bodyMonitor q items) Q (.dead delivered)) :
    Prog.Keeps (bodyMonitor q items) Q (.live sent delivered) (.op (.write toks) k) := by
  constructor
  · intro front hfront hmem
    refine absurd ?_ hno
    rcases List.mem_append.mp hmem with h | h
    · exact List.mem_append_left _ h
    · exact List.mem_append_right _ (hfront.subset h)
  · intro r
    cases r with
    | none => exact hdone
    | some e => exact hfail e

/-- What a read returned goes into the pipe, and the multipart writer stays as
it is. -/
theorem keeps_writeChunk {Q : Written → Option Err × MultipartWriter → Prop}
    {mw : MultipartWriter} {xs : List UInt8}
    {next : MultipartWriter → BodyProg (Option Err × MultipartWriter)}
    (hno : Token.closing ∉ sent)
    (hnext : (next mw).Keeps (bodyMonitor q items) Q (.live (sent ++ xs.map .byte) delivered))
    (hfail : ∀ r, Q (.dead delivered) r) :
    (writeChunk mw xs next).Keeps (bodyMonitor q items) Q (.live sent delivered) := by
  unfold writeChunk
  split
  · next hnil =>
      subst hnil
      simpa using hnext
  · refine keeps_write ?_ hnext fun e => hfail _
    simpa using hno

/-- The copy loop passes on what is left of the source. -/
theorem keeps_copySource {last : Err} (n : Nat) (hn : 0 < n) (mw : MultipartWriter)
    (src : Script UInt8 Err) (hsrc : delivered ++ src.items = items) (hlast : src.err = last)
    (hmw : mw.closeLast = none) :
    (copySource n hn mw src).Keeps (bodyMonitor q items) (CopiedAll q items last)
      (.live (bodyHead q ++ delivered.map .byte) delivered) := by
  fun_induction copySource n hn mw src generalizing delivered with
  | case1 mw src xs readErr src' hr =>
      have hend := Script.read_some (s := src) (n := n) (e := readErr) (by rw [hr])
      rw [hr] at hend
      have hxs : delivered ++ xs = items := by
        rw [← hsrc, ← hend.2.1]
      refine ⟨⟨[], by simpa using hxs⟩, fun _ => ?_⟩
      refine keeps_writeChunk (closing_notMem_head _) ?_ fun r => trivial
      have hsent : bodyHead q ++ delivered.map .byte ++ xs.map .byte =
          bodyHead q ++ items.map .byte := by
        simp [← hxs]
      split
      · exact ⟨hsent, hxs, hmw, fun _ => rfl⟩
      · next hne => exact ⟨hsent, hxs, hmw, fun h => absurd ((hend.1.trans hlast).trans h) hne⟩
  | case2 mw src xs src' hr ih =>
      have hitems := src.read_items n
      have herr := src.read_err n
      rw [hr] at hitems herr
      have hrest : (delivered ++ xs) ++ src'.items = items := by
        rw [← hsrc, hitems, List.append_assoc]
      refine ⟨⟨src'.items, hrest⟩, fun _ => ?_⟩
      refine keeps_writeChunk (closing_notMem_head _) ?_ fun r => trivial
      have hstep := ih mw hrest (herr.trans hlast) hmw
      rwa [List.map_append, ← List.append_assoc] at hstep

/-- The head of the body, then the source. -/
theorem keeps_writeUploadMultipart (src : Script UInt8 Err) (ceiling : Int)
    (hsrc : src.items = items) :
    (writeUploadMultipart ⟨none⟩ q src ceiling).Keeps (bodyMonitor q items)
      (CopiedAll q items src.err) (.live [] []) := by
  refine keeps_write (by simp) ?_ fun e => trivial
  refine keeps_write (by simp) ?_ fun e => trivial
  refine keeps_write (by simp) ?_ fun e => trivial
  have hall : [] ++ src.items = items := hsrc
  exact keeps_copySource _ (sourceChunkSize_pos ceiling) _ src hall rfl rfl

/-- The closing boundary behind the whole source; the first error is the one
that is reported. -/
theorem keeps_close {last : Err} {st : Written} {err : Option Err} {mw : MultipartWriter}
    (hst : CopiedAll q items last st (err, mw)) :
    (mw.close >>= fun cerr => match err with
      | none => pure cerr
      | some e => pure (some e)).Keeps (bodyMonitor q items) (EndsClean last) st := by
  cases st with
  | dead delivered =>
      unfold MultipartWriter.close
      cases mw.closeLast with
      | some e => cases err <;> trivial
      | none => exact ⟨trivial, fun r => by cases err <;> trivial⟩
  | live sent delivered =>
      obtain ⟨rfl, rfl, hmw, herr⟩ := hst
      rw [MultipartWriter.close, hmw]
      refine ⟨fun front hfront hmem => ?_, fun r => ?_⟩
      · have hcases : front = [] ∨ front = [.closing] := by
          simpa [List.prefix_cons_iff] using hfront
        rcases hcases with rfl | rfl
        · rw [List.append_nil] at hmem
          exact absurd hmem (closing_notMem_head _)
        · exact ⟨rfl, rfl⟩
      · cases r with
        | some e => cases err <;> trivial
        | none =>
            cases err with
            | none => exact fun _ => rfl
            | some e => exact herr

/-- **What reaches the pipe**: the reads of the goroutine hand out the source
in order, and every front of what it writes is free of the closing boundary
unless it is the complete body of the whole source. -/
theorem keeps_bodyWriter (src : Script UInt8 Err) (ceiling : Int) (hsrc : src.items = items) :
    (bodyWriter q src ceiling).Keeps (bodyMonitor q items) (EndsClean src.err) (.live [] []) :=
  (keeps_writeUploadMultipart src ceiling hsrc).bind fun _ _ hst => keeps_close hst

end Keeps

end OcuFilestore.Brokerrpc
