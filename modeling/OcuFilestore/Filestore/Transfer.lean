import OcuFilestore.Brokerrpc.Messages
import OcuFilestore.Go.Int64

/-!
# OcuFilestore.Filestore.Transfer

The filestore peer's side of a download
(`test/harness/filestore/transfer.go`): the byte window is resolved against
the size of the file, and the response declares and streams that window.
-/

namespace OcuFilestore.Filestore

open Brokerrpc

/-- The files of a scope, by uuid. -/
abbrev Volume := String → Option (List UInt8)

/-- What the handler writes: an error status with its message, or the
declared length and the bytes of the body. -/
inductive DownloadReply where
  | refused (status : Int) (message : String)
  | stream (contentLength : Int) (bytes : List UInt8)
  deriving DecidableEq, Repr

/-- Resolve the optional window against the file size: the start and the
length of what is streamed.  The sum of start and length is an `int64`; one
that wraps is refused. -/
def resolveWindow (total : Int) : Option Range → Except (Int × String) (Int × Int)
  | none => .ok (0, total)
  | some rng =>
      if rng.offset < 0 ∨ rng.length < 0 then .error (400, "negative range")
      else
        let start := if rng.offset > total then total else rng.offset
        let stop := int64 (start + rng.length)
        if stop < start then .error (400, "range overflows")
        else
          let stop := if stop > total then total else stop
          .ok (start, stop - start)

def handleFileDownload (volume : Volume) (uuid : String) (rng : Option Range) : DownloadReply :=
  if uuid = "" then .refused 400 "uuid is required"
  else
    match volume uuid with
    | none => .refused 404 "not found"
    | some content =>
        match resolveWindow content.length rng with
        | .error (status, message) => .refused status message
        | .ok (start, length) =>
            .stream length ((content.drop start.toNat).take length.toNat)

/-- What the network makes of a reply: the status, and for a stream the
declared length and the bytes in order, in any chunks. -/
def Delivers : DownloadReply → Exchange Unit → Prop
  | .refused status _, x => ∃ resp, x = .replied resp () ∧ resp.status = status
  | .stream contentLength bytes, x =>
      ∃ resp, x = .replied resp () ∧ resp.status = 200 ∧ resp.contentLength = contentLength ∧
        resp.body.items = bytes ∧ resp.body.err = .sentinel .eof

/-- Every reply can be delivered. -/
theorem exists_delivers (reply : DownloadReply) : ∃ x, Delivers reply x := by
  cases reply with
  | refused status message =>
      exact ⟨.replied ⟨status, -1, .last [] (.sentinel .eof), ⟨"", none⟩⟩ (), _, rfl, rfl⟩
  | stream contentLength bytes =>
      exact ⟨.replied ⟨200, contentLength, .last bytes (.sentinel .eof), ⟨"", none⟩⟩ (), _, rfl,
        rfl, rfl, rfl, rfl⟩

/-- A window whose end is representable streams the bytes it names. -/
theorem handleFileDownload_window {volume : Volume} {uuid : String} {c : List UInt8}
    (huuid : uuid ≠ "") (hc : volume uuid = some c) {offset length : Int} (ho : 0 ≤ offset)
    (hl : 0 ≤ length) (hend : min offset c.length + length ≤ maxInt64) :
    ∃ n, n ≤ length ∧ handleFileDownload volume uuid (some ⟨offset, length⟩) =
      .stream n ((c.drop offset.toNat).take length.toNat) := by
  have hstart : (if offset > (c.length : Int) then (c.length : Int) else offset) =
      min offset c.length := by
    split <;> omega
  have hsum : int64 (min offset c.length + length) = min offset c.length + length :=
    int64_of_range (by unfold maxInt64; omega) hend
  have hneg : ¬ (offset < 0 ∨ length < 0) := by omega
  have hlt : ¬ min offset (c.length : Int) + length < min offset (c.length : Int) := by omega
  have hstop : (if min offset (c.length : Int) + length > (c.length : Int) then (c.length : Int)
      else min offset c.length + length) = min (min offset c.length + length) c.length := by
    split <;> omega
  -- what is dropped and taken is the same with and without the clamps
  have hbytes : (c.drop (min offset (c.length : Int)).toNat).take
      (min (min offset (c.length : Int) + length) c.length - min offset c.length).toNat =
      (c.drop offset.toNat).take length.toNat := by
    by_cases hpast : offset ≤ c.length
    · have hmin : min offset (c.length : Int) = offset := by omega
      rw [hmin, List.take_eq_take_iff, List.length_drop]
      omega
    · have hmin : (min offset (c.length : Int)).toNat = c.length := by omega
      rw [hmin, List.drop_length, List.drop_eq_nil_of_le (by omega)]
      simp
  refine ⟨min (min offset (c.length : Int) + length) c.length - min offset c.length, by omega, ?_⟩
  simp only [handleFileDownload, huuid, hc, resolveWindow, hneg, hstart, hsum, hlt, hstop, if_false]
  rw [hbytes]

/-- A window whose end is not representable is refused. -/
theorem handleFileDownload_overflow {volume : Volume} {uuid : String} {c : List UInt8}
    (huuid : uuid ≠ "") (hc : volume uuid = some c) {offset length : Int} (ho : 0 ≤ offset)
    (hl : 0 ≤ length) (hlen : (c.length : Int) ≤ maxInt64) (hl' : length ≤ maxInt64)
    (hend : maxInt64 < min offset c.length + length) :
    handleFileDownload volume uuid (some ⟨offset, length⟩) = .refused 400 "range overflows" := by
  have hstart : (if offset > (c.length : Int) then (c.length : Int) else offset) =
      min offset c.length := by
    split <;> omega
  have hwrap : int64 (min offset c.length + length) < 0 := int64_of_overflow hend (by omega)
  have hneg : ¬ (offset < 0 ∨ length < 0) := by omega
  have hlt : int64 (min offset (c.length : Int) + length) < min offset (c.length : Int) := by
    omega
  simp [handleFileDownload, huuid, hc, resolveWindow, hneg, hstart, hlt]

end OcuFilestore.Filestore
