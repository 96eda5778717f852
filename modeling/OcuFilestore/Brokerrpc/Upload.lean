import OcuFilestore.Brokerrpc.Client

/-!
# OcuFilestore.Brokerrpc.Upload

The fileUpload transport seen from its caller (`internal/brokerrpc/upload.go`):
which of the things an upload can end in — the round trip, the broker's
status, the error of the goroutine that writes the body — becomes its result.
How the two sides race is `OcuFilestore.Brokerrpc.UploadProtocol`.
-/

namespace OcuFilestore.Brokerrpc

/-- The symptom of a broker that ends the request early. -/
def isPipeClosure (e : Err) : Bool := e.is .errClosedPipe

/-- What `io.ReadAll` reports: the end of the stream is not an error. -/
def readAllErr : Option Err → Option Err
  | some e => if e = .sentinel .eof then none else some e
  | none => none

/-- A 2xx status: a fault in reading the response comes first, then a fault
of the body writer unless it is a closed pipe. -/
def uploadAccepted (writeErr : Option Err) (resp : HttpResp) : Except Err Unit :=
  let drained := resp.body.readLimit readAllBuffer readAllBuffer_pos maxErrorBodyBytes
  match readAllErr drained.2.1, writeErr with
  | some readErr, _ =>
      .error (.wrap [.lit "brokerrpc: fileUpload read response body: "] readErr [])
  | none, some writeErr =>
      if isPipeClosure writeErr then .ok ()
      else .error (.wrap [.lit "brokerrpc: fileUpload write body: "] writeErr [])
  | none, none => .ok ()

/-- The result of an upload.  A non-2xx status overrides whatever the body
writer ended with. -/
def uploadResult (x : UploadExchange) : Except Err Unit :=
  x.trip.result [.lit "brokerrpc: build upload request: "] [.lit "brokerrpc: fileUpload: "]
    fun resp _ => uploadAccepted x.writeErr resp

/-- An upload that is accepted with an empty response. -/
def accepted : UploadExchange := ⟨.replied respOk (), none⟩

/-- The empty response with status 200 leaves the verdict to the body writer. -/
theorem uploadResult_respOk (writeErr : Option Err) :
    uploadResult ⟨.replied respOk (), writeErr⟩ =
      match writeErr with
      | some e =>
          if isPipeClosure e then .ok ()
          else .error (.wrap [.lit "brokerrpc: fileUpload write body: "] e [])
      | none => .ok () := by
  have hread : (respOk.body.readLimit readAllBuffer readAllBuffer_pos maxErrorBodyBytes).2.1 =
      some (.sentinel .eof) := by
    unfold Script.readLimit
    simp [respOk, maxErrorBodyBytes, Script.read]
  show uploadAccepted writeErr respOk = _
  simp only [uploadAccepted, hread, readAllErr]
  cases writeErr <;> rfl

theorem uploadResult_accepted : uploadResult accepted = .ok () := uploadResult_respOk none

/-- Upload `totalBytes` bytes to a path.  The source is read by the body
writer, whose outcome is part of the answer. -/
def Client.upload (c : Client) (path : Path) (totalBytes : Int) (overwrite : Bool) :
    WireProg (Except Err Unit) :=
  c.stamped .fileUpload .error fun fsID am =>
    .op ⟨c, .fileUpload ⟨fsID, path, totalBytes, overwrite, am⟩⟩ fun x => .ret (uploadResult x)

/-- An upload posts its own operation only. -/
theorem Client.always_upload {c : Client} {path : Path} {totalBytes : Int} {overwrite : Bool}
    (h : SlashPath.Canonical path) :
    (c.upload path totalBytes overwrite).Always (Posts c .fileUpload) (fun _ => True) := by
  rw [upload, stamped_eq]
  exact ⟨posts_of_stamped rfl rfl rfl (by simpa [Request.paths] using h), fun _ => trivial⟩

/-- It surfaces the status of a refusal. -/
theorem Client.surfaces_upload {c : Client} {path : Path} {totalBytes : Int} {overwrite : Bool} :
    Surfaces (fun op resp a => op = .fileUpload ∧ a = .error resp.err)
      (c.upload path totalBytes overwrite) := by
  rw [upload, stamped_eq]
  exact surfaces_op fun r resp h => ⟨rfl, Exchange.result_refusal h⟩

end OcuFilestore.Brokerrpc
