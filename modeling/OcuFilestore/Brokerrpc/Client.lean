import OcuFilestore.Brokerrpc.Messages
import OcuFilestore.Lib.Program
import OcuFilestore.Lib.SlashPath

/-!
# OcuFilestore.Brokerrpc.Client

The guest-side REST client (`internal/brokerrpc/client.go`): a client is
bound to one `filesystem_id`, stamps it with the operation's intent on every
request, and turns the HTTP outcome of a unary call into a result.

A client method is a program whose one effect is posting a request; the
answer is whatever the broker and the transport make of it.  What every
request of a client looks like is `Disciplined`, and each method carries a
lemma that its requests are disciplined when the paths it is given are
canonical.
-/

namespace OcuFilestore.Brokerrpc

open SlashPath (Canonical)

/-- A client; the HTTP transport behind it is the environment.  Pages are
counted against `maxListPages`. -/
structure Client where
  serviceURL : String
  fsID : String
  authToken : String
  messageCeiling : Int
  maxDownloadBytes : Int
  maxListPages : Nat
  deriving DecidableEq, Repr

/-- One request on the wire, with the client that posts it. -/
structure Wire where
  client : Client
  req : Request

abbrev Wire.Reply (w : Wire) : Type := w.req.Reply

/-- Programs that talk to the broker. -/
abbrev WireProg (α : Type) : Type := Prog Wire.Reply α

/-- What the decoder made of a 2xx body. -/
def decodedResult {ρ : Type} (op : Op) : Except Err ρ → Except Err ρ
  | .error e => .error (.wrap [.lit "brokerrpc: unmarshal ", .str op.name, .lit " response: "] e [])
  | .ok a => .ok a

/-- The result of a unary call. -/
def callResult {ρ : Type} (op : Op) (x : Exchange (Except Err ρ)) : Except Err ρ :=
  x.result [.lit "brokerrpc: build request for ", .str op.name, .lit ": "]
    [.lit "brokerrpc: ", .str op.name, .lit ": "] fun _ decoded => decodedResult op decoded

namespace Client

/-- The scope and the authorization metadata of a request. -/
def stamp (c : Client) (op : Op) : Except Err (String × AuthorizationMetadata) := do
  let am ← stampAuthMeta op
  return (c.fsID, am)

/-- Stamp, then go on; a stamping error ends the method. -/
def stamped {α : Type} (c : Client) (op : Op) (fail : Err → α)
    (k : String → AuthorizationMetadata → WireProg α) : WireProg α :=
  match c.stamp op with
  | .error e => .ret (fail e)
  | .ok (fsID, am) => k fsID am

/-- The shape of the six methods that are answered with a bare
acknowledgement. -/
def ackCall (c : Client) (op : Op) (mk : String → AuthorizationMetadata → AckRequest) :
    WireProg (Except Err Unit) :=
  c.stamped op .error fun fsID am =>
    .op ⟨c, .ack (mk fsID am)⟩ fun x => .ret (callResult op x)

def makeDirectory (c : Client) (path : Path) : WireProg (Except Err Unit) :=
  c.ackCall .makeDirectory fun fsID am => .makeDirectory ⟨fsID, path, am⟩

def moveDirectory (c : Client) (sourcePath destinationPath : Path) : WireProg (Except Err Unit) :=
  c.ackCall .moveDirectory fun fsID am => .moveDirectory ⟨fsID, sourcePath, destinationPath, am⟩

def removeDirectory (c : Client) (path : Path) : WireProg (Except Err Unit) :=
  c.ackCall .removeDirectory fun fsID am => .removeDirectory ⟨fsID, path, am⟩

/-- An existing destination is overwritten. -/
def copyFile (c : Client) (sourcePath destinationPath : Path) : WireProg (Except Err Unit) :=
  c.ackCall .copyFile fun fsID am => .copyFile ⟨fsID, sourcePath, destinationPath, true, am⟩

/-- An existing destination is overwritten. -/
def moveFile (c : Client) (sourcePath destinationPath : Path) : WireProg (Except Err Unit) :=
  c.ackCall .moveFile fun fsID am => .moveFile ⟨fsID, sourcePath, destinationPath, true, am⟩

def removeFile (c : Client) (path : Path) : WireProg (Except Err Unit) :=
  c.ackCall .removeFile fun fsID am => .removeFile ⟨fsID, path, am⟩

def readMetadata (c : Client) (path : Path) : WireProg (Except Err ReadMetadataResponse) :=
  c.stamped .readMetadata .error fun fsID am =>
    .op ⟨c, .readMetadata ⟨fsID, path, am⟩⟩ fun x => .ret (callResult .readMetadata x)

/-- The first page of a directory. -/
def listDirectory (c : Client) (path : Path) : WireProg (Except Err ListDirectoryResponse) :=
  c.stamped .listDirectory .error fun fsID am =>
    .op ⟨c, .listDirectory ⟨fsID, path, am, ""⟩⟩ fun x => .ret (callResult .listDirectory x)

/-! ## stamping -/

/-- The metadata every request of an operation carries. -/
def authMeta (op : Op) : AuthorizationMetadata :=
  ⟨(opIntentTable.lookup op).getD .read, false⟩

/-- Each operation sends the intent that the table has for it. -/
theorem lookup_authMeta (op : Op) : opIntentTable.lookup op = some (authMeta op).intent := by
  cases op <;> rfl

/-- Stamping never fails. -/
@[simp] theorem stamped_eq {α : Type} (c : Client) (op : Op) (fail : Err → α)
    (k : String → AuthorizationMetadata → WireProg α) :
    c.stamped op fail k = k c.fsID (authMeta op) := by
  cases op <;> rfl

end Client

/-! ## what a request looks like -/

/-- The discipline of a client's requests: its own scope, the intent of the
table, not downloadable, canonical paths. -/
structure Disciplined (c : Client) (w : Wire) : Prop where
  client : w.client = c
  filesystemID : w.req.filesystemID = c.fsID
  intent : opIntentTable.lookup w.req.op = some w.req.authorizationMetadata.intent
  downloadable : w.req.authorizationMetadata.downloadable = false
  canonical : ∀ p ∈ w.req.paths, Canonical p

/-- A disciplined request of this operation. -/
def Posts (c : Client) (op : Op) (w : Wire) : Prop := Disciplined c w ∧ w.req.op = op

/-- A stamped request is disciplined when its paths are canonical. -/
theorem posts_of_stamped {c : Client} {op : Op} {req : Request} (hop : req.op = op)
    (hfs : req.filesystemID = c.fsID) (ham : req.authorizationMetadata = Client.authMeta op)
    (hp : ∀ p ∈ req.paths, Canonical p) : Posts c op ⟨c, req⟩ where
  left :=
    { client := rfl
      filesystemID := hfs
      intent := by rw [ham, hop]; exact Client.lookup_authMeta op
      downloadable := by rw [ham]; rfl
      canonical := hp }
  right := hop

/-! ## what becomes of a refusal -/

/-- Every refusal of a request of `p` shows in the result as `Q` says. -/
def Surfaces {α : Type} (Q : Op → HttpResp → α → Prop) (p : WireProg α) : Prop :=
  p.After (fun w r => (w.req.refusal r).isSome = true)
    (fun w r a => ∀ resp, w.req.refusal r = some resp → Q w.req.op resp a)

/-- A program of one request surfaces its refusal when its result does. -/
theorem surfaces_op {α : Type} {Q : Op → HttpResp → α → Prop} {w : Wire}
    {res : w.Reply → α} (h : ∀ r resp, w.req.refusal r = some resp → Q w.req.op resp (res r)) :
    Surfaces Q (.op w fun r => .ret (res r)) :=
  fun r => ⟨fun _ => h r, True.intro⟩

namespace Client

section Ack

variable {c : Client} {op : Op} {mk : String → AuthorizationMetadata → AckRequest}

/-- A unary write posts its own operation only. -/
theorem always_ackCall (hop : (mk c.fsID (authMeta op)).op = op)
    (hfs : (mk c.fsID (authMeta op)).filesystemID = c.fsID)
    (ham : (mk c.fsID (authMeta op)).authorizationMetadata = authMeta op)
    (hp : ∀ p ∈ (mk c.fsID (authMeta op)).paths, Canonical p) :
    (c.ackCall op mk).Always (Posts c op) (fun _ => True) := by
  rw [ackCall, stamped_eq]
  exact ⟨posts_of_stamped hop hfs ham hp, fun _ => trivial⟩

/-- It surfaces the status of a refusal. -/
theorem surfaces_ackCall (hop : (mk c.fsID (authMeta op)).op = op) :
    Surfaces (fun op' resp a => op' = op ∧ a = .error resp.err) (c.ackCall op mk) := by
  rw [ackCall, stamped_eq]
  exact surfaces_op fun r resp h => ⟨hop, Exchange.result_refusal h⟩

end Ack

/-- A metadata read posts its own operation only. -/
theorem always_readMetadata {c : Client} {path : Path} (h : Canonical path) :
    (c.readMetadata path).Always (Posts c .readMetadata) (fun _ => True) := by
  rw [readMetadata, stamped_eq]
  exact ⟨posts_of_stamped rfl rfl rfl (by simpa [Request.paths] using h), fun _ => trivial⟩

/-- It surfaces the status of a refusal. -/
theorem surfaces_readMetadata {c : Client} {path : Path} :
    Surfaces (fun op resp a => op = .readMetadata ∧ a = .error resp.err) (c.readMetadata path) := by
  rw [readMetadata, stamped_eq]
  exact surfaces_op fun r resp h => ⟨rfl, Exchange.result_refusal h⟩

end Client

end OcuFilestore.Brokerrpc
