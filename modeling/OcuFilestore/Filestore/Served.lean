import OcuFilestore.Filestore.Network
import OcuFilestore.Ocufs.RangedRead

/-!
# OcuFilestore.Filestore.Served

What the methods of the client return when the peer answers.  Each result is
told from the reply of the store: a reply that is no error is read as what it
is, unless it exceeds the limit of the client, and an error becomes the typed
error of its status.
-/

namespace OcuFilestore.Peer

open Prog (Meets)
open Filestore (resolveWindow)
open Ocufs (ReadsTo)
open Brokerrpc (Wire WireProg Client HttpResp Exchange UploadExchange callResult uploadResult
  AckRequest ListDirEntry ReadMetadataResponse nonSuccess mapHTTPStatus
  statusSentinels retryable)

/-! ## errors -/

/-- The reply is an error, and this is the client's. -/
structure Errs (resp : Response) (e : Err) : Prop where
  le : 400 ≤ resp.status
  mapped : ∃ body retryAfter, e = mapHTTPStatus resp.status body retryAfter

section Errors

variable {resp : Response} {e : Err} {h : HttpResp}

/-- The client takes an error status for one. -/
theorem nonSuccess_of_le {status : Int} (h : 400 ≤ status) : nonSuccess status = true := by
  have hgt : status > 299 := by omega
  simp [nonSuccess, hgt]

/-- The client takes a success for one. -/
theorem nonSuccess_of_ok (h : resp.Ok) : nonSuccess resp.status = false := by
  have h₁ := h.1
  have h₂ := h.2
  have hlt : ¬ resp.status < 200 := by omega
  have hgt : ¬ resp.status > 299 := by omega
  simp [nonSuccess, hlt, hgt]

theorem ok_of_status (h : resp.status = 200) : resp.Ok := by
  rw [Response.Ok, h]
  decide

/-- The sentinels and the retry mark of an error are those of its status. -/
theorem Errs.kind (he : Errs resp e) :
    e.kind = ⟨statusSentinels resp.status, retryable resp.status⟩ := by
  obtain ⟨body, ra, rfl⟩ := he.mapped
  exact Brokerrpc.mapHTTPStatus_kind _ _ _

/-- The sentinels of an error are those of its status. -/
theorem Errs.is_iff (he : Errs resp e) (t : Sentinel) :
    e.is t = true ↔ t ∈ statusSentinels resp.status := by
  rw [Err.is_iff_mem_sentinels, show e.sentinels = e.kind.sentinels from rfl, he.kind]

/-- A reply with an error status becomes the client's error of it. -/
theorem Carries.errs (hc : Carries resp h) (hle : 400 ≤ resp.status) : Errs resp h.err :=
  ⟨hle, Brokerrpc.captureErrorBody h.body, h.retryAfter, by rw [HttpResp.err, hc.status]⟩

/-- A round trip that ends with an error. -/
theorem Carries.result_of_le {ρ α : Type} {build fail : List Frag}
    {success : HttpResp → ρ → Except Err α} {x : ρ} (hc : Carries resp h)
    (hle : 400 ≤ resp.status) :
    (Exchange.replied h x).result build fail success = .error h.err := by
  rw [Exchange.result, hc.status, nonSuccess_of_le hle, if_pos rfl]

/-- A round trip that ends with a success. -/
theorem Carries.result_of_ok {ρ α : Type} {build fail : List Frag}
    {success : HttpResp → ρ → Except Err α} {x : ρ} (hc : Carries resp h) (hok : resp.Ok) :
    (Exchange.replied h x).result build fail success = success h x := by
  rw [Exchange.result, hc.status, nonSuccess_of_ok hok, if_neg Bool.noConfusion]

end Errors

/-! ## replies -/

/-- A refusal is an error. -/
theorem Refusal.le {srv : Server} {sc : Scope} {authorization : List Char} {q : Brokerrpc.Request}
    {status : Int} (h : Refusal srv sc authorization q status) : 400 ≤ status := by
  cases h <;> decide

/-- A form that was cut off is answered with an error. -/
theorem CutOff.le {source : Source} {q : Brokerrpc.Request} {status : Int}
    (h : CutOff source q status) : 400 ≤ status := by
  rw [h.2.2]

/-- A request is answered in kind, or with an error. -/
theorem Turn.delivers {srv : Server} {sc : Scope} {authorization : List Char}
    {source : Source} {q : Brokerrpc.Request} {V V' : Vol} {resp : Response}
    (h : Turn srv sc authorization source q V resp V') :
    (commandOf source q).Delivers resp ∨ 400 ≤ resp.status := by
  obtain ⟨hrefused, -⟩ | ⟨hcut, -⟩ | ⟨-, hanswered, -⟩ := h
  · exact .inr hrefused.le
  · exact .inr hcut.le
  · exact hanswered.delivers

theorem Response.Ok.not_le {resp : Response} (hok : resp.Ok) : ¬ 400 ≤ resp.status := by
  have hlt := hok.2
  omega

/-- A request that is not answered with an error was read and carried out. -/
theorem Turn.carried {srv : Server} {sc : Scope} {authorization : List Char}
    {source : Source} {q : Brokerrpc.Request} {V V' : Vol} {resp : Response}
    (h : Turn srv sc authorization source q V resp V') (hok : resp.Ok) :
    ReadWhole q ∧ (commandOf source q).Answered sc V resp ∧
      V' = (commandOf source q).next sc V := by
  obtain ⟨hrefused, -⟩ | ⟨hcut, -⟩ | hcarried := h
  · exact absurd hrefused.le hok.not_le
  · exact absurd hcut.le hok.not_le
  · exact hcarried

/-- What is carried out is answered as the command says, and has its effect.
-/
theorem Turn.answered {srv : Server} {sc : Scope} {authorization : List Char}
    {source : Source} {q : Brokerrpc.Request} {V V' : Vol} {resp : Response}
    (h : Turn srv sc authorization source q V resp V') (hok : resp.Ok) :
    (commandOf source q).Answered sc V resp ∧ V' = (commandOf source q).next sc V :=
  (h.carried hok).2

/-- A request that is no upload is refused or carried out. -/
theorem Turn.of_ne_upload {srv : Server} {sc : Scope} {authorization : List Char}
    {source : Source} {q : Brokerrpc.Request} {V V' : Vol} {resp : Response}
    (h : Turn srv sc authorization source q V resp V') (hop : opOf q ≠ .fileUpload) :
    Refusal srv sc authorization q resp.status ∨ (commandOf source q).Answered sc V resp := by
  obtain ⟨hrefused, -⟩ | ⟨hcut, -⟩ | ⟨-, hanswered, -⟩ := h
  · exact .inl hrefused
  · exact absurd hcut.1 hop
  · exact .inr hanswered

/-- An entry that metadata is answered with reports what is there. -/
theorem Turn.reports {srv : Server} {sc : Scope} {authorization : List Char} {source : Source}
    {r : Brokerrpc.ReadMetadataRequest} {V V' : Vol} {e : WireFile ⊕ WireDir}
    (h : Turn srv sc authorization source (.readMetadata r) V (.entry e) V') :
    Reports sc V (sc.locOf r.path) r.path e := by
  have hok : (Response.entry e).Ok := ok_of_status rfl
  have hanswered := (h.answered hok).1
  rw [commandOf, Command.Answered] at hanswered
  split at hanswered
  · exact absurd (le_of_status_absence hanswered) hok.not_le
  · obtain ⟨e', heq, hreports⟩ := hanswered
    cases heq
    exact hreports

/-- The entries that a listing is answered with report every child once. -/
theorem Turn.lists {srv : Server} {sc : Scope} {authorization : List Char} {source : Source}
    {r : Brokerrpc.ListDirectoryRequest} {V V' : Vol} {es : List (WireFile ⊕ WireDir)}
    (h : Turn srv sc authorization source (.listDirectory r) V (.entries es) V') :
    V.IsDir (sc.locOf r.path) ∧ ∃ names, names.Nodup ∧
      (∀ name, name ∈ names ↔ V.node (sc.locOf r.path ++ [name]) ≠ none) ∧
      List.Forall₂ (fun name => Reports sc V (sc.locOf r.path ++ [name])
        (SlashPath.join r.path name)) names es := by
  have hok : (Response.entries es).Ok := ok_of_status rfl
  have hanswered := (h.answered hok).1
  rw [commandOf, Command.Answered] at hanswered
  split at hanswered
  · next hdir =>
      obtain ⟨es', names, heq, hnodup, hnames, hall⟩ := hanswered
      cases heq
      exact ⟨hdir, names, hnodup, hnames, hall⟩
  · split at hanswered
    · exact absurd (le_of_status_absence hanswered) hok.not_le
    · cases hanswered

/-- What is reported has a size. -/
theorem Reports.sizeInRange {sc : Scope} {s : Store} {x : Loc} {rel : Path}
    {e : WireFile ⊕ WireDir} (h : Reports sc s.volume x rel e) (hs : s.Small) :
    SizeInRange e := by
  cases e with
  | inr d => trivial
  | inl f =>
      obtain ⟨bs, hfile, hf⟩ := h
      have hlen := hs x bs hfile
      have hmin : -maxInt64 - 1 ≤ 0 := by decide
      rw [SizeInRange, hf.size]
      omega

theorem forall_right {α β : Type} {R : α → β → Prop} {P : β → Prop} {as : List α} {bs : List β}
    (h : List.Forall₂ R as bs) (hP : ∀ a b, R a b → P b) : ∀ b ∈ bs, P b := by
  induction h with
  | nil => exact List.forall_mem_nil _
  | cons hab _ ih => exact List.forall_mem_cons.mpr ⟨hP _ _ hab, ih⟩

/-- The result of a call that is told no more than that it was carried out.
Under some condition it may not be told, and reports an error of its own. -/
inductive Acked (lost : Prop) (resp : Response) : Except Err Unit → Prop
  | done (h : resp.Ok) : Acked lost resp (.ok ())
  | failed {e : Err} (h : Errs resp e) : Acked lost resp (.error e)
  | untold {e : Err} (h : lost) : Acked lost resp (.error e)

/-- The client reads a reply with these members. -/
def FitsReply (ms : List (List Char × Json)) : Prop :=
  (Json.marshal (.obj ms)).length ≤ Brokerrpc.maxJSONResponseBytes

section Fits

open Json

/-- A path is no longer than the request that it is in. -/
theorem length_path_le_payload (r : Brokerrpc.PathRequest) :
    r.path.length ≤ (Brokerrpc.Request.readMetadata r).payload.length := by
  have hmem : ("path".toList, Json.str r.path) ∈ (Brokerrpc.Request.readMetadata r).members := by
    simp [Brokerrpc.Request.members, Brokerrpc.PathRequest.members]
  exact length_le_marshal hmem

/-- The characters of an entry: its key, and the members in it. -/
theorem length_entry_le (key : List Char) (ms : List (List Char × Json)) :
    (write compact goSpeller 0 (.obj [(key, .obj ms)])).length ≤
      6 * key.length + 8 + (ms.map (memberLength 1)).sum := by
  have hkey := (goSpeller.length_quote key).2
  have hone := (length_write_obj 0 [(key, .obj ms)]).2
  have hms := (length_write_obj 1 ms).2
  simp only [List.map_cons, List.map_nil, List.sum_cons, List.sum_nil, memberLength,
    Nat.zero_add] at hone
  omega

/-- A size has at most nineteen digits. -/
theorem sum_size_le {size : Int} (h : 0 ≤ size ∧ size ≤ maxInt64) :
    ((omitEmpty (size = 0) "size".toList (ofInt size)).map (memberLength 1)).sum ≤ 48 := by
  have hkey : (goSpeller.quote "size".toList).length = 6 := by decide
  have hdigits : (Number.ofInt size).text.length ≤ 20 := by
    have hmax : maxInt64 < 10 ^ 19 := by decide
    exact Number.length_text_ofInt (k := 19) (by decide) (by omega)
  have hle := sum_omitEmpty_le 1 (size = 0) "size".toList (ofInt size)
  simp only [memberLength, ofInt, write, hkey] at hle ⊢
  omega

/-- What is reported about a path, beside the path, is short. -/
theorem Reports.length_le {sc : Scope} {s : Store} {x : Loc} {rel : Path}
    {e : WireFile ⊕ WireDir} (h : Reports sc s.volume x rel e) (hs : s.Small) :
    (write compact goSpeller 0 (.obj (entryMembers e))).length ≤ 6 * rel.length + 1500 := by
  cases e with
  | inl f =>
      obtain ⟨bs, hfile, hf⟩ := h
      have hlen := hs x bs hfile
      have hsize := sum_size_le (show 0 ≤ f.size ∧ f.size ≤ maxInt64 by rw [hf.size]; omega)
      have hpath := sum_omitEmpty_str 1 (f.path = [])
        (show "path".toList.length ≤ 4 by decide) (Nat.le_of_eq (congrArg _ hf.path))
      have hmtime := sum_omitEmpty_str 1 (f.mtime = [])
        (show "mtime".toList.length ≤ 5 by decide) hf.short.1
      have hmode := sum_omitEmpty_str 1 (f.mode = [])
        (show "mode".toList.length ≤ 4 by decide) hf.short.2
      have huuid := sum_omitEmpty_str 1 (f.uuid = [])
        (show "uuid".toList.length ≤ 4 by decide)
        (Nat.le_of_eq ((congrArg _ hf.uuid).trans (length_uuidForRelPath _ _)))
      have hkey : "file".toList.length = 4 := rfl
      refine (length_entry_le _ _).trans ?_
      simp only [WireFile.members, List.map_append, List.sum_append]
      omega
  | inr d =>
      obtain ⟨-, hrel, hshort⟩ := h
      have hpath := sum_omitEmpty_str 1 (d.path = [])
        (show "path".toList.length ≤ 4 by decide) (Nat.le_of_eq (congrArg _ hrel))
      have hmode := sum_omitEmpty_str 1 (d.mode = [])
        (show "mode".toList.length ≤ 4 by decide) hshort.2
      have hmtime := sum_omitEmpty_str 1 (d.mtime = [])
        (show "mtime".toList.length ≤ 5 by decide) hshort.1
      have hkey : "directory".toList.length = 9 := rfl
      refine (length_entry_le _ _).trans ?_
      simp only [WireDir.members, List.map_append, List.sum_append]
      omega

/-- What is reported about a path that fits a request fits a reply. -/
theorem Reports.fits {sc : Scope} {s : Store} {x : Loc} {rel : Path}
    {e : WireFile ⊕ WireDir} (h : Reports sc s.volume x rel e) (hs : s.Small)
    (hrel : rel.length ≤ maxRequestBytes) : FitsReply (entryMembers e) := by
  have hlimits : maxRequestBytes = 2 ^ 20 ∧ Brokerrpc.maxJSONResponseBytes = 2 ^ 26 := by decide
  have hchars := h.length_le hs
  have hbytes := (length_utf8 (write compact goSpeller 0 (.obj (entryMembers e)))).2
  rw [FitsReply, marshal]
  omega

end Fits

/-- A reply that exceeds the limit is not read. -/
def unread (op : Brokerrpc.Op) (text : List Frag) : Err :=
  .wrap [.lit "brokerrpc: unmarshal ", .str op.name, .lit " response: "] (.text text) []

inductive MetadataRead (resp : Response) : Except Err ReadMetadataResponse → Prop
  | read {e : WireFile ⊕ WireDir} (h : resp = .entry e) :
      MetadataRead resp (.ok (metadataResponse e))
  | failed {e : Err} (h : Errs resp e) : MetadataRead resp (.error e)

/-- The members of a listing. -/
def entriesMembers (es : List (WireFile ⊕ WireDir)) : List (List Char × Json) :=
  [("entries".toList, if es = [] then .null else .arr (es.map fun e => .obj (entryMembers e)))]

/-- A listing in which every entry goes to `yield`. -/
inductive ListingRead {σ : Type} (yield : σ → ListDirEntry → σ × Option Err) (st : σ)
    (resp : Response) : σ × Option Err → Prop
  | read {es : List (WireFile ⊕ WireDir)} (h : resp = .entries es)
      (hfits : FitsReply (entriesMembers es)) :
      ListingRead yield st resp (Brokerrpc.yieldAll yield st (es.map listEntry))
  | tooLong {es : List (WireFile ⊕ WireDir)} {text : List Frag} (h : resp = .entries es)
      (hlong : ¬ FitsReply (entriesMembers es)) :
      ListingRead yield st resp (st, some (.wrap [.lit "brokerrpc: ListDirectoryStream: "]
        (unread .listDirectory text) []))
  | failed {e : Err} (h : Errs resp e) :
      ListingRead yield st resp (st, some (.wrap [.lit "brokerrpc: ListDirectoryStream: "] e []))

inductive Downloaded (limit : Int) (resp : Response) : Except Err Brokerrpc.Body → Prop
  | read {n : Int} {bytes : List UInt8} {body : Brokerrpc.Body} (h : resp = .stream n bytes)
      (hfits : n ≤ limit) (hbody : ReadsTo body bytes) : Downloaded limit resp (.ok body)
  | tooLong {n : Int} {bytes : List UInt8} {text : List Frag} (h : resp = .stream n bytes)
      (hlong : limit < n) : Downloaded limit resp (.error (.text text))
  | failed {e : Err} (h : Errs resp e) : Downloaded limit resp (.error e)

section Bodies

variable {h : HttpResp} {bs bytes : List UInt8} {n : Int}

/-- A response that is read to its end leaves it to the writer. -/
theorem uploadAccepted_cases {writeErr : Option Err} (hends : h.body.err = .sentinel .eof) :
    Brokerrpc.uploadAccepted writeErr h = .ok () ∨
      ∃ e e', writeErr = some e ∧ Brokerrpc.isPipeClosure e = false ∧
        Brokerrpc.uploadAccepted writeErr h = .error e' := by
  have hread : Brokerrpc.readAllErr (h.body.readLimit Brokerrpc.readAllBuffer
      Brokerrpc.readAllBuffer_pos Brokerrpc.maxErrorBodyBytes).2.1 = none := by
    rw [Script.readLimit_eq_readUpTo Brokerrpc.readAllBuffer_pos 0]
    cases herr : (h.body.readUpTo (fun _ => ⟨Brokerrpc.readAllBuffer,
        Brokerrpc.readAllBuffer_pos⟩) 0 Brokerrpc.maxErrorBodyBytes).2.1 with
    | none => rfl
    | some e =>
        rw [Script.readUpTo_err herr, hends]
        rfl
  unfold Brokerrpc.uploadAccepted
  dsimp only
  rw [hread]
  cases writeErr with
  | none => exact .inl rfl
  | some e =>
      cases hpipe : Brokerrpc.isPipeClosure e with
      | true => exact .inl (if_pos hpipe)
      | false => exact .inr ⟨e, _, rfl, hpipe, if_neg (by simp [hpipe])⟩

/-- A window that is resolved has no negative length. -/
theorem length_of_resolveWindow {total start length : Int} {range : Option Brokerrpc.Range}
    (htotal : 0 ≤ total) (h : resolveWindow total range = .ok (start, length)) : 0 ≤ length := by
  cases range with
  | none =>
      cases h
      exact htotal
  | some rng =>
      rw [resolveWindow] at h
      split at h
      · cases h
      · dsimp only at h
        have hstart : (if rng.offset > total then total else rng.offset) ≤ total := by
          split <;> omega
        generalize (if rng.offset > total then total else rng.offset) = first at h hstart
        split at h
        · cases h
        · cases h
          split <;> omega

/-- A download declares what it sends. -/
theorem length_of_downloaded {range : Option Brokerrpc.Range}
    (h : downloaded bs range = .stream n bytes) : (bytes.length : Int) ≤ n := by
  unfold downloaded at h
  split at h
  · cases h
  · next start length hwindow =>
      cases h
      have hnonneg := length_of_resolveWindow (Int.natCast_nonneg _) hwindow
      rw [List.length_take]
      omega

/-- Without a range the whole content is sent. -/
theorem downloaded_whole (bs : List UInt8) : downloaded bs none = .stream bs.length bs := by
  simp [downloaded, resolveWindow]

/-- What is sent of a window.  One that ends beyond every offset is refused. -/
theorem downloaded_window {offset length : Int} (ho : 0 ≤ offset) (hl : 0 ≤ length)
    (hlength : length ≤ maxInt64) (hbs : (bs.length : Int) ≤ maxInt64) :
    (∃ n, n ≤ length ∧ downloaded bs (some ⟨offset, length⟩) =
      .stream n ((bs.drop offset.toNat).take length.toNat)) ∨
    maxInt64 < min offset bs.length + length ∧
      (downloaded bs (some ⟨offset, length⟩)).status = 400 := by
  obtain ⟨volume, hfile⟩ : ∃ volume : Filestore.Volume, volume "u" = some bs :=
    ⟨fun _ => some bs, rfl⟩
  have hne : "u" ≠ "" := by decide
  have hreply : downloaded bs (some ⟨offset, length⟩) =
      reply (Filestore.handleFileDownload volume "u" (some ⟨offset, length⟩)) := by
    unfold downloaded Filestore.handleFileDownload
    rw [if_neg hne, hfile]
    dsimp only
    cases resolveWindow bs.length (some ⟨offset, length⟩) <;> rfl
  rw [hreply]
  by_cases hend : min offset (bs.length : Int) + length ≤ maxInt64
  · obtain ⟨n, hn, hstream⟩ := Filestore.handleFileDownload_window hne hfile ho hl hend
    rw [hstream]
    exact .inl ⟨n, hn, rfl⟩
  · have hlong : maxInt64 < min offset bs.length + length := by omega
    rw [Filestore.handleFileDownload_overflow hne hfile ho hl hbs hlength hlong]
    exact .inr ⟨hlong, rfl⟩

end Bodies

/-! ## methods -/

section Methods

variable {d : Deployment} {source : Source} {w : World} {s : Store}

/-- The request was served, and its result is told from the reply. -/
def Served (d : Deployment) (source : Source) (q : Brokerrpc.Request) (s : Store) {α : Type}
    (tells : Response → α → Prop) (w : World) (r : α) : Prop :=
  ∃ s₁ s' resp, d.Drifts s s₁ ∧ Site d.ts w s' ∧ d.Turn source q s₁.volume resp s'.volume ∧
    tells resp r

/-- The operations that are acknowledged: makeDirectory, the removals, the
moves and the copy. -/
theorem meets_ackCall (hsite : Site d.ts w s) {op : Brokerrpc.Op}
    {mk : String → Brokerrpc.AuthorizationMetadata → AckRequest}
    (hfs : (mk d.client.fsID (Client.authMeta op)).filesystemID = d.client.fsID) :
    Meets (d.broker source) (Served d source
      (.ack (mk d.client.fsID (Client.authMeta op))) s (Acked False)) w
      (d.client.ackCall op mk) := by
  rw [Client.ackCall, Client.stamped_eq]
  refine meets_request (q := .ack (mk d.client.fsID (Client.authMeta op))) hsite hfs trivial
    fun s₁ w' s' resp x hdrifts hsmall hsite' hturn hx => ?_
  refine ⟨s₁, s', resp, hdrifts, hsite', hturn, ?_⟩
  obtain ⟨h, decoded, rfl, hc, hd⟩ := hx
  obtain hkind | hle := hturn.delivers
  · obtain rfl : resp = .done := by
      revert hkind
      cases mk d.client.fsID (Client.authMeta op) <;> exact id
    have hok : (Response.done).Ok := ok_of_status rfl
    rw [hc.members [] rfl, decodeAck_okBody] at hd
    obtain rfl : decoded = .ok () := hd
    rw [callResult, hc.result_of_ok hok]
    exact .done hok
  · rw [callResult, hc.result_of_le hle]
    exact .failed (hc.errs hle)

/-- A metadata request, whose reply is always read. -/
theorem meets_readMetadata_client (hsite : Site d.ts w s) (path : Path) :
    Meets (d.broker source) (Served d source
      (.readMetadata ⟨d.client.fsID, path, Client.authMeta .readMetadata⟩) s MetadataRead) w
      (d.client.readMetadata path) := by
  rw [Client.readMetadata, Client.stamped_eq]
  refine meets_request (q := .readMetadata _) hsite rfl trivial
    fun s₁ w' s' resp x hdrifts hsmall hsite' hturn hx => ?_
  refine ⟨s₁, s', resp, hdrifts, hsite', hturn, ?_⟩
  obtain ⟨h, decoded, rfl, hc, hd⟩ := hx
  obtain ⟨e, rfl⟩ | hle := hturn.delivers
  · have hok : (Response.entry e).Ok := ok_of_status rfl
    have hreports := hturn.reports
    have hwhole := (hturn.carried hok).1 (by simp [opOf])
    have hfits := hreports.fits hsmall ((length_path_le_payload _).trans hwhole)
    rw [FitsReply] at hfits
    rw [hc.members _ rfl, decodeReadMetadata_okBody (hreports.sizeInRange hsmall),
      if_pos hfits] at hd
    obtain rfl : decoded = .ok (metadataResponse e) := hd
    rw [callResult, hc.result_of_ok hok]
    exact .read rfl
  · rw [callResult, hc.result_of_le hle]
    exact .failed (hc.errs hle)

/-- A listing is one page: the peer never sets a cursor. -/
theorem meets_listDirectoryStream (hsite : Site d.ts w s) {σ : Type} (path : Path)
    (yield : σ → ListDirEntry → σ × Option Err) (st : σ) :
    Meets (d.broker source) (Served d source
      (.listDirectory ⟨d.client.fsID, path, Client.authMeta .listDirectory, ""⟩) s
      (ListingRead yield st)) w (d.client.listDirectoryStream path yield st) := by
  rw [Client.listDirectoryStream, Client.stamped_eq, Client.streamLoop_eq]
  refine meets_request (q := .listDirectory _) hsite rfl trivial
    fun s₁ w' s' resp x hdrifts hsmall hsite' hturn hx => ?_
  obtain ⟨h, decoded, rfl, hc, hd⟩ := hx
  obtain ⟨es, rfl⟩ | hle := hturn.delivers
  · have hok : (Response.entries es).Ok := ok_of_status rfl
    obtain ⟨-, names, -, -, hall⟩ := hturn.lists
    have hsizes : ∀ e ∈ es, SizeInRange e :=
      forall_right hall fun name e hreports => hreports.sizeInRange hsmall
    have hmembers : (Response.entries es).members = some (entriesMembers es) := rfl
    rw [hc.members _ hmembers, decodeListDirectory_okBody hsizes hmembers] at hd
    split at hd
    · next hfits =>
        obtain rfl : decoded = .ok ⟨es.map listEntry, ""⟩ := hd
        rw [callResult, hc.result_of_ok hok]
        dsimp only [Brokerrpc.decodedResult]
        have hread : ListingRead yield st (.entries es) _ := .read rfl hfits
        split
        · next st' e heq =>
            rw [heq] at hread
            exact ⟨s₁, s', _, hdrifts, hsite', hturn, hread⟩
        · next st' heq =>
            rw [heq] at hread
            rw [if_pos rfl]
            exact ⟨s₁, s', _, hdrifts, hsite', hturn, hread⟩
    · next hlong =>
        obtain ⟨text, rfl⟩ := hd
        rw [callResult, hc.result_of_ok hok]
        exact ⟨s₁, s', _, hdrifts, hsite', hturn, .tooLong rfl hlong⟩
  · rw [callResult, hc.result_of_le hle]
    exact ⟨s₁, s', _, hdrifts, hsite', hturn, .failed (hc.errs hle)⟩

/-- An upload, from any source.  When the source fails, a reply that is no
error may be missed. -/
theorem meets_upload_client (hsite : Site d.ts w s) (path : Path) {totalBytes : Int}
    (overwrite : Bool) (hrange : -maxInt64 - 1 ≤ totalBytes ∧ totalBytes ≤ maxInt64) :
    Meets (d.broker source) (Served d source
      (.fileUpload ⟨d.client.fsID, path, totalBytes, overwrite, Client.authMeta .fileUpload⟩) s
      (Acked (¬ source.Ends))) w (d.client.upload path totalBytes overwrite) := by
  rw [Client.upload, Client.stamped_eq]
  refine meets_request (q := .fileUpload ⟨_, path, totalBytes, overwrite, _⟩) hsite rfl
    hrange fun s₁ w' s' resp x hdrifts hsmall hsite' hturn hx => ?_
  refine ⟨s₁, s', resp, hdrifts, hsite', hturn, ?_⟩
  unfold uploadResult
  obtain ⟨h, htrip, hc, hwriter⟩ | ⟨hfails, e, htrip⟩ := hx
  · rw [htrip]
    obtain ⟨f, rfl⟩ | hle := hturn.delivers
    · have hok := ok_file f
      rw [hc.result_of_ok hok]
      obtain haccepted | ⟨e, e', hwrite, hpipe, herror⟩ := uploadAccepted_cases hc.ends
      · rw [haccepted]
        exact .done hok
      · rw [herror]
        refine .untold fun hends => ?_
        cases hpipe.symm.trans (hwriter hends e hwrite)
    · rw [hc.result_of_le hle]
      exact .failed (hc.errs hle)
  · rw [htrip]
    exact .untold hfails

/-- A download, with any limit. -/
theorem meets_doDownload (hsite : Site d.ts w s) (uuid : String) (rng : Option Brokerrpc.Range)
    (limit : Int) (hrange : InRange (.fileDownload
      ⟨d.client.fsID, uuid, rng, Client.authMeta .fileDownload⟩)) :
    Meets (d.broker source) (Served d source
      (.fileDownload ⟨d.client.fsID, uuid, rng, Client.authMeta .fileDownload⟩) s
      (Downloaded limit)) w
      (d.client.doDownload d.client.fsID uuid (Client.authMeta .fileDownload) rng limit) := by
  refine meets_request (q := .fileDownload _) hsite rfl hrange
    fun s₁ w' s' resp x hdrifts hsmall hsite' hturn hx => ?_
  refine ⟨s₁, s', resp, hdrifts, hsite', hturn, ?_⟩
  obtain ⟨h, rfl, hc⟩ := hx
  obtain ⟨n, bytes, rfl⟩ | hle := hturn.delivers
  · have hok : (Response.stream n bytes).Ok := ok_of_status rfl
    have hanswered := (hturn.answered hok).1
    have hlen : (bytes.length : Int) ≤ n := by
      rw [commandOf, Command.Answered] at hanswered
      split at hanswered
      · cases hanswered
      · obtain ⟨ss, bs, -, -, heq⟩ | ⟨-, hnone⟩ := hanswered
        · exact length_of_downloaded heq.symm
        · cases hnone
    obtain ⟨hdeclared, hitems⟩ := hc.stream n bytes rfl
    rw [Brokerrpc.downloadResult, hc.result_of_ok hok, Brokerrpc.downloadBody, hdeclared]
    split
    · next hlong =>
        split
        · exact .tooLong rfl hlong.2
        · exact .tooLong rfl hlong.2
    · next hfits =>
        have hle : n ≤ limit := by omega
        refine .read rfl hle ?_
        rw [← hitems] at hlen ⊢
        exact Ocufs.readsTo_bounded hc.ends (Int.le_trans hlen hle)
  · rw [Brokerrpc.downloadResult, hc.result_of_le hle]
    exact .failed (hc.errs hle)

end Methods

end OcuFilestore.Peer
