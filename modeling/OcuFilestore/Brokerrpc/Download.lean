import OcuFilestore.Brokerrpc.Client

/-!
# OcuFilestore.Brokerrpc.Download

The fileDownload transport (`internal/brokerrpc/download.go`): the whole
object or a byte window of it, as a stream that is failed, never truncated,
when it carries more bytes than asked for.

`drain_read` says what reading such a stream to its first error gives, for
every chunking of the body and every sequence of buffers.
-/

namespace OcuFilestore.Brokerrpc

/-- A response body bounded to `limit` bytes. -/
structure BoundedBody where
  body : Script UInt8 Err
  remaining : Int
  limit : Int
  ranged : Bool

def newBoundedBody (body : Script UInt8 Err) (ranged : Bool) (limit : Int) : BoundedBody :=
  ⟨body, limit, limit, ranged⟩

namespace BoundedBody

def overCapErr (b : BoundedBody) : Err :=
  if b.ranged then
    .text [.lit "brokerrpc: fileDownload: broker over-delivered the requested ", .int b.limit,
      .lit "-byte window (offset dishonour suspected)"]
  else .text [.lit "brokerrpc: fileDownload: response exceeds ", .int b.limit, .lit " bytes"]

/-- The probe past the cap: read single bytes until one arrives (an error of
its own) or the stream ends. -/
def probe (cap : Err) (s : Script UInt8 Err) : Err × Script UInt8 Err :=
  match _h : s.read 1 with
  | ((_ :: _, _), s') => (cap, s')
  | (([], some e), s') => (e, s')
  | (([], none), s') => probe cap s'
termination_by s.weight
decreasing_by
  have h := Script.weight_read_lt (s := s) (n := 1) (by decide) (by rw [_h])
  rw [_h] at h
  exact h

/-- One read with a buffer of `len` bytes. -/
def read (b : BoundedBody) (len : Nat) : (List UInt8 × Option Err) × BoundedBody :=
  if b.remaining ≤ 0 then
    let (e, s') := probe b.overCapErr b.body
    (([], some e), { b with body := s' })
  else
    let n := if (len : Int) > b.remaining then b.remaining.toNat else len
    let ((xs, err), s') := b.body.read n
    ((xs, err), { b with body := s', remaining := b.remaining - xs.length })

end BoundedBody

/-- What a download hands to its caller. -/
inductive Body where
  /-- `http.NoBody`: ends at once. -/
  | noBody
  | bounded (b : BoundedBody)

def Body.read : Body → Nat → (List UInt8 × Option Err) × Body
  | .noBody, _ => (([], some (.sentinel .eof)), .noBody)
  | .bounded b, len =>
      let (r, b') := b.read len
      (r, .bounded b')

/-- A 2xx response: a declared length past the limit is refused at once. -/
def downloadBody (rng : Option Range) (limit : Int) (resp : HttpResp) : Except Err Body :=
  if resp.contentLength ≥ 0 ∧ resp.contentLength > limit then
    if rng.isSome then
      .error (.text [.lit "brokerrpc: fileDownload: response declares ", .int resp.contentLength,
        .lit " bytes for the requested ", .int limit,
        .lit "-byte window — broker did not honour the range"])
    else
      .error (.text [.lit "brokerrpc: fileDownload: response declares ", .int resp.contentLength,
        .lit " bytes, exceeding the ", .int limit, .lit "-byte cap"])
  else .ok (.bounded (newBoundedBody resp.body rng.isSome limit))

/-- The end of a fileDownload round trip. -/
def downloadResult (rng : Option Range) (limit : Int) (x : Exchange Unit) : Except Err Body :=
  x.result [.lit "brokerrpc: build fileDownload request: "] [.lit "brokerrpc: fileDownload: "]
    fun resp _ => downloadBody rng limit resp

namespace Client

def doDownload (c : Client) (fsID uuid : String) (am : AuthorizationMetadata)
    (rng : Option Range) (limit : Int) : WireProg (Except Err Body) :=
  .op ⟨c, .fileDownload ⟨fsID, uuid, rng, am⟩⟩ fun x => .ret (downloadResult rng limit x)

/-- The whole object. -/
def download (c : Client) (uuid : String) : WireProg (Except Err Body) :=
  c.stamped .fileDownload .error fun fsID am =>
    c.doDownload fsID uuid am none c.maxDownloadBytes

/-- A byte window of the object; an empty window asks nothing of the broker. -/
def downloadRange (c : Client) (uuid : String) (offset length : Int) :
    WireProg (Except Err Body) :=
  if offset < 0 then
    .ret (.error (.text [.lit "brokerrpc: DownloadRange: negative offset ", .int offset]))
  else if length < 0 then
    .ret (.error (.text [.lit "brokerrpc: DownloadRange: negative length ", .int length]))
  else if length = 0 then .ret (.ok .noBody)
  else
    c.stamped .fileDownload .error fun fsID am =>
      c.doDownload fsID uuid am (some ⟨offset, length⟩) length

end Client

/-! ## reading a bounded body -/

namespace BoundedBody

/-- The probe tells a stream with bytes left from one at its end. -/
theorem probe_fst (cap : Err) (s : Script UInt8 Err) :
    (probe cap s).1 = if s.items = [] then s.err else cap := by
  fun_induction probe cap s with
  | case1 s x xs e s' hr =>
      have hitems := s.read_items 1
      rw [hr] at hitems
      simp [hitems]
  | case2 s e s' hr =>
      have hend := Script.read_some (s := s) (n := 1) (e := e) (by rw [hr])
      rw [hr] at hend
      rw [← hend.2.1, if_pos rfl, hend.1]
  | case3 s s' hr ih =>
      have hitems := s.read_items 1
      have herr := s.read_err 1
      rw [hr] at hitems herr
      rw [ih, hitems, List.nil_append]
      simp only [herr]

/-- A read below the bound hands out the front of what the body has left, no
more than the bound allows; with an error it hands out all of it. -/
theorem read_of_pos (b : BoundedBody) {len : Nat} (hlen : 0 < len) (hrem : 0 < b.remaining) :
    ∃ xs e s', b.read len =
        ((xs, e), { b with body := s', remaining := b.remaining - xs.length }) ∧
      (xs.length : Int) ≤ b.remaining ∧ b.body.items = xs ++ s'.items ∧ s'.err = b.body.err ∧
      (∀ err, e = some err → err = b.body.err ∧ s'.items = []) ∧
      (e = none → s'.weight < b.body.weight) := by
  -- the buffer, cut to what is left of the bound, is not empty
  obtain ⟨n, hn⟩ : ∃ n, n = if (len : Int) > b.remaining then b.remaining.toNat else len := ⟨_, rfl⟩
  have hpos : 0 < n := by
    rw [hn]
    split <;> omega
  have hle : (n : Int) ≤ b.remaining := by
    rw [hn]
    split <;> omega
  have hitems := b.body.read_items n
  have herr := b.body.read_err n
  have hshort := b.body.length_read_le n
  cases hr : b.body.read n with
  | mk out s' =>
  obtain ⟨xs, e⟩ := out
  rw [hr] at hitems herr hshort
  refine ⟨xs, e, s', ?_, ?_, hitems, herr, ?_, ?_⟩
  · rw [read, if_neg (by omega)]
    simp only [← hn, hr]
  · dsimp only at hshort
    omega
  · rintro err rfl
    have hend := Script.read_some (s := b.body) (n := n) (e := err) (by rw [hr])
    rw [hr] at hend
    exact ⟨hend.1, hend.2.2⟩
  · rintro rfl
    have hlt := Script.weight_read_lt (s := b.body) hpos (by rw [hr])
    rw [hr] at hlt
    exact hlt

/-- How a drain of the body ends. -/
def ending (b : BoundedBody) : Err :=
  if b.remaining < b.body.items.length then b.overCapErr else b.body.err

/-- Reading to the first error: the bytes up to the bound, then the over-cap
error if there are more, and else the body's own error. -/
theorem drain_read (bufs : Nat → Nat) (hbufs : ∀ i, 0 < bufs i) (b : BoundedBody) (i : Nat)
    (hrem : 0 ≤ b.remaining) :
    ∃ fuel, drain read bufs fuel i b =
      some (b.body.items.take b.remaining.toNat, b.ending) := by
  -- on the weight of the body's script; every read without an error uses some of it up
  induction hw : b.body.weight using Nat.strongRecOn generalizing b i with
  | ind w ih =>
      by_cases hzero : b.remaining = 0
      · refine ⟨1, ?_⟩
        have hprobe := probe_fst b.overCapErr b.body
        have hend : (probe b.overCapErr b.body).1 = b.ending := by
          rw [hprobe, ending, hzero]
          by_cases hnil : b.body.items = []
          · simp [hnil]
          · rw [if_neg hnil, if_pos (by simpa using List.length_pos_iff.mpr hnil)]
        simp [drain, read, hzero, hend]
      · obtain ⟨xs, e, s', hread, hle, hitems, herr, hend, hlt⟩ :=
          b.read_of_pos (hbufs i) (by omega)
        have htake : b.body.items.take b.remaining.toNat =
            xs ++ s'.items.take (b.remaining - xs.length).toNat := by
          rw [hitems, List.take_append, List.take_of_length_le (by omega)]
          congr 2
          omega
        have hending : b.ending =
            ending { b with body := s', remaining := b.remaining - xs.length } := by
          have hlen := congrArg List.length hitems
          rw [List.length_append] at hlen
          have hiff : b.remaining < b.body.items.length ↔
              b.remaining - xs.length < s'.items.length := by omega
          simp only [ending, hiff, herr]
          rfl
        cases e with
        | some err =>
            obtain ⟨rfl, hnil⟩ := hend err rfl
            refine ⟨1, ?_⟩
            have hown : b.ending = b.body.err := by
              rw [hending, ending, if_neg (by simp only [hnil, List.length_nil]; omega)]
              exact herr
            simp [drain, hread, htake, hnil, hown]
        | none =>
            obtain ⟨fuel, hfuel⟩ := ih s'.weight (hw ▸ hlt rfl)
              { b with body := s', remaining := b.remaining - xs.length } (i + 1)
              (by dsimp only; omega) rfl
            refine ⟨fuel + 1, ?_⟩
            simp [drain, hread, hfuel, htake, hending]

/-- A stream within its bound is delivered whole, then its terminal error, for
every chunking and every sequence of buffers. -/
theorem drain_bounded (bufs : Nat → Nat) (hbufs : ∀ i, 0 < bufs i) (b : BoundedBody) (i : Nat)
    (hfit : (b.body.items.length : Int) ≤ b.remaining) :
    ∃ N, ∀ fuel ≥ N, drain read bufs fuel i b = some (b.body.items, b.body.err) := by
  obtain ⟨N, hN⟩ := b.drain_read bufs hbufs i (by omega)
  rw [List.take_of_length_le (by omega), ending, if_neg (by omega)] at hN
  exact ⟨N, fun fuel hle => drain_mono hle hN⟩

/-- An overlong body never ends as a complete one. -/
theorem overCapErr_ne_eof (b : BoundedBody) : b.overCapErr ≠ .sentinel .eof := by
  unfold overCapErr
  split <;> nofun

end BoundedBody

/-- **Bounded download**: read through any non-empty buffers to its first
error, a body of any chunking delivers exactly its first `limit` bytes.  The
error is the over-cap error if the body carries more, and the body's own error
otherwise; in particular it is the end of the stream exactly when the body
ends there within the bound. -/
theorem boundedBody_delivers (body : Script UInt8 Err) (ranged : Bool) (limit : Int)
    (hlimit : 1 ≤ limit) (bufs : Nat → Nat) (hbufs : ∀ i, 0 < bufs i) :
    (∃ fuel r, drain BoundedBody.read bufs fuel 0 (newBoundedBody body ranged limit) = some r) ∧
    ∀ fuel bytes e,
      drain BoundedBody.read bufs fuel 0 (newBoundedBody body ranged limit) = some (bytes, e) →
      bytes = body.items.take limit.toNat ∧
      (e = .sentinel .eof ↔ body.err = .sentinel .eof ∧ body.items.length ≤ limit) ∧
      (limit < body.items.length → e = (newBoundedBody body ranged limit).overCapErr) ∧
      (body.items.length ≤ limit → e = body.err) := by
  obtain ⟨N, hN⟩ := (newBoundedBody body ranged limit).drain_read bufs hbufs 0
    (show 0 ≤ limit by omega)
  refine ⟨⟨N, _, hN⟩, fun fuel bytes e h => ?_⟩
  have heq := (drain_mono (Nat.le_max_left fuel N) h).symm.trans
    (drain_mono (Nat.le_max_right fuel N) hN)
  obtain ⟨rfl, rfl⟩ := Prod.mk.inj (Option.some.inj heq)
  have hne := (newBoundedBody body ranged limit).overCapErr_ne_eof
  have hending : (newBoundedBody body ranged limit).ending =
      if limit < body.items.length then (newBoundedBody body ranged limit).overCapErr
      else body.err := rfl
  refine ⟨rfl, ?_, fun hlt => if_pos hlt, fun hle => hending.trans (if_neg (by omega))⟩
  rw [hending]
  split
  · exact ⟨fun h => absurd h hne, fun h => absurd h.2 (by omega)⟩
  · exact ⟨fun h => ⟨h, by omega⟩, And.left⟩

/-- Three bytes in two chunks, the last with the end of the stream, against a
bound of two. -/
theorem boundedBody_delivers_over_cap :
    ∃ fuel, drain BoundedBody.read (fun _ => 4) fuel 0
        (newBoundedBody (.chunk [1, 2] (.last [3] (.sentinel .eof))) true 2) =
      some ([1, 2],
        (newBoundedBody (.chunk [1, 2] (.last [3] (.sentinel .eof))) true 2).overCapErr) := by
  obtain ⟨⟨fuel, ⟨bytes, e⟩, h⟩, hall⟩ := boundedBody_delivers
    (.chunk [1, 2] (.last [3] (.sentinel .eof))) true 2 (by decide) (fun _ => 4)
    (fun _ => by decide)
  obtain ⟨hbytes, -, hover, -⟩ := hall fuel bytes e h
  refine ⟨fuel, ?_⟩
  rw [h, hbytes, hover (by decide)]
  rfl

theorem drain_noBody (bufs : Nat → Nat) (fuel i : Nat) :
    drain Body.read bufs (fuel + 1) i .noBody = some ([], .sentinel .eof) := rfl

theorem drain_body (bufs : Nat → Nat) (fuel i : Nat) (b : BoundedBody) :
    drain Body.read bufs fuel i (.bounded b) = drain BoundedBody.read bufs fuel i b := by
  induction fuel generalizing i b with
  | zero => rfl
  | succ fuel ih =>
      cases hr : b.read (bufs i) with
      | mk out b' =>
      obtain ⟨xs, e⟩ := out
      cases e with
      | some e => simp [drain, Body.read, hr]
      | none => simp [drain, Body.read, hr, ih]

/-! ## the request, and what becomes of a refusal -/

namespace Client

/-- A download posts its own operation only. -/
theorem always_doDownload {c : Client} {uuid : String} {rng : Option Range} {limit : Int} :
    (c.doDownload c.fsID uuid (authMeta .fileDownload) rng limit).Always
      (Posts c .fileDownload) (fun _ => True) :=
  ⟨posts_of_stamped rfl rfl rfl (by simp [Request.paths]), fun _ => trivial⟩

/-- It surfaces the status of a refusal. -/
theorem surfaces_doDownload {c : Client} {uuid fsID : String} {am : AuthorizationMetadata}
    {rng : Option Range} {limit : Int} :
    Surfaces (fun op resp a => op = .fileDownload ∧ a = .error resp.err)
      (c.doDownload fsID uuid am rng limit) :=
  surfaces_op fun _ _ h => ⟨rfl, Exchange.result_refusal h⟩

theorem always_download {c : Client} {uuid : String} :
    (c.download uuid).Always (Posts c .fileDownload) (fun _ => True) := by
  rw [download, stamped_eq]
  exact always_doDownload

theorem surfaces_download {c : Client} {uuid : String} :
    Surfaces (fun op resp a => op = .fileDownload ∧ a = .error resp.err) (c.download uuid) := by
  rw [download, stamped_eq]
  exact surfaces_doDownload

theorem always_downloadRange {c : Client} {uuid : String} {offset length : Int} :
    (c.downloadRange uuid offset length).Always (Posts c .fileDownload) (fun _ => True) := by
  unfold downloadRange
  split
  · trivial
  · split
    · trivial
    · split
      · trivial
      · rw [stamped_eq]
        exact always_doDownload

theorem surfaces_downloadRange {c : Client} {uuid : String} {offset length : Int} :
    Surfaces (fun op resp a => op = .fileDownload ∧ a = .error resp.err)
      (c.downloadRange uuid offset length) := by
  unfold downloadRange
  split
  · trivial
  · split
    · trivial
    · split
      · trivial
      · rw [stamped_eq]
        exact surfaces_doDownload

end Client

end OcuFilestore.Brokerrpc
