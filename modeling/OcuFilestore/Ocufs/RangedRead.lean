import OcuFilestore.Filestore.Transfer
import OcuFilestore.Ocufs.Object

/-!
# OcuFilestore.Ocufs.RangedRead

Ranged reads end to end: an option is decoded to a byte window by `Open`,
sent by the client, resolved by the filestore peer, and the response is read
through the client's bound.

`denoted` says which bytes an option stands for.  rclone's
`RangeOption.Decode` is a parameter; `RangeOption.Documented` is what is
relied on.  `open_reads_iff` is the exact condition under which a read gives
the denoted bytes: two kinds of options fail, an explicit range up to the
largest `int64` that starts within the file, and a range that `Decode` turns
into a negative offset, which it may do with a suffix longer than the file.
-/

namespace OcuFilestore.Ocufs

open Brokerrpc Filestore

/-! ## options and what they denote -/

/-- A well-formed option, with `int64` values: seek, explicit range,
open-ended range, suffix, whole object. -/
inductive WellFormed : OpenOption → Prop
  | seek {o : Int} (h₀ : 0 ≤ o) (h₁ : o ≤ maxInt64) : WellFormed (.seek o)
  | explicit {r : RangeOption} (h₀ : 0 ≤ r.start) (h₁ : r.start ≤ r.stop)
      (h₂ : r.stop ≤ maxInt64) : WellFormed (.range r)
  | openEnded {r : RangeOption} (h₀ : 0 ≤ r.start) (h₁ : r.start ≤ maxInt64)
      (h₂ : r.stop = -1) : WellFormed (.range r)
  | suffix {r : RangeOption} (h₀ : r.start = -1) (h₁ : 0 ≤ r.stop) (h₂ : r.stop ≤ maxInt64) :
      WellFormed (.range r)
  | whole {r : RangeOption} (h₀ : r.start = -1) (h₁ : r.stop = -1) : WellFormed (.range r)

/-- What `Decode` is documented to do with the four forms of a range, in
`int64` arithmetic.  Of a suffix that is longer than the object only this is
asked: it starts at the beginning, or at an offset before it. -/
structure RangeOption.Documented (r : RangeOption) : Prop where
  explicit : 0 ≤ r.start → 0 ≤ r.stop →
    ∀ size, r.decode size = (r.start, int64 (int64 (r.stop - r.start) + 1))
  openEnded : 0 ≤ r.start → r.stop < 0 → ∀ size, r.decode size = (r.start, -1)
  suffix : r.start < 0 → 0 ≤ r.stop → ∀ size, 0 ≤ size →
    ∃ off, r.decode size = (off, -1) ∧ (r.stop ≤ size → off = size - r.stop) ∧
      (size < r.stop → off ≤ 0)
  whole : r.start < 0 → r.stop < 0 → ∀ size, r.decode size = (0, -1)

/-- The bytes of `c` an option denotes. -/
def denoted (c : List UInt8) : OpenOption → List UInt8
  | .seek o => c.drop o.toNat
  | .range r =>
      if 0 ≤ r.start then
        if 0 ≤ r.stop then (c.take (r.stop + 1).toNat).drop r.start.toNat
        else c.drop r.start.toNat
      else if 0 ≤ r.stop then c.drop (c.length - r.stop.toNat)
      else c
  | .other _ _ => c

/-- The options that fail: an explicit range to the largest `int64` that
starts within the file, and a range that is decoded to a negative offset. -/
def Unreadable (size : Int) : OpenOption → Prop
  | .range r => (0 ≤ r.start ∧ r.start ≤ size ∧ r.stop = maxInt64) ∨ (r.decode size).1 < 0
  | .seek _ => False
  | .other _ _ => False

/-! ## one read -/

/-- The environment of a read: the fields of the object do not change, and
downloads are answered by the peer that holds `volume`. -/
def Serves (volume : Volume) (m : Meta) : Prog.Answered Eff.Reply → Prop
  | ⟨.peek, r⟩ => r = m
  | ⟨.send ⟨_, .fileDownload q⟩, x⟩ => Delivers (handleFileDownload volume q.uuid q.range) x
  | _ => True

/-- The body read to its end, through any buffers, gives these bytes. -/
def ReadsTo (body : Body) (bytes : List UInt8) : Prop :=
  ∀ bufs : Nat → Nat, (∀ i, 0 < bufs i) →
    ∃ N, ∀ fuel ≥ N, drain Body.read bufs fuel 0 body = some (bytes, .sentinel .eof)

/-- Every run of the program opens a body that reads to these bytes. -/
def Yields (volume : Volume) (m : Meta) (p : FsProg (Except Err Body)) (bytes : List UInt8) :
    Prop :=
  ∀ tr r, p.Exec tr r → (∀ x ∈ tr, Serves volume m x) → ∃ body, r = .ok body ∧ ReadsTo body bytes

theorem readsTo_noBody : ReadsTo .noBody [] := by
  intro bufs _
  refine ⟨1, fun fuel hfuel => ?_⟩
  obtain ⟨n, rfl⟩ : ∃ n, fuel = n + 1 := ⟨fuel - 1, by omega⟩
  exact drain_noBody bufs n 0

/-- A body within its limit is read to its end. -/
theorem readsTo_bounded {s : Script UInt8 Err} (herr : s.err = .sentinel .eof) {ranged : Bool}
    {limit : Int} (hfit : (s.items.length : Int) ≤ limit) :
    ReadsTo (.bounded (newBoundedBody s ranged limit)) s.items := by
  intro bufs hbufs
  obtain ⟨N, hN⟩ := (newBoundedBody s ranged limit).drain_bounded bufs hbufs 0 hfit
  refine ⟨N, fun fuel hfuel => ?_⟩
  rw [drain_body, hN fuel hfuel]
  simp only [newBoundedBody, herr]

/-! ## windows -/

section Window

variable {volume : Volume} {m : Meta} {bytes : List UInt8}

theorem yields_ret {r : Except Err Body} :
    Yields volume m (.ret r) bytes ↔ ∃ body, r = .ok body ∧ ReadsTo body bytes := by
  constructor
  · intro h
    exact h [] r (.refl _) (by simp)
  · intro h tr r' hrun _
    obtain ⟨-, rfl⟩ := Prog.exec_ret hrun
    exact h

/-- An effect yields what every served reply goes on to. -/
theorem yields_op {e : Eff} {k : e.Reply → FsProg (Except Err Body)} :
    Yields volume m (.op e k) bytes ↔
      ∀ r, Serves volume m ⟨e, r⟩ → Yields volume m (k r) bytes := by
  constructor
  · intro h r hr tr r' hrun htr
    exact h (⟨e, r⟩ :: tr) r' (.step hrun) (List.forall_mem_cons.mpr ⟨hr, htr⟩)
  · intro h tr r' hrun htr
    obtain ⟨r, tr', rfl, hrun'⟩ := Prog.exec_op hrun
    obtain ⟨hr, htr'⟩ := List.forall_mem_cons.mp htr
    exact h r hr tr' r' hrun' htr'

/-- Reading the cell yields what goes on with it. -/
theorem yields_peek {k : Meta → FsProg (Except Err Body)} :
    Yields volume m (peek >>= k) bytes ↔ Yields volume m (k m) bytes := by
  rw [peek_bind]
  constructor
  · intro h
    exact yields_op.mp h m rfl
  · intro h
    apply yields_op.mpr
    intro r hr
    cases hr
    exact h

/-- A window that goes to the peer: the read is what the client makes of
every delivery of the peer's reply. -/
theorem yields_doDownload {client : Client} {fsID uuid : String} {am : AuthorizationMetadata}
    {rng : Option Range} {limit : Int} :
    Yields volume m (send (client.doDownload fsID uuid am rng limit)) bytes ↔
      ∀ x, Delivers (handleFileDownload volume uuid rng) x →
        ∃ body, downloadResult rng limit x = .ok body ∧ ReadsTo body bytes := by
  have hop : send (client.doDownload fsID uuid am rng limit) =
      .op (.send ⟨client, .fileDownload ⟨fsID, uuid, rng, am⟩⟩)
        fun x => .ret (downloadResult rng limit x) := rfl
  rw [hop, yields_op]
  constructor
  · intro h x hx
    exact yields_ret.mp (h x hx)
  · intro h x hx
    exact yields_ret.mpr (h x hx)

/-- What the client makes of the peer's stream of a window. -/
theorem downloadResult_stream {x : Exchange Unit} {n offset length : Int}
    (hx : Delivers (.stream n bytes) x) (hn : n ≤ length) (hfit : (bytes.length : Int) ≤ length) :
    ∃ body, downloadResult (some ⟨offset, length⟩) length x = .ok body ∧ ReadsTo body bytes := by
  obtain ⟨resp, rfl, hstatus, hlen, rfl, herr⟩ := hx
  have hok : nonSuccess resp.status = false := by
    rw [hstatus]
    rfl
  have hcap : ¬ (resp.contentLength ≥ 0 ∧ resp.contentLength > length) := by omega
  refine ⟨.bounded (newBoundedBody resp.body true length), ?_, readsTo_bounded herr hfit⟩
  simp only [downloadResult, Exchange.result, hok, downloadBody, hcap]
  rfl

/-- What the client makes of the peer's refusal of an overflowing window. -/
theorem downloadResult_refused {x : Exchange Unit} {message : String} {rng : Option Range}
    {limit : Int} (hx : Delivers (.refused 400 message) x) :
    ∃ e, downloadResult rng limit x = .error e := by
  obtain ⟨resp, rfl, hstatus⟩ := hx
  have hbad : nonSuccess resp.status = true := by
    rw [hstatus]
    rfl
  exact ⟨resp.err, by simp only [downloadResult, Exchange.result, hbad, if_true]⟩

variable {client : Client} {c : List UInt8} (huuid : m.uuid ≠ "") (hc : volume m.uuid = some c)
include huuid hc

/-- A window the peer can resolve reads to the bytes it names. -/
theorem yields_downloadRange {offset length : Int} (ho : 0 ≤ offset) (hl : 0 ≤ length)
    (hend : length = 0 ∨ min offset c.length + length ≤ maxInt64) :
    Yields volume m (send (client.downloadRange m.uuid offset length))
      ((c.drop offset.toNat).take length.toNat) := by
  rw [Client.downloadRange, if_neg (by omega), if_neg (by omega)]
  split
  · next hzero =>
      subst hzero
      exact yields_ret.mpr ⟨.noBody, rfl, by simpa using readsTo_noBody⟩
  · next hpos =>
      obtain ⟨n, hn, hreply⟩ := handleFileDownload_window huuid hc ho hl (by omega)
      rw [Client.stamped_eq, yields_doDownload, hreply]
      intro x hx
      exact downloadResult_stream hx hn (by rw [List.length_take]; omega)

/-- Any other window reads to nothing at all: the client refuses a negative
one, the peer one whose end wraps. -/
theorem not_yields_downloadRange {offset length : Int} (hlen : (c.length : Int) ≤ maxInt64)
    (hl : length ≤ maxInt64)
    (hbad : offset < 0 ∨ length < 0 ∨ maxInt64 < min offset c.length + length) :
    ¬ Yields volume m (send (client.downloadRange m.uuid offset length)) bytes := by
  intro h
  unfold Client.downloadRange at h
  split at h
  · obtain ⟨body, hbody, -⟩ := yields_ret.mp h
    cases hbody
  · next ho =>
      split at h
      · obtain ⟨body, hbody, -⟩ := yields_ret.mp h
        cases hbody
      · next hl' =>
          have hover : maxInt64 < min offset c.length + length := by omega
          have hreply := handleFileDownload_overflow huuid hc (by omega) (by omega) hlen hl hover
          rw [if_neg (by omega), Client.stamped_eq, yields_doDownload, hreply] at h
          obtain ⟨x, hx⟩ := exists_delivers (.refused 400 "range overflows")
          obtain ⟨body, hbody, -⟩ := h x hx
          obtain ⟨e, he⟩ := downloadResult_refused hx
          rw [he] at hbody
          cases hbody

end Window

/-! ## opening with one option -/

section Open

variable {volume : Volume} {m : Meta} {o : Object} {bytes : List UInt8}

/-- With a uuid at hand `Open` asks for the option's window. -/
theorem yields_open {opt : OpenOption} {w : Window} (huuid : m.uuid ≠ "")
    (hw : applyOption m.size ⟨0, 0, true⟩ opt = .ok w) (hfull : w.fullRead = false) :
    Yields volume m (o.open [opt]) bytes ↔
      Yields volume m (send (o.fs.client.downloadRange m.uuid w.offset w.length)) bytes := by
  have hws : applyOptions m.size ⟨0, 0, true⟩ [opt] = .ok w := by
    rw [applyOptions, hw]
    rfl
  rw [Object.open, Object.resolve, Prog.bind_assoc, yields_peek, if_pos huuid, Prog.pure_eq,
    Prog.ret_bind]
  simp only [yields_peek, huuid, if_false, hws, hfull, Bool.false_eq_true]

/-- The length to the end is an `int64`. -/
theorem toEnd_le (size offset : Int) : toEnd size offset ≤ maxInt64 := by
  have hle : int64 (size - offset) ≤ maxInt64 := (int64_range _).2
  unfold toEnd
  dsimp only
  split
  · decide
  · exact hle

/-- In range the length to the end is the difference, or nothing. -/
theorem toEnd_eq {size offset : Int} (h₁ : -maxInt64 ≤ size - offset)
    (h₂ : size - offset ≤ maxInt64) : toEnd size offset = max (size - offset) 0 := by
  rw [toEnd, int64_of_range h₁ h₂]
  split <;> omega

variable {c : List UInt8} (huuid : m.uuid ≠ "") (hsize : m.size = c.length)
  (hc : volume m.uuid = some c) (hlen : (c.length : Int) ≤ 4611686018427387904)
include huuid hsize hc hlen

/-- From an offset to the end of the file. -/
theorem yields_toEnd {offset : Int} (h₀ : 0 ≤ offset) (h₁ : offset ≤ maxInt64) :
    Yields volume m (send (o.fs.client.downloadRange m.uuid offset (toEnd m.size offset)))
      (c.drop offset.toNat) := by
  have hend : toEnd m.size offset = max ((c.length : Int) - offset) 0 := by
    rw [hsize, toEnd_eq (by omega) (by unfold maxInt64; omega)]
  have hwhole : c.drop offset.toNat = (c.drop offset.toNat).take (toEnd m.size offset).toNat := by
    rw [List.take_of_length_le]
    rw [List.length_drop]
    omega
  rw [hwhole]
  exact yields_downloadRange huuid hc h₀ (by omega) (by unfold maxInt64; omega)

/-- A range that is decoded to an offset and no length goes to the end of the
file, from an offset that the client takes. -/
theorem yields_openRange_iff {r : RangeOption} {off : Int} (hdecode : r.decode m.size = (off, -1))
    (hoff : off ≤ maxInt64) :
    Yields volume m (o.open [.range r]) (c.drop off.toNat) ↔ 0 ≤ off := by
  have hw : applyOption m.size ⟨0, 0, true⟩ (.range r) = .ok ⟨off, toEnd m.size off, false⟩ := by
    simp only [applyOption, hdecode, if_true]
  rw [yields_open huuid hw rfl]
  dsimp only
  constructor
  · intro h
    refine Int.not_lt.mp fun hneg => ?_
    have hend : toEnd m.size off ≤ maxInt64 := toEnd_le _ _
    exact not_yields_downloadRange huuid hc (by unfold maxInt64; omega) hend (.inl hneg) h
  · intro h
    exact yields_toEnd huuid hsize hc hlen h hoff

omit hsize in
/-- An explicit range: its length and, at the peer, its end must be
representable. -/
theorem yields_explicit_iff {r : RangeOption}
    (hdecode : r.decode m.size = (r.start, int64 (int64 (r.stop - r.start) + 1)))
    (h₀ : 0 ≤ r.start) (h₁ : r.start ≤ r.stop) (h₂ : r.stop ≤ maxInt64) :
    Yields volume m (o.open [.range r]) ((c.take (r.stop + 1).toNat).drop r.start.toNat) ↔
      ¬ (r.start ≤ c.length ∧ r.stop = maxInt64) := by
  rw [int64_of_range (x := r.stop - r.start) (by omega) (by omega)] at hdecode
  -- the length of a range over all of the int64 values wraps
  by_cases hwrap : r.start = 0 ∧ r.stop = maxInt64
  · obtain ⟨hstart, hstop⟩ := hwrap
    have hneg : int64 (maxInt64 - 0 + 1) < 0 := by decide
    have hw : applyOption m.size ⟨0, 0, true⟩ (.range r) =
        .ok ⟨0, int64 (maxInt64 - 0 + 1), false⟩ := by
      simp only [applyOption, hdecode, hstart, hstop]
      rfl
    rw [yields_open huuid hw rfl]
    dsimp only
    refine iff_of_false (not_yields_downloadRange huuid hc (by unfold maxInt64; omega)
      (by unfold maxInt64 at *; omega) (.inr (.inl hneg))) ?_
    omega
  · have hlength : int64 (r.stop - r.start + 1) = r.stop - r.start + 1 :=
      int64_of_range (by omega) (by omega)
    have hw : applyOption m.size ⟨0, 0, true⟩ (.range r) =
        .ok ⟨r.start, r.stop - r.start + 1, false⟩ := by
      simp only [applyOption, hdecode, hlength]
      rw [if_neg (by omega)]
    rw [yields_open huuid hw rfl]
    dsimp only
    have hslice : (c.take (r.stop + 1).toNat).drop r.start.toNat =
        (c.drop r.start.toNat).take (r.stop - r.start + 1).toNat := by
      rw [List.drop_take]
      congr 1
      omega
    rw [hslice]
    constructor
    · intro h hbad
      refine not_yields_downloadRange huuid hc (by unfold maxInt64; omega) (by omega) ?_ h
      omega
    · intro h
      exact yields_downloadRange huuid hc h₀ (by omega) (by omega)

/-- **Ranged reads**: for every file and every well-formed option, opening
with the option and reading to the end gives the bytes the option denotes,
for every chunking and all buffers, unless the option is one of the two
kinds that fail. -/
theorem open_reads_iff {opt : OpenOption} (hopt : WellFormed opt)
    (hdecode : ∀ r, opt = .range r → r.Documented) :
    Yields volume m (o.open [opt]) (denoted c opt) ↔ ¬ Unreadable c.length opt := by
  cases hopt with
  | seek h₀ h₁ =>
      rw [yields_open huuid (w := ⟨_, toEnd m.size _, false⟩) rfl rfl]
      simpa [Unreadable, denoted] using yields_toEnd huuid hsize hc hlen h₀ h₁
  | @explicit r h₀ h₁ h₂ =>
      have hstop : 0 ≤ r.stop := by omega
      have hdec := (hdecode r rfl).explicit h₀ hstop
      have hiff := yields_explicit_iff (o := o) huuid hc hlen (hdec m.size) h₀ h₁ h₂
      simp only [denoted, Unreadable, if_pos h₀, if_pos hstop, hiff, hdec]
      omega
  | @openEnded r h₀ h₁ h₂ =>
      have hdec := (hdecode r rfl).openEnded h₀ (by omega)
      have hiff := yields_openRange_iff (o := o) huuid hsize hc hlen (hdec m.size) h₁
      simp only [denoted, Unreadable, if_pos h₀, if_neg (by omega : ¬ 0 ≤ r.stop), hiff, hdec]
      unfold maxInt64
      omega
  | @suffix r h₀ h₁ h₂ =>
      obtain ⟨off, hdec, hfits, hlong⟩ :=
        (hdecode r rfl).suffix (by omega) h₁ c.length (by omega)
      have hoff : off.toNat = c.length - r.stop.toNat := by omega
      have hiff := yields_openRange_iff (o := o) huuid hsize hc hlen (by rw [hsize, hdec])
        (by unfold maxInt64; omega)
      rw [hoff] at hiff
      simp only [denoted, Unreadable, if_neg (by omega : ¬ 0 ≤ r.start), if_pos h₁, hiff, hdec]
      omega
  | @whole r h₀ h₁ =>
      have hdec := (hdecode r rfl).whole (by omega) (by omega)
      have hiff := yields_openRange_iff (o := o) huuid hsize hc hlen (hdec m.size) (by decide)
      simp only [denoted, Unreadable, if_neg (by omega : ¬ 0 ≤ r.start),
        if_neg (by omega : ¬ 0 ≤ r.stop), hdec]
      refine iff_of_true (hiff.mpr (Int.le_refl 0)) ?_
      omega

end Open

/-- A volume with one file. -/
def oneFile (uuid : String) (c : List UInt8) : Volume :=
  fun u => if u = uuid then some c else none

/-- The range from the second byte to the second byte, as `Decode` sees it. -/
def middle : RangeOption := ⟨1, 1, fun _ => (1, 1)⟩

theorem middle_documented : middle.Documented where
  explicit _ _ _ := show ((1 : Int), (1 : Int)) = (1, int64 (int64 (1 - 1) + 1)) by decide
  openEnded _ h := absurd h (by decide)
  suffix h := absurd h (by decide)
  whole h := absurd h (by decide)

/-- The middle of three bytes. -/
theorem open_reads_middle :
    Yields (oneFile "u" [1, 2, 3]) ⟨"u", 3, "", "", "", ""⟩ (srvObject.open [.range middle])
      [2] := by
  have hopt : WellFormed (.range middle) := .explicit (by decide) (by decide) (by decide)
  have hdecode : ∀ r, OpenOption.range middle = .range r → r.Documented := by
    intro r hr
    cases hr
    exact middle_documented
  have hfile : oneFile "u" [1, 2, 3] "u" = some [1, 2, 3] := rfl
  refine (open_reads_iff (m := ⟨"u", 3, "", "", "", ""⟩) ?_ rfl hfile ?_ hopt hdecode).mpr ?_
  · decide
  · decide
  · simp [Unreadable, middle, maxInt64]

/-- All bytes up to the largest `int64`, as `Decode` sees it: the length
wraps. -/
def upToMax : RangeOption := ⟨0, maxInt64, fun _ => (0, -maxInt64 - 1)⟩

theorem upToMax_documented : upToMax.Documented where
  explicit _ _ _ :=
    show ((0 : Int), -maxInt64 - 1) = (0, int64 (int64 (maxInt64 - 0) + 1)) by decide
  openEnded _ h := absurd h (by decide)
  suffix h := absurd h (by decide)
  whole h := absurd h (by decide)

/-- A one-byte file read up to the largest `int64`: the client refuses the
length that has wrapped. -/
theorem open_up_to_max :
    WellFormed (.range upToMax) ∧ upToMax.Documented ∧ denoted [1] (.range upToMax) = [1] ∧
      (∃ tr, (srvObject.open [.range upToMax]).Exec tr (.error (.text
          [.lit "brokerrpc: DownloadRange: negative length ", .int (-9223372036854775808)])) ∧
        ∀ x ∈ tr, Serves (oneFile "u" [1]) ⟨"u", 1, "", "", "", ""⟩ x) ∧
      ¬ Yields (oneFile "u" [1]) ⟨"u", 1, "", "", "", ""⟩ (srvObject.open [.range upToMax])
        [1] := by
  have hserves : ∀ x ∈ [(⟨.peek, ⟨"u", 1, "", "", "", ""⟩⟩ : Prog.Answered Eff.Reply),
      ⟨.peek, ⟨"u", 1, "", "", "", ""⟩⟩], Serves (oneFile "u" [1]) ⟨"u", 1, "", "", "", ""⟩ x := by
    intro x hx
    simp only [List.mem_cons, List.not_mem_nil, or_false, or_self] at hx
    subst hx
    rfl
  have hrun : (srvObject.open [.range upToMax]).Exec
      [⟨.peek, ⟨"u", 1, "", "", "", ""⟩⟩, ⟨.peek, ⟨"u", 1, "", "", "", ""⟩⟩]
      (.error (.text
        [.lit "brokerrpc: DownloadRange: negative length ", .int (-9223372036854775808)])) :=
    .step (.step (.refl _))
  have hdenoted : denoted [1] (.range upToMax) = [1] := by
    have htake : ([1] : List UInt8).take (maxInt64 + 1).toNat = [1] :=
      List.take_of_length_le (by decide)
    simpa [denoted, upToMax, show (0 : Int) ≤ maxInt64 by decide] using htake
  refine ⟨.explicit (by decide) (by decide) (by decide), upToMax_documented, hdenoted,
    ⟨_, hrun, hserves⟩, fun h => ?_⟩
  obtain ⟨body, hbody, -⟩ := h _ _ hrun hserves
  cases hbody

end OcuFilestore.Ocufs
