import OcuFilestore.Brokerrpc.UploadBody

/-!
# OcuFilestore.Brokerrpc.FilePart

The file part of an upload's body, over recorded runs of its writer: which
writes were made, what the source returned, and how the two end.

`BodyEnd` says how every run of `writeUploadMultipart` ends, for every source
and every pattern of failing writes.  The goroutine around it closes the
multipart writer in any case; after a source that failed, the closing boundary
stands behind a file part that is short.
-/

namespace OcuFilestore.Brokerrpc

open Prog

/-! ## recorded runs -/

abbrev BodyRun := List (Answered BodyEff.Reply)

/-- The writes of a run, each with its error. -/
def writes (tr : BodyRun) : List (List Token × Option Err) :=
  tr.filterMap fun
    | ⟨.write toks, r⟩ => some (toks, r)
    | ⟨.read _ _, _⟩ => none

/-- The bytes the source returned in a run. -/
def returned (tr : BodyRun) : List UInt8 :=
  tr.flatMap fun
    | ⟨.read xs _, _⟩ => xs
    | ⟨.write _, _⟩ => []

/-- The source was read to its end. -/
def AtEOF (tr : BodyRun) : Prop :=
  ∃ xs r, (⟨.read xs (some (.sentinel .eof)), r⟩ : Answered BodyEff.Reply) ∈ tr

/-- No write of the run failed. -/
def AllWritten (tr : BodyRun) : Prop := ∀ w ∈ writes tr, w.2 = none

section Runs

variable (tr tr' : BodyRun)

@[simp] theorem writes_append : writes (tr ++ tr') = writes tr ++ writes tr' :=
  List.filterMap_append

@[simp] theorem returned_append : returned (tr ++ tr') = returned tr ++ returned tr' :=
  List.flatMap_append

@[simp] theorem writes_read (xs : List UInt8) (e : Option Err) (r : BodyEff.Reply (.read xs e)) :
    writes [⟨.read xs e, r⟩] = [] := rfl

@[simp] theorem writes_write (toks : List Token) (r : Option Err) :
    writes [⟨.write toks, r⟩] = [(toks, r)] := rfl

@[simp] theorem returned_read (xs : List UInt8) (e : Option Err) (r : BodyEff.Reply (.read xs e)) :
    returned [⟨.read xs e, r⟩] = xs := List.append_nil xs

@[simp] theorem returned_write (toks : List Token) (r : Option Err) :
    returned [⟨.write toks, r⟩] = [] := rfl

theorem atEOF_read (xs : List UInt8) (e : Option Err) (r : BodyEff.Reply (.read xs e)) :
    AtEOF (tr ++ [⟨.read xs e, r⟩]) ↔ AtEOF tr ∨ e = some (.sentinel .eof) := by
  constructor
  · rintro ⟨ys, r', h⟩
    rcases List.mem_append.mp h with h | h
    · exact Or.inl ⟨ys, r', h⟩
    · cases List.mem_singleton.mp h
      exact Or.inr rfl
  · rintro (⟨ys, r', h⟩ | rfl)
    · exact ⟨ys, r', List.mem_append_left _ h⟩
    · exact ⟨xs, r, by simp⟩

theorem atEOF_write (toks : List Token) (r : Option Err) :
    AtEOF (tr ++ [⟨.write toks, r⟩]) ↔ AtEOF tr := by
  constructor
  · rintro ⟨ys, r', h⟩
    rcases List.mem_append.mp h with h | h
    · exact ⟨ys, r', h⟩
    · cases List.mem_singleton.mp h
  · rintro ⟨ys, r', h⟩
    exact ⟨ys, r', List.mem_append_left _ h⟩

theorem allWritten_append : AllWritten (tr ++ tr') ↔ AllWritten tr ∧ AllWritten tr' := by
  simp only [AllWritten, writes_append, List.mem_append, or_imp, forall_and]

theorem not_allWritten_failed (toks : List Token) (e : Err) :
    ¬ AllWritten (tr ++ [⟨.write toks, some e⟩]) := by
  rw [allWritten_append]
  simp [AllWritten]

end Runs

/-! ## how the body ends -/

/-- The writes in front of the file part. -/
def headWrites (q : FileUploadRequest) : List (List Token) := (bodyHead q).map ([·])

def chunkWrites (chunks : List (List UInt8)) : List (List Token) :=
  chunks.map (List.map .byte)

/-- How a run of the body writer ends that wrote `front` of the head and the
`chunks` of the file part. -/
structure BodyEnd (q : FileUploadRequest) (n : Nat) (src : Script UInt8 Err) (tr : BodyRun)
    (front : List (List Token)) (chunks : List (List UInt8)) (err : Option Err)
    (mw : MultipartWriter) : Prop where
  writes_eq : (writes tr).map Prod.fst = front ++ chunkWrites chunks
  head : front <+: headWrites q
  head_first : chunks ≠ [] → front = headWrites q
  sizes : ∀ c ∈ chunks, 1 ≤ c.length ∧ c.length ≤ n
  ordered : chunks.flatten <+: returned tr
  source : returned tr <+: src.items
  eof : AtEOF tr → src.err = .sentinel .eof
  nil_iff : err = none ↔ AtEOF tr ∧ AllWritten tr
  complete : AllWritten tr → front = headWrites q ∧ chunks.flatten = src.items ∧
    (src.err = .sentinel .eof → AtEOF tr) ∧ mw.closeLast = none

/-- A run of the writer that is in the file part, with `pending` read and not
yet written. -/
structure Copying (q : FileUploadRequest) (n : Nat) (tr : BodyRun) (chunks : List (List UInt8))
    (pending : List UInt8) : Prop where
  writes_eq : (writes tr).map Prod.fst = headWrites q ++ chunkWrites chunks
  written : AllWritten tr
  sizes : ∀ c ∈ chunks, 1 ≤ c.length ∧ c.length ≤ n
  read : chunks.flatten ++ pending = returned tr

section Copy

variable {q : FileUploadRequest} {n : Nat} {src : Script UInt8 Err} {tr : BodyRun}
variable {chunks : List (List UInt8)} {pending xs : List UInt8} {mw : MultipartWriter}

/-- A read puts a chunk in hand. -/
theorem Copying.read_step (h : Copying q n tr chunks []) (e : Option Err)
    (r : BodyEff.Reply (.read xs e)) : Copying q n (tr ++ [⟨.read xs e, r⟩]) chunks xs where
  writes_eq := by simpa using h.writes_eq
  written := by simpa [allWritten_append, AllWritten] using h.written
  sizes := h.sizes
  read := by simpa using h.read

/-- A write sends the chunk that is in hand. -/
theorem Copying.write_step (h : Copying q n tr chunks xs) (hxs : xs ≠ []) (hlen : xs.length ≤ n) :
    Copying q n (tr ++ [⟨.write (xs.map .byte), none⟩]) (chunks ++ [xs]) [] where
  writes_eq := by
    have := h.writes_eq
    simp [writes_append, this, chunkWrites]
  written := by
    refine (allWritten_append _ _).mpr ⟨h.written, ?_⟩
    simp [AllWritten]
  sizes c hc := by
    rcases List.mem_append.mp hc with hc | hc
    · exact h.sizes c hc
    · rw [List.mem_singleton.mp hc]
      exact ⟨List.length_pos_iff.mpr hxs, hlen⟩
  read := by simpa using h.read

/-- A chunk whose write fails ends the body. -/
theorem Copying.write_failed (h : Copying q n tr chunks xs) (hxs : xs ≠ []) (hlen : xs.length ≤ n)
    (hsrc : returned tr <+: src.items) (heof : AtEOF tr → src.err = .sentinel .eof) (e e' : Err)
    (mw : MultipartWriter) :
    BodyEnd q n src (tr ++ [⟨.write (xs.map .byte), some e⟩]) (headWrites q) (chunks ++ [xs])
      (some e') mw := by
  have hfailed := not_allWritten_failed tr (xs.map .byte) e
  have hok := h.write_step hxs hlen
  exact
    { writes_eq := by simpa using hok.writes_eq
      head := List.prefix_rfl
      head_first := fun _ => rfl
      sizes := hok.sizes
      ordered := by
        have hread := hok.read
        simp only [List.append_nil, returned_append, returned_write] at hread ⊢
        exact hread ▸ List.prefix_rfl
      source := by simpa using hsrc
      eof := fun h => heof ((atEOF_write tr _ _).mp h)
      nil_iff := iff_of_false nofun fun h => hfailed h.2
      complete := fun h => absurd h hfailed }

/-- Write what was read, and go on with nothing pending. -/
theorem recorded_writeChunk {src₀ : Script UInt8 Err}
    {next : MultipartWriter → BodyProg (Option Err × MultipartWriter)}
    (h : Copying q n tr chunks xs) (hlen : xs.length ≤ n) (hsrc : returned tr <+: src₀.items)
    (heof : AtEOF tr → src₀.err = .sentinel .eof)
    (hnext : ∀ tr' chunks', Copying q n tr' chunks' [] → returned tr' = returned tr →
      (AtEOF tr' ↔ AtEOF tr) → (next mw).Keeps recording
        (fun tr res => ∃ front chunks, BodyEnd q n src₀ tr front chunks res.1 res.2) tr') :
    (writeChunk mw xs next).Keeps recording
      (fun tr res => ∃ front chunks, BodyEnd q n src₀ tr front chunks res.1 res.2) tr := by
  unfold writeChunk
  split
  · next hnil =>
      subst hnil
      exact hnext tr chunks h rfl Iff.rfl
  · next hxs =>
      refine ⟨True.intro, fun r => ?_⟩
      cases r with
      | some e => exact ⟨_, _, h.write_failed hxs hlen hsrc heof e _ _⟩
      | none =>
          exact hnext _ _ (h.write_step hxs hlen) (by simp [recording]) (atEOF_write tr _ _)

/-- The end of the copy loop, after the read that ended the source. -/
theorem Copying.finish (h : Copying q n tr chunks []) (hall : returned tr = src.items)
    (heof : AtEOF tr ↔ src.err = .sentinel .eof) (hmw : mw.closeLast = none) {err : Option Err}
    (herr : err = none ↔ src.err = .sentinel .eof) :
    BodyEnd q n src tr (headWrites q) chunks err mw where
  writes_eq := h.writes_eq
  head := List.prefix_rfl
  head_first _ := rfl
  sizes := h.sizes
  ordered := ⟨[], h.read⟩
  source := ⟨[], by rw [hall, List.append_nil]⟩
  eof := heof.mp
  nil_iff := by rw [herr, heof, and_iff_left h.written]
  complete _ := ⟨rfl, by rw [← hall, ← h.read, List.append_nil], heof.mpr, hmw⟩

/-- The copy loop, from a run that has returned the front of the source and
written all of it. -/
theorem recorded_copySource {src₀ : Script UInt8 Err} (hn : 0 < n) (hmw : mw.closeLast = none)
    (h : Copying q n tr chunks []) (hitems : returned tr ++ src.items = src₀.items)
    (herr : src.err = src₀.err) (heof : ¬ AtEOF tr) :
    (copySource n hn mw src).Keeps recording
      (fun tr res => ∃ front chunks, BodyEnd q n src₀ tr front chunks res.1 res.2) tr := by
  fun_induction copySource n hn mw src generalizing tr chunks with
  | case1 mw src xs readErr src' hr =>
      have hlen := src.length_read_le n
      have hend := Script.read_some (s := src) (n := n) (e := readErr) (by rw [hr])
      rw [hr] at hend hlen
      obtain ⟨rfl, hxs, -⟩ := hend
      dsimp only at hxs hlen
      refine ⟨True.intro, fun r => ?_⟩
      have hall : returned (tr ++ [⟨.read xs (some src.err), r⟩]) = src₀.items := by
        rw [returned_append, returned_read, hxs, hitems]
      have hat : AtEOF (tr ++ [⟨.read xs (some src.err), r⟩]) ↔ src₀.err = .sentinel .eof := by
        rw [atEOF_read, ← herr]
        simp [heof]
      refine recorded_writeChunk (h.read_step _ r) hlen (hall ▸ List.prefix_rfl) hat.mp ?_
      intro tr' chunks' hcopy hret hat'
      have hfinish : ∀ {err : Option Err}, (err = none ↔ src₀.err = .sentinel .eof) →
          BodyEnd q n src₀ tr' (headWrites q) chunks' err mw :=
        hcopy.finish (hret.trans hall) (hat'.trans hat) hmw
      split
      · next he => exact ⟨_, _, hfinish (by simp [← herr, he])⟩
      · next he => exact ⟨_, _, hfinish (by simp [← herr, he])⟩
  | case2 mw src xs src' hr ih =>
      have hlen := src.length_read_le n
      have hread := src.read_items n
      have herr' := src.read_err n
      rw [hr] at hlen hread herr'
      refine ⟨True.intro, fun r => ?_⟩
      have hrest : returned (tr ++ [⟨.read xs none, r⟩]) ++ src'.items = src₀.items := by
        rw [returned_append, returned_read, List.append_assoc, ← hread, hitems]
      have hat : ¬ AtEOF (tr ++ [⟨.read xs none, r⟩]) := by
        rw [atEOF_read]
        simp [heof]
      refine recorded_writeChunk (h.read_step _ r) hlen ⟨_, hrest⟩ (fun h => absurd h hat) ?_
      intro tr' chunks' hcopy hret hat'
      exact ih mw hmw hcopy (hret ▸ hrest) (herr'.trans herr) (mt hat'.mp hat)

/-- A write of the head that fails ends the body. -/
theorem bodyEnd_head_failed {toks : List Token} (hret : returned tr = []) (heof : ¬ AtEOF tr)
    (hhead : (writes tr).map Prod.fst ++ [toks] <+: headWrites q) (e e' : Err)
    (mw : MultipartWriter) :
    BodyEnd q n src (tr ++ [⟨.write toks, some e⟩]) ((writes tr).map Prod.fst ++ [toks]) []
      (some e') mw := by
  have hfailed := not_allWritten_failed tr toks e
  exact
    { writes_eq := by simp [chunkWrites]
      head := hhead
      head_first := fun h => absurd rfl h
      sizes := nofun
      ordered := List.nil_prefix
      source := by simp [hret]
      eof := fun h => absurd ((atEOF_write tr _ _).mp h) heof
      nil_iff := iff_of_false nofun fun h => hfailed h.2
      complete := fun h => absurd h hfailed }

/-- How the body ends, from the start. -/
theorem recorded_writeUploadMultipart (q : FileUploadRequest) (src : Script UInt8 Err)
    (ceiling : Int) :
    (writeUploadMultipart ⟨none⟩ q src ceiling).Keeps recording
      (fun tr res => ∃ front chunks,
        BodyEnd q (sourceChunkSize ceiling) src tr front chunks res.1 res.2) [] := by
  have hnone : ∀ ws : List (List Token), ¬ AtEOF (ws.map fun toks => ⟨.write toks, none⟩) := by
    rintro ws ⟨xs, r, h⟩
    obtain ⟨toks, -, heq⟩ := List.mem_map.mp h
    cases heq
  refine ⟨True.intro, fun r => ?_⟩
  cases r with
  | some e =>
      exact ⟨_, _, bodyEnd_head_failed rfl (hnone []) ⟨_, rfl⟩ e _ _⟩
  | none =>
      refine ⟨True.intro, fun r => ?_⟩
      cases r with
      | some e =>
          exact ⟨_, _, bodyEnd_head_failed rfl (hnone [[.formField "params"]]) ⟨_, rfl⟩ e _ _⟩
      | none =>
          refine ⟨True.intro, fun r => ?_⟩
          cases r with
          | some e =>
              exact ⟨_, _, bodyEnd_head_failed rfl
                (hnone [[.formField "params"], [.params q]]) ⟨_, rfl⟩ e _ _⟩
          | none =>
              have hcopy : Copying q (sourceChunkSize ceiling)
                  ((headWrites q).map fun toks => ⟨.write toks, none⟩) [] [] :=
                ⟨rfl, by simp [AllWritten, writes, headWrites, bodyHead], nofun, rfl⟩
              exact recorded_copySource (sourceChunkSize_pos ceiling) rfl hcopy rfl rfl
                (hnone (headWrites q))

end Copy

/-- Every program of the writer has a run with any given results of its
writes. -/
theorem exists_exec_writes {α : Type} (p : BodyProg α) (results : Nat → Option Err) :
    ∃ tr a, p.Exec tr a ∧
      (writes tr).map Prod.snd = (List.range (writes tr).length).map results := by
  induction p generalizing results with
  | ret a => exact ⟨[], a, .refl _, rfl⟩
  | op e k ih =>
      cases e with
      | read xs err =>
          obtain ⟨tr, a, hrun, hw⟩ := ih () results
          exact ⟨⟨.read xs err, ()⟩ :: tr, a, .step hrun, hw⟩
      | write toks =>
          obtain ⟨tr, a, hrun, hw⟩ := ih (results 0) fun i => results (i + 1)
          refine ⟨⟨.write toks, results 0⟩ :: tr, a, .step hrun, ?_⟩
          show (results 0 :: (writes tr).map Prod.snd) =
            (List.range ((writes tr).length + 1)).map results
          rw [hw, List.range_succ_eq_map, List.map_cons, List.map_map]
          rfl

/-- A run whose results are all successes has no failed write. -/
theorem allWritten_of_results {tr : BodyRun}
    (h : (writes tr).map Prod.snd = (List.range (writes tr).length).map fun _ => none) :
    AllWritten tr := by
  intro w hw
  have hmem : w.2 ∈ (writes tr).map Prod.snd := List.mem_map_of_mem hw
  rw [h] at hmem
  obtain ⟨-, -, hnone⟩ := List.mem_map.mp hmem
  exact hnone.symm

/-- **The body writer**, for every source, ceiling and pattern of failing
writes: the writes to the file part are the bytes the source returned, in
order, each of one byte up to the ceiling; the head with the params of the
upload stands in front of them; and the writer returns nil exactly if the
source came to its end and no write failed, and then all of the source is in
the file part.  The writer gives up for no other reason: if no write fails, it
does write all of the source, and returns nil if the source ends in EOF.
Every pattern has a run. -/
theorem writeUploadMultipart_fileParts (fsID : String) (path : Path) (totalBytes : Int)
    (overwrite : Bool) (am : AuthorizationMetadata) (src : Script UInt8 Err) (ceiling : Int) :
    (∀ tr err mw, (writeUploadMultipart ⟨none⟩ ⟨fsID, path, totalBytes, overwrite, am⟩ src
        ceiling).Exec tr (err, mw) →
      ∃ front chunks, (writes tr).map Prod.fst = front ++ chunkWrites chunks ∧
        front <+: [[.formField "params"], [.params ⟨fsID, path, totalBytes, overwrite, am⟩],
          [.formFile "file" "upload"]] ∧
        (chunks ≠ [] → front = [[.formField "params"],
          [.params ⟨fsID, path, totalBytes, overwrite, am⟩], [.formFile "file" "upload"]]) ∧
        (∀ c ∈ chunks, 1 ≤ c.length ∧ (c.length : Int) ≤ max 1 ceiling) ∧
        chunks.flatten <+: returned tr ∧ returned tr <+: src.items ∧
        (err = none ↔ AtEOF tr ∧ ∀ w ∈ writes tr, w.2 = none) ∧
        (err = none → chunks.flatten = src.items) ∧
        ((∀ w ∈ writes tr, w.2 = none) →
          chunks.flatten = src.items ∧ (src.err = .sentinel .eof → err = none))) ∧
    ∀ results : Nat → Option Err, ∃ tr res,
      (writeUploadMultipart ⟨none⟩ ⟨fsID, path, totalBytes, overwrite, am⟩ src
        ceiling).Exec tr res ∧
      (writes tr).map Prod.snd = (List.range (writes tr).length).map results := by
  refine ⟨fun tr err mw h => ?_, exists_exec_writes _⟩
  obtain ⟨front, chunks, hend⟩ := (recorded_writeUploadMultipart _ src ceiling).exec h
  rw [List.nil_append] at hend
  refine ⟨front, chunks, hend.writes_eq, hend.head, hend.head_first, fun c hc => ?_, hend.ordered,
    hend.source, hend.nil_iff, fun herr => (hend.complete (hend.nil_iff.mp herr).2).2.1,
    fun hw => ?_⟩
  · obtain ⟨hpos, hle⟩ := hend.sizes c hc
    refine ⟨hpos, ?_⟩
    unfold sourceChunkSize at hle
    split at hle <;> omega
  · obtain ⟨-, hitems, heof, -⟩ := hend.complete hw
    exact ⟨hitems, fun herr => hend.nil_iff.mpr ⟨heof herr, hw⟩⟩

/-- With a ceiling of zero the bytes are written one by one, all three of
them. -/
theorem writeUploadMultipart_fileParts_zero :
    ∃ tr mw front chunks,
      (writeUploadMultipart ⟨none⟩ ⟨"fs", "/a".toList, 3, true, Client.authMeta .fileUpload⟩
        (.chunk [] (.last [1, 2, 3] (.sentinel .eof))) 0).Exec tr (none, mw) ∧
      (writes tr).map Prod.fst = front ++ chunkWrites chunks ∧ chunks.flatten = [1, 2, 3] ∧
      ∀ c ∈ chunks, c.length = 1 := by
  obtain ⟨hall, hex⟩ := writeUploadMultipart_fileParts "fs" "/a".toList 3 true
    (Client.authMeta .fileUpload) (.chunk [] (.last [1, 2, 3] (.sentinel .eof))) 0
  obtain ⟨tr, ⟨err, mw⟩, hrun, hresults⟩ := hex fun _ => none
  obtain ⟨front, chunks, hw, -, -, hsize, -, -, -, -, hall⟩ := hall tr err mw hrun
  obtain ⟨hitems, hnil⟩ := hall (allWritten_of_results hresults)
  obtain rfl := hnil rfl
  refine ⟨tr, mw, front, chunks, hrun, hw, hitems, fun c hc => ?_⟩
  obtain ⟨hpos, hle⟩ := hsize c hc
  omega

/-! ## the closing boundary -/

/-- The pipe takes nothing after a write that failed. -/
def Piped (tr : BodyRun) : Prop :=
  (writes tr).Pairwise fun w w' => w.2 ≠ none → w'.2 ≠ none

/-- The closing boundary is in the request body. -/
def Closed (tr : BodyRun) : Prop := ([.closing], none) ∈ writes tr

def Token.byte? : Token → Option UInt8
  | .byte b => some b
  | _ => none

/-- The bytes that were written to the file part. -/
def fileBytes (tr : BodyRun) : List UInt8 :=
  (writes tr).flatMap fun w => if w.2 = none then w.1.filterMap Token.byte? else []

section Closing

variable {q : FileUploadRequest} {n : Nat} {src : Script UInt8 Err} {tr : BodyRun}
variable {front : List (List Token)} {chunks : List (List UInt8)} {err : Option Err}
variable {mw : MultipartWriter}

/-- A run of the goroutine: the body, then the closing boundary unless the
open part carries an error. -/
theorem exec_bodyWriter {ceiling : Int} {r : Option Err}
    (h : (bodyWriter q src ceiling).Exec tr r) :
    ∃ tr₁ tr₂ front chunks err mw,
      BodyEnd q (sourceChunkSize ceiling) src tr₁ front chunks err mw ∧ tr = tr₁ ++ tr₂ ∧
      (mw.closeLast = none ∧ (∃ cerr : Option Err, tr₂ = [⟨.write [.closing], cerr⟩]) ∨
        mw.closeLast ≠ none ∧ tr₂ = []) := by
  obtain ⟨tr₁, tr₂, ⟨err, mw⟩, rfl, h₁, h₂⟩ := Prog.exec_bind h
  obtain ⟨front, chunks, hend⟩ := (recorded_writeUploadMultipart q src ceiling).exec h₁
  obtain ⟨tr₃, tr₄, cerr, rfl, h₃, h₄⟩ := Prog.exec_bind h₂
  have h₄nil : tr₄ = [] := by
    cases err <;> exact (Prog.exec_ret h₄).1
  refine ⟨tr₁, tr₃, front, chunks, err, mw, hend, by rw [h₄nil, List.append_nil], ?_⟩
  unfold MultipartWriter.close at h₃
  cases hmw : mw.closeLast with
  | some e =>
      rw [hmw] at h₃
      exact Or.inr ⟨nofun, (Prog.exec_ret h₃).1⟩
  | none =>
      rw [hmw] at h₃
      obtain ⟨r', tr', rfl, hret⟩ := Prog.exec_op h₃
      obtain ⟨rfl, -⟩ := Prog.exec_ret hret
      exact Or.inl ⟨rfl, r', rfl⟩

/-- The body itself has no closing boundary. -/
theorem BodyEnd.not_closed (h : BodyEnd q n src tr front chunks err mw) : ¬ Closed tr := by
  intro hmem
  have hfst : [Token.closing] ∈ front ++ chunkWrites chunks := by
    rw [← h.writes_eq]
    exact List.mem_map_of_mem hmem
  rcases List.mem_append.mp hfst with hf | hc
  · have := h.head.subset hf
    simp [headWrites, bodyHead] at this
  · obtain ⟨c, -, heq⟩ := List.mem_map.mp hc
    cases c <;> simp at heq

/-- When no write fails, the file's bytes are all that was written. -/
theorem fileBytes_of_allWritten (h : AllWritten tr) :
    fileBytes tr = ((writes tr).map Prod.fst).flatMap (List.filterMap Token.byte?) := by
  rw [fileBytes, List.flatMap_map, List.flatMap_def, List.flatMap_def]
  congr 1
  exact List.map_congr_left fun w hw => if_pos (h w hw)

theorem filterMap_chunkWrites (chunks : List (List UInt8)) :
    (chunkWrites chunks).flatMap (List.filterMap Token.byte?) = chunks.flatten := by
  induction chunks with
  | nil => rfl
  | cons c chunks ih =>
      have hc : (c.map Token.byte).filterMap Token.byte? = c := by
        rw [List.filterMap_map]
        exact List.filterMap_some
      show _ ++ (chunkWrites chunks).flatMap _ = _
      rw [hc, ih, List.flatten_cons]

/-- A body that is written in full carries the whole source. -/
theorem BodyEnd.fileBytes_eq (h : BodyEnd q n src tr front chunks err mw) (hw : AllWritten tr) :
    fileBytes tr = src.items := by
  obtain ⟨rfl, hitems, -⟩ := h.complete hw
  rw [fileBytes_of_allWritten hw, h.writes_eq, List.flatMap_append, filterMap_chunkWrites, hitems]
  rfl

theorem piped_of_allWritten (h : AllWritten tr) : Piped tr :=
  List.pairwise_iff_forall_sublist.mpr fun hsub hne =>
    absurd (h _ (hsub.subset List.mem_cons_self)) hne

/-- Behind a write that the pipe took every earlier one was taken. -/
theorem allWritten_of_piped {toks : List Token}
    (h : Piped (tr ++ [⟨.write toks, none⟩])) : AllWritten tr := by
  intro w hw
  rw [Piped, writes_append, writes_write, List.pairwise_append] at h
  exact Decidable.byContradiction fun hne => h.2.2 w hw _ (List.mem_singleton.mpr rfl) hne rfl

/-- Every body can be written in full. -/
theorem exists_exec_allWritten {α : Type} (p : BodyProg α) :
    ∃ tr a, p.Exec tr a ∧ AllWritten tr := by
  obtain ⟨tr, a, hrun, hres⟩ := exists_exec_writes p fun _ => none
  exact ⟨tr, a, hrun, allWritten_of_results hres⟩

/-- Where the pipe takes every write, the body is closed whatever the source
did. -/
theorem closed_of_allWritten {ceiling : Int} {r : Option Err}
    (h : (bodyWriter q src ceiling).Exec tr r) (hok : AllWritten tr) :
    ∃ tr₁ front chunks err mw,
      BodyEnd q (sourceChunkSize ceiling) src tr₁ front chunks err mw ∧ AllWritten tr₁ ∧
      tr = tr₁ ++ [⟨.write [.closing], none⟩] := by
  obtain ⟨tr₁, tr₂, front, chunks, err, mw, hend, rfl, hclose⟩ := exec_bodyWriter h
  obtain ⟨hok₁, hok₂⟩ := (allWritten_append _ _).mp hok
  refine ⟨tr₁, front, chunks, err, mw, hend, hok₁, ?_⟩
  rcases hclose with ⟨-, cerr, rfl⟩ | ⟨hne, -⟩
  · obtain rfl : cerr = none := hok₂ ([.closing], cerr) (List.mem_singleton.mpr rfl)
    rfl
  · exact absurd (hend.complete hok₁).2.2.2 hne

theorem closed_write : Closed (tr ++ [⟨.write [.closing], none⟩]) := by
  simp [Closed]

theorem fileBytes_closing : fileBytes (tr ++ [⟨.write [.closing], none⟩]) = fileBytes tr := by
  rw [fileBytes, writes_append, List.flatMap_append]
  exact List.append_nil _

end Closing

/-- **The closing boundary**: it is in the request body only behind a source
that was read to its end and written as a whole exactly when the source does
come to its end.  Behind a source that fails it is written as well. -/
theorem closing_complete_iff (q : FileUploadRequest) (src : Script UInt8 Err) (ceiling : Int) :
    (∀ tr r, (bodyWriter q src ceiling).Exec tr r → Piped tr → Closed tr →
      AtEOF tr ∧ fileBytes tr = src.items) ↔ src.err = .sentinel .eof := by
  constructor
  · intro hall
    -- the run in which the pipe takes every write
    obtain ⟨tr, r, hrun, hok⟩ := exists_exec_allWritten (bodyWriter q src ceiling)
    obtain ⟨tr₁, front, chunks, err, mw, hend, -, rfl⟩ := closed_of_allWritten hrun hok
    have heof := (hall _ r hrun (piped_of_allWritten hok) closed_write).1
    exact hend.eof ((atEOF_write _ _ _).mp heof)
  · intro heof tr r hrun hpipe hclosed
    obtain ⟨tr₁, tr₂, front, chunks, err, mw, hend, rfl, hclose⟩ := exec_bodyWriter hrun
    rcases hclose with ⟨-, cerr, rfl⟩ | ⟨-, rfl⟩
    · obtain rfl : cerr = none := by
        rw [Closed, writes_append, writes_write, List.mem_append] at hclosed
        rcases hclosed with hin | hin
        · exact absurd hin hend.not_closed
        · exact (Prod.mk.inj (List.mem_singleton.mp hin)).2.symm
      have hok := allWritten_of_piped hpipe
      obtain ⟨-, -, hat, -⟩ := hend.complete hok
      exact ⟨(atEOF_write _ _ _).mpr (hat heof), fileBytes_closing.trans (hend.fileBytes_eq hok)⟩
    · rw [List.append_nil] at hclosed
      exact absurd hclosed hend.not_closed

/-- The source gives one of its three declared bytes and fails.  The pipe takes
everything that is written, and the closing boundary is written behind the
one byte. -/
theorem closing_after_read_error :
    ∃ tr r, (bodyWriter ⟨"fs", "/a".toList, 3, true, Client.authMeta .fileUpload⟩
        (.last [1] (.text [.lit "input/output error"])) 4).Exec tr r ∧
      Piped tr ∧ Closed tr ∧ ¬ AtEOF tr ∧ fileBytes tr = [1] := by
  obtain ⟨tr, r, hrun, hok⟩ := exists_exec_allWritten (bodyWriter
    ⟨"fs", "/a".toList, 3, true, Client.authMeta .fileUpload⟩
    (.last [1] (.text [.lit "input/output error"])) 4)
  obtain ⟨tr₁, front, chunks, err, mw, hend, hok₁, rfl⟩ := closed_of_allWritten hrun hok
  refine ⟨_, r, hrun, piped_of_allWritten hok, closed_write, fun heof => ?_,
    fileBytes_closing.trans (hend.fileBytes_eq hok₁)⟩
  exact absurd (hend.eof ((atEOF_write _ _ _).mp heof)) (by decide)

end OcuFilestore.Brokerrpc
