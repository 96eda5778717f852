import OcuFilestore.Brokerrpc.UploadBody
import OcuFilestore.Lib.System

/-!
# OcuFilestore.Brokerrpc.UploadProtocol

An upload as three parties that run side by side (`Upload`,
`internal/brokerrpc/upload.go`): the goroutine that writes the body into a
pipe, the caller that runs the HTTP round trip and then waits for the
goroutine, and a broker that receives the body over the network.

The broker may answer at any time.  It commits only a completely received,
closed file part of the declared length, and answers 2xx only after a commit.
The transport may stop reading the body at any time and then closes the pipe.
It fails of its own accord only before it has an answer, and hands an answer
it has to the caller, with one exception: the goroutine closes its end of the
pipe with the error it ended with, and a transport that reads this error from
the pipe fails with it, an answer or not.

`upload_sound_iff` is the protocol's soundness: what success means, what a
commit can contain, and for which sources a refusal is always reported as
such.
-/

namespace OcuFilestore.Brokerrpc

/-! ## the system -/

/-- Where the caller is. -/
inductive Caller where
  /-- Building the HTTP request. -/
  | building
  /-- In the round trip. -/
  | doing
  /-- The round trip is over; the goroutine's result is awaited. -/
  | awaiting (trip : Exchange Unit)
  | returned (r : Except Err Unit)

structure UploadState where
  /-- What is left of the goroutine; a write under way holds the tokens that
  are still to be taken from it. -/
  writer : BodyProg (Option Err)
  /-- The error the read end of the pipe was closed with. -/
  closed : Option Err
  /-- What the write end of the pipe was closed with: no error is the end of
  the body. -/
  ended : Option (Option Err)
  /-- What the transport has taken from the pipe and the broker not yet. -/
  inFlight : List Token
  received : List Token
  committed : Option (List UInt8)
  /-- What the broker has answered, whether or not the caller has it. -/
  replied : Option HttpResp
  caller : Caller
  /-- What the source has handed out so far. -/
  delivered : List UInt8

/-- What the broker gets to see of the body, now or later. -/
def UploadState.sent (s : UploadState) : List Token := s.received ++ s.inFlight

inductive UploadStep : UploadState → UploadState → Prop
  -- the goroutine
  | srcRead {s : UploadState} {xs : List UInt8} {e : Option Err}
      {k : Unit → BodyProg (Option Err)} (h : s.writer = .op (.read xs e) k) :
      UploadStep s { s with writer := k (), delivered := s.delivered ++ xs }
  | writeDone {s : UploadState} {k : Option Err → BodyProg (Option Err)}
      (h : s.writer = .op (.write []) k) : UploadStep s { s with writer := k none }
  | writeFail {s : UploadState} {t : Token} {ts : List Token} {e : Err}
      {k : Option Err → BodyProg (Option Err)} (h : s.writer = .op (.write (t :: ts)) k)
      (hclosed : s.closed = some e) : UploadStep s { s with writer := k (some e) }
  -- `pw.CloseWithError(err)`; only then is the error sent to the caller
  | closeWriter {s : UploadState} {writeErr : Option Err} (h : s.writer = .ret writeErr)
      (hopen : s.ended = none) : UploadStep s { s with ended := some writeErr }
  -- the transport
  | take {s : UploadState} {t : Token} {ts : List Token}
      {k : Option Err → BodyProg (Option Err)} (h : s.writer = .op (.write (t :: ts)) k)
      (hopen : s.closed = none) (hcaller : s.caller ≠ .building) :
      UploadStep s { s with writer := .op (.write ts) k, inFlight := s.inFlight ++ [t] }
  | closeBody {s : UploadState} (hcaller : s.caller ≠ .building) (hopen : s.closed = none) :
      UploadStep s { s with closed := some (.sentinel .errClosedPipe) }
  | deliver {s : UploadState} {t : Token} {ts : List Token} (h : s.inFlight = t :: ts) :
      UploadStep s { s with inFlight := ts, received := s.received ++ [t] }
  | fail {s : UploadState} (e : Err) (h : s.caller = .doing) (hnone : s.replied = none) :
      UploadStep s { s with caller := .awaiting (.failed e) }
  -- the body cannot be read on: the round trip fails with the error of the
  -- body in its text
  | abort {s : UploadState} {e : Err} (text : List Frag) (h : s.caller = .doing)
      (hopen : s.closed = none) (hended : s.ended = some (some e)) :
      UploadStep s { s with caller := .awaiting (.failed (.wrap text e [])) }
  | handOver {s : UploadState} {resp : HttpResp} (h : s.caller = .doing)
      (hreply : s.replied = some resp) :
      UploadStep s { s with caller := .awaiting (.replied resp ()) }
  -- the broker
  | commit {s : UploadState} {q : FileUploadRequest} {content : List UInt8}
      (hnone : s.committed = none) (hbody : s.received = completeBody q content)
      (hlen : (content.length : Int) = q.declaredSizeBytes) :
      UploadStep s { s with committed := some content }
  | reply {s : UploadState} (resp : HttpResp) (h : s.caller = .doing) (hnone : s.replied = none)
      (hok : nonSuccess resp.status = false → s.committed ≠ none) :
      UploadStep s { s with replied := some resp }
  -- the caller
  | notBuilt {s : UploadState} (e : Err) (h : s.caller = .building) :
      UploadStep s { s with caller := .awaiting (.notBuilt e), closed := some e }
  | built {s : UploadState} (h : s.caller = .building) : UploadStep s { s with caller := .doing }
  | ret {s : UploadState} {trip : Exchange Unit} {writeErr : Option Err}
      (hcaller : s.caller = .awaiting trip) (hended : s.ended = some writeErr) :
      UploadStep s { s with caller := .returned (uploadResult ⟨trip, writeErr⟩) }

/-- The request of an upload. -/
def Client.uploadRequest (c : Client) (path : Path) (totalBytes : Int) (overwrite : Bool) :
    FileUploadRequest :=
  ⟨c.fsID, path, totalBytes, overwrite, Client.authMeta .fileUpload⟩

/-- The runs of one upload. -/
def uploads (c : Client) (path : Path) (src : Script UInt8 Err) (totalBytes : Int)
    (overwrite : Bool) : System UploadState where
  init s := s = ⟨bodyWriter (c.uploadRequest path totalBytes overwrite) src c.messageCeiling, none,
    none, [], [], none, none, .building, []⟩
  step := UploadStep

/-- It is the request that `upload` posts, and the same end of it. -/
theorem upload_eq (c : Client) (path : Path) (totalBytes : Int) (overwrite : Bool) :
    c.upload path totalBytes overwrite =
      .op ⟨c, .fileUpload (c.uploadRequest path totalBytes overwrite)⟩
        fun x => .ret (uploadResult x) := by
  rw [Client.upload, Client.stamped_eq]
  rfl

/-! ## the body on the wire -/

section Wire

variable {q q' : FileUploadRequest} {items content : List UInt8} {last : Err}
variable {s s' : UploadState}

/-- The writer keeps its rule from here on, and the closing boundary is on
the wire only behind the whole source.  Once a write has failed the pipe is
closed for good. -/
def UploadState.OnWire (q : FileUploadRequest) (items : List UInt8) (last : Err)
    (s : UploadState) : Prop :=
  ClosedLast q items s.sent s.delivered ∧
    (s.writer.Keeps (bodyMonitor q items) (EndsClean last) (.live s.sent s.delivered) ∨
      s.closed ≠ none ∧
        s.writer.Keeps (bodyMonitor q items) (EndsClean last) (.dead s.delivered))

/-- A read keeps within the source, so after the whole source it is empty. -/
theorem delivered_of_keeps {xs : List UInt8} {e : Option Err} {k : Unit → BodyProg (Option Err)}
    (hs : s.OnWire q items last) (hw : s.writer = .op (.read xs e) k) :
    s.delivered ++ xs <+: items ∧
      (k ()).Keeps (bodyMonitor q items) (EndsClean last) (.live s.sent (s.delivered ++ xs)) := by
  obtain ⟨-, hlive | ⟨-, hdead⟩⟩ := hs
  · rw [hw] at hlive
    exact ⟨hlive.1, hlive.2 ()⟩
  · rw [hw] at hdead
    exact hdead.1.elim

theorem append_eq_of_prefix {xs : List UInt8} (h : items ++ xs <+: items) : xs = [] := by
  have hlen := h.length_le
  rw [List.length_append] at hlen
  exact List.eq_nil_of_length_eq_zero (by omega)

/-- One token of a write taken: the rest of the write keeps the rule. -/
theorem keeps_taken {t : Token} {ts : List Token} {k : Option Err → BodyProg (Option Err)}
    {sent : List Token} {delivered : List UInt8}
    (h : Prog.Keeps (bodyMonitor q items) (EndsClean last) (.live sent delivered)
      (.op (.write (t :: ts)) k)) :
    ClosedLast q items (sent ++ [t]) delivered ∧
      Prog.Keeps (bodyMonitor q items) (EndsClean last) (.live (sent ++ [t]) delivered)
        (.op (.write ts) k) := by
  obtain ⟨hok, hnext⟩ := h
  refine ⟨hok [t] ⟨ts, rfl⟩, fun front hfront => ?_, fun r => ?_⟩
  · have hcons := hok (t :: front) (List.cons_prefix_cons.mpr ⟨rfl, hfront⟩)
    rwa [List.append_cons] at hcons
  · cases r with
    | none =>
        have hdone := hnext none
        rwa [bodyMonitor_written, List.append_cons] at hdone
    | some e => exact hnext (some e)

/-- Every step keeps the wire as it should be. -/
theorem onWire_step (h : UploadStep s s') (hs : s.OnWire q items last) :
    s'.OnWire q items last := by
  cases h with
  | srcRead hw =>
      obtain ⟨hpre, hk⟩ := delivered_of_keeps hs hw
      refine ⟨fun hmem => ?_, .inl hk⟩
      obtain ⟨hsent, hall⟩ := hs.1 hmem
      rw [hall] at hpre
      exact ⟨hsent, by simp [hall, append_eq_of_prefix hpre]⟩
  | writeDone hw =>
      obtain ⟨hlast, hkeeps⟩ := hs
      rw [hw] at hkeeps
      refine ⟨hlast, hkeeps.imp (fun hlive => ?_) fun hdead => ⟨hdead.1, hdead.2.2 none⟩⟩
      have hdone := hlive.2 none
      rwa [bodyMonitor_written, List.append_nil] at hdone
  | writeFail hw hclosed =>
      obtain ⟨hlast, hkeeps⟩ := hs
      rw [hw] at hkeeps
      refine ⟨hlast, .inr ⟨by simp [hclosed], ?_⟩⟩
      rcases hkeeps with hlive | ⟨-, hdead⟩
      · exact hlive.2 (some _)
      · exact hdead.2 (some _)
  | take hw hopen hcaller =>
      obtain ⟨-, hlive | ⟨hclosed, -⟩⟩ := hs
      · rw [hw] at hlive
        have htaken := keeps_taken hlive
        simp only [UploadState.OnWire, UploadState.sent, ← List.append_assoc] at htaken ⊢
        exact ⟨htaken.1, .inl htaken.2⟩
      · exact absurd hopen hclosed
  | closeBody hcaller hopen => exact ⟨hs.1, hs.2.imp id fun h => ⟨by simp, h.2⟩⟩
  | @deliver t ts hw =>
      have hsent : s.sent = (s.received ++ [t]) ++ ts := by
        rw [UploadState.sent, hw, List.append_cons]
      rw [UploadState.OnWire, hsent] at hs
      exact hs
  | notBuilt e hcaller => exact ⟨hs.1, hs.2.imp id fun h => ⟨by simp, h.2⟩⟩
  | _ => exact hs

/-- The source hands out nothing after its last byte. -/
theorem delivered_step (h : UploadStep s s') (hs : s.OnWire q items last)
    (hall : s.delivered = items) : s'.delivered = items := by
  cases h with
  | srcRead hw =>
      obtain ⟨hpre, -⟩ := delivered_of_keeps hs hw
      rw [hall] at hpre
      simp [hall, append_eq_of_prefix hpre]
  | _ => exact hall

/-- The file part of a body ends at its first closing boundary. -/
theorem content_of_closing {xs ys : List UInt8} {rest : List Token}
    (h : xs.map Token.byte ++ .closing :: rest = ys.map Token.byte ++ [.closing]) : xs = ys := by
  induction xs generalizing ys with
  | nil =>
      cases ys with
      | nil => rfl
      | cons y ys => simp at h
  | cons x xs ih =>
      cases ys with
      | nil => simp at h
      | cons y ys =>
          simp only [List.map_cons, List.cons_append, List.cons.injEq, Token.byte.injEq] at h
          rw [h.1, ih h.2]

/-- A broker that has a complete body has the whole source. -/
theorem received_of_complete (hs : s.OnWire q items last)
    (h : s.received = completeBody q' content) :
    q' = q ∧ content = items ∧ s.delivered = items := by
  have hmem : Token.closing ∈ s.sent := by simp [UploadState.sent, h, completeBody]
  obtain ⟨hsent, hall⟩ := hs.1 hmem
  rw [UploadState.sent, h] at hsent
  simp only [completeBody, bodyHead, List.cons_append, List.nil_append, List.append_assoc,
    List.cons.injEq, Token.params.injEq, true_and] at hsent
  exact ⟨hsent.1, content_of_closing hsent.2, hall⟩

/-! ## commits and replies -/

/-- What a commit means. -/
def UploadState.CommitSound (q : FileUploadRequest) (items : List UInt8) (s : UploadState) : Prop :=
  ∀ content, s.committed = some content →
    content = items ∧ s.delivered = items ∧ (content.length : Int) = q.declaredSizeBytes

/-- A step keeps the commit sound. -/
theorem commitSound_step (h : UploadStep s s') (hs : s.OnWire q items last)
    (hc : s.CommitSound q items) : s'.CommitSound q items := by
  intro content hcontent
  cases h with
  | commit hnone hbody hlen =>
      cases hcontent
      obtain ⟨rfl, rfl, hall⟩ := received_of_complete hs hbody
      exact ⟨rfl, hall, hlen⟩
  | srcRead hw =>
      obtain ⟨hitems, hall, hlen⟩ := hc content hcontent
      exact ⟨hitems, delivered_step (.srcRead hw) hs hall, hlen⟩
  | _ => exact hc content hcontent

/-- A 2xx answer, and a success, come after a commit; an answer that the caller
has was given. -/
structure UploadState.ReplySound (s : UploadState) : Prop where
  committed : ∀ resp, s.replied = some resp → nonSuccess resp.status = false → s.committed ≠ none
  handed : ∀ resp, s.caller = .awaiting (.replied resp ()) → s.replied = some resp
  success : s.caller = .returned (.ok ()) → s.committed ≠ none

/-- A success is a 2xx answer. -/
theorem uploadResult_ok {x : UploadExchange} (h : uploadResult x = .ok ()) :
    ∃ resp, x.trip = .replied resp () ∧ nonSuccess resp.status = false := by
  obtain ⟨trip, writeErr⟩ := x
  cases trip with
  | notBuilt e => cases h
  | failed e => cases h
  | replied resp y =>
      cases hs : nonSuccess resp.status with
      | true => simp [uploadResult, Exchange.result, hs] at h
      | false => exact ⟨resp, rfl, hs⟩

/-- Every step keeps what answers mean. -/
theorem replySound_step (h : UploadStep s s') (hs : s.ReplySound) : s'.ReplySound := by
  cases h with
  | commit hnone hbody hlen => exact ⟨fun _ _ _ => by simp, hs.handed, fun _ => by simp⟩
  | reply resp hcaller hnone hok =>
      refine ⟨fun resp' hresp => ?_, fun resp' hresp => ?_, hs.success⟩
      · cases hresp
        exact hok
      · rw [show s.caller = .awaiting (.replied resp' ()) from hresp] at hcaller
        cases hcaller
  | handOver hcaller hreply =>
      refine ⟨hs.committed, fun resp' hresp => ?_, nofun⟩
      cases hresp
      exact hreply
  | notBuilt e hcaller => exact ⟨hs.committed, nofun, nofun⟩
  | built hcaller => exact ⟨hs.committed, nofun, nofun⟩
  | fail e hcaller hnone => exact ⟨hs.committed, nofun, nofun⟩
  | abort text hcaller hopen hended =>
      exact ⟨hs.committed, nofun, nofun⟩
  | @ret trip writeErr hcaller hended =>
      refine ⟨hs.committed, nofun, fun hr => ?_⟩
      have hok : uploadResult ⟨trip, writeErr⟩ = .ok () := by
        simpa using hr
      obtain ⟨resp, rfl, hstatus⟩ := uploadResult_ok hok
      exact hs.committed resp (hs.handed resp hcaller) hstatus
  | _ => exact ⟨hs.committed, hs.handed, hs.success⟩

/-! ## the end of the body -/

/-- The write end of the pipe is closed with what the goroutine ends with. -/
def UploadState.EndSound (s : UploadState) : Prop :=
  ∀ writeErr, s.ended = some writeErr → s.writer = .ret writeErr

/-- The goroutine does nothing after it has closed the pipe. -/
theorem endSound_step (h : UploadStep s s') (hs : s.EndSound) : s'.EndSound := by
  intro w hended
  have hop : ∀ {e : BodyEff} {k : e.Reply → BodyProg (Option Err)}, s.writer = .op e k →
      s.ended ≠ some w := by
    intro e k hw h
    rw [hs w h] at hw
    cases hw
  cases h with
  | srcRead hw => exact absurd hended (hop hw)
  | writeDone hw => exact absurd hended (hop hw)
  | writeFail hw hclosed => exact absurd hended (hop hw)
  | take hw hopen hcaller => exact absurd hended (hop hw)
  | closeWriter hw hopen =>
      cases hended
      exact hw
  | _ => exact hs w hended

/-- When the source comes to its end, the pipe is closed with an error only
after the transport has stopped reading. -/
theorem closed_of_ended {e : Err} (hlast : last = .sentinel .eof) (hwire : s.OnWire q items last)
    (hs : s.EndSound) (hended : s.ended = some (some e)) : s.closed ≠ none := by
  obtain ⟨-, hlive | ⟨hclosed, -⟩⟩ := hwire
  · rw [hs _ hended] at hlive
    cases hlive hlast
  · exact hclosed

/-- Where the caller can be once the broker has answered and the answer is not
lost. -/
def UploadState.Answered (s : UploadState) : Prop :=
  ∀ resp, s.replied = some resp → s.caller = .doing ∨ s.caller = .awaiting (.replied resp ()) ∨
    ∃ writeErr, s.caller = .returned (uploadResult ⟨.replied resp (), writeErr⟩)

/-- With a source that comes to its end no answer is lost. -/
theorem answered_step (hlast : last = .sentinel .eof) (h : UploadStep s s')
    (hwire : s.OnWire q items last) (hend : s.EndSound) (hs : s.Answered) : s'.Answered := by
  intro resp hreply
  cases h with
  | reply resp' hcaller hnone hok => exact .inl hcaller
  | fail e hcaller hnone =>
      rw [show s.replied = some resp from hreply] at hnone
      cases hnone
  | abort text hcaller hopen hended =>
      exact absurd hopen (closed_of_ended hlast hwire hend hended)
  | handOver hcaller hreply' =>
      cases Option.some.inj (hreply'.symm.trans hreply)
      exact .inr (.inl rfl)
  | notBuilt e hcaller => simpa [hcaller] using hs resp hreply
  | built hcaller => exact .inl rfl
  | @ret trip writeErr hcaller hended =>
      have htrip := hs resp hreply
      simp only [hcaller, reduceCtorEq, Caller.awaiting.injEq, exists_const, or_false,
        false_or] at htrip
      exact .inr (.inr ⟨writeErr, by rw [htrip]⟩)
  | _ => exact hs resp hreply

end Wire

/-! ## the caller always gets its answer -/

/-- With the pipe closed the goroutine comes to its end, and the caller
returns. -/
theorem returns_of_closed {s : UploadState} {trip : Exchange Unit} {e : Err} (hs : s.EndSound)
    (hcaller : s.caller = .awaiting trip) (hclosed : s.closed = some e) :
    ∃ s' r, Relation.ReflTransGen UploadStep s s' ∧ s'.caller = .returned r := by
  induction hw : s.writer generalizing s with
  | ret writeErr =>
      cases hended : s.ended with
      | some writeErr' => exact ⟨_, _, .single (.ret hcaller hended), rfl⟩
      | none =>
          have hret : UploadStep { s with ended := some writeErr } _ := .ret hcaller rfl
          exact ⟨_, _, .head (.closeWriter hw hended) (.single hret), rfl⟩
  | op eff k ih =>
      cases eff with
      | read xs err =>
          have hstep : UploadStep s _ := .srcRead hw
          obtain ⟨s', r, hsteps, hs'⟩ := ih () (endSound_step hstep hs) hcaller hclosed rfl
          exact ⟨s', r, .head hstep hsteps, hs'⟩
      | write toks =>
          cases toks with
          | nil =>
              have hstep : UploadStep s _ := .writeDone hw
              obtain ⟨s', r, hsteps, hs'⟩ := ih none (endSound_step hstep hs) hcaller hclosed rfl
              exact ⟨s', r, .head hstep hsteps, hs'⟩
          | cons t ts =>
              have hstep : UploadStep s _ := .writeFail hw hclosed
              obtain ⟨s', r, hsteps, hs'⟩ :=
                ih (some e) (endSound_step hstep hs) hcaller hclosed rfl
              exact ⟨s', r, .head hstep hsteps, hs'⟩

/-- No deadlock: from every state with the round trip over, the caller can
return. -/
theorem returns_of_awaiting {s : UploadState} {trip : Exchange Unit} (hs : s.EndSound)
    (hcaller : s.caller = .awaiting trip) :
    ∃ s' r, Relation.ReflTransGen UploadStep s s' ∧ s'.caller = .returned r := by
  cases hclosed : s.closed with
  | some e => exact returns_of_closed hs hcaller hclosed
  | none =>
      have hclose : UploadStep s _ := .closeBody (by simp [hcaller]) hclosed
      obtain ⟨s', r, hsteps, hs'⟩ := returns_of_closed (endSound_step hclose hs) hcaller rfl
      exact ⟨s', r, .head hclose hsteps, hs'⟩

/-- An answer that is not lost is handed over, and the caller can return. -/
theorem returns_of_answered {s : UploadState} {resp : HttpResp} (hs : s.EndSound)
    (hanswered : s.Answered) (hreply : s.replied = some resp) :
    ∃ s' r, Relation.ReflTransGen UploadStep s s' ∧ s'.caller = .returned r := by
  rcases hanswered resp hreply with hdoing | hwait | ⟨writeErr, hret⟩
  · have hstep : UploadStep s _ := .handOver hdoing hreply
    obtain ⟨s', r, hsteps, hs'⟩ := returns_of_awaiting (endSound_step hstep hs) rfl
    exact ⟨s', r, .head hstep hsteps, hs'⟩
  · exact returns_of_awaiting hs hwait
  · exact ⟨s, _, .refl, hret⟩

/-! ## an upload that is read to its end -/

section Sending

variable {s : UploadState} (hopen : s.closed = none) (hcaller : s.caller = .doing)
include hopen hcaller

/-- A write goes through when the transport reads on. -/
theorem steps_write {toks : List Token} {k : Option Err → BodyProg (Option Err)}
    (hw : s.writer = .op (.write toks) k) :
    Relation.ReflTransGen UploadStep s
      { s with writer := k none, inFlight := s.inFlight ++ toks } := by
  induction toks generalizing s with
  | nil => simpa using Relation.ReflTransGen.single (UploadStep.writeDone hw)
  | cons t ts ih =>
      have hrest := ih (s := { s with writer := .op (.write ts) k, inFlight := s.inFlight ++ [t] })
        hopen hcaller rfl
      simp only [List.append_assoc, List.singleton_append] at hrest
      exact .head (.take hw hopen (by simp [hcaller])) hrest

/-- So does a chunk of the file part. -/
theorem steps_writeChunk {mw : MultipartWriter} {xs : List UInt8}
    {next : MultipartWriter → BodyProg (Option Err × MultipartWriter)}
    {f : Option Err × MultipartWriter → BodyProg (Option Err)}
    (hw : s.writer = writeChunk mw xs next >>= f) :
    Relation.ReflTransGen UploadStep s
      { s with writer := next mw >>= f, inFlight := s.inFlight ++ xs.map .byte } := by
  unfold writeChunk at hw
  split at hw
  · next hnil =>
      subst hnil
      simp only [List.map_nil, List.append_nil, ← hw]
      exact .refl
  · exact steps_write hopen hcaller hw

/-- What the copy loop makes of the end of the source. -/
def sourceErr (e : Err) : Option Err :=
  if e = .sentinel .eof then none else some (.wrap [.lit "read source: "] e [])

omit hopen hcaller in
/-- The end of the copy loop, as a value. -/
theorem copyEnd_eq (e : Err) (mw : MultipartWriter) :
    (if e = .sentinel .eof then pure (none, mw)
      else pure (some (.wrap [.lit "read source: "] e []), mw) :
        BodyProg (Option Err × MultipartWriter)) = pure (sourceErr e, mw) := by
  unfold sourceErr
  split <;> rfl

/-- The copy loop comes to the end of the source, whatever it is. -/
theorem steps_copySource {n : Nat} {hn : 0 < n} {mw : MultipartWriter} {src : Script UInt8 Err}
    {f : Option Err × MultipartWriter → BodyProg (Option Err)}
    (hw : s.writer = copySource n hn mw src >>= f) :
    Relation.ReflTransGen UploadStep s
      { s with writer := f (sourceErr src.err, mw), inFlight := s.inFlight ++ src.items.map .byte,
               delivered := s.delivered ++ src.items } := by
  fun_induction copySource n hn mw src generalizing s with
  | case1 mw src xs readErr src' hr =>
      have hend := Script.read_some (s := src) (n := n) (e := readErr) (by rw [hr])
      rw [hr] at hend
      obtain ⟨rfl, rfl, -⟩ := hend
      simp only [copyEnd_eq] at hw
      have hchunk := steps_writeChunk (s := { s with
        writer := writeChunk mw src.items (fun mw => pure (sourceErr src.err, mw)) >>= f,
        delivered := s.delivered ++ src.items }) hopen hcaller rfl
      exact .head (.srcRead hw) hchunk
  | case2 mw src xs src' hr ih =>
      have hitems := src.read_items n
      have herr := src.read_err n
      rw [hr] at hitems herr
      have hchunk := steps_writeChunk (s := { s with
        writer := writeChunk mw xs (fun mw => copySource n hn mw src') >>= f,
        delivered := s.delivered ++ xs }) hopen hcaller rfl
      have hrest := ih mw (s := { s with
        writer := copySource n hn mw src' >>= f, inFlight := s.inFlight ++ xs.map .byte,
        delivered := s.delivered ++ xs }) hopen hcaller rfl
      simp only [hitems, ← herr, List.map_append, ← List.append_assoc] at hrest ⊢
      exact .head (.srcRead hw) (hchunk.trans hrest)

end Sending

/-- The network comes to the end of what is in flight. -/
theorem steps_deliver {s : UploadState} :
    Relation.ReflTransGen UploadStep s
      { s with inFlight := [], received := s.received ++ s.inFlight } := by
  induction h : s.inFlight generalizing s with
  | nil =>
      rw [List.append_nil, ← h]
  | cons t ts ih =>
      have hrest := ih (s := { s with inFlight := ts, received := s.received ++ [t] }) rfl
      simp only [List.append_assoc, List.singleton_append] at hrest
      exact .head (.deliver h) hrest

/-- The state with the whole body sent, in which the broker has said nothing
yet. -/
def sentState (q : FileUploadRequest) (src : Script UInt8 Err) : UploadState where
  writer := .ret (sourceErr src.err)
  closed := none
  ended := some (sourceErr src.err)
  inFlight := []
  received := completeBody q src.items
  committed := none
  replied := none
  caller := .doing
  delivered := src.items

/-- Every upload can get as far: the transport reads on, and the closing
boundary is written whatever the source ended in. -/
theorem reachable_sentState (c : Client) (path : Path) (src : Script UInt8 Err) (totalBytes : Int)
    (overwrite : Bool) :
    (uploads c path src totalBytes overwrite).Reachable
      (sentState (c.uploadRequest path totalBytes overwrite) src) := by
  have h₀ := System.Reachable.init (S := uploads c path src totalBytes overwrite) rfl
  have h₁ := h₀.step (.built rfl)
  have h₂ := h₁.trans (steps_write rfl rfl rfl)
  have h₃ := h₂.trans (steps_write rfl rfl rfl)
  have h₄ := h₃.trans (steps_write rfl rfl rfl)
  have h₅ := h₄.trans (steps_copySource rfl rfl rfl)
  have h₆ : (uploads c path src totalBytes overwrite).Reachable
      { sentState (c.uploadRequest path totalBytes overwrite) src with
        ended := none
        inFlight := completeBody (c.uploadRequest path totalBytes overwrite) src.items
        received := [] } := by
    unfold sentState
    cases hend : sourceErr src.err with
    | none =>
        rw [hend] at h₅
        have hclosing := h₅.trans (steps_write rfl rfl rfl)
        exact hclosing
    | some e =>
        rw [hend] at h₅
        have hclosing := h₅.trans (steps_write rfl rfl rfl)
        exact hclosing
  exact (h₆.trans steps_deliver).step (.closeWriter rfl rfl)

/-- Success is possible: an upload of exactly the declared bytes, read to the
end of the source, can go through. -/
theorem exists_success (c : Client) (path : Path) (src : Script UInt8 Err) (overwrite : Bool)
    (heof : src.err = .sentinel .eof) :
    ∃ s, (uploads c path src src.items.length overwrite).Reachable s ∧
      s.caller = .returned (.ok ()) := by
  have h₁ := (reachable_sentState c path src src.items.length overwrite).step (.commit rfl rfl rfl)
  have h₂ := h₁.step (.reply respOk rfl rfl nofun)
  have h₃ := h₂.step (.handOver rfl rfl)
  have hended : sourceErr src.err = none := if_pos heof
  refine ⟨_, h₃.step (.ret rfl rfl), ?_⟩
  rw [hended]
  exact congrArg Caller.returned uploadResult_accepted

/-- A refusal can be lost: the source fails, the broker refuses the body that
was closed behind it, and the round trip fails with the source's error. -/
theorem exists_lost (c : Client) (path : Path) (src : Script UInt8 Err) (totalBytes : Int)
    (overwrite : Bool) (hfault : src.err ≠ .sentinel .eof) (resp : HttpResp)
    (hrefused : nonSuccess resp.status = true) (text : List Frag) :
    ∃ s, (uploads c path src totalBytes overwrite).Reachable s ∧ s.replied = some resp ∧
      s.caller = .returned (.error (.wrap [.lit "brokerrpc: fileUpload: "]
        (.wrap text (.wrap [.lit "read source: "] src.err []) []) [])) := by
  have h₁ := (reachable_sentState c path src totalBytes overwrite).step
    (.reply resp rfl rfl fun h => by rw [hrefused] at h; cases h)
  have hended : sourceErr src.err = some (.wrap [.lit "read source: "] src.err []) := if_neg hfault
  have h₂ := h₁.step (.abort text rfl rfl (congrArg some hended))
  exact ⟨_, h₂.step (.ret rfl rfl), rfl, rfl⟩

/-! ## soundness -/

section Sound

variable (c : Client) (path : Path) (src : Script UInt8 Err) (totalBytes : Int) (overwrite : Bool)

/-- What is on the wire is a part of the body, in every reachable state. -/
theorem reachable_onWire {s : UploadState}
    (h : (uploads c path src totalBytes overwrite).Reachable s) :
    s.OnWire (c.uploadRequest path totalBytes overwrite) src.items src.err := by
  refine h.invariant (fun s hs => ?_) fun s s' _ hs hstep => ?_
  · cases hs
    exact ⟨nofun, .inl (keeps_bodyWriter src c.messageCeiling rfl)⟩
  · exact onWire_step hstep hs

/-- A commit is sound in every reachable state. -/
theorem reachable_commitSound {s : UploadState}
    (h : (uploads c path src totalBytes overwrite).Reachable s) :
    s.CommitSound (c.uploadRequest path totalBytes overwrite) src.items := by
  refine h.invariant (fun s hs => ?_) fun s s' hr hs hstep => ?_
  · cases hs
    nofun
  · exact commitSound_step hstep (reachable_onWire c path src totalBytes overwrite hr) hs

/-- So is the reply. -/
theorem reachable_replySound {s : UploadState}
    (h : (uploads c path src totalBytes overwrite).Reachable s) : s.ReplySound := by
  refine h.invariant (fun s hs => ?_) fun s s' _ hs hstep => ?_
  · cases hs
    exact ⟨nofun, nofun, nofun⟩
  · exact replySound_step hstep hs

/-- So is the end of the call. -/
theorem reachable_endSound {s : UploadState}
    (h : (uploads c path src totalBytes overwrite).Reachable s) : s.EndSound := by
  refine h.invariant (fun s hs => ?_) fun s s' _ hs hstep => ?_
  · cases hs
    nofun
  · exact endSound_step hstep hs

/-- With a source that ends in `io.EOF` no answer is lost, in any reachable
state. -/
theorem reachable_answered (heof : src.err = .sentinel .eof) {s : UploadState}
    (h : (uploads c path src totalBytes overwrite).Reachable s) : s.Answered := by
  refine h.invariant (fun s hs => ?_) fun s s' hr hs hstep => ?_
  · cases hs
    nofun
  · exact answered_step heof hstep (reachable_onWire c path src totalBytes overwrite hr)
      (reachable_endSound c path src totalBytes overwrite hr) hs

/-- Once the broker has refused, the call can return, and it returns the error
of the broker's status only. -/
def UploadState.RefusalReported (s : UploadState) : Prop :=
  ∀ resp, s.replied = some resp → nonSuccess resp.status = true →
    (∃ s' r, Relation.ReflTransGen UploadStep s s' ∧ s'.caller = .returned r) ∧
    ∀ r, s.caller = .returned r →
      r = .error (mapHTTPStatus resp.status (captureErrorBody resp.body) resp.retryAfter)

/-- A source that comes to its end leaves every refusal to be reported. -/
theorem reachable_refusalReported (heof : src.err = .sentinel .eof) {s : UploadState}
    (h : (uploads c path src totalBytes overwrite).Reachable s) : s.RefusalReported := by
  intro resp hreply hstatus
  have hanswered := reachable_answered c path src totalBytes overwrite heof h
  refine ⟨returns_of_answered (reachable_endSound c path src totalBytes overwrite h) hanswered
    hreply, fun r hr => ?_⟩
  rcases hanswered resp hreply with hdoing | hwait | ⟨writeErr, hret⟩
  · rw [hdoing] at hr
    cases hr
  · rw [hwait] at hr
    cases hr
  · rw [hret] at hr
    cases hr
    simp [uploadResult, Exchange.result, hstatus, HttpResp.err]

/-- A throttle without a body. -/
def respThrottled : HttpResp := ⟨429, -1, .last [] (.sentinel .eof), ⟨"", none⟩⟩

/-- **Upload soundness**, in every state of every run: a success means that
the broker has committed exactly what the source delivered, of the declared
length; and whatever the call returns, what is committed is the source's, of
the declared length.  That a refusal is always reported by the error of its
status holds for the sources that come to their end and for no others. -/
theorem upload_sound_iff :
    (∀ s, (uploads c path src totalBytes overwrite).Reachable s →
      (s.caller = .returned (.ok ()) → s.committed = some s.delivered ∧ s.delivered = src.items ∧
        (s.delivered.length : Int) = totalBytes) ∧
      (∀ content, s.committed = some content →
        content <+: src.items ∧ (content.length : Int) = totalBytes)) ∧
    ((∀ s, (uploads c path src totalBytes overwrite).Reachable s → s.RefusalReported) ↔
      src.err = .sentinel .eof) := by
  refine ⟨fun s h => ?_, fun hall => ?_, fun heof s h =>
    reachable_refusalReported c path src totalBytes overwrite heof h⟩
  · have hcommit := reachable_commitSound c path src totalBytes overwrite h
    refine ⟨fun hok => ?_, fun content hcontent => ?_⟩
    · have hsome := (reachable_replySound c path src totalBytes overwrite h).success hok
      obtain ⟨content, hcontent⟩ := Option.ne_none_iff_exists'.mp hsome
      obtain ⟨rfl, hall, hlen⟩ := hcommit content hcontent
      exact ⟨by rw [hcontent, hall], hall, by rw [hall]; exact hlen⟩
    · obtain ⟨rfl, -, hlen⟩ := hcommit content hcontent
      exact ⟨List.prefix_rfl, hlen⟩
  · refine Decidable.byContradiction fun hfault => ?_
    obtain ⟨s, hs, hreply, hret⟩ :=
      exists_lost c path src totalBytes overwrite hfault respThrottled rfl []
    -- the error of a throttle is a retry error, which the text of a failed
    -- round trip is not
    have heq := (hall s hs respThrottled hreply rfl).2 _ hret
    cases heq

end Sound

/-- One byte, uploaded. -/
theorem upload_sound_iff_byte :
    ∃ s, (uploads ⟨"https://filestore", "fs", "token", 1, 1, 1⟩ "/a".toList
        (.last [7] (.sentinel .eof)) 1 false).Reachable s ∧
      s.caller = .returned (.ok ()) ∧ s.committed = some [7] := by
  obtain ⟨s, hs, hok⟩ := exists_success ⟨"https://filestore", "fs", "token", 1, 1, 1⟩ "/a".toList
    (.last [7] (.sentinel .eof)) false rfl
  obtain ⟨hcommit, hall, -⟩ := ((upload_sound_iff _ _ _ _ _).1 s hs).1 hok
  refine ⟨s, hs, hok, ?_⟩
  rw [hcommit, hall]
  rfl

/-- The source gives one of two declared bytes and fails.  The broker receives
a closed body that is one byte short and refuses it with 422; the caller is
told of a failed round trip instead. -/
theorem refusal_lost_to_source_fault :
    ∃ s resp e, (uploads ⟨"https://filestore", "fs", "token", 1, 1, 1⟩ "/a".toList
        (.last [7] (.text [.lit "input/output error"])) 2 true).Reachable s ∧
      s.replied = some resp ∧ resp.status = 422 ∧ s.caller = .returned (.error e) ∧
      e ≠ mapHTTPStatus resp.status (captureErrorBody resp.body) resp.retryAfter := by
  obtain ⟨s, hs, hreply, hret⟩ := exists_lost ⟨"https://filestore", "fs", "token", 1, 1, 1⟩
    "/a".toList (.last [7] (.text [.lit "input/output error"])) 2 true (by decide)
    ⟨422, -1, .last [] (.sentinel .eof), ⟨"", none⟩⟩ rfl
    [.lit "Post ", .quoted "https://filestore/v1/filestore/fs/fileUpload".toList, .lit ": "]
  refine ⟨s, _, _, hs, hreply, rfl, hret, fun h => ?_⟩
  cases h

end OcuFilestore.Brokerrpc
