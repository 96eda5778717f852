import OcuFilestore.Lib.System
import OcuFilestore.Ocufs.Fs

/-!
# OcuFilestore.Ocufs.Session

The backend under use: any number of instances, any number of calls on them
and on the objects they hand out, running concurrently against a broker that
answers whatever it likes.

A session's state is the heap of objects handed out so far, the calls in
progress (each with the program that is left of it) and the log of requests
sent.  `always_prog` says what any call can send and hand out;
`session_disciplined` carries it through every run.
-/

namespace OcuFilestore.Ocufs

open Brokerrpc
open SlashPath (Canonical)

/-! ## calls -/

/-- A call on an instance or on an object. -/
inductive Call where
  | list (f : Fs) (dir : Path)
  | newObject (f : Fs) (remote : Path)
  | put (f : Fs) (remote : Path) (size : Int)
  | mkdir (f : Fs) (dir : Path)
  | rmdir (f : Fs) (dir : Path)
  | copy (f : Fs) (src : Object) (dstRemote : Path)
  | move (f : Fs) (src : Object) (dstRemote : Path)
  | dirMove (f src : Fs) (srcRemote dstRemote : Path)
  | openObject (o : Object) (options : List OpenOption)
  | update (o : Object) (size : Int)
  | remove (o : Object)
  | setModTime (o : Object)
  | size (o : Object)
  | modTime (o : Object)
  | mimeType (o : Object)

/-- What a call ends in: the objects it hands out, and its error. -/
structure Outcome where
  created : List (Object × Meta)
  err : Option Err

def DirEntry.object? : DirEntry → Option (Object × Meta)
  | .object o m => some (o, m)
  | .dir _ _ => none

/-- The outcome of a method that hands out objects or fails. -/
def Outcome.of {α : Type} (created : α → List (Object × Meta)) : Except Err α → Outcome
  | .ok a => ⟨created a, none⟩
  | .error e => ⟨[], some e⟩

namespace Call

/-- The instance whose method runs. -/
def receiver : Call → Fs
  | list f _ | newObject f _ | put f _ _ | mkdir f _ | rmdir f _ | copy f _ _ | move f _ _
  | dirMove f _ _ _ => f
  | openObject o _ | update o _ | remove o | setModTime o | size o | modTime o | mimeType o => o.fs

/-- The existing object a call works on. -/
def object : Call → Option Object
  | list _ _ | newObject _ _ | put _ _ _ | mkdir _ _ | rmdir _ _ | dirMove _ _ _ _ => none
  | copy _ o _ | move _ o _ | openObject o _ | update o _ | remove o | setModTime o | size o
  | modTime o | mimeType o => some o

/-- A transfer whose source belongs to another instance. -/
def Foreign : Call → Prop
  | copy f src _ | move f src _ => src.fs.ref ≠ f.ref
  | dirMove f src _ _ => src.ref ≠ f.ref
  | _ => False

def prog : Call → FsProg Outcome
  | list f dir => do return .of (List.filterMap DirEntry.object?) (← f.list dir)
  | newObject f remote => do return .of (fun om => [om]) (← f.newObject remote)
  | put f remote n => do return .of (fun om => [om]) (← f.put remote n)
  | mkdir f dir => do return .of (fun _ => []) (← f.mkdir dir)
  | rmdir f dir => do return .of (fun _ => []) (← f.rmdir dir)
  | copy f src dstRemote => do return .of (fun om => [om]) (← f.copy src dstRemote)
  | move f src dstRemote => do return .of (fun om => [om]) (← f.move src dstRemote)
  | dirMove f src srcRemote dstRemote => do
      return .of (fun _ => []) (← f.dirMove src srcRemote dstRemote)
  | openObject o options => do return .of (fun _ => []) (← o.open options)
  | update o n => do return .of (fun _ => []) (← o.update n)
  | remove o => do return .of (fun _ => []) (← o.remove)
  | setModTime o => return ⟨[], some o.setModTime⟩
  | size o => do
      let _ ← o.size
      return ⟨[], none⟩
  | modTime o => do
      let _ ← o.modTime
      return ⟨[], none⟩
  | mimeType o => do
      let _ ← o.mimeType
      return ⟨[], none⟩

end Call

/-! ## what a call can send -/

/-- The requests an instance may send: disciplined ones, and on a read-only
instance those with read intent. -/
def Within (f : Fs) : Eff → Prop
  | .send w => Disciplined f.client w ∧
      (f.readOnly = true → w.req.authorizationMetadata.intent = .read)
  | .peek => True
  | .poke _ => True

/-- An object handed out by an instance. -/
def HandedOut (f : Fs) (om : Object × Meta) : Prop := om.1.fs = f ∧ Canonical om.1.path

/-- A client method of one operation stays within what its instance may
send, when the operation reads or the instance may write. -/
theorem always_send {f : Fs} {op : Op} {α : Type} {Q : α → Prop} {p : WireProg α}
    (h : p.Always (Posts f.client op) Q)
    (hop : opIntentTable.lookup op = some .read ∨ f.readOnly = false) :
    (send p).Always (Within f) Q := by
  refine h.lift fun w hw => ⟨hw.1, fun hro => ?_⟩
  rcases hop with hop | hrw
  · have hi := hw.1.intent
    rw [hw.2, hop] at hi
    exact (Option.some.inj hi).symm
  · rw [hrw] at hro
    cases hro

section Methods

variable {f : Fs} {o : Object}

theorem always_resolve (ho : Canonical o.path) : o.resolve.Always (Within o.fs) fun _ => True := by
  unfold Object.resolve
  rw [peek_bind]
  refine ⟨trivial, fun m => ?_⟩
  dsimp only
  split
  · trivial
  · refine (always_send (Client.always_readMetadata ho) (Or.inl rfl)).bind fun r _ => ?_
    split
    · split <;> trivial
    · split
      · trivial
      · trivial
      · exact ⟨trivial, fun _ => trivial⟩

theorem always_getter {α : Type} (ho : Canonical o.path) (unresolved : Meta → Bool)
    (field : Meta → α) : (o.getter unresolved field).Always (Within o.fs) fun _ => True := by
  unfold Object.getter
  rw [peek_bind]
  refine ⟨trivial, fun m => ?_⟩
  dsimp only
  split
  · exact (always_resolve ho).bind fun _ _ => ⟨trivial, fun _ => trivial⟩
  · exact ⟨trivial, fun _ => trivial⟩

/-- `Open` sends nothing but its own instance's requests. -/
theorem always_open (ho : Canonical o.path) (options : List OpenOption) :
    (o.open options).Always (Within o.fs) fun _ => True := by
  unfold Object.open
  refine (always_resolve ho).bind fun r _ => ?_
  split
  · trivial
  · rw [peek_bind]
    refine ⟨trivial, fun m => ?_⟩
    dsimp only
    split
    · trivial
    · split
      · trivial
      · split
        · exact always_send Client.always_download (Or.inl rfl)
        · exact always_send Client.always_downloadRange (Or.inl rfl)

/-- Nor does `Update`. -/
theorem always_update (ho : Canonical o.path) (n : Int) :
    (o.update n).Always (Within o.fs) fun _ => True := by
  unfold Object.update
  split
  · trivial
  · next hro =>
      refine (always_send (Client.always_upload ho) (Or.inr (by simpa using hro))).bind
        fun r _ => ?_
      split
      · trivial
      · exact ⟨trivial, fun _ => trivial⟩

/-- Nor does `Remove`. -/
theorem always_remove (ho : Canonical o.path) : o.remove.Always (Within o.fs) fun _ => True := by
  unfold Object.remove
  split
  · trivial
  · next hro =>
      refine (always_send (Client.always_ackCall rfl rfl rfl (by simpa [AckRequest.paths] using ho))
        (Or.inr (by simpa using hro))).bind fun r _ => ?_
      split <;> trivial

/-- The objects a listing keeps are canonical, whatever paths the broker sent. -/
theorem handedOut_listYield (f : Fs) (dir dirPath : Path) (entries : List DirEntry)
    (entry : ListDirEntry) (h : ∀ om ∈ entries.filterMap DirEntry.object?, HandedOut f om) :
    ∀ om ∈ (f.listYield dir dirPath entries entry).1.filterMap DirEntry.object?,
      HandedOut f om := by
  unfold Fs.listYield
  split
  · exact h
  · split
    · intro om hom
      rw [List.filterMap_append] at hom
      rcases List.mem_append.mp hom with hom | hom
      · exact h om hom
      · simp only [objectFromFile, DirEntry.object?, List.filterMap_cons, List.filterMap_nil,
          List.mem_singleton] at hom
        rw [hom]
        exact ⟨rfl, canonical_cleanPath _⟩
    · simpa [List.filterMap_append, DirEntry.object?] using h
    · exact h

/-- `List` hands out objects of its own instance only. -/
theorem always_list (f : Fs) (dir : Path) :
    (f.list dir).Always (Within f) fun r =>
      ∀ om ∈ (Outcome.of (List.filterMap DirEntry.object?) r).created, HandedOut f om := by
  have hstream := Client.always_listDirectoryStream (c := f.client)
    (handedOut_listYield f dir (f.absPath dir)) (s := []) (by simp) (canonical_absPath f dir)
  refine (always_send hstream (Or.inl rfl)).bind fun r hr => ?_
  dsimp only
  split
  · split <;> simp [Outcome.of]
  · exact hr

/-- So does `NewObject`. -/
theorem always_newObject (f : Fs) (remote : Path) :
    (f.newObject remote).Always (Within f) fun r =>
      ∀ om ∈ (Outcome.of (fun om => [om]) r).created, HandedOut f om := by
  refine (always_send (Client.always_readMetadata (canonical_absPath f remote))
    (Or.inl rfl)).bind fun r _ => ?_
  split
  · split <;> simp [Outcome.of]
  · split <;> simp [Outcome.of, HandedOut, canonical_absPath]

/-- So does `Put`. -/
theorem always_put (f : Fs) (remote : Path) (n : Int) :
    (f.put remote n).Always (Within f) fun r =>
      ∀ om ∈ (Outcome.of (fun om => [om]) r).created, HandedOut f om := by
  unfold Fs.put
  split
  · simp [Outcome.of]
  · next hro =>
      refine (always_send (Client.always_upload (canonical_absPath f remote))
        (Or.inr (by simpa using hro))).bind fun r _ => ?_
      split <;> simp [Outcome.of, HandedOut, canonical_absPath]

/-- `Mkdir` sends nothing but its own instance's requests. -/
theorem always_mkdir (f : Fs) (dir : Path) : (f.mkdir dir).Always (Within f) fun _ => True := by
  unfold Fs.mkdir
  split
  · trivial
  · next hro =>
      refine (always_send (Client.always_ackCall rfl rfl rfl
        (by simpa [AckRequest.paths] using canonical_absPath f dir))
        (Or.inr (by simpa using hro))).bind fun r _ => ?_
      split
      · split <;> trivial
      · trivial

/-- Nor does `Rmdir`. -/
theorem always_rmdir (f : Fs) (dir : Path) : (f.rmdir dir).Always (Within f) fun _ => True := by
  unfold Fs.rmdir
  split
  · trivial
  · next hro =>
      refine (always_send (Client.always_ackCall rfl rfl rfl
        (by simpa [AckRequest.paths] using canonical_absPath f dir))
        (Or.inr (by simpa using hro))).bind fun r _ => ?_
      split <;> trivial

/-- A transfer within one instance. -/
theorem always_transferFile {src : Object} (hsrc : src.fs = f) (hpath : Canonical src.path)
    {op : Op} {call : Path → Path → WireProg (Except Err Unit)}
    (hcall : ∀ p q, Canonical p → Canonical q → (call p q).Always (Posts f.client op) fun _ => True)
    (dstRemote : Path) (opName : String) (cant : Sentinel) :
    (f.transferFile src dstRemote opName cant call).Always (Within f) fun r =>
      ∀ om ∈ (Outcome.of (fun om => [om]) r).created, HandedOut f om := by
  unfold Fs.transferFile
  split
  · simp [Outcome.of]
  · next hro =>
      split
      · simp [Outcome.of]
      · refine (always_send (hcall _ _ hpath (canonical_absPath f dstRemote))
          (Or.inr (by simpa using hro))).bind fun r _ => ?_
        split
        · simp [Outcome.of]
        · subst hsrc
          refine (always_getter hpath _ _).bind fun n _ => ?_
          simp [Outcome.of, HandedOut, canonical_absPath]

/-- Nor does `DirMove`. -/
theorem always_dirMove (f src : Fs) (srcRemote dstRemote : Path) :
    (f.dirMove src srcRemote dstRemote).Always (Within f) fun _ => True := by
  unfold Fs.dirMove
  split
  · trivial
  · next hro =>
      split
      · trivial
      · refine (always_send (Client.always_ackCall rfl rfl rfl ?_)
          (Or.inr (by simpa using hro))).bind fun r _ => ?_
        · simp [AckRequest.paths, canonical_absPath]
        · split <;> trivial

end Methods

/-- What a call may do: stay within what its instance may send, and send
nothing at all if it is a foreign transfer. -/
def Permitted (call : Call) : Eff → Prop
  | .send w => Within call.receiver (.send w) ∧ ¬ call.Foreign
  | .peek => True
  | .poke _ => True

theorem permitted_of_within {call : Call} (h : ¬ call.Foreign) {e : Eff}
    (he : Within call.receiver e) : Permitted call e := by
  cases e with
  | send w => exact ⟨he, h⟩
  | peek => trivial
  | poke g => trivial

/-- A foreign transfer returns before its first effect. -/
theorem always_foreign {call : Call} (h : call.Foreign) {P : Eff → Prop} :
    call.prog.Always P fun out => out.created = [] := by
  have href : ∀ {n m : Nat} {α : Type} {a b : FsProg α}, n ≠ m → (if n ≠ m then a else b) = a :=
    fun h => if_pos h
  cases call with
  | copy f src dstRemote | move f src dstRemote | dirMove f src srcRemote dstRemote =>
      simp only [Call.prog, Fs.copy, Fs.move, Fs.transferFile, Fs.dirMove, href h]
      split <;> rfl
  | _ => exact False.elim h

/-- Every effect of every call is permitted, and the objects it hands out
belong to its instance and have canonical paths. -/
theorem always_prog (call : Call)
    (hobj : ∀ o, call.object = some o →
      Canonical o.path ∧ (o.fs.ref = call.receiver.ref → o.fs = call.receiver)) :
    call.prog.Always (Permitted call) fun out =>
      ∀ om ∈ out.created, HandedOut call.receiver om := by
  by_cases hfor : call.Foreign
  · exact (always_foreign hfor).mono (fun _ h => h) fun out h => by simp [h]
  · suffices h : call.prog.Always (Within call.receiver) fun out =>
        ∀ om ∈ out.created, HandedOut call.receiver om from
      h.mono (fun _ => permitted_of_within hfor) fun _ h => h
    have hnone : ∀ (r : Except Err Unit), ∀ om ∈ (Outcome.of (fun _ => []) r).created,
        HandedOut call.receiver om := by
      intro r
      cases r <;> simp [Outcome.of]
    cases call with
    | list f dir => exact (always_list f dir).bind fun _ h => h
    | newObject f remote => exact (always_newObject f remote).bind fun _ h => h
    | put f remote n => exact (always_put f remote n).bind fun _ h => h
    | mkdir f dir => exact (always_mkdir f dir).bind fun r _ => hnone r
    | rmdir f dir => exact (always_rmdir f dir).bind fun r _ => hnone r
    | copy f src dstRemote =>
        obtain ⟨hp, hfs⟩ := hobj src rfl
        have hcall : ∀ p q, Canonical p → Canonical q →
            (f.client.copyFile p q).Always (Posts f.client .copyFile) fun _ => True :=
          fun p q hp hq => Client.always_ackCall rfl rfl rfl (by simp [AckRequest.paths, hp, hq])
        exact (always_transferFile (hfs (Decidable.not_not.mp hfor)) hp hcall _ _ _).bind
          fun _ h => h
    | move f src dstRemote =>
        obtain ⟨hp, hfs⟩ := hobj src rfl
        have hcall : ∀ p q, Canonical p → Canonical q →
            (f.client.moveFile p q).Always (Posts f.client .moveFile) fun _ => True :=
          fun p q hp hq => Client.always_ackCall rfl rfl rfl (by simp [AckRequest.paths, hp, hq])
        exact (always_transferFile (hfs (Decidable.not_not.mp hfor)) hp hcall _ _ _).bind
          fun _ h => h
    | dirMove f src srcRemote dstRemote =>
        exact (always_dirMove f src srcRemote dstRemote).bind fun r _ => hnone r
    | openObject o options =>
        refine (always_open (hobj o rfl).1 options).bind fun r _ => ?_
        cases r <;> simp [Outcome.of]
    | update o n => exact (always_update (hobj o rfl).1 n).bind fun r _ => hnone r
    | remove o => exact (always_remove (hobj o rfl).1).bind fun r _ => hnone r
    | setModTime o => exact List.forall_mem_nil _
    | size o => exact (always_getter (hobj o rfl).1 _ _).bind fun _ _ => List.forall_mem_nil _
    | modTime o => exact (always_getter (hobj o rfl).1 _ _).bind fun _ _ => List.forall_mem_nil _
    | mimeType o => exact (always_getter (hobj o rfl).1 _ _).bind fun _ _ => List.forall_mem_nil _

/-! ## sessions -/

/-- Instances, told apart by their pointers. -/
structure Pool where
  instances : List Fs
  distinct : instances.Pairwise fun f g => f.ref ≠ g.ref

/-- An instance is known by its reference. -/
theorem Pool.eq_of_ref (pool : Pool) {f g : Fs} (hf : f ∈ pool.instances)
    (hg : g ∈ pool.instances) (h : f.ref = g.ref) : f = g := by
  obtain ⟨i, hi, rfl⟩ := List.getElem_of_mem hf
  obtain ⟨j, hj, rfl⟩ := List.getElem_of_mem hg
  have hd := List.pairwise_iff_getElem.mp pool.distinct
  rcases Nat.lt_trichotomy i j with hij | rfl | hij
  · exact absurd h (hd i j hi hj hij)
  · rfl
  · exact absurd h.symm (hd j i hj hi hij)

/-- The instances a caller names in a call. -/
def Call.instances : Call → List Fs
  | list f _ | newObject f _ | put f _ _ | mkdir f _ | rmdir f _ | copy f _ _ | move f _ _ => [f]
  | dirMove f src _ _ => [f, src]
  | openObject _ _ | update _ _ | remove _ | setModTime _ | size _ | modTime _ | mimeType _ => []

/-- A call on instances of a pool and an object of one runs on one. -/
theorem Call.receiver_mem {call : Call} {pool : Pool}
    (hfs : ∀ f ∈ call.instances, f ∈ pool.instances)
    (hobj : ∀ o, call.object = some o → o.fs ∈ pool.instances) :
    call.receiver ∈ pool.instances := by
  cases call with
  | list | newObject | put | mkdir | rmdir | copy | move | dirMove => exact hfs _ List.mem_cons_self
  | openObject | update | remove | setModTime | size | modTime | mimeType => exact hobj _ rfl

/-- A call in progress: the heap cell of the object it works on, and the
program that is left of it. -/
structure Active where
  call : Call
  cell : Nat
  rest : FsProg Outcome

/-- A request sent on behalf of a call. -/
structure Emission where
  call : Call
  wire : Wire

structure Session where
  heap : List (Object × Meta)
  active : List Active
  log : List Emission

/-- One step of a session: a call is made on instances of the pool and an
object of the heap, or a call in progress takes its next effect.  The answer
to a request is arbitrary; a request that never gets through is answered by
a transport failure. -/
inductive Step (pool : Pool) : Session → Session → Prop
  | start {s : Session} {call : Call} {cell : Nat}
      (hfs : ∀ f ∈ call.instances, f ∈ pool.instances)
      (hobj : ∀ o, call.object = some o → ∃ m, s.heap[cell]? = some (o, m)) :
      Step pool s { s with active := s.active ++ [⟨call, cell, call.prog⟩] }
  | sent {s : Session} {i cell : Nat} {call : Call} {w : Wire} {k : w.Reply → FsProg Outcome}
      (h : s.active[i]? = some ⟨call, cell, .op (.send w) k⟩) (r : w.Reply) :
      Step pool s
        { s with active := s.active.set i ⟨call, cell, k r⟩, log := s.log ++ [⟨call, w⟩] }
  | peeked {s : Session} {i cell : Nat} {call : Call} {k : Meta → FsProg Outcome} {o : Object}
      {m : Meta} (h : s.active[i]? = some ⟨call, cell, .op .peek k⟩)
      (hm : s.heap[cell]? = some (o, m)) :
      Step pool s { s with active := s.active.set i ⟨call, cell, k m⟩ }
  | poked {s : Session} {i cell : Nat} {call : Call} {g : Meta → Meta}
      {k : Unit → FsProg Outcome} {o : Object} {m : Meta}
      (h : s.active[i]? = some ⟨call, cell, .op (.poke g) k⟩)
      (hm : s.heap[cell]? = some (o, m)) :
      Step pool s
        { s with heap := s.heap.set cell (o, g m), active := s.active.set i ⟨call, cell, k ()⟩ }
  | finished {s : Session} {i cell : Nat} {call : Call} {out : Outcome}
      (h : s.active[i]? = some ⟨call, cell, .ret out⟩) :
      Step pool s { s with heap := s.heap ++ out.created, active := s.active.eraseIdx i }

/-- Sessions on a pool start with no object handed out. -/
def sessions (pool : Pool) : System Session where
  init s := s = ⟨[], [], []⟩
  step := Step pool

/-- A call that keeps to the rules from here on. -/
structure Active.Ok (pool : Pool) (a : Active) : Prop where
  receiver : a.call.receiver ∈ pool.instances
  rest : a.rest.Always (Permitted a.call) fun out =>
    ∀ om ∈ out.created, HandedOut a.call.receiver om

structure Session.Inv (pool : Pool) (s : Session) : Prop where
  heap : ∀ om ∈ s.heap, om.1.fs ∈ pool.instances ∧ Canonical om.1.path
  active : ∀ a ∈ s.active, a.Ok pool
  log : ∀ e ∈ s.log, e.call.receiver ∈ pool.instances ∧ Permitted e.call (.send e.wire)

namespace Session.Inv

variable {pool : Pool} {s : Session}

theorem of_get (inv : s.Inv pool) {i : Nat} {a : Active} (h : s.active[i]? = some a) :
    a.Ok pool := inv.active a (List.mem_of_getElem? h)

/-- A call that moves on stays within the rules. -/
theorem active_set (inv : s.Inv pool) (i : Nat) {a : Active} (ha : a.Ok pool) :
    ∀ b ∈ s.active.set i a, b.Ok pool := by
  intro b hb
  rcases List.mem_or_eq_of_mem_set hb with hb | rfl
  · exact inv.active b hb
  · exact ha

/-- A new call keeps to the rules: its instance is one of the pool, and its
object was handed out by one. -/
theorem start (inv : s.Inv pool) {call : Call} {cell : Nat}
    (hfs : ∀ f ∈ call.instances, f ∈ pool.instances)
    (hobj : ∀ o, call.object = some o → ∃ m, s.heap[cell]? = some (o, m)) :
    Active.Ok pool ⟨call, cell, call.prog⟩ := by
  have hheap : ∀ o, call.object = some o → o.fs ∈ pool.instances ∧ Canonical o.path := by
    intro o ho
    obtain ⟨m, hm⟩ := hobj o ho
    exact inv.heap (o, m) (List.mem_of_getElem? hm)
  have hrec := Call.receiver_mem hfs fun o ho => (hheap o ho).1
  exact ⟨hrec, always_prog call fun o ho => ⟨(hheap o ho).2, pool.eq_of_ref (hheap o ho).1 hrec⟩⟩

/-- A step of a session keeps the invariant. -/
theorem step (inv : s.Inv pool) {s' : Session} (h : Step pool s s') : s'.Inv pool := by
  cases h with
  | start hfs hobj =>
      refine ⟨inv.heap, fun a ha => ?_, inv.log⟩
      rcases List.mem_append.mp ha with ha | ha
      · exact inv.active a ha
      · rw [List.mem_singleton.mp ha]
        exact inv.start hfs hobj
  | sent h r =>
      obtain ⟨hrec, hw, hk⟩ := inv.of_get h
      refine ⟨inv.heap, inv.active_set _ ⟨hrec, hk r⟩, fun e he => ?_⟩
      rcases List.mem_append.mp he with he | he
      · exact inv.log e he
      · rw [List.mem_singleton.mp he]
        exact ⟨hrec, hw⟩
  | peeked h hm =>
      obtain ⟨hrec, -, hk⟩ := inv.of_get h
      exact ⟨inv.heap, inv.active_set _ ⟨hrec, hk _⟩, inv.log⟩
  | poked h hm =>
      obtain ⟨hrec, -, hk⟩ := inv.of_get h
      refine ⟨fun om hom => ?_, inv.active_set _ ⟨hrec, hk ()⟩, inv.log⟩
      -- the guarded fields change, the object does not
      rcases List.mem_or_eq_of_mem_set hom with hom | rfl
      · exact inv.heap om hom
      · have ho := inv.heap _ (List.mem_of_getElem? hm)
        exact ho
  | finished h =>
      obtain ⟨hrec, hout⟩ := inv.of_get h
      refine ⟨fun om hom => ?_, fun a ha => inv.active a (List.mem_of_mem_eraseIdx ha), inv.log⟩
      rcases List.mem_append.mp hom with hom | hom
      · exact inv.heap om hom
      · obtain ⟨hfs, hp⟩ := hout om hom
        exact ⟨hfs ▸ hrec, hp⟩

end Session.Inv

/-- **Wire discipline**: whatever is called, in whatever order, and whatever
the broker answers, every request carries the scope, intent and canonical
paths of the instance it is sent for, a read-only instance sends no request
with write intent, and a foreign transfer sends none at all. -/
theorem session_disciplined (pool : Pool) {s : Session} (h : (sessions pool).Reachable s) :
    ∀ e ∈ s.log, e.call.receiver ∈ pool.instances ∧
      Disciplined e.call.receiver.client e.wire ∧
      (e.call.receiver.readOnly = true → e.wire.req.authorizationMetadata.intent ≠ .write) ∧
      ¬ e.call.Foreign := by
  have inv : s.Inv pool := by
    refine h.invariant (fun s hs => ?_) fun _ _ _ inv hs => inv.step hs
    subst hs
    exact ⟨by simp, by simp, by simp⟩
  intro e he
  obtain ⟨hrec, ⟨hd, hro⟩, hfor⟩ := inv.log e he
  exact ⟨hrec, hd, fun h => by rw [hro h]; decide, hfor⟩

def srvPool : Pool := ⟨[srvFs], by simp⟩

/-- The request of a mkdir of `docs` under `/srv`. -/
def mkdirDocs : Wire :=
  ⟨srvFs.client, .ack (.makeDirectory
    ⟨"fs", srvFs.absPath "docs".toList, Client.authMeta .makeDirectory⟩)⟩

theorem session_disciplined_mkdir :
    ∃ s, (sessions srvPool).Reachable s ∧ s.log = [⟨.mkdir srvFs "docs".toList, mkdirDocs⟩] ∧
      Disciplined srvFs.client mkdirDocs := by
  have h₀ : (sessions srvPool).Reachable ⟨[], [], []⟩ := .init rfl
  have h₁ : (sessions srvPool).Reachable
      ⟨[], [⟨.mkdir srvFs "docs".toList, 0, Call.prog (.mkdir srvFs "docs".toList)⟩], []⟩ :=
    h₀.step (.start (by simp [Call.instances, srvPool]) (by simp [Call.object]))
  have h₂ := h₁.step (Step.sent (i := 0) (w := mkdirDocs) rfl (Exchange.failed (.text [])))
  exact ⟨_, h₂, rfl, (session_disciplined srvPool h₂ _ List.mem_cons_self).2.1⟩

end OcuFilestore.Ocufs
