import OcuFilestore.Lib.Program
import OcuFilestore.Lib.SlashPath
import OcuFilestore.Lib.System
import OcuFilestore.Mountcfg.Load

/-!
# OcuFilestore.Mounter.Orchestrator

The orchestrator of the mounts (`internal/mounter/orchestrator.go`): it
starts the points one after the other over the seam that makes them, tells
when all of them are up, waits for a signal or for a point that exits, and
tears down.

`run` is a program over its effects, deferred calls included.  It runs beside
its surroundings (`RunStep`): signals arrive and points exit at any time, a
start or an unmount may fail, and the points of a teardown are unmounted each
by a goroutine of its own.
-/

namespace OcuFilestore.Mounter

open Mountcfg

/-! ## the seam -/

/-- A live mount: an opaque handle, with the path it serves. -/
structure Point where
  handle : Nat
  destination : Path
  deriving DecidableEq, Repr

/-- One unit of work: the config mount and the transport values for it. -/
structure MountSpec where
  mount : Mount
  readOnly : Bool
  serviceURL : List Char
  caCertPEM : List Char
  deriving DecidableEq, Repr

structure Orchestrator where
  /-- Whether `seam` is set. -/
  seam : Bool
  /-- Whether `newSeam` is set. -/
  newSeam : Bool
  readyFilePath : Path
  /-- Whether a signal channel is injected. -/
  signals : Bool
  serviceURL : List Char
  caCertPEM : List Char
  deriving DecidableEq, Repr

/-- What `run` returns when it fails: an error as it is, or the join of some. -/
inductive RunErr where
  | plain (e : Err)
  | joined (es : List Err)
  deriving DecidableEq, Repr

/-- `errors.Join` of errors that are not nil. -/
def errorsJoin : List Err → Option RunErr
  | [] => none
  | e :: es => some (.joined (e :: es))

/-! ## the specs -/

/-- The paths are nested, in the one direction or the other. -/
def nested (cleaned prior : Path) : Bool :=
  prior ++ ['/'] <+: cleaned || cleaned ++ ['/'] <+: prior

section Specs

-- the order in which `range` goes over the keys of a map
variable (visit : List Path → List Path)

/-- The loop of `buildSpecs`, from the cleaned destinations seen so far. -/
def Orchestrator.buildSpecsFrom (o : Orchestrator) :
    List Path → List Mount → Except Err (List MountSpec)
  | _, [] => .ok []
  | seen, m :: ms =>
      if m.memoryStoreID.isSome then
        .error (.text [.lit "mount ", .quoted m.destination,
          .lit ": memory-store mounts are not yet supported (no memory scope axis)"])
      else if SlashPath.clean m.destination ∈ seen then
        .error (.text [.lit "mount ", .quoted m.destination,
          .lit ": duplicate destination across mounts ",
          .lit "(a second mount would silently shadow the first)"])
      else
        match (visit seen).find? (nested (SlashPath.clean m.destination)) with
        | some prior =>
            .error (.text [.lit "mount ", .quoted m.destination,
              .lit ": destination is nested with ", .quoted prior,
              .lit " (the later mount's pre-mount inspection would traverse ",
              .lit "the earlier live mount)"])
        | none =>
            match buildSpecsFrom o (seen ++ [SlashPath.clean m.destination]) ms with
            | .error e => .error e
            | .ok specs => .ok (⟨m, m.readonly = some true, o.serviceURL, o.caCertPEM⟩ :: specs)

def Orchestrator.buildSpecs (o : Orchestrator) (cfg : Config) : Except Err (List MountSpec) :=
  o.buildSpecsFrom visit [] (cfg.mounts.elim [] Slice.elems)

end Specs

/-! ## the program -/

inductive LogLine where
  /-- `no mounts configured` -/
  | noMounts
  /-- `all mounts ready` -/
  | allReady (count : Nat)
  /-- `retract ready-file` -/
  | retract (path : Path) (e : Err)

inductive RunEff where
  | newSeam
  /-- `signal.Notify` -/
  | notify
  /-- `signal.Stop` -/
  | stop
  | removeReadyFile
  | openReadyFile
  | closeReadyFile
  | log (line : LogLine)
  /-- A receive from the signal channel that does not block. -/
  | pollSignal
  | cancelMount
  | mountAndWaitReady (spec : MountSpec)
  /-- Wait for a signal or for the exit of one of the points. -/
  | select (points : List Point)
  /-- Unmount the points, each in a goroutine, and wait for all of them. -/
  | unmountEach (points : List Point)

/-- How a removal of the ready-file ends. -/
inductive Removal where
  | removed
  | notExist
  | failed (e : Err)

/-- What a select over the signals and `n` points comes back with. -/
inductive Chosen (n : Nat) where
  | signal
  | exited (i : Fin n) (err : Option Err)

@[reducible]
def RunEff.Answer : RunEff → Type
  | newSeam => Option Err
  | notify => Unit
  | stop => Unit
  | removeReadyFile => Removal
  | openReadyFile => Option Err
  | closeReadyFile => Option Err
  | log _ => Unit
  | pollSignal => Bool
  | cancelMount => Unit
  | mountAndWaitReady _ => Except Err Point
  | select points => Chosen points.length
  | unmountEach _ => List (Option Err)

abbrev RunProg := Prog RunEff.Answer

/-- A call of `body` with a deferred call. -/
def deferring (body : RunProg (Option RunErr)) (cleanup : RunProg Unit) :
    RunProg (Option RunErr) := do
  let r ← body
  cleanup
  return r

/-- The errors of a teardown, in the order of the points. -/
def collectErrs (points : List Point) (collected : List (Option Err)) : List Err :=
  (List.zipWith (fun (p : Point) (err : Option Err) => err.map fun e =>
    Err.wrap [.lit "unmount ", .quoted p.destination, .lit ": "] e [])
      points collected).reduceOption

def unmountAll (points : List Point) : RunProg (List Err) :=
  .op (.unmountEach points) fun collected => .ret (collectErrs points collected)

def signalPending : RunProg Bool := .perform RunEff.pollSignal

def cancelMount : RunProg Unit := .perform RunEff.cancelMount

def shutdownDuringStartup (started : List Point) : RunProg (Option RunErr) := do
  let cleanupErrs ← unmountAll started
  return errorsJoin cleanupErrs

def Orchestrator.signalReady (o : Orchestrator) (n : Nat) : RunProg (Option Err) :=
  if o.readyFilePath ≠ [] then
    .op .openReadyFile fun
      | some e =>
          .ret (some (.wrap [.lit "create ready-file ", .quoted o.readyFilePath, .lit ": "] e []))
      | none => .op .closeReadyFile .ret
  else .op (.log (.allReady n)) fun _ => .ret none

def blockUntilTeardown (started : List Point) : RunProg (Option RunErr) :=
  .op (.select started) fun
    | .signal => do
        let cleanupErrs ← unmountAll started
        return errorsJoin cleanupErrs
    | .exited i pointErr => do
        let exited := started.get i
        let cleanupErrs ← unmountAll (started.filter (· ≠ exited))
        match pointErr with
        | none => return errorsJoin cleanupErrs
        | some e =>
            return errorsJoin (.wrap [.lit "mount ", .quoted exited.destination, .lit " exited: "]
              e [] :: cleanupErrs)

/-- The loop over the specs and what comes behind it. -/
def Orchestrator.fanOut (o : Orchestrator) :
    List MountSpec → List Point → RunProg (Option RunErr)
  | [], started => do
      if ← signalPending then
        cancelMount
        shutdownDuringStartup started
      else
        match ← o.signalReady started.length with
        | some err => do
            let cleanupErrs ← unmountAll started
            return errorsJoin (err :: cleanupErrs)
        | none => blockUntilTeardown started
  | spec :: specs, started => do
      if ← signalPending then
        cancelMount
        shutdownDuringStartup started
      else
        .op (.mountAndWaitReady spec) fun
          | .error e => do
              let startErr := .wrap [.lit "mount ", .quoted spec.mount.destination, .lit ": "] e []
              let cleanupErrs ← unmountAll started
              return errorsJoin (startErr :: cleanupErrs)
          | .ok p => fanOut o specs (started ++ [p])

/-- The deferred retraction of the ready-file. -/
def Orchestrator.retract (o : Orchestrator) : RunProg Unit :=
  .op .removeReadyFile fun
    | .failed e => .op (.log (.retract o.readyFilePath e)) .ret
    | _ => .ret ()

section Run

variable (visit : List Path → List Path) (o : Orchestrator) (cfg : Config)

/-- `run` from the specs on. -/
def realize : RunProg (Option RunErr) :=
  match o.buildSpecs visit cfg with
  | .error e => .ret (some (.plain e))
  | .ok [] => .op (.log .noMounts) fun _ => .ret none
  | .ok specs => deferring (o.fanOut specs []) cancelMount

/-- `run` from the ready-file hygiene on. -/
def hygiene : RunProg (Option RunErr) :=
  if o.readyFilePath ≠ [] then
    .op .removeReadyFile fun
      | .failed e =>
          .ret (some (.plain (.wrap [.lit "remove stale ready-file ", .quoted o.readyFilePath,
            .lit ": "] e [])))
      | _ => deferring (realize visit o cfg) o.retract
  else realize visit o cfg

/-- `run` from the signal channel on. -/
def listen : RunProg (Option RunErr) :=
  if o.signals then hygiene visit o cfg
  else .op .notify fun _ => deferring (hygiene visit o cfg) (.perform RunEff.stop)

def run : RunProg (Option RunErr) :=
  if o.seam then listen visit o cfg
  else if !o.newSeam then
    .ret (some (.plain (.text [.lit "orchestrator: no mount seam configured"])))
  else
    .op .newSeam fun
      | some e => .ret (some (.plain e))
      | none => listen visit o cfg

end Run

/-! ## the run and its surroundings -/

/-- What has come of `run` so far, effect by effect. -/
inductive Event where
  | signalTaken
  | mounted (p : Point)
  | startFailed (spec : MountSpec) (e : Err)
  | readyRemoved
  | readyCreated
  | exitSelected (p : Point) (err : Option Err)
  /-- Every goroutine of a teardown is done. -/
  | torndown (points : List Point) (collected : List (Option Err))

/-- The events of an effect and its answer. -/
def record : (e : RunEff) → e.Answer → List Event
  | .pollSignal, true => [.signalTaken]
  | .mountAndWaitReady _, .ok p => [.mounted p]
  | .mountAndWaitReady spec, .error e => [.startFailed spec e]
  | .removeReadyFile, .removed => [.readyRemoved]
  | .removeReadyFile, .notExist => [.readyRemoved]
  | .openReadyFile, none => [.readyCreated]
  | .select _, .signal => [.signalTaken]
  | .select points, .exited i err => [.exitSelected (points.get i) err]
  | .unmountEach points, collected => [.torndown points collected]
  | _, _ => []

/-- A goroutine of a teardown. -/
inductive Worker where
  | ready (p : Point)
  | unmounting (p : Point)
  | done (p : Point) (err : Option Err)

structure RunState where
  /-- What is left of `run`. -/
  main : RunProg (Option RunErr)
  workers : List Worker
  /-- How many signals wait on the channel. -/
  signals : Nat
  /-- The points that have exited, and with what. -/
  exits : List (Point × Option Err)
  readyFile : Bool
  /-- Whether the context of the starts is cancelled. -/
  cancelled : Bool
  history : List Event
  /-- The points passed to `unmount`, in the order of the calls. -/
  unmounted : List Point

/-- The answers that an effect can get.  A start that succeeds hands out a
point that was not handed out before. -/
def RunState.Answers (s : RunState) : (e : RunEff) → e.Answer → Prop
  | .removeReadyFile, .removed => s.readyFile = true
  | .removeReadyFile, .notExist => s.readyFile = false
  | .pollSignal, pending => pending = decide (0 < s.signals)
  | .mountAndWaitReady _, .ok p => .mounted p ∉ s.history
  | .select _, .signal => 0 < s.signals
  | .select points, .exited i err => (points.get i, err) ∈ s.exits
  | .unmountEach points, collected => s.workers = List.zipWith .done points collected ∧
      collected.length = points.length
  | _, _ => True

/-- The surroundings after an effect and its answer. -/
def RunState.after (s : RunState) : (e : RunEff) → e.Answer → RunState
  | .removeReadyFile, .removed => { s with readyFile := false }
  | .openReadyFile, none => { s with readyFile := true }
  | .pollSignal, true => { s with signals := s.signals - 1 }
  | .select _, .signal => { s with signals := s.signals - 1 }
  | .cancelMount, _ => { s with cancelled := true }
  | .unmountEach _, _ => { s with workers := [] }
  | _, _ => s

inductive RunStep : RunState → RunState → Prop
  -- the program
  | effect {s : RunState} {e : RunEff} {k : e.Answer → RunProg (Option RunErr)} {r : e.Answer}
      (h : s.main = .op e k) (hr : s.Answers e r) :
      RunStep s { s.after e r with main := k r, history := s.history ++ record e r }
  -- the goroutines of a teardown
  | spawn {s : RunState} {points : List Point}
      {k : List (Option Err) → RunProg (Option RunErr)} (h : s.main = .op (.unmountEach points) k)
      (hnone : s.workers = []) : RunStep s { s with workers := points.map .ready }
  | call {s : RunState} {p : Point} (ws₁ ws₂ : List Worker)
      (h : s.workers = ws₁ ++ .ready p :: ws₂) :
      RunStep s { s with workers := ws₁ ++ .unmounting p :: ws₂, unmounted := s.unmounted ++ [p] }
  | finish {s : RunState} {p : Point} (err : Option Err) (ws₁ ws₂ : List Worker)
      (h : s.workers = ws₁ ++ .unmounting p :: ws₂) :
      RunStep s { s with workers := ws₁ ++ .done p err :: ws₂ }
  -- the surroundings
  | deliver {s : RunState} : RunStep s { s with signals := s.signals + 1 }
  | exit {s : RunState} {p : Point} (err : Option Err) (h : .mounted p ∈ s.history) :
      RunStep s { s with exits := s.exits ++ [(p, err)] }

/-- The runs of the orchestrator on a config; a ready-file may be there from
before. -/
def runs (visit : List Path → List Path) (o : Orchestrator) (cfg : Config) : System RunState where
  init s := ∃ stale, s = ⟨run visit o cfg, [], 0, [], stale, false, [], []⟩
  step := RunStep

end OcuFilestore.Mounter
