import Mathlib.Data.List.Nodup
import Mathlib.Data.List.ReduceOption
import OcuFilestore.Mounter.Teardown

/-!
# OcuFilestore.Mounter.Outcome

What a run of the orchestrator returns, and what becomes of a signal while a
start is under way.

A ledger is kept beside the run: the failure that ended it, if one did, and
the results of the unmount calls in the order in which they came back.  The
program is checked against its own part of the ledger (`accounts_run`), the
goroutines of the teardown against the rest; together they say that the error
of a run is the failure that ended it and the failed unmounts in start order,
however the goroutines were scheduled.

The context of the starts is cancelled by the program only, between two
effects: a start that is under way keeps it from doing so.
-/

namespace OcuFilestore.Mounter

open Mountcfg Prog

/-! ## failures -/

/-- What can end a run, other than a signal or a clean exit. -/
inductive Failure where
  | seam (e : Err)
  | stale (e : Err)
  | start (spec : MountSpec) (e : Err)
  | readyCreate (e : Err)
  | readyClose (e : Err)
  | exited (p : Point) (e : Err)

/-- The error that reports a failure. -/
def Failure.err (o : Orchestrator) : Failure → Err
  | seam e => e
  | stale e => .wrap [.lit "remove stale ready-file ", .quoted o.readyFilePath, .lit ": "] e []
  | start spec e => .wrap [.lit "mount ", .quoted spec.mount.destination, .lit ": "] e []
  | readyCreate e => .wrap [.lit "create ready-file ", .quoted o.readyFilePath, .lit ": "] e []
  | readyClose e => e
  | exited p e => .wrap [.lit "mount ", .quoted p.destination, .lit " exited: "] e []

/-- Failures before the first start: they are returned as they are. -/
def Failure.early : Failure → Bool
  | seam _ => true
  | stale _ => true
  | _ => false

/-- Whether the ready-file of an earlier run is out of the way. -/
def hygienic (hist : List Event) : Bool :=
  hist.any fun
    | .readyRemoved => true
    | _ => false

/-- The failure that an answer is.  A removal of the ready-file that fails
later on, when it is retracted, is logged only. -/
def Failure.of (hist : List Event) : (e : RunEff) → e.Answer → Option Failure
  | .newSeam, some e => some (.seam e)
  | .removeReadyFile, .failed e => if hygienic hist then none else some (.stale e)
  | .mountAndWaitReady spec, .error e => some (.start spec e)
  | .openReadyFile, some e => some (.readyCreate e)
  | .closeReadyFile, some e => some (.readyClose e)
  | .select points, .exited i (some e) => some (.exited (points.get i) e)
  | _, _ => none

/-- Why the mounts of a config are refused. -/
def specsRefusal (visit : List Path → List Path) (o : Orchestrator) (cfg : Config) : Option Err :=
  match o.buildSpecs visit cfg with
  | .error e => some e
  | .ok _ => none

/-- Why a run is refused for what it is given. -/
def refusal (visit : List Path → List Path) (o : Orchestrator) (cfg : Config) : Option Err :=
  if !o.seam && !o.newSeam then some (.text [.lit "orchestrator: no mount seam configured"])
  else specsRefusal visit o cfg

/-- The errors of the teardowns in a history. -/
def cleanupErrs (hist : List Event) : List Err :=
  hist.flatMap fun
    | .torndown points collected => collectErrs points collected
    | _ => []

/-- What ended a run, as an error. -/
def primary (o : Orchestrator) (refused : Option Err) (failure : Option Failure) : Option Err :=
  failure.map (·.err o) <|> refused

/-- A run that ended before its first start. -/
def premature (refused : Option Err) : Option Failure → Bool
  | some f => f.early
  | none => refused.isSome

/-- What is returned for a refusal, a failure and the errors of a teardown. -/
def verdict (o : Orchestrator) (refused : Option Err) (failure : Option Failure)
    (errs : List Err) : Option RunErr :=
  if premature refused failure then (primary o refused failure).map .plain
  else errorsJoin ((primary o refused failure).toList ++ errs)

/-! ## the program -/

/-- What the program has done so far. -/
structure Progress where
  history : List Event
  failure : Option Failure
  cancelled : Bool

def RunEff.isCancel : RunEff → Bool
  | .cancelMount => true
  | _ => false

/-- No start is made on a cancelled context. -/
def progressMonitor : Monitor RunEff.Answer Progress where
  ok st
    | .mountAndWaitReady _ => st.cancelled = false
    | _ => True
  next st e r :=
    ⟨st.history ++ record e r, st.failure <|> Failure.of st.history e r,
      st.cancelled || e.isCancel⟩

/-- What is returned accounts for the failure and the teardown. -/
def Accounts (o : Orchestrator) (refused : Option Err) (st : Progress) (r : Option RunErr) : Prop :=
  r = verdict o refused st.failure (cleanupErrs st.history) ∧
    (premature refused st.failure = true → cleanupErrs st.history = [])

/-- The startup: nothing has failed, nothing was torn down. -/
structure Progress.Starting (st : Progress) : Prop where
  failure : st.failure = none
  cleanup : cleanupErrs st.history = []
  live : st.cancelled = false

section Program

variable {o : Orchestrator} {refused : Option Err} {st : Progress} {started : List Point}

@[simp] theorem cleanupErrs_append (hist es : List Event) :
    cleanupErrs (hist ++ es) = cleanupErrs hist ++ cleanupErrs es :=
  List.flatMap_append

/-- Only the concurrent teardown records a teardown. -/
theorem torndown_notMem_record {e : RunEff} (hne : ∀ points, e ≠ .unmountEach points)
    (r : e.Answer) (points : List Point) (collected : List (Option Err)) :
    Event.torndown points collected ∉ record e r := by
  intro hmem
  have hof := of_mem_record r hmem
  cases e with
  | unmountEach points => exact hne points rfl
  | _ => cases hof

/-- What is read off teardowns only is not there in the record of another
effect. -/
theorem flatMap_record {β : Type} {f : Event → List β} {e : RunEff}
    (hne : ∀ points, e ≠ .unmountEach points) (r : e.Answer)
    (hf : ∀ ev, (∀ points collected, ev ≠ .torndown points collected) → f ev = []) :
    (record e r).flatMap f = [] := by
  refine List.flatMap_eq_nil_iff.mpr fun ev hev => hf ev ?_
  rintro points collected rfl
  exact torndown_notMem_record hne r points collected hev

/-- Only the concurrent teardown adds cleanup errors. -/
theorem cleanupErrs_record {e : RunEff} (hne : ∀ points, e ≠ .unmountEach points) (r : e.Answer) :
    cleanupErrs (record e r) = [] := by
  refine flatMap_record hne r fun ev hev => ?_
  cases ev with
  | torndown points collected => exact absurd rfl (hev points collected)
  | _ => rfl

/-- An effect that fails nothing and tears nothing down. -/
theorem accounts_quiet {e : RunEff} {r : e.Answer} {res : Option RunErr}
    (h : Accounts o refused st res) (hne : ∀ points, e ≠ .unmountEach points)
    (hf : Failure.of st.history e r = none) :
    Accounts o refused (progressMonitor.next st e r) res := by
  simp only [Accounts, progressMonitor, hf, Option.orElse_eq_orElse, cleanupErrs_append,
    cleanupErrs_record hne, List.append_nil] at h ⊢
  simpa using h

/-- A step that neither fails nor cancels keeps the startup going. -/
theorem Progress.Starting.next (h : st.Starting) {e : RunEff} {r : e.Answer}
    (hne : ∀ points, e ≠ .unmountEach points) (hf : Failure.of st.history e r = none)
    (hcancel : e.isCancel = false) : (progressMonitor.next st e r).Starting where
  failure := by simp [progressMonitor, h.failure, hf]
  cleanup := by simp [progressMonitor, h.cleanup, cleanupErrs_record hne]
  live := by simp [progressMonitor, h.live, hcancel]

/-- The first failure of a startup is recorded with no cleanup error before
it. -/
theorem Progress.Starting.failed (h : st.Starting) {e : RunEff} {r : e.Answer} {f : Failure}
    (hne : ∀ points, e ≠ .unmountEach points) (hf : Failure.of st.history e r = some f) :
    (progressMonitor.next st e r).failure = some f ∧
      cleanupErrs (progressMonitor.next st e r).history = [] := by
  simp [progressMonitor, h.failure, hf, h.cleanup, cleanupErrs_record hne]

/-- A run that ends before its first start. -/
theorem accounts_premature {e : RunErr} (hclean : cleanupErrs st.history = [])
    (hpre : premature refused st.failure = true)
    (he : (primary o refused st.failure).map .plain = some e) :
    Accounts o refused st (some e) :=
  ⟨by rw [verdict, if_pos hpre, he], fun _ => hclean⟩

/-- A teardown of any points, whatever has failed since the first start. -/
theorem accounts_unmountAll (hclean : cleanupErrs st.history = [])
    (hlate : premature none st.failure = false) (points : List Point) :
    Keeps progressMonitor (Accounts o none) st (unmountAll points >>= fun errs =>
      .ret (errorsJoin ((primary o none st.failure).toList ++ errs))) := by
  refine ⟨True.intro, fun collected => ?_⟩
  have hfail : (progressMonitor.next st (.unmountEach points) collected).failure = st.failure := by
    simp [progressMonitor, Failure.of]
  have hcoll : cleanupErrs (progressMonitor.next st (.unmountEach points) collected).history =
      collectErrs points collected := by
    show cleanupErrs (st.history ++ [.torndown points collected]) = _
    rw [cleanupErrs_append, hclean, cleanupErrs, List.flatMap_singleton, List.nil_append]
  refine ⟨?_, fun h => ?_⟩
  · rw [hfail, hcoll, verdict, hlate, if_neg Bool.false_ne_true]
  · rw [hfail, hlate] at h
    exact absurd h Bool.false_ne_true

/-- With nothing failed a teardown reports its own errors only. -/
theorem accounts_unfailed (hclean : cleanupErrs st.history = []) (hf : st.failure = none)
    (points : List Point) :
    Keeps progressMonitor (Accounts o none) st
      (unmountAll points >>= fun errs => .ret (errorsJoin errs)) := by
  have h := accounts_unmountAll (o := o) hclean (by rw [hf]; rfl) points
  rw [hf] at h
  exact h

/-- After a failure it reports the failure first. -/
theorem accounts_failed (hclean : cleanupErrs st.history = []) {f : Failure}
    (hf : st.failure = some f) (hlate : f.early = false) (points : List Point) :
    Keeps progressMonitor (Accounts o none) st
      (unmountAll points >>= fun errs => .ret (errorsJoin (f.err o :: errs))) := by
  have h := accounts_unmountAll (o := o) hclean (by rw [hf]; exact hlate) points
  rw [hf] at h
  exact h

/-- A startup that is cut short accounts for its cleanup errors. -/
theorem accounts_interrupted (h : st.Starting) :
    Keeps progressMonitor (Accounts o none) st
      (cancelMount >>= fun _ => shutdownDuringStartup started) := by
  refine ⟨True.intro, fun r => ?_⟩
  refine accounts_unfailed ?_ ?_ started
  · simp [progressMonitor, h.cleanup, cleanupErrs_record]
  · simp [progressMonitor, h.failure, Failure.of]

/-- So does the wait for a signal or an exit. -/
theorem accounts_blockUntilTeardown (h : st.Starting) :
    Keeps progressMonitor (Accounts o none) st (blockUntilTeardown started) := by
  refine ⟨True.intro, fun r => ?_⟩
  cases r with
  | signal =>
      have h' := h.next (e := .select started) (r := .signal) nofun rfl rfl
      exact accounts_unfailed h'.cleanup h'.failure started
  | exited i err =>
      cases err with
      | none =>
          have h' := h.next (e := .select started) (r := .exited i none) nofun rfl rfl
          exact accounts_unfailed h'.cleanup h'.failure _
      | some e =>
          obtain ⟨hf, hclean⟩ :=
            h.failed (e := .select started) (r := .exited i (some e)) nofun rfl
          exact accounts_failed hclean hf rfl _

/-- How readiness is told: nothing has failed, or the error is that of the
failure. -/
theorem keeps_signalReady_progress (n : Nat) (h : st.Starting) :
    Keeps progressMonitor (fun st err =>
      match err with
      | none => st.Starting
      | some e => cleanupErrs st.history = [] ∧
          ∃ f, st.failure = some f ∧ f.early = false ∧ f.err o = e) st
      (o.signalReady n) := by
  unfold Orchestrator.signalReady
  split
  · refine ⟨True.intro, fun r => ?_⟩
    cases r with
    | some e =>
        obtain ⟨hf, hclean⟩ := h.failed (e := .openReadyFile) (r := some e) nofun rfl
        exact ⟨hclean, _, hf, rfl, rfl⟩
    | none =>
        have h' := h.next (e := .openReadyFile) (r := none) nofun rfl rfl
        refine ⟨True.intro, fun r => ?_⟩
        cases r with
        | some e =>
            obtain ⟨hf, hclean⟩ := h'.failed (e := .closeReadyFile) (r := some e) nofun rfl
            exact ⟨hclean, _, hf, rfl, rfl⟩
        | none => exact h'.next (e := .closeReadyFile) (r := none) nofun rfl rfl
  · exact ⟨True.intro, fun r => h.next (e := .log (.allReady n)) (r := r) nofun rfl rfl⟩

/-- The startup, by induction on the specs that are left. -/
theorem accounts_fanOut {specs : List MountSpec} (h : st.Starting) :
    Keeps progressMonitor (Accounts o none) st (o.fanOut specs started) := by
  induction specs generalizing st started with
  | nil =>
      refine ⟨True.intro, fun pending => ?_⟩
      have h' := h.next (e := .pollSignal) (r := pending) nofun rfl rfl
      cases pending with
      | true => exact accounts_interrupted h'
      | false =>
          refine (keeps_signalReady_progress started.length h').bind fun st err hst => ?_
          cases err with
          | none => exact accounts_blockUntilTeardown hst
          | some e =>
              obtain ⟨hclean, f, hf, hlate, rfl⟩ := hst
              exact accounts_failed hclean hf hlate started
  | cons spec specs ih =>
      refine ⟨True.intro, fun pending => ?_⟩
      have h' := h.next (e := .pollSignal) (r := pending) nofun rfl rfl
      cases pending with
      | true => exact accounts_interrupted h'
      | false =>
          refine ⟨h'.live, fun r => ?_⟩
          cases r with
          | ok p => exact ih (h'.next (e := .mountAndWaitReady spec) (r := .ok p) nofun rfl rfl)
          | error e =>
              obtain ⟨hf, hclean⟩ :=
                h'.failed (e := .mountAndWaitReady spec) (r := .error e) nofun rfl
              exact accounts_failed hclean hf rfl started

/-- A deferred call that neither fails nor tears down anything, where `I` is
what every effect keeps. -/
theorem accounts_deferring {body : RunProg (Option RunErr)} {cleanup : RunProg Unit}
    {I : Progress → Prop} (hI : ∀ st e r, I st → I (progressMonitor.next st e r)) (hst : I st)
    (hbody : Keeps progressMonitor (Accounts o refused) st body)
    (hcleanup : ∀ st res, I st → Accounts o refused st res →
      Keeps progressMonitor (fun st _ => Accounts o refused st res) st cleanup) :
    Keeps progressMonitor (Accounts o refused) st (deferring body cleanup) :=
  (hbody.inv hI hst).bind fun st res h => (hcleanup st res h.1 h.2).bind fun _ _ h => h

variable (visit : List Path → List Path) (cfg : Config)

/-- So does the startup loop, on each of its exits. -/
theorem accounts_realize (h : st.Starting) :
    Keeps progressMonitor (Accounts o (specsRefusal visit o cfg)) st (realize visit o cfg) := by
  cases hspecs : o.buildSpecs visit cfg with
  | error e =>
      simp only [realize, specsRefusal, hspecs]
      exact accounts_premature h.cleanup (by rw [h.failure]; rfl) (by rw [h.failure]; rfl)
  | ok specs =>
      simp only [realize, specsRefusal, hspecs]
      cases specs with
      | nil =>
          refine ⟨True.intro, fun r => ?_⟩
          have h' := h.next (e := .log .noMounts) (r := r) nofun rfl rfl
          refine ⟨?_, fun _ => h'.cleanup⟩
          rw [h'.failure, h'.cleanup]
          rfl
      | cons spec specs =>
          refine accounts_deferring (I := fun _ => True) (fun _ _ _ h => h) trivial
            (accounts_fanOut h) fun st res _ hres => ⟨True.intro, fun r => ?_⟩
          exact accounts_quiet (e := .cancelMount) hres nofun rfl

theorem hygienic_append (hist es : List Event) :
    hygienic (hist ++ es) = (hygienic hist || hygienic es) :=
  List.any_append

/-- Removing the ready file on the way out changes no account. -/
theorem accounts_retract {res : Option RunErr} (hhyg : hygienic st.history = true)
    (h : Accounts o refused st res) :
    Keeps progressMonitor (fun st _ => Accounts o refused st res) st o.retract := by
  refine ⟨True.intro, fun r => ?_⟩
  have hf : Failure.of st.history .removeReadyFile r = none := by
    cases r <;> simp [Failure.of, hhyg]
  have h' := accounts_quiet h (e := .removeReadyFile) nofun hf
  cases r with
  | failed e =>
      refine ⟨True.intro, fun r => ?_⟩
      exact accounts_quiet h' (e := .log (.retract o.readyFilePath e)) nofun rfl
  | _ => exact h'

/-- The run with the ready-file of an earlier one out of the way. -/
theorem accounts_swept (h : st.Starting) (hhyg : hygienic st.history = true) :
    Keeps progressMonitor (Accounts o (specsRefusal visit o cfg)) st
      (deferring (realize visit o cfg) o.retract) := by
  refine accounts_deferring (I := fun st => hygienic st.history = true) ?_ hhyg
    (accounts_realize visit cfg h) fun st res hst hres => accounts_retract hst hres
  intro st e r hst
  simp [progressMonitor, hygienic_append, hst]

/-- So does the run from its hygiene step on. -/
theorem accounts_hygiene (h : st.Starting) (hhist : st.history = []) :
    Keeps progressMonitor (Accounts o (specsRefusal visit o cfg)) st (hygiene visit o cfg) := by
  unfold hygiene
  split
  · refine ⟨True.intro, fun r => ?_⟩
    cases r with
    | failed e =>
        obtain ⟨hf, hclean⟩ := h.failed (e := .removeReadyFile) (r := .failed e)
          (f := .stale e) nofun (by simp [Failure.of, hhist, hygienic])
        exact accounts_premature hclean (by rw [hf]; rfl) (by rw [hf]; rfl)
    | removed =>
        have h' := h.next (e := .removeReadyFile) (r := .removed) nofun rfl rfl
        exact accounts_swept visit cfg h' (by simp [progressMonitor, hhist, record, hygienic])
    | notExist =>
        have h' := h.next (e := .removeReadyFile) (r := .notExist) nofun rfl rfl
        exact accounts_swept visit cfg h' (by simp [progressMonitor, hhist, record, hygienic])
  · exact accounts_realize visit cfg h

/-- So does the run from its first effect on. -/
theorem accounts_listen (h : st.Starting) (hhist : st.history = []) :
    Keeps progressMonitor (Accounts o (specsRefusal visit o cfg)) st (listen visit o cfg) := by
  unfold listen
  split
  · exact accounts_hygiene visit cfg h hhist
  · refine ⟨True.intro, fun r => ?_⟩
    have h' := h.next (e := .notify) (r := r) nofun rfl rfl
    refine accounts_deferring (I := fun _ => True) (fun _ _ _ h => h) trivial
      (accounts_hygiene visit cfg h' (by simp [progressMonitor, hhist, record]))
      fun st res _ hres => ⟨True.intro, fun r => ?_⟩
    exact accounts_quiet (e := .stop) hres nofun rfl

/-- **The program accounts for its failure** and for the errors of its
teardown. -/
theorem accounts_run (o : Orchestrator) :
    Keeps progressMonitor (Accounts o (refusal visit o cfg)) ⟨[], none, false⟩
      (run visit o cfg) := by
  have h : Progress.Starting ⟨[], none, false⟩ := ⟨rfl, rfl, rfl⟩
  cases hseam : o.seam with
  | true =>
      simp only [run, refusal, hseam]
      exact accounts_listen visit cfg h rfl
  | false =>
      cases hnew : o.newSeam with
      | false =>
          simp only [run, refusal, hseam, hnew]
          exact ⟨rfl, fun _ => rfl⟩
      | true =>
          simp only [run, refusal, hseam, hnew]
          refine ⟨True.intro, fun r => ?_⟩
          cases r with
          | some e => exact ⟨rfl, fun _ => rfl⟩
          | none =>
              have h' := h.next (e := .newSeam) (r := none) nofun rfl rfl
              exact accounts_listen visit cfg h' rfl

end Program

/-! ## the ledger -/

structure Ledger where
  /-- The failure that ended the run. -/
  failure : Option Failure
  /-- The results of the unmount calls, in the order in which they returned. -/
  returned : List (Point × Option Err)

/-- The goroutines that are done, with their results. -/
def doneOf (ws : List Worker) : List (Point × Option Err) :=
  ws.filterMap fun
    | .done p err => some (p, err)
    | _ => none

/-- A step of the run with what it adds to the ledger. -/
inductive LedgerStep : RunState × Ledger → RunState × Ledger → Prop
  | effect {s : RunState} {l : Ledger} {e : RunEff} {k : e.Answer → RunProg (Option RunErr)}
      {r : e.Answer} (h : s.main = .op e k) (hr : s.Answers e r) :
      LedgerStep (s, l) ({ s.after e r with main := k r, history := s.history ++ record e r },
        { l with failure := l.failure <|> Failure.of s.history e r })
  | finish {s : RunState} {l : Ledger} {p : Point} (err : Option Err) (ws₁ ws₂ : List Worker)
      (h : s.workers = ws₁ ++ .unmounting p :: ws₂) :
      LedgerStep (s, l) ({ s with workers := ws₁ ++ .done p err :: ws₂ },
        { l with returned := l.returned ++ [(p, err)] })
  -- the other steps leave the program and the results alone
  | other {s s' : RunState} {l : Ledger} (h : RunStep s s') (hmain : s'.main = s.main)
      (hhist : s'.history = s.history) (hcancel : s'.cancelled = s.cancelled)
      (hdone : doneOf s'.workers = doneOf s.workers) : LedgerStep (s, l) (s', l)

/-- The runs of the orchestrator, with a ledger. -/
def ledgerRuns (visit : List Path → List Path) (o : Orchestrator) (cfg : Config) :
    System (RunState × Ledger) where
  init sl := (runs visit o cfg).init sl.1 ∧ sl.2 = ⟨none, []⟩
  step := LedgerStep

section Ledger

variable {visit : List Path → List Path} {o : Orchestrator} {cfg : Config}
variable {s s' : RunState} {l l' : Ledger}

@[simp] theorem doneOf_append (ws₁ ws₂ : List Worker) :
    doneOf (ws₁ ++ ws₂) = doneOf ws₁ ++ doneOf ws₂ :=
  List.filterMap_append

theorem doneOf_ready (points : List Point) : doneOf (points.map .ready) = [] := by
  induction points with
  | nil => rfl
  | cons p points ih => exact ih

theorem doneOf_done (points : List Point) (collected : List (Option Err)) :
    doneOf (List.zipWith .done points collected) = points.zip collected := by
  induction points generalizing collected with
  | nil => rfl
  | cons p points ih =>
      cases collected with
      | nil => rfl
      | cons err collected => exact congrArg ((p, err) :: ·) (ih collected)

/-- The ledger takes nothing away from the runs. -/
theorem exists_ledgerStep (h : RunStep s s') (l : Ledger) : ∃ l', LedgerStep (s, l) (s', l') := by
  cases h with
  | effect h hr => exact ⟨_, .effect h hr⟩
  | finish err ws₁ ws₂ h => exact ⟨_, .finish err ws₁ ws₂ h⟩
  | spawn h hnone =>
      refine ⟨l, .other (.spawn h hnone) rfl rfl rfl ?_⟩
      rw [hnone]
      exact doneOf_ready _
  | call ws₁ ws₂ h =>
      refine ⟨l, .other (.call ws₁ ws₂ h) rfl rfl rfl ?_⟩
      rw [h, doneOf_append, doneOf_append]
      rfl
  | deliver => exact ⟨l, .other .deliver rfl rfl rfl rfl⟩
  | exit err h => exact ⟨l, .other (.exit err h) rfl rfl rfl rfl⟩

/-- Every run can be kept with a ledger beside it. -/
theorem exists_ledger (h : (runs visit o cfg).Reachable s) :
    ∃ l, (ledgerRuns visit o cfg).Reachable (s, l) := by
  induction h with
  | init h => exact ⟨_, .init ⟨h, rfl⟩⟩
  | step _ hs ih =>
      obtain ⟨l, hl⟩ := ih
      obtain ⟨l', hl'⟩ := exists_ledgerStep hs l
      exact ⟨l', hl.step hl'⟩

/-- Nor does it add any. -/
theorem runStep_of_ledgerStep (h : LedgerStep (s, l) (s', l')) : RunStep s s' := by
  cases h with
  | effect h hr => exact .effect h hr
  | finish err ws₁ ws₂ h => exact .finish err ws₁ ws₂ h
  | other h => exact h

/-- The ledger adds no run of its own. -/
theorem reachable_of_ledger {sl : RunState × Ledger} (h : (ledgerRuns visit o cfg).Reachable sl) :
    (runs visit o cfg).Reachable sl.1 := by
  induction h with
  | init h => exact .init h.1
  | step _ hs ih => exact ih.step (runStep_of_ledgerStep hs)

/-! ## the invariant of the ledger -/

/-- The results of the teardowns in a history. -/
def finished (hist : List Event) : List (Point × Option Err) :=
  hist.flatMap fun
    | .torndown points collected => points.zip collected
    | _ => []

/-- What holds of the run and its ledger. -/
structure Balanced (o : Orchestrator) (refused : Option Err) (s : RunState) (l : Ledger) :
    Prop where
  main : Keeps progressMonitor (Accounts o refused) ⟨s.history, l.failure, s.cancelled⟩ s.main
  returned : l.returned.Perm (finished s.history ++ doneOf s.workers)
  lengths : ∀ points collected, .torndown points collected ∈ s.history →
    collected.length = points.length

@[simp] theorem finished_append (hist es : List Event) :
    finished (hist ++ es) = finished hist ++ finished es :=
  List.flatMap_append

theorem finished_record {e : RunEff} (hne : ∀ points, e ≠ .unmountEach points) (r : e.Answer) :
    finished (record e r) = [] := by
  refine flatMap_record hne r fun ev hev => ?_
  cases ev with
  | torndown points collected => exact absurd rfl (hev points collected)
  | _ => rfl

/-- The mount context is cancelled by the cancel effect and by nothing else.
-/
theorem after_cancelled (s : RunState) (e : RunEff) (r : e.Answer) :
    (s.after e r).cancelled = (s.cancelled || e.isCancel) := by
  cases e with
  | cancelMount => simp [RunState.after, RunEff.isCancel]
  | mountAndWaitReady spec => cases r <;> simp [RunState.after, RunEff.isCancel]
  | select points => cases r <;> simp [RunState.after, RunEff.isCancel]
  | removeReadyFile => cases r <;> simp [RunState.after, RunEff.isCancel]
  | openReadyFile => cases r <;> simp [RunState.after, RunEff.isCancel]
  | pollSignal => cases r <;> simp [RunState.after, RunEff.isCancel]
  | _ => simp [RunState.after, RunEff.isCancel]

variable {refused : Option Err} {e : RunEff} {r : e.Answer}

/-- After an effect the results on record are those of the teardowns that are
over. -/
theorem returned_effect (hb : Balanced o refused s l) (hr : s.Answers e r) :
    l.returned.Perm (finished (s.history ++ record e r) ++ doneOf (s.after e r).workers) ∧
      ∀ points collected, .torndown points collected ∈ s.history ++ record e r →
        collected.length = points.length := by
  have hret := hb.returned
  by_cases hne : ∀ points, e ≠ .unmountEach points
  · refine ⟨?_, fun points collected hmem => ?_⟩
    · rw [(after_of_ne (s := s) (r := r) hne).1, finished_append, finished_record hne,
        List.append_nil]
      exact hret
    · rcases List.mem_append.mp hmem with hmem | hmem
      · exact hb.lengths points collected hmem
      · exact absurd hmem (torndown_notMem_record hne r points collected)
  · obtain ⟨points, rfl⟩ : ∃ points, e = .unmountEach points := by
      simpa using hne
    obtain ⟨hworkers, hlen⟩ := hr
    rw [hworkers, doneOf_done] at hret
    refine ⟨by simpa [finished, record, RunState.after, doneOf] using hret, ?_⟩
    intro points' collected' hmem
    rcases List.mem_append.mp hmem with hmem | hmem
    · exact hb.lengths points' collected' hmem
    · cases List.mem_singleton.mp hmem
      exact hlen

/-- Every step keeps the balance. -/
theorem balanced_step (h : LedgerStep (s, l) (s', l')) (hb : Balanced o refused s l) :
    Balanced o refused s' l' := by
  cases h with
  | @effect _ _ e k r h hr =>
      have hkeeps := hb.main
      rw [h] at hkeeps
      obtain ⟨hret, hlen⟩ := returned_effect hb hr
      refine ⟨?_, hret, hlen⟩
      show Keeps progressMonitor _ ⟨s.history ++ record e r,
        l.failure <|> Failure.of s.history e r, (s.after e r).cancelled⟩ (k r)
      rw [after_cancelled]
      exact hkeeps.2 r
  | @finish _ _ p err ws₁ ws₂ h =>
      refine ⟨hb.main, ?_, hb.lengths⟩
      have hret := hb.returned
      rw [h] at hret
      have hdone : (doneOf (ws₁ ++ .done p err :: ws₂)).Perm
          (doneOf (ws₁ ++ .unmounting p :: ws₂) ++ [(p, err)]) := by
        rw [doneOf_append, doneOf_append]
        exact List.perm_middle.trans (List.perm_append_singleton _ _).symm
      refine (hret.append_right [(p, err)]).trans ?_
      rw [List.append_assoc]
      exact hdone.symm.append_left _
  | other h hmain hhist hcancel hdone =>
      refine ⟨?_, ?_, ?_⟩
      · rw [hmain, hhist, hcancel]
        exact hb.main
      · rw [hhist, hdone]
        exact hb.returned
      · rw [hhist]
        exact hb.lengths

/-- Every reachable state agrees with its ledger. -/
theorem reachable_balanced {sl : RunState × Ledger}
    (h : (ledgerRuns visit o cfg).Reachable sl) :
    Balanced o (refusal visit o cfg) sl.1 sl.2 := by
  refine h.invariant ?_ fun sl sl' _ hb hstep => balanced_step hstep hb
  rintro ⟨s, l⟩ ⟨⟨stale, rfl⟩, rfl⟩
  exact ⟨accounts_run visit cfg o, .refl [], nofun⟩

end Ledger

/-! ## the error of a run -/

/-- The points unmounted one after the other, with the results `unmount`. -/
def unmountSequentially (unmount : Point → Option Err) : List Point → List Err
  | [] => []
  | p :: points =>
      match unmount p with
      | some e =>
          .wrap [.lit "unmount ", .quoted p.destination, .lit ": "] e [] ::
            unmountSequentially unmount points
      | none => unmountSequentially unmount points

theorem unmountSequentially_append (unmount : Point → Option Err) (ps qs : List Point) :
    unmountSequentially unmount (ps ++ qs) =
      unmountSequentially unmount ps ++ unmountSequentially unmount qs := by
  induction ps with
  | nil => rfl
  | cons p ps ih =>
      cases h : unmount p <;> simp [unmountSequentially, h, ih]

/-- What the workers collect in any order is what a sequential unmount gives.
-/
theorem collectErrs_eq {unmount : Point → Option Err} {points : List Point}
    {collected : List (Option Err)} (hlen : collected.length = points.length)
    (h : ∀ pe ∈ points.zip collected, unmount pe.1 = pe.2) :
    collectErrs points collected = unmountSequentially unmount points := by
  induction points generalizing collected with
  | nil => rfl
  | cons p points ih =>
      cases collected with
      | nil => cases hlen
      | cons err collected =>
          have hp : unmount p = err := h (p, err) List.mem_cons_self
          have hrest := ih (Nat.succ.inj hlen) fun pe hpe => h pe (List.mem_cons_of_mem _ hpe)
          rw [collectErrs] at hrest ⊢
          cases err <;> simp [unmountSequentially, hp, ← hrest]

/-- The errors of a history's teardowns are those of unmounting the points one
after the other. -/
theorem cleanupErrs_eq {unmount : Point → Option Err} {hist : List Event}
    (hlen : ∀ points collected, .torndown points collected ∈ hist →
      collected.length = points.length)
    (h : ∀ pe ∈ finished hist, unmount pe.1 = pe.2) :
    cleanupErrs hist = unmountSequentially unmount (torndownOf hist) := by
  induction hist with
  | nil => rfl
  | cons ev hist ih =>
      have hrest := ih (fun points collected hmem => hlen _ _ (List.mem_cons_of_mem _ hmem))
        fun pe hpe => h pe (List.mem_append_right _ hpe)
      cases ev with
      | torndown points collected =>
          have hhead := collectErrs_eq (hlen points collected List.mem_cons_self)
            fun pe hpe => h pe (List.mem_append_left _ hpe)
          show collectErrs points collected ++ cleanupErrs hist =
            unmountSequentially unmount (points ++ torndownOf hist)
          rw [hhead, hrest, unmountSequentially_append]
      | _ => exact hrest

/-- The finished unmounts are those of the torn-down mounts. -/
theorem finished_points {hist : List Event}
    (hlen : ∀ points collected, .torndown points collected ∈ hist →
      collected.length = points.length) :
    (finished hist).map Prod.fst = torndownOf hist := by
  induction hist with
  | nil => rfl
  | cons ev hist ih =>
      have hrest := ih fun points collected hmem => hlen _ _ (List.mem_cons_of_mem _ hmem)
      cases ev with
      | torndown points collected =>
          have hle := Nat.le_of_eq (hlen points collected List.mem_cons_self).symm
          show (points.zip collected ++ finished hist).map Prod.fst = points ++ torndownOf hist
          rw [List.map_append, List.map_fst_zip hle, hrest]
      | _ => exact hrest

/-- The errors that a result reports, in order. -/
def RunErr.parts : Option RunErr → List Err
  | none => []
  | some (.plain e) => [e]
  | some (.joined es) => es

/-- The parts of a verdict: what ended the run, then the teardown. -/
theorem parts_of_accounts {o : Orchestrator} {refused : Option Err} {st : Progress}
    {r : Option RunErr} (h : Accounts o refused st r) :
    RunErr.parts r = (primary o refused st.failure).toList ++ cleanupErrs st.history ∧
      (r = none ↔ primary o refused st.failure = none ∧ cleanupErrs st.history = []) := by
  obtain ⟨rfl, hpre⟩ := h
  unfold verdict
  split
  · next hp =>
      rw [hpre hp]
      cases primary o refused st.failure <;> simp [RunErr.parts]
  · cases primary o refused st.failure with
    | some e => simp [errorsJoin, RunErr.parts]
    | none => cases cleanupErrs st.history <;> simp [errorsJoin, RunErr.parts]

/-- A cleanup is clean exactly if each of its unmounts is. -/
theorem unmountSequentially_eq_nil {unmount : Point → Option Err} {points : List Point} :
    unmountSequentially unmount points = [] ↔ ∀ p ∈ points, unmount p = none := by
  induction points with
  | nil => simp [unmountSequentially]
  | cons p points ih => cases h : unmount p <;> simp [unmountSequentially, h, ih]

/-- Results of distinct points are those of one function. -/
theorem exists_unmount {returned : List (Point × Option Err)}
    (hnd : (returned.map Prod.fst).Nodup) :
    ∃ unmount : Point → Option Err, ∀ pe ∈ returned, unmount pe.1 = pe.2 := by
  refine ⟨fun p => (returned.find? fun pe => pe.1 = p).bind Prod.snd, fun pe hpe => ?_⟩
  cases hfind : returned.find? fun pe' => pe'.1 = pe.1 with
  | none => simpa using List.find?_eq_none.mp hfind pe hpe
  | some pe' =>
      have hkey : pe'.1 = pe.1 := by simpa using List.find?_some hfind
      have heq : pe' = pe :=
        List.inj_on_of_nodup_map hnd (List.mem_of_find?_eq_some hfind) hpe hkey
      show (returned.find? fun pe' => pe'.1 = pe.1).bind Prod.snd = pe.2
      rw [hfind, heq]
      rfl

/-- **No failure is lost**: when `run` has returned, every point that was owed
a teardown has had its unmount call returned once, and the error is made of
what ended the run and of the errors of the failed calls, in start order, as
if the points had been unmounted one after the other.  It is the join of them
in every run that has come to its first start.  It is nil exactly if nothing
failed. -/
theorem run_reports_failures (visit : List Path → List Path) (o : Orchestrator) (cfg : Config)
    {s : RunState} {l : Ledger} (h : (ledgerRuns visit o cfg).Reachable (s, l))
    {r : Option RunErr} (hret : s.main = .ret r) :
    (l.returned.map Prod.fst).Perm (owed s.history) ∧
    (∃ unmount : Point → Option Err, ∀ pe ∈ l.returned, unmount pe.1 = pe.2) ∧
    (∀ unmount : Point → Option Err, (∀ pe ∈ l.returned, unmount pe.1 = pe.2) →
      RunErr.parts r = (primary o (refusal visit o cfg) l.failure).toList ++
        unmountSequentially unmount (owed s.history) ∧
      (premature (refusal visit o cfg) l.failure = false →
        r = errorsJoin ((primary o (refusal visit o cfg) l.failure).toList ++
          unmountSequentially unmount (owed s.history)))) ∧
    (r = none ↔ primary o (refusal visit o cfg) l.failure = none ∧
      ∀ pe ∈ l.returned, pe.2 = none) := by
  have hs := reachable_sound (reachable_of_ledger h)
  have hb := reachable_balanced h
  have hsettled := hs.main
  rw [hret] at hsettled
  have haccounts := hb.main
  rw [hret] at haccounts
  have hnone : s.workers = [] := by
    refine Decidable.byContradiction fun hw => ?_
    obtain ⟨points, k, hmain, -⟩ := hs.workers hw
    cases hret.symm.trans hmain
  have hperm : l.returned.Perm (finished s.history) := by
    simpa [hnone, doneOf] using hb.returned
  have hpoints : (l.returned.map Prod.fst).Perm (owed s.history) := by
    rw [← hsettled, ← finished_points hb.lengths]
    exact hperm.map _
  have hseq : ∀ unmount : Point → Option Err, (∀ pe ∈ l.returned, unmount pe.1 = pe.2) →
      cleanupErrs s.history = unmountSequentially unmount (owed s.history) := by
    intro unmount hun
    rw [← hsettled]
    exact cleanupErrs_eq hb.lengths fun pe hpe => hun pe (hperm.mem_iff.mpr hpe)
  have hex := exists_unmount (hpoints.nodup_iff.mpr (hs.history.nodup.filter _))
  obtain ⟨hparts, hnil⟩ := parts_of_accounts haccounts
  refine ⟨hpoints, hex, fun unmount hun => ⟨?_, fun hlate => ?_⟩, ?_⟩
  · rw [hparts, hseq unmount hun]
  · rw [← hseq unmount hun, haccounts.1, verdict, if_neg (by simp [hlate])]
  · obtain ⟨unmount, hun⟩ := hex
    rw [hnil, hseq unmount hun, unmountSequentially_eq_nil]
    refine and_congr_right fun _ => ⟨fun hall pe hpe => ?_, fun hall p hp => ?_⟩
    · rw [← hun pe hpe]
      exact hall _ (hpoints.mem_iff.mp (List.mem_map_of_mem hpe))
    · obtain ⟨pe, hpe, rfl⟩ := List.mem_map.mp (hpoints.mem_iff.mpr hp)
      rw [hun pe hpe]
      exact hall pe hpe

/-- The first of two points exits with an error, and the unmount of the second
fails. -/
theorem run_reports_failures_pair :
    ∃ s l r, (ledgerRuns id pairOrchestrator pairConfig).Reachable (s, l) ∧ s.main = .ret r ∧
      l.failure = some (.exited pointA (.text [.lit "gone"])) ∧
      l.returned = [(pointB, some (.text [.lit "busy"]))] ∧ r ≠ none := by
  have h₀ := System.Reachable.init (S := ledgerRuns id pairOrchestrator pairConfig)
    (s := (⟨run id pairOrchestrator pairConfig, [], 0, [], false, false, [], []⟩, ⟨none, []⟩))
    ⟨⟨false, rfl⟩, rfl⟩
  have h₁ := h₀.step (.effect (e := .pollSignal) (r := false) rfl rfl)
  have h₂ := h₁.step (.effect (e := .mountAndWaitReady _) (r := .ok pointA) rfl List.not_mem_nil)
  have h₃ := h₂.step (.effect (e := .pollSignal) (r := false) rfl rfl)
  have hfresh : Event.mounted pointB ∉ [.mounted pointA] := by
    simp [pointA, pointB]
  have h₄ := h₃.step (.effect (e := .mountAndWaitReady _) (r := .ok pointB) rfl hfresh)
  have h₅ := h₄.step (.effect (e := .pollSignal) (r := false) rfl rfl)
  have h₆ := h₅.step (.effect (e := .log _) (r := ()) rfl True.intro)
  have h₇ := h₆.step (.other (.exit (p := pointA) (some (.text [.lit "gone"])) List.mem_cons_self)
    rfl rfl rfl rfl)
  have h₈ := h₇.step (.effect (e := .select [pointA, pointB])
    (r := .exited 0 (some (.text [.lit "gone"]))) rfl List.mem_cons_self)
  have h₉ := h₈.step (.other (.spawn rfl rfl) rfl rfl rfl rfl)
  have h₁₀ := h₉.step (.other (.call [] [] rfl) rfl rfl rfl rfl)
  have h₁₁ := h₁₀.step (.finish (some (.text [.lit "busy"])) [] [] rfl)
  have h₁₂ := h₁₁.step (.effect (e := .unmountEach [pointB])
    (r := [some (.text [.lit "busy"])]) rfl ⟨rfl, rfl⟩)
  have h₁₃ := h₁₂.step (.effect (e := .cancelMount) (r := ()) rfl True.intro)
  have hnil := (run_reports_failures id pairOrchestrator pairConfig h₁₃ rfl).2.2.2
  exact ⟨_, _, _, h₁₃, rfl, rfl, rfl, fun h => Option.some_ne_none _ (hnil.mp h).1⟩

/-! ## a signal during a start -/

section Abort

variable {visit : List Path → List Path} {o : Orchestrator} {cfg : Config} {s s' : RunState}

/-- The context of a start that is under way is not cancelled. -/
theorem not_cancelled_of_start (h : (runs visit o cfg).Reachable s) {spec : MountSpec}
    {k : Except Err Point → RunProg (Option RunErr)}
    (hmain : s.main = .op (.mountAndWaitReady spec) k) : s.cancelled = false := by
  obtain ⟨l, hl⟩ := exists_ledger h
  have hkeeps := (reachable_balanced hl).main
  rw [hmain] at hkeeps
  exact hkeeps.1

/-- Only the program cancels it, and not while it waits for the start. -/
theorem cancelled_step (h : RunStep s s') {spec : MountSpec}
    {k : Except Err Point → RunProg (Option RunErr)}
    (hmain : s.main = .op (.mountAndWaitReady spec) k) : s'.cancelled = s.cancelled := by
  cases h with
  | effect h hr =>
      cases hmain.symm.trans h
      show (s.after _ _).cancelled = s.cancelled
      rw [after_cancelled]
      exact Bool.or_false _
  | _ => rfl

/-- **A signal does not abort a start**: in no run is there, while a start is
under way and a signal waits on the channel, a step that cancels the context
of the start, with the call still under way or even with its return; nor is
there a sequence of steps that does so before the call returns. -/
theorem signal_aborts_no_start (visit : List Path → List Path) (o : Orchestrator) (cfg : Config)
    {s : RunState} (h : (runs visit o cfg).Reachable s) {spec : MountSpec}
    {k : Except Err Point → RunProg (Option RunErr)}
    (hmain : s.main = .op (.mountAndWaitReady spec) k) (_hsignal : 0 < s.signals) :
    ¬ (∃ s', RunStep s s' ∧ s'.cancelled = true) ∧
      ∀ s', Relation.ReflTransGen (fun s s' => RunStep s s' ∧ s'.main = s.main) s s' →
        s'.cancelled = false := by
  have hlive := not_cancelled_of_start h hmain
  refine ⟨?_, fun s' hrun => ?_⟩
  · rintro ⟨s', hstep, hcancel⟩
    rw [cancelled_step hstep hmain, hlive] at hcancel
    exact Bool.false_ne_true hcancel
  · have hkeep : s'.main = s.main ∧ s'.cancelled = false := by
      induction hrun with
      | refl => exact ⟨rfl, hlive⟩
      | tail _ hstep ih =>
          exact ⟨hstep.2.trans ih.1, (cancelled_step hstep.1 (ih.1.trans hmain)).trans ih.2⟩
    exact hkeep.2

/-- The first start of two mounts is under way and a signal has come. -/
theorem exists_interrupted_start :
    ∃ s spec k, (runs id pairOrchestrator pairConfig).Reachable s ∧
      s.main = .op (.mountAndWaitReady spec) k ∧ 0 < s.signals := by
  have h₀ := System.Reachable.init (S := runs id pairOrchestrator pairConfig) ⟨false, rfl⟩
  have h₁ := h₀.step (.effect (e := .pollSignal) (r := false) rfl rfl)
  exact ⟨_, _, _, h₁.step .deliver, rfl, Nat.one_pos⟩

theorem signal_aborts_no_start_pair :
    ∃ s spec k, (runs id pairOrchestrator pairConfig).Reachable s ∧
      s.main = .op (.mountAndWaitReady spec) k ∧ 0 < s.signals ∧
      ¬ ∃ s', RunStep s s' ∧ s'.cancelled = true := by
  obtain ⟨s, spec, k, h, hmain, hsignal⟩ := exists_interrupted_start
  exact ⟨s, spec, k, h, hmain, hsignal,
    (signal_aborts_no_start id pairOrchestrator pairConfig h hmain hsignal).1⟩

/-- What the component's documentation promises fails in that state. -/
theorem start_not_aborted :
    ∃ s spec k, (runs id pairOrchestrator pairConfig).Reachable s ∧
      s.main = .op (.mountAndWaitReady spec) k ∧ 0 < s.signals ∧
      ∀ s', RunStep s s' → s'.cancelled = false := by
  obtain ⟨s, spec, k, h, hmain, hsignal⟩ := exists_interrupted_start
  refine ⟨s, spec, k, h, hmain, hsignal, fun s' hstep => ?_⟩
  rw [cancelled_step hstep hmain]
  exact not_cancelled_of_start h hmain

end Abort

end OcuFilestore.Mounter
