import OcuFilestore.Lib.Monitor
import OcuFilestore.Mounter.Orchestrator

/-!
# OcuFilestore.Mounter.Teardown

What a run of the orchestrator starts it also tears down, once.

The program is checked against a monitor over the run's history: a start is
allowed as long as nothing has halted the startup, and the one teardown gets
exactly the points that are owed one, the points that were mounted without
the one whose exit was selected (`settles_run`).  An invariant of the system
carries this over to the goroutines that make the calls of `unmount`.
-/

namespace OcuFilestore.Mounter

open Mountcfg Prog

/-! ## the history -/

/-- The points that were mounted, in the order of their starts. -/
def mountedOf (hist : List Event) : List Point :=
  hist.filterMap fun
    | .mounted p => some p
    | _ => none

/-- The points whose exit was selected. -/
def exitedOf (hist : List Event) : List Point :=
  hist.filterMap fun
    | .exitSelected p _ => some p
    | _ => none

/-- The points whose teardown is over. -/
def torndownOf (hist : List Event) : List Point :=
  hist.flatMap fun
    | .torndown points _ => points
    | _ => []

/-- The points that a teardown has to unmount. -/
def owed (hist : List Event) : List Point :=
  (mountedOf hist).filter (· ∉ exitedOf hist)

/-- The events after which nothing is started any more. -/
def Event.Halts : Event → Prop
  | .signalTaken => True
  | .startFailed _ _ => True
  | _ => False

/-- The effects that an event is recorded for. -/
def Event.Of : Event → RunEff → Prop
  | .mounted _, .mountAndWaitReady _ => True
  | .startFailed _ _, .mountAndWaitReady _ => True
  | .readyRemoved, .removeReadyFile => True
  | .readyCreated, .openReadyFile => True
  | .signalTaken, .pollSignal => True
  | .signalTaken, .select _ => True
  | .exitSelected _ _, .select _ => True
  | .torndown _ _, .unmountEach _ => True
  | _, _ => False

section History

variable {hist es : List Event} {p : Point}

/-- An effect records only the events that belong to it. -/
theorem of_mem_record {e : RunEff} (r : e.Answer) {ev : Event} (h : ev ∈ record e r) :
    ev.Of e := by
  unfold record at h
  split at h
  case h_10 => cases h
  all_goals
    rw [List.mem_singleton.mp h]
    trivial

theorem mem_mountedOf : p ∈ mountedOf hist ↔ .mounted p ∈ hist := by
  rw [mountedOf, List.mem_filterMap]
  constructor
  · rintro ⟨e, he, hp⟩
    cases e <;> simp_all
  · exact fun h => ⟨_, h, rfl⟩

theorem mem_exitedOf : p ∈ exitedOf hist ↔ ∃ err, .exitSelected p err ∈ hist := by
  rw [exitedOf, List.mem_filterMap]
  constructor
  · rintro ⟨e, he, hp⟩
    cases e with
    | exitSelected q err =>
        cases hp
        exact ⟨err, he⟩
    | _ => cases hp
  · exact fun ⟨err, h⟩ => ⟨_, h, rfl⟩

@[simp] theorem mountedOf_append : mountedOf (hist ++ es) = mountedOf hist ++ mountedOf es :=
  List.filterMap_append

@[simp] theorem exitedOf_append : exitedOf (hist ++ es) = exitedOf hist ++ exitedOf es :=
  List.filterMap_append

@[simp] theorem torndownOf_append : torndownOf (hist ++ es) = torndownOf hist ++ torndownOf es :=
  List.flatMap_append

@[simp] theorem points_mounted (p : Point) :
    mountedOf [.mounted p] = [p] ∧ exitedOf [.mounted p] = [] ∧ torndownOf [.mounted p] = [] :=
  ⟨rfl, rfl, rfl⟩

@[simp] theorem points_exitSelected (p : Point) (err : Option Err) :
    mountedOf [.exitSelected p err] = [] ∧ exitedOf [.exitSelected p err] = [p] ∧
      torndownOf [.exitSelected p err] = [] :=
  ⟨rfl, rfl, rfl⟩

@[simp] theorem points_torndown (points : List Point) (collected : List (Option Err)) :
    mountedOf [.torndown points collected] = [] ∧ exitedOf [.torndown points collected] = [] ∧
      torndownOf [.torndown points collected] = points :=
  ⟨rfl, rfl, List.append_nil points⟩

/-- Events that no point is concerned with. -/
structure Neutral (es : List Event) : Prop where
  mounted : mountedOf es = []
  exited : exitedOf es = []
  torndown : torndownOf es = []

/-- Events that start, end and unmount no mount leave what is owed as it was.
-/
theorem owed_append (h : Neutral es) : owed (hist ++ es) = owed hist := by
  simp [owed, h.mounted, h.exited]

/-- With no exit selected every mounted point is owed a teardown. -/
theorem owed_eq_mountedOf (h : exitedOf hist = []) : owed hist = mountedOf hist := by
  simp [owed, h]

end History

/-! ## the program -/

/-- When an effect is allowed, by the history of the run. -/
def teardownMonitor : Monitor RunEff.Answer (List Event) where
  ok hist
    | .mountAndWaitReady _ => (∀ e ∈ hist, ¬ e.Halts) ∧ torndownOf hist = []
    | .select points => points = mountedOf hist ∧ exitedOf hist = [] ∧ torndownOf hist = []
    | .unmountEach points => points = owed hist ∧ torndownOf hist = []
    | _ => True
  next hist e r := hist ++ record e r

/-- Everything that is owed a teardown has had it. -/
def Settled (hist : List Event) : Prop := torndownOf hist = owed hist

/-- Every run of the program from this history keeps the monitor, and ends
settled. -/
abbrev Settles {α : Type} (hist : List Event) (p : RunProg α) : Prop :=
  Keeps teardownMonitor (fun hist _ => Settled hist) hist p

/-- The points `started` are up, and no exit was selected. -/
structure Up (hist : List Event) (started : List Point) : Prop where
  mounted : mountedOf hist = started
  exited : exitedOf hist = []
  torndown : torndownOf hist = []

/-- The effects that no point is concerned with. -/
def RunEff.Quiet : RunEff → Prop
  | .mountAndWaitReady _ => False
  | .select _ => False
  | .unmountEach _ => False
  | _ => True

/-- The quiet effects record neutral events only. -/
theorem neutral_record {e : RunEff} (he : e.Quiet) (r : e.Answer) : Neutral (record e r) := by
  cases e with
  | mountAndWaitReady spec => cases he
  | select points => cases he
  | unmountEach points => cases he
  | removeReadyFile => cases r <;> exact ⟨rfl, rfl, rfl⟩
  | openReadyFile => cases r <;> exact ⟨rfl, rfl, rfl⟩
  | pollSignal => cases r <;> exact ⟨rfl, rfl, rfl⟩
  | _ => exact ⟨rfl, rfl, rfl⟩

section Program

variable {hist : List Event} {started : List Point}

/-- A quiet effect is always allowed. -/
theorem keeps_quiet {α : Type} {Q : List Event → α → Prop} {e : RunEff}
    {k : e.Answer → RunProg α} (he : e.Quiet)
    (hk : ∀ r, Neutral (record e r) → Keeps teardownMonitor Q (hist ++ record e r) (k r)) :
    Keeps teardownMonitor Q hist (.op e k) := by
  refine ⟨?_, fun r => hk r (neutral_record he r)⟩
  cases e with
  | mountAndWaitReady spec => cases he
  | select points => cases he
  | unmountEach points => cases he
  | _ => exact True.intro

/-- While the started mounts are up, they are what is owed, in start order. -/
theorem Up.owed_eq (h : Up hist started) : owed hist = started := by
  rw [owed_eq_mountedOf h.exited, h.mounted]

/-- Neutral events keep the started mounts up. -/
theorem Up.append {es : List Event} (h : Up hist started) (hes : Neutral es) :
    Up (hist ++ es) started :=
  ⟨by simp [h.mounted, hes.mounted], by simp [h.exited, hes.exited],
    by simp [h.torndown, hes.torndown]⟩

/-- A teardown of what is owed settles it. -/
theorem settles_unmountAll {points : List Point} (hpoints : points = owed hist)
    (hnone : torndownOf hist = []) (f : List Err → Option RunErr) :
    Settles hist (unmountAll points >>= fun errs => .ret (f errs)) := by
  refine ⟨⟨hpoints, hnone⟩, fun collected => ?_⟩
  show torndownOf (hist ++ [.torndown points collected]) =
    owed (hist ++ [.torndown points collected])
  simp [owed, hnone, hpoints]

/-- Unmounting what is up settles the run, whatever is made of the errors. -/
theorem Up.settles_unmountAll (h : Up hist started) (f : List Err → Option RunErr) :
    Settles hist (unmountAll started >>= fun errs => .ret (f errs)) :=
  Mounter.settles_unmountAll h.owed_eq.symm h.torndown f

/-- A signal during startup unmounts everything that was started. -/
theorem settles_shutdownDuringStartup (h : Up hist started) :
    Settles hist (shutdownDuringStartup started) :=
  h.settles_unmountAll errorsJoin

/-- A signal or an exit after startup unmounts everything that is still up. -/
theorem settles_blockUntilTeardown (h : Up hist started) :
    Settles hist (blockUntilTeardown started) := by
  refine ⟨⟨h.mounted.symm, h.exited, h.torndown⟩, fun r => ?_⟩
  cases r with
  | signal =>
      have hup : Up (hist ++ [.signalTaken]) started := h.append ⟨rfl, rfl, rfl⟩
      exact hup.settles_unmountAll errorsJoin
  | exited i err =>
      have howed : started.filter (· ≠ started.get i) =
          owed (hist ++ [.exitSelected (started.get i) err]) := by
        simp [owed, h.mounted, h.exited]
      have hnone : torndownOf (hist ++ [.exitSelected (started.get i) err]) = [] := by
        simp [h.torndown]
      cases err with
      | none => exact settles_unmountAll howed hnone errorsJoin
      | some e => exact settles_unmountAll howed hnone fun errs => errorsJoin (_ :: errs)

/-- Announcing readiness touches no mount. -/
theorem keeps_signalReady (o : Orchestrator) (n : Nat) (h : Up hist started) :
    Keeps teardownMonitor (fun hist _ => Up hist started) hist (o.signalReady n) := by
  unfold Orchestrator.signalReady
  split
  · refine keeps_quiet True.intro fun r hr => ?_
    have hup := h.append hr
    cases r with
    | some e => exact hup
    | none => exact keeps_quiet True.intro fun _ hr => hup.append hr
  · exact keeps_quiet True.intro fun _ hr => h.append hr

/-- A signal that is pending ends the startup. -/
theorem settles_interrupted (h : Up hist started) :
    Settles hist (cancelMount >>= fun _ => shutdownDuringStartup started) :=
  keeps_quiet True.intro fun _ hr => settles_shutdownDuringStartup (h.append hr)

/-- The startup, by induction on the specs that are left. -/
theorem settles_fanOut (o : Orchestrator) {specs : List MountSpec} (h : Up hist started)
    (hgo : ∀ e ∈ hist, ¬ e.Halts) : Settles hist (o.fanOut specs started) := by
  induction specs generalizing hist started with
  | nil =>
      refine keeps_quiet True.intro fun pending hr => ?_
      have hup := h.append hr
      cases pending with
      | true => exact settles_interrupted hup
      | false =>
          refine (keeps_signalReady o started.length hup).bind fun hist err hup => ?_
          cases err with
          | some e => exact hup.settles_unmountAll fun errs => errorsJoin (e :: errs)
          | none => exact settles_blockUntilTeardown hup
  | cons spec specs ih =>
      refine keeps_quiet True.intro fun pending hr => ?_
      cases pending with
      | true => exact settles_interrupted (h.append hr)
      | false =>
          rw [show hist ++ record .pollSignal false = hist from List.append_nil hist]
          refine ⟨⟨hgo, h.torndown⟩, fun r => ?_⟩
          cases r with
          | error e =>
              have hup : Up (hist ++ [.startFailed spec e]) started := h.append ⟨rfl, rfl, rfl⟩
              exact hup.settles_unmountAll fun errs => errorsJoin (_ :: errs)
          | ok p =>
              have hup : Up (hist ++ [.mounted p]) (started ++ [p]) :=
                ⟨by simp [h.mounted], by simp [h.exited], by simp [h.torndown]⟩
              refine ih hup fun e he => ?_
              rcases List.mem_append.mp he with he | he
              · exact hgo e he
              · rw [List.mem_singleton.mp he]
                exact id

/-- A deferred call does not undo what the body has settled. -/
theorem settles_deferring {body : RunProg (Option RunErr)} {cleanup : RunProg Unit}
    (hbody : Settles hist body) (hcleanup : ∀ hist, Settled hist → Settles hist cleanup) :
    Settles hist (deferring body cleanup) :=
  hbody.bind fun hist _ hs => (hcleanup hist hs).bind fun _ _ hs => hs

theorem Settled.append {es : List Event} (h : Settled hist) (hes : Neutral es) :
    Settled (hist ++ es) := by
  rw [Settled, torndownOf_append, hes.torndown, owed_append hes, List.append_nil]
  exact h

/-- Nor does the removal of the ready file on the way out. -/
theorem settles_retract (o : Orchestrator) (h : Settled hist) : Settles hist o.retract := by
  refine keeps_quiet True.intro fun r hr => ?_
  have hs := h.append hr
  cases r with
  | failed e => exact keeps_quiet True.intro fun _ hr => hs.append hr
  | _ => exact hs

theorem Up.settled (h : Up hist []) : Settled hist := by
  rw [Settled, h.torndown, h.owed_eq]

/-- `realize` settles its mounts on every path through the startup loop. -/
theorem settles_realize (visit : List Path → List Path) (o : Orchestrator) (cfg : Config)
    (h : Up hist []) (hgo : ∀ e ∈ hist, ¬ e.Halts) : Settles hist (realize visit o cfg) := by
  unfold realize
  split
  · exact h.settled
  · exact keeps_quiet True.intro fun _ hr => h.settled.append hr
  · exact settles_deferring (settles_fanOut o h hgo) fun hist hs =>
      keeps_quiet True.intro fun _ hr => hs.append hr

/-- So does the run from its hygiene step on. -/
theorem settles_hygiene (visit : List Path → List Path) (o : Orchestrator) (cfg : Config) :
    Settles [] (hygiene visit o cfg) := by
  unfold hygiene
  split
  · refine ⟨True.intro, fun r => ?_⟩
    cases r with
    | failed e => exact rfl
    | _ =>
        exact settles_deferring (settles_realize visit o cfg ⟨rfl, rfl, rfl⟩
          (by rintro e (_ | ⟨_, ⟨⟩⟩); exact id)) fun _ => settles_retract o
  · exact settles_realize visit o cfg ⟨rfl, rfl, rfl⟩ nofun

/-- So does the run from its first effect on. -/
theorem settles_listen (visit : List Path → List Path) (o : Orchestrator) (cfg : Config) :
    Settles [] (listen visit o cfg) := by
  unfold listen
  split
  · exact settles_hygiene visit o cfg
  · refine keeps_quiet True.intro fun _ _ => settles_deferring (settles_hygiene visit o cfg) ?_
    exact fun hist hs => keeps_quiet True.intro fun _ hr => hs.append hr

/-- **The program keeps the monitor**, and ends with every debt settled. -/
theorem settles_run (visit : List Path → List Path) (o : Orchestrator) (cfg : Config) :
    Settles [] (run visit o cfg) := by
  unfold run
  split
  · exact settles_listen visit o cfg
  · split
    · exact rfl
    · refine ⟨True.intro, fun r => ?_⟩
      cases r with
      | some e => exact rfl
      | none => exact settles_listen visit o cfg

end Program

/-! ## the goroutines -/

def Worker.point : Worker → Point
  | ready p => p
  | unmounting p => p
  | done p _ => p

/-- The points whose goroutine has made its call. -/
def begun (ws : List Worker) : List Point :=
  ws.filterMap fun
    | .ready _ => none
    | w => some w.point

/-- Each worker begins its unmount at most once. -/
theorem begun_sublist (ws : List Worker) : (begun ws).Sublist (ws.map Worker.point) := by
  induction ws with
  | nil => exact .slnil
  | cons w ws ih =>
      cases w with
      | ready p => exact ih.cons p
      | unmounting p => exact ih.cons_cons p
      | done p err => exact ih.cons_cons p

theorem begun_append (ws₁ ws₂ : List Worker) : begun (ws₁ ++ ws₂) = begun ws₁ ++ begun ws₂ :=
  List.filterMap_append

theorem begun_ready (points : List Point) : begun (points.map .ready) = [] := by
  induction points with
  | nil => rfl
  | cons p points ih => exact ih

/-- Workers that are all done have all begun. -/
theorem begun_done {points : List Point} {collected : List (Option Err)}
    (h : collected.length = points.length) :
    begun (List.zipWith .done points collected) = points := by
  induction points generalizing collected with
  | nil => rfl
  | cons p points ih =>
      cases collected with
      | nil => cases h
      | cons err collected => exact congrArg (p :: ·) (ih (Nat.succ.inj h))

/-! ## the invariant -/

/-- No point is mounted twice or selected beside another, and nothing is torn
down but what is owed a teardown. -/
structure Lawful (hist : List Event) : Prop where
  nodup : (mountedOf hist).Nodup
  exited : ∀ p ∈ exitedOf hist, ∀ q ∈ exitedOf hist, p = q
  torndown : torndownOf hist = [] ∨ Settled hist

/-- What holds in every state of a run. -/
structure RunState.Sound (s : RunState) : Prop where
  main : Settles s.history s.main
  history : Lawful s.history
  /-- Goroutines are there only while the program waits for them. -/
  workers : s.workers ≠ [] →
    ∃ points k, s.main = .op (.unmountEach points) k ∧ s.workers.map Worker.point = points
  calls : s.unmounted.Perm (torndownOf s.history ++ begun s.workers)

section Invariant

variable {s s' : RunState} {e : RunEff} {r : e.Answer}

theorem Lawful.append {hist es : List Event} (h : Lawful hist) (hes : Neutral es) :
    Lawful (hist ++ es) :=
  ⟨by simpa [hes.mounted] using h.nodup, by simpa [hes.exited] using h.exited,
    h.torndown.imp (fun hnone => by simp [hnone, hes.torndown]) fun hs => hs.append hes⟩

/-- The history stays lawful when an allowed effect gets a possible answer. -/
theorem lawful_record (h : Lawful s.history) (hok : teardownMonitor.ok s.history e)
    (hr : s.Answers e r) : Lawful (s.history ++ record e r) := by
  cases e with
  | mountAndWaitReady spec =>
      cases r with
      | error err => exact h.append ⟨rfl, rfl, rfl⟩
      | ok p =>
          have hfresh : p ∉ mountedOf s.history := fun hp => hr (mem_mountedOf.mp hp)
          have hnone := hok.2
          show Lawful (s.history ++ [.mounted p])
          refine ⟨?_, by simpa using h.exited, .inl (by simp [hnone])⟩
          simpa [List.nodup_append] using ⟨h.nodup, fun q hq heq => hfresh (heq ▸ hq)⟩
  | select points =>
      cases r with
      | signal => exact h.append ⟨rfl, rfl, rfl⟩
      | exited i err =>
          obtain ⟨-, hexited, hnone⟩ := hok
          show Lawful (s.history ++ [.exitSelected (points.get i) err])
          exact ⟨by simpa using h.nodup, by simp [hexited], .inl (by simp [hnone])⟩
  | unmountEach points =>
      obtain ⟨hpoints, hnone⟩ := hok
      show Lawful (s.history ++ [.torndown points r])
      exact ⟨by simpa using h.nodup, by simpa using h.exited,
        .inr (by simp [Settled, owed, hnone, hpoints])⟩
  | _ => exact h.append (neutral_record (by trivial) r)

/-- While the program does anything else there are no goroutines. -/
theorem workers_eq_nil {k : e.Answer → RunProg (Option RunErr)} (hs : s.Sound)
    (h : s.main = .op e k) (hne : ∀ points, e ≠ .unmountEach points) : s.workers = [] := by
  cases hw : s.workers with
  | nil => rfl
  | cons w ws =>
      obtain ⟨points, k', hk', -⟩ := hs.workers (by simp [hw])
      rw [h] at hk'
      cases hk'
      exact absurd rfl (hne points)

theorem after_of_ne (hne : ∀ points, e ≠ .unmountEach points) :
    (s.after e r).workers = s.workers ∧ (s.after e r).unmounted = s.unmounted ∧
      torndownOf (record e r) = [] := by
  cases e with
  | unmountEach points => exact absurd rfl (hne points)
  | mountAndWaitReady spec => cases r <;> exact ⟨rfl, rfl, rfl⟩
  | select points => cases r <;> exact ⟨rfl, rfl, rfl⟩
  | removeReadyFile => cases r <;> exact ⟨rfl, rfl, rfl⟩
  | openReadyFile => cases r <;> exact ⟨rfl, rfl, rfl⟩
  | pollSignal => cases r <;> exact ⟨rfl, rfl, rfl⟩
  | _ => exact ⟨rfl, rfl, rfl⟩

/-- After an effect the calls made so far are those of the teardowns that are
over. -/
theorem calls_effect {k : e.Answer → RunProg (Option RunErr)} (hs : s.Sound)
    (h : s.main = .op e k) (hr : s.Answers e r) :
    (s.after e r).workers = [] ∧
      (s.after e r).unmounted.Perm (torndownOf (s.history ++ record e r)) := by
  have hcalls := hs.calls
  by_cases hne : ∀ points, e ≠ .unmountEach points
  · obtain ⟨hworkers, hunmounted, hrecord⟩ := after_of_ne (s := s) (r := r) hne
    have hnone := workers_eq_nil hs h hne
    rw [hnone] at hcalls
    rw [hworkers, hunmounted, torndownOf_append, hrecord]
    exact ⟨hnone, hcalls⟩
  · obtain ⟨points, rfl⟩ : ∃ points, e = .unmountEach points := by
      simpa using hne
    have hkeeps := hs.main
    rw [h] at hkeeps
    obtain ⟨⟨-, hnone⟩, -⟩ := hkeeps
    obtain ⟨hworkers, hlen⟩ := hr
    rw [hnone, hworkers, begun_done hlen] at hcalls
    refine ⟨rfl, ?_⟩
    show s.unmounted.Perm (torndownOf (s.history ++ [.torndown points r]))
    simpa [hnone] using hcalls

/-- An effect of the main program keeps the state sound. -/
theorem sound_effect {k : e.Answer → RunProg (Option RunErr)} (hs : s.Sound)
    (h : s.main = .op e k) (hr : s.Answers e r) :
    ({ s.after e r with main := k r, history := s.history ++ record e r } : RunState).Sound := by
  have hkeeps := hs.main
  rw [h] at hkeeps
  obtain ⟨hok, hnext⟩ := hkeeps
  obtain ⟨hworkers, hcalls⟩ := calls_effect hs h hr
  refine ⟨hnext r, lawful_record hs.history hok hr, fun hsome => absurd hworkers hsome, ?_⟩
  show (s.after e r).unmounted.Perm
    (torndownOf (s.history ++ record e r) ++ begun (s.after e r).workers)
  rw [hworkers]
  simpa [begun] using hcalls

/-- Every step keeps a state sound. -/
theorem sound_step (h : RunStep s s') (hs : s.Sound) : s'.Sound := by
  cases h with
  | effect h hr => exact sound_effect hs h hr
  | @spawn points k h hnone =>
      have hcalls := hs.calls
      rw [hnone] at hcalls
      refine ⟨hs.main, hs.history, fun _ => ⟨points, k, h, ?_⟩, ?_⟩
      · simp [Worker.point, Function.comp_def]
      · rw [begun_ready]
        exact hcalls
  | @call p ws₁ ws₂ h =>
      have hcalls := hs.calls
      have hmain := hs.workers (by simp [h])
      rw [h] at hcalls hmain
      refine ⟨hs.main, hs.history, fun _ => ?_, ?_⟩
      · simpa [Worker.point] using hmain
      · have hbegun : (begun (ws₁ ++ .unmounting p :: ws₂)).Perm
            (begun (ws₁ ++ .ready p :: ws₂) ++ [p]) := by
          rw [begun_append, begun_append]
          exact List.perm_middle.trans (List.perm_append_singleton p _).symm
        calc s.unmounted ++ [p]
            |>.Perm (torndownOf s.history ++ begun (ws₁ ++ .ready p :: ws₂) ++ [p]) :=
              hcalls.append_right [p]
          _ |>.Perm _ := by
              rw [List.append_assoc]
              exact hbegun.symm.append_left _
  | @finish p err ws₁ ws₂ h =>
      have hcalls := hs.calls
      have hmain := hs.workers (by simp [h])
      rw [h] at hcalls hmain
      refine ⟨hs.main, hs.history, fun _ => ?_, ?_⟩
      · simpa [Worker.point] using hmain
      · rw [begun_append] at hcalls ⊢
        exact hcalls
  | deliver => exact ⟨hs.main, hs.history, hs.workers, hs.calls⟩
  | exit err h => exact ⟨hs.main, hs.history, hs.workers, hs.calls⟩

/-- Every reachable state of a run is sound. -/
theorem reachable_sound {visit : List Path → List Path} {o : Orchestrator} {cfg : Config}
    (h : (runs visit o cfg).Reachable s) : s.Sound := by
  refine h.invariant (fun s hs => ?_) fun s s' _ hs hstep => ?_
  · obtain ⟨stale, rfl⟩ := hs
    exact ⟨settles_run visit o cfg, ⟨.nil, nofun, .inl rfl⟩, nofun, .refl []⟩
  · exact sound_step hstep hs

/-- A point is passed to `unmount` at most as often as it is owed it. -/
theorem RunState.Sound.count_le (hs : s.Sound) (p : Point) :
    s.unmounted.count p ≤ (owed s.history).count p := by
  rw [hs.calls.count_eq]
  cases hw : s.workers with
  | nil =>
      rcases hs.history.torndown with hnone | hsettled
      · simp [hnone, begun]
      · rw [hsettled]
        simp [begun]
  | cons w ws =>
      obtain ⟨points, k, hmain, hpoints⟩ := hs.workers (by simp [hw])
      have hkeeps := hs.main
      rw [hmain] at hkeeps
      obtain ⟨⟨howed, hnone⟩, -⟩ := hkeeps
      rw [← howed, ← hpoints, hnone, ← hw]
      exact (begun_sublist s.workers).count_le p

/-- When the run is over it is passed to it exactly as often. -/
theorem RunState.Sound.count_eq (hs : s.Sound) {r : Option RunErr} (hret : s.main = .ret r)
    (p : Point) : s.unmounted.count p = (owed s.history).count p := by
  have hnone : s.workers = [] := by
    cases hw : s.workers with
    | nil => rfl
    | cons w ws =>
        obtain ⟨points, k, hmain, -⟩ := hs.workers (by simp [hw])
        rw [hret] at hmain
        cases hmain
  have hkeeps := hs.main
  rw [hret] at hkeeps
  have hsettled : torndownOf s.history = owed s.history := hkeeps
  rw [hs.calls.count_eq, hnone, hsettled]
  simp [begun]

/-- A mount is owed once if it is up, and not at all otherwise. -/
theorem count_owed {hist : List Event} (h : Lawful hist) (p : Point) :
    (owed hist).count p = if p ∈ mountedOf hist ∧ p ∉ exitedOf hist then 1 else 0 := by
  have hnd : (owed hist).Nodup := h.nodup.filter _
  rw [hnd.count]
  simp [owed]

end Invariant

/-! ## teardown completeness -/

/-- **Teardown completeness**, in every run: when `run` has returned, a point
that was mounted has been passed to `unmount` exactly once, or not at all if
it is the one point whose own exit was selected.  At no time is another point
passed to `unmount`, or one of them twice, and at no time is a start under way
after a start has failed or a signal was taken. -/
theorem teardown_complete (visit : List Path → List Path) (o : Orchestrator) (cfg : Config)
    {s : RunState} (h : (runs visit o cfg).Reachable s) :
    (∀ r, s.main = .ret r → ∀ p, .mounted p ∈ s.history →
      ((∀ err, .exitSelected p err ∉ s.history) → s.unmounted.count p = 1) ∧
      ((∃ err, .exitSelected p err ∈ s.history) → s.unmounted.count p = 0)) ∧
    (∀ p q err err', .exitSelected p err ∈ s.history → .exitSelected q err' ∈ s.history →
      p = q) ∧
    (∀ p ∈ s.unmounted, s.unmounted.count p = 1 ∧ .mounted p ∈ s.history ∧
      ∀ err, .exitSelected p err ∉ s.history) ∧
    (∀ spec k, s.main = .op (.mountAndWaitReady spec) k → ∀ e ∈ s.history, ¬ e.Halts) := by
  have hs := reachable_sound h
  have hcount := count_owed hs.history
  refine ⟨fun r hret p hp => ⟨fun hno => ?_, fun hsome => ?_⟩, fun p q err err' hp hq => ?_,
    fun p hp => ?_, fun spec k hmain => ?_⟩
  · have hno' : p ∉ exitedOf s.history := fun hmem => by
      obtain ⟨err, herr⟩ := mem_exitedOf.mp hmem
      exact hno err herr
    rw [hs.count_eq hret, hcount, if_pos ⟨mem_mountedOf.mpr hp, hno'⟩]
  · rw [hs.count_eq hret, hcount, if_neg fun hmem => hmem.2 (mem_exitedOf.mpr hsome)]
  · exact hs.history.exited p (mem_exitedOf.mpr ⟨err, hp⟩) q (mem_exitedOf.mpr ⟨err', hq⟩)
  · have hpos := List.count_pos_iff.mpr hp
    have hle := hs.count_le p
    rw [hcount] at hle
    split at hle
    · next hmem =>
        exact ⟨by omega, mem_mountedOf.mp hmem.1, fun err herr =>
          hmem.2 (mem_exitedOf.mpr ⟨err, herr⟩)⟩
    · omega
  · have hkeeps := hs.main
    rw [hmain] at hkeeps
    exact hkeeps.1.1

/-- Two mounts, for a run in which the first of them exits. -/
def pairConfig : Config where
  schemaVersion := "v1".toList
  serviceURL := "https://h".toList
  caCertPEM := "pem".toList
  mounts := some ⟨[{ Mount.zero with destination := "/a".toList },
    { Mount.zero with destination := "/b".toList }], []⟩
  backendCacheTTL := none

def pairOrchestrator : Orchestrator :=
  ⟨true, false, [], true, "https://h".toList, "pem".toList⟩

def pointA : Point := ⟨0, "/a".toList⟩

def pointB : Point := ⟨1, "/b".toList⟩

/-- The first of two points exits: only the second is unmounted. -/
theorem teardown_complete_pair :
    ∃ s r, (runs id pairOrchestrator pairConfig).Reachable s ∧ s.main = .ret r ∧
      s.unmounted.count pointA = 0 ∧ s.unmounted.count pointB = 1 := by
  have h₀ := System.Reachable.init (S := runs id pairOrchestrator pairConfig) ⟨false, rfl⟩
  have h₁ := h₀.step (.effect (e := .pollSignal) (r := false) rfl rfl)
  have h₂ := h₁.step (.effect (e := .mountAndWaitReady _) (r := .ok pointA) rfl nofun)
  have h₃ := h₂.step (.effect (e := .pollSignal) (r := false) rfl rfl)
  have hfresh : Event.mounted pointB ∉ [.mounted pointA] := by
    simp [pointA, pointB]
  have h₄ := h₃.step (.effect (e := .mountAndWaitReady _) (r := .ok pointB) rfl hfresh)
  have h₅ := h₄.step (.effect (e := .pollSignal) (r := false) rfl rfl)
  have h₆ := h₅.step (.effect (e := .log _) (r := ()) rfl True.intro)
  have h₇ := h₆.step (.exit (p := pointA) none List.mem_cons_self)
  have h₈ := h₇.step (.effect (e := .select [pointA, pointB])
    (r := .exited 0 none) rfl List.mem_cons_self)
  have h₉ := h₈.step (.spawn rfl rfl)
  have h₁₀ := h₉.step (.call [] [] rfl)
  have h₁₁ := h₁₀.step (.finish none [] [] rfl)
  have h₁₂ := h₁₁.step (.effect (e := .unmountEach [pointB]) (r := [none]) rfl ⟨rfl, rfl⟩)
  have h₁₃ := h₁₂.step (.effect (e := .cancelMount) (r := ()) rfl True.intro)
  have h : (runs id pairOrchestrator pairConfig).Reachable ⟨.ret none, [], 0, [(pointA, none)],
    false, true, [.mounted pointA, .mounted pointB, .exitSelected pointA none,
      .torndown [pointB] [none]], [pointB]⟩ := h₁₃
  have hdone := (teardown_complete id pairOrchestrator pairConfig h).1 none rfl
  exact ⟨_, none, h, rfl, (hdone pointA (by simp)).2 ⟨none, by simp⟩,
    (hdone pointB (by simp)).1 (by simp [pointA, pointB])⟩

end OcuFilestore.Mounter
