import OcuFilestore.Lib.Environment
import OcuFilestore.Mounter.Teardown

/-!
# OcuFilestore.Mounter.Readiness

When the ready-file is there.  A run removes what an earlier one left, creates
the file when every mount is up, and removes it again as the last thing before
it returns.

The program is checked against the history of its run (`safe_run`): the file
is created only in a startup that nothing has halted and that has started
every spec, and the teardown finds the file exactly when it was created.  The
removal is deferred behind the teardown, so a teardown after readiness runs
while the file is there; and a run that ends before its first removal leaves a
stale file behind.
-/

namespace OcuFilestore.Mounter

open Mountcfg Prog

/-! ## the file in the history -/

/-- Whether the file is there after the events, from whether it was before. -/
def fileAfter (file : Bool) (hist : List Event) : Bool :=
  hist.foldl (fun file e => match e with
    | .readyRemoved => false
    | .readyCreated => true
    | _ => file) file

/-- The events that the file is concerned with. -/
def Event.OfFile : Event → Prop
  | .readyRemoved => True
  | .readyCreated => True
  | _ => False

section History

variable {hist es : List Event}

theorem fileAfter_append (file : Bool) :
    fileAfter file (hist ++ es) = fileAfter (fileAfter file hist) es :=
  List.foldl_append

/-- Events that do not touch the ready file leave it as it was. -/
theorem fileAfter_of_not_ofFile (h : ∀ e ∈ es, ¬ e.OfFile) (file : Bool) :
    fileAfter file es = file := by
  induction es generalizing file with
  | nil => rfl
  | cons e es ih =>
      have he := h e List.mem_cons_self
      have hes := ih fun e' h' => h e' (List.mem_cons_of_mem _ h')
      cases e with
      | readyRemoved => exact absurd trivial he
      | readyCreated => exact absurd trivial he
      | _ => exact hes file

/-- A file that was not there was created. -/
theorem created_of_fileAfter {file : Bool} (h : fileAfter file hist = true) :
    file = true ∨ .readyCreated ∈ hist := by
  induction hist generalizing file with
  | nil => exact Or.inl h
  | cons e hist ih =>
      cases e with
      | readyCreated => exact Or.inr List.mem_cons_self
      | readyRemoved => exact Or.inr (List.mem_cons_of_mem _ ((ih h).resolve_left nofun))
      | _ => exact (ih h).imp_right (List.mem_cons_of_mem _)

/-- After a removal it no longer matters what was there before. -/
theorem fileAfter_of_removed (h : .readyRemoved ∈ hist) (file : Bool) :
    fileAfter file hist = fileAfter false hist := by
  induction hist generalizing file with
  | nil => cases h
  | cons e hist ih =>
      cases e with
      | readyRemoved => rfl
      | readyCreated => rfl
      | _ => exact ih ((List.mem_cons.mp h).resolve_left nofun) file

end History

/-! ## the program -/

/-- A startup that may announce readiness: nothing has halted it, and as many
points are up as there are specs. -/
structure Complete (built : Except Err (List MountSpec)) (hist : List Event) : Prop where
  removed : .readyRemoved ∈ hist
  fresh : .readyCreated ∉ hist
  go : ∀ e ∈ hist, ¬ e.Halts
  all : ∃ specs, built = .ok specs ∧ (mountedOf hist).length = specs.length

/-- The file is there exactly when it was created in this run. -/
def Shown (hist : List Event) : Prop :=
  .readyRemoved ∈ hist ∧ (fileAfter false hist = true ↔ .readyCreated ∈ hist)

/-- When an effect is allowed, by the history of the run. -/
def readyRules (built : Except Err (List MountSpec)) (hist : List Event) : RunEff → Prop
  | .openReadyFile => Complete built hist
  | .mountAndWaitReady spec => .readyCreated ∉ hist ∧
      ∃ specs, built = .ok specs ∧ specs[(mountedOf hist).length]? = some spec
  | .pollSignal => .readyCreated ∉ hist
  | .unmountEach _ => Shown hist
  | _ => True

/-- The removal does not fail. -/
def Succeeds : (e : RunEff) → e.Answer → Prop
  | .removeReadyFile, .failed _ => False
  | _, _ => True

/-- The history as the environment; in a strict one removals succeed. -/
def readyEnv (strict : Prop) : Env RunEff.Answer (List Event) :=
  fun hist e r hist' => (strict → Succeeds e r) ∧ hist' = hist ++ record e r

/-- A run that has removed the file, and removed it again before it returned. -/
def Retracted (strict : Prop) (hist : List Event) : Prop :=
  strict → .readyRemoved ∈ hist ∧ fileAfter false hist = false

/-- How the program returns: without having begun, or with the file
retracted. -/
def Concluded (strict : Prop) (hist : List Event) : Prop := hist = [] ∨ Retracted strict hist

section Program

variable {strict : Prop} {built : Except Err (List MountSpec)} {hist : List Event}

/-- Every run of the program from this history keeps the rules and ends with
`Q`. -/
abbrev Readies {α : Type} (strict : Prop) (built : Except Err (List MountSpec))
    (Q : List Event → Prop) (hist : List Event) (p : RunProg α) : Prop :=
  Safe (readyEnv strict) (readyRules built) (fun hist _ => Q hist) hist p

/-- Events that do not touch the file keep it in step with the history. -/
theorem Shown.append {es : List Event} (h : Shown hist) (hes : ∀ e ∈ es, ¬ e.OfFile) :
    Shown (hist ++ es) := by
  have hmem : .readyCreated ∈ hist ++ es ↔ .readyCreated ∈ hist := by
    rw [List.mem_append]
    exact or_iff_left fun he => hes _ he trivial
  refine ⟨List.mem_append_left _ h.1, ?_⟩
  rw [fileAfter_append, fileAfter_of_not_ofFile hes, h.2, hmem]

/-- An effect that is always allowed and that the file is not concerned with. -/
theorem readies_op {α : Type} {Q : List Event → Prop} {e : RunEff} {k : e.Answer → RunProg α}
    (hok : readyRules built hist e)
    (hk : ∀ r, (strict → Succeeds e r) → Readies strict built Q (hist ++ record e r) (k r)) :
    Readies strict built Q hist (.op e k) := by
  refine ⟨hok, fun r hist' hr => ?_⟩
  obtain ⟨hsucceeds, rfl⟩ := hr
  exact hk r hsucceeds

/-- Unmounting touches no ready file. -/
theorem readies_unmountAll (h : Shown hist) (points : List Point)
    (f : List Err → Option RunErr) :
    Readies strict built Shown hist (unmountAll points >>= fun errs => .ret (f errs)) :=
  readies_op h fun _ _ => h.append (by simp [record, Event.OfFile])

/-- Nor does the wait for a signal or an exit. -/
theorem readies_blockUntilTeardown (h : Shown hist) (started : List Point) :
    Readies strict built Shown hist (blockUntilTeardown started) := by
  refine readies_op trivial fun r _ => ?_
  cases r with
  | signal =>
      have hs : Shown (hist ++ [.signalTaken]) := h.append (by simp [Event.OfFile])
      exact readies_unmountAll hs started errorsJoin
  | exited i err =>
      have hs : Shown (hist ++ [.exitSelected (started.get i) err]) :=
        h.append (by simp [Event.OfFile])
      cases err with
      | none => exact readies_unmountAll hs _ errorsJoin
      | some e => exact readies_unmountAll hs _ fun errs => errorsJoin (_ :: errs)

/-- A startup that has this many specs to go. -/
structure Starting (built : Except Err (List MountSpec)) (hist : List Event)
    (left : List MountSpec) : Prop where
  removed : .readyRemoved ∈ hist
  file : fileAfter false hist = false
  fresh : .readyCreated ∉ hist
  go : ∀ e ∈ hist, ¬ e.Halts
  specs : ∃ started, built = .ok (started ++ left) ∧ started.length = (mountedOf hist).length

/-- During the startup the file is not there, and was not created. -/
theorem Starting.shown {left : List MountSpec} (h : Starting built hist left) : Shown hist :=
  ⟨h.removed, by simp [h.file, h.fresh]⟩

/-- A startup with no spec left may announce readiness. -/
theorem Starting.complete (h : Starting built hist []) : Complete built hist := by
  obtain ⟨started, hbuilt, hlen⟩ := h.specs
  exact ⟨h.removed, h.fresh, h.go, _, hbuilt, by simp [hlen]⟩

/-- A point comes up. -/
theorem Starting.mounted {spec : MountSpec} {left : List MountSpec}
    (h : Starting built hist (spec :: left)) (p : Point) :
    Starting built (hist ++ [.mounted p]) left := by
  obtain ⟨started, hbuilt, hlen⟩ := h.specs
  refine ⟨List.mem_append_left _ h.removed, ?_, ?_, ?_, started ++ [spec], ?_, ?_⟩
  · rw [fileAfter_append, h.file]
    rfl
  · simpa using h.fresh
  · simpa [Event.Halts, or_imp, forall_and] using h.go
  · simp [hbuilt]
  · simp [hlen]

/-- The startup takes the specs in their order, before any announcement. -/
theorem Starting.next {spec : MountSpec} {left : List MountSpec}
    (h : Starting built hist (spec :: left)) :
    readyRules built hist (.mountAndWaitReady spec) := by
  obtain ⟨started, hbuilt, hlen⟩ := h.specs
  exact ⟨h.fresh, _, hbuilt, by simp [← hlen]⟩

/-- Creating the file is the one event that shows it. -/
theorem shown_created (h : Complete built hist) : Shown (hist ++ [.readyCreated]) := by
  refine ⟨List.mem_append_left _ h.removed, ?_⟩
  simp [fileAfter]

/-- The ready file is written when every mount is up, and not before. -/
theorem readies_signalReady (o : Orchestrator) (hpath : o.readyFilePath ≠ []) (n : Nat)
    (h : Starting built hist []) : Readies strict built Shown hist (o.signalReady n) := by
  rw [Orchestrator.signalReady, if_pos hpath]
  refine readies_op h.complete fun r _ => ?_
  cases r with
  | some e => exact h.shown.append nofun
  | none =>
      refine readies_op trivial fun _ _ => ?_
      exact (shown_created h.complete).append nofun

/-- A signal that is pending ends the startup. -/
theorem readies_interrupted (h : Shown hist) (started : List Point) :
    Readies strict built Shown hist (cancelMount >>= fun _ => shutdownDuringStartup started) := by
  have hs : Shown (hist ++ record .cancelMount ()) := h.append nofun
  exact readies_op trivial fun _ _ => readies_unmountAll hs started errorsJoin

/-- The startup, by induction on the specs that are left. -/
theorem readies_fanOut (o : Orchestrator) (hpath : o.readyFilePath ≠ []) {left : List MountSpec}
    (h : Starting built hist left) (started : List Point) :
    Readies strict built Shown hist (o.fanOut left started) := by
  induction left generalizing hist started with
  | nil =>
      refine readies_op h.fresh fun pending _ => ?_
      cases pending with
      | true => exact readies_interrupted (h.shown.append (by simp [record, Event.OfFile])) started
      | false =>
          rw [show hist ++ record .pollSignal false = hist from List.append_nil hist]
          refine (readies_signalReady o hpath started.length h).bind fun hist err hs => ?_
          cases err with
          | some e => exact readies_unmountAll hs started fun errs => errorsJoin (e :: errs)
          | none => exact readies_blockUntilTeardown hs started
  | cons spec left ih =>
      refine readies_op h.fresh fun pending _ => ?_
      cases pending with
      | true => exact readies_interrupted (h.shown.append (by simp [record, Event.OfFile])) started
      | false =>
          rw [show hist ++ record .pollSignal false = hist from List.append_nil hist]
          refine readies_op h.next fun r _ => ?_
          cases r with
          | error e =>
              have hs : Shown (hist ++ [.startFailed spec e]) :=
                h.shown.append (by simp [Event.OfFile])
              exact readies_unmountAll hs started fun errs => errorsJoin (_ :: errs)
          | ok p => exact ih (h.mounted p) (started ++ [p])

/-- The startup loop writes the ready file at its end only. -/
theorem readies_realize (visit : List Path → List Path) (o : Orchestrator) (cfg : Config)
    (hpath : o.readyFilePath ≠ []) :
    Readies strict (o.buildSpecs visit cfg) Shown [.readyRemoved] (realize visit o cfg) := by
  have hstart : ∀ specs, o.buildSpecs visit cfg = .ok specs →
      Starting (o.buildSpecs visit cfg) [.readyRemoved] specs := by
    intro specs hspecs
    exact ⟨by simp, rfl, by simp, by simp [Event.Halts], [], hspecs, rfl⟩
  have hshown : Shown [.readyRemoved] := ⟨by simp, by simp [fileAfter]⟩
  unfold realize
  split
  · exact hshown
  · exact readies_op trivial fun _ _ => hshown.append nofun
  · next specs _ hspecs =>
      refine (readies_fanOut o hpath (hstart specs hspecs) []).bind fun hist _ hs => ?_
      exact readies_op trivial fun _ _ => hs.append nofun

/-- Whatever the file was before, it is gone after a removal. -/
theorem readies_retract (o : Orchestrator) (hist : List Event) :
    Readies strict built (Retracted strict) hist o.retract := by
  refine readies_op trivial fun r hr => ?_
  cases r with
  | failed e => exact readies_op trivial fun _ _ hstrict => absurd (hr hstrict) id
  | removed => exact fun _ => by simp [record, fileAfter]
  | notExist => exact fun _ => by simp [record, fileAfter]

/-- A stale ready file is gone before the first mount starts. -/
theorem readies_hygiene (visit : List Path → List Path) (o : Orchestrator) (cfg : Config)
    (hpath : o.readyFilePath ≠ []) :
    Readies strict (o.buildSpecs visit cfg) (Retracted strict) [] (hygiene visit o cfg) := by
  rw [hygiene, if_pos hpath]
  refine readies_op trivial fun r hr => ?_
  have hrest : Readies strict (o.buildSpecs visit cfg) (Retracted strict) [.readyRemoved]
      (deferring (realize visit o cfg) o.retract) :=
    (readies_realize visit o cfg hpath).bind fun hist _ _ =>
      (readies_retract o hist).bind fun _ _ hs => hs
  cases r with
  | failed e => exact fun hstrict => absurd (hr hstrict) id
  | removed => exact hrest
  | notExist => exact hrest

/-- The whole run follows the rules of the ready file. -/
theorem readies_listen (visit : List Path → List Path) (o : Orchestrator) (cfg : Config)
    (hpath : o.readyFilePath ≠ []) :
    Readies strict (o.buildSpecs visit cfg) (Retracted strict) [] (listen visit o cfg) := by
  unfold listen
  split
  · exact readies_hygiene visit o cfg hpath
  · refine readies_op trivial fun _ _ => ?_
    refine Safe.bind (readies_hygiene visit o cfg hpath) fun hist _ hs => ?_
    refine readies_op trivial fun _ _ => ?_
    rw [show hist ++ record .stop () = hist from List.append_nil hist]
    exact hs

/-- **The program keeps the rules**, and retracts the file before it returns
unless it returns at once. -/
theorem readies_run (visit : List Path → List Path) (o : Orchestrator) (cfg : Config)
    (hpath : o.readyFilePath ≠ []) :
    Readies strict (o.buildSpecs visit cfg) (Concluded strict) [] (run visit o cfg) := by
  have hlisten : Readies strict (o.buildSpecs visit cfg) (Concluded strict) []
      (listen visit o cfg) :=
    (readies_listen visit o cfg hpath).mono (fun _ _ h => h) fun _ _ => Or.inr
  unfold run
  split
  · exact hlisten
  · split
    · exact Or.inl rfl
    · refine readies_op trivial fun r _ => ?_
      cases r with
      | some e => exact Or.inl rfl
      | none => exact hlisten

end Program

/-! ## the run -/

/-- How often the file was created. -/
def createdCount (hist : List Event) : Nat :=
  hist.countP fun
    | .readyCreated => true
    | _ => false

/-- What a history says about readiness: it is announced once at most, with
every spec started and no start failed. -/
structure Announced (built : Except Err (List MountSpec)) (hist : List Event) : Prop where
  once : createdCount hist ≤ 1
  all : .readyCreated ∈ hist → ∃ specs, built = .ok specs ∧ (mountedOf hist).length = specs.length
  started : .readyCreated ∈ hist → ∀ spec err, .startFailed spec err ∉ hist

/-- What holds in every state of a run that began with a stale file, or with
none. -/
structure RunState.Ready (strict : Prop) (built : Except Err (List MountSpec)) (stale : Bool)
    (s : RunState) : Prop where
  main : Readies strict built (Concluded strict) s.history s.main
  file : s.readyFile = fileAfter stale s.history
  history : Announced built s.history

/-- A step in which a removal of the file fails. -/
inductive FailedRemoval : RunState → RunState → Prop
  | mk {s : RunState} {k : Removal → RunProg (Option RunErr)} (e : Err)
      (h : s.main = .op .removeReadyFile k) :
      FailedRemoval s { s with main := k (.failed e), history := s.history ++ [] }

/-- Only a removal of the file fails as one. -/
theorem not_failedRemoval_of_main {s s' : RunState} (h : ∀ k, s.main ≠ .op .removeReadyFile k) :
    ¬ FailedRemoval s s' := by
  rintro ⟨e, hk⟩
  exact h _ hk

/-- A failed removal leaves no event. -/
theorem not_failedRemoval_of_history {s s' : RunState} (h : s'.history ≠ s.history) :
    ¬ FailedRemoval s s' := by
  rintro ⟨e, hk⟩
  exact h (List.append_nil _)

section Invariant

variable {strict : Prop} {built : Except Err (List MountSpec)} {stale : Bool} {s s' : RunState}
  {e : RunEff} {r : e.Answer}

theorem createdCount_append {hist es : List Event} :
    createdCount (hist ++ es) = createdCount hist + createdCount es :=
  List.countP_append

/-- No creation is counted where there was none. -/
theorem createdCount_eq_zero {hist : List Event} (h : .readyCreated ∉ hist) :
    createdCount hist = 0 := by
  rw [createdCount, List.countP_eq_zero]
  intro e he
  cases e with
  | readyCreated => exact absurd he h
  | _ => simp

/-- Events that readiness is not concerned with. -/
theorem Announced.append {hist es : List Event} (h : Announced built hist)
    (hcreated : .readyCreated ∉ es) (hmounted : ∀ p, .mounted p ∉ es)
    (hfailed : ∀ spec err, .startFailed spec err ∉ es) : Announced built (hist ++ es) := by
  have hnone : mountedOf es = [] :=
    List.eq_nil_iff_forall_not_mem.mpr fun p hp => hmounted p (mem_mountedOf.mp hp)
  have hold : .readyCreated ∈ hist ++ es → .readyCreated ∈ hist := fun hm =>
    (List.mem_append.mp hm).resolve_right hcreated
  refine ⟨?_, fun hm => ?_, fun hm spec err he => ?_⟩
  · rw [createdCount_append, createdCount_eq_zero hcreated]
    exact h.once
  · obtain ⟨specs, hspecs, hlen⟩ := h.all (hold hm)
    exact ⟨specs, hspecs, by simpa [hnone] using hlen⟩
  · exact (List.mem_append.mp he).elim (h.started (hold hm) spec err) (hfailed spec err)

/-- Before readiness every history is announced. -/
theorem announced_of_fresh {hist : List Event} (h : .readyCreated ∉ hist) :
    Announced built hist := by
  refine ⟨?_, fun hm => absurd hm h, fun hm => absurd hm h⟩
  rw [createdCount_eq_zero h]
  exact Nat.zero_le 1

/-- Writing the file after a complete startup announces that startup. -/
theorem announced_created {hist : List Event} (h : Complete built hist) :
    Announced built (hist ++ [.readyCreated]) := by
  refine ⟨?_, fun _ => ?_, fun _ spec err he => ?_⟩
  · rw [createdCount_append, createdCount_eq_zero h.fresh]
    exact Nat.le_refl 1
  · obtain ⟨specs, hspecs, hlen⟩ := h.all
    exact ⟨specs, hspecs, by simpa [mountedOf] using hlen⟩
  · rcases List.mem_append.mp he with he | he
    · exact h.go _ he trivial
    · cases List.mem_singleton.mp he

/-- The history stays announced when an allowed effect is answered. -/
theorem announced_record {hist : List Event} (h : Announced built hist)
    (hok : readyRules built hist e) : Announced built (hist ++ record e r) := by
  cases e with
  | openReadyFile =>
      cases r with
      | some err => simpa [record] using h
      | none => exact announced_created hok
  | mountAndWaitReady spec =>
      refine announced_of_fresh ?_
      exact fun hm => (List.mem_append.mp hm).elim hok.1 (of_mem_record r)
  | _ => exact h.append (of_mem_record r) (fun _ => of_mem_record r) fun _ _ => of_mem_record r

/-- The file is what the history says. -/
theorem file_record (hfile : s.readyFile = fileAfter stale s.history)
    (hr : s.Answers e r) :
    (s.after e r).readyFile = fileAfter stale (s.history ++ record e r) := by
  rw [fileAfter_append, ← hfile]
  cases e with
  | removeReadyFile =>
      cases r with
      | notExist => exact hr
      | _ => rfl
  | openReadyFile => cases r <;> rfl
  | mountAndWaitReady spec => cases r <;> rfl
  | pollSignal => cases r <;> rfl
  | select points => cases r <;> rfl
  | _ => rfl

/-- A step of the program, where removals succeed if they have to. -/
theorem succeeds_of_step {k : e.Answer → RunProg (Option RunErr)} (h : s.main = .op e k)
    (hkeep : strict → ¬ FailedRemoval s
      { s.after e r with main := k r, history := s.history ++ record e r }) :
    strict → Succeeds e r := by
  intro hstrict
  cases e with
  | removeReadyFile =>
      cases r with
      | failed err => exact hkeep hstrict (.mk err h)
      | _ => trivial
  | _ => trivial

/-- Every step keeps a state ready. -/
theorem ready_step (h : RunStep s s') (hkeep : strict → ¬ FailedRemoval s s')
    (hs : s.Ready strict built stale) : s'.Ready strict built stale := by
  cases h with
  | @effect e k r h hr =>
      have hmain := hs.main
      rw [h] at hmain
      exact ⟨hmain.2 r _ ⟨succeeds_of_step h hkeep, rfl⟩, file_record hs.file hr,
        announced_record hs.history hmain.1⟩
  | _ => exact ⟨hs.main, hs.file, hs.history⟩

end Invariant

section Runs

variable {visit : List Path → List Path} {o : Orchestrator} {cfg : Config} {s : RunState}

/-- The state a run begins in. -/
def initial (visit : List Path → List Path) (o : Orchestrator) (cfg : Config) (stale : Bool) :
    RunState :=
  ⟨run visit o cfg, [], 0, [], stale, false, [], []⟩

/-- A run begins by the rules of the ready file. -/
theorem ready_initial {strict : Prop} (hpath : o.readyFilePath ≠ []) (stale : Bool) :
    (initial visit o cfg stale).Ready strict (o.buildSpecs visit cfg) stale :=
  ⟨readies_run visit o cfg hpath, rfl, announced_of_fresh nofun⟩

/-- The runs in which no removal of the file fails. -/
abbrev removingRuns (visit : List Path → List Path) (o : Orchestrator) (cfg : Config) :
    System RunState :=
  (runs visit o cfg).restrict fun s s' => ¬ FailedRemoval s s'

/-- Every reachable state follows the strict rules when each removal succeeds.
-/
theorem ready_of_removing (hpath : o.readyFilePath ≠ [])
    (h : (removingRuns visit o cfg).Reachable s) :
    ∃ stale, s.Ready True (o.buildSpecs visit cfg) stale := by
  refine System.Reachable.invariant (S := removingRuns visit o cfg)
    (P := fun s => ∃ stale, s.Ready True (o.buildSpecs visit cfg) stale) ?_ ?_ h
  · rintro _ ⟨stale, rfl⟩
    exact ⟨stale, ready_initial hpath stale⟩
  · rintro s s' _ ⟨stale, hs⟩ hstep
    exact ⟨stale, ready_step hstep.1 (fun _ => hstep.2) hs⟩

/-- Every reachable state follows the rules, whatever the removals answer. -/
theorem ready_of_reachable (hpath : o.readyFilePath ≠ []) (h : (runs visit o cfg).Reachable s) :
    ∃ stale, s.Ready False (o.buildSpecs visit cfg) stale := by
  refine h.invariant (P := fun s => ∃ stale, s.Ready False (o.buildSpecs visit cfg) stale) ?_ ?_
  · rintro _ ⟨stale, rfl⟩
    exact ⟨stale, ready_initial hpath stale⟩
  · rintro s s' _ ⟨stale, hs⟩ hstep
    exact ⟨stale, ready_step hstep False.elim hs⟩

/-! ## the seam and the stale file -/

/-- A step in which `newSeam` gives another answer. -/
inductive OtherSeam (answer : Option Err) : RunState → RunState → Prop
  | mk {s : RunState} {k : Option Err → RunProg (Option RunErr)} {r : Option Err}
      (h : s.main = .op .newSeam k) (hr : r ≠ answer) :
      OtherSeam answer s { s with main := k r, history := s.history ++ [] }

/-- A step to what only this answer leads to. -/
theorem not_otherSeam {answer : Option Err} {s s' : RunState}
    {k : Option Err → RunProg (Option RunErr)} (h : s.main = .op .newSeam k)
    (hk : ∀ r, s'.main = k r → r = answer) : ¬ OtherSeam answer s s' := by
  rintro ⟨hk', hr⟩
  cases h.symm.trans hk'
  exact hr (hk _ rfl)

/-- The runs that begin with a stale file or with none, in which no removal
fails and `newSeam` gives this answer. -/
def seamRuns (visit : List Path → List Path) (o : Orchestrator) (cfg : Config) (stale : Bool)
    (answer : Option Err) : System RunState where
  init s := s = initial visit o cfg stale
  step s s' := RunStep s s' ∧ ¬ FailedRemoval s s' ∧ ¬ OtherSeam answer s s'

/-- The seam is there, or can be made. -/
def SeamMade (o : Orchestrator) (answer : Option Err) : Prop :=
  o.seam = true ∨ o.newSeam = true ∧ answer = none

/-- So does every reachable state of a run whose seam is set. -/
theorem ready_of_seamRuns {stale : Bool} {answer : Option Err} (hpath : o.readyFilePath ≠ [])
    (h : (seamRuns visit o cfg stale answer).Reachable s) :
    s.Ready True (o.buildSpecs visit cfg) stale := by
  refine h.invariant ?_ ?_
  · rintro _ rfl
    exact ready_initial hpath stale
  · intro s s' _ hs hstep
    exact ready_step hstep.1 (fun _ => hstep.2.1) hs

/-- A run with a seam: it is about to make it, or it is bound to retract the
file. -/
def Bound (built : Except Err (List MountSpec)) (listening : RunProg (Option RunErr))
    (answer : Option Err) (s : RunState) : Prop :=
  (∃ k, s.main = .op .newSeam k ∧ k answer = listening ∧ s.history = []) ∨
    Readies True built (Retracted True) s.history s.main

theorem bound_initial {stale : Bool} {answer : Option Err} (hpath : o.readyFilePath ≠ [])
    (hseam : SeamMade o answer) :
    Bound (o.buildSpecs visit cfg) (listen visit o cfg) answer (initial visit o cfg stale) := by
  have hlisten : Readies True (o.buildSpecs visit cfg) (Retracted True) [] (listen visit o cfg) :=
    readies_listen visit o cfg hpath
  unfold initial run
  split
  · exact .inr hlisten
  · next hno =>
      obtain ⟨hnew, rfl⟩ := hseam.resolve_left hno
      rw [if_neg (by simp [hnew])]
      exact .inl ⟨_, rfl, rfl, rfl⟩

/-- Every step of a run with a seam keeps it bound. -/
theorem bound_step {stale : Bool} {answer : Option Err} {s s' : RunState}
    (hpath : o.readyFilePath ≠ []) (h : (seamRuns visit o cfg stale answer).step s s')
    (hs : Bound (o.buildSpecs visit cfg) (listen visit o cfg) answer s) :
    Bound (o.buildSpecs visit cfg) (listen visit o cfg) answer s' := by
  obtain ⟨hstep, hkeep, hseam⟩ := h
  cases hstep with
  | @effect e k r he hr =>
      rcases hs with ⟨k', hmain, hlisten, hhist⟩ | hmain
      · cases hmain.symm.trans he
        obtain rfl : r = answer := Decidable.byContradiction fun hne => hseam (.mk hmain hne)
        refine .inr ?_
        rw [hhist, hlisten]
        exact readies_listen visit o cfg hpath
      · rw [he] at hmain
        exact .inr (hmain.2 r _ ⟨succeeds_of_step he fun _ => hkeep, rfl⟩)
  | _ => exact hs

/-- A run with a seam has retracted the file when it returns. -/
theorem retracted_of_seam {stale : Bool} {answer : Option Err} {r : Option RunErr}
    (hpath : o.readyFilePath ≠ []) (hseam : SeamMade o answer)
    (h : (seamRuns visit o cfg stale answer).Reachable s) (hr : s.main = .ret r) :
    .readyRemoved ∈ s.history ∧ fileAfter false s.history = false := by
  have hbound : Bound (o.buildSpecs visit cfg) (listen visit o cfg) answer s := by
    refine h.invariant ?_ fun _ _ _ hs hstep => bound_step hpath hstep hs
    rintro _ rfl
    exact bound_initial hpath hseam
  rcases hbound with ⟨k, hmain, -⟩ | hmain
  · rw [hr] at hmain
    cases hmain
  · rw [hr] at hmain
    exact hmain trivial

/-- Without a seam a run can return at once, and leaves the file as it was. -/
theorem exists_return_of_no_seam (visit : List Path → List Path) (cfg : Config) (stale : Bool)
    {answer : Option Err} (hpath : o.readyFilePath ≠ []) (hseam : ¬ SeamMade o answer) :
    ∃ s r, (seamRuns visit o cfg stale answer).Reachable s ∧ s.main = .ret r ∧
      s.readyFile = stale := by
  obtain ⟨hno, hfails⟩ := not_or.mp hseam
  have h₀ := System.Reachable.init (S := seamRuns visit o cfg stale answer) rfl
  by_cases hnew : o.newSeam = true
  · obtain ⟨e, rfl⟩ := Option.ne_none_iff_exists'.mp fun hnone => hfails ⟨hnew, hnone⟩
    obtain ⟨k, hmain, hfailed, hmade⟩ : ∃ k, (initial visit o cfg stale).main = .op .newSeam k ∧
        (∀ e, k (some e) = .ret (some (.plain e))) ∧ k none = listen visit o cfg :=
      ⟨_, (if_neg hno).trans (if_neg (by simp [hnew])), fun _ => rfl, rfl⟩
    have hnone : Prog.ret (some (.plain e)) ≠ listen visit o cfg := by
      unfold listen hygiene
      rw [if_pos hpath]
      split <;> nofun
    refine ⟨_, _, h₀.step ⟨.effect (r := some e) hmain trivial,
      not_failedRemoval_of_main fun k' hk => ?_, not_otherSeam hmain fun r hr => ?_⟩,
      hfailed e, rfl⟩
    · cases hmain.symm.trans hk
    · cases r with
      | none => exact absurd ((hfailed e).symm.trans (hr.trans hmade)) hnone
      | some e' =>
          cases (hfailed e).symm.trans (hr.trans (hfailed e'))
          rfl
  · have hmain : (initial visit o cfg stale).main =
        .ret (some (.plain (.text [.lit "orchestrator: no mount seam configured"]))) := by
      simp only [initial, run, hno, hnew, Bool.not_false, Bool.false_eq_true, if_false, if_true]
    exact ⟨_, _, h₀, hmain, rfl⟩

/-- A startup that a pending signal is about to end, or has ended. -/
structure Interrupted (s : RunState) : Prop where
  fresh : .readyCreated ∉ s.history
  signal : .signalTaken ∈ s.history ∨ ∃ k, s.main = .op .pollSignal k ∧ 0 < s.signals

/-- Only opening the ready file records its creation. -/
theorem created_notMem_record {e : RunEff} (r : e.Answer) (he : e ≠ .openReadyFile) :
    .readyCreated ∉ record e r := by
  cases e with
  | openReadyFile => exact absurd rfl he
  | _ => exact of_mem_record r

/-- Once a poll finds a signal, the file is not created any more. -/
theorem interrupted_step {strict : Prop} {built : Except Err (List MountSpec)} {stale : Bool}
    {s s' : RunState} (h : RunStep s s') (hs : s.Ready strict built stale)
    (hint : Interrupted s) : Interrupted s' := by
  cases h with
  | @effect e k r h hr =>
      have hmain := hs.main
      rw [h] at hmain
      have hfresh : e ≠ .openReadyFile → .readyCreated ∉ s.history ++ record e r := fun he =>
        fun hm => (List.mem_append.mp hm).elim hint.fresh (created_notMem_record r he)
      rcases hint.signal with htaken | ⟨k', hpoll, hpos⟩
      · refine ⟨hfresh ?_, Or.inl (List.mem_append_left _ htaken)⟩
        rintro rfl
        exact hmain.1.go _ htaken trivial
      · -- the pending signal is what the poll takes
        rw [hpoll] at h
        cases h
        refine ⟨hfresh nofun, Or.inl ?_⟩
        obtain rfl : r = true := by
          rw [show r = decide (0 < s.signals) from hr]
          exact decide_eq_true hpos
        exact List.mem_append_right _ List.mem_cons_self
  | deliver =>
      refine ⟨hint.fresh, hint.signal.imp_right ?_⟩
      rintro ⟨k, hpoll, -⟩
      exact ⟨k, hpoll, Nat.succ_pos _⟩
  | _ => exact ⟨hint.fresh, hint.signal⟩

/-- An interrupted run stays interrupted. -/
theorem interrupted_of_steps (hpath : o.readyFilePath ≠ []) {s' : RunState}
    (h : (removingRuns visit o cfg).Reachable s) (hint : Interrupted s)
    (hsteps : Relation.ReflTransGen (removingRuns visit o cfg).step s s') : Interrupted s' := by
  induction hsteps with
  | refl => exact hint
  | @tail s₁ s₂ hpre hstep ih =>
      have hstep' : RunStep s₁ s₂ ∧ ¬ FailedRemoval s₁ s₂ := hstep
      obtain ⟨stale, hready⟩ := ready_of_removing hpath (h.trans hpre)
      exact interrupted_step hstep'.1 hready ih

/-- **Ready-file startup safety**, in every run with a ready-file path in which
removals succeed: from the first removal on the file is there only when every
spec was started, one after the other; it is created once at most, not after a
failed start, and not once a poll has found a signal.  That it is absent
whenever the run returns holds exactly if there was no stale file, or the seam
is there or can be made. -/
theorem ready_file_startup (visit : List Path → List Path) (o : Orchestrator) (cfg : Config)
    (hpath : o.readyFilePath ≠ []) :
    (∀ s, (removingRuns visit o cfg).Reachable s →
      (.readyRemoved ∈ s.history → s.readyFile = true →
        ∃ specs, o.buildSpecs visit cfg = .ok specs ∧
          (mountedOf s.history).length = specs.length) ∧
      (∀ spec k, s.main = .op (.mountAndWaitReady spec) k →
        ∃ specs, o.buildSpecs visit cfg = .ok specs ∧
          specs[(mountedOf s.history).length]? = some spec) ∧
      createdCount s.history ≤ 1 ∧
      (∀ spec err, .startFailed spec err ∈ s.history → .readyCreated ∉ s.history) ∧
      (∀ k, s.main = .op .pollSignal k → 0 < s.signals →
        ∀ s', Relation.ReflTransGen (removingRuns visit o cfg).step s s' →
          .readyCreated ∉ s'.history)) ∧
    ∀ stale answer,
      (∀ s r, (seamRuns visit o cfg stale answer).Reachable s → s.main = .ret r →
        s.readyFile = false) ↔
      (stale = false ∨ o.seam = true ∨ o.newSeam = true ∧ answer = none) := by
  refine ⟨fun s h => ?_, fun stale answer => ⟨fun hall => ?_, fun hwhen s r h hr => ?_⟩⟩
  · obtain ⟨stale, hready⟩ := ready_of_removing hpath h
    have hmain := hready.main
    have hfile := hready.file
    refine ⟨fun hrem hthere => ?_, fun spec k hk => ?_, hready.history.once,
      fun spec err hf hc => hready.history.started hc spec err hf, fun k hk hpos s' hsteps => ?_⟩
    · rw [hfile, fileAfter_of_removed hrem] at hthere
      exact hready.history.all ((created_of_fileAfter hthere).resolve_left nofun)
    · rw [hk] at hmain
      exact hmain.1.2
    · rw [hk] at hmain
      exact (interrupted_of_steps hpath h ⟨hmain.1, Or.inr ⟨k, hk, hpos⟩⟩ hsteps).fresh
  · refine Decidable.or_iff_not_imp_left.mpr fun hstale => ?_
    refine Decidable.byContradiction fun hseam => ?_
    obtain ⟨s, r, hs, hr, hfile⟩ := exists_return_of_no_seam visit cfg stale hpath hseam
    exact hstale (hfile.symm.trans (hall s r hs hr))
  · have hready := ready_of_seamRuns hpath h
    rw [hready.file]
    rcases hwhen with rfl | hseam
    · -- the run has not begun, or it has retracted the file
      have hmain := hready.main
      rw [hr] at hmain
      rcases hmain with hnil | hretracted
      · rw [hnil]
        rfl
      · exact (hretracted trivial).2
    · obtain ⟨hrem, hgone⟩ := retracted_of_seam hpath hseam h hr
      rw [fileAfter_of_removed hrem, hgone]

/-- **Retraction and teardown**: when an unmount call is about to begin, the
ready-file is there exactly when this run has created it. -/
theorem ready_file_at_unmount (visit : List Path → List Path) (o : Orchestrator) (cfg : Config)
    (hpath : o.readyFilePath ≠ []) {s : RunState} (h : (runs visit o cfg).Reachable s)
    (ws₁ ws₂ : List Worker) (p : Point) (hw : s.workers = ws₁ ++ .ready p :: ws₂) :
    s.readyFile = true ↔ .readyCreated ∈ s.history := by
  obtain ⟨stale, hready⟩ := ready_of_reachable hpath h
  have hmain := hready.main
  obtain ⟨points, k, hk, -⟩ := (reachable_sound h).workers (by simp [hw])
  rw [hk] at hmain
  obtain ⟨hrem, hiff⟩ := hmain.1
  rw [hready.file, fileAfter_of_removed hrem, hiff]

end Runs

/-! ## a run to the teardown, and one that ends early -/

/-- One mount. -/
def singleConfig : Config :=
  { pairConfig with mounts := some ⟨[{ Mount.zero with destination := "/a".toList }], []⟩ }

def readyOrchestrator : Orchestrator := { pairOrchestrator with readyFilePath := "/ready".toList }

/-- The one point of the run is about to be unmounted, after a signal that
came when it was up. -/
theorem reachable_unmounting :
    ∃ s, (removingRuns id readyOrchestrator singleConfig).Reachable s ∧
      s.workers = [] ++ .ready pointA :: [] ∧ s.readyFile = true ∧
      s.history = [.readyRemoved, .mounted pointA, .readyCreated, .signalTaken] := by
  have h₀ := System.Reachable.init (S := removingRuns id readyOrchestrator singleConfig)
    ⟨false, rfl⟩
  have h₁ := h₀.step ⟨.effect (e := .removeReadyFile) (r := .notExist) rfl rfl,
    not_failedRemoval_of_history nofun⟩
  have h₂ := h₁.step ⟨.effect (e := .pollSignal) (r := false) rfl rfl,
    not_failedRemoval_of_main nofun⟩
  have hfresh : Event.mounted pointA ∉ [.readyRemoved] := by simp
  have h₃ := h₂.step ⟨.effect (e := .mountAndWaitReady _) (r := .ok pointA) rfl hfresh,
    not_failedRemoval_of_main nofun⟩
  have h₄ := h₃.step ⟨.effect (e := .pollSignal) (r := false) rfl rfl,
    not_failedRemoval_of_main nofun⟩
  have h₅ := h₄.step ⟨.effect (e := .openReadyFile) (r := none) rfl trivial,
    not_failedRemoval_of_main nofun⟩
  have h₆ := h₅.step ⟨.effect (e := .closeReadyFile) (r := none) rfl trivial,
    not_failedRemoval_of_main nofun⟩
  have h₇ := h₆.step ⟨.deliver, not_failedRemoval_of_main nofun⟩
  have h₈ := h₇.step ⟨.effect (e := .select [pointA]) (r := .signal) rfl Nat.one_pos,
    not_failedRemoval_of_main nofun⟩
  have h₉ := h₈.step ⟨.spawn rfl rfl, not_failedRemoval_of_main nofun⟩
  exact ⟨_, h₉, rfl, rfl, rfl⟩

theorem ready_file_startup_single :
    ∃ s, (removingRuns id readyOrchestrator singleConfig).Reachable s ∧ s.readyFile = true ∧
      ∃ specs, readyOrchestrator.buildSpecs id singleConfig = .ok specs ∧
        (mountedOf s.history).length = specs.length := by
  obtain ⟨s, hs, -, hfile, hhist⟩ := reachable_unmounting
  exact ⟨s, hs, hfile, ((ready_file_startup id readyOrchestrator singleConfig
    (by decide)).1 s hs).1 (by simp [hhist]) hfile⟩

theorem ready_file_at_unmount_single :
    ∃ s, (runs id readyOrchestrator singleConfig).Reachable s ∧ s.readyFile = true := by
  obtain ⟨s, hs, hw, -, hhist⟩ := reachable_unmounting
  refine ⟨s, hs.of_restrict, ?_⟩
  exact (ready_file_at_unmount id readyOrchestrator singleConfig (by decide) hs.of_restrict
    [] [] pointA hw).mpr (by simp [hhist])

/-- The call of `unmount` begins while the ready-file is there. -/
theorem unmount_before_retraction :
    ∃ s s', (runs id readyOrchestrator singleConfig).Reachable s ∧ RunStep s s' ∧
      s.readyFile = true ∧ s'.readyFile = true ∧ s'.unmounted = s.unmounted ++ [pointA] := by
  obtain ⟨s, hs, hw, hfile, -⟩ := reachable_unmounting
  exact ⟨s, _, hs.of_restrict, .call [] [] hw, hfile, hfile, rfl⟩

/-- A run whose seam cannot be made returns with a stale ready-file in
place. -/
theorem stale_ready_file_at_return :
    ∃ s r, (removingRuns id { readyOrchestrator with seam := false, newSeam := true }
        singleConfig).Reachable s ∧ s.main = .ret r ∧ s.readyFile = true := by
  have h₀ := System.Reachable.init
    (S := removingRuns id { readyOrchestrator with seam := false, newSeam := true } singleConfig)
    ⟨true, rfl⟩
  have h₁ := h₀.step ⟨.effect (e := .newSeam) (r := some (.text [])) rfl trivial,
    not_failedRemoval_of_main nofun⟩
  exact ⟨_, _, h₁, rfl, rfl⟩

end OcuFilestore.Mounter
