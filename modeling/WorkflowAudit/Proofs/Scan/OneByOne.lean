import Mathlib
import WorkflowAudit.Proofs.Scan.Roots
import WorkflowAudit.Proofs.Scan.Runs
import WorkflowAudit.Scan

/-!
A scan of many files gives what scans of the single files give. Main statement: on a network whose
answers depend on the address only, a batch comes to its end on every schedule, and what is gathered
there is what its files give when each is scanned by itself; so is the result of a scan. The scan that
finishes its files one after the other is one of the runs of the batch, on any network.
-/

namespace WorkflowAudit

variable {disk : Disk} {around : Surroundings}

/-! ### The run that finishes one task after the other -/

namespace Batch

theorem run_append (b : Batch) (first second : List Nat) :
    b.run disk around (first ++ second) = (b.run disk around first).bind (·.run disk around second) := by
  rw [run, List.foldlM_append]
  rfl

theorem run_cons_of_advance {b b' : Batch} {i : Nat} (h : b.advance disk around i = some b')
    (schedule : List Nat) : b.run disk around (i :: schedule) = b'.run disk around schedule := by
  rw [run, List.foldlM_cons, h]
  rfl

variable (disk around) (before after : List Task)

theorem exists_run_talk (free : Nat) (earlier : List String) (d : Dialog (List Finding))
    (activity : Activity) :
    ∃ schedule, run disk around ⟨before ++ .talking d :: after, free, earlier ++ activity.requests⟩
        schedule =
      some ⟨before ++ .finished (.ok (d.run around.network earlier activity).1) :: after, free,
        earlier ++ (d.run around.network earlier activity).2.requests⟩ := by
  induction d generalizing activity with
  | done findings =>
    refine ⟨[before.length], ?_⟩
    rw [Dialog.run]
    apply run_cons_of_advance
    simp [advance, put]
  | ask url next ih =>
    let answer := around.network.answer (earlier ++ activity.requests) url
    obtain ⟨schedule, h⟩ := ih answer { activity with requests := activity.requests ++ [url] }
    refine ⟨before.length :: schedule, ?_⟩
    rw [Dialog.run, ← h]
    apply run_cons_of_advance
    simp [advance, put, answer]
  | wait seconds next ih =>
    obtain ⟨schedule, h⟩ := ih { activity with waited := activity.waited + seconds }
    refine ⟨before.length :: schedule, ?_⟩
    rw [Dialog.run, ← h]
    apply run_cons_of_advance
    simp [advance, put]

/-- The moves of a task whose file has been read, with no others between them. -/
theorem exists_run_ofScan (free : Nat) (requests : List String) (path : String)
    (actions : Option ActionIndex) :
    ∃ schedule, run disk around
        ⟨before ++ .ofScan (scanFile disk around path actions) :: after, free, requests⟩ schedule =
      some ⟨before ++
          .finished ((Task.reading path actions).finish disk around requests).1 :: after, free,
        requests ++ ((Task.reading path actions).finish disk around requests).2⟩ := by
  rw [Task.finish]
  cases scanFile disk around path actions with
  | error e =>
    refine ⟨[], ?_⟩
    rw [List.append_nil]
    rfl
  | ok d =>
    obtain ⟨schedule, h⟩ := exists_run_talk disk around before after free requests d {}
    rw [List.append_nil] at h
    exact ⟨schedule, h⟩

theorem exists_run_finish {free : Nat} (hfree : 0 < free) (requests : List String) (t : Task) :
    ∃ schedule, run disk around ⟨before ++ t :: after, free, requests⟩ schedule =
      some ⟨before ++ .finished (t.finish disk around requests).1 :: after, free + t.held,
        requests ++ (t.finish disk around requests).2⟩ := by
  cases t with
  | queued path actions =>
    obtain ⟨schedule, h⟩ := exists_run_ofScan disk around before after free requests path actions
    refine ⟨before.length :: before.length :: schedule, Eq.trans ?_ h⟩
    have henter : advance disk around
        ⟨before ++ .queued path actions :: after, free, requests⟩ before.length =
        some ⟨before ++ .reading path actions :: after, free - 1, requests⟩ := by
      simp [advance, put, Nat.ne_of_gt hfree]
    rw [run_cons_of_advance henter]
    apply run_cons_of_advance
    simp [advance, put, Nat.sub_add_cancel hfree]
  | reading path actions =>
    obtain ⟨schedule, h⟩ :=
      exists_run_ofScan disk around before after (free + 1) requests path actions
    refine ⟨before.length :: schedule, Eq.trans ?_ h⟩
    apply run_cons_of_advance
    simp [advance, put]
  | talking d =>
    obtain ⟨schedule, h⟩ := exists_run_talk disk around before after free requests d {}
    rw [List.append_nil] at h
    exact ⟨schedule, h⟩
  | finished result =>
    refine ⟨[], ?_⟩
    rw [Task.finish, List.append_nil]
    rfl

theorem exists_run_finishAll {free : Nat} (hfree : 0 < free) (requests : List String)
    (before tasks : List Task) :
    ∃ schedule, run disk around ⟨before ++ tasks, free, requests⟩ schedule =
      some ⟨before ++ (Task.finishAll disk around tasks requests).1.map .finished,
        free + (tasks.map Task.held).sum,
        requests ++ (Task.finishAll disk around tasks requests).2⟩ := by
  induction tasks generalizing before free requests with
  | nil =>
    refine ⟨[], ?_⟩
    simp [run, Task.finishAll]
  | cons t rest ih =>
    obtain ⟨first, hfirst⟩ := exists_run_finish disk around before rest hfree requests t
    obtain ⟨second, hsecond⟩ := ih (Nat.add_pos_left hfree t.held)
      (requests ++ (t.finish disk around requests).2)
      (before ++ [.finished (t.finish disk around requests).1])
    refine ⟨first ++ second, ?_⟩
    rw [run_append, hfirst, Option.bind_some]
    simpa [Task.finishAll, Nat.add_assoc] using hsecond

end Batch

theorem mapM_result?_finished (results : List (Except ScanError (List Finding))) :
    (results.map Task.finished).mapM Task.result? = some results := by
  induction results with
  | nil => rfl
  | cons result results ih =>
    rw [List.map_cons, List.mapM_cons, ih]
    rfl

/-- The scan of several files is a run of their batch: the findings or the error are gathered from its
    end, and the requests are those made in it. -/
theorem exists_run_of_scan (disk : Disk) (around : Surroundings) {permits : Nat}
    (hpermits : 0 < permits) (first second : String) (rest : List String) :
    ∃ schedule b results,
      (Batch.start disk around permits (first :: second :: rest)).run disk around schedule = some b ∧
      b.results? = some results ∧
      (scan disk around (first :: second :: rest)).1 =
        gather disk around.settings ((first :: second :: rest).zip results) ∧
      b.requests = around.earlier ++ (scan disk around (first :: second :: rest)).2 := by
  obtain ⟨schedule, h⟩ := Batch.exists_run_finishAll disk around hpermits around.earlier []
    (Batch.start disk around permits (first :: second :: rest)).tasks
  exact ⟨schedule, _, _, h, mapM_result?_finished _, rfl, rfl⟩

/-! ### Files scanned by themselves -/

/-- What a file comes to by itself on a steady network, before its findings are put in order. -/
def alone (disk : Disk) (around : Surroundings) (path : String) : Except ScanError (List Finding) :=
  (scanFile disk around path (some (.ofProject disk (disk.projectRoot path)))).map
    (·.outcome (around.network.answer []))

theorem scan_singleton (disk : Disk) (hsteady : around.network.Steady) (path : String) :
    (scan disk around [path]).1 =
      (alone disk around path).map (mergeFindings around.settings (disk.displayPath path)) := by
  have hfinish := Task.finish_eq_outcome disk hsteady around.earlier
    (Task.ofScan (scanFile disk around path (some (.ofProject disk (disk.projectRoot path)))))
  rw [Task.outcome_ofScan] at hfinish
  rw [scan, alone, ← hfinish]
  simp only [gather]
  generalize (Task.finish ..).1 = result
  cases result with
  | error e => rfl
  | ok findings => exact congrArg Except.ok (List.append_nil _)

/-- In a batch each file has the actions of its own project at hand. -/
theorem start_tasks (disk : Disk) (around : Surroundings) (permits : Nat) (paths : List String) :
    (Batch.start disk around permits paths).tasks =
      paths.map fun path => .queued path (some (.ofProject disk (disk.projectRoot path))) := by
  have hroots : ∀ root ∈ paths.map disk.projectRoot, Path.Settled root := by
    intro root hroot
    obtain ⟨path, -, rfl⟩ := List.mem_map.1 hroot
    exact disk.settled_projectRoot path
  rw [Batch.start]
  refine List.map_congr_left fun path hpath => ?_
  rw [ProjectCache.get?_ofRoots disk hroots (List.mem_map_of_mem hpath)]

theorem start_outcomes (disk : Disk) (around : Surroundings) (permits : Nat) (paths : List String) :
    (Batch.start disk around permits paths).outcomes disk around =
      paths.map (alone disk around) := by
  rw [Batch.outcomes, start_tasks, List.map_map]
  rfl

/-- The result is what the files give when each is scanned by itself: the findings of all, in the order
    of the files, if every file can be scanned, and else the error of the first that cannot. -/
def OneByOne (disk : Disk) (around : Surroundings) (paths : List String) :
    Except ScanError (List Finding) → Prop
  | .ok findings => ∃ found : List (List Finding),
      List.Forall₂ (fun path shown => (scan disk around [path]).1 = .ok shown) paths found ∧
      findings = found.flatten
  | .error e => ∃ before path after, paths = before ++ path :: after ∧
      (∀ p ∈ before, ∃ shown, (scan disk around [p]).1 = .ok shown) ∧
      (scan disk around [path]).1 = .error e

theorem oneByOne_gather (hsteady : around.network.Steady) (paths : List String) :
    OneByOne disk around paths
      (gather disk around.settings (paths.zip (paths.map (alone disk around)))) := by
  induction paths with
  | nil => exact ⟨[], .nil, rfl⟩
  | cons path paths ih =>
    have hscan := scan_singleton disk hsteady path
    rw [List.map_cons, List.zip_cons_cons, gather]
    cases halone : alone disk around path with
    | error e =>
      rw [halone] at hscan
      exact ⟨[], path, paths, rfl, fun p hp => absurd hp List.not_mem_nil, hscan⟩
    | ok findings =>
      rw [halone] at hscan
      generalize gather disk around.settings (paths.zip (paths.map (alone disk around))) = rest at ih ⊢
      cases rest with
      | error e =>
        obtain ⟨before, p, after, rfl, hbefore, hp⟩ := ih
        refine ⟨path :: before, p, after, rfl, fun q hq => ?_, hp⟩
        rcases List.mem_cons.1 hq with rfl | hq
        · exact ⟨_, hscan⟩
        · exact hbefore q hq
      | ok others =>
        obtain ⟨found, hfound, rfl⟩ := ih
        exact ⟨_ :: found, .cons hscan hfound, rfl⟩

/-! ### Every schedule -/

theorem oneByOne_of_run (hsteady : around.network.Steady) {permits : Nat} {paths : List String}
    {schedule : List Nat} {b : Batch} {results : List (Except ScanError (List Finding))}
    (hrun : (Batch.start disk around permits paths).run disk around schedule = some b)
    (hresults : b.results? = some results) :
    OneByOne disk around paths (gather disk around.settings (paths.zip results)) := by
  have houtcomes := Batch.run_outcomes hsteady hrun
  rw [Batch.outcomes_of_results? hresults, start_outcomes] at houtcomes
  rw [houtcomes]
  exact oneByOne_gather hsteady paths

theorem oneByOne_scan (hsteady : around.network.Steady) (paths : List String) :
    OneByOne disk around paths (scan disk around paths).1 := by
  match paths with
  | [] => exact ⟨[], .nil, rfl⟩
  | [path] =>
    cases h : (scan disk around [path]).1 with
    | error e => exact ⟨[], path, [], rfl, fun p hp => absurd hp List.not_mem_nil, h⟩
    | ok findings => exact ⟨[findings], .cons h .nil, by simp⟩
  | first :: second :: rest =>
    obtain ⟨schedule, b, results, hrun, hresults, hscan, -⟩ :=
      exists_run_of_scan disk around Nat.one_pos first second rest
    rw [hscan]
    exact oneByOne_of_run hsteady hrun hresults

/-- On a network whose answers depend on the address only, a scan gives what its files give by
    themselves, and so does the batch of the files on every schedule: no run is longer than a number of
    moves, a run that has not come to its end can go on, and one that has gives that result. -/
theorem scan_oneByOne_on_every_schedule (disk : Disk) (around : Surroundings)
    (hsteady : around.network.Steady) (paths : List String) :
    OneByOne disk around paths (scan disk around paths).1 ∧
    ∀ permits, 0 < permits → ∃ moves, ∀ schedule b,
      (Batch.start disk around permits paths).run disk around schedule = some b →
        schedule.length ≤ moves ∧
        match b.results? with
        | none => ∃ i, (b.advance disk around i).isSome
        | some results =>
          OneByOne disk around paths (gather disk around.settings (paths.zip results)) := by
  refine ⟨oneByOne_scan hsteady paths, fun permits hpermits =>
    ⟨(Batch.start disk around permits paths).moves disk around, fun schedule b hrun => ⟨?_, ?_⟩⟩⟩
  · have hmoves := Batch.run_moves hsteady hrun
    omega
  · cases hresults : b.results? with
    | none =>
      obtain ⟨t, ht, hnone⟩ := Batch.exists_of_results?_eq_none hresults
      refine Batch.exists_advance ?_ ht hnone
      rw [Batch.run_permits hrun]
      exact Nat.add_pos_left hpermits _
    | some results => exact oneByOne_of_run hsteady hrun hresults

/-- A directory with one workflow. -/
def oneWorkflow : Disk where
  root := .dir [("ci.yml", .file "on: push\njobs:\n  a:\n    steps:\n      - uses: gone/x\n".toUTF8)]
  cwd := []

/-- A network on which no owner is found. -/
def ownersGone : Surroundings where
  settings := { connected := true }
  untrusted := untrusted
  probe := some ⟨fun _ _ => .status 404⟩

/-- A file that is not there fails before its neighbours have been read. -/
theorem scan_oneByOne_with_early_failure :
    ownersGone.network.Steady ∧
    OneByOne oneWorkflow ownersGone ["ci.yml", "none.yml", "./ci.yml"]
      (scan oneWorkflow ownersGone ["ci.yml", "none.yml", "./ci.yml"]).1 ∧
    ∃ b, (Batch.start oneWorkflow ownersGone 1 ["ci.yml", "none.yml", "./ci.yml"]).run oneWorkflow
        ownersGone [1, 1] = some b ∧
      b.tasks[1]? = some (.finished (.error (.unreadable "none.yml" .notFound))) ∧
      ∃ i, (b.advance oneWorkflow ownersGone i).isSome := by
  have hsteady : ownersGone.network.Steady := fun _ _ => rfl
  have hread : oneWorkflow.read "none.yml" = .error .notFound := by decide
  have hscan (actions : Option ActionIndex) :
      scanFile oneWorkflow ownersGone "none.yml" actions = .error (.unreadable "none.yml" .notFound) := by
    rw [scanFile, hread]
  obtain ⟨hwhole, hruns⟩ := scan_oneByOne_on_every_schedule oneWorkflow ownersGone hsteady
    ["ci.yml", "none.yml", "./ci.yml"]
  obtain ⟨moves, hmoves⟩ := hruns 1 Nat.one_pos
  obtain ⟨b, hrun, hfirst, hsecond⟩ : ∃ b, (Batch.start oneWorkflow ownersGone 1
      ["ci.yml", "none.yml", "./ci.yml"]).run oneWorkflow ownersGone [1, 1] = some b ∧
      b.tasks[1]? = some (.finished (.error (.unreadable "none.yml" .notFound))) ∧
      b.results? = none := by
    simp [Batch.run, Batch.start, Batch.advance, Batch.put, hscan, Task.ofScan, Batch.results?,
      Task.result?]
  have hend := (hmoves [1, 1] b hrun).2
  rw [hsecond] at hend
  exact ⟨hsteady, hwhole, b, hrun, hfirst, hend⟩

end WorkflowAudit
