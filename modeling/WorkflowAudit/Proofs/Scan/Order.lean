import WorkflowAudit.Proofs.Scan.OneByOne
import WorkflowAudit.Proofs.Settings.Suppression

/-!
The order of findings. What a scan shows of a file comes from a run of the rules over its workflow; the
findings of that run stand by rule, and those of a rule in the order of its reports. Main statement: a
scan, and a batch on every schedule, shows file by file the findings that are not ignored, by their
places, and those at one place in the order of the run. The network may answer as it likes: a run is
what comes of some of its answers.
-/

namespace WorkflowAudit

/-! ### How a dialog can end -/

/-- The dialog ends with a result when each of its requests is answered as the network answers it after
    some requests, its own or those of others. -/
inductive Dialog.EndsWith {α : Type} (probe : Probe) : Dialog α → α → Prop
  | done (result : α) : EndsWith probe (.done result) result
  | ask {url : String} {next : Answer → Dialog α} {result : α} (earlier : List String)
      (h : EndsWith probe (next (probe.answer earlier url)) result) :
      EndsWith probe (.ask url next) result
  | wait {next : Dialog α} {result : α} (seconds : Nat) (h : EndsWith probe next result) :
      EndsWith probe (.wait seconds next) result

namespace Dialog

variable {α β : Type} {probe : Probe}

theorem endsWith_run (probe : Probe) (earlier : List String) (d : Dialog α) (activity : Activity) :
    EndsWith probe d (d.run probe earlier activity).1 := by
  induction d generalizing activity with
  | done result => exact .done result
  | ask url next ih => exact .ask _ (ih _ _)
  | wait seconds next ih => exact .wait seconds (ih _)

theorem endsWith_pure {a b : α} (h : EndsWith probe (pure a) b) : b = a := by
  cases h with
  | done => rfl

theorem exists_endsWith_of_bind {d : Dialog α} {f : α → Dialog β} {result : β}
    (h : EndsWith probe (d >>= f) result) : ∃ a, EndsWith probe d a ∧ EndsWith probe (f a) result := by
  change EndsWith probe (d.bind f) result at h
  induction d with
  | done a => exact ⟨a, .done a, h⟩
  | ask url next ih =>
    cases h with
    | ask earlier h =>
      obtain ⟨a, ha, hresult⟩ := ih _ h
      exact ⟨a, .ask earlier ha, hresult⟩
  | wait seconds next ih =>
    cases h with
    | wait _ h =>
      obtain ⟨a, ha, hresult⟩ := ih h
      exact ⟨a, .wait seconds ha, hresult⟩

end Dialog

theorem forall₂_of_endsWith_inTurn {probe : Probe} {ds : List (Dialog (List Finding))}
    {found : List Finding} (h : (inTurn ds).EndsWith probe found) :
    ∃ parts, List.Forall₂ (Dialog.EndsWith probe) ds parts ∧ found = parts.flatten := by
  induction ds generalizing found with
  | nil =>
    cases h with
    | done => exact ⟨[], .nil, rfl⟩
  | cons d ds ih =>
    obtain ⟨first, hfirst, h⟩ := Dialog.exists_endsWith_of_bind h
    obtain ⟨others, hothers, h⟩ := Dialog.exists_endsWith_of_bind h
    obtain ⟨parts, hparts, rfl⟩ := ih hothers
    exact ⟨first :: parts, .cons hfirst hparts, Dialog.endsWith_pure h⟩

/-! ### A run of the rules -/

/-- What a rule reports on a workflow, in order: what it reports on one part of the walk after the other,
    and then what it reports at the end; nothing if it stays out of the walk. -/
inductive Rule.Reports (around : Surroundings) (w : Workflow) (rule : Rule) : List Report → Prop
  | leftOut (h : around.LeavesOut w rule) : Reports around w rule []
  | watching (h : ¬around.LeavesOut w rule) {state last : rule.State} {heard more : List Report}
      (hheard : w.visits.foldl (rule.hear around) (rule.start, []) = (state, heard))
      (hmore : (rule.leave around state w).EndsWith around.network (last, more)) :
      Reports around w rule (heard ++ more)

/-- The findings of a run of rules over a workflow, rule by rule, and those of a rule in the order of its
    reports. -/
def IsRun (around : Surroundings) (rules : List Rule) (w : Workflow) (found : List Finding) : Prop :=
  ∃ reports, List.Forall₂ (Rule.Reports around w) rules reports ∧
    found = (List.zipWith (fun rule rs => rs.map (Finding.ofReport rule.ident)) rules reports).flatten

variable {around : Surroundings} {w : Workflow}

theorem exists_reports_of_endsWith {rule : Rule} {found : List Finding}
    (h : (walk around [rule] w).EndsWith around.network found) :
    ∃ reports, rule.Reports around w reports ∧ found = reports.map (Finding.ofReport rule.ident) := by
  rw [walk_singleton] at h
  cases hwatches : around.watches w rule with
  | false =>
    rw [hwatches] at h
    cases h with
    | done => exact ⟨[], .leftOut ((watches_eq_false_iff rule).1 hwatches), rfl⟩
  | true =>
    rw [hwatches, if_pos rfl, Rule.alone, ← Rule.foldl_hear_workflow] at h
    obtain ⟨⟨last, more⟩, hmore, h⟩ := Dialog.exists_endsWith_of_bind h
    refine ⟨_, .watching ?_ rfl hmore, Dialog.endsWith_pure h⟩
    rw [← watches_eq_false_iff, hwatches]
    exact Bool.noConfusion

/-- However the network answers, a walk ends with the findings of a run. -/
theorem isRun_of_endsWith {rules : List Rule} {found : List Finding}
    (h : (walk around rules w).EndsWith around.network found) : IsRun around rules w found := by
  rw [walk_eq_inTurn] at h
  obtain ⟨parts, hparts, rfl⟩ := forall₂_of_endsWith_inTurn h
  clear h
  induction rules generalizing parts with
  | nil =>
    cases hparts with
    | nil => exact ⟨[], .nil, rfl⟩
  | cons rule rules ih =>
    cases hparts with
    | cons hfirst hothers =>
      obtain ⟨reports, hreports, rfl⟩ := exists_reports_of_endsWith hfirst
      obtain ⟨others, hall, hflat⟩ := ih _ hothers
      refine ⟨reports :: others, .cons hreports hall, ?_⟩
      rw [List.flatten_cons, hflat]
      rfl

/-! ### Findings in the order of their places -/

/-- The findings that are not ignored, as they are shown under a path. -/
def kept (settings : Settings) (path : String) (found : List Finding) : List Finding :=
  (found.filter fun f => !settings.ignores f.message).map fun f => { f with path := some path }

/-- What is shown of a run: all that is kept of it and nothing else, by the places of the findings, and
    the findings at one place in the order of the run. -/
structure Arranges (settings : Settings) (path : String) (found shown : List Finding) : Prop where
  perm : shown.Perm (kept settings path found)
  byPlace : shown.Pairwise fun a b => a.position.line < b.position.line ∨
    (a.position.line = b.position.line ∧ a.position.column ≤ b.position.column)
  stable (p : Position) : shown.filter (·.position = p) = (kept settings path found).filter (·.position = p)

theorem notAfter_of_position_eq {a b : Finding} (h : a.position = b.position) : a.notAfter b := by
  simp [Finding.notAfter, h]

/-- The findings at one place keep their order. -/
theorem filter_position_mergeSort (found : List Finding) (p : Position) :
    (found.mergeSort Finding.notAfter).filter (·.position = p) = found.filter (·.position = p) := by
  have hhere : (found.filter (·.position = p)).Pairwise fun a b => a.notAfter b := by
    refine List.Pairwise.imp_of_mem (fun {a b} ha hb _ => ?_) (List.pairwise_of_forall fun _ _ => trivial)
    have ha : a.position = p := by simpa using (List.mem_filter.1 ha).2
    have hb : b.position = p := by simpa using (List.mem_filter.1 hb).2
    exact notAfter_of_position_eq (ha.trans hb.symm)
  have hsublist := (List.sublist_mergeSort notAfter_trans notAfter_total hhere
    List.filter_sublist).filter (·.position = p)
  rw [List.filter_filter] at hsublist
  simp only [Bool.and_self] at hsublist
  exact (hsublist.eq_of_length ((List.mergeSort_perm ..).filter _).length_eq.symm).symm

theorem arranges_mergeFindings (settings : Settings) (path : String) (found : List Finding) :
    Arranges settings path found (mergeFindings settings path found) where
  perm := List.mergeSort_perm ..
  byPlace := by
    refine (List.pairwise_mergeSort notAfter_trans notAfter_total _).imp fun {a b} h => ?_
    simpa [Finding.notAfter] using h
  stable := filter_position_mergeSort _

/-! ### The results of a batch -/

/-- What a task may come to, however the network answers. -/
inductive Task.MayGive (disk : Disk) (around : Surroundings) :
    Task → Except ScanError (List Finding) → Prop
  | finished (result : Except ScanError (List Finding)) :
      MayGive disk around (.finished result) result
  | talking {d : Dialog (List Finding)} {found : List Finding} (h : d.EndsWith around.network found) :
      MayGive disk around (.talking d) (.ok found)
  | reading {path : String} {actions : Option ActionIndex} {result : Except ScanError (List Finding)}
      (h : MayGive disk around (.ofScan (scanFile disk around path actions)) result) :
      MayGive disk around (.reading path actions) result
  | queued {path : String} {actions : Option ActionIndex} {result : Except ScanError (List Finding)}
      (h : MayGive disk around (.reading path actions) result) :
      MayGive disk around (.queued path actions) result

variable {disk : Disk}

/-- A move takes results away and adds none. -/
theorem Task.Move.mayGive {requests : List String} {t t' : Task} (h : Move disk around requests t t')
    {result : Except ScanError (List Finding)} (hresult : t'.MayGive disk around result) :
    t.MayGive disk around result := by
  cases h with
  | enter path actions => exact .queued hresult
  | read path actions => exact .reading hresult
  | ask url next =>
    cases hresult with
    | talking h => exact .talking (.ask requests h)
  | wait seconds next =>
    cases hresult with
    | talking h => exact .talking (.wait seconds h)
  | finish findings =>
    cases hresult with
    | finished => exact .talking (.done findings)

/-- What the tasks of a batch may come to, those of another may come to as well. -/
def Batch.Within (disk : Disk) (around : Surroundings) (b b' : Batch) : Prop :=
  List.Forall₂ (fun t t' => ∀ result, Task.MayGive disk around t' result →
    Task.MayGive disk around t result) b.tasks b'.tasks

theorem Batch.within_of_advance {b c c' : Batch} {i : Nat} (hwithin : b.Within disk around c)
    (h : c.advance disk around i = some c') : b.Within disk around c' := by
  obtain ⟨t, t', ht, htasks, -, hmove⟩ := exists_move_of_advance h
  obtain ⟨hlength, hall⟩ := List.forall₂_iff_get.1 hwithin
  rw [Within, htasks, List.forall₂_iff_get]
  refine ⟨by rw [List.length_set, hlength], fun j hj hj' result hresult => ?_⟩
  rw [List.length_set] at hj'
  have hold := hall j hj hj' result
  simp only [List.get_eq_getElem, List.getElem_set] at hresult hold ⊢
  split at hresult
  · rename_i heq
    subst heq
    refine hold ?_
    rw [(List.getElem?_eq_some_iff.1 ht).2]
    exact hmove.mayGive hresult
  · exact hold hresult

theorem Batch.within_of_run {b c : Batch} {schedule : List Nat}
    (h : b.run disk around schedule = some c) : b.Within disk around c := by
  refine run_keeps (P := fun c => b.Within disk around c)
    (fun c i c' hc hadvance => within_of_advance hc hadvance) ?_ h
  exact List.forall₂_same.2 fun t _ result hresult => hresult

theorem Batch.mayGive_of_results? {b c : Batch} (hwithin : b.Within disk around c)
    {results : List (Except ScanError (List Finding))} (h : c.results? = some results) :
    List.Forall₂ (Task.MayGive disk around) b.tasks results := by
  rw [results?] at h
  rw [Within] at hwithin
  generalize b.tasks = tasks at hwithin ⊢
  generalize c.tasks = tasks' at hwithin h
  induction hwithin generalizing results with
  | nil =>
    cases h
    exact .nil
  | @cons t t' tasks tasks' ht _ ih =>
    rw [List.mapM_cons] at h
    cases t' with
    | finished result =>
      cases hrest : tasks'.mapM Task.result? with
      | none => rw [hrest] at h; cases h
      | some rest =>
        rw [hrest] at h
        cases h
        exact .cons (ht result (.finished result)) (ih hrest)
    | queued | reading | talking => cases h

theorem Task.mayGive_finish (disk : Disk) (around : Surroundings) (requests : List String) (t : Task) :
    t.MayGive disk around (t.finish disk around requests).1 := by
  have hread (path : String) (actions : Option ActionIndex) :
      (Task.reading path actions).MayGive disk around
        ((Task.reading path actions).finish disk around requests).1 := by
    refine .reading ?_
    rw [finish]
    cases scanFile disk around path actions with
    | error e => exact .finished _
    | ok d => exact .talking (d.endsWith_run ..)
  cases t with
  | queued path actions => exact .queued (hread path actions)
  | reading path actions => exact hread path actions
  | talking d => exact .talking (d.endsWith_run ..)
  | finished result => exact .finished result

/-! ### What is shown -/

/-- What is shown of a file: a run of the selected rules over its workflow, with the actions of its
    project at hand, put in order under the path of the file as it is displayed. -/
def ShownOf (disk : Disk) (around : Surroundings) (path : String) (shown : List Finding) : Prop :=
  ∃ source w found, disk.read path = .ok source ∧ Workflow.parse source = .ok w ∧
    IsRun { around with actions := some (.ofProject disk (disk.projectRoot path)) } around.rules w
      found ∧
    Arranges around.settings (disk.displayPath path) found shown

theorem shownOf_of_mayGive {path : String} {found : List Finding}
    (h : (Task.queued path (some (.ofProject disk (disk.projectRoot path)))).MayGive disk around
      (.ok found)) :
    ShownOf disk around path (mergeFindings around.settings (disk.displayPath path) found) := by
  cases h with
  | queued h =>
    cases h with
    | reading h =>
      unfold scanFile at h
      cases hread : disk.read path with
      | error cause => rw [hread] at h; cases h
      | ok source =>
        rw [hread] at h
        dsimp only at h
        cases hparse : Workflow.parse source with
        | error cause => rw [hparse] at h; cases h
        | ok w =>
          rw [hparse] at h
          cases h with
          | talking h =>
            exact ⟨source, w, found, hread, hparse, isRun_of_endsWith h, arranges_mergeFindings ..⟩

/-- What is gathered is what is shown of each file, one after the other. -/
theorem shownOf_of_gather {paths : List String} {results : List (Except ScanError (List Finding))}
    (h : List.Forall₂ (fun path result => Task.MayGive disk around
      (.queued path (some (.ofProject disk (disk.projectRoot path)))) result) paths results)
    {findings : List Finding} (hgather : gather disk around.settings (paths.zip results) = .ok findings) :
    ∃ parts, List.Forall₂ (ShownOf disk around) paths parts ∧ findings = parts.flatten := by
  induction h generalizing findings with
  | nil =>
    cases hgather
    exact ⟨[], .nil, rfl⟩
  | @cons path result paths results hresult _ ih =>
    rw [List.zip_cons_cons, gather] at hgather
    cases result with
    | error e => cases hgather
    | ok found =>
      cases hothers : gather disk around.settings (paths.zip results) with
      | error e => rw [hothers] at hgather; cases hgather
      | ok others =>
        rw [hothers] at hgather
        cases hgather
        obtain ⟨parts, hparts, rfl⟩ := ih hothers
        exact ⟨_ :: parts, .cons (shownOf_of_mayGive hresult) hparts, rfl⟩

theorem shownOf_of_run {permits : Nat} {paths : List String} {schedule : List Nat} {b : Batch}
    {results : List (Except ScanError (List Finding))} {findings : List Finding}
    (hrun : (Batch.start disk around permits paths).run disk around schedule = some b)
    (hresults : b.results? = some results)
    (hgather : gather disk around.settings (paths.zip results) = .ok findings) :
    ∃ parts, List.Forall₂ (ShownOf disk around) paths parts ∧ findings = parts.flatten := by
  have hall := Batch.mayGive_of_results? (Batch.within_of_run hrun) hresults
  rw [start_tasks, List.forall₂_map_left_iff] at hall
  exact shownOf_of_gather hall hgather

theorem shownOf_of_scan {paths : List String} {findings : List Finding}
    (h : (scan disk around paths).1 = .ok findings) :
    ∃ parts, List.Forall₂ (ShownOf disk around) paths parts ∧ findings = parts.flatten := by
  match paths with
  | [] =>
    cases h
    exact ⟨[], .nil, rfl⟩
  | [path] =>
    let actions := ActionIndex.ofProject disk (disk.projectRoot path)
    have hresult := Task.mayGive_finish disk around around.earlier
      (.ofScan (scanFile disk around path (some actions)))
    have hall : List.Forall₂ (fun path result => Task.MayGive disk around
        (.queued path (some (.ofProject disk (disk.projectRoot path)))) result) [path] [_] :=
      .cons (.queued (.reading hresult)) .nil
    exact shownOf_of_gather hall h
  | first :: second :: rest =>
    obtain ⟨schedule, b, results, hrun, hresults, hscan, -⟩ :=
      exists_run_of_scan disk around Nat.one_pos first second rest
    rw [hscan] at h
    exact shownOf_of_run hrun hresults h

/-- A scan that succeeds shows, file by file, a run of the selected rules over the workflow of the file:
    of its findings exactly those that are not ignored, by their places, and those at one place by rule
    and in the order in which the rule reported them. So does a batch of files on every schedule. -/
theorem scan_shows_runs_in_order (disk : Disk) (around : Surroundings) (paths : List String) :
    (∀ findings, (scan disk around paths).1 = .ok findings →
      ∃ parts, List.Forall₂ (ShownOf disk around) paths parts ∧ findings = parts.flatten) ∧
    ∀ permits schedule b results findings,
      (Batch.start disk around permits paths).run disk around schedule = some b →
      b.results? = some results → gather disk around.settings (paths.zip results) = .ok findings →
      ∃ parts, List.Forall₂ (ShownOf disk around) paths parts ∧ findings = parts.flatten :=
  ⟨fun _ h => shownOf_of_scan h, fun _ _ _ _ _ hrun hresults h => shownOf_of_run hrun hresults h⟩

/-- A step that is repeated by an alias, so that its findings stand at one place, and a local action
    after it. -/
def repeatedUses : Disk where
  root := .dir [("a.yml", .file "on: push\njobs:\n  a:\n    steps:\n      - &s\n        uses: gone/x\n      - *s\n      - uses: ./y\n".toUTF8)]
  cwd := []

/-- The file is shown twice, once for each way to write its path, by a scan and by a batch. -/
theorem repeatedUses_shown_in_order :
    ∃ findings, (scan repeatedUses ownersGone ["a.yml", "./a.yml"]).1 = .ok findings ∧
      (∃ parts, List.Forall₂ (ShownOf repeatedUses ownersGone) ["a.yml", "./a.yml"] parts ∧
        findings = parts.flatten) ∧
      ∃ schedule b results,
        (Batch.start repeatedUses ownersGone 2 ["a.yml", "./a.yml"]).run repeatedUses ownersGone
          schedule = some b ∧ b.results? = some results ∧
        gather repeatedUses ownersGone.settings (["a.yml", "./a.yml"].zip results) = .ok findings ∧
        ∃ parts, List.Forall₂ (ShownOf repeatedUses ownersGone) ["a.yml", "./a.yml"] parts ∧
          findings = parts.flatten := by
  have haccepted : (scan repeatedUses ownersGone ["a.yml", "./a.yml"]).1.toBool = true := by
    decide +kernel
  obtain ⟨hscan, hbatch⟩ := scan_shows_runs_in_order repeatedUses ownersGone ["a.yml", "./a.yml"]
  cases h : (scan repeatedUses ownersGone ["a.yml", "./a.yml"]).1 with
  | error e => rw [h] at haccepted; cases haccepted
  | ok findings =>
    obtain ⟨schedule, b, results, hrun, hresults, hgather, -⟩ :=
      exists_run_of_scan repeatedUses ownersGone Nat.two_pos "a.yml" "./a.yml" []
    rw [h] at hgather
    exact ⟨findings, rfl, hscan findings h, schedule, b, results, hrun, hresults, hgather.symm,
      hbatch 2 schedule b results findings hrun hresults hgather.symm⟩

end WorkflowAudit
