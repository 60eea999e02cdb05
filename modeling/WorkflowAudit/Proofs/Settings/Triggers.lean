import WorkflowAudit.Proofs.Settings.Suppression

/-!
The trigger filter takes all findings of a rule or none. Whether a rule watches is decided once for a
workflow, and but for the one rule that points out triggers, no rule looks at the filter. Main statement:
under any filter a rule has the findings that it has without one, unless it honours the filter and the
workflow is started by none of the events that the filter names; then it has none.
-/

namespace WorkflowAudit

/-! ### The events of a filter -/

/-- The text of a filter names an event: as one of the external ones, as one of all but
    `pull_request`, or between commas, where white space around a name does not count. -/
inductive TriggerFilter.Names (text : String) : String → Prop
  | external {event : String} (htext : Text.trim text = "external") (h : event ∈ externalTriggers) :
      Names text event
  | allButRequests {event : String} (htext : Text.trim text = "allnopr") (h : event ∈ allTriggers)
      (hne : event ≠ "pull_request") : Names text event
  | listed {items : List String} {item : String} (hexternal : Text.trim text ≠ "external")
      (hall : Text.trim text ≠ "allnopr") (htext : Text.trim text = ",".intercalate items)
      (hcommas : ∀ i ∈ items, ',' ∉ i.toList) (h : item ∈ items) (hne : Text.trim item ≠ "") :
      Names text (Text.trim item)

namespace TriggerFilter

theorem ofText_listed {text : String} (hexternal : Text.trim text ≠ "external")
    (hall : Text.trim text ≠ "allnopr") :
    ofText text = ⟨((Text.split ',' (Text.trim text)).map Text.trim).filter (· ≠ "")⟩ := by
  unfold ofText
  split
  · exact absurd ‹_› hexternal
  · exact absurd ‹_› hall
  · rfl

theorem mem_events_ofText (text event : String) : event ∈ (ofText text).events ↔ Names text event := by
  by_cases hexternal : Text.trim text = "external"
  · have hevents : (ofText text).events = externalTriggers := by
      rw [ofText, hexternal]
      rfl
    rw [hevents]
    refine ⟨.external hexternal, fun h => ?_⟩
    cases h with
    | external _ h => exact h
    | allButRequests htext => rw [hexternal] at htext; simp at htext
    | listed hne => exact absurd hexternal hne
  by_cases hall : Text.trim text = "allnopr"
  · have hevents : (ofText text).events = allTriggers.filter (· ≠ "pull_request") := by
      rw [ofText, hall]
      rfl
    rw [hevents, List.mem_filter, decide_eq_true_eq]
    refine ⟨fun h => .allButRequests hall h.1 h.2, fun h => ?_⟩
    cases h with
    | external htext => exact absurd htext hexternal
    | allButRequests _ h hne => exact ⟨h, hne⟩
    | listed _ hne => exact absurd hall hne
  · rw [ofText_listed hexternal hall]
    simp only [List.mem_filter, List.mem_map, decide_eq_true_eq]
    constructor
    · rintro ⟨⟨item, hitem, rfl⟩, hne⟩
      refine .listed hexternal hall (Text.intercalate_split ',' _).symm (fun i hi => ?_) hitem hne
      exact Text.not_mem_of_mem_split hi
    · intro h
      cases h with
      | external htext => exact absurd htext hexternal
      | allButRequests htext => exact absurd htext hall
      | listed _ _ htext hcommas h hne =>
        have hsplit := Text.split_intercalate (List.ne_nil_of_mem h) hcommas
        have hitems : Text.split ',' (Text.trim text) = _ := htext ▸ hsplit
        rw [hitems]
        exact ⟨⟨_, h, rfl⟩, hne⟩

end TriggerFilter

/-! ### Rules that do not look at the filter -/

/-- The surroundings with another trigger filter. -/
def Surroundings.filteredBy (around : Surroundings) (filter : TriggerFilter) : Surroundings :=
  { around with settings := { around.settings with triggers := filter } }

/-- What the rule makes of a workflow does not depend on the trigger filter. -/
structure Rule.IgnoresFilter (rule : Rule) : Prop where
  visit (around : Surroundings) (filter : TriggerFilter) :
    rule.visit (around.filteredBy filter) = rule.visit around
  leave (around : Surroundings) (filter : TriggerFilter) :
    rule.leave (around.filteredBy filter) = rule.leave around

variable {around : Surroundings} {w : Workflow}

theorem Rule.IgnoresFilter.alone_eq {rule : Rule} (h : rule.IgnoresFilter) (filter : TriggerFilter) :
    rule.alone (around.filteredBy filter) w = rule.alone around w := by
  have hhear : rule.hear (around.filteredBy filter) = rule.hear around := by
    funext heard v
    rw [Rule.hear, Rule.hear, h.visit]
  have hjob : rule.hearJob (around.filteredBy filter) = rule.hearJob around := by
    funext heard j
    rw [Rule.hearJob, Rule.hearJob, hhear]
  rw [Rule.alone, Rule.alone, hhear, hjob, h.leave]

/-- The labels of runners are held against the hosted ones, whatever the filter is. -/
theorem Rule.checkLabels_triggers (settings : Settings) (filter : TriggerFilter)
    (matrix : Option Matrix) (seen : List SeenLabel) (labels : List Yaml.Scalar) :
    checkLabels { settings with triggers := filter } matrix seen labels =
      checkLabels settings matrix seen labels := by
  induction labels generalizing seen with
  | nil => rfl
  | cons label rest ih =>
    have hlabel : checkLabel { settings with triggers := filter } matrix seen label =
        checkLabel settings matrix seen label := rfl
    rw [checkLabels, checkLabels, hlabel]
    simp only [ih]

theorem Rule.ignoresFilter_runnerLabel : runnerLabel.IgnoresFilter where
  visit around filter := by
    funext seen v
    cases v with
    | enterJob j =>
      show checkJob { around.settings with triggers := filter } seen j = checkJob around.settings seen j
      simp only [checkJob, checkLabels_triggers]
      rfl
    | enter | step | leaveJob => rfl
  leave _ _ := rfl

theorem ignoresFilter_of_mem_catalog : ∀ rule ∈ catalog,
    rule.ident ≠ "debug-external-trigger" → rule.IgnoresFilter := by
  simp only [catalog, List.forall_mem_cons]
  refine ⟨?_, ?_, ?_, ?_, ?_, ?_, fun _ => Rule.ignoresFilter_runnerLabel, ?_, ?_, ?_,
    fun h => absurd rfl h, ?_, ?_, ?_, List.forall_mem_nil _⟩
  all_goals exact fun _ => ⟨fun _ _ => rfl, fun _ _ => rfl⟩

theorem canRun_filteredBy (around : Surroundings) (filter : TriggerFilter) :
    ∀ rule ∈ catalog, rule.canRun (around.filteredBy filter) = rule.canRun around := by
  simp only [catalog, List.forall_mem_cons]
  exact ⟨rfl, rfl, rfl, rfl, rfl, rfl, rfl, rfl, rfl, rfl, rfl, rfl, rfl, rfl, List.forall_mem_nil _⟩

theorem admits_filteredBy (around : Surroundings) (filter : TriggerFilter) {rule : Rule}
    (h : rule ∈ catalog) : (around.filteredBy filter).admits rule = around.admits rule := by
  rw [Surroundings.admits, Surroundings.admits, canRun_filteredBy around filter rule h]
  rfl

/-! ### The findings of one rule among those of all -/

/-- The findings of a rule when all rules that can run watch the workflow. -/
def Surroundings.findingsOf (around : Surroundings) (w : Workflow) (rule : Rule) : List Finding :=
  (dispatch around around.rules w).findings.filter (·.rule = rule.ident)

/-- A rule puts its name on all that it finds. -/
theorem exists_reports_of_dispatch (around : Surroundings) (w : Workflow) (rule : Rule) :
    ∃ reports : List Report,
      (dispatch around [rule] w).findings = reports.map (Finding.ofReport rule.ident) := by
  rw [dispatch, walk_singleton]
  cases around.watches w rule with
  | true =>
    simp only [if_true, Rule.alone, Dialog.run_bind, Dialog.run_pure]
    exact ⟨_, rfl⟩
  | false => exact ⟨[], rfl⟩

theorem filter_findings_dispatch (around : Surroundings) (w : Workflow) (rule : Rule) (ident : String) :
    (dispatch around [rule] w).findings.filter (·.rule = ident) =
      if rule.ident = ident then (dispatch around [rule] w).findings else [] := by
  obtain ⟨reports, hreports⟩ := exists_reports_of_dispatch around w rule
  rw [hreports, List.filter_map]
  split
  · rename_i h
    rw [List.filter_eq_self.2 fun r _ => by simp [Finding.ofReport, h]]
  · rename_i h
    rw [List.filter_eq_nil_iff.2 fun r _ => by simp [Finding.ofReport, h], List.map_nil]

/-- Of rules with different names that pass a test, one is picked by its name. -/
theorem flatMap_filter_ident {α : Type} {rules : List Rule} (hnodup : (rules.map Rule.ident).Nodup)
    {rule : Rule} (h : rule ∈ rules) (test : Rule → Bool) (g : Rule → List α) :
    ((rules.filter test).flatMap fun r => if r.ident = rule.ident then g r else []) =
      if test rule then g rule else [] := by
  induction rules with
  | nil => exact absurd h List.not_mem_nil
  | cons r rules ih =>
    rw [List.map_cons, List.nodup_cons] at hnodup
    rcases List.mem_cons.1 h with rfl | h
    · have hothers : ((rules.filter test).flatMap fun r =>
          if r.ident = rule.ident then g r else []) = [] := by
        refine List.flatMap_eq_nil_iff.2 fun r hr => if_neg fun heq => hnodup.1 ?_
        exact List.mem_map.2 ⟨r, List.mem_of_mem_filter hr, heq⟩
      cases htest : test rule with
      | true => rw [List.filter_cons_of_pos htest, List.flatMap_cons, hothers]; simp
      | false => rw [List.filter_cons_of_neg (by simp [htest]), hothers]; simp
    · have hne : r.ident ≠ rule.ident := fun heq => hnodup.1 (List.mem_map.2 ⟨rule, h, heq.symm⟩)
      rw [← ih hnodup.2 h]
      cases htest : test r with
      | true => rw [List.filter_cons_of_pos htest, List.flatMap_cons, if_neg hne, List.nil_append]
      | false => rw [List.filter_cons_of_neg (by simp [htest])]

/-- Among the findings of all rules, those of one are what it finds alone. -/
theorem findingsOf_eq (around : Surroundings) (w : Workflow) {rule : Rule} (h : rule ∈ catalog) :
    around.findingsOf w rule =
      if around.admits rule then (dispatch around [rule] w).findings else [] := by
  have hidents : (catalog.map Rule.ident).Nodup := by decide
  have halone := dispatch_findings_of_noTwoAsk
    (noTwoAsk_of_sublist_catalog around w (List.filter_sublist (p := around.admits)))
  rw [Surroundings.findingsOf, Surroundings.rules, halone, List.filter_flatMap]
  simp only [filter_findings_dispatch]
  exact flatMap_filter_ident hidents h _ _

/-! ### All or nothing -/

/-- The rule honours the filter, and the text of the filter names events of which none starts the
    workflow. -/
def Rule.IsDropped (rule : Rule) (text : String) (w : Workflow) : Prop :=
  rule.honoursFilter ∧ (∃ event, TriggerFilter.Names text event) ∧
    ∀ t ∈ w.triggers, ¬TriggerFilter.Names text t.event

theorem watches_eq_false_iff_isDropped (around : Surroundings) (text : String) (w : Workflow)
    (rule : Rule) :
    (around.filteredBy (.ofText text)).watches w rule = false ↔ rule.IsDropped text w := by
  rw [watches_eq_false_iff, Surroundings.LeavesOut, Rule.IsDropped]
  simp only [Surroundings.filteredBy, Ne, List.eq_nil_iff_forall_not_mem, not_forall, not_not,
    TriggerFilter.mem_events_ofText]

theorem findingsOf_filteredBy (around : Surroundings) (w : Workflow) {rule : Rule}
    (h : rule ∈ catalog) (hother : rule.ident ≠ "debug-external-trigger") (filter : TriggerFilter) :
    (around.filteredBy filter).findingsOf w rule =
      if around.admits rule && (around.filteredBy filter).watches w rule then
        ((rule.alone around w).run around.network around.earlier {}).1 else [] := by
  rw [findingsOf_eq _ w h, admits_filteredBy around filter h, dispatch, walk_singleton,
    (ignoresFilter_of_mem_catalog rule h hother).alone_eq]
  cases around.admits rule with
  | false => rfl
  | true =>
    cases (around.filteredBy filter).watches w rule with
    | false => rfl
    | true => rfl

theorem honoursFilter_iff : ∀ rule ∈ catalog, rule.honoursFilter = true ↔
    rule.ident ∉ ["oidc-action", "runner-label", "credentials", "repo-jacking"] := by
  decide

/-- Under a trigger filter a rule has the findings that it has without one, or none. It has none exactly
    when it honours the filter and the text of the filter names events of which none starts the
    workflow. All rules but four honour it, so that the findings of these four never change. The rule
    that points out triggers looks at the filter itself, and is left out here. -/
theorem trigger_filter_keeps_all_or_nothing (around : Surroundings) (text : String) (w : Workflow)
    (rule : Rule) (hrule : rule ∈ catalog) (hother : rule.ident ≠ "debug-external-trigger") :
    (rule.IsDropped text w → (around.filteredBy (.ofText text)).findingsOf w rule = []) ∧
    (¬rule.IsDropped text w → (around.filteredBy (.ofText text)).findingsOf w rule =
      (around.filteredBy {}).findingsOf w rule) ∧
    (rule.ident ∈ ["oidc-action", "runner-label", "credentials", "repo-jacking"] →
      (around.filteredBy (.ofText text)).findingsOf w rule =
        (around.filteredBy {}).findingsOf w rule) := by
  have hfiltered := findingsOf_filteredBy around w hrule hother (.ofText text)
  have hkeeps (hkept : ¬rule.IsDropped text w) : (around.filteredBy (.ofText text)).findingsOf w rule =
      (around.filteredBy {}).findingsOf w rule := by
    have hwatches := Bool.eq_true_of_not_eq_false
      (mt (watches_eq_false_iff_isDropped around text w rule).1 hkept)
    rw [hfiltered, findingsOf_filteredBy around w hrule hother {}, hwatches]
    rfl
  refine ⟨fun hdropped => ?_, hkeeps, fun hident => hkeeps fun hdropped => ?_⟩
  · rw [hfiltered, (watches_eq_false_iff_isDropped ..).2 hdropped, Bool.and_false]
    rfl
  · exact (honoursFilter_iff rule hrule).1 hdropped.1 hident

/-- A filter with blanks and empty items between its commas drops the use of a local action, which a
    filter for the workflow's own event keeps; actions without an owner are found under both. -/
theorem push_filter_drops_local_action :
    Rule.localAction.IsDropped " push, ," fiveFaults ∧
    (patientlyConnected.filteredBy (.ofText " push, ,")).findingsOf fiveFaults .localAction = [] ∧
    ¬Rule.localAction.IsDropped "push,\tissues" fiveFaults ∧
    (patientlyConnected.filteredBy (.ofText "push,\tissues")).findingsOf fiveFaults .localAction =
      (patientlyConnected.filteredBy {}).findingsOf fiveFaults .localAction ∧
    (patientlyConnected.filteredBy {}).findingsOf fiveFaults .localAction ≠ [] ∧
    (patientlyConnected.filteredBy (.ofText " push, ,")).findingsOf fiveFaults .repoJacking =
      (patientlyConnected.filteredBy {}).findingsOf fiveFaults .repoJacking := by
  have hpush : (TriggerFilter.ofText " push, ,").events = ["push"] := by decide +kernel
  have hboth : (TriggerFilter.ofText "push,\tissues").events = ["push", "issues"] := by
    decide +kernel
  have hdropped : Rule.localAction.IsDropped " push, ," fiveFaults := by
    refine ⟨rfl, ⟨"push", ?_⟩, ?_⟩
    · rw [← TriggerFilter.mem_events_ofText, hpush]
      exact List.mem_singleton_self _
    · simp only [← TriggerFilter.mem_events_ofText, hpush]
      decide
  have hkept : ¬Rule.localAction.IsDropped "push,\tissues" fiveFaults := by
    rintro ⟨-, -, hnone⟩
    simp only [← TriggerFilter.mem_events_ofText, hboth] at hnone
    exact absurd hnone (by decide)
  have hlocal : Rule.localAction ∈ catalog := by simp [catalog]
  have howner : Rule.repoJacking ∈ catalog := by simp [catalog]
  refine ⟨hdropped, ?_, hkept, ?_, by decide +kernel, ?_⟩
  · exact (trigger_filter_keeps_all_or_nothing patientlyConnected " push, ," fiveFaults .localAction
      hlocal (by decide)).1 hdropped
  · exact (trigger_filter_keeps_all_or_nothing patientlyConnected "push,\tissues" fiveFaults
      .localAction hlocal (by decide)).2.1 hkept
  · exact (trigger_filter_keeps_all_or_nothing patientlyConnected " push, ," fiveFaults .repoJacking
      howner (by decide)).2.2 (by decide)

end WorkflowAudit
