import WorkflowAudit.Proofs.Finding.Flagged
import WorkflowAudit.Proofs.Walk.Independence
import WorkflowAudit.Proofs.Workflow.Scalars

/-!
Findings point at the text that they are about. Main statement: a finding that is placed by an offset in
a scalar stands at the very character of the document with which the flagged text begins, if the scalar
is not in double quotes and its value has the visible characters of its source.
-/

namespace WorkflowAudit

open Yaml (Scalar SameInk DecodesTo)

/-! ### The reports behind findings -/

section Walks

variable {around : Surroundings} {w : Workflow} {f : Finding}

theorem mem_findings_foldl {probe : Probe} {earlier : List String} {ds : List (Dialog (List Finding))}
    {done : Outcome} (h : f ∈ (ds.foldl (Outcome.andThen probe earlier) done).findings) :
    f ∈ done.findings ∨ ∃ d ∈ ds, ∃ before, f ∈ (d.run probe before {}).1 := by
  induction ds generalizing done with
  | nil => exact .inl h
  | cons d ds ih =>
    rcases ih h with hdone | ⟨d', hd', before, hf⟩
    · rcases List.mem_append.1 hdone with hdone | hf
      · exact .inl hdone
      · exact .inr ⟨d, List.mem_cons_self .., _, hf⟩
    · exact .inr ⟨d', List.mem_cons_of_mem _ hd', before, hf⟩

/-- Each finding comes of some rule by itself. -/
theorem mem_findings_dispatch {rules : List Rule} (h : f ∈ (dispatch around rules w).findings) :
    ∃ rule ∈ rules, ∃ before, f ∈ ((rule.alone around w).run around.network before {}).1 := by
  rw [dispatch_eq_inTurn, dispatchInTurn] at h
  obtain ⟨d, hd, before, hf⟩ := (mem_findings_foldl h).resolve_left List.not_mem_nil
  obtain ⟨rule, hrule, rfl⟩ := List.mem_map.1 hd
  rw [walk_singleton] at hf
  split at hf
  · exact ⟨rule, hrule, before, hf⟩
  · cases hf

theorem rule_of_mem_alone {rule : Rule} {probe : Probe} {before : List String} {activity : Activity}
    (h : f ∈ ((rule.alone around w).run probe before activity).1) : f.rule = rule.ident := by
  rw [Rule.alone, Dialog.run_bind] at h
  obtain ⟨r, -, rfl⟩ := List.mem_map.1 h
  rfl

/-- A finding of a rule that looks at each part of the walk by itself comes of a report on one part. -/
theorem report_of_mem_alone {rule : Rule} {look : Surroundings → Visit → List Report}
    (hrule : rule.Memoryless look) {probe : Probe} {before : List String} {activity : Activity}
    (h : f ∈ ((rule.alone around w).run probe before activity).1) :
    ∃ v ∈ w.visits, ∃ r ∈ look around v, f = .ofReport rule.ident r := by
  rw [hrule.alone_eq] at h
  obtain ⟨r, hr, rfl⟩ := List.mem_map.1 h
  obtain ⟨v, hv, hr⟩ := List.mem_flatMap.1 hr
  exact ⟨v, hv, r, hr, rfl⟩

/-- The scalars of a part of the walk in which rules look for text. -/
def Visit.searched : Visit → List Scalar
  | .enterJob j => j.condition.toList
  | .step s => s.searched
  | .enter _ | .leaveJob _ => []

theorem mem_searched_of_visit {v : Visit} (hv : v ∈ w.visits) {s : Scalar} (hs : s ∈ v.searched) :
    s ∈ w.searched := by
  rcases List.mem_cons.1 hv with rfl | hv
  · cases hs
  · obtain ⟨⟨name, j⟩, hj, hv⟩ := List.mem_flatMap.1 hv
    refine List.mem_flatMap.2 ⟨(name, j), hj, ?_⟩
    rcases List.mem_cons.1 hv with rfl | hv
    · exact List.mem_append_left _ hs
    · rcases List.mem_append.1 hv with hv | hv
      · obtain ⟨st, hst, rfl⟩ := List.mem_map.1 hv
        exact List.mem_append_right _ (List.mem_flatMap.2 ⟨st, hst, hs⟩)
      · rw [List.mem_singleton.1 hv] at hs
        cases hs

end Walks

/-! ### What the rules report -/

/-- A finding on the use of an action as such, which stands at the action or at its input. -/
inductive OnUse (v : Visit) (f : Finding) : Prop
  | action {st : Step} {action : Scalar} {inputs : Table Input} {entrypoint args : Option Scalar} :
      v = .step st → st.body = .uses action inputs entrypoint args → f.rule = "dangerous-action" →
      f.message = s!"Use of action \"{action.value}\"" → f.position = action.position → OnUse v f
  | artifact {st : Step} {action : Scalar} {inputs : Table Input} {entrypoint args : Option Scalar}
      {repo : Input} : v = .step st → st.body = .uses action inputs entrypoint args →
      inputs.lookup "repo" = some repo → f.rule = "dangerous-action" →
      f.message = s!"Use of action \"{action.value}\" with external artifact" →
      f.position = repo.value.position → OnUse v f
  | checkout {st : Step} {action : Scalar} {inputs : Table Input} {entrypoint args : Option Scalar} :
      v = .step st → st.body = .uses action inputs entrypoint args → f.rule = "dangerous-checkout" →
      f.message = "Use of 'actions/checkout' with external workflow trigger and custom ref." →
      f.position = action.position → OnUse v f

/-- The report of a rule on a part of the walk is on the use of an action, or it is placed by the offset
    of flagged text. -/
def Accounted (untrusted : Trie) (rule : String) (v : Visit) (r : Report) : Prop :=
  OnUse v (.ofReport rule r) ∨ ∃ s ∈ v.searched, FlaggedIn untrusted rule s r

namespace Rule

variable {around : Surroundings} {v : Visit} {st : Step} {r : Report}

theorem mem_searched_script {script : Scalar} {workingDirectory shell : Option Scalar}
    (h : st.body = .run script workingDirectory shell) : script ∈ st.searched := by
  refine List.mem_append_right _ ?_
  rw [injectionPoints, h]
  exact List.mem_cons_self ..

theorem mem_searched_input {action : Scalar} {inputs : Table Input} {entrypoint args : Option Scalar}
    (h : st.body = .uses action inputs entrypoint args) {key : String} {i : Input}
    (hi : inputs.lookup key = some i) : i.value ∈ st.searched := by
  obtain ⟨before, after, rfl, -⟩ := List.lookup_eq_some_iff.1 hi
  refine List.mem_append_right _ ?_
  rw [injectionPoints, h]
  simp

theorem mem_searched_of_injectionPoints {scriptOnly : Bool} {s : Scalar}
    (h : s ∈ injectionPoints scriptOnly st) : s ∈ st.searched := by
  refine List.mem_append_right _ ?_
  unfold injectionPoints at h ⊢
  split at h
  · exact h
  · split at h
    · cases h
    · exact h

theorem accounted_expressionInjection
    (h : r ∈ (injectionPoints around.settings.scriptOnly st).flatMap (injectionsIn around.untrusted)) :
    Accounted around.untrusted "expression-injection" (.step st) r := by
  obtain ⟨s, hs, hr⟩ := List.mem_flatMap.1 h
  exact .inr ⟨s, mem_searched_of_injectionPoints hs, flagged_of_mem_injectionsIn hr⟩

theorem accounted_condition {untrusted : Trie} {condition : Option Scalar}
    (hin : ∀ c ∈ condition, c ∈ v.searched) (h : r ∈ conditionReports condition) :
    Accounted untrusted "bot-check" v r := by
  cases condition with
  | none => cases h
  | some c => exact .inr ⟨c, hin c rfl, flagged_of_mem_conditionReports h⟩

theorem accounted_botCheck (h : r ∈ (botCheck.visit around botCheck.start v).2) :
    Accounted around.untrusted "bot-check" v r := by
  cases v with
  | enterJob j => exact accounted_condition (fun c hc => Option.mem_toList.2 hc) h
  | step s =>
    exact accounted_condition (fun c hc => List.mem_append_left _ (Option.mem_toList.2 hc)) h
  | enter | leaveJob => cases h

theorem accounted_search {untrusted : Trie} {rule : String} {s : Scalar} {p : Pattern}
    {message : String} (hs : s ∈ v.searched) (hsearch : (rule, p, message) ∈ scriptSearches)
    (h : r ∈ firstIn s p message) : Accounted untrusted rule v r :=
  .inr ⟨s, hs, flagged_of_mem_firstIn hsearch h⟩

theorem accounted_inputSearch {untrusted : Trie} {rule : String} {action : Scalar}
    {inputs : Table Input} {entrypoint args : Option Scalar} {p : Pattern} {message : String}
    (hbody : st.body = .uses action inputs entrypoint args)
    (hsearch : (rule, p, message) ∈ scriptSearches)
    (h : r ∈ firstInScriptInput action inputs p message) :
    Accounted untrusted rule (.step st) r := by
  unfold firstInScriptInput at h
  split at h
  · split at h
    · rename_i script hscript
      exact accounted_search (mem_searched_input hbody hscript) hsearch h
    · cases h
  · cases h

theorem accounted_checkout {untrusted : Trie} (h : r ∈ checkoutReports st) :
    Accounted untrusted "dangerous-checkout" (.step st) r := by
  unfold checkoutReports at h
  split at h
  · rename_i script _ _ hbody
    exact accounted_search (mem_searched_script hbody) (by decide +kernel) h
  · rename_i action inputs _ _ hbody
    split at h
    · cases h
    · split at h
      · split at h
        · cases h
        · rw [List.mem_singleton.1 h]
          exact .inl (.checkout rfl hbody rfl rfl rfl)
      · cases h

theorem accounted_write {untrusted : Trie} (h : r ∈ writeReports st) :
    Accounted untrusted "dangerous-write" (.step st) r := by
  unfold writeReports at h
  split at h
  · rename_i script _ _ hbody
    obtain ⟨⟨p, message⟩, hp, hr⟩ := List.mem_flatMap.1 h
    refine accounted_search (mem_searched_script hbody) (List.mem_append_right _ ?_) hr
    exact List.mem_map.2 ⟨(p, message), hp, rfl⟩
  · cases h

theorem accounted_artifact {untrusted : Trie} (h : r ∈ artifactReports st) :
    Accounted untrusted "dangerous-action" (.step st) r := by
  unfold artifactReports at h
  split at h
  · rename_i script _ _ hbody
    exact accounted_search (mem_searched_script hbody) (by decide +kernel) h
  · rename_i action inputs _ _ hbody
    rw [List.mem_append, List.mem_append] at h
    rcases h with (h | h) | h
    · unfold localArtifacts at h
      split at h
      · rw [List.mem_singleton.1 h]
        exact .inl (.action rfl hbody rfl rfl rfl)
      · cases h
    · unfold externalArtifacts at h
      split at h
      · split at h
        · rename_i repo hrepo
          rw [List.mem_singleton.1 h]
          exact .inl (.artifact rfl hbody hrepo rfl rfl rfl)
        · rw [List.mem_singleton.1 h]
          exact .inl (.action rfl hbody rfl rfl rfl)
      · cases h
    · exact accounted_inputSearch hbody (by decide +kernel) h

theorem accounted_jsExec (h : r ∈ (debugJsExec.visit around debugJsExec.start v).2) :
    Accounted around.untrusted "debug-js-exec" v r := by
  cases v with
  | step s =>
    simp only [debugJsExec, stateless] at h
    split at h
    · rename_i action inputs _ _ hbody
      exact accounted_inputSearch hbody (by decide +kernel) h
    · cases h
  | enter | enterJob | leaveJob => cases h

end Rule

/-! ### Findings -/

/-- The names of the rules that place findings by offsets. -/
def placingRules : List String :=
  ["expression-injection", "bot-check", "dangerous-checkout", "dangerous-write", "dangerous-action",
    "debug-js-exec"]

section Accounts

variable {around : Surroundings} {w : Workflow} {f : Finding} {ident description : String}
  {probe : Probe} {before : List String} {activity : Activity}

/-- What holds of the reports of a rule that looks at each part by itself holds of the reports behind its
    findings. -/
theorem exists_report_of_memoryless {rule : Rule} {look : Surroundings → Visit → List Report}
    (hrule : rule.Memoryless look) {Q : Visit → Report → Prop}
    (hlook : ∀ v, ∀ r ∈ look around v, Q v r)
    (hf : f ∈ ((rule.alone around w).run probe before activity).1) :
    ∃ v ∈ w.visits, ∃ r, f = .ofReport rule.ident r ∧ Q v r := by
  obtain ⟨v, hv, r, hr, rfl⟩ := report_of_mem_alone hrule hf
  exact ⟨v, hv, r, rfl, hlook v r hr⟩

theorem exists_report_of_look {honoursFilter : Bool} {canRun : Surroundings → Bool}
    {look : Surroundings → Visit → List Report} {Q : Visit → Report → Prop}
    (hlook : ∀ v, ∀ r ∈ look around v, Q v r)
    (hf : f ∈ (((Rule.stateless ident description honoursFilter canRun look).alone around w).run
      probe before activity).1) :
    ∃ v ∈ w.visits, ∃ r, f = .ofReport ident r ∧ Q v r :=
  exists_report_of_memoryless (memoryless_stateless ..) hlook hf

theorem exists_report_of_stepLook {look : Surroundings → Step → List Report}
    {Q : Visit → Report → Prop} (hlook : ∀ st, ∀ r ∈ look around st, Q (.step st) r)
    (hf : f ∈ (((Rule.ofSteps ident description look).alone around w).run probe before activity).1) :
    ∃ v ∈ w.visits, ∃ r, f = .ofReport ident r ∧ Q v r := by
  refine exists_report_of_look (fun v r hr => ?_) hf
  cases v with
  | step st => exact hlook st r hr
  | _ => cases hr

/-- The findings of the placing rules are accounted for, each by a part of the walk. -/
theorem accounted_of_mem_dispatch {rules : List Rule} (hrules : rules ⊆ catalog)
    (hf : f ∈ (dispatch around rules w).findings) (hrule : f.rule ∈ placingRules) :
    ∃ v ∈ w.visits, ∃ r, f = .ofReport f.rule r ∧ Accounted around.untrusted f.rule v r := by
  obtain ⟨rule, hmem, before, hf⟩ := mem_findings_dispatch hf
  have hident := rule_of_mem_alone hf
  rw [hident] at hrule ⊢
  have hcatalog := hrules hmem
  simp only [catalog, List.mem_cons, List.not_mem_nil, or_false] at hcatalog
  rcases hcatalog with rfl | rfl | rfl | rfl | rfl | rfl | rfl | rfl | rfl | rfl | rfl | rfl | rfl | rfl
  -- the rules that place no finding by an offset have other names
  any_goals (apply absurd hrule; decide)
  · exact exists_report_of_stepLook (fun _ _ => Rule.accounted_artifact) hf
  · exact exists_report_of_stepLook (fun _ _ => Rule.accounted_checkout) hf
  · exact exists_report_of_stepLook (fun _ _ => Rule.accounted_expressionInjection) hf
  · exact exists_report_of_stepLook (fun _ _ => Rule.accounted_write) hf
  · exact exists_report_of_look (fun _ _ => Rule.accounted_botCheck) hf
  · exact exists_report_of_look (fun _ _ => Rule.accounted_jsExec) hf

end Accounts

/-- The finding is placed by the offset of flagged text in a scalar of the workflow that the document
    was read as. The scalar is written somewhere in the document, and wherever that is, the finding
    stands at the character that the flagged text's first one is decoded from, if the scalar is not in
    double quotes and its value has the visible characters of its source. -/
def Finding.PointsInto (document : List Char) (w : Workflow) (untrusted : Trie) (f : Finding) : Prop :=
  ∃ s ∈ w.searched, ∃ k, Flagged untrusted s.value.toList k f ∧
    f.position = s.positionAt (Text.byteSize (s.value.toList.take k)) ∧
    (∃ index body, s.WrittenAt document index body) ∧
    ∀ index body, s.WrittenAt document index body → s.style ≠ .double →
      SameInk s.style body s.value.toList →
      ∃ j, DecodesTo s.style body s.value.toList j k ∧
        document[index + j]? = s.value.toList[k]? ∧ f.position = .ofIndex document (index + j)

/-- The findings of the placing rules point at the text that they are about, whichever rules of the
    catalog run beside them: each is on the use of an action as such, or it stands at the character that
    the flagged text begins with. -/
theorem findings_point_at_flagged_text {text : String} {w : Workflow}
    (hw : Workflow.parse text = .ok w) {around : Surroundings} {rules : List Rule}
    (hrules : rules ⊆ catalog) {f : Finding} (hf : f ∈ (dispatch around rules w).findings)
    (hrule : f.rule ∈ placingRules) :
    (∃ v ∈ w.visits, OnUse v f) ∨ f.PointsInto text.toList w around.untrusted := by
  obtain ⟨v, hv, r, heq, huse | ⟨s, hs, k, hflagged, hposition⟩⟩ :=
    accounted_of_mem_dispatch hrules hf hrule
  · exact .inl ⟨v, hv, heq ▸ huse⟩
  · have hsearched := mem_searched_of_visit hv hs
    rw [← heq] at hflagged
    have hplace : f.position = s.positionAt (Text.byteSize (s.value.toList.take k)) := by
      rw [heq]
      exact hposition
    refine .inr ⟨s, hsearched, k, hflagged, hplace,
      (Workflow.searched_standsIn hw s hsearched).writtenAt, fun index body hwritten hstyle hink => ?_⟩
    obtain ⟨c, hc, hvisible⟩ := hflagged.visible
    obtain ⟨j, hdecodes, hchar, hpos⟩ := hwritten.positionAt hstyle hink hc hvisible
    exact ⟨j, hdecodes, by rw [hchar, hc], by rw [hplace, hpos]⟩

/-! ### A finding in single quotes -/

/-- A script in single quotes, with a doubled quote, a character of two bytes, a line break and a chain
    whose head is in parentheses. -/
def quotedDocument : String :=
  "on: push\njobs:\n  b:\n    steps:\n    - run: 'it''s é\n" ++
    "        $\x7b\x7b (github.event).issue.title \x7d\x7d'\n"

/-- The text between the quotes. -/
def quotedBody : String :=
  "it''s é\n        $\x7b\x7b (github.event).issue.title \x7d\x7d"

/-- The script of the document. -/
def quotedScript : Scalar where
  value := "it's é $\x7b\x7b (github.event).issue.title \x7d\x7d"
  position := ⟨5, 12⟩
  style := .single
  runs := [⟨0, ⟨5, 13⟩⟩, ⟨3, ⟨5, 17⟩⟩, ⟨8, ⟨6, 9⟩⟩]

/-- The chain in the script. -/
def titleChain : Expr :=
  .property ⟨1, 3, 2⟩ (.property ⟨1, 3, 2⟩ (.property ⟨1, 3, 2⟩ (.var ⟨1, 3, 2⟩ "github") "event")
    "issue") "title"

/-- Surroundings in which titles of issues are untrusted. -/
def wary : Surroundings where
  settings := {}
  untrusted := .ofPaths ["github.event.issue.title"]

theorem all_quotedScript : Fragment.all quotedScript.value = [⟨8, 11, 41, .ok titleChain⟩] := by
  have hlist : quotedScript.value.toList = "it's é ".toList ++
      '$' :: '\x7b' :: '\x7b' :: " (github.event).issue.title \x7d\x7d".toList := by decide +kernel
  have hparse : Expr.parseUpTo .braces " (github.event).issue.title \x7d\x7d".toList =
      .ok (titleChain, []) := by cbv
  rw [Fragment.all, hlist, Fragment.scan_lead (by decide +kernel), Fragment.scan_opening _ hparse,
    Fragment.scan]
  congr 2

/-- The report on the script, at the variable of the chain. -/
def titleReport : Report where
  position := ⟨6, 14⟩
  message := "Expression injection, \"github.event.issue.title\" is potentially untrusted."

theorem injectionsIn_quotedScript :
    Rule.injectionsIn wary.untrusted quotedScript = [titleReport] := by
  rw [Rule.injectionsIn, Taint.ofScalar, all_quotedScript]
  decide +kernel

theorem writtenAt_quotedScript :
    quotedScript.WrittenAt quotedDocument.toList 43 quotedBody.toList := by
  refine ⟨42, 93, ?_, ?_, ?_, ?_⟩
  · decide +kernel
  · show quotedDocument.toList[42]? = some '\''
    decide +kernel
  · decide +kernel
  · decide +kernel

theorem mem_findings_of_report {around : Surroundings} {w : Workflow} {ident description : String}
    {look : Surroundings → Step → List Report} {st : Step} {r : Report}
    (hwatches : around.watches w (.ofSteps ident description look)) (hst : .step st ∈ w.visits)
    (hr : r ∈ look around st) :
    .ofReport ident r ∈ (dispatch around [.ofSteps ident description look] w).findings := by
  rw [dispatch, walk_singleton, if_pos hwatches, Rule.ofSteps, alone_stateless]
  exact List.mem_map_of_mem (List.mem_flatMap.2 ⟨.step st, hst, hr⟩)

/-- The scripts of a part of the walk. -/
def Visit.scripts : Visit → List Scalar
  | .step st => Rule.injectionPoints false st
  | _ => []

theorem quotedScript_points_at_variable : ∃ (w : Workflow) (f : Finding),
    Workflow.parse quotedDocument = .ok w ∧ [Rule.expressionInjection] ⊆ catalog ∧
    f ∈ (dispatch wary [.expressionInjection] w).findings ∧ f.rule ∈ placingRules ∧
    f.position = ⟨6, 14⟩ ∧
    ((∃ v ∈ w.visits, OnUse v f) ∨ f.PointsInto quotedDocument.toList w wary.untrusted) ∧
    quotedScript ∈ w.searched ∧
    quotedScript.WrittenAt quotedDocument.toList 43 quotedBody.toList ∧
    SameInk quotedScript.style quotedBody.toList quotedScript.value.toList := by
  have hscripts : ((Workflow.parse quotedDocument).toOption.map fun w =>
      w.visits.flatMap Visit.scripts) = some [quotedScript] := by decide +kernel
  obtain ⟨w, hoption, hw⟩ := Option.map_eq_some_iff.1 hscripts
  have hparse : Workflow.parse quotedDocument = .ok w := by
    cases hread : Workflow.parse quotedDocument with
    | error err => rw [hread] at hoption; cases hoption
    | ok w' => rw [hread] at hoption; cases hoption; rfl
  obtain ⟨v, hv, hscript⟩ := List.mem_flatMap.1 (hw ▸ List.mem_singleton_self quotedScript)
  cases v with
  | enter | enterJob | leaveJob => cases hscript
  | step st =>
    have hrules : [Rule.expressionInjection] ⊆ catalog := by simp [catalog]
    have hf : .ofReport "expression-injection" titleReport ∈
        (dispatch wary [.expressionInjection] w).findings :=
      mem_findings_of_report rfl hv (List.mem_flatMap.2 ⟨quotedScript, hscript,
        injectionsIn_quotedScript ▸ List.mem_singleton_self _⟩)
    exact ⟨w, _, hparse, hrules, hf, by decide, rfl,
      findings_point_at_flagged_text hparse hrules hf (by decide),
      mem_searched_of_visit hv (Rule.mem_searched_of_injectionPoints hscript),
      writtenAt_quotedScript, by unfold SameInk; decide +kernel⟩

end WorkflowAudit
