import WorkflowAudit.Config
import WorkflowAudit.Proofs.Lists.Basic
import WorkflowAudit.Proofs.Owner.Requests
import WorkflowAudit.Proofs.Runner.Conflicts
import WorkflowAudit.Proofs.Walk.Independence
import WorkflowAudit.Scan

/-!
A configuration only takes findings away. What it adds to the settings is that more is left out: rules,
messages, labels and owners. Main statement: the findings of a file under settings with a configuration
are, in the same order, some of its findings under the settings alone. The argument goes rule by rule;
only the rules on runner labels and on owners look at what a configuration adds.
-/

namespace WorkflowAudit

/-! ### Settings that leave out more -/

/-- Settings that leave out at least what others leave out, and are the same in all else. -/
structure Settings.Narrows (narrow wide : Settings) : Prop where
  triggers : narrow.triggers = wide.triggers
  scriptOnly : narrow.scriptOnly = wide.scriptOnly
  debugRules : narrow.debugRules = wide.debugRules
  connected : narrow.connected = wide.connected
  enables : ∀ rule, narrow.selection.enables rule → wide.selection.enables rule
  ignores : ∀ message, wide.ignores message → narrow.ignores message
  isHostedLabel : ∀ label, wide.isHostedLabel label → narrow.isHostedLabel label
  knownOwners : ∀ owner ∈ wide.knownOwners, owner ∈ narrow.knownOwners

theorem Selection.enables_of_without {s : Selection} {names : List String} {rule : String}
    (h : (s.without names).enables rule) : s.enables rule := by
  unfold without at h
  split at h
  · exact h
  · cases s with
    | all => rfl
    | only enabled =>
      simp only [enables, List.contains_iff_mem, List.mem_filter] at h ⊢
      exact h.1
    | except disabled =>
      simp only [enables, Bool.not_eq_true', List.contains_eq_mem, List.mem_append, not_or,
        decide_eq_false_iff_not] at h ⊢
      exact h.1

/-- Settings with a configuration leave out at least what they leave out alone. -/
theorem Settings.narrows_of_withConfig? {s s' : Settings} {c : Config}
    {readPattern : String → Option MessagePattern} (h : s.withConfig? readPattern c = some s') :
    s'.Narrows s := by
  obtain ⟨ignore, -, hs⟩ := Option.bind_eq_some_iff.1 h
  cases hs
  refine ⟨rfl, rfl, rfl, rfl, fun rule => Selection.enables_of_without, ?_, ?_, ?_⟩
  · intro message hm
    rw [ignores] at hm ⊢
    rw [List.any_append, hm, Bool.true_or]
  · intro label hl
    rw [isHostedLabel] at hl ⊢
    rw [List.any_append, hl, Bool.true_or]
  · exact fun owner ho => List.mem_append_left _ ho

/-! ### Runner labels -/

namespace Rule

open Yaml (Scalar)

variable {narrow wide : Settings}

/-- The images that a label selects do not depend on the settings. -/
theorem verifyLabel_images (narrow wide : Settings) (label : Scalar) :
    (verifyLabel narrow label).1 = (verifyLabel wide label).1 := by
  rw [verifyLabel_fst, verifyLabel_fst]

theorem verifyLabel_reports (h : narrow.Narrows wide) (label : Scalar) :
    (verifyLabel narrow label).2.Sublist (verifyLabel wide label).2 := by
  rw [verifyLabel, verifyLabel]
  split
  · exact List.Sublist.refl _
  · by_cases hwide : (RunnerImage.retired.any (Text.sameIgnoringCase · label.value) ||
        wide.isHostedLabel label.value) = true
    · have hnarrow : (RunnerImage.retired.any (Text.sameIgnoringCase · label.value) ||
          narrow.isHostedLabel label.value) = true := by
        rw [Bool.or_eq_true] at hwide ⊢
        exact hwide.imp_right (h.isHostedLabel _)
      rw [if_pos hwide, if_pos hnarrow]
    · rw [if_neg hwide]
      split
      · exact List.nil_sublist _
      · exact List.Sublist.refl _

theorem checkAlternatives_seen (narrow wide : Settings) (seen : List SeenLabel)
    (labels : List Scalar) :
    (checkAlternatives narrow seen labels).1 = (checkAlternatives wide seen labels).1 := by
  simp only [checkAlternatives, List.map_map, Function.comp_def, verifyLabel_images narrow wide]

theorem checkAlternatives_reports (h : narrow.Narrows wide) (seen : List SeenLabel)
    (labels : List Scalar) :
    (checkAlternatives narrow seen labels).2.Sublist (checkAlternatives wide seen labels).2 := by
  simp only [checkAlternatives, List.map_map, Function.comp_def, verifyLabel_images narrow wide,
    List.flatMap_map]
  refine List.Sublist.append ?_ (List.Sublist.refl _)
  exact List.Sublist.flatMap_right _ fun label _ => verifyLabel_reports h label

theorem checkLabel_seen (narrow wide : Settings) (matrix : Option Matrix) (seen : List SeenLabel)
    (label : Scalar) :
    (checkLabel narrow matrix seen label).1 = (checkLabel wide matrix seen label).1 := by
  simp only [checkLabel]
  split
  · exact checkAlternatives_seen narrow wide seen [label]
  · split
    · rfl
    · exact checkAlternatives_seen narrow wide seen _

theorem checkLabel_reports (h : narrow.Narrows wide) (matrix : Option Matrix)
    (seen : List SeenLabel) (label : Scalar) :
    (checkLabel narrow matrix seen label).2.Sublist (checkLabel wide matrix seen label).2 := by
  simp only [checkLabel]
  split
  · exact checkAlternatives_reports h seen [label]
  · split
    · exact List.Sublist.refl _
    · exact checkAlternatives_reports h seen _

theorem checkLabels_reports (h : narrow.Narrows wide) (matrix : Option Matrix)
    (seen : List SeenLabel) (labels : List Scalar) :
    (checkLabels narrow matrix seen labels).2.Sublist (checkLabels wide matrix seen labels).2 := by
  induction labels generalizing seen with
  | nil => exact List.Sublist.refl _
  | cons label rest ih =>
    simp only [checkLabels, checkLabel_seen narrow wide]
    exact (checkLabel_reports h matrix seen label).append (ih _)

theorem checkJob_sublist (h : narrow.Narrows wide) (seen : List SeenLabel) (j : Job) :
    (checkJob narrow seen j).2.Sublist (checkJob wide seen j).2 := by
  unfold checkJob
  split
  · exact List.Sublist.refl _
  · split
    · exact checkLabels_reports h _ _ _
    · split
      · exact List.Sublist.refl _
      · exact verifyLabel_reports h _
  · exact checkLabels_reports h _ _ _

end Rule

/-! ### Owners -/

/-- What is answered for an address does not depend on requests for other addresses. -/
def Probe.ByAddress (probe : Probe) : Prop :=
  ∀ earlier url, probe.answer earlier url = probe.answer (earlier.filter (· = url)) url

/-- The two histories have the same requests for an address. -/
def SameFor (url : String) (earlier earlier' : List String) : Prop :=
  earlier.filter (· = url) = earlier'.filter (· = url)

theorem SameFor.append {url : String} {earlier earlier' : List String}
    (h : SameFor url earlier earlier') (requests : List String) :
    SameFor url (earlier ++ requests) (earlier' ++ requests) := by
  rw [SameFor, List.filter_append, List.filter_append, h]

theorem SameFor.append_others {url other : String} {earlier earlier' : List String}
    (h : SameFor url earlier earlier') (hne : other ≠ url) (n : Nat) :
    SameFor url earlier (earlier' ++ List.replicate n other) := by
  rw [SameFor, List.filter_append, List.filter_replicate, if_neg (by simpa using hne),
    List.append_nil]
  exact h

namespace Rule

variable {probe : Probe}

theorem nthAnswer_congr (hprobe : probe.ByAddress) {url : String} {earlier earlier' : List String}
    (h : SameFor url earlier earlier') :
    nthAnswer probe earlier url = nthAnswer probe earlier' url := by
  funext made
  have hsame := h.append (List.replicate made url)
  rw [nthAnswer, nthAnswer, hprobe, hprobe (earlier' ++ _), hsame]

theorem attemptsFor_congr (hprobe : probe.ByAddress) {url : String} {earlier earlier' : List String}
    (h : SameFor url earlier earlier') :
    attemptsFor probe earlier url = attemptsFor probe earlier' url := by
  rw [attemptsFor, attemptsFor, nthAnswer_congr hprobe h]

theorem ownerUrl_inj {a b : String} (h : ownerUrl a = ownerUrl b) : a = b :=
  (String.append_right_inj _).1 h

/-- Asking for fewer owners gives some of the reports: the owners that are left out change nothing for
    the others. -/
theorem rounds_reports_sublist (hprobe : probe.ByAddress) {few many : String × List Usage → Bool}
    (hfew : ∀ entry, few entry → many entry) (owners : Table (List Usage))
    (hnodup : (owners.map Prod.fst).Nodup) {earlier earlier' : List String}
    (hsame : ∀ entry ∈ owners, SameFor (ownerUrl entry.1) earlier earlier') :
    ((rounds probe earlier (owners.filter few)).flatMap Round.reports).Sublist
      ((rounds probe earlier' (owners.filter many)).flatMap Round.reports) := by
  induction owners generalizing earlier earlier' with
  | nil => exact List.Sublist.refl _
  | cons entry owners ih =>
    obtain ⟨owner, usages⟩ := entry
    obtain ⟨hhere, hrest⟩ := List.forall_mem_cons.1 hsame
    rw [List.map_cons, List.nodup_cons] at hnodup
    by_cases hask : few (owner, usages)
    · -- the owner is asked for in both cases, with the same answers
      rw [List.filter_cons_of_pos hask, List.filter_cons_of_pos (hfew _ hask), rounds, rounds,
        List.flatMap_cons, List.flatMap_cons, attemptsFor_congr hprobe hhere,
        nthAnswer_congr hprobe hhere]
      refine List.Sublist.append (List.Sublist.refl _) (ih hnodup.2 fun e he => ?_)
      exact (hrest e he).append _
    · rw [List.filter_cons_of_neg hask]
      by_cases hmany : many (owner, usages)
      · rw [List.filter_cons_of_pos hmany, rounds, List.flatMap_cons]
        refine List.Sublist.trans (ih hnodup.2 fun e he => ?_) (List.sublist_append_right _ _)
        refine (hrest e he).append_others (fun heq => hnodup.1 ?_) _
        exact List.mem_map.2 ⟨e, he, (ownerUrl_inj heq).symm⟩
      · rw [List.filter_cons_of_neg hmany]
        exact ih hnodup.2 hrest

theorem nodup_byOwner (uses : List (String × Usage)) : ((byOwner uses).map Prod.fst).Nodup := by
  rw [byOwner, List.map_map, Function.comp_def, List.map_id']
  exact Table.nodup_eraseDups _

end Rule

/-! ### One rule -/

section OneRule

variable {around : Surroundings} {narrow : Settings} {w : Workflow}

/-- The rule looks at each part of the walk by itself, and sees no more under settings that leave out
    more. -/
def Rule.Looks (rule : Rule) : Prop :=
  ∃ look, rule.Memoryless look ∧
    ∀ (around : Surroundings) (narrow : Settings), narrow.Narrows around.settings →
      ∀ v, (look { around with settings := narrow } v).Sublist (look around v)

theorem looks_of_same {ident description : String} {honoursFilter : Bool}
    {canRun : Surroundings → Bool} {look : Surroundings → Visit → List Report}
    (h : ∀ around narrow v, look { around with settings := narrow } v = look around v) :
    (Rule.stateless ident description honoursFilter canRun look).Looks := by
  refine ⟨look, memoryless_stateless .., fun around narrow _ v => ?_⟩
  rw [h]

theorem expressionInjection_looks : Rule.expressionInjection.Looks := by
  refine ⟨_, memoryless_stateless .., fun around narrow h v => ?_⟩
  cases v with
  | step s => simp only [h.scriptOnly, List.Sublist.refl]
  | _ => exact List.Sublist.refl _

theorem runnerLabel_looks : Rule.runnerLabel.Looks := by
  refine ⟨_, Rule.memoryless_runnerLabel, fun around narrow h v => ?_⟩
  cases v with
  | enterJob j => exact Rule.checkJob_sublist h [] j
  | _ => exact List.Sublist.refl _

theorem debugExternalTrigger_looks : Rule.debugExternalTrigger.Looks := by
  refine ⟨_, memoryless_stateless .., fun around narrow h v => ?_⟩
  simp only [h.triggers, List.Sublist.refl]

/-- All rules but the one on owners look at each part by itself. -/
theorem looks_or_repoJacking : ∀ rule ∈ catalog, rule.Looks ∨ rule = .repoJacking := by
  simp only [catalog, List.forall_mem_cons]
  refine ⟨.inl ?_, .inl ?_, .inl expressionInjection_looks, .inl ?_, .inl ?_, .inl ?_,
    .inl runnerLabel_looks, .inl ?_, .inl ?_, .inl ?_, .inl debugExternalTrigger_looks, .inl ?_,
    .inl ?_, .inr trivial, List.forall_mem_nil _⟩
  all_goals exact looks_of_same fun _ _ _ => rfl

theorem Rule.Looks.silent {rule : Rule} (h : rule.Looks) (around : Surroundings) (w : Workflow) :
    (walk around [rule] w).Silent := by
  obtain ⟨look, hrule, -⟩ := h
  rw [walk_singleton]
  split
  · rw [hrule.alone_eq]
    exact ⟨_, rfl⟩
  · exact ⟨[], rfl⟩

theorem Rule.Looks.findings_sublist {rule : Rule} (h : rule.Looks)
    (hnarrow : narrow.Narrows around.settings) (w : Workflow) :
    (dispatch { around with settings := narrow } [rule] w).findings.Sublist
      (dispatch around [rule] w).findings := by
  obtain ⟨look, hrule, hlook⟩ := h
  have hwatches : Surroundings.watches { around with settings := narrow } w rule =
      around.watches w rule := by
    simp only [Surroundings.watches, Surroundings.letsThrough, hnarrow.triggers]
  simp only [dispatch, walk_singleton, hwatches]
  split
  · rw [hrule.alone_eq, hrule.alone_eq]
    exact (List.Sublist.flatMap_right _ fun v _ => hlook around narrow hnarrow v).map _
  · exact List.Sublist.refl _

/-- The rule on owners asks for fewer of them, and the answers for the others stay. -/
theorem repoJacking_findings_sublist (hnarrow : narrow.Narrows around.settings)
    (hprobe : around.network.ByAddress) (w : Workflow) :
    (dispatch { around with settings := narrow } [.repoJacking] w).findings.Sublist
      (dispatch around [.repoJacking] w).findings := by
  have hwatches (around : Surroundings) : around.watches w Rule.repoJacking = true :=
    Bool.or_true _
  have hrun (around : Surroundings) := Rule.run_alone_repoJacking around around.earlier w
  simp only [dispatch, walk_singleton, hwatches, if_true, hrun]
  refine (Rule.rounds_reports_sublist hprobe (fun entry hfew => ?_) _ (Rule.nodup_byOwner _)
    fun _ _ => rfl).map _
  simp only [Bool.not_eq_true', List.contains_eq_mem, decide_eq_false_iff_not, List.mem_append,
    not_or] at hfew ⊢
  exact hfew.imp_right fun hmem hwide => hmem (hnarrow.knownOwners _ hwide)

end OneRule

/-! ### All rules -/

/-- Only the rule on owners asks the network. -/
theorem noTwoAsk_of_sublist_catalog (around : Surroundings) (w : Workflow) {rules : List Rule}
    (h : rules.Sublist catalog) : NoTwoAsk around rules w := by
  have hidents : (catalog.map Rule.ident).Nodup := by decide
  refine List.Pairwise.sublist h ((List.pairwise_map.1 hidents).imp_of_mem fun {a b} ha hb hne => ?_)
  rcases looks_or_repoJacking a ha with hlooks | rfl
  · exact .inl (hlooks.silent around w)
  · rcases looks_or_repoJacking b hb with hlooks | rfl
    · exact .inr (hlooks.silent around w)
    · exact absurd rfl hne

theorem dispatch_findings_sublist (around : Surroundings) {narrow : Settings}
    (hnarrow : narrow.Narrows around.settings) (hprobe : around.network.ByAddress)
    {few many : List Rule} (hfew : few.Sublist many) (hmany : many.Sublist catalog) (w : Workflow) :
    (dispatch { around with settings := narrow } few w).findings.Sublist
      (dispatch around many w).findings := by
  rw [dispatch_findings_of_noTwoAsk (noTwoAsk_of_sublist_catalog _ w (hfew.trans hmany)),
    dispatch_findings_of_noTwoAsk (noTwoAsk_of_sublist_catalog _ w hmany)]
  refine List.Sublist.trans ?_ (hfew.flatMap _)
  refine List.Sublist.flatMap_right _ fun rule hrule => ?_
  rcases looks_or_repoJacking rule ((hfew.trans hmany).subset hrule) with hlooks | rfl
  · exact hlooks.findings_sublist hnarrow w
  · exact repoJacking_findings_sublist hnarrow hprobe w

theorem canRun_eq {around : Surroundings} {narrow : Settings}
    (hnarrow : narrow.Narrows around.settings) :
    ∀ rule ∈ catalog, rule.canRun { around with settings := narrow } = rule.canRun around := by
  have hsurveying : Rule.surveying { around with settings := narrow } = Rule.surveying around :=
    hnarrow.debugRules
  simp only [catalog, List.forall_mem_cons]
  refine ⟨rfl, rfl, rfl, rfl, rfl, rfl, rfl, rfl, rfl, rfl, hsurveying, hsurveying, hsurveying, ?_,
    List.forall_mem_nil _⟩
  simp only [Rule.repoJacking, hnarrow.connected]

theorem rules_sublist {around : Surroundings} {narrow : Settings}
    (hnarrow : narrow.Narrows around.settings) :
    (Surroundings.rules { around with settings := narrow }).Sublist around.rules := by
  have hadmits : ∀ rule ∈ catalog, Surroundings.admits { around with settings := narrow } rule =
      (narrow.selection.enables rule.ident && rule.canRun around) := fun rule hrule => by
    rw [Surroundings.admits, canRun_eq hnarrow rule hrule]
  rw [Surroundings.rules, List.filter_congr hadmits]
  refine List.monotone_filter_right _ fun rule h => ?_
  rw [Bool.and_eq_true] at h
  rw [Surroundings.admits, h.2, hnarrow.enables _ h.1]
  rfl

/-! ### Findings in the order of their places -/

theorem notAfter_trans (a b c : Finding) (hab : a.notAfter b) (hbc : b.notAfter c) :
    a.notAfter c := by
  simp only [Finding.notAfter, Bool.or_eq_true, Bool.and_eq_true, decide_eq_true_eq] at *
  omega

theorem notAfter_total (a b : Finding) : a.notAfter b || b.notAfter a := by
  simp only [Finding.notAfter, Bool.or_eq_true, Bool.and_eq_true, decide_eq_true_eq]
  omega

theorem mergeFindings_sublist {narrow wide : Settings} (hnarrow : narrow.Narrows wide)
    (path : String) {few many : List Finding} (h : few.Sublist many) :
    (mergeFindings narrow path few).Sublist (mergeFindings wide path many) := by
  refine List.mergeSort_sublist notAfter_trans notAfter_total (List.Sublist.map _ ?_)
  refine List.Sublist.trans ?_ (h.filter _)
  refine List.monotone_filter_right _ fun f hf => ?_
  rw [Bool.not_eq_true'] at hf ⊢
  exact Bool.eq_false_iff.2 fun hwide => Bool.eq_false_iff.1 hf (hnarrow.ignores _ hwide)

/-- The findings of a workflow that are shown for its file. -/
def Surroundings.shown (around : Surroundings) (actions : Option ActionIndex) (path : String)
    (w : Workflow) : List Finding :=
  mergeFindings around.settings path
    (dispatch { around with actions := actions } around.rules w).findings

/-- What a scan of one file comes to: the findings of its workflow, if the file has one. -/
theorem scan_one_eq_shown (disk : Disk) (around : Surroundings) (path : String) :
    (scan disk around [path]).1 =
      match disk.read path with
      | .error cause => .error (.unreadable path cause)
      | .ok source =>
        match Workflow.parse source with
        | .error cause => .error (.malformed path cause)
        | .ok w => .ok (around.shown (some (.ofProject disk (disk.projectRoot path)))
            (disk.displayPath path) w) := by
  simp only [scan, scanFile]
  cases disk.read path with
  | error cause => rfl
  | ok source =>
    dsimp only
    cases Workflow.parse source with
    | error cause => rfl
    | ok w =>
      show Except.ok (_ ++ []) = _
      rw [List.append_nil]
      rfl

/-- A scan comes to some of the findings of another, in the same order, or to the same error. -/
def KeepsSome : Except ScanError (List Finding) → Except ScanError (List Finding) → Prop
  | .ok kept, .ok all => kept.Sublist all
  | .error e, .error e' => e = e'
  | _, _ => False

/-- A configuration only takes findings away: what is shown for a file under settings with a
    configuration is, in the same order, some of what is shown under the settings alone. A file that
    cannot be scanned has the same error either way. Which texts are read as patterns, and as which
    ones, is of no account. -/
theorem withConfig?_only_suppresses (around : Surroundings)
    (readPattern : String → Option MessagePattern) (c : Config) (configured : Settings)
    (hconfig : around.settings.withConfig? readPattern c = some configured)
    (hprobe : around.network.ByAddress) :
    (∀ actions path w,
      (Surroundings.shown { around with settings := configured } actions path w).Sublist
        (around.shown actions path w)) ∧
    ∀ disk path,
      KeepsSome (scan disk { around with settings := configured } [path]).1
        (scan disk around [path]).1 := by
  have hnarrow := Settings.narrows_of_withConfig? hconfig
  have hshown (actions : Option ActionIndex) (path : String) (w : Workflow) :
      (Surroundings.shown { around with settings := configured } actions path w).Sublist
        (around.shown actions path w) :=
    mergeFindings_sublist hnarrow path
      (dispatch_findings_sublist { around with actions := actions } hnarrow hprobe
        (rules_sublist hnarrow) List.filter_sublist w)
  refine ⟨hshown, fun disk path => ?_⟩
  rw [scan_one_eq_shown, scan_one_eq_shown]
  cases disk.read path with
  | error cause => rfl
  | ok source =>
    dsimp only
    cases Workflow.parse source with
    | error cause => rfl
    | ok w => exact hshown _ _ w

/-- Each address is too soon at first, and then not found. -/
def patientProbe : Probe where
  answer earlier url := if url ∈ earlier then .status 404 else .status 429

/-- Surroundings with a network. -/
def patientlyConnected : Surroundings where
  settings := { connected := true }
  untrusted := untrusted
  probe := some patientProbe

/-- A configuration with something of each kind. -/
def suppressingConfig : Config where
  disabledRules := ["local-action"]
  ignore := ["OIDC"]
  hostedLabels := ["big-*"]
  knownOwners := ["gone"]

/-- A workflow with a finding for each part of the configuration and one more. -/
def fiveFaults : Workflow where
  name := none
  triggers := [⟨"issues", ⟨1, 5⟩⟩]
  env := []
  jobs :=
    let scalar (value : String) (line : Nat) : Yaml.Scalar :=
      ⟨value, ⟨line, 9⟩, .plain, [⟨0, ⟨line, 9⟩⟩]⟩
    let step (action : String) (line : Nat) : Step :=
      ⟨⟨line, 7⟩, none, none, none, [], .uses (scalar action line) [] none none⟩
    [("a", { id := scalar "a" 3, position := ⟨3, 3⟩, name := none, condition := none
             runsOn := [scalar "Big-one" 4], matrix := none, env := [], container := none
             services := []
             steps := [step "gone/x@v1" 6, step "azure/login@v1" 7, step "./local" 8,
               step "lost/y@v1" 9] })]

/-- Of five findings, one for each part of the configuration is taken away. -/
theorem suppressingConfig_only_suppresses :
    ∃ configured, patientlyConnected.settings.withConfig? MessagePattern.ofText? suppressingConfig =
        some configured ∧
      patientlyConnected.network.ByAddress ∧
      (Surroundings.shown { patientlyConnected with settings := configured } none "w.yml"
        fiveFaults).Sublist (patientlyConnected.shown none "w.yml" fiveFaults) ∧
      (Surroundings.shown { patientlyConnected with settings := configured } none "w.yml"
        fiveFaults).map (·.position.line) = [9] ∧
      (patientlyConnected.shown none "w.yml" fiveFaults).length = 5 := by
  have hprobe : patientlyConnected.network.ByAddress := fun earlier url => by
    simp [patientlyConnected, Surroundings.network, patientProbe]
  have hkept : (patientlyConnected.settings.withConfig? MessagePattern.ofText? suppressingConfig).map
      (fun configured => (Surroundings.shown { patientlyConnected with settings := configured } none "w.yml"
        fiveFaults).map (·.position.line)) = some [9] := by decide +kernel
  have hall : (patientlyConnected.shown none "w.yml" fiveFaults).length = 5 := by
    rw [Surroundings.shown, mergeFindings, List.length_mergeSort]
    decide +kernel
  obtain ⟨configured, hconfig, hkept⟩ := Option.map_eq_some_iff.1 hkept
  have hshown := (withConfig?_only_suppresses patientlyConnected MessagePattern.ofText? suppressingConfig
    configured hconfig hprobe).1 none "w.yml" fiveFaults
  exact ⟨configured, hconfig, hprobe, hshown, hkept, hall⟩

end WorkflowAudit
