import WorkflowAudit.Proofs.Finding.Pointing
import WorkflowAudit.Proofs.Owner.Requests
import WorkflowAudit.Proofs.Runner.Conflicts

/-!
What findings are made of. Main statement: a finding is placed by a scalar of the part of the workflow
that it is about, at its beginning or at a character of its value, and its message is text without line
breaks around texts that are quoted; only a request that comes to nothing leads to a finding that stands
nowhere. The argument goes rule by rule.
-/

namespace WorkflowAudit

open Yaml (Scalar)

/-! ### Words -/

/-- The text is put together from texts without line breaks and from quoted ones. -/
inductive Worded (quoted : String → Prop) : String → Prop
  | plain {s : String} : '\n' ∉ s.toList → Worded quoted s
  | quote {s : String} : quoted s → Worded quoted s
  | append {s t : String} : Worded quoted s → Worded quoted t → Worded quoted (s ++ t)

namespace Worded

variable {quoted : String → Prop} {s : String}

/-- A line break in the text is one of a quoted text that stands in it. -/
theorem exists_break (h : Worded quoted s) (hbreak : '\n' ∈ s.toList) :
    ∃ x, quoted x ∧ '\n' ∈ x.toList ∧ x.toList <:+: s.toList := by
  induction h with
  | plain hnone => exact absurd hbreak hnone
  | quote hquoted => exact ⟨_, hquoted, hbreak, List.infix_rfl⟩
  | append _ _ ihs iht =>
    rw [String.toList_append] at hbreak ⊢
    rcases List.mem_append.1 hbreak with hbreak | hbreak
    · obtain ⟨x, hx, hmem, hinfix⟩ := ihs hbreak
      exact ⟨x, hx, hmem, hinfix.trans (List.prefix_append _ _).isInfix⟩
    · obtain ⟨x, hx, hmem, hinfix⟩ := iht hbreak
      exact ⟨x, hx, hmem, hinfix.trans (List.suffix_append _ _).isInfix⟩

theorem mono {more : String → Prop} (h : Worded quoted s) (hmore : ∀ x, quoted x → more x) :
    Worded more s := by
  induction h with
  | plain hnone => exact .plain hnone
  | quote hquoted => exact .quote (hmore _ hquoted)
  | append _ _ ihs iht => exact .append ihs iht

/-- A text between two without line breaks. -/
theorem between {a b : String} (ha : '\n' ∉ a.toList) (hs : Worded quoted s) (hb : '\n' ∉ b.toList) :
    Worded quoted (a ++ s ++ b) :=
  .append (.append (.plain ha) hs) (.plain hb)

theorem number (n : Nat) : Worded quoted (toString n) := by
  refine .plain fun hmem => ?_
  rw [Nat.toString_eq_repr, Nat.repr_eq_ofList_toDigits, String.toList_ofList] at hmem
  exact absurd (Nat.isDigit_of_mem_toDigits (by decide) (by decide) hmem) (by decide)

theorem intercalate {sep : String} {parts : List String} (hsep : Worded quoted sep)
    (hparts : ∀ x ∈ parts, Worded quoted x) : Worded quoted (sep.intercalate parts) := by
  cases parts with
  | nil => exact .plain List.not_mem_nil
  | cons first rest =>
    obtain ⟨hfirst, hrest⟩ := List.forall_mem_cons.1 hparts
    clear hparts
    rw [String.intercalate]
    induction rest generalizing first with
    | nil => exact hfirst
    | cons x rest ih =>
      obtain ⟨hx, hrest⟩ := List.forall_mem_cons.1 hrest
      exact ih _ (.append (.append hfirst hsep) hx) hrest

theorem position (p : Position) : Worded quoted p.text :=
  .append (.append (.number p.line) (.plain (by decide))) (.number p.column)

theorem taint {t : Taint} (h : ∀ path ∈ t.paths, quoted path) : Worded quoted t.message := by
  unfold Taint.message
  split
  · rename_i path hpaths
    exact .between (by decide) (.quote (h path (hpaths ▸ List.mem_singleton_self path))) (by decide)
  · refine .between (by decide) (.intercalate (.plain (by decide)) fun x hx => ?_) (by decide)
    obtain ⟨path, hpath, rfl⟩ := List.mem_map.1 hx
    exact .between (by decide) (.quote (h path hpath)) (by decide)

end Worded

/-! ### Grounds -/

/-- The position is where a scalar begins or where a character of its value stands. -/
def Yaml.Scalar.Places (s : Scalar) (p : Position) : Prop :=
  p = s.position ∨
    ∃ k < s.value.toList.length, p = s.positionAt (Text.byteSize (s.value.toList.take k))

/-- The scalars of a part of the walk by which reports are placed. -/
def Visit.placing : Visit → List Scalar
  | .enter w => w.placing
  | .enterJob j => j.placing
  | .step st => st.placing
  | .leaveJob _ => []

/-- The texts that a message about a part of the walk may quote. -/
inductive Quotable (around : Surroundings) : Visit → String → Prop
  | event {w : Workflow} {t : Trigger} : t ∈ w.triggers → Quotable around (.enter w) t.event
  | label {j : Job} {s : Scalar} : s ∈ j.labels → Quotable around (.enterJob j) s.value
  | service {j : Job} {e : String × Container} : e ∈ j.services →
      Quotable around (.enterJob j) e.1
  | action {st : Step} {action : Scalar} {inputs : Table Input} {entrypoint args : Option Scalar} :
      st.body = .uses action inputs entrypoint args → Quotable around (.step st) action.value
  | owner {st : Step} {owner : String} {u : Rule.Usage} : Rule.ownedUse? st = some (owner, u) →
      Quotable around (.step st) owner
  | tool {st : Step} {action : Scalar} {inputs : Table Input} {entrypoint args : Option Scalar}
      {tool : String} : st.body = .uses action inputs entrypoint args →
      (around.actions.bind (·.lookup? action.value)).bind (·.runsUsing) = some tool →
      Quotable around (.step st) tool
  /-- A path that a chain of the part arrives at. -/
  | path {v : Visit} {s : Scalar} {e : Expr} {k : Nat} {path : String} : s ∈ v.searched →
      e.BeginsAt s.value.toList k → path ∈ arrivals (reach around.untrusted e) →
      Quotable around v path

/-- The report is placed by a scalar of the part of the walk, and what it quotes comes from there. -/
structure Grounded (around : Surroundings) (v : Visit) (r : Report) : Prop where
  placed : ∃ s ∈ v.placing, s.Places r.position
  worded : Worded (Quotable around v) r.message

theorem Visit.placing_of_searched {v : Visit} {s : Scalar} (h : s ∈ v.searched) : s ∈ v.placing := by
  cases v with
  | enterJob j => simp [placing, Job.placing, show s ∈ j.condition.toList from h]
  | step st => exact List.mem_append_left _ h
  | enter | leaveJob => cases h

theorem Step.mem_searched_action {st : Step} {action : Scalar} {inputs : Table Input}
    {entrypoint args : Option Scalar} (h : st.body = .uses action inputs entrypoint args) :
    action ∈ st.searched := by
  refine List.mem_append_right _ ?_
  rw [Rule.injectionPoints, h]
  exact List.mem_cons_self ..

section Grounds

variable {around : Surroundings} {v : Visit} {st : Step} {r : Report} {s : Scalar}

/-- A report that stands where a scalar begins. -/
theorem Grounded.atStart {message : String} (hs : s ∈ v.placing)
    (hmessage : Worded (Quotable around v) message) : Grounded around v ⟨s.position, message⟩ :=
  ⟨⟨s, hs, .inl rfl⟩, hmessage⟩

/-- A report that stands at the action that a step uses. -/
theorem Grounded.atAction {action : Scalar} {inputs : Table Input} {entrypoint args : Option Scalar}
    {message : String} (hbody : st.body = .uses action inputs entrypoint args)
    (hmessage : Worded (Quotable around (.step st)) message) :
    Grounded around (.step st) ⟨action.position, message⟩ :=
  .atStart (Visit.placing_of_searched (Step.mem_searched_action hbody)) hmessage

theorem scriptSearches_unbroken : ∀ x ∈ scriptSearches, '\n' ∉ x.2.2.toList := by
  decide +kernel

theorem grounded_of_flagged {rule : String} (hs : s ∈ v.searched)
    (h : FlaggedIn around.untrusted rule s r) : Grounded around v r := by
  obtain ⟨k, hflagged, hposition⟩ := h
  obtain ⟨c, hc, -⟩ := hflagged.visible
  refine ⟨⟨s, Visit.placing_of_searched hs, .inr ⟨k, ?_, hposition⟩⟩, ?_⟩
  · exact (List.getElem?_eq_some_iff.1 hc).1
  · cases hflagged with
    | chain _ hmessage _ harrivals _ hbegins =>
      rw [show r.message = _ from hmessage]
      exact .taint fun path hpath => .path hs hbegins (harrivals ▸ hpath)
    | bot _ hmessage =>
      rw [show r.message = _ from hmessage]
      exact .plain (by decide)
    | script hsearch => exact .plain (scriptSearches_unbroken _ hsearch)

theorem grounded_of_onUse {rule : String} (h : OnUse v (.ofReport rule r)) : Grounded around v r := by
  obtain ⟨position, message⟩ := r
  cases h with
  | action hv hbody _ hmessage hposition =>
    cases hv; cases hmessage; cases hposition
    exact .atAction hbody (.between (by decide) (.quote (.action hbody)) (by decide))
  | artifact hv hbody hrepo _ hmessage hposition =>
    cases hv; cases hmessage; cases hposition
    exact .atStart (Visit.placing_of_searched (Rule.mem_searched_input hbody hrepo))
      (.between (by decide) (.quote (.action hbody)) (by decide))
  | checkout hv hbody _ hmessage hposition =>
    cases hv; cases hmessage; cases hposition
    exact .atAction hbody (.plain (by decide))

theorem grounded_of_accounted {rule : String} (h : Accounted around.untrusted rule v r) :
    Grounded around v r := by
  rcases h with huse | ⟨s, hs, hflagged⟩
  · exact grounded_of_onUse huse
  · exact grounded_of_flagged hs hflagged

end Grounds

/-! ### Rules that place by scalars -/

namespace Rule

variable {around : Surroundings} {v : Visit} {st : Step} {j : Job} {r : Report}

theorem grounded_localAction (h : r ∈ localActionReports around.actions st) :
    Grounded around (.step st) r := by
  unfold localActionReports at h
  split at h
  · cases h
  · rename_i action _ _ _ hbody
    split at h
    · cases List.mem_singleton.1 h
      refine .atAction hbody ?_
      split
      · rename_i tool htool
        exact .append (.append (.between (by decide) (.quote (.action hbody)) (by decide))
          (.quote (.tool hbody htool))) (.plain (by decide))
      · exact .between (by decide) (.quote (.action hbody)) (by decide)
    · cases h

theorem grounded_oidcAction (h : r ∈ (oidcAction.visit around oidcAction.start v).2) :
    Grounded around v r := by
  cases v with
  | step st =>
    simp only [oidcAction, stateless] at h
    split at h
    · rename_i action _ _ _ hbody
      split at h
      · cases List.mem_singleton.1 h
        exact .atAction hbody (.between (by decide) (.quote (.action hbody)) (by decide))
      · cases h
    · cases h
  | enter | enterJob | leaveJob => cases h

theorem grounded_debugArtefacts (h : r ∈ (debugArtefacts.visit around debugArtefacts.start v).2) :
    Grounded around v r := by
  cases v with
  | step st =>
    simp only [debugArtefacts, stateless] at h
    split at h
    · rename_i action _ _ _ hbody
      split at h
      · cases List.mem_singleton.1 h
        exact .atAction hbody (.plain (by decide))
      · cases h
    · cases h
  | enter | enterJob | leaveJob => cases h

theorem grounded_debugExternalTrigger
    (h : r ∈ (debugExternalTrigger.visit around debugExternalTrigger.start v).2) :
    Grounded around v r := by
  cases v with
  | enter w =>
    simp only [debugExternalTrigger, stateless] at h
    split at h
    · rename_i trigger name htrigger hname
      cases List.mem_singleton.1 h
      refine .atStart (List.mem_append_left _ (Option.mem_toList.2 hname)) ?_
      exact .between (by decide) (.quote (.event (List.mem_of_find?_eq_some htrigger))) (by decide)
    · cases h
  | enterJob | step | leaveJob => cases h

/-- The name of the variable that allows commands has no line break, in whichever case it is written. -/
theorem not_break_of_sameIgnoringCase {name fixed : String} (h : Text.sameIgnoringCase name fixed)
    (hfixed : '\n' ∉ (Text.lower fixed).toList) : '\n' ∉ name.toList := by
  intro hmem
  have hsame : Text.lower name = Text.lower fixed := eq_of_beq h
  rw [← hsame, Text.lower, String.toList_ofList] at hfixed
  exact hfixed (List.mem_map.2 ⟨'\n', hmem, rfl⟩)

theorem grounded_unsecureVariables {env : List EnvVar} (hin : ∀ x ∈ env.map (·.name), x ∈ v.placing)
    (h : r ∈ unsecureVariables env) : Grounded around v r := by
  obtain ⟨set, hset, rfl⟩ := List.mem_map.1 h
  obtain ⟨hmem, hname⟩ := List.mem_filter.1 hset
  refine .atStart (hin _ (List.mem_map_of_mem hmem)) (.between (by decide) (.plain ?_) (by decide))
  exact not_break_of_sameIgnoringCase hname (by decide)

theorem grounded_unsecuredCommands
    (h : r ∈ (unsecuredCommands.visit around unsecuredCommands.start v).2) : Grounded around v r := by
  cases v with
  | enter w => exact grounded_unsecureVariables (fun x hx => List.mem_append_right _ hx) h
  | enterJob j =>
    exact grounded_unsecureVariables
      (fun x hx => List.mem_append_left _ (List.mem_append_right _ hx)) h
  | step st => exact grounded_unsecureVariables (fun x hx => List.mem_append_right _ hx) h
  | leaveJob => cases h

theorem grounded_password {c : Container} (hc : c ∈ j.containers) {part : String}
    (hpart : Worded (Quotable around (.enterJob j)) part) (h : r ∈ passwordReports c part) :
    Grounded around (.enterJob j) r := by
  unfold passwordReports at h
  split at h
  · cases h
  · rename_i password hpassword
    split at h
    · cases h
    · cases List.mem_singleton.1 h
      refine .atStart (List.mem_append_right _ (List.mem_flatMap.2 ⟨c, hc, ?_⟩))
        (.between (by decide) hpart (by decide))
      exact Option.mem_toList.2 hpassword

theorem grounded_credentials (h : r ∈ (credentials.visit around credentials.start v).2) :
    Grounded around v r := by
  cases v with
  | enterJob j =>
    rcases List.mem_append.1 h with h | h
    · split at h
      · rename_i container hcontainer
        refine grounded_password (List.mem_append_left _ ?_) (.plain (by decide)) h
        exact Option.mem_toList.2 hcontainer
      · cases h
    · obtain ⟨service, hservice, h⟩ := List.mem_flatMap.1 h
      refine grounded_password (List.mem_append_right _ (List.mem_map_of_mem hservice)) ?_ h
      exact .between (by decide) (.quote (.service hservice)) (by decide)
  | enter | step | leaveJob => cases h

/-! ### Runner labels -/

/-- The labels met before are labels of the job. -/
def FromLabels (j : Job) (seen : List SeenLabel) : Prop :=
  ∀ earlier ∈ seen, ∃ s ∈ j.labels, earlier.label = s.value

theorem FromLabels.note {seen : List SeenLabel} (h : FromLabels j seen) {label : Scalar}
    (hlabel : label ∈ j.labels) (images : List RunnerImage) :
    FromLabels j (note seen label images) := by
  unfold Rule.note
  split
  · exact h
  · refine List.forall_mem_append.2 ⟨h, List.forall_mem_singleton.2 ⟨label, hlabel, rfl⟩⟩

theorem FromLabels.noteAll {seen : List SeenLabel} (h : FromLabels j seen)
    {kept : List (Scalar × List RunnerImage × Option SeenLabel)} (hkept : ∀ x ∈ kept, x.1 ∈ j.labels) :
    FromLabels j (kept.foldl (fun seen x => Rule.note seen x.1 x.2.1) seen) := by
  induction kept generalizing seen with
  | nil => exact h
  | cons x kept ih =>
    obtain ⟨hx, hkept⟩ := List.forall_mem_cons.1 hkept
    exact ih (h.note hx x.2.1) hkept

theorem mem_placing_label {label : Scalar} (h : label ∈ j.labels) :
    label ∈ (Visit.enterJob j).placing :=
  List.mem_append_left _ (List.mem_append_left _ (List.mem_append_right _ h))

theorem grounded_verifyLabel {settings : Settings} {label : Scalar} (hlabel : label ∈ j.labels)
    (h : r ∈ (verifyLabel settings label).2) : Grounded around (.enterJob j) r := by
  unfold verifyLabel at h
  split at h
  · cases h
  · split at h
    · cases h
    · cases List.mem_singleton.1 h
      exact .atStart (mem_placing_label hlabel)
        (.between (by decide) (.quote (.label hlabel)) (by decide))

theorem grounded_conflictReport {label : Scalar} (hlabel : label ∈ j.labels) {earlier : SeenLabel}
    (hearlier : ∃ s ∈ j.labels, earlier.label = s.value) :
    Grounded around (.enterJob j) (conflictReport label earlier) := by
  obtain ⟨s, hs, heq⟩ := hearlier
  refine .atStart (mem_placing_label hlabel) ?_
  rw [heq]
  exact .append (.append (.append (.append (.between (by decide) (.quote (.label hlabel)) (by decide))
    (.quote (.label hs))) (.plain (by decide))) (.position _)) (.plain (by decide))

/-- The labels met stay labels of the job, and the reports are grounded in it. -/
def ChecksLabels (around : Surroundings) (j : Job) (checked : List SeenLabel × List Report) : Prop :=
  FromLabels j checked.1 ∧ ∀ r ∈ checked.2, Grounded around (.enterJob j) r

theorem checksLabels_alternatives {settings : Settings} {seen : List SeenLabel}
    (hseen : FromLabels j seen) {labels : List Scalar} (hlabels : ∀ label ∈ labels, label ∈ j.labels) :
    ChecksLabels around j (checkAlternatives settings seen labels) := by
  constructor
  -- only labels without a conflict are noted, all of them among those given
  · refine hseen.noteAll fun x hx => ?_
    obtain ⟨y, hy, rfl⟩ := List.mem_map.1 (List.mem_of_mem_filter hx)
    obtain ⟨label, hlabel, rfl⟩ := List.mem_map.1 hy
    exact hlabels label hlabel
  · intro r hr
    rcases List.mem_append.1 hr with hr | hr
    · obtain ⟨x, hx, hr⟩ := List.mem_flatMap.1 hr
      obtain ⟨label, hlabel, rfl⟩ := List.mem_map.1 hx
      exact grounded_verifyLabel (hlabels label hlabel) hr
    · obtain ⟨x, hx, hr⟩ := List.mem_filterMap.1 hr
      obtain ⟨y, hy, rfl⟩ := List.mem_map.1 hx
      obtain ⟨label, hlabel, rfl⟩ := List.mem_map.1 hy
      obtain ⟨earlier, hearlier, rfl⟩ := Option.map_eq_some_iff.1 hr
      exact grounded_conflictReport (hlabels label hlabel)
        (hseen earlier (mem_of_conflictWith? hearlier).1)

theorem mem_labels_of_candidates {label candidate : Scalar}
    (h : candidate ∈ labelCandidates label j.matrix) : candidate ∈ j.labels := by
  unfold labelCandidates at h
  split at h
  · rename_i m _ _ name property hmatrix _
    split at h
    · refine List.mem_append_right _ (List.mem_flatMap.2 ⟨m, Option.mem_toList.2 hmatrix, ?_⟩)
      rcases List.mem_append.1 (List.mem_filter.1 h).1 with h | h
      · obtain ⟨row, hrow, h⟩ := List.mem_flatMap.1 h
        exact List.mem_append_left _ (List.mem_flatMap.2 ⟨row, List.mem_of_mem_filter hrow, h⟩)
      · obtain ⟨entry, hentry, h⟩ := List.mem_flatMap.1 h
        obtain ⟨pair, hpair, rfl⟩ := List.mem_map.1 h
        exact List.mem_append_right _ (List.mem_flatMap.2 ⟨entry, hentry,
          List.mem_map_of_mem (List.mem_of_mem_filter hpair)⟩)
    · cases h
  · cases h

theorem checksLabels_label {settings : Settings} {seen : List SeenLabel} (hseen : FromLabels j seen)
    {label : Scalar} (hlabel : label ∈ j.labels) :
    ChecksLabels around j (checkLabel settings j.matrix seen label) := by
  unfold checkLabel
  split
  · exact checksLabels_alternatives hseen (List.forall_mem_singleton.2 hlabel)
  · dsimp only
    split
    · refine ⟨hseen, List.forall_mem_singleton.2 (.atStart (mem_placing_label hlabel) ?_)⟩
      exact .between (by decide) (.quote (.label hlabel)) (by decide)
    · exact checksLabels_alternatives hseen fun candidate => mem_labels_of_candidates

theorem checksLabels_labels {settings : Settings} {seen : List SeenLabel} (hseen : FromLabels j seen)
    {labels : List Scalar} (hlabels : ∀ label ∈ labels, label ∈ j.labels) :
    ChecksLabels around j (checkLabels settings j.matrix seen labels) := by
  induction labels generalizing seen with
  | nil => exact ⟨hseen, List.forall_mem_nil _⟩
  | cons label labels ih =>
    obtain ⟨hlabel, hlabels⟩ := List.forall_mem_cons.1 hlabels
    obtain ⟨hfirst, hreports⟩ := checksLabels_label hseen hlabel
    obtain ⟨hlast, hothers⟩ := ih hfirst hlabels
    exact ⟨hlast, List.forall_mem_append.2 ⟨hreports, hothers⟩⟩

theorem grounded_checkJob {seen : List SeenLabel} (h : r ∈ (checkJob around.settings seen j).2) :
    Grounded around (.enterJob j) r := by
  have hlabels : ∀ label ∈ j.runsOn, label ∈ j.labels := fun label hl => List.mem_append_left _ hl
  have hchecks {labels : List Scalar} (hlabels : ∀ label ∈ labels, label ∈ j.labels)
      (h : r ∈ (checkLabels around.settings j.matrix [] labels).2) :
      Grounded around (.enterJob j) r :=
    (checksLabels_labels (List.forall_mem_nil _) hlabels).2 r h
  unfold checkJob at h
  split at h
  · cases h
  · rename_i label hrunsOn
    rw [hrunsOn] at hlabels
    split at h
    · exact hchecks hlabels h
    · split at h
      · cases h
      · exact grounded_verifyLabel (hlabels label (List.mem_singleton_self _)) h
  · exact hchecks hlabels h

theorem grounded_runnerLabel (h : r ∈ runnerLook around v) : Grounded around v r := by
  cases v with
  | enterJob j => exact grounded_checkJob h
  | enter | step | leaveJob => cases h

/-! ### Owners -/

/-- A request that comes to nothing fails with this error: the network has failed some request with it,
    or all attempts were too soon. -/
def Fails (probe : Probe) (error : ClientError) : Prop :=
  error = .unexpected "still rate limited after 10 attempts" ∨
    ∃ earlier url, probe.answer earlier url = .failure error

theorem fails_of_verdict {probe : Probe} {earlier : List String} {url : String} {error : ClientError}
    (h : Round.verdict (probe.answer earlier url) = .error error) : Fails probe error := by
  cases hanswer : probe.answer earlier url with
  | failure e =>
    rw [hanswer] at h
    cases h
    exact .inr ⟨earlier, url, hanswer⟩
  | status code =>
    rw [hanswer, Round.verdict] at h
    split at h
    · cases h
      exact .inl rfl
    · cases h

/-- A round is for an owner of the table, and its last answer is one of the network. -/
theorem mem_table_of_mem_rounds {probe : Probe} {earlier : List String}
    {owners : Table (List Usage)} {round : Round} (h : round ∈ rounds probe earlier owners) :
    (round.owner, round.usages) ∈ owners ∧ ∃ before url, round.last = probe.answer before url := by
  induction owners generalizing earlier with
  | nil => cases h
  | cons entry owners ih =>
    rcases List.mem_cons.1 h with rfl | h
    · exact ⟨List.mem_cons_self .., _, _, rfl⟩
    · obtain ⟨hmem, hlast⟩ := ih h
      exact ⟨List.mem_cons_of_mem _ hmem, hlast⟩

/-- An owner of the table has a use, and the uses under an owner are noted as that owner's. -/
theorem uses_of_mem_byOwner {uses : List (String × Usage)} {owner : String} {usages : List Usage}
    (h : (owner, usages) ∈ byOwner uses) :
    (∃ u, (owner, u) ∈ uses) ∧ ∀ u ∈ usages, (owner, u) ∈ uses := by
  obtain ⟨o, ho, heq⟩ := List.mem_map.1 h
  cases heq
  constructor
  · obtain ⟨use, huse, rfl⟩ := List.mem_map.1 (List.mem_eraseDups.1 ho)
    exact ⟨use.2, huse⟩
  · intro u hu
    obtain ⟨use, huse, rfl⟩ := List.mem_map.1 hu
    obtain ⟨hmem, howner⟩ := List.mem_filter.1 huse
    rw [← of_decide_eq_true howner]
    exact hmem

theorem step_of_mem_usesIn {w : Workflow} {owner : String} {u : Usage}
    (h : (owner, u) ∈ w.visits.flatMap usesIn) :
    ∃ st, .step st ∈ w.visits ∧ ownedUse? st = some (owner, u) := by
  obtain ⟨v, hv, huse⟩ := List.mem_flatMap.1 h
  cases v with
  | step st => exact ⟨st, hv, Option.mem_toList.1 huse⟩
  | enter | enterJob | leaveJob => cases huse

/-- The report that a request for an owner has come to nothing. -/
def errorReport (owner : String) (error : ClientError) : Report where
  position := ⟨0, 0⟩
  message := s!"Error while fetching \"{ownerUrl owner}\": \"{error.message}\". Check you internet connectivity."

theorem grounded_status {owner : String} {u : Usage} (huse : ownedUse? st = some (owner, u))
    {message : String} (hmessage : Worded (Quotable around (.step st)) message) :
    Grounded around (.step st) ⟨u.position, message⟩ := by
  obtain ⟨action, inputs, entrypoint, args, hbody, rfl, -⟩ := ownedUse?_eq_some_iff.1 huse
  exact .atAction hbody hmessage

theorem worded_status {owner : String} {u : Usage} (huse : ownedUse? st = some (owner, u))
    (code : Nat) : Worded (Quotable around (.step st))
      s!"Got a {code} status code while fetching \"{ownerUrl owner}\". You might be able to perform a repo-jacking attack to takeover the \"{u.action}\" action." := by
  have haction : Quotable around (.step st) u.action := by
    obtain ⟨action, inputs, entrypoint, args, hbody, rfl, -⟩ := ownedUse?_eq_some_iff.1 huse
    exact .action hbody
  have hurl : Worded (Quotable around (.step st)) (ownerUrl owner) :=
    .append (.plain (by decide)) (.quote (.owner huse))
  exact .append (.append (.append (.append (.between (by decide) (.number code) (by decide)) hurl)
    (.plain (by decide))) (.quote haction)) (.plain (by decide))

/-- A finding of the rule on owners is grounded in a step, or it is about a request that came to
    nothing. -/
theorem grounded_repoJacking {w : Workflow} {earlier : List String} {f : Finding}
    (h : f ∈ ((repoJacking.alone around w).run around.network earlier {}).1) :
    (∃ v ∈ w.visits, ∃ r, f = .ofReport "repo-jacking" r ∧ Grounded around v r) ∨
      ∃ st owner u error, .step st ∈ w.visits ∧ ownedUse? st = some (owner, u) ∧
        Fails around.network error ∧ f = .ofReport "repo-jacking" (errorReport owner error) := by
  rw [run_alone_repoJacking] at h
  obtain ⟨r, hr, rfl⟩ := List.mem_map.1 h
  obtain ⟨round, hround, hr⟩ := List.mem_flatMap.1 hr
  obtain ⟨hmem, before, url, hlast⟩ := mem_table_of_mem_rounds hround
  obtain ⟨⟨u, huse⟩, huses⟩ := uses_of_mem_byOwner (List.mem_of_mem_filter hmem)
  rw [Round.reports] at hr
  cases hverdict : Round.verdict round.last with
  | ok code =>
    rw [hverdict, ownerReports] at hr
    split at hr
    · cases hr
    · obtain ⟨u, hu, rfl⟩ := List.mem_map.1 hr
      obtain ⟨st, hst, huse⟩ := step_of_mem_usesIn (huses u hu)
      exact .inl ⟨.step st, hst, _, rfl, grounded_status huse (worded_status huse code)⟩
  | error error =>
    rw [hverdict] at hr
    cases List.mem_singleton.1 hr
    obtain ⟨st, hst, huse⟩ := step_of_mem_usesIn huse
    exact .inr ⟨st, round.owner, u, error, hst, huse, fails_of_verdict (hlast ▸ hverdict), rfl⟩

end Rule

/-! ### Findings -/

/-- The finding is about a request for the owner of an action that a step uses, which came to nothing
    with an error that it quotes. -/
def Finding.IsNetworkError (around : Surroundings) (w : Workflow) (f : Finding) : Prop :=
  ∃ st owner u error, .step st ∈ w.visits ∧ Rule.ownedUse? st = some (owner, u) ∧
    Rule.Fails around.network error ∧ f = .ofReport "repo-jacking" (Rule.errorReport owner error)

section Findings

variable {around : Surroundings} {w : Workflow} {f : Finding}

/-- Each finding of the catalog is grounded in a part of the walk, or is about a request that came to
    nothing. -/
theorem grounded_of_mem_dispatch {rules : List Rule} (hrules : rules ⊆ catalog)
    (hf : f ∈ (dispatch around rules w).findings) :
    (∃ v ∈ w.visits, ∃ r, f = .ofReport f.rule r ∧ Grounded around v r) ∨
      f.IsNetworkError around w := by
  by_cases hrule : f.rule ∈ placingRules
  -- the rules that place by offsets are accounted for already, the others are taken one by one
  · obtain ⟨v, hv, r, heq, haccounted⟩ := accounted_of_mem_dispatch hrules hf hrule
    exact .inl ⟨v, hv, r, heq, grounded_of_accounted haccounted⟩
  · obtain ⟨rule, hmem, before, hf⟩ := mem_findings_dispatch hf
    have hident := rule_of_mem_alone hf
    rw [hident] at hrule ⊢
    have hcatalog := hrules hmem
    simp only [catalog, List.mem_cons, List.not_mem_nil, or_false] at hcatalog
    rcases hcatalog with
      rfl | rfl | rfl | rfl | rfl | rfl | rfl | rfl | rfl | rfl | rfl | rfl | rfl | rfl
    any_goals (apply absurd _ hrule; decide)
    · exact .inl (exists_report_of_stepLook (fun _ _ => Rule.grounded_localAction) hf)
    · exact .inl (exists_report_of_look (fun _ _ => Rule.grounded_oidcAction) hf)
    · exact .inl (exists_report_of_memoryless Rule.memoryless_runnerLabel
        (fun _ _ => Rule.grounded_runnerLabel) hf)
    · exact .inl (exists_report_of_look (fun _ _ => Rule.grounded_unsecuredCommands) hf)
    · exact .inl (exists_report_of_look (fun _ _ => Rule.grounded_credentials) hf)
    · exact .inl (exists_report_of_look (fun _ _ => Rule.grounded_debugExternalTrigger) hf)
    · exact .inl (exists_report_of_look (fun _ _ => Rule.grounded_debugArtefacts) hf)
    · exact Rule.grounded_repoJacking hf

/-- The texts that messages about a workflow may quote: those of its parts, and the causes for which
    requests come to nothing. -/
def Workflow.Quotes (around : Surroundings) (w : Workflow) (x : String) : Prop :=
  (∃ v ∈ w.visits, Quotable around v x) ∨ ∃ error, Rule.Fails around.network error ∧ x ∈ error.causes

theorem worded_of_mem_dispatch {rules : List Rule} (hrules : rules ⊆ catalog)
    (hf : f ∈ (dispatch around rules w).findings) : Worded (w.Quotes around) f.message := by
  rcases grounded_of_mem_dispatch hrules hf with ⟨v, hv, r, heq, -, hworded⟩ | herror
  · rw [show f.message = r.message from congrArg Finding.message heq]
    exact hworded.mono fun x hx => .inl ⟨v, hv, hx⟩
  · obtain ⟨st, owner, u, error, hst, huse, hfails, rfl⟩ := herror
    have howner : w.Quotes around owner := .inl ⟨.step st, hst, .owner huse⟩
    have hurl : Worded (w.Quotes around) (Rule.ownerUrl owner) :=
      .append (.plain (by decide)) (.quote howner)
    have hmessage : Worded (w.Quotes around) error.message := by
      refine .intercalate (.plain (by decide)) (List.forall_mem_cons.2 ⟨.plain ?_, fun x hx => ?_⟩)
      · cases error <;> (rw [ClientError.title]; decide)
      · exact .quote (.inr ⟨error, hfails, hx⟩)
    exact .append (.append (.between (by decide) hurl (by decide)) hmessage) (.plain (by decide))

end Findings

end WorkflowAudit
