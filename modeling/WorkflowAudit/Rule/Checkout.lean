import WorkflowAudit.Rule.Artifact

/-!
Steps that check out a revision which someone else may have chosen.
-/

namespace WorkflowAudit.Rule

/-- A command that checks out a revision given by a variable or by another command. -/
def manualCheckout : Pattern :=
  .inOrder [.alt (.literal "git") (.literal "gh pr"), .literal " checkout ",
    .run (.compl (.single '\n')), .one (.union (.single '$') (.single '\x60'))]

/-- A revision of letters only is the name of a branch and never comes from an event. -/
def isBranchName (revision : String) : Bool :=
  !revision.isEmpty && revision.toList.all Char.isAlpha

/-- The reports on a step that checks out a revision. -/
def checkoutReports (s : Step) : List Report :=
  match s.body with
  | .run script _ _ =>
    firstIn script manualCheckout
      "Use of \"git checkout\" in a bash script with a potentially dangerous reference."
  | .uses action inputs _ _ =>
    if action.hasExpression || !Text.startsWith action.value "actions/checkout" then []
    else match inputs.lookup "ref" with
      | some revision =>
        if isBranchName revision.value.value then []
        else [⟨action.position,
          "Use of 'actions/checkout' with external workflow trigger and custom ref."⟩]
      | none => []

/-- Reports checkouts of revisions that an attacker may control. -/
def dangerousCheckout : Rule :=
  ofSteps "dangerous-checkout" "Checks for checkouts of potentially attacker-controlled refs"
    fun _ => checkoutReports

end WorkflowAudit.Rule
