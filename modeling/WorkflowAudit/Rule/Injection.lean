import WorkflowAudit.Rule.Basic
import WorkflowAudit.Taint

/-!
Untrusted input in the expressions of a step.
-/

namespace WorkflowAudit.Rule

open Yaml (Scalar)

/-- The reports on the expressions of a scalar. -/
def injectionsIn (untrusted : Trie) (s : Scalar) : List Report :=
  if s.hasExpression then (Taint.ofScalar untrusted s).map fun t => ⟨t.position, t.message⟩ else []

/-- The scalars of a step in which expressions are looked at. -/
def injectionPoints (scriptOnly : Bool) (s : Step) : List Scalar :=
  match s.body with
  | .run script workingDirectory _ => script :: workingDirectory.toList
  | .uses action inputs entrypoint args =>
    if scriptOnly then []
    else action :: inputs.map (fun (_, i) => i.value) ++ entrypoint.toList ++ args.toList

/-- Reports untrusted input in scripts and in what actions are given. -/
def expressionInjection : Rule :=
  ofSteps "expression-injection" "Checks for expression injection in scripts and action inputs"
    fun around s =>
      (injectionPoints around.settings.scriptOnly s).flatMap (injectionsIn around.untrusted)

end WorkflowAudit.Rule
