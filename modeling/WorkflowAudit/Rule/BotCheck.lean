import WorkflowAudit.Expr.Fragment
import WorkflowAudit.Rule.Basic

/-!
Conditions that trust an actor because it looks like a bot. The actor is whoever caused the latest
event and not the author of the change, so anyone who gets a bot to act meets such a condition.
-/

namespace WorkflowAudit

namespace Expr

/-- The expression names the actor of an event. -/
def isActor (e : Expr) : Bool :=
  match e.contextPath? with
  | some path => ["github.actor", "github.triggering_actor"].any (Text.sameIgnoringCase · path)
  | none => false

/-- The expression is the login of a bot. -/
def isBotLogin : Expr → Bool
  | .literal _ (.string s) => Text.endsWith s "[bot]"
  | _ => false

/-- The expression compares an actor with the login of a bot. -/
def comparesBot : Expr → Bool
  | .binary _ op l r =>
    (op = .eq || op = .ne) && ((l.isActor && r.isBotLogin) || (l.isBotLogin && r.isActor))
  | .call _ function args =>
    ["contains", "startsWith", "endsWith"].any (Text.sameIgnoringCase function) &&
      args.any isActor && args.any isBotLogin
  | _ => false

mutual

/-- The offsets of the comparisons of actors with bots in an expression. -/
def botChecks (e : Expr) : List Nat :=
  (if e.comparesBot then [e.origin.offset] else []) ++
    match e with
    | .literal .. | .var .. => []
    | .property _ r _ | .filter _ r => botChecks r
    | .index _ a k => botChecks a ++ botChecks k
    | .call _ _ args => botChecksIn args
    | .binary _ _ l r => botChecks l ++ botChecks r
    | .not _ a => botChecks a

/-- The offsets of the comparisons in a list of expressions. -/
def botChecksIn : List Expr → List Nat
  | [] => []
  | e :: rest => botChecks e ++ botChecksIn rest

end

end Expr

namespace Rule

open Yaml (Scalar)

/-- The expressions of a condition, which may be bare or written in fragments, with their offsets. -/
def conditionExprs (condition : Scalar) : List (Nat × Expr) :=
  if condition.hasExpression then
    (Fragment.all condition.value).filterMap fun f => f.expr.toOption.map (f.body, ·)
  else ((Expr.parse condition.value).toOption.map (0, ·)).toList

/-- The reports on a condition. -/
def conditionReports (condition : Option Scalar) : List Report :=
  match condition with
  | none => []
  | some c => (conditionExprs c).flatMap fun (base, e) => e.botChecks.map fun offset =>
      ⟨c.positionAt (base + offset),
        "If statement based on the github.actor variable and a bot identity."⟩

/-- Reports conditions that are about a bot. -/
def botCheck : Rule :=
  stateless "bot-check" "Checks for if statements that are based on a bot identity" true
    (fun _ => true) fun _ v =>
      match v with
      | .enterJob j => conditionReports j.condition
      | .step s => conditionReports s.condition
      | _ => []

end Rule

end WorkflowAudit
