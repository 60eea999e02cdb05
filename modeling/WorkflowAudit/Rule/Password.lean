import WorkflowAudit.Rule.Basic

/-!
Passwords that are written into a workflow.
-/

namespace WorkflowAudit.Rule

/-- The report on the password of a container, which a section of a job defines. -/
def passwordReports (container : Container) (part : String) : List Report :=
  match container.credentials.bind (·.password) with
  | none => []
  | some password =>
    if password.value.isEmpty || password.hasExpression then []
    else [⟨password.position,
      s!"\"password\" section in {part} has hard-coded password. use secrets for credentials"⟩]

/-- The reports on the containers of a job. -/
def jobPasswordReports (j : Job) : List Report :=
  (match j.container with
    | some container => passwordReports container "\"container\" section"
    | none => []) ++
  j.services.flatMap fun (id, service) => passwordReports service s!"\"{id}\" service"

/-- Reports passwords of containers and services. -/
def credentials : Rule :=
  stateless "credentials"
    "Checks for hard-coded credentials in container and service definitions" false (fun _ => true)
    fun _ v =>
      match v with
      | .enterJob j => jobPasswordReports j
      | _ => []

end WorkflowAudit.Rule
