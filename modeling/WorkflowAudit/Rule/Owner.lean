import WorkflowAudit.Rule.Basic

/-!
Actions whose owner is gone. When an account is deleted or renamed, anybody can register the freed name
and publish an action under it, and every workflow that still uses the old name runs the new owner's
code. The owners of a workflow's actions are noted during the walk and asked for at its end.
-/

namespace WorkflowAudit.Rule

/-- Owners that are known to exist. -/
def popularOwners : List String :=
  ["aochmann", "bettermarks", "blablacar", "8398a7", "actions", "actions-cool", "actions-rs",
    "aws-actions", "azure", "Azure", "bahmutov", "codecov", "dawidd6", "dessant", "docker", "dorny",
    "dtolnay", "EnricoMi", "enriikke", "erlef", "game-ci", "getsentry", "github", "githubocto",
    "golangci", "goreleaser", "gradle", "haskell", "JamesIves", "marvinpinto", "microsoft",
    "mikepenz", "msys2", "ncipollo", "nwtgck", "octokit", "peaceiris", "peter-evans", "preactjs",
    "ReactiveCircus", "reviewdog", "rhysd", "ridedott", "rtCamp", "ruby", "shivammathur",
    "softprops", "subosito", "Swatinem", "treosh", "wearerequired"]

/-- How often an address is asked for before giving up. -/
def maxAttempts : Nat := 10

/-- The status of a request that came too soon. -/
def tooManyRequests : Nat := 429

/-- A use of an action. -/
structure Usage where
  action : String
  position : Position
  deriving DecidableEq, Repr

/-- How far the rule has come: noting the uses of actions by owner, or done with asking. -/
inductive OwnerState where
  | noting (owners : Table (List Usage))
  | asked
  deriving DecidableEq, Repr

/-- The owner in the name of an action: what stands before its first slash. -/
def ownerOf? (action : String) : Option String :=
  let owner := action.toList.takeWhile (· ≠ '/')
  if owner.length = action.length then none else some (String.ofList owner)

/-- The owner of the action that a step uses, with the use. Actions of the project itself, images and
    names with expressions have no owner. -/
def ownedUse? (s : Step) : Option (String × Usage) :=
  match s.body with
  | .run .. => none
  | .uses action _ _ _ =>
    if Text.startsWith action.value "./" || Text.startsWith action.value "docker://" ||
        action.hasExpression then none
    else (ownerOf? action.value).map (·, ⟨action.value, action.position⟩)

/-- Notes a use under its owner. -/
def noteUse (owners : Table (List Usage)) (owner : String) (u : Usage) : Table (List Usage) :=
  owners.insert owner ((owners.lookup owner).getD [] ++ [u])

/-- Asks for an address, up to `attempts` more times while the answer is that it is too soon; each wait
    is a second longer than the one before. -/
def fetch (url : String) : (attempts : Nat) → Dialog (Except ClientError Nat)
  | 0 => .done (.error (.unexpected s!"still rate limited after {maxAttempts} attempts"))
  | attempts + 1 => .ask url fun answer =>
    match answer with
    | .failure error => .done (.error error)
    | .status code =>
      if code ≠ tooManyRequests then .done (.ok code)
      else if attempts = 0 then fetch url attempts
      else .wait (maxAttempts - attempts) (fetch url attempts)

/-- The address of an owner. -/
def ownerUrl (owner : String) : String :=
  "https://github.com/" ++ owner

/-- The reports on the answer for an owner's address. -/
def ownerReports (url : String) (usages : List Usage) : Except ClientError Nat → List Report
  | .ok code =>
    if code = 200 then []
    else usages.map fun u => ⟨u.position,
      s!"Got a {code} status code while fetching \"{url}\". You might be able to perform a repo-jacking attack to takeover the \"{u.action}\" action."⟩
  | .error error => [⟨⟨0, 0⟩,
      s!"Error while fetching \"{url}\": \"{error.message}\". Check you internet connectivity."⟩]

/-- Asks for owners one after the other, those that are known left out. -/
def askOwners (known : List String) : Table (List Usage) → Dialog (List Report)
  | [] => .done []
  | (owner, usages) :: rest =>
    if known.contains owner then askOwners known rest
    else do
      let url := ownerUrl owner
      let answer ← fetch url maxAttempts
      let others ← askOwners known rest
      return ownerReports url usages answer ++ others

/-- One part of the walk: the use of an action is noted. -/
def ownerVisit : OwnerState → Visit → OwnerState
  | .noting owners, .step step =>
    match ownedUse? step with
    | some (owner, u) => .noting (noteUse owners owner u)
    | none => .noting owners
  | s, _ => s

/-- The end of the walk: the owners are asked for, once. -/
def ownerLeave (settings : Settings) : OwnerState → Dialog (OwnerState × List Report)
  | .noting owners => do
    let reports ← askOwners (popularOwners ++ settings.knownOwners) owners
    return (.asked, reports)
  | .asked => .done (.asked, [])

/-- Reports actions whose owner cannot be found on the network. -/
def repoJacking : Rule where
  ident := "repo-jacking"
  description := "Verifies that external actions point to an existing GitHub user or organization"
  honoursFilter := false
  canRun around := around.settings.connected && around.probe.isSome
  State := OwnerState
  start := .noting []
  visit _ s v := (ownerVisit s v, [])
  leave around s _ := ownerLeave around.settings s

end WorkflowAudit.Rule
