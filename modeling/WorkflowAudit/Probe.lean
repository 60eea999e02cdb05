/-!
Asking the network whether an address exists. A probe is what the network answers: a function of the
address and of the requests made before, so that any behaviour over time can be expressed. A dialog is
what is asked: each next request may depend on the answers so far, and other requests may be made by
others between two of its own.
-/

namespace WorkflowAudit

/-- Why no status came back. -/
inductive ClientError where
  /-- The request failed, for a cause that may have causes of its own. -/
  | request (causes : List String)
  /-- The token cannot stand in a header. -/
  | invalidToken (cause : String)
  /-- What came back is no answer. -/
  | unexpected (what : String)
  deriving DecidableEq, Repr

namespace ClientError

/-- What kind of error it is. -/
def title : ClientError → String
  | .request _ => "request error while accessing GitHub"
  | .invalidToken _ => "invalid token header"
  | .unexpected _ => "unexpected response from GitHub"

/-- What has brought it about, the nearest first. -/
def causes : ClientError → List String
  | .request causes => causes
  | .invalidToken cause => [cause]
  | .unexpected what => [what]

/-- The message of an error, with its causes after what it is. -/
def message (error : ClientError) : String :=
  ": ".intercalate (error.title :: error.causes)

end ClientError

/-- The answer to a request. -/
inductive Answer where
  | status (code : Nat)
  | failure (error : ClientError)
  deriving DecidableEq, Repr

/-- The network, as far as addresses are asked for. -/
structure Probe where
  /-- The answer for an address after the `earlier` requests, the latest last. -/
  answer : (earlier : List String) → (url : String) → Answer

/-- A network on which nothing answers. -/
def Probe.dead : Probe where
  answer _ _ := .failure (.request ["no connection"])

/-- What has been done on the network: the addresses asked for, the latest last, and the seconds
    waited. -/
structure Activity where
  requests : List String := []
  waited : Nat := 0
  deriving DecidableEq, Repr

/-- A result that takes requests, one after the other, and waiting between them. -/
inductive Dialog (α : Type) where
  | done (result : α)
  | ask (url : String) (next : Answer → Dialog α)
  | wait (seconds : Nat) (next : Dialog α)

namespace Dialog

/-- One dialog, and then another that its result decides on. -/
def bind {α β : Type} (d : Dialog α) (f : α → Dialog β) : Dialog β :=
  match d with
  | done result => f result
  | ask url next => .ask url fun answer => (next answer).bind f
  | wait seconds next => .wait seconds (next.bind f)

instance : Monad Dialog where
  pure := done
  bind := bind

/-- Holds a dialog with the network. The requests that have been made before it are followed by its
    own, with no others between them. -/
def run {α : Type} (probe : Probe) (earlier : List String) : Dialog α → Activity → α × Activity
  | done result, activity => (result, activity)
  | ask url next, activity =>
    run probe earlier (next (probe.answer (earlier ++ activity.requests) url))
      { activity with requests := activity.requests ++ [url] }
  | wait seconds next, activity =>
    run probe earlier next { activity with waited := activity.waited + seconds }

end Dialog

end WorkflowAudit
