import WorkflowAudit.Text.Ascii
import WorkflowAudit.Text.Blank
import WorkflowAudit.Text.Bytes

/-!
Where repositories are hosted, and the token that gives access to them.
-/

namespace WorkflowAudit

/-- A host of repositories. -/
inductive Host where
  /-- The public service, or a part of it under a name of its own. -/
  | standard (name : String)
  /-- An installation elsewhere. -/
  | enterprise (name : String)
  deriving DecidableEq, Repr

/-- Why a host, a token or a client is refused. -/
inductive AccessError where
  | hostIsUrl
  | emptyToken
  | unsendableToken
  deriving DecidableEq, Repr

/-- The message for a refusal. -/
def AccessError.message : AccessError → String
  | .hostIsUrl => "must be a domain name, not a URL"
  | .emptyToken => "GitHub token cannot be empty"
  | .unsendableToken => "invalid token header"

namespace Host

/-- The host when none is named. -/
def default : Host := .standard "github.com"

/-- The name of a host. -/
def name : Host → String
  | .standard name | .enterprise name => name

/-- The host of a name, which is compared in any case. -/
def ofName (name : String) : Except AccessError Host :=
  let lower := Text.lower name
  if Text.startsWith lower "https://" || Text.startsWith lower "http://" then .error .hostIsUrl
  else if lower = "github.com" || Text.endsWith lower ".ghe.com" then .ok (.standard name)
  else .ok (.enterprise name)

end Host

/-- An access token: a text that is not blank, without the white space around it. -/
structure AccessToken where
  text : String
  deriving DecidableEq, Repr

namespace AccessToken

/-- Reads a token. -/
def ofText (text : String) : Except AccessError AccessToken :=
  let text := Text.trim text
  if text.isEmpty then .error .emptyToken else .ok ⟨text⟩

/-- The character can be sent in a header. -/
def isSendable (c : Char) : Bool :=
  c = '\t' || (32 ≤ c.toNat && c.toNat ≠ 127)

/-- The header that sends the token. -/
def header (t : AccessToken) : Except AccessError String :=
  if t.text.toList.all isSendable then .ok ("Bearer " ++ t.text) else .error .unsendableToken

end AccessToken

end WorkflowAudit
