import WorkflowAudit.Yaml.Layout
import WorkflowAudit.Yaml.Outline
import WorkflowAudit.Text.Ascii

/-!
Properties of nodes: an anchor, which names the node, and a tag, which is read and then forgotten.
-/

namespace WorkflowAudit.Yaml

/-- The properties of a node that have been read, and where the first of them begins. -/
structure Properties where
  start : Nat
  row : Nat
  anchor : Option String
  tagged : Bool

namespace Properties

/-- Whether both properties are there. -/
def isFull (p : Properties) : Bool :=
  p.anchor.isSome && p.tagged

/-- The node with its anchor. -/
def attach (p : Properties) (content : Outline) : Outline :=
  match p.anchor with
  | some name => .anchored name content
  | none => content

/-- The node that has properties and no content. -/
def alone (p : Properties) : Outline :=
  p.attach (.empty p.start)

/-- Two properties together; they must be of different kinds. -/
def merge? (p q : Properties) : Option Properties :=
  if (p.anchor.isSome && q.anchor.isSome) || (p.tagged && q.tagged) then none
  else some ⟨p.start, p.row, p.anchor.or q.anchor, p.tagged || q.tagged⟩

end Properties

/-- The width of a run of identifier characters and percent escapes. -/
def uriWidth (allowed : Char → Bool) : List Char → Nat
  | '%' :: a :: b :: rest =>
    if Text.isHexDigit a && Text.isHexDigit b then 3 + uriWidth allowed rest else 0
  | c :: rest => if allowed c then 1 + uriWidth allowed rest else 0
  | [] => 0

/-- The width of a tag after its first exclamation mark: nothing, an identifier in angle brackets, or
    a suffix that may follow a handle. -/
def tagWidth? (cs : List Char) : Option Nat :=
  if whiteAhead cs then some 0
  else match cs with
    | '<' :: rest =>
      let n := uriWidth isUriChar rest
      if n ≠ 0 && (rest.drop n).head? = some '>' then some (n + 2) else none
    | _ =>
      let word := (cs.takeWhile isWordChar).length
      let handle := if (cs.drop word).head? = some '!' then word + 1 else 0
      let suffix := uriWidth isTagChar (cs.drop handle)
      if suffix = 0 then none else some (handle + suffix)

/-- Whether a property begins here. -/
def Look.atProperty (l : Look) : Bool :=
  l.isChar '&' || l.isChar '!'

/-- Reads one property. -/
def readProperty (l : Look) : Reader Properties := do
  Reader.noteKey l
  let rest := l.cursor.rest.drop 1
  if l.isChar '&' then
    let name := rest.takeWhile isAnchorChar
    Reader.require (!name.isEmpty)
    Reader.moveTo (l.cursor.along (name.length + 1))
    return ⟨l.cursor.index, l.cursor.row, some (String.ofList name), false⟩
  else
    let some n := tagWidth? rest | failure
    Reader.moveTo (l.cursor.along (n + 1))
    return ⟨l.cursor.index, l.cursor.row, none, true⟩

/-- Reads the properties that stand on one row. -/
def readProperties (l : Look) : Reader Properties := do
  let first ← readProperty l
  let l ← Reader.look
  if !l.newRow && l.atProperty then
    let second ← readProperty l
    let some both := first.merge? second | failure
    return both
  else return first

end WorkflowAudit.Yaml
