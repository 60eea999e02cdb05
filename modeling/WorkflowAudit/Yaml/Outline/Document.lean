import WorkflowAudit.Yaml.Outline.Block

/-!
Streams of documents. A document may be announced by directives and a marker of three hyphens, and may
end with a marker of three dots. A document without the first marker comes first or after the second.
-/

namespace WorkflowAudit.Yaml

/-- Reads one directive and tells whether its kind is unknown. -/
def readDirective (l : Look) : Reader Bool := do
  let name := (l.cursor.rest.drop 1).takeWhile isVisible
  let after := l.cursor.along (name.length + 1)
  Reader.require (!name.isEmpty && whiteAhead after.rest)
  let row := after.rest.takeWhile fun c => !isBreak c && c ≠ '\x00'
  let words (n : Nat) : List (List Char) → Bool
    | ws => (ws.takeWhile fun w => w.head? ≠ some '#').length = n
  let params := (String.ofList row).split (fun c => isBlank c) |>.toList.map (·.copy.toList)
    |>.filter (!·.isEmpty)
  Reader.moveTo (after.along row.length)
  if name = "YAML".toList then
    let version := params.headD []
    let major := version.takeWhile Char.isDigit
    let minor := version.drop (major.length + 1)
    Reader.require (words 1 params && !major.isEmpty && (version.drop major.length).head? = some '.' &&
      !minor.isEmpty && minor.all Char.isDigit)
    return false
  else if name = "TAG".toList then
    let handle := params.headD []
    let lead := (params.drop 1).headD []
    let inner := (handle.drop 1).dropLast
    Reader.require (words 2 params && handle.head? = some '!' &&
      (handle.length = 1 || (handle.getLast? = some '!' && inner.all isWordChar)))
    Reader.require (match lead with
      | '!' :: rest => uriWidth isUriChar rest = rest.length
      | rest => uriWidth isTagChar (rest.take 1) = 1 && uriWidth isUriChar rest = rest.length)
    return false
  else return true

/-- Reads directives, at least one, and the marker after them; gives the place of the first of unknown
    kind. -/
def readDirectives (fuel : Nat) (reserved : Option Nat) : Reader (Option Nat) :=
  match fuel with
  | 0 => failure
  | fuel + 1 => do
    let l ← Reader.look
    if l.cursor.col = 0 && l.isChar '%' then
      let unknown ← readDirective l
      readDirectives fuel (reserved.or (if unknown then some l.cursor.index else none))
    else
      Reader.require (l.atMarker && l.isChar '-')
      return reserved

/-- Reads the rest of a stream. `ended` tells whether a document without a marker may come next. -/
def readDocuments (fuel : Nat) (ended : Bool) (documents : List Document) : Reader (List Document) :=
  match fuel with
  | 0 => failure
  | fuel + 1 => do
    let l ← Reader.look
    let start := l.cursor.index
    if l.cursor.rest.isEmpty then return documents.reverse
    else if l.atMarker && l.isChar '.' then
      Reader.moveTo (l.cursor.along 3)
      readDocuments fuel true (if ended then ⟨start, none, .absent⟩ :: documents else documents)
    else if l.atMarker || (ended && l.cursor.col = 0 && l.isChar '%') then
      let reserved ← readDirectives fuel none
      let m ← Reader.look
      Reader.moveTo (m.cursor.along 3)
      let content ← readNode fuel .marked
      readDocuments fuel false (⟨start, reserved, content⟩ :: documents)
    else
      Reader.require ended
      let content ← readNode fuel .document
      Reader.require (match content with
        | .absent => false
        | _ => true)
      readDocuments fuel false (⟨start, none, content⟩ :: documents)

/-- The documents of a text, or nothing if the text is not well formed. -/
def documents? (cs : List Char) : Option (List Document) :=
  (readDocuments (20 * (cs.length + 4)) true []).run' (Layout.ofText cs)

end WorkflowAudit.Yaml
