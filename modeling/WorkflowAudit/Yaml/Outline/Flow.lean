import WorkflowAudit.Yaml.Outline.Scalar
import WorkflowAudit.Yaml.Outline.Properties

/-!
Flow nodes: aliases, plain and quoted scalars, and collections in brackets and braces. A collection may
spread over rows that are deeper than the block around it; its closing mark may also stand at the
column of that block.
-/

namespace WorkflowAudit.Yaml

/-- A flow node, where it begins, and whether it ends with a quote or a bracket, so that a colon right
    after it needs no blank. -/
structure FlowNode where
  outline : Outline
  start : Nat
  row : Nat
  delimited : Bool

namespace Look

/-- A colon that parts key and value, before white or a flow indicator. -/
def atFlowColon (l : Look) : Bool :=
  match l.cursor.rest with
  | ':' :: rest => whiteAhead rest || (match rest with
    | c :: _ => c = ',' || c = ']' || c = '\x7d'
    | [] => true)
  | _ => false

/-- A mark that ends an item of a flow collection. -/
def atItemEnd (l : Look) : Bool :=
  l.isChar ',' || l.isChar ']' || l.isChar '\x7d'

/-- A closing mark in a place where it may stand. -/
def atClosing (l : Look) (s : Layout) (closing : Char) : Bool :=
  l.isChar closing && (l.isInside s || l.isAligned s)

end Look

mutual

/-- Reads a flow node without properties. -/
def readContent (fuel : Nat) (inFlow : Bool) (l : Look) : Reader FlowNode :=
  match fuel with
  | 0 => failure
  | fuel + 1 => do
    Reader.noteKey l
    let node (outline : Outline) (delimited : Bool) : FlowNode :=
      ⟨outline, l.cursor.index, l.cursor.row, delimited⟩
    match l.cursor.char? with
    | some '*' =>
      let name := (l.cursor.rest.drop 1).takeWhile isAnchorChar
      Reader.require (!name.isEmpty)
      Reader.moveTo (l.cursor.along (name.length + 1))
      return node (.alias l.cursor.index (String.ofList name)) false
    | some '"' => return node (← readQuoted l) true
    | some '\'' => return node (← readQuoted l) true
    | some '[' =>
      Reader.moveTo (l.cursor.along 1)
      return node (.sequence l.cursor.index (← readItems fuel false [])) true
    | some '\x7b' =>
      Reader.moveTo (l.cursor.along 1)
      return node (.mapping l.cursor.index (← readItems fuel true [])) true
    | _ => return node (← readPlain inFlow l) false

/-- Reads the items of a flow collection after its opening mark, and the closing mark. -/
def readItems (fuel : Nat) (isMap : Bool) (items : List Outline) : Reader (List Outline) :=
  match fuel with
  | 0 => failure
  | fuel + 1 => do
    let closing := if isMap then '\x7d' else ']'
    let l ← Reader.look
    if l.atClosing (← get) closing then
      Reader.moveTo (l.cursor.along 1)
      return items.reverse
    Reader.require (l.isInside (← get))
    let item ← readItem fuel isMap l
    let l ← Reader.look
    if l.atClosing (← get) closing then
      Reader.moveTo (l.cursor.along 1)
      return (item :: items).reverse
    Reader.require (l.isChar ',' && l.isInside (← get))
    Reader.moveTo (l.cursor.along 1)
    readItems fuel isMap (item :: items)

/-- Reads one item. In a sequence, a key and its colon stand on one row. -/
def readItem (fuel : Nat) (isMap : Bool) (l : Look) : Reader Outline :=
  match fuel with
  | 0 => failure
  | fuel + 1 => do
    let start := l.cursor.index
    if l.isMark '?' then
      Reader.moveTo (l.cursor.along 1)
      let m ← Reader.look
      if m.atItemEnd || m.atFlowColon then
        return .pair start .absent (← readValue fuel m.atFlowColon m)
      else
        Reader.require (m.isInside (← get))
        let key ← readFlowNode fuel m
        let m ← Reader.look
        let s ← get
        let colon := m.isInside s && if key.delimited then m.isChar ':' else m.atFlowColon
        return .pair start key.outline (← readValue fuel colon m)
    else if l.atFlowColon then
      return .pair start .absent (← readValue fuel true l)
    else
      let node ← readFlowNode fuel l
      let stopRow := (← get).cursor.row
      let m ← Reader.look
      let s ← get
      let near := if isMap then m.isInside s else !m.newRow && node.row = stopRow
      let colon := near && if node.delimited then m.isChar ':' else m.atFlowColon
      if colon || isMap then return .pair start node.outline (← readValue fuel colon m)
      else return node.outline

/-- Reads the value after a colon, when there is one. -/
def readValue (fuel : Nat) (colon : Bool) (l : Look) : Reader Outline :=
  match fuel with
  | 0 => failure
  | fuel + 1 => do
    if colon then
      Reader.moveTo (l.cursor.along 1)
      let m ← Reader.look
      if m.atItemEnd then return .absent
      else
        Reader.require (m.isInside (← get))
        return (← readFlowNode fuel m).outline
    else return .absent

/-- Reads a node inside a flow collection. -/
def readFlowNode (fuel : Nat) (l : Look) : Reader FlowNode :=
  match fuel with
  | 0 => failure
  | fuel + 1 => do
    if l.atProperty then
      let first ← readProperties l
      let m ← Reader.look
      let s ← get
      let both ← if m.newRow && m.isInside s && m.atProperty && !first.isFull then do
          let second ← readProperty m
          let some both := first.merge? second | failure
          pure both
        else pure first
      let m ← Reader.look
      let node (outline : Outline) (delimited : Bool) : FlowNode :=
        ⟨both.attach outline, both.start, both.row, delimited⟩
      if m.atItemEnd || m.atFlowColon then return node (.empty both.start) false
      Reader.require (m.isInside (← get) && !m.isChar '*')
      let content ← readContent fuel true m
      return node content.outline content.delimited
    else readContent fuel true l

end

end WorkflowAudit.Yaml
