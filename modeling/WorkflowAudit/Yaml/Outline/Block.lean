import WorkflowAudit.Yaml.Outline.Flow

/-!
Block nodes: sequences of dashes, mappings of keys, blocks of text, and flow nodes inside them.
A collection opens a block at the column of its first token, and each further token of it stands at
that column; an implicit key stands on one row with its colon.
-/

namespace WorkflowAudit.Yaml

/-- What may stand where a block node is wanted: a collection on the same row as the token before, and
    a sequence at the column of the mapping around. -/
structure Slot where
  compact : Bool
  aligned : Bool

namespace Slot

/-- After a dash. -/
def item : Slot := ⟨true, false⟩

/-- After the mark of an explicit key or value. -/
def explicit : Slot := ⟨true, true⟩

/-- After an implicit key's colon. -/
def value : Slot := ⟨false, true⟩

/-- A document without a marker before it. -/
def document : Slot := ⟨true, false⟩

/-- A document after its marker. -/
def marked : Slot := ⟨false, false⟩

end Slot

/-- Whether an implicit key that began on `row` ends here: a colon follows on that same row. -/
def keyEnds (row : Nat) : Reader Bool := do
  let stopRow := (← get).cursor.row
  let l ← Reader.look
  return row = stopRow && !l.newRow && l.isMark ':'

mutual

/-- Reads the node that a slot holds, `absent` if there is none. -/
def readNode (fuel : Nat) (slot : Slot) : Reader Outline :=
  match fuel with
  | 0 => failure
  | fuel + 1 => do
    let l ← Reader.look
    let s ← get
    if l.closes s || l.atEnd || l.atMarker then return .absent
    else if !l.newRow then readAt fuel l slot.compact
    else if l.isDeeper s then readAt fuel l true
    else if l.isAligned s && slot.aligned && l.isMark '-' then readSequence fuel l
    else return .absent

/-- Reads a node that begins here; `collections` tells whether it may be a collection. -/
def readAt (fuel : Nat) (l : Look) (collections : Bool) : Reader Outline :=
  match fuel with
  | 0 => failure
  | fuel + 1 => do
    if collections && l.isMark '-' then
      Reader.require (!l.tab)
      readSequence fuel l
    else if collections && (l.isMark '?' || l.isMark ':') then
      Reader.openBlock .map l.cursor.col
      readMapping fuel l.cursor.index []
    else if l.isChar '|' || l.isChar '>' then readText l
    else if l.atProperty then
      let p ← readProperties l
      readWithProperties fuel p collections
    else
      let node ← readContent fuel false l
      if collections && (← keyEnds node.row) then readKeyed fuel node.start node.outline
      else return node.outline

/-- Reads what follows properties. On their row stands a flow node, a block of text, or, when
    `collections` is set, the rest of an implicit key; on a deeper row stands any node. -/
def readWithProperties (fuel : Nat) (p : Properties) (collections : Bool) : Reader Outline :=
  match fuel with
  | 0 => failure
  | fuel + 1 => do
    let l ← Reader.look
    let s ← get
    if l.closes s || l.atEnd || l.atMarker then return p.alone
    else if !l.newRow then
      if l.isChar '|' || l.isChar '>' then return p.attach (← readText l)
      else if collections && l.isMark ':' && (← keyEnds p.row) then readKeyed fuel p.start p.alone
      else
        Reader.require (!l.isChar '*')
        let node ← readContent fuel false l
        if collections && (← keyEnds p.row) then readKeyed fuel p.start (p.attach node.outline)
        else return p.attach node.outline
    else if l.isDeeper s then
      if l.isMark '-' || l.isMark '?' || l.isMark ':' || l.isChar '|' || l.isChar '>' then
        return p.attach (← readAt fuel l true)
      else if l.atProperty then
        -- a mapping whose first key has properties of its own, or further properties of this node
        (do return p.attach (← readKeyWithProperties fuel l)) <|>
          (do
            let q ← readProperty l
            let some both := p.merge? q | failure
            readWithProperties fuel both false)
      else
        let node ← readContent fuel false l
        if ← keyEnds node.row then return p.attach (← readKeyed fuel node.start node.outline)
        else
          Reader.require (!l.isChar '*')
          return p.attach node.outline
    else if l.isAligned s && l.isMark '-' && s.kind = .map then
      return p.attach (← readSequence fuel l)
    else return p.alone

/-- Reads a mapping whose first key begins with properties. -/
def readKeyWithProperties (fuel : Nat) (l : Look) : Reader Outline :=
  match fuel with
  | 0 => failure
  | fuel + 1 => do
    let p ← readProperties l
    let m ← Reader.look
    Reader.require (!m.newRow && !m.isChar '*')
    if m.isMark ':' then
      Reader.require (← keyEnds p.row)
      readKeyed fuel p.start p.alone
    else
      let node ← readContent fuel false m
      Reader.require (← keyEnds p.row)
      readKeyed fuel p.start (p.attach node.outline)

/-- Reads a mapping whose first key, an implicit one, has been read up to its colon. -/
def readKeyed (fuel : Nat) (start : Nat) (key : Outline) : Reader Outline :=
  match fuel with
  | 0 => failure
  | fuel + 1 => do
    Reader.openForKey
    let l ← Reader.look
    Reader.moveTo (l.cursor.along 1)
    let value ← readNode fuel .value
    readMapping fuel start [.pair start key value]

/-- Reads a block sequence from its first dash, or a sequence at the column of its parent. -/
def readSequence (fuel : Nat) (l : Look) : Reader Outline :=
  match fuel with
  | 0 => failure
  | fuel + 1 => do
    Reader.openBlock .seq l.cursor.col
    Reader.moveTo (l.cursor.along 1)
    readDashes fuel l.cursor.index l.cursor.index []

/-- Reads the item after a dash at `dash`, and the items after it. -/
def readDashes (fuel : Nat) (start dash : Nat) (items : List Outline) : Reader Outline :=
  match fuel with
  | 0 => failure
  | fuel + 1 => do
    let item ← readNode fuel .item
    let items := (if item.isAbsent then .empty dash else item) :: items
    let l ← Reader.look
    if l.closes (← get) then
      Reader.closeBlock
      return .sequence start items.reverse
    else
      Reader.require (l.isAligned (← get) && l.isMark '-')
      Reader.moveTo (l.cursor.along 1)
      readDashes fuel start l.cursor.index items

/-- Reads the pairs of a block mapping, from the next one to its end. -/
def readMapping (fuel : Nat) (start : Nat) (pairs : List Outline) : Reader Outline :=
  match fuel with
  | 0 => failure
  | fuel + 1 => do
    let l ← Reader.look
    let s ← get
    if !pairs.isEmpty && l.closes s then
      Reader.closeBlock
      return .mapping start pairs.reverse
    else
      Reader.require (pairs.isEmpty || l.isAligned s)
      let pair ← readPair fuel l
      readMapping fuel start (pair :: pairs)

/-- Reads one pair of a block mapping that is already open. -/
def readPair (fuel : Nat) (l : Look) : Reader Outline :=
  match fuel with
  | 0 => failure
  | fuel + 1 => do
    let start := l.cursor.index
    if l.isMark '?' then
      Reader.moveTo (l.cursor.along 1)
      let key ← readNode fuel .explicit
      let m ← Reader.look
      if m.isAligned (← get) && m.isMark ':' then
        Reader.moveTo (m.cursor.along 1)
        return .pair start key (← readNode fuel .explicit)
      else return .pair start key .absent
    else if l.isMark ':' then
      Reader.moveTo (l.cursor.along 1)
      return .pair start .absent (← readNode fuel .explicit)
    else
      let key ← if l.atProperty then do
          let p ← readProperties l
          let m ← Reader.look
          if m.isMark ':' then pure p.alone
          else
            Reader.require (!m.newRow && !m.isChar '*')
            pure (p.attach (← readContent fuel false m).outline)
        else do pure (← readContent fuel false l).outline
      Reader.require (← keyEnds l.cursor.row)
      Reader.openForKey
      let m ← Reader.look
      Reader.moveTo (m.cursor.along 1)
      return .pair start key (← readNode fuel .value)

end

end WorkflowAudit.Yaml
