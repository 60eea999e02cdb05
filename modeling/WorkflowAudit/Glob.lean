import WorkflowAudit.Pattern.Basic

/-!
Globs for paths: `?` and `*` stand for what has no slash in it, `**` between slashes for any number of
directories, brackets for one of several characters and braces for one of several globs. Globs are
matched byte by byte, so a path is given as the characters with the codes of its bytes.
-/

namespace WorkflowAudit

/-- A part of a glob. -/
inductive GlobPart where
  | literal (c : Char)
  /-- Anything but a slash. -/
  | any
  /-- Any number of characters but slashes. -/
  | star
  /-- Any directories at the start of a path. -/
  | deepStart
  /-- A slash and all that follows. -/
  | deepEnd
  /-- A slash with any directories after it. -/
  | deepMiddle
  /-- A character in one of the ranges, or in none of them. -/
  | oneOf (negated : Bool) (ranges : List (Char × Char))
  | choice (branches : List (List GlobPart))

namespace Glob

/-- The bytes of a text as characters. -/
def bytes (s : String) : List Char :=
  s.toUTF8.toList.map fun b => Char.ofNat b.toNat

/-- What has been read of a choice: finished branches and the parts of the one being read, both last
    first. -/
structure Frame where
  branches : List (List GlobPart) := []
  parts : List GlobPart := []

/-- Where the reading of a glob stands: the frame being read, those around it from the innermost, the
    character before the next one, and whether a bracket was found that is never closed. -/
structure State where
  frame : Frame := {}
  outer : List Frame := []
  before : Option Char := none
  openBracket : Bool := false

namespace State

/-- One more part. -/
def push (s : State) (part : GlobPart) : State :=
  { s with frame := { s.frame with parts := part :: s.frame.parts } }

/-- The last part replaced by one that takes in the directories at that place. -/
def deepen (s : State) (last : Bool) : State :=
  match s.frame.parts with
  | .deepStart :: _ | .deepEnd :: _ => s
  | _ :: rest =>
    { s with frame := { s.frame with parts := (if last then .deepEnd else .deepMiddle) :: rest } }
  | [] => s

end State

/-- Reads the ranges of a bracket up to its end. -/
def readRanges (first open? : Bool) (ranges : List (Char × Char)) :
    List Char → Option (List (Char × Char) × List Char)
  | [] => none
  | c :: rest =>
    if c = ']' && !first then
      some ((if open? then ('-', '-') :: ranges else ranges).reverse, rest)
    else if c = '-' && !first && !open? then readRanges false true ranges rest
    else match open?, ranges with
      | true, (low, _) :: others => readRanges false false ((low, c) :: others) rest
      | _, _ => readRanges false false ((c, c) :: ranges) rest

/-- Reads a bracket after its opening. -/
def readBracket (cs : List Char) : Option (GlobPart × List Char) :=
  let (negated, cs) := match cs with
    | '!' :: rest | '^' :: rest => (true, rest)
    | _ => (false, cs)
  (readRanges true false [] cs).map fun (ranges, rest) => (.oneOf negated ranges, rest)

/-- The ranges of a bracket go from lower to higher characters. -/
def inOrder : GlobPart → Bool
  | .oneOf _ ranges => ranges.all fun (low, high) => low.toNat ≤ high.toNat
  | _ => true

/-- Reads the rest of a glob after two stars, which stand for directories when there are slashes or
    ends around them. -/
def readDeep (s : State) (before : Option Char) (rest : List Char) : State × List Char :=
  let twoStars := (s.push .star).push .star
  let inChoice := !s.outer.isEmpty
  match s.frame.parts, rest with
  | [], [] => (s.push .deepStart, [])
  | [], '/' :: rest => ({ s.push .deepStart with before := some '/' }, rest)
  | [], _ => (twoStars, rest)
  | _, _ =>
    if before != some '/' && (!inChoice || (before != some ',' && before != some '{')) then
      (twoStars, rest)
    else match rest with
      | [] => (s.deepen true, [])
      | '/' :: rest => ({ s.deepen false with before := some '/' }, rest)
      | c :: _ => if inChoice && (c = ',' || c = '}') then (s.deepen true, rest) else (twoStars, rest)

/-- Reads a glob into its parts. -/
def readParts : Nat → State → List Char → Option (List GlobPart)
  | _, s, [] => if s.outer.isEmpty then some s.frame.parts.reverse else none
  | 0, _, _ => none
  | fuel + 1, s, c :: rest =>
    let before := s.before
    let s := { s with before := some c }
    match c with
    | '?' => readParts fuel (s.push .any) rest
    | '*' =>
      match rest with
      | '*' :: rest =>
        let (s, rest) := readDeep { s with before := some '*' } before rest
        readParts fuel s rest
      | _ => readParts fuel (s.push .star) rest
    | '[' =>
      if s.openBracket then readParts fuel (s.push (.literal '[')) rest
      else match readBracket rest with
        | some (part, rest) =>
          if inOrder part then readParts fuel { s.push part with before := some ']' } rest else none
        | none => readParts fuel { s.push (.literal '[') with openBracket := true } rest
    | '{' => readParts fuel { s with frame := {}, outer := s.frame :: s.outer } rest
    | '}' =>
      match s.outer with
      | [] => none
      | around :: outer =>
        let branches := (s.frame.parts.reverse :: s.frame.branches).reverse
        readParts fuel (State.push { s with frame := around, outer := outer } (.choice branches)) rest
    | ',' =>
      if s.outer.isEmpty then readParts fuel (s.push (.literal ',')) rest
      else readParts fuel
        { s with frame := ⟨s.frame.parts.reverse :: s.frame.branches, []⟩ } rest
    | '\\' =>
      match rest with
      | [] => none
      | c :: rest => readParts fuel { s.push (.literal c) with before := some c } rest
    | c => readParts fuel (s.push (.literal c)) rest

/-- The set of a range of characters, byte by byte. -/
def rangeSet (range : Char × Char) : CharSet :=
  let low := bytes (String.singleton range.1)
  let high := bytes (String.singleton range.2)
  if range.1 = range.2 then .all (low.map .single)
  else match low.getLast?, high.head? with
    | some l, some h =>
      .union (.span l h) (.union (.all (low.dropLast.map .single)) (.all (high.tail.map .single)))
    | _, _ => .none

/-- Any number of characters. -/
def anything : Pattern :=
  .run (.compl .none)

mutual

/-- The pattern of a part. -/
def partPattern : GlobPart → Pattern
  | .literal c => .inOrder ((bytes (String.singleton c)).map fun b => .one (.single b))
  | .any => .one (.compl (.single '/'))
  | .star => .run (.compl (.single '/'))
  | .deepStart => .alt (.many (.literal "/") 0 (some 1)) (.seq anything (.literal "/"))
  | .deepEnd => .seq (.literal "/") anything
  | .deepMiddle => .alt (.literal "/") (.seq (.literal "/") (.seq anything (.literal "/")))
  | .oneOf negated ranges =>
    let set := CharSet.all (ranges.map rangeSet)
    .one (if negated then .compl set else set)
  | .choice branches => .oneOf (branchPatterns branches)

/-- The pattern of parts in a row. -/
def partsPattern : List GlobPart → Pattern
  | [] => .empty
  | part :: rest => .seq (partPattern part) (partsPattern rest)

/-- The patterns of the branches that are not empty. -/
def branchPatterns : List (List GlobPart) → List Pattern
  | [] => []
  | [] :: rest => branchPatterns rest
  | (part :: parts) :: rest =>
    .seq (partPattern part) (partsPattern parts) :: branchPatterns rest

end

/-- The pattern of a glob for whole paths; nothing if the glob is malformed. -/
def pattern? (glob : String) : Option Pattern := do
  let parts ← readParts (glob.length + 1) {} glob.toList
  match parts with
  | [.deepStart] => return anything
  | parts => return .seq (.place .textStart) (.seq (partsPattern parts) (.place .textEnd))

end Glob

end WorkflowAudit
