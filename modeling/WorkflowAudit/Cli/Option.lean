/-!
Words of a command line: options, their values, and operands. An option is written `--name`,
`--name=value` or `--name value`, or with one letter as `-x`, `-xvalue` or `-x value`; letters without
a value can be written together. After `--` all words are operands.
-/

namespace WorkflowAudit.Cli

/-- An option of a command. -/
structure OptionSpec where
  name : String
  letter : Option Char := none
  /-- What the value is called, if the option takes one. -/
  value : Option String := none
  repeats : Bool := false
  /-- The value is one that the option can take. -/
  accepts : String → Bool := fun _ => true
  /-- What the option does, in a sentence. -/
  summary : String
  /-- What the option does, at length, by paragraphs. -/
  details : List String := []
  /-- The values to choose from and what they mean. -/
  choices : List (String × String) := []
  /-- The variable that stands in for the option. -/
  envName : Option String := none
  /-- The value without the option. -/
  fallback : Option String := none

/-- The option takes a value. -/
def OptionSpec.takesValue (spec : OptionSpec) : Bool :=
  spec.value.isSome

/-- The options and operands that were read, in order. -/
structure Words where
  options : List (String × String) := []
  operands : List String := []

namespace Words

/-- The option was given. -/
def has (w : Words) (name : String) : Bool :=
  w.options.any (·.1 = name)

/-- The values of an option. -/
def values (w : Words) (name : String) : List String :=
  (w.options.filter (·.1 = name)).map (·.2)

/-- The last value of an option. -/
def value? (w : Words) (name : String) : Option String :=
  (w.values name).getLast?

/-- One more option, unless its value is refused or it was given before and does not repeat. -/
def add? (w : Words) (spec : OptionSpec) (value : String) : Option Words :=
  if (spec.takesValue && !spec.accepts value) || (!spec.repeats && w.has spec.name) then none
  else some { w with options := w.options ++ [(spec.name, value)] }

end Words

/-- The word is an option rather than a value. -/
def isOption (word : String) : Bool :=
  match word.toList with
  | '-' :: _ :: _ => true
  | _ => false

/-- What the words before a place ask for. -/
inductive Reading where
  /-- The words ask for the text that goes with an option, by its letter or its name, and no more is
      read. -/
  | asked (option : String) (byLetter : Bool)
  /-- All options were read, up to the first operand if that is where to stop. -/
  | done (words : Words) (rest : List String)

/-- The value of an option in the word after it, and the words after that. -/
def nextValue? : List String → Option (String × List String)
  | word :: rest => if isOption word then none else some (word, rest)
  | [] => none

/-- Options that are answered at once. -/
def informative : List String :=
  ["help", "version"]

/-- Reads the letters of a word and, if the last of them takes a value, that value. The words after it
    are given back. -/
def readLetters (specs : List OptionSpec) (rest : List String) (words : Words) :
    List Char → Option Reading
  | [] => some (.done words rest)
  | c :: letters => do
    let spec ← specs.find? (·.letter = some c)
    if informative.contains spec.name then some (.asked spec.name true)
    else if !spec.takesValue then readLetters specs rest (← words.add? spec "") letters
    else match letters with
      | [] =>
        let (value, rest) ← nextValue? rest
        return .done (← words.add? spec value) rest
      | '=' :: value => return .done (← words.add? spec (String.ofList value)) rest
      | value => return .done (← words.add? spec (String.ofList value)) rest

/-- Reads an option that is written with its name. -/
def readName (specs : List OptionSpec) (rest : List String) (words : Words) (word : List Char) :
    Option Reading := do
  let name := word.takeWhile (· ≠ '=')
  let spec ← specs.find? (·.name = String.ofList name)
  match word.drop name.length with
  | [] =>
    if informative.contains spec.name then some (.asked spec.name false)
    else if spec.takesValue then
      let (value, rest) ← nextValue? rest
      return .done (← words.add? spec value) rest
    else return .done (← words.add? spec "") rest
  | _ :: value =>
    if spec.takesValue then return .done (← words.add? spec (String.ofList value)) rest else none

/-- Reads words; `stops` says that reading ends before the first operand. Nothing comes of words that
    are not understood. -/
def readWords (specs : List OptionSpec) (stops : Bool) :
    Nat → Words → List String → Option Reading
  | _, words, [] => some (.done words [])
  | 0, _, _ => none
  | fuel + 1, words, word :: rest =>
    let next (reading : Option Reading) : Option Reading := do
      match ← reading with
      | .asked option byLetter => return .asked option byLetter
      | .done words rest => readWords specs stops fuel words rest
    match word.toList with
    | ['-', '-'] =>
      if stops then (if rest.isEmpty then some (.done words []) else none)
      else some (.done { words with operands := words.operands ++ rest } [])
    | '-' :: '-' :: name => next (readName specs rest words name)
    | '-' :: c :: letters => next (readLetters specs rest words (c :: letters))
    | _ =>
      if stops then some (.done words (word :: rest))
      else readWords specs stops fuel { words with operands := words.operands ++ [word] } rest

/-- Reads the words of a command line. -/
def Words.read? (specs : List OptionSpec) (stops : Bool) (args : List String) : Option Reading :=
  -- Each step reads at least one word.
  readWords specs stops args.length {} args

end WorkflowAudit.Cli
