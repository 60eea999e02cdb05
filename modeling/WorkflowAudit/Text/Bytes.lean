/-!
Sizes and cuts in bytes. Offsets into a text count the bytes of its UTF-8 form, while texts are read
character by character; the functions here go from one to the other.
-/

namespace WorkflowAudit.Text

/-- The number of bytes that the characters take in UTF-8. -/
def byteSize (cs : List Char) : Nat :=
  cs.foldr (fun c size => c.utf8Size + size) 0

/-- The characters that begin before byte offset `n`. -/
def takeBytes : Nat → List Char → List Char
  | 0, _ => []
  | _, [] => []
  | n + 1, c :: cs => c :: takeBytes (n + 1 - c.utf8Size) cs

/-- What is left once the characters that begin before byte offset `n` are gone. -/
def dropBytes : Nat → List Char → List Char
  | 0, cs => cs
  | _, [] => []
  | n + 1, c :: cs => dropBytes (n + 1 - c.utf8Size) cs

/-- `cs` without the leading `lead`, when it starts so. -/
def stripLead? : List Char → List Char → Option (List Char)
  | [], cs => some cs
  | _ :: _, [] => none
  | l :: lead, c :: cs => if l = c then stripLead? lead cs else none

/-- `s` starts with `lead`. -/
def startsWith (s lead : String) : Bool :=
  (stripLead? lead.toList s.toList).isSome

/-- `s` ends with `tail`. -/
def endsWith (s tail : String) : Bool :=
  (stripLead? tail.toList.reverse s.toList.reverse).isSome

/-- Whether `part` occurs in `cs` as a run of neighbours. -/
def occursIn (part : List Char) : List Char → Bool
  | [] => part.isEmpty
  | c :: cs => (stripLead? part (c :: cs)).isSome || occursIn part cs

/-- Whether `part` occurs in `s`. -/
def contains (s part : String) : Bool :=
  occursIn part.toList s.toList

end WorkflowAudit.Text
