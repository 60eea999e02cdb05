/-!
White space: the characters of the Unicode property of that name.
-/

namespace WorkflowAudit.Text

/-- The ranges of the white space characters. -/
def whiteRanges : List (Nat × Nat) :=
  [(0x09, 0x0d), (0x20, 0x20), (0x85, 0x85), (0xa0, 0xa0), (0x1680, 0x1680), (0x2000, 0x200a),
    (0x2028, 0x2029), (0x202f, 0x202f), (0x205f, 0x205f), (0x3000, 0x3000)]

/-- `c` is a white space character. -/
def isWhite (c : Char) : Bool :=
  whiteRanges.any fun (low, high) => low ≤ c.toNat && c.toNat ≤ high

/-- The text without white space at either end. -/
def trim (s : String) : String :=
  String.ofList ((s.toList.dropWhile isWhite).reverse.dropWhile isWhite).reverse

end WorkflowAudit.Text
