import Mathlib
import WorkflowAudit.Yaml.Node

/-!
Parts of a text: what it starts with, what occurs in it and how many bytes it has, said on its characters.
-/

namespace WorkflowAudit

namespace Text

theorem stripLead?_eq_some_iff {lead cs rest : List Char} :
    stripLead? lead cs = some rest ↔ cs = lead ++ rest := by
  induction lead generalizing cs with
  | nil => simp [stripLead?, eq_comm]
  | cons l lead ih =>
    cases cs with
    | nil => simp [stripLead?]
    | cons c cs =>
      rw [stripLead?]
      split
      · rename_i h
        rw [ih, h]
        simp
      · rename_i h
        simp [Ne.symm h]

theorem isSome_stripLead?_iff {lead cs : List Char} : (stripLead? lead cs).isSome ↔ lead <+: cs := by
  rw [Option.isSome_iff_exists]
  constructor
  · rintro ⟨rest, h⟩
    exact ⟨rest, (stripLead?_eq_some_iff.1 h).symm⟩
  · rintro ⟨rest, h⟩
    exact ⟨rest, stripLead?_eq_some_iff.2 h.symm⟩

theorem startsWith_iff {s lead : String} : startsWith s lead ↔ lead.toList <+: s.toList :=
  isSome_stripLead?_iff

theorem occursIn_iff {part cs : List Char} : occursIn part cs ↔ part <:+: cs := by
  induction cs with
  | nil => simp [occursIn]
  | cons c cs ih => rw [occursIn, Bool.or_eq_true, isSome_stripLead?_iff, ih, List.infix_cons_iff]

theorem contains_iff {s part : String} : contains s part ↔ part.toList <:+: s.toList :=
  occursIn_iff

theorem trim_infix (s : String) : (trim s).toList <:+: s.toList := by
  rw [trim, String.toList_ofList]
  have hfront : s.toList.dropWhile isWhite <:+ s.toList := List.dropWhile_suffix _
  refine List.IsInfix.trans (List.IsPrefix.isInfix (List.reverse_suffix.1 ?_)) hfront.isInfix
  rw [List.reverse_reverse]
  exact List.dropWhile_suffix _

theorem getLast?_append {s t : String} {c : Char} (h : t.toList.getLast? = some c) :
    (s ++ t).toList.getLast? = some c := by
  rw [String.toList_append, List.getLast?_append, h]
  rfl

theorem byteSize_append (cs ds : List Char) : byteSize (cs ++ ds) = byteSize cs + byteSize ds := by
  induction cs with
  | nil => exact (Nat.zero_add _).symm
  | cons c cs ih =>
    rw [List.cons_append, byteSize, List.foldr_cons, ← byteSize, ih, ← Nat.add_assoc]
    rfl

theorem byteSize_ofList (cs : List Char) : (String.ofList cs).utf8ByteSize = byteSize cs := by
  induction cs with
  | nil => rfl
  | cons c cs ih =>
    rw [String.ofList_cons, String.utf8ByteSize_append, String.utf8ByteSize_singleton, ih]
    rfl

theorem byteSize_pos {cs : List Char} (h : cs ≠ []) : 0 < byteSize cs := by
  obtain ⟨c, cs, rfl⟩ := List.exists_cons_of_ne_nil h
  have hcons : byteSize (c :: cs) = c.utf8Size + byteSize cs := rfl
  have := c.utf8Size_pos
  omega

end Text

theorem Yaml.Scalar.hasExpression_iff {s : Scalar} :
    s.hasExpression ↔ "$\x7b\x7b".toList <:+: s.value.toList :=
  Text.contains_iff

end WorkflowAudit
