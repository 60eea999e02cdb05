import WorkflowAudit.Proofs.Yaml.Scalars

/-!
Reading a scalar's source never leaves it. Value and source are read side by side, and however far they
are out of step, every place that is noted is a place of the source. Main statement: the offset of a
character of a value leads to a place of the document, except in a block scalar that ends with its
header, at the end of a document without a last line break; there it leads to the line after the last.
-/

namespace WorkflowAudit

namespace Position

/-- The position is that of a byte offset of the document, between two characters or at an end: its line
    is the number of line breaks before, its column the number of bytes after the last of them, both
    counted from one. -/
def IsAt (document : List Char) (offset : Nat) (p : Position) : Prop :=
  ∃ before after, document = before ++ after ∧ offset = Text.byteSize before ∧
    p.line = before.count '\n' + 1 ∧
    p.column = Text.byteSize (before.reverse.takeWhile (· ≠ '\n')) + 1

theorem foldl_advance_start (before : List Char) :
    before.foldl advance start =
      ⟨before.count '\n' + 1, Text.byteSize (before.reverse.takeWhile (· ≠ '\n')) + 1⟩ := by
  induction before using List.reverseRecOn with
  | nil => rfl
  | append_singleton before c ih =>
    rw [List.foldl_append, ih, List.foldl_cons, List.foldl_nil, List.count_append,
      List.reverse_append, advance]
    split
    · rename_i hc
      subst hc
      rfl
    · rename_i hc
      rw [List.reverse_singleton, List.singleton_append,
        List.takeWhile_cons_of_pos (by simpa using hc), List.count_singleton,
        if_neg (by simpa using hc)]
      congr 1
      have hcons (cs : List Char) : Text.byteSize (c :: cs) = c.utf8Size + Text.byteSize cs := rfl
      rw [hcons]
      dsimp only
      omega

theorem isAt_ofIndex (document : List Char) (i : Nat) :
    IsAt document (Text.byteSize (document.take i)) (ofIndex document i) := by
  refine ⟨document.take i, document.drop i, (List.take_append_drop i document).symm, rfl, ?_⟩
  rw [ofIndex, foldl_advance_start]
  exact ⟨rfl, rfl⟩

/-- No position is on a line after the last. -/
theorem IsAt.line_le {document : List Char} {offset : Nat} {p : Position} (h : IsAt document offset p) :
    p.line ≤ document.count '\n' + 1 := by
  obtain ⟨before, after, rfl, -, hline, -⟩ := h
  rw [hline, List.count_append]
  omega

/-- Where a line break follows, there is a next line. -/
theorem exists_isAt_next_line {document : List Char} {i : Nat} (h : '\n' ∈ document.drop i) :
    ∃ offset, IsAt document offset ⟨(ofIndex document i).line + 1, 1⟩ := by
  obtain ⟨row, rest, hsplit, hrow⟩ := List.eq_append_cons_of_mem h
  rw [← Yaml.ofIndex_after_row rest hsplit hrow]
  exact ⟨_, isAt_ofIndex document _⟩

end Position

namespace Yaml

/-! ### The cursor -/

/-- The cursor stands in the body that begins at `start`: the part before it leads to where it is. -/
def SourceText.Within (body : List Char) (start : Position) (s : SourceText) : Prop :=
  ∃ before, body = before ++ s.rest ∧ s.position = before.foldl Position.advance start

/-- The position is that of a place in the body that begins at `start`. -/
def IsPlaceIn (body : List Char) (start p : Position) : Prop :=
  ∃ before, before <+: body ∧ p = before.foldl Position.advance start

section Cursor

variable {body : List Char} {start : Position}

theorem SourceText.Within.isPlaceIn {s : SourceText} (h : s.Within body start) :
    IsPlaceIn body start s.position := by
  obtain ⟨before, hbody, hposition⟩ := h
  exact ⟨before, hbody ▸ List.prefix_append _ _, hposition⟩

theorem SourceText.within_start (body : List Char) (start : Position) :
    SourceText.Within body start ⟨body, start⟩ :=
  ⟨[], rfl, rfl⟩

theorem SourceText.Within.cons {c : Char} {rest : List Char} {p : Position}
    (h : SourceText.Within body start ⟨c :: rest, p⟩) :
    SourceText.Within body start ⟨rest, p.advance c⟩ := by
  obtain ⟨before, hbody, hposition⟩ := h
  exact ⟨before ++ [c], by simpa using hbody, by simpa using congrArg (·.advance c) hposition⟩

theorem SourceText.Within.bump {s : SourceText} (h : s.Within body start) :
    s.bump.Within body start := by
  obtain ⟨rest, p⟩ := s
  cases rest with
  | nil => exact h
  | cons c rest => exact h.cons

theorem SourceText.Within.skip {s : SourceText} (h : s.Within body start) (n : Nat) :
    (s.skip n).Within body start := by
  induction n generalizing s with
  | zero => exact h
  | succ n ih => exact ih h.bump

theorem SourceText.Within.skipBlanks {cs : List Char} {p : Position}
    (h : SourceText.Within body start ⟨cs, p⟩) :
    (SourceText.skipBlanks cs p).Within body start := by
  induction cs generalizing p with
  | nil => exact h
  | cons c cs ih =>
    rw [SourceText.skipBlanks]
    split
    · exact ih h.cons
    · exact h

theorem SourceText.Within.trans {s t : SourceText} (hs : s.Within body start)
    (ht : t.Within s.rest s.position) : t.Within body start := by
  obtain ⟨before, hbody, hposition⟩ := hs
  obtain ⟨more, hrest, hlater⟩ := ht
  refine ⟨before ++ more, ?_, ?_⟩
  · rw [hbody, hrest, List.append_assoc]
  · rw [hlater, hposition, List.foldl_append]

/-- What looking for one character does: the cursor moves on to the place that is noted, and from there to
    where the next character is looked for. -/
theorem exists_within_locate (style : Style) (c : Char) (s : SourceText) :
    ∃ here : SourceText, here.Within s.rest s.position ∧ (locate style c s).1 = here.position ∧
      (locate style c s).2.Within here.rest here.position := by
  have hstart (s : SourceText) : s.Within s.rest s.position := SourceText.within_start _ _
  fun_induction locate style c s with
  | case1 p => exact ⟨⟨[], p⟩, hstart _, rfl, hstart _⟩
  | case2 next p _ after => exact ⟨⟨[next], p⟩, hstart _, rfl, (hstart _).cons⟩
  | case3 next p hescape more ih =>
    -- An escaped line break leads to the beginning of the next line.
    have hline : (p.advance next).advance '\n' = ⟨p.line + 1, 1⟩ := by
      rw [hescape.2]
      rfl
    obtain ⟨here, hhere, hplace, hafter⟩ := ih
    have hbreak : SourceText.Within (next :: '\n' :: more) p ⟨more, ⟨p.line + 1, 1⟩⟩ :=
      hline ▸ (SourceText.within_start (next :: '\n' :: more) p).cons.cons
    exact ⟨here, hbreak.skipBlanks.trans hhere, hplace, hafter⟩
  | case4 next p _ letter tail _ after =>
    exact ⟨⟨next :: letter :: tail, p⟩, hstart _, rfl, (hstart _).cons.bump.skip _⟩
  | case5 rest p after _ =>
    refine ⟨⟨_ :: rest, p⟩, hstart _, rfl, ?_⟩
    split
    · exact (hstart _).cons.bump
    · exact (hstart _).cons
  | case6 next rest p after => exact ⟨⟨next :: rest, p⟩, hstart _, rfl, (hstart _).cons⟩
  | case7 next rest p after _ _ _ _ ih =>
    obtain ⟨here, hhere, hplace, hafter⟩ := ih
    exact ⟨here, (hstart ⟨next :: rest, p⟩).cons.trans hhere, hplace, hafter⟩
  | case8 next rest p => exact ⟨⟨next :: rest, p⟩, hstart _, rfl, hstart _⟩
  | case9 next rest p after => exact ⟨⟨next :: rest, p⟩, hstart _, rfl, (hstart _).cons⟩

/-- Wherever a character is looked for, it is placed in the body and the cursor stays in it. -/
theorem SourceText.Within.locate {style : Style} {c : Char} {s : SourceText} (h : s.Within body start) :
    IsPlaceIn body start (Yaml.locate style c s).1 ∧ (Yaml.locate style c s).2.Within body start := by
  obtain ⟨here, hhere, hplace, hafter⟩ := exists_within_locate style c s
  have hin := h.trans hhere
  exact ⟨hplace ▸ hin.isPlaceIn, hin.trans hafter⟩

/-- Every noted place is one of the body. -/
theorem isPlaceIn_of_mem_placements {style : Style} {value : List Char} {offset : Nat}
    {s : SourceText} (h : s.Within body start) {place : Nat × Position}
    (hmem : place ∈ placements style value offset s) : IsPlaceIn body start place.2 := by
  induction value generalizing offset s with
  | nil => cases hmem
  | cons c value ih =>
    rcases List.mem_cons.1 hmem with rfl | hmem
    · exact h.locate.1
    · exact ih h.locate.2 hmem

/-- Every character of the value has a place. -/
theorem exists_mem_placements (style : Style) {value : List Char} {k : Nat} (hk : k < value.length)
    (offset : Nat) (s : SourceText) :
    ∃ p, (offset + Text.byteSize (value.take k), p) ∈ placements style value offset s := by
  induction value generalizing k offset s with
  | nil => cases hk
  | cons c value ih =>
    rw [placements]
    cases k with
    | zero => exact ⟨_, List.mem_cons_self ..⟩
    | succ k =>
      obtain ⟨p, hp⟩ := ih (Nat.lt_of_succ_lt_succ hk) (offset + c.utf8Size) (locate style c s).2
      refine ⟨p, List.mem_cons_of_mem _ ?_⟩
      rwa [Nat.add_assoc] at hp

/-- The offset of a character of the value leads to a place of the body. -/
theorem isPlaceIn_positionAt {s : Scalar} (hruns : s.runs = align s.style s.value.toList body start)
    {k : Nat} (hk : k < s.value.toList.length) :
    IsPlaceIn body start (s.positionAt (Text.byteSize (s.value.toList.take k))) := by
  obtain ⟨p, hp⟩ := exists_mem_placements s.style hk 0 ⟨body, start⟩
  have hplace := isPlaceIn_of_mem_placements (SourceText.within_start body start) hp
  rw [Nat.zero_add] at hp
  obtain ⟨r, hr, hpos⟩ := getLast?_align hp
  rw [Scalar.positionAt, ← byteSize_toList, Nat.min_eq_left (byteSize_take_le _ _), hruns, hr]
  simp only [hpos]
  exact hplace

end Cursor

/-! ### Places of the document -/

variable {document : List Char}

/-- The scalar is a block scalar on the last line of a document without a last line break, and the
    position is the beginning of the line after. -/
def Scalar.EndsWithHeader (document : List Char) (s : Scalar) (p : Position) : Prop :=
  (s.style = .literal ∨ s.style = .folded) ∧
    ∃ start stop, s = .ofSpan document s.style start stop ∧ s.style.OpensAt document start ∧
      '\n' ∉ document.drop start ∧ p = ⟨(Position.ofIndex document start).line + 1, 1⟩

/-- The line after is the one after the last. -/
theorem Scalar.EndsWithHeader.position_eq {s : Scalar} {p : Position}
    (h : s.EndsWithHeader document p) : p = ⟨document.count '\n' + 2, 1⟩ := by
  obtain ⟨-, start, stop, -, -, hlast, rfl⟩ := h
  have hcount : document.count '\n' = (document.take start).count '\n' := by
    rw [← List.take_append_drop start document, List.count_append, List.count_eq_zero.2 hlast,
      Nat.add_zero, List.take_append_drop]
  rw [Position.ofIndex, Position.foldl_advance_start, hcount]

theorem Scalar.EndsWithHeader.getLast?_ne {s : Scalar} {p : Position}
    (h : s.EndsWithHeader document p) : document.getLast? ≠ some '\n' := by
  obtain ⟨hblock, start, stop, -, hopens, hlast, -⟩ := h
  have hlt : start < document.length := by
    rcases hblock with hstyle | hstyle <;>
    · rw [hstyle] at hopens
      exact (List.getElem?_eq_some_iff.1 hopens).1
  intro hbreak
  refine hlast (List.mem_of_getLast? ?_)
  rw [List.getLast?_drop, if_neg (Nat.not_le.2 hlt), hbreak]

theorem Scalar.StandsIn.isAt_position {s : Scalar} (h : s.StandsIn document) :
    ∃ offset, s.position.IsAt document offset := by
  obtain ⟨start, stop, hs, -⟩ := h
  have hposition : s.position = .ofIndex document start := congrArg Scalar.position hs
  exact ⟨_, hposition ▸ Position.isAt_ofIndex document start⟩

/-- The body of a scalar begins at a place of the document, or the scalar ends with its header. -/
theorem bodyOf_begins_or {style : Style} {start : Nat} (hopens : style.OpensAt document start)
    (stop : Nat) :
    (bodyOf style (between document start stop) (.ofIndex document start)).2 =
        .ofIndex document (bodyIndex style (between document start stop) start) ∨
      (style = .literal ∨ style = .folded) ∧
        (bodyOf style (between document start stop) (.ofIndex document start)).1 = [] := by
  by_cases hne : (bodyOf style (between document start stop) (.ofIndex document start)).1 = []
  · cases style with
    | plain => exact .inl rfl
    | single | double =>
      refine .inl ?_
      rw [bodyIndex, ofIndex_succ hopens]
      rfl
    | literal => exact .inr ⟨.inl rfl, hne⟩
    | folded => exact .inr ⟨.inr rfl, hne⟩
  · exact .inl (bodyOf_begins hopens hne)

/-- The offset of a character of a value leads to a place of the document, unless the scalar ends with
    its header. -/
theorem Scalar.StandsIn.isAt_positionAt {s : Scalar} (h : s.StandsIn document) {k : Nat}
    (hk : k < s.value.toList.length) :
    (∃ offset, (s.positionAt (Text.byteSize (s.value.toList.take k))).IsAt document offset) ∨
      s.EndsWithHeader document (s.positionAt (Text.byteSize (s.value.toList.take k))) := by
  obtain ⟨start, stop, hs, hopens⟩ := h
  have hposition : s.position = .ofIndex document start := congrArg Scalar.position hs
  have hruns : s.runs = align s.style s.value.toList
      (bodyOf s.style (between document start stop) (.ofIndex document start)).1
      (bodyOf s.style (between document start stop) (.ofIndex document start)).2 := by
    rw [congrArg Scalar.runs hs, congrArg Scalar.value hs]
    rfl
  obtain ⟨before, hlead, hplace⟩ := isPlaceIn_positionAt hruns hk
  rcases bodyOf_begins_or hopens stop with hbegins | ⟨hblock, hempty⟩
  · refine .inl ?_
    obtain ⟨rest, hrest⟩ := hlead.trans (bodyOf_lead document s.style start stop _)
    rw [hbegins] at hplace
    have hindex := ofIndex_add document
      (bodyIndex s.style (between document start stop) start) before.length
    rw [← hrest, List.take_left, ← hplace] at hindex
    exact ⟨_, hindex ▸ Position.isAt_ofIndex document _⟩
  · rw [hempty, List.prefix_nil] at hlead
    have hbegins : (bodyOf s.style (between document start stop) (.ofIndex document start)).2 =
        ⟨(Position.ofIndex document start).line + 1, 1⟩ := by
      rcases hblock with hstyle | hstyle <;> rw [hstyle] <;> rfl
    rw [hlead, List.foldl_nil, hbegins] at hplace
    by_cases hbreak : '\n' ∈ document.drop start
    · exact .inl (hplace ▸ Position.exists_isAt_next_line hbreak)
    · exact .inr ⟨hblock, start, stop, hs, hopens, hbreak, hplace⟩

end Yaml

end WorkflowAudit
