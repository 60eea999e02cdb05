import WorkflowAudit.Proofs.Yaml.Placement
import WorkflowAudit.Proofs.Yaml.Quoted.Segments

/-!
Reading a value and its source side by side between double quotes. Decoding drops white space, so the value
gets ahead of the source: some of the source is left over, and the next character of the value either
passes it or is taken for a part of it. A line break is taken for a space too, and a backslash for any
character. Main statements: a character that nothing left over stops is found in what follows, and one
that is stopped before leaves behind what comes after the part that stopped it.
-/

namespace WorkflowAudit.Yaml

/-- A part of the source that is left over: a character, or a backslash and what belongs to it. -/
inductive Leftover where
  | char (y : Char)
  | mark
  deriving DecidableEq, Repr

namespace Leftover

/-- A character of the value is taken for this part. -/
def stops (c : Char) : Leftover → Bool
  | char y => y = c || (y = '\n' && c = ' ')
  | mark => true

/-- What is still left over after a character of the value. -/
def after (left : List Leftover) (c : Char) : List Leftover :=
  (left.dropWhile fun x => !x.stops c).tail

/-- All characters of a value are stopped, one after the other. -/
def Covers : List Leftover → List Char → Prop
  | _, [] => True
  | left, c :: value => left.any (·.stops c) ∧ Covers (after left c) value

variable {c : Char} {x : Leftover} {left : List Leftover}

theorem after_cons_of_stops (h : x.stops c) (left : List Leftover) : after (x :: left) c = left := by
  simp [after, h]

theorem after_cons_of_not_stops (h : ¬x.stops c) (left : List Leftover) :
    after (x :: left) c = after left c := by
  simp [after, h]

theorem after_append_of_not_stops (h : ¬left.any (·.stops c)) (more : List Leftover) :
    after (left ++ more) c = after more c := by
  induction left with
  | nil => rfl
  | cons x left ih =>
    simp only [List.any_cons, Bool.or_eq_true, not_or] at h
    rw [List.cons_append, after_cons_of_not_stops h.1, ih h.2]

theorem after_suffix (left : List Leftover) (c : Char) : after left c <:+ left :=
  (List.tail_suffix _).trans (List.dropWhile_suffix _)

/-- With more in front, a character is stopped no later. -/
theorem after_suffix_append (more left : List Leftover) (c : Char) :
    after left c <:+ after (more ++ left) c := by
  induction more with
  | nil => exact List.suffix_rfl
  | cons x more ih =>
    rw [List.cons_append]
    by_cases hx : x.stops c
    · rw [after_cons_of_stops hx]
      exact (after_suffix left c).trans (List.suffix_append more left)
    · rwa [after_cons_of_not_stops hx]

theorem Covers.append {value : List Char} (h : Covers left value) (more : List Leftover) :
    Covers (more ++ left) value := by
  induction value generalizing left more with
  | nil => trivial
  | cons c value ih =>
    obtain ⟨more', hmore⟩ := after_suffix_append more left c
    refine ⟨by simp only [List.any_append, h.1, Bool.or_true], ?_⟩
    rw [← hmore]
    exact ih h.2 more'

theorem covers_chars (cs : List Char) : Covers (cs.map char) cs := by
  induction cs with
  | nil => trivial
  | cons c cs ih =>
    have hstops : (char c).stops c := by simp [stops]
    refine ⟨by simp [hstops], ?_⟩
    rwa [List.map_cons, after_cons_of_stops hstops]

theorem foldl_after_chars (cs : List Char) : cs.foldl after (cs.map char) = [] := by
  induction cs with
  | nil => rfl
  | cons c cs ih =>
    rw [List.map_cons, List.foldl_cons, after_cons_of_stops (by simp [stops])]
    exact ih

theorem foldl_after_suffix (value : List Char) (left : List Leftover) :
    value.foldl after left <:+ left := by
  induction value generalizing left with
  | nil => exact List.suffix_rfl
  | cons c value ih => exact (ih _).trans (after_suffix left c)

theorem count_break_after (left : List Leftover) :
    left.count (char '\n') ≤ (after left '\n').count (char '\n') + 1 := by
  induction left with
  | nil => simp
  | cons x left ih =>
    by_cases hx : x.stops '\n'
    · rw [after_cons_of_stops hx, List.count_cons]
      split <;> omega
    · have hne : x ≠ char '\n' := by
        rintro rfl
        exact hx (by decide)
      rwa [after_cons_of_not_stops hx, List.count_cons_of_ne hne]

/-- As many line breaks as are asked for cover them, whatever stands between. -/
theorem covers_breaks {n : Nat} (h : n ≤ left.count (char '\n')) :
    Covers left (List.replicate n '\n') := by
  induction n generalizing left with
  | zero => trivial
  | succ n ih =>
    have hmem : char '\n' ∈ left := List.count_pos_iff.1 (by omega)
    have hafter := count_break_after left
    exact ⟨List.any_eq_true.2 ⟨_, hmem, by decide⟩, ih (by omega)⟩

end Leftover

/-! ### One character -/

theorem SourceText.skip_append (cs rest : List Char) (p : Position) :
    SourceText.skip cs.length ⟨cs ++ rest, p⟩ = ⟨rest, cs.foldl Position.advance p⟩ := by
  induction cs generalizing p with
  | nil => rfl
  | cons c cs ih => exact ih _

theorem SourceText.skipBlanks_append {bs : List Char} (hbs : bs.all Data.isBlank) {rest : List Char}
    (hrest : ∀ x ∈ rest.head?, Data.isBlank x = false) (p : Position) :
    SourceText.skipBlanks (bs ++ rest) p = ⟨rest, bs.foldl Position.advance p⟩ := by
  induction bs generalizing p with
  | nil =>
    cases rest with
    | nil => rfl
    | cons x rest =>
      have hx : (x = ' ' || x = '\t') = false := hrest x rfl
      rw [List.nil_append, SourceText.skipBlanks, hx]
      rfl
  | cons b bs ih =>
    simp only [List.all_cons, Bool.and_eq_true] at hbs
    have hb : (b = ' ' || b = '\t') = true := hbs.1
    rw [List.cons_append, SourceText.skipBlanks, hb]
    exact ih hbs.2 _

/-- A character of the value passes this much of a source and is taken for what follows. -/
def Takes (c : Char) (text passed taken rest : List Char) : Prop :=
  text = passed ++ taken ++ rest ∧ ∀ p, locate .double c ⟨text, p⟩ =
    (passed.foldl Position.advance p, ⟨rest, (passed ++ taken).foldl Position.advance p⟩)

variable {c : Char}

theorem Takes.lead {lead text passed taken rest : List Char}
    (hlead : ∀ p, locate .double c ⟨lead ++ text, p⟩ =
      locate .double c ⟨text, lead.foldl Position.advance p⟩)
    (h : Takes c text passed taken rest) : Takes c (lead ++ text) (lead ++ passed) taken rest := by
  refine ⟨by simp [h.1], fun p => ?_⟩
  rw [hlead, h.2]
  simp [List.foldl_append]

theorem takes_char {y : Char} (hslash : y ≠ '\\') (hy : (Leftover.char y).stops c)
    (rest : List Char) : Takes c (y :: rest) [] [y] rest := by
  refine ⟨rfl, fun p => ?_⟩
  simp only [Leftover.stops, Bool.or_eq_true, Bool.and_eq_true, decide_eq_true_eq] at hy
  rw [locate.eq_def]
  by_cases hc : y = c
  · simp [hc ▸ hslash, hc]
  · simp [hy.resolve_left hc]

theorem takes_escape {letter : Char} {digits : List Char} (hletter : letter ≠ '\n')
    (hdigits : digits.length = escapeLength letter) (rest : List Char) :
    Takes c ('\\' :: letter :: (digits ++ rest)) [] ('\\' :: letter :: digits) rest := by
  refine ⟨rfl, fun p => ?_⟩
  have hskip := SourceText.skip_append digits rest ((p.advance '\\').advance letter)
  rw [hdigits] at hskip
  rw [locate.eq_def]
  simp [SourceText.bump, hskip]

theorem locate_white {y : Char} (hy : Text.isWhite y) (hc : ¬(Leftover.char y).stops c)
    (rest : List Char) (p : Position) :
    locate .double c ⟨[y] ++ rest, p⟩ = locate .double c ⟨rest, [y].foldl Position.advance p⟩ := by
  have hslash : y ≠ '\\' := by
    rintro rfl
    exact absurd hy (by decide)
  simp only [Leftover.stops, Bool.or_eq_true, Bool.and_eq_true, decide_eq_true_eq, not_or] at hc
  rw [locate.eq_def]
  simp [hslash, hc, hy]

theorem locate_joint {bs rest : List Char} (hbs : bs.all Data.isBlank)
    (hrest : ∀ x ∈ rest.head?, Data.isBlank x = false) (p : Position) :
    locate .double c ⟨'\\' :: '\n' :: bs ++ rest, p⟩ =
      locate .double c ⟨rest, ('\\' :: '\n' :: bs).foldl Position.advance p⟩ := by
  rw [locate.eq_def]
  simp [SourceText.skipBlanks_append hbs hrest]
  rfl

/-! ### What is pending -/

/-- A text begins with what is left over and goes on with `rest`. An escaped line break is passed together
    with the blanks after it and stops no character. -/
inductive Pending (rest : List Char) : List Leftover → List Char → Prop
  | done : Pending rest [] rest
  | white {y : Char} {left : List Leftover} {text : List Char} (hy : Text.isWhite y)
      (h : Pending rest left text) : Pending rest (.char y :: left) (y :: text)
  | escape {letter : Char} {digits : List Char} {left : List Leftover} {text : List Char}
      (hletter : letter ≠ '\n') (hdigits : digits.length = escapeLength letter)
      (h : Pending rest left text) : Pending rest (.mark :: left) ('\\' :: letter :: (digits ++ text))
  | joint {bs : List Char} {left : List Leftover} {text : List Char} (hbs : bs.all Data.isBlank)
      (htext : ∀ x ∈ text.head?, Data.isBlank x = false) (h : Pending rest left text) :
      Pending rest left ('\\' :: '\n' :: bs ++ text)

namespace Pending

variable {rest text : List Char} {left : List Leftover}

theorem trans (h : Pending rest left text) {rest' : List Char} {left' : List Leftover}
    (h' : Pending rest' left' rest) : Pending rest' (left ++ left') text := by
  induction h with
  | done => exact h'
  | white hy _ ih => exact .white hy ih
  | escape hletter hdigits _ ih => exact .escape hletter hdigits ih
  | joint hbs htext _ ih => exact .joint hbs htext ih

theorem whites {cs : List Char} (hcs : ∀ y ∈ cs, Text.isWhite y) (h : Pending rest left text) :
    Pending rest (cs.map .char ++ left) (cs ++ text) := by
  induction cs with
  | nil => exact h
  | cons y cs ih =>
    obtain ⟨hy, hcs⟩ := List.forall_mem_cons.1 hcs
    exact .white hy (ih hcs)

theorem suffix (h : Pending rest left text) : rest <:+ text := by
  induction h with
  | done => exact List.suffix_rfl
  | white _ _ ih => exact ih.trans (List.suffix_cons ..)
  | escape _ _ _ ih => exact ih.trans (List.suffix_append (_ :: _ :: _) _)
  | joint _ _ _ ih => exact ih.trans (List.suffix_append (_ :: _ :: _) _)

/-- Without a backslash, what is left over is white space and stops no visible character. -/
theorem not_stops (h : Pending rest left text) (hc : ¬Text.isWhite c) (hmark : .mark ∉ left) :
    ¬left.any (·.stops c) := by
  induction h with
  | done => simp
  | @white y left text hy _ ih =>
    simp only [List.mem_cons, not_or] at hmark
    have hne : y ≠ c := by
      rintro rfl
      exact hc hy
    have hblank : c ≠ ' ' := by
      rintro rfl
      exact hc (by decide)
    simpa [Leftover.stops, hne, hblank] using ih hmark.2
  | escape => exact absurd (List.mem_cons_self ..) hmark
  | joint _ _ _ ih => exact ih hmark

/-- A character that is stopped is taken for the part that stops it, and what came later is still left
    over. -/
theorem takes_left (h : Pending rest left text) (hc : left.any (·.stops c)) :
    ∃ passed taken text', taken ≠ [] ∧ Takes c text passed taken text' ∧
      Pending rest (Leftover.after left c) text' := by
  induction h with
  | done => cases hc
  | @white y left text hy h ih =>
    by_cases hstops : (Leftover.char y).stops c
    · have hslash : y ≠ '\\' := by
        rintro rfl
        exact absurd hy (by decide)
      rw [Leftover.after_cons_of_stops hstops]
      exact ⟨[], [y], text, by simp, takes_char hslash hstops text, h⟩
    · rw [List.any_cons, Bool.or_eq_true] at hc
      obtain ⟨passed, taken, text', hne, htakes, hpending⟩ := ih (hc.resolve_left hstops)
      rw [Leftover.after_cons_of_not_stops hstops]
      exact ⟨_, taken, text', hne, htakes.lead (locate_white hy hstops text), hpending⟩
  | @escape letter digits left text hletter hdigits h ih =>
    rw [Leftover.after_cons_of_stops rfl]
    exact ⟨[], _, text, by simp, takes_escape hletter hdigits text, h⟩
  | joint hbs htext h ih =>
    obtain ⟨passed, taken, text', hne, htakes, hpending⟩ := ih hc
    exact ⟨_, taken, text', hne, htakes.lead (locate_joint hbs htext), hpending⟩

/-- A character that is not stopped is found where it is found in what follows. -/
theorem takes_rest (h : Pending rest left text) (hc : ¬left.any (·.stops c))
    {passed taken rest' : List Char} (hrest : Takes c rest passed taken rest') :
    ∃ lead, text = lead ++ rest ∧ Takes c text (lead ++ passed) taken rest' := by
  induction h with
  | done => exact ⟨[], rfl, hrest⟩
  | @white y left text hy h ih =>
    rw [List.any_cons, Bool.or_eq_true, not_or] at hc
    obtain ⟨lead, rfl, htakes⟩ := ih hc.2
    exact ⟨[y] ++ lead, rfl, htakes.lead (locate_white hy hc.1 _)⟩
  | escape => exact absurd rfl hc
  | @joint bs left text hbs htext h ih =>
    obtain ⟨lead, rfl, htakes⟩ := ih hc
    exact ⟨'\\' :: '\n' :: bs ++ lead, by simp, by simpa using htakes.lead (locate_joint hbs htext)⟩

end Pending

/-! ### Several characters -/

/-- The source after a part of the value is read. -/
def readOn (style : Style) (value : List Char) (s : SourceText) : SourceText :=
  value.foldl (fun s c => (locate style c s).2) s

theorem placements_append (style : Style) (v w : List Char) (offset : Nat) (s : SourceText) :
    placements style (v ++ w) offset s = placements style v offset s ++
      placements style w (offset + Text.byteSize v) (readOn style v s) := by
  induction v generalizing offset s with
  | nil => rfl
  | cons c v ih =>
    have hlater := ih (offset + c.utf8Size) (locate style c s).2
    rw [Nat.add_assoc] at hlater
    exact congrArg ((offset, (locate style c s).1) :: ·) hlater

/-- A part of the value is read over this much of a source. -/
def ReadsOn (value text used rest : List Char) : Prop :=
  text = used ++ rest ∧
    ∀ p, readOn .double value ⟨text, p⟩ = ⟨rest, used.foldl Position.advance p⟩

theorem ReadsOn.nil (text : List Char) : ReadsOn [] text [] text :=
  ⟨rfl, fun _ => rfl⟩

theorem ReadsOn.append {v w text used middle used' rest : List Char} (h : ReadsOn v text used middle)
    (h' : ReadsOn w middle used' rest) : ReadsOn (v ++ w) text (used ++ used') rest := by
  refine ⟨by rw [h.1, h'.1, List.append_assoc], fun p => ?_⟩
  rw [readOn, List.foldl_append, List.foldl_append]
  exact (congrArg (readOn .double w) (h.2 p)).trans (h'.2 _)

theorem Takes.readsOn {text passed taken rest : List Char} (h : Takes c text passed taken rest) :
    ReadsOn [c] text (passed ++ taken) rest :=
  ⟨h.1, fun p => congrArg Prod.snd (h.2 p)⟩

/-- A value that is covered is read over what is left over. -/
theorem Pending.readsOn {rest text value : List Char} {left : List Leftover}
    (h : Pending rest left text) (hcovers : Leftover.Covers left value) :
    ∃ used text', ReadsOn value text used text' ∧
      Pending rest (value.foldl Leftover.after left) text' := by
  induction value generalizing left text with
  | nil => exact ⟨[], text, .nil text, h⟩
  | cons c value ih =>
    obtain ⟨passed, taken, middle, -, htakes, hmiddle⟩ := h.takes_left hcovers.1
    obtain ⟨used, text', hreads, hpending⟩ := ih hmiddle hcovers.2
    exact ⟨_, text', htakes.readsOn.append hreads, hpending⟩

end WorkflowAudit.Yaml
