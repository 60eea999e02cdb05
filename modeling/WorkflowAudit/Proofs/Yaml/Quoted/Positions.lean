import WorkflowAudit.Proofs.Yaml.Scalars
import WorkflowAudit.Proofs.Yaml.Quoted.Decoding
import WorkflowAudit.Proofs.Yaml.Quoted.Leftovers

/-!
Where the characters of a text between double quotes come from. A line break that folds leaves white space
behind, and an escape of white space may be taken for it; from then on its backslash is left over, and so
is that of an escaped line break written with a carriage return. Main statement: the visible characters of
the value lead to the segments they are written as exactly if none of them comes while a backslash is left
over.
-/

namespace WorkflowAudit

/-- A text ends on a later line, or as many columns later at least as it has characters. -/
theorem Position.foldl_advance_later (cs : List Char) (p : Position) :
    p.line < (cs.foldl advance p).line ∨
      p.line = (cs.foldl advance p).line ∧ p.column + cs.length ≤ (cs.foldl advance p).column := by
  induction cs generalizing p with
  | nil => exact .inr ⟨rfl, Nat.le_refl _⟩
  | cons c cs ih =>
    have hrest := ih (p.advance c)
    have hsize := c.utf8Size_pos
    rw [List.foldl_cons, List.length_cons]
    by_cases hc : c = '\n'
    · have hline : (p.advance c).line = p.line + 1 := by simp [advance, hc]
      omega
    · have hline : (p.advance c).line = p.line := by simp [advance, hc]
      have hcolumn : (p.advance c).column = p.column + c.utf8Size := by simp [advance, hc]
      omega

theorem Position.foldl_advance_ne {cs : List Char} (h : cs ≠ []) (p : Position) :
    cs.foldl advance p ≠ p := by
  intro heq
  have hlater := foldl_advance_later cs p
  have hlength := List.length_pos_iff.2 h
  rw [heq] at hlater
  omega

namespace Yaml

open Text (byteSize)

namespace Segment

/-- A segment that stands for a visible character. -/
def isInk : Segment → Bool
  | char c | escape _ c => !Text.isWhite c
  | blanks _ | fold .. | joint .. => false

/-- What a segment adds to the source that is left over. The backslash of an escaped line break is passed
    with the blanks after it, unless a carriage return comes between. -/
def offers : Segment → List Leftover
  | char c => [.char c]
  | escape .. => [.mark]
  | blanks bs => bs.map .char
  | fold before first empty indent => (before ++ first.text ++ empty.text ++ indent).map .char
  | joint .lf empty indent => ((empty.text ++ indent).dropWhile Data.isBlank).map .char
  | joint .crlf empty indent => .mark :: ('\n' :: empty.text ++ indent).map .char

/-- What is left over after a segment. -/
def lag (left : List Leftover) (p : Segment) : List Leftover :=
  p.value.foldl Leftover.after (left ++ p.offers)

/-- No backslash is left over when a visible character comes. -/
def inStep (left : List Leftover) : List Segment → Bool
  | [] => true
  | p :: ps => !(p.isInk && left.contains .mark) && inStep (lag left p) ps

/-- An escaped line break that is written with a carriage return. -/
def isWideJoint : Segment → Bool
  | joint .crlf _ _ => true
  | _ => false

/-- A segment that breaks a line. -/
def breaksLine : Segment → Bool
  | fold .. | joint .. => true
  | char _ | escape .. | blanks _ => false

/-- An escape that stands for white space. -/
def isWhiteEscape : Segment → Bool
  | escape _ c => Text.isWhite c
  | _ => false

/-- No escaped line break is written with a carriage return, and no escape of white space comes right
    after a line break. -/
def settled : List Segment → Bool
  | [] => true
  | p :: ps => !p.isWideJoint && !(p.breaksLine && ps.head?.any isWhiteEscape) && settled ps

theorem sources_append (ps qs : List Segment) : sources (ps ++ qs) = sources ps ++ sources qs :=
  List.flatMap_append

theorem values_append (ps qs : List Segment) : values (ps ++ qs) = values ps ++ values qs :=
  List.flatMap_append

theorem exists_wellFormed_of_append {afterGap : Bool} {ps qs : List Segment}
    (h : wellFormed afterGap (ps ++ qs)) : ∃ afterGap', wellFormed afterGap' qs := by
  induction ps generalizing afterGap with
  | nil => exact ⟨afterGap, h⟩
  | cons p ps ih => exact ih (follows_of_wellFormed h).rest

theorem inStep_append (left : List Leftover) (ps qs : List Segment) :
    inStep left (ps ++ qs) = (inStep left ps && inStep (ps.foldl lag left) qs) := by
  induction ps generalizing left with
  | nil => rfl
  | cons p ps ih => simp only [List.cons_append, inStep, ih, List.foldl_cons, Bool.and_assoc]

/-! ### White space -/

theorem length_le_count_text (lines : EmptyLines) : lines.length ≤ lines.text.count '\n' := by
  induction lines with
  | nil => exact Nat.zero_le _
  | cons line lines ih =>
    have hbreak : line.2.text.count '\n' = 1 := by cases line.2 <;> rfl
    have htext : EmptyLines.text (line :: lines) = line.1 ++ line.2.text ++ EmptyLines.text lines := rfl
    rw [htext, List.count_append, List.count_append, List.length_cons]
    omega

theorem count_dropWhile_isBlank (cs : List Char) :
    (cs.dropWhile Data.isBlank).count '\n' = cs.count '\n' := by
  induction cs with
  | nil => rfl
  | cons x cs ih =>
    by_cases hx : Data.isBlank x
    · have hne : x ≠ '\n' := by
        rintro rfl
        exact absurd hx (by decide)
      rw [List.dropWhile_cons_of_pos hx, ih, List.count_cons_of_ne hne]
    · rw [List.dropWhile_cons_of_neg hx]

theorem count_map_char (cs : List Char) :
    (cs.map Leftover.char).count (.char '\n') = cs.count '\n' :=
  List.count_map_of_injective cs Leftover.char (fun _ _ h => Leftover.char.inj h) '\n'

/-- What a segment adds is enough for the white space it stands for. -/
theorem covers_offers (p : Segment) : Leftover.Covers p.offers p.value := by
  cases p with
  | char c => exact Leftover.covers_chars [c]
  | escape code c => exact ⟨rfl, trivial⟩
  | blanks bs => exact Leftover.covers_chars bs
  | fold before first empty indent =>
    have hbreak : 1 ≤ first.text.count '\n' := by cases first <;> decide
    have hlines := length_le_count_text empty
    cases hempty : empty.isEmpty with
    | true =>
      have hmem : '\n' ∈ first.text := List.count_pos_iff.1 hbreak
      simp only [value, hempty, if_true]
      refine ⟨List.any_eq_true.2 ⟨.char '\n', ?_, by decide⟩, trivial⟩
      simp [offers, hmem]
    | false =>
      simp only [value, hempty, Bool.false_eq_true, if_false]
      apply Leftover.covers_breaks
      rw [offers, count_map_char]
      simp only [List.count_append]
      omega
  | joint first empty indent =>
    have hlines := length_le_count_text empty
    apply Leftover.covers_breaks
    cases first with
    | lf =>
      rw [offers, count_map_char, count_dropWhile_isBlank, List.count_append]
      omega
    | crlf =>
      rw [offers, List.count_cons, count_map_char, List.cons_append, List.count_cons, List.count_append]
      omega

/-- The source of a segment that stands for no visible character is left over until it is read. -/
theorem pending_offers {p : Segment} {rest : List Char} (hp : p.isSound) (hink : ¬p.isInk)
    (hrest : p.endsWithGap → ∀ x ∈ rest.head?, Data.isBlank x = false) :
    Pending rest p.offers (p.source ++ rest) := by
  have hwhites {cs : List Char} (hcs : ∀ x ∈ cs, isSpacing x) :
      Pending rest (cs.map .char) (cs ++ rest) := by
    simpa using Pending.done.whites fun x hx => isWhite_of_isSpacing (hcs x hx)
  cases p with
  | char c => exact .white (by simpa [isInk] using hink) .done
  | escape code c =>
    obtain ⟨letter, digits, hsource, hletter, hdigits⟩ := escape_source hp
    rw [hsource]
    exact .escape hletter hdigits .done
  | blanks bs =>
    simp only [isSound, Bool.and_eq_true] at hp
    exact hwhites fun x hx => isSpacing_of_mem_blanks hp.2 hx
  | fold before first empty indent => exact hwhites fun x hx => isSpacing_of_mem_fold hp hx
  | joint first empty indent =>
    have hspacing (x : Char) (hx : x ∈ first.text ++ (empty.text ++ indent)) : isSpacing x :=
      isSpacing_of_mem_fold (isSound_fold_of_joint hp) (by simpa using hx)
    cases first with
    | lf =>
      have htext : (joint .lf empty indent).source ++ rest =
          '\\' :: '\n' :: (empty.text ++ indent).takeWhile Data.isBlank ++
            ((empty.text ++ indent).dropWhile Data.isBlank ++ rest) := by
        rw [List.cons_append, List.cons_append, ← List.append_assoc, List.takeWhile_append_dropWhile]
        simp [source, LineBreak.text]
      rw [htext]
      refine .joint List.all_takeWhile ?_ (hwhites fun x hx => hspacing x ?_)
      · intro x hx
        have hhead := List.head?_dropWhile_not Data.isBlank (empty.text ++ indent)
        cases hdrop : (empty.text ++ indent).dropWhile Data.isBlank with
        | nil => exact hrest rfl x (by simpa [hdrop] using hx)
        | cons y tail =>
          obtain rfl : y = x := by simpa [hdrop] using hx
          simpa [hdrop] using hhead
      · exact List.mem_append_right _ ((List.dropWhile_suffix _).mem hx)
    | crlf =>
      have htext : (joint .crlf empty indent).source ++ rest =
          '\\' :: '\r' :: ([] ++ ('\n' :: empty.text ++ indent ++ rest)) := by
        simp [source, LineBreak.text]
      rw [htext]
      refine .escape (by decide) rfl (hwhites fun x hx => hspacing x ?_)
      exact List.mem_cons_of_mem _ hx

/-! ### Visible characters -/

theorem value_of_isInk {p : Segment} (h : p.isInk) :
    p.endsWithGap = false ∧ ∃ c, p.value = [c] ∧ ¬Text.isWhite c := by
  cases p with
  | char c | escape code c => exact ⟨rfl, c, rfl, by simpa [isInk] using h⟩
  | blanks bs | fold before first empty indent | joint first empty indent => cases h

theorem isWhite_of_mem_value {p : Segment} (hp : p.isSound) (hink : ¬p.isInk) {x : Char}
    (hx : x ∈ p.value) : Text.isWhite x := by
  have hbreaks {n : Nat} (h : x ∈ List.replicate n '\n') : Text.isWhite x := by
    rw [(List.mem_replicate.1 h).2]
    decide
  cases p with
  | char c | escape code c =>
    obtain rfl : x = c := List.mem_singleton.1 hx
    simpa [isInk] using hink
  | blanks bs =>
    simp only [isSound, Bool.and_eq_true] at hp
    exact isWhite_of_isSpacing (isSpacing_of_mem_blanks hp.2 hx)
  | fold before first empty indent =>
    simp only [value] at hx
    split at hx
    · rw [List.mem_singleton.1 hx]
      decide
    · exact hbreaks hx
  | joint first empty indent => exact hbreaks hx

/-- Every visible character of the value is written as a segment. -/
theorem exists_segment_of_visible {afterGap : Bool} {ps : List Segment} (hwell : wellFormed afterGap ps)
    {v w : List Char} {c : Char} (h : values ps = v ++ c :: w) (hc : ¬Text.isWhite c) :
    ∃ before p after, ps = before ++ p :: after ∧ p.isInk ∧ p.value = [c] ∧ values before = v := by
  induction ps generalizing afterGap v with
  | nil => simp at h
  | cons p ps ih =>
    have hfollows := follows_of_wellFormed hwell
    -- the character comes after the value of the first segment, or belongs to it
    rcases List.append_eq_append_iff.1 h with ⟨v', rfl, hrest⟩ | ⟨tail, hvalue, hrest⟩
    · obtain ⟨before, q, after, rfl, hq⟩ := ih hfollows.rest hrest
      exact ⟨p :: before, q, after, rfl, hq.1, hq.2.1, by rw [values_cons, hq.2.2]⟩
    · cases tail with
      | nil =>
        obtain ⟨before, q, after, rfl, hq⟩ := ih (v := []) hfollows.rest hrest.symm
        exact ⟨p :: before, q, after, rfl, hq.1, hq.2.1, by simp [hq.2.2, hvalue]⟩
      | cons x tail =>
        obtain ⟨rfl, -⟩ := List.cons.inj hrest
        by_cases hink : p.isInk
        · obtain ⟨-, y, hy, -⟩ := value_of_isInk hink
          rw [hy] at hvalue
          obtain ⟨rfl, rfl, rfl⟩ : v = [] ∧ y = c ∧ tail = [] := by
            cases v <;> simp_all
          exact ⟨[], p, ps, rfl, hink, hy, rfl⟩
        · have hmem : c ∈ p.value := by simp [hvalue]
          exact absurd (isWhite_of_mem_value hfollows.sound hink hmem) hc

/-- A visible character is taken for the segment it is written as, if that comes first. -/
theorem takes_self {p : Segment} (hp : p.isSound) (hink : p.isInk) {c : Char} (hc : p.value = [c])
    (rest : List Char) : Takes c (p.source ++ rest) [] p.source rest := by
  cases p with
  | char x =>
    obtain rfl : x = c := by simpa [value] using hc
    simp only [isSound, Bool.and_eq_true, bne_iff_ne] at hp
    exact takes_char hp.2 (by simp [Leftover.stops]) rest
  | escape code x =>
    obtain ⟨letter, digits, hsource, hletter, hdigits⟩ := escape_source hp
    rw [hsource]
    exact takes_escape hletter hdigits rest
  | blanks bs | fold before first empty indent | joint first empty indent => cases hink

/-- A character that is not stopped before its segment leaves nothing behind. -/
theorem lag_of_not_stops {p : Segment} (hword : p.endsWithGap = false) {c : Char} (hc : p.value = [c])
    {left : List Leftover} (hleft : ¬left.any (·.stops c)) : lag left p = [] := by
  rw [lag, hc, List.foldl_cons, List.foldl_nil, Leftover.after_append_of_not_stops hleft]
  cases p with
  | char x =>
    obtain rfl : x = c := by simpa [value] using hc
    exact Leftover.after_cons_of_stops (by simp [Leftover.stops]) []
  | escape code x => exact Leftover.after_cons_of_stops rfl []
  | blanks bs | fold before first empty indent | joint first empty indent => cases hword

/-! ### Segments one after the other -/

/-- Reading on over a segment. -/
theorem readsOn_segment {afterGap : Bool} {p : Segment} {ps : List Segment} {left : List Leftover}
    {text : List Char} (hp : Follows afterGap p ps) (h : Pending (p.source ++ sources ps) left text)
    (hink : p.isInk → .mark ∉ left) :
    ∃ used text', ReadsOn p.value text used text' ∧ Pending (sources ps) (lag left p) text' := by
  by_cases hp' : p.isInk
  · obtain ⟨hword, c, hc, hvisible⟩ := value_of_isInk hp'
    have hleft := h.not_stops hvisible (hink hp')
    obtain ⟨lead, -, htakes⟩ := h.takes_rest hleft (takes_self hp.sound hp' hc (sources ps))
    rw [hc, lag_of_not_stops hword hc hleft]
    exact ⟨_, _, htakes.readsOn, .done⟩
  · have hrest (hgap : p.endsWithGap) (x : Char) (hx : x ∈ (sources ps).head?) :
        Data.isBlank x = false := by
      refine (Data.noGapAhead_of_wellFormed (hgap ▸ hp.rest) x ?_).1
      rw [List.head?_append, Option.mem_def.1 hx]
      rfl
    exact (h.trans (pending_offers hp.sound hp' hrest)).readsOn ((covers_offers p).append left)

/-- The invariant of reading on: while no visible character comes with a backslash left over, the source
    goes on with what the segments leave over. -/
theorem readsOn_segments {afterGap : Bool} {ps qs : List Segment} {left : List Leftover}
    {text : List Char} (hwell : wellFormed afterGap (ps ++ qs)) (hstep : inStep left ps)
    (h : Pending (sources (ps ++ qs)) left text) :
    ∃ used text', ReadsOn (values ps) text used text' ∧
      Pending (sources qs) (ps.foldl lag left) text' := by
  induction ps generalizing afterGap left text with
  | nil => exact ⟨[], text, .nil text, h⟩
  | cons p ps ih =>
    have hfollows := follows_of_wellFormed hwell
    simp only [inStep, Bool.and_eq_true, Bool.not_eq_true', Bool.and_eq_false_iff] at hstep
    have hmark (hp : p.isInk) : .mark ∉ left := by
      simpa [hp] using hstep.1
    obtain ⟨used, middle, hreads, hmiddle⟩ := readsOn_segment hfollows h hmark
    obtain ⟨used', text', hreads', hpending⟩ := ih hfollows.rest hstep.2 hmiddle
    exact ⟨_, text', hreads.append hreads', hpending⟩

/-- A visible character is found at its segment exactly if no backslash is left over before it. -/
theorem locate_eq_iff {before after : List Segment} {p : Segment}
    (hwell : wellFormed false (before ++ p :: after)) (hstep : inStep [] before) (hink : p.isInk)
    {c : Char} (hc : p.value = [c]) (start : Position) :
    (locate .double c (readOn .double (values before) ⟨sources (before ++ p :: after), start⟩)).1 =
        (sources before).foldl Position.advance start ↔
      .mark ∉ before.foldl lag [] := by
  obtain ⟨-, c', hc', hvisible⟩ := value_of_isInk hink
  obtain rfl : c' = c := by simpa [hc'] using hc
  obtain ⟨used, text, hreads, hpending⟩ := readsOn_segments hwell hstep .done
  obtain ⟨afterGap, hrest⟩ := exists_wellFormed_of_append hwell
  have hsound := (follows_of_wellFormed hrest).sound
  have hbody : sources before ++ sources (p :: after) = used ++ text :=
    (sources_append before (p :: after)).symm.trans hreads.1
  rw [hreads.2]
  by_cases hmark : .mark ∈ before.foldl lag []
  · have hstops : (before.foldl lag []).any (·.stops c') := List.any_eq_true.2 ⟨_, hmark, rfl⟩
    obtain ⟨passed, taken, text', hne, htakes, hpending'⟩ := hpending.takes_left hstops
    obtain ⟨more, hmore⟩ := hpending'.suffix
    have hsources : sources before = used ++ passed ++ (taken ++ more) := by
      rw [htakes.1, ← hmore, ← List.append_assoc, ← List.append_assoc] at hbody
      simpa using List.append_cancel_right hbody
    rw [htakes.2, hsources, List.foldl_append, List.foldl_append]
    have hmoved : taken ++ more ≠ [] := by simp [hne]
    have hlater := Position.foldl_advance_ne hmoved
      (passed.foldl Position.advance (used.foldl Position.advance start))
    simpa [hmark] using hlater.symm
  · have hleft := hpending.not_stops hvisible hmark
    obtain ⟨lead, hlead, htakes⟩ := hpending.takes_rest hleft (takes_self hsound hink hc' (sources after))
    have hsources : sources before = used ++ lead := by
      rw [hlead, ← List.append_assoc] at hbody
      exact List.append_cancel_right hbody
    rw [htakes.2, hsources, List.foldl_append, List.append_nil]
    simpa using hmark

/-! ### Settled segments -/

/-- All that is left over is white space that is no escape. -/
def Spaced (left : List Leftover) : Prop :=
  ∀ x ∈ left, ∃ y, x = .char y ∧ isSpacing y

theorem spaced_nil : Spaced [] :=
  fun _ hx => absurd hx List.not_mem_nil

theorem spaced_map {cs : List Char} (h : ∀ y ∈ cs, isSpacing y) : Spaced (cs.map .char) := by
  intro x hx
  obtain ⟨y, hy, rfl⟩ := List.mem_map.1 hx
  exact ⟨y, rfl, h y hy⟩

theorem Spaced.not_stops {left : List Leftover} (h : Spaced left) {c : Char} (hc : ¬isSpacing c) :
    ¬left.any (·.stops c) := by
  intro hany
  obtain ⟨x, hx, hstops⟩ := List.any_eq_true.1 hany
  obtain ⟨y, rfl, hy⟩ := h x hx
  simp only [Leftover.stops, Bool.or_eq_true, Bool.and_eq_true, decide_eq_true_eq] at hstops
  rcases hstops with rfl | ⟨-, rfl⟩
  · exact hc hy
  · exact hc (by decide)

theorem Spaced.lag {left : List Leftover} (h : Spaced left) {p : Segment} (hp : Spaced p.offers) :
    Spaced (lag left p) := by
  intro x hx
  rcases List.mem_append.1 ((Leftover.foldl_after_suffix _ _).mem hx) with hx | hx
  · exact h x hx
  · exact hp x hx

/-- A line break leaves white space only, unless its backslash is parted from it by a carriage return. -/
theorem spaced_offers {p : Segment} (hp : p.isSound) (hbreak : p.breaksLine) (hwide : ¬p.isWideJoint) :
    Spaced p.offers := by
  cases p with
  | fold before first empty indent => exact spaced_map fun y hy => isSpacing_of_mem_fold hp hy
  | joint first empty indent =>
    cases first with
    | lf =>
      refine spaced_map fun y hy => isSpacing_of_mem_fold (isSound_fold_of_joint hp) ?_
      simpa using Or.inr (List.mem_append.1 ((List.dropWhile_suffix _).mem hy))
    | crlf => exact absurd rfl hwide
  | char c | escape code c | blanks bs => cases hbreak

theorem endsWithGap_of_breaksLine {p : Segment} (h : p.breaksLine) : p.endsWithGap := by
  cases p with
  | fold before first empty indent | joint first empty indent => rfl
  | char c | escape code c | blanks bs => cases h

/-- A segment that breaks no line leaves nothing behind, if an escape of white space or blanks find
    nothing left over. -/
theorem lag_of_not_breaksLine {afterGap : Bool} {p : Segment} {ps : List Segment} {left : List Leftover}
    (hp : Follows afterGap p ps) (hspaced : Spaced left)
    (hleft : left ≠ [] → afterGap ∧ ¬p.isWhiteEscape) (hbreak : ¬p.breaksLine) : lag left p = [] := by
  cases p with
  | char c => exact lag_of_not_stops rfl rfl (hspaced.not_stops (not_isSpacing_of_char hp.sound))
  | escape code c =>
    refine lag_of_not_stops rfl rfl ?_
    by_cases hc : isSpacing c
    · have hnil : left = [] := by
        by_contra hne
        exact (hleft hne).2 (isWhite_of_isSpacing hc)
      simp [hnil]
    · exact hspaced.not_stops hc
  | blanks bs =>
    have hnil : left = [] := by
      by_contra hne
      exact hp.parted ⟨(hleft hne).1, rfl⟩
    rw [hnil]
    exact Leftover.foldl_after_chars bs
  | fold before first empty indent | joint first empty indent => exact absurd rfl hbreak

/-- In settled segments white space is left over right after line breaks only, and no escape is taken for
    it. -/
theorem inStep_of_settled {afterGap : Bool} {ps : List Segment} (hwell : wellFormed afterGap ps)
    (hsettled : settled ps) {left : List Leftover} (hspaced : Spaced left)
    (hleft : left ≠ [] → afterGap ∧ ¬ps.head?.any isWhiteEscape) : inStep left ps := by
  induction ps generalizing afterGap left with
  | nil => rfl
  | cons p ps ih =>
    have hfollows := follows_of_wellFormed hwell
    simp only [settled, Bool.and_eq_true, Bool.not_eq_true', Bool.and_eq_false_iff] at hsettled
    obtain ⟨⟨hwide, hnext⟩, hsettled⟩ := hsettled
    have hmark : .mark ∉ left := by
      intro hmem
      obtain ⟨y, hy, -⟩ := hspaced _ hmem
      cases hy
    simp only [inStep, Bool.and_eq_true, Bool.not_eq_true', Bool.and_eq_false_iff]
    refine ⟨.inr (by simpa using hmark), ?_⟩
    by_cases hbreak : p.breaksLine
    · have hspaced' := hspaced.lag (spaced_offers hfollows.sound hbreak (by simp [hwide]))
      exact ih hfollows.rest hsettled hspaced' fun _ =>
        ⟨endsWithGap_of_breaksLine hbreak, by simpa [hbreak] using hnext⟩
    · rw [lag_of_not_breaksLine hfollows hspaced hleft hbreak]
      exact ih hfollows.rest hsettled spaced_nil fun hne => absurd rfl hne

end Segment

/-! ### Positions -/

/-- The place of a character of the value is where it is found after what comes before it. -/
theorem Scalar.positionAt_eq_locate {s : Scalar} {body v w : List Char} {c : Char} {start : Position}
    (hruns : s.runs = align s.style s.value.toList body start) (hvalue : s.value.toList = v ++ c :: w) :
    s.positionAt (byteSize v) = (locate s.style c (readOn s.style v ⟨body, start⟩)).1 := by
  have hmem : (byteSize v, (locate s.style c (readOn s.style v ⟨body, start⟩)).1) ∈
      placements s.style s.value.toList 0 ⟨body, start⟩ := by
    rw [hvalue, placements_append, Nat.zero_add]
    exact List.mem_append_right _ (List.mem_cons_self ..)
  have hle : byteSize v ≤ byteSize s.value.toList := by
    rw [hvalue, Text.byteSize_append]
    exact Nat.le_add_right ..
  obtain ⟨r, hr, hposition⟩ := getLast?_align hmem
  rw [Scalar.positionAt, ← byteSize_toList, Nat.min_eq_left hle, hruns, hr]
  exact hposition

/-- The offset of each visible character of the value leads to where the segment begins that it is written
    as, in a body that begins at an index of the document. -/
def Scalar.LeadsTo (s : Scalar) (document : List Char) (index : Nat) (ps : List Segment) : Prop :=
  ∀ before p after, ps = before ++ p :: after → p.isInk →
    s.positionAt (byteSize (Segment.values before)) =
      .ofIndex document (index + (Segment.sources before).length)

theorem ofIndex_lead {document lead rest : List Char} {i : Nat} (h : document.drop i = lead ++ rest) :
    Position.ofIndex document (i + lead.length) =
      lead.foldl Position.advance (.ofIndex document i) := by
  rw [ofIndex_add, h, List.take_left]

section Quoted

variable {document : List Char} {start stop : Nat} {ps : List Segment}
  (hraw : between document start stop = '"' :: (Segment.sources ps ++ ['"']))
  (hwell : Segment.wellFormed false ps)

include hraw

theorem exists_drop_eq : ∃ rest, document.drop start = '"' :: (Segment.sources ps ++ rest) := by
  obtain ⟨rest, hrest⟩ := List.take_prefix (stop - start) (document.drop start)
  rw [show (document.drop start).take (stop - start) = _ from hraw] at hrest
  exact ⟨'"' :: rest, by simpa using hrest.symm⟩

include hwell

/-- The scalar of a body between double quotes: its value, and the runs of value and body. -/
theorem ofSpan_quoted : (Scalar.ofSpan document .double start stop).value.toList = Segment.values ps ∧
    (Scalar.ofSpan document .double start stop).runs =
      align .double (Segment.values ps) (Segment.sources ps) (.ofIndex document (start + 1)) := by
  have hdecode : (decode .double (between document start stop)).toList = Segment.values ps := by
    rw [hraw, decode, Data.scalarText?_quoted hwell]
    exact String.toList_ofList
  have hquote : document[start]? = some '"' := by
    obtain ⟨rest, hrest⟩ := exists_drop_eq hraw
    rw [← List.head?_drop, hrest]
    rfl
  have hbody : bodyOf .double (between document start stop) (.ofIndex document start) =
      (Segment.sources ps, .ofIndex document (start + 1)) := by
    rw [hraw, bodyOf, ofIndex_succ hquote]
    simp only [List.drop_succ_cons, List.drop_zero, List.dropLast_concat]
    rfl
  have hruns : (Scalar.ofSpan document .double start stop).runs =
      align .double (decode .double (between document start stop)).toList
        (bodyOf .double (between document start stop) (.ofIndex document start)).1
        (bodyOf .double (between document start stop) (.ofIndex document start)).2 := rfl
  refine ⟨hdecode, ?_⟩
  rw [hruns, hdecode, hbody]

/-- A visible character leads to its segment exactly if no backslash is left over before it, as long as
    this is so for those before it. -/
theorem positionAt_eq_iff {before after : List Segment} {p : Segment} (hps : ps = before ++ p :: after)
    (hstep : Segment.inStep [] before) (hink : p.isInk) :
    (Scalar.ofSpan document .double start stop).positionAt (byteSize (Segment.values before)) =
        .ofIndex document (start + 1 + (Segment.sources before).length) ↔
      .mark ∉ before.foldl Segment.lag [] := by
  obtain ⟨-, c, hc, -⟩ := Segment.value_of_isInk hink
  obtain ⟨hvalue, hruns⟩ := ofSpan_quoted hraw hwell
  have hsplit : Segment.values ps = Segment.values before ++ c :: Segment.values after := by
    rw [hps, Segment.values_append, Segment.values_cons, hc]
    rfl
  have hdocument : ∃ rest, document.drop (start + 1) = Segment.sources before ++ rest := by
    obtain ⟨rest, hrest⟩ := exists_drop_eq hraw
    rw [hps, Segment.sources_append, List.append_assoc] at hrest
    exact ⟨_, by rw [← List.drop_drop, hrest]; rfl⟩
  obtain ⟨rest, hrest⟩ := hdocument
  rw [ofIndex_lead hrest, Scalar.positionAt_eq_locate (hvalue ▸ hruns) (hvalue.trans hsplit)]
  subst hps
  exact Segment.locate_eq_iff hwell hstep hink hc _

theorem leadsTo_iff_inStep :
    (Scalar.ofSpan document .double start stop).LeadsTo document (start + 1) ps ↔
      Segment.inStep [] ps := by
  constructor
  · -- each segment that is led to keeps the segments up to it in step
    intro hleads
    have hsteps (before after : List Segment) (hps : ps = before ++ after) :
        Segment.inStep [] before := by
      induction before using List.reverseRecOn generalizing after with
      | nil => rfl
      | append_singleton before p ih =>
        rw [List.append_assoc, List.singleton_append] at hps
        have hbefore := ih (p :: after) hps
        have hmark (hink : p.isInk) : .mark ∉ before.foldl Segment.lag [] :=
          (positionAt_eq_iff hraw hwell hps hbefore hink).1 (hleads before p after hps hink)
        rw [Segment.inStep_append, hbefore, Bool.true_and, Segment.inStep]
        by_cases hink : p.isInk
        · simpa [Segment.inStep, hink] using hmark hink
        · simp [Segment.inStep, hink]
    exact hsteps ps [] (List.append_nil ps).symm
  · intro hstep before p after hps hink
    rw [hps, Segment.inStep_append, Bool.and_eq_true] at hstep
    refine (positionAt_eq_iff hraw hwell hps hstep.1 hink).2 fun hmark => ?_
    exact absurd hstep.2 (by simp [Segment.inStep, hink, hmark])

end Quoted

/-- A body between double quotes is decoded to what its segments stand for, and every visible character of
    the value is written as a segment. They lead to their segments exactly if none of them comes while a
    backslash is left over; so they do if no escaped line break is written with a carriage return and no
    escape of white space follows a line break. -/
theorem Scalar.quoted_leads_to_segments {document : List Char} {start stop : Nat} {ps : List Segment}
    (hraw : between document start stop = '"' :: (Segment.sources ps ++ ['"']))
    (hwell : Segment.wellFormed false ps) :
    (Scalar.ofSpan document .double start stop).value = String.ofList (Segment.values ps) ∧
      (∀ v c w, Segment.values ps = v ++ c :: w → ¬Text.isWhite c → ∃ before p after,
        ps = before ++ p :: after ∧ p.isInk ∧ p.value = [c] ∧ Segment.values before = v) ∧
      ((Scalar.ofSpan document .double start stop).LeadsTo document (start + 1) ps ↔
        Segment.inStep [] ps) ∧
      (Segment.settled ps →
        (Scalar.ofSpan document .double start stop).LeadsTo document (start + 1) ps) := by
  have hiff := leadsTo_iff_inStep hraw hwell
  refine ⟨?_, fun v c w => Segment.exists_segment_of_visible hwell, hiff, fun hsettled => ?_⟩
  · rw [← (ofSpan_quoted hraw hwell).1, String.ofList_toList]
  · exact hiff.2 (Segment.inStep_of_settled hwell hsettled Segment.spaced_nil fun hne => absurd rfl hne)

/-- A document with a key whose value is a body between double quotes. -/
def Segment.underKey (ps : List Segment) : List Char :=
  "k: \"".toList ++ sources ps ++ "\"\n".toList

/-- The scalar under the key. -/
def Segment.scalarUnderKey? (ps : List Segment) : Option Scalar :=
  ((Node.parse (String.ofList (underKey ps))).toOption.bind (·.get? "k")).bind Node.scalar?

/-- Escapes of blanks around an escaped line break, a fold with an empty line, and an escape by number. -/
def Segment.mixedEscapes : List Segment :=
  [.char 'a', .escape [' '] ' ', .joint .lf [] [' ', ' '], .escape [' '] ' ', .char 'b',
    .fold [' '] .crlf [([], .crlf)] [' ', ' '], .escape ['u', '0', '0', 'e', '9'] 'é', .blanks [' '],
    .char 'c']

/-- The letter after the escaped line break is found behind its escaped blank, the letter that is written
    by number at its backslash, and the last one behind that escape. -/
theorem mixedEscapes_lead_to_segments :
    let document := Segment.underKey Segment.mixedEscapes
    let s := Scalar.ofSpan document .double 3 30
    between document 3 30 = '"' :: (Segment.sources Segment.mixedEscapes ++ ['"']) ∧
      Segment.wellFormed false Segment.mixedEscapes ∧ Segment.inStep [] Segment.mixedEscapes ∧
      Segment.scalarUnderKey? Segment.mixedEscapes = some s ∧ s.value = "a  b\né c" ∧
      s.positionAt 3 = ⟨2, 5⟩ ∧ s.positionAt 5 = ⟨4, 3⟩ ∧ s.positionAt 8 = ⟨4, 10⟩ := by
  intro document s
  have hraw : between document 3 30 = '"' :: (Segment.sources Segment.mixedEscapes ++ ['"']) := by
    decide +kernel
  have hwell : Segment.wellFormed false Segment.mixedEscapes := by decide +kernel
  have hstep : Segment.inStep [] Segment.mixedEscapes := by decide +kernel
  obtain ⟨hvalue, -, hiff, -⟩ := Scalar.quoted_leads_to_segments hraw hwell
  have hleads (n : Nat) (hn : n < Segment.mixedEscapes.length)
      (hink : (Segment.mixedEscapes.get ⟨n, hn⟩).isInk) :=
    hiff.2 hstep (Segment.mixedEscapes.take n) _ (Segment.mixedEscapes.drop (n + 1)) (by simp) hink
  refine ⟨hraw, hwell, hstep, by decide +kernel, hvalue.trans (by decide +kernel), ?_, ?_, ?_⟩
  · exact (hleads 4 (by decide) (by decide)).trans (by decide +kernel)
  · exact (hleads 6 (by decide) (by decide)).trans (by decide +kernel)
  · exact (hleads 8 (by decide) (by decide)).trans (by decide +kernel)

/-- Not all visible characters of a body under the key lead to their segments. -/
def Segment.Misleads (ps : List Segment) : Prop :=
  wellFormed false ps ∧ ∃ stop, between (underKey ps) 3 stop = '"' :: (sources ps ++ ['"']) ∧
    scalarUnderKey? ps = some (Scalar.ofSpan (underKey ps) .double 3 stop) ∧
    ¬(Scalar.ofSpan (underKey ps) .double 3 stop).LeadsTo (underKey ps) 4 ps

/-- An escaped blank after the indentation of a folded line is taken for the indentation, and the letter
    after it for the escape; an escaped line break with a carriage return is taken for the next letter. -/
theorem escapes_after_breaks_mislead :
    Segment.Misleads [.char 'a', .fold [] .lf [] [' ', ' '], .escape [' '] ' ', .char 'b'] ∧
      Segment.Misleads [.char 'a', .joint .crlf [] [' ', ' '], .char 'b'] := by
  refine ⟨⟨by decide +kernel, 12, by decide +kernel, by decide +kernel, fun h => ?_⟩,
    ⟨by decide +kernel, 12, by decide +kernel, by decide +kernel, fun h => ?_⟩⟩
  · have hb := h [.char 'a', .fold [] .lf [] [' ', ' '], .escape [' '] ' '] (.char 'b') [] rfl (by decide)
    exact absurd hb (by decide +kernel)
  · have hb := h [.char 'a', .joint .crlf [] [' ', ' ']] (.char 'b') [] rfl (by decide)
    exact absurd hb (by decide +kernel)

end Yaml

end WorkflowAudit
