import WorkflowAudit.Proofs.Yaml.Placement

/-!
The visible characters of a value and of its source, one by one. Outside double quotes a source is a text
in which at most the quotes are written twice; folding and indentation change nothing but its white space.
Main statement: whenever the value has the visible characters of that text, the places of its visible
characters are, in order, those of the visible characters of the text.
-/

namespace WorkflowAudit.Yaml

open Text (byteSize)

/-- How a text is written in the source of a scalar without escapes: between single quotes each quote
    stands twice, elsewhere each character stands for itself. -/
def Style.spell (style : Style) (text : List Char) : List Char :=
  if style = .single then text.flatMap fun c => if c = '\'' then ['\'', '\''] else [c] else text

/-- The visible characters, in order. -/
def ink (cs : List Char) : List Char :=
  cs.filter (!Text.isWhite ·)

/-- The indices of the visible characters, in order. -/
def inkIndices (cs : List Char) : List Nat :=
  (cs.zipIdx.filter fun e => !Text.isWhite e.1).map Prod.snd

/-! ### Spelling -/

theorem Style.spell_nil (style : Style) : style.spell [] = [] := by
  simp [spell]

theorem Style.spell_cons (style : Style) (c : Char) (text : List Char) :
    style.spell (c :: text) =
      (if style = .single ∧ c = '\'' then ['\'', '\''] else [c]) ++ style.spell text := by
  by_cases hstyle : style = .single
  · by_cases hc : c = '\'' <;> simp [spell, hstyle, hc]
  · simp [spell, hstyle]

/-- The visible characters of a spelled text are those of the text, each where the text before it ends. -/
theorem visible_spell (style : Style) (text : List Char) (i : Nat) (p : Position) :
    visible Position.advance style p (style.spell text) =
      (visible nextIndex .plain i text).map fun e =>
        ((style.spell (text.take (e.1 - i))).foldl Position.advance p, e.2) := by
  induction text generalizing i p with
  | nil => simp [Style.spell_nil]
  | cons c text ih =>
    have hplain : ¬(Style.plain = .single ∧ c = '\'' ∧ text.head? = some '\'') := by simp
    -- what comes later is spelled after this character
    have hlater : (visible nextIndex .plain (i + 1) text).map (fun e =>
        ((style.spell ((c :: text).take (e.1 - i))).foldl Position.advance p, e.2)) =
        visible Position.advance style
          ((style.spell [c]).foldl Position.advance p) (style.spell text) := by
      rw [ih (i + 1)]
      refine List.map_congr_left fun e he => ?_
      have hle : i + 1 ≤ e.1 := le_of_mem_visible he
      obtain ⟨m, hm⟩ := Nat.exists_eq_add_of_le hle
      have htake : (c :: text).take (e.1 - i) = c :: text.take (e.1 - (i + 1)) := by
        rw [hm, show i + 1 + m - i = m + 1 by omega, Nat.add_sub_cancel_left, List.take_succ_cons]
      rw [htake, Style.spell_cons, Style.spell_cons, Style.spell_nil, List.append_nil,
        List.foldl_append]
    by_cases hc : Text.isWhite c
    · have hquote : c ≠ '\'' := by rintro rfl; exact absurd hc (by decide)
      have hspell : style.spell [c] = [c] := by simp [Style.spell_cons, Style.spell_nil, hquote]
      rw [visible_white nextIndex .plain hc, nextIndex, hlater, hspell, Style.spell_cons]
      simp only [hquote, and_false, if_false, List.singleton_append]
      rw [visible_white _ _ hc]
      rfl
    · rw [visible_ink nextIndex .plain hc hplain, nextIndex, List.map_cons, hlater]
      have hhere : (style.spell ((c :: text).take (i - i))).foldl Position.advance p = p := by
        simp [Style.spell_nil]
      rw [hhere, Style.spell_cons, Style.spell_cons, Style.spell_nil]
      by_cases hquotes : style = .single ∧ c = '\''
      · obtain ⟨rfl, rfl⟩ := hquotes
        simp [visible_quotes]
      · rw [if_neg hquotes, List.singleton_append, visible_ink _ _ hc fun h => hquotes ⟨h.1, h.2.1⟩]
        rfl

/-! ### Indices -/

theorem visible_plain_eq_zipIdx (cs : List Char) (i : Nat) :
    visible nextIndex .plain i cs =
      ((cs.zipIdx i).filter fun e => !Text.isWhite e.1).map Prod.swap := by
  induction cs generalizing i with
  | nil => rfl
  | cons c cs ih =>
    have hplain : ¬(Style.plain = .single ∧ c = '\'' ∧ cs.head? = some '\'') := by simp
    by_cases hc : Text.isWhite c
    · rw [visible_white _ _ hc, nextIndex, ih]
      simp [hc]
    · rw [visible_ink _ _ hc hplain, nextIndex, ih]
      simp [hc]

theorem map_fst_visibleAt (cs : List Char) : (visibleAt .plain cs).map Prod.fst = inkIndices cs := by
  rw [visibleAt, visible_plain_eq_zipIdx, List.map_map, inkIndices]
  rfl

theorem map_snd_visibleAt (cs : List Char) : (visibleAt .plain cs).map Prod.snd = ink cs := by
  have hfilter : cs.zipIdx.filter (fun e => !Text.isWhite e.1) =
      cs.zipIdx.filter ((!Text.isWhite ·) ∘ Prod.fst) := rfl
  rw [visibleAt, visible_plain_eq_zipIdx, List.map_map, ink, hfilter]
  nth_rewrite 2 [← List.zipIdx_map_fst 0 cs]
  rw [List.filter_map]
  rfl

/-! ### Places -/

/-- The places of the visible characters of a value are those of the visible characters of its source,
    each at its own: white space of either side, however it is folded or indented, moves none of them. -/
theorem positions_of_ink {s : Scalar} {text : List Char} {start : Position}
    (hstyle : s.style ≠ .double)
    (hruns : s.runs = align s.style s.value.toList (s.style.spell text) start)
    (hink : ink s.value.toList = ink text) :
    (inkIndices s.value.toList).map (fun i => s.positionAt (byteSize (s.value.toList.take i))) =
      (inkIndices text).map fun j => (s.style.spell (text.take j)).foldl Position.advance start := by
  have hsame : (visible nextIndex .plain 0 s.value.toList).map Prod.snd =
      (visible Position.advance s.style start (s.style.spell text)).map Prod.snd := by
    rw [visible_spell s.style text 0, List.map_map]
    exact (map_snd_visibleAt _).trans (hink.trans (map_snd_visibleAt _).symm)
  rw [← map_fst_visibleAt, ← map_fst_visibleAt, List.map_map, List.map_map]
  have hlength : (visibleAt .plain s.value.toList).length = (visibleAt .plain text).length := by
    have := congrArg List.length hsame
    rwa [visible_spell s.style text 0, List.length_map, List.length_map, List.length_map] at this
  refine List.ext_getElem? fun n => ?_
  rw [List.getElem?_map, List.getElem?_map]
  cases hn : (visibleAt .plain s.value.toList)[n]? with
  | none =>
    rw [List.getElem?_eq_none_iff, hlength, ← List.getElem?_eq_none_iff] at hn
    rw [hn]
    rfl
  | some e =>
    obtain ⟨k, c⟩ := e
    obtain ⟨q, hq, hplace⟩ :=
      placements_visible hstyle 0 (s := ⟨s.style.spell text, start⟩) hsame hn
    rw [visible_spell s.style text 0, List.getElem?_map, Option.map_eq_some_iff] at hq
    obtain ⟨⟨j, d⟩, hj, heq⟩ := hq
    cases heq
    rw [Nat.sub_zero, Nat.zero_add] at hplace
    obtain ⟨r, hr, hpos⟩ := getLast?_align (List.mem_of_getElem? hplace)
    have hat : s.positionAt (byteSize (s.value.toList.take k)) =
        (s.style.spell (text.take (j - 0))).foldl Position.advance start := by
      rw [Scalar.positionAt, ← byteSize_toList, Nat.min_eq_left (byteSize_take_le _ _), hruns, hr]
      exact hpos
    rw [show (visibleAt .plain text)[n]? = some (j, d) from hj]
    exact congrArg some hat

/-- A value written between single quotes over three lines, with a quote and letters of two bytes. -/
def wrappedQuote : Scalar :=
  ⟨"it's  é\nü", ⟨1, 7⟩, .single,
    align .single "it's  é\nü".toList (Style.single.spell "it's  é \n\n   ü".toList) ⟨1, 8⟩⟩

/-- The quote counts once and takes two columns, and the last letter is found after its indentation. -/
theorem wrappedQuote_positions :
    ink wrappedQuote.value.toList = ink "it's  é \n\n   ü".toList ∧
      (inkIndices wrappedQuote.value.toList).map (fun i =>
          wrappedQuote.positionAt (byteSize (wrappedQuote.value.toList.take i))) =
        [⟨1, 8⟩, ⟨1, 9⟩, ⟨1, 10⟩, ⟨1, 12⟩, ⟨1, 15⟩, ⟨3, 4⟩] := by
  have hink : ink wrappedQuote.value.toList = ink "it's  é \n\n   ü".toList := by decide +kernel
  refine ⟨hink, ?_⟩
  rw [positions_of_ink (by decide) rfl hink]
  decide +kernel

end WorkflowAudit.Yaml
