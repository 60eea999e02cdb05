import WorkflowAudit.Proofs.Yaml.Quoted.Segments

/-!
Decoding a text between double quotes. Words and gaps are read in turn: a word is a run of characters and
escapes, a gap a run of blanks and line breaks. Main statement: a text that is a body between double
quotes is decoded to what its segments stand for.
-/

namespace WorkflowAudit.Yaml

namespace Data

/-! ### Cursors -/

theorem Cursor.skip_zero (c : Cursor) : c.skip 0 = c := rfl

theorem Cursor.skip_skip (c : Cursor) (m n : Nat) : (c.skip m).skip n = c.skip (m + n) := by
  simp [skip, Nat.add_assoc]

theorem Cursor.atMarker_of_column {c : Cursor} (h : c.column ≠ 0) : c.atMarker = false := by
  simp [atMarker, h]

/-- Whether a marker is ahead depends on the column and on what follows. -/
theorem Cursor.atMarker_eq {c : Cursor} (h : (Cursor.ofText c.rest).atMarker = false) :
    c.atMarker = false := by
  by_cases hcolumn : c.column = 0
  · simpa [atMarker, ofText, hcolumn] using h
  · exact atMarker_of_column hcolumn

theorem Cursor.readBreak_eq {c : Cursor} {b : LineBreak} {rest : List Char}
    (h : c.rest = b.text ++ rest) : c.readBreak.1 = ['\n'] ∧ c.readBreak.2.rest = rest ∧
      c.readBreak.2.column = 0 := by
  cases b <;> simp [readBreak, h, LineBreak.text, isBreak]

/-! ### Gaps -/

/-- Given enough steps, reading on from a gap at a cursor gives this gap and leaves this cursor. -/
def ReadsGap (g : Gap) (c : Cursor) (r : Gap × Cursor) : Prop :=
  ∀ fuel, c.rest.length < fuel → Gap.read? 0 fuel g c = some r

/-- Neither a blank nor a line break comes first. -/
def NoGapAhead (cs : List Char) : Prop :=
  ∀ x ∈ cs.head?, isBlank x = false ∧ isBreak x = false

theorem readsGap_stop (g : Gap) {c : Cursor} (h : NoGapAhead c.rest) : ReadsGap g c (g, c) := by
  intro fuel hfuel
  obtain ⟨fuel, rfl⟩ := Nat.exists_eq_add_of_lt hfuel
  rw [Gap.read?, Cursor.char?]
  cases hx : c.rest.head? with
  | none => rfl
  | some x =>
    obtain ⟨hblank, hbreak⟩ := h x hx
    simp [hblank, hbreak]

/-- A blank is kept on the first line and dropped on later ones. -/
theorem readsGap_blank {x : Char} {rest : List Char} {g : Gap} {c : Cursor} {r : Gap × Cursor}
    (hx : isBlank x) (hc : c.rest = x :: rest)
    (h : ReadsGap (if g.first.isSome then g else { g with blanks := g.blanks ++ [x] }) (c.skip 1) r) :
    ReadsGap g c r := by
  intro fuel hfuel
  obtain ⟨fuel, rfl⟩ := Nat.exists_eq_add_of_lt hfuel
  have hlt : (c.skip 1).rest.length < c.rest.length + fuel := by
    simp [Cursor.skip, hc]
    omega
  have hcolumn : ¬(c.column : Int) < 0 := by omega
  rw [Gap.read?, Cursor.char?, hc, List.head?_cons]
  simpa [hx, hcolumn, hc] using h _ hlt

theorem readsGap_break {b : LineBreak} {rest : List Char} {g g' : Gap} {c : Cursor}
    {r : Gap × Cursor} (hc : c.rest = b.text ++ rest)
    (hg : g.first = none ∧ g' = ⟨[], some ['\n'], []⟩ ∨
      g.first.isSome ∧ g' = { g with others := g.others ++ ['\n'] })
    (h : ReadsGap g' c.readBreak.2 r) : ReadsGap g c r := by
  intro fuel hfuel
  obtain ⟨fuel, rfl⟩ := Nat.exists_eq_add_of_lt hfuel
  obtain ⟨htext, hrest, -⟩ := Cursor.readBreak_eq hc
  have hlt : c.readBreak.2.rest.length < c.rest.length + fuel := by
    rw [hrest, hc]
    cases b <;> simp [LineBreak.text] <;> omega
  obtain ⟨x, hx, hblank, hbreak⟩ : ∃ x, c.rest.head? = some x ∧ isBlank x = false ∧ isBreak x := by
    rw [hc]
    cases b
    · exact ⟨'\n', rfl, by decide, by decide⟩
    · exact ⟨'\r', rfl, by decide, by decide⟩
  rw [Gap.read?, Cursor.char?, hx]
  simp only [hblank, hbreak, Bool.false_eq_true, if_false, if_true, htext]
  rcases hg with ⟨hfirst, rfl⟩ | ⟨hfirst, rfl⟩
  · simpa only [hfirst] using h _ hlt
  · obtain ⟨f, hf⟩ := Option.isSome_iff_exists.1 hfirst
    simpa only [hf] using h _ hlt

/-- Blanks of the first line. -/
theorem readsGap_blanks {bs kept rest : List Char} {c : Cursor} {r : Gap × Cursor}
    (hbs : bs.all isBlank) (hc : c.rest = bs ++ rest)
    (h : ReadsGap ⟨kept ++ bs, none, []⟩ (c.skip bs.length) r) :
    ReadsGap ⟨kept, none, []⟩ c r := by
  induction bs generalizing kept c with
  | nil => simpa [Cursor.skip_zero] using h
  | cons x bs ih =>
    simp only [List.all_cons, Bool.and_eq_true] at hbs
    refine readsGap_blank hbs.1 hc (ih hbs.2 (by simp [Cursor.skip, hc]) ?_)
    rw [Cursor.skip_skip, Nat.add_comm]
    simpa using h

/-- Blanks of a later line. -/
theorem readsGap_indent {bs rest : List Char} {g : Gap} {c : Cursor} {r : Gap × Cursor}
    (hfirst : g.first.isSome) (hbs : bs.all isBlank) (hc : c.rest = bs ++ rest)
    (h : ReadsGap g (c.skip bs.length) r) : ReadsGap g c r := by
  induction bs generalizing c with
  | nil => simpa [Cursor.skip_zero] using h
  | cons x bs ih =>
    simp only [List.all_cons, Bool.and_eq_true] at hbs
    refine readsGap_blank hbs.1 hc ?_
    rw [if_pos hfirst]
    refine ih hbs.2 (by simp [Cursor.skip, hc]) ?_
    rwa [Cursor.skip_skip, Nat.add_comm]

/-- After the first line break, the empty lines add their breaks and the indentation adds nothing. -/
theorem exists_readsGap_lines {f others indent rest : List Char} {lines : EmptyLines} {c : Cursor}
    (hlines : lines.areBlank) (hindent : indent.all isBlank) (hstop : NoGapAhead rest)
    (hc : c.rest = lines.text ++ indent ++ rest) (hcolumn : c.column = 0) :
    ∃ c', ReadsGap ⟨[], some f, others⟩ c
        (⟨[], some f, others ++ List.replicate lines.length '\n'⟩, c') ∧
      c'.rest = rest ∧ c'.column = indent.length := by
  induction lines generalizing others c with
  | nil =>
    have hrest : (c.skip indent.length).rest = rest := by simp [Cursor.skip, hc, EmptyLines.text]
    refine ⟨c.skip indent.length, ?_, hrest, by simp [Cursor.skip, hcolumn]⟩
    refine readsGap_indent rfl hindent (by simpa [EmptyLines.text] using hc) ?_
    simpa using readsGap_stop _ (hrest ▸ hstop)
  | cons line lines ih =>
    simp only [EmptyLines.areBlank, List.all_cons, Bool.and_eq_true] at hlines
    have hsplit : c.rest = line.1 ++ (line.2.text ++ (EmptyLines.text lines ++ indent ++ rest)) := by
      simp [hc, EmptyLines.text]
    have hbreak : (c.skip line.1.length).rest =
        line.2.text ++ (EmptyLines.text lines ++ indent ++ rest) := by
      simp [Cursor.skip, hsplit]
    obtain ⟨-, hrest, hzero⟩ := Cursor.readBreak_eq hbreak
    obtain ⟨c', hreads, hend⟩ := @ih (others ++ ['\n']) _ hlines.2 hrest hzero
    refine ⟨c', ?_, hend⟩
    refine readsGap_indent rfl hlines.1 hsplit (readsGap_break hbreak (.inr ⟨rfl, rfl⟩) ?_)
    have hothers : others ++ List.replicate (lines.length + 1) '\n' =
        others ++ ['\n'] ++ List.replicate lines.length '\n' := by
      simp [List.replicate_succ]
    rwa [List.length_cons, hothers]

/-- A gap is read to its end, and stands for its value. -/
theorem exists_readsGap {p : Segment} {rest : List Char} {c : Cursor} (hp : p.isSound)
    (hgap : p.isGap) (hstop : NoGapAhead rest) (hc : c.rest = p.source ++ rest) :
    ∃ g c', ReadsGap Gap.none c (g, c') ∧ g.text = p.value ∧ c'.rest = rest ∧
      (c'.column = 0 → p.beginsLine) := by
  cases p with
  | blanks bs =>
    simp only [Segment.isSound, Bool.and_eq_true, Bool.not_eq_true', List.isEmpty_eq_false_iff] at hp
    have hrest : (c.skip bs.length).rest = rest := by simp [Cursor.skip, hc, Segment.source]
    refine ⟨⟨bs, none, []⟩, c.skip bs.length, ?_, rfl, hrest, fun hcolumn => ?_⟩
    · exact readsGap_blanks hp.2 hc (readsGap_stop _ (hrest ▸ hstop))
    · have hlength : bs.length ≠ 0 := by simpa using hp.1
      simp only [Cursor.skip] at hcolumn
      omega
  | fold before first empty indent =>
    simp only [Segment.isSound, Bool.and_eq_true] at hp
    obtain ⟨⟨hbefore, hempty⟩, hindent⟩ := hp
    have hsplit : c.rest = before ++ (first.text ++ (empty.text ++ indent ++ rest)) := by
      simp [hc, Segment.source]
    have hbreak : (c.skip before.length).rest = first.text ++ (empty.text ++ indent ++ rest) := by
      simp [Cursor.skip, hsplit]
    obtain ⟨-, hlines, hzero⟩ := Cursor.readBreak_eq hbreak
    obtain ⟨c', hreads, hrest, hcolumn⟩ :=
      @exists_readsGap_lines ['\n'] [] _ _ _ _ hempty hindent hstop hlines hzero
    refine ⟨⟨[], some ['\n'], [] ++ List.replicate empty.length '\n'⟩, c', ?_, ?_, hrest, fun h => ?_⟩
    · exact readsGap_blanks hbefore hsplit (readsGap_break hbreak (.inl ⟨rfl, rfl⟩) hreads)
    · cases empty <;> simp [Gap.text, Segment.value, List.replicate_succ]
    · simpa [Segment.beginsLine, hcolumn] using h
  | char x | escape code x | joint first empty indent => cases hgap

/-- What follows an escaped line break is read to the end of the white space. -/
theorem exists_readsGap_joint {first : LineBreak} {empty : EmptyLines} {indent rest : List Char}
    {c : Cursor} (hp : (Segment.joint first empty indent).isSound) (hstop : NoGapAhead rest)
    (hc : c.rest = first.text ++ (empty.text ++ indent ++ rest)) :
    ∃ g c', ReadsGap Gap.escaped c.readBreak.2 (g, c') ∧
      g.text = (Segment.joint first empty indent).value ∧ c'.rest = rest ∧
      (c'.column = 0 → (Segment.joint first empty indent).beginsLine) := by
  simp only [Segment.isSound, Bool.and_eq_true] at hp
  obtain ⟨-, hlines, hzero⟩ := Cursor.readBreak_eq hc
  obtain ⟨c', hreads, hrest, hcolumn⟩ :=
    @exists_readsGap_lines [] [] _ _ _ _ hp.1 hp.2 hstop hlines hzero
  refine ⟨_, c', hreads, ?_, hrest, fun h => ?_⟩
  · simp [Gap.text, Segment.value]
  · simpa [Segment.beginsLine, hcolumn] using h

/-! ### Words -/

/-- Given enough steps, a word is read as this value, with this width, and to an escaped line break or
    not. -/
def ReadsWord (cs : List Char) (r : List Char × Nat × Bool) : Prop :=
  ∀ fuel, cs.length < fuel → quotedWord true fuel cs = some r

theorem readsWord_stop {x : Char} (rest : List Char) (hx : isBlank x ∨ isBreak x ∨ x = '"') :
    ReadsWord (x :: rest) ([], 0, false) := by
  intro fuel hfuel
  obtain ⟨fuel, rfl⟩ := Nat.exists_eq_add_of_lt hfuel
  rcases hx with hx | hx | rfl
  · simp [quotedWord, hx]
  · simp [quotedWord, hx]
  · simp [quotedWord]

theorem readsWord_joint {x : Char} (rest : List Char) (hx : isBreak x) :
    ReadsWord ('\\' :: x :: rest) ([], 1, true) := by
  intro fuel hfuel
  obtain ⟨fuel, rfl⟩ := Nat.exists_eq_add_of_lt hfuel
  have hslash : isBlank '\\' = false ∧ isBreak '\\' = false := by decide
  simp [quotedWord, hx, hslash]

/-- A character and an escape are read as one character each. -/
theorem readsWord_cons {p : Segment} {rest v : List Char} {w : Nat} {e : Bool} (hp : p.isSound)
    (hword : p.endsWithGap = false) (h : ReadsWord rest (v, w, e)) :
    ReadsWord (p.source ++ rest) (p.value ++ v, w + p.source.length, e) := by
  intro fuel hfuel
  cases fuel with
  | zero => cases hfuel
  | succ fuel =>
  have hmore : 0 < p.source.length → quotedWord true fuel rest = some (v, w, e) := by
    intro hpos
    rw [List.length_append] at hfuel
    exact h fuel (by omega)
  cases p with
  | char c =>
    simp only [Segment.isSound, Bool.and_eq_true, Bool.not_eq_true', bne_iff_ne] at hp
    obtain ⟨⟨⟨⟨-, hblank⟩, hbreak⟩, hquote⟩, hslash⟩ := hp
    replace hmore := hmore (by simp [Segment.source])
    simp [Segment.source, quotedWord, hblank, hbreak, hquote, hslash, hmore, Segment.value]
  | escape code c =>
    obtain ⟨letter, digits, rfl, -, hbreak, -⟩ := Segment.escape_code hp
    have hcode := Segment.escape?_append (of_decide_eq_true hp) rest
    have hslash : isBlank '\\' = false ∧ isBreak '\\' = false := by decide
    rw [List.cons_append] at hcode
    replace hmore := hmore (by simp [Segment.source])
    simp [Segment.source, quotedWord, hslash, hbreak, hcode, hmore, Segment.value]
  | blanks bs | fold before first empty indent | joint first empty indent => cases hword

/-- A body has a word at its beginning, if only an empty one. -/
theorem exists_readsWord {afterGap : Bool} {ps : List Segment} (h : Segment.wellFormed afterGap ps) :
    ∃ r, ReadsWord (Segment.sources ps ++ ['"']) r := by
  induction ps generalizing afterGap with
  | nil => exact ⟨_, readsWord_stop [] (.inr (.inr rfl))⟩
  | cons p ps ih =>
    have hfollows := Segment.follows_of_wellFormed h
    rw [Segment.sources_cons, List.append_assoc]
    by_cases hgap : p.isGap
    · obtain ⟨x, rest, hsource, hx⟩ := Segment.source_of_isGap hfollows.sound hgap
      rw [hsource]
      exact ⟨_, readsWord_stop _ (hx.imp_right .inl)⟩
    · by_cases hword : p.endsWithGap
      · obtain ⟨first, empty, indent, rfl⟩ := Segment.eq_joint hword hgap
        obtain ⟨x, rest, hfirst, hx⟩ := first.text_eq_cons
        simp only [Segment.source, hfirst, List.cons_append]
        exact ⟨_, readsWord_joint _ hx⟩
      · obtain ⟨⟨v, w, e⟩, hrest⟩ := ih hfollows.rest
        exact ⟨_, readsWord_cons hfollows.sound (by simpa using hword) hrest⟩

/-! ### Bodies -/

theorem noGapAhead_of_wellFormed {ps : List Segment} (h : Segment.wellFormed true ps) :
    NoGapAhead (Segment.sources ps ++ ['"']) := by
  cases ps with
  | nil =>
    rintro x hx
    cases hx
    decide
  | cons p ps =>
    have hfollows := Segment.follows_of_wellFormed h
    have hslash : isBlank '\\' = false ∧ isBreak '\\' = false := by decide
    rintro x hx
    cases p with
    | char c =>
      cases hx
      have hsound := hfollows.sound
      simp only [Segment.isSound, Bool.and_eq_true, Bool.not_eq_true'] at hsound
      exact ⟨hsound.1.1.1.2, hsound.1.1.2⟩
    | escape code c => cases hx; exact hslash
    | joint first empty indent => cases hx; exact hslash
    | blanks bs | fold before first empty indent => exact absurd ⟨rfl, rfl⟩ hfollows.parted

/-- A character or an escape adds its character to the value. -/
theorem quoted?_word {p : Segment} {rest value : List Char} {c : Cursor} {fuel : Nat}
    (hp : p.isSound) (hword : p.endsWithGap = false) (hrest : ∃ r, ReadsWord rest r)
    (hc : c.rest = p.source ++ rest) (hmarker : c.atMarker = false)
    (hmarker' : (c.skip p.source.length).atMarker = false) :
    quoted? true (fuel + 1) value c =
      quoted? true (fuel + 1) (value ++ p.value) (c.skip p.source.length) := by
  obtain ⟨⟨v, w, e⟩, hrest⟩ := hrest
  have hskip : (c.skip p.source.length).rest = rest := by simp [Cursor.skip, hc]
  have hhere : quotedWord true (c.rest.length + 1) c.rest =
      some (p.value ++ v, w + p.source.length, e) := by
    rw [hc]
    exact readsWord_cons hp hword hrest _ (Nat.lt_succ_self _)
  have hthere : quotedWord true (rest.length + 1) rest = some (v, w, e) :=
    hrest _ (Nat.lt_succ_self _)
  rw [quoted?, quoted?, hmarker, hmarker', hhere, hskip, hthere]
  simp only [Bool.false_eq_true, if_false, Cursor.skip_skip, List.append_assoc,
    Nat.add_comm w p.source.length]

/-- White space adds what it stands for. -/
theorem quoted?_gap {p : Segment} {rest value : List Char} {c c' : Cursor} {g : Gap} {fuel : Nat}
    (hp : p.isSound) (hgap : p.isGap) (hc : c.rest = p.source ++ rest)
    (hmarker : c.atMarker = false) (hreads : ReadsGap Gap.none c (g, c')) :
    quoted? true (fuel + 1) value c = quoted? true fuel (value ++ g.text) c' := by
  obtain ⟨x, tail, hsource, hx⟩ := Segment.source_of_isGap hp hgap
  rw [hsource, List.cons_append] at hc
  have hword : quotedWord true (c.rest.length + 1) c.rest = some ([], 0, false) := by
    rw [hc]
    exact readsWord_stop _ (hx.imp_right .inl) _ (Nat.lt_succ_self _)
  have hchar : c.char? = some x := by simp [Cursor.char?, hc]
  have hblank : (isBlank x || isBreak x) = true := by simpa using hx
  rw [quoted?, hmarker, hword]
  simp only [Bool.false_eq_true, if_false, Cursor.skip_zero, hchar, hblank, if_true, List.append_nil]
  rw [hreads _ (Nat.lt_succ_self _)]

/-- An escaped line break adds what the white space after it stands for. -/
theorem quoted?_joint {first : LineBreak} {rest value : List Char} {c c' : Cursor} {g : Gap}
    {fuel : Nat} (hc : c.rest = '\\' :: (first.text ++ rest)) (hmarker : c.atMarker = false)
    (hreads : ReadsGap Gap.escaped (c.skip 1).readBreak.2 (g, c')) :
    quoted? true (fuel + 1) value c = quoted? true fuel (value ++ g.text) c' := by
  obtain ⟨x, tail, hfirst, hx⟩ := first.text_eq_cons
  have hword : quotedWord true (c.rest.length + 1) c.rest = some ([], 1, true) := by
    rw [hc, hfirst, List.cons_append]
    exact readsWord_joint _ hx _ (Nat.lt_succ_self _)
  rw [quoted?, hmarker, hword]
  simp only [Bool.false_eq_true, if_false, if_true, List.append_nil]
  rw [hreads _ (Nat.lt_succ_self _)]

theorem quoted?_close {value : List Char} {c : Cursor} {fuel : Nat} (hc : c.rest = ['"'])
    (hmarker : c.atMarker = false) : quoted? true (fuel + 1) value c = some (value, c.skip 1) := by
  have hword : quotedWord true (c.rest.length + 1) c.rest = some ([], 0, false) := by
    rw [hc]
    exact readsWord_stop _ (.inr (.inr rfl)) _ (Nat.lt_succ_self _)
  have hquote : (isBlank '"' || isBreak '"') = false := by decide
  rw [quoted?, hmarker, hword]
  simp [Cursor.skip_zero, Cursor.char?, hc, hquote]

/-- A body is read to its closing quote, and adds the values of its segments one after the other. -/
theorem quoted?_body {afterGap : Bool} {ps : List Segment} (h : Segment.wellFormed afterGap ps)
    {c : Cursor} (hc : c.rest = Segment.sources ps ++ ['"']) (hmarker : c.atMarker = false)
    (value : List Char) {fuel : Nat} (hfuel : c.rest.length < fuel) :
    ∃ c', quoted? true fuel value c = some (value ++ Segment.values ps, c') ∧ c'.rest = [] := by
  induction ps generalizing afterGap c value fuel with
  | nil =>
    obtain ⟨fuel, rfl⟩ := Nat.exists_eq_add_of_lt hfuel
    refine ⟨c.skip 1, ?_, by simp [Cursor.skip, hc]⟩
    rw [quoted?_close hc hmarker, Segment.values_nil, List.append_nil]
  | cons p ps ih =>
    have hfollows := Segment.follows_of_wellFormed h
    have hpos := Segment.source_length_pos hfollows.sound
    rw [Segment.sources_cons, List.append_assoc] at hc
    obtain ⟨fuel, rfl⟩ : ∃ n, fuel = n + 1 := ⟨fuel - 1, by omega⟩
    rw [Segment.values_cons, ← List.append_assoc]
    -- after white space a line may begin, which is then no marker
    have hline {c' : Cursor} (hrest : c'.rest = Segment.sources ps ++ ['"'])
        (hbegins : c'.column = 0 → p.beginsLine) : c'.atMarker = false := by
      by_cases hcolumn : c'.column = 0
      · exact Cursor.atMarker_eq (hrest ▸ hfollows.unmarked (hbegins hcolumn))
      · exact Cursor.atMarker_of_column hcolumn
    have hless {c' : Cursor} (hrest : c'.rest = Segment.sources ps ++ ['"']) :
        c'.rest.length < fuel := by
      rw [hc, List.length_append] at hfuel
      rw [hrest]
      omega
    by_cases hword : p.endsWithGap
    · have hstop : NoGapAhead (Segment.sources ps ++ ['"']) :=
        noGapAhead_of_wellFormed (hword ▸ hfollows.rest)
      by_cases hgap : p.isGap
      · obtain ⟨g, c', hreads, htext, hrest, hbegins⟩ := exists_readsGap hfollows.sound hgap hstop hc
        rw [quoted?_gap hfollows.sound hgap hc hmarker hreads, htext]
        exact ih hfollows.rest hrest (hline hrest hbegins) _ (hless hrest)
      · obtain ⟨first, empty, indent, rfl⟩ := Segment.eq_joint hword hgap
        simp only [Segment.source, List.cons_append, List.append_assoc] at hc
        have hbreak : (c.skip 1).rest =
            first.text ++ (empty.text ++ indent ++ (Segment.sources ps ++ ['"'])) := by
          simp [Cursor.skip, hc]
        obtain ⟨g, c', hreads, htext, hrest, hbegins⟩ :=
          exists_readsGap_joint hfollows.sound hstop hbreak
        rw [quoted?_joint hc hmarker hreads, htext]
        exact ih hfollows.rest hrest (hline hrest hbegins) _ (hless hrest)
    · have hrest : (c.skip p.source.length).rest = Segment.sources ps ++ ['"'] := by
        simp [Cursor.skip, hc]
      have hnext : (c.skip p.source.length).atMarker = false := by
        apply Cursor.atMarker_of_column
        simp only [Cursor.skip]
        omega
      rw [quoted?_word hfollows.sound (by simpa using hword) (exists_readsWord hfollows.rest) hc hmarker
        hnext]
      exact ih hfollows.rest hrest hnext _ (Nat.lt_succ_of_lt (hless hrest))

/-! ### Documents -/

/-- At the end of a text outside all collections the tokens are complete, if no key is required. -/
theorem Scan.run_end {c : Cursor} (hc : c.rest = []) {k : KeyPlace} (hk : k.required = false)
    (tokens : Array Token) (indent : Int) (keyAllowed : Bool) (fuel : Nat) :
    Scan.run (fuel + 1) ⟨c, tokens, indent, [], keyAllowed, some k, []⟩ = some tokens.toList := by
  obtain ⟨rest, index, line, column⟩ := c
  obtain rfl : rest = [] := hc
  by_cases hstale : isStale ⟨[], index, line, column⟩ k <;>
    simp [run, skipGap, Cursor.isChar, Cursor.span, Cursor.skip, Cursor.char?, dropStale, unroll,
      inFlow, closeTo, dropKey, hk, hstale, Option.filter]

/-- A document that is a body between double quotes has one token. -/
theorem Scan.run_quoted {value body : List Char} {c : Cursor}
    (hbody : quoted? true (body.length + 2) [] ⟨body, 1, 0, 1⟩ = some (value, c)) (hc : c.rest = [])
    (fuel : Nat) :
    Scan.run (fuel + 2) (Scan.ofText ('"' :: body)) = some [.scalar (String.ofList value) false] := by
  have hquote : isBreak '"' = false := by decide
  have hskip : skipGap (('"' :: body).length + 1) (Scan.ofText ('"' :: body)) =
      Scan.ofText ('"' :: body) := by
    simp [skipGap, Scan.ofText, Cursor.ofText, Cursor.isChar, Cursor.span, Cursor.skip_zero,
      Cursor.char?, hquote]
  have hmarker : (Cursor.ofText ('"' :: body)).atMarker = false := by
    simp only [Cursor.atMarker, Cursor.ofText]
    split
    · rename_i heq
      cases heq
      simp
    · rfl
  have htoken : (Scan.ofText ('"' :: body)).token? '"' body =
      some ⟨c, #[.scalar (String.ofList value) false], -1, [], false, some ⟨0, 0, 0, 0, false⟩, []⟩ := by
    have hcursor : (Cursor.ofText ('"' :: body)).skip 1 = ⟨body, 1, 0, 1⟩ := rfl
    have hplace : (Cursor.ofText ('"' :: body)).index = 0 ∧ (Cursor.ofText ('"' :: body)).line = 0 ∧
        (Cursor.ofText ('"' :: body)).column = 0 := ⟨rfl, rfl, rfl⟩
    simp [token?, Scan.ofText, hmarker, noteKey, dropKey, hcursor, hplace, hbody, push, inFlow]
  have hstart : (skipGap (('"' :: body).length + 1) (Scan.ofText ('"' :: body))).dropStale =
      some (Scan.ofText ('"' :: body)) := by
    rw [hskip]
    rfl
  rw [run]
  simp only [Scan.ofText, Cursor.ofText] at hstart ⊢
  rw [hstart]
  change (token? (Scan.ofText ('"' :: body)) '"' body).bind (run (fuel + 1)) = _
  rw [htoken]
  exact run_end hc rfl ..

/-- A text that is a body between double quotes is decoded to what its segments stand for. -/
theorem scalarText?_quoted {ps : List Segment} (h : Segment.wellFormed false ps) :
    scalarText? ('"' :: (Segment.sources ps ++ ['"'])) =
      some (String.ofList (Segment.values ps)) := by
  obtain ⟨c, hbody, hc⟩ := quoted?_body h (c := ⟨Segment.sources ps ++ ['"'], 1, 0, 1⟩) rfl rfl []
    (Nat.lt_add_of_pos_right (by decide : 0 < 2))
  have htokens : Token.ofText? ('"' :: (Segment.sources ps ++ ['"'])) =
      some [.scalar (String.ofList (Segment.values ps)) false] := by
    have hallowed : ('"' :: (Segment.sources ps ++ ['"'])).all isAllowed := by
      have hquote : isAllowed '"' := by decide
      have hsources : (Segment.sources ps).all isAllowed :=
        List.all_eq_true.2 fun x hx => Segment.isAllowed_of_mem_sources h hx
      simp [hquote, -List.all_eq_true, hsources]
    rw [Token.ofText?, if_pos hallowed]
    exact Scan.run_quoted hbody hc _
  rw [scalarText?, Value.allOfText?, htokens]
  rfl

end Data

end WorkflowAudit.Yaml
