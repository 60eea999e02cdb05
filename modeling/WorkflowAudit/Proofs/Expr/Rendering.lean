import WorkflowAudit.Proofs.Expr.Completeness
import WorkflowAudit.Proofs.Expr.Scanning

/-!
Renderings of an expression: texts that are cut into words which derive it. Main statement: the texts
that are read as an expression are exactly its renderings, every expression over valid names has one,
and no text is a rendering of two expressions.
-/

namespace WorkflowAudit

open Lexeme (Spells Longest Taken isBlank isWordChar doubled)

/-! ### Words cut from a text -/

/-- A text is cut into words: blanks stand anywhere between them, and each word is the longest that
    fits. -/
inductive Cut : (afterDot : Bool) → List Char → List Lexeme → Prop
  | done {d : Bool} : Cut d [] []
  | blank {d : Bool} {c : Char} {cs : List Char} {ws : List Lexeme} :
      c = ' ' ∨ c = '\t' ∨ c = '\r' ∨ c = '\n' → Cut d cs ws → Cut d (c :: cs) ws
  | word {d : Bool} {w : Lexeme} {cs rest : List Char} {ws : List Lexeme} : Spells d w cs →
      Longest d cs rest → Cut (w == .dot) rest ws → Cut d (cs ++ rest) (w :: ws)

theorem Lexeme.isBlank_iff {c : Char} : isBlank c ↔ c = ' ' ∨ c = '\t' ∨ c = '\r' ∨ c = '\n' := by
  simp only [isBlank, Bool.or_eq_true, decide_eq_true_eq, or_assoc]

/-- A word that begins with a quote is a string. -/
theorem Lexeme.Spells.eq_string {d : Bool} {w : Lexeme} {cs : List Char}
    (h : Spells d w ('\'' :: cs)) : ∃ v, cs = doubled v ++ ['\''] := by
  obtain ⟨v, rfl⟩ := h.string_of_mem (List.mem_cons_self ..) (by decide)
  cases h with
  | string v => exact ⟨v, rfl⟩

theorem Cut.quote {d : Bool} {cs : List Char} {ws : List Lexeme} (h : Cut d ('\'' :: cs) ws) :
    ∃ v rest, cs = doubled v ++ '\'' :: rest := by
  generalize htext : '\'' :: cs = text at h
  cases h with
  | done => cases htext
  | blank hb _ =>
    cases htext
    exact absurd hb (by decide)
  | @word _ w p rest ws hs _ _ =>
    obtain ⟨c, p, rfl⟩ := List.exists_cons_of_ne_nil hs.ne_nil
    obtain ⟨rfl, rfl⟩ := List.cons.inj htext
    obtain ⟨v, rfl⟩ := hs.eq_string
    exact ⟨v, rest, by simp⟩

/-- A string before a quote would not be the longest, since a string begins at the quote. -/
theorem Lexeme.Longest.closed {d : Bool} {v : String} {cs rest : List Char} {ws : List Lexeme}
    (hs : Spells d (.string v) cs) (hl : Longest d cs rest) (h : Cut false rest ws) :
    rest.head? ≠ some '\'' := by
  intro hq
  obtain ⟨tail, rfl⟩ := List.head?_eq_some_iff.1 hq
  obtain ⟨u, more, rfl⟩ := h.quote
  cases hs with
  | string v =>
    have hlonger := hl _ _ (Spells.string (v ++ '\'' :: u)) (by
      rw [Lexeme.doubled_append, doubled, if_pos rfl]
      exact ⟨more, by simp⟩)
    rw [Lexeme.doubled_append, doubled, if_pos rfl] at hlonger
    simp only [List.length_cons, List.length_append, List.length_nil] at hlonger
    omega

theorem Cut.taken {d : Bool} {w : Lexeme} {cs rest : List Char} {ws : List Lexeme}
    (hs : Spells d w cs) (hl : Longest d cs rest) (h : Cut (w == .dot) rest ws) :
    Taken d w cs rest where
  spells := hs
  longest := hl
  closed v hv := by
    subst hv
    exact hl.closed hs h

/-- A text that is cut into words is cut into tokens. -/
theorem Cut.exists_scans {d : Bool} {cs : List Char} {ws : List Lexeme} (h : Cut d cs ws)
    (o : Origin) : ∃ ts, ts.map Token.lexeme = ws ∧ Token.Scans .text d o cs ts [] := by
  induction h generalizing o with
  | done => exact ⟨[], rfl, .done rfl⟩
  | blank hc _ ih =>
    obtain ⟨ts, hts, hscan⟩ := ih (o.advance _)
    exact ⟨ts, hts, .blank (Lexeme.isBlank_iff.2 hc) hscan⟩
  | word hs hl hcut ih =>
    obtain ⟨ts, hts, hscan⟩ := ih (o.advanceAll _)
    exact ⟨_ :: ts, by rw [List.map_cons, hts], .word (hcut.taken hs hl) hscan⟩

theorem Token.Scans.cut {d : Bool} {o : Origin} {cs rest : List Char} {ts : List Token}
    (h : Token.Scans .text d o cs ts rest) : Cut d cs (ts.map Token.lexeme) := by
  induction h with
  | done hrest =>
    unfold Ending.rest? at hrest
    split at hrest <;> cases hrest
    · exact .done
    · rename_i heq; cases heq
  | blank hc _ ih => exact .blank (Lexeme.isBlank_iff.1 hc) ih
  | word ht _ ih => exact .word ht.spells ht.longest ih

/-! ### Renderings -/

/-- The text is cut into words that derive the expression, origins aside. -/
def IsRendering (s : String) (e : Expr) : Prop :=
  ∃ ws, Cut false s.toList ws ∧ Derives (.level .or e.unplaced) ws

/-- The texts read as an expression are its renderings. -/
theorem Expr.exists_parse_iff {s : String} {T : Expr} :
    (∃ e, Expr.parse s = .ok e ∧ e.unplaced = T.unplaced) ↔ IsRendering s T := by
  constructor
  · rintro ⟨e, hparse, he⟩
    obtain ⟨ts, hscan, htokens, hsized⟩ := parseUpTo_eq_ok_iff.1 (parse_eq_ok_iff.1 hparse)
    have hnum : ∀ t ∈ ts, ∀ cs, t.lexeme = .number cs → Lexeme.IsNumeral cs :=
      fun _ ht _ hcs => hscan.isNumeral ht hcs
    exact ⟨_, hscan.cut, (ofTokens?_iff_derives hnum).1 ⟨e, htokens, hsized, he⟩⟩
  · rintro ⟨ws, hcut, hd⟩
    obtain ⟨ts, rfl, hscan⟩ := hcut.exists_scans .start
    have hnum : ∀ t ∈ ts, ∀ cs, t.lexeme = .number cs → Lexeme.IsNumeral cs :=
      fun _ ht _ hcs => hscan.isNumeral ht hcs
    obtain ⟨e, htokens, hsized, he⟩ := (ofTokens?_iff_derives hnum).2 hd
    exact ⟨e, parse_eq_ok_iff.2 (parseUpTo_eq_ok_iff.2 ⟨ts, hscan, htokens, hsized⟩), he⟩

/-! ### Every expression over valid names has a rendering -/

mutual

/-- Names are names of the language, variables are none of its values, and numbers are doubles. -/
def Expr.Valid : Expr → Prop
  | .literal _ (.number x) => x.Canonical
  | .literal _ _ => True
  | .var _ name => Lexeme.IsName name.toList ∧ name ∉ Expr.keywords
  | .property _ r name => r.Valid ∧ Lexeme.IsProperty name.toList
  | .filter _ r => r.Valid
  | .index _ e k => e.Valid ∧ k.Valid
  | .call _ f args => Lexeme.IsName f.toList ∧ Expr.AllValid args
  | .binary _ _ l r => l.Valid ∧ r.Valid
  | .not _ e => e.Valid

/-- All the expressions are over valid names. -/
def Expr.AllValid : List Expr → Prop
  | [] => True
  | e :: es => e.Valid ∧ Expr.AllValid es

end

/-- A word before a blank is cut off there. -/
theorem Cut.spaced {d : Bool} {w : Lexeme} {cs rest : List Char} {ws : List Lexeme}
    (hs : Spells d w cs) (h : Cut (w == .dot) rest ws) : Cut d (cs ++ ' ' :: rest) (w :: ws) := by
  have hend : Taken d w cs [] := ⟨hs, fun _ _ _ hp => by simpa using hp.length_le, by simp⟩
  exact .word hs (hend.before (by decide) (by decide) rest).longest (.blank (.inl rfl) h)

/-- The characters are cut into the words, whatever comes next. -/
def Piece (cs : List Char) (ws : List Lexeme) : Prop :=
  ∀ rest vs, Cut false rest vs → Cut false (cs ++ rest) (ws ++ vs)

theorem Piece.append {cs ds : List Char} {ws vs : List Lexeme} (h : Piece cs ws) (h' : Piece ds vs) :
    Piece (cs ++ ds) (ws ++ vs) := by
  intro rest us hcut
  rw [List.append_assoc, List.append_assoc]
  exact h _ _ (h' _ _ hcut)

theorem Piece.word {w : Lexeme} {cs : List Char} (hs : Spells false w cs) (hw : w ≠ .dot) :
    Piece (cs ++ [' ']) [w] := by
  intro rest vs hcut
  rw [List.append_assoc, List.singleton_append]
  exact Cut.spaced hs (by rwa [beq_false_of_ne hw])

theorem Piece.dot {w : Lexeme} {cs : List Char} (hs : Spells true w cs) (hw : w ≠ .dot) :
    Piece ('.' :: ' ' :: (cs ++ [' '])) [.dot, w] := by
  intro rest vs hcut
  have hword : Cut true (cs ++ [' '] ++ rest) (w :: vs) := by
    rw [List.append_assoc, List.singleton_append]
    exact Cut.spaced hs (by rwa [beq_false_of_ne hw])
  exact Cut.spaced .dot hword

/-- The words of the phrase can be written out. -/
def Written (p : Phrase) : Prop :=
  ∃ cs ws, Piece cs ws ∧ Derives p ws

theorem Lexeme.Spells.ofName {name : String} (h : Lexeme.IsName name.toList) :
    Spells false (.name name) name.toList := by
  have hs := Spells.name h
  rwa [String.ofList_toList] at hs

theorem Lexeme.Spells.ofProperty {name : String} (h : Lexeme.IsProperty name.toList) :
    Spells true (.property name) name.toList := by
  have hs := Spells.property h
  rwa [String.ofList_toList] at hs

theorem Lexeme.Spells.ofString (v : String) :
    Spells false (.string v) ('\'' :: (doubled v.toList ++ ['\''])) := by
  have hs := Spells.string (d := false) v.toList
  rwa [String.ofList_toList] at hs

theorem Written.word {p : Phrase} {w : Lexeme} {cs : List Char} (hs : Spells false w cs) (hw : w ≠ .dot)
    (hd : Derives p [w]) : Written p :=
  ⟨_, _, Piece.word hs hw, hd⟩

theorem Written.parens {e : Expr} : Written (.level .or e) → Written (.chain e) := by
  rintro ⟨cs, ws, hp, hd⟩
  exact ⟨_, _, (Piece.word .openParen (by decide)).append
    (hp.append (Piece.word .closeParen (by decide))), .parens hd⟩

theorem Derives.chain_operand {e : Expr} {ws : List Lexeme} (h : Derives (.chain e) ws) (l : Level) :
    Derives (.operand l e) ws := by
  cases l with
  | comparison => exact h.chain
  | or | and | equality => exact h.chain.unary_level _

theorem Derives.chain_level {e : Expr} {ws : List Lexeme} (h : Derives (.chain e) ws) (l : Level) :
    Derives (.level l e) ws :=
  h.chain.unary_level l

mutual

/-- An expression over valid names is written with parentheses around every operation. -/
theorem Expr.written : ∀ e : Expr, e.Valid → Written (.chain e.unplaced)
  | .literal _ .null, _ => .word (.ofName (by decide)) (by decide) .null
  | .literal _ (.boolean true), _ =>
    .word (.ofName (by decide)) (by decide) .true
  | .literal _ (.boolean false), _ =>
    .word (.ofName (by decide)) (by decide) .false
  | .literal _ (.number x), hv => by
    obtain ⟨cs, hcs⟩ := Lexeme.exists_denotes hv
    exact .word (.number hcs.isNumeral) (by simp) (.number hcs)
  | .literal _ (.string v), _ => .word (.ofString v) (by simp) .string
  | .var _ name, hv => .word (.ofName hv.1) (by simp) (.var hv.2)
  | .property _ r name, hv => by
    obtain ⟨cs, ws, hp, hd⟩ := r.written hv.1
    exact ⟨_, _, hp.append (Piece.dot (.ofProperty hv.2) (by simp)), .property hd⟩
  | .filter _ r, hv => by
    obtain ⟨cs, ws, hp, hd⟩ := r.written hv
    exact ⟨_, _, hp.append (Piece.dot .star (by simp)), .filter hd⟩
  | .index _ e k, hv => by
    obtain ⟨cs, ws, hp, hd⟩ := e.written hv.1
    obtain ⟨ds, vs, hq, hk⟩ := k.written hv.2
    exact ⟨_, _, hp.append ((Piece.word .openBracket (by decide)).append
      (hq.append (Piece.word .closeBracket (by decide)))), .index hd (hk.chain_level .or)⟩
  | .call _ f args, hv => by
    obtain ⟨cs, ws, hp, hd⟩ := Expr.allWritten args hv.2
    exact ⟨_, _, (Piece.word (.ofName hv.1) (by simp)).append ((Piece.word .openParen (by decide)).append
      (hp.append (Piece.word .closeParen (by decide)))), .call hd⟩
  | .binary _ op l r, hv => by
    obtain ⟨cs, ws, hp, hd⟩ := l.written hv.1
    obtain ⟨ds, vs, hq, hr⟩ := r.written hv.2
    refine Written.parens ⟨_, _, hp.append ((Piece.word (.op op) (by simp)).append hq), ?_⟩
    exact Derives.level_or (.binary (Level.mem_operators.2 rfl) (hd.chain_level _) (hr.chain_operand _))
  | .not _ e, hv => by
    obtain ⟨cs, ws, hp, hd⟩ := e.written hv
    refine Written.parens ⟨_, _, (Piece.word .not (by decide)).append hp, ?_⟩
    exact (Derives.not hd.chain).unary_level .or

theorem Expr.allWritten : ∀ es : List Expr, Expr.AllValid es → Written (.args (Expr.unplacedAll es))
  | [], _ => ⟨[], [], fun _ _ h => h, .noArgs⟩
  | [e], hv => by
    obtain ⟨cs, ws, hp, hd⟩ := e.written hv.1
    exact ⟨cs, ws, hp, .lastArg (hd.chain_level .or)⟩
  | e :: e' :: es, hv => by
    obtain ⟨cs, ws, hp, hd⟩ := e.written hv.1
    obtain ⟨ds, vs, hq, hes⟩ := Expr.allWritten (e' :: es) hv.2
    exact ⟨_, _, hp.append ((Piece.word .comma (by decide)).append hq),
      .moreArgs (hd.chain_level .or) hes⟩

end

theorem Expr.exists_rendering {e : Expr} (hv : e.Valid) : ∃ s, IsRendering s e := by
  obtain ⟨cs, ws, hp, hd⟩ := e.written hv
  refine ⟨String.ofList cs, ws, ?_, hd.chain_level .or⟩
  have hcut := hp [] [] .done
  rwa [List.append_nil, List.append_nil, ← String.toList_ofList (l := cs)] at hcut

theorem IsRendering.unique {s : String} {e e' : Expr} (h : IsRendering s e) (h' : IsRendering s e') :
    e.unplaced = e'.unplaced := by
  obtain ⟨d, hparse, hd⟩ := Expr.exists_parse_iff.2 h
  obtain ⟨d', hparse', hd'⟩ := Expr.exists_parse_iff.2 h'
  obtain rfl : d = d' := Except.ok.inj (hparse.symm.trans hparse')
  exact hd.symm.trans hd'

/-- A text is read as an expression, origins aside, exactly when it is a rendering of it. Every
    expression over valid names has a rendering, and no text is a rendering of two. -/
theorem Expr.parse_reads_renderings :
    (∀ (s : String) (T : Expr),
      (∃ e, Expr.parse s = .ok e ∧ e.unplaced = T.unplaced) ↔ IsRendering s T) ∧
    (∀ T : Expr, T.Valid →
      ∃ s e, IsRendering s T ∧ Expr.parse s = .ok e ∧ e.unplaced = T.unplaced) ∧
    (∀ (s : String) (T T' : Expr), IsRendering s T → IsRendering s T' → T.unplaced = T'.unplaced) := by
  refine ⟨fun s T => Expr.exists_parse_iff, fun T hv => ?_, fun s T T' => IsRendering.unique⟩
  obtain ⟨s, hs⟩ := T.exists_rendering hv
  obtain ⟨e, hparse, he⟩ := Expr.exists_parse_iff.2 hs
  exact ⟨s, e, hs, hparse, he⟩

namespace Expr

/-- Operators of all the levels, twice of `||` and of equality. -/
def mixedText : String :=
  "github.actor || contains(a-b.*, 'it''s') && c == 0x1F < -0.5 != !d[1e0] || e"

/-- The words of the text. -/
def mixedWords : List Lexeme :=
  [.name "github", .dot, .property "actor", .op .or, .name "contains", .openParen, .name "a-b", .dot,
    .star, .comma, .string "it's", .closeParen, .op .and, .name "c", .op .eq, .number "0x1F".toList,
    .op .lt, .number "-0.5".toList, .op .ne, .not, .name "d", .openBracket, .number "1e0".toList,
    .closeBracket, .op .or, .name "e"]

/-- What the text is: `||` and equality take their operands from the left. -/
def mixed : Expr :=
  .binary .start .or
    (.binary .start .or (.property .start (.var .start "github") "actor")
      (.binary .start .and
        (.call .start "contains" [.filter .start (.var .start "a-b"), .literal .start (.string "it's")])
        (.binary .start .ne
          (.binary .start .eq (.var .start "c")
            (.binary .start .lt (.literal .start (.number (.finite false (31 * 2 ^ 48) (-48))))
              (.literal .start (.number (.finite true (2 ^ 52) (-53))))))
          (.not .start (.index .start (.var .start "d")
            (.literal .start (.number (.finite false (2 ^ 52) (-52)))))))))
    (.var .start "e")

theorem cut_mixedText : Cut false mixedText.toList mixedWords := by
  have hscan : (Token.scan .text false .start mixedText.toList).map
      (fun r => (r.1.map Token.lexeme, r.2)) = some (mixedWords, []) := by cbv
  obtain ⟨⟨ts, rest⟩, hts, heq⟩ := Option.map_eq_some_iff.1 hscan
  obtain ⟨hwords, rfl⟩ := Prod.mk.inj heq
  rw [← hwords]
  exact (Token.scans_of_scan hts).cut

/-- `0x1F` is 31, `-0.5` is a half below zero, and `1e0` is one. -/
theorem denotes_mixed :
    Lexeme.Denotes "0x1F".toList (.finite false (31 * 2 ^ 48) (-48)) ∧
    Lexeme.Denotes "-0.5".toList (.finite true (2 ^ 52) (-53)) ∧
    Lexeme.Denotes "1e0".toList (.finite false (2 ^ 52) (-52)) := by
  refine ⟨?_, ?_, ?_⟩
  · refine @Lexeme.Denotes.hex ['1', 'F'] _ (by decide) (by decide)
      (Binary64.Canonical.isNearest (by decide) ?_)
    rw [show Lexeme.placeValue 16 ['1', 'F'] = 31 by decide, Binary64.magnitude]
    norm_num
  · refine @Lexeme.Denotes.decimal true ['0'] ['.', '5'] ['5'] [] 0 _ (by decide) (.point (by decide))
      .none (Binary64.Canonical.isNearest (by decide) ?_)
    rw [show Lexeme.placeValue 10 (['0'] ++ ['5']) = 5 by decide, Binary64.magnitude]
    norm_num
  · refine @Lexeme.Denotes.decimal false ['1'] [] [] ['e', '0'] _ _ (by decide) .none
      (.power (.inl rfl) (.inl rfl) (by decide)) (Binary64.Canonical.isNearest (by decide) ?_)
    rw [show Lexeme.placeValue 10 (['1'] ++ []) = 1 by decide,
      show Lexeme.placeValue 10 ['0'] = 0 by decide, Binary64.magnitude]
    norm_num

/-- The operators join what their levels say. -/
theorem derives_mixed : Derives (.level .or mixed) mixedWords := by
  obtain ⟨hthirtyOne, hhalf, hone⟩ := denotes_mixed
  have hvar (v : String) (h : v ∉ keywords) : Derives (.chain (.var .start v)) [.name v] := .var h
  have hnumber {cs : List Char} {x : Binary64} (h : Lexeme.Denotes cs x) :
      Derives (.chain (.literal .start (.number x))) [.number cs] :=
    .number h
  have hjoin (l : Level) (op : BinaryOp) (h : op ∈ l.operators) {lhs rhs : Expr} {ws vs : List Lexeme}
      (hl : Derives (.level l lhs) ws) (hr : Derives (.operand l rhs) vs) :
      Derives (.level l (.binary .start op lhs rhs)) (ws ++ .op op :: vs) :=
    .binary h hl hr
  have hactor := @Derives.property .start _ "actor" _ (hvar "github" (by decide))
  have hfilter := Derives.filter (o := .start) (hvar "a-b" (by decide))
  have hstring : Derives (.chain (.literal .start (.string "it's"))) [.string "it's"] := .string
  have hcall := Derives.call (o := .start) (f := "contains")
    (.moreArgs (hfilter.chain_level .or) (.lastArg (hstring.chain_level .or)))
  have hindex := Derives.index (o := .start) (hvar "d" (by decide)) ((hnumber hone).chain_level .or)
  have hnot : Derives (.operand .equality (.not .start _)) _ := .operand (.not hindex.chain)
  have hless := hjoin .comparison .lt (by decide) ((hnumber hthirtyOne).chain_level _)
    ((hnumber hhalf).chain_operand _)
  have hequal := hjoin .equality .eq (by decide) ((hvar "c" (by decide)).chain_level _) hless
  have hunequal := hjoin .equality .ne (by decide) hequal hnot
  have hboth := hjoin .and .and (by decide) (hcall.chain_level _) hunequal
  have hfirst := hjoin .or .or (by decide) (hactor.chain_level _) hboth
  exact hjoin .or .or (by decide) hfirst ((hvar "e" (by decide)).chain_operand _)

theorem mixedText_isRendering : IsRendering mixedText mixed :=
  ⟨mixedWords, cut_mixedText, derives_mixed⟩

theorem valid_mixed : mixed.Valid := by
  have hthirtyOne : (Binary64.finite false (31 * 2 ^ 48) (-48)).Canonical := by decide
  have hhalf : (Binary64.finite true (2 ^ 52) (-53)).Canonical := by decide
  have hone : (Binary64.finite false (2 ^ 52) (-52)).Canonical := by decide
  have hvar : ∀ name ∈ ["github", "a-b", "c", "d", "e"],
      Lexeme.IsName name.toList ∧ name ∉ keywords := by decide
  refine ⟨⟨⟨hvar _ (by decide), by decide⟩, ?_, ?_⟩, hvar _ (by decide)⟩
  · exact ⟨by decide, hvar _ (by decide), trivial, trivial⟩
  · exact ⟨⟨hvar _ (by decide), hthirtyOne, hhalf⟩, hvar _ (by decide), hone⟩

/-- The text has this one reading, and what it is read as has a rendering too. -/
theorem mixedText_is_read : IsRendering mixedText mixed ∧ mixed.Valid ∧
    (∃ e, Expr.parse mixedText = .ok e ∧ e.unplaced = mixed) ∧
    (∃ s e, IsRendering s mixed ∧ Expr.parse s = .ok e ∧ e.unplaced = mixed.unplaced) ∧
    ∀ T, IsRendering mixedText T → T.unplaced = mixed := by
  obtain ⟨hread, hrendered, hunique⟩ := parse_reads_renderings
  exact ⟨mixedText_isRendering, valid_mixed, (hread mixedText mixed).2 mixedText_isRendering,
    hrendered mixed valid_mixed, fun T hT => hunique mixedText T mixed hT mixedText_isRendering⟩

end Expr

end WorkflowAudit
