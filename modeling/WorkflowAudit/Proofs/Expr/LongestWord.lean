import WorkflowAudit.Proofs.Expr.Word

/-!
The reader of words takes the longest one. Main statement: `read?` answers with a word exactly when its
text is at the front, no longer word is there, and, for a string, no further quote follows.
-/

namespace WorkflowAudit.Lexeme

/-- No word at the front of `cs ++ rest` is longer than `cs`. -/
def Longest (afterDot : Bool) (cs rest : List Char) : Prop :=
  ∀ w' cs', Spells afterDot w' cs' → cs' <+: cs ++ rest → cs'.length ≤ cs.length

/-- The text `cs` before `rest` is read as the word `w`. -/
structure Taken (afterDot : Bool) (w : Lexeme) (cs rest : List Char) : Prop where
  spells : Spells afterDot w cs
  longest : Longest afterDot cs rest
  closed : ∀ v, w = .string v → rest.head? ≠ some '\''

/-! ### The reader of words, by the first character -/

theorem isNameStart_of_isDigit {c : Char} (h : c.isDigit) : isNameStart c = false := by
  simp only [isNameStart, Char.isAlpha, Char.isUpper, Char.isLower, Char.isDigit, Bool.and_eq_true,
    decide_eq_true_eq, Bool.or_eq_false_iff, Bool.and_eq_false_iff, decide_eq_false_iff_not,
    UInt32.le_iff_toNat_le, ge_iff_le] at h ⊢
  have : '9'.val.toNat = 57 := rfl
  have : 'A'.val.toNat = 65 := rfl
  have : 'a'.val.toNat = 97 := rfl
  have : '_'.val.toNat = 95 := rfl
  refine ⟨by omega, ?_⟩
  rintro rfl
  omega

theorem isNameChar_of_isDigit {c : Char} (h : c.isDigit) : isNameChar c := by
  simp [isNameChar, Char.isAlphanum, h]

theorem isNameChar_of_isNameStart {c : Char} (h : isNameStart c) : isNameChar c := by
  simp only [isNameStart, isNameChar, Char.isAlphanum, Bool.or_eq_true, decide_eq_true_eq] at h ⊢
  rcases h with h | h
  · exact Or.inl (Or.inl (Or.inl h))
  · exact Or.inl (Or.inr h)

theorem read?_property {c : Char} (h : isNameChar c) (cs : List Char) :
    read? true c cs = some (property (String.ofList (c :: cs.takeWhile isNameChar)),
      (cs.takeWhile isNameChar).length) := by
  simp [read?, h]

theorem read?_name {c : Char} (h : isNameStart c) (cs : List Char) :
    read? false c cs = some (name (String.ofList (c :: cs.takeWhile isNameChar)),
      (cs.takeWhile isNameChar).length) := by
  simp [read?, h]

theorem read?_number {c : Char} (h : c.isDigit) (cs : List Char) :
    read? false c cs = some (number (c :: cs.take (numberWidth c cs)), numberWidth c cs) := by
  simp [read?, h, isNameStart_of_isDigit h]

theorem read?_negative {c : Char} (h : c.isDigit) (cs : List Char) :
    read? false '-' (c :: cs) =
      some (number ('-' :: c :: cs.take (decimalWidth cs)), decimalWidth cs + 1) := by
  simp [read?, negative?, h, isNameStart]

theorem read?_string (d : Bool) (cs : List Char) :
    read? d '\'' cs = (stringBody cs).map fun (v, n) => (string (String.ofList v), n) := by
  simp [read?, isNameStart, isNameChar]

theorem read?_symbol {c : Char} {cs : List Char} {w : Lexeme} {n : Nat}
    (h : symbol? c cs = some (w, n)) (d : Bool) : read? d c cs = some (w, n) := by
  unfold symbol? at h
  split at h <;> cases h <;> simp [read?, symbol?, isNameStart, isNameChar]

theorem symbol?_spells {c : Char} {cs : List Char} {w : Lexeme} {n : Nat}
    (h : symbol? c cs = some (w, n)) (d : Bool) : n ≤ cs.length ∧ Spells d w (c :: cs.take n) := by
  unfold symbol? at h
  split at h <;> cases h
  · exact ⟨Nat.zero_le _, .dot⟩
  · exact ⟨Nat.zero_le _, .star⟩
  · exact ⟨Nat.zero_le _, .comma⟩
  · exact ⟨Nat.zero_le _, .openParen⟩
  · exact ⟨Nat.zero_le _, .closeParen⟩
  · exact ⟨Nat.zero_le _, .openBracket⟩
  · exact ⟨Nat.zero_le _, .closeBracket⟩
  · exact ⟨Nat.succ_le_succ (Nat.zero_le _), .op .or⟩
  · exact ⟨Nat.succ_le_succ (Nat.zero_le _), .op .and⟩
  · exact ⟨Nat.succ_le_succ (Nat.zero_le _), .op .eq⟩
  · exact ⟨Nat.succ_le_succ (Nat.zero_le _), .op .ne⟩
  · exact ⟨Nat.zero_le _, .not⟩
  · exact ⟨Nat.succ_le_succ (Nat.zero_le _), .op .ge⟩
  · exact ⟨Nat.succ_le_succ (Nat.zero_le _), .op .le⟩
  · exact ⟨Nat.zero_le _, .op .gt⟩
  · exact ⟨Nat.zero_le _, .op .lt⟩

/-- What is read spells the word that it is read as. -/
theorem read?_spells {d : Bool} {c : Char} {cs : List Char} {w : Lexeme} {n : Nat}
    (h : read? d c cs = some (w, n)) : n ≤ cs.length ∧ Spells d w (c :: cs.take n) := by
  unfold read? at h
  split at h
  · rename_i hprop
    cases h
    obtain ⟨rfl, hc⟩ := Bool.and_eq_true_iff.1 hprop
    rw [List.take_length_takeWhile]
    refine ⟨List.length_takeWhile_le .., .property ⟨by simp, fun x hx => ?_⟩⟩
    rcases List.mem_cons.1 hx with rfl | hx
    · exact hc
    · exact List.mem_takeWhile_imp (p := isNameChar) hx
  · rename_i hprop
    have hdot : isNameChar c → d = false := by
      intro hc
      cases d
      · rfl
      · exact absurd hc hprop
    split at h
    · rename_i hc
      cases h
      rw [hdot (isNameChar_of_isNameStart hc), List.take_length_takeWhile]
      exact ⟨List.length_takeWhile_le .., .name ⟨hc, fun x hx => List.mem_takeWhile_imp (p := isNameChar) hx⟩⟩
    · split at h
      · rename_i hc
        cases h
        rw [hdot (isNameChar_of_isDigit hc)]
        exact ⟨numberWidth_le .., .number (isNumeral_take hc cs)⟩
      · split at h
        · rename_i hc
          subst hc
          unfold negative? at h
          split at h
          · rename_i e ds
            split at h <;> cases h
            rename_i he
            rw [hdot rfl, List.length_cons]
            exact ⟨Nat.succ_le_succ (decimalWidth_le ds), .number (isNumeral_take_negative he ds)⟩
          · cases h
        · split at h
          · rename_i hc
            subst hc
            obtain ⟨⟨v, m⟩, hv, he⟩ := Option.map_eq_some_iff.1 h
            cases he
            obtain ⟨rest, rfl, rfl, -⟩ := stringBody_eq_some_iff.1 hv
            have hsplit : doubled v ++ '\'' :: rest = (doubled v ++ ['\'']) ++ rest := by simp
            have hlen : (doubled v ++ ['\'']).length = (doubled v).length + 1 := by simp
            rw [hsplit, ← hlen, List.take_left]
            exact ⟨(List.prefix_append ..).length_le, .string v⟩
          · exact symbol?_spells h d

/-- The signs that `=` makes longer. -/
theorem symbol?_before_equals (rest : List Char) :
    (symbol? '!' rest = some (.op .ne, 1) ∨ symbol? '!' rest = some (.not, 0)) ∧
    (symbol? '>' rest = some (.op .ge, 1) ∨ symbol? '>' rest = some (.op .gt, 0)) ∧
    (symbol? '<' rest = some (.op .le, 1) ∨ symbol? '<' rest = some (.op .lt, 0)) := by
  cases rest with
  | nil => exact ⟨Or.inr rfl, Or.inr rfl, Or.inr rfl⟩
  | cons c rest =>
    by_cases hc : c = '='
    · subst hc
      exact ⟨Or.inl rfl, Or.inl rfl, Or.inl rfl⟩
    · simp [symbol?, hc]

/-- Of the words at the front, other than strings, none is longer than the one that is read; if it is
    as long, it is that one. -/
theorem Spells.read?_at_least {d : Bool} {w : Lexeme} {c : Char} {p : List Char}
    (h : Spells d w (c :: p)) (hs : ∀ v, w ≠ .string v) (rest : List Char) :
    ∃ w' n, read? d c (p ++ rest) = some (w', n) ∧ p.length ≤ n ∧ (n = p.length → w' = w) := by
  have symbol {w' : Lexeme} {n : Nat} (hsym : symbol? c (p ++ rest) = some (w', n))
      (hlen : p.length ≤ n) (heq : n = p.length → w' = w) :
      ∃ w' n, read? d c (p ++ rest) = some (w', n) ∧ p.length ≤ n ∧ (n = p.length → w' = w) :=
    ⟨w', n, read?_symbol hsym d, hlen, heq⟩
  -- a symbol of one character may be read together with an equals sign after it
  have extended {w' : Lexeme} (hp : p = []) (hsym : symbol? c (p ++ rest) = some (w', 1) ∨
      symbol? c (p ++ rest) = some (w, 0)) :
      ∃ w' n, read? d c (p ++ rest) = some (w', n) ∧ p.length ≤ n ∧ (n = p.length → w' = w) := by
    subst hp
    rcases hsym with hsym | hsym
    · exact symbol hsym (Nat.zero_le _) (fun h => absurd h (by decide))
    · exact symbol hsym (Nat.zero_le _) (fun _ => rfl)
  obtain ⟨hne, hgt, hlt⟩ := symbol?_before_equals rest
  generalize hcp : c :: p = cs at h
  cases h with
  | name hn =>
    subst hcp
    refine ⟨_, _, read?_name hn.1 _, List.length_le_takeWhile hn.2, fun hlen => ?_⟩
    rw [← List.take_length_takeWhile, hlen, List.take_left]
  | property hn =>
    subst hcp
    have hp : ∀ x ∈ p, isNameChar x := fun x hx => hn.2 x (List.mem_cons_of_mem _ hx)
    refine ⟨_, _, read?_property (hn.2 c (List.mem_cons_self ..)) _, List.length_le_takeWhile hp, fun hlen => ?_⟩
    rw [← List.take_length_takeWhile, hlen, List.take_left]
  | number hn =>
    subst hcp
    rcases numeral_cases hn with hc | ⟨rfl, e, q, rfl, he, hq⟩
    · have hsign : c ≠ '-' := by rintro rfl; cases hc
      refine ⟨_, _, read?_number hc _, numeral_le_width hn hsign rest, fun hlen => ?_⟩
      rw [hlen, List.take_left]
    · refine ⟨_, _, read?_negative he (q ++ rest), Nat.succ_le_succ (hq rest), fun hlen => ?_⟩
      rw [Nat.succ.inj hlen, List.take_left]
  | string v => exact absurd rfl (hs _)
  | not =>
    obtain ⟨rfl, rfl⟩ := List.cons.inj hcp
    exact extended rfl hne
  | op o =>
    cases o
    case gt =>
      obtain ⟨rfl, rfl⟩ := List.cons.inj hcp
      exact extended rfl hgt
    case lt =>
      obtain ⟨rfl, rfl⟩ := List.cons.inj hcp
      exact extended rfl hlt
    all_goals
      obtain ⟨rfl, rfl⟩ := List.cons.inj hcp
      exact symbol rfl (Nat.le_refl _) (fun _ => rfl)
  | _ =>
    obtain ⟨rfl, rfl⟩ := List.cons.inj hcp
    exact symbol rfl (Nat.zero_le _) (fun _ => rfl)

/-! ### The longest word is read -/

theorem Spells.ne_nil {d : Bool} {w : Lexeme} {cs : List Char} (h : Spells d w cs) : cs ≠ [] := by
  cases h with
  | name hn => rintro rfl; exact hn
  | property hn => exact hn.1
  | number hn =>
    cases hn with
    | hex _ => exact List.cons_ne_nil _ _
    | decimal _ hds _ _ => intro hnil; exact hds.1 (by simp at hnil; exact hnil.2.1)
  | op o => cases o <;> exact List.cons_ne_nil _ _
  | _ => exact List.cons_ne_nil _ _

/-- No word at the front is longer than the one that is read; if it is as long, it is that one. -/
theorem Spells.le_read? {d : Bool} {w w' : Lexeme} {c : Char} {p rest : List Char} {n : Nat}
    (h : Spells d w (c :: p)) (hr : read? d c (p ++ rest) = some (w', n)) :
    p.length ≤ n ∧ (n = p.length → w' = w) := by
  by_cases hs : ∃ v, w = .string v
  · obtain ⟨v, rfl⟩ := hs
    generalize hcp : c :: p = cs at h
    cases h
    obtain ⟨rfl, rfl⟩ := List.cons.inj hcp
    rename_i v
    rw [read?_string] at hr
    obtain ⟨⟨u, m⟩, hu, he⟩ := Option.map_eq_some_iff.1 hr
    cases he
    have hfront : doubled v ++ ['\''] ++ rest = doubled v ++ '\'' :: rest := by simp
    obtain ⟨hle, heq⟩ := string_le_width (hfront ▸ hu)
    rw [List.length_append]
    exact ⟨hle, fun hlen => by rw [heq hlen]⟩
  · obtain ⟨w'', n', hread, hle, heq⟩ := h.read?_at_least (fun v hv => hs ⟨v, hv⟩) rest
    rw [hr] at hread
    cases hread
    exact ⟨hle, heq⟩

/-- A string is read when no further quote follows it. -/
theorem Spells.read?_string {d : Bool} {v : String} {c : Char} {p rest : List Char}
    (h : Spells d (.string v) (c :: p)) (hrest : rest.head? ≠ some '\'') :
    read? d c (p ++ rest) = some (.string v, p.length) := by
  generalize hcp : c :: p = cs at h
  cases h with
  | string v =>
    obtain ⟨rfl, rfl⟩ := List.cons.inj hcp
    have hbody : stringBody (doubled v ++ ['\''] ++ rest) = some (v, (doubled v ++ ['\'']).length) :=
      stringBody_eq_some_iff.2 ⟨rest, by simp, by simp, hrest⟩
    rw [Lexeme.read?_string, hbody]
    rfl

/-- The reader answers with a word exactly when that word is to be taken. -/
theorem read?_eq_some_iff {d : Bool} {w : Lexeme} {c : Char} {p rest : List Char} :
    read? d c (p ++ rest) = some (w, p.length) ↔ Taken d w (c :: p) rest := by
  constructor
  · intro h
    have hspells : Spells d w (c :: p) := by
      have := (read?_spells h).2
      rwa [List.take_left] at this
    refine ⟨hspells, ?_, ?_⟩
    · rintro w' cs' h' ⟨r, hr⟩
      obtain ⟨c', q, rfl⟩ := List.exists_cons_of_ne_nil h'.ne_nil
      obtain ⟨rfl, hq⟩ := List.cons.inj hr
      have hq' : q ++ r = p ++ rest := hq
      exact Nat.succ_le_succ (h'.le_read? (hq' ▸ h)).1
    · rintro v rfl
      generalize hcp : c :: p = cs at hspells
      cases hspells
      obtain ⟨rfl, rfl⟩ := List.cons.inj hcp
      rw [read?_string] at h
      obtain ⟨⟨u, m⟩, hu, he⟩ := Option.map_eq_some_iff.1 h
      obtain ⟨r, hr, rfl, hhead⟩ := stringBody_eq_some_iff.1 hu
      have hlen := (Prod.mk.inj he).2
      have hcut := (List.append_inj (hr.trans (List.append_cons ..)) (by simp at hlen ⊢; omega)).2
      rwa [hcut]
  · rintro ⟨hspells, hlongest, hclosed⟩
    by_cases hs : ∃ v, w = .string v
    · obtain ⟨v, rfl⟩ := hs
      exact hspells.read?_string (hclosed v rfl)
    · obtain ⟨w', n, hread, hle, heq⟩ := hspells.read?_at_least (fun v hv => hs ⟨v, hv⟩) rest
      obtain ⟨hlen, hspells'⟩ := read?_spells hread
      have hn : n ≤ p.length := by
        have := hlongest _ _ hspells' ⟨(p ++ rest).drop n, by simp⟩
        simp only [List.length_cons, List.length_take] at this
        omega
      have hnp := Nat.le_antisymm hn hle
      rw [hread, heq hnp, hnp]

/-! ### Words and what follows them -/

/-- The characters of words other than strings. -/
def isWordChar (c : Char) : Bool :=
  isNameChar c || ['.', '*', ',', '(', ')', '[', ']', '!', '|', '&', '=', '<', '>', '+'].contains c

theorem isWordChar_of_isNameChar {c : Char} (h : isNameChar c) : isWordChar c := by
  simp [isWordChar, h]

theorem isNameChar_of_isHexadecimal {c : Char} (h : isHexadecimal c) : isNameChar c := by
  rw [← isHexDigit_eq_isHexadecimal] at h
  simp only [Text.isHexDigit, isNameChar, Char.isAlphanum, Char.isAlpha, Char.isUpper, Char.isLower,
    Bool.or_eq_true, Bool.and_eq_true, decide_eq_true_eq, Char.le_def, UInt32.le_iff_toNat_le,
    ge_iff_le] at h ⊢
  have : 'f'.val.toNat = 102 := rfl
  have : 'z'.val.toNat = 122 := rfl
  have : 'F'.val.toNat = 70 := rfl
  have : 'Z'.val.toNat = 90 := rfl
  rcases h with (h | h) | h
  · exact Or.inl (Or.inl (Or.inr h))
  · exact Or.inl (Or.inl (Or.inl (Or.inr ⟨h.1, by omega⟩)))
  · exact Or.inl (Or.inl (Or.inl (Or.inl ⟨h.1, by omega⟩)))

theorem IsDigits.isWordChar {ds : List Char} (h : IsDigits Char.isDigit ds) :
    ∀ c ∈ ds, isWordChar c :=
  fun c hc => isWordChar_of_isNameChar (isNameChar_of_isDigit (h.2 c hc))

theorem IsFraction.isWordChar {f fs : List Char} (h : IsFraction f fs) : ∀ c ∈ f, isWordChar c := by
  intro c hc
  cases h with
  | none => cases hc
  | point hds =>
    rcases List.mem_cons.1 hc with rfl | hc
    · rfl
    · exact hds.isWordChar c hc

theorem IsExponent.isWordChar {x : List Char} {k : Int} (h : IsExponent x k) : ∀ c ∈ x, isWordChar c := by
  intro c hc
  cases h with
  | none => cases hc
  | power he hsign hds =>
    rcases List.mem_cons.1 hc with rfl | hc
    · rcases he with rfl | rfl <;> rfl
    · rcases List.mem_append.1 hc with hc | hc
      · rcases hsign with rfl | rfl | rfl
        · cases hc
        · rw [List.mem_singleton.1 hc]; rfl
        · rw [List.mem_singleton.1 hc]; rfl
      · exact hds.isWordChar c hc

theorem IsNumeral.isWordChar {cs : List Char} (h : IsNumeral cs) : ∀ c ∈ cs, isWordChar c := by
  intro c hc
  cases h with
  | hex hds =>
    rcases List.mem_cons.1 hc with rfl | hc
    · rfl
    · rcases List.mem_cons.1 hc with rfl | hc
      · rfl
      · exact isWordChar_of_isNameChar (isNameChar_of_isHexadecimal (hds.2 c hc))
  | decimal hsign hds hf hx =>
    rcases List.mem_append.1 hc with hc | hc
    · rcases hsign with rfl | rfl
      · cases hc
      · rw [List.mem_singleton.1 hc]; rfl
    · rcases List.mem_append.1 hc with hc | hc
      · exact hds.isWordChar c hc
      · rcases List.mem_append.1 hc with hc | hc
        · exact hf.isWordChar c hc
        · exact hx.isWordChar c hc

theorem IsName.isNameChar : ∀ {cs : List Char}, IsName cs → ∀ c ∈ cs, Lexeme.isNameChar c
  | [], h, _, _ => h.elim
  | _ :: _, h, c, hc => by
    rcases List.mem_cons.1 hc with rfl | hc
    · exact isNameChar_of_isNameStart h.1
    · exact h.2 c hc

/-- Only strings hold blanks, quotes and braces. -/
theorem Spells.string_or_isWordChar {d : Bool} {w : Lexeme} {cs : List Char} (h : Spells d w cs) :
    (∃ v, w = .string v) ∨ ∀ c ∈ cs, isWordChar c := by
  cases h with
  | name hn => exact Or.inr fun c hc => isWordChar_of_isNameChar (hn.isNameChar c hc)
  | property hn => exact Or.inr fun c hc => isWordChar_of_isNameChar (hn.2 c hc)
  | number hn => exact Or.inr hn.isWordChar
  | string v => exact Or.inl ⟨_, rfl⟩
  | op o => exact Or.inr (List.all_eq_true.1 (by cases o <;> decide))
  | _ => exact Or.inr (List.all_eq_true.1 (by decide))

theorem Spells.string_of_mem {d : Bool} {w : Lexeme} {cs : List Char} {c : Char}
    (h : Spells d w cs) (hc : c ∈ cs) (hword : isWordChar c = false) : ∃ v, w = .string v := by
  rcases h.string_or_isWordChar with hs | hall
  · exact hs
  · rw [hall c hc] at hword
    cases hword

theorem Spells.head_quote {d : Bool} {v : String} {c : Char} {cs : List Char}
    (h : Spells d (.string v) (c :: cs)) : c = '\'' := by
  cases h
  rfl

theorem Spells.head_not_blank {d : Bool} {w : Lexeme} {c : Char} {cs : List Char}
    (h : Spells d w (c :: cs)) : isBlank c = false := by
  rw [Bool.eq_false_iff]
  intro hb
  have hword : isWordChar c = false ∧ c ≠ '\'' := by
    simp only [isBlank, Bool.or_eq_true, decide_eq_true_eq] at hb
    rcases hb with ((rfl | rfl) | rfl) | rfl <;> decide
  obtain ⟨v, rfl⟩ := h.string_of_mem (List.mem_cons_self ..) hword.1
  exact hword.2 h.head_quote

theorem Taken.of_append {d : Bool} {w : Lexeme} {cs s x : List Char} (h : Taken d w cs (s ++ x)) :
    Taken d w cs s where
  spells := h.spells
  longest w' cs' h' hp := by
    refine h.longest w' cs' h' ?_
    rw [← List.append_assoc]
    exact hp.trans (List.prefix_append ..)
  closed v hv hq := by
    refine h.closed v hv ?_
    obtain ⟨t, rfl⟩ := List.head?_eq_some_iff.1 hq
    rfl

/-- A word that is taken at the end is taken before a character that only strings hold. -/
theorem Taken.before {d : Bool} {w : Lexeme} {cs s : List Char} (h : Taken d w cs s) {b : Char}
    (hb : isWordChar b = false) (hquote : b ≠ '\'') (x : List Char) : Taken d w cs (s ++ b :: x) := by
  obtain ⟨c, p, rfl⟩ := List.exists_cons_of_ne_nil h.spells.ne_nil
  have hclosed : ∀ v, w = .string v → (s ++ b :: x).head? ≠ some '\'' := by
    intro v hv
    have := h.closed v hv
    cases s with
    | nil => simpa using hquote
    | cons a s => exact this
  by_cases hs : ∃ v, w = .string v
  · obtain ⟨v, rfl⟩ := hs
    exact read?_eq_some_iff.1 (h.spells.read?_string (hclosed v rfl))
  · refine ⟨h.spells, fun w' cs' h' hp => ?_, hclosed⟩
    have hfront : c :: p ++ (s ++ b :: x) = (c :: p ++ s ++ [b]) ++ x := by simp
    rcases Nat.lt_or_ge (c :: p ++ s).length cs'.length with hlt | hle
    -- a longer word would hold the character, so it and the word itself would be strings
    · have hmem : b ∈ cs' := by
        refine (List.prefix_of_prefix_length_le ⟨x, hfront.symm⟩ hp ?_).subset ?_
        · rw [List.length_append]; exact hlt
        · exact List.mem_append_right _ (List.mem_singleton_self _)
      obtain ⟨v, rfl⟩ := h'.string_of_mem hmem hb
      obtain ⟨c', q, rfl⟩ := List.exists_cons_of_ne_nil h'.ne_nil
      obtain ⟨r, hr⟩ := hp
      obtain ⟨rfl, -⟩ := List.cons.inj hr
      rw [h'.head_quote] at h
      exact absurd (h.spells.string_of_mem (List.mem_cons_self ..) (by decide)) hs
    · refine h.longest w' cs' h' (List.prefix_of_prefix_length_le hp ?_ hle)
      exact ⟨b :: x, by simp⟩

end WorkflowAudit.Lexeme
