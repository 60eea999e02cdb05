import WorkflowAudit.Proofs.Expr.Fragments
import WorkflowAudit.Proofs.Expr.LetterCase
import WorkflowAudit.Proofs.Expr.SourceOrder
import WorkflowAudit.Proofs.Text.Parts

/-!
Conditions, bare and in braces. A bare condition is read as a whole and one in braces as a fragment, with
offsets that count from different places. Main statement: both are judged the same, each comparison of an
actor with a bot is found once, and the comparisons of a condition are found in the order of the text.
-/

namespace WorkflowAudit

open Yaml (Scalar)

/-! ### Comparisons in an expression -/

namespace Expr

/-- The expression is a context that names the actor of an event. -/
def NamesActor (e : Expr) : Prop :=
  ∃ path, e.contextPath? = some path ∧
    (Text.lower path = "github.actor" ∨ Text.lower path = "github.triggering_actor")

/-- The expression is a text that ends as the logins of bots do. -/
def NamesBot (e : Expr) : Prop :=
  ∃ o name, e = .literal o (.string (name ++ "[bot]"))

/-- The expression compares an actor with a bot: by an equality, in either order, or by a function that
    searches texts and has both among its arguments. -/
inductive IsBotCheck : Expr → Prop
  | equality {o : Origin} {op : BinaryOp} {l r : Expr} : op = .eq ∨ op = .ne →
      l.NamesActor ∧ r.NamesBot ∨ l.NamesBot ∧ r.NamesActor → IsBotCheck (.binary o op l r)
  | search {o : Origin} {function name : String} {args : List Expr} {a b : Expr} :
      name ∈ ["contains", "startsWith", "endsWith"] → Text.sameIgnoringCase function name →
      a ∈ args → a.NamesActor → b ∈ args → b.NamesBot → IsBotCheck (.call o function args)

theorem isActor_iff {e : Expr} : e.isActor ↔ e.NamesActor := by
  have hactor : Text.lower "github.actor" = "github.actor" := by decide
  have htriggering : Text.lower "github.triggering_actor" = "github.triggering_actor" := by decide
  unfold isActor NamesActor
  cases e.contextPath? with
  | none => simp
  | some path =>
    simp only [List.any_cons, List.any_nil, Bool.or_false, Bool.or_eq_true,
      Text.sameIgnoringCase_iff, hactor, htriggering]
    simp [eq_comm]

theorem isBotLogin_iff {e : Expr} : e.isBotLogin ↔ e.NamesBot := by
  cases e with
  | literal o v =>
    cases v with
    | string s =>
      rw [isBotLogin, Text.endsWith, Text.isSome_stripLead?_iff, List.reverse_prefix]
      constructor
      · rintro ⟨name, hname⟩
        have hs : s = String.ofList name ++ "[bot]" := by
          rw [← String.toList_inj, String.toList_append, String.toList_ofList, hname]
        exact ⟨o, String.ofList name, by rw [hs]⟩
      · rintro ⟨o', name, h⟩
        cases h
        rw [String.toList_append]
        exact List.suffix_append _ _
    | number | boolean | null => simp [isBotLogin, NamesBot]
  | _ => simp [isBotLogin, NamesBot]

theorem comparesBot_iff {e : Expr} : e.comparesBot ↔ e.IsBotCheck := by
  constructor
  · intro h
    cases e with
    | binary o op l r =>
      simp only [comparesBot, Bool.and_eq_true, Bool.or_eq_true, decide_eq_true_eq, isActor_iff,
        isBotLogin_iff] at h
      exact .equality h.1 h.2
    | call o function args =>
      simp only [comparesBot, Bool.and_eq_true, List.any_eq_true, isActor_iff, isBotLogin_iff] at h
      obtain ⟨⟨⟨name, hname, hfunction⟩, a, ha, hactor⟩, b, hb, hbot⟩ := h
      exact .search hname hfunction ha hactor hb hbot
    | _ => cases h
  · intro h
    cases h with
    | equality hop hsides =>
      simp only [comparesBot, Bool.and_eq_true, Bool.or_eq_true, decide_eq_true_eq, isActor_iff,
        isBotLogin_iff]
      exact ⟨hop, hsides⟩
    | @search _ _ name _ a b hname hfunction ha hactor hb hbot =>
      simp only [comparesBot, Bool.and_eq_true, List.any_eq_true, isActor_iff, isBotLogin_iff]
      exact ⟨⟨⟨name, hname, hfunction⟩, a, ha, hactor⟩, b, hb, hbot⟩

/-- The comparisons at a node and in its parts, if those in the parts are found as they should be. -/
theorem botChecks_eq_of_children {e : Expr} (h : (e.children.map botChecks).flatten =
      ((preorderAll e.children).filter comparesBot).map (·.origin.offset)) :
    e.botChecks = (e.preorder.filter comparesBot).map (·.origin.offset) := by
  rw [botChecks_eq_children, preorder_eq_cons, List.filter_cons, h]
  split <;> rfl

mutual

/-- The comparisons are those that a walk through the expression meets. -/
theorem botChecks_eq_filter : ∀ e : Expr,
    e.botChecks = (e.preorder.filter comparesBot).map (·.origin.offset)
  | .literal .. | .var .. => botChecks_eq_of_children (by simp [children, preorderAll])
  | .property _ r _ | .filter _ r | .not _ r => botChecks_eq_of_children (by
      simp [children, preorderAll, botChecks_eq_filter r])
  | .index _ l r | .binary _ _ l r => botChecks_eq_of_children (by
      simp [children, preorderAll, botChecks_eq_filter l, botChecks_eq_filter r])
  | .call _ _ args => botChecks_eq_of_children (botChecksAll_eq_filter args)

theorem botChecksAll_eq_filter : ∀ es : List Expr, (es.map botChecks).flatten =
    ((preorderAll es).filter comparesBot).map (·.origin.offset)
  | [] => rfl
  | e :: es => by
    simp [preorderAll, botChecks_eq_filter e, botChecksAll_eq_filter es]

end

/-- The comparisons in what is read are found in the order of the text. -/
theorem sorted_botChecks {ending : Ending} {cs rest : List Char} {e : Expr}
    (h : parseUpTo ending cs = .ok (e, rest)) : e.botChecks.Pairwise (· ≤ ·) := by
  obtain ⟨ts, horder, -⟩ := inOrder_of_parseUpTo h
  have hwalk := horder.walk
  rw [preorderAll, preorderAll, List.append_nil] at hwalk
  rw [botChecks_eq_filter, List.pairwise_map]
  exact hwalk.filter _

/-- A comparison in what is read begins within the text. -/
theorem lt_of_mem_botChecks {ending : Ending} {cs rest : List Char} {e : Expr}
    (h : parseUpTo ending cs = .ok (e, rest)) {offset : Nat} (hoffset : offset ∈ e.botChecks) :
    offset < Text.byteSize cs := by
  obtain ⟨ts, horder, hspelled⟩ := inOrder_of_parseUpTo h
  rw [botChecks_eq_filter] at hoffset
  obtain ⟨part, hpart, rfl⟩ := List.mem_map.1 hoffset
  obtain ⟨t, ht, ho, -⟩ := horder.begins part
    (mem_preorderAll.2 ⟨e, List.mem_singleton_self _, List.mem_of_mem_filter hpart⟩)
  obtain ⟨i, hi⟩ := hspelled t ht
  obtain ⟨c, hc, -⟩ := hi.visible
  obtain ⟨hlt, -⟩ := List.getElem?_eq_some_iff.1 hc
  have hrest : 0 < Text.byteSize (cs.drop i) :=
    Text.byteSize_pos (by rwa [Ne, List.drop_eq_nil_iff, Nat.not_le])
  have hsplit := Text.byteSize_append (cs.take i) (cs.drop i)
  rw [List.take_append_drop] at hsplit
  rw [← ho, hi.isOf.offset]
  omega

end Expr

/-! ### Comparisons in a condition -/

/-- The offsets in a text of the comparisons in one of its fragments. -/
def Fragment.botOffsets (f : Fragment) : List Nat :=
  match f.expr with
  | .ok e => e.botChecks.map (f.body + ·)
  | .error _ => []

theorem Fragment.botOffsets_of_ok {f : Fragment} {e : Expr} (h : f.expr = .ok e) :
    f.botOffsets = e.botChecks.map (f.body + ·) := by
  rw [botOffsets, h]

/-- An expression that closes a fragment is one whose text ends within the fragment. -/
theorem Fragment.Closes.exists_parseUpTo {e : Expr} {raw rest : List Char}
    (h : Closes (.ok e) raw rest) :
    ∃ s, Expr.parseUpTo .text s = .ok (e, []) ∧ Text.byteSize s < Text.byteSize raw := by
  cases h with
  | read hread _ =>
    rw [parseFragment_ofList] at hread
    cases hparse : Expr.parseUpTo .braces (raw ++ rest) with
    | error err => rw [hparse] at hread; cases hread
    | ok r =>
      obtain ⟨e', rest'⟩ := r
      rw [hparse] at hread
      simp only [Except.map, Except.ok.injEq, Prod.mk.injEq] at hread
      obtain ⟨rfl, hsize⟩ := hread
      obtain ⟨s, hs, hwhole⟩ := Expr.parseUpTo_before_braces hparse
      have hbraces : Text.byteSize ('\x7d' :: '\x7d' :: rest') = 2 + Text.byteSize rest' :=
        Text.byteSize_append ['\x7d', '\x7d'] rest'
      rw [hs, Text.byteSize_append, hbraces] at hsize
      exact ⟨s, hwhole, by omega⟩

namespace Fragment.CutFrom

variable {text : List Char} {f : Fragment}

theorem exists_parseUpTo (h : f.CutFrom text) {e : Expr} (he : f.expr = .ok e) :
    ∃ s, Expr.parseUpTo .text s = .ok (e, []) ∧ f.body + Text.byteSize s < f.stop := by
  obtain ⟨lead, raw, rest, -, -, -, hstop, hcloses⟩ := h
  rw [he] at hcloses
  obtain ⟨s, hs, hlt⟩ := hcloses.exists_parseUpTo
  exact ⟨s, hs, by omega⟩

theorem sorted_botOffsets (h : f.CutFrom text) : f.botOffsets.Pairwise (· ≤ ·) := by
  cases he : f.expr with
  | error err =>
    rw [botOffsets, he]
    exact List.Pairwise.nil
  | ok e =>
    obtain ⟨s, hs, -⟩ := h.exists_parseUpTo he
    rw [botOffsets_of_ok he, List.pairwise_map]
    exact (Expr.sorted_botChecks hs).imp fun hle => Nat.add_le_add_left hle _

/-- The comparisons in a fragment stand within it. -/
theorem mem_botOffsets (h : f.CutFrom text) {x : Nat} (hx : x ∈ f.botOffsets) :
    f.start ≤ x ∧ x < f.stop := by
  cases he : f.expr with
  | error err =>
    rw [botOffsets, he] at hx
    cases hx
  | ok e =>
    obtain ⟨s, hs, hlt⟩ := h.exists_parseUpTo he
    obtain ⟨lead, raw, rest, -, -, hbody, -, -⟩ := h
    rw [botOffsets_of_ok he] at hx
    obtain ⟨offset, hoffset, rfl⟩ := List.mem_map.1 hx
    have := Expr.lt_of_mem_botChecks hs hoffset
    omega

end Fragment.CutFrom

/-- The comparisons in a fragment come before those in the next. -/
theorem Fragment.botOffsets_apart (text : String) :
    (all text).Pairwise fun f g => ∀ x ∈ f.botOffsets, ∀ y ∈ g.botOffsets, x < y := by
  have hcuts : Cuts [] text.toList (all text) := cuts_scan [] rfl
  refine hcuts.pairwise.imp_of_mem fun {f g} hf hg hle x hx y hy => ?_
  have hbefore := (hcuts.cutFrom f hf).mem_botOffsets hx
  have hafter := (hcuts.cutFrom g hg).mem_botOffsets hy
  omega

namespace Rule

/-- The offsets in a condition of the comparisons of an actor with a bot. -/
def conditionOffsets (c : Scalar) : List Nat :=
  (conditionExprs c).flatMap fun x => x.2.botChecks.map (x.1 + ·)

/-- The report on a comparison at an offset in a condition. -/
def botReport (c : Scalar) (offset : Nat) : Report where
  position := c.positionAt offset
  message := "If statement based on the github.actor variable and a bot identity."

theorem conditionReports_eq (c : Scalar) :
    conditionReports (some c) = (conditionOffsets c).map (botReport c) := by
  simp [conditionReports, conditionOffsets, List.map_flatMap, Function.comp_def, botReport]

theorem conditionOffsets_of_bare {c : Scalar} {e : Expr}
    (hbare : ¬"$\x7b\x7b".toList <:+: c.value.toList) (h : Expr.parse c.value = .ok e) :
    conditionOffsets c = e.botChecks := by
  rw [conditionOffsets, conditionExprs, if_neg (mt Scalar.hasExpression_iff.1 hbare), h]
  simp [Except.toOption]

theorem conditionOffsets_of_fragments {c : Scalar} (h : c.hasExpression) :
    conditionOffsets c = (Fragment.all c.value).flatMap Fragment.botOffsets := by
  rw [conditionOffsets, conditionExprs, if_pos h]
  induction Fragment.all c.value with
  | nil => rfl
  | cons f fs ih =>
    rw [List.flatMap_cons, ← ih]
    cases he : f.expr with
    | error err => simp [he, Fragment.botOffsets, Except.toOption]
    | ok e => simp [he, Fragment.botOffsets, Except.toOption]

/-- An expression in braces is one fragment, which begins three bytes later than the expression. -/
theorem conditionOffsets_of_wrapped {c : Scalar} {text : String} {e : Expr}
    (hvalue : c.value = "$\x7b\x7b" ++ text ++ "\x7d\x7d") (h : Expr.parse text = .ok e) :
    conditionOffsets c = e.botChecks.map (· + 3) := by
  have hchars : c.value.toList = '$' :: '\x7b' :: '\x7b' :: (text.toList ++ ['\x7d', '\x7d']) := by
    rw [hvalue, String.toList_append, String.toList_append]
    rfl
  have hopening : "$\x7b\x7b".toList <:+: c.value.toList := by
    rw [hchars]
    exact List.IsPrefix.isInfix ⟨_, rfl⟩
  have hread := Expr.parseUpTo_append_braces (Expr.parse_eq_ok_iff.1 h) []
  rw [conditionOffsets_of_fragments (Scalar.hasExpression_iff.2 hopening), Fragment.all, hchars,
    Fragment.scan_opening 0 hread, Fragment.scan, List.flatMap_singleton, Fragment.botOffsets]
  simp only [Nat.zero_add, Nat.add_comm]

theorem sorted_conditionOffsets (c : Scalar) : (conditionOffsets c).Pairwise (· ≤ ·) := by
  by_cases hfragments : c.hasExpression
  · have hcuts : Fragment.Cuts [] c.value.toList (Fragment.all c.value) := Fragment.cuts_scan [] rfl
    rw [conditionOffsets_of_fragments hfragments, List.pairwise_flatMap]
    refine ⟨fun f hf => (hcuts.cutFrom f hf).sorted_botOffsets, ?_⟩
    exact (Fragment.botOffsets_apart c.value).imp fun h x hx y hy => Nat.le_of_lt (h x hx y hy)
  · cases hparse : Expr.parse c.value with
    | error err =>
      rw [conditionOffsets, conditionExprs, if_neg hfragments, hparse]
      exact List.Pairwise.nil
    | ok e =>
      rw [conditionOffsets_of_bare (mt Scalar.hasExpression_iff.2 hfragments) hparse]
      exact Expr.sorted_botChecks (Expr.parse_eq_ok_iff.1 hparse)

/-- A condition is judged the same bare and in braces, where its comparisons of actors with bots stand
    three bytes further on; there is one for each node of the expression that is such a comparison. What
    is reported on a condition stands at these offsets, which are in the order of the text, and the
    offsets in a fragment come before those in a later one. -/
theorem conditions_judged_bare_and_wrapped :
    (∀ (text : String) (e : Expr) (bare wrapped : Scalar), ¬"$\x7b\x7b".toList <:+: text.toList →
      Expr.parse text = .ok e → bare.value = text →
      wrapped.value = "$\x7b\x7b" ++ text ++ "\x7d\x7d" →
        conditionOffsets wrapped = (conditionOffsets bare).map (· + 3) ∧
        conditionOffsets bare = (e.preorder.filter Expr.comparesBot).map (·.origin.offset)) ∧
    (∀ e : Expr, e.comparesBot ↔ e.IsBotCheck) ∧
    ∀ c : Scalar,
      conditionReports (some c) = (conditionOffsets c).map (botReport c) ∧
      (conditionOffsets c).Pairwise (· ≤ ·) ∧
      (c.hasExpression →
        conditionOffsets c = (Fragment.all c.value).flatMap Fragment.botOffsets ∧
        (Fragment.all c.value).Pairwise fun f g =>
          ∀ x ∈ f.botOffsets, ∀ y ∈ g.botOffsets, x < y) := by
  refine ⟨fun text e bare wrapped hnone hparse hbare hwrapped => ?_, fun e => Expr.comparesBot_iff,
    fun c => ⟨conditionReports_eq c, sorted_conditionOffsets c, fun h => ?_⟩⟩
  · subst hbare
    rw [conditionOffsets_of_bare hnone hparse, conditionOffsets_of_wrapped hwrapped hparse]
    exact ⟨rfl, Expr.botChecks_eq_filter e⟩
  · exact ⟨conditionOffsets_of_fragments h, Fragment.botOffsets_apart c.value⟩

/-- A condition with two comparisons, the first of them inside a negation and with braces in a text. -/
def doubtful : Scalar where
  value := "!('\x7d\x7d[bot]' != github.actor) || endsWith(github['triggering_actor'], '[bot]')"
  position := ⟨4, 9⟩
  style := .plain
  runs := [⟨0, ⟨4, 9⟩⟩]

/-- The expression that the condition is. -/
def doubt : Expr :=
  .binary .start .or
    (.not .start (.binary ⟨1, 3, 2⟩ .ne (.literal ⟨1, 3, 2⟩ (.string "\x7d\x7d[bot]"))
      (.property ⟨1, 16, 15⟩ (.var ⟨1, 16, 15⟩ "github") "actor")))
    (.call ⟨1, 33, 32⟩ "endsWith"
      [.index ⟨1, 42, 41⟩ (.var ⟨1, 42, 41⟩ "github")
          (.literal ⟨1, 49, 48⟩ (.string "triggering_actor")),
        .literal ⟨1, 70, 69⟩ (.string "[bot]")])

/-- Both comparisons are found bare and in braces; those in the text do not end the fragment. -/
theorem doubtful_judged_bare_and_wrapped :
    ¬"$\x7b\x7b".toList <:+: doubtful.value.toList ∧ Expr.parse doubtful.value = .ok doubt ∧
    conditionOffsets doubtful = [2, 32] ∧
    conditionOffsets { doubtful with value := "$\x7b\x7b" ++ doubtful.value ++ "\x7d\x7d" } =
      [5, 35] := by
  have hnone : ¬"$\x7b\x7b".toList <:+: doubtful.value.toList := by decide +kernel
  have hparse : Expr.parse doubtful.value = .ok doubt := by cbv
  obtain ⟨hwrapped, hbare⟩ := conditions_judged_bare_and_wrapped.1 doubtful.value doubt doubtful
    { doubtful with value := "$\x7b\x7b" ++ doubtful.value ++ "\x7d\x7d" } hnone hparse rfl rfl
  have hfound : (doubt.preorder.filter Expr.comparesBot).map (·.origin.offset) = [2, 32] := by
    decide +kernel
  rw [hfound] at hbare
  exact ⟨hnone, hparse, hbare, by rw [hwrapped, hbare]; rfl⟩

end Rule

end WorkflowAudit
