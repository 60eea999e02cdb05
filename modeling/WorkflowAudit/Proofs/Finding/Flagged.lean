import WorkflowAudit.Catalog
import WorkflowAudit.Proofs.Expr.Places
import WorkflowAudit.Proofs.Script.Lines
import WorkflowAudit.Proofs.Taint.Matching

/-!
The text that a finding is about. Main statement: what rules find in a scalar, they find at the offset
of a visible character of its value, with which the flagged text begins: the variable of a chain, a
comparison or a call, or the first match in a script.
-/

namespace WorkflowAudit

/-! ### Parts that are reported -/

mutual

theorem part_of_mem_innerTaints (untrusted : Trie) : ∀ (e : Expr) {x : Nat × List String},
    x ∈ innerTaints untrusted e → ∃ part, part.Part e ∧ x ∈ judge untrusted part
  | .literal .., _, h | .var .., _, h => by simp [innerTaints] at h
  | .property _ r _, _, h | .filter _ r, _, h => by
    obtain ⟨part, hpart, hx⟩ := part_of_mem_innerTaints untrusted r h
    exact ⟨part, .inside hpart (List.mem_singleton_self _), hx⟩
  | .index _ e k, x, h => by
    rcases List.mem_append.1 h with h | h
    · obtain ⟨part, hpart, hx⟩ := part_of_mem_innerTaints untrusted e h
      exact ⟨part, .inside hpart (List.mem_cons_self ..), hx⟩
    · obtain ⟨part, hpart, hx⟩ := part_of_mem_taints untrusted k h
      exact ⟨part, .inside hpart (by simp [Expr.children]), hx⟩
  | .call _ _ args, x, h => by
    obtain ⟨e, he, part, hpart, hx⟩ := part_of_mem_argumentTaints untrusted args h
    exact ⟨part, .inside hpart he, hx⟩
  | .binary _ _ l r, x, h => by
    rcases List.mem_append.1 h with h | h
    · obtain ⟨part, hpart, hx⟩ := part_of_mem_taints untrusted l h
      exact ⟨part, .inside hpart (List.mem_cons_self ..), hx⟩
    · obtain ⟨part, hpart, hx⟩ := part_of_mem_taints untrusted r h
      exact ⟨part, .inside hpart (by simp [Expr.children]), hx⟩
  | .not _ e, x, h => by
    obtain ⟨part, hpart, hx⟩ := part_of_mem_taints untrusted e h
    exact ⟨part, .inside hpart (List.mem_singleton_self _), hx⟩

theorem part_of_mem_taints (untrusted : Trie) (e : Expr) {x : Nat × List String}
    (h : x ∈ innerTaints untrusted e ++ judge untrusted e) :
    ∃ part, part.Part e ∧ x ∈ judge untrusted part := by
  rcases List.mem_append.1 h with h | h
  · exact part_of_mem_innerTaints untrusted e h
  · exact ⟨e, .self, h⟩

theorem part_of_mem_argumentTaints (untrusted : Trie) : ∀ (es : List Expr) {x : Nat × List String},
    x ∈ argumentTaints untrusted es → ∃ e ∈ es, ∃ part, part.Part e ∧ x ∈ judge untrusted part
  | [], _, h => by simp [argumentTaints] at h
  | e :: es, x, h => by
    rcases List.mem_append.1 h with h | h
    · exact ⟨e, List.mem_cons_self .., part_of_mem_taints untrusted e h⟩
    · obtain ⟨e', he', hpart⟩ := part_of_mem_argumentTaints untrusted es h
      exact ⟨e', List.mem_cons_of_mem _ he', hpart⟩

end

mutual

theorem part_of_mem_botChecks : ∀ (e : Expr) {offset : Nat}, offset ∈ e.botChecks →
    ∃ part : Expr, part.Part e ∧ part.comparesBot ∧ offset = part.origin.offset
  | e, offset, h => by
    rw [Expr.botChecks.eq_def, List.mem_append] at h
    rcases h with h | h
    · split at h
      · rename_i hbot
        exact ⟨e, .self, hbot, List.mem_singleton.1 h⟩
      · cases h
    · cases e with
      | literal | var => cases h
      | property _ r _ | filter _ r =>
        obtain ⟨part, hpart, hx⟩ := part_of_mem_botChecks r h
        exact ⟨part, .inside hpart (List.mem_singleton_self _), hx⟩
      | index _ l r | binary _ _ l r =>
        rcases List.mem_append.1 h with h | h
        · obtain ⟨part, hpart, hx⟩ := part_of_mem_botChecks l h
          exact ⟨part, .inside hpart (List.mem_cons_self ..), hx⟩
        · obtain ⟨part, hpart, hx⟩ := part_of_mem_botChecks r h
          exact ⟨part, .inside hpart (by simp [Expr.children]), hx⟩
      | call _ _ args =>
        obtain ⟨e, he, part, hpart, hx⟩ := part_of_mem_botChecksIn args h
        exact ⟨part, .inside hpart he, hx⟩
      | not _ e =>
        obtain ⟨part, hpart, hx⟩ := part_of_mem_botChecks e h
        exact ⟨part, .inside hpart (List.mem_singleton_self _), hx⟩

theorem part_of_mem_botChecksIn : ∀ (es : List Expr) {offset : Nat}, offset ∈ Expr.botChecksIn es →
    ∃ e ∈ es, ∃ part : Expr, part.Part e ∧ part.comparesBot ∧ offset = part.origin.offset
  | [], _, h => by simp [Expr.botChecksIn] at h
  | e :: es, offset, h => by
    rw [Expr.botChecksIn, List.mem_append] at h
    rcases h with h | h
    · exact ⟨e, List.mem_cons_self .., part_of_mem_botChecks e h⟩
    · obtain ⟨e', he', hpart⟩ := part_of_mem_botChecksIn es h
      exact ⟨e', List.mem_cons_of_mem _ he', hpart⟩

end

theorem Expr.isReported_of_head? {e : Expr} (h : e.head?.isSome) : e.IsReported := by
  cases e with
  | binary | call => trivial
  | _ => exact h

theorem Expr.isReported_of_comparesBot {e : Expr} (h : e.comparesBot) : e.IsReported := by
  cases e with
  | binary | call => trivial
  | _ => cases h

/-- Only a chain that starts at a variable leads anywhere. -/
theorem head?_of_reach {untrusted : Trie} {e : Expr} (h : reach untrusted e ≠ []) :
    e.head?.isSome := by
  fun_induction reach untrusted e with
  | case1 => rfl
  | case2 _ r _ ih | case3 _ r _ _ ih | case4 _ r _ _ ih | case5 _ r ih =>
    refine ih fun hnil => h ?_
    rw [hnil]
    rfl
  | case6 | case7 | case8 | case9 => exact absurd rfl h

/-! ### Where reported parts begin -/

/-- The expression, a part of one that stands in the text, begins at an index of the text. -/
def Expr.BeginsAt (text : List Char) (e : Expr) (k : Nat) : Prop :=
  ∃ (root : Expr) (base : Nat) (ts : List Token) (t : Token) (i : Nat), root.StandsAt text base ts ∧
    e.Part root ∧ FirstIn ts e t ∧ t.SpelledAt (text.drop base) i ∧ k = base + i

theorem Expr.BeginsAt.visible {text : List Char} {e : Expr} {k : Nat} (h : e.BeginsAt text k) :
    ∃ c, text[k]? = some c ∧ ¬Text.isWhite c := by
  obtain ⟨root, base, ts, t, i, -, -, -, hspelled, rfl⟩ := h
  obtain ⟨c, hc, hvisible⟩ := hspelled.visible
  exact ⟨c, by rw [← List.getElem?_drop, hc], hvisible⟩

/-- What is reported begins at the offset of its origin, counted from where the whole begins. -/
theorem Expr.StandsAt.beginsAt {text : List Char} {root e : Expr} {base : Nat} {ts : List Token}
    (h : root.StandsAt text base ts) (hpart : e.Part root) (he : e.IsReported) :
    ∃ k, e.BeginsAt text k ∧
      Text.byteSize (text.take base) + e.origin.offset = Text.byteSize (text.take k) := by
  obtain ⟨t, hfirst, horigin⟩ := exists_firstIn h.stands hpart he
  obtain ⟨i, hspelled⟩ := h.spelledAt hfirst.mem
  refine ⟨base + i, ⟨root, base, ts, t, i, h, hpart, hfirst, hspelled, rfl⟩, ?_⟩
  rw [← horigin, hspelled.offset, List.take_add, Text.byteSize_append]

/-! ### Flagged text -/

open Yaml (Scalar)

/-- What rules search scripts for: the rule, the pattern and the message. -/
def scriptSearches : List (String × Pattern × String) :=
  [("dangerous-checkout", Rule.manualCheckout,
      "Use of \"git checkout\" in a bash script with a potentially dangerous reference."),
    ("dangerous-action", .literal "gh run download", "Use of \"gh run download\" in a script."),
    ("dangerous-action", .literal "downloadArtifact",
      "Use of \"downloadArtifact\" in \"actions/github-script\" action."),
    ("debug-js-exec", .literal "exec.exec(",
      "Use of \"exec.exec()\" in \"actions/github-script\" action.")] ++
    Rule.writePatterns.map fun (p, message) => ("dangerous-write", p, message)

theorem scriptSearches_opensVisibly : ∀ x ∈ scriptSearches, x.2.1.opensVisibly := by
  decide +kernel

/-- The text that a finding is about begins at an index of a value: it is a chain that arrives at
    untrusted paths, a comparison of an actor with a bot, or the first match in a script. -/
inductive Flagged (untrusted : Trie) (value : List Char) (k : Nat) (f : Finding) : Prop
  | chain {e : Expr} {name : String} {paths : List String} : f.rule = "expression-injection" →
      f.message = Taint.message ⟨f.position, paths⟩ → paths ≠ [] →
      arrivals (reach untrusted e) = paths → e.head? = some name → e.BeginsAt value k →
      Flagged untrusted value k f
  | bot {e : Expr} : f.rule = "bot-check" →
      f.message = "If statement based on the github.actor variable and a bot identity." →
      e.comparesBot → e.BeginsAt value k → Flagged untrusted value k f
  | script {p : Pattern} {before line after : List Char} {i : Nat} :
      (f.rule, p, f.message) ∈ scriptSearches →
      (Script.Finder.ofPattern p).FirstAt value before line after i → k = before.length + i →
      Flagged untrusted value k f

theorem Flagged.visible {untrusted : Trie} {value : List Char} {k : Nat} {f : Finding}
    (h : Flagged untrusted value k f) : ∃ c, value[k]? = some c ∧ ¬Text.isWhite c := by
  cases h with
  | chain _ _ _ _ _ hbegins | bot _ _ _ hbegins => exact hbegins.visible
  | script hsearch hfirst hk => exact hk ▸ hfirst.visible (scriptSearches_opensVisibly _ hsearch)

/-- The report of a rule is placed by the offset of flagged text in a scalar. -/
def FlaggedIn (untrusted : Trie) (rule : String) (s : Scalar) (r : Report) : Prop :=
  ∃ k, Flagged untrusted s.value.toList k (.ofReport rule r) ∧
    r.position = s.positionAt (Text.byteSize (s.value.toList.take k))

namespace Rule

theorem flagged_of_mem_injectionsIn {untrusted : Trie} {s : Scalar} {r : Report}
    (h : r ∈ injectionsIn untrusted s) : FlaggedIn untrusted "expression-injection" s r := by
  unfold injectionsIn at h
  split at h
  · obtain ⟨t, ht, rfl⟩ := List.mem_map.1 h
    obtain ⟨f, hf, ht⟩ := List.mem_flatMap.1 ht
    split at ht
    · rename_i root hroot
      obtain ⟨⟨offset, paths⟩, htaint, rfl⟩ := List.mem_map.1 ht
      obtain ⟨e, hpart, hjudge⟩ := part_of_mem_taints untrusted root htaint
      rw [judge_eq] at hjudge
      split at hjudge
      · cases hjudge
      · rename_i hpaths
        cases List.mem_singleton.1 hjudge
        have hhead : e.head?.isSome := head?_of_reach fun hnil => hpaths (by rw [hnil]; rfl)
        obtain ⟨name, hname⟩ := Option.isSome_iff_exists.1 hhead
        obtain ⟨base, ts, hstands, hbody⟩ := Fragment.standsAt_of_mem_all hf hroot
        obtain ⟨k, hbegins, hoffset⟩ := hstands.beginsAt hpart (Expr.isReported_of_head? hhead)
        refine ⟨k, .chain rfl rfl hpaths rfl hname hbegins, ?_⟩
        rw [← hoffset, ← hbody]
    · cases ht
  · cases h

/-- The expressions of a condition stand in it, each from its offset on. -/
theorem standsAt_of_mem_conditionExprs {c : Scalar} {offset : Nat} {e : Expr}
    (h : (offset, e) ∈ conditionExprs c) : ∃ base ts, e.StandsAt c.value.toList base ts ∧
      offset = Text.byteSize (c.value.toList.take base) := by
  unfold conditionExprs at h
  split at h
  · obtain ⟨f, hf, hsome⟩ := List.mem_filterMap.1 h
    cases hexpr : f.expr with
    | error err => rw [hexpr] at hsome; cases hsome
    | ok e' =>
      rw [hexpr] at hsome
      cases hsome
      exact Fragment.standsAt_of_mem_all hf hexpr
  · cases hexpr : Expr.parse c.value with
    | error err => rw [hexpr] at h; cases h
    | ok e' =>
      rw [hexpr] at h
      cases List.mem_singleton.1 h
      obtain ⟨ts, hstands⟩ := Expr.standsAt_of_parse hexpr
      exact ⟨0, ts, hstands, rfl⟩

theorem flagged_of_mem_conditionReports {untrusted : Trie} {c : Scalar} {r : Report}
    (h : r ∈ conditionReports (some c)) : FlaggedIn untrusted "bot-check" c r := by
  obtain ⟨⟨offset, root⟩, hroot, hr⟩ := List.mem_flatMap.1 h
  obtain ⟨inner, hinner, rfl⟩ := List.mem_map.1 hr
  obtain ⟨e, hpart, hbot, rfl⟩ := part_of_mem_botChecks root hinner
  obtain ⟨base, ts, hstands, rfl⟩ := standsAt_of_mem_conditionExprs hroot
  obtain ⟨k, hbegins, hoffset⟩ := hstands.beginsAt hpart (Expr.isReported_of_comparesBot hbot)
  exact ⟨k, .bot rfl rfl hbot hbegins, by rw [← hoffset]⟩

theorem flagged_of_mem_firstIn {untrusted : Trie} {rule : String} {s : Scalar} {p : Pattern}
    {message : String} (hsearch : (rule, p, message) ∈ scriptSearches) {r : Report}
    (h : r ∈ firstIn s p message) : FlaggedIn untrusted rule s r := by
  unfold firstIn at h
  split at h
  · rename_i offset hfind
    rw [List.mem_singleton.1 h]
    obtain ⟨before, line, after, i, hfirst, heq⟩ := Script.firstAt_of_find? hfind
    exact ⟨before.length + i, .script hsearch hfirst rfl, by rw [heq]⟩
  · cases h

end Rule

end WorkflowAudit
