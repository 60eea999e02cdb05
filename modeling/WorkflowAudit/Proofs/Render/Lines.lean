import WorkflowAudit.Proofs.Finding.Placed
import WorkflowAudit.Render.Compact
import WorkflowAudit.Scan

/-!
Findings as lines. A finding is written as one line as long as its message is one. Main statement: the
output has a line break for each finding and those of the messages, no others, and a break in a message
is one of a text that the message quotes; without such breaks the lines are those of the findings in
their order.
-/

namespace WorkflowAudit

/-! ### The line of a finding -/

namespace Render

/-- The line of a finding, without the break that ends it. -/
def lineText (f : Finding) : String :=
  (if f.position.line = 0 then f.shownPath else f.shownPath ++ ":" ++ f.position.text) ++
    ": " ++ f.message ++ " [" ++ f.rule ++ "]"

theorem line_eq (f : Finding) : line f = lineText f ++ "\n" := by
  rw [lineText, String.append_assoc]
  rfl

end Render

theorem Position.text_unbroken (p : Position) : '\n' ∉ p.text.toList := by
  intro hbreak
  have hworded : Worded (fun _ => False) p.text := .position p
  obtain ⟨x, hnone, -⟩ := hworded.exists_break hbreak
  exact hnone

namespace Render

variable {f : Finding}

theorem toList_line (f : Finding) : (line f).toList = (lineText f).toList ++ ['\n'] := by
  rw [line_eq, String.toList_append]
  rfl

/-- The breaks in a line are those of its message. -/
theorem count_lineText (hpath : '\n' ∉ f.shownPath.toList) (hrule : '\n' ∉ f.rule.toList) :
    (lineText f).toList.count '\n' = f.message.toList.count '\n' := by
  have hplace : '\n' ∉ (if f.position.line = 0 then f.shownPath
      else f.shownPath ++ ":" ++ f.position.text).toList := by
    split
    · exact hpath
    · simp [hpath, f.position.text_unbroken]
  simp [lineText, List.count_append, List.count_eq_zero.2 hplace, List.count_eq_zero.2 hrule]

theorem toList_oneLine (findings : List Finding) :
    (oneLine findings).toList = findings.flatMap fun f => (lineText f).toList ++ ['\n'] := by
  rw [oneLine, String.toList_join, List.flatMap_map]
  simp only [toList_line]

theorem count_oneLine {findings : List Finding} (hpath : ∀ f ∈ findings, '\n' ∉ f.shownPath.toList)
    (hrule : ∀ f ∈ findings, '\n' ∉ f.rule.toList) :
    (oneLine findings).toList.count '\n' =
      findings.length + (findings.map fun f => f.message.toList.count '\n').sum := by
  rw [toList_oneLine]
  induction findings with
  | nil => rfl
  | cons f findings ih =>
    rw [List.forall_mem_cons] at hpath hrule
    rw [List.flatMap_cons, List.count_append, ih hpath.2 hrule.2, List.count_append,
      count_lineText hpath.1 hrule.1, List.length_cons, List.map_cons, List.sum_cons,
      List.count_singleton_self]
    omega

/-- Lines without breaks are the lines of the output. -/
theorem splitOn_oneLine {findings : List Finding} (h : ∀ f ∈ findings, '\n' ∉ (lineText f).toList) :
    (oneLine findings).toList.splitOn '\n' = findings.map (fun f => (lineText f).toList) ++ [[]] := by
  rw [toList_oneLine]
  induction findings with
  | nil => rfl
  | cons f findings ih =>
    obtain ⟨hf, hrest⟩ := List.forall_mem_cons.1 h
    rw [List.flatMap_cons, List.append_assoc, List.singleton_append,
      List.splitOn_append_cons_self_of_not_mem hf, ih hrest, List.map_cons, List.cons_append]

end Render

/-! ### The findings of a file -/

theorem mem_mergeFindings {settings : Settings} {path : String} {findings : List Finding} {f : Finding}
    (h : f ∈ mergeFindings settings path findings) :
    ∃ g ∈ findings, f = { g with path := some path } := by
  obtain ⟨g, hg, rfl⟩ := List.mem_map.1 (List.mem_mergeSort.1 h)
  exact ⟨g, List.mem_of_mem_filter hg, rfl⟩

theorem catalog_unbroken : ∀ rule ∈ catalog, '\n' ∉ rule.ident.toList := by
  decide +kernel

theorem rule_unbroken {around : Surroundings} {rules : List Rule} (hrules : rules ⊆ catalog)
    {w : Workflow} {f : Finding} (hf : f ∈ (dispatch around rules w).findings) :
    '\n' ∉ f.rule.toList := by
  obtain ⟨rule, hrule, before, hf⟩ := mem_findings_dispatch hf
  rw [rule_of_mem_alone hf]
  exact catalog_unbroken rule (hrules hrule)

/-- The lines of a file's findings, under a path without line breaks. There are as many breaks as there
    are findings, and those of the messages. If that is no more than there are findings, the lines are
    those of the findings in their order. A break in a message is one of a text that it quotes. -/
theorem oneLine_breaks_in_quotes {around : Surroundings} {rules : List Rule} (hrules : rules ⊆ catalog)
    (w : Workflow) {path : String} (hpath : '\n' ∉ path.toList) :
    let merged := mergeFindings around.settings path (dispatch around rules w).findings
    (Render.oneLine merged).toList.count '\n' =
        merged.length + (merged.map fun f => f.message.toList.count '\n').sum ∧
      ((Render.oneLine merged).toList.count '\n' = merged.length →
        (Render.oneLine merged).toList.splitOn '\n' =
          merged.map (fun f => (Render.lineText f).toList) ++ [[]]) ∧
      ∀ f ∈ merged, '\n' ∈ f.message.toList →
        ∃ x, w.Quotes around x ∧ '\n' ∈ x.toList ∧ x.toList <:+: f.message.toList := by
  intro merged
  have hshown : ∀ f ∈ merged, '\n' ∉ f.shownPath.toList := by
    intro f hf
    obtain ⟨g, -, rfl⟩ := mem_mergeFindings hf
    exact hpath
  have hrule : ∀ f ∈ merged, '\n' ∉ f.rule.toList := by
    intro f hf
    obtain ⟨g, hg, rfl⟩ := mem_mergeFindings hf
    have hunbroken := rule_unbroken hrules hg
    exact hunbroken
  have hcount := Render.count_oneLine hshown hrule
  refine ⟨hcount, fun hlength => Render.splitOn_oneLine fun f hf => ?_, fun f hf hbreak => ?_⟩
  · -- as many breaks as findings: none is left for a message
    have hsum : (merged.map fun f => f.message.toList.count '\n').sum = 0 := by omega
    have hzero := List.sum_eq_zero_iff.1 hsum _ (List.mem_map_of_mem hf)
    rw [← List.count_eq_zero, Render.count_lineText (hshown f hf) (hrule f hf)]
    exact hzero
  · obtain ⟨g, hg, rfl⟩ := mem_mergeFindings hf
    exact (worded_of_mem_dispatch hrules hg).exists_break hbreak

/-- Two uses of actions of the project. -/
def localUsesDocument : String :=
  "on: push\njobs:\n  a:\n    steps:\n      - uses: ./b\n      - uses: ./c\n"

theorem localUsesDocument_is_two_lines : ∃ w : Workflow,
    Workflow.parse localUsesDocument = .ok w ∧
    (dispatch trusting [.localAction] w).findings.map (·.position) = [⟨5, 15⟩, ⟨6, 15⟩] ∧
    [Rule.localAction] ⊆ catalog ∧ '\n' ∉ "a.yml".toList ∧
    let merged := mergeFindings trusting.settings "a.yml" (dispatch trusting [.localAction] w).findings
    (Render.oneLine merged).toList.count '\n' =
        merged.length + (merged.map fun f => f.message.toList.count '\n').sum ∧
      ((Render.oneLine merged).toList.count '\n' = merged.length →
        (Render.oneLine merged).toList.splitOn '\n' =
          merged.map (fun f => (Render.lineText f).toList) ++ [[]]) ∧
      ∀ f ∈ merged, '\n' ∈ f.message.toList →
        ∃ x, w.Quotes trusting x ∧ '\n' ∈ x.toList ∧ x.toList <:+: f.message.toList := by
  obtain ⟨w, hw, hfindings⟩ : ∃ w, Workflow.parse localUsesDocument = .ok w ∧
      (dispatch trusting [.localAction] w).findings =
        [⟨"local-action", "Use of local action \"./b\"", ⟨5, 15⟩, none⟩,
          ⟨"local-action", "Use of local action \"./c\"", ⟨6, 15⟩, none⟩] :=
    exists_parse_of_findings (by decide +kernel)
  have hrules : [Rule.localAction] ⊆ catalog := by simp [catalog]
  exact ⟨w, hw, by rw [hfindings]; rfl, hrules, by decide,
    oneLine_breaks_in_quotes hrules w (by decide)⟩

/-- The use of an action whose name has a line break. -/
def brokenNameDocument : String :=
  "on: push\njobs:\n  a:\n    steps:\n      - uses: \"./a\\nb\"\n"

theorem brokenNameDocument_is_two_lines : ∃ w : Workflow,
    Workflow.parse brokenNameDocument = .ok w ∧
    let merged := mergeFindings trusting.settings "a.yml" (dispatch trusting [.localAction] w).findings
    merged.length = 1 ∧ (Render.oneLine merged).toList.count '\n' = 2 := by
  obtain ⟨w, hw, hfindings⟩ : ∃ w, Workflow.parse brokenNameDocument = .ok w ∧
      (dispatch trusting [.localAction] w).findings =
        [⟨"local-action", "Use of local action \"./a\nb\"", ⟨5, 15⟩, none⟩] :=
    exists_parse_of_findings (by decide +kernel)
  refine ⟨w, hw, ?_⟩
  have hmerged : mergeFindings trusting.settings "a.yml"
      (dispatch trusting [.localAction] w).findings =
        [⟨"local-action", "Use of local action \"./a\nb\"", ⟨5, 15⟩, some "a.yml"⟩] := by
    rw [hfindings]
    exact List.mergeSort_singleton _
  rw [hmerged]
  decide +kernel

end WorkflowAudit
