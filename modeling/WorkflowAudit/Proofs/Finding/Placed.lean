import WorkflowAudit.Proofs.Finding.Reports
import WorkflowAudit.Proofs.Yaml.Cursor

/-!
Findings stand in their document. Main statement: a finding is about a request that came to nothing, or
it has the line and the column of a place of the document, except in a block scalar that ends with its
header at the end of a document without a last line break; such a finding stands on the line after the
last.
-/

namespace WorkflowAudit

open Yaml (Scalar)

/-- What holds of all scalars by which reports are placed holds of those of each part of the walk. -/
theorem Workflow.AllPlacing.visit {P : Scalar → Prop} {w : Workflow} (h : w.AllPlacing P) {v : Visit}
    (hv : v ∈ w.visits) : ∀ s ∈ v.placing, P s := by
  rcases List.mem_cons.1 hv with rfl | hv
  · exact h.1
  · obtain ⟨job, hjob, hv⟩ := List.mem_flatMap.1 hv
    obtain ⟨hplacing, hsteps⟩ := h.2 job hjob
    rcases List.mem_cons.1 hv with rfl | hv
    · exact hplacing
    · rcases List.mem_append.1 hv with hv | hv
      · obtain ⟨st, hst, rfl⟩ := List.mem_map.1 hv
        exact hsteps st hst
      · rw [List.mem_singleton.1 hv]
        exact List.forall_mem_nil _

/-- Where a scalar places reports is a place of the document, unless the scalar ends with its header. -/
theorem Yaml.Scalar.StandsIn.isAt_of_places {document : List Char} {s : Scalar}
    (h : s.StandsIn document) {p : Position} (hp : s.Places p) :
    (∃ offset, p.IsAt document offset) ∨ s.EndsWithHeader document p := by
  rcases hp with rfl | ⟨k, hk, rfl⟩
  · exact .inl h.isAt_position
  · exact h.isAt_positionAt hk

/-- On any network and under any settings, each finding of rules of the catalog is about a request that
    came to nothing and stands nowhere, or stands at a byte offset of the text, or stands on the line
    after the last, by a block scalar whose header is the end of the text. -/
theorem findings_stand_in_text {text : String} {w : Workflow} (hw : Workflow.parse text = .ok w)
    {around : Surroundings} {rules : List Rule} (hrules : rules ⊆ catalog) {f : Finding}
    (hf : f ∈ (dispatch around rules w).findings) :
    (f.IsNetworkError around w ∧ f.position = ⟨0, 0⟩) ∨
      (∃ offset, f.position.IsAt text.toList offset) ∨
      (text.toList.getLast? ≠ some '\n' ∧ f.position = ⟨text.toList.count '\n' + 2, 1⟩ ∧
        ∃ v ∈ w.visits, ∃ s ∈ v.placing, s.EndsWithHeader text.toList f.position) := by
  rcases grounded_of_mem_dispatch hrules hf with ⟨v, hv, r, heq, ⟨s, hs, hplaces⟩, -⟩ | herror
  · have hstands := (Workflow.placing_standsIn hw).visit hv s hs
    have hposition : f.position = r.position := congrArg Finding.position heq
    rw [← hposition] at hplaces
    rcases hstands.isAt_of_places hplaces with hat | hends
    · exact .inr (.inl hat)
    · exact .inr (.inr ⟨hends.getLast?_ne, hends.position_eq, v, hv, s, hs, hends⟩)
  · refine .inl ⟨herror, ?_⟩
    obtain ⟨st, owner, u, cause, -, -, -, heq⟩ := herror
    exact congrArg Finding.position heq

/-! ### A finding in double quotes, and one after the last line -/

/-- A workflow whose findings can be computed. -/
theorem exists_parse_of_findings {text : String} {around : Surroundings} {rules : List Rule}
    {findings : List Finding} (h : ((Workflow.parse text).toOption.map fun w =>
      (dispatch around rules w).findings) = some findings) :
    ∃ w, Workflow.parse text = .ok w ∧ (dispatch around rules w).findings = findings := by
  obtain ⟨w, hoption, hw⟩ := Option.map_eq_some_iff.1 h
  cases hread : Workflow.parse text with
  | error err => rw [hread] at hoption; cases hoption
  | ok w' => rw [hread] at hoption; cases hoption; exact ⟨w, rfl, hw⟩

/-- Surroundings in which nothing is untrusted. -/
def trusting : Surroundings where
  settings := {}
  untrusted := .ofPaths []

/-- A finding on the use of a command in a script. -/
def downloadAt (p : Position) : Finding where
  rule := "dangerous-action"
  message := "Use of \"gh run download\" in a script."
  position := p

/-- A script in double quotes, on lines that end in two characters, with an escape and a folded line. -/
def escapedDocument : String :=
  "on: push\r\njobs:\r\n  a:\r\n    steps:\r\n    - run: \"é\\n\r\n        gh run download\"\r\n"

theorem escapedDocument_found_in_text : ∃ (w : Workflow) (f : Finding),
    Workflow.parse escapedDocument = .ok w ∧ [Rule.dangerousAction] ⊆ catalog ∧
    f ∈ (dispatch trusting [.dangerousAction] w).findings ∧ f.position = ⟨6, 9⟩ ∧
    ((f.IsNetworkError trusting w ∧ f.position = ⟨0, 0⟩) ∨
      (∃ offset, f.position.IsAt escapedDocument.toList offset) ∨
      (escapedDocument.toList.getLast? ≠ some '\n' ∧
        f.position = ⟨escapedDocument.toList.count '\n' + 2, 1⟩ ∧
        ∃ v ∈ w.visits, ∃ s ∈ v.placing, s.EndsWithHeader escapedDocument.toList f.position)) := by
  obtain ⟨w, hw, hfindings⟩ : ∃ w, Workflow.parse escapedDocument = .ok w ∧
      (dispatch trusting [.dangerousAction] w).findings = [downloadAt ⟨6, 9⟩] :=
    exists_parse_of_findings (by decide +kernel)
  have hrules : [Rule.dangerousAction] ⊆ catalog := by simp [catalog]
  have hf : downloadAt ⟨6, 9⟩ ∈ (dispatch trusting [.dangerousAction] w).findings :=
    hfindings ▸ List.mem_singleton_self _
  exact ⟨w, downloadAt ⟨6, 9⟩, hw, hrules, hf, rfl, findings_stand_in_text hw hrules hf⟩

/-- A block scalar that ends with its header, which cannot be read for a control character and so is a
    script as it stands. -/
def headerDocument : String :=
  "on: push\njobs:\n  a:\n    steps:\n      - run: | # \x7f gh run download"

theorem headerDocument_found_after_text : ∃ (w : Workflow) (f : Finding),
    Workflow.parse headerDocument = .ok w ∧
    f ∈ (dispatch trusting [.dangerousAction] w).findings ∧ f.position = ⟨6, 1⟩ ∧
    ∀ offset, ¬f.position.IsAt headerDocument.toList offset := by
  obtain ⟨w, hw, hfindings⟩ : ∃ w, Workflow.parse headerDocument = .ok w ∧
      (dispatch trusting [.dangerousAction] w).findings = [downloadAt ⟨6, 1⟩] :=
    exists_parse_of_findings (by decide +kernel)
  refine ⟨w, downloadAt ⟨6, 1⟩, hw, hfindings ▸ List.mem_singleton_self _, rfl, fun offset hat => ?_⟩
  have hlines : headerDocument.toList.count '\n' = 4 := by decide +kernel
  have hle : 6 ≤ headerDocument.toList.count '\n' + 1 := hat.line_le
  omega

end WorkflowAudit
