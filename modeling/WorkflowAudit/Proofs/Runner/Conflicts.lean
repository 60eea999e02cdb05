import WorkflowAudit.Proofs.Expr.Fragments
import WorkflowAudit.Proofs.Text.Parts
import WorkflowAudit.Proofs.Walk.Independence
import WorkflowAudit.Rule.RunnerLabel

/-!
Runner labels that cannot go together. An entry among a job's labels stands for itself, or for the values
of the matrix property that it consists of. The rule goes through the entries and notes the images that
their labels select; a label that conflicts with a noted one is reported and not noted. The invariant is
that what is noted comes of earlier entries, and that nothing is missing as long as no conflict has been
reported. Main statement: a job has a report on a conflict exactly if two of its entries stand for labels
without a common image, in whichever order they are written and whatever jobs came before.
-/

namespace WorkflowAudit

open Yaml (Scalar)

/-! ### Jobs one after the other -/

namespace Rule

/-- What the rule on runner labels reports on a part of the walk. -/
def runnerLook (around : Surroundings) (v : Visit) : List Report :=
  match v with
  | .enterJob j => (checkJob around.settings [] j).2
  | _ => []

/-- What other jobs have left behind does not matter. -/
theorem checkJob_reports (settings : Settings) (seen : List SeenLabel) (j : Job) :
    (checkJob settings seen j).2 = (checkJob settings [] j).2 := by
  unfold checkJob
  split
  · rfl
  · split
    · rfl
    · split <;> rfl
  · rfl

theorem memoryless_runnerLabel : runnerLabel.Memoryless runnerLook where
  visit around seen v := by
    cases v with
    | enterJob j => exact checkJob_reports around.settings seen j
    | enter | step | leaveJob => rfl
  leave _ seen _ := ⟨seen, rfl⟩

/-- The reports of a rule on a job, after it has been told of other jobs. -/
def jobReports (around : Surroundings) (rule : Rule) (before : List Job) (j : Job) : List Report :=
  (rule.hearJob around ((before.foldl (rule.hearJob around) (rule.start, [])).1, []) j).2

theorem jobReports_runnerLabel (around : Surroundings) (before : List Job) (j : Job) :
    jobReports around runnerLabel before j = (checkJob around.settings [] j).2 := by
  rw [jobReports, ← foldl_hear_job, memoryless_runnerLabel.foldl_hear, List.nil_append, Job.visits]
  simp [runnerLook, List.flatMap_map]

end Rule

/-! ### What an entry stands for -/

/-- The scalar is a literal value of a property of the matrix, in its row or in a further combination. -/
def Matrix.Offers (m : Matrix) (property : String) (a : Scalar) : Prop :=
  ((∃ row ∈ m.rows, Text.sameIgnoringCase row.1 property ∧ a ∈ row.2) ∨
    ∃ further ∈ m.further, ∃ entry ∈ further, Text.sameIgnoringCase entry.1 property ∧ entry.2 = a) ∧
  ¬"$\x7b\x7b".toList <:+: a.value.toList

namespace RunnerLabel

/-- A label that an entry stands for: the entry itself if it holds no expression, else a literal value of
    the property of the matrix that the entry consists of, white space aside. -/
inductive StandsFor (matrix : Option Matrix) (entry : Scalar) : Scalar → Prop
  | literal : ¬"$\x7b\x7b".toList <:+: entry.value.toList → StandsFor matrix entry entry
  | choice {m : Matrix} {text name property : String} {o o' : Origin} {a : Scalar} :
      matrix = some m → Text.trim entry.value = "$\x7b\x7b" ++ text ++ "\x7d\x7d" →
      Expr.parse text = .ok (.property o (.var o' name) property) →
      Text.sameIgnoringCase name "matrix" → m.Offers property a → StandsFor matrix entry a

end RunnerLabel

open RunnerLabel

theorem Matrix.mem_candidates {m : Matrix} {property : String} {a : Scalar} :
    a ∈ m.candidates property ↔ m.Offers property a := by
  simp only [candidates, Offers, List.mem_filter, List.mem_append, List.mem_flatMap, List.mem_map,
    Bool.not_eq_true', ← Bool.not_eq_true, Scalar.hasExpression_iff, and_assoc]

/-- All of a text is read as a fragment if it is an expression and closing braces. -/
theorem Expr.parseFragment_whole_iff {body : List Char} {e : Expr} :
    parseFragment (String.ofList body) = .ok (e, Text.byteSize body) ↔
      ∃ text, body = text.toList ++ Fragment.braces ∧ parse text = .ok e := by
  rw [Fragment.parseFragment_ofList]
  constructor
  · intro h
    cases hread : parseUpTo .braces body with
    | error err => rw [hread] at h; cases h
    | ok r =>
      obtain ⟨e', rest⟩ := r
      obtain ⟨s, hbody, hs⟩ := parseUpTo_before_braces hread
      rw [hread] at h
      simp only [Except.map, Except.ok.injEq, Prod.mk.injEq] at h
      obtain ⟨rfl, hsize⟩ := h
      -- the braces take two bytes, so nothing is left only if nothing follows them
      have hrest : rest = [] := by
        by_contra hne
        have hpos := Text.byteSize_pos hne
        have hle : Text.byteSize rest ≤ Text.byteSize body := by
          rw [hbody, List.append_cons, List.append_cons, Text.byteSize_append]
          omega
        omega
      subst hrest
      exact ⟨String.ofList s, by rw [hbody, String.toList_ofList]; rfl,
        parse_eq_ok_iff.2 (by rwa [String.toList_ofList])⟩
  · rintro ⟨text, rfl, hparse⟩
    have hread := parseUpTo_append_braces (parse_eq_ok_iff.1 hparse) []
    rw [Fragment.braces, hread]
    rfl

namespace Rule

/-- A label consists of an expression if it is one between braces, white space aside. -/
theorem wholeExpression?_eq_some_iff {label : String} {e : Expr} :
    wholeExpression? label = some e ↔
      ∃ text, Text.trim label = "$\x7b\x7b" ++ text ++ "\x7d\x7d" ∧ Expr.parse text = .ok e := by
  have htext (text : String) : Text.trim label = "$\x7b\x7b" ++ text ++ "\x7d\x7d" ↔
      (Text.trim label).toList = Fragment.opening ++ (text.toList ++ Fragment.braces) := by
    rw [← String.toList_inj, String.toList_append, String.toList_append, List.append_assoc]
    rfl
  simp only [htext]
  constructor
  · intro h
    obtain ⟨body, hbody, h⟩ := Option.bind_eq_some_iff.1 h
    obtain ⟨⟨e', consumed⟩, hread, h⟩ := Option.bind_eq_some_iff.1 h
    dsimp only at h
    split at h
    · rename_i hall
      cases h
      have hwhole : Expr.parseFragment (String.ofList body) = .ok (e, Text.byteSize body) := by
        cases hp : Expr.parseFragment (String.ofList body) with
        | error err => rw [hp] at hread; cases hread
        | ok r => rw [hp] at hread; cases hread; rw [hall]
      obtain ⟨text, rfl, hparse⟩ := Expr.parseFragment_whole_iff.1 hwhole
      exact ⟨text, Text.stripLead?_eq_some_iff.1 hbody, hparse⟩
    · cases h
  · rintro ⟨text, htrim, hparse⟩
    have hwhole := Expr.parseFragment_whole_iff.2 ⟨text, rfl, hparse⟩
    refine Option.bind_eq_some_iff.2 ⟨_, Text.stripLead?_eq_some_iff.2 htrim, ?_⟩
    rw [hwhole]
    exact if_pos rfl

end Rule

namespace RunnerLabel

/-- The labels that an entry stands for, as the rule finds them. -/
def resolved (matrix : Option Matrix) (entry : Scalar) : List Scalar :=
  if entry.hasExpression then Rule.labelCandidates entry matrix else [entry]

theorem standsFor_iff {matrix : Option Matrix} {entry a : Scalar} :
    StandsFor matrix entry a ↔ a ∈ resolved matrix entry := by
  unfold resolved
  constructor
  · intro h
    cases h with
    | literal hnone =>
      rw [if_neg (mt Scalar.hasExpression_iff.1 hnone)]
      exact List.mem_singleton_self _
    | @choice m text name property o o' _ hmatrix htrim hparse hname hoffers =>
      have hopening : "$\x7b\x7b".toList <:+: entry.value.toList := by
        refine List.IsInfix.trans ?_ (Text.trim_infix entry.value)
        rw [htrim, String.append_assoc, String.toList_append]
        exact (List.prefix_append _ _).isInfix
      have hwhole := Rule.wholeExpression?_eq_some_iff.2 ⟨text, htrim, hparse⟩
      rw [if_pos (Scalar.hasExpression_iff.2 hopening)]
      simp only [Rule.labelCandidates, hmatrix, hwhole, hname, if_true]
      exact Matrix.mem_candidates.2 hoffers
  · intro h
    split at h
    · unfold Rule.labelCandidates at h
      split at h
      · rename_i m _ _ name property _ hwhole
        obtain ⟨text, htrim, hparse⟩ := Rule.wholeExpression?_eq_some_iff.1 hwhole
        split at h
        · rename_i hname
          exact .choice rfl htrim hparse hname (Matrix.mem_candidates.1 h)
        · cases h
      · cases h
    · rename_i hnone
      rw [List.mem_singleton.1 h]
      exact .literal (mt Scalar.hasExpression_iff.2 hnone)

/-! ### Images and conflicts -/

/-- The labels select images, and none in common. -/
def Excludes (a b : Scalar) : Prop :=
  ∃ A B, RunnerImage.ofLabel? a.value = some A ∧ RunnerImage.ofLabel? b.value = some B ∧
    ∀ image ∈ A, image ∉ B

theorem Excludes.symm {a b : Scalar} (h : Excludes a b) : Excludes b a := by
  obtain ⟨A, B, ha, hb, hnone⟩ := h
  exact ⟨B, A, hb, ha, fun image hB hA => hnone image hA hB⟩

/-- The labels that two entries stand for exclude each other nowhere. -/
def GoTogether (matrix : Option Matrix) (entry other : Scalar) : Prop :=
  ∀ a ∈ resolved matrix entry, ∀ b ∈ resolved matrix other, ¬Excludes a b

theorem GoTogether.symm {matrix : Option Matrix} {entry other : Scalar}
    (h : GoTogether matrix entry other) : GoTogether matrix other entry :=
  fun a ha b hb hexcludes => h b hb a ha hexcludes.symm

end RunnerLabel

namespace RunnerImage

theorem disjoint_iff {A B : List RunnerImage} : disjoint A B ↔ ∀ image ∈ A, image ∉ B := by
  simp [disjoint]

/-- A known label selects some image. -/
theorem ne_nil_of_ofLabel? {label : String} {A : List RunnerImage} (h : ofLabel? label = some A) :
    A ≠ [] := by
  have htable : ∀ entry ∈ table, entry.2 ≠ [] := by decide
  obtain ⟨before, after, heq, -⟩ := List.lookup_eq_some_iff.1 h
  exact htable (Text.lower label, A) (by simp [heq])

end RunnerImage

/-- The report is on a label that conflicts with an earlier one. -/
def Report.IsConflict (r : Report) : Prop :=
  ∃ (label earlier : String) (p : Position), r.message =
    s!"label \"{label}\" conflicts with label \"{earlier}\" defined at {p.text}. note: to run your job on each workers, use matrix"

/-- Messages about conflicts are told from the other messages on labels by their last letter. -/
theorem Report.IsConflict.getLast? {r : Report} (h : r.IsConflict) :
    r.message.toList.getLast? = some 'x' := by
  obtain ⟨label, earlier, p, h⟩ := h
  rw [h]
  exact Text.getLast?_append (by decide)

namespace Rule

theorem isConflict_conflictReport (a : Scalar) (s : SeenLabel) : (conflictReport a s).IsConflict :=
  ⟨a.value, s.label, s.position, rfl⟩

theorem verifyLabel_fst (settings : Settings) (label : Scalar) :
    (verifyLabel settings label).1 = (RunnerImage.ofLabel? label.value).getD [] := by
  unfold verifyLabel
  split
  · rename_i images himages
    rw [himages]
    rfl
  · rename_i hnone
    rw [hnone]
    split <;> rfl

theorem not_isConflict_of_verifyLabel {settings : Settings} {label : Scalar} {r : Report}
    (h : r ∈ (verifyLabel settings label).2) : ¬r.IsConflict := by
  unfold verifyLabel at h
  split at h
  · cases h
  · split at h
    · cases h
    · intro hconflict
      have hlast := hconflict.getLast?
      have hother : r.message.toList.getLast? = some '.' := by
        rw [List.mem_singleton.1 h]
        exact Text.getLast?_append (by decide)
      rw [hother] at hlast
      exact absurd hlast (by decide)

/-! ### Alternatives -/

/-- The noted label is one of the labels of a job, with its images. -/
def SeenLabel.IsOf (s : SeenLabel) (b : Scalar) : Prop :=
  RunnerImage.ofLabel? b.value = some s.images ∧ s.label = b.value ∧ s.position = b.position

/-- What is noted comes of labels that have been met. -/
def Noted (met : List Scalar) (seen : List SeenLabel) : Prop :=
  ∀ s ∈ seen, ∃ b ∈ met, s.IsOf b

/-- The images of all labels that have been met are noted. -/
def AllNoted (met : List Scalar) (seen : List SeenLabel) : Prop :=
  ∀ b ∈ met, ∀ B, RunnerImage.ofLabel? b.value = some B → ∃ s ∈ seen, s.images = B

theorem noted_nil : Noted [] [] := List.forall_mem_nil _

theorem allNoted_nil : AllNoted [] [] := List.forall_mem_nil _

section Alternatives

variable {settings : Settings} {seen : List SeenLabel} {labels met : List Scalar} {r : Report}

theorem note_cases (seen : List SeenLabel) (a : Scalar) (images : List RunnerImage) :
    note seen a images = seen ∧ (images = [] ∨ ∃ s ∈ seen, s.images = images) ∨
      note seen a images = seen ++ [⟨images, a.value, a.position⟩] ∧ images ≠ [] := by
  unfold note
  split
  · rename_i h
    exact .inl ⟨rfl, by simpa using h⟩
  · rename_i h
    exact .inr ⟨rfl, fun hnil => h (by simp [hnil])⟩

theorem subset_note (seen : List SeenLabel) (a : Scalar) (images : List RunnerImage) :
    seen ⊆ note seen a images := by
  rcases note_cases seen a images with ⟨h, -⟩ | ⟨h, -⟩
  · rw [h]
    exact List.Subset.refl _
  · rw [h]
    exact List.subset_append_left _ _

/-- Notes labels one after the other. -/
def noteAll (settings : Settings) (seen : List SeenLabel) (labels : List Scalar) : List SeenLabel :=
  labels.foldl (fun seen a => note seen a (verifyLabel settings a).1) seen

theorem subset_noteAll (seen : List SeenLabel) (labels : List Scalar) :
    seen ⊆ noteAll settings seen labels := by
  induction labels generalizing seen with
  | nil => exact List.Subset.refl _
  | cons a labels ih => exact List.Subset.trans (subset_note seen a _) (ih _)

theorem Noted.noteAll (h : Noted met seen) (hlabels : labels ⊆ met) :
    Noted met (noteAll settings seen labels) := by
  induction labels generalizing seen with
  | nil => exact h
  | cons a labels ih =>
    obtain ⟨ha, hrest⟩ := List.cons_subset.1 hlabels
    refine ih (fun s hs => ?_) hrest
    dsimp only at hs
    rcases note_cases seen a (verifyLabel settings a).1 with ⟨heq, -⟩ | ⟨heq, hne⟩
    · exact h s (heq ▸ hs)
    · rw [heq, List.mem_append, List.mem_singleton] at hs
      rcases hs with hs | rfl
      · exact h s hs
      · refine ⟨a, ha, ?_, rfl, rfl⟩
        rw [verifyLabel_fst] at hne ⊢
        cases himages : RunnerImage.ofLabel? a.value with
        | none => rw [himages] at hne; exact absurd rfl hne
        | some images => rfl

theorem allNoted_noteAll : AllNoted labels (noteAll settings seen labels) := by
  induction labels generalizing seen with
  | nil => exact fun b hb => absurd hb List.not_mem_nil
  | cons a labels ih =>
    intro b hb B hB
    rcases List.mem_cons.1 hb with rfl | hb
    · -- the label is noted now, or its images were noted before
      have himages : (verifyLabel settings b).1 = B := by rw [verifyLabel_fst, hB]; rfl
      have hnoted : ∃ s ∈ note seen b B, s.images = B := by
        rcases note_cases seen b B with ⟨heq, hnil | hseen⟩ | ⟨heq, -⟩
        · exact absurd hnil (RunnerImage.ne_nil_of_ofLabel? hB)
        · rwa [heq]
        · exact ⟨⟨B, b.value, b.position⟩, by simp [heq], rfl⟩
      obtain ⟨s, hs, hsB⟩ := hnoted
      rw [← himages] at hs
      exact ⟨s, subset_noteAll _ labels hs, hsB⟩
    · exact ih b hb B hB

theorem mem_of_conflictWith? {images : List RunnerImage} {earlier : SeenLabel}
    (h : conflictWith? seen images = some earlier) :
    earlier ∈ seen ∧ RunnerImage.disjoint earlier.images images := by
  unfold conflictWith? at h
  split at h
  · cases h
  · have hdisjoint := List.find?_some h
    exact ⟨List.mem_of_find?_eq_some h, hdisjoint⟩

theorem mem_reports_checkAlternatives : r ∈ (checkAlternatives settings seen labels).2 ↔
    (∃ a ∈ labels, r ∈ (verifyLabel settings a).2) ∨
      ∃ a ∈ labels, ∃ s, conflictWith? seen (verifyLabel settings a).1 = some s ∧
        conflictReport a s = r := by
  simp [checkAlternatives]

theorem checkAlternatives_fst : (checkAlternatives settings seen labels).1 =
    noteAll settings seen
      (labels.filter fun a => (conflictWith? seen (verifyLabel settings a).1).isNone) := by
  simp [checkAlternatives, noteAll, List.filter_map, List.foldl_map, Function.comp_def]

/-- The report is on the first label, which conflicts with the second. -/
def ReportsOn (a b : Scalar) (r : Report) : Prop :=
  Excludes a b ∧ ∃ images, r = conflictReport a ⟨images, b.value, b.position⟩

/-- A label is only held against labels that have been met before. -/
theorem exists_excludes_of_isConflict (hseen : Noted met seen)
    (hr : r ∈ (checkAlternatives settings seen labels).2) (hconflict : r.IsConflict) :
    ∃ a ∈ labels, ∃ b ∈ met, ReportsOn a b r := by
  rcases mem_reports_checkAlternatives.1 hr with ⟨a, ha, hverify⟩ | ⟨a, ha, s, hs, rfl⟩
  · exact absurd hconflict (not_isConflict_of_verifyLabel hverify)
  · obtain ⟨hmem, hdisjoint⟩ := mem_of_conflictWith? hs
    obtain ⟨b, hb, himages, hlabel, hposition⟩ := hseen s hmem
    rw [verifyLabel_fst] at hs hdisjoint
    cases hA : RunnerImage.ofLabel? a.value with
    | none => rw [hA] at hs; cases hs
    | some A =>
      rw [hA] at hdisjoint
      refine ⟨a, ha, b, hb, Excludes.symm ⟨s.images, A, himages, hA, ?_⟩, s.images, ?_⟩
      · exact RunnerImage.disjoint_iff.1 hdisjoint
      · rw [← hlabel, ← hposition]

/-- A label that excludes one whose images are noted is reported. -/
theorem exists_isConflict_of_excludes (hseen : AllNoted met seen) {a b : Scalar} (ha : a ∈ labels)
    (hb : b ∈ met) (h : Excludes a b) :
    ∃ r ∈ (checkAlternatives settings seen labels).2, r.IsConflict := by
  obtain ⟨A, B, hA, hB, hnone⟩ := h
  obtain ⟨s, hs, rfl⟩ := hseen b hb B hB
  have himages : (verifyLabel settings a).1 = A := by rw [verifyLabel_fst, hA]; rfl
  have hsome : (conflictWith? seen (verifyLabel settings a).1).isSome := by
    rw [himages, conflictWith?, if_neg (by simpa using RunnerImage.ne_nil_of_ofLabel? hA),
      List.find?_isSome]
    exact ⟨s, hs, RunnerImage.disjoint_iff.2 fun image hs hA => hnone image hA hs⟩
  obtain ⟨earlier, hearlier⟩ := Option.isSome_iff_exists.1 hsome
  exact ⟨_, mem_reports_checkAlternatives.2 (.inr ⟨a, ha, earlier, hearlier, rfl⟩),
    isConflict_conflictReport a earlier⟩

theorem noted_checkAlternatives (hseen : Noted met seen) :
    Noted (met ++ labels) (checkAlternatives settings seen labels).1 := by
  rw [checkAlternatives_fst]
  refine Noted.noteAll (fun s hs => ?_) fun a ha => ?_
  · obtain ⟨b, hb, hof⟩ := hseen s hs
    exact ⟨b, List.mem_append_left _ hb, hof⟩
  · exact List.mem_append_right _ (List.mem_of_mem_filter ha)

/-- Without a conflict nothing is left out. -/
theorem allNoted_checkAlternatives (hseen : AllNoted met seen)
    (hnone : ∀ r ∈ (checkAlternatives settings seen labels).2, ¬r.IsConflict) :
    AllNoted (met ++ labels) (checkAlternatives settings seen labels).1 := by
  have hkept : (labels.filter fun a => (conflictWith? seen (verifyLabel settings a).1).isNone) =
      labels := by
    refine List.filter_eq_self.2 fun a ha => ?_
    cases hconflict : conflictWith? seen (verifyLabel settings a).1 with
    | none => rfl
    | some s =>
      exact absurd (isConflict_conflictReport a s)
        (hnone _ (mem_reports_checkAlternatives.2 (.inr ⟨a, ha, s, hconflict, rfl⟩)))
  rw [checkAlternatives_fst, hkept]
  intro b hb B hB
  rcases List.mem_append.1 hb with hb | hb
  · obtain ⟨s, hs, hsB⟩ := hseen b hb B hB
    exact ⟨s, subset_noteAll seen labels hs, hsB⟩
  · exact allNoted_noteAll b hb B hB

end Alternatives

/-! ### Entries of a job -/

section Entries

variable {settings : Settings} {matrix : Option Matrix} {seen : List SeenLabel} {met : List Scalar}
  {entry : Scalar} {r : Report}

/-- An entry is looked at as the labels that it stands for. -/
theorem checkLabel_fst (settings : Settings) (matrix : Option Matrix) (seen : List SeenLabel)
    (entry : Scalar) : (checkLabel settings matrix seen entry).1 =
      (checkAlternatives settings seen (resolved matrix entry)).1 := by
  unfold checkLabel resolved
  cases entry.hasExpression with
  | false => rfl
  | true =>
    cases hcandidates : labelCandidates entry matrix with
    | nil => rfl
    | cons a candidates => rfl

theorem mem_checkLabel_iff (hr : r.IsConflict) : r ∈ (checkLabel settings matrix seen entry).2 ↔
    r ∈ (checkAlternatives settings seen (resolved matrix entry)).2 := by
  unfold checkLabel resolved
  cases entry.hasExpression with
  | false => rfl
  | true =>
    cases hcandidates : labelCandidates entry matrix with
    | nil =>
      -- an entry that stands for nothing known has a report of its own, which is on no conflict
      have hlast := hr.getLast?
      constructor
      · intro h
        have hother : r.message.toList.getLast? = some '.' := by
          rw [List.mem_singleton.1 h]
          exact Text.getLast?_append (by decide)
        rw [hother] at hlast
        exact absurd hlast (by decide)
      · intro h
        cases h
    | cons a candidates => rfl

/-- The labels that entries stand for. -/
def resolvedAll (matrix : Option Matrix) (entries : List Scalar) : List Scalar :=
  entries.flatMap (resolved matrix)

/-- A report on a conflict among entries is on two of them, or on one and a label met before. -/
theorem exists_reportsOn_of_isConflict {entries : List Scalar} (hseen : Noted met seen)
    (hr : r ∈ (checkLabels settings matrix seen entries).2) (hconflict : r.IsConflict) :
    ∃ earlier entry later, entries = earlier ++ entry :: later ∧ ∃ a ∈ resolved matrix entry,
      ∃ b ∈ met ++ resolvedAll matrix earlier, ReportsOn a b r := by
  induction entries generalizing seen met with
  | nil => cases hr
  | cons entry entries ih =>
    rw [checkLabels, List.mem_append] at hr
    rcases hr with hr | hr
    · rw [mem_checkLabel_iff hconflict] at hr
      obtain ⟨a, ha, b, hb, hon⟩ := exists_excludes_of_isConflict hseen hr hconflict
      exact ⟨[], entry, entries, rfl, a, ha, b, List.mem_append_left _ hb, hon⟩
    · rw [checkLabel_fst] at hr
      obtain ⟨earlier, other, later, rfl, a, ha, b, hb, hon⟩ :=
        ih (noted_checkAlternatives hseen) hr
      refine ⟨entry :: earlier, other, later, rfl, a, ha, b, ?_, hon⟩
      rwa [List.append_assoc] at hb

/-- Entries without a report on a conflict have labels that exclude neither labels met before nor each
    other. -/
theorem not_excludes_of_not_isConflict {entries : List Scalar} (hseen : AllNoted met seen)
    (hnone : ∀ r ∈ (checkLabels settings matrix seen entries).2, ¬r.IsConflict) :
    (∀ a ∈ resolvedAll matrix entries, ∀ b ∈ met, ¬Excludes a b) ∧
      entries.Pairwise (GoTogether matrix) := by
  induction entries generalizing seen met with
  | nil => exact ⟨fun a ha => absurd ha List.not_mem_nil, List.Pairwise.nil⟩
  | cons entry entries ih =>
    rw [checkLabels, List.forall_mem_append] at hnone
    obtain ⟨hfirst, hrest⟩ := hnone
    have hquiet : ∀ r ∈ (checkAlternatives settings seen (resolved matrix entry)).2,
        ¬r.IsConflict := fun r hr hconflict => hfirst r ((mem_checkLabel_iff hconflict).2 hr) hconflict
    rw [checkLabel_fst] at hrest
    obtain ⟨hlater, hpairs⟩ := ih (allNoted_checkAlternatives hseen hquiet) hrest
    refine ⟨fun a ha b hb h => ?_, List.pairwise_cons.2 ⟨fun other hother a ha b hb h => ?_, hpairs⟩⟩
    · rcases List.mem_append.1 ha with ha | ha
      · obtain ⟨r, hr, hconflict⟩ := exists_isConflict_of_excludes hseen ha hb h
        exact hquiet r hr hconflict
      · exact hlater a ha b (List.mem_append_left _ hb) h
    · exact hlater b (List.mem_flatMap.2 ⟨other, hother, hb⟩) a (List.mem_append_right _ ha) h.symm

end Entries

end Rule

/-! ### Jobs -/

/-- Two different entries among the labels of the job stand for labels that exclude each other. -/
def Job.LabelsClash (j : Job) : Prop :=
  ∃ i k : Nat, i ≠ k ∧ ∃ entry ∈ j.runsOn[i]?, ∃ other ∈ j.runsOn[k]?, ∃ a b,
    StandsFor j.matrix entry a ∧ StandsFor j.matrix other b ∧ Excludes a b

theorem Job.labelsClash_iff {j : Job} :
    j.LabelsClash ↔ ¬j.runsOn.Pairwise (GoTogether j.matrix) := by
  rw [List.pairwise_iff_getElem]
  constructor
  · rintro ⟨i, k, hne, entry, hentry, other, hother, a, b, ha, hb, h⟩ hall
    obtain ⟨hi, rfl⟩ := List.getElem?_eq_some_iff.1 hentry
    obtain ⟨hk, rfl⟩ := List.getElem?_eq_some_iff.1 hother
    rw [standsFor_iff] at ha hb
    rcases Nat.lt_or_gt_of_ne hne with hlt | hlt
    · exact hall i k hi hk hlt a ha b hb h
    · exact hall k i hk hi hlt b hb a ha h.symm
  · intro hnot
    simp only [GoTogether, not_forall, not_not] at hnot
    obtain ⟨i, k, hi, hk, hlt, a, ha, b, hb, h⟩ := hnot
    exact ⟨i, k, Nat.ne_of_lt hlt, _, List.getElem?_eq_getElem hi, _, List.getElem?_eq_getElem hk,
      a, b, standsFor_iff.2 ha, standsFor_iff.2 hb, h⟩

namespace Rule

variable {settings : Settings} {j : Job} {r : Report}

/-- The shortcut for a single label loses no conflict, since there is none. -/
theorem mem_checkJob_iff (hr : r.IsConflict) : r ∈ (checkJob settings [] j).2 ↔
    r ∈ (checkLabels settings j.matrix [] j.runsOn).2 := by
  have halone {label : Scalar} (h : r ∈ (checkLabels settings j.matrix [] [label]).2) : False := by
    obtain ⟨earlier, entry, later, heq, a, ha, b, hb, -⟩ :=
      exists_reportsOn_of_isConflict noted_nil h hr
    cases earlier with
    | nil => cases hb
    | cons first earlier => simp at heq
  unfold checkJob
  split
  · rename_i hnil
    rw [hnil]
    rfl
  · rename_i label hlabel
    rw [hlabel]
    split
    · rfl
    · refine ⟨fun h => ?_, fun h => (halone h).elim⟩
      split at h
      · cases h
      · exact absurd hr (not_isConflict_of_verifyLabel h)
  · rfl

theorem exists_reportsOn_of_mem_checkJob (hmem : r ∈ (checkJob settings [] j).2)
    (hr : r.IsConflict) : ∃ earlier entry later, j.runsOn = earlier ++ entry :: later ∧
      ∃ a, StandsFor j.matrix entry a ∧ ∃ other ∈ earlier, ∃ b, StandsFor j.matrix other b ∧
        ReportsOn a b r := by
  obtain ⟨earlier, entry, later, heq, a, ha, b, hb, hon⟩ :=
    exists_reportsOn_of_isConflict noted_nil ((mem_checkJob_iff hr).1 hmem) hr
  obtain ⟨other, hother, hb⟩ := List.mem_flatMap.1 hb
  exact ⟨earlier, entry, later, heq, a, standsFor_iff.2 ha, other, hother, b, standsFor_iff.2 hb, hon⟩

theorem exists_isConflict_checkJob_iff :
    (∃ r ∈ (checkJob settings [] j).2, r.IsConflict) ↔ j.LabelsClash := by
  constructor
  · rintro ⟨r, hmem, hr⟩
    obtain ⟨earlier, entry, later, heq, a, ha, other, hother, b, hb, hexcludes, -⟩ :=
      exists_reportsOn_of_mem_checkJob hmem hr
    rw [Job.labelsClash_iff, heq, List.pairwise_append]
    rintro ⟨-, -, hcross⟩
    exact hcross other hother entry (List.mem_cons_self ..) b (standsFor_iff.1 hb) a
      (standsFor_iff.1 ha) hexcludes.symm
  · rw [Job.labelsClash_iff]
    intro hclash
    by_contra hnone
    have hquiet : ∀ r ∈ (checkLabels settings j.matrix [] j.runsOn).2, ¬r.IsConflict :=
      fun r hr hconflict => hnone ⟨r, (mem_checkJob_iff hconflict).2 hr, hconflict⟩
    exact hclash (not_excludes_of_not_isConflict allNoted_nil hquiet).2

/-- Conflicts of runner labels are found exactly. What is reported on a job does not depend on the jobs
    before it. A conflict is reported if and only if two different entries stand for labels that exclude
    each other, so the order of the entries does not matter. Each such report is on a label of one entry
    and a label of an earlier entry, never on two that one entry stands for. -/
theorem runnerLabel_reports_clashes (around : Surroundings) (before : List Job) (j : Job) :
    jobReports around runnerLabel before j = jobReports around runnerLabel [] j ∧
    ((∃ r ∈ jobReports around runnerLabel before j, r.IsConflict) ↔ j.LabelsClash) ∧
    (∀ labels, labels.Perm j.runsOn →
      ((∃ r ∈ jobReports around runnerLabel before { j with runsOn := labels }, r.IsConflict) ↔
        ∃ r ∈ jobReports around runnerLabel before j, r.IsConflict)) ∧
    ∀ r ∈ jobReports around runnerLabel before j, r.IsConflict →
      ∃ earlier entry later, j.runsOn = earlier ++ entry :: later ∧
        ∃ a, StandsFor j.matrix entry a ∧ ∃ other ∈ earlier, ∃ b, StandsFor j.matrix other b ∧
          ReportsOn a b r := by
  simp only [jobReports_runnerLabel]
  refine ⟨trivial, exists_isConflict_checkJob_iff, fun labels hperm => ?_,
    fun r => exists_reportsOn_of_mem_checkJob⟩
  rw [exists_isConflict_checkJob_iff, exists_isConflict_checkJob_iff, Job.labelsClash_iff,
    Job.labelsClash_iff, hperm.pairwise_iff fun h => h.symm]

/-- A job that asks for Linux, and for each of the systems of its matrix in turn. -/
def mixedJob : Job where
  id := ⟨"build", ⟨3, 3⟩, .plain, []⟩
  position := ⟨4, 5⟩
  name := none
  condition := none
  runsOn := [⟨"linux", ⟨7, 15⟩, .plain, []⟩, ⟨" $\x7b\x7b Matrix.os \x7d\x7d", ⟨7, 22⟩, .double, []⟩]
  matrix := some ⟨⟨6, 9⟩,
    [("OS", [⟨"ubuntu-22.04", ⟨6, 14⟩, .plain, []⟩, ⟨"Windows", ⟨6, 28⟩, .plain, []⟩])], [], none⟩
  env := []
  container := none
  services := []
  steps := []

theorem labelsClash_mixedJob : mixedJob.LabelsClash := by
  have hparse : Expr.parse " Matrix.os " =
      .ok (.property ⟨1, 2, 1⟩ (.var ⟨1, 2, 1⟩ "Matrix") "os") := by cbv
  refine ⟨0, 1, by decide, ⟨"linux", ⟨7, 15⟩, .plain, []⟩, rfl, _, rfl,
    ⟨"linux", ⟨7, 15⟩, .plain, []⟩, ⟨"Windows", ⟨6, 28⟩, .plain, []⟩, .literal (by decide), ?_, ?_⟩
  · refine .choice rfl (by decide +kernel) hparse (by decide)
      ⟨.inl ⟨_, List.mem_singleton_self _, ?_, ?_⟩, ?_⟩
    · decide
    · simp
    · decide
  · exact ⟨[.ubuntu2004, .ubuntu2204, .ubuntu2404], [.windows2016, .windows2019, .windows2022],
      by decide +kernel, by decide +kernel, by decide⟩

/-- The conflict between Linux and one of the systems is reported in either order of the entries, also
    after the same job. -/
theorem mixedJob_clash_is_reported :
    mixedJob.runsOn.reverse.Perm mixedJob.runsOn ∧ mixedJob.LabelsClash ∧
    (∃ r ∈ jobReports pushesOnly runnerLabel [mixedJob] mixedJob, r.IsConflict) ∧
    ∃ r ∈ jobReports pushesOnly runnerLabel [mixedJob]
      { mixedJob with runsOn := mixedJob.runsOn.reverse }, r.IsConflict := by
  obtain ⟨-, hclash, hperm, -⟩ := runnerLabel_reports_clashes pushesOnly [mixedJob] mixedJob
  have hreport := hclash.2 labelsClash_mixedJob
  exact ⟨List.reverse_perm _, labelsClash_mixedJob, hreport,
    (hperm _ (List.reverse_perm _)).2 hreport⟩

end Rule

end WorkflowAudit
