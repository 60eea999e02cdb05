import Mathlib
import WorkflowAudit.Path

/-!
The names of a path. Two paths with the same lead are the same path if their names are the same, and a path
is settled if nothing idle stands after its last name.
-/

namespace WorkflowAudit.Path

/-! ### Names and idle parts -/

theorem named_cons_idle {part : String} (h : isIdle part = true) (rest : List String) :
    named (part :: rest) = named rest := by
  rw [named, List.filter_cons_of_neg (by rw [h]; decide), named]

theorem named_cons_name {part : String} (h : isIdle part = false) (rest : List String) :
    named (part :: rest) = part :: named rest := by
  rw [named, List.filter_cons_of_pos (by rw [h]; decide), named]

theorem named_eq_nil {body : List String} : named body = [] ↔ ∀ part ∈ body, isIdle part = true := by
  rw [named, List.filter_eq_nil_iff]
  simp

theorem getLast?_named (body : List String) : (named body).getLast? = (trimEnd body).getLast? := by
  rw [named, trimEnd, List.getLast?_reverse, ← List.head?_reverse, ← List.filter_reverse,
    List.head?_filter, List.find?_eq_head?_dropWhile_not]
  simp

theorem isIdle_of_getLast?_trimEnd {body : List String} {name : String}
    (h : (trimEnd body).getLast? = some name) : isIdle name = false := by
  rw [← getLast?_named] at h
  have hmem := List.mem_of_getLast? h
  rw [named, List.mem_filter] at hmem
  simpa using hmem.2

theorem mem_of_mem_trimEnd {body : List String} {part : String} (h : part ∈ trimEnd body) :
    part ∈ body := by
  rw [trimEnd, List.mem_reverse] at h
  exact List.mem_reverse.1 ((List.dropWhile_sublist _).subset h)

/-! ### The lead of a path -/

theorem parts_of_isAbsolute {path : String} (h : isAbsolute path = true) :
    ∃ rest, parts path = "" :: rest := by
  rw [isAbsolute, decide_eq_true_eq, List.head?_eq_some_iff] at h
  obtain ⟨cs, hcs⟩ := h
  refine ⟨(cs.splitOn '/').map String.ofList, ?_⟩
  rw [parts, Text.split, hcs, List.splitOn_cons_eq_if_modifyHead, if_pos (by decide), List.map_cons]

theorem lead_cases (path : String) :
    (split path).1 = "." ∧ isAbsolute path = false ∧ parts path = "." :: (split path).2 ∨
    (split path).1 = "/" ∧ isAbsolute path = true ∧ parts path = "" :: (split path).2 ∨
    (split path).1 = "" ∧ isAbsolute path = false ∧ parts path = (split path).2 := by
  cases habs : isAbsolute path with
  | true =>
    obtain ⟨rest, hrest⟩ := parts_of_isAbsolute habs
    rw [split, hrest]
    simp [habs]
  | false =>
    rw [split]
    split <;> simp_all

theorem named_split (path : String) : named (split path).2 = named (parts path) := by
  rcases lead_cases path with ⟨-, -, h⟩ | ⟨-, -, h⟩ | ⟨-, -, h⟩
  · rw [h, named_cons_idle (by decide)]
  · rw [h, named_cons_idle (by decide)]
  · rw [h]

theorem mem_parts_of_mem_split {path part : String} (h : part ∈ (split path).2) :
    part ∈ parts path := by
  rcases lead_cases path with ⟨-, -, hp⟩ | ⟨-, -, hp⟩ | ⟨-, -, hp⟩
  · exact hp ▸ List.mem_cons_of_mem _ h
  · exact hp ▸ List.mem_cons_of_mem _ h
  · exact hp ▸ h

theorem isAbsolute_eq_of_same {a b : String} (h : same a b = true) :
    isAbsolute a = isAbsolute b := by
  rw [same, Bool.and_eq_true, decide_eq_true_eq] at h
  rcases lead_cases a with ⟨ha, ha', -⟩ | ⟨ha, ha', -⟩ | ⟨ha, ha', -⟩ <;>
    rcases lead_cases b with ⟨hb, hb', -⟩ | ⟨hb, hb', -⟩ | ⟨hb, hb', -⟩ <;> simp_all

theorem named_eq_of_same {a b : String} (h : same a b = true) : named (parts a) = named (parts b) := by
  rw [same, Bool.and_eq_true, decide_eq_true_eq, decide_eq_true_eq, named_split, named_split] at h
  exact h.2

theorem fileName?_eq_of_same {a b : String} (h : same a b = true) : fileName? a = fileName? b := by
  rw [fileName?, fileName?, ← getLast?_named, ← getLast?_named, named_split, named_split,
    named_eq_of_same h]

/-! ### Paths that stop at a name -/

/-- Nothing idle stands after a name of the path. -/
def Settled (path : String) : Prop :=
  path ≠ "" ∧ ((∀ part ∈ parts path, isIdle part = true) ∨
    ∃ name, (parts path).getLast? = some name ∧ isIdle name = false)

theorem settled_here : Settled "." :=
  ⟨by decide, .inl (by decide)⟩

theorem parts_intercalate {body : List String} (hne : body ≠ [])
    (hslash : ∀ part ∈ body, '/' ∉ part.toList) : parts ("/".intercalate body) = body :=
  Text.split_intercalate hne hslash

theorem intercalate_cons {body : List String} (hne : body ≠ []) (part : String) :
    "/".intercalate (part :: body) = part ++ "/" ++ "/".intercalate body := by
  apply String.toList_injective
  rw [String.toList_intercalate, List.map_cons, List.intercalate_cons_of_ne_nil (by simpa using hne)]
  simp [String.toList_intercalate]

/-- The parts of a path that is built from some: the lead is a part of its own, idle. -/
theorem parts_build {lead : String} (hlead : lead ∈ ["", ".", "/"]) {body : List String}
    (hne : body ≠ []) (hslash : ∀ part ∈ body, '/' ∉ part.toList) :
    ∃ front, named front = [] ∧ parts (build lead body) = front ++ body := by
  have hempty : body.isEmpty = false := by simpa using hne
  have hfront (part : String) (hpart : '/' ∉ part.toList) :
      parts ("/".intercalate (part :: body)) = [part] ++ body := by
    refine parts_intercalate (List.cons_ne_nil _ _) fun p hp => ?_
    rcases List.mem_cons.1 hp with rfl | hp
    · exact hpart
    · exact hslash p hp
  rw [List.mem_cons, List.mem_cons, List.mem_singleton] at hlead
  rcases hlead with rfl | rfl | rfl
  · exact ⟨[], rfl, by simp [build, hempty, parts_intercalate hne hslash]⟩
  · refine ⟨["."], by decide, ?_⟩
    rw [← hfront "." (by decide), intercalate_cons hne]
    simp [build, hempty]
  · refine ⟨[""], by decide, ?_⟩
    rw [← hfront "" (by decide), intercalate_cons hne]
    simp [build, hempty]

theorem settled_build {lead : String} (hlead : lead ∈ ["", ".", "/"]) {body : List String}
    (hslash : ∀ part ∈ body, '/' ∉ part.toList)
    (hlast : ∀ name, body.getLast? = some name → isIdle name = false) :
    Settled (orHere (build lead body)) := by
  rcases eq_or_ne body [] with rfl | hne
  · rw [List.mem_cons, List.mem_cons, List.mem_singleton] at hlead
    rcases hlead with rfl | rfl | rfl <;> exact ⟨by decide, .inl (by decide)⟩
  · obtain ⟨front, -, hparts⟩ := parts_build hlead hne hslash
    have hname := List.getLast?_eq_some_getLast hne
    generalize body.getLast hne = name at hname
    have hend : (parts (build lead body)).getLast? = some name := by
      rw [hparts, List.getLast?_append, hname, Option.some_or]
    have hnonempty : build lead body ≠ "" := by
      intro h
      have hnil : parts "" = [""] := by decide
      rw [h, hnil, List.getLast?_singleton, Option.some.injEq] at hend
      have hname := hlast name hname
      rw [← hend] at hname
      exact absurd hname (by decide)
    rw [orHere, if_neg (by simpa using hnonempty)]
    exact ⟨hnonempty, .inr ⟨name, hend, hlast name hname⟩⟩

theorem settled_of_parent? {path dir : String} (h : parent? path = some dir) :
    Settled (orHere dir) := by
  have hlead : (split path).1 ∈ ["", ".", "/"] := by
    rcases lead_cases path with ⟨h, -⟩ | ⟨h, -⟩ | ⟨h, -⟩ <;> simp [h]
  rw [parent?] at h
  simp only at h
  split at h
  · split at h
    · cases h
      exact settled_here
    · cases h
  · cases h
    refine settled_build hlead (fun part hpart => ?_) fun name => isIdle_of_getLast?_trimEnd
    have hbody := mem_of_mem_trimEnd ((List.dropLast_sublist _).subset (mem_of_mem_trimEnd hpart))
    exact Text.not_mem_of_mem_split (mem_parts_of_mem_split hbody)

theorem Settled.orHere {path : String} (h : Settled path) : Settled (Path.orHere path) := by
  rwa [Path.orHere, if_neg (by simpa using h.1)]

theorem settled_of_mem_ancestors {dir a : String} (h : Settled dir) (ha : a ∈ ancestors dir) :
    Settled (Path.orHere a) := by
  rw [ancestors] at ha
  -- Whatever is met on the way up is settled once it is written out, whether the walk ends or is cut.
  suffices go : ∀ limit dir, Settled (Path.orHere dir) → ∀ a ∈ ancestors.go limit dir,
      Settled (Path.orHere a) from go _ dir h.orHere a ha
  intro limit
  induction limit with
  | zero => intro dir _ a ha; simp [ancestors.go] at ha
  | succ limit ih =>
    intro dir hdir a ha
    rw [ancestors.go, List.mem_cons] at ha
    rcases ha with rfl | ha
    · exact hdir
    · split at ha
      · exact ih _ (settled_of_parent? ‹_›) a ha
      · simp at ha

end WorkflowAudit.Path
