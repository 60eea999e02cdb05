import WorkflowAudit.Proofs.Path.Places

/-!
The directories that a path goes through. A directory is told by how many of the names of the path lead to
it, and is written as the path is up to the last of them. Main statements: the parent of a directory is the
one with a name less, so that the ancestors of a path are its directories from the last one up, and a file
that is joined to a directory has that directory for its parent.
-/

namespace WorkflowAudit.Path

/-! ### Parts up to a name -/

/-- The parts up to the `n`-th name. -/
def leading : Nat → List String → List String
  | 0, _ => []
  | _ + 1, [] => []
  | n + 1, part :: rest => part :: leading (if isIdle part then n + 1 else n) rest

@[simp] theorem leading_zero (body : List String) : leading 0 body = [] := by
  cases body <;> rfl

theorem trimEnd_eq_self_iff {body : List String} :
    trimEnd body = body ↔ ∀ last, body.getLast? = some last → isIdle last = false := by
  constructor
  · intro h last hlast
    rw [← h] at hlast
    exact isIdle_of_getLast?_trimEnd hlast
  · intro h
    rcases List.eq_nil_or_concat body with rfl | ⟨front, last, rfl⟩
    · rfl
    · have hlast := h last (by simp)
      simp [trimEnd, hlast]

theorem trimEnd_trimEnd (body : List String) : trimEnd (trimEnd body) = trimEnd body :=
  trimEnd_eq_self_iff.2 fun _ => isIdle_of_getLast?_trimEnd

theorem trimEnd_concat_name {name : String} (h : isIdle name = false) (body : List String) :
    trimEnd (body ++ [name]) = body ++ [name] := by
  simp [trimEnd, h]

theorem trimEnd_concat_idle {part : String} (h : isIdle part = true) (body : List String) :
    trimEnd (body ++ [part]) = trimEnd body := by
  simp [trimEnd, h]

theorem leading_isLead (n : Nat) (body : List String) : leading n body <+: body := by
  induction body generalizing n with
  | nil => cases n <;> simp [leading]
  | cons part rest ih =>
    cases n with
    | zero => simp
    | succ n => simpa [leading] using ih _

theorem named_leading (n : Nat) (body : List String) : named (leading n body) = (named body).take n := by
  induction body generalizing n with
  | nil => cases n <;> simp [leading, named]
  | cons part rest ih =>
    cases n with
    | zero => simp [named]
    | succ n =>
      rw [leading]
      cases hidle : isIdle part with
      | true => simp [named_cons_idle hidle, ih]
      | false => simp [named_cons_name hidle, ih]

/-- Parts that end in a name are known by how many names they have. -/
theorem eq_leading {front body : List String} (hlead : front <+: body) (htrim : trimEnd front = front) :
    front = leading (named front).length body := by
  rw [trimEnd_eq_self_iff] at htrim
  induction front generalizing body with
  | nil => simp [named]
  | cons part front ih =>
    obtain ⟨rest, rfl⟩ := hlead
    have hrest : front = leading (named front).length (front ++ rest) := by
      refine ih (List.prefix_append _ _) fun last hlast => htrim last ?_
      rw [List.getLast?_cons, hlast]
      rfl
    cases hidle : isIdle part with
    | true =>
      -- An idle part is not the last one, so a name comes after it.
      have hne : front ≠ [] := by
        rintro rfl
        rw [htrim part rfl] at hidle
        cases hidle
      have hnamed : named front ≠ [] := by
        intro hnil
        obtain ⟨before, last, rfl⟩ := (List.eq_nil_or_concat front).resolve_left hne
        have hlast := htrim last (by simp [List.getLast?_cons])
        rw [named_eq_nil.1 hnil last (by simp)] at hlast
        cases hlast
      obtain ⟨name, names, hnames⟩ := List.exists_cons_of_ne_nil hnamed
      rw [hnames, List.length_cons] at hrest
      rw [named_cons_idle hidle, hnames, List.length_cons, List.cons_append, leading, if_pos hidle, ← hrest]
    | false =>
      rw [named_cons_name hidle, List.length_cons, List.cons_append, leading, if_neg (by simp [hidle]),
        ← hrest]

theorem trimEnd_leading {n : Nat} {body : List String} (h : n ≤ (named body).length) :
    trimEnd (leading n body) = leading n body := by
  have hlead := (trimEnd_isLead (leading n body)).trans (leading_isLead n body)
  rw [eq_leading hlead (trimEnd_trimEnd _), named_trimEnd, named_leading, List.length_take_of_le h]

theorem leading_length (body : List String) : leading (named body).length body = trimEnd body := by
  rw [eq_leading (trimEnd_isLead body) (trimEnd_trimEnd body), named_trimEnd]

theorem trimEnd_dropLast_leading {n : Nat} {body : List String} (h : n + 1 ≤ (named body).length) :
    trimEnd (leading (n + 1) body).dropLast = leading n body := by
  have hlead : trimEnd (leading (n + 1) body).dropLast <+: body :=
    (trimEnd_isLead _).trans ((List.dropLast_prefix _).trans (leading_isLead _ _))
  have hnamed : named (leading (n + 1) body).dropLast = (named body).take n := by
    rw [← trimEnd_leading h, named_dropLast_trimEnd, named_leading, List.dropLast_eq_take,
      List.take_take, List.length_take_of_le h]
    simp
  rw [eq_leading hlead (trimEnd_trimEnd _), named_trimEnd, hnamed, List.length_take_of_le (by omega)]

theorem leading_leading {n m : Nat} {body : List String} (hn : n ≤ m) (hm : m ≤ (named body).length) :
    leading n (leading m body) = leading n body := by
  have hlength : n ≤ (named (leading m body)).length := by
    rw [named_leading, List.length_take_of_le hm]
    exact hn
  have hlead := (leading_isLead n (leading m body)).trans (leading_isLead m body)
  rw [eq_leading hlead (trimEnd_leading hlength), named_leading, List.length_take_of_le hlength]

theorem leading_of_trimEnd {n : Nat} {body front : List String} (h : trimEnd body = front)
    (hn : n ≤ (named front).length) : leading n body = leading n front := by
  subst h
  rw [← leading_length, leading_leading _ le_rfl]
  rwa [named_trimEnd] at hn

/-! ### Directories of a path -/

/-- How many names a path has. -/
def depth (path : String) : Nat :=
  (named (parts path)).length

/-- The path up to its `n`-th name, as it is written. -/
def cut (path : String) (n : Nat) : String :=
  build (split path).1 (leading n (split path).2)

theorem lead_eq (path : String) :
    (split path).1 =
      if (parts path).head? = some "." then "." else if isAbsolute path then "/" else "" := by
  rw [split]
  split
  · rename_i hparts
    simp [hparts]
  · rename_i first rest hfirst hparts
    have hne : first ≠ "." := hfirst
    rw [hparts]
    cases isAbsolute path <;> simp [hne]
  · rename_i hparts
    exact absurd hparts (Text.split_ne_nil _ path)

theorem lead_mem (path : String) : (split path).1 ∈ ["", ".", "/"] := by
  rcases lead_cases path with ⟨h, -⟩ | ⟨h, -⟩ | ⟨h, -⟩ <;> simp [h]

theorem parts_ne_of_lead_empty {path first : String} {rest : List String} (h : (split path).1 = "")
    (hparts : parts path = first :: rest) (hname : ∃ part ∈ first :: rest, isIdle part = false) :
    first ≠ "." ∧ first ≠ "" := by
  rw [lead_eq, hparts, List.head?_cons] at h
  refine ⟨?_, ?_⟩
  · rintro rfl
    simp at h
  · rintro rfl
    rcases eq_or_ne rest [] with rfl | hrest
    · obtain ⟨part, hpart, hidle⟩ := hname
      rw [List.mem_singleton.1 hpart] at hidle
      exact absurd hidle (by decide)
    · rw [isAbsolute_of_parts hparts hrest] at h
      simp at h

/-- What is built from the lead of a path and parts that begin it has that lead and those parts. -/
theorem split_build {path : String} {front : List String} (hlead : front <+: (split path).2)
    (htrim : trimEnd front = front) :
    (split (build (split path).1 front)).1 = (split path).1 ∧
      trimEnd (split (build (split path).1 front)).2 = front := by
  have hslash : ∀ part ∈ front, '/' ∉ part.toList := fun part hpart =>
    slash_not_mem_of_mem_parts (mem_parts_of_mem_split (hlead.subset hpart))
  rcases eq_or_ne front [] with rfl | hne
  · have hmem := lead_mem path
    simp only [List.mem_cons, List.not_mem_nil, or_false] at hmem
    rcases hmem with h | h | h <;> rw [h] <;> decide
  · have htext : parts ("/".intercalate front) = front := parts_intercalate hne hslash
    have hempty : front.isEmpty = false := by simpa using hne
    rcases lead_cases path with ⟨h, -, -⟩ | ⟨h, -, -⟩ | ⟨h, -, hparts⟩
    · have hbuild : build "." front = "." ++ "/" ++ "/".intercalate front := by simp [build, hempty]
      have hsplit : parts (build "." front) = "." :: front := by
        rw [hbuild, parts_append_slash, htext]
        rfl
      rw [h, split, hsplit]
      exact ⟨rfl, htrim⟩
    · have hbuild : build "/" front = "" ++ "/" ++ "/".intercalate front := by simp [build, hempty]
      have hsplit : parts (build "/" front) = "" :: front := by
        rw [hbuild, parts_append_slash, htext]
        rfl
      have habs : isAbsolute (build "/" front) = true := isAbsolute_of_parts hsplit hne
      rw [h, split, hsplit]
      simp [habs, htrim]
    · obtain ⟨first, rest, rfl⟩ := List.exists_cons_of_ne_nil hne
      obtain ⟨more, hmore⟩ := hlead
      have hname : ∃ part ∈ first :: (rest ++ more), isIdle part = false := by
        have hlast := List.getLast?_eq_some_getLast hne
        refine ⟨_, ?_, trimEnd_eq_self_iff.1 htrim _ hlast⟩
        exact List.mem_append_left more (List.mem_of_getLast? hlast)
      have hfirst := parts_ne_of_lead_empty h (hparts.trans hmore.symm) hname
      have hbuild : build "" (first :: rest) = "/".intercalate (first :: rest) := by simp [build]
      have habs : isAbsolute (build "" (first :: rest)) = false := by
        rw [hbuild]
        exact isAbsolute_intercalate hfirst.2 (hslash first (List.mem_cons_self ..))
      have hbody : split (build "" (first :: rest)) = ("", first :: rest) := by
        rw [split, hbuild, htext, ← hbuild]
        simp [habs, hfirst.1]
      rw [h, hbody]
      exact ⟨rfl, htrim⟩

section

variable {path : String} {n m : Nat}

theorem depth_eq (path : String) : depth path = (named (split path).2).length := by
  rw [depth, named_split]

theorem split_cut (h : n ≤ depth path) :
    (split (cut path n)).1 = (split path).1 ∧
      trimEnd (split (cut path n)).2 = leading n (split path).2 := by
  rw [depth_eq] at h
  exact split_build (leading_isLead n _) (trimEnd_leading h)

theorem named_parts_cut (h : n ≤ depth path) :
    named (parts (cut path n)) = (named (parts path)).take n := by
  rw [← named_split, ← named_trimEnd, (split_cut h).2, named_leading, named_split]

theorem depth_cut (h : n ≤ depth path) : depth (cut path n) = n := by
  rw [depth, named_parts_cut h, List.length_take_of_le h]

theorem cut_cut (hn : n ≤ m) (hm : m ≤ depth path) : cut (cut path m) n = cut path n := by
  obtain ⟨hlead, hbody⟩ := split_cut hm
  have hlength : n ≤ (named (leading m (split path).2)).length := by
    rw [depth_eq] at hm
    rw [named_leading, List.length_take_of_le hm]
    exact hn
  rw [depth_eq] at hm
  rw [cut, hlead, leading_of_trimEnd hbody hlength, leading_leading hn hm, cut]

theorem cut_depth (path : String) : cut path (depth path) = build (split path).1 (trimEnd (split path).2) := by
  rw [cut, depth_eq, leading_length]

/-! ### Going up -/

theorem parent?_eq_of_names (h : named (parts path) ≠ []) :
    parent? path = some (cut path (depth path - 1)) := by
  have hne : trimEnd (split path).2 ≠ [] := by
    intro hnil
    rw [← named_split, ← named_trimEnd, hnil] at h
    exact h rfl
  obtain ⟨k, hk⟩ : ∃ k, depth path = k + 1 :=
    Nat.exists_eq_succ_of_ne_zero (by simpa [depth] using h)
  have hbody : trimEnd (trimEnd (split path).2).dropLast = leading k (split path).2 := by
    rw [depth_eq] at hk
    rw [← leading_length (split path).2, hk, trimEnd_dropLast_leading hk.ge]
  simp only [parent?, hbody, hk, Nat.add_sub_cancel]
  rfl

theorem parent?_eq_of_no_names (h : named (parts path) = []) :
    parent? path = if (split path).1 = "." then some "" else none := by
  have hnil : trimEnd (split path).2 = [] := by
    rw [← leading_length, named_split, h]
    cases (split path).2 <;> rfl
  rw [parent?]
  simp only [hnil]

theorem parent?_cut (h : n + 1 ≤ depth path) : parent? (cut path (n + 1)) = some (cut path n) := by
  have hne : named (parts (cut path (n + 1))) ≠ [] := by
    intro hnil
    have hdepth := depth_cut h
    rw [depth, hnil] at hdepth
    cases hdepth
  rw [parent?_eq_of_names hne, depth_cut h, Nat.add_sub_cancel, cut_cut (Nat.le_succ n) h]

theorem parent?_cut_zero (path : String) :
    parent? (cut path 0) = if (split path).1 = "." then some "" else none := by
  have hzero : 0 ≤ depth path := Nat.zero_le _
  rw [parent?_eq_of_no_names (by rw [named_parts_cut hzero, List.take_zero]), (split_cut hzero).1]

/-- A path has a character for each of its names. -/
theorem depth_le_length (path : String) : depth path ≤ path.length := by
  have hpieces (cs : List Char) : ((cs.splitOn '/').filter (· ≠ [])).length ≤ cs.length := by
    induction cs with
    | nil => simp
    | cons c cs ih =>
      rw [List.splitOn_cons_eq_if_modifyHead]
      split
      · simpa using Nat.le_succ_of_le ih
      · obtain ⟨piece, more, hmore⟩ := List.exists_cons_of_ne_nil (List.splitOn_ne_nil '/' cs)
        rw [hmore] at ih
        rw [hmore, List.modifyHead_cons]
        cases piece with
        | nil => simpa using ih
        | cons c' piece => simpa using Nat.le_succ_of_le ih
  have hnamed : named (parts path) = (((path.toList.splitOn '/').filter (· ≠ [])).map String.ofList).filter
      fun part => !isIdle part := by
    rw [parts, Text.split, named, List.filter_map, List.filter_map, List.filter_filter]
    congr 1
    refine List.filter_congr fun cs _ => ?_
    cases cs with
    | nil => decide
    | cons c cs => simp
  rw [depth, hnamed]
  refine (List.length_filter_le _ _).trans ?_
  rw [List.length_map]
  exact hpieces path.toList

theorem ancestors_go_cut {limit : Nat} (hn : n ≤ depth path) (hlimit : n + 2 ≤ limit) :
    ancestors.go limit (cut path n) =
      (List.range (n + 1)).reverse.map (cut path) ++ if (split path).1 = "." then [""] else [] := by
  induction n generalizing limit with
  | zero =>
    obtain ⟨limit, rfl⟩ := Nat.exists_eq_add_of_le' hlimit
    have hnone : parent? "" = none := by decide
    rw [ancestors.go, parent?_cut_zero]
    by_cases hdot : (split path).1 = "."
    · simp [hdot, ancestors.go, hnone]
    · simp [hdot]
  | succ n ih =>
    obtain ⟨limit, rfl⟩ := Nat.exists_eq_add_of_le' (Nat.one_le_of_lt hlimit)
    rw [ancestors.go, parent?_cut hn]
    simp only
    rw [ih (Nat.le_of_succ_le hn) (by omega), List.range_succ (n := n + 1)]
    simp

/-- The ancestors of a path that ends in a name are its directories, from the last one up, and the empty
    path after a dot. -/
theorem ancestors_eq {dir : String} (h : cut dir (depth dir) = dir) :
    ancestors dir = (List.range (depth dir + 1)).reverse.map (cut dir) ++
      if (split dir).1 = "." then [""] else [] := by
  have hlimit : depth dir + 2 ≤ dir.length + 2 := Nat.add_le_add_right (depth_le_length dir) 2
  have hgo := ancestors_go_cut (le_refl (depth dir)) hlimit
  rwa [h] at hgo

end

end WorkflowAudit.Path
