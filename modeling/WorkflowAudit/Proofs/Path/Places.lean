import WorkflowAudit.Proofs.Path.Names

/-!
Where paths lead by their text alone. Idle parts lead nowhere, `..` goes back by one name, and any other
part goes on to a name, so that a path leads from a directory to a place, which is given by its names
from the root. Main statements: a path without `..` leads from where it is joined to a place below, and
the parent of a path leads to the place above its last name.
-/

namespace WorkflowAudit.Path

/-- The place that one more part of a path leads to. -/
def goOn (place : List String) (part : String) : List String :=
  if isIdle part then place else if part = ".." then place.dropLast else place ++ [part]

/-- The place that a path leads to from the directory at `cwd`. -/
def place (cwd : List String) (path : String) : List String :=
  (parts path).foldl goOn (if isAbsolute path then [] else cwd)

/-- Wherever it starts, the path leads to the directory or to a place below it. -/
def LiesBelow (dir path : String) : Prop :=
  ∀ cwd, place cwd dir <+: place cwd path

/-! ### Names -/

/-- The part is a name, which a slash cannot be in. -/
def IsName (part : String) : Prop :=
  isIdle part = false ∧ part ≠ ".." ∧ '/' ∉ part.toList

instance (part : String) : Decidable (IsName part) :=
  inferInstanceAs (Decidable (_ ∧ _ ∧ _))

theorem IsName.ne_empty {part : String} (h : IsName part) : part ≠ "" := by
  rintro rfl
  exact absurd h.1 (by decide)

theorem goOn_name {part : String} (hidle : isIdle part = false) (hup : part ≠ "..")
    (place : List String) : goOn place part = place ++ [part] := by
  rw [goOn, if_neg (by simp [hidle]), if_neg hup]

theorem foldl_goOn_names {names : List String}
    (h : ∀ part ∈ names, isIdle part = false ∧ part ≠ "..") (place : List String) :
    names.foldl goOn place = place ++ names := by
  induction names generalizing place with
  | nil => rw [List.foldl_nil, List.append_nil]
  | cons part names ih =>
    obtain ⟨⟨hidle, hup⟩, hnames⟩ := List.forall_mem_cons.1 h
    rw [List.foldl_cons, goOn_name hidle hup, ih hnames, List.append_assoc]
    rfl

theorem foldl_goOn_named (body place : List String) :
    body.foldl goOn place = (named body).foldl goOn place := by
  induction body generalizing place with
  | nil => rfl
  | cons part body ih =>
    cases hidle : isIdle part with
    | true =>
      have hstay : goOn place part = place := by rw [goOn, if_pos hidle]
      rw [named_cons_idle hidle, List.foldl_cons, hstay, ih]
    | false => rw [named_cons_name hidle, List.foldl_cons, List.foldl_cons, ih]

/-- Where a path leads depends on its start and on its names. -/
theorem place_eq_foldl_named (cwd : List String) (path : String) :
    place cwd path = (named (parts path)).foldl goOn (if isAbsolute path then [] else cwd) :=
  foldl_goOn_named _ _

theorem named_append (front body : List String) : named (front ++ body) = named front ++ named body :=
  List.filter_append ..

theorem mem_named {body : List String} {part : String} :
    part ∈ named body ↔ part ∈ body ∧ isIdle part = false := by
  rw [named, List.mem_filter]
  simp

/-! ### Joined paths -/

theorem parts_append_slash (a b : String) : parts (a ++ "/" ++ b) = parts a ++ parts b := by
  have hlist : (a ++ "/" ++ b).toList = a.toList ++ '/' :: b.toList := by simp
  rw [parts, Text.split, hlist, List.splitOn,
    List.splitOnP_append_cons (p := (· == '/')) _ _ (beq_self_eq_true '/'), List.map_append]
  rfl

theorem named_parts_empty : named (parts "") = [] := by decide

/-- A path that is joined to another goes on after its parts, an empty last one aside. -/
theorem parts_join {a b : String} (ha : a ≠ "") (hb : isAbsolute b = false) :
    ∃ front, front ≠ [] ∧ parts (join a b) = front ++ parts b ∧
      (parts a = front ∨ parts a = front ++ [""]) := by
  have hempty : a.isEmpty = false := by simpa using ha
  rw [join, if_neg (by simp [hb]), hempty, Bool.false_or]
  split
  · rename_i hslash
    obtain ⟨cs, hcs⟩ := List.getLast?_eq_some_iff.1 (of_decide_eq_true hslash)
    obtain rfl : a = String.ofList cs ++ "/" := String.toList_injective (by simp [hcs])
    refine ⟨parts (String.ofList cs), Text.split_ne_nil _ _, parts_append_slash _ _, .inr ?_⟩
    have hend := parts_append_slash (String.ofList cs) ""
    rwa [String.append_empty] at hend
  · exact ⟨parts a, Text.split_ne_nil _ _, parts_append_slash _ _, .inl rfl⟩

theorem named_parts_join {b : String} (hb : isAbsolute b = false) (a : String) :
    named (parts (join a b)) = named (parts a) ++ named (parts b) := by
  rcases eq_or_ne a "" with rfl | ha
  · rw [join, if_neg (by simp [hb])]
    simp [named_parts_empty]
  · obtain ⟨front, -, hjoin, hparts⟩ := parts_join ha hb
    have hidle : named [""] = [] := by decide
    rcases hparts with h | h
    · rw [hjoin, h, named_append]
    · rw [hjoin, h, named_append, named_append, hidle, List.append_nil]

theorem isAbsolute_append {a : String} (ha : a ≠ "") (b : String) :
    isAbsolute (a ++ b) = isAbsolute a := by
  have hne : a.toList ≠ [] := by simpa using ha
  rw [isAbsolute, isAbsolute, String.toList_append, List.head?_append_of_ne_nil _ hne]

theorem isAbsolute_join {b : String} (hb : isAbsolute b = false) (a : String) :
    isAbsolute (join a b) = isAbsolute a := by
  rw [join, if_neg (by simp [hb])]
  rcases eq_or_ne a "" with rfl | ha
  · rw [if_pos (by simp), String.empty_append, hb]
    decide
  · split
    · exact isAbsolute_append ha b
    · rw [String.append_assoc]
      exact isAbsolute_append ha _

/-- A relative path goes on from where it is joined. -/
theorem place_join {b : String} (hb : isAbsolute b = false) (cwd : List String) (a : String) :
    place cwd (join a b) = (named (parts b)).foldl goOn (place cwd a) := by
  rw [place_eq_foldl_named, place_eq_foldl_named, named_parts_join hb, isAbsolute_join hb,
    List.foldl_append]

/-- The path is relative and never goes back. -/
def GoesDown (path : String) : Prop :=
  isAbsolute path = false ∧ ".." ∉ parts path

instance (path : String) : Decidable (GoesDown path) :=
  inferInstanceAs (Decidable (_ ∧ _))

theorem GoesDown.names {path : String} (h : GoesDown path) :
    ∀ part ∈ named (parts path), isIdle part = false ∧ part ≠ ".." := by
  intro part hpart
  obtain ⟨hmem, hidle⟩ := mem_named.1 hpart
  exact ⟨hidle, fun hup => h.2 (hup ▸ hmem)⟩

/-- A path that goes down leads below where it is joined. -/
theorem GoesDown.place_join {path : String} (h : GoesDown path) (cwd : List String) (dir : String) :
    place cwd (join dir path) = place cwd dir ++ named (parts path) := by
  rw [Path.place_join h.1, foldl_goOn_names h.names]

/-! ### Parents -/

/-- Idle parts at the end can be cut off without a loss of names. -/
theorem named_reverse_dropWhile {p : String → Bool} (h : ∀ part, p part = true → isIdle part = true)
    (body : List String) : named (body.reverse.dropWhile p).reverse = named body := by
  have hfilter (rev : List String) : named (rev.dropWhile p) = named rev := by
    induction rev with
    | nil => rfl
    | cons part rev ih =>
      cases hpart : p part with
      | true => rw [List.dropWhile_cons_of_pos hpart, named_cons_idle (h part hpart), ih]
      | false => rw [List.dropWhile_cons_of_neg (by simp [hpart])]
  have hreverse (rev : List String) : named rev.reverse = (named rev).reverse := List.filter_reverse ..
  rw [hreverse, hfilter, hreverse, List.reverse_reverse]

theorem named_trimEnd (body : List String) : named (trimEnd body) = named body :=
  named_reverse_dropWhile (fun _ h => h) body

theorem named_dropLast_trimEnd (body : List String) :
    named (trimEnd body).dropLast = (named body).dropLast := by
  rcases List.eq_nil_or_concat (trimEnd body) with hnil | ⟨front, last, hlast⟩
  · have hnamed : named body = [] := by rw [← named_trimEnd, hnil]; rfl
    rw [hnil, hnamed]
    rfl
  · rw [List.concat_eq_append] at hlast
    have hidle : isIdle last = false :=
      isIdle_of_getLast?_trimEnd (by rw [hlast, List.getLast?_concat])
    rw [← named_trimEnd body, hlast, List.dropLast_concat, named_append, named_cons_name hidle]
    exact (List.dropLast_concat ..).symm

theorem named_parts_build {lead : String} (hlead : lead ∈ ["", ".", "/"]) {body : List String}
    (hslash : ∀ part ∈ body, '/' ∉ part.toList) : named (parts (build lead body)) = named body := by
  rcases eq_or_ne body [] with rfl | hne
  · rw [List.mem_cons, List.mem_cons, List.mem_singleton] at hlead
    rcases hlead with rfl | rfl | rfl <;> decide
  · obtain ⟨front, hfront, hparts⟩ := parts_build hlead hne hslash
    rw [hparts, named_append, hfront, List.nil_append]

theorem isAbsolute_of_parts {path : String} {rest : List String} (h : parts path = "" :: rest)
    (hrest : rest ≠ []) : isAbsolute path = true := by
  cases hlist : path.toList with
  | nil =>
    rw [parts, Text.split, hlist] at h
    exact absurd (List.cons.inj h).2.symm hrest
  | cons c cs =>
    rw [parts, Text.split, hlist, List.splitOn_cons_eq_if_modifyHead] at h
    split at h
    · rename_i hc
      rw [isAbsolute, hlist]
      simpa using hc
    · obtain ⟨first, more, hmore⟩ := List.exists_cons_of_ne_nil (List.splitOn_ne_nil '/' cs)
      rw [hmore, List.modifyHead_cons, List.map_cons] at h
      exact absurd (List.cons.inj h).1 (by simp)

theorem isAbsolute_intercalate {part : String} {body : List String} (hne : part ≠ "")
    (hslash : '/' ∉ part.toList) : isAbsolute ("/".intercalate (part :: body)) = false := by
  have hhead : isAbsolute part = false := by
    rw [isAbsolute, decide_eq_false_iff_not]
    intro hhead
    exact hslash (List.mem_of_head? hhead)
  rcases eq_or_ne body [] with rfl | hbody
  · simpa using hhead
  · rw [intercalate_cons hbody, String.append_assoc, isAbsolute_append hne, hhead]

theorem slash_not_mem_of_mem_parts {path part : String} (h : part ∈ parts path) :
    '/' ∉ part.toList :=
  Text.not_mem_of_mem_split h

theorem isAbsolute_build {path : String} {body : List String} (hbody : body <+: (split path).2)
    (hnames : named (split path).2 ≠ []) :
    isAbsolute (build (split path).1 body) = isAbsolute path := by
  rcases lead_cases path with ⟨hlead, habs, -⟩ | ⟨hlead, habs, -⟩ | ⟨hlead, habs, hparts⟩
  · rw [hlead, habs, build]
    split
    · decide
    · rw [if_pos rfl]
      exact isAbsolute_append (by decide) _
  · rw [hlead, habs, build]
    split
    · decide
    · rw [if_neg (by decide)]
      exact isAbsolute_append (by decide) _
  · rw [hlead, habs, build]
    cases body with
    | nil => decide
    | cons part body =>
      obtain ⟨rest, hrest⟩ := hbody
      have hsplit : parts path = part :: (body ++ rest) := by rw [hparts, ← hrest]; rfl
      have hne : part ≠ "" := by
        rintro rfl
        rcases eq_or_ne (body ++ rest) [] with hnil | hmore
        · rw [← hparts, hsplit, hnil] at hnames
          exact hnames (by decide)
        · rw [isAbsolute_of_parts hsplit hmore] at habs
          cases habs
      have hslash := slash_not_mem_of_mem_parts (hsplit ▸ List.mem_cons_self ..)
      simp only [List.isEmpty_cons, Bool.false_eq_true, if_false, String.empty_append]
      rw [if_neg (by decide)]
      exact isAbsolute_intercalate hne hslash

theorem trimEnd_isLead (body : List String) : trimEnd body <+: body := by
  rw [trimEnd, ← List.reverse_suffix, List.reverse_reverse]
  exact List.dropWhile_suffix _

/-- The parent of a path starts where the path starts and has its names but for the last. -/
theorem parent?_names {path dir : String} (h : parent? path = some dir) :
    isAbsolute dir = isAbsolute path ∧ named (parts dir) = (named (parts path)).dropLast := by
  have hlead : (split path).1 ∈ ["", ".", "/"] := by
    rcases lead_cases path with ⟨h, -⟩ | ⟨h, -⟩ | ⟨h, -⟩ <;> simp [h]
  rw [parent?] at h
  simp only at h
  split at h
  · rename_i hnil
    split at h
    · rename_i hdot
      cases h
      have hnamed : named (parts path) = [] := by
        rw [← named_split, ← named_trimEnd, hnil]
        rfl
      rcases lead_cases path with ⟨-, habs, -⟩ | ⟨hslash, -, -⟩ | ⟨hnone, -, -⟩
      · rw [hnamed, habs]
        exact ⟨by decide, by decide⟩
      · rw [hdot] at hslash
        exact absurd hslash (by decide)
      · rw [hdot] at hnone
        exact absurd hnone (by decide)
    · cases h
  · rename_i hne
    cases h
    have hbegin : trimEnd (trimEnd (split path).2).dropLast <+: (split path).2 :=
      (trimEnd_isLead _).trans ((List.dropLast_prefix _).trans (trimEnd_isLead _))
    refine ⟨isAbsolute_build hbegin fun hnil => hne ?_, ?_⟩
    · rcases List.eq_nil_or_concat (trimEnd (split path).2) with hnone | ⟨front, last, hlast⟩
      · exact hnone
      · rw [List.concat_eq_append] at hlast
        have hget : (trimEnd (split path).2).getLast? = some last := by rw [hlast, List.getLast?_concat]
        rw [← named_trimEnd, hlast, named_append,
          named_cons_name (isIdle_of_getLast?_trimEnd hget)] at hnil
        simp at hnil
    · rw [named_parts_build hlead, named_trimEnd, named_dropLast_trimEnd, named_split]
      intro part hpart
      exact slash_not_mem_of_mem_parts (mem_parts_of_mem_split (hbegin.subset hpart))

/-! ### Paths from names -/

/-- The path from names. -/
def ofNames (names : List String) : String :=
  "/".intercalate names

variable {names : List String}

theorem parts_ofNames (hne : names ≠ []) (h : ∀ name ∈ names, IsName name) :
    parts (ofNames names) = names :=
  parts_intercalate hne fun name hname => (h name hname).2.2

theorem named_parts_ofNames (h : ∀ name ∈ names, IsName name) :
    named (parts (ofNames names)) = names := by
  rcases eq_or_ne names [] with rfl | hne
  · decide
  · rw [parts_ofNames hne h]
    exact List.filter_eq_self.2 fun name hname => by simp [(h name hname).1]

theorem ofNames_inj {others : List String} (h : ∀ name ∈ names, IsName name)
    (hothers : ∀ name ∈ others, IsName name) : ofNames names = ofNames others ↔ names = others := by
  refine ⟨fun heq => ?_, fun heq => heq ▸ rfl⟩
  rw [← named_parts_ofNames h, ← named_parts_ofNames hothers, heq]

theorem goesDown_ofNames (h : ∀ name ∈ names, IsName name) : GoesDown (ofNames names) := by
  rcases names with _ | ⟨name, names⟩
  · decide
  · have hname := h name (List.mem_cons_self ..)
    refine ⟨isAbsolute_intercalate hname.ne_empty hname.2.2, fun hup => ?_⟩
    rw [parts_ofNames (List.cons_ne_nil name names) h] at hup
    exact (h _ hup).2.1 rfl

theorem place_join_ofNames (h : ∀ name ∈ names, IsName name) (cwd : List String) (dir : String) :
    place cwd (join dir (ofNames names)) = place cwd dir ++ names := by
  rw [(goesDown_ofNames h).place_join, named_parts_ofNames h]

end WorkflowAudit.Path
