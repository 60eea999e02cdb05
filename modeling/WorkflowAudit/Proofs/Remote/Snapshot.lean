import WorkflowAudit.Proofs.Path.Places
import WorkflowAudit.Proofs.Remote.Confinement
import WorkflowAudit.Proofs.Table.Writing

/-!
What a branch holds, and services that answer from it. A snapshot is a tree of files, directories and
entries of other kinds, in which no two entries of a directory have the same name. Main statements: a
path that is written from names leads to these names, and a place in a directory is at or below exactly
one of its entries.
-/

namespace WorkflowAudit

/-- An entry of a branch with all that is below it. -/
inductive RepoNode where
  | file (text : String)
  | dir (entries : List (String × RepoNode))
  | symlink
  | submodule

namespace RepoNode

/-- What kind of entry it is. -/
def kind : RepoNode → EntryKind
  | file _ => .file
  | dir _ => .dir
  | symlink => .symlink
  | submodule => .submodule

theorem exists_entries {node : RepoNode} (h : node.kind = .dir) : ∃ entries, node = .dir entries := by
  cases node with
  | dir entries => exact ⟨entries, rfl⟩
  | file text => cases h
  | symlink => cases h
  | submodule => cases h

/-- The entry of a directory with a name. -/
def child? : RepoNode → String → Option RepoNode
  | dir entries, name => entries.lookup name
  | _, _ => none

/-- What is under a list of names. -/
def find? (node : RepoNode) : List String → Option RepoNode
  | [] => some node
  | name :: rest => (node.child? name).bind (·.find? rest)

mutual

/-- How many entries there are, this one included. -/
def count : RepoNode → Nat
  | dir entries => countAll entries + 1
  | file _ | symlink | submodule => 1

/-- How many entries there are in a listing and below. -/
def countAll : List (String × RepoNode) → Nat
  | [] => 0
  | (_, node) :: rest => node.count + countAll rest

end

theorem count_pos (node : RepoNode) : 0 < node.count := by
  cases node <;> simp [count]

theorem countAll_eq_sum (entries : List (String × RepoNode)) :
    countAll entries = (entries.map fun e => e.2.count).sum := by
  induction entries with
  | nil => rfl
  | cons e entries ih => rw [countAll, ih, List.map_cons, List.sum_cons]

theorem count_child?_le {node child : RepoNode} {name : String} (h : node.child? name = some child) :
    child.count ≤ node.count := by
  cases node with
  | dir entries =>
    obtain ⟨before, after, hentries, -⟩ := List.lookup_eq_some_iff.1 h
    have hmem : child.count ∈ entries.map fun e => e.2.count :=
      List.mem_map.2 ⟨(name, child), by simp [hentries], rfl⟩
    have hle := List.le_sum_of_mem hmem
    rw [count, countAll_eq_sum]
    omega
  | file text => cases h
  | symlink => cases h
  | submodule => cases h

theorem count_find?_le {node found : RepoNode} {place : List String}
    (h : node.find? place = some found) : found.count ≤ node.count := by
  induction place generalizing node with
  | nil => rw [Option.some.inj h]
  | cons name place ih =>
    obtain ⟨child, hchild, hfound⟩ := Option.bind_eq_some_iff.1 h
    exact (ih hfound).trans (count_child?_le hchild)

theorem find?_append (node : RepoNode) (place rest : List String) :
    node.find? (place ++ rest) = (node.find? place).bind (·.find? rest) := by
  induction place generalizing node with
  | nil => rfl
  | cons name place ih =>
    rw [List.cons_append, find?, find?]
    cases node.child? name with
    | none => rfl
    | some child => exact ih child

/-! ### Names of entries -/

mutual

/-- In every directory the entries have names, each one a name of its own. -/
def wellNamed : RepoNode → Bool
  | dir entries => decide (entries.map (·.1)).Nodup && allWellNamed entries
  | file _ | symlink | submodule => true

/-- The entries of a listing have names, and those below as well. -/
def allWellNamed : List (String × RepoNode) → Bool
  | [] => true
  | (name, node) :: rest => decide (Path.IsName name) && node.wellNamed && allWellNamed rest

end

theorem allWellNamed_iff (entries : List (String × RepoNode)) :
    allWellNamed entries = true ↔ ∀ e ∈ entries, Path.IsName e.1 ∧ e.2.wellNamed = true := by
  induction entries with
  | nil => simp [allWellNamed]
  | cons e entries ih =>
    rw [allWellNamed, Bool.and_eq_true, Bool.and_eq_true, decide_eq_true_eq, ih, List.forall_mem_cons]

theorem wellNamed_dir {entries : List (String × RepoNode)} (h : (dir entries).wellNamed = true) :
    (entries.map (·.1)).Nodup ∧ ∀ e ∈ entries, Path.IsName e.1 ∧ e.2.wellNamed = true := by
  rwa [wellNamed, Bool.and_eq_true, decide_eq_true_eq, allWellNamed_iff] at h

theorem mem_of_child? {entries : List (String × RepoNode)} {name : String} {child : RepoNode}
    (h : (dir entries).child? name = some child) : (name, child) ∈ entries := by
  obtain ⟨before, after, hentries, -⟩ := List.lookup_eq_some_iff.1 h
  simp [hentries]

theorem child?_of_mem {entries : List (String × RepoNode)} (hnodup : (entries.map (·.1)).Nodup)
    {e : String × RepoNode} (h : e ∈ entries) : (dir entries).child? e.1 = some e.2 :=
  Table.lookup_of_mem hnodup h

/-- What is found in a tree with proper names is under names and has proper names below it. -/
theorem wellNamed_find? {node found : RepoNode} {place : List String} (hnode : node.wellNamed = true)
    (h : node.find? place = some found) :
    found.wellNamed = true ∧ ∀ name ∈ place, Path.IsName name := by
  induction place generalizing node with
  | nil => exact ⟨Option.some.inj h ▸ hnode, List.forall_mem_nil _⟩
  | cons name place ih =>
    obtain ⟨child, hchild, hfound⟩ := Option.bind_eq_some_iff.1 h
    cases node with
    | dir entries =>
      obtain ⟨hname, hbelow⟩ := (wellNamed_dir hnode).2 _ (mem_of_child? hchild)
      obtain ⟨hfound, hplace⟩ := ih hbelow hfound
      exact ⟨hfound, List.forall_mem_cons.2 ⟨hname, hplace⟩⟩
    | file text => cases hchild
    | symlink => cases hchild
    | submodule => cases hchild

end RepoNode

/-- What a branch holds. Nothing in it has the place of the marker for a project. -/
structure RepoTree where
  entries : List (String × RepoNode)
  wellNamed : (RepoNode.dir entries).wellNamed = true
  noMarker : (entries.lookup ".git").isNone = true

namespace RepoTree

/-- What is under a list of names. -/
def find? (tree : RepoTree) (place : List String) : Option RepoNode :=
  (RepoNode.dir tree.entries).find? place

/-- How many entries there are, the directory that holds them all included. -/
def count (tree : RepoTree) : Nat :=
  (RepoNode.dir tree.entries).count

variable {tree : RepoTree} {place : List String}

theorem names_of_find? {node : RepoNode} (h : tree.find? place = some node) :
    ∀ name ∈ place, Path.IsName name :=
  (RepoNode.wellNamed_find? tree.wellNamed h).2

theorem find?_marker : tree.find? [".git"] = none := by
  have hnone : tree.entries.lookup ".git" = none := Option.isNone_iff_eq_none.1 tree.noMarker
  rw [find?, RepoNode.find?, RepoNode.child?, hnone]
  rfl

theorem find?_entry {entries : List (String × RepoNode)} (h : tree.find? place = some (.dir entries))
    {e : String × RepoNode} (he : e ∈ entries) : tree.find? (place ++ [e.1]) = some e.2 := by
  have hnodup := (RepoNode.wellNamed_dir (RepoNode.wellNamed_find? tree.wellNamed h).1).1
  rw [find?] at h ⊢
  rw [RepoNode.find?_append, h, Option.bind_some, RepoNode.find?, RepoNode.child?_of_mem hnodup he]
  rfl

/-! ### Places that entries cover -/

/-- The entries of a directory, each with its place. -/
def located (place : List String) (entries : List (String × RepoNode)) :
    List (List String × RepoNode) :=
  entries.map fun e => (place ++ [e.1], e.2)

theorem find?_of_mem_located {entries listed : List (String × RepoNode)}
    (h : tree.find? place = some (.dir entries)) (hlisted : listed.Perm entries) :
    ∀ item ∈ (located place listed).reverse, tree.find? item.1 = some item.2 ∧ item.1 ≠ [] := by
  intro item hitem
  obtain ⟨e, he, rfl⟩ := List.mem_map.1 (List.mem_reverse.1 hitem)
  exact ⟨find?_entry h (hlisted.subset he), by simp⟩

/-- How many of the places are at or above a place. -/
def covering (items : List (List String × RepoNode)) (place : List String) : Nat :=
  items.countP fun item => item.1 <+: place

/-- What is below a directory is at or below exactly one of its entries. -/
theorem covering_located {entries : List (String × RepoNode)}
    (h : tree.find? place = some (.dir entries)) {other : List String} (hother : tree.find? other ≠ none) :
    (if other = place then 1 else 0) + covering (located place entries) other =
      if place <+: other then 1 else 0 := by
  rw [covering, located, List.countP_map]
  split
  · rename_i heq
    -- The directory is at none of its entries.
    subst heq
    rw [if_pos (List.prefix_refl other), List.countP_eq_zero.2]
    intro e _ hlead
    have := (of_decide_eq_true hlead).length_le
    simp at this
  · rename_i hne
    split
    · rename_i hlead
      obtain ⟨rest, rfl⟩ := hlead
      obtain ⟨name, rest, rfl⟩ := List.exists_cons_of_ne_nil (l := rest) (by rintro rfl; simp at hne)
      have hchild : ∃ child, (RepoNode.dir entries).child? name = some child := by
        rw [find?] at h hother
        rw [RepoNode.find?_append, h, Option.bind_some, RepoNode.find?] at hother
        cases hchild : (RepoNode.dir entries).child? name with
        | none => simp [hchild] at hother
        | some child => exact ⟨child, rfl⟩
      obtain ⟨child, hchild⟩ := hchild
      have hnodup := (RepoNode.wellNamed_dir (RepoNode.wellNamed_find? tree.wellNamed h).1).1
      have hmem : name ∈ entries.map (·.1) := List.mem_map.2 ⟨_, RepoNode.mem_of_child? hchild, rfl⟩
      rw [Nat.zero_add, ← List.count_eq_one_of_mem hnodup hmem, List.count, List.countP_map]
      refine List.countP_congr fun e _ => ?_
      simp only [Function.comp_apply, decide_eq_true_eq, beq_iff_eq, List.prefix_append_right_inj,
        List.cons_prefix_cons, List.nil_prefix, and_true]
    · rename_i hlead
      rw [Nat.zero_add, List.countP_eq_zero.2]
      intro e _ hbelow
      exact hlead ((List.prefix_append place [e.1]).trans (of_decide_eq_true hbelow))

end RepoTree

/-! ### Services -/

theorem Crawl.isSafe_ofNames {names : List String} (hne : names ≠ [])
    (h : ∀ name ∈ names, Path.IsName name) : isSafe (Path.ofNames names) = true := by
  have habs := (Path.goesDown_ofNames h).1
  obtain ⟨name, names, rfl⟩ := List.exists_cons_of_ne_nil hne
  have hname := h name (List.mem_cons_self ..)
  have hdot : name ≠ "." := by
    rintro rfl
    exact absurd hname.1 (by decide)
  have hsplit : Path.split (Path.ofNames (name :: names)) = ("", name :: names) := by
    rw [Path.split, Path.parts_ofNames hne h]
    split
    · rename_i heq
      exact absurd (List.cons.inj heq).1 hdot
    · rename_i heq
      rw [habs, ← heq]
      rfl
    · rename_i heq
      cases heq
  simp only [isSafe, hsplit, decide_true, Bool.true_and, List.all_eq_true, decide_eq_true_eq]
  exact fun part hpart => (h part hpart).2.1

/-- The entry of a listing for what is at a place. -/
def RepoNode.entryAt (place : List String) (node : RepoNode) : Entry :=
  ⟨Path.ofNames place, node.kind⟩

/-- Whatever was done before, the service answers for a branch from what it holds. The entries of a
    directory are listed in any order. -/
structure RepoApi.Serves (api : RepoApi) (org repo branch : String) (tree : RepoTree) : Prop where
  rateLimit : ∀ earlier, ∃ limit, api.rateLimit earlier = .ok limit
  nothing : ∀ earlier place, (∀ name ∈ place, Path.IsName name) → tree.find? place = none →
    api.contents earlier org repo branch (Path.ofNames place) = .ok none
  directory : ∀ earlier place entries, tree.find? place = some (.dir entries) →
    ∃ listed, listed.Perm entries ∧
      api.contents earlier org repo branch (Path.ofNames place) =
        .ok (some (.dir ((RepoTree.located place listed).map fun item => item.2.entryAt item.1)))
  other : ∀ earlier place node, tree.find? place = some node → node.kind ≠ .dir →
    api.contents earlier org repo branch (Path.ofNames place) = .ok (some (.file (node.entryAt place)))
  text : ∀ earlier place text, tree.find? place = some (.file text) →
    api.rawFile earlier org repo branch (Path.ofNames place) = .ok (some text)

/-- What is in the tree is found. -/
theorem RepoApi.Serves.exists_contents {api : RepoApi} {org repo branch : String} {tree : RepoTree}
    (h : api.Serves org repo branch tree) {place : List String} {node : RepoNode}
    (hnode : tree.find? place = some node) (earlier : List CrawlAction) :
    ∃ found, api.contents earlier org repo branch (Path.ofNames place) = .ok found := by
  by_cases hkind : node.kind = .dir
  · obtain ⟨entries, rfl⟩ := RepoNode.exists_entries hkind
    obtain ⟨listed, -, hlisted⟩ := h.directory earlier place entries hnode
    exact ⟨_, hlisted⟩
  · exact ⟨_, h.other earlier place node hnode hkind⟩

/-- A service that holds this tree in every branch of every repository. -/
def RepoTree.api (tree : RepoTree) : RepoApi where
  rateLimit _ := .ok ⟨5000, 0⟩
  repositories _ _ := .ok []
  defaultBranch _ _ _ := .ok "main"
  branches _ _ _ := .ok ["main"]
  contents _ _ _ _ path :=
    let place := Path.named (Path.parts path)
    .ok ((tree.find? place).map fun
      | .dir entries => .dir ((located place entries).map fun item => item.2.entryAt item.1)
      | node => .file (node.entryAt place))
  rawFile _ _ _ _ path :=
    .ok ((tree.find? (Path.named (Path.parts path))).bind fun
      | .file text => some text
      | _ => none)

/-- For every tree there is a service that answers from it. -/
theorem RepoTree.serves_api (tree : RepoTree) (org repo branch : String) :
    tree.api.Serves org repo branch tree where
  rateLimit _ := ⟨_, rfl⟩
  nothing _ place hnames hnone := by
    simp only [api, Path.named_parts_ofNames hnames, hnone, Option.map_none]
  directory _ place entries hdir := by
    refine ⟨entries, .refl _, ?_⟩
    simp only [api, Path.named_parts_ofNames (names_of_find? hdir), hdir, Option.map_some]
  other _ place node hnode hkind := by
    simp only [api, Path.named_parts_ofNames (names_of_find? hnode), hnode, Option.map_some]
    cases node with
    | dir entries => exact absurd rfl hkind
    | file text => rfl
    | symlink => rfl
    | submodule => rfl
  text _ place text htext := by
    simp only [api, Path.named_parts_ofNames (names_of_find? htext), htext, Option.bind_some]

end WorkflowAudit
