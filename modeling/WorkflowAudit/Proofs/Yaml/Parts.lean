import WorkflowAudit.Proofs.Yaml.Building

/-!
The parts of an outline. What is built of an outline is built of its parts, one after the other, and
then of their nodes alone. Main statements: building succeeds exactly if it does so on all parts and a
node can be made of theirs, and it fails with the first error of a part.
-/

namespace WorkflowAudit.Yaml

/-- A part of an outline, and whether it is the key of a pair. -/
structure Part where
  isKey : Bool
  outline : Outline

namespace Outline

/-- The key of a pair and its value, when there is one; a pair without a key has no parts. -/
def entryParts : Outline → List Part
  | pair _ key value =>
    if key.isAbsent then []
    else ⟨true, key⟩ :: if value.isAbsent then [] else [⟨false, value⟩]
  | _ => []

/-- The parts of an outline, in the order of the text. -/
def parts : Outline → List Part
  | sequence _ items => items.map (⟨false, ·⟩)
  | mapping _ pairs => pairs.flatMap entryParts
  | pair start key value => (pair start key value).entryParts
  | anchored _ content => [⟨false, content⟩]
  | _ => []

variable {key value : Outline}

theorem entryParts_keyless (start : Nat) (value : Outline) (h : key.isAbsent = true) :
    (pair start key value).entryParts = [] := by
  simp [entryParts, h]

theorem entryParts_bare (start : Nat) (h : key.isAbsent = false) (hvalue : value.isAbsent = true) :
    (pair start key value).entryParts = [⟨true, key⟩] := by
  simp [entryParts, h, hvalue]

theorem entryParts_full (start : Nat) (h : key.isAbsent = false) (hvalue : value.isAbsent = false) :
    (pair start key value).entryParts = [⟨true, key⟩, ⟨false, value⟩] := by
  simp [entryParts, h, hvalue]

theorem entryParts_eq_nil_iff {o : Outline} :
    o.entryParts = [] ↔ ∀ start key value, o = .pair start key value → key.isAbsent = true := by
  cases o with
  | pair start key value => cases h : key.isAbsent <;> simp [entryParts, h]
  | _ => simp [entryParts]

theorem exists_pair_of_entryParts_ne_nil {o : Outline} (h : o.entryParts ≠ []) :
    ∃ start key value, o = .pair start key value ∧ key.isAbsent = false := by
  rw [Ne, entryParts_eq_nil_iff] at h
  simpa only [not_forall, Bool.not_eq_true, exists_prop] using h

theorem sizeOf_lt_of_mem_entryParts {o : Outline} {part : Part} (h : part ∈ o.entryParts) :
    sizeOf part.outline < sizeOf o := by
  cases o with
  | pair start key value =>
    cases hkey : key.isAbsent with
    | true => simp [entryParts_keyless _ _ hkey] at h
    | false =>
      cases hvalue : value.isAbsent with
      | true =>
        rw [entryParts_bare _ hkey hvalue, List.mem_singleton] at h
        simp only [h, pair.sizeOf_spec]
        omega
      | false =>
        simp only [entryParts_full _ hkey hvalue, List.mem_cons, List.not_mem_nil, or_false] at h
        rcases h with h | h
        all_goals
          simp only [h, pair.sizeOf_spec]
          omega
  | _ => cases h

theorem sizeOf_lt_of_mem_parts {o : Outline} {part : Part} (h : part ∈ o.parts) :
    sizeOf part.outline < sizeOf o := by
  cases o with
  | sequence start items =>
    obtain ⟨item, hitem, rfl⟩ := List.mem_map.1 h
    have := List.sizeOf_lt_of_mem hitem
    simp only [sequence.sizeOf_spec]
    omega
  | mapping start pairs =>
    obtain ⟨pair, hpair, hpart⟩ := List.mem_flatMap.1 h
    have := List.sizeOf_lt_of_mem hpair
    have := sizeOf_lt_of_mem_entryParts hpart
    simp only [mapping.sizeOf_spec]
    omega
  | pair start key value => exact sizeOf_lt_of_mem_entryParts h
  | anchored name content =>
    cases List.mem_singleton.1 h
    simp only [anchored.sizeOf_spec]
    omega
  | _ => cases h

end Outline

/-- A document has one part, its content. -/
def Document.parts (d : Document) : List Part :=
  [⟨false, d.content⟩]

/-- Induction on the parts within the first part, and on the parts after it. -/
@[elab_as_elim]
theorem Part.induction {P : List Part → Prop} (nil : P [])
    (cons : ∀ part rest, P part.outline.parts → P rest → P (part :: rest)) (parts : List Part) :
    P parts := by
  have hsize (size : Nat) : ∀ parts : List Part, (∀ part ∈ parts, sizeOf part.outline < size) →
      P parts := by
    induction size with
    | zero =>
      intro parts h
      rw [List.eq_nil_iff_forall_not_mem.2 fun part hpart => Nat.not_lt_zero _ (h part hpart)]
      exact nil
    | succ size ih =>
      intro parts
      induction parts with
      | nil => exact fun _ => nil
      | cons part rest ihrest =>
        intro h
        obtain ⟨hpart, hrest⟩ := List.forall_mem_cons.1 h
        refine cons part rest (ih _ fun inner hinner => ?_) (ihrest hrest)
        exact (Outline.sizeOf_lt_of_mem_parts hinner).trans_le (Nat.le_of_lt_succ hpart)
  induction parts with
  | nil => exact nil
  | cons part rest ih =>
    exact cons part rest (hsize _ _ fun _ h => Outline.sizeOf_lt_of_mem_parts h) ih

namespace Node

variable {document : List Char} {anchors anchors' inner : Anchors} {n : Node} {e : SyntaxError}

/-! ### Nodes of nodes -/

/-- The nodes of the keys and values of pairs make entries. -/
inductive Enters : List Outline → List Node → Entries → Prop
  | nil : Enters [] [] []
  | skipped {pair : Outline} {rest : List Outline} {nodes : List Node} {entries : Entries}
      (hpair : pair.entryParts = []) (h : Enters rest nodes entries) :
      Enters (pair :: rest) nodes entries
  | bare {start : Nat} {key value : Outline} {rest : List Outline} {nodes : List Node}
      {entries : Entries} (k : Scalar) (hkey : key.isAbsent = false) (hvalue : value.isAbsent = true)
      (h : Enters rest nodes entries) :
      Enters (.pair start key value :: rest) (.scalar k :: nodes) ((k, .null k.position) :: entries)
  | full {start : Nat} {key value : Outline} {rest : List Outline} {nodes : List Node}
      {entries : Entries} (k : Scalar) (v : Node) (hkey : key.isAbsent = false)
      (hvalue : value.isAbsent = false) (h : Enters rest nodes entries) :
      Enters (.pair start key value :: rest) (.scalar k :: v :: nodes) ((k, v) :: entries)

/-- The nodes of its parts make the node of an outline; that of an alias is what its name stands for. -/
inductive Makes (document : List Char) (standsFor : String → Node → Prop) :
    Outline → List Node → Node → Prop
  | absent : Makes document standsFor .absent [] (.null .start)
  | empty (start : Nat) : Makes document standsFor (.empty start) [] (.null (.ofIndex document start))
  | scalar (style : Style) (start stop : Nat) : Makes document standsFor (.scalar style start stop) []
      (.scalar (Scalar.ofSpan document style start stop))
  | copy {start : Nat} {written : String} {n : Node} (h : standsFor (aliasName written) n) :
      Makes document standsFor (.alias start written) [] n
  | sequence (start : Nat) (items : List Outline) (nodes : List Node) :
      Makes document standsFor (.sequence start items) nodes (.sequence (.ofIndex document start) nodes)
  | mapping {start : Nat} {pairs : List Outline} {nodes : List Node} {entries : Entries} {n : Node}
      (hentries : Enters pairs nodes entries) (hn : ofPairs (.ofIndex document start) entries = .ok n) :
      Makes document standsFor (.mapping start pairs) nodes n
  | keyless (start : Nat) {key : Outline} (value : Outline) (hkey : key.isAbsent = true) :
      Makes document standsFor (.pair start key value) [] (.null (.ofIndex document start))
  | bare (start : Nat) {key value : Outline} (k : Scalar) (hkey : key.isAbsent = false)
      (hvalue : value.isAbsent = true) : Makes document standsFor (.pair start key value) [.scalar k]
        (.mapping (.ofIndex document start) [(k, .null (.ofIndex document start))])
  | full (start : Nat) {key value : Outline} (k : Scalar) (v : Node) (hkey : key.isAbsent = false)
      (hvalue : value.isAbsent = false) : Makes document standsFor (.pair start key value) [.scalar k, v]
        (.mapping (.ofIndex document start) [(k, v)])
  | anchored (name : String) (content : Outline) (n : Node) :
      Makes document standsFor (.anchored name content) [n] n

theorem Makes.imp {standsFor standsFor' : String → Node → Prop} {o : Outline} {nodes : List Node}
    (himp : ∀ name n, standsFor name n → standsFor' name n) (h : Makes document standsFor o nodes n) :
    Makes document standsFor' o nodes n := by
  cases h with
  | absent => exact .absent
  | empty => exact .empty _
  | scalar => exact .scalar ..
  | copy h => exact .copy (himp _ _ h)
  | sequence => exact .sequence ..
  | mapping hentries hn => exact .mapping hentries hn
  | keyless _ _ hkey => exact .keyless _ _ hkey
  | bare _ k hkey hvalue => exact .bare _ k hkey hvalue
  | full _ k v hkey hvalue => exact .full _ k v hkey hvalue
  | anchored => exact .anchored ..

/-- The anchors that are complete after an outline, when `n` is its node. -/
def Anchors.record (anchors : Anchors) (o : Outline) (n : Node) : Anchors :=
  match o with
  | .anchored name _ => (name, n) :: anchors
  | _ => anchors

theorem Anchors.lookup_record_anchored (anchors : Anchors) (name : String) (content : Outline) (n : Node) :
    (anchors.record (.anchored name content) n).lookup name = some n :=
  List.lookup_cons_self

theorem Anchors.lookup_record_of_ne {o : Outline} {name : String} (anchors : Anchors) (n : Node)
    (h : ¬ ∃ content, o = .anchored name content) :
    (anchors.record o n).lookup name = anchors.lookup name := by
  cases o with
  | anchored other content =>
    have hne : name ≠ other := fun heq => h ⟨content, heq ▸ rfl⟩
    rw [record, List.lookup_cons, beq_false_of_ne hne]
  | _ => rfl

/-! ### Building part by part -/

/-- The parts are built one after the other, and keys to scalars. -/
inductive BuildsAll (document : List Char) : List Part → Anchors → List Node → Anchors → Prop
  | nil (anchors : Anchors) : BuildsAll document [] anchors [] anchors
  | cons {part : Part} {rest : List Part} {anchors inner anchors' : Anchors} {n : Node} {ns : List Node}
      (hn : build document part.outline anchors = .ok (n, inner))
      (hkey : part.isKey = true → ∃ k, n = .scalar k) (hrest : BuildsAll document rest inner ns anchors') :
      BuildsAll document (part :: rest) anchors (n :: ns) anchors'

/-- One of the parts is not built, after all those before it are. -/
inductive FailsAll (document : List Char) (e : SyntaxError) : List Part → Anchors → Prop
  | here {part : Part} {rest : List Part} {anchors : Anchors}
      (h : build document part.outline anchors = .error e) : FailsAll document e (part :: rest) anchors
  | later {part : Part} {rest : List Part} {anchors inner : Anchors} {n : Node}
      (hn : build document part.outline anchors = .ok (n, inner))
      (hkey : part.isKey = true → ∃ k, n = .scalar k) (h : FailsAll document e rest inner) :
      FailsAll document e (part :: rest) anchors

theorem buildItems_eq_ok {items : List Outline} {nodes : List Node} :
    buildItems document items anchors = .ok (nodes, anchors') ↔
      BuildsAll document (items.map (⟨false, ·⟩)) anchors nodes anchors' := by
  induction items generalizing anchors nodes with
  | nil =>
    rw [buildItems]
    constructor
    · rintro ⟨⟩
      exact .nil _
    · rintro ⟨⟩
      rfl
  | cons item items ih =>
    rw [buildItems_cons_eq_ok]
    constructor
    · rintro ⟨n, inner, ns, hn, hns, rfl⟩
      exact .cons hn (by simp) (ih.1 hns)
    · rintro (_ | ⟨hn, -, hns⟩)
      exact ⟨_, _, _, hn, ih.2 hns, rfl⟩

theorem buildPairs_eq_ok {pairs : List Outline} {entries : Entries} :
    buildPairs document pairs anchors = .ok (entries, anchors') ↔
      ∃ nodes, BuildsAll document (pairs.flatMap Outline.entryParts) anchors nodes anchors' ∧
        Enters pairs nodes entries := by
  induction pairs generalizing anchors entries with
  | nil =>
    rw [buildPairs]
    constructor
    · rintro ⟨⟩
      exact ⟨[], .nil _, .nil⟩
    · rintro ⟨nodes, ⟨⟩, ⟨⟩⟩
      rfl
  | cons pair pairs ih =>
    by_cases hpair : pair.entryParts = []
    · rw [buildPairs_cons_of_skipped (Outline.entryParts_eq_nil_iff.1 hpair), ih, List.flatMap_cons,
        hpair, List.nil_append]
      constructor
      · rintro ⟨nodes, hnodes, hentries⟩
        exact ⟨nodes, hnodes, .skipped hpair hentries⟩
      · rintro ⟨nodes, hnodes, hentries⟩
        cases hentries with
        | skipped _ h => exact ⟨nodes, hnodes, h⟩
        | bare k hkey hvalue => simp [Outline.entryParts, hkey] at hpair
        | full k v hkey hvalue => simp [Outline.entryParts, hkey] at hpair
    · obtain ⟨start, key, value, rfl, hkey⟩ := Outline.exists_pair_of_entryParts_ne_nil hpair
      rw [buildPairs_cons_eq_ok hkey, List.flatMap_cons]
      constructor
      · rintro ⟨entry, inner, es, hentry, hes, rfl⟩
        obtain ⟨nodes, hnodes, hentries⟩ := ih.1 hes
        cases hentry with
        | bare hvalue hk =>
          rw [Outline.entryParts_bare _ hkey hvalue]
          exact ⟨_, .cons hk (fun _ => ⟨_, rfl⟩) hnodes, .bare _ hkey hvalue hentries⟩
        | full hvalue hk hv =>
          rw [Outline.entryParts_full _ hkey hvalue]
          exact ⟨_, .cons hk (fun _ => ⟨_, rfl⟩) (.cons hv (by simp) hnodes),
            .full _ _ hkey hvalue hentries⟩
      · rintro ⟨nodes, hnodes, hentries⟩
        cases hentries with
        | skipped hnone _ => exact absurd hnone hpair
        | bare k _ hvalue h =>
          rw [Outline.entryParts_bare _ hkey hvalue] at hnodes
          rcases hnodes with _ | ⟨hk, -, hrest⟩
          exact ⟨_, _, _, .bare hvalue hk, ih.2 ⟨_, hrest, h⟩, rfl⟩
        | full k v _ hvalue h =>
          rw [Outline.entryParts_full _ hkey hvalue] at hnodes
          rcases hnodes with _ | ⟨hk, -, _ | ⟨hv, -, hrest⟩⟩
          exact ⟨_, _, _, .full hvalue hk hv, ih.2 ⟨_, hrest, h⟩, rfl⟩

theorem build_pair_eq_ok_iff_makes {start : Nat} {key value : Outline}
    {standsFor : String → Node → Prop} :
    build document (.pair start key value) anchors = .ok (n, anchors') ↔
      ∃ nodes, BuildsAll document (Outline.pair start key value).entryParts anchors nodes anchors' ∧
        Makes document standsFor (.pair start key value) nodes n := by
  cases hkey : key.isAbsent with
  | true =>
    rw [build_pair_of_absent hkey, Outline.entryParts_keyless _ _ hkey]
    constructor
    · rintro ⟨⟩
      exact ⟨_, .nil _, .keyless _ _ hkey⟩
    · rintro ⟨nodes, ⟨⟩, ⟨⟩⟩
      rfl
  | false =>
    rw [build_pair_eq_ok hkey]
    constructor
    · rintro ⟨entry, hentry, rfl⟩
      cases hentry with
      | bare hvalue hk =>
        rw [Outline.entryParts_bare _ hkey hvalue]
        exact ⟨_, .cons hk (fun _ => ⟨_, rfl⟩) (.nil _), .bare _ _ hkey hvalue⟩
      | full hvalue hk hv =>
        rw [Outline.entryParts_full _ hkey hvalue]
        exact ⟨_, .cons hk (fun _ => ⟨_, rfl⟩) (.cons hv (by simp) (.nil _)), .full _ _ _ hkey hvalue⟩
    · rintro ⟨nodes, hnodes, hn⟩
      cases hn with
      | keyless _ _ habsent => simp [hkey] at habsent
      | bare _ k _ hvalue =>
        rw [Outline.entryParts_bare _ hkey hvalue] at hnodes
        rcases hnodes with _ | ⟨hk, -, ⟨⟩⟩
        exact ⟨_, .bare hvalue hk, rfl⟩
      | full _ k v _ hvalue =>
        rw [Outline.entryParts_full _ hkey hvalue] at hnodes
        rcases hnodes with _ | ⟨hk, -, _ | ⟨hv, -, ⟨⟩⟩⟩
        exact ⟨_, .full hvalue hk hv, rfl⟩

/-- An outline is built exactly if its parts are and their nodes make one. -/
theorem build_eq_ok {o : Outline} : build document o anchors = .ok (n, anchors') ↔
    ∃ nodes inner, BuildsAll document o.parts anchors nodes inner ∧
      Makes document (fun name n => anchors.lookup name = some n) o nodes n ∧
      anchors' = inner.record o n := by
  cases o with
  | absent =>
    constructor
    · intro h
      rw [build] at h
      cases h
      exact ⟨_, _, .nil _, .absent, rfl⟩
    · rintro ⟨nodes, inner, ⟨⟩, ⟨⟩, rfl⟩
      rw [build]
  | empty start =>
    constructor
    · intro h
      rw [build] at h
      cases h
      exact ⟨_, _, .nil _, .empty _, rfl⟩
    · rintro ⟨nodes, inner, ⟨⟩, ⟨⟩, rfl⟩
      rw [build]
  | scalar style start stop =>
    constructor
    · intro h
      rw [build] at h
      cases h
      exact ⟨_, _, .nil _, .scalar .., rfl⟩
    · rintro ⟨nodes, inner, ⟨⟩, ⟨⟩, rfl⟩
      rw [build]
  | «alias» start written =>
    rw [build_alias_eq_ok]
    constructor
    · rintro ⟨hn, rfl⟩
      exact ⟨_, _, .nil _, .copy hn, rfl⟩
    · rintro ⟨nodes, inner, ⟨⟩, hn, rfl⟩
      cases hn with
      | copy hn => exact ⟨hn, rfl⟩
  | sequence start items =>
    rw [build_sequence_eq_ok]
    constructor
    · rintro ⟨nodes, hnodes, rfl⟩
      exact ⟨nodes, _, buildItems_eq_ok.1 hnodes, .sequence .., rfl⟩
    · rintro ⟨nodes, inner, hnodes, ⟨⟩, rfl⟩
      exact ⟨nodes, buildItems_eq_ok.2 hnodes, rfl⟩
  | mapping start pairs =>
    rw [build_mapping_eq_ok]
    constructor
    · rintro ⟨built, hbuilt, hn⟩
      obtain ⟨nodes, hnodes, hentries⟩ := buildPairs_eq_ok.1 hbuilt
      exact ⟨nodes, _, hnodes, .mapping hentries hn, rfl⟩
    · rintro ⟨nodes, inner, hnodes, hn, rfl⟩
      cases hn with
      | mapping hentries hn => exact ⟨_, buildPairs_eq_ok.2 ⟨nodes, hnodes, hentries⟩, hn⟩
  | pair start key value =>
    rw [build_pair_eq_ok_iff_makes]
    constructor
    · rintro ⟨nodes, hnodes, hn⟩
      exact ⟨nodes, _, hnodes, hn, rfl⟩
    · rintro ⟨nodes, inner, hnodes, hn, rfl⟩
      exact ⟨nodes, hnodes, hn⟩
  | anchored name content =>
    rw [build_anchored_eq_ok]
    constructor
    · rintro ⟨inner, hn, rfl⟩
      exact ⟨[n], inner, .cons hn (by simp) (.nil _), .anchored .., rfl⟩
    · rintro ⟨nodes, inner, hnodes, ⟨⟩, rfl⟩
      rcases hnodes with _ | ⟨hn, -, ⟨⟩⟩
      exact ⟨inner, hn, rfl⟩

/-! ### Failing at a part -/

theorem buildItems_of_failsAll {items : List Outline}
    (h : FailsAll document e (items.map (⟨false, ·⟩)) anchors) :
    buildItems document items anchors = .error e := by
  induction items generalizing anchors with
  | nil => cases h
  | cons item items ih =>
    rw [buildItems]
    cases h with
    | here h => rw [h]
    | later hn _ h => simp only [hn, ih h]

theorem buildPairs_of_failsAll {pairs : List Outline}
    (h : FailsAll document e (pairs.flatMap Outline.entryParts) anchors) :
    buildPairs document pairs anchors = .error e := by
  induction pairs generalizing anchors with
  | nil => cases h
  | cons pair pairs ih =>
    rw [List.flatMap_cons] at h
    by_cases hpair : pair.entryParts = []
    · rw [hpair] at h
      rw [buildPairs_cons_of_skipped (Outline.entryParts_eq_nil_iff.1 hpair), ih h]
    · obtain ⟨start, key, value, rfl, hkey⟩ := Outline.exists_pair_of_entryParts_ne_nil hpair
      rw [buildPairs]
      cases hvalue : value.isAbsent with
      | true =>
        rw [Outline.entryParts_bare _ hkey hvalue] at h
        cases h with
        | here h => simp [hkey, h]
        | later hk hscalar h =>
          obtain ⟨k, rfl⟩ := hscalar rfl
          simp [hkey, hk, ih h]
      | false =>
        rw [Outline.entryParts_full _ hkey hvalue] at h
        cases h with
        | here h => simp [hkey, h]
        | later hk hscalar h =>
          obtain ⟨k, rfl⟩ := hscalar rfl
          cases h with
          | here h => simp [hkey, hk, h]
          | later hv _ h => simp [hkey, hk, hv, ih h]

/-- The first error of its parts is that of the outline. -/
theorem build_of_failsAll {o : Outline} (h : FailsAll document e o.parts anchors) :
    build document o anchors = .error e := by
  cases o with
  | sequence start items =>
    rw [build, buildItems_of_failsAll h]
  | mapping start pairs =>
    rw [build, buildPairs_of_failsAll h]
  | pair start key value =>
    rw [Outline.parts] at h
    rw [build]
    cases hkey : key.isAbsent with
    | true =>
      rw [Outline.entryParts_keyless _ _ hkey] at h
      cases h
    | false =>
      cases hvalue : value.isAbsent with
      | true =>
        rw [Outline.entryParts_bare _ hkey hvalue] at h
        rcases h with h | ⟨-, -, ⟨⟩⟩
        simp [h]
      | false =>
        rw [Outline.entryParts_full _ hkey hvalue] at h
        cases h with
        | here h => simp [h]
        | later hk hscalar h =>
          obtain ⟨k, rfl⟩ := hscalar rfl
          rcases h with h | ⟨-, -, ⟨⟩⟩
          simp [hk, h]
  | anchored name content =>
    rcases h with h | ⟨-, -, ⟨⟩⟩
    rw [build, h]
  | _ => cases h

theorem mergeInto_ne_invalidYaml (entries : Entries) (merges : List Node) :
    mergeInto entries merges ≠ .error .invalidYaml := by
  induction merges generalizing entries with
  | nil => exact fun h => by cases h
  | cons merge rest ih =>
    rw [mergeInto]
    cases merge with
    | mapping position entries => exact ih _
    | sequence position items => exact ih _
    | null position => exact fun h => by cases h
    | scalar value => exact fun h => by cases h

theorem ofPairs_ne_invalidYaml (position : Position) (pairs : Entries) :
    ofPairs position pairs ≠ .error .invalidYaml := by
  unfold ofPairs
  dsimp only
  have hmerge := mergeInto_ne_invalidYaml (partition pairs).1 (partition pairs).2
  cases h : mergeInto (partition pairs).1 (partition pairs).2 with
  | error e =>
    rintro ⟨⟩
    exact hmerge h
  | ok entries => exact fun h => by cases h

/-- What is wrong with an outline is wrong at a position. -/
theorem build_ne_invalidYaml (o : Outline) (anchors : Anchors) :
    build document o anchors ≠ .error .invalidYaml := by
  apply build.induct document (fun o anchors => build document o anchors ≠ .error .invalidYaml)
    (fun pairs anchors => buildPairs document pairs anchors ≠ .error .invalidYaml)
    (fun items anchors => buildItems document items anchors ≠ .error .invalidYaml)
  case case4 =>
    intro anchors start written name n hn
    rw [build, hn]
    simp
  case case5 =>
    intro anchors start written name hn
    rw [build, hn]
    simp
  case case9 =>
    intro anchors start pairs built anchors' hbuilt ih
    have hn := ofPairs_ne_invalidYaml (.ofIndex document start) built
    rw [build, hbuilt]
    cases h : ofPairs (.ofIndex document start) built with
    | error e => simp_all [Except.map]
    | ok n => simp [h, Except.map]
  all_goals
    intros
    simp_all [build, buildItems, buildPairs]

end Node

end WorkflowAudit.Yaml
