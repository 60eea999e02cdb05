import Mathlib
import WorkflowAudit.Yaml.Node

/-!
How the tree of a document is built. One statement for each kind of outline says when it is built and
what comes of it, so that proofs about trees do not open the building itself; a relation says which
parts of an outline are built on the way, and with which anchors.
-/

namespace WorkflowAudit.Yaml.Node

variable {document : List Char} {anchors anchors' : Anchors} {n : Node}

/-! ### What is built -/

theorem mem_of_lookup {name : String} (h : anchors.lookup name = some n) : (name, n) ∈ anchors := by
  obtain ⟨before, after, rfl, -⟩ := List.lookup_eq_some_iff.1 h
  exact List.mem_append_right _ (List.mem_cons_self ..)

theorem build_alias_eq_ok {start : Nat} {written : String} :
    build document (.alias start written) anchors = .ok (n, anchors') ↔
      anchors.lookup (aliasName written) = some n ∧ anchors' = anchors := by
  unfold build
  dsimp only
  cases anchors.lookup (aliasName written) with
  | none => simp
  | some m => simp [eq_comm]

theorem build_sequence_eq_ok {start : Nat} {items : List Outline} :
    build document (.sequence start items) anchors = .ok (n, anchors') ↔
      ∃ nodes, buildItems document items anchors = .ok (nodes, anchors') ∧
        n = .sequence (.ofIndex document start) nodes := by
  unfold build
  cases buildItems document items anchors with
  | error e => simp
  | ok r => simp [Prod.ext_iff, eq_comm, and_comm]

theorem build_mapping_eq_ok {start : Nat} {pairs : List Outline} :
    build document (.mapping start pairs) anchors = .ok (n, anchors') ↔
      ∃ built, buildPairs document pairs anchors = .ok (built, anchors') ∧
        ofPairs (.ofIndex document start) built = .ok n := by
  unfold build
  cases buildPairs document pairs anchors with
  | error e => simp
  | ok r =>
    cases hn : ofPairs (.ofIndex document start) r.1 with
    | error e => simp [hn, Except.map, Prod.ext_iff]
    | ok m => simp [hn, Except.map, Prod.ext_iff, eq_comm, and_comm]

theorem build_anchored_eq_ok {name : String} {content : Outline} :
    build document (.anchored name content) anchors = .ok (n, anchors') ↔
      ∃ inner, build document content anchors = .ok (n, inner) ∧ anchors' = (name, n) :: inner := by
  rw [build]
  cases build document content anchors with
  | error e => simp
  | ok r =>
    constructor
    · rintro ⟨⟩
      exact ⟨r.2, rfl, rfl⟩
    · rintro ⟨inner, ⟨⟩, rfl⟩
      rfl

/-- The key and the value of a pair are built, and make an entry; where there is no value, a null stands
    at the place that `blank` gives for the key. -/
inductive MakesEntry (document : List Char) (blank : Scalar → Position) (key value : Outline)
    (anchors : Anchors) : Scalar × Node → Anchors → Prop
  | bare {k : Scalar} {anchors' : Anchors} (hvalue : value.isAbsent = true)
      (hk : build document key anchors = .ok (.scalar k, anchors')) :
      MakesEntry document blank key value anchors (k, .null (blank k)) anchors'
  | full {k : Scalar} {v : Node} {inner anchors' : Anchors} (hvalue : value.isAbsent = false)
      (hk : build document key anchors = .ok (.scalar k, inner))
      (hv : build document value inner = .ok (v, anchors')) :
      MakesEntry document blank key value anchors (k, v) anchors'

theorem build_pair_eq_ok {start : Nat} {key value : Outline} (hkey : key.isAbsent = false) :
    build document (.pair start key value) anchors = .ok (n, anchors') ↔
      ∃ entry, MakesEntry document (fun _ => .ofIndex document start) key value anchors entry anchors' ∧
        n = .mapping (.ofIndex document start) [entry] := by
  constructor
  · intro h
    rw [build] at h
    simp only [hkey, Bool.false_eq_true, if_false] at h
    split at h
    · cases h
    · rename_i k inner hk
      split at h
      · rename_i hvalue
        cases h
        exact ⟨_, .bare hvalue hk, rfl⟩
      · rename_i hvalue
        split at h
        · cases h
        · rename_i v outer hv
          cases h
          exact ⟨_, .full (Bool.eq_false_iff.2 hvalue) hk hv, rfl⟩
    · cases h
  · rintro ⟨entry, hentry, rfl⟩
    rw [build]
    cases hentry with
    | bare hvalue hk => simp [hkey, hk, hvalue]
    | full hvalue hk hv => simp [hkey, hk, hvalue, hv]

theorem build_pair_of_absent {start : Nat} {key value : Outline} (hkey : key.isAbsent = true) :
    build document (.pair start key value) anchors = .ok (.null (.ofIndex document start), anchors) := by
  rw [build]
  simp [hkey]

theorem buildItems_cons_eq_ok {item : Outline} {rest : List Outline} {nodes : List Node} :
    buildItems document (item :: rest) anchors = .ok (nodes, anchors') ↔
      ∃ n inner ns, build document item anchors = .ok (n, inner) ∧
        buildItems document rest inner = .ok (ns, anchors') ∧ nodes = n :: ns := by
  rw [buildItems]
  cases build document item anchors with
  | error e => simp
  | ok r =>
    obtain ⟨n, inner⟩ := r
    cases hrest : buildItems document rest inner with
    | error e => simp [hrest]
    | ok s => simp [hrest, Prod.ext_iff, eq_comm, and_comm]

theorem buildPairs_cons_eq_ok {start : Nat} {key value : Outline} {rest : List Outline}
    {entries : Entries} (hkey : key.isAbsent = false) :
    buildPairs document (.pair start key value :: rest) anchors = .ok (entries, anchors') ↔
      ∃ entry inner es, MakesEntry document Scalar.position key value anchors entry inner ∧
        buildPairs document rest inner = .ok (es, anchors') ∧ entries = entry :: es := by
  constructor
  · intro h
    rw [buildPairs] at h
    simp only [hkey, Bool.false_eq_true, if_false] at h
    split at h
    · cases h
    · rename_i k inner hk
      split at h
      · rename_i hvalue
        split at h
        · cases h
        · rename_i es outer hes
          cases h
          exact ⟨_, _, _, .bare hvalue hk, hes, rfl⟩
      · rename_i hvalue
        split at h
        · cases h
        · rename_i v middle hv
          split at h
          · cases h
          · rename_i es outer hes
            cases h
            exact ⟨_, _, _, .full (Bool.eq_false_iff.2 hvalue) hk hv, hes, rfl⟩
    · cases h
  · rintro ⟨entry, inner, es, hentry, hes, rfl⟩
    rw [buildPairs]
    cases hentry with
    | bare hvalue hk => simp [hkey, hk, hvalue, hes]
    | full hvalue hk hv => simp [hkey, hk, hvalue, hv, hes]

/-- A pair without a key is left out, and so is what is no pair. -/
theorem buildPairs_cons_of_skipped {pair : Outline} {rest : List Outline}
    (h : ∀ start key value, pair = .pair start key value → key.isAbsent = true) :
    buildPairs document (pair :: rest) anchors = buildPairs document rest anchors := by
  cases pair with
  | pair start key value =>
    rw [buildPairs]
    simp [h start key value rfl]
  | _ => rw [buildPairs]; simp

/-- The outline of the first document of a text. -/
def firstOutline (text : String) : Outline :=
  match documents? text.toList with
  | some (d :: _) => d.content
  | _ => .absent

/-- The tree of a text is what its first document is built to; a document without content is null. -/
theorem parse_eq_ok {text : String} {root : Node} (h : parse text = .ok root) :
    (∃ p, root = .null p) ∨
      ∃ anchors, build text.toList (firstOutline text) [] = .ok (root, anchors) := by
  unfold parse at h
  unfold firstOutline
  dsimp only at h
  cases hds : documents? text.toList with
  | none => rw [hds] at h; cases h
  | some ds =>
    rw [hds] at h
    cases ds with
    | nil => cases h; exact .inl ⟨_, rfl⟩
    | cons d ds =>
      dsimp only at h ⊢
      unfold ofDocument at h
      split at h
      · cases h
      · split at h
        · cases h; exact .inl ⟨_, rfl⟩
        · cases hb : build text.toList d.content [] with
          | error e => rw [hb] at h; cases h
          | ok r => rw [hb] at h; cases h; exact .inr ⟨r.2, rfl⟩

/-! ### What is built on the way -/

mutual

/-- Building `whole`, with no anchors, comes to an outline with some anchors. -/
inductive ComesTo (document : List Char) (whole : Outline) : Outline → Anchors → Prop
  | whole : ComesTo document whole whole []
  | item {item : Outline} {rest : List Outline} {anchors : Anchors}
      (h : ComesToItems document whole (item :: rest) anchors) : ComesTo document whole item anchors
  | key {start : Nat} {key value : Outline} {rest : List Outline} {anchors : Anchors}
      (h : ComesToPairs document whole (.pair start key value :: rest) anchors)
      (hkey : key.isAbsent = false) : ComesTo document whole key anchors
  | value {start : Nat} {key value : Outline} {rest : List Outline} {anchors inner : Anchors}
      {k : Scalar} (h : ComesToPairs document whole (.pair start key value :: rest) anchors)
      (hkey : key.isAbsent = false) (hvalue : value.isAbsent = false)
      (hk : build document key anchors = .ok (.scalar k, inner)) : ComesTo document whole value inner
  | loneKey {start : Nat} {key value : Outline} {anchors : Anchors}
      (h : ComesTo document whole (.pair start key value) anchors) (hkey : key.isAbsent = false) :
      ComesTo document whole key anchors
  | loneValue {start : Nat} {key value : Outline} {anchors inner : Anchors} {k : Scalar}
      (h : ComesTo document whole (.pair start key value) anchors) (hkey : key.isAbsent = false)
      (hvalue : value.isAbsent = false) (hk : build document key anchors = .ok (.scalar k, inner)) :
      ComesTo document whole value inner
  | content {name : String} {content : Outline} {anchors : Anchors}
      (h : ComesTo document whole (.anchored name content) anchors) :
      ComesTo document whole content anchors

/-- Building `whole` comes to the items of a sequence that are left. -/
inductive ComesToItems (document : List Char) (whole : Outline) : List Outline → Anchors → Prop
  | all {start : Nat} {items : List Outline} {anchors : Anchors}
      (h : ComesTo document whole (.sequence start items) anchors) :
      ComesToItems document whole items anchors
  | rest {item : Outline} {rest : List Outline} {anchors inner : Anchors} {n : Node}
      (h : ComesToItems document whole (item :: rest) anchors)
      (hn : build document item anchors = .ok (n, inner)) : ComesToItems document whole rest inner

/-- Building `whole` comes to the pairs of a mapping that are left. -/
inductive ComesToPairs (document : List Char) (whole : Outline) : List Outline → Anchors → Prop
  | all {start : Nat} {pairs : List Outline} {anchors : Anchors}
      (h : ComesTo document whole (.mapping start pairs) anchors) :
      ComesToPairs document whole pairs anchors
  | skipped {pair : Outline} {rest : List Outline} {anchors : Anchors}
      (h : ComesToPairs document whole (pair :: rest) anchors)
      (hpair : ∀ start key value, pair = .pair start key value → key.isAbsent = true) :
      ComesToPairs document whole rest anchors
  | rest {start : Nat} {key value : Outline} {rest : List Outline} {anchors inner : Anchors}
      {entry : Scalar × Node} (h : ComesToPairs document whole (.pair start key value :: rest) anchors)
      (hkey : key.isAbsent = false)
      (hentry : MakesEntry document Scalar.position key value anchors entry inner) :
      ComesToPairs document whole rest inner

end

end WorkflowAudit.Yaml.Node
