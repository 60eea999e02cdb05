import WorkflowAudit.Proofs.Yaml.Merging
import WorkflowAudit.Proofs.Yaml.Placement
import WorkflowAudit.Proofs.Yaml.Spans

/-!
The scalars of a document. Building the tree of a document makes scalars from spans only; aliases and
merges copy them. Main statements: every scalar of a tree stands in its document, and an offset in a
scalar's value leads to the character of the document that is decoded there.
-/

namespace WorkflowAudit.Yaml

variable {document : List Char}

/-! ### Scalars of trees -/

/-- The scalar stands between two places of the document and begins with the mark of its style. -/
def Scalar.StandsIn (document : List Char) (s : Scalar) : Prop :=
  ∃ start stop, s = .ofSpan document s.style start stop ∧ s.style.OpensAt document start

/-- The property holds of all scalars of a node, keys included. -/
inductive Node.All (P : Scalar → Prop) : Node → Prop
  | null (p : Position) : All P (.null p)
  | scalar {s : Scalar} (h : P s) : All P (.scalar s)
  | sequence (p : Position) {items : List Node} (h : ∀ n ∈ items, All P n) :
      All P (.sequence p items)
  | mapping (p : Position) {entries : Entries} (hkeys : ∀ e ∈ entries, P e.1)
      (hvalues : ∀ e ∈ entries, All P e.2) : All P (.mapping p entries)

/-- The property holds of all scalars in the entries. -/
def Entries.All (P : Scalar → Prop) (entries : Entries) : Prop :=
  ∀ e ∈ entries, P e.1 ∧ e.2.All P

namespace Node

variable {P : Scalar → Prop}

theorem All.of_entries (p : Position) {entries : Entries} (h : entries.All P) :
    (Node.mapping p entries).All P :=
  .mapping p (fun e he => (h e he).1) fun e he => (h e he).2

theorem All.entries {p : Position} {entries : Entries} (h : (Node.mapping p entries).All P) :
    entries.All P := by
  cases h with
  | mapping _ hkeys hvalues => exact fun e he => ⟨hkeys e he, hvalues e he⟩

theorem All.entries? {n : Node} (h : n.All P) {entries : Entries} (he : n.entries? = some entries) :
    entries.All P := by
  cases n with
  | mapping p es => cases he; exact h.entries
  | _ => cases he

/-! ### Merges -/

theorem All.lends {n : Node} (h : n.All P) {source : Entries} (hsource : n.Lends source) :
    source.All P := by
  obtain hentries | ⟨items, hitems, m, hm, hentries⟩ := hsource
  · exact h.entries? hentries
  · cases h with
    | sequence _ hall => cases hitems; exact (hall m hm).entries? hentries
    | _ => cases hitems

theorem all_ofPairs {p : Position} {pairs : Entries} (h : pairs.All P) {n : Node}
    (hn : ofPairs p pairs = .ok n) : n.All P := by
  obtain ⟨entries, rfl, hmem⟩ := mem_of_ofPairs hn
  refine .of_entries p fun e he => ?_
  obtain he | ⟨pair, hpair, source, hlends, he⟩ := hmem e he
  · exact h e he
  · exact (h pair hpair).2.lends hlends e he

/-! ### Building -/

/-- The property holds of all scalars of the anchored nodes. -/
def Anchors.All (P : Scalar → Prop) (anchors : Anchors) : Prop :=
  ∀ a ∈ anchors, a.2.All P

theorem standsIn_ofSpan {style : Style} {start : Nat} (h : style.OpensAt document start)
    (stop : Nat) : (Scalar.ofSpan document style start stop).StandsIn document :=
  ⟨start, stop, rfl, h⟩

theorem firstOutline_opened (text : String) : (firstOutline text).Opened text.toList := by
  unfold firstOutline
  split
  · rename_i d ds hds
    exact documents?_opened hds d (List.mem_cons_self ..)
  · exact .absent

/-- The entry of a pair has scalars with the property when its key and its value have such. -/
theorem MakesEntry.all {blank : Scalar → Position} {key value : Outline} {entry : Scalar × Node}
    {anchors anchors' : Anchors} (h : MakesEntry document blank key value anchors entry anchors')
    (hkey : ∀ {m inner}, build document key anchors = .ok (m, inner) → m.All P ∧ inner.All P)
    (hvalue : ∀ {inner v after}, inner.All P →
      build document value inner = .ok (v, after) → v.All P ∧ after.All P) :
    (P entry.1 ∧ entry.2.All P) ∧ anchors'.All P := by
  cases h with
  | bare _ hk =>
    obtain ⟨hscalar, hanchors⟩ := hkey hk
    cases hscalar with
    | scalar hP => exact ⟨⟨hP, .null _⟩, hanchors⟩
  | full _ hk hv =>
    obtain ⟨hscalar, hinner⟩ := hkey hk
    obtain ⟨hnode, hanchors⟩ := hvalue hinner hv
    cases hscalar with
    | scalar hP => exact ⟨⟨hP, hnode⟩, hanchors⟩

mutual

/-- Every scalar of a tree stands in its document. -/
theorem build_all {outline : Outline} (ho : outline.Opened document) {anchors anchors' : Anchors}
    (ha : anchors.All (Scalar.StandsIn document)) {n : Node}
    (h : build document outline anchors = .ok (n, anchors')) :
    n.All (Scalar.StandsIn document) ∧ anchors'.All (Scalar.StandsIn document) := by
  match outline, ho with
  | .absent, _ => rw [build] at h; cases h; exact ⟨.null _, ha⟩
  | .empty start, _ => rw [build] at h; cases h; exact ⟨.null _, ha⟩
  | .scalar style start stop, .scalar hopens _ =>
    rw [build] at h
    cases h
    exact ⟨.scalar (standsIn_ofSpan hopens stop), ha⟩
  | .alias start written, _ =>
    obtain ⟨hn, rfl⟩ := build_alias_eq_ok.1 h
    exact ⟨ha _ (mem_of_lookup hn), ha⟩
  | .sequence start items, .sequence _ hitems =>
    obtain ⟨nodes, hb, rfl⟩ := build_sequence_eq_ok.1 h
    obtain ⟨hnodes, hanchors⟩ := buildItems_all hitems ha hb
    exact ⟨.sequence _ hnodes, hanchors⟩
  | .mapping start pairs, .mapping _ hpairs =>
    obtain ⟨built, hb, hn⟩ := build_mapping_eq_ok.1 h
    obtain ⟨hentries, hanchors⟩ := buildPairs_all hpairs ha hb
    exact ⟨all_ofPairs hentries hn, hanchors⟩
  | .pair start key value, .pair _ hkey hvalue =>
    cases habsent : key.isAbsent with
    | true =>
      rw [build_pair_of_absent habsent] at h
      cases h
      exact ⟨.null _, ha⟩
    | false =>
      obtain ⟨entry, hentry, rfl⟩ := (build_pair_eq_ok habsent).1 h
      obtain ⟨hall, hanchors⟩ := hentry.all (build_all hkey ha) fun hinner => build_all hvalue hinner
      exact ⟨.of_entries _ (List.forall_mem_singleton.2 hall), hanchors⟩
  | .anchored name content, .anchored _ hcontent =>
    obtain ⟨inner, hb, rfl⟩ := build_anchored_eq_ok.1 h
    obtain ⟨hn, hanchors⟩ := build_all hcontent ha hb
    exact ⟨hn, List.forall_mem_cons.2 ⟨hn, hanchors⟩⟩
termination_by sizeOf outline

theorem buildItems_all {items : List Outline} (ho : AllOpened document items)
    {anchors anchors' : Anchors} (ha : anchors.All (Scalar.StandsIn document)) {nodes : List Node}
    (h : buildItems document items anchors = .ok (nodes, anchors')) :
    (∀ n ∈ nodes, n.All (Scalar.StandsIn document)) ∧ anchors'.All (Scalar.StandsIn document) := by
  match items with
  | [] => rw [buildItems] at h; cases h; exact ⟨List.forall_mem_nil _, ha⟩
  | item :: rest =>
    obtain ⟨hitem, hrest⟩ := List.forall_mem_cons.1 ho
    obtain ⟨n, inner, ns, hn, hns, rfl⟩ := buildItems_cons_eq_ok.1 h
    obtain ⟨hnode, hinner⟩ := build_all hitem ha hn
    obtain ⟨hnodes, hanchors⟩ := buildItems_all hrest hinner hns
    exact ⟨List.forall_mem_cons.2 ⟨hnode, hnodes⟩, hanchors⟩
termination_by sizeOf items

theorem buildPairs_all {pairs : List Outline} (ho : AllOpened document pairs)
    {anchors anchors' : Anchors} (ha : anchors.All (Scalar.StandsIn document)) {entries : Entries}
    (h : buildPairs document pairs anchors = .ok (entries, anchors')) :
    entries.All (Scalar.StandsIn document) ∧ anchors'.All (Scalar.StandsIn document) := by
  match pairs with
  | [] => rw [buildPairs] at h; cases h; exact ⟨List.forall_mem_nil _, ha⟩
  | pair :: rest =>
    obtain ⟨hpair, hrest⟩ := List.forall_mem_cons.1 ho
    by_cases hskipped : ∀ start key value, pair = .pair start key value → key.isAbsent = true
    · rw [buildPairs_cons_of_skipped hskipped] at h
      exact buildPairs_all hrest ha h
    · simp only [not_forall, Bool.not_eq_true] at hskipped
      obtain ⟨start, key, value, rfl, hpresent⟩ := hskipped
      obtain ⟨entry, inner, es, hentry, hes, rfl⟩ := (buildPairs_cons_eq_ok hpresent).1 h
      cases hpair with
      | pair _ hkey hvalue =>
        obtain ⟨hall, hinner⟩ := hentry.all (build_all hkey ha) fun hinner => build_all hvalue hinner
        obtain ⟨hentries, hanchors⟩ := buildPairs_all hrest hinner hes
        exact ⟨List.forall_mem_cons.2 ⟨hall, hentries⟩, hanchors⟩
termination_by sizeOf pairs

end

/-- Every scalar of the tree of a text stands in the text. -/
theorem parse_all {text : String} {root : Node} (h : parse text = .ok root) :
    root.All (Scalar.StandsIn text.toList) := by
  obtain ⟨p, rfl⟩ | ⟨anchors, hbuild⟩ := parse_eq_ok h
  · exact .null p
  · exact (build_all (firstOutline_opened text) (List.forall_mem_nil _) hbuild).1

end Node

/-! ### Bodies of scalars -/

/-- The text between two places of the document. -/
def between (document : List Char) (start stop : Nat) : List Char :=
  (document.drop start).take (stop - start)

/-- Where the body of a scalar written as `raw` at an index begins. -/
def bodyIndex (style : Style) (raw : List Char) (start : Nat) : Nat :=
  match style with
  | .plain => start
  | .single | .double => start + 1
  | .literal | .folded => start + (raw.takeWhile (· ≠ '\n')).length + 1

/-- The value of a scalar of the document is written as `body`, which begins at `index`. -/
def Scalar.WrittenAt (document : List Char) (s : Scalar) (index : Nat) (body : List Char) : Prop :=
  ∃ start stop, s = .ofSpan document s.style start stop ∧ s.style.OpensAt document start ∧
    body = (bodyOf s.style (between document start stop) s.position).1 ∧
    index = bodyIndex s.style (between document start stop) start

theorem Scalar.StandsIn.writtenAt {s : Scalar} (h : s.StandsIn document) :
    ∃ index body, s.WrittenAt document index body := by
  obtain ⟨start, stop, hs, hopens⟩ := h
  exact ⟨_, _, start, stop, hs, hopens, rfl, rfl⟩

theorem ofIndex_add (document : List Char) (i n : Nat) : Position.ofIndex document (i + n) =
    ((document.drop i).take n).foldl Position.advance (Position.ofIndex document i) := by
  rw [Position.ofIndex, Position.ofIndex, List.take_add, List.foldl_append]

theorem drop_dropWhile (cs : List Char) (n : Nat) :
    (cs.dropWhile (· ≠ '\n')).drop n = cs.drop ((cs.takeWhile (· ≠ '\n')).length + n) := by
  rw [← List.drop_drop]
  congr 1
  nth_rewrite 3 [← List.takeWhile_append_dropWhile (p := (· ≠ '\n')) (l := cs)]
  rw [List.drop_left]

/-- The body of a scalar is a part of the document. -/
theorem bodyOf_lead (document : List Char) (style : Style) (start stop : Nat) (p : Position) :
    (bodyOf style (between document start stop) p).1 <+:
      document.drop (bodyIndex style (between document start stop) start) := by
  have hdrop (n : Nat) : (between document start stop).drop n <+: document.drop (start + n) := by
    rw [← List.drop_drop]
    exact (List.take_prefix _ _).drop n
  cases style with
  | plain => exact hdrop 0
  | single | double => exact (List.dropLast_prefix _).trans (hdrop 1)
  | literal | folded =>
    rw [bodyOf, drop_dropWhile]
    exact hdrop _

theorem foldl_advance_row {cs : List Char} (h : '\n' ∉ cs) (p : Position) :
    (cs.foldl Position.advance p).line = p.line := by
  induction cs generalizing p with
  | nil => rfl
  | cons c cs ih =>
    rw [List.mem_cons, not_or] at h
    rw [List.foldl_cons, ih h.2, Position.advance, if_neg (Ne.symm h.1)]

theorem ofIndex_succ {document : List Char} {i : Nat} {c : Char} (h : document[i]? = some c) :
    Position.ofIndex document (i + 1) = (Position.ofIndex document i).advance c := by
  rw [ofIndex_add]
  obtain ⟨hlt, rfl⟩ := List.getElem?_eq_some_iff.1 h
  rw [List.drop_eq_getElem_cons hlt]
  rfl

/-- After the first row comes the beginning of the next. -/
theorem ofIndex_after_row {document row : List Char} {start : Nat} (rest : List Char)
    (h : document.drop start = row ++ '\n' :: rest) (hrow : '\n' ∉ row) :
    Position.ofIndex document (start + row.length + 1) =
      ⟨(Position.ofIndex document start).line + 1, 1⟩ := by
  have hbreak : document[start + row.length]? = some '\n' := by
    rw [← List.getElem?_drop, h, List.getElem?_append_right (Nat.le_refl _), Nat.sub_self]
    rfl
  have hline : (Position.ofIndex document (start + row.length)).line =
      (Position.ofIndex document start).line := by
    rw [ofIndex_add, h, List.take_left, foldl_advance_row hrow]
  rw [ofIndex_succ hbreak, Position.advance, if_pos rfl, hline]

/-- The body of a scalar begins where it is said to begin, unless it is empty. -/
theorem bodyOf_begins {document : List Char} {style : Style} {start stop : Nat}
    (hopens : style.OpensAt document start)
    (hne : (bodyOf style (between document start stop) (.ofIndex document start)).1 ≠ []) :
    (bodyOf style (between document start stop) (.ofIndex document start)).2 =
      .ofIndex document (bodyIndex style (between document start stop) start) := by
  cases style with
  | plain => rfl
  | single | double =>
    rw [bodyIndex, ofIndex_succ hopens]
    rfl
  | literal | folded =>
    rw [bodyOf] at hne ⊢
    rw [bodyIndex]
    generalize hraw : between document start stop = raw at hne ⊢
    obtain ⟨rest, hrest⟩ : raw <+: document.drop start := hraw ▸ List.take_prefix _ _
    have hsplit := List.takeWhile_append_dropWhile (p := (· ≠ '\n')) (l := raw)
    cases hdrop : raw.dropWhile (· ≠ '\n') with
    | nil => rw [hdrop] at hne; exact absurd rfl hne
    | cons c more =>
      have hc : c = '\n' := by
        have hhead := List.head?_dropWhile_not (· ≠ '\n') raw
        rw [hdrop] at hhead
        simpa using hhead
      rw [hdrop, hc] at hsplit
      refine (ofIndex_after_row (more ++ rest) ?_ fun hmem => ?_).symm
      · rw [← hrest, ← hsplit, List.append_assoc, List.cons_append, hsplit]
      · have := List.mem_takeWhile_imp hmem
        simp at this

/-- The offset of a visible character of the value leads to the character of the document that it is
    decoded from. -/
theorem Scalar.WrittenAt.positionAt {s : Scalar} {index : Nat} {body : List Char}
    (h : s.WrittenAt document index body) (hstyle : s.style ≠ .double)
    (hink : SameInk s.style body s.value.toList) {k : Nat} {c : Char}
    (hk : s.value.toList[k]? = some c) (hc : ¬Text.isWhite c) :
    ∃ j, DecodesTo s.style body s.value.toList j k ∧ document[index + j]? = some c ∧
      s.positionAt (Text.byteSize (s.value.toList.take k)) = .ofIndex document (index + j) := by
  obtain ⟨start, stop, hs, hopens, hbody, hindex⟩ := h
  have hposition : s.position = .ofIndex document start := congrArg Scalar.position hs
  have hruns : s.runs = align s.style s.value.toList body
      (bodyOf s.style (between document start stop) s.position).2 := by
    rw [hbody, hposition, congrArg Scalar.runs hs, congrArg Scalar.value hs]
    rfl
  obtain ⟨j, hdecodes, hpos⟩ := positionAt_of_sameInk hruns hstyle hink hk hc
  have hj : body[j]? = some c := hdecodes.getElem?_eq.trans hk
  obtain ⟨hlt, -⟩ := List.getElem?_eq_some_iff.1 hj
  obtain ⟨foot, hfoot⟩ : body <+: document.drop index := by
    rw [hbody, hindex]
    exact bodyOf_lead ..
  have hbegins : (bodyOf s.style (between document start stop) s.position).2 =
      .ofIndex document index := by
    rw [hposition] at hbody ⊢
    rw [hindex]
    exact bodyOf_begins hopens (hbody ▸ List.ne_nil_of_length_pos (Nat.zero_lt_of_lt hlt))
  refine ⟨j, hdecodes, ?_, ?_⟩
  · rw [← List.getElem?_drop, ← hfoot, List.getElem?_append_left hlt, hj]
  · rw [hpos, hbegins, ofIndex_add, ← hfoot, List.take_append_of_le_length (Nat.le_of_lt hlt)]
    rfl

end WorkflowAudit.Yaml
