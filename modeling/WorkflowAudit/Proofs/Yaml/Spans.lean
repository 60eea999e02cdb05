import Mathlib
import WorkflowAudit.Yaml.Outline.Document

/-!
Where the scalars and names of an outline begin. A reader moves a cursor through the document and never
away from it: what follows the cursor is what follows its index in the document. Main statement: every
scalar in the outline of a document begins with the mark of its style, and the names of aliases and
anchors stand after theirs.
-/

namespace WorkflowAudit.Yaml

variable {document : List Char}

/-! ### Cursors -/

/-- The cursor stands in the document: what follows it is what follows its index. -/
def Cursor.In (document : List Char) (c : Cursor) : Prop :=
  c.rest = document.drop c.index

namespace Cursor.In

variable {c : Cursor}

theorem along (h : c.In document) (n : Nat) : (c.along n).In document := by
  rw [Cursor.In] at h ⊢
  rw [Cursor.along, h, List.drop_drop]

theorem tail {x : Char} {rest : List Char} {i r col : Nat} (h : Cursor.In document ⟨x :: rest, i, r, col⟩)
    (r' col' : Nat) : Cursor.In document ⟨rest, i + 1, r', col'⟩ := by
  rw [Cursor.In] at h ⊢
  have hdrop := congrArg (List.drop 1) h
  rwa [List.drop_drop] at hdrop

theorem skipWhite (h : c.In document) : c.skipWhite.In document := by
  fun_induction Cursor.skipWhite c with
  | case1 x rest i r col hx ih => exact ih (h.tail _ _)
  | case2 x rest i r col hx hblank ih => exact ih (h.tail _ _)
  | case3 x rest i r col hx hblank => exact h
  | case4 c hc => exact h

theorem afterComment (h : c.In document) : (afterComment c).In document := by
  unfold Yaml.afterComment
  dsimp only
  split
  · exact h.along _
  · exact h

theorem plainEnd {inFlow : Bool} {column : Int} {mark : Cursor} {fuel : Nat} {seen : Cursor}
    (hmark : mark.In document) (hseen : seen.In document) :
    (plainEnd inFlow column mark fuel seen).In document := by
  fun_induction Yaml.plainEnd inFlow column mark fuel seen with
  | case1 => exact hmark
  | case2 => exact hmark
  | case3 mark seen fuel x hx hbreak at_ hstop m n hrow ih =>
    refine ih ?_ (hseen.skipWhite.along n)
    split
    · exact hmark
    · exact hseen.skipWhite.along m
  | case4 => exact hmark
  | case5 => exact hmark

end Cursor.In

theorem skipGap_in {comments : Bool} {row col index r c spaces : Nat} {tab : Bool} {cs : List Char}
    (h : cs = document.drop index) :
    (skipGap comments row col index r c spaces tab cs).cursor.In document := by
  have htail {x : Char} {rest : List Char} {i : Nat} (h : x :: rest = document.drop i) (n : Nat) :
      rest.drop n = document.drop (i + 1 + n) := by
    rw [← List.drop_drop, ← List.drop_drop, ← h]
    rfl
  fun_induction skipGap comments row col index r c spaces tab cs with
  | case1 => exact h
  | case2 row col index r c spaces tab rest ih => exact ih (htail h 0)
  | case3 row col index r c spaces tab rest _ ih => exact ih (htail h 0)
  | case4 row col index r c spaces tab x rest _ _ _ ih => exact ih (htail h 0)
  | case5 row col index r c spaces tab x rest _ _ _ _ n ih => exact ih (htail h n)
  | case6 => exact h

theorem Layout.look_in {s : Layout} (h : s.cursor.In document) : s.look.cursor.In document :=
  skipGap_in h

theorem Layout.lookQuoted_in {s : Layout} (h : s.cursor.In document) :
    s.lookQuoted.cursor.In document :=
  skipGap_in h

theorem quotedEnd?_in {double : Bool} {s : Layout} {fuel : Nat} {c stop : Cursor}
    (h : c.In document) (hstop : quotedEnd? double s fuel c = some stop) : stop.In document := by
  induction fuel generalizing c with
  | zero => cases hstop
  | succ fuel ih =>
    have hlook := Layout.lookQuoted_in (s := { s with cursor := c }) h
    rw [quotedEnd?] at hstop
    dsimp only at hstop
    split at hstop
    · cases hstop
    · split at hstop
      · cases hstop
      · split at hstop
        · cases hstop; exact hlook.along 1
        · split at hstop
          · split at hstop
            · exact ih (hlook.along _) hstop
            · cases hstop
          · split at hstop
            · split at hstop
              · exact ih (hlook.along _) hstop
              · cases hstop; exact hlook.along 1
            · split at hstop
              · cases hstop
              · exact ih (hlook.along _) hstop

theorem textEnd?_in {s : Layout} {fuel : Nat} {c stop : Cursor} (h : c.In document)
    (hstop : textEnd? s fuel c = some stop) : stop.In document := by
  induction fuel generalizing c with
  | zero => cases hstop
  | succ fuel ih =>
    have hlook := Layout.lookQuoted_in (s := { s with cursor := c }) h
    rw [textEnd?] at hstop
    split at hstop
    · cases hstop; exact hlook
    · split at hstop
      · cases hstop; exact h
      · split at hstop
        · cases hstop
        · exact ih (hlook.along _) hstop

/-! ### Readers -/

namespace Reader

variable {α β : Type} {P : α → Prop} {Q : β → Prop}

/-- What the reader gives has the property, and it ends in the document, if it begins there. -/
structure Gives (document : List Char) (P : α → Prop) (r : Reader α) : Prop where
  of_run : ∀ {s s' : Layout} {a : α}, s.cursor.In document → r s = some (a, s') →
    s'.cursor.In document ∧ P a

namespace Gives

theorem pure {a : α} (h : P a) : Gives document P (Pure.pure a : Reader α) where
  of_run hs heq := by
    cases heq
    exact ⟨hs, h⟩

theorem bind {r : Reader α} {f : α → Reader β} (hr : Gives document P r)
    (hf : ∀ a, P a → Gives document Q (f a)) : Gives document Q (r >>= f) where
  of_run hs heq := by
    obtain ⟨⟨a, t⟩, ha, hb⟩ := Option.bind_eq_some_iff.1 heq
    obtain ⟨ht, hP⟩ := hr.of_run hs ha
    exact (hf a hP).of_run ht hb

theorem failure : Gives document P (Alternative.failure : Reader α) where
  of_run _ heq := by cases heq

theorem ite {b : Bool} {r r' : Reader α} (h : b → Gives document P r)
    (h' : b = false → Gives document P r') : Gives document P (if b then r else r') := by
  cases b with
  | true => exact h rfl
  | false => exact h' rfl

theorem orElse {r r' : Reader α} (h : Gives document P r) (h' : Gives document P r') :
    Gives document P (r <|> r') where
  of_run {s s' a} hs heq := by
    have hrun : (r s <|> r' s) = some (a, s') := heq
    cases hr : r s with
    | some x =>
      rw [hr] at hrun
      cases hrun
      exact h.of_run hs hr
    | none =>
      rw [hr] at hrun
      exact h'.of_run hs hrun

end Gives

/-- What lies ahead stands in the document too. -/
theorem look_gives : Gives document (·.cursor.In document) look where
  of_run hs heq := by
    cases heq
    exact ⟨hs, Layout.look_in hs⟩

theorem get_gives : Gives document (·.cursor.In document) (get : Reader Layout) where
  of_run hs heq := by
    cases heq
    exact ⟨hs, hs⟩

theorem moveTo_gives {c : Cursor} (h : c.In document) : Gives document (fun _ => True) (moveTo c) where
  of_run _ heq := by
    cases heq
    exact ⟨h, trivial⟩

theorem modify_gives {f : Layout → Layout} (h : ∀ s, (f s).cursor = s.cursor) :
    Gives document (fun _ => True) (modify f : Reader Unit) where
  of_run {s _ _} hs heq := by
    cases heq
    exact ⟨(h s).symm ▸ hs, trivial⟩

theorem openBlock_gives (kind : IndentKind) (col : Int) :
    Gives document (fun _ => True) (openBlock kind col) :=
  modify_gives fun _ => rfl

theorem closeBlock_gives : Gives document (fun _ => True) closeBlock :=
  modify_gives fun _ => rfl

theorem require_gives (b : Bool) : Gives document (fun _ => b = true) (require b) :=
  .ite (fun h => .pure h) fun _ => .failure

theorem noteKey_gives (l : Look) : Gives document (fun _ => True) (noteKey l) :=
  modify_gives fun s => by split <;> rfl

theorem openForKey_gives : Gives document (fun _ => True) openForKey := by
  refine .bind get_gives fun s _ => ?_
  split
  · exact .bind (require_gives _) fun _ _ => openBlock_gives ..
  · exact .pure trivial

end Reader

/-! ### Scalars -/

/-- The mark of the style stands at a place of the document; plain scalars have none. -/
def Style.OpensAt (document : List Char) (start : Nat) : Style → Prop
  | plain => True
  | single => document[start]? = some '\''
  | double => document[start]? = some '"'
  | literal => document[start]? = some '|'
  | folded => document[start]? = some '>'

/-- A mark stands at a place of the document, and after it a name, as far as it goes. -/
structure NamedAt (document : List Char) (mark : Char) (start : Nat) (name : String) : Prop where
  opens : document[start]? = some mark
  name_eq : name.toList = (document.drop (start + 1)).takeWhile isAnchorChar
  ne_empty : name ≠ ""

/-- Every scalar of the outline begins with the mark of its style, and names are written after theirs. -/
inductive Outline.Opened (document : List Char) : Outline → Prop
  | absent : Opened document .absent
  | empty (start : Nat) : Opened document (.empty start)
  | scalar {style : Style} {start : Nat} (h : style.OpensAt document start) (stop : Nat) :
      Opened document (.scalar style start stop)
  | alias {start : Nat} {name : String} (h : NamedAt document '*' start name) :
      Opened document (.alias start name)
  | sequence (start : Nat) {items : List Outline} (h : ∀ item ∈ items, Opened document item) :
      Opened document (.sequence start items)
  | mapping (start : Nat) {pairs : List Outline} (h : ∀ pair ∈ pairs, Opened document pair) :
      Opened document (.mapping start pairs)
  | pair (start : Nat) {key value : Outline} (hkey : Opened document key)
      (hvalue : Opened document value) : Opened document (.pair start key value)
  | anchored {name : String} {content : Outline} (hname : ∃ start, NamedAt document '&' start name)
      (h : Opened document content) : Opened document (.anchored name content)

open Reader (Gives look_gives get_gives moveTo_gives require_gives noteKey_gives)

variable {l : Look}

theorem getElem?_of_char? {c : Cursor} {x : Char} (hc : c.In document) (h : c.char? = some x) :
    document[c.index]? = some x := by
  rw [Cursor.char?, hc, List.head?_drop] at h
  exact h

theorem namedAt_of_char? {c : Cursor} {mark : Char} (hc : c.In document) (hmark : c.char? = some mark)
    (hname : (!((c.rest.drop 1).takeWhile isAnchorChar).isEmpty) = true) :
    NamedAt document mark c.index (.ofList ((c.rest.drop 1).takeWhile isAnchorChar)) where
  opens := getElem?_of_char? hc hmark
  name_eq := by
    rw [String.toList_ofList, hc, List.drop_drop]
  ne_empty h := by
    rw [String.ofList_eq_empty_iff] at h
    rw [h] at hname
    cases hname

theorem readPlain_gives (inFlow : Bool) (hl : l.cursor.In document) :
    Gives document (Outline.Opened document) (readPlain inFlow l) := by
  unfold readPlain
  split
  · refine .bind (require_gives _) fun _ _ => .bind get_gives fun s _ => ?_
    refine .bind (moveTo_gives (.plainEnd (hl.along _) (hl.along _))) fun _ _ => .pure ?_
    exact .scalar (show Style.plain.OpensAt document _ from trivial) _
  · exact .failure

theorem readQuoted_gives (hl : l.cursor.In document)
    (hquote : l.cursor.char? = some '"' ∨ l.cursor.char? = some '\'') :
    Gives document (Outline.Opened document) (readQuoted l) := by
  have hopens : (if l.isChar '"' then Style.double else .single).OpensAt document l.cursor.index := by
    rcases hquote with h | h
    · rw [Look.isChar, h]
      exact getElem?_of_char? hl h
    · rw [Look.isChar, h]
      exact getElem?_of_char? hl h
  refine .bind get_gives fun s _ => ?_
  split
  · rename_i stop hstop
    refine .bind (moveTo_gives (quotedEnd?_in (hl.along 1) hstop)) fun _ _ => .pure ?_
    exact .scalar hopens _
  · exact .failure

theorem readText_gives (hl : l.cursor.In document) (hmark : l.isChar '|' || l.isChar '>') :
    Gives document (Outline.Opened document) (readText l) := by
  have hopens : (if l.isChar '|' then Style.literal else .folded).OpensAt document l.cursor.index := by
    simp only [Look.isChar, Bool.or_eq_true, decide_eq_true_eq] at hmark ⊢
    split
    · rename_i h
      exact getElem?_of_char? hl h
    · rename_i h
      exact getElem?_of_char? hl (hmark.resolve_left h)
  unfold readText
  obtain ⟨explicit, width⟩ := textIndicators (l.cursor.rest.drop 1)
  refine .bind (require_gives _) fun _ _ => .bind get_gives fun s _ => .bind get_gives fun s' _ => ?_
  dsimp only
  split
  · rename_i stop hstop
    refine .bind (moveTo_gives (textEnd?_in (.afterComment (hl.along _)) hstop)) fun _ _ => .pure ?_
    exact .scalar hopens _
  · exact .failure

/-! ### Properties -/

/-- The anchor, when there is one, is written after its mark. -/
def Properties.Opened (document : List Char) (p : Properties) : Prop :=
  ∀ name ∈ p.anchor, ∃ start, NamedAt document '&' start name

namespace Properties.Opened

variable {p q both : Properties}

theorem merge? (hp : p.Opened document) (hq : q.Opened document) (h : p.merge? q = some both) :
    both.Opened document := by
  unfold Properties.merge? at h
  split at h
  · cases h
  · cases h
    intro name hname
    rcases Option.or_eq_some_iff.1 hname with h | ⟨-, h⟩
    · exact hp name h
    · exact hq name h

theorem attach (hp : p.Opened document) {content : Outline} (h : content.Opened document) :
    (p.attach content).Opened document := by
  unfold Properties.attach
  split
  · rename_i name hname
    exact .anchored (hp name hname) h
  · exact h

theorem alone (hp : p.Opened document) : p.alone.Opened document :=
  hp.attach (.empty _)

end Properties.Opened

theorem readProperty_gives (hl : l.cursor.In document) :
    Gives document (Properties.Opened document) (readProperty l) := by
  refine .bind (noteKey_gives l) fun _ _ => .ite (fun hmark => ?_) fun _ => ?_
  · refine .bind (require_gives _) fun _ hname => .bind (moveTo_gives (hl.along _)) fun _ _ => ?_
    refine .pure fun name hanchor => ?_
    cases hanchor
    exact ⟨_, namedAt_of_char? hl (of_decide_eq_true hmark) hname⟩
  · split
    · exact .bind (moveTo_gives (hl.along _)) fun _ _ => .pure fun name hname => by cases hname
    · exact .failure

theorem readProperties_gives (hl : l.cursor.In document) :
    Gives document (Properties.Opened document) (readProperties l) := by
  refine .bind (readProperty_gives hl) fun first hfirst => .bind look_gives fun m hm => ?_
  refine .ite (fun _ => ?_) fun _ => .pure hfirst
  refine .bind (readProperty_gives hm) fun second hsecond => ?_
  split
  · rename_i hboth
    exact .pure (hfirst.merge? hsecond hboth)
  · exact .failure

/-! ### Flow nodes -/

/-- All scalars in the outlines of a list begin with their marks. -/
def AllOpened (document : List Char) (items : List Outline) : Prop :=
  ∀ item ∈ items, item.Opened document

theorem AllOpened.cons {item : Outline} {items : List Outline} (h : item.Opened document)
    (hitems : AllOpened document items) : AllOpened document (item :: items) :=
  List.forall_mem_cons.2 ⟨h, hitems⟩

theorem AllOpened.reverse {items : List Outline} (h : AllOpened document items) :
    AllOpened document items.reverse :=
  fun item hitem => h item (List.mem_reverse.1 hitem)

/-- What the readers of flow nodes give with some fuel. -/
structure FlowGives (document : List Char) (fuel : Nat) : Prop where
  content {l : Look} (inFlow : Bool) : l.cursor.In document →
    Gives document (·.outline.Opened document) (readContent fuel inFlow l)
  items {items : List Outline} (isMap : Bool) : AllOpened document items →
    Gives document (AllOpened document) (readItems fuel isMap items)
  item {l : Look} (isMap : Bool) : l.cursor.In document →
    Gives document (Outline.Opened document) (readItem fuel isMap l)
  value {l : Look} (colon : Bool) : l.cursor.In document →
    Gives document (Outline.Opened document) (readValue fuel colon l)
  node {l : Look} : l.cursor.In document →
    Gives document (·.outline.Opened document) (readFlowNode fuel l)

namespace FlowGives

variable {fuel : Nat} (h : FlowGives document fuel)

include h

theorem content_succ (inFlow : Bool) (hl : l.cursor.In document) :
    Gives document (·.outline.Opened document) (readContent (fuel + 1) inFlow l) := by
  refine .bind (noteKey_gives l) fun _ _ => ?_
  split
  · rename_i hmark
    refine .bind (require_gives _) fun _ hname => .bind (moveTo_gives (hl.along _)) fun _ _ => ?_
    exact .pure (.alias (namedAt_of_char? hl hmark hname))
  · rename_i hquote
    exact .bind (readQuoted_gives hl (.inl hquote)) fun _ hopened => .pure hopened
  · rename_i hquote
    exact .bind (readQuoted_gives hl (.inr hquote)) fun _ hopened => .pure hopened
  · refine .bind (moveTo_gives (hl.along 1)) fun _ _ => ?_
    exact .bind (h.items false (List.forall_mem_nil _)) fun _ hitems => .pure (.sequence _ hitems)
  · refine .bind (moveTo_gives (hl.along 1)) fun _ _ => ?_
    exact .bind (h.items true (List.forall_mem_nil _)) fun _ hitems => .pure (.mapping _ hitems)
  · exact .bind (readPlain_gives inFlow hl) fun _ hopened => .pure hopened

theorem items_succ {items : List Outline} (isMap : Bool) (hitems : AllOpened document items) :
    Gives document (AllOpened document) (readItems (fuel + 1) isMap items) := by
  refine .bind look_gives fun l hl => .bind get_gives fun _ _ => .ite (fun _ => ?_) fun _ => ?_
  · exact .bind (moveTo_gives (hl.along 1)) fun _ _ => .pure hitems.reverse
  · refine .bind get_gives fun _ _ => .bind (require_gives _) fun _ _ => ?_
    refine .bind (h.item isMap hl) fun item hitem => .bind look_gives fun m hm => ?_
    refine .bind get_gives fun _ _ => .ite (fun _ => ?_) fun _ => ?_
    · exact .bind (moveTo_gives (hm.along 1)) fun _ _ => .pure (hitems.cons hitem).reverse
    · refine .bind get_gives fun _ _ => .bind (require_gives _) fun _ _ => ?_
      exact .bind (moveTo_gives (hm.along 1)) fun _ _ => h.items isMap (hitems.cons hitem)

theorem item_succ (isMap : Bool) (hl : l.cursor.In document) :
    Gives document (Outline.Opened document) (readItem (fuel + 1) isMap l) := by
  refine .ite (fun _ => ?_) fun _ => .ite (fun _ => ?_) fun _ => ?_
  · refine .bind (moveTo_gives (hl.along 1)) fun _ _ => .bind look_gives fun m hm => ?_
    refine .ite (fun _ => ?_) fun _ => ?_
    · exact .bind (h.value _ hm) fun _ hvalue => .pure (.pair _ .absent hvalue)
    · refine .bind get_gives fun _ _ => .bind (require_gives _) fun _ _ => ?_
      refine .bind (h.node hm) fun key hkey => .bind look_gives fun m' hm' => ?_
      refine .bind get_gives fun _ _ => ?_
      exact .bind (h.value _ hm') fun _ hvalue => .pure (.pair _ hkey hvalue)
  · exact .bind (h.value true hl) fun _ hvalue => .pure (.pair _ .absent hvalue)
  · refine .bind (h.node hl) fun node hnode => .bind get_gives fun _ _ => ?_
    refine .bind look_gives fun m hm => .bind get_gives fun _ _ => .ite (fun _ => ?_) fun _ => ?_
    · exact .bind (h.value _ hm) fun _ hvalue => .pure (.pair _ hnode hvalue)
    · exact .pure hnode

theorem value_succ (colon : Bool) (hl : l.cursor.In document) :
    Gives document (Outline.Opened document) (readValue (fuel + 1) colon l) := by
  refine .ite (fun _ => ?_) fun _ => .pure .absent
  refine .bind (moveTo_gives (hl.along 1)) fun _ _ => .bind look_gives fun m hm => ?_
  refine .ite (fun _ => .pure .absent) fun _ => ?_
  refine .bind get_gives fun _ _ => .bind (require_gives _) fun _ _ => ?_
  exact .bind (h.node hm) fun _ hnode => .pure hnode

/-- What follows the properties of a flow node. -/
theorem after_properties {both : Properties} (hboth : both.Opened document) :
    Gives document (·.outline.Opened document) (do
      let m ← Reader.look
      let node (outline : Outline) (delimited : Bool) : FlowNode :=
        ⟨both.attach outline, both.start, both.row, delimited⟩
      if m.atItemEnd || m.atFlowColon then return node (.empty both.start) false
      Reader.require (m.isInside (← get) && !m.isChar '*')
      let content ← readContent fuel true m
      return node content.outline content.delimited) := by
  refine .bind look_gives fun m hm => .ite (fun _ => .pure hboth.alone) fun _ => ?_
  refine .bind get_gives fun _ _ => .bind (require_gives _) fun _ _ => ?_
  exact .bind (h.content true hm) fun _ hcontent => .pure (hboth.attach hcontent)

theorem node_succ (hl : l.cursor.In document) :
    Gives document (·.outline.Opened document) (readFlowNode (fuel + 1) l) := by
  refine .ite (fun _ => ?_) fun _ => h.content true hl
  refine .bind (readProperties_gives hl) fun first hfirst => .bind look_gives fun m hm => ?_
  refine .bind get_gives fun s _ => .ite (fun _ => ?_) fun _ => h.after_properties hfirst
  refine .bind (readProperty_gives hm) fun second hsecond => ?_
  split
  · rename_i hboth
    exact h.after_properties (hfirst.merge? hsecond hboth)
  · exact .failure

end FlowGives

theorem flowGives (document : List Char) (fuel : Nat) : FlowGives document fuel := by
  induction fuel with
  | zero => exact ⟨fun _ _ => .failure, fun _ _ => .failure, fun _ _ => .failure,
      fun _ _ => .failure, fun _ => .failure⟩
  | succ fuel ih => exact ⟨ih.content_succ, ih.items_succ, ih.item_succ, ih.value_succ, ih.node_succ⟩

/-! ### Block nodes -/

open Reader (openBlock_gives closeBlock_gives openForKey_gives)

theorem keyEnds_gives (row : Nat) : Gives document (fun _ => True) (keyEnds row) :=
  .bind get_gives fun _ _ => .bind look_gives fun _ _ => .pure trivial

/-- What the readers of block nodes give with some fuel. -/
structure BlockGives (document : List Char) (fuel : Nat) : Prop where
  node (slot : Slot) : Gives document (Outline.Opened document) (readNode fuel slot)
  nodeAt {l : Look} (collections : Bool) : l.cursor.In document →
    Gives document (Outline.Opened document) (readAt fuel l collections)
  withProperties {p : Properties} (collections : Bool) : p.Opened document →
    Gives document (Outline.Opened document) (readWithProperties fuel p collections)
  keyWithProperties {l : Look} : l.cursor.In document →
    Gives document (Outline.Opened document) (readKeyWithProperties fuel l)
  keyed {key : Outline} (start : Nat) : key.Opened document →
    Gives document (Outline.Opened document) (readKeyed fuel start key)
  sequence {l : Look} : l.cursor.In document →
    Gives document (Outline.Opened document) (readSequence fuel l)
  dashes {items : List Outline} (start dash : Nat) : AllOpened document items →
    Gives document (Outline.Opened document) (readDashes fuel start dash items)
  mapping {pairs : List Outline} (start : Nat) : AllOpened document pairs →
    Gives document (Outline.Opened document) (readMapping fuel start pairs)
  pair {l : Look} : l.cursor.In document →
    Gives document (Outline.Opened document) (readPair fuel l)

namespace BlockGives

variable {fuel : Nat} (h : BlockGives document fuel)

include h

theorem node_succ (slot : Slot) :
    Gives document (Outline.Opened document) (readNode (fuel + 1) slot) := by
  rw [readNode]
  refine .bind look_gives fun l hl => .bind get_gives fun s _ => ?_
  refine .ite (fun _ => .pure .absent) fun _ => .ite (fun _ => h.nodeAt _ hl) fun _ => ?_
  refine .ite (fun _ => h.nodeAt _ hl) fun _ => ?_
  exact .ite (fun _ => h.sequence hl) fun _ => .pure .absent

theorem nodeAt_succ (collections : Bool) (hl : l.cursor.In document) :
    Gives document (Outline.Opened document) (readAt (fuel + 1) l collections) := by
  rw [readAt]
  refine .ite (fun _ => ?_) fun _ => .ite (fun _ => ?_) fun _ => .ite (fun hmark => ?_) fun _ =>
    .ite (fun _ => ?_) fun _ => ?_
  · exact .bind (require_gives _) fun _ _ => h.sequence hl
  · exact .bind (openBlock_gives _ _) fun _ _ => h.mapping _ (List.forall_mem_nil _)
  · exact readText_gives hl hmark
  · exact .bind (readProperties_gives hl) fun p hp => h.withProperties _ hp
  · refine .bind ((flowGives document fuel).content false hl) fun node hnode => ?_
    refine .bind (keyEnds_gives _) fun _ _ => .ite (fun _ => h.keyed _ hnode) fun _ => ?_
    exact .pure hnode

theorem withProperties_succ {p : Properties} (collections : Bool) (hp : p.Opened document) :
    Gives document (Outline.Opened document) (readWithProperties (fuel + 1) p collections) := by
  have hattach {r : Reader Outline} (hr : Gives document (Outline.Opened document) r) :
      Gives document (Outline.Opened document) (do return p.attach (← r)) :=
    .bind hr fun _ hcontent => .pure (hp.attach hcontent)
  rw [readWithProperties]
  refine .bind look_gives fun l hl => .bind get_gives fun s _ => ?_
  have hcontent := (flowGives document fuel).content false hl
  refine .ite (fun _ => .pure hp.alone) fun _ => .ite (fun _ => ?_) fun _ =>
    .ite (fun _ => ?_) fun _ => .ite (fun _ => ?_) fun _ => ?_
  · -- on the row of the properties
    refine .ite (fun hmark => hattach (readText_gives hl hmark)) fun _ => ?_
    refine .bind (keyEnds_gives _) fun _ _ => .ite (fun _ => h.keyed _ hp.alone) fun _ => ?_
    refine .bind (require_gives _) fun _ _ => .bind hcontent fun node hnode => ?_
    refine .bind (keyEnds_gives _) fun _ _ => .ite (fun _ => ?_) fun _ => ?_
    · exact h.keyed _ (hp.attach hnode)
    · exact .pure (hp.attach hnode)
  · -- on a deeper row
    refine .ite (fun _ => hattach (h.nodeAt true hl)) fun _ => .ite (fun _ => ?_) fun _ => ?_
    · refine .orElse (hattach (h.keyWithProperties hl)) (.bind (readProperty_gives hl) fun q hq => ?_)
      split
      · rename_i hboth
        exact h.withProperties false (hp.merge? hq hboth)
      · exact .failure
    · refine .bind hcontent fun node hnode => .bind (keyEnds_gives _) fun _ _ => ?_
      refine .ite (fun _ => hattach (h.keyed _ hnode)) fun _ => ?_
      exact .bind (require_gives _) fun _ _ => .pure (hp.attach hnode)
  · exact hattach (h.sequence hl)
  · exact .pure hp.alone

theorem keyWithProperties_succ (hl : l.cursor.In document) :
    Gives document (Outline.Opened document) (readKeyWithProperties (fuel + 1) l) := by
  rw [readKeyWithProperties]
  refine .bind (readProperties_gives hl) fun p hp => .bind look_gives fun m hm => ?_
  refine .bind (require_gives _) fun _ _ => .ite (fun _ => ?_) fun _ => ?_
  · refine .bind (keyEnds_gives _) fun _ _ => .bind (require_gives _) fun _ _ => ?_
    exact h.keyed _ hp.alone
  · refine .bind ((flowGives document fuel).content false hm) fun node hnode => ?_
    refine .bind (keyEnds_gives _) fun _ _ => .bind (require_gives _) fun _ _ => ?_
    exact h.keyed _ (hp.attach hnode)

theorem keyed_succ {key : Outline} (start : Nat) (hkey : key.Opened document) :
    Gives document (Outline.Opened document) (readKeyed (fuel + 1) start key) := by
  rw [readKeyed]
  refine .bind openForKey_gives fun _ _ => .bind look_gives fun l hl => ?_
  refine .bind (moveTo_gives (hl.along 1)) fun _ _ => .bind (h.node .value) fun value hvalue => ?_
  exact h.mapping start (List.forall_mem_singleton.2 (.pair _ hkey hvalue))

theorem sequence_succ (hl : l.cursor.In document) :
    Gives document (Outline.Opened document) (readSequence (fuel + 1) l) := by
  rw [readSequence]
  refine .bind (openBlock_gives _ _) fun _ _ => .bind (moveTo_gives (hl.along 1)) fun _ _ => ?_
  exact h.dashes _ _ (List.forall_mem_nil _)

theorem dashes_succ {items : List Outline} (start dash : Nat) (hitems : AllOpened document items) :
    Gives document (Outline.Opened document) (readDashes (fuel + 1) start dash items) := by
  rw [readDashes]
  have hdash (item : Outline) : item.Opened document →
      Outline.Opened document (if item.isAbsent then .empty dash else item) := by
    intro hitem
    split
    · exact .empty dash
    · exact hitem
  refine .bind (h.node .item) fun item hitem => .bind look_gives fun l hl => ?_
  have hall := hitems.cons (hdash item hitem)
  refine .bind get_gives fun _ _ => .ite (fun _ => ?_) fun _ => ?_
  · exact .bind closeBlock_gives fun _ _ => .pure (.sequence _ hall.reverse)
  · refine .bind get_gives fun _ _ => .bind (require_gives _) fun _ _ => ?_
    exact .bind (moveTo_gives (hl.along 1)) fun _ _ => h.dashes _ _ hall

theorem mapping_succ {pairs : List Outline} (start : Nat) (hpairs : AllOpened document pairs) :
    Gives document (Outline.Opened document) (readMapping (fuel + 1) start pairs) := by
  rw [readMapping]
  refine .bind look_gives fun l hl => .bind get_gives fun s _ => .ite (fun _ => ?_) fun _ => ?_
  · exact .bind closeBlock_gives fun _ _ => .pure (.mapping _ hpairs.reverse)
  · refine .bind (require_gives _) fun _ _ => .bind (h.pair hl) fun pair hpair => ?_
    exact h.mapping start (hpairs.cons hpair)

/-- What follows an implicit key. -/
theorem after_key {key : Outline} (start row : Nat) (hkey : key.Opened document) :
    Gives document (Outline.Opened document) (do
      Reader.require (← keyEnds row)
      Reader.openForKey
      let m ← Reader.look
      Reader.moveTo (m.cursor.along 1)
      return .pair start key (← readNode fuel .value)) := by
  refine .bind (keyEnds_gives _) fun _ _ => .bind (require_gives _) fun _ _ => ?_
  refine .bind openForKey_gives fun _ _ => .bind look_gives fun m hm => ?_
  refine .bind (moveTo_gives (hm.along 1)) fun _ _ => ?_
  exact .bind (h.node .value) fun _ hvalue => .pure (.pair _ hkey hvalue)

theorem pair_succ (hl : l.cursor.In document) :
    Gives document (Outline.Opened document) (readPair (fuel + 1) l) := by
  rw [readPair]
  refine .ite (fun _ => ?_) fun _ => .ite (fun _ => ?_) fun _ => ?_
  · refine .bind (moveTo_gives (hl.along 1)) fun _ _ => .bind (h.node .explicit) fun key hkey => ?_
    refine .bind look_gives fun m hm => .bind get_gives fun _ _ => .ite (fun _ => ?_) fun _ => ?_
    · refine .bind (moveTo_gives (hm.along 1)) fun _ _ => ?_
      exact .bind (h.node .explicit) fun _ hvalue => .pure (.pair _ hkey hvalue)
    · exact .pure (.pair _ hkey .absent)
  · refine .bind (moveTo_gives (hl.along 1)) fun _ _ => ?_
    exact .bind (h.node .explicit) fun _ hvalue => .pure (.pair _ .absent hvalue)
  · refine .ite (fun _ => ?_) fun _ => ?_
    · refine .bind (readProperties_gives hl) fun p hp => .bind look_gives fun m hm => ?_
      refine .ite (fun _ => h.after_key _ _ hp.alone) fun _ => ?_
      refine .bind (require_gives _) fun _ _ => ?_
      refine .bind ((flowGives document fuel).content false hm) fun node hnode => ?_
      exact h.after_key _ _ (hp.attach hnode)
    · refine .bind ((flowGives document fuel).content false hl) fun node hnode => ?_
      exact h.after_key _ _ hnode

end BlockGives

theorem blockGives (document : List Char) (fuel : Nat) : BlockGives document fuel := by
  induction fuel with
  | zero =>
    constructor
    all_goals intros
    · rw [readNode]; exact .failure
    · rw [readAt]; exact .failure
    · rw [readWithProperties]; exact .failure
    · rw [readKeyWithProperties]; exact .failure
    · rw [readKeyed]; exact .failure
    · rw [readSequence]; exact .failure
    · rw [readDashes]; exact .failure
    · rw [readMapping]; exact .failure
    · rw [readPair]; exact .failure
  | succ fuel ih =>
    exact ⟨ih.node_succ, ih.nodeAt_succ, ih.withProperties_succ, ih.keyWithProperties_succ,
      ih.keyed_succ, ih.sequence_succ, ih.dashes_succ, ih.mapping_succ, ih.pair_succ⟩

/-! ### Documents -/

theorem readDirective_gives (hl : l.cursor.In document) :
    Gives document (fun _ => True) (readDirective l) := by
  have hafter := hl.along ((l.cursor.rest.drop 1).takeWhile isVisible).length.succ
  refine .bind (require_gives _) fun _ _ => .bind (moveTo_gives (hafter.along _)) fun _ _ => ?_
  split
  · exact .bind (require_gives _) fun _ _ => .pure trivial
  · split
    · exact .bind (require_gives _) fun _ _ => .bind (require_gives _) fun _ _ => .pure trivial
    · exact .pure trivial

theorem readDirectives_gives (fuel : Nat) (reserved : Option Nat) :
    Gives document (fun _ => True) (readDirectives fuel reserved) := by
  induction fuel generalizing reserved with
  | zero => exact .failure
  | succ fuel ih =>
    refine .bind look_gives fun l hl => .ite (fun _ => ?_) fun _ => ?_
    · exact .bind (readDirective_gives hl) fun _ _ => ih _
    · exact .bind (require_gives _) fun _ _ => .pure trivial

/-- All scalars in the documents begin with their marks. -/
def DocumentsOpened (document : List Char) (documents : List Document) : Prop :=
  ∀ d ∈ documents, d.content.Opened document

theorem readDocuments_gives (fuel : Nat) (ended : Bool) {documents : List Document}
    (hdocuments : DocumentsOpened document documents) :
    Gives document (DocumentsOpened document) (readDocuments fuel ended documents) := by
  induction fuel generalizing ended documents with
  | zero => exact .failure
  | succ fuel ih =>
    have hcons {d : Document} (hd : d.content.Opened document) :
        DocumentsOpened document (d :: documents) := List.forall_mem_cons.2 ⟨hd, hdocuments⟩
    refine .bind look_gives fun l hl => .ite (fun _ => ?_) fun _ => .ite (fun _ => ?_) fun _ =>
      .ite (fun _ => ?_) fun _ => ?_
    · exact .pure fun d hd => hdocuments d (List.mem_reverse.1 hd)
    · refine .bind (moveTo_gives (hl.along 3)) fun _ _ => ih _ ?_
      split
      · exact hcons .absent
      · exact hdocuments
    · refine .bind (readDirectives_gives _ _) fun _ _ => .bind look_gives fun m hm => ?_
      refine .bind (moveTo_gives (hm.along 3)) fun _ _ => ?_
      exact .bind ((blockGives document fuel).node _) fun _ hcontent => ih _ (hcons hcontent)
    · refine .bind (require_gives _) fun _ _ => ?_
      refine .bind ((blockGives document fuel).node _) fun _ hcontent => ?_
      exact .bind (require_gives _) fun _ _ => ih _ (hcons hcontent)

theorem Layout.ofText_in (cs : List Char) : (Layout.ofText cs).cursor.In cs := by
  unfold ofText
  dsimp only
  split <;> rfl

/-- Every scalar in the outline of a document begins with the mark of its style, and every name stands
    after its own. -/
theorem documents?_opened {ds : List Document} (h : documents? document = some ds) :
    DocumentsOpened document ds := by
  obtain ⟨⟨ds', s'⟩, hrun, rfl⟩ := Option.map_eq_some_iff.1 h
  exact ((readDocuments_gives _ _ (List.forall_mem_nil _)).of_run (Layout.ofText_in document) hrun).2

end WorkflowAudit.Yaml
