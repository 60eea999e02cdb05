import WorkflowAudit.Proofs.Table.Writing
import WorkflowAudit.Proofs.Text.Parts
import WorkflowAudit.Rule.Owner

/-!
The uses that are noted during a walk. Which uses count is said on the characters of the action's name;
the table in which they are noted is said on the list of all uses: its owners are those of the list, each
where it first occurs, and the uses of an owner are those of the list in their order.
-/

namespace WorkflowAudit

namespace Rule

open Yaml (Scalar)

/-! ### Uses with an owner -/

/-- The step uses an action of an owner: its name leads neither into the project nor to an image, holds
    no expression, and has a slash, before the first of which the owner stands. -/
def OwnedUse (s : Step) (owner : String) (u : Usage) : Prop :=
  ∃ action inputs entrypoint args, s.body = .uses action inputs entrypoint args ∧
    u = ⟨action.value, action.position⟩ ∧
    ¬"./".toList <+: action.value.toList ∧ ¬"docker://".toList <+: action.value.toList ∧
    ¬"$\x7b\x7b".toList <:+: action.value.toList ∧
    '/' ∉ owner.toList ∧ ∃ name, action.value.toList = owner.toList ++ '/' :: name

theorem takeWhile_append_slash {owner : List Char} (h : '/' ∉ owner) (name : List Char) :
    (owner ++ '/' :: name).takeWhile (· ≠ '/') = owner := by
  rw [List.takeWhile_append_of_pos, List.takeWhile_cons_of_neg, List.append_nil]
  · simp
  · intro c hc
    simpa using fun heq : c = '/' => h (heq ▸ hc)

theorem ownerOf?_eq_some_iff {action owner : String} : ownerOf? action = some owner ↔
    '/' ∉ owner.toList ∧ ∃ name, action.toList = owner.toList ++ '/' :: name := by
  rw [ownerOf?]
  constructor
  · intro h
    split at h
    · cases h
    · rename_i hlen
      cases h
      rw [String.toList_ofList]
      refine ⟨fun hmem => by simpa using List.mem_takeWhile_imp hmem, ?_⟩
      have hsplit := List.takeWhile_append_dropWhile (p := (· ≠ '/')) (l := action.toList)
      cases hrest : action.toList.dropWhile (· ≠ '/') with
      | nil =>
        rw [hrest, List.append_nil] at hsplit
        exact absurd (by rw [hsplit, String.length_toList]) hlen
      | cons c name =>
        have hc : c = '/' := by
          have hhead := List.head?_dropWhile_not (fun x => decide (x ≠ '/')) action.toList
          rw [hrest] at hhead
          simpa using hhead
        subst hc
        exact ⟨name, by rw [← hrest, hsplit]⟩
  · rintro ⟨howner, name, hname⟩
    rw [hname, takeWhile_append_slash howner, String.ofList_toList, if_neg]
    rw [← String.length_toList, hname, List.length_append, List.length_cons]
    omega

theorem ownedUse?_eq_some_iff {s : Step} {owner : String} {u : Usage} :
    ownedUse? s = some (owner, u) ↔ OwnedUse s owner u := by
  rw [ownedUse?, OwnedUse]
  cases s.body with
  | run script workingDirectory shell => simp
  | uses action inputs entrypoint args =>
    simp only [StepBody.uses.injEq, Scalar.hasExpression, Bool.or_eq_true, Text.startsWith_iff,
      Text.contains_iff]
    constructor
    · intro h
      split at h
      · cases h
      · rename_i hfree
        simp only [not_or] at hfree
        obtain ⟨o, ho, heq⟩ := Option.map_eq_some_iff.1 h
        cases heq
        exact ⟨action, inputs, entrypoint, args, ⟨rfl, rfl, rfl, rfl⟩, rfl, hfree.1.1, hfree.1.2,
          hfree.2, ownerOf?_eq_some_iff.1 ho⟩
    · rintro ⟨_, _, _, _, ⟨rfl, rfl, rfl, rfl⟩, rfl, hlocal, himage, hexpr, howner⟩
      rw [if_neg (by simp only [not_or]; exact ⟨⟨hlocal, himage⟩, hexpr⟩),
        ownerOf?_eq_some_iff.2 howner]
      rfl

/-! ### Uses by owner -/

/-- The uses of each owner, the owners in the order of their first uses. -/
def byOwner (uses : List (String × Usage)) : Table (List Usage) :=
  (uses.map Prod.fst).eraseDups.map fun owner =>
    (owner, (uses.filter (·.1 = owner)).map Prod.snd)

/-- One more use is noted under its owner. -/
theorem noteUse_byOwner (uses : List (String × Usage)) (owner : String) (u : Usage) :
    noteUse (byOwner uses) owner u = byOwner (uses ++ [(owner, u)]) := by
  have hlast (o : String) : ((uses ++ [(owner, u)]).filter (·.1 = o)).map Prod.snd =
      (uses.filter (·.1 = o)).map Prod.snd ++ if o = owner then [u] else [] := by
    rw [List.filter_append, List.map_append]
    by_cases h : o = owner
    · simp [h]
    · simp [h, Ne.symm h]
  rw [noteUse, byOwner, byOwner, List.map_append, List.map_singleton, Table.eraseDups_concat,
    Table.lookup_map]
  simp only [hlast]
  by_cases hmem : owner ∈ uses.map Prod.fst
  · rw [if_pos (List.mem_eraseDups.2 hmem), if_pos hmem,
      Table.insert_map_of_mem (List.mem_eraseDups.2 hmem) (Table.nodup_eraseDups _)]
    refine List.map_congr_left fun o _ => ?_
    by_cases h : o = owner
    · simp [h]
    · simp [h]
  · have hnone : uses.filter (·.1 = owner) = [] := by
      simp only [List.filter_eq_nil_iff, decide_eq_true_eq]
      exact fun use huse heq => hmem (List.mem_map.2 ⟨use, huse, heq⟩)
    rw [if_neg (mt List.mem_eraseDups.1 hmem), if_neg hmem,
      Table.insert_map_of_not_mem (mt List.mem_eraseDups.1 hmem), List.map_append]
    congr 1
    · refine List.map_congr_left fun o ho => ?_
      rw [if_neg (fun heq : o = owner => hmem (heq ▸ List.mem_eraseDups.1 ho)), List.append_nil]
    · simp [hnone]

/-- The uses with an owner in a part of the walk. -/
def usesIn : Visit → List (String × Usage)
  | .step s => (ownedUse? s).toList
  | _ => []

/-- A part of the walk adds its uses to those noted. -/
theorem ownerVisit_noting (uses : List (String × Usage)) (v : Visit) :
    ownerVisit (.noting (byOwner uses)) v = .noting (byOwner (uses ++ usesIn v)) := by
  cases v with
  | step s =>
    rw [ownerVisit, usesIn]
    cases ownedUse? s with
    | none => rw [Option.toList_none, List.append_nil]
    | some use => simp only [noteUse_byOwner, Option.toList_some]
  | _ => simp [usesIn, ownerVisit]

end Rule

end WorkflowAudit
