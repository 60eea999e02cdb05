import Mathlib
import WorkflowAudit.Batch
import WorkflowAudit.Proofs.Lists.Basic

/-!
Every run of a batch. One lemma says what a move of a task can do; from it follows what all runs have in
common, whatever the schedule. No permit is lost, so a batch that has not come to its end can move. Where
the answers of the network depend on the address only, no move changes what the tasks come to, and each
takes one off the number of moves that are left, so that every run ends and all ends have the same
results.
-/

namespace WorkflowAudit

/-- The answer for an address is the same whatever has been asked before. -/
def Probe.Steady (probe : Probe) : Prop :=
  ∀ earlier url, probe.answer earlier url = probe.answer [] url

/-! ### Dialogs with a steady network -/

namespace Dialog

variable {α : Type}

/-- The result of a dialog in which each address has one answer. -/
def outcome (answers : String → Answer) : Dialog α → α
  | done result => result
  | ask url next => (next (answers url)).outcome answers
  | wait _ next => next.outcome answers

/-- The number of requests and waits of such a dialog. -/
def moves (answers : String → Answer) : Dialog α → Nat
  | done _ => 0
  | ask url next => (next (answers url)).moves answers + 1
  | wait _ next => next.moves answers + 1

theorem run_eq_outcome {probe : Probe} (h : probe.Steady) (earlier : List String) (d : Dialog α)
    (activity : Activity) : (d.run probe earlier activity).1 = d.outcome (probe.answer []) := by
  induction d generalizing activity with
  | done result => rfl
  | ask url next ih => rw [run, h _ url, ih, outcome]
  | wait seconds next ih => rw [run, ih, outcome]

end Dialog

/-! ### The moves of a task -/

namespace Task

/-- The number of permits that a task holds. -/
def held : Task → Nat
  | reading .. => 1
  | _ => 0

/-- What a move does to the task that makes it, after the `requests` of all tasks so far. -/
inductive Move (disk : Disk) (around : Surroundings) (requests : List String) : Task → Task → Prop
  | enter (path : String) (actions : Option ActionIndex) :
    Move disk around requests (queued path actions) (reading path actions)
  | read (path : String) (actions : Option ActionIndex) :
    Move disk around requests (reading path actions) (ofScan (scanFile disk around path actions))
  | ask (url : String) (next : Answer → Dialog (List Finding)) :
    Move disk around requests (talking (.ask url next))
      (talking (next (around.network.answer requests url)))
  | wait (seconds : Nat) (next : Dialog (List Finding)) :
    Move disk around requests (talking (.wait seconds next)) (talking next)
  | finish (findings : List Finding) :
    Move disk around requests (talking (.done findings)) (finished (.ok findings))

section

variable (disk : Disk) (around : Surroundings)

/-- What a task comes to on a steady network. -/
def outcome : Task → Except ScanError (List Finding)
  | queued path actions | reading path actions =>
    (scanFile disk around path actions).map (·.outcome (around.network.answer []))
  | talking dialog => .ok (dialog.outcome (around.network.answer []))
  | finished result => result

/-- The number of moves of a task whose file has been read. -/
def movesAfter : Except ScanError (Dialog (List Finding)) → Nat
  | .error _ => 0
  | .ok dialog => dialog.moves (around.network.answer []) + 1

/-- The number of moves that a task has left on a steady network. -/
def moves : Task → Nat
  | queued path actions => movesAfter around (scanFile disk around path actions) + 2
  | reading path actions => movesAfter around (scanFile disk around path actions) + 1
  | talking dialog => movesAfter around (.ok dialog)
  | finished _ => 0

end

variable {disk : Disk} {around : Surroundings}

theorem held_ofScan (walk : Except ScanError (Dialog (List Finding))) : (ofScan walk).held = 0 := by
  cases walk <;> rfl

theorem outcome_ofScan (walk : Except ScanError (Dialog (List Finding))) :
    (ofScan walk).outcome disk around = walk.map (·.outcome (around.network.answer [])) := by
  cases walk <;> rfl

theorem moves_ofScan (walk : Except ScanError (Dialog (List Finding))) :
    (ofScan walk).moves disk around = movesAfter around walk := by
  cases walk <;> rfl

theorem Move.outcome_eq {requests : List String} {t t' : Task} (hsteady : around.network.Steady)
    (h : Move disk around requests t t') : t'.outcome disk around = t.outcome disk around := by
  cases h with
  | enter path actions => rfl
  | read path actions => rw [outcome_ofScan, outcome]
  | ask url next => rw [outcome, outcome, Dialog.outcome, hsteady requests url]
  | wait seconds next => rfl
  | finish findings => rfl

theorem Move.moves_eq {requests : List String} {t t' : Task} (hsteady : around.network.Steady)
    (h : Move disk around requests t t') : t.moves disk around = t'.moves disk around + 1 := by
  cases h with
  | enter path actions => rfl
  | read path actions => rw [moves_ofScan, moves]
  | ask url next => rw [moves, moves, movesAfter, movesAfter, Dialog.moves, hsteady requests url]
  | wait seconds next => rfl
  | finish findings => rfl

theorem finish_eq_outcome (disk : Disk) (hsteady : around.network.Steady) (requests : List String)
    (t : Task) : (t.finish disk around requests).1 = t.outcome disk around := by
  have talk (d : Dialog (List Finding)) : (finish.talk around requests d).1 =
      .ok (d.outcome (around.network.answer [])) := by
    rw [finish.talk, ← d.run_eq_outcome hsteady requests {}]
  cases t with
  | queued path actions =>
    rw [finish, outcome]
    cases scanFile disk around path actions with
    | error e => rfl
    | ok d => exact talk d
  | reading path actions =>
    rw [finish, outcome]
    cases scanFile disk around path actions with
    | error e => rfl
    | ok d => exact talk d
  | talking d => exact talk d
  | finished result => rfl

end Task

/-! ### The moves of a batch -/

namespace Batch

variable {disk : Disk} {around : Surroundings}

/-- A move of a batch is a move of one of its tasks; the permits that the task gives or takes are taken
    from the free ones or given to them. -/
theorem exists_move_of_advance {b b' : Batch} {i : Nat} (h : b.advance disk around i = some b') :
    ∃ t t', b.tasks[i]? = some t ∧ b'.tasks = b.tasks.set i t' ∧
      b'.free + t'.held = b.free + t.held ∧ Task.Move disk around b.requests t t' := by
  rw [advance] at h
  split at h
  · cases h
  · cases h
  next path actions ht =>
    split at h
    · cases h
    next hfree =>
      cases h
      refine ⟨_, _, ht, rfl, ?_, .enter path actions⟩
      simp only [Task.held]
      omega
  next path actions ht =>
    cases h
    refine ⟨_, _, ht, rfl, ?_, .read path actions⟩
    rw [Task.held_ofScan]
    rfl
  next findings ht => exact ⟨_, _, ht, by cases h; rfl, by cases h; rfl, .finish findings⟩
  next seconds next ht => exact ⟨_, _, ht, by cases h; rfl, by cases h; rfl, .wait seconds next⟩
  next url next ht => exact ⟨_, _, ht, by cases h; rfl, by cases h; rfl, .ask url next⟩

/-- What every move keeps, every run keeps. -/
theorem run_keeps {P : Batch → Prop} (hstep : ∀ b i b', P b → b.advance disk around i = some b' → P b')
    {b b' : Batch} {schedule : List Nat} (hb : P b) (h : b.run disk around schedule = some b') :
    P b' := by
  induction schedule generalizing b with
  | nil =>
    cases h
    exact hb
  | cons i schedule ih =>
    rw [run, List.foldlM_cons, Option.bind_eq_bind, Option.bind_eq_some_iff] at h
    obtain ⟨c, hc, h⟩ := h
    exact ih (hstep b i c hb hc) h

/-! ### Permits -/

/-- The permits of a batch, free or held. -/
def permits (b : Batch) : Nat :=
  b.free + (b.tasks.map Task.held).sum

theorem advance_permits {b b' : Batch} {i : Nat} (h : b.advance disk around i = some b') :
    b'.permits = b.permits := by
  obtain ⟨t, t', ht, htasks, hfree, -⟩ := exists_move_of_advance h
  have hsum := List.sum_map_set Task.held ht t'
  rw [permits, permits, htasks]
  omega

theorem run_permits {b b' : Batch} {schedule : List Nat}
    (h : b.run disk around schedule = some b') : b'.permits = b.permits := by
  refine run_keeps (P := fun c => c.permits = b.permits) (fun c i c' hc hadvance => ?_) rfl h
  rw [advance_permits hadvance, hc]

theorem isSome_advance_of_held {b : Batch} {i : Nat} {t : Task} (ht : b.tasks[i]? = some t)
    (hheld : t.held ≠ 0) : (b.advance disk around i).isSome := by
  cases t with
  | reading path actions => rw [advance, ht]; rfl
  | _ => exact absurd rfl hheld

/-- A batch that is not at its end can move: its permits are free, or a task that holds one can go on. -/
theorem exists_advance {b : Batch} (hpermits : 0 < b.permits) {t : Task} (ht : t ∈ b.tasks)
    (hresult : t.result? = none) : ∃ i, (b.advance disk around i).isSome := by
  obtain ⟨i, hi⟩ := List.getElem?_of_mem ht
  cases t with
  | queued path actions =>
    rcases Nat.eq_zero_or_pos b.free with hfree | hfree
    · rw [permits, hfree, Nat.zero_add, List.sum_pos_iff_exists_pos_nat] at hpermits
      obtain ⟨n, hn, hpos⟩ := hpermits
      obtain ⟨reader, hreader, rfl⟩ := List.mem_map.1 hn
      obtain ⟨j, hj⟩ := List.getElem?_of_mem hreader
      exact ⟨j, isSome_advance_of_held hj (Nat.ne_of_gt hpos)⟩
    · refine ⟨i, ?_⟩
      rw [advance, hi]
      simp only [if_neg (Nat.ne_of_gt hfree), Option.isSome_some]
  | reading path actions => exact ⟨i, isSome_advance_of_held hi Nat.one_ne_zero⟩
  | talking dialog =>
    refine ⟨i, ?_⟩
    rw [advance, hi]
    cases dialog <;> rfl
  | finished result => cases hresult

/-! ### Results -/

/-- The number of moves that a batch has left on a steady network. -/
def moves (disk : Disk) (around : Surroundings) (b : Batch) : Nat :=
  (b.tasks.map (Task.moves disk around)).sum

/-- What the tasks of a batch come to on a steady network. -/
def outcomes (disk : Disk) (around : Surroundings) (b : Batch) :
    List (Except ScanError (List Finding)) :=
  b.tasks.map (Task.outcome disk around)

theorem advance_outcomes (hsteady : around.network.Steady) {b b' : Batch} {i : Nat}
    (h : b.advance disk around i = some b') :
    b'.outcomes disk around = b.outcomes disk around := by
  obtain ⟨t, t', ht, htasks, -, hmove⟩ := exists_move_of_advance h
  obtain ⟨hi, rfl⟩ := List.getElem?_eq_some_iff.1 ht
  rw [outcomes, outcomes, htasks, List.map_set, hmove.outcome_eq hsteady, ← List.map_set,
    List.set_getElem_self]

theorem run_outcomes (hsteady : around.network.Steady) {b b' : Batch} {schedule : List Nat}
    (h : b.run disk around schedule = some b') :
    b'.outcomes disk around = b.outcomes disk around := by
  refine run_keeps (P := fun c => c.outcomes disk around = b.outcomes disk around)
    (fun c i c' hc hadvance => ?_) rfl h
  rw [advance_outcomes hsteady hadvance, hc]

theorem advance_moves (hsteady : around.network.Steady) {b b' : Batch} {i : Nat}
    (h : b.advance disk around i = some b') : b.moves disk around = b'.moves disk around + 1 := by
  obtain ⟨t, t', ht, htasks, -, hmove⟩ := exists_move_of_advance h
  have hsum := List.sum_map_set (Task.moves disk around) ht t'
  have ht := hmove.moves_eq hsteady
  rw [moves, moves, htasks]
  omega

/-- A run takes as many moves as it makes off those that were left. -/
theorem run_moves (hsteady : around.network.Steady) {b b' : Batch} {schedule : List Nat}
    (h : b.run disk around schedule = some b') :
    b.moves disk around = schedule.length + b'.moves disk around := by
  induction schedule generalizing b with
  | nil =>
    cases h
    exact (Nat.zero_add _).symm
  | cons i schedule ih =>
    rw [run, List.foldlM_cons, Option.bind_eq_bind, Option.bind_eq_some_iff] at h
    obtain ⟨c, hc, h⟩ := h
    rw [advance_moves hsteady hc, ih h, List.length_cons]
    omega

theorem outcomes_of_results? {b : Batch} {results : List (Except ScanError (List Finding))}
    (h : b.results? = some results) : b.outcomes disk around = results := by
  rw [results?] at h
  rw [outcomes]
  generalize b.tasks = tasks at h ⊢
  induction tasks generalizing results with
  | nil =>
    cases h
    rfl
  | cons t tasks ih =>
    rw [List.mapM_cons] at h
    cases t with
    | finished result =>
      cases hrest : tasks.mapM Task.result? with
      | none =>
        rw [hrest] at h
        cases h
      | some rest =>
        rw [hrest] at h
        cases h
        rw [List.map_cons, ih hrest, Task.outcome]
    | _ => cases h

theorem exists_of_results?_eq_none {b : Batch} (h : b.results? = none) :
    ∃ t ∈ b.tasks, t.result? = none := by
  rw [results?] at h
  generalize b.tasks = tasks at h ⊢
  induction tasks with
  | nil => cases h
  | cons t tasks ih =>
    cases ht : t.result? with
    | none => exact ⟨t, List.mem_cons_self .., ht⟩
    | some result =>
      rw [List.mapM_cons, ht] at h
      cases hrest : tasks.mapM Task.result? with
      | none =>
        obtain ⟨t', ht', hnone⟩ := ih hrest
        exact ⟨t', List.mem_cons_of_mem _ ht', hnone⟩
      | some rest =>
        rw [hrest] at h
        cases h

end Batch

end WorkflowAudit
