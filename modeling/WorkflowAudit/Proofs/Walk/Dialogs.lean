import Mathlib
import WorkflowAudit.Probe

/-!
Dialogs one after the other. What a dialog does on the network depends on the requests made before it
and on nothing else of what has been done, so a dialog that follows another can be looked at by itself.
-/

namespace WorkflowAudit

namespace Activity

/-- What has been done first, and then. -/
def andThen (first second : Activity) : Activity :=
  ⟨first.requests ++ second.requests, first.waited + second.waited⟩

@[simp] theorem requests_andThen (a b : Activity) :
    (a.andThen b).requests = a.requests ++ b.requests := rfl

@[simp] theorem waited_andThen (a b : Activity) : (a.andThen b).waited = a.waited + b.waited := rfl

@[simp] theorem andThen_nothing (a : Activity) : a.andThen {} = a := by
  simp [andThen]

@[simp] theorem nothing_andThen (a : Activity) : ({} : Activity).andThen a = a := by
  simp [andThen]

end Activity

namespace Dialog

variable {α β : Type}

theorem id_map_dialog (d : Dialog α) : id <$> d = d := by
  induction d with
  | done result => rfl
  | ask url next ih => exact congrArg (Dialog.ask url) (funext ih)
  | wait seconds next ih => exact congrArg (Dialog.wait seconds) ih

theorem bind_assoc_dialog {γ : Type} (d : Dialog α) (f : α → Dialog β) (g : β → Dialog γ) :
    d >>= f >>= g = d >>= fun result => f result >>= g := by
  induction d with
  | done result => rfl
  | ask url next ih => exact congrArg (Dialog.ask url) (funext ih)
  | wait seconds next ih => exact congrArg (Dialog.wait seconds) ih

instance : LawfulMonad Dialog :=
  LawfulMonad.mk' Dialog id_map_dialog (fun _ _ => rfl) bind_assoc_dialog

/-- What a dialog does comes after what has been done; of that, it sees the requests. -/
theorem run_eq_andThen (probe : Probe) (earlier : List String) (d : Dialog α) (activity : Activity) :
    d.run probe earlier activity =
      ((d.run probe (earlier ++ activity.requests) {}).1,
        activity.andThen (d.run probe (earlier ++ activity.requests) {}).2) := by
  induction d generalizing earlier activity with
  | done result => simp [run]
  | ask url next ih =>
    simp only [run, List.append_nil, List.nil_append]
    rw [ih, ih _ (earlier ++ activity.requests) ⟨[url], 0⟩]
    simp [Activity.andThen]
  | wait seconds next ih =>
    simp only [run, Nat.zero_add]
    rw [ih, ih (earlier ++ activity.requests) ⟨[], seconds⟩]
    simp [Activity.andThen, Nat.add_assoc]

/-- A dialog that another one decides on is held after it. -/
theorem run_bind (probe : Probe) (earlier : List String) (d : Dialog α) (f : α → Dialog β)
    (activity : Activity) :
    (d >>= f).run probe earlier activity =
      (f (d.run probe earlier activity).1).run probe earlier (d.run probe earlier activity).2 := by
  show (d.bind f).run probe earlier activity = _
  induction d generalizing activity with
  | done result => rfl
  | ask url next ih => exact ih _ _
  | wait seconds next ih => exact ih _

@[simp] theorem run_pure (probe : Probe) (earlier : List String) (result : α) (activity : Activity) :
    (pure result : Dialog α).run probe earlier activity = (result, activity) := rfl

end Dialog

end WorkflowAudit
