import StackFlow.Scope.Basic

/-!
Which failures a computation can have. Theorems of this kind go through sequences and
lists of computations step by step (`FailsOnly.bind`, `FailsOnly.mapM`,
`FailsOnly.foldlM`).
-/
namespace StackFlow

namespace Failure

/-- An error for the caller. -/
def Reported : Failure → Prop
  | .error _ => True
  | .fault _ => False

/-- An error that says what is wrong with the input. -/
def Malformed (e : Failure) : Prop := ∃ defect, e = .error (.malformed defect)

theorem Malformed.reported {e : Failure} (malformed : e.Malformed) : e.Reported := by
  obtain ⟨defect, rfl⟩ := malformed
  trivial

/-- An error that finds one of the given defects in the input. -/
def Finds (which : Defect → Prop) (e : Failure) : Prop := ∃ defect, which defect ∧ e = .error (.malformed defect)

theorem Finds.malformed {which : Defect → Prop} {e : Failure} (finds : e.Finds which) : e.Malformed := by
  obtain ⟨defect, _, same⟩ := finds
  exact ⟨defect, same⟩

end Failure

variable {α β : Type} {kind : Failure → Prop}

/-- If the computation fails, its failure is of the given kind. -/
def FailsOnly (kind : Failure → Prop) (x : Result α) : Prop := ∀ e, x = .error e → kind e

namespace FailsOnly

theorem ok (a : α) : FailsOnly kind (.ok a : Result α) := by
  intro e failed
  cases failed

theorem of_total {x : Result α} (total : ∃ a, x = .ok a) : FailsOnly kind x := by
  obtain ⟨a, rfl⟩ := total
  exact ok a

/-- What cannot fail in any way has a value. -/
theorem total {x : Result α} (never : FailsOnly (fun _ => False) x) : ∃ a, x = .ok a := by
  cases x with
  | error e => exact (never e rfl).elim
  | ok a => exact ⟨a, rfl⟩

theorem mono {kind' : Failure → Prop} {x : Result α} (fails : FailsOnly kind x) (weaker : ∀ e, kind e → kind' e) :
    FailsOnly kind' x := fun e failed => weaker e (fails e failed)

theorem reject (defect : Defect) : FailsOnly Failure.Malformed (reject defect : Result α) := by
  rintro e ⟨⟩
  exact ⟨defect, rfl⟩

theorem finds {which : Defect → Prop} {defect : Defect} (one : which defect) :
    FailsOnly (Failure.Finds which) (StackFlow.reject defect : Result α) := by
  rintro e ⟨⟩
  exact ⟨defect, one, rfl⟩

theorem bind {x : Result α} {f : α → Result β} (first : FailsOnly kind x)
    (next : ∀ a, x = .ok a → FailsOnly kind (f a)) : FailsOnly kind (x >>= f) := by
  cases x with
  | error e =>
    intro e' failed
    cases failed
    exact first e rfl
  | ok a => exact next a rfl

theorem mapM {xs : List α} {f : α → Result β} (each : ∀ x ∈ xs, FailsOnly kind (f x)) : FailsOnly kind (xs.mapM f) := by
  induction xs with
  | nil => exact ok []
  | cons x rest ih =>
    rw [List.mapM_cons]
    refine (each x (by simp)).bind fun y _ => ?_
    exact (ih fun x member => each x (by simp [member])).bind fun ys _ => ok (y :: ys)

theorem forM {xs : List α} {check : α → Result Unit} (each : ∀ x ∈ xs, FailsOnly kind (check x)) :
    FailsOnly kind (xs.forM check) := by
  induction xs with
  | nil => exact ok ()
  | cons x rest ih =>
    rw [List.forM]
    exact (each x (by simp)).bind fun _ _ => ih fun y member => each y (by simp [member])

/-- A fold whose steps keep an invariant, under which they fail in one way only. -/
theorem foldlM {xs : List α} {f : β → α → Result β} (inv : β → Prop) {start : β} (initially : inv start)
    (step : ∀ x ∈ xs, ∀ b, inv b → FailsOnly kind (f b x) ∧ ∀ c, f b x = .ok c → inv c) :
    FailsOnly kind (xs.foldlM f start) := by
  induction xs generalizing start with
  | nil => exact ok start
  | cons x rest ih =>
    rw [List.foldlM_cons]
    obtain ⟨first, kept⟩ := step x (by simp) start initially
    exact first.bind fun next ran => ih (kept next ran) fun x member => step x (by simp [member])

end FailsOnly

theorem Scope.find_malformed (scope : Scope) (v : VarId) : FailsOnly Failure.Malformed (scope.find v) := by
  unfold Scope.find
  split
  · exact .ok _
  · exact .reject _

end StackFlow
