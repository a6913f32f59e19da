/-
This file contains rules for programs that make one check after the other. Such
a program panics, stops at the first check that fails, or gives a result. It is
total when it does not panic; what comes after a check has to be total only where
the check gives a result, and a loop of checks only up to the first that fails.
-/

import Mathlib.Data.List.Basic
import Mathlib.Data.Option.Basic

namespace Checks

variable {Error Result Next Item : Type}

/-- The program ends with a result or with an error. -/
def Total (program : ExceptT Error Option Result) : Prop := program.run ≠ none

/-- The program ends with this result. -/
def Gives (program : ExceptT Error Option Result) (result : Result) : Prop :=
  program.run = some (.ok result)

theorem run_bind (program : ExceptT Error Option Result)
    (next : Result → ExceptT Error Option Next) :
    (program >>= next).run = program.run.bind fun
      | .ok result => (next result).run
      | .error message => some (.error message) := by
  cases program with
  | none => rfl
  | some outcome => cases outcome <;> rfl

theorem total_bind {program : ExceptT Error Option Result}
    {next : Result → ExceptT Error Option Next} :
    Total (program >>= next) ↔
      Total program ∧ ∀ result, Gives program result → Total (next result) := by
  unfold Total Gives
  rw [run_bind]
  cases program.run with
  | none => simp
  | some outcome =>
    cases outcome with
    | ok result => simp
    | error message => simp

theorem gives_bind {program : ExceptT Error Option Result}
    {next : Result → ExceptT Error Option Next} {final : Next} :
    Gives (program >>= next) final ↔
      ∃ result, Gives program result ∧ Gives (next result) final := by
  unfold Gives
  rw [run_bind]
  cases program.run with
  | none => simp
  | some outcome =>
    cases outcome with
    | ok result => simp
    | error message => simp

theorem total_pure (result : Result) :
    Total (pure result : ExceptT Error Option Result) := fun panics => nomatch panics

/-- A step that may panic and does nothing else. -/
theorem total_lift {step : Option Result} :
    Total (ExceptT.lift step : ExceptT Error Option Result) ↔ ∃ result, step = some result := by
  show step.map Except.ok ≠ none ↔ _
  rw [ne_eq, Option.map_eq_none_iff]
  exact Option.ne_none_iff_exists'

theorem gives_lift {step : Option Result} {result : Result} :
    Gives (ExceptT.lift step : ExceptT Error Option Result) result ↔ step = some result := by
  show step.map Except.ok = some (Except.ok result) ↔ _
  cases step <;> simp

theorem total_ite {condition : Prop} [Decidable condition] {message : Error} :
    Total (if condition then pure () else throw message : ExceptT Error Option Unit) := by
  split
  · exact total_pure ()
  · exact fun panics => nomatch panics

theorem gives_ite {condition : Prop} [Decidable condition] {message : Error} {result : Unit} :
    Gives (if condition then pure () else throw message : ExceptT Error Option Unit) result ↔
      condition := by
  split
  · rename_i holds
    exact iff_of_true rfl holds
  · rename_i fails
    exact iff_of_false (fun gives => nomatch gives) fails

/-! ### Loops -/

theorem gives_forM {items : List Item} {body : Item → ExceptT Error Option Unit} :
    Gives (items.forM body) () ↔ ∀ item ∈ items, Gives (body item) () := by
  induction items with
  | nil => exact iff_of_true rfl fun item member => absurd member List.not_mem_nil
  | cons item rest inductionHypothesis =>
    rw [List.forall_mem_cons, ← inductionHypothesis]
    show Gives (body item >>= fun _ => rest.forM body) () ↔ _
    rw [gives_bind]
    constructor
    · rintro ⟨⟨⟩, first, later⟩
      exact ⟨first, later⟩
    · rintro ⟨first, later⟩
      exact ⟨(), first, later⟩

theorem total_forM {items : List Item} {body : Item → ExceptT Error Option Unit} :
    Total (items.forM body) ↔
      ∀ (number : Nat) (item : Item), items[number]? = some item →
        (∀ earlier < number, ∀ item', items[earlier]? = some item' → Gives (body item') ()) →
          Total (body item) := by
  induction items with
  | nil => exact iff_of_true (total_pure ()) fun number item found => by simp at found
  | cons first rest inductionHypothesis =>
    show Total (body first >>= fun _ => rest.forM body) ↔ _
    rw [total_bind, inductionHypothesis]
    constructor
    · rintro ⟨firstTotal, restTotal⟩ number item found passed
      cases number with
      | zero =>
        obtain rfl := Option.some.inj found
        exact firstTotal
      | succ number =>
        refine restTotal () (passed 0 (Nat.succ_pos _) first rfl) number item found ?_
        exact fun earlier below item' found' =>
          passed (earlier + 1) (Nat.succ_lt_succ below) item' found'
    · intro all
      refine ⟨all 0 first rfl fun earlier below => absurd below (Nat.not_lt_zero _), ?_⟩
      rintro ⟨⟩ firstPassed number item found passed
      refine all (number + 1) item found fun earlier below item' found' => ?_
      cases earlier with
      | zero =>
        obtain rfl := Option.some.inj found'
        exact firstPassed
      | succ earlier => exact passed earlier (Nat.lt_of_succ_lt_succ below) item' found'

end Checks
