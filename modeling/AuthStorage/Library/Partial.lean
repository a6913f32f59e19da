/-
This file is about machines whose steps may fail. Two partial computations are
related when both fail or both succeed with related results; the relation is
carried through `bind`, through folds and through whole runs. A run is the list
of outputs of a partial step function over a list of operations, and the rules
for runs are the usual ones: what every step keeps, every run keeps, what every
step simulates, every run simulates, and a run goes through if every step does
that can follow. The rules carry the list of operations done so far, so that a
bound on the length of the history can be part of the invariant.
-/

import Mathlib.Tactic
import Mathlib.Data.Option.Basic

variable {State State' Op Out : Type} {α α' β β' γ : Type}

/-! ### Related partial computations -/

namespace Option

theorem rel_bind {related : α → α' → Prop} {related' : β → β' → Prop} {first : Option α}
    {second : Option α'} {firstNext : α → Option β} {secondNext : α' → Option β'}
    (start : Option.Rel related first second)
    (next : ∀ x y, related x y → Option.Rel related' (firstNext x) (secondNext y)) :
    Option.Rel related' (first.bind firstNext) (second.bind secondNext) := by
  cases start with
  | none => exact Option.Rel.none
  | some both => exact next _ _ both

/-- The same, with the results known. -/
theorem rel_bind_some {related : α → α' → Prop} {related' : β → β' → Prop} {first : Option α}
    {second : Option α'} {firstNext : α → Option β} {secondNext : α' → Option β'}
    (start : Option.Rel related first second)
    (next : ∀ x y, first = some x → second = some y → related x y →
      Option.Rel related' (firstNext x) (secondNext y)) :
    Option.Rel related' (first.bind firstNext) (second.bind secondNext) := by
  cases start with
  | none => exact Option.Rel.none
  | some both => exact next _ _ rfl rfl both

/-- A continuation on one side that never fails. -/
theorem rel_bind_left {related : α → β → Prop} {related' : α' → β → Prop} {first : Option α}
    {second : Option β} {next : α → Option α'} (start : Option.Rel related first second)
    (total : ∀ x y, related x y → ∃ z, next x = some z ∧ related' z y) :
    Option.Rel related' (first.bind next) second := by
  cases start with
  | none => exact Option.Rel.none
  | some both =>
    obtain ⟨z, done, holds⟩ := total _ _ both
    rw [Option.bind_some, done]
    exact Option.Rel.some holds

theorem rel_map {related : α → α' → Prop} {related' : β → β' → Prop} {first : Option α}
    {second : Option α'} {onFirst : α → β} {onSecond : α' → β'}
    (start : Option.Rel related first second)
    (next : ∀ x y, related x y → related' (onFirst x) (onSecond y)) :
    Option.Rel related' (first.map onFirst) (second.map onSecond) := by
  cases start with
  | none => exact Option.Rel.none
  | some both => exact Option.Rel.some (next _ _ both)

theorem Rel.imp {related related' : α → β → Prop} {first : Option α} {second : Option β}
    (start : Option.Rel related first second) (weaker : ∀ x y, related x y → related' x y) :
    Option.Rel related' first second := by
  cases start with
  | none => exact Option.Rel.none
  | some both => exact Option.Rel.some (weaker _ _ both)

/-- The same, with the results known. -/
theorem Rel.imp_some {related related' : α → β → Prop} {first : Option α} {second : Option β}
    (start : Option.Rel related first second)
    (weaker : ∀ x y, first = Option.some x → second = Option.some y → related x y →
      related' x y) : Option.Rel related' first second := by
  cases start with
  | none => exact Option.Rel.none
  | some both => exact Option.Rel.some (weaker _ _ rfl rfl both)

theorem Rel.of_some_left {related : α → β → Prop} {value : α} {second : Option β}
    (start : Option.Rel related (Option.some value) second) :
    ∃ other, second = Option.some other ∧ related value other := by
  cases start with
  | some both => exact ⟨_, rfl, both⟩

theorem Rel.of_some_right {related : α → β → Prop} {first : Option α} {value : β}
    (start : Option.Rel related first (Option.some value)) :
    ∃ other, first = Option.some other ∧ related other value := by
  cases start with
  | some both => exact ⟨_, rfl, both⟩

theorem map_snd_eq_of_rel (related : α → β → Prop) {first : Option (α × γ)}
    {second : Option (β × γ)}
    (start : Option.Rel (fun x y => related x.1 y.1 ∧ x.2 = y.2) first second) :
    first.map Prod.snd = second.map Prod.snd := by
  cases start with
  | none => rfl
  | some both => rw [Option.map_some, Option.map_some, both.2]

/-- Two folds over one list simulate each other if their steps do. -/
theorem rel_foldlM {related : α → β → Prop} {firstStep : α → γ → Option α}
    {secondStep : β → γ → Option β} (items : List γ)
    (step : ∀ x y, ∀ item ∈ items, related x y →
      Option.Rel related (firstStep x item) (secondStep y item))
    {first : α} {second : β} (start : related first second) :
    Option.Rel related (items.foldlM firstStep first) (items.foldlM secondStep second) := by
  induction items generalizing first second with
  | nil => exact Option.Rel.some start
  | cons head tail inductionHypothesis =>
    rw [List.foldlM_cons, List.foldlM_cons]
    refine rel_bind (step first second head List.mem_cons_self start) fun x y both => ?_
    exact inductionHypothesis (fun x y item member => step x y item (List.mem_cons_of_mem _ member))
      both

/-- What every step of a fold keeps, the fold keeps. -/
theorem foldlM_invariant {step : α → γ → Option α} (invariant : α → Prop) (items : List γ)
    (keeps : ∀ x, ∀ item ∈ items, ∀ y, invariant x → step x item = some y → invariant y)
    {first last : α} (start : invariant first) (done : items.foldlM step first = some last) :
    invariant last := by
  induction items generalizing first with
  | nil =>
    obtain rfl : first = last := by simpa using done
    exact start
  | cons head tail inductionHypothesis =>
    rw [List.foldlM_cons] at done
    obtain ⟨middle, stepped, rest⟩ := Option.bind_eq_some_iff.mp done
    exact inductionHypothesis
      (fun x item member y => keeps x item (List.mem_cons_of_mem _ member) y)
      (keeps first head List.mem_cons_self middle start stepped) rest

end Option

/-! ### Runs -/

namespace PartialRun

/-- The final state and the outputs of `step` over a list of operations. -/
def run (step : State → Op → Option (State × Out)) :
    State → List Op → Option (State × List Out)
  | state, [] => some (state, [])
  | state, op :: rest =>
    (step state op).bind fun next =>
      (run step next.1 rest).map fun final => (final.1, next.2 :: final.2)

variable {step : State → Op → Option (State × Out)} {step' : State' → Op → Option (State' × Out)}

@[simp] theorem run_nil (state : State) : run step state [] = some (state, []) := rfl

theorem run_cons (state : State) (op : Op) (rest : List Op) :
    run step state (op :: rest) =
      (step state op).bind fun next =>
        (run step next.1 rest).map fun final => (final.1, next.2 :: final.2) := rfl

theorem run_cons_eq_some {state final : State} {op : Op} {rest : List Op} {outputs : List Out} :
    run step state (op :: rest) = some (final, outputs) ↔
      ∃ middle output others, step state op = some (middle, output) ∧
        run step middle rest = some (final, others) ∧ outputs = output :: others := by
  rw [run_cons]
  constructor
  · intro done
    obtain ⟨⟨middle, output⟩, stepped, rest⟩ := Option.bind_eq_some_iff.mp done
    obtain ⟨⟨last, others⟩, tail, same⟩ := Option.map_eq_some_iff.mp rest
    simp only [Prod.mk.injEq] at same
    obtain ⟨rfl, rfl⟩ := same
    exact ⟨middle, output, others, stepped, tail, rfl⟩
  · rintro ⟨middle, output, others, stepped, tail, rfl⟩
    rw [stepped, Option.bind_some, tail]
    rfl

theorem run_append (state : State) (first second : List Op) :
    run step state (first ++ second) =
      (run step state first).bind fun middle =>
        (run step middle.1 second).map fun final => (final.1, middle.2 ++ final.2) := by
  induction first generalizing state with
  | nil =>
    rw [List.nil_append, run_nil, Option.bind_some]
    simp
  | cons op rest inductionHypothesis =>
    rw [List.cons_append, run_cons, run_cons]
    cases step state op with
    | none => rfl
    | some next =>
      rw [Option.bind_some, Option.bind_some, inductionHypothesis]
      cases run step next.1 rest with
      | none => rfl
      | some middle =>
        simp only [Option.bind_some, Option.map_some, Option.map_map]
        rfl

theorem length_run {state final : State} {ops : List Op} {outputs : List Out}
    (done : run step state ops = some (final, outputs)) : outputs.length = ops.length := by
  induction ops generalizing state outputs with
  | nil =>
    simp only [run_nil, Option.some.injEq, Prod.mk.injEq] at done
    rw [← done.2]
    rfl
  | cons op rest inductionHypothesis =>
    obtain ⟨middle, output, others, -, tail, rfl⟩ := run_cons_eq_some.mp done
    rw [List.length_cons, List.length_cons, inductionHypothesis tail]

/-- A run that succeeds has only operations that can succeed. -/
theorem forall_of_run_eq_some (possible : Op → Prop)
    (needed : ∀ state op next, step state op = some next → possible op) {state : State}
    {ops : List Op} {final : State × List Out} (done : run step state ops = some final) :
    ∀ op ∈ ops, possible op := by
  induction ops generalizing state final with
  | nil => exact fun op member => absurd member List.not_mem_nil
  | cons head rest inductionHypothesis =>
    obtain ⟨middle, output, others, stepped, tail, -⟩ := run_cons_eq_some.mp done
    intro op member
    rcases List.mem_cons.mp member with rfl | later
    · exact needed state op _ stepped
    · exact inductionHypothesis tail op later

/-- The invariant rule. The history pairs the operations with their outputs; `allowed` restricts
the operations and must be inherited by prefixes. -/
theorem run_invariant (invariant : List (Op × Out) → State → Prop) (allowed : List Op → Prop)
    (inherited : ∀ earlier later, allowed (earlier ++ later) → allowed earlier)
    (keeps : ∀ history state op next out, allowed (history.map Prod.fst ++ [op]) →
      invariant history state → step state op = some (next, out) →
        invariant (history ++ [(op, out)]) next)
    {history : List (Op × Out)} {state final : State} {ops : List Op} {outputs : List Out}
    (within : allowed (history.map Prod.fst ++ ops)) (start : invariant history state)
    (done : run step state ops = some (final, outputs)) :
    invariant (history ++ ops.zip outputs) final := by
  induction ops generalizing history state outputs with
  | nil =>
    simp only [run_nil, Option.some.injEq, Prod.mk.injEq] at done
    obtain ⟨rfl, rfl⟩ := done
    rwa [List.zip_nil_left, List.append_nil]
  | cons op rest inductionHypothesis =>
    obtain ⟨middle, output, others, stepped, tail, rfl⟩ := run_cons_eq_some.mp done
    have split : history.map Prod.fst ++ op :: rest = (history.map Prod.fst ++ [op]) ++ rest := by
      rw [List.append_assoc, List.singleton_append]
    have within' : allowed ((history ++ [(op, output)]).map Prod.fst ++ rest) := by
      rwa [List.map_append, List.map_cons, List.map_nil, ← split]
    have kept := inductionHypothesis within'
      (keeps _ _ _ _ _ (inherited _ rest (split ▸ within)) start stepped) tail
    rwa [List.append_assoc, List.singleton_append] at kept

/-- The invariant rule for operations that are restricted one by one. -/
theorem run_invariant_of_forall (invariant : List (Op × Out) → State → Prop)
    (permitted : Op → Prop)
    (keeps : ∀ history state op next out, permitted op → invariant history state →
      step state op = some (next, out) → invariant (history ++ [(op, out)]) next)
    {state final : State} {ops : List Op} {outputs : List Out}
    (all : ∀ op ∈ ops, permitted op) (start : invariant [] state)
    (done : run step state ops = some (final, outputs)) :
    invariant (ops.zip outputs) final := by
  have kept := run_invariant invariant (fun ops => ∀ op ∈ ops, permitted op)
    (fun _ _ all op member => all op (List.mem_append_left _ member))
    (fun history state op next out all => keeps history state op next out
      (all op (List.mem_append_right _ (List.mem_singleton_self _))))
    all start done
  rwa [List.nil_append] at kept

/-- The simulation rule: machines whose steps simulate each other, with equal outputs, have
runs that fail together and otherwise give the same outputs. -/
theorem run_simulation (related : List Op → State → State' → Prop) (allowed : List Op → Prop)
    (inherited : ∀ earlier later, allowed (earlier ++ later) → allowed earlier)
    (simulates : ∀ history state state' op, allowed (history ++ [op]) →
      related history state state' →
        Option.Rel (fun x y => related (history ++ [op]) x.1 y.1 ∧ x.2 = y.2)
          (step state op) (step' state' op))
    (history : List Op) {state : State} {state' : State'} {ops : List Op}
    (within : allowed (history ++ ops)) (start : related history state state') :
    Option.Rel (fun x y => related (history ++ ops) x.1 y.1 ∧ x.2 = y.2)
      (run step state ops) (run step' state' ops) := by
  induction ops generalizing history state state' with
  | nil =>
    rw [List.append_nil]
    exact Option.Rel.some ⟨start, rfl⟩
  | cons op rest inductionHypothesis =>
    have split : history ++ op :: rest = history ++ [op] ++ rest := by simp
    rw [split] at within ⊢
    rw [run_cons, run_cons]
    refine Option.rel_bind (simulates _ _ _ op (inherited _ _ within) start) fun x y both => ?_
    refine Option.rel_map (inductionHypothesis _ within both.1) fun x' y' both' => ?_
    exact ⟨both'.1, by rw [both.2, both'.2]⟩

/-- The simulation rule without a history. -/
theorem run_rel (related : State → State' → Prop)
    (simulates : ∀ state state' op, related state state' →
      Option.Rel (fun x y => related x.1 y.1 ∧ x.2 = y.2) (step state op) (step' state' op))
    {state : State} {state' : State'} (start : related state state') (ops : List Op) :
    Option.Rel (fun x y => related x.1 y.1 ∧ x.2 = y.2)
      (run step state ops) (run step' state' ops) := by
  exact run_simulation (fun _ => related) (fun _ => True) (fun _ _ _ => trivial)
    (fun _ state state' op _ => simulates state state' op) [] trivial start

/-! ### Runs whose steps meet a condition -/

/-- Along the run, every operation meets the condition in the state it is done in. -/
def Meets (step : State → Op → Option (State × Out)) (condition : State → Op → Prop) :
    State → List Op → Prop
  | _, [] => True
  | state, op :: rest =>
    condition state op ∧ ∀ next, step state op = some next → Meets step condition next.1 rest

instance decidableMeets {condition : State → Op → Prop}
    [∀ state op, Decidable (condition state op)] :
    ∀ state ops, Decidable (Meets step condition state ops)
  | _, [] => isTrue trivial
  | state, op :: rest =>
    have (next : State × Out) : Decidable (Meets step condition next.1 rest) :=
      decidableMeets next.1 rest
    inferInstanceAs (Decidable (condition state op ∧
      ∀ next ∈ step state op, Meets step condition next.1 rest))

/-- The invariant rule for such runs. -/
theorem run_invariant_of_meets {condition : State → Op → Prop} {invariant : State → Prop}
    (keeps : ∀ state op next out, condition state op → invariant state →
      step state op = some (next, out) → invariant next)
    {state final : State} {ops : List Op} {outputs : List Out} (start : invariant state)
    (meets : Meets step condition state ops)
    (done : run step state ops = some (final, outputs)) : invariant final := by
  induction ops generalizing state outputs with
  | nil =>
    simp only [run_nil, Option.some.injEq, Prod.mk.injEq] at done
    rwa [← done.1]
  | cons op rest inductionHypothesis =>
    obtain ⟨middle, output, others, stepped, tail, rfl⟩ := run_cons_eq_some.mp done
    exact inductionHypothesis (keeps _ _ _ _ meets.1 start stepped) (meets.2 _ stepped) tail

/-- The invariant rule for such runs, with a history. -/
theorem run_history_of_meets {condition : State → Op → Prop}
    (invariant : List (Op × Out) → State → Prop) (allowed : List Op → Prop)
    (inherited : ∀ earlier later, allowed (earlier ++ later) → allowed earlier)
    (keeps : ∀ history state op next out, allowed (history.map Prod.fst ++ [op]) →
      condition state op → invariant history state → step state op = some (next, out) →
        invariant (history ++ [(op, out)]) next)
    {history : List (Op × Out)} {state final : State} {ops : List Op} {outputs : List Out}
    (within : allowed (history.map Prod.fst ++ ops)) (start : invariant history state)
    (meets : Meets step condition state ops)
    (done : run step state ops = some (final, outputs)) :
    invariant (history ++ ops.zip outputs) final := by
  induction ops generalizing history state outputs with
  | nil =>
    simp only [run_nil, Option.some.injEq, Prod.mk.injEq] at done
    obtain ⟨rfl, rfl⟩ := done
    rwa [List.zip_nil_left, List.append_nil]
  | cons op rest inductionHypothesis =>
    obtain ⟨middle, output, others, stepped, tail, rfl⟩ := run_cons_eq_some.mp done
    have split : history.map Prod.fst ++ op :: rest = history.map Prod.fst ++ [op] ++ rest := by
      simp
    rw [split] at within
    have kept := inductionHypothesis
      (show allowed ((history ++ [(op, output)]).map Prod.fst ++ rest) by rwa [List.map_append])
      (keeps _ _ _ _ _ (inherited _ _ within) meets.1 start stepped)
      (meets.2 _ stepped) tail
    rwa [List.append_assoc, List.singleton_append] at kept

/-- The progress rule for such runs: they go through if every step does that can follow. The
history pairs the operations with their outputs. -/
theorem run_answers_of_meets {condition : State → Op → Prop}
    (invariant : List (Op × Out) → State → Prop) (allowed : List Op → Prop)
    (inherited : ∀ earlier later, allowed (earlier ++ later) → allowed earlier)
    (proceeds : ∀ history state op, allowed (history.map Prod.fst ++ [op]) → condition state op →
      invariant history state →
        ∃ next out, step state op = some (next, out) ∧ invariant (history ++ [(op, out)]) next)
    (history : List (Op × Out)) {state : State} {ops : List Op}
    (within : allowed (history.map Prod.fst ++ ops)) (start : invariant history state)
    (meets : Meets step condition state ops) :
    ∃ final outputs, run step state ops = some (final, outputs) ∧
      invariant (history ++ ops.zip outputs) final := by
  induction ops generalizing history state with
  | nil => exact ⟨state, [], rfl, by rwa [List.zip_nil_left, List.append_nil]⟩
  | cons op rest inductionHypothesis =>
    have split : history.map Prod.fst ++ op :: rest = history.map Prod.fst ++ [op] ++ rest := by
      simp
    rw [split] at within
    obtain ⟨next, out, stepped, holds⟩ :=
      proceeds history state op (inherited _ _ within) meets.1 start
    obtain ⟨final, outputs, done, kept⟩ :=
      inductionHypothesis (history ++ [(op, out)]) (by rwa [List.map_append]) holds
        (meets.2 _ stepped)
    refine ⟨final, out :: outputs, run_cons_eq_some.mpr ⟨next, out, outputs, stepped, done, rfl⟩, ?_⟩
    rwa [List.append_assoc, List.singleton_append] at kept

/-- The same, with a history of the operations alone. -/
theorem run_total_of_meets {condition : State → Op → Prop} (invariant : List Op → State → Prop)
    (allowed : List Op → Prop)
    (inherited : ∀ earlier later, allowed (earlier ++ later) → allowed earlier)
    (proceeds : ∀ history state op, allowed (history ++ [op]) → condition state op →
      invariant history state →
        ∃ next out, step state op = some (next, out) ∧ invariant (history ++ [op]) next)
    (history : List Op) {state : State} {ops : List Op} (within : allowed (history ++ ops))
    (start : invariant history state) (meets : Meets step condition state ops) :
    ∃ final outputs, run step state ops = some (final, outputs) ∧
      invariant (history ++ ops) final := by
  obtain ⟨final, outputs, done, kept⟩ := run_answers_of_meets
    (fun past state => invariant (history ++ past.map Prod.fst) state)
    (fun ops => allowed (history ++ ops))
    (fun earlier later within => inherited _ later (by rwa [List.append_assoc]))
    (fun past state op within holds start => by
      rw [← List.append_assoc] at within
      obtain ⟨next, out, stepped, kept⟩ := proceeds _ state op within holds start
      refine ⟨next, out, stepped, ?_⟩
      rwa [List.map_append, ← List.append_assoc])
    [] within (by rwa [List.map_nil, List.append_nil]) meets
  refine ⟨final, outputs, done, ?_⟩
  rwa [List.nil_append, List.map_fst_zip (length_run done).ge] at kept

end PartialRun
