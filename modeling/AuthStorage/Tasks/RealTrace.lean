/-
This file models `real_trace.rs`, the player of a recorded trace. A thread loads
the files of the trace in order and sends the blocks of each; the player takes
blocks out of the file it received last, several for one item if they are
grouped, and stops at the first item without an event. The file states when that
replays the trace: no file may be empty, the blocks of a file are taken from its
end, and a group that happens to be empty ends the trace.
-/

import Mathlib.Tactic

namespace AuthStorage.Tasks

/-- The keys and values of events, of any length. -/
abbrev Bytes := List UInt8

/-! ### The trace -/

/-- One line of a trace file. -/
inductive ExperimentTask
  | read (key : Vector UInt8 32)
  | write (key : Vector UInt8 32) (value : Bytes)
deriving DecidableEq

/-- One call of the store under test. -/
inductive Event
  | read (key : Bytes)
  | write (key value : Bytes)
deriving DecidableEq

/-- The calls of one group. -/
abbrev Events := List Event

/-- What the loader makes of one entry of a block. -/
def toEvent : ExperimentTask → Event
  | .read key => .read key.toList
  | .write key value => .write key.toList value

/-- The blocks of a file, each as its events. -/
def loadFile (blockGroup : List (List ExperimentTask)) : List Events :=
  blockGroup.map fun block => block.map toEvent

theorem toEvent_injective : Function.Injective toEvent := by
  intro first second same
  cases first with
  | read key =>
    cases second with
    | read other => rw [Vector.toList_inj.mp (Event.read.inj same)]
    | write other value => cases same
  | write key value =>
    cases second with
    | read other => cases same
    | write other otherValue =>
      obtain ⟨sameKey, sameValue⟩ := Event.write.inj same
      rw [Vector.toList_inj.mp sameKey, sameValue]

/-! ### The player -/

/-- `receiver` holds what the loader has still to send; it hangs up behind the last file. -/
structure TaskProducer where
  receiver : List (List Events)
  groupSize : Nat
  events : List Events

namespace TaskProducer

/-- The producer before the first file is read. -/
def new (files : List (List (List ExperimentTask))) (groupSize : Nat) : TaskProducer where
  receiver := files.map loadFile
  groupSize := groupSize
  events := []

/-- `self.events.pop().unwrap()`. -/
def popEvents (producer : TaskProducer) : Option (Option Events × TaskProducer) :=
  producer.events.getLast?.map fun events =>
    (some events, { producer with events := producer.events.dropLast })

/-- The next block, from the next file when the last one is used up. -/
def pickNext (producer : TaskProducer) : Option (Option Events × TaskProducer) :=
  if producer.events = [] then
    match producer.receiver with
    | [] => some (none, producer)
    | events :: receiver => popEvents { producer with receiver, events }
  else
    popEvents producer

/-- The loop over a group; after the end of the trace it goes on without effect. -/
def pickGroup : Nat → TaskProducer → Events → Option (Events × TaskProducer)
  | 0, producer, grouped => some (grouped, producer)
  | count + 1, producer, grouped => do
    let (picked, producer) ← producer.pickNext
    pickGroup count producer (grouped ++ picked.getD [])

/-- `Iterator::next`. -/
def next (producer : TaskProducer) : Option (Option Events × TaskProducer) :=
  if producer.groupSize = 1 then
    producer.pickNext
  else do
    let (grouped, producer) ← pickGroup producer.groupSize producer []
    some (if grouped = [] then none else some grouped, producer)

/-! ### What one step takes -/

/-- The blocks still to come, in the order in which they are taken. -/
def pending (producer : TaskProducer) : List Events :=
  producer.events.reverse ++ producer.receiver.flatMap List.reverse

/-- From one state to the other some files were opened, none of them empty. -/
structure Opens (first second : TaskProducer) : Prop where
  sameGroupSize : second.groupSize = first.groupSize
  opened : ∃ files, first.receiver = files ++ second.receiver ∧ ∀ file ∈ files, file ≠ []

theorem Opens.refl (producer : TaskProducer) : Opens producer producer := ⟨rfl, [], rfl, nofun⟩

theorem Opens.trans {first second third : TaskProducer} (left : Opens first second)
    (right : Opens second third) : Opens first third := by
  obtain ⟨files, split, nonempty⟩ := left.opened
  obtain ⟨files', split', nonempty'⟩ := right.opened
  refine ⟨right.sameGroupSize.trans left.sameGroupSize, files ++ files', ?_, ?_⟩
  · rw [split, split', List.append_assoc]
  · exact List.forall_mem_append.mpr ⟨nonempty, nonempty'⟩

theorem popEvents_eq_some {producer rest : TaskProducer} {picked : Option Events}
    (done : producer.popEvents = some (picked, rest)) :
    ∃ events, picked = some events ∧ producer.events = rest.events ++ [events] ∧
      rest = { producer with events := rest.events } := by
  obtain ⟨events, last, same⟩ := Option.map_eq_some_iff.mp done
  obtain ⟨rfl, rfl⟩ := Prod.mk.inj same
  exact ⟨events, rfl, (List.dropLast_append_getLast? events last).symm, rfl⟩

/-- A block is the first of those to come; there is none only behind the last file. -/
theorem pickNext_eq_some {producer rest : TaskProducer} {picked : Option Events}
    (done : producer.pickNext = some (picked, rest)) :
    Opens producer rest ∧ picked = producer.pending.head? ∧
      rest.pending = producer.pending.tail := by
  rw [pickNext] at done
  split at done
  · rename_i used
    cases incoming : producer.receiver with
    | nil =>
      rw [incoming] at done
      obtain ⟨rfl, rfl⟩ := Prod.mk.inj (Option.some.inj done)
      have none_left : producer.pending = [] := by
        rw [pending, used, incoming]
        rfl
      rw [none_left]
      exact ⟨Opens.refl _, rfl, rfl⟩
    | cons file files =>
      rw [incoming] at done
      obtain ⟨events, rfl, split, same⟩ := popEvents_eq_some done
      have split : file = rest.events ++ [events] := split
      have receiver : rest.receiver = files := by rw [same]
      have coming : producer.pending = events :: rest.pending := by
        rw [pending, pending, used, incoming, receiver, List.flatMap_cons, split,
          List.reverse_append]
        rfl
      rw [coming]
      refine ⟨⟨by rw [same], [file], by rw [incoming, receiver]; rfl, ?_⟩, rfl, rfl⟩
      intro opened member
      rw [List.mem_singleton.mp member, split]
      exact List.concat_ne_nil _ _
  · obtain ⟨events, rfl, split, same⟩ := popEvents_eq_some done
    have receiver : rest.receiver = producer.receiver := by rw [same]
    have coming : producer.pending = events :: rest.pending := by
      rw [pending, pending, receiver, split, List.reverse_append]
      rfl
    rw [coming]
    exact ⟨⟨by rw [same], [], receiver.symm, nofun⟩, rfl, rfl⟩

/-- Only an empty file stops the player with a panic. -/
theorem pickNext_isSome {producer : TaskProducer}
    (nonempty : ∀ file ∈ producer.receiver, file ≠ []) :
    ∃ picked rest, producer.pickNext = some (picked, rest) := by
  have pops : ∀ producer : TaskProducer, producer.events ≠ [] →
      ∃ picked rest, producer.popEvents = some (picked, rest) := by
    intro producer some_left
    exact ⟨_, _, by rw [popEvents, List.getLast?_eq_getLast_of_ne_nil some_left]; rfl⟩
  rw [pickNext]
  split
  · cases incoming : producer.receiver with
    | nil => exact ⟨_, _, rfl⟩
    | cons file files => exact pops _ (nonempty file (incoming ▸ List.mem_cons_self))
  · rename_i some_left
    exact pops producer some_left

theorem pickGroup_eq_some {count : Nat} {producer rest : TaskProducer} {grouped all : Events}
    (done : pickGroup count producer grouped = some (all, rest)) :
    Opens producer rest ∧ all = grouped ++ (producer.pending.take count).flatten ∧
      rest.pending = producer.pending.drop count := by
  induction count generalizing producer grouped with
  | zero =>
    obtain ⟨rfl, rfl⟩ := Prod.mk.inj (Option.some.inj done)
    exact ⟨Opens.refl _, by rw [List.take_zero, List.flatten_nil, List.append_nil], rfl⟩
  | succ count inductionHypothesis =>
    obtain ⟨⟨picked, middle⟩, picks, done⟩ := Option.bind_eq_some_iff.mp done
    obtain ⟨opens, head, tail⟩ := pickNext_eq_some picks
    obtain ⟨opens', taken, dropped⟩ := inductionHypothesis done
    rw [tail] at taken dropped
    refine ⟨opens.trans opens', ?_, ?_⟩
    · rw [taken, head, List.append_assoc]
      cases producer.pending <;> simp
    · rw [dropped]
      cases producer.pending <;> simp

theorem pickGroup_isSome (count : Nat) {producer : TaskProducer} (grouped : Events)
    (nonempty : ∀ file ∈ producer.receiver, file ≠ []) :
    ∃ all rest, pickGroup count producer grouped = some (all, rest) := by
  induction count generalizing producer grouped with
  | zero => exact ⟨_, _, rfl⟩
  | succ count inductionHypothesis =>
    obtain ⟨picked, middle, picks⟩ := pickNext_isSome nonempty
    obtain ⟨files, split, -⟩ := (pickNext_eq_some picks).1.opened
    obtain ⟨all, rest, done⟩ := inductionHypothesis (grouped ++ picked.getD [])
      fun file member => nonempty file (split ▸ List.mem_append_right _ member)
    exact ⟨all, rest, by rw [pickGroup, picks]; exact done⟩

/-- An item is the next group of blocks, or the next block alone. A group without an event ends
the iteration; so does the end of the trace. -/
theorem next_eq_some {producer rest : TaskProducer} {item : Option Events}
    (done : producer.next = some (item, rest)) :
    Opens producer rest ∧ rest.pending = producer.pending.drop producer.groupSize ∧
      if producer.groupSize = 1 then item = producer.pending.head?
      else item = if (producer.pending.take producer.groupSize).flatten = [] then none
        else some (producer.pending.take producer.groupSize).flatten := by
  rw [next] at done
  by_cases single : producer.groupSize = 1
  · rw [if_pos single] at done
    obtain ⟨opens, head, tail⟩ := pickNext_eq_some done
    rw [if_pos single, single, List.drop_one]
    exact ⟨opens, tail, head⟩
  · rw [if_neg single] at done
    obtain ⟨⟨grouped, last⟩, picks, done⟩ := Option.bind_eq_some_iff.mp done
    obtain ⟨rfl, rfl⟩ := Prod.mk.inj (Option.some.inj done)
    obtain ⟨opens, taken, dropped⟩ := pickGroup_eq_some picks
    rw [List.nil_append] at taken
    rw [if_neg single, taken]
    exact ⟨opens, dropped, rfl⟩

theorem next_isSome {producer : TaskProducer} (nonempty : ∀ file ∈ producer.receiver, file ≠ []) :
    ∃ item rest, producer.next = some (item, rest) := by
  rw [next]
  split
  · exact pickNext_isSome nonempty
  · obtain ⟨all, rest, done⟩ := pickGroup_isSome producer.groupSize [] nonempty
    exact ⟨_, rest, by rw [done]; rfl⟩

/-- An item takes at least one block. -/
theorem length_pending_lt {producer rest : TaskProducer} {item : Events}
    (done : producer.next = some (some item, rest)) :
    rest.pending.length < producer.pending.length := by
  obtain ⟨-, dropped, taken⟩ := next_eq_some done
  rw [dropped, List.length_drop]
  by_cases single : producer.groupSize = 1
  · rw [if_pos single] at taken
    cases left : producer.pending with
    | nil => rw [left] at taken; cases taken
    | cons block blocks => rw [single, List.length_cons]; omega
  · rw [if_neg single] at taken
    have some_taken : producer.pending.take producer.groupSize ≠ [] := by
      intro nothing
      rw [nothing] at taken
      cases taken
    have positive := List.length_pos_of_ne_nil some_taken
    rw [List.length_take] at positive
    omega

/-- All items of the iteration, with the player it leaves behind. -/
def items (producer : TaskProducer) : Option (List Events × TaskProducer) :=
  match _done : producer.next with
  | none => none
  | some (none, rest) => some ([], rest)
  | some (some item, rest) => (items rest).map fun later => (item :: later.1, later.2)
termination_by producer.pending.length
decreasing_by exact length_pending_lt _done

theorem items_eq (producer : TaskProducer) :
    producer.items = producer.next.bind fun step =>
      match step.1 with
      | none => some ([], step.2)
      | some item => step.2.items.map fun later => (item :: later.1, later.2) := by
  rw [items]
  split <;> simp [*]

theorem items_eq_some {producer final : TaskProducer} {all : List Events}
    (done : producer.items = some (all, final)) :
    (producer.next = some (none, final) ∧ all = []) ∨
      ∃ item rest later, producer.next = some (some item, rest) ∧
        rest.items = some (later, final) ∧ all = item :: later := by
  rw [items_eq] at done
  obtain ⟨⟨item, rest⟩, went, done⟩ := Option.bind_eq_some_iff.mp done
  cases item with
  | none =>
    obtain ⟨rfl, rfl⟩ := Prod.mk.inj (Option.some.inj done)
    exact Or.inl ⟨went, rfl⟩
  | some item =>
    obtain ⟨⟨later, last⟩, rest_done, same⟩ := Option.map_eq_some_iff.mp done
    obtain ⟨rfl, rfl⟩ := Prod.mk.inj same
    exact Or.inr ⟨item, rest, later, went, rest_done, rfl⟩

/-! ### What a whole iteration takes -/

/-- What holds of a player that stops, and of one from what holds after its next item, holds of
every player that does not panic. -/
theorem items_induction {motive : TaskProducer → List Events → TaskProducer → Prop}
    (stop : ∀ producer final, producer.next = some (none, final) → motive producer [] final)
    (more : ∀ producer item rest later final, producer.next = some (some item, rest) →
      motive rest later final → motive producer (item :: later) final)
    {producer final : TaskProducer} {all : List Events}
    (done : producer.items = some (all, final)) : motive producer all final := by
  induction count : producer.pending.length using Nat.strong_induction_on
    generalizing producer all with
  | _ count inductionHypothesis =>
    rcases items_eq_some done with ⟨went, rfl⟩ | ⟨item, rest, later, went, restDone, rfl⟩
    · exact stop _ _ went
    · exact more _ _ _ _ _ went
        (inductionHypothesis _ (count ▸ length_pending_lt went) restDone rfl)

theorem items_opens {producer final : TaskProducer} {all : List Events}
    (done : producer.items = some (all, final)) : Opens producer final :=
  items_induction (motive := fun producer _ final => Opens producer final)
    (fun _ _ went => (next_eq_some went).1)
    (fun _ _ _ _ _ went rest => (next_eq_some went).1.trans rest) done

theorem items_isSome {producer : TaskProducer}
    (nonempty : ∀ file ∈ producer.receiver, file ≠ []) :
    ∃ all final, producer.items = some (all, final) := by
  induction count : producer.pending.length using Nat.strong_induction_on
    generalizing producer with
  | _ count inductionHypothesis =>
    obtain ⟨item, rest, went⟩ := next_isSome nonempty
    cases item with
    | none => exact ⟨[], rest, by rw [items_eq, went]; rfl⟩
    | some item =>
      obtain ⟨files, split, -⟩ := (next_eq_some went).1.opened
      obtain ⟨later, final, done⟩ := inductionHypothesis _ (count ▸ length_pending_lt went)
        (fun file member => nonempty file (split ▸ List.mem_append_right _ member)) rfl
      exact ⟨item :: later, final, by rw [items_eq, went, Option.bind_some, done]; rfl⟩

/-- The items hold the events of the blocks that were taken. -/
theorem items_flatten {producer final : TaskProducer} {all : List Events}
    (done : producer.items = some (all, final)) :
    all.flatten ++ final.pending.flatten = producer.pending.flatten := by
  refine items_induction (motive := fun producer all final =>
    all.flatten ++ final.pending.flatten = producer.pending.flatten) ?_ ?_ done
  · intro producer final went
    obtain ⟨-, dropped, taken⟩ := next_eq_some went
    have nothing : (producer.pending.take producer.groupSize).flatten = [] := by
      by_cases single : producer.groupSize = 1
      · rw [if_pos single] at taken
        rw [List.head?_eq_none_iff.mp taken.symm, List.take_nil, List.flatten_nil]
      · rw [if_neg single] at taken
        by_contra some_taken
        rw [if_neg some_taken] at taken
        cases taken
    rw [dropped, List.flatten_nil, ← nothing, ← List.flatten_append, List.take_append_drop]
  · intro producer item rest later final went inductionHypothesis
    obtain ⟨-, dropped, taken⟩ := next_eq_some went
    have item_eq : item = (producer.pending.take producer.groupSize).flatten := by
      by_cases single : producer.groupSize = 1
      · rw [if_pos single] at taken
        rw [single]
        cases left : producer.pending with
        | nil => rw [left] at taken; cases taken
        | cons block blocks =>
          rw [left] at taken
          rw [Option.some.inj taken]
          simp
      · rw [if_neg single] at taken
        by_cases nothing : (producer.pending.take producer.groupSize).flatten = []
        · rw [if_pos nothing] at taken
          cases taken
        · rw [if_neg nothing] at taken
          exact Option.some.inj taken
    rw [List.flatten_cons, List.append_assoc, inductionHypothesis, dropped, item_eq,
      ← List.flatten_append, List.take_append_drop]

/-- The iteration goes through all the blocks: no group is empty while there are blocks behind. -/
def Uninterrupted {α : Type} (groupSize : Nat) (blocks : List (List α)) : Prop :=
  groupSize = 1 ∨ ∀ group, (group + 1) * groupSize < blocks.length →
    ((blocks.drop (group * groupSize)).take groupSize).flatten ≠ []

/-- The first group, and the groups behind it. -/
theorem uninterrupted_iff {α : Type} {groupSize : Nat} (several : groupSize ≠ 1)
    (blocks : List (List α)) :
    Uninterrupted groupSize blocks ↔
      (groupSize < blocks.length → (blocks.take groupSize).flatten ≠ []) ∧
        Uninterrupted groupSize (blocks.drop groupSize) := by
  have shift (group : Nat) : (blocks.drop groupSize).drop (group * groupSize) =
      blocks.drop ((group + 1) * groupSize) := by
    rw [List.drop_drop, Nat.succ_mul, Nat.add_comm]
  rw [Uninterrupted, Uninterrupted, or_iff_right several, or_iff_right several]
  constructor
  · intro all
    refine ⟨fun more => ?_, fun group more => ?_⟩
    · have first := all 0
      rw [Nat.zero_add, Nat.one_mul, Nat.zero_mul, List.drop_zero] at first
      exact first more
    · rw [List.length_drop] at more
      rw [shift]
      refine all (group + 1) ?_
      rw [Nat.succ_mul]
      omega
  · rintro ⟨first, behind⟩ group more
    cases group with
    | zero =>
      rw [Nat.zero_add, Nat.one_mul] at more
      rw [Nat.zero_mul, List.drop_zero]
      exact first more
    | succ group =>
      rw [← shift]
      refine behind group ?_
      rw [Nat.succ_mul] at more
      rw [List.length_drop]
      omega

theorem uninterrupted_nil {α : Type} (groupSize : Nat) :
    Uninterrupted groupSize ([] : List (List α)) := Or.inr fun _ more => by cases more

/-- The player gets to the end of the trace exactly if no group on the way is empty. -/
theorem items_pending_iff {producer final : TaskProducer} {all : List Events}
    (done : producer.items = some (all, final)) :
    final.pending = [] ↔ Uninterrupted producer.groupSize producer.pending := by
  refine items_induction (motive := fun producer _ final =>
    final.pending = [] ↔ Uninterrupted producer.groupSize producer.pending) ?_ ?_ done
  · intro producer final went
    obtain ⟨-, dropped, taken⟩ := next_eq_some went
    by_cases single : producer.groupSize = 1
    · rw [if_pos single] at taken
      rw [dropped, List.head?_eq_none_iff.mp taken.symm, List.drop_nil]
      exact iff_of_true rfl (uninterrupted_nil _)
    · rw [if_neg single] at taken
      have nothing : (producer.pending.take producer.groupSize).flatten = [] := by
        by_contra some_taken
        rw [if_neg some_taken] at taken
        cases taken
      rw [uninterrupted_iff single, dropped, List.drop_eq_nil_iff]
      constructor
      · intro short
        rw [List.drop_of_length_le short]
        exact ⟨fun more => absurd more (Nat.not_lt.mpr short), uninterrupted_nil _⟩
      · rintro ⟨first, -⟩
        exact Nat.le_of_not_lt fun more => first more nothing
  · intro producer item rest later final went inductionHypothesis
    obtain ⟨opens, dropped, taken⟩ := next_eq_some went
    rw [inductionHypothesis, opens.sameGroupSize, dropped]
    by_cases single : producer.groupSize = 1
    · exact iff_of_true (Or.inl single) (Or.inl single)
    · rw [if_neg single] at taken
      rw [uninterrupted_iff single producer.pending]
      refine (and_iff_right fun _ nothing => ?_).symm
      rw [if_pos nothing] at taken
      cases taken

/-! ### When the trace is replayed -/

/-- The player does not panic, it yields the events of all blocks in the order of the files, and
it stops only behind the last file. -/
def Replays (files : List (List (List ExperimentTask))) (groupSize : Nat) : Prop :=
  ∃ all final, (new files groupSize).items = some (all, final) ∧
    all.flatten = (files.flatten.flatten).map toEvent ∧
    final.events = [] ∧ final.receiver = []

theorem flatten_loadFile (file : List (List ExperimentTask)) :
    (loadFile file).flatten = file.flatten.map toEvent := List.map_flatten.symm

theorem pending_new (files : List (List (List ExperimentTask))) (groupSize : Nat) :
    (new files groupSize).pending = loadFile (files.flatMap List.reverse) := by
  rw [pending, new]
  show [] ++ (files.map loadFile).flatMap List.reverse = _
  rw [List.nil_append, List.flatMap_map, loadFile, List.map_flatMap]
  exact List.flatMap_congr fun file _ => List.map_reverse.symm

/-- The blocks taken from the end of each file are in order exactly if those of each file are. -/
theorem flatten_reverse_iff {α : Type} (files : List (List (List α))) :
    (files.flatMap List.reverse).flatten = files.flatten.flatten ↔
      ∀ file ∈ files, file.reverse.flatten = file.flatten := by
  induction files with
  | nil => exact iff_of_true rfl nofun
  | cons file rest inductionHypothesis =>
    have sameLength : file.reverse.flatten.length = file.flatten.length :=
      ((List.reverse_perm file).flatten).length_eq
    rw [List.flatMap_cons, List.flatten_append, List.flatten_cons, List.flatten_append,
      List.forall_mem_cons, ← inductionHypothesis]
    constructor
    · intro same
      exact List.append_inj same sameLength
    · rintro ⟨first, others⟩
      rw [first, others]

theorem loadFile_ne_nil_iff (files : List (List (List ExperimentTask))) :
    (∀ file ∈ files.map loadFile, file ≠ []) ↔ ∀ file ∈ files, file ≠ [] := by
  simp [loadFile]

theorem uninterrupted_loadFile (groupSize : Nat) (blocks : List (List ExperimentTask)) :
    Uninterrupted groupSize (loadFile blocks) ↔ Uninterrupted groupSize blocks := by
  refine or_congr_right (forall_congr' fun group => ?_)
  rw [loadFile, List.length_map, ← List.map_drop, ← List.map_take, ← List.map_flatten, ne_eq,
    List.map_eq_nil_iff]

theorem pending_eq_nil_iff {producer : TaskProducer}
    (nonempty : ∀ file ∈ producer.receiver, file ≠ []) :
    producer.pending = [] ↔ producer.events = [] ∧ producer.receiver = [] := by
  rw [pending, List.append_eq_nil_iff, List.reverse_eq_nil_iff, List.flatMap_eq_nil_iff]
  refine and_congr_right fun _ => ?_
  constructor
  · intro reversed
    refine List.eq_nil_iff_forall_not_mem.mpr fun file member => nonempty file member ?_
    exact List.reverse_eq_nil_iff.mp (reversed file member)
  · intro none_left file member
    rw [none_left] at member
    cases member

theorem Replays.nonempty {files : List (List (List ExperimentTask))} {groupSize : Nat}
    (replays : Replays files groupSize) : ∀ file ∈ files, file ≠ [] := by
  obtain ⟨all, final, done, -, -, through⟩ := replays
  obtain ⟨opened, split, nonempty⟩ := (items_opens done).opened
  rw [through, List.append_nil] at split
  rw [← loadFile_ne_nil_iff]
  exact fun file member => nonempty file (split ▸ member)

/-- Once the player is through, it has yielded the blocks of each file from the last to the
first. -/
theorem items_new {files : List (List (List ExperimentTask))} {groupSize : Nat}
    {final : TaskProducer} {all : List Events}
    (done : (new files groupSize).items = some (all, final)) (through : final.pending = []) :
    all.flatten = (files.flatMap List.reverse).flatten.map toEvent := by
  have taken := items_flatten done
  rw [through, List.flatten_nil, List.append_nil, pending_new, flatten_loadFile] at taken
  exact taken

theorem Replays.ordered {files : List (List (List ExperimentTask))} {groupSize : Nat}
    (replays : Replays files groupSize) :
    ∀ file ∈ files, file.reverse.flatten = file.flatten := by
  obtain ⟨all, final, done, inOrder, used, through⟩ := replays
  have behind : final.pending = [] := by
    rw [pending, used, through]
    rfl
  rw [items_new done behind] at inOrder
  exact (flatten_reverse_iff files).mp (toEvent_injective.list_map inOrder)

/-- The trace is replayed exactly if no file is empty, no file shows that its blocks are taken from
its end, and no empty group ends the iteration early. -/
theorem replays_iff (files : List (List (List ExperimentTask))) (groupSize : Nat) :
    Replays files groupSize ↔
      (∀ file ∈ files, file ≠ [] ∧ file.reverse.flatten = file.flatten) ∧
        Uninterrupted groupSize (files.flatMap List.reverse) := by
  constructor
  · intro replays
    refine ⟨fun file member => ⟨replays.nonempty file member, replays.ordered file member⟩, ?_⟩
    obtain ⟨all, final, done, -, used, through⟩ := replays
    rw [← uninterrupted_loadFile, ← pending_new files groupSize]
    refine (items_pending_iff done).mp ?_
    rw [pending, used, through]
    rfl
  · rintro ⟨each, whole⟩
    have nonempty := (loadFile_ne_nil_iff files).mpr fun file member => (each file member).1
    obtain ⟨all, final, done⟩ :=
      items_isSome (show ∀ file ∈ (new files groupSize).receiver, file ≠ [] from nonempty)
    rw [← uninterrupted_loadFile, ← pending_new files groupSize] at whole
    have through := (items_pending_iff done).mpr whole
    obtain ⟨opened, split, -⟩ := (items_opens done).opened
    have split : files.map loadFile = opened ++ final.receiver := split
    have left : ∀ file ∈ final.receiver, file ≠ [] := fun file member =>
      nonempty file (split ▸ List.mem_append_right _ member)
    obtain ⟨used, received⟩ := (pending_eq_nil_iff left).mp through
    refine ⟨all, final, done, ?_, used, received⟩
    rw [items_new done through]
    exact congrArg _ ((flatten_reverse_iff files).mpr fun file member => (each file member).2)

/-- Two blocks of one file, each writing to the same key. -/
def twoBlocks : List (List ExperimentTask) :=
  [[.write (Vector.replicate 32 0) [1]], [.write (Vector.replicate 32 0) [2]]]

theorem not_replays_twoBlocks :
    ¬ ∀ (files : List (List (List ExperimentTask))) (groupSize : Nat), 1 ≤ groupSize →
      Replays files groupSize := by
  intro all
  have ordered := (all [twoBlocks] 1 le_rfl).ordered twoBlocks (List.mem_singleton_self _)
  revert ordered
  decide

/-- Blocks with an event in each make no group empty. -/
theorem uninterrupted_of_forall {α : Type} {groupSize : Nat} (positive : 1 ≤ groupSize)
    {blocks : List (List α)} (each : ∀ block ∈ blocks, block ≠ []) :
    Uninterrupted groupSize blocks := by
  refine Or.inr fun group more empty => ?_
  rw [Nat.succ_mul] at more
  have inside : group * groupSize < blocks.length := by omega
  have first : blocks[group * groupSize] ∈ (blocks.drop (group * groupSize)).take groupSize := by
    rw [List.drop_eq_getElem_cons inside]
    obtain ⟨size, rfl⟩ := Nat.exists_eq_add_of_le' positive
    exact List.mem_cons_self
  exact each _ (List.getElem_mem inside) (List.flatten_eq_nil_iff.mp empty _ first)

/-- If no file and no block is empty, all group sizes yield the same events: the blocks of each
file from the last to the first. -/
theorem items_of_forall (files : List (List (List ExperimentTask)))
    (nonempty : ∀ file ∈ files, file ≠ [] ∧ ∀ block ∈ file, block ≠ []) {groupSize : Nat}
    (positive : 1 ≤ groupSize) :
    ∃ all final, (new files groupSize).items = some (all, final) ∧
      all.flatten = (files.flatMap List.reverse).flatten.map toEvent := by
  have opened := (loadFile_ne_nil_iff files).mpr fun file member => (nonempty file member).1
  obtain ⟨all, final, done⟩ :=
    items_isSome (show ∀ file ∈ (new files groupSize).receiver, file ≠ [] from opened)
  have whole : Uninterrupted groupSize (files.flatMap List.reverse) := by
    refine uninterrupted_of_forall positive fun block member => ?_
    obtain ⟨file, fileMember, blockMember⟩ := List.mem_flatMap.mp member
    exact (nonempty file fileMember).2 block (List.mem_reverse.mp blockMember)
  rw [← uninterrupted_loadFile, ← pending_new files groupSize] at whole
  exact ⟨all, final, done, items_new done ((items_pending_iff done).mpr whole)⟩

end TaskProducer

/-! ### The task -/

/-- The stores that can be put under test. -/
inductive AuthAlgo
  | RAW
  | AMT (depth : Nat)
  | LVMT
  | MPT
  | LMPTS
  | RAIN
deriving DecidableEq

/-- The recorded trace; `files` is what its directory holds. -/
structure RealTrace where
  files : List (List (List ExperimentTask))
  groupSize : Nat

namespace RealTrace

/-- Two of the stores get their events in groups of fifty. -/
def new (algorithm : AuthAlgo) (files : List (List (List ExperimentTask))) : RealTrace where
  files := files
  groupSize := if algorithm = .RAIN ∨ algorithm = .MPT then 50 else 1

/-- The tasks of a run, from the first file on. -/
def tasks (trace : RealTrace) : TaskProducer := .new trace.files trace.groupSize

/-- All algorithms run the same events, if no file and no block is empty. -/
theorem tasks_same (files : List (List (List ExperimentTask)))
    (nonempty : ∀ file ∈ files, file ≠ [] ∧ ∀ block ∈ file, block ≠ [])
    (first second : AuthAlgo) :
    ∃ all final all' final', (new first files).tasks.items = some (all, final) ∧
      (new second files).tasks.items = some (all', final') ∧ all.flatten = all'.flatten := by
  have positive (algorithm : AuthAlgo) : 1 ≤ (new algorithm files).groupSize := by
    rw [new]
    split <;> norm_num
  obtain ⟨all, final, done, events⟩ :=
    TaskProducer.items_of_forall files nonempty (positive first)
  obtain ⟨all', final', done', events'⟩ :=
    TaskProducer.items_of_forall files nonempty (positive second)
  exact ⟨all, final, all', final', done, done', events.trans events'.symm⟩

end RealTrace

end AuthStorage.Tasks
