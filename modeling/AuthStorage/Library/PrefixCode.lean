/-
This file states once what a serialisation must satisfy to be composed: reading
what was written, followed by anything, gives the value back and leaves exactly
what followed. Such codes are injective, and they are closed under pairing and
counted repetition.
-/

import Mathlib.Tactic

variable {α : Type} {Symbol : Type}

/-- `read` consumes exactly what `write` produced, whatever follows. -/
def PrefixCode (write : α → List Symbol) (read : List Symbol → Option (α × List Symbol)) : Prop :=
  ∀ item rest, read (write item ++ rest) = some (item, rest)

namespace PrefixCode

section

variable {write : α → List Symbol} {read : List Symbol → Option (α × List Symbol)}

theorem read_write (code : PrefixCode write read) (item : α) :
    read (write item) = some (item, []) := by
  have consumed := code item []
  rwa [List.append_nil] at consumed

/-- Two codewords followed by anything agree only if the items and the rests do. -/
theorem append_inj (code : PrefixCode write read) {first second : α}
    {firstRest secondRest : List Symbol}
    (same : write first ++ firstRest = write second ++ secondRest) :
    first = second ∧ firstRest = secondRest := by
  have read_first := code first firstRest
  rw [same, code second secondRest, Option.some.injEq, Prod.mk.injEq] at read_first
  exact ⟨read_first.1.symm, read_first.2.symm⟩

theorem injective (code : PrefixCode write read) : Function.Injective write := by
  intro first second same
  have padded : write first ++ [] = write second ++ [] := by rw [same]
  exact (code.append_inj padded).1

end

/-- Read `count` items one after the other. -/
def readMany (read : List Symbol → Option (α × List Symbol)) :
    Nat → List Symbol → Option (List α × List Symbol)
  | 0, input => some ([], input)
  | count + 1, input =>
    (read input).bind fun head =>
      (readMany read count head.2).map fun tail => (head.1 :: tail.1, tail.2)

/-- Reading as many items as were written gives the items back. -/
theorem readMany_flatMap {write : α → List Symbol}
    {read : List Symbol → Option (α × List Symbol)} (code : PrefixCode write read)
    (items : List α) (rest : List Symbol) :
    readMany read items.length (items.flatMap write ++ rest) = some (items, rest) := by
  induction items with
  | nil => rfl
  | cons head tail inductionHypothesis =>
    rw [List.length_cons, List.flatMap_cons, List.append_assoc, readMany, code, Option.bind_some,
      inductionHypothesis]
    rfl

end PrefixCode
