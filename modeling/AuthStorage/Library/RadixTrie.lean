/-
This file develops path-compressed tries over any digits: what a trie holds, the
canonical shape, in which every branch has two occupied positions and every
extension leads to a branch, and the position of a subtrie in a trie. Changing a
subtrie changes the contents below its path only, and keeps the shape if the
subtrie has it. Two canonical tries with the same contents are equal.
-/

import Mathlib.Algebra.Order.BigOperators.Group.Finset
import Mathlib.Tactic

/-- A trie whose branches have a child for every digit and whose extensions share a part of the key.
-/
inductive RadixTrie (Digit Value : Type) where
  | empty
  | leaf (key : List Digit) (value : Value)
  | branch (children : Digit → RadixTrie Digit Value) (value : Option Value)
  | extension (key : List Digit) (child : RadixTrie Digit Value)

namespace RadixTrie

variable {Digit Value : Type}

/-! ### The canonical shape -/

/-- The trie has a branch at its top. -/
def IsBranch : RadixTrie Digit Value → Prop
  | branch _ _ => True
  | _ => False

/-- The positions of a branch: its value, and one for each digit. -/
def Occupied (children : Digit → RadixTrie Digit Value) (value : Option Value) :
    Option Digit → Prop
  | none => value ≠ none
  | some digit => children digit ≠ empty

/-- No part of the trie can be written shorter: below a branch are two entries at least, and below
an extension there is a branch. -/
def Canonical : RadixTrie Digit Value → Prop
  | empty => True
  | leaf _ _ => True
  | branch children value =>
    (∀ digit, (children digit).Canonical) ∧
      ∃ first second, first ≠ second ∧ Occupied children value first ∧
        Occupied children value second
  | extension key child => key ≠ [] ∧ child.IsBranch ∧ child.Canonical

/-- The same contents with a longer key in front. -/
def prepend (front : List Digit) : RadixTrie Digit Value → RadixTrie Digit Value
  | empty => empty
  | leaf key value => leaf (front ++ key) value
  | branch children value => extension front (branch children value)
  | extension key child => extension (front ++ key) child

theorem prepend_ne_empty (front : List Digit) {trie : RadixTrie Digit Value}
    (nonempty : trie ≠ empty) : prepend front trie ≠ empty := by
  cases trie with
  | empty => exact absurd rfl nonempty
  | leaf key value => intro same; cases same
  | branch children value => intro same; cases same
  | extension key child => intro same; cases same

theorem Canonical.prepend {front : List Digit} (nonempty : front ≠ [])
    {trie : RadixTrie Digit Value} (canonical : trie.Canonical) :
    (RadixTrie.prepend front trie).Canonical := by
  cases trie with
  | empty => trivial
  | leaf key value => trivial
  | branch children value => exact ⟨nonempty, trivial, canonical⟩
  | extension key child =>
    exact ⟨fun same => nonempty (List.append_eq_nil_iff.mp same).1, canonical.2⟩

/-! ### Positions -/

/-- One step from a trie to a subtrie, with everything that is not below it. -/
inductive Crumb (Digit Value : Type) where
  | branch (children : Digit → RadixTrie Digit Value) (value : Option Value) (digit : Digit)
  | extension (key : List Digit)

namespace Crumb

/-- The digits that lead from a node to its child. -/
def path : Crumb Digit Value → List Digit
  | branch _ _ digit => [digit]
  | extension key => key

/-- What the step contributes to a canonical trie. -/
def Canonical : Crumb Digit Value → Prop
  | branch children value digit =>
    (∀ other, other ≠ digit → (children other).Canonical) ∧
      ∃ position, position ≠ some digit ∧ Occupied children value position
  | extension key => key ≠ []

/-- The step goes through an extension. -/
def IsExtension : Crumb Digit Value → Prop
  | branch _ _ _ => False
  | extension _ => True

end Crumb

/-- The path from the root. -/
def pathTo : List (Crumb Digit Value) → List Digit
  | [] => []
  | crumb :: up => pathTo up ++ crumb.path

/-- Whether the innermost step asks for a branch below it. -/
def NeedsBranch : List (Crumb Digit Value) → Prop
  | [] => False
  | crumb :: _ => crumb.IsExtension

/-- The steps from the root of a canonical trie to a subtrie of it. -/
def CanonicalPath : List (Crumb Digit Value) → Prop
  | [] => True
  | crumb :: up => crumb.Canonical ∧ CanonicalPath up ∧ (NeedsBranch up → ¬ crumb.IsExtension)

/-! ### The contents -/

variable [DecidableEq Digit]

/-- The value at a key. -/
def lookup : RadixTrie Digit Value → List Digit → Option Value
  | empty, _ => none
  | leaf key value, wanted => if key = wanted then some value else none
  | branch _ value, [] => value
  | branch children _, digit :: rest => lookup (children digit) rest
  | extension key child, wanted =>
    if key <+: wanted then lookup child (wanted.drop key.length) else none

@[simp] theorem lookup_empty (wanted : List Digit) :
    lookup (empty : RadixTrie Digit Value) wanted = none := rfl

theorem lookup_leaf (key wanted : List Digit) (value : Value) :
    lookup (leaf key value) wanted = if key = wanted then some value else none := rfl

@[simp] theorem lookup_leaf_self (key : List Digit) (value : Value) :
    lookup (leaf key value) key = some value := if_pos rfl

@[simp] theorem lookup_branch_nil (children : Digit → RadixTrie Digit Value)
    (value : Option Value) : lookup (branch children value) [] = value := rfl

@[simp] theorem lookup_branch_cons (children : Digit → RadixTrie Digit Value)
    (value : Option Value) (digit : Digit) (rest : List Digit) :
    lookup (branch children value) (digit :: rest) = lookup (children digit) rest := rfl

@[simp] theorem lookup_extension_append (key rest : List Digit)
    (child : RadixTrie Digit Value) :
    lookup (extension key child) (key ++ rest) = lookup child rest := by
  rw [lookup, if_pos (List.prefix_append key rest), List.drop_left' rfl]

theorem lookup_extension_off {key wanted : List Digit} (off : ¬ key <+: wanted)
    (child : RadixTrie Digit Value) : lookup (extension key child) wanted = none := if_neg off

theorem lookup_eq_of_leaf {key wanted : List Digit} {value found : Value}
    (present : lookup (leaf key value) wanted = some found) : key = wanted := by
  rw [lookup_leaf] at present
  by_contra other
  rw [if_neg other] at present
  cases present

theorem prefix_of_lookup_extension {key wanted : List Digit} {child : RadixTrie Digit Value}
    {found : Value} (present : lookup (extension key child) wanted = some found) :
    ∃ rest, wanted = key ++ rest ∧ lookup child rest = some found := by
  by_cases within : key <+: wanted
  · obtain ⟨rest, rfl⟩ := within
    exact ⟨rest, rfl, by rwa [lookup_extension_append] at present⟩
  · rw [lookup_extension_off within] at present
    cases present

theorem lookup_extension_congr (key : List Digit) {first second : RadixTrie Digit Value}
    (same : lookup first = lookup second) :
    lookup (extension key first) = lookup (extension key second) := by
  funext wanted
  rw [lookup, lookup, same]

/-- An extension and a longer key in front hold the same. -/
theorem lookup_prepend (front : List Digit) (trie : RadixTrie Digit Value) :
    lookup (prepend front trie) = lookup (extension front trie) := by
  funext wanted
  by_cases within : front <+: wanted
  · obtain ⟨rest, rfl⟩ := within
    rw [lookup_extension_append]
    cases trie with
    | empty => rfl
    | leaf key value =>
      rw [prepend, lookup_leaf, lookup_leaf]
      simp only [List.append_cancel_left_eq]
    | branch children value => exact lookup_extension_append _ _ _
    | extension key child =>
      rw [prepend, lookup, lookup]
      simp only [List.prefix_append_right_inj, List.length_append, List.drop_append,
        List.drop_eq_nil_of_le (Nat.le_add_right front.length key.length), List.nil_append,
        Nat.add_sub_cancel_left]
  · rw [lookup_extension_off within]
    cases trie with
    | empty => rfl
    | leaf key value =>
      refine if_neg fun same => within ?_
      rw [← same]
      exact List.prefix_append _ _
    | branch children value => exact lookup_extension_off within _
    | extension key child =>
      exact lookup_extension_off (fun longer =>
        within ((List.prefix_append front key).trans longer)) _

/-- A branch with one child and no value is that child with the digit in front. -/
theorem lookup_branch_single {children : Digit → RadixTrie Digit Value} {digit : Digit}
    (only : ∀ other, other ≠ digit → children other = empty) :
    lookup (branch children none) = lookup (prepend [digit] (children digit)) := by
  rw [lookup_prepend]
  funext wanted
  cases wanted with
  | nil => rfl
  | cons head rest =>
    by_cases same : head = digit
    · subst same
      exact (lookup_extension_append [head] rest _).symm
    · rw [lookup_branch_cons, only head same, lookup_empty, lookup_extension_off]
      intro within
      exact same (List.cons_prefix_cons.mp within).1.symm

/-- A branch with a value and no child is a leaf with an empty key. -/
theorem lookup_branch_childless {children : Digit → RadixTrie Digit Value}
    (childless : ∀ digit, children digit = empty) (value : Value) :
    lookup (branch children (some value)) = lookup (leaf [] value) := by
  funext wanted
  cases wanted with
  | nil => rfl
  | cons head rest =>
    rw [lookup_branch_cons, childless, lookup_empty, lookup_leaf, if_neg (List.cons_ne_nil _ _).symm]

/-! ### Adding to a branch -/

/-- The parts of a branch with a leaf put into the position its key starts with. -/
def addLeaf (children : Digit → RadixTrie Digit Value) (value : Option Value)
    (key : List Digit) (added : Value) : (Digit → RadixTrie Digit Value) × Option Value :=
  match key with
  | [] => (children, some added)
  | digit :: rest => (Function.update children digit (leaf rest added), value)

theorem lookup_addLeaf (children : Digit → RadixTrie Digit Value) (value : Option Value)
    {key : List Digit} (free : ∀ digit ∈ key.head?, children digit = empty) (added : Value) :
    lookup (branch (addLeaf children value key added).1 (addLeaf children value key added).2) =
      Function.update (lookup (branch children value)) key (some added) := by
  funext wanted
  cases key with
  | nil =>
    cases wanted with
    | nil => rw [Function.update_self]; rfl
    | cons head rest => rw [Function.update_of_ne (List.cons_ne_nil _ _)]; rfl
  | cons digit tail =>
    cases wanted with
    | nil => rw [Function.update_of_ne (List.cons_ne_nil _ _).symm]; rfl
    | cons head rest =>
      rw [addLeaf, lookup_branch_cons]
      dsimp only
      by_cases same : head = digit
      · subst same
        rw [Function.update_self, lookup_leaf]
        by_cases sameTail : tail = rest
        · rw [if_pos sameTail, sameTail, Function.update_self]
        · have other : head :: rest ≠ head :: tail := fun equal =>
            sameTail (List.cons.inj equal).2.symm
          rw [if_neg sameTail, Function.update_of_ne other, lookup_branch_cons,
            free head rfl, lookup_empty]
      · have other : head :: rest ≠ digit :: tail := fun equal => same (List.cons.inj equal).1
        rw [Function.update_of_ne same, Function.update_of_ne other, lookup_branch_cons]

theorem canonical_addLeaf_children {children : Digit → RadixTrie Digit Value}
    (canonical : ∀ digit, (children digit).Canonical) (value : Option Value) (key : List Digit)
    (added : Value) (digit : Digit) : ((addLeaf children value key added).1 digit).Canonical := by
  cases key with
  | nil => exact canonical digit
  | cons head tail =>
    rw [addLeaf]
    dsimp only
    by_cases same : digit = head
    · subst same
      rw [Function.update_self]
      trivial
    · rw [Function.update_of_ne same]
      exact canonical digit

theorem occupied_addLeaf (children : Digit → RadixTrie Digit Value) (value : Option Value)
    (key : List Digit) (added : Value) :
    Occupied (addLeaf children value key added).1 (addLeaf children value key added).2
      key.head? := by
  cases key with
  | nil => exact fun absent => by cases absent
  | cons head tail =>
    show Function.update children head (leaf tail added) head ≠ empty
    rw [Function.update_self]
    exact fun absent => by cases absent

/-- The other positions stay as they are. -/
theorem occupied_addLeaf_of_ne {children : Digit → RadixTrie Digit Value} {value : Option Value}
    {position : Option Digit} {key : List Digit} (apart : position ≠ key.head?) (added : Value) :
    Occupied (addLeaf children value key added).1 (addLeaf children value key added).2 position ↔
      Occupied children value position := by
  cases key with
  | nil =>
    cases position with
    | none => exact absurd rfl apart
    | some digit => exact Iff.rfl
  | cons head tail =>
    cases position with
    | none => exact Iff.rfl
    | some digit =>
      have different : digit ≠ head := fun same => apart (by rw [same]; rfl)
      show Function.update children head (leaf tail added) digit ≠ empty ↔ children digit ≠ empty
      rw [Function.update_of_ne different]

/-- A leaf next to an occupied position makes a canonical branch. -/
theorem canonical_addLeaf {children : Digit → RadixTrie Digit Value} {value : Option Value}
    (canonical : ∀ digit, (children digit).Canonical) {other : Option Digit}
    (occupied : Occupied children value other) {key : List Digit} (apart : other ≠ key.head?)
    (added : Value) :
    (branch (addLeaf children value key added).1 (addLeaf children value key added).2).Canonical :=
  ⟨canonical_addLeaf_children canonical value key added, key.head?, other, apart.symm,
    occupied_addLeaf children value key added, (occupied_addLeaf_of_ne apart added).mpr occupied⟩

/-- Leaves in different positions can be added in either order. -/
theorem addLeaf_comm (children : Digit → RadixTrie Digit Value) (value : Option Value)
    {first second : List Digit} (apart : first.head? ≠ second.head?)
    (firstAdded secondAdded : Value) :
    addLeaf (addLeaf children value first firstAdded).1
        (addLeaf children value first firstAdded).2 second secondAdded =
      addLeaf (addLeaf children value second secondAdded).1
        (addLeaf children value second secondAdded).2 first firstAdded := by
  cases first with
  | nil =>
    cases second with
    | nil => exact absurd rfl apart
    | cons head tail => rfl
  | cons digit rest =>
    cases second with
    | nil => rfl
    | cons head tail =>
      have different : digit ≠ head := fun same => apart (by rw [same]; rfl)
      simp only [addLeaf]
      rw [Function.update_comm different]

/-- A branch with a single leaf holds what the leaf holds. -/
theorem lookup_addLeaf_empty (key : List Digit) (added : Value) :
    lookup (branch (addLeaf (fun _ => empty) none key added).1
      (addLeaf (fun _ => empty) none key added).2) = lookup (leaf key added) := by
  rw [lookup_addLeaf _ _ fun digit _ => rfl]
  funext wanted
  rw [lookup_leaf]
  by_cases same : wanted = key
  · subst same
    rw [Function.update_self, if_pos rfl]
  · rw [Function.update_of_ne same, if_neg (Ne.symm same)]
    cases wanted <;> rfl

/-- A branch with one child alone holds what the child holds, below the digit. -/
theorem lookup_branch_update_empty (digit : Digit) (child : RadixTrie Digit Value) :
    lookup (branch (Function.update (fun _ => empty) digit child) none) =
      lookup (extension [digit] child) := by
  have only : ∀ other, other ≠ digit →
      Function.update (fun _ => empty) digit child other = empty :=
    fun other different => Function.update_of_ne different _ _
  rw [lookup_branch_single only, lookup_prepend, Function.update_self]

/-- Nested extensions hold what one extension holds. -/
theorem lookup_extension_extension (front key : List Digit) (child : RadixTrie Digit Value) :
    lookup (extension front (extension key child)) = lookup (extension (front ++ key) child) :=
  (lookup_prepend front (extension key child)).symm

/-! ### Filling a position -/

namespace Crumb

/-- The node of a step, with a trie put in the place of its child. -/
def fill (trie : RadixTrie Digit Value) : Crumb Digit Value → RadixTrie Digit Value
  | branch children value digit => .branch (Function.update children digit trie) value
  | extension key => .extension key trie

theorem lookup_fill (crumb : Crumb Digit Value) (trie : RadixTrie Digit Value)
    (rest : List Digit) : lookup (crumb.fill trie) (crumb.path ++ rest) = lookup trie rest := by
  cases crumb with
  | branch children value digit =>
    rw [fill, path, List.singleton_append, lookup_branch_cons, Function.update_self]
  | extension key => exact lookup_extension_append key rest trie

/-- Off the path, the subtrie does not matter. -/
theorem lookup_fill_off (crumb : Crumb Digit Value) {wanted : List Digit}
    (off : ¬ crumb.path <+: wanted) (first second : RadixTrie Digit Value) :
    lookup (crumb.fill first) wanted = lookup (crumb.fill second) wanted := by
  cases crumb with
  | branch children value digit =>
    cases wanted with
    | nil => rfl
    | cons head rest =>
      have different : head ≠ digit := by
        rintro rfl
        exact off (List.prefix_append [head] rest)
      rw [fill, fill, lookup_branch_cons, lookup_branch_cons, Function.update_of_ne different,
        Function.update_of_ne different]
  | extension key => exact (if_neg off).trans (if_neg off).symm

theorem lookup_fill_update (crumb : Crumb Digit Value) {before after : RadixTrie Digit Value}
    {rest : List Digit} {found : Option Value}
    (changed : lookup after = Function.update (lookup before) rest found) :
    lookup (crumb.fill after) =
      Function.update (lookup (crumb.fill before)) (crumb.path ++ rest) found := by
  funext wanted
  by_cases within : crumb.path <+: wanted
  · obtain ⟨tail, rfl⟩ := within
    rw [lookup_fill, changed]
    by_cases same : tail = rest
    · rw [same, Function.update_self, Function.update_self]
    · have other : crumb.path ++ tail ≠ crumb.path ++ rest := fun equal =>
        same (List.append_cancel_left equal)
      rw [Function.update_of_ne same, Function.update_of_ne other, lookup_fill]
  · have other : wanted ≠ crumb.path ++ rest := by
      rintro rfl
      exact within (List.prefix_append _ _)
    rw [Function.update_of_ne other]
    exact lookup_fill_off crumb within after before

theorem fill_ne_empty (crumb : Crumb Digit Value) (trie : RadixTrie Digit Value) :
    crumb.fill trie ≠ empty := by
  cases crumb <;> exact fun absent => by cases absent

theorem fill_isBranch {crumb : Crumb Digit Value} (branching : ¬ crumb.IsExtension)
    (trie : RadixTrie Digit Value) : (crumb.fill trie).IsBranch := by
  cases crumb with
  | branch children value digit => trivial
  | extension key => exact branching trivial

theorem not_isExtension_of_fill {crumb : Crumb Digit Value} {trie : RadixTrie Digit Value}
    (branching : (crumb.fill trie).IsBranch) : ¬ crumb.IsExtension := by
  cases crumb with
  | branch children value digit => exact id
  | extension key => exact fun _ => branching

theorem occupied_update (children : Digit → RadixTrie Digit Value) (value : Option Value)
    (digit : Digit) (trie : RadixTrie Digit Value) {position : Option Digit}
    (other : position ≠ some digit) :
    Occupied (Function.update children digit trie) value position ↔
      Occupied children value position := by
  cases position with
  | none => exact Iff.rfl
  | some each =>
    have different : each ≠ digit := fun same => other (congrArg some same)
    show Function.update children digit trie each ≠ empty ↔ children each ≠ empty
    rw [Function.update_of_ne different]

/-- A step keeps the shape exactly if both parts have it. -/
theorem canonical_fill_iff (crumb : Crumb Digit Value) {trie : RadixTrie Digit Value}
    (nonempty : trie ≠ empty) :
    (crumb.fill trie).Canonical ↔
      crumb.Canonical ∧ trie.Canonical ∧ (crumb.IsExtension → trie.IsBranch) := by
  cases crumb with
  | extension key =>
    constructor
    · rintro ⟨nonemptyKey, branching, canonical⟩
      exact ⟨nonemptyKey, canonical, fun _ => branching⟩
    · rintro ⟨nonemptyKey, canonical, branching⟩
      exact ⟨nonemptyKey, branching trivial, canonical⟩
  | branch children value digit =>
    constructor
    · rintro ⟨canonical, first, second, apart, firstOccupied, secondOccupied⟩
      refine ⟨⟨fun other different => ?_, ?_⟩, ?_, False.elim⟩
      · have at_other := canonical other
        rwa [Function.update_of_ne different] at at_other
      · by_cases same : first = some digit
        · have different : second ≠ some digit := fun equal => apart (same.trans equal.symm)
          exact ⟨second, different, (occupied_update _ _ _ _ different).mp secondOccupied⟩
        · exact ⟨first, same, (occupied_update _ _ _ _ same).mp firstOccupied⟩
      · have at_digit := canonical digit
        rwa [Function.update_self] at at_digit
    · rintro ⟨⟨canonical, position, different, occupied⟩, canonicalTrie, -⟩
      refine ⟨fun other => ?_, some digit, position, different.symm, ?_,
        (occupied_update _ _ _ _ different).mpr occupied⟩
      · by_cases same : other = digit
        · subst same
          rwa [Function.update_self]
        · rw [Function.update_of_ne same]
          exact canonical other same
      · show Function.update children digit trie digit ≠ empty
        rwa [Function.update_self]

end Crumb

/-- Put a subtrie back, the innermost step first. -/
def plug : List (Crumb Digit Value) → RadixTrie Digit Value → RadixTrie Digit Value
  | [], trie => trie
  | crumb :: up, trie => plug up (crumb.fill trie)

theorem lookup_plug (crumbs : List (Crumb Digit Value)) (trie : RadixTrie Digit Value)
    (rest : List Digit) : lookup (plug crumbs trie) (pathTo crumbs ++ rest) = lookup trie rest := by
  induction crumbs generalizing trie rest with
  | nil => rfl
  | cons crumb up inductionHypothesis =>
    rw [plug, pathTo, List.append_assoc, inductionHypothesis, Crumb.lookup_fill]

theorem lookup_plug_congr (crumbs : List (Crumb Digit Value))
    {before after : RadixTrie Digit Value} (same : lookup after = lookup before) :
    lookup (plug crumbs after) = lookup (plug crumbs before) := by
  induction crumbs generalizing before after with
  | nil => exact same
  | cons crumb up inductionHypothesis =>
    refine inductionHypothesis ?_
    funext wanted
    by_cases within : crumb.path <+: wanted
    · obtain ⟨rest, rfl⟩ := within
      rw [Crumb.lookup_fill, Crumb.lookup_fill, same]
    · exact crumb.lookup_fill_off within after before

/-- A change of the subtrie is a change of the trie at the longer key. -/
theorem lookup_plug_update (crumbs : List (Crumb Digit Value))
    {before after : RadixTrie Digit Value} {rest : List Digit} {found : Option Value}
    (changed : lookup after = Function.update (lookup before) rest found) :
    lookup (plug crumbs after) =
      Function.update (lookup (plug crumbs before)) (pathTo crumbs ++ rest) found := by
  induction crumbs generalizing before after rest with
  | nil => exact changed
  | cons crumb up inductionHypothesis =>
    rw [plug, plug, pathTo, List.append_assoc]
    exact inductionHypothesis (crumb.lookup_fill_update changed)

theorem canonical_plug_iff (crumbs : List (Crumb Digit Value)) {trie : RadixTrie Digit Value}
    (nonempty : trie ≠ empty) :
    (plug crumbs trie).Canonical ↔
      CanonicalPath crumbs ∧ trie.Canonical ∧ (NeedsBranch crumbs → trie.IsBranch) := by
  induction crumbs generalizing trie with
  | nil => exact ⟨fun canonical => ⟨trivial, canonical, False.elim⟩, fun parts => parts.2.1⟩
  | cons crumb up inductionHypothesis =>
    rw [plug, inductionHypothesis (crumb.fill_ne_empty trie),
      crumb.canonical_fill_iff nonempty]
    constructor
    · rintro ⟨canonicalUp, ⟨canonicalCrumb, canonical, branching⟩, needs⟩
      exact ⟨⟨canonicalCrumb, canonicalUp, fun needed =>
        Crumb.not_isExtension_of_fill (needs needed)⟩, canonical, branching⟩
    · rintro ⟨⟨canonicalCrumb, canonicalUp, apart⟩, canonical, branching⟩
      exact ⟨canonicalUp, ⟨canonicalCrumb, canonical, branching⟩, fun needed =>
        Crumb.fill_isBranch (apart needed) trie⟩

/-! ### Contents determine a canonical trie -/

theorem Canonical.exists_lookup {trie : RadixTrie Digit Value} (canonical : trie.Canonical)
    (nonempty : trie ≠ empty) : ∃ wanted value, lookup trie wanted = some value := by
  induction trie with
  | empty => exact absurd rfl nonempty
  | leaf key value => exact ⟨key, value, lookup_leaf_self key value⟩
  | branch children value inductionHypothesis =>
    obtain ⟨canonicalChildren, position, -, -, occupied, -⟩ := canonical
    cases position with
    | none =>
      obtain ⟨found, rfl⟩ := Option.ne_none_iff_exists'.mp occupied
      exact ⟨[], found, rfl⟩
    | some digit =>
      obtain ⟨rest, found, present⟩ :=
        inductionHypothesis digit (canonicalChildren digit) occupied
      exact ⟨digit :: rest, found, present⟩
  | extension key child inductionHypothesis =>
    have nonemptyChild : child ≠ empty := by
      rintro rfl
      exact canonical.2.1
    obtain ⟨rest, found, present⟩ := inductionHypothesis canonical.2.2 nonemptyChild
    exact ⟨key ++ rest, found, by rwa [lookup_extension_append]⟩

theorem Canonical.eq_empty {trie : RadixTrie Digit Value} (canonical : trie.Canonical)
    (absent : ∀ wanted, lookup trie wanted = none) : trie = empty := by
  by_contra nonempty
  obtain ⟨wanted, value, present⟩ := canonical.exists_lookup nonempty
  rw [absent] at present
  cases present

/-- At an occupied position of a canonical branch there is a key. -/
theorem exists_lookup_of_occupied {children : Digit → RadixTrie Digit Value}
    {value : Option Value} (canonical : ∀ digit, (children digit).Canonical)
    {position : Option Digit} (occupied : Occupied children value position) :
    ∃ wanted found, wanted.head? = position ∧
      lookup (branch children value) wanted = some found := by
  cases position with
  | none =>
    obtain ⟨found, rfl⟩ := Option.ne_none_iff_exists'.mp occupied
    exact ⟨[], found, rfl, rfl⟩
  | some digit =>
    obtain ⟨rest, found, present⟩ := (canonical digit).exists_lookup occupied
    exact ⟨digit :: rest, found, rfl, present⟩

/-- A canonical branch holds two keys that differ in the first digit. -/
theorem Canonical.exists_two {children : Digit → RadixTrie Digit Value} {value : Option Value}
    (canonical : (branch children value).Canonical) :
    ∃ first second firstFound secondFound, first.head? ≠ second.head? ∧
      lookup (branch children value) first = some firstFound ∧
      lookup (branch children value) second = some secondFound := by
  obtain ⟨canonicalChildren, position, position', apart, occupied, occupied'⟩ := canonical
  obtain ⟨first, firstFound, firstHead, firstPresent⟩ :=
    exists_lookup_of_occupied canonicalChildren occupied
  obtain ⟨second, secondFound, secondHead, secondPresent⟩ :=
    exists_lookup_of_occupied canonicalChildren occupied'
  exact ⟨first, second, firstFound, secondFound, by rwa [firstHead, secondHead], firstPresent,
    secondPresent⟩

/-- No digit starts every key of a canonical branch. -/
theorem Canonical.exists_head_ne {trie : RadixTrie Digit Value} (canonical : trie.Canonical)
    (branching : trie.IsBranch) (digit : Digit) :
    ∃ wanted found, wanted.head? ≠ some digit ∧ lookup trie wanted = some found := by
  cases trie with
  | branch children value =>
    obtain ⟨first, second, firstFound, secondFound, apart, firstPresent, secondPresent⟩ :=
      canonical.exists_two
    by_cases same : first.head? = some digit
    · exact ⟨second, secondFound, fun equal => apart (same.trans equal.symm), secondPresent⟩
    · exact ⟨first, firstFound, same, firstPresent⟩
  | empty => exact branching.elim
  | leaf key value => exact branching.elim
  | extension key child => exact branching.elim

/-- One extension's key is not longer than another's over the same contents. -/
theorem prefix_of_lookup_extension_eq {firstKey secondKey : List Digit}
    {firstChild secondChild : RadixTrie Digit Value}
    (second : (extension secondKey secondChild).Canonical)
    (same : lookup (extension firstKey firstChild) = lookup (extension secondKey secondChild)) :
    firstKey <+: secondKey := by
  have nonempty : secondChild ≠ empty := by
    rintro rfl
    exact second.2.1
  obtain ⟨rest, found, present⟩ := second.2.2.exists_lookup nonempty
  have shared : lookup (extension firstKey firstChild) (secondKey ++ rest) = some found := by
    rw [same, lookup_extension_append, present]
  obtain ⟨tail, split, -⟩ := prefix_of_lookup_extension shared
  rcases List.append_eq_append_iff.mp split with ⟨more, longer, -⟩ | ⟨more, shorter, -⟩
  · cases more with
    | nil =>
      rw [List.append_nil] at longer
      rw [longer]
    | cons digit more =>
      obtain ⟨wanted, value, head, present'⟩ := second.2.2.exists_head_ne second.2.1 digit
      have shared' : lookup (extension firstKey firstChild) (secondKey ++ wanted) = some value := by
        rw [same, lookup_extension_append, present']
      obtain ⟨tail', split', -⟩ := prefix_of_lookup_extension shared'
      rw [longer, List.append_assoc] at split'
      have aligned := List.append_cancel_left split'
      rw [aligned] at head
      exact absurd rfl head
  · exact ⟨more, shorter.symm⟩

/-- A leaf holds one key, a canonical branch or extension holds two. -/
theorem Canonical.leaf_eq {key : List Digit} {value : Value} {trie : RadixTrie Digit Value}
    (canonical : trie.Canonical) (same : lookup (leaf key value) = lookup trie) :
    leaf key value = trie := by
  cases trie with
  | empty =>
    have present := congrFun same key
    rw [lookup_leaf_self] at present
    cases present
  | leaf key' value' =>
    have present := congrFun same key'
    rw [lookup_leaf_self key' value'] at present
    obtain rfl := lookup_eq_of_leaf present
    rw [lookup_leaf_self, Option.some.injEq] at present
    rw [present]
  | branch children value' =>
    obtain ⟨first, second, firstFound, secondFound, apart, firstPresent, secondPresent⟩ :=
      canonical.exists_two
    rw [← same] at firstPresent secondPresent
    rw [← lookup_eq_of_leaf firstPresent, ← lookup_eq_of_leaf secondPresent] at apart
    exact absurd rfl apart
  | extension key' child =>
    obtain ⟨nonempty, branching, canonicalChild⟩ := canonical
    cases child with
    | branch children value' =>
      obtain ⟨first, second, firstFound, secondFound, apart, firstPresent, secondPresent⟩ :=
        canonicalChild.exists_two
      rw [← lookup_extension_append key', ← same] at firstPresent secondPresent
      have agree := (lookup_eq_of_leaf firstPresent).symm.trans (lookup_eq_of_leaf secondPresent)
      rw [List.append_cancel_left agree] at apart
      exact absurd rfl apart
    | empty => exact branching.elim
    | leaf key value => exact branching.elim
    | extension key child => exact branching.elim

/-- The keys of a branch do not share their first digit, the keys of an extension do. -/
theorem lookup_branch_ne_extension {children : Digit → RadixTrie Digit Value}
    {value : Option Value} {key : List Digit} {child : RadixTrie Digit Value}
    (canonical : (branch children value).Canonical) (nonempty : key ≠ []) :
    lookup (branch children value) ≠ lookup (extension key child) := by
  intro same
  obtain ⟨digit, tail, rfl⟩ := List.exists_cons_of_ne_nil nonempty
  obtain ⟨wanted, found, head, present⟩ := canonical.exists_head_ne trivial digit
  rw [same] at present
  obtain ⟨rest, rfl, -⟩ := prefix_of_lookup_extension present
  exact head rfl

/-- Two canonical tries with the same contents are equal. -/
theorem Canonical.ext {first second : RadixTrie Digit Value} (firstCanonical : first.Canonical)
    (secondCanonical : second.Canonical) (same : lookup first = lookup second) :
    first = second := by
  induction first generalizing second with
  | empty => exact (secondCanonical.eq_empty fun wanted => (congrFun same wanted).symm).symm
  | leaf key value => exact secondCanonical.leaf_eq same
  | branch children value inductionHypothesis =>
    cases second with
    | empty => exact firstCanonical.eq_empty fun wanted => congrFun same wanted
    | leaf key value' => exact (firstCanonical.leaf_eq same.symm).symm
    | branch children' value' =>
      have sameValue : value = value' := congrFun same []
      have sameChildren : children = children' := by
        funext digit
        exact inductionHypothesis digit (firstCanonical.1 digit) (secondCanonical.1 digit)
          (funext fun rest => congrFun same (digit :: rest))
      rw [sameValue, sameChildren]
    | extension key child =>
      exact absurd same (lookup_branch_ne_extension firstCanonical secondCanonical.1)
  | extension key child inductionHypothesis =>
    cases second with
    | empty => exact firstCanonical.eq_empty fun wanted => congrFun same wanted
    | leaf key value' => exact (firstCanonical.leaf_eq same.symm).symm
    | branch children' value' =>
      exact absurd same.symm (lookup_branch_ne_extension secondCanonical firstCanonical.1)
    | extension key' child' =>
      obtain rfl : key = key' :=
        List.IsPrefix.eq_of_length_le
          (prefix_of_lookup_extension_eq secondCanonical same)
          (prefix_of_lookup_extension_eq firstCanonical same.symm).length_le
      rw [inductionHypothesis firstCanonical.2.2 secondCanonical.2.2]
      funext rest
      rw [← lookup_extension_append key, same, lookup_extension_append]

/-! ### Subtries -/

/-- The subtries of a trie, and the trie itself. -/
inductive Within : RadixTrie Digit Value → RadixTrie Digit Value → Prop
  | refl (trie : RadixTrie Digit Value) : Within trie trie
  | branch {sub : RadixTrie Digit Value} {children : Digit → RadixTrie Digit Value} (digit : Digit)
    (value : Option Value) (below : Within sub (children digit)) :
    Within sub (.branch children value)
  | extension {sub child : RadixTrie Digit Value} (key : List Digit) (below : Within sub child) :
    Within sub (.extension key child)

/-! ### Counting positions -/

section

variable [Fintype Digit] (property : RadixTrie Digit Value → Prop) [DecidablePred property]

/-- At how many positions of the trie a subtrie has the property. -/
def positions : RadixTrie Digit Value → Nat
  | empty => if property empty then 1 else 0
  | leaf key value => if property (leaf key value) then 1 else 0
  | branch children value =>
    (if property (branch children value) then 1 else 0) + ∑ digit, positions (children digit)
  | extension key child =>
    (if property (extension key child) then 1 else 0) + positions child

omit [DecidableEq Digit] in
theorem positions_eq_zero_iff {trie : RadixTrie Digit Value} :
    trie.positions property = 0 ↔ ∀ sub, Within sub trie → ¬ property sub := by
  have own : ∀ found : RadixTrie Digit Value,
      (if property found then 1 else 0) = 0 ↔ ¬ property found := fun found => by simp
  induction trie with
  | empty =>
    rw [positions, own]
    refine ⟨fun absent sub within => ?_, fun absent => absent _ (.refl _)⟩
    cases within
    exact absent
  | leaf key value =>
    rw [positions, own]
    refine ⟨fun absent sub within => ?_, fun absent => absent _ (.refl _)⟩
    cases within
    exact absent
  | branch children value inductionHypothesis =>
    rw [positions, Nat.add_eq_zero_iff, own, Finset.sum_eq_zero_iff]
    refine ⟨fun ⟨absent, below⟩ sub within => ?_, fun absent => ⟨absent _ (.refl _), fun digit _ => ?_⟩⟩
    · cases within with
      | refl => exact absent
      | branch digit value inside =>
        exact (inductionHypothesis digit).mp (below digit (Finset.mem_univ digit)) sub inside
    · exact (inductionHypothesis digit).mpr fun sub inside => absent sub (.branch digit value inside)
  | extension key child inductionHypothesis =>
    rw [positions, Nat.add_eq_zero_iff, own]
    refine ⟨fun ⟨absent, below⟩ sub within => ?_, fun absent => ⟨absent _ (.refl _), ?_⟩⟩
    · cases within with
      | refl => exact absent
      | extension key inside => exact inductionHypothesis.mp below sub inside
    · exact inductionHypothesis.mpr fun sub inside => absent sub (.extension key inside)

end

end RadixTrie
