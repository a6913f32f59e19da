/-
This file is about Merkle trees over lists of any length. The entries of a level
are combined in pairs, from the front; the last entry of a level of odd length
is combined with a padding. The path of a position holds its sibling at every
level, the padding where there is none, and climbing the path recomputes the
root. If combining is injective, nothing else leads from a position to the root.
-/

import Mathlib.Data.Nat.Bitwise
import Mathlib.Tactic

namespace PaddedMerkle

variable {Hash : Type} (combine : Hash → Hash → Hash) (padding : Hash)

/-! ### Levels -/

/-- The level above. -/
def parents : List Hash → List Hash
  | [] => []
  | [last] => [combine last padding]
  | first :: second :: rest => combine first second :: parents rest

theorem length_parents (level : List Hash) :
    (parents combine padding level).length = (level.length + 1) / 2 := by
  induction level using parents.induct with
  | case1 => rw [parents, List.length_nil]
  | case2 last => rw [parents, List.length_singleton, List.length_singleton]
  | case3 first second rest inductionHypothesis =>
    rw [parents, List.length_cons, inductionHypothesis, List.length_cons, List.length_cons]
    omega

/-- A parent combines the entries below it, or the last entry with the padding. -/
theorem getD_parents (level : List Hash) {index : Nat} (inside : 2 * index < level.length) :
    (parents combine padding level).getD index padding =
      combine (level.getD (2 * index) padding) (level.getD (2 * index + 1) padding) := by
  induction level using parents.induct generalizing index with
  | case1 => cases inside
  | case2 last =>
    obtain rfl : index = 0 := by
      rw [List.length_singleton] at inside
      omega
    rfl
  | case3 first second rest inductionHypothesis =>
    cases index with
    | zero => rfl
    | succ index =>
      rw [List.length_cons, List.length_cons] at inside
      exact inductionHypothesis (by omega)

theorem exists_of_mem_parents {level : List Hash} {hash : Hash}
    (member : hash ∈ parents combine padding level) :
    ∃ first second, hash = combine first second := by
  induction level using parents.induct with
  | case1 => cases member
  | case2 last => exact ⟨last, padding, List.mem_singleton.mp member⟩
  | case3 first second rest inductionHypothesis =>
    rcases List.mem_cons.mp member with rfl | later
    · exact ⟨first, second, rfl⟩
    · exact inductionHypothesis later

/-- The level some steps up. -/
def levelAbove (level : List Hash) (height : Nat) : List Hash :=
  (parents combine padding)^[height] level

theorem levelAbove_succ (level : List Hash) (height : Nat) :
    levelAbove combine padding level (height + 1) =
      levelAbove combine padding (parents combine padding level) height := rfl

theorem levelAbove_succ' (level : List Hash) (height : Nat) :
    levelAbove combine padding level (height + 1) =
      parents combine padding (levelAbove combine padding level height) :=
  Function.iterate_succ_apply' _ _ _

theorem lt_length_levelAbove {level : List Hash} {position : Nat} (inside : position < level.length)
    (height : Nat) : position / 2 ^ height < (levelAbove combine padding level height).length := by
  induction height generalizing level position with
  | zero => rwa [pow_zero, Nat.div_one]
  | succ height inductionHypothesis =>
    rw [pow_succ', ← Nat.div_div_eq_div_mul]
    refine inductionHypothesis ?_
    rw [length_parents]
    omega

/-! ### Paths -/

/-- The siblings of a position, from its own level up. -/
def path : Nat → List Hash → Nat → List Hash
  | 0, _, _ => []
  | depth + 1, level, position =>
    level.getD (position ^^^ 1) padding ::
      path depth (parents combine padding level) (position / 2)

theorem length_path (depth : Nat) (level : List Hash) (position : Nat) :
    (path combine padding depth level position).length = depth := by
  induction depth generalizing level position with
  | zero => rfl
  | succ depth inductionHypothesis => rw [path, List.length_cons, inductionHypothesis]

/-- The path, level by level. -/
theorem path_eq_map (depth : Nat) (level : List Hash) (position : Nat) :
    path combine padding depth level position = (List.range depth).map fun height =>
      (levelAbove combine padding level height).getD ((position / 2 ^ height) ^^^ 1) padding := by
  induction depth generalizing level position with
  | zero => rfl
  | succ depth inductionHypothesis =>
    rw [path, inductionHypothesis, List.range_succ_eq_map, List.map_cons, List.map_map]
    refine congrArg₂ List.cons (by rw [pow_zero, Nat.div_one]; rfl) (List.map_congr_left ?_)
    intro height _
    rw [Nat.div_div_eq_div_mul, ← pow_succ']
    rfl

/-- The hash a path leads to; an even position is a left child. -/
def climb : Nat → Hash → List Hash → Hash
  | _, current, [] => current
  | position, current, sibling :: rest =>
    climb (position / 2)
      (if position % 2 = 0 then combine current sibling else combine sibling current) rest

/-- The parent of a position, from the position and its sibling. -/
theorem getD_parents_of_position (level : List Hash) {position : Nat}
    (inside : position < level.length) :
    (parents combine padding level).getD (position / 2) padding =
      if position % 2 = 0 then
        combine (level.getD position padding) (level.getD (position ^^^ 1) padding)
      else
        combine (level.getD (position ^^^ 1) padding) (level.getD position padding) := by
  rw [getD_parents combine padding level (by omega)]
  by_cases even : position % 2 = 0
  · rw [if_pos even, Nat.xor_one_of_even (Nat.even_iff.mpr even),
      Nat.mul_div_cancel' (Nat.dvd_of_mod_eq_zero even)]
  · have odd : position % 2 = 1 := Nat.mod_two_ne_zero.mp even
    have below : 2 * (position / 2) = position - 1 := by omega
    have back : position - 1 + 1 = position := by omega
    rw [if_neg even, Nat.xor_one_of_odd (Nat.odd_iff.mpr odd), below, back]

/-- Completeness: the path of an entry leads to the entry above it. -/
theorem climb_path (depth : Nat) {level : List Hash} {position : Nat}
    (inside : position < level.length) :
    climb combine position (level.getD position padding)
        (path combine padding depth level position) =
      (levelAbove combine padding level depth).getD (position / 2 ^ depth) padding := by
  induction depth generalizing level position with
  | zero =>
    rw [pow_zero, Nat.div_one]
    rfl
  | succ depth inductionHypothesis =>
    have above : position / 2 < (parents combine padding level).length := by
      rw [length_parents]
      omega
    rw [path, climb, ← getD_parents_of_position combine padding level inside,
      inductionHypothesis above, Nat.div_div_eq_div_mul, ← pow_succ', levelAbove_succ]

variable {combine}

/-- Binding: a path of full length that leads to the entry above is the path of the entry. -/
theorem eq_path_of_climb (injective : Function.Injective2 combine) {depth : Nat}
    {level : List Hash} {position : Nat} (inside : position < level.length) {current : Hash}
    {siblings : List Hash} (full : siblings.length = depth)
    (reached : climb combine position current siblings =
      (levelAbove combine padding level depth).getD (position / 2 ^ depth) padding) :
    current = level.getD position padding ∧
      siblings = path combine padding depth level position := by
  induction depth generalizing level position current siblings with
  | zero =>
    obtain rfl := List.length_eq_zero_iff.mp full
    rw [pow_zero, Nat.div_one] at reached
    exact ⟨reached, rfl⟩
  | succ depth inductionHypothesis =>
    cases siblings with
    | nil => cases full
    | cons sibling rest =>
      have above : position / 2 < (parents combine padding level).length := by
        rw [length_parents]
        omega
      rw [climb, levelAbove_succ, pow_succ', ← Nat.div_div_eq_div_mul] at reached
      obtain ⟨parent, rest_eq⟩ := inductionHypothesis above (Nat.succ.inj full) reached
      rw [getD_parents_of_position combine padding level inside] at parent
      rw [path, ← rest_eq]
      by_cases even : position % 2 = 0
      · rw [if_pos even, if_pos even] at parent
        obtain ⟨same, sibling_eq⟩ := injective parent
        exact ⟨same, congrArg (· :: rest) sibling_eq⟩
      · rw [if_neg even, if_neg even] at parent
        obtain ⟨sibling_eq, same⟩ := injective parent
        exact ⟨same, congrArg (· :: rest) sibling_eq⟩

end PaddedMerkle
