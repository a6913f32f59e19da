/-
This file reads byte lists as base-256 numerals, least significant byte first,
and writes a number in a fixed number of bytes. Cutting, joining and reversing
the two maps are the only facts about machine words the rest of the
development needs: fixed-width integers, packed counters and big-endian keys
are all instances.
-/

import Mathlib.Tactic
import Mathlib.Data.Nat.ModEq
import Mathlib.Data.Nat.Digits.Defs

namespace LittleEndian

/-- The `width` low bytes of `value`, least significant first. -/
def digits : Nat → Nat → List UInt8
  | 0, _ => []
  | width + 1, value => UInt8.ofNat value :: digits width (value / 256)

/-- The number whose bytes, least significant first, are given. -/
def value : List UInt8 → Nat
  | [] => 0
  | byte :: rest => byte.toNat + 256 * value rest

@[simp] theorem digits_zero (number : Nat) : digits 0 number = [] := rfl

@[simp] theorem value_nil : value [] = 0 := rfl

theorem value_cons (byte : UInt8) (rest : List UInt8) :
    value (byte :: rest) = byte.toNat + 256 * value rest := rfl

@[simp] theorem length_digits (width number : Nat) : (digits width number).length = width := by
  induction width generalizing number with
  | zero => rfl
  | succ width inductionHypothesis =>
    rw [digits, List.length_cons, inductionHypothesis]

/-- Writing keeps exactly the low bytes. -/
theorem value_digits (width number : Nat) : value (digits width number) = number % 256 ^ width := by
  induction width generalizing number with
  | zero => rw [digits_zero, value_nil, pow_zero, Nat.mod_one]
  | succ width inductionHypothesis =>
    have wider : 256 ^ (width + 1) = 256 * 256 ^ width := pow_succ' 256 width
    rw [digits, value_cons, inductionHypothesis, UInt8.toNat_ofNat', wider, Nat.mod_mul]

theorem value_digits_of_lt {width number : Nat} (small : number < 256 ^ width) :
    value (digits width number) = number := by
  rw [value_digits, Nat.mod_eq_of_lt small]

theorem value_lt (bytes : List UInt8) : value bytes < 256 ^ bytes.length := by
  induction bytes with
  | nil => simp
  | cons byte rest inductionHypothesis =>
    have small : byte.toNat < 256 := byte.toNat_lt
    rw [value_cons, List.length_cons, pow_succ]
    omega

theorem digits_injective {width first second : Nat} (firstSmall : first < 256 ^ width)
    (secondSmall : second < 256 ^ width) (same : digits width first = digits width second) :
    first = second := by
  rw [← value_digits_of_lt firstSmall, ← value_digits_of_lt secondSmall, same]

theorem value_append (low high : List UInt8) :
    value (low ++ high) = value low + 256 ^ low.length * value high := by
  induction low with
  | nil => simp
  | cons byte rest inductionHypothesis =>
    rw [List.cons_append, value_cons, value_cons, inductionHypothesis, List.length_cons, pow_succ]
    ring

theorem value_replicate_zero (count : Nat) : value (List.replicate count 0) = 0 := by
  induction count with
  | zero => rfl
  | succ count inductionHypothesis =>
    rw [List.replicate_succ, value_cons, inductionHypothesis]
    rfl

/-- Keeping a prefix of the numeral writes the same number in fewer bytes. -/
theorem take_digits (count width number : Nat) :
    (digits width number).take count = digits (min count width) number := by
  induction width generalizing count number with
  | zero => simp
  | succ width inductionHypothesis =>
    cases count with
    | zero => simp
    | succ count =>
      rw [digits, List.take_succ_cons, inductionHypothesis, Nat.succ_min_succ]
      rfl

/-- Dropping low bytes divides. -/
theorem drop_digits (count width number : Nat) :
    (digits width number).drop count = digits (width - count) (number / 256 ^ count) := by
  induction count generalizing width number with
  | zero => simp
  | succ count inductionHypothesis =>
    cases width with
    | zero => simp
    | succ width =>
      rw [digits, List.drop_succ_cons, inductionHypothesis, Nat.add_sub_add_right,
        Nat.div_div_eq_div_mul, pow_succ']

/-- Reading a window of a numeral extracts the corresponding base-256 digits. -/
theorem value_window (start count width number : Nat) (inside : start + count ≤ width) :
    value (((digits width number).drop start).take count) =
      number / 256 ^ start % 256 ^ count := by
  rw [drop_digits, take_digits, value_digits, min_eq_left (by omega)]

/-! ### Digits in any base -/

theorem digit_ofDigits (base : Nat) (positive : 0 < base) (digits : List Nat)
    (small : ∀ digit ∈ digits, digit < base) (index : Nat) :
    Nat.ofDigits base digits / base ^ index % base = digits.getD index 0 := by
  induction digits generalizing index with
  | nil => simp
  | cons digit rest inductionHypothesis =>
    have low := small digit List.mem_cons_self
    cases index with
    | zero =>
      rw [Nat.ofDigits_cons, pow_zero, Nat.div_one, Nat.add_mul_mod_self_left,
        Nat.mod_eq_of_lt low]
      rfl
    | succ index =>
      rw [Nat.ofDigits_cons, pow_succ', ← Nat.div_div_eq_div_mul,
        Nat.add_mul_div_left _ _ positive, Nat.div_eq_of_lt low, Nat.zero_add,
        inductionHypothesis fun digit member => small digit (List.mem_cons_of_mem _ member)]
      rfl

end LittleEndian
