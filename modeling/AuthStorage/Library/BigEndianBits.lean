/-
This file reads a byte string as a string of bits, the most significant bit of
each byte first, with zero bits past the end. A stretch of bits is read as an
integer; stretches are joined by shifting, whole bytes are their own integers,
and an integer that was read from a window of bytes gives the stretch back when
it is shifted to the right.
-/

import AuthStorage.Library.LittleEndian
import Mathlib.Data.List.GetD

namespace BigEndianBits

/-- The byte, or zero past the end. -/
def byte (bytes : List UInt8) (number : Nat) : Nat := (bytes.getD number 0).toNat

/-- The bits of the string, the highest bit of the first byte at position zero. -/
def bit (bytes : List UInt8) (position : Nat) : Bool :=
  (byte bytes (position / 8)).testBit (7 - position % 8)

/-- `length` bits from `start` on, as an integer. -/
def bitsFrom (bytes : List UInt8) (start : Nat) : Nat → Nat
  | 0 => 0
  | length + 1 => 2 * bitsFrom bytes start length + (bit bytes (start + length)).toNat

theorem bitsFrom_lt (bytes : List UInt8) (start length : Nat) :
    bitsFrom bytes start length < 2 ^ length := by
  induction length with
  | zero => exact Nat.one_pos
  | succ length inductionHypothesis =>
    have small := (bit bytes (start + length)).toNat_lt
    rw [bitsFrom, pow_succ]
    omega

theorem bitsFrom_add (bytes : List UInt8) (start first second : Nat) :
    bitsFrom bytes start (first + second) =
      bitsFrom bytes start first * 2 ^ second + bitsFrom bytes (start + first) second := by
  induction second with
  | zero => rw [Nat.add_zero, pow_zero, Nat.mul_one, bitsFrom, Nat.add_zero]
  | succ second inductionHypothesis =>
    rw [← Nat.add_assoc, bitsFrom, inductionHypothesis, bitsFrom, pow_succ, ← Nat.add_assoc start]
    ring

/-- Stretches that agree as integers agree bit by bit. -/
theorem bit_eq_of_bitsFrom_eq {first second : List UInt8} {start length : Nat}
    (same : bitsFrom first start length = bitsFrom second start length) {offset : Nat}
    (inside : offset < length) : bit first (start + offset) = bit second (start + offset) := by
  induction length with
  | zero => exact absurd inside (Nat.not_lt_zero _)
  | succ length inductionHypothesis =>
    rw [bitsFrom, bitsFrom] at same
    have small := (bit first (start + length)).toNat_lt
    have small' := (bit second (start + length)).toNat_lt
    rcases Nat.lt_succ_iff_lt_or_eq.mp inside with earlier | rfl
    · exact inductionHypothesis (by omega) earlier
    · have sameDigit : (bit first (start + offset)).toNat = (bit second (start + offset)).toNat := by
        omega
      cases firstBit : bit first (start + offset) <;> cases secondBit : bit second (start + offset)
      · rfl
      · rw [firstBit, secondBit] at sameDigit
        cases sameDigit
      · rw [firstBit, secondBit] at sameDigit
        cases sameDigit
      · rfl

theorem bitsFrom_congr {first second : List UInt8} {start start' length : Nat}
    (same : ∀ offset < length, bit first (start + offset) = bit second (start' + offset)) :
    bitsFrom first start length = bitsFrom second start' length := by
  induction length with
  | zero => rfl
  | succ length inductionHypothesis =>
    rw [bitsFrom, bitsFrom, same length (Nat.lt_succ_self _),
      inductionHypothesis fun offset inside => same offset (Nat.lt_succ_of_lt inside)]

/-! ### Whole bytes -/

/-- The low `length` bits of a byte. -/
theorem bitsFrom_low (bytes : List UInt8) (number : Nat) {length : Nat} (le : length ≤ 8) :
    bitsFrom bytes (8 * number + (8 - length)) length = byte bytes number % 2 ^ length := by
  have step : ∀ taken ≤ length, bitsFrom bytes (8 * number + (8 - length)) taken =
      byte bytes number % 2 ^ length / 2 ^ (length - taken) := by
    intro taken
    induction taken with
    | zero =>
      intro _
      rw [bitsFrom, Nat.sub_zero, Nat.div_eq_of_lt (Nat.mod_lt _ (Nat.two_pow_pos _))]
    | succ taken inductionHypothesis =>
      intro inside
      have position : (8 * number + (8 - length) + taken) / 8 = number ∧
          7 - (8 * number + (8 - length) + taken) % 8 = length - (taken + 1) := by omega
      have lower : length - taken = length - (taken + 1) + 1 := by omega
      rw [bitsFrom, inductionHypothesis (by omega), bit, position.1, position.2, lower, pow_succ,
        ← Nat.div_div_eq_div_mul, Nat.toNat_testBit]
      have digit : byte bytes number / 2 ^ (length - (taken + 1)) % 2 =
          byte bytes number % 2 ^ length / 2 ^ (length - (taken + 1)) % 2 := by
        rw [← Nat.toNat_testBit, ← Nat.toNat_testBit, Nat.testBit_mod_two_pow,
          decide_eq_true (by omega : length - (taken + 1) < length), Bool.true_and]
      rw [digit]
      omega
  rw [step length le_rfl, Nat.sub_self, pow_zero, Nat.div_one]

theorem bitsFrom_byte (bytes : List UInt8) (number : Nat) :
    bitsFrom bytes (8 * number) 8 = byte bytes number := by
  have low := bitsFrom_low bytes number (le_refl 8)
  have small : byte bytes number < 2 ^ 8 := UInt8.toNat_lt _
  rw [Nat.sub_self, Nat.add_zero, Nat.mod_eq_of_lt small] at low
  exact low

/-! ### Windows -/

/-- Big-endian integers: the last byte is the least significant one. -/
theorem value_reverse (bytes : List UInt8) :
    LittleEndian.value bytes.reverse = bitsFrom bytes 0 (8 * bytes.length) := by
  induction bytes using List.reverseRecOn with
  | nil => rfl
  | append_singleton bytes last inductionHypothesis =>
    have front : bitsFrom (bytes ++ [last]) 0 (8 * bytes.length) =
        bitsFrom bytes 0 (8 * bytes.length) := by
      refine bitsFrom_congr fun offset inside => ?_
      rw [bit, bit, byte, byte, List.getD_append _ _ _ _ (by omega)]
    have back : bitsFrom (bytes ++ [last]) (0 + 8 * bytes.length) 8 = last.toNat := by
      rw [Nat.zero_add, bitsFrom_byte, byte, List.getD_append_right _ _ _ _ le_rfl, Nat.sub_self]
      rfl
    rw [List.reverse_concat, LittleEndian.value_cons, inductionHypothesis, List.length_append,
      List.length_singleton, Nat.mul_add, Nat.mul_one, bitsFrom_add, front, back]
    ring

/-- Shifting a window to the right leaves its first bits. -/
theorem value_reverse_shiftRight {bytes : List UInt8} {width length : Nat}
    (whole : 8 * bytes.length = width) (le : length ≤ width) :
    LittleEndian.value bytes.reverse >>> (width - length) = bitsFrom bytes 0 length := by
  have split := bitsFrom_add bytes 0 length (width - length)
  have small := bitsFrom_lt bytes (0 + length) (width - length)
  rw [Nat.add_sub_cancel' le] at split
  rw [value_reverse, whole, split, Nat.shiftRight_eq_div_pow, Nat.mul_comm,
    Nat.mul_add_div (Nat.two_pow_pos _), Nat.div_eq_of_lt small, Nat.add_zero]

/-- The bits of a window that is cut out of a byte string and filled up with zeros. -/
theorem bitsFrom_window (bytes : List UInt8) (start size length : Nat) (le : length ≤ 8 * size) :
    bitsFrom ((bytes.drop start).take size ++
        List.replicate (size - ((bytes.drop start).take size).length) 0) 0 length =
      bitsFrom bytes (8 * start) length := by
  have bytesEq : ∀ number < size, byte ((bytes.drop start).take size ++
      List.replicate (size - ((bytes.drop start).take size).length) 0) number =
        byte bytes (start + number) := by
    intro number inside
    rw [byte, byte]
    congr 1
    by_cases present : number < ((bytes.drop start).take size).length
    · rw [List.getD_append _ _ _ _ present, List.getD_eq_getElem _ _ present, List.getElem_take,
        List.getElem_drop]
      rw [List.length_take, List.length_drop] at present
      rw [List.getD_eq_getElem]
    · rw [List.getD_append_right _ _ _ _ (Nat.le_of_not_lt present)]
      rw [List.length_take, List.length_drop] at present ⊢
      rw [List.getD_eq_default _ _ (by omega : bytes.length ≤ start + number)]
      exact List.getD_replicate _ (by omega)
  refine bitsFrom_congr fun offset inside => ?_
  have position : (8 * start + offset) / 8 = start + offset / 8 ∧
      (8 * start + offset) % 8 = offset % 8 := by omega
  rw [bit, bit, Nat.zero_add, bytesEq _ (by omega), position.1, position.2]

end BigEndianBits
