/-
This file adds unsigned numbers and lists of one kind of item to the recursive
length prefix format. A number is its bytes, most significant first and without
leading zeros, as one string. A number below a bound on its width is read back,
distinct numbers are written differently, and a list is read back if its items are.
-/

import AuthStorage.Library.Rlp

namespace Rlp

/-! ### Writing and reading -/

/-- Zero is the empty string. -/
def numberBytes (value : Nat) : List UInt8 := if value = 0 then [] else lengthBytes value

/-- A number as a string of bytes, big-endian and without leading zeros. -/
def number (value : Nat) : List UInt8 := string (numberBytes value)

/-- A number of at most `limit` bytes; leading zeros are an error. -/
def readNumber (limit : Nat) (input : List UInt8) : Option Nat :=
  (data input).bind fun bytes =>
    if bytes.length ≤ limit ∧ bytes.head? ≠ some 0 then some (LittleEndian.value bytes.reverse)
    else none

/-! ### Reading back -/

theorem pow_width_le {value : Nat} (positive : value ≠ 0) : 256 ^ (width value - 1) ≤ value := by
  rw [width, Nat.add_sub_cancel]
  calc 256 ^ (Nat.log2 value / 8) = 2 ^ (8 * (Nat.log2 value / 8)) := by rw [Nat.pow_mul]
    _ ≤ 2 ^ Nat.log2 value := Nat.pow_le_pow_right (by norm_num) (by omega)
    _ ≤ value := Nat.log2_self_le positive

theorem width_le {value limit : Nat} (positive : value ≠ 0) (small : value < 256 ^ limit) :
    width value ≤ limit := by
  have low := lt_of_le_of_lt (pow_width_le positive) small
  rw [Nat.pow_lt_pow_iff_right (by norm_num)] at low
  omega

theorem length_numberBytes {value limit : Nat} (small : value < 256 ^ limit) :
    (numberBytes value).length ≤ limit := by
  rw [numberBytes]
  split
  · exact Nat.zero_le limit
  · next positive =>
    rw [length_lengthBytes]
    exact width_le positive small

theorem value_numberBytes (value : Nat) : LittleEndian.value (numberBytes value).reverse = value := by
  rw [numberBytes]
  split
  · next zero =>
    rw [zero]
    rfl
  · exact value_lengthBytes value

/-- The leading byte of a number is its highest digit. -/
theorem head?_numberBytes (value : Nat) : (numberBytes value).head? ≠ some 0 := by
  rw [numberBytes]
  split
  · exact Option.some_ne_none _ ∘ Eq.symm
  · next positive =>
    intro zero
    obtain ⟨rest, shape⟩ : ∃ rest, lengthBytes value = 0 :: rest := by
      cases written : lengthBytes value with
      | nil =>
        rw [written] at zero
        cases zero
      | cons byte rest =>
        rw [written, List.head?_cons, Option.some.injEq] at zero
        exact ⟨rest, by rw [zero]⟩
    have length := length_lengthBytes value
    have number := value_lengthBytes value
    rw [shape, List.length_cons] at length
    rw [shape, List.reverse_cons, LittleEndian.value_append, LittleEndian.value_cons,
      LittleEndian.value_nil, UInt8.toNat_zero, Nat.add_zero, Nat.mul_zero, Nat.add_zero] at number
    have below := LittleEndian.value_lt rest.reverse
    rw [number, List.length_reverse] at below
    have above := pow_width_le positive
    rw [← length, Nat.add_sub_cancel] at above
    exact absurd below (Nat.not_lt.mpr above)

theorem readNumber_number {value limit : Nat} (small : value < 256 ^ limit) :
    readNumber limit (number value) = some value := by
  rw [readNumber, number, data_string, Option.bind_some,
    if_pos ⟨length_numberBytes small, head?_numberBytes value⟩, value_numberBytes]

theorem number_injective : Function.Injective number := by
  intro first second same
  have firstRead : (data (number first)).map (fun bytes => LittleEndian.value bytes.reverse) =
      some first := by
    rw [number, data_string, Option.map_some, value_numberBytes]
  rw [same, number, data_string, Option.map_some, value_numberBytes, Option.some.injEq] at firstRead
  exact firstRead.symm

theorem isItem_number (value : Nat) : IsItem (number value) := isItem_string _

/-! ### Lists of items -/

/-- The items of a list. -/
def items (input : List UInt8) : Option (List (List UInt8)) :=
  match view input with
  | some (.list items) => some items
  | _ => none

theorem items_list {written : List (List UInt8)} (whole : ∀ item ∈ written, IsItem item) :
    items (list written) = some written := by
  rw [items, view_list whole]

/-- Read every item of a list. -/
def readList {α : Type} (read : List UInt8 → Option α) (input : List UInt8) : Option (List α) :=
  (items input).bind fun found => found.mapM read

theorem mapM_map_eq_some {α β γ : Type} {write : α → β} {read : β → Option γ} {meaning : α → γ}
    {values : List α} (back : ∀ value ∈ values, read (write value) = some (meaning value)) :
    (values.map write).mapM read = some (values.map meaning) := by
  induction values with
  | nil => rfl
  | cons value values inductionHypothesis =>
    rw [List.map_cons, List.mapM_cons, back value List.mem_cons_self,
      inductionHypothesis fun other member => back other (List.mem_cons_of_mem _ member)]
    rfl

theorem readList_list {α : Type} {write : α → List UInt8} {read : List UInt8 → Option α}
    {values : List α} (whole : ∀ value ∈ values, IsItem (write value))
    (back : ∀ value ∈ values, read (write value) = some value) :
    readList read (list (values.map write)) = some values := by
  rw [readList, items_list (fun item member => ?_), Option.bind_some, mapM_map_eq_some back,
    List.map_id']
  obtain ⟨value, inside, rfl⟩ := List.mem_map.mp member
  exact whole value inside

/-! ### Sizes -/

theorem length_string {bytes : List UInt8} (short : bytes.length < 56) :
    (string bytes).length ≤ bytes.length + 1 ∧ bytes.length ≤ (string bytes).length ∧
      0 < (string bytes).length := by
  rcases bytes with _ | ⟨byte, _ | ⟨second, tail⟩⟩
  · exact ⟨le_rfl, Nat.zero_le _, Nat.one_pos⟩
  · rw [string]
    split
    · exact ⟨Nat.le_succ _, le_rfl, Nat.one_pos⟩
    · exact ⟨le_rfl, Nat.le_succ _, Nat.succ_pos _⟩
  · rw [string_of_one_lt (by simp), header, if_pos short]
    simp

theorem length_number {limit value : Nat} (small : value < 256 ^ limit) (short : limit < 56) :
    0 < (number value).length ∧ (number value).length ≤ limit + 1 := by
  have bytes := length_numberBytes small
  have fits : (numberBytes value).length < 56 := by omega
  have written := length_string fits
  exact ⟨written.2.2, by rw [number]; omega⟩

theorem length_list {items : List (List UInt8)} (short : items.flatten.length < 56) :
    (list items).length = items.flatten.length + 1 := by
  rw [list, header, if_pos short]
  simp [Nat.add_comm]

end Rlp
