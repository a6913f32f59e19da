/-
This file defines the recursive length prefix format: a string or a list of
items, behind a header that tells the two apart and gives the length. What was
written is read back, and a list is cut into exactly the items it was made of.
A length of nine bytes or more has no header in the format; it is written here in
a place the format leaves unused, so that reading back needs no bound.
-/

import AuthStorage.Library.LittleEndian

namespace Rlp

/-! ### Writing -/

/-- The number of bytes of a length, big-endian without leading zeros. -/
def width (length : Nat) : Nat := Nat.log2 length / 8 + 1

/-- A length, big-endian and without leading zeros. -/
def lengthBytes (length : Nat) : List UInt8 := (LittleEndian.digits (width length) length).reverse

/-- The header of a payload; `offset` is `0x80` for a string and `0xc0` for a list. -/
def header (offset length : Nat) : List UInt8 :=
  if length < 56 then
    [UInt8.ofNat (offset + length)]
  else if width length ≤ 8 then
    UInt8.ofNat (offset + 55 + width length) :: lengthBytes length
  else
    -- a one-byte length of zero is never written
    UInt8.ofNat (offset + 56) :: 0 :: (List.replicate (width length) 1 ++ 0 :: lengthBytes length)

/-- A single byte below `0x80` is its own encoding. -/
def string : List UInt8 → List UInt8
  | [byte] => if byte.toNat < 0x80 then [byte] else header 0x80 1 ++ [byte]
  | bytes => header 0x80 bytes.length ++ bytes

/-- A list of items that are encoded already. -/
def list (items : List (List UInt8)) : List UInt8 :=
  header 0xc0 items.flatten.length ++ items.flatten

/-! ### Reading -/

/-- The length a header announces, given its first byte less the offset, and what follows it. -/
def readLength (code : Nat) (input : List UInt8) : Option (Nat × List UInt8) :=
  if code < 56 then
    some (code, input)
  else if code = 56 ∧ input.head? = some 0 then
    let count := (input.tail.takeWhile (· == 1)).length
    let digits := input.tail.drop (count + 1)
    some (LittleEndian.value (digits.take count).reverse, digits.drop count)
  else if input.length < code - 55 then
    none
  else
    some (LittleEndian.value (input.take (code - 55)).reverse, input.drop (code - 55))

/-- Whether the first item is a list, its payload, and what follows it. -/
def readItem : List UInt8 → Option (Bool × List UInt8 × List UInt8)
  | [] => none
  | byte :: input =>
    if byte.toNat < 0x80 then
      some (false, [byte], input)
    else
      let isList := decide (0xc0 ≤ byte.toNat)
      (readLength (byte.toNat - if isList then 0xc0 else 0x80) input).bind fun found =>
        if found.2.length < found.1 then none
        else some (isList, found.2.take found.1, found.2.drop found.1)

/-- Cut a payload into its items, each with its header. -/
def splitItems : Nat → List UInt8 → Option (List (List UInt8))
  | _, [] => some []
  | 0, _ :: _ => none
  | fuel + 1, input =>
    (readItem input).bind fun found =>
      (splitItems fuel found.2.2).map fun rest =>
        input.take (input.length - found.2.2.length) :: rest

/-- What an item is: a string of bytes, or a list of items. -/
inductive View
  | data (bytes : List UInt8)
  | list (items : List (List UInt8))

/-- The contents of an item: those of a string, or the items of a list. -/
def view (input : List UInt8) : Option View :=
  (readItem input).bind fun found =>
    if found.1 then (splitItems found.2.1.length found.2.1).map .list
    else some (.data found.2.1)

/-- The bytes of a string. -/
def data (input : List UInt8) : Option (List UInt8) :=
  match view input with
  | some (.data bytes) => some bytes
  | _ => none

/-- The first byte announces a list. -/
def isList (input : List UInt8) : Bool := decide (0xc0 ≤ (input.headD 0).toNat)

/-- The empty string or the empty list. -/
def isEmpty (input : List UInt8) : Bool :=
  decide ((input.headD 0).toNat = 0x80 ∨ (input.headD 0).toNat = 0xc0)

/-! ### Reading a header back -/

theorem lt_pow_width (length : Nat) : length < 256 ^ width length := by
  have bound : length < 2 ^ (Nat.log2 length + 1) := Nat.lt_log2_self
  refine lt_of_lt_of_le bound ?_
  have bytes : (256 : Nat) ^ width length = 2 ^ (8 * width length) := by
    rw [Nat.pow_mul]
  rw [bytes]
  exact Nat.pow_le_pow_right (by norm_num) (by rw [width]; omega)

theorem length_lengthBytes (length : Nat) : (lengthBytes length).length = width length := by
  rw [lengthBytes, List.length_reverse, LittleEndian.length_digits]

theorem value_lengthBytes (length : Nat) :
    LittleEndian.value (lengthBytes length).reverse = length := by
  rw [lengthBytes, List.reverse_reverse, LittleEndian.value_digits_of_lt (lt_pow_width length)]

/-- What the body of a long header reads as. -/
theorem value_take_lengthBytes (length : Nat) (rest : List UInt8) :
    LittleEndian.value ((lengthBytes length ++ rest).take (width length)).reverse = length := by
  rw [List.take_left' (length_lengthBytes length), value_lengthBytes]

theorem takeWhile_replicate_one (count : Nat) (rest : List UInt8) :
    (List.replicate count 1 ++ 0 :: rest).takeWhile (fun byte : UInt8 => byte == 1) =
      List.replicate count 1 := by
  induction count with
  | zero => rfl
  | succ count inductionHypothesis =>
    rw [List.replicate_succ, List.cons_append, List.takeWhile_cons, if_pos (by decide),
      inductionHypothesis]

/-- A one-byte length of fifty-six or more does not start with a zero byte. -/
theorem lengthBytes_of_width_one {length : Nat} (long : ¬ length < 56) (one : width length = 1) :
    ∃ byte : UInt8, byte ≠ 0 ∧ lengthBytes length = [byte] := by
  refine ⟨UInt8.ofNat length, ?_, ?_⟩
  · have small := lt_pow_width length
    rw [one, pow_one] at small
    intro zero
    have bits := congrArg UInt8.toNat zero
    rw [UInt8.toNat_ofNat', Nat.mod_eq_of_lt small] at bits
    exact long (by rw [bits]; decide)
  · rw [lengthBytes, one]
    rfl

theorem readLength_long {length : Nat} (long : ¬ length < 56) (rest : List UInt8) :
    readLength (55 + width length) (lengthBytes length ++ rest) = some (length, rest) := by
  have positive : 1 ≤ width length := Nat.le_add_left 1 _
  have enough : ¬ (lengthBytes length ++ rest).length < width length := by
    rw [List.length_append, length_lengthBytes]
    omega
  have ordinary : ¬ (55 + width length = 56 ∧ (lengthBytes length ++ rest).head? = some 0) := by
    rintro ⟨one, zero⟩
    obtain ⟨byte, nonzero, same⟩ := lengthBytes_of_width_one long (by omega)
    rw [same, List.singleton_append, List.head?_cons, Option.some.injEq] at zero
    exact nonzero zero
  rw [readLength, if_neg (by omega), if_neg ordinary, Nat.add_sub_cancel_left, if_neg enough,
    value_take_lengthBytes, List.drop_left' (length_lengthBytes length)]

theorem readLength_extended (length : Nat) (rest : List UInt8) :
    readLength 56 (0 :: (List.replicate (width length) 1 ++ 0 :: lengthBytes length) ++ rest) =
      some (length, rest) := by
  rw [readLength, if_neg (by norm_num), List.cons_append, List.append_assoc, List.cons_append,
    List.head?_cons, if_pos ⟨rfl, rfl⟩, List.tail_cons]
  dsimp only
  have after : (List.replicate (width length) (1 : UInt8) ++ 0 :: (lengthBytes length ++ rest)).drop
      (width length + 1) = lengthBytes length ++ rest := by
    rw [← List.drop_drop, List.drop_left' (List.length_replicate)]
    rfl
  rw [takeWhile_replicate_one, List.length_replicate, after, value_take_lengthBytes,
    List.drop_left' (length_lengthBytes length)]

/-- The first byte of a header, and the length behind it. -/
theorem header_spec (offset length : Nat) (rest : List UInt8) :
    ∃ code tail, header offset length ++ rest = UInt8.ofNat (offset + code) :: tail ∧ code < 64 ∧
      (length ≠ 0 → code ≠ 0) ∧ readLength code tail = some (length, rest) := by
  by_cases short : length < 56
  · refine ⟨length, rest, ?_, by omega, id, ?_⟩
    · rw [header, if_pos short]
      rfl
    · rw [readLength, if_pos short]
  · by_cases fits : width length ≤ 8
    · refine ⟨55 + width length, lengthBytes length ++ rest, ?_, by omega, by omega,
        readLength_long short rest⟩
      rw [header, if_neg short, if_pos fits, Nat.add_assoc]
      rfl
    · refine ⟨56, 0 :: (List.replicate (width length) 1 ++ 0 :: lengthBytes length) ++ rest, ?_,
        by omega, by omega, readLength_extended length rest⟩
      rw [header, if_neg short, if_neg fits]
      rfl

theorem readItem_header (offset : Nat) (isList : Bool)
    (kind : offset = if isList then 0xc0 else 0x80) (payload rest : List UInt8) :
    readItem (header offset payload.length ++ payload ++ rest) = some (isList, payload, rest) := by
  have bound : offset ≤ 0xc0 ∧ 0x80 ≤ offset := by
    rw [kind]
    cases isList <;> decide
  obtain ⟨code, tail, shape, small, -, found⟩ :=
    header_spec offset payload.length (payload ++ rest)
  have first : (UInt8.ofNat (offset + code)).toNat = offset + code := by
    rw [UInt8.toNat_ofNat']
    exact Nat.mod_eq_of_lt (by omega)
  have decided : decide (0xc0 ≤ offset + code) = isList := by
    rw [kind]
    cases isList
    · exact decide_eq_false (by simp only [Bool.false_eq_true, if_false]; omega)
    · exact decide_eq_true (by simp only [if_true]; omega)
  have enough : ¬ (payload ++ rest).length < payload.length := by
    rw [List.length_append]
    omega
  rw [List.append_assoc, shape, readItem]
  dsimp only
  rw [first, if_neg (by omega), decided, ← kind, Nat.add_sub_cancel_left, found, Option.bind_some,
    if_neg enough, List.take_left' rfl, List.drop_left' rfl]

theorem readItem_string (bytes rest : List UInt8) :
    readItem (string bytes ++ rest) = some (false, bytes, rest) := by
  have long := readItem_header 0x80 false rfl bytes rest
  rcases bytes with _ | ⟨byte, _ | ⟨second, tail⟩⟩
  · exact long
  · by_cases single : byte.toNat < 0x80
    · rw [string, if_pos single, List.singleton_append, readItem, if_pos single]
    · rw [string, if_neg single]
      exact long
  · exact long

theorem readItem_list (items : List (List UInt8)) (rest : List UInt8) :
    readItem (list items ++ rest) = some (true, items.flatten, rest) :=
  readItem_header 0xc0 true rfl items.flatten rest

/-! ### Reading an item back -/

/-- One whole item: whatever follows it, it is cut off exactly. -/
def IsItem (item : List UInt8) : Prop :=
  item ≠ [] ∧ ∀ rest, ∃ kind payload, readItem (item ++ rest) = some (kind, payload, rest)

theorem ne_nil_of_readItem {item payload : List UInt8} {kind : Bool}
    (found : readItem (item ++ []) = some (kind, payload, [])) : item ≠ [] := by
  rintro rfl
  cases found

theorem isItem_string (bytes : List UInt8) : IsItem (string bytes) :=
  ⟨ne_nil_of_readItem (readItem_string bytes []),
    fun rest => ⟨false, bytes, readItem_string bytes rest⟩⟩

theorem isItem_list (items : List (List UInt8)) : IsItem (list items) :=
  ⟨ne_nil_of_readItem (readItem_list items []),
    fun rest => ⟨true, items.flatten, readItem_list items rest⟩⟩

theorem splitItems_cons (fuel : Nat) (byte : UInt8) (tail : List UInt8) :
    splitItems (fuel + 1) (byte :: tail) =
      (readItem (byte :: tail)).bind fun found =>
        (splitItems fuel found.2.2).map fun rest =>
          (byte :: tail).take ((byte :: tail).length - found.2.2.length) :: rest := rfl

theorem splitItems_flatten {items : List (List UInt8)} (whole : ∀ item ∈ items, IsItem item)
    {fuel : Nat} (enough : items.flatten.length ≤ fuel) :
    splitItems fuel items.flatten = some items := by
  induction items generalizing fuel with
  | nil => cases fuel <;> rfl
  | cons item items inductionHypothesis =>
    obtain ⟨nonempty, cut⟩ := whole item List.mem_cons_self
    obtain ⟨kind, payload, found⟩ := cut items.flatten
    rw [List.flatten_cons, List.length_append] at enough
    have positive : 0 < item.length := List.length_pos_of_ne_nil nonempty
    obtain ⟨byte, tail, rfl⟩ := List.exists_cons_of_ne_nil nonempty
    obtain ⟨fuel, rfl⟩ : ∃ less, fuel = less + 1 := ⟨fuel - 1, by omega⟩
    have later : splitItems fuel items.flatten = some items :=
      inductionHypothesis (fun other member => whole other (List.mem_cons_of_mem _ member))
        (by omega)
    rw [List.flatten_cons, List.cons_append, splitItems_cons, ← List.cons_append, found,
      Option.bind_some, later, List.length_append, Nat.add_sub_cancel, List.take_left' rfl]
    rfl

theorem view_string (bytes : List UInt8) : view (string bytes) = some (.data bytes) := by
  have found := readItem_string bytes []
  rw [List.append_nil] at found
  rw [view, found]
  rfl

theorem view_list {items : List (List UInt8)} (whole : ∀ item ∈ items, IsItem item) :
    view (list items) = some (.list items) := by
  have found := readItem_list items []
  rw [List.append_nil] at found
  rw [view, found, Option.bind_some, if_pos rfl, splitItems_flatten whole le_rfl]
  rfl

theorem data_string (bytes : List UInt8) : data (string bytes) = some bytes := by
  rw [data, view_string]

/-! ### Kinds and sizes -/

theorem headD_header (offset length : Nat) (small : offset ≤ 0xc0) (rest : List UInt8) :
    ∃ code < 64, (length ≠ 0 → code ≠ 0) ∧
      ((header offset length ++ rest).headD 0).toNat = offset + code := by
  obtain ⟨code, tail, shape, less, nonzero, -⟩ := header_spec offset length rest
  refine ⟨code, less, nonzero, ?_⟩
  rw [shape, List.headD_cons, UInt8.toNat_ofNat']
  exact Nat.mod_eq_of_lt (by omega)

theorem isList_list (items : List (List UInt8)) : isList (list items) = true := by
  obtain ⟨code, -, -, head⟩ := headD_header 0xc0 items.flatten.length le_rfl items.flatten
  rw [isList, list, head]
  exact decide_eq_true (Nat.le_add_right _ _)

theorem isEmpty_list {items : List (List UInt8)} (nonempty : items.flatten ≠ []) :
    isEmpty (list items) = false := by
  obtain ⟨code, less, nonzero, head⟩ :=
    headD_header 0xc0 items.flatten.length le_rfl items.flatten
  have positive := nonzero (fun zero => nonempty (List.length_eq_zero_iff.mp zero))
  rw [isEmpty, list, head]
  exact decide_eq_false (by omega)

theorem string_of_one_lt {bytes : List UInt8} (long : 1 < bytes.length) :
    string bytes = header 0x80 bytes.length ++ bytes := by
  match bytes, long with
  | _ :: _ :: _, _ => rfl

theorem isList_string {bytes : List UInt8} (long : 1 < bytes.length) :
    isList (string bytes) = false := by
  obtain ⟨code, less, -, head⟩ := headD_header 0x80 bytes.length (by norm_num) bytes
  rw [isList, string_of_one_lt long, head]
  exact decide_eq_false (by omega)

theorem isEmpty_string {bytes : List UInt8} (long : 1 < bytes.length) :
    isEmpty (string bytes) = false := by
  obtain ⟨code, less, nonzero, head⟩ := headD_header 0x80 bytes.length (by norm_num) bytes
  have positive := nonzero (by omega)
  rw [isEmpty, string_of_one_lt long, head]
  exact decide_eq_false (by omega)

theorem length_header_pos (offset length : Nat) : 0 < (header offset length).length := by
  rw [header]
  split
  · exact Nat.one_pos
  · split <;> exact Nat.succ_pos _

theorem length_lt_length_string {bytes : List UInt8} (long : 1 < bytes.length) :
    bytes.length < (string bytes).length := by
  rw [string_of_one_lt long, List.length_append]
  exact Nat.lt_add_of_pos_left (length_header_pos _ _)

/-- An item is shorter than a list that holds it. -/
theorem length_lt_length_list {items : List (List UInt8)} {item : List UInt8}
    (member : item ∈ items) : item.length < (list items).length := by
  have inside : item.length ≤ items.flatten.length := by
    rw [List.length_flatten]
    exact List.le_sum_of_mem (List.mem_map_of_mem member)
  rw [list, List.length_append]
  have positive := length_header_pos 0xc0 items.flatten.length
  omega

end Rlp
