/-
This file models the serialisation traits of `serde/`: a value is written in one
of two modes, local or consensus, and read back from the front of a byte string.
The integer codecs, the length-prefixed vectors and the field-by-field codecs the
derive macros generate are all prefix codes; that one law gives the round trips,
the injectivity and the key disjointness the later files use.
-/

import AuthStorage.Library.LittleEndian
import AuthStorage.Library.PrefixCode
import Mathlib

namespace AuthStorage.Lvmt

/-- Strings of bytes. -/
abbrev Bytes := List UInt8

/-- Points are written in affine form if `consistent` is set, and as they are otherwise. -/
structure SerdeType where
  consistent : Bool

/-- A Rust vector: its length fits in a `usize`. -/
structure Vec (α : Type) where
  toList : List α
  length_lt : toList.length < 2 ^ 64

variable {α : Type}

namespace Vec

theorem ext {first second : Vec α} (same : first.toList = second.toList) : first = second := by
  cases first
  cases second
  cases same
  rfl

instance [DecidableEq α] : DecidableEq (Vec α) := fun first second =>
  decidable_of_iff (first.toList = second.toList) ⟨ext, fun same => by rw [same]⟩

/-- The vector without items. -/
def empty : Vec α := ⟨[], Nat.two_pow_pos 64⟩

instance : Inhabited (Vec α) := ⟨empty⟩

/-- The vector of one item. -/
def single (item : α) : Vec α := ⟨[item], by norm_num⟩

/-- The vector of two items. -/
def pair (first second : α) : Vec α := ⟨[first, second], by norm_num⟩

/-- The number of items. -/
def len (items : Vec α) : Nat := items.toList.length

/-- `push` panics when the length overflows. -/
def push (items : Vec α) (item : α) : Option (Vec α) :=
  if fits : (items.toList ++ [item]).length < 2 ^ 64 then
    some ⟨items.toList ++ [item], fits⟩
  else
    none

theorem push_eq_some {items result : Vec α} {item : α} (done : items.push item = some result) :
    result.toList = items.toList ++ [item] := by
  unfold push at done
  split at done
  · rw [← Option.some.inj done]
  · cases done

theorem push_of_lt (items : Vec α) (item : α) (short : items.len < 2 ^ 63) :
    ∃ result, items.push item = some result ∧ result.toList = items.toList ++ [item] := by
  unfold len at short
  have fits : (items.toList ++ [item]).length < 2 ^ 64 := by
    rw [List.length_append, List.length_singleton]
    omega
  exact ⟨⟨_, fits⟩, dif_pos fits, rfl⟩

end Vec

/-! ### The traits -/

/-- How a type is written, in either mode. -/
class MyToBytes (α : Type) where
  write : SerdeType → α → Bytes

/-- Reading fails at the end of the input, like `read_exact`. -/
class MyFromBytes (α : Type) where
  read : SerdeType → Bytes → Option (α × Bytes)

export MyToBytes (write)
export MyFromBytes (read)

/-- The bytes that are stored. -/
def toBytesLocal [MyToBytes α] (item : α) : Bytes := write ⟨false⟩ item

/-- The bytes that are hashed. -/
def toBytesConsensus [MyToBytes α] (item : α) : Bytes := write ⟨true⟩ item

/-- An item from stored bytes; bytes after it are not looked at. -/
def fromBytesLocal [MyFromBytes α] (data : Bytes) : Option α :=
  (read ⟨false⟩ data).map Prod.fst

/-- An item from hashed bytes; bytes after it are not looked at. -/
def fromBytesConsensus [MyFromBytes α] (data : Bytes) : Option α :=
  (read ⟨true⟩ data).map Prod.fst

/-- In both modes, reading consumes exactly what writing produced. -/
class LawfulSerde (α : Type) [MyToBytes α] [MyFromBytes α] : Prop where
  code : ∀ ty, PrefixCode (write (α := α) ty) (read ty)

/-- Values come back from the local encoding, which is how they are stored. -/
class LocalSerde (α : Type) [MyToBytes α] [MyFromBytes α] : Prop where
  fromBytesLocal_toBytesLocal : ∀ item : α, fromBytesLocal (toBytesLocal item) = some item

section

variable [MyToBytes α] [MyFromBytes α] [LawfulSerde α]

@[simp] theorem read_write (ty : SerdeType) (item : α) (rest : Bytes) :
    read ty (write ty item ++ rest) = some (item, rest) :=
  LawfulSerde.code ty item rest

@[simp] theorem fromBytesLocal_toBytesLocal (item : α) :
    fromBytesLocal (toBytesLocal item) = some item := by
  rw [fromBytesLocal, toBytesLocal, (LawfulSerde.code (α := α) _).read_write]
  rfl

instance : LocalSerde α := ⟨fromBytesLocal_toBytesLocal⟩

theorem toBytesConsensus_injective : Function.Injective (toBytesConsensus (α := α)) :=
  (LawfulSerde.code (α := α) ⟨true⟩).injective

end

/-! ### Integers -/

/-- The next `count` bytes, and what follows them. -/
def readExact (count : Nat) (input : Bytes) : Option (Bytes × Bytes) :=
  if count ≤ input.length then some (input.take count, input.drop count) else none

theorem readExact_append (front rest : Bytes) :
    readExact front.length (front ++ rest) = some (front, rest) := by
  rw [readExact, if_pos (by rw [List.length_append]; omega), List.take_left, List.drop_left]

/-- The reader of `impl_for_basic!`: `width` little-endian bytes. -/
def readBasic (width : Nat) (ofNat : Nat → α) (input : Bytes) : Option (α × Bytes) :=
  (readExact width input).map fun pair => (ofNat (LittleEndian.value pair.1), pair.2)

/-- The writer of `impl_for_basic!`: `to_le_bytes`. -/
def writeBasic (width : Nat) (toNat : α → Nat) (item : α) : Bytes :=
  LittleEndian.digits width (toNat item)

theorem readBasic_writeBasic (width : Nat) (toNat : α → Nat) (ofNat : Nat → α)
    (small : ∀ item, toNat item < 256 ^ width) (inverse : ∀ item, ofNat (toNat item) = item) :
    PrefixCode (writeBasic width toNat) (readBasic width ofNat) := by
  intro item rest
  have exact_read := readExact_append (LittleEndian.digits width (toNat item)) rest
  rw [LittleEndian.length_digits] at exact_read
  rw [readBasic, writeBasic, exact_read, Option.map_some, LittleEndian.value_digits_of_lt (small _),
    inverse]

@[simp] theorem length_writeBasic (width : Nat) (toNat : α → Nat) (item : α) :
    (writeBasic width toNat item).length = width :=
  LittleEndian.length_digits _ _

instance : MyToBytes UInt8 := ⟨fun _ => writeBasic 1 UInt8.toNat⟩
instance : MyFromBytes UInt8 := ⟨fun _ => readBasic 1 UInt8.ofNat⟩
instance : MyToBytes UInt16 := ⟨fun _ => writeBasic 2 UInt16.toNat⟩
instance : MyFromBytes UInt16 := ⟨fun _ => readBasic 2 UInt16.ofNat⟩
instance : MyToBytes UInt32 := ⟨fun _ => writeBasic 4 UInt32.toNat⟩
instance : MyFromBytes UInt32 := ⟨fun _ => readBasic 4 UInt32.ofNat⟩
-- `usize` has the same eight bytes.
instance : MyToBytes UInt64 := ⟨fun _ => writeBasic 8 UInt64.toNat⟩
instance : MyFromBytes UInt64 := ⟨fun _ => readBasic 8 UInt64.ofNat⟩

instance : LawfulSerde UInt8 :=
  ⟨fun _ => readBasic_writeBasic _ _ _ (fun item => item.toNat_lt) fun item => by simp⟩
instance : LawfulSerde UInt16 :=
  ⟨fun _ => readBasic_writeBasic _ _ _ (fun item => item.toNat_lt) fun item => by simp⟩
instance : LawfulSerde UInt32 :=
  ⟨fun _ => readBasic_writeBasic _ _ _ (fun item => item.toNat_lt) fun item => by simp⟩
instance : LawfulSerde UInt64 :=
  ⟨fun _ => readBasic_writeBasic _ _ _ (fun item => item.toNat_lt) fun item => by simp⟩

/-! ### Vectors -/

instance : MyToBytes (Vec UInt8) :=
  ⟨fun ty items => write ty (UInt64.ofNat items.len) ++ items.toList⟩

instance : MyFromBytes (Vec UInt8) where
  read ty input := do
    let (length, input) ← read (α := UInt64) ty input
    if length.toNat ≤ input.length then
      have fits : (input.take length.toNat).length < 2 ^ 64 :=
        lt_of_le_of_lt (List.length_take_le _ _) length.toNat_lt
      some (⟨input.take length.toNat, fits⟩, input.drop length.toNat)
    else
      none

theorem toNat_ofNat_len (items : Vec α) : (UInt64.ofNat items.len).toNat = items.len := by
  rw [UInt64.toNat_ofNat']
  exact Nat.mod_eq_of_lt items.length_lt

instance : LawfulSerde (Vec UInt8) where
  code ty := by
    intro items rest
    have length := toNat_ofNat_len items
    unfold Vec.len at length
    simp only [write, read, List.append_assoc]
    rw [show (writeBasic 8 UInt64.toNat (UInt64.ofNat items.len) ++ (items.toList ++ rest)) =
      write (α := UInt64) ty (UInt64.ofNat items.len) ++ (items.toList ++ rest) from rfl]
    rw [show readBasic 8 UInt64.ofNat = read (α := UInt64) ty from rfl, read_write]
    simp [Vec.len, length]

/-- `write_vec`: a `usize` count, then the items. -/
def writeVec [MyToBytes α] (ty : SerdeType) (items : Vec α) : Bytes :=
  write ty (UInt64.ofNat items.len) ++ items.toList.flatMap (write ty)

/-- `read_vec`: the count, then as many items. -/
def readVec [MyFromBytes α] (ty : SerdeType) (input : Bytes) : Option (Vec α × Bytes) := do
  let (length, input) ← read (α := UInt64) ty input
  let (items, input) ← PrefixCode.readMany (read (α := α) ty) length.toNat input
  if fits : items.length < 2 ^ 64 then some (⟨items, fits⟩, input) else none

theorem readVec_writeVec [MyToBytes α] [MyFromBytes α] [LawfulSerde α] (ty : SerdeType) :
    PrefixCode (writeVec (α := α) ty) (readVec ty) := by
  intro items rest
  have many := PrefixCode.readMany_flatMap (LawfulSerde.code (α := α) ty) items.toList rest
  have length := toNat_ofNat_len items
  unfold Vec.len at length
  rw [readVec, writeVec, List.append_assoc, read_write]
  simp only [Vec.len, length, many, Option.bind_eq_bind, Option.bind_some]
  rw [dif_pos items.length_lt]

end AuthStorage.Lvmt
