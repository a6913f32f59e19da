/-
This file models the keys of `util.rs` and the constants of `lib.rs`: the 32-byte
hashes that name the nodes, the keys of the journal, and numbers and hashes in
their stored form, which are read back as they were written. The keys the journal
databases write in one column differ in length, so the kinds of entries never
overlap.
-/

import AuthStorage.Library.RlpNumbers
import AuthStorage.ParityJournaldb.MemoryDb

namespace AuthStorage.ParityJournaldb

open AuthStorage.Lvmt (Bytes DBColumn DBOp)

/-! ### Hashes and constants -/

/-- Hashes of 32 bytes. -/
abbrev H256 := Vector UInt8 32

/-- The bytes of a node. -/
abbrev DBValue := Bytes

namespace H256

/-- The hash as a key of the column. -/
def asBytes (key : H256) : Bytes := key.toList

@[simp] theorem length_asBytes (key : H256) : key.asBytes.length = 32 := Vector.length_toList

theorem asBytes_injective : Function.Injective asBytes := fun _ _ same =>
  Vector.toList_inj.mp same

end H256

/-- The encoding of the empty string, which the null node has. -/
def NULL_RLP : Bytes := [0x80]

/-- Entries are stored under the first bytes of their hash. -/
def DB_PREFIX_LEN : Nat := 12

/-- `last` and eight zero bytes. -/
def LATEST_ERA_KEY : Bytes := [108, 97, 115, 116, 0, 0, 0, 0, 0, 0, 0, 0]

/-- A memory database in which the null node is `NULL_RLP`. -/
def newMemoryDb (hash : Bytes → H256) : MemoryDB H256 DBValue :=
  .fromNullNode hash NULL_RLP NULL_RLP

/-! ### Journal keys -/

/-- Makes the key of a journal entry longer than that of a node. -/
def PADDING : Bytes := List.replicate 10 0

/-- Where the journal entry of a block is: the era, and the block's number within it. -/
structure DatabaseKey where
  era : UInt64
  index : Nat

namespace DatabaseKey

/-- The list of the era, the number and the padding. -/
def encode (key : DatabaseKey) : Bytes :=
  Rlp.list [Rlp.number key.era.toNat, Rlp.number key.index, Rlp.string PADDING]

theorem isItem_fields (key : DatabaseKey) :
    ∀ item ∈ [Rlp.number key.era.toNat, Rlp.number key.index, Rlp.string PADDING],
      Rlp.IsItem item := by
  intro item member
  simp only [List.mem_cons, List.not_mem_nil, or_false] at member
  rcases member with rfl | rfl | rfl
  · exact Rlp.isItem_number _
  · exact Rlp.isItem_number _
  · exact Rlp.isItem_string _

theorem encode_injective : Function.Injective encode := by
  intro first second same
  have fields := Rlp.items_list (isItem_fields first)
  rw [← encode, same, encode, Rlp.items_list (isItem_fields second), Option.some.injEq] at fields
  obtain ⟨eras, rest⟩ := List.cons.inj fields
  obtain ⟨indices, -⟩ := List.cons.inj rest
  obtain ⟨era, index⟩ := first
  obtain ⟨era', index'⟩ := second
  have sameEra : era' = era := UInt64.toNat_inj.mp (Rlp.number_injective eras)
  have sameIndex : index' = index := Rlp.number_injective indices
  rw [sameEra, sameIndex]

/-- An era and an index take at most nine bytes each. -/
theorem length_encode {key : DatabaseKey} (small : key.index < 2 ^ 64) :
    14 ≤ key.encode.length ∧ key.encode.length ≤ 30 := by
  have smallEra : key.era.toNat < 256 ^ 8 := lt_of_lt_of_le (UInt64.toNat_lt _) (by norm_num)
  have smallIndex : key.index < 256 ^ 8 := lt_of_lt_of_le small (by norm_num)
  have era := Rlp.length_number smallEra (by norm_num)
  have index := Rlp.length_number smallIndex (by norm_num)
  have padding : (Rlp.string PADDING).length = 11 := by decide
  have payload : [Rlp.number key.era.toNat, Rlp.number key.index,
      Rlp.string PADDING].flatten.length =
      (Rlp.number key.era.toNat).length + ((Rlp.number key.index).length + 11) := by
    simp [padding]
  rw [encode, Rlp.length_list (by omega), payload]
  omega

theorem encode_ne_asBytes {key : DatabaseKey} (small : key.index < 2 ^ 64) (node : H256) :
    key.encode ≠ node.asBytes := by
  intro same
  have bounds := length_encode small
  rw [same, H256.length_asBytes] at bounds
  omega

theorem encode_ne_latestEraKey {key : DatabaseKey} (small : key.index < 2 ^ 64) :
    key.encode ≠ LATEST_ERA_KEY := by
  intro same
  have bounds := length_encode small
  rw [same] at bounds
  exact absurd bounds.1 (by decide)

end DatabaseKey

theorem asBytes_ne_latestEraKey (node : H256) : node.asBytes ≠ LATEST_ERA_KEY := by
  intro same
  have lengths := congrArg List.length same
  rw [H256.length_asBytes] at lengths
  exact absurd lengths (by decide)

/-! ### Stored numbers and hashes -/

/-- `encode` of a `u64`. -/
def encodeEra (era : UInt64) : Bytes := Rlp.number era.toNat

/-- An era, which has 64 bits. -/
def decodeEra (input : Bytes) : Option UInt64 := (Rlp.readNumber 8 input).map UInt64.ofNat

theorem decodeEra_encodeEra (era : UInt64) : decodeEra (encodeEra era) = some era := by
  have small : era.toNat < 256 ^ 8 := lt_of_lt_of_le (UInt64.toNat_lt _) (by norm_num)
  rw [decodeEra, encodeEra, Rlp.readNumber_number small, Option.map_some, UInt64.ofNat_toNat]

/-- A string of the 32 bytes. -/
def H256.encode (key : H256) : Bytes := Rlp.string key.asBytes

/-- Only strings of 32 bytes are hashes. -/
def H256.decode (input : Bytes) : Option H256 :=
  (Rlp.data input).bind fun bytes =>
    if length : bytes.length = 32 then some ⟨bytes.toArray, by rw [List.size_toArray, length]⟩
    else none

theorem H256.decode_encode (key : H256) : H256.decode key.encode = some key := by
  rw [H256.decode, H256.encode, Rlp.data_string, Option.bind_some,
    dif_pos (H256.length_asBytes key)]
  rfl

theorem H256.readList_encode (hashes : List H256) :
    Rlp.readList H256.decode (Rlp.list (hashes.map H256.encode)) = some hashes :=
  Rlp.readList_list (fun key _ => Rlp.isItem_string key.asBytes)
    fun key _ => H256.decode_encode key

end AuthStorage.ParityJournaldb
