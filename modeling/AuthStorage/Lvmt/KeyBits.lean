/-
This file compares the index a key has at a level with the bits of the key. The
source shifts the window of bytes to the right by the start bit where the bits
before it should have been dropped, so a level that starts inside a byte reads
from the beginning of that byte and stops too early. The levels that start at a
byte are right; the others only where the bytes repeat, and the last byte of
every pair of levels is never read. Levels are bytes too, so nothing is read of
a key beyond its first 256 levels.
-/

import AuthStorage.Library.BigEndianBits
import AuthStorage.Lvmt.MultiLayerAmt

namespace AuthStorage.Lvmt.Key

open BigEndianBits

/-! ### What the source reads -/

/-- The bits from the beginning of the byte on, fewer by the start bit. -/
theorem mid_eq_some {key : Key} {start length : Nat} (inside : start / 8 ≤ key.bytes.len)
    (positive : start % 8 < length) (le : length ≤ 128) :
    key.mid start length =
      some (bitsFrom key.bytes.toList (8 * (start / 8)) (length - start % 8)) := by
  have startBit : start - start / 8 * 8 = start % 8 := by omega
  have shift : start % 8 + (128 - length) = 128 - (length - start % 8) := by omega
  set window := ((key.bytes.toList.drop (start / 8)).take 16) with windowDef
  have sixteen : 8 * (window ++ List.replicate (16 - window.length) 0).length = 128 := by
    have short : window.length ≤ 16 := List.length_take_le _ _
    rw [List.length_append, List.length_replicate]
    omega
  have shifted : LittleEndian.value (window ++ List.replicate (16 - window.length) 0).reverse >>>
      (128 - (length - start % 8)) =
        bitsFrom key.bytes.toList (8 * (start / 8)) (length - start % 8) := by
    rw [value_reverse_shiftRight sixteen (by omega), windowDef, bitsFrom_window _ _ _ _ (by omega)]
  unfold mid
  rw [if_neg (by omega : length ≠ 0)]
  dsimp only
  rw [if_pos inside, startBit, shift, if_pos (by omega), ← windowDef, shifted]

/-- The byte the index of a level is read from. -/
def startByte (depths level : Nat) : Nat := level * depths / 8

/-- The number of bits that are read there. -/
def width (depths level : Nat) : Nat := depths - level * depths % 8

/-- The depths the features of the source choose from. -/
def Configured (depths : Nat) : Prop := depths ∈ [8, 12, 16, 20]

theorem Configured.cases {depths : Nat} (configured : Configured depths) :
    depths = 8 ∨ depths = 12 ∨ depths = 16 ∨ depths = 20 := by
  simpa [Configured] using configured

theorem indexAtLevel_eq_some {depths : Nat} (configured : Configured depths) {key : Key}
    {level : Nat} (inside : level * depths ≤ 8 * key.bytes.len) :
    key.indexAtLevel depths level =
      some (bitsFrom key.bytes.toList (8 * startByte depths level) (width depths level)) := by
  have bounds : 8 ≤ depths ∧ depths ≤ 20 := by
    rcases configured.cases with rfl | rfl | rfl | rfl <;> omega
  exact mid_eq_some (by omega) (by omega) (by omega)

/-! ### When it is the bits of the level -/

/-- The level starts at a byte, or the low half of the byte it starts in is zero and every byte
it covers is a copy of that byte. -/
def Faithful (depths : Nat) (key : Key) (level : Nat) : Prop :=
  level * depths % 8 = 0 ∨
    byte key.bytes.toList (startByte depths level) % 16 = 0 ∧
      ∀ offset < (depths - 4) / 8,
        byte key.bytes.toList (startByte depths level + 1 + offset) =
          byte key.bytes.toList (startByte depths level)

theorem bitsFrom_two (bytes : List UInt8) (number : Nat) :
    bitsFrom bytes (8 * number) (8 + 8) = byte bytes number * 256 + byte bytes (number + 1) := by
  have next : 8 * number + 8 = 8 * (number + 1) := by ring
  rw [bitsFrom_add, bitsFrom_byte, next, bitsFrom_byte]
  norm_num

/-- The low half of a byte and the stretch after it. -/
theorem bitsFrom_half (bytes : List UInt8) (number rest : Nat) :
    bitsFrom bytes (8 * number + 4) (4 + rest) =
      byte bytes number % 16 * 2 ^ rest + bitsFrom bytes (8 * (number + 1)) rest := by
  have next : 8 * number + 4 + 4 = 8 * (number + 1) := by ring
  rw [bitsFrom_add, bitsFrom_low bytes number (by norm_num : 4 ≤ 8), next]
  norm_num

/-- With twelve bits a level, one byte is read for a half and a byte. -/
theorem half_twelve (bytes : List UInt8) (number : Nat) :
    bitsFrom bytes (8 * number) 8 = bitsFrom bytes (8 * number + 4) (4 + 8) ↔
      byte bytes number % 16 = 0 ∧ ∀ offset < 1,
        byte bytes (number + 1 + offset) = byte bytes number := by
  have small : byte bytes number < 256 := UInt8.toNat_lt _
  have next : byte bytes (number + 1) < 256 := UInt8.toNat_lt _
  rw [bitsFrom_half, bitsFrom_byte, bitsFrom_byte, Nat.forall_lt_succ_right]
  simp only [Nat.add_zero, Nat.not_lt_zero, false_implies, implies_true, true_and]
  omega

/-- With twenty bits a level, two bytes are read for a half and two bytes. -/
theorem half_twenty (bytes : List UInt8) (number : Nat) :
    bitsFrom bytes (8 * number) (8 + 8) = bitsFrom bytes (8 * number + 4) (4 + (8 + 8)) ↔
      byte bytes number % 16 = 0 ∧ ∀ offset < 2,
        byte bytes (number + 1 + offset) = byte bytes number := by
  have small : byte bytes number < 256 := UInt8.toNat_lt _
  have next : byte bytes (number + 1) < 256 := UInt8.toNat_lt _
  have last : byte bytes (number + 1 + 1) < 256 := UInt8.toNat_lt _
  rw [bitsFrom_half, bitsFrom_two, bitsFrom_two, Nat.forall_lt_succ_right,
    Nat.forall_lt_succ_right]
  simp only [Nat.add_zero, Nat.not_lt_zero, false_implies, implies_true, true_and]
  constructor
  · intro same
    have half : byte bytes number % 16 = 0 := by omega
    exact ⟨half, by omega, by omega⟩
  · rintro ⟨half, nextSame, lastSame⟩
    omega

theorem faithful_iff {depths : Nat} (configured : Configured depths) (key : Key) (level : Nat) :
    bitsFrom key.bytes.toList (8 * startByte depths level) (width depths level) =
      bitsFrom key.bytes.toList (level * depths) depths ↔ Faithful depths key level := by
  by_cases aligned : level * depths % 8 = 0
  · have start : 8 * startByte depths level = level * depths := by
      unfold startByte
      omega
    have whole : width depths level = depths := by
      unfold width
      omega
    rw [start, whole]
    exact ⟨fun _ => Or.inl aligned, fun _ => rfl⟩
  · have half : level * depths = 8 * startByte depths level + 4 ∧
        width depths level = depths - 4 := by
      unfold startByte width
      rcases configured.cases with rfl | rfl | rfl | rfl <;> omega
    rw [half.1, half.2, Faithful, or_iff_right aligned]
    rcases configured.cases with rfl | rfl | rfl | rfl
    · omega
    · exact half_twelve key.bytes.toList (startByte 12 level)
    · omega
    · exact half_twenty key.bytes.toList (startByte 20 level)

/-! ### Which keys are told apart -/

/-- With a depth that is no multiple of eight, two levels are `depths / 4` bytes, and the last of
these bytes is not read. -/
def Seen (depths number : Nat) : Prop :=
  depths % 8 = 0 ∨ number % (depths / 4) ≠ depths / 4 - 1

/-- Every byte a level reads is one that is seen. -/
theorem seen_of_read {depths : Nat} (configured : Configured depths) {level offset : Nat}
    (read : offset < width depths level) :
    Seen depths ((8 * startByte depths level + offset) / 8) := by
  unfold width at read
  unfold Seen startByte
  obtain ⟨pair, even | odd⟩ := level.even_or_odd'
  · subst even
    rcases configured.cases with rfl | rfl | rfl | rfl <;> omega
  · subst odd
    rcases configured.cases with rfl | rfl | rfl | rfl <;> omega

/-- Every byte that is seen is read by some level. -/
theorem read_of_seen {depths number : Nat} (configured : Configured depths)
    (seen : Seen depths number) :
    startByte depths ((8 * number + 4) / depths) ≤ number ∧
      8 * number + 8 ≤ 8 * startByte depths ((8 * number + 4) / depths) +
        width depths ((8 * number + 4) / depths) := by
  unfold Seen at seen
  unfold startByte width
  rcases configured.cases with rfl | rfl | rfl | rfl
  · omega
  · obtain ⟨pair, first | second⟩ : ∃ pair, number = 3 * pair ∨ number = 3 * pair + 1 :=
      ⟨number / 3, by omega⟩
    · rw [show (8 * number + 4) / 12 = 2 * pair by omega]
      omega
    · rw [show (8 * number + 4) / 12 = 2 * pair + 1 by omega]
      omega
  · omega
  · obtain ⟨pair, offset, small, rfl⟩ :
        ∃ pair offset, offset < 4 ∧ number = 5 * pair + offset :=
      ⟨number / 5, number % 5, by omega, by omega⟩
    by_cases early : offset < 2
    · rw [show (8 * (5 * pair + offset) + 4) / 20 = 2 * pair by omega]
      omega
    · rw [show (8 * (5 * pair + offset) + 4) / 20 = 2 * pair + 1 by omega]
      omega

/-- A level that is a byte reads within the first 256 levels. -/
theorem lt_of_read {depths : Nat} (configured : Configured depths) {level offset : Nat}
    (byteLevel : level < 256) (read : offset < width depths level) :
    (8 * startByte depths level + offset) / 8 < 32 * depths := by
  unfold width at read
  unfold startByte
  rcases configured.cases with rfl | rfl | rfl | rfl <;> omega

/-- The levels below the length in levels, rounded up, start within the key. -/
theorem level_lt_iff {depths level length : Nat} (positive : 0 < depths) :
    level < (8 * length + depths - 1) / depths ↔ level * depths < 8 * length := by
  rw [Nat.lt_iff_add_one_le, Nat.le_div_iff_mul_le positive, Nat.add_mul, Nat.one_mul]
  omega

/-- Two keys of one length have another index at some level exactly if they differ in a byte that
is seen and that a level reads. -/
theorem index_ne_iff {depths : Nat} (configured : Configured depths) {first second : Key}
    (sameLength : first.bytes.len = second.bytes.len) :
    (∃ level : UInt8, level.toNat < (8 * first.bytes.len + depths - 1) / depths ∧
        first.indexAtLevel depths level.toNat ≠ second.indexAtLevel depths level.toNat) ↔
      ∃ number < first.bytes.len, number < 32 * depths ∧ Seen depths number ∧
        byte first.bytes.toList number ≠ byte second.bytes.toList number := by
  have positive : 0 < depths := by rcases configured.cases with rfl | rfl | rfl | rfl <;> omega
  constructor
  · rintro ⟨level, below, differ⟩
    have inside := ((level_lt_iff positive).mp below).le
    rw [indexAtLevel_eq_some configured inside,
      indexAtLevel_eq_some configured (sameLength ▸ inside)] at differ
    by_contra same
    push Not at same
    refine differ (congrArg some (bitsFrom_congr fun offset read => ?_))
    unfold Vec.len at same sameLength
    have seen := seen_of_read configured read
    have early := lt_of_read configured level.toNat_lt read
    have sameByte : byte first.bytes.toList ((8 * startByte depths level.toNat + offset) / 8) =
        byte second.bytes.toList ((8 * startByte depths level.toNat + offset) / 8) := by
      by_cases present :
          (8 * startByte depths level.toNat + offset) / 8 < first.bytes.toList.length
      · exact same _ present early seen
      · rw [byte, byte, List.getD_eq_default _ _ (Nat.le_of_not_lt present),
          List.getD_eq_default _ _ (sameLength ▸ Nat.le_of_not_lt present)]
    rw [bit, bit, sameByte]
  · rintro ⟨number, present, early, seen, differ⟩
    obtain ⟨start, stop⟩ := read_of_seen configured seen
    set level := (8 * number + 4) / depths with levelDef
    have bound : level * depths ≤ 8 * number + 4 := Nat.div_mul_le_self _ _
    have inside : level * depths < 8 * first.bytes.len := by omega
    have byteLevel : level < 256 := by
      rw [levelDef, Nat.div_lt_iff_lt_mul positive]
      omega
    have same : (UInt8.ofNat level).toNat = level := by
      rw [UInt8.toNat_ofNat', Nat.mod_eq_of_lt byteLevel]
    refine ⟨UInt8.ofNat level, ?_, ?_⟩
    · rw [same]
      exact (level_lt_iff positive).mpr inside
    · rw [same]
      intro sameIndex
      refine differ ?_
      rw [indexAtLevel_eq_some configured inside.le,
        indexAtLevel_eq_some configured (sameLength ▸ inside.le),
        Option.some.injEq] at sameIndex
      rw [← bitsFrom_byte, ← bitsFrom_byte]
      refine bitsFrom_congr fun offset small => ?_
      have sameBit := bit_eq_of_bitsFrom_eq sameIndex
        (by omega : 8 * number + offset - 8 * startByte depths level < width depths level)
      rwa [Nat.add_sub_cancel' (by omega)] at sameBit

/-! ### The tree of a level -/

theorem treeAtLevel_eq_some {depths : Nat} (configured : Configured depths) {key : Key}
    {level : Nat} (inside : ∀ earlier < level, earlier * depths ≤ 8 * key.bytes.len) :
    ∃ name, key.treeAtLevel depths level = some name ∧
      name.toList.map (fun index => some index.toNat) =
        (List.range level).map (key.indexAtLevel depths) := by
  induction level with
  | zero => exact ⟨.root, rfl, rfl⟩
  | succ level inductionHypothesis =>
    obtain ⟨parent, found, indices⟩ :=
      inductionHypothesis fun earlier below => inside earlier (Nat.lt_succ_of_lt below)
    have indexed := indexAtLevel_eq_some configured (inside level (Nat.lt_succ_self _))
    set index := bitsFrom key.bytes.toList (8 * startByte depths level) (width depths level)
    have small : index < 2 ^ 32 := by
      refine lt_of_lt_of_le (indexAtLevel_lt ?_ indexed) (Nat.pow_le_pow_right (by norm_num) ?_)
      all_goals rcases configured.cases with rfl | rfl | rfl | rfl <;> omega
    refine ⟨parent.child (UInt32.ofNat index), ?_, ?_⟩
    · rw [treeAtLevel, found, Option.bind_eq_bind, Option.bind_some, indexed]
      rfl
    · rw [TreeName.toList, List.map_append, indices, List.range_succ, List.map_append,
        List.map_singleton, List.map_singleton, indexed,
        UInt32.toNat_ofNat_of_lt' small]

/-! ### The indices of a key -/

/-- In every configuration an index is there for each level that starts within the key, and it
is the bits of the level exactly when the level starts at a byte or the bytes repeat; keys of one
length are told apart by their indices exactly when they differ in a byte that a level reads; and
the name of the tree of a level is the indices of the levels above. -/
theorem index_bits {depths : Nat} (configured : Configured depths) :
    (∀ (key : Key) (level : UInt8), level.toNat * depths ≤ 8 * key.bytes.len →
      ∃ index, key.indexAtLevel depths level.toNat = some index ∧
        (index = bitsFrom key.bytes.toList (level.toNat * depths) depths ↔
          Faithful depths key level.toNat)) ∧
      (∀ first second : Key, first.bytes.len = second.bytes.len →
        ((∃ level : UInt8, level.toNat < (8 * first.bytes.len + depths - 1) / depths ∧
            first.indexAtLevel depths level.toNat ≠ second.indexAtLevel depths level.toNat) ↔
          ∃ number < first.bytes.len, number < 32 * depths ∧ Seen depths number ∧
            byte first.bytes.toList number ≠ byte second.bytes.toList number)) ∧
      ∀ (key : Key) (level : UInt8),
        (∀ earlier < level.toNat, earlier * depths ≤ 8 * key.bytes.len) →
          ∃ name, key.treeAtLevel depths level.toNat = some name ∧
            name.toList.map (fun index => some index.toNat) =
              (List.range level.toNat).map (key.indexAtLevel depths) :=
  ⟨fun _ level inside =>
      ⟨_, indexAtLevel_eq_some configured inside, faithful_iff configured _ level.toNat⟩,
    fun _ _ sameLength => index_ne_iff configured sameLength,
    fun _ _ inside => treeAtLevel_eq_some configured inside⟩

theorem three_lt : 3 < 2 ^ 64 := by decide

/-- Keys that differ in their third byte, which no level of twelve bits reads. -/
def unread (last : UInt8) : Key := ⟨⟨[0, 0, last], three_lt⟩⟩

theorem index_bits_twelve :
    (∃ index, (⟨.pair 0 1⟩ : Key).indexAtLevel 12 1 = some index ∧
      (index = bitsFrom [0, 1] (1 * 12) 12 ↔ Faithful 12 ⟨.pair 0 1⟩ 1)) ∧
      ¬ ∃ level : UInt8, level.toNat < (8 * 3 + 12 - 1) / 12 ∧
        (unread 0).indexAtLevel 12 level.toNat ≠ (unread 1).indexAtLevel 12 level.toNat := by
  have configured : Configured 12 := by simp [Configured]
  refine ⟨(index_bits configured).1 ⟨.pair 0 1⟩ 1 (by decide), fun apart => ?_⟩
  obtain ⟨number, present, -, seen, differ⟩ :=
    ((index_bits configured).2.1 (unread 0) (unread 1) rfl).mp apart
  have inside : number < 3 := present
  interval_cases number
  · exact differ rfl
  · exact differ rfl
  · revert seen
    simp [Seen]

/-- The second index of the key of the bytes zero and one is one, where the bits are the upper
half of the byte past the end and the lower half of the last byte. -/
theorem index_not_bits :
    ¬ ∀ (key : Key) (level : UInt8), level.toNat * 12 ≤ 8 * key.bytes.len →
      key.indexAtLevel 12 level.toNat =
        some (bitsFrom key.bytes.toList (level.toNat * 12) 12) := by
  intro bits
  have wrong := bits ⟨.pair 0 1⟩ 1 (by decide)
  revert wrong
  decide

end AuthStorage.Lvmt.Key
