/-
This file models the data of `multi_layer_amt/`: the keys and the tree and index
each level of the forest gives them, the names of the trees, and the leaves of
the version trees. A leaf packs a tree version and up to five key versions into
one integer, five bytes each.
-/

import AuthStorage.Lvmt.AMTree

namespace AuthStorage.Lvmt

/-! ### Tree names -/

/-- The indices on the path from the root tree, the last one outermost. -/
inductive TreeName
  | root
  | child (parent : TreeName) (index : UInt32)
deriving DecidableEq

namespace TreeName

/-- The indices as the source stores them. -/
def toList : TreeName → List UInt32
  | root => []
  | child parent index => parent.toList ++ [index]

/-- The tree at the end of a path. -/
def ofList (indices : List UInt32) : TreeName := indices.foldl child root

/-- The level of the tree. -/
def length : TreeName → Nat
  | root => 0
  | child parent _ => parent.length + 1

theorem length_toList (name : TreeName) : name.toList.length = name.length := by
  induction name with
  | root => rfl
  | child parent index inductionHypothesis =>
    rw [toList, List.length_append, inductionHypothesis, List.length_singleton, length]

@[simp] theorem ofList_toList (name : TreeName) : ofList name.toList = name := by
  induction name with
  | root => rfl
  | child parent index inductionHypothesis =>
    rw [ofList] at inductionHypothesis
    rw [toList, ofList, List.foldl_append, inductionHypothesis]
    rfl

instance : MyToBytes TreeName :=
  ⟨fun ty name =>
    write ty (UInt8.ofNat name.toList.length) ++ name.toList.flatMap (write ty)⟩

instance : MyFromBytes TreeName where
  read ty input := do
    let (length, input) ← read (α := UInt8) ty input
    let (answer, input) ← PrefixCode.readMany (read (α := UInt32) ty) length.toNat input
    some (ofList answer, input)

/-- The length byte is faithful for up to 255 indices. -/
theorem read_write_of_le {name : TreeName} (short : name.length ≤ 255) (ty : SerdeType)
    (rest : Bytes) : read ty (write ty name ++ rest) = some (name, rest) := by
  have length : (UInt8.ofNat name.toList.length).toNat = name.toList.length := by
    rw [UInt8.toNat_ofNat', length_toList]
    exact Nat.mod_eq_of_lt (by omega)
  have many := PrefixCode.readMany_flatMap (LawfulSerde.code (α := UInt32) ty) name.toList rest
  show (read ty (write ty (UInt8.ofNat name.toList.length) ++
    name.toList.flatMap (write ty) ++ rest)).bind _ = _
  rw [List.append_assoc, read_write, Option.bind_some]
  show (PrefixCode.readMany _ (UInt8.ofNat name.toList.length).toNat _).bind _ = _
  rw [length, many]
  show some (ofList name.toList, rest) = _
  rw [ofList_toList]

theorem write_append_inj {first second : TreeName} (firstShort : first.length ≤ 255)
    (secondShort : second.length ≤ 255) {ty : SerdeType} {firstRest secondRest : Bytes}
    (same : write ty first ++ firstRest = write ty second ++ secondRest) :
    first = second ∧ firstRest = secondRest := by
  have read_first := read_write_of_le firstShort ty firstRest
  rw [same, read_write_of_le secondShort, Option.some.injEq, Prod.mk.injEq] at read_first
  exact ⟨read_first.1.symm, read_first.2.symm⟩

theorem toBytesConsensus_inj {first second : TreeName} (firstShort : first.length ≤ 255)
    (secondShort : second.length ≤ 255)
    (same : toBytesConsensus first = toBytesConsensus second) : first = second := by
  have padded : write ⟨true⟩ first ++ [] = write ⟨true⟩ second ++ [] :=
    congrArg (· ++ []) same
  exact (write_append_inj firstShort secondShort padded).1

end TreeName

/-! ### Keys -/

/-- The key of a pair; it may be empty. -/
structure Key where
  bytes : Vec UInt8
deriving DecidableEq

namespace Key

instance : Inhabited Key := ⟨⟨default⟩⟩

theorem ext {first second : Key} (same : first.bytes.toList = second.bytes.toList) :
    first = second := by
  cases first
  cases second
  exact congrArg mk (Vec.ext same)

/-- `length` bits from bit `start` on, as the source reads them: the first byte of the slice is
not masked. Slicing beyond the end and shifting by 128 or more panic. -/
def mid (key : Key) (start length : Nat) : Option Nat :=
  if length = 0 then
    some 0
  else
    let startByte := start / 8
    let startBit := start - startByte * 8
    if startByte ≤ key.bytes.len then
      let entry := (key.bytes.toList.drop startByte).take 16
      let entry := entry ++ List.replicate (16 - entry.length) 0
      let entry := LittleEndian.value entry.reverse
      if startBit + (128 - length) < 128 then some (entry >>> (startBit + (128 - length))) else none
    else
      none

/-- Levels are bytes in the source; `level` is the value of one. -/
def indexAtLevel (depths : Nat) (key : Key) (level : Nat) : Option Nat :=
  key.mid (level * depths) depths

/-- The indices of the levels above, for the value of a byte. -/
def treeAtLevel (depths : Nat) (key : Key) : Nat → Option TreeName
  | 0 => some .root
  | level + 1 => do
    let parent ← key.treeAtLevel depths level
    let index ← key.indexAtLevel depths level
    some (parent.child (UInt32.ofNat index))

theorem mid_lt {key : Key} {start length index : Nat} (le : length ≤ 128)
    (done : key.mid start length = some index) : index < 2 ^ length := by
  unfold mid at done
  split at done
  · obtain rfl := Option.some.inj done
    exact Nat.two_pow_pos length
  · dsimp only at done
    split at done
    · split at done
      · rename_i inside small
        obtain rfl := Option.some.inj done
        set slice := (key.bytes.toList.drop (start / 8)).take 16
        have sixteen : (slice ++ List.replicate (16 - slice.length) 0).reverse.length = 16 := by
          have short : slice.length ≤ 16 := List.length_take_le _ _
          rw [List.length_reverse, List.length_append, List.length_replicate]
          omega
        have bound := LittleEndian.value_lt (slice ++ List.replicate (16 - slice.length) 0).reverse
        rw [sixteen, show (256 : Nat) ^ 16 = 2 ^ 128 by norm_num] at bound
        rw [Nat.shiftRight_eq_div_pow]
        refine Nat.div_lt_of_lt_mul (lt_of_lt_of_le bound ?_)
        rw [← pow_add]
        exact Nat.pow_le_pow_right (by norm_num) (by omega)
      · cases done
    · cases done

theorem indexAtLevel_lt {depths : Nat} (le : depths ≤ 28) {key : Key} {level index : Nat}
    (done : key.indexAtLevel depths level = some index) : index < 2 ^ depths :=
  mid_lt (by omega) done

theorem length_treeAtLevel {depths : Nat} {key : Key} {level : Nat} {name : TreeName}
    (done : key.treeAtLevel depths level = some name) : name.length = level := by
  induction level generalizing name with
  | zero =>
    obtain rfl := Option.some.inj done
    rfl
  | succ level inductionHypothesis =>
    obtain ⟨parent, found, done⟩ := Option.bind_eq_some_iff.mp done
    obtain ⟨index, _, done⟩ := Option.bind_eq_some_iff.mp done
    obtain rfl := Option.some.inj done
    rw [TreeName.length, inductionHypothesis found]

/-- A key that is long enough for a lower level has an index at the top. -/
theorem indexAtLevel_zero {depths : Nat} {key : Key} {level : Nat} {name : TreeName}
    (done : key.treeAtLevel depths (level + 1) = some name) :
    ∃ index, key.indexAtLevel depths 0 = some index := by
  induction level generalizing name with
  | zero =>
    have unfolded : (key.indexAtLevel depths 0).bind
        (fun index => some (TreeName.root.child (UInt32.ofNat index))) = some name := done
    obtain ⟨index, indexed, -⟩ := Option.bind_eq_some_iff.mp unfolded
    exact ⟨index, indexed⟩
  | succ level inductionHypothesis =>
    obtain ⟨parent, found, -⟩ := Option.bind_eq_some_iff.mp done
    exact inductionHypothesis found

end Key

/-! ### Leaves of the version trees -/

/-- The place of a leaf: the epoch and the position in it. -/
structure EpochPosition where
  epoch : UInt64
  position : UInt64
deriving DecidableEq

/-- The level and the slot of a key, and its version there. -/
structure VerInfo where
  version : UInt64
  level : UInt8
  slotIndex : UInt8
deriving DecidableEq

/-- The data of a leaf: the versions of up to five keys, and of the tree below with the place of its
hash. -/
structure Node where
  keyVersions : Vec UInt64
  treeVersion : UInt64
  treePosition : EpochPosition
deriving DecidableEq

instance : Inhabited EpochPosition := ⟨⟨0, 0⟩⟩

instance : Inhabited VerInfo := ⟨⟨0, 0, 0⟩⟩

instance : Inhabited Node := ⟨⟨default, 0, default⟩⟩

instance : MyToBytes EpochPosition :=
  ⟨fun ty item => write ty item.epoch ++ write ty item.position⟩

instance : MyFromBytes EpochPosition where
  read ty input := do
    let (epoch, input) ← read ty input
    let (position, input) ← read ty input
    some (⟨epoch, position⟩, input)

instance : LawfulSerde EpochPosition where
  code ty := by
    intro item rest
    show (read ty (write ty item.epoch ++ write ty item.position ++ rest)).bind _ = _
    simp [List.append_assoc]

instance : MyToBytes VerInfo :=
  ⟨fun ty item => write ty item.version ++ write ty item.level ++ write ty item.slotIndex⟩

instance : MyFromBytes VerInfo where
  read ty input := do
    let (version, input) ← read ty input
    let (level, input) ← read ty input
    let (slotIndex, input) ← read ty input
    some (⟨version, level, slotIndex⟩, input)

instance : LawfulSerde VerInfo where
  code ty := by
    intro item rest
    show (read ty (write ty item.version ++ write ty item.level ++ write ty item.slotIndex ++
      rest)).bind _ = _
    simp [List.append_assoc]

instance : MyToBytes Node :=
  ⟨fun ty item =>
    writeVec ty item.keyVersions ++ write ty item.treeVersion ++ write ty item.treePosition⟩

instance : MyFromBytes Node where
  read ty input := do
    let (keyVersions, input) ← readVec ty input
    let (treeVersion, input) ← read ty input
    let (treePosition, input) ← read ty input
    some (⟨keyVersions, treeVersion, treePosition⟩, input)

instance : LawfulSerde Node where
  code ty := by
    intro item rest
    show (readVec ty (writeVec ty item.keyVersions ++ write ty item.treeVersion ++
      write ty item.treePosition ++ rest)).bind _ = _
    rw [List.append_assoc, List.append_assoc, readVec_writeVec ty]
    simp

namespace Node

/-- The low five bytes of a version. -/
def versionBytes (version : UInt64) : Bytes := (LittleEndian.digits 8 version.toNat).take 5

/-- The bytes of the packed integer, without the padding. -/
def frBytes (node : Node) : Bytes :=
  versionBytes node.treeVersion ++ node.keyVersions.toList.flatMap versionBytes

/-- `as_fr_int`; it asserts that there are at most five key versions. -/
def asFrInt (node : Node) : Option FrInt :=
  if node.keyVersions.len ≤ 5 then
    some (BitVec.ofNat 256 (LittleEndian.value
      (node.frBytes ++ List.replicate (32 - node.frBytes.length) 0)))
  else
    none

/-- `versions_from_fr_int`; it asserts `index < 6`. -/
def versionsFromFrInt (frInt : FrInt) (index : Nat) : Option UInt64 :=
  if index < 6 then
    some (UInt64.ofNat (LittleEndian.value
      (((LittleEndian.digits 32 frInt.toNat).drop (index * 5)).take 5)))
  else
    none

instance : AMTData Node where
  asFrInt := asFrInt
  asFrInt_default := rfl

/-! ### The packed integer -/

/-- The tree version and then the key versions, as the digits of the integer. -/
def versions (node : Node) : List Nat :=
  (node.treeVersion :: node.keyVersions.toList).map fun version => version.toNat % 2 ^ 40

theorem length_versionBytes (version : UInt64) : (versionBytes version).length = 5 := by
  rw [versionBytes, List.length_take, LittleEndian.length_digits]
  rfl

theorem value_versionBytes (version : UInt64) :
    LittleEndian.value (versionBytes version) = version.toNat % 2 ^ 40 := by
  rw [versionBytes, LittleEndian.take_digits, LittleEndian.value_digits]
  norm_num

theorem value_flatMap_versionBytes (versions : List UInt64) :
    LittleEndian.value (versions.flatMap versionBytes) =
      Nat.ofDigits (2 ^ 40) (versions.map fun version => version.toNat % 2 ^ 40) := by
  induction versions with
  | nil => rfl
  | cons version rest inductionHypothesis =>
    rw [List.flatMap_cons, LittleEndian.value_append, value_versionBytes, length_versionBytes,
      inductionHypothesis, List.map_cons, Nat.ofDigits_cons]
    norm_num

theorem frBytes_eq (node : Node) :
    node.frBytes = (node.treeVersion :: node.keyVersions.toList).flatMap versionBytes := rfl

/-- The integer of a leaf is below `2 ^ 240`, and the versions are its digits. -/
theorem toNat_asFrInt {node : Node} {frInt : FrInt} (done : node.asFrInt = some frInt) :
    frInt.toNat = Nat.ofDigits (2 ^ 40) node.versions ∧ frInt.toNat < 2 ^ 240 := by
  unfold asFrInt at done
  split at done
  · rename_i short
    obtain rfl := Option.some.inj done
    have value : LittleEndian.value
        (node.frBytes ++ List.replicate (32 - node.frBytes.length) 0) =
          Nat.ofDigits (2 ^ 40) node.versions := by
      rw [LittleEndian.value_append, LittleEndian.value_replicate_zero, Nat.mul_zero,
        Nat.add_zero, frBytes_eq, value_flatMap_versionBytes, versions]
    have bound : Nat.ofDigits (2 ^ 40) node.versions < 2 ^ 240 := by
      have digits : ∀ version ∈ node.versions, version < 2 ^ 40 := by
        intro version member
        obtain ⟨stored, -, rfl⟩ := List.mem_map.mp member
        exact Nat.mod_lt _ (Nat.two_pow_pos 40)
      have length : node.versions.length ≤ 6 := by
        rw [versions, List.length_map, List.length_cons]
        exact Nat.succ_le_succ short
      refine lt_of_lt_of_le (Nat.ofDigits_lt_base_pow_length (by norm_num) digits) ?_
      rw [← pow_mul]
      exact Nat.pow_le_pow_right (by norm_num) (by omega)
    rw [value, BitVec.toNat_ofNat, Nat.mod_eq_of_lt (lt_trans bound (by norm_num))]
    exact ⟨rfl, bound⟩
  · cases done

theorem asFrInt_isSome {node : Node} :
    (∃ frInt, node.asFrInt = some frInt) ↔ node.keyVersions.len ≤ 5 := by
  unfold asFrInt
  split
  · rename_i short
    exact ⟨fun _ => short, fun _ => ⟨_, rfl⟩⟩
  · rename_i long
    exact ⟨fun ⟨_, done⟩ => absurd done (by simp), fun short => absurd short long⟩

/-- A window of five bytes of the integer. -/
theorem versionsFromFrInt_eq {frInt : FrInt} {index : Nat} (inside : index < 6) :
    versionsFromFrInt frInt index =
      some (UInt64.ofNat (frInt.toNat / (2 ^ 40) ^ index % 2 ^ 40)) := by
  rw [versionsFromFrInt, if_pos inside, LittleEndian.value_window _ _ _ _ (by omega)]
  have base : (256 : Nat) ^ (index * 5) = (2 ^ 40) ^ index := by
    rw [Nat.mul_comm, pow_mul]
    norm_num
  rw [base, show (256 : Nat) ^ 5 = 2 ^ 40 by norm_num]

/-- Each version below `2 ^ 40` is read back from the packed integer. -/
theorem versionsFromFrInt_asFrInt {node : Node} {frInt : FrInt} {index : Nat}
    (done : node.asFrInt = some frInt) (inside : index < 6) :
    versionsFromFrInt frInt index = some (UInt64.ofNat (node.versions.getD index 0)) := by
  rw [versionsFromFrInt_eq inside, (toNat_asFrInt done).1, LittleEndian.digit_ofDigits _ (by norm_num)]
  intro version member
  obtain ⟨stored, -, rfl⟩ := List.mem_map.mp member
  exact Nat.mod_lt _ (Nat.two_pow_pos 40)

end Node

end AuthStorage.Lvmt
