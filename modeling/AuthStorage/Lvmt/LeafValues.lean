/-
This file is about the preimages of the leaves of an epoch's Merkle tree. The
encodings of key leaves and of subtree leaves are injective, each on its own.
They carry no tag, though, and the two do meet: a collision forces the eight
length bytes of the key to be the first eight bytes of the subtree's encoding,
and where these agree it can happen, on a point of the curve in use.
-/

import AuthStorage.Lvmt.MultiLayerAmt

namespace AuthStorage.Lvmt

/-! ### The preimages -/

/-- The preimage of a subtree leaf; `P` is the type of affine points. -/
structure TreeValue (P : Type) where
  key : TreeName
  versionNumber : UInt64
  commitment : P

/-- What is hashed of a key: its version and its value are bound to it. -/
structure KeyValue where
  key : Vec UInt8
  version : VerInfo
  value : Vec UInt8
deriving DecidableEq

instance {P : Type} [MyToBytes P] : MyToBytes (TreeValue P) :=
  ⟨fun ty item => write ty item.key ++ write ty item.versionNumber ++ write ty item.commitment⟩

instance : MyToBytes KeyValue :=
  ⟨fun ty item => write ty item.key ++ write ty item.version ++ write ty item.value⟩

instance : MyFromBytes KeyValue where
  read ty input := do
    let (key, input) ← read ty input
    let (version, input) ← read ty input
    let (value, input) ← read ty input
    some (⟨key, version, value⟩, input)

instance : LawfulSerde KeyValue where
  code ty := by
    intro item rest
    show (read ty (write ty item.key ++ write ty item.version ++ write ty item.value ++
      rest)).bind _ = _
    simp [List.append_assoc]

/-! ### One kind of leaf -/

section

variable {P : Type} [MyToBytes P]

/-- For names of up to 255 indices, the last field is all that has to be injective by itself. -/
theorem TreeValue.toBytesConsensus_inj
    (affineInjective : Function.Injective (toBytesConsensus : P → Bytes))
    {first second : TreeValue P} (firstShort : first.key.length ≤ 255)
    (secondShort : second.key.length ≤ 255)
    (same : toBytesConsensus first = toBytesConsensus second) : first = second := by
  obtain ⟨firstKey, firstVersion, firstPoint⟩ := first
  obtain ⟨secondKey, secondVersion, secondPoint⟩ := second
  change write ⟨true⟩ firstKey ++ write ⟨true⟩ firstVersion ++ toBytesConsensus firstPoint =
    write ⟨true⟩ secondKey ++ write ⟨true⟩ secondVersion ++ toBytesConsensus secondPoint at same
  rw [List.append_assoc, List.append_assoc] at same
  obtain ⟨rfl, rest⟩ := TreeName.write_append_inj firstShort secondShort same
  obtain ⟨rfl, points⟩ := (LawfulSerde.code (α := UInt64) ⟨true⟩).append_inj rest
  rw [affineInjective points]

theorem KeyValue.length_toBytesConsensus (item : KeyValue) :
    (toBytesConsensus item).length = 26 + item.key.len + item.value.len := by
  show (writeBasic 8 UInt64.toNat _ ++ item.key.toList ++ (writeBasic 8 UInt64.toNat _ ++
    writeBasic 1 UInt8.toNat _ ++ writeBasic 1 UInt8.toNat _) ++
    (writeBasic 8 UInt64.toNat _ ++ item.value.toList)).length = _
  simp only [List.length_append, length_writeBasic, Vec.len]
  omega

theorem TreeName.length_write (ty : SerdeType) (name : TreeName) :
    (write ty name).length = 1 + 4 * name.length := by
  have indices : ∀ items : List UInt32, (items.flatMap (write ty)).length = 4 * items.length := by
    intro items
    induction items with
    | nil => rfl
    | cons item rest inductionHypothesis =>
      rw [List.flatMap_cons, List.length_append, inductionHypothesis, List.length_cons]
      show (writeBasic 4 UInt32.toNat item).length + _ = _
      rw [length_writeBasic]
      omega
  show (writeBasic 1 UInt8.toNat _ ++ name.toList.flatMap (write ty)).length = _
  rw [List.length_append, length_writeBasic, indices, TreeName.length_toList]

theorem TreeValue.length_toBytesConsensus (item : TreeValue P) :
    (toBytesConsensus item).length =
      9 + 4 * item.key.length + (toBytesConsensus item.commitment).length := by
  show (write ⟨true⟩ item.key ++ writeBasic 8 UInt64.toNat _ ++
    toBytesConsensus item.commitment).length = _
  rw [List.length_append, List.length_append, TreeName.length_write, length_writeBasic]
  omega

/-! ### The two kinds together -/

/-- A key leaf starts with the length of the key. -/
theorem KeyValue.take_toBytesConsensus (item : KeyValue) :
    (toBytesConsensus item).take 8 = LittleEndian.digits 8 item.key.len := by
  have length := toNat_ofNat_len item.key
  show ((LittleEndian.digits 8 (UInt64.ofNat item.key.len).toNat ++ item.key.toList) ++
    write ⟨true⟩ item.version ++ write ⟨true⟩ item.value).take 8 = _
  rw [length, List.append_assoc, List.append_assoc,
    List.take_left' (LittleEndian.length_digits _ _)]

/-- A subtree leaf starts with the number of indices of the name. -/
theorem TreeValue.head_toBytesConsensus (item : TreeValue P) :
    (toBytesConsensus item).head? = some (UInt8.ofNat item.key.length) := by
  show some (UInt8.ofNat (UInt8.ofNat item.key.toList.length).toNat) = _
  rw [UInt8.ofNat_toNat, TreeName.length_toList]

/-- Encodings are injective on each kind of leaf. Between the kinds they agree only if the
key's length, as eight bytes, is what the subtree's encoding starts with. -/
theorem leaf_preimages (affineLength : Nat)
    (affineInjective : Function.Injective (toBytesConsensus : P → Bytes))
    (affineFixed : ∀ point : P, (toBytesConsensus point).length = affineLength) :
    (∀ first second : KeyValue, toBytesConsensus first = toBytesConsensus second →
      first = second) ∧
    (∀ first second : TreeValue P, first.key.length ≤ 255 → second.key.length ≤ 255 →
      toBytesConsensus first = toBytesConsensus second → first = second) ∧
    ∀ (leaf : KeyValue) (subtree : TreeValue P), subtree.key.length ≤ 255 →
      toBytesConsensus leaf = toBytesConsensus subtree →
        leaf.key.len % 256 = subtree.key.length ∧
        LittleEndian.digits 8 leaf.key.len = (toBytesConsensus subtree).take 8 ∧
        17 + leaf.key.len + leaf.value.len = 4 * subtree.key.length + affineLength := by
  refine ⟨fun first second same => toBytesConsensus_injective same,
    fun first second => TreeValue.toBytesConsensus_inj affineInjective,
    fun leaf subtree short same => ?_⟩
  have start : LittleEndian.digits 8 leaf.key.len = (toBytesConsensus subtree).take 8 := by
    rw [← same, KeyValue.take_toBytesConsensus]
  refine ⟨?_, start, ?_⟩
  · have heads : some (UInt8.ofNat leaf.key.len) = some (UInt8.ofNat subtree.key.length) := by
      rw [← TreeValue.head_toBytesConsensus, ← same]
      calc
        some (UInt8.ofNat leaf.key.len) = (LittleEndian.digits 8 leaf.key.len).head? := rfl
        _ = (toBytesConsensus leaf).head? := by
          rw [← KeyValue.take_toBytesConsensus, List.head?_take, if_neg (by norm_num)]
    have bytes := congrArg UInt8.toNat (Option.some.inj heads)
    rw [UInt8.toNat_ofNat', UInt8.toNat_ofNat'] at bytes
    omega
  · have lengths := congrArg List.length same
    rw [KeyValue.length_toBytesConsensus, TreeValue.length_toBytesConsensus, affineFixed] at lengths
    omega

end

/-! ### A collision on BN254 -/

/-- The order of the base field. -/
def FqParams.MODULUS : Nat :=
  21888242871839275222246405745257275088696311157297823662689037894645226208583

/-- A point in affine form, as `into_affine` gives it. -/
structure G1Affine where
  x : Nat
  y : Nat
  infinity : Bool
  x_lt : x < FqParams.MODULUS
  y_lt : y < FqParams.MODULUS
  onCurve : infinity = false → y ^ 2 % FqParams.MODULUS = (x ^ 3 + 3) % FqParams.MODULUS

/-- Two coordinates of 32 bytes and the flag. -/
instance : MyToBytes G1Affine :=
  ⟨fun _ point => writeBasic 32 id point.x ++ writeBasic 32 id point.y ++ [point.infinity.toUInt8]⟩

theorem G1Affine.length_toBytesConsensus (point : G1Affine) :
    (toBytesConsensus point).length = 65 := by
  show (writeBasic 32 id point.x ++ writeBasic 32 id point.y ++ [_]).length = 65
  rw [List.length_append, List.length_append, length_writeBasic, length_writeBasic,
    List.length_singleton]

theorem G1Affine.toBytesConsensus_injective :
    Function.Injective (toBytesConsensus : G1Affine → Bytes) := by
  have small : FqParams.MODULUS < 256 ^ 32 := by decide
  rintro ⟨x, y, infinity, xLt, yLt, _⟩ ⟨x', y', infinity', xLt', yLt', _⟩ same
  change writeBasic 32 id x ++ writeBasic 32 id y ++ [infinity.toUInt8] =
    writeBasic 32 id x' ++ writeBasic 32 id y' ++ [infinity'.toUInt8] at same
  rw [List.append_assoc, List.append_assoc] at same
  obtain ⟨xs, rest⟩ := List.append_inj same (by rw [length_writeBasic, length_writeBasic])
  obtain ⟨ys, flags⟩ := List.append_inj rest (by rw [length_writeBasic, length_writeBasic])
  obtain rfl := LittleEndian.digits_injective (xLt.trans small) (xLt'.trans small) xs
  obtain rfl := LittleEndian.digits_injective (yLt.trans small) (yLt'.trans small) ys
  have flag : infinity = infinity' := by
    cases infinity <;> cases infinity' <;> first | rfl | exact absurd flags (by decide)
  subst flag
  rfl

/-- A point whose abscissa spells the number 51 in its bytes 6 to 13. -/
def collidingPoint : G1Affine where
  x := 51 * 256 ^ 6 + 1
  y := 18371695883883716644961424399981049885490124694251726655324724133183965079867
  infinity := false
  x_lt := by decide
  y_lt := by decide
  onCurve _ := by decide

/-- The first child of the root, committed for the `2 ^ 24`-th time. -/
def collidingSubtree : TreeValue G1Affine := ⟨.child .root 0, 2 ^ 24, collidingPoint⟩

/-- A key of one byte, in slot zero of level zero, with a value of 51 bytes. -/
def collidingLeaf : KeyValue where
  key := ⟨[1], by decide⟩
  version := ⟨2 ^ 32, 0, 0⟩
  value := ⟨(toBytesConsensus collidingPoint).drop 14, by
    rw [List.length_drop, G1Affine.length_toBytesConsensus]
    norm_num⟩

theorem leaf_preimages_collide :
    toBytesConsensus collidingLeaf = toBytesConsensus collidingSubtree := by
  decide

/-- The theorem at that collision. -/
theorem leaf_preimages_bn254 :
    collidingLeaf.key.len % 256 = collidingSubtree.key.length ∧
      LittleEndian.digits 8 collidingLeaf.key.len = (toBytesConsensus collidingSubtree).take 8 ∧
      17 + collidingLeaf.key.len + collidingLeaf.value.len =
        4 * collidingSubtree.key.length + 65 :=
  (leaf_preimages 65 G1Affine.toBytesConsensus_injective
    G1Affine.length_toBytesConsensus).2.2 collidingLeaf collidingSubtree (by decide) (by decide)

end AuthStorage.Lvmt
