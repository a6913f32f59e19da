/-
This file settles that whatever the database writes is read back, in both modes and
in front of anything else. Points depend on the curve library, which is a parameter:
they are read back as the same element of the group, because consensus mode writes
their affine form. The derived codecs are those the macros generate from the fields of
the structs, and they are the ones the other files of the model use.
-/

import AuthStorage.Lvmt.LvmtDB
import AuthStorage.Lvmt.SerdeDerive

namespace AuthStorage.Lvmt

variable {α S G P A : Type}

/-! ### Digests -/

/-- The bytes of a digest. -/
abbrev H256Bytes := Vector UInt8 32

instance : MyToBytes H256Bytes := ⟨fun _ digest => digest.toList⟩

instance : MyFromBytes H256Bytes where
  read _ input := do
    let (answer, input) ← readExact 32 input
    if filled : answer.length = 32 then some (⟨answer.toArray, filled⟩, input) else none

instance : LawfulSerde H256Bytes where
  code _ := by
    intro digest rest
    have exact_read := readExact_append digest.toList rest
    rw [Vector.length_toList] at exact_read
    show (readExact 32 (digest.toList ++ rest)).bind _ = _
    rw [exact_read]
    exact dif_pos Vector.length_toList

/-! ### Points -/

/-- What the codecs use of the curve library: points in projective and in affine form, the element
of the group a point stands for, and for each form the fixed number of bytes in which `ToBytes`
writes it and `FromBytes` reads it. -/
structure CurveLibrary (G P A : Type) where
  element : P → G
  intoAffine : P → A
  intoProjective : A → P
  element_intoAffine : ∀ point, element (intoProjective (intoAffine point)) = element point
  projective : FixedCode UInt8 P
  affine : FixedCode UInt8 A

namespace CurveLibrary

variable (curve : CurveLibrary G P A)

/-- Points in projective form mean the same if they are the same element. -/
def samePoint : Meaning P where
  Admissible _ := True
  Same first second := curve.element first = curve.element second

/-- Nodes are the same when their points are the same elements of the curve. -/
def sameNode : Meaning (AMTNode P) where
  Admissible _ := True
  Same first second := curve.element first.commitment = curve.element second.commitment ∧
    curve.element first.proof = curve.element second.proof

/-- `G1Projective`. -/
def g1Projective : SerdeFns P where
  write ty point :=
    if ty.consistent then
      let g1Aff := curve.intoAffine point
      curve.affine.encode g1Aff
    else
      curve.projective.encode point
  read ty input :=
    if ty.consistent then do
      let (g1Aff, input) ← curve.affine.read input
      some (curve.intoProjective g1Aff, input)
    else
      curve.projective.read input

/-- `G1Affine`. -/
def g1Affine : SerdeFns A where
  write _ := curve.affine.encode
  read _ := curve.affine.read

/-- `AMTNode`, which takes the affine forms by itself. -/
def amtNode : SerdeFns (AMTNode P) where
  write ty node :=
    if ty.consistent then
      curve.affine.encode (curve.intoAffine node.commitment) ++
        curve.affine.encode (curve.intoAffine node.proof)
    else
      curve.projective.encode node.commitment ++ curve.projective.encode node.proof
  read ty input :=
    if ty.consistent then do
      let (g1Aff, input) ← curve.affine.read input
      let (g2Aff, input) ← curve.affine.read input
      some (⟨curve.intoProjective g1Aff, curve.intoProjective g2Aff⟩, input)
    else do
      let (commitment, input) ← curve.projective.read input
      let (proof, input) ← curve.projective.read input
      some (⟨commitment, proof⟩, input)

theorem exact_g1Affine (ty : SerdeType) : curve.g1Affine.Exact .literal ty :=
  curve.affine.prefixCode.exact

/-- Consensus mode reads back another representation of the point. -/
theorem exact_g1Projective (ty : SerdeType) : curve.g1Projective.Exact curve.samePoint ty := by
  intro point _ rest
  obtain ⟨consistent⟩ := ty
  cases consistent with
  | false => exact ⟨point, curve.projective.prefixCode point rest, rfl⟩
  | true =>
    refine ⟨_, ?_, (curve.element_intoAffine point).symm⟩
    show (curve.affine.read (curve.affine.encode (curve.intoAffine point) ++ rest)).bind _ = _
    rw [curve.affine.prefixCode]
    rfl

/-- A node is its two points, one after the other. -/
theorem write_amtNode (ty : SerdeType) (node : AMTNode P) :
    curve.amtNode.write ty node =
      curve.g1Projective.write ty node.commitment ++ curve.g1Projective.write ty node.proof := by
  obtain ⟨consistent⟩ := ty
  cases consistent <;> rfl

theorem read_amtNode (ty : SerdeType) (input : Bytes) :
    curve.amtNode.read ty input =
      (curve.g1Projective.read ty input).bind fun commitment =>
        (curve.g1Projective.read ty commitment.2).bind fun proof =>
          some (⟨commitment.1, proof.1⟩, proof.2) := by
  obtain ⟨consistent⟩ := ty
  cases consistent with
  | false => rfl
  | true =>
    show (curve.affine.read input).bind _ = ((curve.affine.read input).bind _).bind _
    rw [Option.bind_assoc]
    refine congrArg (Option.bind _) (funext fun commitment => ?_)
    show (curve.affine.read commitment.2).bind _ = ((curve.affine.read commitment.2).bind _).bind _
    rw [Option.bind_assoc]
    rfl

theorem exact_amtNode (ty : SerdeType) : curve.amtNode.Exact curve.sameNode ty := by
  intro node _ rest
  obtain ⟨commitment, readCommitment, sameCommitment⟩ :=
    curve.exact_g1Projective ty node.commitment trivial
      (curve.g1Projective.write ty node.proof ++ rest)
  obtain ⟨proof, readProof, sameProof⟩ :=
    curve.exact_g1Projective ty node.proof trivial rest
  refine ⟨⟨commitment, proof⟩, ?_, sameCommitment, sameProof⟩
  rw [write_amtNode, read_amtNode, List.append_assoc, readCommitment, Option.bind_some, readProof]
  rfl

end CurveLibrary

/-! ### The types of the fields -/

namespace FieldType

/-- A type with its own impls. -/
def ofFns (meaning : Meaning α) (fns : SerdeFns α) : FieldType α := ⟨meaning, some fns, none⟩

theorem exact_ofFns {meaning : Meaning α} {fns : SerdeFns α} {ty : SerdeType}
    (exact : fns.Exact meaning ty) : (ofFns meaning fns).Exact ty := by
  intro isVec chosen member
  cases isVec with
  | false => exact Option.mem_some.mp member ▸ exact
  | true => cases member

section

variable [MyToBytes α] [MyFromBytes α] [LawfulSerde α]

/-- A type with its own instances. -/
def own (α : Type) [MyToBytes α] [MyFromBytes α] : FieldType α := ofFns .literal (.own α)

theorem exact_own (ty : SerdeType) : (own α).Exact ty := exact_ofFns (SerdeFns.exact_own ty)

/-- A vector without impls of its own. -/
def vec (α : Type) [MyToBytes α] [MyFromBytes α] : FieldType (Vec α) :=
  ⟨.literal, none, some (.vec α)⟩

theorem exact_vecFns (ty : SerdeType) : (SerdeFns.vec α).Exact .literal ty :=
  (SerdeFns.exact_own ty).vec.imp (fun _ _ _ _ => trivial) fun _ _ same =>
    Vec.ext (List.forall₂_eq_eq_eq ▸ same)

theorem exact_vec (ty : SerdeType) : (vec α).Exact ty := by
  intro isVec chosen member
  cases isVec with
  | false => cases member
  | true => exact Option.mem_some.mp member ▸ exact_vecFns ty

end

/-- A vector of bytes has both. -/
def bytes : FieldType (Vec UInt8) := ⟨.literal, some (.own _), some (.vec UInt8)⟩

theorem exact_bytes (ty : SerdeType) : bytes.Exact ty := by
  intro isVec chosen member
  cases isVec with
  | false => exact Option.mem_some.mp member ▸ SerdeFns.exact_own ty
  | true => exact Option.mem_some.mp member ▸ exact_vecFns ty

/-- Names whose length fits in a byte. -/
def treeName : FieldType TreeName := ofFns ⟨fun name => name.length ≤ 255, Eq⟩ (.own TreeName)

theorem exact_treeName (ty : SerdeType) : treeName.Exact ty :=
  exact_ofFns fun name short rest => ⟨name, name.read_write_of_le short ty rest, rfl⟩

end FieldType

namespace Member

/-- A field of a type that is spelled as one identifier. -/
def ident (name : String) (get : S → α) (type : FieldType α)
    (typed : (type.chosen (SynType.path [name]).isVec).isSome) : Member S α :=
  ⟨.path [name], get, type, typed⟩

end Member

/-! ### The derived structs -/

namespace SerdeFns

variable {Build : Type}

/-- What the two macros generate for a struct. -/
def derived (members : Members S Build) (build : Build) : SerdeFns S where
  write := members.encodable
  read ty := members.decodable ty build

theorem exact_derived (members : Members S Build) (build : Build) {ty : SerdeType}
    (exact : members.Exact ty) : (derived members build).Exact (members.meaning build ty) ty :=
  exact.derived build

end SerdeFns

/-- The fields of `Key`. -/
def Key.members : Members Key (Vec UInt8 → Key) :=
  .cons ⟨.vecU8, Key.bytes, .bytes, rfl⟩ .nil

/-- The versions of the keys in one leaf. -/
structure KeyVersions where
  versions : Vec UInt64
deriving DecidableEq

/-- The fields of `KeyVersions`. -/
def KeyVersions.members : Members KeyVersions (Vec UInt64 → KeyVersions) :=
  .cons ⟨.generic (.path ["Vec"]) (.path ["u64"]), KeyVersions.versions, .vec UInt64, rfl⟩ .nil

instance : MyToBytes KeyVersions := ⟨(SerdeFns.derived KeyVersions.members .mk).write⟩

instance : MyFromBytes KeyVersions := ⟨(SerdeFns.derived KeyVersions.members .mk).read⟩

instance : LawfulSerde KeyVersions where
  code ty := by
    have exact : (SerdeFns.derived KeyVersions.members .mk).Exact .literal ty :=
      (SerdeFns.exact_derived KeyVersions.members .mk ⟨FieldType.exact_vec ty, trivial⟩).imp
        (fun _ _ => ⟨trivial, trivial⟩) (by rintro _ _ ⟨_, rfl, rfl⟩; rfl)
    exact exact.prefixCode

/-- The fields of `EpochPosition`. -/
def EpochPosition.members : Members EpochPosition (UInt64 → UInt64 → EpochPosition) :=
  .cons (.ident "u64" EpochPosition.epoch (.own _) rfl)
    (.cons (.ident "u64" EpochPosition.position (.own _) rfl) .nil)

/-- The fields of `VerInfo`. -/
def VerInfo.members : Members VerInfo (UInt64 → UInt8 → UInt8 → VerInfo) :=
  .cons (.ident "u64" VerInfo.version (.own _) rfl)
    (.cons (.ident "u8" VerInfo.level (.own _) rfl)
      (.cons (.ident "u8" VerInfo.slotIndex (.own _) rfl) .nil))

/-- The leaf keeps its key versions without the wrapper. -/
def Node.members : Members Node (KeyVersions → UInt64 → EpochPosition → Node) :=
  .cons (.ident "KeyVersions" (fun node => ⟨node.keyVersions⟩) (.own _) rfl)
    (.cons (.ident "u64" Node.treeVersion (.own _) rfl)
      (.cons (.ident "EpochPosition" Node.treePosition (.own _) rfl) .nil))

/-- A node from the fields that are written. -/
def Node.build (keyVersions : KeyVersions) (treeVersion : UInt64) (treePosition : EpochPosition) :
    Node :=
  ⟨keyVersions.versions, treeVersion, treePosition⟩

/-- The fields of `TreeValue`, with the functions for affine points. -/
def TreeValue.members (affine : SerdeFns A) :
    Members (TreeValue A) (TreeName → UInt64 → A → TreeValue A) :=
  .cons (.ident "TreeName" TreeValue.key .treeName rfl)
    (.cons (.ident "u64" TreeValue.versionNumber (.own _) rfl)
      (.cons ⟨.generic (.path ["G1Aff"]) (.path ["Pairing"]), TreeValue.commitment,
        .ofFns .literal affine, rfl⟩ .nil))

/-- The fields of `KeyValue`. -/
def KeyValue.members : Members KeyValue (Vec UInt8 → VerInfo → Vec UInt8 → KeyValue) :=
  .cons ⟨.vecU8, KeyValue.key, .bytes, rfl⟩
    (.cons (.ident "VerInfo" KeyValue.version (.own _) rfl)
      (.cons ⟨.vecU8, KeyValue.value, .bytes, rfl⟩ .nil))

/-- The fields of `Value`. -/
def Value.members : Members Value (Vec UInt8 → VerInfo → EpochPosition → Value) :=
  .cons ⟨.vecU8, Value.value, .bytes, rfl⟩
    (.cons (.ident "VerInfo" Value.version (.own _) rfl)
      (.cons (.ident "EpochPosition" Value.position (.own _) rfl) .nil))

/-! ### They are the codecs of the model -/

theorem Key.exact_derived (ty : SerdeType) :
    (SerdeFns.derived Key.members .mk).Exact .literal ty :=
  (SerdeFns.exact_derived Key.members .mk ⟨FieldType.exact_bytes ty, trivial⟩).imp
    (fun _ _ => ⟨trivial, trivial⟩) (by rintro _ _ ⟨_, rfl, rfl⟩; rfl)

theorem EpochPosition.derived_eq :
    SerdeFns.derived EpochPosition.members .mk = .own EpochPosition := by
  refine SerdeFns.ext ?_ rfl
  funext ty item
  show write ty item.epoch ++ (write ty item.position ++ []) = _
  rw [List.append_nil]
  rfl

theorem VerInfo.derived_eq : SerdeFns.derived VerInfo.members .mk = .own VerInfo := by
  refine SerdeFns.ext ?_ rfl
  funext ty item
  show write ty item.version ++ (write ty item.level ++ (write ty item.slotIndex ++ [])) = _
  rw [List.append_nil, ← List.append_assoc]
  rfl

theorem Node.derived_eq : SerdeFns.derived Node.members Node.build = .own Node := by
  refine SerdeFns.ext ?_ ?_
  · funext ty item
    show (writeVec ty item.keyVersions ++ []) ++ (write ty item.treeVersion ++
      (write ty item.treePosition ++ [])) = _
    rw [List.append_nil, List.append_nil, ← List.append_assoc]
    rfl
  · funext ty input
    show ((readVec ty input).bind _).bind _ = (readVec ty input).bind _
    rw [Option.bind_assoc]
    rfl

theorem KeyValue.derived_eq : SerdeFns.derived KeyValue.members .mk = .own KeyValue := by
  refine SerdeFns.ext ?_ rfl
  funext ty item
  show write ty item.key ++ (write ty item.version ++ (write ty item.value ++ [])) = _
  rw [List.append_nil, ← List.append_assoc]
  rfl

theorem Value.derived_eq : SerdeFns.derived Value.members .mk = .own Value := by
  refine SerdeFns.ext ?_ rfl
  funext ty item
  show write ty item.value ++ (write ty item.version ++ (write ty item.position ++ [])) = _
  rw [List.append_nil, ← List.append_assoc]
  rfl

theorem TreeValue.exact_derived {affine : SerdeFns A} {ty : SerdeType}
    (exact : affine.Exact .literal ty) :
    (SerdeFns.derived (TreeValue.members affine) .mk).Exact
      ⟨fun item => item.key.length ≤ 255, Eq⟩ ty :=
  (SerdeFns.exact_derived (TreeValue.members affine) .mk
    ⟨FieldType.exact_treeName ty, FieldType.exact_own ty, FieldType.exact_ofFns exact, trivial⟩).imp
    (fun _ short => ⟨short, trivial, trivial, trivial⟩)
    (by rintro _ _ ⟨_, rfl, _, rfl, _, rfl, rfl⟩; rfl)

/-! ### The types with a codec -/

/-- The types that can be written and read. -/
inductive Coded
  | u8
  | u16
  | u32
  | u64
  | usize
  | h256
  | bytes
  | g1Projective
  | g1Affine
  | amtNode
  | treeName
  | key
  | verInfo
  | epochPosition
  | keyVersions
  | node
  | value
  | keyValue
  | treeValue

namespace Coded

/-- The values of a type; `P` and `A` are the points in projective and in affine form. -/
def Item (P A : Type) : Coded → Type
  | u8 => UInt8
  | u16 => UInt16
  | u32 => UInt32
  | u64 => UInt64
  | usize => UInt64
  | h256 => H256Bytes
  | bytes => Vec UInt8
  | g1Projective => P
  | g1Affine => A
  | amtNode => AMTNode P
  | treeName => TreeName
  | key => Key
  | verInfo => VerInfo
  | epochPosition => EpochPosition
  | keyVersions => KeyVersions
  | node => Node
  | value => Value
  | keyValue => KeyValue
  | treeValue => TreeValue A

/-- Names have to be short, and points in projective form have many representations. Everything
else is meant as it is. -/
def meaning (curve : CurveLibrary G P A) : (kind : Coded) → Meaning (kind.Item P A)
  | treeName => ⟨fun name : TreeName => name.length ≤ 255, Eq⟩
  | treeValue => ⟨fun item : TreeValue A => item.key.length ≤ 255, Eq⟩
  | g1Projective => curve.samePoint
  | amtNode => curve.sameNode
  | _ => .literal

/-- What the source writes and reads for a type: by the hand-written impls, or by the macros. -/
def fns (curve : CurveLibrary G P A) : (kind : Coded) → SerdeFns (kind.Item P A)
  | u8 => .own UInt8
  | u16 => .own UInt16
  | u32 => .own UInt32
  | u64 => .own UInt64
  | usize => .own UInt64
  | h256 => .own H256Bytes
  | bytes => .own (Vec UInt8)
  | g1Projective => curve.g1Projective
  | g1Affine => curve.g1Affine
  | amtNode => curve.amtNode
  | treeName => .own TreeName
  | key => .derived Key.members .mk
  | verInfo => .derived VerInfo.members .mk
  | epochPosition => .derived EpochPosition.members .mk
  | keyVersions => .derived KeyVersions.members .mk
  | node => .derived Node.members Node.build
  | value => .derived Value.members .mk
  | keyValue => .derived KeyValue.members .mk
  | treeValue => .derived (TreeValue.members curve.g1Affine) .mk

theorem exact (curve : CurveLibrary G P A) (kind : Coded) (ty : SerdeType) :
    (kind.fns curve).Exact (kind.meaning curve) ty := by
  cases kind with
  | u8 => exact SerdeFns.exact_own (α := UInt8) ty
  | u16 => exact SerdeFns.exact_own (α := UInt16) ty
  | u32 => exact SerdeFns.exact_own (α := UInt32) ty
  | u64 => exact SerdeFns.exact_own (α := UInt64) ty
  | usize => exact SerdeFns.exact_own (α := UInt64) ty
  | h256 => exact SerdeFns.exact_own (α := H256Bytes) ty
  | bytes => exact SerdeFns.exact_own (α := Vec UInt8) ty
  | g1Projective => exact curve.exact_g1Projective ty
  | g1Affine => exact curve.exact_g1Affine ty
  | amtNode => exact curve.exact_amtNode ty
  | treeName => exact fun name short rest => ⟨name, name.read_write_of_le short ty rest, rfl⟩
  | key => exact Key.exact_derived ty
  | verInfo => exact SerdeFns.exact_of_eq_own VerInfo.derived_eq ty
  | epochPosition => exact SerdeFns.exact_of_eq_own EpochPosition.derived_eq ty
  | keyVersions => exact SerdeFns.exact_own (α := KeyVersions) ty
  | node => exact SerdeFns.exact_of_eq_own Node.derived_eq ty
  | value => exact SerdeFns.exact_of_eq_own Value.derived_eq ty
  | keyValue => exact SerdeFns.exact_of_eq_own KeyValue.derived_eq ty
  | treeValue => exact TreeValue.exact_derived (curve.exact_g1Affine ty)

/-- Every admissible value of every type is read back from the front of any input, with the rest
left unread; no encoding is a proper prefix of another one of its type; and whatever the macros
generate from fields with exact functions is exact. -/
theorem round_trip (curve : CurveLibrary G P A) (ty : SerdeType) :
    (∀ (kind : Coded) (item : kind.Item P A), (kind.meaning curve).Admissible item →
      ∀ rest, ∃ found,
        (kind.fns curve).read ty ((kind.fns curve).write ty item ++ rest) = some (found, rest) ∧
          (kind.meaning curve).Same item found) ∧
    (∀ (kind : Coded) (first second : kind.Item P A), (kind.meaning curve).Admissible first →
      (kind.meaning curve).Admissible second →
      (kind.fns curve).write ty first <+: (kind.fns curve).write ty second →
        (kind.fns curve).write ty first = (kind.fns curve).write ty second) ∧
    ∀ (S Build : Type) (members : Members S Build) (build : Build), members.Exact ty →
      (SerdeFns.derived members build).Exact (members.meaning build ty) ty :=
  ⟨fun kind => kind.exact curve ty,
    fun kind _ _ firstAdmissible secondAdmissible =>
      (kind.exact curve ty).eq_of_isPrefix firstAdmissible secondAdmissible,
    fun _ _ members build exact => SerdeFns.exact_derived members build exact⟩

end Coded

/-! ### The curve in use -/

/-- The base field of BN254. -/
abbrev Fq := ZMod FqParams.MODULUS

instance : NeZero FqParams.MODULUS := ⟨by decide⟩

/-- A coordinate as 32 bytes; numbers from the modulus on are refused. -/
def Fq.code : FixedCode UInt8 Fq where
  size := 32
  encode x := LittleEndian.digits 32 x.val
  decode bytes :=
    if LittleEndian.value bytes < FqParams.MODULUS then
      some (LittleEndian.value bytes : Fq)
    else
      none
  length_encode x := LittleEndian.length_digits 32 x.val
  decode_encode x := by
    have small : x.val < FqParams.MODULUS := ZMod.val_lt x
    have fits : x.val < 256 ^ 32 := small.trans (by decide)
    rw [LittleEndian.value_digits_of_lt fits, if_pos small, ZMod.natCast_zmod_val]

/-- The flag of the point at infinity. -/
def infinityCode : FixedCode UInt8 Bool where
  size := 1
  encode flag := [flag.toUInt8]
  decode
    | [0] => some false
    | [1] => some true
    | _ => none
  length_encode _ := rfl
  decode_encode flag := by cases flag <;> rfl

/-- Jacobian coordinates; the third one is zero at infinity. -/
def bn254 : CurveLibrary (Option (Fq × Fq)) (Fq × Fq × Fq) (Fq × Fq × Bool) where
  element := fun (x, y, z) => if z = 0 then none else some (x * z⁻¹ ^ 2, y * z⁻¹ ^ 3)
  intoAffine := fun (x, y, z) =>
    if z = 0 then
      (0, 1, true)
    else if z = 1 then
      (x, y, false)
    else
      (x * z⁻¹ ^ 2, y * z⁻¹ ^ 3, false)
  intoProjective := fun (x, y, infinity) => if infinity then (1, 1, 0) else (x, y, 1)
  element_intoAffine := by
    have one : (1 : Fq) ≠ 0 := by decide
    rintro ⟨x, y, z⟩
    dsimp only
    by_cases zero : z = 0
    · rw [if_pos zero, if_pos zero]
      rfl
    · rw [if_neg zero, if_neg zero]
      by_cases normal : z = 1
      · subst normal
        rw [if_pos rfl]
        exact if_neg one
      · rw [if_neg normal]
        simp [one, ZMod.inv_one]
  projective := Fq.code.append (Fq.code.append Fq.code)
  affine := Fq.code.append (Fq.code.append infinityCode)

/-- A subtree with two indices in its name, and a node whose commitment is not normalised. -/
theorem Coded.round_trip_bn254 :
    (∃ found, (Coded.treeValue.fns bn254).read ⟨true⟩
        ((Coded.treeValue.fns bn254).write ⟨true⟩ ⟨(TreeName.root.child 3).child 5, 2, 1, 2, false⟩ ++
          [7]) = some (found, [7]) ∧ ⟨(TreeName.root.child 3).child 5, 2, 1, 2, false⟩ = found) ∧
      ∃ found, (Coded.amtNode.fns bn254).read ⟨true⟩
        ((Coded.amtNode.fns bn254).write ⟨true⟩ ⟨(4, 16, 2), (1, 1, 0)⟩ ++ [7]) =
          some (found, [7]) ∧ bn254.sameNode.Same ⟨(4, 16, 2), (1, 1, 0)⟩ found :=
  ⟨(round_trip bn254 ⟨true⟩).1 .treeValue ⟨(TreeName.root.child 3).child 5, 2, 1, 2, false⟩
      (show 2 ≤ 255 by decide) [7],
    (round_trip bn254 ⟨true⟩).1 .amtNode ⟨(4, 16, 2), (1, 1, 0)⟩ trivial [7]⟩

end AuthStorage.Lvmt
