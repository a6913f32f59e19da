/-
This file models what the storage code uses of its cryptographic libraries. The
digest type and the curve are parameters: a type with the operations the code
calls on it and the laws of its documented encodings. The scalar field is the
one of the pairing in use, BN254, because the write path computes with its
modulus and its Montgomery constant. The public parameters are vectors whose
lengths are those of a tree of the given depth.
-/

import AuthStorage.Lvmt.Serde

namespace AuthStorage.Lvmt

/-- `ethereum_types::H256` with `keccak`. The serialised digest is a fixed-length code, so two
digests written one after the other can be told apart. -/
class H256 (H : Type) extends MyToBytes H, MyFromBytes H, LawfulSerde H where
  decEq : DecidableEq H
  /-- `H256::default()`, the all-zero digest. -/
  zero : H
  value_zero : LittleEndian.value (toBytesLocal zero) = 0
  keccak : Bytes → H
  fromLowU64Be : UInt64 → H
  toLowU64Be : H → UInt64
  toLowU64Be_fromLowU64Be : ∀ number, toLowU64Be (fromLowU64Be number) = number

instance {H : Type} [H256 H] : DecidableEq H := H256.decEq

export H256 (keccak)

/-! ### A hash without collisions -/

/-- The string that was hashed, as its own digest: the ideal of a hash without collisions. -/
structure Transcript where
  bytes : Bytes
deriving DecidableEq

namespace Transcript

/-- Every byte is announced by a one, and a zero ends the string. -/
def writeBytes (bytes : Bytes) : Bytes := bytes.flatMap (fun byte => [1, byte]) ++ [0]

/-- The string in front of its end mark, and what follows the mark. -/
def readBytes : Bytes → Option (Bytes × Bytes)
  | [] => none
  | [mark] => if mark = 0 then some ([], []) else none
  | mark :: byte :: rest =>
    if mark = 0 then
      some ([], byte :: rest)
    else
      (readBytes rest).map fun found => (byte :: found.1, found.2)

theorem readBytes_writeBytes (bytes rest : Bytes) :
    readBytes (writeBytes bytes ++ rest) = some (bytes, rest) := by
  induction bytes with
  | nil => cases rest <;> rfl
  | cons byte more inductionHypothesis =>
    show readBytes (1 :: byte :: (writeBytes more ++ rest)) = _
    rw [readBytes, if_neg (by decide), inductionHypothesis]
    rfl

instance : MyToBytes Transcript := ⟨fun _ digest => writeBytes digest.bytes⟩

instance : MyFromBytes Transcript :=
  ⟨fun _ input => (readBytes input).map fun found => (⟨found.1⟩, found.2)⟩

instance : LawfulSerde Transcript where
  code _ := by
    intro digest rest
    show (readBytes (writeBytes digest.bytes ++ rest)).map _ = _
    rw [readBytes_writeBytes]
    rfl

instance : H256 Transcript where
  decEq := inferInstance
  zero := ⟨[]⟩
  value_zero := rfl
  keccak bytes := ⟨1 :: bytes⟩
  fromLowU64Be number := ⟨LittleEndian.digits 8 number.toNat⟩
  toLowU64Be digest := UInt64.ofNat (LittleEndian.value digest.bytes)
  toLowU64Be_fromLowU64Be number := by
    rw [LittleEndian.value_digits_of_lt number.toNat_lt, UInt64.ofNat_toNat]

theorem keccak_injective : Function.Injective (keccak : Bytes → Transcript) := by
  intro first second same
  exact (List.cons.inj (Transcript.mk.inj same)).2

/-- No hash is the empty transcript. -/
theorem keccak_ne_zero (bytes : Bytes) : (keccak bytes : Transcript) ≠ H256.zero := by
  intro same
  cases same

end Transcript

/-- `KECCAK_EMPTY`. -/
def keccakEmpty (H : Type) [H256 H] : H := keccak []

/-- `G1Projective` as a group. In consensus mode points are written in affine form, which has a
fixed length; in local mode they are written as they are. -/
class Curve (G : Type) extends AddCommGroup G, MyToBytes G, MyFromBytes G, LawfulSerde G where
  decEq : DecidableEq G
  affineLength : Nat
  length_write_consensus : ∀ point : G, (toBytesConsensus point).length = affineLength

instance {G : Type} [Curve G] : DecidableEq G := Curve.decEq

instance {G : Type} [Curve G] : Inhabited G := ⟨0⟩

/-! ### The scalar field -/

/-- `BigInteger256`: four 64-bit limbs. -/
abbrev FrInt := BitVec 256

namespace FrParams

/-- The order of the BN254 groups. -/
def MODULUS : Nat :=
  21888242871839275222246405745257275088548364400416034343698204186575808495617

/-- `FpParameters::R`, the Montgomery constant `2 ^ 256 mod MODULUS`. -/
def R : FrInt := BitVec.ofNat 256 (2 ^ 256 % MODULUS)

end FrParams

/-- The scalar field of the curve. -/
abbrev Fr := ZMod FrParams.MODULUS

instance : NeZero FrParams.MODULUS := ⟨by decide⟩

namespace FrInt

/-- `sub_noborrow`: the wrapped difference and the borrow bit. -/
def subNoborrow (first second : FrInt) : FrInt × Bool :=
  (first - second, decide (first.toNat < second.toNat))

/-- `add_nocarry`: the wrapped sum. -/
def addNocarry (first second : FrInt) : FrInt := first + second

/-- `muln`: shift to the left by some bits; everything is shifted out from 256 bits on. -/
def muln (number : FrInt) (power : Nat) : FrInt := number <<< power

/-- `Fr::from(BigInt)` panics on integers that are not below the modulus. -/
def toFr (number : FrInt) : Option Fr :=
  if number.toNat < FrParams.MODULUS then some (number.toNat : Fr) else none

/-- `Fr::into_repr`. -/
def ofFr (scalar : Fr) : FrInt := BitVec.ofNat 256 scalar.val

/-- Without a borrow the wrapped difference is the difference. -/
theorem toNat_subNoborrow_of_le {first second : FrInt} (le : second.toNat ≤ first.toNat) :
    (subNoborrow first second).1.toNat = first.toNat - second.toNat ∧
      (subNoborrow first second).2 = false := by
  constructor
  · have bound := first.isLt
    rw [subNoborrow, BitVec.toNat_sub]
    omega
  · simpa [subNoborrow] using le

theorem ofFr_toFr {number : FrInt} {scalar : Fr} (canonical : toFr number = some scalar) :
    ofFr scalar = number ∧ scalar = (number.toNat : Fr) := by
  unfold toFr at canonical
  split at canonical
  · rename_i small
    rw [← Option.some.inj canonical, ofFr, ZMod.val_natCast_of_lt small]
    exact ⟨BitVec.ofNat_toNat .., rfl⟩
  · cases canonical

end FrInt

variable {G : Type} [Curve G]

/-- Scalar multiplication of a point by a 256-bit integer. -/
def mul (point : G) (power : FrInt) : G := power.toNat • point

/-- The loop over the set bits of `power`, lowest first. The table of the multiples by powers of
two is filled on demand; an entry never changes, so the multiple stands for it. -/
def mulByTable (point : G) (power : FrInt) : G :=
  ((List.range 256).filter fun idx => power.getLsbD idx).foldl
    (fun answer idx => answer + mul point (FrInt.muln 1 idx)) 0

theorem mul_muln_one (point : G) {idx : Nat} (inside : idx < 256) :
    mul point (FrInt.muln 1 idx) = 2 ^ idx • point := by
  have small : 2 ^ idx < 2 ^ 256 := Nat.pow_lt_pow_right (by norm_num) inside
  rw [mul, FrInt.muln, BitVec.toNat_shiftLeft, Nat.shiftLeft_eq, Nat.mod_eq_of_lt]
  · rw [show (1 : FrInt).toNat = 1 from rfl, Nat.one_mul]
  · rwa [show (1 : FrInt).toNat = 1 from rfl, Nat.one_mul]

theorem mulByTable_eq (point : G) (power : FrInt) : mulByTable point power = mul point power := by
  have bits : ∀ width ≤ 256,
      ((List.range width).filter fun idx => power.getLsbD idx).foldl
        (fun answer idx => answer + mul point (FrInt.muln 1 idx)) 0 =
          (power.toNat % 2 ^ width) • point := by
    intro width
    induction width with
    | zero => simp [Nat.mod_one]
    | succ width inductionHypothesis =>
      intro inside
      rw [List.range_succ, List.filter_append, List.foldl_append,
        inductionHypothesis (by omega), Nat.mod_pow_succ, ← Nat.toNat_testBit]
      show _ = (_ + _ * (power.getLsbD width).toNat) • point
      cases bit : power.getLsbD width with
      | false => simp [bit]
      | true => simpa [bit, add_smul] using mul_muln_one point (by omega : width < 256)
  rw [mulByTable, bits 256 le_rfl, Nat.mod_eq_of_lt power.isLt, mul]

/-- The group of that order, each point written as the 32 bytes of its discrete logarithm. -/
instance : Curve Fr where
  write _ := writeBasic 32 ZMod.val
  read _ := readBasic 32 (fun number => (number : Fr))
  code _ := readBasic_writeBasic 32 _ _
    (fun scalar => lt_trans (ZMod.val_lt scalar) (by decide)) ZMod.natCast_zmod_val
  decEq := inferInstance
  affineLength := 32
  length_write_consensus _ := length_writeBasic _ _ _

/-- The product as a pairing of that group with itself. -/
def fieldPairing : Fr →+ Fr →+ Fr := AddMonoidHom.mul

theorem modulus_nsmul (point : Fr) : FrParams.MODULUS • point = 0 := by
  rw [nsmul_eq_mul, ZMod.natCast_self, zero_mul]

/-! ### Public parameters -/

/-- The parameters of a tree of the given depth. They are built over the domain of `2 ^ depths`
roots of unity, and the scalar field has none beyond `2 ^ 28`. -/
structure AMTParams (G G₂ : Type) (depths : Nat) where
  commitments : Fin (2 ^ depths) → G
  /-- Indexed by `depth - 1`, then by leaf. -/
  quotients : Fin depths → Fin (2 ^ depths) → G
  /-- Indexed by `depth - 1`; the row of `depth` has `2 ^ depth` points. -/
  verification : (row : Fin depths) → Fin (2 ^ (row.val + 1)) → G₂
  g2 : G₂
  depths_le : depths ≤ 28

namespace AMTParams

variable {G₂ : Type} {depths : Nat} (pp : AMTParams G G₂ depths)

/-- The indent of a leaf. -/
def getCommitments (index : Fin (2 ^ depths)) : G := pp.commitments index

/-- `quotients[depth - 1][index]`, out of range outside `1..=depths`. -/
def getQuotient (depth : Nat) (index : Fin (2 ^ depths)) : Option G :=
  if inside : 0 < depth ∧ depth - 1 < depths then
    some (pp.quotients ⟨depth - 1, inside.2⟩ index)
  else
    none

theorem sibling_lt (depth index : Nat) (positive : 0 < depth) :
    (index % 2 ^ depth) ^^^ 2 ^ (depth - 1) < 2 ^ (depth - 1 + 1) := by
  have same : depth - 1 + 1 = depth := by omega
  rw [same]
  exact Nat.xor_lt_two_pow (Nat.mod_lt _ (Nat.two_pow_pos depth))
    (Nat.pow_lt_pow_right (by norm_num) (by omega))

/-- The verification point of the sibling of `index` at `depth`. -/
def getSiblingVerification (depth index : Nat) : Option G₂ :=
  if inside : 0 < depth ∧ depth - 1 < depths then
    some (pp.verification ⟨depth - 1, inside.2⟩ ⟨_, sibling_lt depth index inside.1⟩)
  else
    none

/-- A power of an indent, through the table of its powers. -/
def getIdentsPow (index : Fin (2 ^ depths)) (power : FrInt) : G :=
  mulByTable (pp.commitments index) power

/-- A power of a quotient, through the table of its powers. -/
def getQuotientPow (depth : Nat) (index : Fin (2 ^ depths)) (power : FrInt) : Option G :=
  (pp.getQuotient depth index).map fun quotient => mulByTable quotient power

theorem getIdentsPow_eq (index : Fin (2 ^ depths)) (power : FrInt) :
    pp.getIdentsPow index power = mul (pp.commitments index) power := mulByTable_eq _ _

/-- Parameters with every indent at the generator, for runs in which no proof is asked for. -/
def unit (depths : Nat) (le : depths ≤ 28) : AMTParams Fr Fr depths where
  commitments _ := 1
  quotients _ _ := 0
  verification _ _ := 0
  g2 := 1
  depths_le := le

/-- Eight bits for each level. -/
def eightBits : AMTParams Fr Fr 8 := unit 8 (by decide)

end AMTParams

end AuthStorage.Lvmt
