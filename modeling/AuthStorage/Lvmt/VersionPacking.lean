/-
This file is about the integer a leaf is packed into. With at most five slots
and all versions below `2 ^ 40` the bytes never overlap: the integer is the sum
of the versions at multiples of 40 bits, every version can be read back from it,
and a version that is incremented moves it by one power of two. That power is
what a leaf that is not kept for proofs adds to the commitment, so both ways of
writing to a slot move the commitment alike.
-/

import AuthStorage.Lvmt.ForestChanges

namespace AuthStorage.Lvmt

/-! ### The difference of two leaves -/

namespace AMTNodeWriteGuard

/-- The difference does not depend on what the two integers share. -/
theorem difference_congr {newFrInt oldFrInt newFrInt' oldFrInt' : FrInt}
    {new old shared shared' : Nat} (newEq : newFrInt.toNat = new + shared)
    (oldEq : oldFrInt.toNat = old + shared) (newEq' : newFrInt'.toNat = new + shared')
    (oldEq' : oldFrInt'.toNat = old + shared') :
    difference newFrInt oldFrInt = difference newFrInt' oldFrInt' := by
  apply BitVec.eq_of_toNat_eq
  rcases Nat.lt_or_ge new old with lt | le
  · rw [toNat_difference_of_lt (by omega), toNat_difference_of_lt (by omega)]
    congr 2
    omega
  · rw [toNat_difference_of_le (by omega), toNat_difference_of_le (by omega)]
    omega

/-- The difference is what was added without a carry out of the integer. -/
theorem difference_eq_of_add {newFrInt oldFrInt delta : FrInt}
    (grown : newFrInt.toNat = oldFrInt.toNat + delta.toNat) :
    difference newFrInt oldFrInt = delta := by
  apply BitVec.eq_of_toNat_eq
  rw [toNat_difference_of_le (grown ▸ Nat.le_add_right _ _), grown, Nat.add_sub_cancel_left]

/-- Adding without a carry out of the integer is the addition of the source. -/
theorem eq_addNocarry_of_add {newFrInt oldFrInt delta : FrInt}
    (grown : newFrInt.toNat = oldFrInt.toNat + delta.toNat) :
    newFrInt = oldFrInt.addNocarry delta := by
  apply BitVec.eq_of_toNat_eq
  rw [FrInt.addNocarry, BitVec.toNat_add, ← grown, Nat.mod_eq_of_lt newFrInt.isLt]

theorem difference_eq_zero {newFrInt oldFrInt : FrInt} (same : newFrInt.toNat = oldFrInt.toNat) :
    difference newFrInt oldFrInt = 0 := difference_eq_of_add same

end AMTNodeWriteGuard

namespace Node

/-! ### The packed integer as a sum -/

/-- The sum of the versions, the key version of a slot at 40 bits for each version before it. -/
def packed (node : Node) : Nat :=
  node.treeVersion.toNat + ∑ slot : Fin node.keyVersions.toList.length,
    node.keyVersions.toList[slot].toNat * 2 ^ (40 * (slot.val + 1))

/-- All counters fit their five bytes. -/
structure Fits (node : Node) : Prop where
  slots : node.keyVersions.len ≤ 5
  treeVersion : node.treeVersion.toNat < 2 ^ 40
  keyVersions : ∀ version ∈ node.keyVersions.toList, version.toNat < 2 ^ 40

theorem ofDigits_eq_sum (base : Nat) (digits : List Nat) :
    Nat.ofDigits base digits = ∑ slot : Fin digits.length, digits[slot] * base ^ slot.val := by
  induction digits with
  | nil => rfl
  | cons digit rest inductionHypothesis =>
    rw [Nat.ofDigits_cons, inductionHypothesis, Finset.mul_sum]
    show _ = ∑ slot : Fin (rest.length + 1), (digit :: rest)[slot] * base ^ slot.val
    rw [Fin.sum_univ_succ]
    refine congrArg₂ (· + ·) (by simp) (Finset.sum_congr rfl fun slot _ => ?_)
    show _ = rest[slot] * base ^ (slot.val + 1)
    rw [pow_succ]
    ring

theorem ofDigits_map_eq_sum (base : Nat) (versions : List UInt64) :
    Nat.ofDigits base (versions.map UInt64.toNat) =
      ∑ slot : Fin versions.length, versions[slot].toNat * base ^ slot.val := by
  rw [ofDigits_eq_sum]
  refine Fintype.sum_equiv (finCongr (List.length_map _)) _ _ fun slot => ?_
  simp

/-- What the versions of keys add to the integer of a leaf. -/
def keysInt (keyVersions : Vec UInt64) : Nat :=
  2 ^ 40 * Nat.ofDigits (2 ^ 40) (keyVersions.toList.map fun version => version.toNat % 2 ^ 40)

/-- The tree version is the lowest digit. -/
theorem toNat_asFrInt_cons {node : Node} {frInt : FrInt} (done : node.asFrInt = some frInt) :
    frInt.toNat = node.treeVersion.toNat % 2 ^ 40 + keysInt node.keyVersions := by
  rw [(toNat_asFrInt done).1, Node.versions, List.map_cons, Nat.ofDigits_cons, keysInt]

/-- Versions that fit do not overlap. -/
theorem toNat_asFrInt_eq_packed {node : Node} {frInt : FrInt} (fits : node.Fits)
    (done : node.asFrInt = some frInt) : frInt.toNat = node.packed := by
  have digits : (node.keyVersions.toList.map fun version => version.toNat % 2 ^ 40) =
      node.keyVersions.toList.map UInt64.toNat :=
    List.map_congr_left fun version member => Nat.mod_eq_of_lt (fits.keyVersions version member)
  rw [toNat_asFrInt_cons done, Nat.mod_eq_of_lt fits.treeVersion, keysInt, digits, packed,
    ofDigits_map_eq_sum, Finset.mul_sum]
  refine congrArg (_ + ·) (Finset.sum_congr rfl fun slot _ => ?_)
  rw [← pow_mul, Nat.mul_add, Nat.mul_one, pow_add, ← Nat.mul_assoc, Nat.mul_comm (2 ^ 40),
    Nat.mul_assoc, Nat.mul_comm (2 ^ 40)]

/-- The integer of a leaf is a canonical scalar. -/
theorem toFr_asFrInt {node : Node} {frInt : FrInt} (done : node.asFrInt = some frInt) :
    frInt.toFr = some (frInt.toNat : Fr) :=
  if_pos (lt_trans (toNat_asFrInt done).2 (by decide))

/-! ### Reading the versions back -/

theorem versionsFromFrInt_zero {node : Node} {frInt : FrInt} (fits : node.Fits)
    (done : node.asFrInt = some frInt) :
    versionsFromFrInt frInt 0 = some node.treeVersion := by
  rw [versionsFromFrInt_asFrInt done (by norm_num)]
  show some (UInt64.ofNat (node.treeVersion.toNat % 2 ^ 40)) = _
  rw [Nat.mod_eq_of_lt fits.treeVersion, UInt64.ofNat_toNat]

/-- A slot that does not exist reads as zero. -/
theorem versionsFromFrInt_succ {node : Node} {frInt : FrInt} {slot : Nat} (fits : node.Fits)
    (done : node.asFrInt = some frInt) (inside : slot < 5) :
    versionsFromFrInt frInt (slot + 1) = some (node.keyVersions.toList.getD slot 0) := by
  rw [versionsFromFrInt_asFrInt done (Nat.succ_lt_succ inside)]
  show some (UInt64.ofNat ((node.keyVersions.toList.map _).getD slot 0)) = _
  rw [List.getD_eq_getElem?_getD, List.getD_eq_getElem?_getD, List.getElem?_map]
  cases found : node.keyVersions.toList[slot]? with
  | none => rfl
  | some version =>
    show some (UInt64.ofNat (version.toNat % 2 ^ 40)) = some version
    rw [Nat.mod_eq_of_lt (fits.keyVersions version (List.mem_of_getElem? found)),
      UInt64.ofNat_toNat]

/-! ### Moving the integer -/

theorem ofDigits_set (base : Nat) (digits : List Nat) {index digit : Nat}
    (found : digits[index]? = some digit) :
    Nat.ofDigits base (digits.set index (digit + 1)) =
      Nat.ofDigits base digits + base ^ index := by
  induction digits generalizing index with
  | nil => simp at found
  | cons head tail inductionHypothesis =>
    cases index with
    | zero =>
      obtain rfl : head = digit := by simpa using found
      simp only [List.set_cons_zero, Nat.ofDigits_cons, pow_zero]
      ring
    | succ index =>
      rw [List.getElem?_cons_succ] at found
      rw [List.set_cons_succ, Nat.ofDigits_cons, Nat.ofDigits_cons, inductionHypothesis found]
      ring

/-- Incrementing a key version below the limit adds a power of two. -/
theorem toNat_bumpKeyVersion {node value : Node} {slotIndex : Nat} {newFrInt oldFrInt : FrInt}
    (bumped : VersionTree.bumpKeyVersion node slotIndex = some value)
    (small : ∀ version, node.keyVersions.toList[slotIndex]? = some version →
      version.toNat + 1 < 2 ^ 40)
    (new : value.asFrInt = some newFrInt) (old : node.asFrInt = some oldFrInt) :
    newFrInt.toNat = oldFrInt.toNat + 2 ^ (40 * (slotIndex + 1)) := by
  obtain ⟨version, next, found, added, keyVersions, treeVersion, -⟩ :=
    Forest.bumpKeyVersion_eq_some bumped
  have below := small version found
  have versions : value.versions =
      node.versions.set (slotIndex + 1) (version.toNat % 2 ^ 40 + 1) := by
    rw [Node.versions, Node.versions, keyVersions, treeVersion, List.map_cons, List.map_cons,
      List.set_cons_succ, List.map_set, toNat_checkedAdd added,
      show (1 : UInt64).toNat = 1 from rfl, Nat.mod_eq_of_lt below,
      Nat.mod_eq_of_lt (Nat.lt_of_succ_lt below)]
  have digit : node.versions[slotIndex + 1]? = some (version.toNat % 2 ^ 40) := by
    rw [Node.versions, List.map_cons, List.getElem?_cons_succ, List.getElem?_map, found]
    rfl
  rw [(toNat_asFrInt new).1, (toNat_asFrInt old).1, versions, ofDigits_set _ _ digit, ← pow_mul]

theorem toNat_frIntPow2 {slotIndex : Nat} (small : slotIndex < 5) :
    (VersionTree.frIntPow2 ((slotIndex + 1) * 40)).toNat = 2 ^ (40 * (slotIndex + 1)) := by
  interval_cases slotIndex <;> decide

/-- The two ways to write to a slot move the commitment by the same power. -/
theorem difference_bumpKeyVersion {node value : Node} {slotIndex : Nat}
    {newFrInt oldFrInt : FrInt}
    (bumped : VersionTree.bumpKeyVersion node slotIndex = some value)
    (slots : node.keyVersions.len ≤ 5)
    (small : ∀ version, node.keyVersions.toList[slotIndex]? = some version →
      version.toNat + 1 < 2 ^ 40)
    (new : value.asFrInt = some newFrInt) (old : node.asFrInt = some oldFrInt) :
    AMTNodeWriteGuard.difference newFrInt oldFrInt =
      VersionTree.frIntPow2 ((slotIndex + 1) * 40) := by
  obtain ⟨version, -, found, -⟩ := Forest.bumpKeyVersion_eq_some bumped
  have inside : slotIndex < node.keyVersions.len := (List.getElem?_eq_some_iff.mp found).1
  apply AMTNodeWriteGuard.difference_eq_of_add
  rw [toNat_frIntPow2 (lt_of_lt_of_le inside slots)]
  exact toNat_bumpKeyVersion bumped small new old

/-- Incrementing the tree version below the limit adds one. -/
theorem toNat_bumpTreeVersion {node value : Node} {newFrInt oldFrInt : FrInt}
    (new : value.asFrInt = some newFrInt) (old : node.asFrInt = some oldFrInt)
    (small : node.treeVersion.toNat + 1 < 2 ^ 40)
    (treeVersion : value.treeVersion = node.treeVersion + 1)
    (keyVersions : value.keyVersions = node.keyVersions) :
    newFrInt.toNat = oldFrInt.toNat + 1 := by
  have next : (node.treeVersion + 1).toNat = node.treeVersion.toNat + 1 := by
    rw [UInt64.toNat_add, show (1 : UInt64).toNat = 1 from rfl,
      Nat.mod_eq_of_lt (lt_trans small (by norm_num))]
  rw [toNat_asFrInt_cons new, toNat_asFrInt_cons old, treeVersion, keyVersions, next,
    Nat.mod_eq_of_lt small, Nat.mod_eq_of_lt (Nat.lt_of_succ_lt small)]
  exact Nat.add_right_comm _ _ _

/-- A new slot has version zero, so it does not change the integer. -/
theorem toNat_push {node value : Node} {newFrInt oldFrInt : FrInt}
    (new : value.asFrInt = some newFrInt) (old : node.asFrInt = some oldFrInt)
    (treeVersion : value.treeVersion = node.treeVersion)
    (keyVersions : value.keyVersions.toList = node.keyVersions.toList ++ [0]) :
    newFrInt.toNat = oldFrInt.toNat := by
  rw [(toNat_asFrInt new).1, (toNat_asFrInt old).1, Node.versions, Node.versions, treeVersion,
    keyVersions, ← List.cons_append, List.map_append, Nat.ofDigits_append]
  simp

/-- A slot whose version has room can be incremented. -/
theorem bumpKeyVersion_of_small {node : Node} {slot : Nat} {version : UInt64}
    (found : node.keyVersions.toList[slot]? = some version) (small : version.toNat + 1 < 2 ^ 40) :
    ∃ value, VersionTree.bumpKeyVersion node slot = some value ∧
      value.keyVersions.len = node.keyVersions.len := by
  have added : checkedAdd version 1 = some (version + 1) :=
    if_pos (lt_trans small (by norm_num))
  rw [VersionTree.bumpKeyVersion, found]
  simp only [Option.bind_eq_bind, Option.bind_some, added]
  exact ⟨_, rfl, List.length_set⟩

/-- Packing the versions of a leaf loses nothing, and each of the three ways a leaf changes moves
the integer by the power of two of its counter. -/
theorem asFrInt_lossless (node : Node) (fits : node.Fits) :
    ∃ frInt, node.asFrInt = some frInt ∧
      frInt.toNat = node.packed ∧ frInt.toNat < 2 ^ 240 ∧ frInt.toFr = some (frInt.toNat : Fr) ∧
      versionsFromFrInt frInt 0 = some node.treeVersion ∧
      (∀ slot < 5, versionsFromFrInt frInt (slot + 1) =
        some (node.keyVersions.toList.getD slot 0)) ∧
      (∀ slot version, node.keyVersions.toList[slot]? = some version →
        version.toNat + 1 < 2 ^ 40 →
          ∃ value newFrInt, VersionTree.bumpKeyVersion node slot = some value ∧
            value.asFrInt = some newFrInt ∧
            newFrInt.toNat = frInt.toNat + 2 ^ (40 * (slot + 1)) ∧
            newFrInt = frInt.addNocarry (VersionTree.frIntPow2 ((slot + 1) * 40)) ∧
            AMTNodeWriteGuard.difference newFrInt frInt =
              VersionTree.frIntPow2 ((slot + 1) * 40)) ∧
      (node.treeVersion.toNat + 1 < 2 ^ 40 →
        ∃ newFrInt, Node.asFrInt { node with treeVersion := node.treeVersion + 1 } =
            some newFrInt ∧
          newFrInt.toNat = frInt.toNat + 1) ∧
      (node.keyVersions.len < 5 →
        ∃ keyVersions, node.keyVersions.push 0 = some keyVersions ∧
          Node.asFrInt { node with keyVersions } = some frInt) := by
  obtain ⟨frInt, done⟩ := asFrInt_isSome.mpr fits.slots
  refine ⟨frInt, done, toNat_asFrInt_eq_packed fits done, (toNat_asFrInt done).2,
    toFr_asFrInt done, versionsFromFrInt_zero fits done,
    fun slot inside => versionsFromFrInt_succ fits done inside, ?_, ?_, ?_⟩
  · intro slot version found small
    obtain ⟨value, bumped, sameLength⟩ := bumpKeyVersion_of_small found small
    obtain ⟨newFrInt, new⟩ := asFrInt_isSome.mpr (sameLength ▸ fits.slots)
    have room : ∀ version, node.keyVersions.toList[slot]? = some version →
        version.toNat + 1 < 2 ^ 40 := by
      intro other found'
      rw [found, Option.some.injEq] at found'
      exact found' ▸ small
    have grown := toNat_bumpKeyVersion bumped room new done
    have inside : slot < 5 :=
      lt_of_lt_of_le (List.getElem?_eq_some_iff.mp found).1 fits.slots
    refine ⟨value, newFrInt, bumped, new, grown, ?_,
      difference_bumpKeyVersion bumped fits.slots room new done⟩
    rw [← toNat_frIntPow2 inside] at grown
    exact AMTNodeWriteGuard.eq_addNocarry_of_add grown
  · intro small
    obtain ⟨newFrInt, new⟩ := asFrInt_isSome.mpr
      (show Vec.len (Node.keyVersions { node with treeVersion := node.treeVersion + 1 }) ≤ 5 from
        fits.slots)
    exact ⟨newFrInt, new, toNat_bumpTreeVersion new done small rfl rfl⟩
  · intro vacant
    obtain ⟨keyVersions, pushed, list⟩ := node.keyVersions.push_of_lt 0 (by omega)
    have short : keyVersions.len ≤ 5 := by
      rw [Vec.len, list, List.length_append]
      exact vacant
    obtain ⟨newFrInt, new⟩ := asFrInt_isSome.mpr
      (show Vec.len (Node.keyVersions { node with keyVersions := keyVersions }) ≤ 5 from short)
    refine ⟨keyVersions, pushed, ?_⟩
    rw [new, BitVec.eq_of_toNat_eq (toNat_push new done rfl list)]

/-- The leaf of the unit test of the packing. -/
def oneToSix : Node := ⟨⟨[2, 3, 4, 5, 6], by decide⟩, 1, ⟨0, 0⟩⟩

theorem asFrInt_lossless_oneToSix :
    oneToSix.Fits ∧ ∃ frInt, oneToSix.asFrInt = some frInt ∧ frInt.toNat = oneToSix.packed ∧
      versionsFromFrInt frInt 5 = some 6 := by
  have fits : oneToSix.Fits := ⟨by decide, by decide, by simp [oneToSix]⟩
  obtain ⟨frInt, done, sum, -, -, -, keys, -⟩ := asFrInt_lossless oneToSix fits
  exact ⟨fits, frInt, done, sum, keys 4 (by decide)⟩

end Node

end AuthStorage.Lvmt
