/-
This file proves that the proofs of a database are accepted. For any key that has
a value, the database opens the leaf of its slot and the leaves above it, each
with the place where the epochs list what is below; and the verifier, given the
roots that the commits returned, finds every opening, every Merkle path and
every version right. This holds in every state that a database reaches, whatever
else was set, read, proved or flushed, as long as no counter of five bytes
overflows and no epoch has too many leaves.
-/

import AuthStorage.Lvmt.LedgerRuns
import AuthStorage.Lvmt.VerifyTotal

namespace AuthStorage.Lvmt

open Checks Epoch

/-! ### The levels above a tree -/

namespace Key

variable {depths : Nat} {key : Key} {name : TreeName} {level : Nat}

/-- A tree has an index at every level above it, which is on the path of its name. -/
theorem above_of_treeAtLevel (named : key.treeAtLevel depths level = some name) :
    ∀ upper < level, ∃ parent index, key.treeAtLevel depths upper = some parent ∧
      key.indexAtLevel depths upper = some index ∧
      key.treeAtLevel depths (upper + 1) = some (parent.child (UInt32.ofNat index)) ∧
      TreeName.Below (parent.child (UInt32.ofNat index)) name := by
  induction level generalizing name with
  | zero => exact fun upper below => absurd below (Nat.not_lt_zero upper)
  | succ level inductionHypothesis =>
    obtain ⟨parent, isParent, done⟩ := Option.bind_eq_some_iff.mp named
    obtain ⟨index, indexed, same⟩ := Option.bind_eq_some_iff.mp done
    obtain rfl := Option.some.inj same
    intro upper below
    rcases Nat.lt_succ_iff_lt_or_eq.mp below with further | rfl
    · obtain ⟨above, index', isAbove, indexed', isChild, onPath⟩ :=
        inductionHypothesis isParent upper further
      exact ⟨above, index', isAbove, indexed', isChild, Or.inr onPath⟩
    · exact ⟨parent, index, isParent, indexed, named, TreeName.Below.refl _⟩

end Key

/-! ### What the verifier checks of one level -/

namespace LvmtDB

variable {G G₂ Gt H : Type} {depths : Nat} [Curve G] [AddCommGroup G₂] [AddCommGroup Gt] [H256 H]
  (pairing : G →+ G₂ →+ Gt) (pp : AMTParams G G₂ depths) (epochRoot : UInt64 → Option H) (key : Key)

/-- The opening, the Merkle path of what the level says, and the version in the leaf. -/
structure LevelAccepted (level index : Nat) (hash : H) (levelProof : LevelProof G H) : Prop where
  opening : AmtAccepted pairing pp key levelProof level
  merkle : ∃ root, epochRoot levelProof.merkleEpoch = some root ∧
    StaticMerkleTree.verify root hash levelProof.merkleProof = some true
  version : Node.versionsFromFrInt levelProof.nodeFrInt index = some levelProof.nodeVersion

variable {pairing pp epochRoot key} {level index : Nat} {hash : H} {levelProof : LevelProof G H}

theorem LevelAccepted.gives_verifyMerkle
    (accepted : LevelAccepted pairing pp epochRoot key level index hash levelProof)
    (message : String) : Gives (verifyMerkle epochRoot levelProof hash message) () := by
  obtain ⟨root, isRoot, climbs⟩ := accepted.merkle
  exact gives_bind.mpr ⟨root, gives_lift.mpr isRoot, gives_check.mpr climbs⟩

theorem LevelAccepted.gives_verifyVersion
    (accepted : LevelAccepted pairing pp epochRoot key level index hash levelProof)
    (message : String) : Gives (verifyVersion levelProof index message) () :=
  gives_bind.mpr ⟨_, gives_lift.mpr accepted.version,
    gives_check.mpr (congrArg some (decide_eq_true rfl))⟩

/-- The level says what its tree is worth, for the tree below. -/
def TreeAccepted (pairing : G →+ G₂ →+ Gt) (pp : AMTParams G G₂ depths)
    (epochRoot : UInt64 → Option H) (key : Key) (level : Nat) (levelProof : LevelProof G H)
    (commitment : G) : Prop :=
  ∃ name, key.treeAtLevel depths (level + 1) = some name ∧
    LevelAccepted pairing pp epochRoot key level 0
      (treeValueHash (name, levelProof.nodeVersion, commitment)) levelProof

/-- What the verifier checks of a proof with a value. Every level above the slot vouches for the
commitment of the level below it. -/
structure ProofAccepted (pairing : G →+ G₂ →+ Gt) (pp : AMTParams G G₂ depths)
    (epochRoot : UInt64 → Option H) (key : Key) (verInfo : VerInfo) (value : Vec UInt8)
    (upper : List (LevelProof G H)) (bottom : LevelProof G H) : Prop where
  few : upper.length < 2 ^ 8
  slot : LevelAccepted pairing pp epochRoot key upper.length (verInfo.slotIndex.toNat + 1)
    (keyValueHash key verInfo value) bottom
  above : ∀ level levelProof commitment, upper[level]? = some levelProof →
    ((upper ++ [bottom]).map LevelProof.commitment)[level + 1]? = some commitment →
      TreeAccepted pairing pp epochRoot key level levelProof commitment

variable {verInfo : VerInfo} {value : Vec UInt8} {upper : List (LevelProof G H)}
  {bottom : LevelProof G H}

theorem ProofAccepted.tree
    (accepted : ProofAccepted pairing pp epochRoot key verInfo value upper bottom)
    {below : LevelProof G H} (found : (upper ++ [bottom])[level]? = some levelProof)
    (foundBelow : (upper ++ [bottom])[level + 1]? = some below) :
    TreeAccepted pairing pp epochRoot key level levelProof below.commitment := by
  have present := (List.getElem?_eq_some_iff.mp foundBelow).1
  rw [List.length_append, List.length_singleton] at present
  rw [List.getElem?_append_left (by omega)] at found
  refine accepted.above level levelProof below.commitment found ?_
  rw [List.getElem?_map, foundBelow, Option.map_some]

/-- A proof passes if each of its levels does. -/
theorem ProofAccepted.gives_verify [DecidableEq Gt]
    (accepted : ProofAccepted pairing pp epochRoot key verInfo value upper bottom) :
    Gives (verify depths (AMTree.verify pairing pp) key
      (⟨some value, verInfo⟩, upper ++ [bottom]) epochRoot) () := by
  have few := accepted.few
  have belowExists : ∀ level < upper.length,
      ∃ below, (upper ++ [bottom])[level + 1]? = some below := by
    intro level inside
    refine ⟨_, List.getElem?_eq_getElem ?_⟩
    rw [List.length_append, List.length_singleton]
    omega
  have openings : AllAmtAccepted pairing pp key (upper ++ [bottom]) := by
    intro level levelProof found
    rcases getElem?_concat_cases found with earlier | ⟨rfl, rfl⟩
    · obtain ⟨below, foundBelow⟩ := belowExists level (List.getElem?_eq_some_iff.mp earlier).1
      obtain ⟨_, -, levelAccepted⟩ := accepted.tree found foundBelow
      exact levelAccepted.opening
    · exact accepted.slot.opening
  have trees : ∀ entry ∈ ((upper ++ [bottom]).zip (upper ++ [bottom]).tail).zipIdx,
      Gives (verifyTreeMerkle depths epochRoot key entry) () := by
    rintro ⟨⟨levelProof, below⟩, level⟩ member
    obtain ⟨found, foundBelow⟩ := mem_zip_tail_zipIdx.mp member
    obtain ⟨name, named, levelAccepted⟩ := accepted.tree found foundBelow
    have present := (List.getElem?_eq_some_iff.mp foundBelow).1
    rw [List.length_append, List.length_singleton] at present
    have small : level % 2 ^ 8 = level := Nat.mod_eq_of_lt (by omega)
    refine gives_bind.mpr ⟨name, gives_lift.mpr ?_, levelAccepted.gives_verifyMerkle _⟩
    rw [small, if_pos (by omega), named]
  have versions : ∀ entry ∈ (upper ++ [bottom]).dropLast.zipIdx,
      Gives (verifyVersion entry.1 0 s!"Inconsistent version value at level {entry.2}") () := by
    rintro ⟨levelProof, level⟩ member
    rw [List.dropLast_concat] at member
    have found := List.mem_zipIdx_iff_getElem?.mp member
    have inside := (List.getElem?_eq_some_iff.mp found).1
    obtain ⟨below, foundBelow⟩ := belowExists level inside
    have foundHere : (upper ++ [bottom])[level]? = some levelProof := by
      rw [List.getElem?_append_left inside, found]
    obtain ⟨_, -, levelAccepted⟩ := accepted.tree foundHere foundBelow
    exact levelAccepted.gives_verifyVersion _
  refine gives_bind.mpr ⟨(), (gives_verifyAmt pairing pp).mpr openings, ?_⟩
  refine gives_bind.mpr ⟨bottom, gives_lift.mpr List.getLast?_concat, ?_⟩
  refine gives_bind.mpr ⟨(), accepted.slot.gives_verifyMerkle _, ?_⟩
  refine gives_bind.mpr ⟨(), gives_forM.mpr trees, ?_⟩
  exact gives_bind.mpr ⟨(), accepted.slot.gives_verifyVersion _, gives_forM.mpr versions⟩

end LvmtDB

/-! ### What a ledger proves -/

namespace Ledger

open LvmtDB (AmtAccepted LevelAccepted TreeAccepted ProofAccepted IsLeaf rootOfLeaves
  keyValueHash)

variable {G G₂ Gt H : Type} {depths : Nat} [Curve G] [AddCommGroup G₂] [AddCommGroup Gt]
  [DecidableEq Gt] [H256 H] {pairing : G →+ G₂ →+ Gt} {pp : AMTParams G G₂ depths}
  {values : Key → Option Value} {history : List (Epoch G)} {committed : Nat}
  {ledger : Ledger G depths} {key : Key} {value : Value} {name : TreeName}

/-- The roots of the epochs. -/
def epochRoot (history : List (Epoch G)) (epoch : UInt64) : Option H :=
  (history.map fun epoch => rootOfLeaves epoch.leaves)[epoch.toNat]?

omit [AddCommGroup G₂] in
/-- A leaf of the ledger can be proved against the root of its epoch. -/
theorem Provable.proveMerkle (provable : ledger.Provable H pp values history committed)
    {position : EpochPosition} {hash : H}
    (isLeaf : IsLeaf (history.map (leaves : Epoch G → List H)) position hash) :
    ∃ (root : H) (path : List H),
      LvmtDB.proveMerkle ledger.dbMerkle position = some (position.epoch, path, position.position) ∧
      epochRoot history position.epoch = some root ∧
      StaticMerkleTree.verify root hash (path, position.position) = some true := by
  obtain ⟨root, path, proved, isRoot, accepted⟩ := provable.archive.proveMerkle isLeaf
  refine ⟨root, path, proved, ?_, accepted⟩
  rwa [List.map_map] at isRoot

omit [AddCommGroup G₂] in
theorem Provable.fits (provable : ledger.Provable H pp values history committed)
    (few : committed < 2 ^ 40) (name : TreeName) (inside : Fin (2 ^ depths)) :
    ((ledger.forest name).data inside).Fits where
  slots := provable.openable.short name inside
  treeVersion := lt_of_le_of_lt (provable.openable.treeVersions name inside) few
  keyVersions version member :=
    lt_of_le_of_lt (provable.openable.counters name inside version member) few

omit [Curve G] [AddCommGroup G₂] [H256 H] in
theorem proveAmtNode_root (proper : name.Proper depths) (inside : Fin (2 ^ depths)) :
    proveAmtNode (some .root) ledger.forest name inside.val =
      some ((ledger.forest name).commitment, (ledger.forest name).data inside,
        (ledger.forest name).proofOf inside.val) := by
  rw [proveAmtNode, checkIndex_val, Option.bind_eq_bind, Option.bind_some,
    Forest.shardRoot_root proper.valid, if_pos rfl]

/-- The leaf of a level is opened. -/
theorem Provable.opening (provable : ledger.Provable H pp values history committed)
    (order : ∀ point : G, FrParams.MODULUS • point = 0) (equation : pp.PairingEquation pairing)
    {level : Nat} (shallow : level < 2 ^ 8) {inside : Fin (2 ^ depths)}
    (indexed : key.indexAtLevel depths level = some inside.val) (name : TreeName) :
    ∃ frInt, ((ledger.forest name).data inside).asFrInt = some frInt ∧
      ∀ levelProof : LevelProof G H, levelProof.nodeFrInt = frInt →
        levelProof.commitment = (ledger.forest name).commitment →
          levelProof.amtProof = (ledger.forest name).proofOf inside.val →
            AmtAccepted pairing pp key levelProof level := by
  obtain ⟨frInt, packed⟩ := Node.asFrInt_isSome.mpr (provable.openable.short name inside)
  refine ⟨frInt, packed, ?_⟩
  rintro ⟨merkleEpoch, merkleProof, amtProof, commitment, nodeFrInt, nodeVersion⟩ rfl rfl rfl
  have accepted := (provable.openable.opens name).verify order equation inside packed
  refine ⟨inside, _, ?_, Node.toFr_asFrInt packed,
    (AMTree.verify_eq_true_iff pairing pp inside _ _ _).mp accepted⟩
  rwa [Nat.mod_eq_of_lt shallow]

/-- The level of the slot. -/
theorem Provable.proveBottom (provable : ledger.Provable H pp values history committed)
    (order : ∀ point : G, FrParams.MODULUS • point = 0) (equation : pp.PairingEquation pairing)
    (few : committed < 2 ^ 40) (found : values key = some value)
    (named : key.treeAtLevel depths value.version.level.toNat = some name) :
    ∃ bottom, Ledger.proveBottom (H := H) (some .root) ledger key value = some bottom ∧
      bottom.commitment = (ledger.forest name).commitment ∧
      LevelAccepted pairing pp (epochRoot history) key value.version.level.toNat
        (value.version.slotIndex.toNat + 1) (keyValueHash key value.version value.value)
        bottom := by
  obtain ⟨slot, isSlot, present⟩ := provable.exclusive.exclusive.slot key _ ⟨value, found, rfl⟩
  obtain ⟨named', indexed, sameNumber⟩ := Key.slot_eq_some.mp isSlot
  obtain rfl := Option.some.inj (named'.symm.trans named)
  rw [sameNumber] at present
  have proper := Key.proper_treeAtLevel pp.depths_le named
    (Nat.le_of_lt_succ value.version.level.toNat_lt)
  have fits := provable.fits few slot.name slot.index
  obtain ⟨frInt, packed, opened⟩ := provable.opening order equation
    value.version.level.toNat_lt indexed slot.name
  obtain ⟨root, path, proved, isRoot, accepted⟩ :=
    provable.proveMerkle (provable.stores key value found).isLeaf
  obtain ⟨version, inSlot⟩ : ∃ version,
      ((ledger.forest slot.name).data slot.index).keyVersions.toList[
        value.version.slotIndex.toNat]? = some version := ⟨_, List.getElem?_eq_getElem present⟩
  let bottom : LevelProof G H := ⟨value.position.epoch, (path, value.position.position),
    (ledger.forest slot.name).proofOf slot.index.val, (ledger.forest slot.name).commitment, frInt,
    version⟩
  refine ⟨bottom, ?_, rfl, opened bottom rfl rfl rfl, ⟨root, isRoot, accepted⟩, ?_⟩
  · rw [Ledger.proveBottom, proved, named, indexed]
    simp only [Option.bind_eq_bind, Option.bind_some, proveAmtNode_root proper, packed, inSlot]
    rfl
  · rw [Node.versionsFromFrInt_succ fits packed (provable.slots key value found),
      List.getD_eq_getElem?_getD, inSlot]
    rfl

/-- A level above a tree that was listed. -/
theorem Provable.proveLevel (provable : ledger.Provable H pp values history committed)
    (order : ∀ point : G, FrParams.MODULUS • point = 0) (equation : pp.PairingEquation pairing)
    (few : committed < 2 ^ 40) {level : Nat} (shallow : level < 32)
    (named : key.treeAtLevel depths level = some name) {index : Nat}
    (indexed : key.indexAtLevel depths level = some index)
    (named' : key.treeAtLevel depths (level + 1) = some (name.child (UInt32.ofNat index)))
    {below : TreeName} (listed : ledger.forest.ListedUpTo below)
    (onPath : TreeName.Below (name.child (UInt32.ofNat index)) below) :
    ∃ levelProof, Ledger.proveLevel (H := H) (some .root) ledger key level = some levelProof ∧
      levelProof.commitment = (ledger.forest name).commitment ∧
      TreeAccepted pairing pp (epochRoot history) key level levelProof
        (ledger.forest (name.child (UInt32.ofNat index))).commitment := by
  have bound := Key.indexAtLevel_lt pp.depths_le indexed
  let inside : Fin (2 ^ depths) := ⟨index, bound⟩
  have sameIndex : inside.val = (UInt32.ofNat index).toNat := by
    have small : 2 ^ depths ≤ 2 ^ 28 := Nat.pow_le_pow_right (by norm_num) pp.depths_le
    rw [UInt32.toNat_ofNat', Nat.mod_eq_of_lt (by omega)]
  have proper := Key.proper_treeAtLevel pp.depths_le named (by omega)
  have indexedInside : key.indexAtLevel depths level = some inside.val := indexed
  obtain ⟨frInt, packed, opened⟩ :=
    provable.opening order equation (by omega) indexedInside name
  have isListed := provable.attested name _ inside sameIndex
    (provable.clean _ TreeName.noConfusion) (listed name _ inside sameIndex onPath)
  obtain ⟨root, path, proved, isRoot, accepted⟩ := provable.proveMerkle isListed.isLeaf
  let node := (ledger.forest name).data inside
  let levelProof : LevelProof G H := ⟨node.treePosition.epoch, (path, node.treePosition.position),
    (ledger.forest name).proofOf inside.val, (ledger.forest name).commitment, frInt,
    node.treeVersion⟩
  refine ⟨levelProof, ?_, rfl, _, named', opened levelProof rfl rfl rfl,
    ⟨root, isRoot, accepted⟩, Node.versionsFromFrInt_zero (provable.fits few name inside) packed⟩
  have checked : checkIndex depths index = some inside := checkIndex_val inside
  rw [Ledger.proveLevel, named, indexed]
  simp only [Option.bind_eq_bind, Option.bind_some, checked, proved]
  rw [show index = inside.val from rfl, proveAmtNode_root proper]
  simp only [Option.bind_some]
  rw [packed]
  rfl

/-- The parts of the levels above, in their order. -/
theorem foldlM_reverse_range {Item : Type} {part : Nat → Option Item} {good : Nat → Item → Prop}
    {number : Nat} (parts : ∀ level < number, ∃ item, part level = some item ∧ good level item)
    (rest : List Item) :
    ∃ items, (List.range number).reverse.foldlM
        (fun items level => (part level).bind fun item => some (item :: items)) rest =
          some (items ++ rest) ∧
      items.length = number ∧ ∀ level item, items[level]? = some item → good level item := by
  induction number generalizing rest with
  | zero => exact ⟨[], rfl, rfl, fun level item found => by simp at found⟩
  | succ number inductionHypothesis =>
    obtain ⟨last, made, isGood⟩ := parts number (Nat.lt_succ_self number)
    obtain ⟨items, done, sameLength, allGood⟩ := inductionHypothesis
      (fun level below => parts level (Nat.lt_succ_of_lt below)) (last :: rest)
    refine ⟨items ++ [last], ?_, ?_, fun level item found => ?_⟩
    · rw [List.range_succ, List.reverse_append, List.reverse_singleton, List.singleton_append,
        List.foldlM_cons, made]
      rw [Option.bind_some, Option.bind_eq_bind, Option.bind_some, List.append_assoc,
        List.singleton_append]
      exact done
    · rw [List.length_append, sameLength, List.length_singleton]
    · rcases getElem?_concat_cases found with earlier | ⟨isLast, rfl⟩
      · exact allGood level item earlier
      · rwa [isLast, sameLength]

omit [Curve G] in
/-- The entry of a stored key can be read. -/
theorem Exclusive.stored (exclusive : ledger.Exclusive values) (found : values key = some value) :
    ∃ bytes, ledger.dbKey key.bytes.toList = some bytes ∧ fromBytesLocal bytes = some value := by
  have loaded := exclusive.holds key
  rw [found, LvmtDB.loadValue] at loaded
  cases entry : ledger.dbKey key.bytes.toList with
  | none =>
    rw [entry] at loaded
    cases loaded
  | some bytes =>
    rw [entry] at loaded
    obtain ⟨read, decoded, same⟩ := Option.map_eq_some_iff.mp loaded
    exact ⟨bytes, rfl, decoded.trans same⟩

/-- Every stored key can be proved, and its proof is accepted. -/
theorem Provable.prove (provable : ledger.Provable H pp values history committed)
    (order : ∀ point : G, FrParams.MODULUS • point = 0) (equation : pp.PairingEquation pairing)
    (few : committed < 2 ^ 40) (found : values key = some value) :
    ∃ (upper : List (LevelProof G H)) (bottom : LevelProof G H),
      ledger.prove (some .root) key =
        some (⟨some value.value, value.version⟩, upper ++ [bottom]) ∧
      ProofAccepted pairing pp (epochRoot history) key value.version value.value upper bottom := by
  obtain ⟨slot, isSlot, -⟩ := provable.exclusive.exclusive.slot key _ ⟨value, found, rfl⟩
  have named := (Key.slot_eq_some.mp isSlot).1
  have shallow := provable.reachable.shallow key value found
  have listed := provable.reachable.listed key value slot.name found named
  obtain ⟨bottom, made, bottomCommitment, bottomAccepted⟩ :=
    provable.proveBottom order equation few found named
  -- Each level names its tree and vouches for the commitment of the tree below it.
  let good := fun (level : Nat) (levelProof : LevelProof G H) =>
    ∃ name child, key.treeAtLevel depths level = some name ∧
      key.treeAtLevel depths (level + 1) = some child ∧
      levelProof.commitment = (ledger.forest name).commitment ∧
      TreeAccepted pairing pp (epochRoot history) key level levelProof
        (ledger.forest child).commitment
  have parts : ∀ level < value.version.level.toNat, ∃ levelProof,
      Ledger.proveLevel (some .root) ledger key level = some levelProof ∧
        good level levelProof := by
    intro level below
    obtain ⟨parent, index, isParent, indexed, isChild, onPath⟩ :=
      Key.above_of_treeAtLevel named level below
    obtain ⟨levelProof, proved, sameCommitment, accepted⟩ := provable.proveLevel order equation
      few (lt_trans below shallow) isParent indexed isChild listed onPath
    exact ⟨levelProof, proved, parent, _, isParent, isChild, sameCommitment, accepted⟩
  obtain ⟨upper, done, sameLength, allGood⟩ := foldlM_reverse_range parts [bottom]
  refine ⟨upper, bottom, ?_, ⟨by omega, ?_, ?_⟩⟩
  · obtain ⟨bytes, isStored, decoded⟩ := provable.exclusive.stored found
    rw [Ledger.prove, isStored]
    simp only [Option.bind_eq_bind, Option.bind_some, decoded, made]
    rw [done]
    rfl
  · rw [sameLength]
    exact bottomAccepted
  · intro level levelProof commitment isLevel isBelow
    obtain ⟨name, child, -, isChild, -, accepted⟩ := allGood level levelProof isLevel
    rw [List.map_append, List.map_singleton] at isBelow
    have sameCommitment : commitment = (ledger.forest child).commitment := by
      rcases getElem?_concat_cases isBelow with earlier | ⟨isLast, rfl⟩
      · rw [List.getElem?_map] at earlier
        obtain ⟨below, isNext, rfl⟩ := Option.map_eq_some_iff.mp earlier
        obtain ⟨name', -, isName, -, sameCommitment, -⟩ := allGood _ below isNext
        rw [sameCommitment, Option.some.inj (isName.symm.trans isChild)]
      · rw [isLast, List.length_map, sameLength, named] at isChild
        rw [bottomCommitment, Option.some.inj isChild]
    rwa [sameCommitment]

end Ledger

/-! ### Databases -/

namespace LvmtDB

variable {G G₂ Gt H : Type} {depths : Nat} [Curve G] [AddCommGroup G₂] [AddCommGroup Gt]
  [DecidableEq Gt] [H256 H]

/-- A commit has less than `2 ^ 26` pairs, so its epoch has less than `2 ^ 31` leaves. -/
def SmallBatch (db : LvmtDB G depths) (op : LvmtOp) : Prop :=
  op.isCommit = true → db.uncommittedKeyValues.length < 2 ^ 26

instance (db : LvmtDB G depths) (op : LvmtOp) : Decidable (db.SmallBatch op) :=
  inferInstanceAs (Decidable (_ → _))

/-- The root of an epoch, as its commit returned it. -/
def returnedRoot (outputs : List (LvmtOutput G H)) (epoch : UInt64) : Option H :=
  (merkleRoots outputs)[epoch.toNat]?

omit [AddCommGroup G₂] in
/-- The records are kept by every run, which returns the roots of the epochs it adds. -/
theorem Represents.provable_run {pp : AMTParams G G₂ depths}
    (neverZero : ∀ bytes, (keccak bytes : H) ≠ default) {db final : LvmtDB G depths}
    {ledger : Ledger G depths} {values : Key → Option Value} {history : List (Epoch G)}
    {committed : Nat} {ops : List LvmtOp} {outputs : List (LvmtOutput G H)}
    (represents : db.Represents (⟨pp, false, some .root⟩ : LvmtConfig G G₂ depths) ledger)
    (provable : ledger.Provable H pp values history committed)
    (fewSets : committed + ledger.uncommittedKeyValues.length + ops.countP LvmtOp.isSet < 2 ^ 40)
    (meets : PartialRun.Meets (LvmtDB.step (H := H) pp) SmallBatch db ops)
    (done : PartialRun.run (LvmtDB.step pp) db ops = some (final, outputs)) :
    ∃ ledger' values' added committed',
      final.Represents (⟨pp, false, some .root⟩ : LvmtConfig G G₂ depths) ledger' ∧
      ledger'.Provable H pp values' (history ++ added) committed' ∧
      committed' + ledger'.uncommittedKeyValues.length =
        committed + ledger.uncommittedKeyValues.length + ops.countP LvmtOp.isSet ∧
      merkleRoots outputs = added.map (fun epoch => rootOfLeaves epoch.leaves) ∧
      Ledger.SameSlots values values' := by
  let config : LvmtConfig G G₂ depths := ⟨pp, false, some .root⟩
  let before := committed + ledger.uncommittedKeyValues.length
  let invariant := fun (past : List (LvmtOp × LvmtOutput G H)) (db : LvmtDB G depths) =>
    ∃ ledger' values' added committed', db.Represents config ledger' ∧
      ledger'.Provable H pp values' (history ++ added) committed' ∧
      committed' + ledger'.uncommittedKeyValues.length =
        before + (past.map Prod.fst).countP LvmtOp.isSet ∧
      merkleRoots (past.map Prod.snd) = added.map (fun epoch => rootOfLeaves epoch.leaves) ∧
      Ledger.SameSlots values values'
  have start : invariant [] db :=
    ⟨ledger, values, [], committed, represents, by rwa [List.append_nil], rfl, rfl, .refl values⟩
  have kept := PartialRun.run_history_of_meets invariant
    (fun ops => before + ops.countP LvmtOp.isSet < 2 ^ 40)
    (fun earlier later few => by
      rw [List.countP_append] at few
      omega)
    (fun past db op next out few small holds stepped => by
      obtain ⟨ledger, values, added, committed, stands, provable, counted, roots, slots⟩ := holds
      have simulated := stands.step (H := H) op
      rw [stepped] at simulated
      obtain ⟨⟨after, _⟩, ledgerStepped, nextStands, rfl⟩ := simulated.of_some_left
      rw [List.countP_append, ← Nat.add_assoc, ← counted] at few
      obtain ⟨values', added', committed', nextProvable, nextCounted, newRoots, nextSlots⟩ :=
        provable.step neverZero (by omega) (fun isCommit => by
          rw [← stands.uncommitted]
          exact small isCommit) ledgerStepped
      refine ⟨after, values', added ++ added', committed', nextStands, ?_, ?_, ?_,
        slots.trans nextSlots⟩
      · rwa [← List.append_assoc]
      · rw [nextCounted, counted, List.map_append, List.countP_append, List.map_singleton,
          List.countP_singleton, Nat.add_assoc]
      · rw [List.map_append, merkleRoots_append, roots, List.map_append, List.map_singleton,
          newRoots])
    (by rwa [List.map_nil, List.nil_append]) start meets done
  have sameLength := PartialRun.length_run done
  rw [List.nil_append] at kept
  obtain ⟨ledger', values', added, committed', stands, provable', counted, roots, slots⟩ := kept
  rw [List.map_fst_zip sameLength.ge] at counted
  rw [List.map_snd_zip sameLength.le] at roots
  exact ⟨ledger', values', added, committed', stands, provable', counted, roots, slots⟩

omit [AddCommGroup G₂] in
/-- The records hold after every run. -/
theorem provable_of_run {pp : AMTParams G G₂ depths}
    (neverZero : ∀ bytes, (keccak bytes : H) ≠ default) {opened final : LvmtDB G depths}
    {ops : List LvmtOp} {outputs : List (LvmtOutput G H)}
    (isOpened : new KeyValueDB.empty false (some .root) = some opened)
    (fewSets : ops.countP LvmtOp.isSet < 2 ^ 40)
    (meets : PartialRun.Meets (LvmtDB.step (H := H) pp) SmallBatch opened ops)
    (done : PartialRun.run (LvmtDB.step pp) opened ops = some (final, outputs)) :
    ∃ ledger values history committed,
      final.Represents (⟨pp, false, some .root⟩ : LvmtConfig G G₂ depths) ledger ∧
      ledger.Provable H pp values history committed ∧
      committed + ledger.uncommittedKeyValues.length = ops.countP LvmtOp.isSet ∧
      merkleRoots outputs = history.map (fun epoch => rootOfLeaves epoch.leaves) := by
  have represents : opened.Represents (⟨pp, false, some .root⟩ : LvmtConfig G G₂ depths)
      Ledger.empty := represents_of_new isOpened
  obtain ⟨ledger, values, history, committed, stands, provable, counted, roots, -⟩ :=
    represents.provable_run neverZero (Ledger.provable_empty pp) (by
      rw [Nat.zero_add]
      exact lt_of_eq_of_lt (Nat.zero_add _) fewSets) meets done
  rw [List.nil_append] at provable
  exact ⟨ledger, values, history, committed, stands, provable,
    counted.trans (Nat.zero_add _), roots⟩

omit [AddCommGroup G₂] in
/-- Every key that is read with a value is stored with it. -/
theorem Represents.stored_of_get {config : LvmtConfig G G₂ depths} {db next : LvmtDB G depths}
    {ledger : Ledger G depths} {values : Key → Option Value} {key : Key} {value : Vec UInt8}
    (represents : db.Represents config ledger) (exclusive : ledger.Exclusive values)
    (got : db.get key = some (some value, next)) :
    ∃ stored, values key = some stored ∧ stored.value = value := by
  have read := represents.get key
  rw [got, Ledger.get, exclusive.holds key] at read
  obtain ⟨_, sameValue, rfl, -⟩ := read.of_some_left
  exact Option.map_eq_some_iff.mp (Option.some.inj sameValue)

omit [AddCommGroup G₂] in
/-- What the ledger proves, the database proves. -/
theorem Represents.prove_of_ledger {config : LvmtConfig G G₂ depths} {db : LvmtDB G depths}
    {ledger : Ledger G depths} {key : Key} {proof : Proof G H}
    (represents : db.Represents config ledger)
    (proved : ledger.prove config.shardInfo key = some proof) :
    ∃ after, db.prove key = some (proof, after) := by
  have simulated := represents.prove (H := H) key
  rw [proved] at simulated
  obtain ⟨⟨_, after⟩, isProof, rfl, -⟩ := simulated.of_some_right
  exact ⟨after, isProof⟩

theorem returnedRoot_eq {outputs : List (LvmtOutput G H)} {history : List (Epoch G)}
    (roots : merkleRoots outputs = history.map (fun epoch => rootOfLeaves epoch.leaves)) :
    returnedRoot outputs = Ledger.epochRoot history := by
  funext epoch
  rw [returnedRoot, roots, Ledger.epochRoot]

/-- Whatever was done before, the database can prove every key that has a value, and the verifier
accepts the proof with this value against the roots that the commits returned. -/
theorem proofs_accepted (pairing : G →+ G₂ →+ Gt) (pp : AMTParams G G₂ depths)
    (order : ∀ point : G, FrParams.MODULUS • point = 0) (equation : pp.PairingEquation pairing)
    (neverZero : ∀ bytes, (keccak bytes : H) ≠ default) {opened final next : LvmtDB G depths}
    {ops : List LvmtOp} {outputs : List (LvmtOutput G H)}
    (isOpened : new KeyValueDB.empty false (some .root) = some opened)
    (fewSets : ops.countP LvmtOp.isSet < 2 ^ 40)
    (meets : PartialRun.Meets (LvmtDB.step (H := H) pp) SmallBatch opened ops)
    (done : PartialRun.run (LvmtDB.step pp) opened ops = some (final, outputs)) {key : Key}
    {value : Vec UInt8} (got : final.get key = some (some value, next)) :
    ∃ (proof : Proof G H) (after : LvmtDB G depths), final.prove key = some (proof, after) ∧
      proof.1.value = some value ∧
      Gives (verify depths (AMTree.verify pairing pp) key proof (returnedRoot outputs)) () := by
  obtain ⟨ledger, values, history, committed, stands, provable, counted, roots⟩ :=
    provable_of_run neverZero isOpened fewSets meets done
  obtain ⟨stored, isStored, rfl⟩ := stands.stored_of_get provable.exclusive got
  obtain ⟨upper, bottom, proved, accepted⟩ :=
    provable.prove order equation (by omega) isStored
  obtain ⟨after, isProof⟩ := stands.prove_of_ledger proved
  refine ⟨_, after, isProof, rfl, ?_⟩
  rw [returnedRoot_eq roots]
  exact accepted.gives_verify

/-! ### A run -/

/-- Six keys with one leaf of the upper tree, so that the last has its slot in the tree below. It is
set again in a later epoch and flushed. -/
def provedRun : List LvmtOp :=
  [.set ⟨.pair 7 0⟩ (.single 1), .set ⟨.pair 7 1⟩ (.single 2), .set ⟨.pair 7 2⟩ (.single 3),
    .set ⟨.pair 7 3⟩ (.single 4), .set ⟨.pair 7 4⟩ (.single 5), .set ⟨.pair 7 5⟩ (.single 6),
    .commit, .set ⟨.pair 7 5⟩ (.single 7), .commit, .flushRoot, .set ⟨.pair 7 0⟩ (.single 8)]

/-- The proof of the last key has two levels. -/
theorem proofs_accepted_provedRun :
    ∃ (opened final after : LvmtDB Fr 8) (outputs : List (LvmtOutput Fr Transcript))
      (proof : Proof Fr Transcript), new KeyValueDB.empty false (some .root) = some opened ∧
      PartialRun.run (LvmtDB.step openingParams) opened provedRun = some (final, outputs) ∧
      final.prove ⟨.pair 7 5⟩ = some (proof, after) ∧ proof.2.length = 2 ∧
      proof.1.value = some (.single 7) ∧
      Gives (verify 8 (AMTree.verify fieldPairing openingParams) ⟨.pair 7 5⟩ proof
        (returnedRoot outputs)) () := by
  obtain ⟨result, done⟩ :
      ∃ result : LvmtDB Fr 8 × (LvmtDB Fr 8 × List (LvmtOutput Fr Transcript)) × LvmtDB Fr 8 ×
        (Proof Fr Transcript × LvmtDB Fr 8),
      ((new KeyValueDB.empty false (some .root)).bind fun opened =>
        if PartialRun.Meets (LvmtDB.step (H := Transcript) openingParams) SmallBatch opened
            provedRun then
          (PartialRun.run (LvmtDB.step openingParams) opened provedRun).bind fun ran =>
            (ran.1.get ⟨.pair 7 5⟩).bind fun read =>
              if read.1 = some (.single 7) then
                (ran.1.prove ⟨.pair 7 5⟩).bind fun proved =>
                  if proved.1.2.length = 2 then some (opened, ran, read.2, proved) else none
              else none
        else none) = some result :=
    Option.isSome_iff_exists.mp (by decide +kernel)
  obtain ⟨opened, isOpened, done⟩ := Option.bind_eq_some_iff.mp done
  obtain ⟨meets, done⟩ := Option.ite_none_right_eq_some.mp done
  obtain ⟨⟨final, outputs⟩, isRan, done⟩ := Option.bind_eq_some_iff.mp done
  obtain ⟨⟨value, next⟩, got, done⟩ := Option.bind_eq_some_iff.mp done
  obtain ⟨isSeven, done⟩ := Option.ite_none_right_eq_some.mp done
  obtain rfl : value = some (.single 7) := isSeven
  obtain ⟨⟨made, _⟩, isMade, done⟩ := Option.bind_eq_some_iff.mp done
  obtain ⟨twoLevels, -⟩ := Option.ite_none_right_eq_some.mp done
  obtain ⟨proof, after, proved, sameValue, accepted⟩ :=
    proofs_accepted fieldPairing openingParams modulus_nsmul (fun _ _ => rfl)
      Transcript.keccak_ne_zero isOpened (by decide) meets isRan got
  obtain ⟨rfl, -⟩ := Prod.mk.inj (Option.some.inj (isMade.symm.trans proved))
  exact ⟨opened, final, after, outputs, made, isOpened, isRan, proved, twoLevels, sameValue,
    accepted⟩

end LvmtDB

end AuthStorage.Lvmt
