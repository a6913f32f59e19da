/-
This file models `lvmt_db.rs`: the key-value database over a version forest. A
commit increments the version of every key that was set, stores the values with
their versions, commits the forest and writes the Merkle tree over the hashes of
everything that changed. A proof consists of one part for each level of the
forest down to the key's slot.
-/

import AuthStorage.Library.Partial
import AuthStorage.Lvmt.LeafValues
import AuthStorage.Lvmt.Merkle
import AuthStorage.Lvmt.VersionTree

namespace AuthStorage.Lvmt

/-! ### Stored data -/

/-- What is stored with a key: its value, its slot and version, and where its hash is. -/
structure Value where
  value : Vec UInt8
  version : VerInfo
  position : EpochPosition
deriving DecidableEq

instance : MyToBytes Value :=
  ⟨fun ty item => write ty item.value ++ write ty item.version ++ write ty item.position⟩

instance : MyFromBytes Value where
  read ty input := do
    let (value, input) ← read ty input
    let (version, input) ← read ty input
    let (position, input) ← read ty input
    some (⟨value, version, position⟩, input)

instance : LawfulSerde Value where
  code ty := by
    intro item rest
    show (read ty (write ty item.value ++ write ty item.version ++ write ty item.position ++
      rest)).bind _ = _
    simp [List.append_assoc]

/-- Where the number of the next epoch is stored. -/
def EPOCH_NUMBER_KEY : Bytes := [0, 0]

/-! ### Proofs -/

/-- The part of a proof for one level. -/
structure LevelProof (G H : Type) where
  merkleEpoch : UInt64
  merkleProof : MerkleProof H
  amtProof : AMTProof G
  commitment : G
  nodeFrInt : FrInt
  nodeVersion : UInt64

/-- The part of a proof for the key itself. -/
structure AssociateProof where
  value : Option (Vec UInt8)
  verInfo : VerInfo

/-- The level proofs are in the order of the levels. -/
abbrev Proof (G H : Type) := AssociateProof × List (LevelProof G H)

/-! ### The database -/

/-- The three columns of the key-value store. -/
structure KeyValueDB where
  verTree : DBColumn
  dbKey : DBColumn
  dbMerkle : DBColumn

/-- The store before the first opening. -/
def KeyValueDB.empty : KeyValueDB := ⟨.empty, .empty, .empty⟩

/-- The first column is the one of the version tree. -/
structure LvmtDB (G : Type) (depths : Nat) where
  versionTree : VersionTree G depths
  dbKey : DBColumn
  dbMerkle : DBColumn
  cache : AList fun _ : Key => Option Value × Bool
  uncommittedKeyValues : List (Key × Vec UInt8)
  onlyMerkleRoot : Bool

namespace LvmtDB

variable {G G₂ Gt H : Type} {depths : Nat} [Curve G] [H256 H]

/-- Open a database over a store. -/
def new (backend : KeyValueDB) (onlyMerkleRoot : Bool) (shardInfo : Option (NodeIndex depths)) :
    Option (LvmtDB G depths) := do
  let versionTree ← VersionTree.new backend.verTree shardInfo
  some
    { versionTree := versionTree
      dbKey := backend.dbKey
      dbMerkle := backend.dbMerkle
      cache := ∅
      uncommittedKeyValues := []
      onlyMerkleRoot := onlyMerkleRoot }

/-- The store as the database leaves it. -/
def backend (db : LvmtDB G depths) : KeyValueDB := ⟨db.versionTree.db, db.dbKey, db.dbMerkle⟩

/-- The stored value of a key. -/
def loadValue (dbKey : DBColumn) (key : Key) : Option (Option Value) :=
  match dbKey key.bytes.toList with
  | none => some none
  | some bytes => (fromBytesLocal bytes).map some

/-- The last committed value. It is kept in the cache, also when there is none. -/
def get (db : LvmtDB G depths) (key : Key) : Option (Option (Vec UInt8) × LvmtDB G depths) :=
  match db.cache.lookup key with
  | some (value, _) => some (value.map Value.value, db)
  | none => do
    let value ← loadValue db.dbKey key
    some (value.map Value.value, { db with cache := db.cache.insert key (value, false) })

/-- A pair waits for the next commit. -/
def set (db : LvmtDB G depths) (key : Key) (value : Vec UInt8) : LvmtDB G depths :=
  { db with uncommittedKeyValues := db.uncommittedKeyValues ++ [(key, value)] }

/-- The number of the epoch that the next commit writes; the first one is zero. -/
def currentEpoch (dbMerkle : DBColumn) : Option UInt64 :=
  match dbMerkle EPOCH_NUMBER_KEY with
  | none => some 0
  | some bytes => fromBytesLocal bytes

/-! ### Commits -/

/-- The version a key had before the commit. -/
def oldVersion (db : LvmtDB G depths) (key : Key) : Option (Option VerInfo) :=
  match db.cache.lookup key with
  | some (value, _) => some (value.map Value.version)
  | none => (loadValue db.dbKey key).map fun value => value.map Value.version

/-- The leaf for a key. -/
def keyValueHash (key : Key) (version : VerInfo) (value : Vec UInt8) : H :=
  keccak (toBytesConsensus (KeyValue.mk key.bytes version value))

/-- The leaf for a changed tree. -/
def treeValueHash (update : VersionTree.SubTreeUpdate G) : H :=
  keccak (toBytesConsensus (TreeValue.mk update.1 update.2.1 update.2.2))

/-- One iteration of the loop over the pairs that were set: the tree, the hashes and the write
operations so far. `oldVersion` reads the state before the commit. -/
def commitKey {Tree : Type} (oldVersion : Key → Option (Option VerInfo))
    (incKeyVer : Tree → Key → Option VerInfo → Option (VerInfo × Tree)) (epoch : UInt64)
    (state : Tree × List H × List DBOp) (entry : (Key × Vec UInt8) × Nat) :
    Option (Tree × List H × List DBOp) := do
  let (tree, hashes, writeOps) := state
  let ((key, value), position) := entry
  let version ← oldVersion key
  let (version, tree) ← incKeyVer tree key version
  let stored : Value := ⟨value, version, ⟨epoch, UInt64.ofNat position⟩⟩
  some (tree, hashes ++ [keyValueHash key version value],
    writeOps ++ [.insert key.bytes.toList (toBytesLocal stored)])

/-- The hash of a pair that a commit stores. -/
def pairHash (pair : Key × Value) : H := keyValueHash pair.1 pair.2.version pair.2.value

/-- The stored entry of a key. -/
def pairOp (pair : Key × Value) : DBOp := .insert pair.1.bytes.toList (toBytesLocal pair.2)

/-- The invariant rule for the loop: what every increment keeps holds of the final tree and the
pairs that were stored, and these are the pairs that were set. -/
theorem commitKey_invariant {Tree : Type} {oldVersion : Key → Option (Option VerInfo)}
    {incKeyVer : Tree → Key → Option VerInfo → Option (VerInfo × Tree)} {epoch : UInt64}
    (invariant : List (Key × Value) → Tree → Prop) {pairs : List (Key × Vec UInt8)}
    (keeps : ∀ stored tree key value version verInfo next, invariant stored tree →
      stored.map (fun pair => (pair.1, pair.2.value)) ++ [(key, value)] <+: pairs →
      oldVersion key = some version → incKeyVer tree key version = some (verInfo, next) →
        invariant (stored ++ [(key, ⟨value, verInfo, ⟨epoch, UInt64.ofNat stored.length⟩⟩)]) next)
    {tree : Tree} {final : Tree × List H × List DBOp} (start : invariant [] tree)
    (done : pairs.zipIdx.foldlM (commitKey oldVersion incKeyVer epoch) (tree, [], []) =
      some final) :
    ∃ stored, stored.map (fun pair => (pair.1, pair.2.value)) = pairs ∧
      final.2.1 = stored.map pairHash ∧ final.2.2 = stored.map pairOp ∧
      invariant stored final.1 := by
  have along : ∀ (rest : List (Key × Vec UInt8)) (stored : List (Key × Value)) (tree : Tree),
      stored.map (fun pair => (pair.1, pair.2.value)) ++ rest = pairs → invariant stored tree →
        (rest.zipIdx stored.length).foldlM (commitKey oldVersion incKeyVer epoch)
          (tree, stored.map pairHash, stored.map pairOp) = some final →
        ∃ stored, stored.map (fun pair => (pair.1, pair.2.value)) = pairs ∧
          final.2.1 = stored.map pairHash ∧ final.2.2 = stored.map pairOp ∧
          invariant stored final.1 := by
    intro rest
    induction rest with
    | nil =>
      intro stored tree whole holds done
      rw [List.append_nil] at whole
      obtain rfl := Option.some.inj done
      exact ⟨stored, whole, rfl, rfl, holds⟩
    | cons pair rest inductionHypothesis =>
      intro stored tree whole holds done
      rw [List.zipIdx_cons, List.foldlM_cons] at done
      obtain ⟨next, stepped, done⟩ := Option.bind_eq_some_iff.mp done
      obtain ⟨version, known, stepped⟩ := Option.bind_eq_some_iff.mp stepped
      obtain ⟨⟨verInfo, tree'⟩, incremented, same⟩ := Option.bind_eq_some_iff.mp stepped
      obtain rfl := Option.some.inj same
      have longer : stored.map (fun pair => (pair.1, pair.2.value)) ++ [pair] ++ rest = pairs := by
        rwa [List.append_assoc, List.singleton_append]
      refine inductionHypothesis
        (stored ++ [(pair.1, ⟨pair.2, verInfo, ⟨epoch, UInt64.ofNat stored.length⟩⟩)]) tree' ?_
        (keeps stored tree pair.1 pair.2 version verInfo tree' holds ⟨rest, longer⟩ known
          incremented) ?_
      · rwa [List.map_append]
      · rw [List.length_append, List.map_append, List.map_append]
        exact done
  exact along pairs [] tree rfl start done

/-- What a key has after the pairs were stored: one of them, or what it had before. -/
theorem loadValue_writeBuffered (dbKey : DBColumn) (stored : List (Key × Value)) (key : Key) :
    (∃ value, (key, value) ∈ stored ∧
        loadValue (dbKey.writeBuffered (stored.map pairOp)) key = some (some value)) ∨
      (∀ pair ∈ stored, pair.1 ≠ key) ∧
        loadValue (dbKey.writeBuffered (stored.map pairOp)) key = loadValue dbKey key := by
  induction stored generalizing dbKey with
  | nil => exact Or.inr ⟨fun pair member => absurd member List.not_mem_nil, rfl⟩
  | cons pair rest inductionHypothesis =>
    rw [List.map_cons, DBColumn.writeBuffered_cons]
    rcases inductionHypothesis ((pairOp pair).apply dbKey) with
      ⟨value, member, loaded⟩ | ⟨others, loaded⟩
    · exact Or.inl ⟨value, List.mem_cons_of_mem _ member, loaded⟩
    · rw [loaded]
      by_cases same : pair.1 = key
      · obtain ⟨key', value⟩ := pair
        obtain rfl : key' = key := same
        refine Or.inl ⟨value, List.mem_cons_self, ?_⟩
        rw [loadValue, pairOp, DBOp.apply, Function.update_self]
        exact congrArg (Option.map some) (fromBytesLocal_toBytesLocal value)
      · refine Or.inr ⟨fun other member => ?_, ?_⟩
        · rcases List.mem_cons.mp member with rfl | later
          · exact same
          · exact others other later
        · have apart : (pairOp pair).key ≠ key.bytes.toList := fun equal => same (Key.ext equal)
          rw [loadValue, DBColumn.apply_of_ne _ _ apart, loadValue]

/-- Every entry of the column can be read, with these values. -/
def Holds (dbKey : DBColumn) (values : Key → Option Value) : Prop :=
  ∀ key, loadValue dbKey key = some (values key)

/-- The later of two pairs with the same key stays. -/
def storeAll (values : Key → Option Value) (stored : List (Key × Value)) : Key → Option Value :=
  stored.foldl (fun values pair => Function.update values pair.1 (some pair.2)) values

theorem holds_empty : Holds DBColumn.empty fun _ => none := fun _ => rfl

theorem Holds.writeBuffered {dbKey : DBColumn} {values : Key → Option Value}
    (holds : Holds dbKey values) (stored : List (Key × Value)) :
    Holds (dbKey.writeBuffered (stored.map pairOp)) (storeAll values stored) := by
  induction stored generalizing dbKey values with
  | nil => exact holds
  | cons pair rest inductionHypothesis =>
    refine inductionHypothesis fun key => ?_
    rw [loadValue, pairOp, DBOp.apply]
    dsimp only
    by_cases same : key = pair.1
    · subst same
      rw [Function.update_self, Function.update_self]
      exact congrArg (Option.map some) (fromBytesLocal_toBytesLocal pair.2)
    · rw [Function.update_of_ne same, Function.update_of_ne fun equal => same (Key.ext equal)]
      exact holds key

/-- The Merkle tree and the epoch number of a commit. -/
def finishEpoch (dbMerkle : DBColumn) (epoch : UInt64) (hashes : List H) (onlyRoot : Bool) :
    Option (DBColumn × H) := do
  let (dbMerkle, merkleRoot) := StaticMerkleTree.dump dbMerkle epoch hashes onlyRoot
  let next ← checkedAdd epoch 1
  some (dbMerkle.writeBuffered [.insert EPOCH_NUMBER_KEY (toBytesLocal next)], merkleRoot)

theorem currentEpoch_writeBuffered (dbMerkle : DBColumn) (epoch : UInt64) :
    currentEpoch (dbMerkle.writeBuffered [.insert EPOCH_NUMBER_KEY (toBytesLocal epoch)]) =
      some epoch := by
  rw [currentEpoch, DBColumn.writeBuffered, List.foldl_cons, List.foldl_nil, DBOp.apply,
    Function.update_self]
  exact fromBytesLocal_toBytesLocal epoch

theorem finishEpoch_eq_some {dbMerkle next : DBColumn} {epoch : UInt64} {hashes : List H}
    {onlyRoot : Bool} {root : H}
    (done : finishEpoch dbMerkle epoch hashes onlyRoot = some (next, root)) :
    root = StaticMerkleTree.rootOf (StaticMerkleTree.depthOf hashes.length) hashes ∧
      ∃ following, checkedAdd epoch 1 = some following ∧ currentEpoch next = some following ∧
        next = (StaticMerkleTree.dump dbMerkle epoch hashes onlyRoot).1.writeBuffered
          [.insert EPOCH_NUMBER_KEY (toBytesLocal following)] := by
  rw [finishEpoch] at done
  obtain ⟨following, added, done⟩ := Option.bind_eq_some_iff.mp done
  obtain ⟨rfl, rfl⟩ := Prod.mk.inj (Option.some.inj done)
  exact ⟨StaticMerkleTree.dump_root dbMerkle epoch hashes onlyRoot, following, added,
    currentEpoch_writeBuffered _ _, rfl⟩

/-- Commit the pending pairs: every key's version counts up, the trees are committed, and the hashes
of the pairs and of the changed trees become the leaves of the epoch. -/
def commit (pp : AMTParams G G₂ depths) (db : LvmtDB G depths) :
    Option ((G × H) × LvmtDB G depths) := do
  let epoch ← currentEpoch db.dbMerkle
  let (versionTree, hashes, writeOps) ← db.uncommittedKeyValues.zipIdx.foldlM
    (commitKey db.oldVersion (fun tree key version => tree.incKeyVer pp key version) epoch)
    (db.versionTree, [], [])
  let dbKey := db.dbKey.writeBuffered writeOps
  let ((amtRoot, updates), versionTree) ←
    versionTree.commit pp epoch (UInt64.ofNat hashes.length)
  let hashes : List H := hashes ++ updates.map treeValueHash
  let (dbMerkle, merkleRoot) ← finishEpoch db.dbMerkle epoch hashes db.onlyMerkleRoot
  some ((amtRoot, merkleRoot), { db with
    versionTree, dbKey, dbMerkle, cache := ∅, uncommittedKeyValues := [] })

/-- Write back the root tree; the other trees are written by the commits. -/
def flushRoot (db : LvmtDB G depths) : Option (LvmtDB G depths) := do
  let versionTree ← db.versionTree.flushAll
  some { db with versionTree }

/-! ### Proving -/

/-- The Merkle proof of a leaf in its epoch. -/
def proveMerkle (dbMerkle : DBColumn) (position : EpochPosition) :
    Option (UInt64 × MerkleProof H) := do
  let tree ← StaticMerkleTree.new dbMerkle position.epoch
  let merkleProof ← tree.prove dbMerkle position.position
  some (position.epoch, merkleProof)

/-- The commitment of a tree with a leaf and its proof; trees that are not in full mode panic. -/
def proveAmtNode (versionTree : VersionTree G depths) (name : TreeName) (index : Nat) :
    Option ((G × Node × AMTProof G) × VersionTree G depths) := do
  let (info, versionTree) ← versionTree.visit name
  let commitment ← info.tree.commitment
  let (value, tree) ← info.tree.get versionTree.db index
  let (proof, tree) ← tree.prove versionTree.db index
  let proof ← proof
  some ((commitment, value, proof), versionTree.setTree name info tree)

/-- The part of the level that holds the key's slot. -/
def proveBottom (dbMerkle : DBColumn) (versionTree : VersionTree G depths) (key : Key)
    (value : Value) : Option (LevelProof G H × VersionTree G depths) := do
  let (merkleEpoch, merkleProof) ← proveMerkle dbMerkle value.position
  let name ← key.treeAtLevel depths value.version.level.toNat
  let index ← key.indexAtLevel depths value.version.level.toNat
  let ((commitment, node, amtProof), versionTree) ← proveAmtNode versionTree name index
  let nodeFrInt ← node.asFrInt
  let nodeVersion ← node.keyVersions.toList[value.version.slotIndex.toNat]?
  some (⟨merkleEpoch, merkleProof, amtProof, commitment, nodeFrInt, nodeVersion⟩, versionTree)

/-- The part of a level above it. -/
def proveLevel (dbMerkle : DBColumn) (key : Key)
    (state : List (LevelProof G H) × VersionTree G depths) (level : Nat) :
    Option (List (LevelProof G H) × VersionTree G depths) := do
  let (levelProofs, versionTree) := state
  let name ← key.treeAtLevel depths level
  let index ← key.indexAtLevel depths level
  let (info, versionTree) ← versionTree.visit name
  let (node, tree) ← info.tree.get versionTree.db index
  let versionTree := versionTree.setTree name info tree
  let (merkleEpoch, merkleProof) ← proveMerkle dbMerkle node.treePosition
  let ((commitment, node, amtProof), versionTree) ← proveAmtNode versionTree name index
  let nodeFrInt ← node.asFrInt
  some (⟨merkleEpoch, merkleProof, amtProof, commitment, nodeFrInt, node.treeVersion⟩ ::
    levelProofs, versionTree)

/-- Only for keys that are present. -/
def prove (db : LvmtDB G depths) (key : Key) : Option (Proof G H × LvmtDB G depths) := do
  let bytes ← db.dbKey key.bytes.toList
  let value : Value ← fromBytesLocal bytes
  let (bottom, versionTree) ← proveBottom db.dbMerkle db.versionTree key value
  let (levelProofs, versionTree) ← (List.range value.version.level.toNat).reverse.foldlM
    (proveLevel db.dbMerkle key) ([bottom], versionTree)
  some ((⟨some value.value, value.version⟩, levelProofs), { db with versionTree })

/-! ### Verifying -/

/-- A check that may panic, with the message of its failure. -/
def check (condition : Option Bool) (message : String) : ExceptT String Option Unit := do
  let holds ← ExceptT.lift condition
  if holds then pure () else throw message

/-- The AMT proofs; `amtVerify` is `AMTree::verify`. -/
def verifyAmt (depths : Nat) (amtVerify : Nat → Fr → G → AMTProof G → Option Bool) (key : Key)
    (levelProofs : List (LevelProof G H)) : ExceptT String Option Unit :=
  levelProofs.zipIdx.forM fun (levelProof, level) => do
    let amtIndex ← ExceptT.lift (key.indexAtLevel depths (level % 2 ^ 8))
    let scalar ← ExceptT.lift levelProof.nodeFrInt.toFr
    check (amtVerify amtIndex scalar levelProof.commitment levelProof.amtProof)
      s!"Incorrect AMT proof at level {level}"

/-- A Merkle proof against the root of its epoch; an epoch without a root panics. -/
def verifyMerkle (epochRoot : UInt64 → Option H) (levelProof : LevelProof G H) (hash : H)
    (message : String) : ExceptT String Option Unit := do
  let root ← ExceptT.lift (epochRoot levelProof.merkleEpoch)
  check (StaticMerkleTree.verify root hash levelProof.merkleProof) message

/-- The Merkle proof of the key and its value. -/
def verifyKeyMerkle (epochRoot : UInt64 → Option H) (key : Key) (assocProof : AssociateProof)
    (bottom : LevelProof G H) : ExceptT String Option Unit :=
  match assocProof.value with
  | none => pure ()
  | some value =>
    verifyMerkle epochRoot bottom (keyValueHash key assocProof.verInfo value)
      "Incorrect Merkle proof at level -1"

/-- The Merkle proof of the tree below a level; `level as u8 + 1` may overflow. -/
def verifyTreeMerkle (depths : Nat) (epochRoot : UInt64 → Option H) (key : Key)
    (entry : (LevelProof G H × LevelProof G H) × Nat) : ExceptT String Option Unit := do
  let ((levelProof, below), level) := entry
  let name ← ExceptT.lift
    (if level % 2 ^ 8 + 1 < 2 ^ 8 then key.treeAtLevel depths (level % 2 ^ 8 + 1) else none)
  verifyMerkle epochRoot levelProof
    (treeValueHash (name, levelProof.nodeVersion, below.commitment))
    s!"Incorrect Merkle proof at level {level}"

/-- The version inside a leaf's integer. -/
def verifyVersion (levelProof : LevelProof G H) (index : Nat) (message : String) :
    ExceptT String Option Unit := do
  let version ← ExceptT.lift (Node.versionsFromFrInt levelProof.nodeFrInt index)
  check (some (decide (version = levelProof.nodeVersion))) message

/-- Without any level proof the source panics. -/
def verify (depths : Nat) (amtVerify : Nat → Fr → G → AMTProof G → Option Bool) (key : Key)
    (proof : Proof G H) (epochRoot : UInt64 → Option H) : ExceptT String Option Unit := do
  let (assocProof, levelProofs) := proof
  verifyAmt depths amtVerify key levelProofs
  let bottom ← ExceptT.lift levelProofs.getLast?
  verifyKeyMerkle epochRoot key assocProof bottom
  (levelProofs.zip levelProofs.tail).zipIdx.forM (verifyTreeMerkle depths epochRoot key)
  verifyVersion bottom (assocProof.verInfo.slotIndex.toNat + 1)
    "Inconsistent version value at level -1"
  levelProofs.dropLast.zipIdx.forM fun (levelProof, level) =>
    verifyVersion levelProof 0 s!"Inconsistent version value at level {level}"

end LvmtDB

end AuthStorage.Lvmt
