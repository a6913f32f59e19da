/-
This file says what the database is, its caches aside: a forest, the column of
values, the column of Merkle trees and the pairs that were set. Every operation
of the database is the ledger's operation, and a database that is opened over
the store of another one, flushed after a commit, stands for the same ledger.
-/

import AuthStorage.Lvmt.ForestReopen
import AuthStorage.Lvmt.LvmtDB

namespace AuthStorage.Lvmt

/-- What a database stands for, without its caches. -/
structure Ledger (G : Type) (depths : Nat) where
  forest : Forest G depths
  dbKey : DBColumn
  dbMerkle : DBColumn
  uncommittedKeyValues : List (Key × Vec UInt8)

/-! ### Operations -/

/-- The calls of the database. -/
inductive LvmtOp
  | set (key : Key) (value : Vec UInt8)
  | get (key : Key)
  | commit
  | prove (key : Key)
  | flushRoot

/-- What a call returns. -/
inductive LvmtOutput (G H : Type)
  | done
  | value (value : Option (Vec UInt8))
  | roots (amtRoot : G) (merkleRoot : H)
  | proof (proof : Proof G H)

/-- What stays fixed while a database is in use. -/
structure LvmtConfig (G G₂ : Type) (depths : Nat) where
  pp : AMTParams G G₂ depths
  onlyMerkleRoot : Bool
  shardInfo : Option (NodeIndex depths)

variable {G G₂ H : Type} {depths : Nat} [Curve G] [H256 H]

/-- The database and the result after a call. -/
def LvmtDB.step (pp : AMTParams G G₂ depths) (db : LvmtDB G depths) :
    LvmtOp → Option (LvmtDB G depths × LvmtOutput G H)
  | .set key value => some (db.set key value, .done)
  | .get key => do
    let (value, db) ← db.get key
    some (db, .value value)
  | .commit => do
    let ((amtRoot, merkleRoot), db) ← db.commit pp
    some (db, .roots amtRoot merkleRoot)
  | .prove key => do
    let (proof, db) ← db.prove key
    some (db, .proof proof)
  | .flushRoot => do
    let db ← db.flushRoot
    some (db, .done)

namespace Ledger

/-- Nothing is stored. -/
def empty : Ledger G depths := ⟨Forest.empty, .empty, .empty, []⟩

/-- The value of a key in the column. -/
def get (ledger : Ledger G depths) (key : Key) : Option (Option (Vec UInt8)) :=
  (LvmtDB.loadValue ledger.dbKey key).map fun value => value.map Value.value

/-- The slot and version that are stored with a key. -/
def oldVersion (ledger : Ledger G depths) (key : Key) : Option (Option VerInfo) :=
  (LvmtDB.loadValue ledger.dbKey key).map fun value => value.map Value.version

/-- Commit the pending pairs. -/
def commit (config : LvmtConfig G G₂ depths) (ledger : Ledger G depths) :
    Option ((G × H) × Ledger G depths) := do
  let epoch ← LvmtDB.currentEpoch ledger.dbMerkle
  let (forest, hashes, writeOps) ← ledger.uncommittedKeyValues.zipIdx.foldlM
    (LvmtDB.commitKey ledger.oldVersion
      (fun forest key version => forest.incKeyVer config.pp config.shardInfo key version) epoch)
    (ledger.forest, [], [])
  let ((amtRoot, updates), forest) ←
    forest.commit config.pp config.shardInfo epoch (UInt64.ofNat hashes.length)
  let hashes : List H := hashes ++ updates.map LvmtDB.treeValueHash
  let (dbMerkle, merkleRoot) ←
    LvmtDB.finishEpoch ledger.dbMerkle epoch hashes config.onlyMerkleRoot
  some ((amtRoot, merkleRoot), ⟨forest, ledger.dbKey.writeBuffered writeOps, dbMerkle, []⟩)

/-- What a commit does, step by step. -/
theorem commit_eq_some {config : LvmtConfig G G₂ depths} {ledger next : Ledger G depths}
    {roots : G × H} (done : ledger.commit config = some (roots, next)) :
    ∃ epoch forest writeOps updates after dbMerkle, ∃ hashes : List H,
      LvmtDB.currentEpoch ledger.dbMerkle = some epoch ∧
      ledger.uncommittedKeyValues.zipIdx.foldlM
        (LvmtDB.commitKey ledger.oldVersion
          (fun forest key version => forest.incKeyVer config.pp config.shardInfo key version) epoch)
        (ledger.forest, [], []) = some (forest, hashes, writeOps) ∧
      forest.commit config.pp config.shardInfo epoch (UInt64.ofNat hashes.length) =
        some ((roots.1, updates), after) ∧
      LvmtDB.finishEpoch ledger.dbMerkle epoch (hashes ++ updates.map LvmtDB.treeValueHash)
        config.onlyMerkleRoot = some (dbMerkle, roots.2) ∧
      next = ⟨after, ledger.dbKey.writeBuffered writeOps, dbMerkle, []⟩ := by
  rw [commit] at done
  obtain ⟨epoch, current, done⟩ := Option.bind_eq_some_iff.mp done
  obtain ⟨⟨forest, hashes, writeOps⟩, batch, done⟩ := Option.bind_eq_some_iff.mp done
  obtain ⟨⟨⟨amtRoot, updates⟩, after⟩, committed, done⟩ := Option.bind_eq_some_iff.mp done
  obtain ⟨⟨dbMerkle, merkleRoot⟩, finished, done⟩ := Option.bind_eq_some_iff.mp done
  obtain ⟨rfl, rfl⟩ := Prod.mk.inj (Option.some.inj done)
  exact ⟨epoch, forest, writeOps, updates, after, dbMerkle, hashes, current, batch, committed,
    finished, rfl⟩

/-- Flushing only clears the dirty flag of the root tree. -/
def flushRoot (ledger : Ledger G depths) : Ledger G depths :=
  { ledger with forest := Function.update ledger.forest .root (ledger.forest .root).clean }

/-! ### Proving -/

/-- Only trees that maintain every inner node can prove. -/
def proveAmtNode (shardInfo : Option (NodeIndex depths)) (forest : Forest G depths)
    (name : TreeName) (index : Nat) : Option (G × Node × AMTProof G) := do
  let index ← checkIndex depths index
  if Forest.shardRoot shardInfo name = some NodeIndex.root then
    some ((forest name).commitment, (forest name).data index, (forest name).proofOf index)
  else
    none

/-- The proof at the level where the key has its slot. -/
def proveBottom (shardInfo : Option (NodeIndex depths)) (ledger : Ledger G depths) (key : Key)
    (value : Value) : Option (LevelProof G H) := do
  let (merkleEpoch, merkleProof) ← LvmtDB.proveMerkle ledger.dbMerkle value.position
  let name ← key.treeAtLevel depths value.version.level.toNat
  let index ← key.indexAtLevel depths value.version.level.toNat
  let (commitment, node, amtProof) ← proveAmtNode shardInfo ledger.forest name index
  let nodeFrInt ← node.asFrInt
  let nodeVersion ← node.keyVersions.toList[value.version.slotIndex.toNat]?
  some ⟨merkleEpoch, merkleProof, amtProof, commitment, nodeFrInt, nodeVersion⟩

/-- The proof at a level above the key's slot. -/
def proveLevel (shardInfo : Option (NodeIndex depths)) (ledger : Ledger G depths) (key : Key)
    (level : Nat) : Option (LevelProof G H) := do
  let name ← key.treeAtLevel depths level
  let index ← key.indexAtLevel depths level
  let inside ← checkIndex depths index
  let (merkleEpoch, merkleProof) ←
    LvmtDB.proveMerkle ledger.dbMerkle ((ledger.forest name).data inside).treePosition
  let (commitment, node, amtProof) ← proveAmtNode shardInfo ledger.forest name index
  let nodeFrInt ← node.asFrInt
  some ⟨merkleEpoch, merkleProof, amtProof, commitment, nodeFrInt, node.treeVersion⟩

/-- The proofs of all levels for a key. -/
def prove (shardInfo : Option (NodeIndex depths)) (ledger : Ledger G depths) (key : Key) :
    Option (Proof G H) := do
  let bytes ← ledger.dbKey key.bytes.toList
  let value : Value ← fromBytesLocal bytes
  let bottom ← proveBottom shardInfo ledger key value
  let levelProofs ← (List.range value.version.level.toNat).reverse.foldlM
    (fun levelProofs level => do
      let levelProof ← proveLevel shardInfo ledger key level
      some (levelProof :: levelProofs)) [bottom]
  some (⟨some value.value, value.version⟩, levelProofs)

/-- The ledger and the result after a call. -/
def step (config : LvmtConfig G G₂ depths) (ledger : Ledger G depths) :
    LvmtOp → Option (Ledger G depths × LvmtOutput G H)
  | .set key value =>
    some ({ ledger with
      uncommittedKeyValues := ledger.uncommittedKeyValues ++ [(key, value)] }, .done)
  | .get key => do
    let value ← ledger.get key
    some (ledger, .value value)
  | .commit => do
    let ((amtRoot, merkleRoot), ledger) ← ledger.commit config
    some (ledger, .roots amtRoot merkleRoot)
  | .prove key => do
    let proof ← ledger.prove config.shardInfo key
    some (ledger, .proof proof)
  | .flushRoot => some (ledger.flushRoot, .done)

end Ledger

/-! ### What the database stands for -/

namespace LvmtDB

/-- The database stands for the ledger; cached values are those of the store. -/
structure Represents (db : LvmtDB G depths) (config : LvmtConfig G G₂ depths)
    (ledger : Ledger G depths) : Prop where
  versionTree : db.versionTree.Represents ledger.forest
  stored : VersionTree.Stored db.versionTree.db config.shardInfo ledger.forest
  shardInfo : db.versionTree.shardNode = config.shardInfo
  dbKey : db.dbKey = ledger.dbKey
  dbMerkle : db.dbMerkle = ledger.dbMerkle
  uncommitted : db.uncommittedKeyValues = ledger.uncommittedKeyValues
  onlyMerkleRoot : db.onlyMerkleRoot = config.onlyMerkleRoot
  cached : ∀ key value dirty, db.cache.lookup key = some (value, dirty) →
    loadValue db.dbKey key = some value

variable {db : LvmtDB G depths} {config : LvmtConfig G G₂ depths} {ledger : Ledger G depths}

theorem new_represents_empty (config : LvmtConfig G G₂ depths) :
    ∃ opened : LvmtDB G depths, new KeyValueDB.empty config.onlyMerkleRoot config.shardInfo =
        some opened ∧ opened.Represents config Ledger.empty := by
  obtain ⟨versionTree, opened, represents, sameDb, sameShard⟩ :=
    VersionTree.new_represents_empty (G := G) config.shardInfo
  have done : new KeyValueDB.empty config.onlyMerkleRoot config.shardInfo =
      some (LvmtDB.mk versionTree .empty .empty ∅ [] config.onlyMerkleRoot) := by
    rw [new]
    show (VersionTree.new DBColumn.empty config.shardInfo).bind _ = _
    rw [opened]
    rfl
  refine ⟨_, done, ⟨represents, ?_, sameShard, rfl, rfl, rfl, rfl, fun key value dirty found => ?_⟩⟩
  · show VersionTree.Stored versionTree.db config.shardInfo Forest.empty
    rw [sameDb]
    exact VersionTree.stored_empty _
  · simp at found

theorem Represents.onlyProper (represents : db.Represents config ledger) :
    ledger.forest.OnlyProper := by
  intro name dirty
  cases name with
  | root => exact TreeName.proper_root depths
  | child parent index =>
    obtain ⟨info, inForest, -⟩ := represents.versionTree.dirty dirty
    exact represents.versionTree.proper inForest

theorem represents_of_new {opened : LvmtDB G depths}
    (isOpened : new KeyValueDB.empty config.onlyMerkleRoot config.shardInfo = some opened) :
    opened.Represents config Ledger.empty := by
  obtain ⟨opened', isOpened', represents⟩ := new_represents_empty config
  rwa [Option.some.inj (isOpened.symm.trans isOpened')]

/-! ### Setting and getting -/

theorem Represents.get (represents : db.Represents config ledger) (key : Key) :
    Option.Rel (fun first second => first.1 = second ∧ first.2.Represents config ledger)
      (db.get key) (ledger.get key) := by
  rw [LvmtDB.get, Ledger.get, ← represents.dbKey]
  cases found : db.cache.lookup key with
  | some entry =>
    obtain ⟨value, dirty⟩ := entry
    rw [represents.cached key value dirty found]
    exact Option.Rel.some ⟨rfl, represents⟩
  | none =>
    cases loaded : loadValue db.dbKey key with
    | none => exact Option.Rel.none
    | some value =>
      refine Option.Rel.some ⟨rfl, { represents with cached := fun other value' dirty' found' => ?_ }⟩
      by_cases same : other = key
      · subst same
        simp only [AList.lookup_insert, Option.some.injEq, Prod.mk.injEq] at found'
        obtain ⟨rfl, -⟩ := found'
        exact loaded
      · rw [AList.lookup_insert_ne same] at found'
        exact represents.cached other value' dirty' found'

theorem Represents.oldVersion (represents : db.Represents config ledger) (key : Key) :
    db.oldVersion key = ledger.oldVersion key := by
  rw [LvmtDB.oldVersion, Ledger.oldVersion, ← represents.dbKey]
  cases found : db.cache.lookup key with
  | some entry =>
    obtain ⟨value, dirty⟩ := entry
    rw [represents.cached key value dirty found]
    rfl
  | none => rfl

/-! ### Commits -/

/-- The two sides while a commit goes through the pairs. -/
structure InStep (config : LvmtConfig G G₂ depths) (db : DBColumn)
    (first : VersionTree G depths × List H × List DBOp)
    (second : Forest G depths × List H × List DBOp) : Prop where
  represents : first.1.Represents second.1
  stored : VersionTree.Stored db config.shardInfo second.1
  sameShard : first.1.shardNode = config.shardInfo
  sameDb : first.1.db = db
  same : first.2 = second.2

theorem InStep.commitKey {column : DBColumn} {first : VersionTree G depths × List H × List DBOp}
    {second : Forest G depths × List H × List DBOp} (inStep : InStep config column first second)
    (oldVersion : Key → Option (Option VerInfo)) (epoch : UInt64)
    (entry : (Key × Vec UInt8) × Nat) :
    Option.Rel (InStep config column)
      (commitKey oldVersion (fun tree key version => tree.incKeyVer config.pp key version) epoch
        first entry)
      (commitKey oldVersion
        (fun forest key version => forest.incKeyVer config.pp config.shardInfo key version) epoch
        second entry) := by
  obtain ⟨versionTree, hashes, writeOps⟩ := first
  obtain ⟨forest, _⟩ := second
  obtain ⟨represents, stored, sameShard, sameDb, rfl⟩ := inStep
  obtain ⟨⟨key, value⟩, position⟩ := entry
  simp only [LvmtDB.commitKey, Option.bind_eq_bind]
  cases oldVersion key with
  | none => exact Option.Rel.none
  | some version =>
    have incremented := VersionTree.incKeyVer_refines config.pp represents key version
    rw [sameShard] at incremented
    rw [Option.bind_some, Option.bind_some]
    refine Option.rel_bind_some incremented ?_
    rintro ⟨verInfo, next⟩ ⟨_, after⟩ - done ⟨rfl, stands, nextDb, nextShard⟩
    exact Option.Rel.some ⟨stands, stored.incKeyVer done, nextShard.trans sameShard,
      nextDb.trans sameDb, rfl⟩

theorem Represents.commit (represents : db.Represents config ledger) :
    Option.Rel (fun first second => first.1 = second.1 ∧ first.2.Represents config second.2)
      (db.commit config.pp) (ledger.commit config : Option ((G × H) × Ledger G depths)) := by
  rw [LvmtDB.commit, Ledger.commit, represents.dbMerkle]
  cases currentEpoch ledger.dbMerkle with
  | none => exact Option.Rel.none
  | some epoch =>
    have oldVersions : db.oldVersion = ledger.oldVersion := funext represents.oldVersion
    have start : InStep config db.versionTree.db (db.versionTree, ([] : List H), [])
        (ledger.forest, [], []) :=
      ⟨represents.versionTree, represents.stored, represents.shardInfo, rfl, rfl⟩
    have steps : ∀ (first : VersionTree G depths × List H × List DBOp)
        (second : Forest G depths × List H × List DBOp),
        ∀ entry ∈ ledger.uncommittedKeyValues.zipIdx,
          InStep config db.versionTree.db first second →
            Option.Rel (InStep config db.versionTree.db) _ _ :=
      fun first second entry _ inStep => inStep.commitKey ledger.oldVersion epoch entry
    have batch := Option.rel_foldlM _ steps start
    simp only [Option.bind_eq_bind, Option.bind_some, represents.uncommitted, oldVersions]
    refine Option.rel_bind batch ?_
    rintro ⟨versionTree, hashes, writeOps⟩ ⟨forest, _⟩ ⟨stands, stored, sameShard, sameDb, rfl⟩
    have committed := VersionTree.commit_refines config.pp stands epoch
      (UInt64.ofNat hashes.length)
    rw [sameShard] at committed
    refine Option.rel_bind committed ?_
    rintro ⟨⟨amtRoot, updates⟩, next⟩ ⟨_, after⟩ ⟨rfl, nextStands, nextShard, nextStored⟩
    dsimp only
    rw [represents.onlyMerkleRoot, represents.dbKey]
    cases finishEpoch ledger.dbMerkle epoch (hashes ++ updates.map treeValueHash)
      config.onlyMerkleRoot with
    | none => exact Option.Rel.none
    | some finished =>
      rw [sameDb] at nextStored
      exact Option.Rel.some ⟨rfl, nextStands, nextStored stored, nextShard, rfl, rfl, rfl, rfl,
        fun key value dirty found => by simp at found⟩

/-! ### Proving -/

/-- Trees that were only read. -/
structure OnlyRead (versionTree next : VersionTree G depths) (forest : Forest G depths) :
    Prop where
  represents : next.Represents forest
  sameDb : next.db = versionTree.db
  sameShard : next.shardNode = versionTree.shardNode

section

variable {versionTree next : VersionTree G depths} {forest : Forest G depths}

theorem OnlyRead.trans {last : VersionTree G depths}
    (first : OnlyRead versionTree next forest) (second : OnlyRead next last forest) :
    OnlyRead versionTree last forest :=
  ⟨second.represents, second.sameDb.trans first.sameDb, second.sameShard.trans first.sameShard⟩

theorem Visited.onlyRead {name : TreeName} {info : TreeWithInfo G depths}
    (visited : VersionTree.Visited versionTree next forest name info)
    {tree : AMTree TreeName Node G depths}
    (stands : tree.Represents next.db name (Forest.shardRoot versionTree.shardNode name)
      (forest name)) : OnlyRead versionTree (next.setTree name info tree) forest := by
  have kept := visited.setTree stands ⟨rfl, fun clean => ⟨clean, rfl⟩⟩
  rw [Function.update_eq_self] at kept
  exact ⟨kept, visited.sameDb, visited.sameShard⟩

theorem proveAmtNode_refines (represents : versionTree.Represents forest) {name : TreeName}
    (proper : name.Proper depths) (index : Fin (2 ^ depths)) :
    Option.Rel (fun first second => first.1 = second ∧ OnlyRead versionTree first.2 forest)
      (proveAmtNode versionTree name index.val)
      (Ledger.proveAmtNode versionTree.shardNode forest name index.val) := by
  obtain ⟨info, next, visited_eq, visited⟩ := represents.visit proper
  obtain ⟨tree, read, stands⟩ := visited.stands.get index
  rw [proveAmtNode, Ledger.proveAmtNode, visited_eq, checkIndex_val]
  simp only [Option.bind_eq_bind, Option.bind_some, visited.stands.commitment, read]
  by_cases full : Forest.shardRoot versionTree.shardNode name = some NodeIndex.root
  · rw [full] at stands
    obtain ⟨proved, done, provedStands⟩ := stands.prove index.val
    rw [if_pos full, done]
    rw [← full] at provedStands
    exact Option.Rel.some ⟨rfl, Visited.onlyRead visited provedStands⟩
  · have cannot : tree.canProve = false := by
      rw [AMTree.canProve, stands.shardRootEq]
      exact decide_eq_false full
    rw [if_neg full, AMTree.prove, cannot]
    exact Option.Rel.none

theorem proveBottom_refines (le : depths ≤ 28)
    (represents : versionTree.Represents ledger.forest) (key : Key) (value : Value) :
    Option.Rel (fun first second => first.1 = second ∧ OnlyRead versionTree first.2 ledger.forest)
      (proveBottom ledger.dbMerkle versionTree key value)
      (ledger.proveBottom versionTree.shardNode key value : Option (LevelProof G H)) := by
  rw [proveBottom, Ledger.proveBottom]
  cases (proveMerkle ledger.dbMerkle value.position : Option (UInt64 × MerkleProof H)) with
  | none => exact Option.Rel.none
  | some merkle =>
    simp only [Option.bind_eq_bind, Option.bind_some]
    cases named : key.treeAtLevel depths value.version.level.toNat with
    | none => exact Option.Rel.none
    | some name =>
      cases indexed : key.indexAtLevel depths value.version.level.toNat with
      | none => exact Option.Rel.none
      | some index =>
        have proper := Key.proper_treeAtLevel le named
          (Nat.le_of_lt_succ value.version.level.toNat_lt)
        simp only [Option.bind_some]
        refine Option.rel_bind (proveAmtNode_refines represents proper
          ⟨index, Key.indexAtLevel_lt le indexed⟩) ?_
        rintro ⟨⟨commitment, node, amtProof⟩, next⟩ _ ⟨rfl, onlyRead⟩
        dsimp only
        cases node.asFrInt with
        | none => exact Option.Rel.none
        | some nodeFrInt =>
          rw [Option.bind_some, Option.bind_some]
          cases node.keyVersions.toList[value.version.slotIndex.toNat]? with
          | none => exact Option.Rel.none
          | some nodeVersion => exact Option.Rel.some ⟨rfl, onlyRead⟩

theorem proveLevel_refines (le : depths ≤ 28)
    (represents : versionTree.Represents ledger.forest) (key : Key)
    (levelProofs : List (LevelProof G H)) (level : Nat) (short : level ≤ 255) :
    Option.Rel
      (fun first second => first.1 = second ∧ OnlyRead versionTree first.2 ledger.forest)
      (proveLevel ledger.dbMerkle key (levelProofs, versionTree) level)
      ((ledger.proveLevel versionTree.shardNode key level).bind fun levelProof =>
        some (levelProof :: levelProofs)) := by
  rw [proveLevel, Ledger.proveLevel]
  cases named : key.treeAtLevel depths level with
  | none => exact Option.Rel.none
  | some name =>
    simp only [Option.bind_eq_bind, Option.bind_some]
    cases indexed : key.indexAtLevel depths level with
    | none => exact Option.Rel.none
    | some index =>
      have proper := Key.proper_treeAtLevel le named short
      obtain ⟨index, rfl⟩ : ∃ bounded : Fin (2 ^ depths), bounded.val = index :=
        ⟨⟨index, Key.indexAtLevel_lt le indexed⟩, rfl⟩
      obtain ⟨info, next, visited_eq, visited⟩ := represents.visit proper
      obtain ⟨tree, read, stands⟩ := visited.stands.get index
      have looked := Visited.onlyRead visited stands
      simp only [Option.bind_some, visited_eq, read, checkIndex_val]
      cases (proveMerkle ledger.dbMerkle ((ledger.forest name).data index).treePosition :
        Option (UInt64 × MerkleProof H)) with
      | none => exact Option.Rel.none
      | some merkle =>
        simp only [Option.bind_some, Option.bind_assoc]
        have proved := proveAmtNode_refines looked.represents proper index
        rw [looked.sameShard] at proved
        refine Option.rel_bind proved ?_
        rintro ⟨⟨commitment, node, amtProof⟩, last⟩ _ ⟨rfl, onlyRead⟩
        dsimp only
        cases node.asFrInt with
        | none => exact Option.Rel.none
        | some nodeFrInt => exact Option.Rel.some ⟨rfl, looked.trans onlyRead⟩

end

theorem Represents.prove (represents : db.Represents config ledger) (key : Key) :
    Option.Rel (fun first second => first.1 = second ∧ first.2.Represents config ledger)
      (db.prove key) (ledger.prove config.shardInfo key : Option (Proof G H)) := by
  have le := config.pp.depths_le
  rw [LvmtDB.prove, Ledger.prove, represents.dbKey, represents.dbMerkle]
  cases ledger.dbKey key.bytes.toList with
  | none => exact Option.Rel.none
  | some bytes =>
    simp only [Option.bind_eq_bind, Option.bind_some]
    cases (fromBytesLocal bytes : Option Value) with
    | none => exact Option.Rel.none
    | some value =>
      rw [Option.bind_some, Option.bind_some, ← represents.shardInfo]
      have bottom := proveBottom_refines (H := H) le represents.versionTree key value
      refine Option.rel_bind bottom ?_
      rintro ⟨bottom, versionTree⟩ _ ⟨rfl, looked⟩
      have steps : ∀ (first : List (LevelProof G H) × VersionTree G depths)
          (second : List (LevelProof G H)),
          ∀ level ∈ (List.range value.version.level.toNat).reverse,
            first.1 = second ∧ OnlyRead db.versionTree first.2 ledger.forest →
              Option.Rel (fun first second => first.1 = second ∧
                  OnlyRead db.versionTree first.2 ledger.forest)
                (proveLevel ledger.dbMerkle key first level)
                ((ledger.proveLevel db.versionTree.shardNode key level).bind fun levelProof =>
                  some (levelProof :: second)) := by
        rintro ⟨levelProofs, middle⟩ _ level member ⟨rfl, looked⟩
        have inside := List.mem_range.mp (List.mem_reverse.mp member)
        have small := value.version.level.toNat_lt
        have proved := proveLevel_refines le looked.represents key levelProofs level (by omega)
        rw [looked.sameShard] at proved
        exact proved.imp fun _ _ both => ⟨both.1, looked.trans both.2⟩
      refine Option.rel_bind (Option.rel_foldlM _ steps ⟨rfl, looked⟩) ?_
      rintro ⟨levelProofs, last⟩ _ ⟨rfl, onlyRead⟩
      have stored := represents.stored
      have cached := represents.cached
      rw [← onlyRead.sameDb] at stored
      rw [represents.dbKey] at cached
      exact Option.Rel.some ⟨rfl, onlyRead.represents, stored,
        onlyRead.sameShard.trans represents.shardInfo, rfl, rfl, represents.uncommitted,
        represents.onlyMerkleRoot, cached⟩

/-! ### Flushing -/

theorem Represents.flushRoot (represents : db.Represents config ledger) :
    ∃ next, db.flushRoot = some next ∧ next.Represents config ledger.flushRoot := by
  obtain ⟨versionTree, flushed, stands, sameShard, stored, -⟩ :=
    VersionTree.flushAll_refines config.pp.depths_le represents.versionTree
      (by rw [represents.shardInfo]; exact represents.stored)
  rw [represents.shardInfo] at stored
  refine ⟨{ db with versionTree }, ?_, { represents with
    versionTree := stands
    stored := stored
    shardInfo := sameShard.trans represents.shardInfo }⟩
  rw [LvmtDB.flushRoot, flushed]
  rfl

/-- Every operation on the database is the one on the ledger. -/
theorem Represents.step (represents : db.Represents config ledger) (op : LvmtOp) :
    Option.Rel (fun first second => first.1.Represents config second.1 ∧ first.2 = second.2)
      (db.step config.pp op)
      (ledger.step config op : Option (Ledger G depths × LvmtOutput G H)) := by
  cases op with
  | set key value =>
    refine Option.Rel.some ⟨{ represents with uncommitted := ?_ }, rfl⟩
    exact congrArg (· ++ [(key, value)]) represents.uncommitted
  | get key =>
    refine Option.rel_bind (represents.get key) ?_
    rintro ⟨value, next⟩ _ ⟨rfl, stands⟩
    exact Option.Rel.some ⟨stands, rfl⟩
  | commit =>
    refine Option.rel_bind represents.commit ?_
    rintro ⟨⟨amtRoot, merkleRoot⟩, next⟩ ⟨_, after⟩ ⟨rfl, stands⟩
    exact Option.Rel.some ⟨stands, rfl⟩
  | prove key =>
    refine Option.rel_bind (represents.prove key) ?_
    rintro ⟨proof, next⟩ _ ⟨rfl, stands⟩
    exact Option.Rel.some ⟨stands, rfl⟩
  | flushRoot =>
    obtain ⟨next, flushed, stands⟩ := represents.flushRoot
    rw [LvmtDB.step, flushed]
    exact Option.Rel.some ⟨stands, rfl⟩

theorem Represents.run (represents : db.Represents config ledger) (ops : List LvmtOp) :
    Option.Rel (fun first second => first.1.Represents config second.1 ∧ first.2 = second.2)
      (PartialRun.run (LvmtDB.step config.pp) db ops)
      (PartialRun.run (Ledger.step config) ledger ops :
        Option (Ledger G depths × List (LvmtOutput G H))) :=
  PartialRun.run_rel (fun db ledger => Represents db config ledger)
    (fun _ _ op represents => represents.step op) represents ops

/-- A run of the database is one of the ledger. -/
theorem Represents.of_run (represents : db.Represents config ledger) {final : LvmtDB G depths}
    {ops : List LvmtOp} {outputs : List (LvmtOutput G H)}
    (done : PartialRun.run (LvmtDB.step config.pp) db ops = some (final, outputs)) :
    ∃ after, PartialRun.run (Ledger.step config) ledger ops = some (after, outputs) ∧
      final.Represents config after := by
  have simulated := represents.run (H := H) ops
  rw [done] at simulated
  obtain ⟨⟨after, _⟩, ran, stands, rfl⟩ := simulated.of_some_left
  exact ⟨after, ran, stands⟩

/-- A run that ends with a commit. -/
theorem run_commit_eq_some {pp : AMTParams G G₂ depths} {start committed : LvmtDB G depths}
    {ops : List LvmtOp} {outputs : List (LvmtOutput G H)}
    (done : PartialRun.run (LvmtDB.step pp) start (ops ++ [.commit]) = some (committed, outputs)) :
    ∃ (before : LvmtDB G depths) (earlier : List (LvmtOutput G H)) (roots : G × H),
      PartialRun.run (LvmtDB.step pp) start ops = some (before, earlier) ∧
      before.commit pp = some (roots, committed) := by
  rw [PartialRun.run_append] at done
  obtain ⟨⟨before, earlier⟩, isBefore, done⟩ := Option.bind_eq_some_iff.mp done
  obtain ⟨⟨last, outs⟩, stepped, same⟩ := Option.map_eq_some_iff.mp done
  obtain ⟨rfl, -⟩ := Prod.mk.inj same
  obtain ⟨middle, output, others, lastStep, tail, -⟩ := PartialRun.run_cons_eq_some.mp stepped
  simp only [PartialRun.run_nil, Option.some.injEq, Prod.mk.injEq] at tail
  obtain ⟨rfl, -⟩ := tail
  obtain ⟨⟨roots, committed'⟩, isCommit, sameState⟩ := Option.bind_eq_some_iff.mp lastStep
  obtain ⟨rfl, -⟩ := Prod.mk.inj (Option.some.inj sameState)
  exact ⟨before, earlier, roots, isBefore, isCommit⟩

end LvmtDB

end AuthStorage.Lvmt
