/-
This file models `multi_layer_amt/tree.rs`: the forest of version trees. Trees
are created when first visited; a visit marks the tree in its ancestors and
stops climbing at the first ancestor that is marked already. A commit follows
the marks, depth first and in the order of the indices, and moves each changed
tree's version, position and commitment into its parent.
-/

import AuthStorage.Lvmt.MultiLayerAmt

namespace AuthStorage.Lvmt

/-- Addition of `u64`; an overflow panics. -/
def checkedAdd (first second : UInt64) : Option UInt64 :=
  if first.toNat + second.toNat < 2 ^ 64 then some (first + second) else none

/-- Where the commitment of the root tree is stored. -/
def ROOT_KEY : Bytes := [0, 0]

/-- `MAX_VERSION_NUMBER`. -/
def maxVersionNumber : UInt64 := ((1 : UInt64) <<< 40) - 1

/-- A loaded tree: whether its parent knows that it changed, and which of its children changed. -/
structure TreeWithInfo (G : Type) (depths : Nat) where
  tree : AMTree TreeName Node G depths
  markInParent : Bool
  childrenMarks : List UInt32

/-- `layers` is the number of layers allocated; a layer holds the trees with names of one
length. -/
structure VersionTree (G : Type) (depths : Nat) where
  db : DBColumn
  forest : TreeName → Option (TreeWithInfo G depths)
  layers : Nat
  shardNode : Option (NodeIndex depths)

variable {G G₂ : Type} {depths : Nat}

/-! ### Producing trees -/

/-- The first index of the name; the root's own name has none. -/
def TreeName.firstIndex : TreeName → Option UInt32
  | root => none
  | child root index => some index
  | child (child parent index) _ => firstIndex (child parent index)

/-- The shard a new tree maintains; the leaf of the root tree is taken by its plain index. -/
def shardRootOf (shardNode : Option (NodeIndex depths)) (name : TreeName) :
    Option (Option (NodeIndex depths)) :=
  match shardNode with
  | none => some none
  | some shardNode =>
    match name.firstIndex with
    | none => some (some shardNode)
    | some index => do
      let index ← checkIndex depths index.toNat
      some (if (NodeIndex.leaf index).needsMaintain shardNode then some .root else none)

/-- A tree that is not loaded yet, with its part of the shard. -/
def newTree (shardNode : Option (NodeIndex depths)) (name : TreeName) :
    Option (AMTree TreeName Node G depths) :=
  (shardRootOf shardNode name).map fun shardRoot => .new name shardRoot

/-- A tree that is just loaded has no marks. -/
def newTreeWithInfo (shardNode : Option (NodeIndex depths)) (name : TreeName) :
    Option (TreeWithInfo G depths) :=
  (newTree shardNode name).map fun tree => ⟨tree, false, []⟩

namespace VersionTree

/-- Put a tree into the forest. -/
def insert (versionTree : VersionTree G depths) (name : TreeName)
    (info : TreeWithInfo G depths) : VersionTree G depths :=
  { versionTree with forest := Function.update versionTree.forest name (some info) }

@[simp] theorem insert_forest_self (versionTree : VersionTree G depths) (name : TreeName)
    (info : TreeWithInfo G depths) : (versionTree.insert name info).forest name = some info :=
  Function.update_self _ _ _

theorem insert_forest_of_ne {versionTree : VersionTree G depths} {name other : TreeName}
    {info : TreeWithInfo G depths} (different : other ≠ name) :
    (versionTree.insert name info).forest other = versionTree.forest other :=
  Function.update_of_ne different _ _

variable [Curve G]

/-- The commitment the root tree was flushed with. -/
def rootCommitment (db : DBColumn) : Option G :=
  match db ROOT_KEY with
  | none => some 0
  | some bytes => fromBytesLocal bytes

/-- Open the forest over a column. The root tree is always loaded. -/
def new (db : DBColumn) (shardNode : Option (NodeIndex depths)) :
    Option (VersionTree G depths) := do
  let root ← rootCommitment db
  let tree ← newTree shardNode .root
  let rootTree : TreeWithInfo G depths := ⟨tree.setCommitment root, true, []⟩
  some
    { db := db
      forest := Function.update (fun _ => none) .root (some rootTree)
      layers := 1
      shardNode := shardNode }

/-! ### Visiting a tree -/

/-- The entry of a layer, created when vacant. -/
def entry (versionTree : VersionTree G depths) (name : TreeName) :
    Option (TreeWithInfo G depths) :=
  match versionTree.forest name with
  | some info => some info
  | none => newTreeWithInfo versionTree.shardNode name

/-- Mark a child in its parent, and give it the commitment its parent knows. -/
def linkChild (versionTree : VersionTree G depths) (parent : TreeName) (index : UInt32)
    (last ancestor : TreeWithInfo G depths) (root : G) (tree : AMTree TreeName Node G depths) :
    VersionTree G depths :=
  (versionTree.insert parent
    { tree := tree
      markInParent := true
      childrenMarks := ancestor.childrenMarks.insert index }).insert (.child parent index)
    { last with tree := last.tree.setCommitment root }

/-- The loop over the ancestors. Each tree takes its commitment from its parent; the loop stops
at the first ancestor that was marked before. -/
def climb : TreeName → VersionTree G depths → Option (VersionTree G depths)
  | .root, versionTree => some versionTree
  | .child parent index, versionTree => do
    let last ← versionTree.forest (.child parent index)
    let ancestor ← versionTree.entry parent
    let (root, tree) ← ancestor.tree.subtreeRoot versionTree.db index.toNat
    let versionTree := versionTree.linkChild parent index last ancestor root tree
    if ancestor.markInParent then some versionTree else climb parent versionTree

/-- `get_tree_mut`; afterwards the tree is in the forest. -/
def getTreeMut (versionTree : VersionTree G depths) (name : TreeName) :
    Option (VersionTree G depths) := do
  let info ← versionTree.entry name
  let versionTree := { versionTree with layers := max versionTree.layers (name.length + 1) }
  if info.markInParent then
    some (versionTree.insert name info)
  else
    climb name (versionTree.insert name { info with markInParent := true })

/-- The visited tree together with the forest it sits in. -/
def visit (versionTree : VersionTree G depths) (name : TreeName) :
    Option (TreeWithInfo G depths × VersionTree G depths) := do
  let versionTree ← versionTree.getTreeMut name
  let info ← versionTree.forest name
  some (info, versionTree)

/-- Put a changed tree back. -/
def setTree (versionTree : VersionTree G depths) (name : TreeName) (info : TreeWithInfo G depths)
    (tree : AMTree TreeName Node G depths) : VersionTree G depths :=
  versionTree.insert name { info with tree := tree }

/-! ### Versions of keys -/

/-- `key_versions[slot_index] += 1`. -/
def bumpKeyVersion (node : Node) (slotIndex : Nat) : Option Node := do
  let version ← node.keyVersions.toList[slotIndex]?
  let version ← checkedAdd version 1
  some { node with
    keyVersions := ⟨node.keyVersions.toList.set slotIndex version, by
      rw [List.length_set]
      exact node.keyVersions.length_lt⟩ }

/-- A power of two as an integer. -/
def frIntPow2 (power : Nat) : FrInt := FrInt.muln 1 power

/-- One level of the search for a vacant slot. -/
def allocateAt (pp : AMTParams G G₂ depths) (versionTree : VersionTree G depths) (key : Key)
    (level : Nat) : Option (Option VerInfo × VersionTree G depths) := do
  let name ← key.treeAtLevel depths level
  let (info, versionTree) ← versionTree.visit name
  let nodeIndex ← key.indexAtLevel depths level
  let (node, tree) ← info.tree.get versionTree.db nodeIndex
  if node.keyVersions.len < 5 then
    let guard ← tree.writeVersions versionTree.db nodeIndex
    let slotIndex := guard.value.keyVersions.len
    let keyVersions ← guard.value.keyVersions.push 0
    let tree ← { guard with value := { guard.value with keyVersions } }.drop pp versionTree.db
    some (some ⟨0, UInt8.ofNat level, UInt8.ofNat slotIndex⟩, versionTree.setTree name info tree)
  else
    some (none, versionTree.setTree name info tree)

/-- The loop over the levels; it panics when every level is full. -/
def allocateFrom (pp : AMTParams G G₂ depths) (key : Key) :
    List Nat → VersionTree G depths → Option (VerInfo × VersionTree G depths)
  | [], _ => none
  | level :: rest, versionTree => do
    let (found, versionTree) ← allocateAt pp versionTree key level
    match found with
    | some verInfo => some (verInfo, versionTree)
    | none => allocateFrom pp key rest versionTree

/-- The first slot that is free on the path of a key; there are 32 levels at most. -/
def allocateVacantSlot (pp : AMTParams G G₂ depths) (versionTree : VersionTree G depths)
    (key : Key) : Option (VerInfo × VersionTree G depths) :=
  allocateFrom pp key (List.range 32) versionTree

/-- Is the key's leaf of the root tree in the maintained shard? -/
def inProofShard (shardNode : Option (NodeIndex depths)) (key : Key) : Option Bool :=
  match shardNode with
  | none => some false
  | some shardNode => do
    let index ← key.indexAtLevel depths 0
    let index ← checkIndex depths index
    some ((NodeIndex.leaf index).needsMaintain shardNode)

/-- The write to the slot: the leaf has to be maintained only for proofs. -/
def writeSlot (pp : AMTParams G G₂ depths) (tree : AMTree TreeName Node G depths) (db : DBColumn)
    (inShard : Bool) (node slotIndex : Nat) : Option (AMTree TreeName Node G depths) :=
  if inShard then do
    let guard ← tree.writeVersions db node
    let value ← bumpKeyVersion guard.value slotIndex
    { guard with value }.drop pp db
  else
    tree.update pp db node (frIntPow2 ((slotIndex + 1) * 40))

/-- Count the version of a key up, and mark its tree. A key without a slot gets one first. -/
def incKeyVer (pp : AMTParams G G₂ depths) (versionTree : VersionTree G depths) (key : Key)
    (version : Option VerInfo) : Option (VerInfo × VersionTree G depths) := do
  let (verInfo, versionTree) ← match version with
    | none => versionTree.allocateVacantSlot pp key
    | some verInfo => some (verInfo, versionTree)
  let name ← key.treeAtLevel depths verInfo.level.toNat
  let (info, versionTree) ← versionTree.visit name
  let node ← key.indexAtLevel depths verInfo.level.toNat
  let inShard ← inProofShard versionTree.shardNode key
  let tree ← writeSlot pp info.tree versionTree.db inShard node verInfo.slotIndex.toNat
  if verInfo.version < maxVersionNumber then
    some ({ verInfo with version := verInfo.version + 1 }, versionTree.setTree name info tree)
  else
    none

/-! ### Commits -/

/-- What a commit reports of a changed tree: its name, its version and its commitment. -/
abbrev SubTreeUpdate (G : Type) := TreeName × UInt64 × G

/-- Move a changed child's commitment, version and position into its parent. -/
def recordChild (pp : AMTParams G G₂ depths) (epoch startPos : UInt64) (name : TreeName)
    (index : UInt32) (commitment : G)
    (state : VersionTree G depths × List (SubTreeUpdate G)) :
    Option (VersionTree G depths × List (SubTreeUpdate G)) := do
  let (versionTree, updates) := state
  let info ← versionTree.forest name
  let tree ← info.tree.setSubtreeRoot versionTree.db index.toNat commitment
  let guard ← tree.writeVersions versionTree.db index.toNat
  let treeVersion ← checkedAdd guard.value.treeVersion 1
  let position ← checkedAdd startPos (UInt64.ofNat updates.length)
  let value := { guard.value with treeVersion, treePosition := ⟨epoch, position⟩ }
  let tree ← { guard with value }.drop pp versionTree.db
  some (versionTree.setTree name info tree, updates ++ [(name.child index, treeVersion, commitment)])

/-- The end of a visit: clear the marks, and flush every tree but the root. -/
def finishTree (name : TreeName) (state : VersionTree G depths × List (SubTreeUpdate G)) :
    Option ((Bool × G) × (VersionTree G depths × List (SubTreeUpdate G))) := do
  let (versionTree, updates) := state
  let info ← versionTree.forest name
  let dirty := info.tree.dirty
  if name.length > 0 then
    let (commitment, db, tree) ← info.tree.flush versionTree.db
    some ((dirty, commitment), ({ versionTree with db }.insert name ⟨tree, false, []⟩, updates))
  else
    let commitment ← info.tree.commitment
    some ((dirty, commitment), (versionTree.insert name ⟨info.tree, false, []⟩, updates))

/-- The recursion runs over the remaining layers. -/
def commitTree (pp : AMTParams G G₂ depths) (epoch startPos : UInt64) :
    Nat → TreeName → VersionTree G depths × List (SubTreeUpdate G) →
      Option ((Bool × G) × (VersionTree G depths × List (SubTreeUpdate G)))
  | 0, _, _ => none
  | layers + 1, name, state => do
    let info ← state.1.forest name
    let indices := info.childrenMarks.insertionSort (· ≤ ·)
    let state ← indices.foldlM (fun state index => do
      let ((dirty, commitment), state) ←
        commitTree pp epoch startPos layers (name.child index) state
      if dirty then recordChild pp epoch startPos name index commitment state else some state) state
    finishTree name state

/-- Commit every changed tree, the children of a tree before the tree. -/
def commit (pp : AMTParams G G₂ depths) (versionTree : VersionTree G depths)
    (epoch startPos : UInt64) :
    Option ((G × List (SubTreeUpdate G)) × VersionTree G depths) := do
  let ((_, commitment), (versionTree, updates)) ←
    commitTree pp epoch startPos versionTree.layers .root (versionTree, [])
  some ((commitment, updates), versionTree)

/-- Flush the root tree and store its commitment. -/
def flushAll (versionTree : VersionTree G depths) : Option (VersionTree G depths) := do
  let (info, versionTree) ← versionTree.visit .root
  let (commitment, db, tree) ← info.tree.flush versionTree.db
  let versionTree := { versionTree with db }.setTree .root info tree
  some { versionTree with
    db := versionTree.db.writeBuffered [.insert ROOT_KEY (toBytesLocal commitment)] }

end VersionTree

end AuthStorage.Lvmt
