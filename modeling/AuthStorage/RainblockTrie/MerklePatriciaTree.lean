/-
This file models `rain_mpt.rs`: a trie whose nodes are read from the store where a
search needs them. A search leaves a stack of nodes from the root to the node
where it ended; a change is made there, and the nodes of the stack are linked
again. A commit writes the changed nodes below the top layer, and replaces what
lies deeper than the top layer by digests.
-/

import AuthStorage.RainblockTrie.TrieNodeExt

namespace AuthStorage.RainblockTrie

open AuthStorage.Lvmt (Bytes DBColumn DBOp)

/-- The root is in memory unless the tree is empty; `delOps` are the digests that the next commit
deletes. -/
structure MerklePatriciaTree (H : Type) where
  db : DBColumn
  root : Option (NodePtr H)
  delOps : List H

/-- A node on the way and the child the search went to. -/
abbrev Frame (H : Type) := NodePtr H × Nibble

/-- The stack of a search: the last node, and above it, the nearest first, the nodes whose child on
the way is the next one. -/
structure Stack (H : Type) where
  last : NodePtr H
  parents : List (Frame H)

/-- What a search found: whether a node ends at the key, and otherwise what is left of it. -/
structure SearchResult (H : Type) where
  stack : Stack H
  isMatched : Bool
  remainder : List Nibble

/-- What the search finds at one node. -/
inductive NextResult (H : Type) where
  | matched
  | notMatched
  /-- The node, with its child held now, the child and its position, and what is left of the key. -/
  | next (me : NodePtr H) (child : NodePtr H) (pos : Nibble) (nibbles : List Nibble)

/-- Where the digest of the root is stored; it is shorter than a digest. -/
def ROOT_KEY : Bytes := [0x80]

variable {H : Type} [RlpHasher H]

/-- The digest of the tree without a root. -/
def EMPTY_ROOT : H := RlpHasher.zero

/-! ### Searching -/

/-- What a node becomes when its child at `pos` is held, and whether the node is remembered for the
next commit. -/
def NextResult.follow (me child : NodePtr H) (pos : Nibble) (truncateOp : Bool)
    (nibbles : List Nibble) : Except (Panic H) (NextResult H) := do
  let node ← expect (me.node.setChild pos (.owned child))
  pure (.next ⟨node, { me.cells with loaded := me.cells.loaded || truncateOp }⟩ child pos nibbles)

/-- The step of the search from a node to its child; a child that is not in memory is loaded. -/
def TrieNode.next (N : Nat) (db : DBColumn) (me : NodePtr H) (nibbles : List Nibble)
    (depth : Nat) : Except (Panic H) (NextResult H) :=
  match me.node with
  | .branch children _ =>
    match nibbles with
    | [] => pure .matched
    | branchKey :: rest => do
      match ← (children branchKey).ownedOrLoad db with
      | some (next, isLoaded) => NextResult.follow me next branchKey (isLoaded && depth ≥ N) rest
      | none => pure .notMatched
  | .extension key child =>
    if key <+: nibbles then do
      let (next, isLoaded) ← expect (← child.ownedOrLoad db)
      NextResult.follow me next 0 (isLoaded && depth ≥ N) (nibbles.drop key.length)
    else
      pure .notMatched
  | .leaf key _ => pure (if key = nibbles then .matched else .notMatched)

namespace MerklePatriciaTree

/-- The loop of `search`. In a trie whose extensions have keys, every round but the last takes a
nibble. -/
def searchLoop (N : Nat) (db : DBColumn) : Nat → Stack H → List Nibble → Nat →
    Except (Panic H) (SearchResult H)
  | 0, _, _, _ => .error .endless
  | rounds + 1, stack, remainder, depth => do
    match ← TrieNode.next N db stack.last remainder depth with
    | .matched => pure ⟨stack, true, []⟩
    | .notMatched => pure ⟨stack, false, remainder⟩
    | .next me child pos rest =>
      searchLoop N db rounds ⟨child, (me, pos) :: stack.parents⟩ rest (depth + 1)

/-- The search for a key from the root. -/
def search (N : Nat) (db : DBColumn) (root : NodePtr H) (key : Bytes) :
    Except (Panic H) (SearchResult H) :=
  let remainder := bytesToNibbleList key
  searchLoop N db (remainder.length + 1) ⟨root, []⟩ remainder 1

/-- The trie after a search: the nodes of the stack are the trie's own, so their children are held
and their marks are set in the trie too. -/
def shared : NodePtr H → List (Frame H) → NodePtr H
  | last, [] => last
  | last, (node, pos) :: parents =>
    shared ⟨(node.node.setChild pos (.owned last)).getD node.node, node.cells⟩ parents

/-! ### Detaching and attaching -/

/-- From the root on, take every node of the stack for a change and cut it off its parent. -/
def resetPointers : List (Frame H) → List H → Except (Panic H) (List (Frame H) × List H)
  | [], delOps => .ok ([], delOps)
  | (node, childIdx) :: parents, delOps => do
    let (parents, delOps) ← resetPointers parents delOps
    let (node, delOps) := node.makeMut delOps
    let trieNode ← expect (node.node.setChild childIdx .null)
    pure ((⟨trieNode, node.cells⟩, childIdx) :: parents, delOps)

/-- From the last node up, make every node of the stack the child of the one above. -/
def recoverPointers : NodePtr H → List (Frame H) → List H → Except (Panic H) (NodePtr H × List H)
  | last, [], delOps => .ok (last, delOps)
  | last, (node, childIdx) :: parents, delOps => do
    let (node, delOps) := node.makeMut delOps
    let trieNode ← expect (node.node.setChild childIdx (.owned last))
    recoverPointers ⟨trieNode, node.cells⟩ parents delOps

/-! ### Inserting -/

/-- A new leaf below a new branch, or the value of the branch. -/
def placeLeaf (children : Nibble → ChildRef H) (value : Bytes) (key : List Nibble) (val : Bytes) :
    (Nibble → ChildRef H) × Bytes :=
  match key with
  | [] => (children, val)
  | idx :: rest => (Function.update children idx (TrieNode.newLeaf rest val).sealRef, value)

/-- The child of `insert_on_branch` that is there already moves below a new branch. -/
def insertOnChild (N : Nat) (prev : ChildRef H) (newChildren : Nibble → ChildRef H)
    (newValue : Bytes) (depth : Nat) (delOps : List H) :
    Except (Panic H) (TrieNode (ChildRef H) × List H) :=
  match prev with
  | .owned node =>
    let (node, delOps) := node.makeMut delOps
    match node.node with
    | .leaf key value =>
      let placed := placeLeaf newChildren newValue key value
      .ok (.branch placed.1 placed.2, delOps)
    | .extension key child =>
      match key with
      | firstKey :: rest =>
        let moved : ChildRef H := .exile N (depth + 2) (.owned ⟨.extension rest child, node.cells⟩)
        .ok (.branch (Function.update newChildren firstKey moved) newValue, delOps)
      | [] => .error .failed
    | .branch _ _ => .error .failed
  | _ => .error .failed

/-- A key that goes on below a branch, or ends at it. -/
def insertOnBranch (N : Nat) (children : Nibble → ChildRef H) (value : Bytes)
    (remainder : List Nibble) (val : Bytes) (depth : Nat) (delOps : List H) :
    Except (Panic H) (TrieNode (ChildRef H) × List H) :=
  match remainder with
  | [] => .error .failed
  | first :: rest =>
    if (children first).isNull then
      .ok (.branch (Function.update children first (TrieNode.newLeaf rest val).sealRef) value,
        delOps)
    else do
      let placed := placeLeaf (fun _ => (ChildRef.null : ChildRef H)) [] rest val
      let (newBranchNode, delOps) ←
        insertOnChild N (children first) placed.1 placed.2 depth delOps
      pure (.branch (Function.update children first newBranchNode.sealRef) value, delOps)

/-- The child of a split extension, below the rest of the extension's key. -/
def lengthenChild (N : Nat) (db : DBColumn) (child : ChildRef H) (extKeyRest : List Nibble)
    (depth : Nat) (delOps : List H) : Except (Panic H) (ChildRef H × List H) :=
  if extKeyRest = [] then
    .ok (child, delOps)
  else do
    let childNode ← child.loadedMut db
    match childNode.node with
    | .branch _ _ =>
      let moved := ChildRef.exile N (depth + 2) (.owned childNode)
      pure ((TrieNode.newExtention extKeyRest moved).sealRef, delOps)
    | _ =>
      let (node, delOps) := childNode.makeMut delOps
      let trieNode ← expect (node.node.addPrefixKey extKeyRest)
      pure (.owned ⟨trieNode, node.cells⟩, delOps)

/-- A key that leaves an extension: the extension is split at the place. -/
def insertOnExtension (N : Nat) (db : DBColumn) (extKey : List Nibble) (child : ChildRef H)
    (remainder : List Nibble) (val : Bytes) (depth : Nat) (delOps : List H) :
    Except (Panic H) (TrieNode (ChildRef H) × List H) := do
  let intersection := commonPrefix remainder extKey
  -- the key of the extension is not consumed, or the search had gone on
  match extKey.drop intersection.length with
  | [] => .error .failed
  | extKeyNext :: extKeyRest =>
    let (child, delOps) ← lengthenChild N db child extKeyRest depth delOps
    let moved := ChildRef.exile N (depth + 2) child
    let placed := placeLeaf (Function.update (fun _ => .null) extKeyNext moved) []
      (remainder.drop intersection.length) val
    let newBranchNode : TrieNode (ChildRef H) := .branch placed.1 placed.2
    if intersection = [] then
      pure (newBranchNode, delOps)
    else
      pure (.extension intersection newBranchNode.sealRef, delOps)

/-- A key that leaves a leaf: both go below a new branch. -/
def insertOnLeaf (leafKey : List Nibble) (leafValue : Bytes) (remainder : List Nibble)
    (val : Bytes) : TrieNode (ChildRef H) :=
  let intersection := commonPrefix remainder leafKey
  let placed := placeLeaf (fun _ => .null) [] (remainder.drop intersection.length) val
  let both := placeLeaf placed.1 placed.2 (leafKey.drop intersection.length) leafValue
  let newBranchNode : TrieNode (ChildRef H) := .branch both.1 both.2
  if intersection = [] then newBranchNode
  else TrieNode.newExtention intersection newBranchNode.sealRef

/-- A key is put below the node at which its search ended. -/
def insert (N : Nat) (db : DBColumn) (lastNode : TrieNode (ChildRef H))
    (remainder : List Nibble) (val : Bytes) (depth : Nat) (delOps : List H) :
    Except (Panic H) (TrieNode (ChildRef H) × List H) :=
  match lastNode with
  | .branch children value => insertOnBranch N children value remainder val depth delOps
  | .extension key child => insertOnExtension N db key child remainder val depth delOps
  | .leaf key value => .ok (insertOnLeaf key value remainder val, delOps)

/-! ### Removing -/

/-- `only_child_mut`. -/
def onlyChild (children : Nibble → ChildRef H) : Option Nibble :=
  match (List.finRange 16).filter fun idx => !(children idx).isNull with
  | [idx] => some idx
  | _ => none

/-- The branch has no child. -/
def noChild (children : Nibble → ChildRef H) : Bool :=
  (List.finRange 16).all fun idx => (children idx).isNull

/-- The node that stands for a branch with one child: the child with a longer key, or an extension
to it. -/
def dropSingleChildBranch (db : DBColumn) (idx : Nibble) (childRef : ChildRef H)
    (delOps : List H) : Except (Panic H) (TrieNode (ChildRef H) × List H) := do
  let child ← childRef.loadedMut db
  if child.node.key.isSome then
    let (child, delOps) := child.makeMut delOps
    let trieNode ← expect (child.node.addPrefixKey [idx])
    pure (trieNode, delOps)
  else
    pure (TrieNode.newExtention [idx] (.owned child), delOps)

/-- A leaf or extension below an extension takes over the key of the extension. -/
def pushNonBranchToStack (node : TrieNode (ChildRef H)) (parents : List (Frame H)) :
    Except (Panic H) (Stack H) :=
  match parents with
  | [] => .ok ⟨node.sealNode, []⟩
  | (lastParent, idx) :: up =>
    match lastParent.node with
    | .extension extKey _ => do
      let node ← expect (node.addPrefixKey extKey)
      pure ⟨node.sealNode, up⟩
    | _ => .ok ⟨node.sealNode, (lastParent, idx) :: up⟩

/-- A branch with one child and no value is dropped from the stack, any other stays. -/
def settleBranch (db : DBColumn) (branch : NodePtr H) (children : Nibble → ChildRef H)
    (parents : List (Frame H)) (delOps : List H) : Except (Panic H) (Stack H × List H) :=
  match onlyChild children with
  | some idx => do
    let (connectNode, delOps) ← dropSingleChildBranch db idx (children idx) delOps
    let stack ← pushNonBranchToStack connectNode parents
    pure (stack, delOps)
  | none => .ok (⟨branch, parents⟩, delOps)

/-- The stack after the last node lost its value; there is none left if the trie is empty. -/
def remove (db : DBColumn) (stack : Stack H) (delOps : List H) :
    Except (Panic H) (Option (Stack H) × List H) :=
  let (last, delOps) := stack.last.makeMut delOps
  match last.node with
  | .branch children _ => do
    let (stack, delOps) ←
      settleBranch db ⟨.branch children [], last.cells⟩ children stack.parents delOps
    pure (some stack, delOps)
  | .leaf _ _ =>
    match stack.parents with
    | [] => .ok (none, delOps)
    | (lastParent, idx) :: parents =>
      let (lastParent, delOps) := lastParent.makeMut delOps
      -- the parent of a leaf is a branch
      match lastParent.node with
      | .branch children value => do
        let children := Function.update children idx .null
        let branch : NodePtr H := ⟨.branch children value, lastParent.cells⟩
        if value = [] then
          let (stack, delOps) ← settleBranch db branch children parents delOps
          pure (some stack, delOps)
        else if noChild children then
          let stack ← pushNonBranchToStack (TrieNode.newLeaf [] value) parents
          pure (some stack, delOps)
        else
          pure (some ⟨branch, parents⟩, delOps)
      | _ => .error .failed
  | .extension _ _ => .error .failed

/-! ### The interface -/

/-- Without a top layer, `N - 1` has no value. -/
def new (N : Nat) (db : DBColumn) : Except (Panic H) (MerklePatriciaTree H) :=
  match db ROOT_KEY with
  | none => .ok ⟨db, none, []⟩
  | some digest => do
    let digest ← expect (RlpHasher.fromBytes digest)
    let node ← TrieNodeExt.load db digest
    if N = 0 then .error .failed
    else
      let node ← node.loadChildren db (N - 1)
      pure ⟨db, some node, []⟩

/-- `root` computes the digest and leaves it in the cells. -/
def rootHash (tree : MerklePatriciaTree H) : Option H × MerklePatriciaTree H :=
  (tree.root.map TrieNodeExt.hash, { tree with root := tree.root.map TrieNodeExt.fillHash })

/-- A read keeps the nodes that it loads. -/
def get (N : Nat) (tree : MerklePatriciaTree H) (key : Bytes) :
    Except (Panic H) (Option Bytes × MerklePatriciaTree H) :=
  if key = [] then
    .error .failed
  else
    match tree.root with
    | none => .ok (none, tree)
    | some root => do
      let result ← search N tree.db root key
      let found := if result.isMatched then result.stack.last.node.value else none
      pure (found, { tree with root := some (shared result.stack.last result.stack.parents) })

/-- Link the stack of a change again. -/
def relink (tree : MerklePatriciaTree H) (stack : Option (Stack H)) (delOps : List H) :
    Except (Panic H) (MerklePatriciaTree H) :=
  match stack with
  | none => .ok { tree with root := none, delOps := delOps }
  | some stack => do
    let (root, delOps) ← recoverPointers stack.last stack.parents delOps
    pure { tree with root := some root, delOps := delOps }

/-- Remove a key; a key that is not there changes nothing but what is loaded. -/
def del (N : Nat) (tree : MerklePatriciaTree H) (key : Bytes) :
    Except (Panic H) (MerklePatriciaTree H) :=
  match tree.root with
  | none => .ok tree
  | some root => do
    let result ← search N tree.db root key
    if result.isMatched then
      let (parents, delOps) ← resetPointers result.stack.parents tree.delOps
      let (stack, delOps) ← remove tree.db ⟨result.stack.last, parents⟩ delOps
      relink tree stack delOps
    else
      pure { tree with root := some (shared result.stack.last result.stack.parents) }

/-- The last node of the stack takes the value, or makes room for it. -/
def putLast (N : Nat) (tree : MerklePatriciaTree H) (result : SearchResult H) (val : Bytes) :
    Except (Panic H) (MerklePatriciaTree H) := do
  let (parents, delOps) ← resetPointers result.stack.parents tree.delOps
  let (last, delOps) := result.stack.last.makeMut delOps
  if result.isMatched then
    let trieNode ← expect (last.node.setValue val)
    relink tree (some ⟨⟨trieNode, last.cells⟩, parents⟩) delOps
  else
    let lastDepth := parents.length
    let (trieNode, delOps) ← insert N tree.db last.node result.remainder val lastDepth delOps
    relink tree (some ⟨⟨trieNode, last.cells⟩, parents⟩) delOps

/-- Set a key; the empty value removes it. -/
def put (N : Nat) (tree : MerklePatriciaTree H) (key val : Bytes) :
    Except (Panic H) (MerklePatriciaTree H) :=
  if key = [] then
    .error .failed
  else if val = [] then
    tree.del N key
  else
    match tree.root with
    | none => .ok { tree with root := some (TrieNode.newLeaf (bytesToNibbleList key) val).sealNode }
    | some root => do
      let result ← search N tree.db root key
      if result.isMatched then
        let value ← expect result.stack.last.node.value
        if value = val then
          -- the value is not changed
          pure { tree with root := some (shared result.stack.last result.stack.parents) }
        else
          putLast N tree result val
      else
        putLast N tree result val

/-! ### Committing -/

/-- A digest to be deleted, as an operation on the column. -/
def delOp (digest : H) : DBOp := .delete (RlpHasher.toBytes digest)

/-- A node to be written, as an operation on the column. -/
def putOp (entry : H × Bytes) : DBOp := .insert (RlpHasher.toBytes entry.1) entry.2

/-- The root's digest goes last; without a root the key is deleted before everything else. -/
def commit (N : Nat) (tree : MerklePatriciaTree H) :
    Except (Panic H) (H × MerklePatriciaTree H) :=
  match tree.root with
  | none =>
    .ok (EMPTY_ROOT,
      ⟨tree.db.writeBuffered (.delete ROOT_KEY :: tree.delOps.map delOp), none, []⟩)
  | some root =>
    let exiled := root.drainExiled
    let committed := exiled.1.commit N 0 false
    if committed.asserted then
      let node := committed.result.truncateLoaded
      .ok (node.hash, ⟨tree.db.writeBuffered (tree.delOps.map delOp ++
          (exiled.2 ++ committed.putOps).map putOp ++
          [.insert ROOT_KEY (RlpHasher.toBytes node.hash)]),
        some node.fillHash, []⟩)
    else
      .error .failed

/-- Write the top layer, which a commit leaves in memory. -/
def flushAll (N : Nat) (tree : MerklePatriciaTree H) : Except (Panic H) (MerklePatriciaTree H) :=
  match tree.root with
  | none => .ok tree
  | some root =>
    let committed := root.commit N 0 true
    if committed.asserted then
      .ok { tree with
        db := tree.db.writeBuffered (committed.putOps.map putOp)
        root := some committed.result }
    else
      .error .failed

end MerklePatriciaTree

end AuthStorage.RainblockTrie
