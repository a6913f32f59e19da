/-
This file models the operations of `trie_node_ext.rs` and `child_ref.rs`: loading
a node, taking it for a change, committing a trie, replacing children by their
digests, and marking the nodes that a move pushes to the boundary between the
layers. A pointer is the node it points to; all the cells a step writes through
shared pointers are in the trie it returns.
-/

import AuthStorage.RainblockTrie.TrieNode

namespace AuthStorage.RainblockTrie

open AuthStorage.Lvmt (Bytes DBColumn)

variable {H : Type}

/-- The ways a call can end without a result: a digest that is not stored, an unwrap, index or
assertion that fails, and a search that does not come to an end. -/
inductive Panic (H : Type) where
  | hashNotFound (digest : H)
  | failed
  | endless
deriving DecidableEq

/-- The results of the children one after the other, up to the first panic. -/
def forChildren (child : Nibble → Except (Panic H) (ChildRef H)) :
    Except (Panic H) (Nibble → ChildRef H) := do
  (List.finRange 16).forM fun index => do
    let _ ← child index
  pure fun index =>
    match child index with
    | .ok done => done
    | .error _ => .null

/-- The value, or a panic. -/
def expect {α : Type} : Option α → Except (Panic H) α
  | some value => .ok value
  | none => .error .failed

namespace ChildRef

/-- There is no child. -/
def isNull : ChildRef H → Bool
  | null => true
  | _ => false

end ChildRef

namespace TrieNodeExt

variable [RlpHasher H]

/-! ### Loading -/

/-- Read a node from the column. It is committed. -/
def load (db : DBColumn) (digest : H) : Except (Panic H) (NodePtr H) :=
  match db (RlpHasher.toBytes digest) with
  | none => .error (.hashNotFound digest)
  | some loaded => do
    let node ← expect (TrieNode.new loaded)
    pure ⟨node, ⟨some digest, some loaded, .committed, false, false⟩⟩

end TrieNodeExt

namespace ChildRef

variable [RlpHasher H]

/-- The node behind a reference; a stored one is read and held from then on. -/
def loadedMut (db : DBColumn) : ChildRef H → Except (Panic H) (NodePtr H)
  | null => .error .failed
  | ref digest => TrieNodeExt.load db digest
  | owned node => .ok node

/-- The node behind a reference, and whether it had to be loaded. -/
def ownedOrLoad (db : DBColumn) : ChildRef H → Except (Panic H) (Option (NodePtr H × Bool))
  | null => .ok none
  | ref digest => do
    let node ← TrieNodeExt.load db digest
    pure (some (node, true))
  | owned node => .ok (some (node, false))

end ChildRef

namespace TrieNodeExt

variable [RlpHasher H]

/-- `load_children` with `levels` levels left above the boundary. -/
def loadChildren (db : DBColumn) : Nat → NodePtr H → Except (Panic H) (NodePtr H)
  | 0, me => .ok me
  | levels + 1, me =>
    let loadChild := fun child : ChildRef H => do
      match ← child.ownedOrLoad db with
      | some (node, _) =>
        let node ← loadChildren db levels node
        pure (ChildRef.owned node)
      | none => pure child
    if me.cells.commited = .working then
      .error .failed
    else
      match me.node with
      | .leaf _ _ => .ok me
      | .branch children value => do
        let children ← forChildren fun index => loadChild (children index)
        pure ⟨.branch children value, me.cells⟩
      | .extension key child => do
        let child ← loadChild child
        pure ⟨.extension key child, me.cells⟩

/-! ### Changing -/

/-- `make_mut`: the node with cleared cells; the digest it had in the store is to be deleted. -/
def makeMut (me : NodePtr H) (delOps : List H) : NodePtr H × List H :=
  let cleared : NodePtr H := ⟨me.node, .working⟩
  match me.cells.commited, me.cells.hash with
  | .committed, some digest => (cleared, delOps ++ [digest])
  | _, _ => (cleared, delOps)

end TrieNodeExt

/-! ### Truncating -/

section

variable [RlpHasher H]

/-- A large node is replaced by its digest; the encoding of a short one is kept. -/
def ChildRef.truncate : ChildRef H → ChildRef H
  | .null => .null
  | .ref digest => .ref digest
  | .owned node =>
    if node.getRlpEncode.length < 32 then .owned node.fillRlp else .ref node.hash

/-- Every large child is replaced by its digest. -/
def TrieNodeExt.truncate (me : NodePtr H) : NodePtr H :=
  ⟨me.node.mapChildren ChildRef.truncate, me.cells⟩

mutual

/-- Truncate every node of the list `loaded_node` that is still there. A node below a truncated
one is gone, so the order of the list does not matter. -/
def TrieNodeExt.truncateLoaded : NodePtr H → NodePtr H
  | ⟨node, cells⟩ =>
    let below : NodePtr H := ⟨TrieNode.truncateLoadedChildren node, cells⟩
    if cells.loaded then ⟨below.truncate.node, { cells with loaded := false }⟩ else below

/-- Truncate below the children. -/
def TrieNode.truncateLoadedChildren : TrieNode (ChildRef H) → TrieNode (ChildRef H)
  | .leaf key value => .leaf key value
  | .branch children value =>
    .branch (fun index => ChildRef.truncateLoaded (children index)) value
  | .extension key child => .extension key (ChildRef.truncateLoaded child)

/-- Truncate from a child on. -/
def ChildRef.truncateLoaded : ChildRef H → ChildRef H
  | .null => .null
  | .ref digest => .ref digest
  | .owned node => .owned (TrieNodeExt.truncateLoaded node)

end

/-! ### Exile -/

mutual

/-- Put the nodes at depth `N` into the list `exile_nodes`, for a node at the given depth. -/
def TrieNodeExt.exile (N depth : Nat) : NodePtr H → NodePtr H
  | ⟨node, cells⟩ =>
    if depth > N then ⟨node, cells⟩
    else if depth = N then ⟨node, { cells with exiled := true }⟩
    else ⟨TrieNode.exileChildren N (depth + 1) node, cells⟩

/-- The nodes at depth `N` below the children. -/
def TrieNode.exileChildren (N depth : Nat) : TrieNode (ChildRef H) → TrieNode (ChildRef H)
  | .leaf key value => .leaf key value
  | .branch children value =>
    .branch (fun index => ChildRef.exile N depth (children index)) value
  | .extension key child => .extension key (ChildRef.exile N depth child)

/-- The nodes at depth `N` from a child on. -/
def ChildRef.exile (N depth : Nat) : ChildRef H → ChildRef H
  | .null => .null
  | .ref digest => .ref digest
  | .owned node => .owned (TrieNodeExt.exile N depth node)

end

mutual

/-- Empty the list `exile_nodes`: the entries to be written for the nodes that are still there,
and the trie with their cells filled. -/
def TrieNodeExt.drainExiled : NodePtr H → NodePtr H × List (H × Bytes)
  | ⟨node, cells⟩ =>
    let below := TrieNode.drainExiledChildren node
    if cells.exiled then
      let me : NodePtr H := ⟨below.1, { cells with exiled := false }⟩
      (me.fillHash.fillRlp, below.2 ++ [(me.hash, me.getRlpEncode)])
    else
      (⟨below.1, cells⟩, below.2)

/-- The entries of the nodes below the children. -/
def TrieNode.drainExiledChildren :
    TrieNode (ChildRef H) → TrieNode (ChildRef H) × List (H × Bytes)
  | .leaf key value => (.leaf key value, [])
  | .branch children value =>
    (.branch (fun index => (ChildRef.drainExiled (children index)).1) value,
      (List.finRange 16).flatMap fun index => (ChildRef.drainExiled (children index)).2)
  | .extension key child =>
    (.extension key (ChildRef.drainExiled child).1, (ChildRef.drainExiled child).2)

/-- The entries of the nodes from a child on. -/
def ChildRef.drainExiled : ChildRef H → ChildRef H × List (H × Bytes)
  | .null => (.null, [])
  | .ref digest => (.ref digest, [])
  | .owned node => (.owned (TrieNodeExt.drainExiled node).1, (TrieNodeExt.drainExiled node).2)

end

/-! ### Committing -/

/-- What a commit leaves, the entries to be written, and whether its assertions held. -/
structure Committed (H α : Type) where
  result : α
  putOps : List (H × Bytes)
  asserted : Bool

/-- The rest of `commit`, once the children are committed; without a top layer, `N - 1` has no
value. -/
def TrieNodeExt.finishCommit (N depth : Nat) (topLayer : Bool) (me : NodePtr H)
    (below : List (H × Bytes)) (asserted : Bool) : Committed H (NodePtr H) :=
  let rlpEncode := me.getRlpEncode
  let filled := me.fillRlp
  let done : Committed H (NodePtr H) :=
    if 32 ≤ rlpEncode.length ∨ depth = 0 then
      let hashed := filled.fillHash
      ⟨⟨hashed.node, { hashed.cells with commited := .committed }⟩,
        below ++ (if N ≤ depth ∨ topLayer = true then [(filled.hash, rlpEncode)] else []),
        asserted && N ≠ 0⟩
    else
      ⟨filled, below, asserted && filled.cells.commited = .light && N ≠ 0⟩
  if depth + 1 = N ∧ topLayer = false then { done with result := done.result.truncate } else done

mutual

/-- Commit a node: with `topLayer` the nodes above the boundary, otherwise the nodes that are not
settled. -/
def TrieNodeExt.commit (N depth : Nat) (topLayer : Bool) :
    NodePtr H → Committed H (NodePtr H)
  | ⟨node, cells⟩ =>
    if N ≤ depth ∧ topLayer = true then
      ⟨⟨node, cells⟩, [], true⟩
    else if (cells.commited = .committed ∨ cells.commited = .light) ∧ topLayer = false then
      ⟨⟨node, cells⟩, [], true⟩
    else
      let below := TrieNode.commitChildren N (depth + 1) topLayer node
      TrieNodeExt.finishCommit N depth topLayer ⟨below.result, cells⟩ below.putOps below.asserted

/-- Commit the children. -/
def TrieNode.commitChildren (N depth : Nat) (topLayer : Bool) :
    TrieNode (ChildRef H) → Committed H (TrieNode (ChildRef H))
  | .leaf key value => ⟨.leaf key value, [], true⟩
  | .branch children value =>
    ⟨.branch (fun index => (ChildRef.commit N depth topLayer (children index)).result) value,
      (List.finRange 16).flatMap fun index =>
        (ChildRef.commit N depth topLayer (children index)).putOps,
      (List.finRange 16).all fun index =>
        (ChildRef.commit N depth topLayer (children index)).asserted⟩
  | .extension key child =>
    let below := ChildRef.commit N depth topLayer child
    ⟨.extension key below.result, below.putOps, below.asserted⟩

/-- Commit a child; nothing is in memory behind a digest. -/
def ChildRef.commit (N depth : Nat) (topLayer : Bool) : ChildRef H → Committed H (ChildRef H)
  | .null => ⟨.null, [], true⟩
  | .ref digest => ⟨.ref digest, [], true⟩
  | .owned node =>
    let below := TrieNodeExt.commit N depth topLayer node
    ⟨.owned below.result, below.putOps, below.asserted⟩

end

end

end AuthStorage.RainblockTrie
