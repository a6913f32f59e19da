/-
This file models `trie_node.rs`, `child_ref.rs` and the data of `trie_node_ext.rs`:
the nodes of the trie with their cached hash and encoding, the references between
them -- a child is absent, known by its digest, or held in memory -- and the
encoding of a node, in which a child of fewer than 32 bytes is embedded whole.
-/

import AuthStorage.Library.Rlp
import AuthStorage.RainblockTrie.Nibble

namespace AuthStorage.RainblockTrie

open AuthStorage.Lvmt (Bytes DBColumn)

/-! ### The hash -/

/-- `RlpHasher` and the digests it returns. -/
class RlpHasher (H : Type) where
  hash : Bytes → H
  /-- `H256::zero()`. -/
  zero : H
  toBytes : H → Bytes
  fromBytes : Bytes → Option H
  fromBytes_toBytes : ∀ digest, fromBytes (toBytes digest) = some digest
  le_length_toBytes : ∀ digest, 32 ≤ (toBytes digest).length

/-- Different encodings have different digests. -/
class CollisionFree (H : Type) [RlpHasher H] : Prop where
  hash_injective : Function.Injective (RlpHasher.hash (H := H))

/-- The bytes that were hashed, as their own digest. -/
structure Preimage where
  bytes : Bytes
deriving DecidableEq

instance Preimage.rlpHasher : RlpHasher Preimage where
  hash bytes := ⟨bytes⟩
  zero := ⟨[]⟩
  toBytes digest := List.replicate 32 0 ++ digest.bytes
  fromBytes data := if 32 ≤ data.length then some ⟨data.drop 32⟩ else none
  fromBytes_toBytes digest := by
    have long : 32 ≤ (List.replicate 32 (0 : UInt8) ++ digest.bytes).length := by
      rw [List.length_append, List.length_replicate]
      exact Nat.le_add_right _ _
    rw [if_pos long, List.drop_left' List.length_replicate]
  le_length_toBytes digest := by
    rw [List.length_append, List.length_replicate]
    exact Nat.le_add_right _ _

instance Preimage.collisionFree : CollisionFree Preimage where
  hash_injective _ _ same := congrArg Preimage.bytes same

/-! ### Nodes -/

/-- The nodes, over any kind of children. -/
inductive TrieNode (C : Type) where
  | leaf (key : List Nibble) (value : Bytes)
  | branch (children : Nibble → C) (value : Bytes)
  | extension (key : List Nibble) (child : C)

/-- How far the commit of a node is: it is settled unless it is pending or working. -/
inductive Commit
  | committed
  | pending
  | light
  | working
deriving DecidableEq

/-- What a `TrieNodeExt` keeps beside its node. The weak pointers of a trie are kept here too, as
marks on the nodes they point to. -/
structure Cells (H : Type) where
  hash : Option H
  rlpEncode : Option Bytes
  commited : Commit
  /-- The node is in the list `loaded_node`. -/
  loaded : Bool
  /-- The node is in the list `exile_nodes`. -/
  exiled : Bool

/-- A node with its cells. -/
structure TrieNodeExt (H C : Type) where
  node : TrieNode C
  cells : Cells H

/-- A child: none, a digest, or a node in memory. -/
inductive ChildRef (H : Type) where
  | null
  | ref (digest : H)
  | owned (node : TrieNodeExt H (ChildRef H))

/-- A node that is held in memory. -/
abbrev NodePtr (H : Type) := TrieNodeExt H (ChildRef H)

variable {H : Type}

/-- The cells of a new node, and of one that was changed: a weak pointer does not follow a node
that `make_mut` gives a new place. -/
def Cells.working : Cells H := ⟨none, none, .working, false, false⟩

namespace TrieNode

variable {C : Type}

/-- The leaf of what is left of a key. -/
def newLeaf (keyRemainder : List Nibble) (value : Bytes) : TrieNode C := leaf keyRemainder value

/-- A branch without children and without a value. -/
def newBranch : TrieNode (ChildRef H) := branch (fun _ => .null) []

/-- An extension over a child. -/
def newExtention (newKey : List Nibble) (child : ChildRef H) : TrieNode (ChildRef H) :=
  extension newKey child

/-- The part of the key that the node holds. -/
def key : TrieNode C → Option (List Nibble)
  | leaf key _ => some key
  | extension key _ => some key
  | branch _ _ => none

/-- The value that the node holds; that of a branch may be empty. -/
def value : TrieNode C → Option Bytes
  | leaf _ value => some value
  | branch _ value => some value
  | extension _ _ => none

/-- A write through `value_mut`. -/
def setValue (node : TrieNode C) (value : Bytes) : Option (TrieNode C) :=
  match node with
  | leaf key _ => some (leaf key value)
  | branch children _ => some (branch children value)
  | extension _ _ => none

/-- `add_prefix` through `key_mut`. -/
def addPrefixKey (node : TrieNode C) (front : List Nibble) : Option (TrieNode C) :=
  match node with
  | leaf key value => some (leaf (addPrefix key front) value)
  | extension key child => some (extension (addPrefix key front) child)
  | branch _ _ => none

/-- A write through `child_mut`. -/
def setChild (node : TrieNode C) (index : Nibble) (child : C) : Option (TrieNode C) :=
  match node with
  | branch children value => some (branch (Function.update children index child) value)
  | extension key _ => if index = 0 then some (extension key child) else none
  | leaf _ _ => none

/-- The same node with every child changed. -/
def mapChildren {C' : Type} (change : C → C') : TrieNode C → TrieNode C'
  | leaf key value => leaf key value
  | branch children value => branch (fun index => change (children index)) value
  | extension key child => extension key (change child)

/-- Every child has the property. -/
def AllChildren (property : C → Prop) : TrieNode C → Prop
  | leaf _ _ => True
  | branch children _ => ∀ index, property (children index)
  | extension _ child => property child

theorem AllChildren.imp {first second : C → Prop} (implies : ∀ child, first child → second child)
    {node : TrieNode C} (all : node.AllChildren first) : node.AllChildren second := by
  cases node with
  | leaf key value => trivial
  | branch children value => exact fun index => implies _ (all index)
  | extension key child => exact implies _ all

theorem AllChildren.and {first second : C → Prop} {node : TrieNode C}
    (firstAll : node.AllChildren first) (secondAll : node.AllChildren second) :
    node.AllChildren fun child => first child ∧ second child := by
  cases node with
  | leaf key value => trivial
  | branch children value => exact fun index => ⟨firstAll index, secondAll index⟩
  | extension key child => exact ⟨firstAll, secondAll⟩

/-- `seal`. -/
def sealNode (node : TrieNode (ChildRef H)) : NodePtr H := ⟨node, .working⟩

/-- A new node as a child. -/
def sealRef (node : TrieNode (ChildRef H)) : ChildRef H := .owned node.sealNode

end TrieNode

/-- A property of all references is proved along the nodes. -/
theorem ChildRef.induction {motive : ChildRef H → Prop} (null : motive .null)
    (ref : ∀ digest, motive (.ref digest))
    (owned : ∀ me : NodePtr H, me.node.AllChildren motive → motive (.owned me)) :
    ∀ child, motive child
  | .null => null
  | .ref digest => ref digest
  | .owned ⟨.leaf key value, cells⟩ => owned ⟨.leaf key value, cells⟩ trivial
  | .owned ⟨.branch children value, cells⟩ =>
    owned ⟨.branch children value, cells⟩ fun index =>
      ChildRef.induction null ref owned (children index)
  | .owned ⟨.extension key child, cells⟩ =>
    owned ⟨.extension key child, cells⟩ (ChildRef.induction null ref owned child)

/-! ### Encoding -/

section

variable [RlpHasher H]

mutual

/-- The value `get_rlp_encode` returns. -/
def TrieNodeExt.getRlpEncode : NodePtr H → Bytes
  | ⟨node, cells⟩ => cells.rlpEncode.getD (TrieNode.rlpBytes node)

/-- The encoding of a node: its packed key or its children, and its value. -/
def TrieNode.rlpBytes : TrieNode (ChildRef H) → Bytes
  | .leaf key value => Rlp.list [Rlp.string (toMptKey key true), Rlp.string value]
  | .branch children value =>
    Rlp.list ((List.finRange 16).map (fun index => ChildRef.rlpAppend (children index)) ++
      [Rlp.string value])
  | .extension key child => Rlp.list [Rlp.string (toMptKey key false), ChildRef.rlpAppend child]

/-- A child inside its parent's encoding: whole if it is short, by its digest otherwise. -/
def ChildRef.rlpAppend : ChildRef H → Bytes
  | .null => Rlp.string []
  | .ref digest => Rlp.string (RlpHasher.toBytes digest)
  | .owned ⟨node, cells⟩ =>
    let rlpEncode := TrieNodeExt.getRlpEncode ⟨node, cells⟩
    if rlpEncode.length < 32 then rlpEncode
    else Rlp.string (RlpHasher.toBytes (cells.hash.getD (RlpHasher.hash rlpEncode)))

end

/-- The digest `hash` returns. -/
def TrieNodeExt.hash (me : NodePtr H) : H := me.cells.hash.getD (RlpHasher.hash me.getRlpEncode)

theorem TrieNodeExt.getRlpEncode_eq (me : NodePtr H) :
    me.getRlpEncode = me.cells.rlpEncode.getD me.node.rlpBytes := by
  rw [TrieNodeExt.getRlpEncode.eq_def]

theorem ChildRef.rlpAppend_owned (me : NodePtr H) :
    (ChildRef.owned me).rlpAppend =
      if me.getRlpEncode.length < 32 then me.getRlpEncode
      else Rlp.string (RlpHasher.toBytes me.hash) := by
  rw [ChildRef.rlpAppend.eq_def]
  rfl

mutual

/-- What `get_rlp_encode` leaves in the cells. -/
def TrieNodeExt.fillRlp : NodePtr H → NodePtr H
  | ⟨node, cells⟩ =>
    match cells.rlpEncode with
    | some _ => ⟨node, cells⟩
    | none =>
      ⟨TrieNode.fillChildren node,
        { cells with
          rlpEncode := some node.rlpBytes
          commited := if node.rlpBytes.length < 32 then .light else .pending }⟩

/-- What appending the children leaves in their cells. -/
def TrieNode.fillChildren : TrieNode (ChildRef H) → TrieNode (ChildRef H)
  | .leaf key value => .leaf key value
  | .branch children value => .branch (fun index => ChildRef.fill (children index)) value
  | .extension key child => .extension key (ChildRef.fill child)

/-- What appending a child to a stream leaves in its cells. -/
def ChildRef.fill : ChildRef H → ChildRef H
  | .null => .null
  | .ref digest => .ref digest
  | .owned me =>
    if me.getRlpEncode.length < 32 then
      .owned (TrieNodeExt.fillRlp me)
    else
      let filled := TrieNodeExt.fillRlp me
      .owned ⟨filled.node, { filled.cells with hash := some me.hash }⟩

end

/-- What `hash` leaves in the cells. -/
def TrieNodeExt.fillHash (me : NodePtr H) : NodePtr H :=
  match me.cells.hash with
  | some _ => me
  | none => ⟨me.fillRlp.node, { me.fillRlp.cells with hash := some me.hash }⟩

end

/-! ### Decoding -/

section

variable [RlpHasher H]

/-- The cells of `from_child_ref`. -/
def Cells.light (rlpEncode : Bytes) : Cells H := ⟨none, some rlpEncode, .light, false, false⟩

/-- A list is an embedded node, which has to be shorter than 32 bytes. -/
def ChildRef.decodeWith (decode : Bytes → Option (TrieNode (ChildRef H))) (rlp : Bytes) :
    Option (ChildRef H) :=
  if Rlp.isEmpty rlp then
    some .null
  else if Rlp.isList rlp then
    (decode rlp).bind fun node =>
      if rlp.length < 32 then some (.owned ⟨node, .light rlp⟩) else none
  else
    ((Rlp.data rlp).bind RlpHasher.fromBytes).map .ref

/-- Embedded nodes are shorter than the node they are in, so its length bounds the nesting. -/
def TrieNode.decode : Nat → Bytes → Option (TrieNode (ChildRef H))
  | 0, _ => none
  | depth + 1, rlp =>
    match Rlp.view rlp with
    | some (.list items) =>
      let valAt := fun index => items.getD index []
      let childAt := fun index => ChildRef.decodeWith (TrieNode.decode depth) (valAt index)
      if items.length = 2 then do
        let (key, isLeaf) ← fromMptKey (← Rlp.data (valAt 0))
        if isLeaf then some (.leaf key (← Rlp.data (valAt 1)))
        else some (.extension key (← childAt 1))
      else if items.length = 17 then
        if ∀ index : Nibble, (childAt index.val).isSome then
          (Rlp.data (valAt 16)).map fun value =>
            .branch (fun index : Nibble => (childAt index.val).getD .null) value
        else
          none
      else
        none
    | _ => none

/-- `TrieNode::new`. -/
def TrieNode.new (data : Bytes) : Option (TrieNode (ChildRef H)) :=
  TrieNode.decode data.length data

end

end AuthStorage.RainblockTrie
