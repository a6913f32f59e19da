/-
This file models `amt/`: the tree over one vector of leaf data. A tree keeps the
leaf data, the roots of its subtrees and the inner nodes of the authentication
paths in write-back caches, and its commitment in memory. A write guard takes a
leaf out of the tree and, when dropped, puts the new value back and moves the
commitment by the difference of the two integers.
-/

import AuthStorage.Lvmt.Crypto
import AuthStorage.Lvmt.Storage

namespace AuthStorage.Lvmt

/-! ### Nodes and leaf data -/

/-- An inner node of the tree: its share of the commitment, and its part of a proof. -/
structure AMTNode (G : Type) where
  commitment : G
  proof : G
deriving DecidableEq

section

variable {G : Type} [Curve G]

instance : Inhabited (AMTNode G) := ⟨⟨0, 0⟩⟩

instance : MyToBytes (AMTNode G) := ⟨fun ty node => write ty node.commitment ++ write ty node.proof⟩

instance : MyFromBytes (AMTNode G) where
  read ty input := do
    let (commitment, input) ← read ty input
    let (proof, input) ← read ty input
    some (⟨commitment, proof⟩, input)

instance : LawfulSerde (AMTNode G) where
  code ty := by
    intro node rest
    show (read ty (write ty node.commitment ++ write ty node.proof ++ rest)).bind _ = _
    rw [List.append_assoc, read_write, Option.bind_some]
    show (read ty (write ty node.proof ++ rest)).bind _ = _
    rw [read_write]
    rfl

end

/-- Leaf data with its integer; `as_fr_int` may assert. An empty leaf stands for zero. -/
class AMTData (Data : Type) extends Inhabited Data, MyToBytes Data, MyFromBytes Data,
    LawfulSerde Data where
  asFrInt : Data → Option FrInt
  asFrInt_default : asFrInt default = some 0

/-- `as_fr`. -/
def AMTData.asFr {Data : Type} [AMTData Data] (data : Data) : Option Fr :=
  (asFrInt data).bind FrInt.toFr

/-- A leaf that is its own integer. -/
instance : AMTData UInt64 where
  asFrInt number := some (BitVec.ofNat 256 number.toNat)
  asFrInt_default := rfl

/-! ### Trees -/

/-- A tree with its three caches. It has no shard root when it keeps the commitment only. -/
structure AMTree (Name Data G : Type) (height : Nat) where
  name : Name
  data : DBAccess (Fin (2 ^ height)) Data
  subtreeRoots : DBAccess (Fin (2 ^ height)) G
  innerNodes : DBAccess (NodeIndex height) (AMTNode G)
  commitment : Option G
  dirty : Bool
  shardRoot : Option (NodeIndex height)

/-- The key prefix of one of the three caches of a tree. -/
def setPrefix {Name : Type} [MyToBytes Name] (kind : UInt8) (name : Name) : Bytes :=
  kind :: toBytesConsensus name

/-- `assert!(index < C::LENGTH)`. -/
def checkIndex (height index : Nat) : Option (Fin (2 ^ height)) :=
  if inside : index < 2 ^ height then some ⟨index, inside⟩ else none

theorem checkIndex_val {height : Nat} (index : Fin (2 ^ height)) :
    checkIndex height index = some index := dif_pos index.isLt

theorem checkIndex_eq_some {height index : Nat} {bounded : Fin (2 ^ height)}
    (inside : checkIndex height index = some bounded) : index = bounded := by
  unfold checkIndex at inside
  split at inside
  · rw [← Option.some.inj inside]
  · cases inside

/-- The inner nodes on a path, from the root's child on. -/
abbrev AMTProof (G : Type) := List (AMTNode G)

namespace AMTree

variable {Name Data G G₂ Gt : Type} {height : Nat}

/-- A tree without cached entries; each cache has a prefix of its own. -/
def new [MyToBytes Name] (name : Name) (shardRoot : Option (NodeIndex height)) :
    AMTree Name Data G height where
  name := name
  data := .new (setPrefix 1 name)
  innerNodes := .new (setPrefix 2 name)
  subtreeRoots := .new (setPrefix 3 name)
  commitment := none
  dirty := false
  shardRoot := shardRoot

/-- Only the first call has an effect. -/
def setCommitment (tree : AMTree Name Data G height) (commitment : G) :
    AMTree Name Data G height :=
  match tree.commitment with
  | none => { tree with commitment := some commitment }
  | some _ => tree

/-- Only the commitment is kept. -/
def onlyRoot (tree : AMTree Name Data G height) : Bool := tree.shardRoot.isNone

/-- The shard is the whole tree. -/
def canProve (tree : AMTree Name Data G height) : Bool :=
  decide (tree.shardRoot = some NodeIndex.root)

variable [Curve G] [AMTData Data]

/-- The data of a leaf. An index outside the tree panics. -/
def get (tree : AMTree Name Data G height) (db : DBColumn) (index : Nat) :
    Option (Data × AMTree Name Data G height) := do
  let index ← checkIndex height index
  let (value, data) ← tree.data.get db index
  some (value, { tree with data })

/-- The subtree root behind the returned reference; the entry is marked dirty. -/
def subtreeRoot (tree : AMTree Name Data G height) (db : DBColumn) (index : Nat) :
    Option (G × AMTree Name Data G height) := do
  let index ← checkIndex height index
  let (root, subtreeRoots) ← tree.subtreeRoots.getMut db index
  some (root, { tree with subtreeRoots })

/-- `*tree.subtree_root_mut(index) = root`. -/
def setSubtreeRoot (tree : AMTree Name Data G height) (db : DBColumn) (index : Nat) (root : G) :
    Option (AMTree Name Data G height) := do
  let index ← checkIndex height index
  let (_, subtreeRoots) ← tree.subtreeRoots.getMut db index
  some { tree with subtreeRoots := subtreeRoots.set index root }

/-- Write the three caches back; returns the commitment. -/
def flush (tree : AMTree Name Data G height) (db : DBColumn) :
    Option (G × DBColumn × AMTree Name Data G height) := do
  let (db, data) := tree.data.flushCache db
  let (db, innerNodes) := tree.innerNodes.flushCache db
  let (db, subtreeRoots) := tree.subtreeRoots.flushCache db
  let commitment ← tree.commitment
  some (commitment, db, { tree with data, innerNodes, subtreeRoots, dirty := false })

/-! ### Updates -/

/-- One iteration of the loop of `update`: the ancestor `up` levels above the leaf. -/
def updateInner (pp : AMTParams G G₂ height) (db : DBColumn) (shardRoot : NodeIndex height)
    (index : Fin (2 ^ height)) (updateFrInt : FrInt) (incComm : G)
    (innerNodes : DBAccess (NodeIndex height) (AMTNode G)) (up : Fin height) :
    Option (DBAccess (NodeIndex height) (AMTNode G)) :=
  let depth := height - up
  let visitNodeIndex := NodeIndex.ancestorOf index up
  if visitNodeIndex.needsMaintain shardRoot then do
    let proof ← pp.getQuotientPow depth index updateFrInt
    let (node, innerNodes) ← innerNodes.getMut db visitNodeIndex
    some (innerNodes.set visitNodeIndex ⟨node.commitment + incComm, node.proof + proof⟩)
  else
    some innerNodes

/-- Add to a leaf's integer: the commitment changes, and with a shard root the inner nodes on the
path. -/
def update (pp : AMTParams G G₂ height) (tree : AMTree Name Data G height) (db : DBColumn)
    (index : Nat) (updateFrInt : FrInt) : Option (AMTree Name Data G height) := do
  let index ← checkIndex height index
  if updateFrInt = 0 then
    some tree
  else
    let incComm := pp.getIdentsPow index updateFrInt
    let commitment ← tree.commitment
    let tree := { tree with dirty := true, commitment := some (commitment + incComm) }
    match tree.shardRoot with
    | none => some tree
    | some shardRoot =>
      let innerNodes ← (List.finRange height).foldlM
        (updateInner pp db shardRoot index updateFrInt incComm) tree.innerNodes
      some { tree with innerNodes }

end AMTree

/-! ### The write guard -/

/-- A leaf taken out of its tree, with the integer it had. -/
structure AMTNodeWriteGuard (Name Data G : Type) (height : Nat) where
  index : Fin (2 ^ height)
  value : Data
  oldFrInt : FrInt
  tree : AMTree Name Data G height

section

variable {Name Data G G₂ : Type} {height : Nat} [Curve G] [AMTData Data]

/-- `std::mem::take` of the leaf, then the guard. An index outside the tree only fails when the
guard is dropped; nothing can be done with the guard before. -/
def AMTree.writeVersions (tree : AMTree Name Data G height) (db : DBColumn) (index : Nat) :
    Option (AMTNodeWriteGuard Name Data G height) := do
  let index ← checkIndex height index
  let (value, data) ← tree.data.getMut db index
  let oldFrInt ← AMTData.asFrInt value
  some ⟨index, value, oldFrInt, { tree with data := data.set index default }⟩

/-- The difference a dropped guard adds to the commitment. -/
def AMTNodeWriteGuard.difference (newFrInt oldFrInt : FrInt) : FrInt :=
  let (frInt, borrowBit) := newFrInt.subNoborrow oldFrInt
  if borrowBit then frInt.addNocarry FrParams.R else frInt

/-- The data goes back into the cache, and the difference of the integers into the tree. -/
def AMTNodeWriteGuard.drop (pp : AMTParams G G₂ height)
    (guard : AMTNodeWriteGuard Name Data G height) (db : DBColumn) :
    Option (AMTree Name Data G height) := do
  let newFrInt ← AMTData.asFrInt guard.value
  let frInt := difference newFrInt guard.oldFrInt
  let (_, data) ← guard.tree.data.getMut db guard.index
  let tree := { guard.tree with data := data.set guard.index guard.value }
  tree.update pp db guard.index frInt

end

/-! ### Proofs -/

namespace AMTree

variable {Name Data G G₂ Gt : Type} {height : Nat} [Curve G]

/-- One iteration of the loop of `prove`, from the leaf upwards. -/
def proveInner (db : DBColumn) (index : Nat)
    (state : AMTProof G × DBAccess (NodeIndex height) (AMTNode G)) (up : Fin height) :
    Option (AMTProof G × DBAccess (NodeIndex height) (AMTNode G)) := do
  let siblingNodeIndex := NodeIndex.siblingOf index up
  let (node, innerNodes) ← state.2.getMut db siblingNodeIndex
  some (node :: state.1, innerNodes)

/-- The proof of a leaf, from depth one down; only for trees that maintain every node. -/
def prove (tree : AMTree Name Data G height) (db : DBColumn) (index : Nat) :
    Option (Option (AMTProof G) × AMTree Name Data G height) :=
  if tree.canProve then do
    let (answers, innerNodes) ← (List.finRange height).foldlM (proveInner db index)
      ([], tree.innerNodes)
    some (some answers, { tree with innerNodes })
  else
    some (none, tree)

variable [AddCommGroup G₂] [AddCommGroup Gt] [DecidableEq Gt]

/-- The pairing checks of `verify`, from depth `idx + 1` on. -/
def verifyPairings (pairing : G →+ G₂ →+ Gt) (pp : AMTParams G G₂ height) (index : Nat) :
    Nat → AMTProof G → Option Bool
  | _, [] => some true
  | idx, node :: rest => do
    let verification ← pp.getSiblingVerification (idx + 1) index
    if pairing node.commitment pp.g2 ≠ pairing node.proof verification then
      some false
    else
      verifyPairings pairing pp index (idx + 1) rest

/-- The leaf and the inner nodes sum up to the commitment, and every inner node passes its pairing
check. -/
def verify (pairing : G →+ G₂ →+ Gt) (pp : AMTParams G G₂ height) (index : Nat) (value : Fr)
    (commitment : G) (proof : AMTProof G) : Option Bool := do
  let inside ← checkIndex height index
  let selfIndent := mul (pp.getCommitments inside) (FrInt.ofFr value)
  let others := (proof.map AMTNode.commitment).sum
  if commitment ≠ selfIndent + others then
    some false
  else
    verifyPairings pairing pp index 0 proof

end AMTree

end AuthStorage.Lvmt
