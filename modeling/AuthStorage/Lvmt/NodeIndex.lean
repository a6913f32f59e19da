/-
This file models the node indices of `amt/node.rs`. A node of the binary tree
over the leaves is a depth and a position at that depth; the assertions of
`NodeIndex::new` are the fields of the structure. A shard is the set of leaves
below one node, and a node needs maintenance for a shard when some proof of a
leaf of the shard reads it.
-/

import AuthStorage.Library.BitReversal
import Mathlib.Tactic

namespace AuthStorage.Lvmt

/-- A node of a tree of height `height`. -/
structure NodeIndex (height : Nat) where
  depth : Nat
  index : Nat
  index_lt : index < 2 ^ depth
  depth_le : depth ≤ height
deriving DecidableEq

namespace NodeIndex

variable {height : Nat}

theorem ext {first second : NodeIndex height} (sameDepth : first.depth = second.depth)
    (sameIndex : first.index = second.index) : first = second := by
  cases first
  cases second
  cases sameDepth
  cases sameIndex
  rfl

/-- A leaf as a node. -/
def leaf (index : Fin (2 ^ height)) : NodeIndex height := ⟨height, index, index.isLt, le_rfl⟩

/-- The node at depth zero. -/
def root : NodeIndex height := ⟨0, 0, Nat.one_pos, Nat.zero_le _⟩

instance : Inhabited (NodeIndex height) := ⟨root⟩

theorem depth_pos {node : NodeIndex height} (notRoot : node ≠ root) : 0 < node.depth := by
  refine Nat.pos_of_ne_zero fun zero => notRoot (ext zero ?_)
  have bound := node.index_lt
  rw [zero] at bound
  exact Nat.lt_one_iff.mp bound

/-- `to_sibling`; the root has none. -/
def toSibling (node : NodeIndex height) (positive : 0 < node.depth) : NodeIndex height where
  depth := node.depth
  index := node.index ^^^ 1
  index_lt := Nat.xor_lt_two_pow node.index_lt (Nat.one_lt_two_pow (by omega))
  depth_le := node.depth_le

/-- The ancestor some levels up. -/
def toAncestor (node : NodeIndex height) (up : Nat) (le : up ≤ node.depth) :
    NodeIndex height where
  depth := node.depth - up
  index := node.index >>> up
  index_lt := by
    rw [Nat.shiftRight_eq_div_pow]
    exact Nat.div_lt_of_lt_mul (by rw [← pow_add, Nat.add_sub_cancel' le]; exact node.index_lt)
  depth_le := le_trans (Nat.sub_le _ _) node.depth_le

/-- A shard maintains the root, the nodes below its own root, and the siblings of the nodes on the
way there. -/
def needsMaintain (node shardRoot : NodeIndex height) : Bool :=
  if isRoot : node = root then
    true
  else if node.depth > shardRoot.depth then
    let heightDiff := node.depth - shardRoot.depth
    node.index >>> heightDiff == shardRoot.index
  else
    let sib := node.toSibling (depth_pos isRoot)
    let heightDiff := shardRoot.depth - sib.depth
    sib.index == shardRoot.index >>> heightDiff

/-- The whole tree is one shard, and every node is maintained for it. -/
@[simp] theorem needsMaintain_root (node : NodeIndex height) : node.needsMaintain root = true := by
  unfold needsMaintain
  split
  · rfl
  · rename_i notRoot
    have positive := depth_pos notRoot
    rw [if_pos (show node.depth > (root : NodeIndex height).depth from positive)]
    have zero : node.index >>> (node.depth - 0) = 0 := by
      rw [Nat.sub_zero, Nat.shiftRight_eq_div_pow]
      exact Nat.div_eq_of_lt node.index_lt
    simpa [root] using zero

end NodeIndex

/-! ### The order of the leaves -/

/-- The loop of `bitreverse`. -/
def bitreverseLoop : Nat → Nat → Nat → Nat
  | 0, r, _ => r
  | l + 1, r, n => bitreverseLoop l ((r <<< 1) ||| (n &&& 1)) (n >>> 1)

/-- The lowest `l` bits of `n`, in reverse order. -/
def bitreverse (n l : Nat) : Nat := bitreverseLoop l 0 n

theorem bitreverseLoop_eq (l r n : Nat) :
    bitreverseLoop l r n = r * 2 ^ l + BitReversal.reverse l n := by
  induction l generalizing r n with
  | zero => simp [bitreverseLoop, BitReversal.reverse]
  | succ l inductionHypothesis =>
    have low : (r <<< 1) ||| (n &&& 1) = 2 * r + n % 2 := by
      rw [Nat.and_one_is_mod, Nat.shiftLeft_eq, pow_one, Nat.mul_comm r 2, ← pow_one 2]
      exact (Nat.two_pow_add_eq_or_of_lt (by rw [pow_one]; exact Nat.mod_lt _ (by norm_num)) r).symm
    rw [bitreverseLoop, inductionHypothesis, low, BitReversal.reverse, Nat.shiftRight_one, pow_succ]
    ring

theorem bitreverse_eq (n l : Nat) : bitreverse n l = BitReversal.reverse l n := by
  rw [bitreverse, bitreverseLoop_eq, Nat.zero_mul, Nat.zero_add]

theorem bitreverse_lt (n l : Nat) : bitreverse n l < 2 ^ l := by
  rw [bitreverse_eq]
  exact BitReversal.reverse_lt l n

namespace NodeIndex

variable {height : Nat}

/-- The node index of the leaf that holds entry `index`. -/
def ofIndex (index : Nat) : NodeIndex height :=
  .leaf ⟨bitreverse index height, bitreverse_lt _ _⟩

theorem ofIndex_depth (index : Nat) : (ofIndex index : NodeIndex height).depth = height := rfl

/-- The node `up` levels above the leaf that holds entry `index`. -/
def ancestorOf (index : Nat) (up : Fin height) : NodeIndex height :=
  (ofIndex index).toAncestor up (by rw [ofIndex_depth]; exact up.isLt.le)

@[simp] theorem ancestorOf_depth (index : Nat) (up : Fin height) :
    (ancestorOf index up).depth = height - up := rfl

theorem ancestorOf_index (index : Nat) (up : Fin height) :
    (ancestorOf index up).index = bitreverse index height >>> up.val := rfl

theorem ancestorOf_depth_pos (index : Nat) (up : Fin height) : 0 < (ancestorOf index up).depth :=
  Nat.sub_pos_of_lt up.isLt

/-- The sibling of the node `up` levels above the leaf that holds entry `index`. -/
def siblingOf (index : Nat) (up : Fin height) : NodeIndex height :=
  (ancestorOf index up).toSibling (ancestorOf_depth_pos index up)

end NodeIndex

end AuthStorage.Lvmt
