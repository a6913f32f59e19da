/-
This file compares the two places an index has in the tree. The version tree
asks whether the leaf of an index is in the shard by the index itself; the nodes
that updates and proofs touch are those above the leaf of the reversed index. A
proof can be given when the reversed index is below the node of the shard, and
for no shard but the whole tree do the two agree on every index. The nodes that
are maintained for a shard are those that some proof in it needs.
-/

import AuthStorage.Lvmt.AMTCompleteness

namespace AuthStorage.Lvmt

namespace NodeIndex

variable {height : Nat}

theorem xor_one_shiftRight (number : Nat) {up : Nat} (positive : 0 < up) :
    (number ^^^ 1) >>> up = number >>> up := by
  rw [Nat.shiftRight_xor_distrib, Nat.shiftRight_eq_div_pow 1, Nat.div_eq_of_lt, Nat.xor_zero]
  exact Nat.one_lt_two_pow (Nat.ne_of_gt positive)

/-- Below the shard's depth a node is maintained inside the shard; above it, its sibling has to
be on the path to the shard. -/
theorem needsMaintain_iff {node : NodeIndex height} (positive : 0 < node.depth)
    (shardRoot : NodeIndex height) :
    node.needsMaintain shardRoot = true ↔
      if shardRoot.depth < node.depth then
        node.index >>> (node.depth - shardRoot.depth) = shardRoot.index
      else
        node.index ^^^ 1 = shardRoot.index >>> (shardRoot.depth - node.depth) := by
  have notRoot : node ≠ root := by
    rintro rfl
    exact Nat.lt_irrefl 0 positive
  rw [needsMaintain, dif_neg notRoot]
  split
  · exact beq_iff_eq
  · exact beq_iff_eq

/-! ### Which paths are maintained -/

/-- The sibling of a leaf's ancestor is maintained when the leaf agrees with the shard as far as
both go. -/
theorem needsMaintain_toSibling (leafIndex : Fin (2 ^ height)) (up : Fin height)
    (shardRoot : NodeIndex height) :
    (((leaf leafIndex).toAncestor up up.isLt.le).toSibling
        (Nat.sub_pos_of_lt up.isLt)).needsMaintain shardRoot = true ↔
      if shardRoot.depth < height - up then
        leafIndex.val >>> (height - shardRoot.depth) = shardRoot.index
      else
        leafIndex.val >>> up.val = shardRoot.index >>> (shardRoot.depth - (height - up)) := by
  rw [needsMaintain_iff (Nat.sub_pos_of_lt up.isLt)]
  show (if shardRoot.depth < height - up.val then
      ((leafIndex.val >>> up.val) ^^^ 1) >>> (height - up - shardRoot.depth) = _
    else ((leafIndex.val >>> up.val) ^^^ 1) ^^^ 1 = _) ↔ _
  have inside := up.isLt
  by_cases deeper : shardRoot.depth < height - up.val
  · have total : up.val + (height - up.val - shardRoot.depth) = height - shardRoot.depth := by
      omega
    rw [if_pos deeper, if_pos deeper, xor_one_shiftRight _ (by omega), ← Nat.shiftRight_add, total]
  · rw [if_neg deeper, if_neg deeper, Nat.xor_assoc, Nat.xor_self, Nat.xor_zero]
    rfl

/-- The siblings on the path of an index are those of the leaf of the reversed index. -/
theorem needsMaintain_siblingOf (index : Nat) (up : Fin height) (shardRoot : NodeIndex height) :
    (siblingOf index up).needsMaintain shardRoot = true ↔
      if shardRoot.depth < height - up then
        bitreverse index height >>> (height - shardRoot.depth) = shardRoot.index
      else
        bitreverse index height >>> up.val =
          shardRoot.index >>> (shardRoot.depth - (height - up)) :=
  needsMaintain_toSibling ⟨bitreverse index height, bitreverse_lt _ _⟩ up shardRoot

/-- The whole path of an index is maintained when its leaf is below the node of the shard. -/
theorem needsMaintain_path_iff (index : Fin (2 ^ height)) (shardRoot : NodeIndex height) :
    (∀ up : Fin height, (siblingOf index up).needsMaintain shardRoot = true) ↔
      index ∈ shardRoot.below := by
  have le := shardRoot.depth_le
  have bound := shardRoot.index_lt
  rw [mem_below]
  constructor
  · intro all
    rcases Nat.eq_zero_or_pos shardRoot.depth with top | positive
    · rw [top, Nat.sub_zero, Nat.shiftRight_eq_div_pow,
        Nat.div_eq_of_lt (bitreverse_lt index height)]
      rw [top, pow_zero, Nat.lt_one_iff] at bound
      exact bound.symm
    · have level : height - (height - shardRoot.depth) = shardRoot.depth := Nat.sub_sub_self le
      have atShard := all ⟨height - shardRoot.depth, by omega⟩
      rw [needsMaintain_siblingOf] at atShard
      dsimp only at atShard
      rwa [level, if_neg (Nat.lt_irrefl _), Nat.sub_self, Nat.shiftRight_zero] at atShard
  · intro below up
    rw [needsMaintain_siblingOf]
    by_cases deeper : shardRoot.depth < height - up.val
    · rwa [if_pos deeper]
    · have inside := up.isLt
      have total : height - shardRoot.depth + (shardRoot.depth - (height - up.val)) = up.val := by
        omega
      rw [if_neg deeper, ← below, ← Nat.shiftRight_add, total]

/-- The leaf is in the shard by the index itself; a shard of one leaf takes the leaf beside it. -/
def PlainlyInShard (shardRoot : NodeIndex height) (index : Fin (2 ^ height)) : Prop :=
  if shardRoot.depth < height then
    index.val >>> (height - shardRoot.depth) = shardRoot.index
  else
    height = 0 ∨ index.val ^^^ 1 = shardRoot.index

theorem needsMaintain_leaf_iff (index : Fin (2 ^ height)) (shardRoot : NodeIndex height) :
    (leaf index).needsMaintain shardRoot = true ↔ PlainlyInShard shardRoot index := by
  unfold PlainlyInShard
  rcases Nat.eq_zero_or_pos height with rfl | positive
  · have isRoot : leaf index = root := ext rfl (Nat.lt_one_iff.mp index.isLt)
    rw [needsMaintain, dif_pos isRoot, if_neg (Nat.not_lt_zero _)]
    exact iff_of_true rfl (Or.inl rfl)
  · rw [needsMaintain_iff (show 0 < (leaf index).depth from positive)]
    show (if shardRoot.depth < height then index.val >>> (height - shardRoot.depth) = _
      else index.val ^^^ 1 = shardRoot.index >>> (shardRoot.depth - height)) ↔ _
    by_cases above : shardRoot.depth < height
    · rw [if_pos above, if_pos above]
    · have same : shardRoot.depth - height = 0 := Nat.sub_eq_zero_of_le shardRoot.depth_le
      rw [if_neg above, if_neg above, same, Nat.shiftRight_zero,
        or_iff_right (Nat.ne_of_gt positive)]

/-! ### Which nodes are maintained -/

/-- The leaf is below the node, or the node itself. -/
def IsAbove (node : NodeIndex height) (leafIndex : Fin (2 ^ height)) : Prop :=
  (leaf leafIndex).toAncestor (height - node.depth) (Nat.sub_le _ _) = node

instance (node : NodeIndex height) (leafIndex : Fin (2 ^ height)) :
    Decidable (node.IsAbove leafIndex) := inferInstanceAs (Decidable (_ = _))

theorem isAbove_iff {node : NodeIndex height} {leafIndex : Fin (2 ^ height)} :
    node.IsAbove leafIndex ↔ leafIndex.val >>> (height - node.depth) = node.index :=
  ⟨congrArg index, fun below => ext (Nat.sub_sub_self node.depth_le) below⟩

/-- The first leaf below a node. -/
def firstLeaf (node : NodeIndex height) : Fin (2 ^ height) where
  val := node.index <<< (height - node.depth)
  isLt := by
    have whole : 2 ^ height = 2 ^ node.depth * 2 ^ (height - node.depth) := by
      rw [← pow_add, Nat.add_sub_cancel' node.depth_le]
    rw [Nat.shiftLeft_eq, whole]
    exact Nat.mul_lt_mul_of_pos_right node.index_lt (Nat.two_pow_pos _)

/-- Shifting the first leaf below a node back to a depth on its path. -/
theorem firstLeaf_shiftRight (node : NodeIndex height) {up : Nat}
    (above : height - node.depth ≤ up) :
    node.firstLeaf.val >>> up = node.index >>> (up - (height - node.depth)) := by
  have split : up = height - node.depth + (up - (height - node.depth)) := by omega
  show (node.index <<< (height - node.depth)) >>> up = _
  rw [split, Nat.shiftRight_add, Nat.shiftLeft_shiftRight, Nat.add_sub_cancel_left]

theorem isAbove_firstLeaf (node : NodeIndex height) : node.IsAbove node.firstLeaf := by
  rw [isAbove_iff, firstLeaf_shiftRight node le_rfl, Nat.sub_self, Nat.shiftRight_zero]

/-- Every node but the root is the sibling of the ancestor of each leaf below its own sibling. -/
theorem eq_toSibling_toAncestor {node : NodeIndex height} (positive : 0 < node.depth)
    {leafIndex : Fin (2 ^ height)}
    (below : leafIndex.val >>> (height - node.depth) = node.index ^^^ 1) :
    ∃ up : Fin height, up.val = height - node.depth ∧
      node = ((leaf leafIndex).toAncestor up up.isLt.le).toSibling (Nat.sub_pos_of_lt up.isLt) := by
  have le := node.depth_le
  refine ⟨⟨height - node.depth, by omega⟩, rfl, ext (Nat.sub_sub_self le).symm ?_⟩
  show node.index = (leafIndex.val >>> (height - node.depth)) ^^^ 1
  rw [below, Nat.xor_assoc, Nat.xor_self, Nat.xor_zero]

/-- The nodes that are maintained for a shard, the root aside, are the siblings on the paths of
the leaves of the shard. -/
theorem needsMaintain_iff_exists_leaf (shardRoot node : NodeIndex height) (notRoot : node ≠ root) :
    node.needsMaintain shardRoot = true ↔
      ∃ (leafIndex : Fin (2 ^ height)) (up : Fin height), shardRoot.IsAbove leafIndex ∧
        node = ((leaf leafIndex).toAncestor up up.isLt.le).toSibling
          (Nat.sub_pos_of_lt up.isLt) := by
  have positive := depth_pos notRoot
  have le := node.depth_le
  have shardLe := shardRoot.depth_le
  constructor
  · rw [needsMaintain_iff positive]
    intro maintained
    by_cases deeper : shardRoot.depth < node.depth
    · -- inside the shard, the first leaf below the sibling
      rw [if_pos deeper] at maintained
      have inShard : (node.toSibling positive).firstLeaf.val >>> (height - shardRoot.depth) =
          shardRoot.index := by
        rw [firstLeaf_shiftRight _ (by show height - node.depth ≤ _; omega)]
        show (node.index ^^^ 1) >>> (height - shardRoot.depth - (height - node.depth)) = _
        have drop : height - shardRoot.depth - (height - node.depth) =
            node.depth - shardRoot.depth := by omega
        rw [drop, xor_one_shiftRight _ (by omega), maintained]
      obtain ⟨up, -, same⟩ := eq_toSibling_toAncestor positive
        (isAbove_iff.mp (isAbove_firstLeaf (node.toSibling positive)))
      exact ⟨_, up, isAbove_iff.mpr inShard, same⟩
    · -- above the shard, the first leaf of the shard
      rw [if_neg deeper] at maintained
      have onPath : shardRoot.firstLeaf.val >>> (height - node.depth) = node.index ^^^ 1 := by
        rw [firstLeaf_shiftRight _ (by omega), maintained]
        congr 1
        omega
      obtain ⟨up, -, same⟩ := eq_toSibling_toAncestor positive onPath
      exact ⟨_, up, isAbove_firstLeaf shardRoot, same⟩
  · rintro ⟨leafIndex, up, above, rfl⟩
    rw [needsMaintain_toSibling]
    have below := isAbove_iff.mp above
    have inside := up.isLt
    by_cases deeper : shardRoot.depth < height - up.val
    · rwa [if_pos deeper]
    · rw [if_neg deeper, ← below, ← Nat.shiftRight_add]
      congr 1
      omega

/-- In a tree of depth six, the node of depth four and index nine lies in the shard of depth three
and index four. -/
theorem needsMaintain_iff_exists_leaf_six :
    (⟨4, 9, by decide, by decide⟩ : NodeIndex 6) ≠ root ∧
      ∃ (leafIndex : Fin (2 ^ 6)) (up : Fin 6),
        (⟨3, 4, by decide, by decide⟩ : NodeIndex 6).IsAbove leafIndex ∧
          (⟨4, 9, by decide, by decide⟩ : NodeIndex 6) =
            ((leaf leafIndex).toAncestor up up.isLt.le).toSibling (Nat.sub_pos_of_lt up.isLt) :=
  ⟨by decide, (needsMaintain_iff_exists_leaf ⟨3, 4, by decide, by decide⟩
    ⟨4, 9, by decide, by decide⟩ (by decide)).mp (by decide)⟩

/-! ### Which shards agree -/

/-- Two neighbours are in one shard by their index, and in two by their reversed index. -/
theorem exists_apart_of_lt {shardRoot : NodeIndex height} (positive : 0 < shardRoot.depth)
    (above : shardRoot.depth < height) :
    ∃ index : Fin (2 ^ height), PlainlyInShard shardRoot index ∧ index ∉ shardRoot.below := by
  obtain ⟨up, upEq⟩ : ∃ up, height - shardRoot.depth = up + 1 :=
    ⟨height - shardRoot.depth - 1, by omega⟩
  have width : 2 ^ shardRoot.depth * 2 ^ (up + 1) = 2 ^ height := by
    rw [← pow_add]
    congr 1
    omega
  have bound := shardRoot.index_lt
  have double : (2 : Nat) ^ (up + 1) = 2 ^ up * 2 := pow_succ 2 up
  have half := Nat.two_pow_pos up
  have fits : shardRoot.index * 2 ^ (up + 1) + 1 < 2 ^ height := by
    rw [← width]
    calc shardRoot.index * 2 ^ (up + 1) + 1 < shardRoot.index * 2 ^ (up + 1) + 2 ^ (up + 1) := by
          omega
      _ = (shardRoot.index + 1) * 2 ^ (up + 1) := by ring
      _ ≤ 2 ^ shardRoot.depth * 2 ^ (up + 1) := Nat.mul_le_mul_right _ bound
  let even : Fin (2 ^ height) := ⟨shardRoot.index * 2 ^ (up + 1), by omega⟩
  let odd : Fin (2 ^ height) := ⟨shardRoot.index * 2 ^ (up + 1) + 1, fits⟩
  have evenPlain : PlainlyInShard shardRoot even := by
    rw [PlainlyInShard, if_pos above, upEq, Nat.shiftRight_eq_div_pow]
    exact Nat.mul_div_cancel _ (Nat.two_pow_pos _)
  have oddPlain : PlainlyInShard shardRoot odd := by
    rw [PlainlyInShard, if_pos above, upEq, Nat.shiftRight_eq_div_pow]
    show (shardRoot.index * 2 ^ (up + 1) + 1) / 2 ^ (up + 1) = shardRoot.index
    rw [Nat.mul_comm, Nat.mul_add_div (Nat.two_pow_pos _), Nat.div_eq_of_lt (by omega),
      Nat.add_zero]
  by_cases evenBelow : even ∈ shardRoot.below
  · refine ⟨odd, oddPlain, fun oddBelow => ?_⟩
    rw [mem_below, bitreverse_eq] at evenBelow oddBelow
    have residues := (BitReversal.reverse_shiftRight_eq_iff shardRoot.depth_le _ _).mp
      (evenBelow.trans oddBelow.symm)
    obtain ⟨rest, depthEq⟩ : ∃ rest, shardRoot.depth = rest + 1 :=
      ⟨shardRoot.depth - 1, by omega⟩
    have parity := congrArg (· % 2) residues
    simp only [depthEq, Nat.mod_mod_of_dvd _ (dvd_pow_self 2 (Nat.succ_ne_zero rest))] at parity
    have evenVal : even.val = 2 ^ up * 2 * shardRoot.index := by
      rw [← double, Nat.mul_comm]
    have oddVal : odd.val = even.val + 1 := rfl
    omega
  · exact ⟨even, evenPlain, evenBelow⟩

/-- For a shard of one leaf, the leaf beside it is in the shard by its index, and no reversal
makes it the leaf of the shard. -/
theorem exists_apart_of_eq {shardRoot : NodeIndex height} (positive : 0 < height)
    (bottom : shardRoot.depth = height) :
    ∃ index : Fin (2 ^ height), PlainlyInShard shardRoot index ∧ index ∉ shardRoot.below := by
  have bound := shardRoot.index_lt
  rw [bottom] at bound
  let beside : Fin (2 ^ height) :=
    ⟨shardRoot.index ^^^ 1, Nat.xor_lt_two_pow bound (Nat.one_lt_two_pow (by omega))⟩
  refine ⟨beside, ?_, fun below => ?_⟩
  · rw [PlainlyInShard, if_neg (by omega)]
    right
    show shardRoot.index ^^^ 1 ^^^ 1 = shardRoot.index
    rw [Nat.xor_assoc, Nat.xor_self, Nat.xor_zero]
  · rw [mem_below, bottom, Nat.sub_self, Nat.shiftRight_zero, bitreverse_eq] at below
    have one : ∀ position, (1 : Nat).testBit position = decide (position = 0) := by
      intro position
      rw [← pow_zero 2, Nat.testBit_two_pow]
      exact decide_eq_decide.mpr eq_comm
    have first := congrArg (fun number => number.testBit 0) below
    have last := congrArg (fun number => number.testBit (height - 1)) below
    simp only [BitReversal.testBit_reverse] at first last
    have firstPlace : height - 1 - 0 = height - 1 := Nat.sub_zero _
    have lastPlace : height - 1 - (height - 1) = 0 := Nat.sub_self _
    rw [firstPlace, decide_eq_true positive, Bool.true_and] at first
    rw [lastPlace, decide_eq_true (by omega : height - 1 < height), Bool.true_and] at last
    have flipped : beside.val.testBit 0 = !shardRoot.index.testBit 0 := by
      show (shardRoot.index ^^^ 1).testBit 0 = _
      rw [Nat.testBit_xor, one, decide_eq_true rfl, Bool.xor_true]
    by_cases single : height - 1 = 0
    · rw [single, flipped] at first
      exact Bool.not_ne_self _ first
    · have kept : beside.val.testBit (height - 1) = shardRoot.index.testBit (height - 1) := by
        show (shardRoot.index ^^^ 1).testBit (height - 1) = _
        rw [Nat.testBit_xor, one, decide_eq_false single, Bool.xor_false]
      rw [kept, ← last, flipped] at first
      exact Bool.not_ne_self _ first

theorem plainly_agrees_iff (shardRoot : NodeIndex height) :
    (∀ index : Fin (2 ^ height), PlainlyInShard shardRoot index → index ∈ shardRoot.below) ↔
      shardRoot.depth = 0 := by
  constructor
  · intro agrees
    by_contra deep
    have positive := Nat.pos_of_ne_zero deep
    obtain ⟨index, plainly, outside⟩ :
        ∃ index : Fin (2 ^ height), PlainlyInShard shardRoot index ∧ index ∉ shardRoot.below := by
      rcases Nat.lt_or_eq_of_le shardRoot.depth_le with above | bottom
      · exact exists_apart_of_lt positive above
      · exact exists_apart_of_eq (bottom ▸ positive) bottom
    exact outside (agrees index plainly)
  · intro top index _
    have bound := shardRoot.index_lt
    rw [top, pow_zero, Nat.lt_one_iff] at bound
    rw [mem_below, top, Nat.sub_zero, bound, Nat.shiftRight_eq_div_pow]
    exact Nat.div_eq_of_lt (bitreverse_lt index height)

end NodeIndex

/-! ### What a proof of an index reads -/

namespace AMTreeStore

variable {Name Data G G₂ : Type} {height : Nat} [Curve G] [AMTData Data] [MyToBytes Name]

/-- The stored nodes a proof of the index consists of are the sums over the leaves below them of
what the entries have received. -/
def PathUpToDate (pp : AMTParams G G₂ height) (received : Fin (2 ^ height) → Nat)
    (store : AMTreeStore Name Data G height) (index : Fin (2 ^ height)) : Prop :=
  ∀ up : Fin height, ∃ node next,
    store.tree.innerNodes.getMut store.db (NodeIndex.siblingOf index up) = some (node, next) ∧
      node.commitment =
        AMTView.share received pp.commitments (NodeIndex.siblingOf index up).below ∧
      node.proof = AMTView.share received (pp.quotients (Fin.rev up))
        (NodeIndex.siblingOf index up).below

theorem Accumulated.pathUpToDate {pp : AMTParams G G₂ height} {name : Name}
    {shardRoot : NodeIndex height} {received : Fin (2 ^ height) → Nat}
    {store : AMTreeStore Name Data G height}
    (accumulated : store.Accumulated pp name (some shardRoot) received) {index : Fin (2 ^ height)}
    (maintained : ∀ up : Fin height, (NodeIndex.siblingOf index up).needsMaintain shardRoot) :
    store.PathUpToDate pp received index := by
  obtain ⟨view, represents, sums⟩ := accumulated
  intro up
  obtain ⟨next, read, -⟩ := represents.innerNodes.getMut (NodeIndex.siblingOf index up)
  have positive : 0 < (NodeIndex.siblingOf index up : NodeIndex height).depth :=
    NodeIndex.ancestorOf_depth_pos index up
  have upToDate := sums.innerNodes shardRoot rfl _ (maintained up) positive
  have row : AMTView.quotientsAt pp (NodeIndex.siblingOf index up) positive =
      pp.quotients (Fin.rev up) := by
    have same : (⟨height - up.val - 1, by omega⟩ : Fin height) = Fin.rev up := by
      apply Fin.ext
      rw [Fin.val_rev]
      exact Nat.sub_sub _ _ _
    rw [← same]
    rfl
  rw [row] at upToDate
  exact ⟨_, next, read, by rw [upToDate], by rw [upToDate]⟩

/-- An index that the version tree takes for one of the shard has its whole path maintained
exactly when its reversal is below the node of the shard too, and only the shard of the whole
tree has this for every index. Where it does, the path is up to date after every run. -/
theorem shard_path (shardRoot : NodeIndex height) :
    (∀ index : Fin (2 ^ height),
      ((NodeIndex.leaf index).needsMaintain shardRoot →
          ∀ up : Fin height, (NodeIndex.siblingOf index up).needsMaintain shardRoot) ↔
        (NodeIndex.PlainlyInShard shardRoot index →
          bitreverse index height >>> (height - shardRoot.depth) = shardRoot.index)) ∧
      ((∀ index : Fin (2 ^ height), (NodeIndex.leaf index).needsMaintain shardRoot →
          ∀ up : Fin height, (NodeIndex.siblingOf index up).needsMaintain shardRoot) ↔
        shardRoot.depth = 0) ∧
      ∀ (pp : AMTParams G G₂ height) (name : Name) (ops : List (UpdateOp height))
        (index : Fin (2 ^ height)),
        bitreverse index height >>> (height - shardRoot.depth) = shardRoot.index →
          ∃ (final : AMTreeStore Name Data G height) (outputs : List Unit),
            PartialRun.run (updateStep pp) (opened name (some shardRoot)) ops =
                some (final, outputs) ∧
              final.PathUpToDate pp (UpdateOp.received ops) index := by
  have pointwise : ∀ index : Fin (2 ^ height),
      ((NodeIndex.leaf index).needsMaintain shardRoot →
          ∀ up : Fin height, (NodeIndex.siblingOf index up).needsMaintain shardRoot) ↔
        (NodeIndex.PlainlyInShard shardRoot index → index ∈ shardRoot.below) := fun index => by
    rw [NodeIndex.needsMaintain_leaf_iff, NodeIndex.needsMaintain_path_iff]
  refine ⟨fun index => ?_, ?_, fun pp name ops index below => ?_⟩
  · rw [pointwise, NodeIndex.mem_below]
  · rw [forall_congr' pointwise]
    exact NodeIndex.plainly_agrees_iff shardRoot
  · have start : (opened name (some shardRoot) : AMTreeStore Name Data G height).Accumulated pp
        name (some shardRoot) 0 := accumulated_opened
    obtain ⟨final, outputs, ran, accumulated⟩ := start.run ops
    rw [zero_add] at accumulated
    exact ⟨final, outputs, ran, accumulated.pathUpToDate
      ((NodeIndex.needsMaintain_path_iff index shardRoot).mpr (NodeIndex.mem_below.mpr below))⟩

/-- In a tree of depth eight with the shard of the first half, entry one is taken for one of the
shard, and the sibling of the first node on its path is not maintained. -/
theorem shard_path_first_half :
    ¬ ∀ (shardRoot : NodeIndex 8) (index : Fin (2 ^ 8)),
      (NodeIndex.leaf index).needsMaintain shardRoot →
        ∀ up : Fin 8, (NodeIndex.siblingOf index up).needsMaintain shardRoot := by
  intro consistent
  have path := consistent ⟨1, 0, by decide, by decide⟩ 1 (by decide) 7
  revert path
  decide

end AMTreeStore

end AuthStorage.Lvmt
