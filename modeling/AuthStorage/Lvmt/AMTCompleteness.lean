/-
This file shows that the proofs a tree gives are accepted. An inner node that is
maintained is the sum, over the leaves below it in bit-reversed order, of what
was added at each leaf times its commitment, and times its quotient for the
depth of the node. The siblings on the path of a leaf share out all the other
leaves, and the leaves below one sibling have one verification point in common.
-/

import AuthStorage.Library.ResidueClasses
import AuthStorage.Lvmt.AMTCommitment
import AuthStorage.Lvmt.AMTVerify

namespace AuthStorage.Lvmt

open ResidueClasses (members)

/-! ### The leaves below a node -/

namespace NodeIndex

variable {height : Nat}

/-- The entries whose leaves are below the node. -/
def below (node : NodeIndex height) : Finset (Fin (2 ^ height)) :=
  Finset.univ.filter fun index =>
    bitreverse index height >>> (height - node.depth) = node.index

@[simp] theorem mem_below {node : NodeIndex height} {index : Fin (2 ^ height)} :
    index ∈ node.below ↔ bitreverse index height >>> (height - node.depth) = node.index := by
  simp [below]

theorem below_ancestorOf (index : Nat) (up : Fin height) :
    (ancestorOf index up : NodeIndex height).below =
      members height (height - up) (index % 2 ^ (height - up.val)) := by
  have back : height - (height - up.val) = up := Nat.sub_sub_self up.isLt.le
  ext other
  rw [mem_below, ResidueClasses.mem_members, ancestorOf_depth, ancestorOf_index, bitreverse_eq,
    bitreverse_eq, ← BitReversal.reverse_shiftRight_eq_iff (Nat.sub_le height up), back]

theorem below_siblingOf (index : Nat) (up : Fin height) :
    (siblingOf index up : NodeIndex height).below =
      members height (height - up) (ResidueClasses.other (height - up - 1) index) := by
  have back : height - (height - up.val) = up := Nat.sub_sub_self up.isLt.le
  have positive : 0 < height - up.val := Nat.sub_pos_of_lt up.isLt
  have row : height - up.val - 1 + 1 = height - up.val := Nat.sub_add_cancel positive
  ext other
  rw [mem_below, ResidueClasses.mem_members, ResidueClasses.other, row]
  show bitreverse other height >>> (height - (height - up.val)) =
    (bitreverse index height >>> up.val) ^^^ 1 ↔ _
  rw [bitreverse_eq, bitreverse_eq,
    ← BitReversal.reverse_shiftRight_xor_one_eq_iff positive (Nat.sub_le height up), back]

/-- The node at the depth of `node` on the path of an entry below it. -/
theorem ancestorOf_of_mem_below {node : NodeIndex height} (positive : 0 < node.depth)
    {index : Fin (2 ^ height)} (inside : index ∈ node.below) :
    ancestorOf index ⟨height - node.depth, by have := node.depth_le; omega⟩ = node := by
  refine ext ?_ (mem_below.mp inside)
  rw [ancestorOf_depth]
  exact Nat.sub_sub_self node.depth_le

theorem mem_below_of_ancestorOf {node : NodeIndex height} {index : Fin (2 ^ height)}
    {up : Fin height} (same : ancestorOf index up = node) : index ∈ node.below := by
  rw [← same, below_ancestorOf, ResidueClasses.mem_members]

theorem ancestorOf_injective (index : Nat) :
    Function.Injective (ancestorOf index : Fin height → NodeIndex height) := by
  intro first second same
  have depths : height - first.val = height - second.val := congrArg NodeIndex.depth same
  have firstInside := first.isLt
  have secondInside := second.isLt
  exact Fin.ext (by omega)

end NodeIndex

/-! ### The inner nodes after one update -/

namespace AMTView

variable {Data G G₂ : Type} {height : Nat} [Curve G] (pp : AMTParams G G₂ height)
  (shardRoot : NodeIndex height) (index : Fin (2 ^ height)) (updateFrInt : FrInt)

/-- Only the nodes on the path are touched. -/
theorem foldl_addInner_of_ne (ups : List (Fin height)) (innerNodes : NodeIndex height → AMTNode G)
    {node : NodeIndex height} (off : ∀ up ∈ ups, NodeIndex.ancestorOf index up ≠ node) :
    ups.foldl (addInner pp shardRoot index updateFrInt) innerNodes node = innerNodes node := by
  induction ups generalizing innerNodes with
  | nil => rfl
  | cons up rest inductionHypothesis =>
    rw [List.foldl_cons,
      inductionHypothesis _ fun up' member => off up' (List.mem_cons_of_mem _ member), addInner]
    split
    · exact Function.update_of_ne (off up List.mem_cons_self).symm _ _
    · rfl

/-- A node on the path that is maintained gets its increment. -/
theorem foldl_addInner_of_mem {ups : List (Fin height)} (nodup : ups.Nodup)
    (innerNodes : NodeIndex height → AMTNode G) {up : Fin height} (member : up ∈ ups)
    (maintained : (NodeIndex.ancestorOf index up).needsMaintain shardRoot) :
    ups.foldl (addInner pp shardRoot index updateFrInt) innerNodes (NodeIndex.ancestorOf index up) =
      ⟨(innerNodes (NodeIndex.ancestorOf index up)).commitment +
          (increment pp index updateFrInt up).commitment,
        (innerNodes (NodeIndex.ancestorOf index up)).proof +
          (increment pp index updateFrInt up).proof⟩ := by
  induction ups generalizing innerNodes with
  | nil => cases member
  | cons first rest inductionHypothesis =>
    obtain ⟨fresh, nodup⟩ := List.nodup_cons.mp nodup
    rw [List.foldl_cons]
    rcases List.mem_cons.mp member with rfl | later
    · have off : ∀ up' ∈ rest,
          NodeIndex.ancestorOf index up' ≠ (NodeIndex.ancestorOf index up : NodeIndex height) :=
        fun up' member same => fresh (NodeIndex.ancestorOf_injective _ same ▸ member)
      rw [foldl_addInner_of_ne pp shardRoot index updateFrInt rest _ off, addInner,
        if_pos maintained]
      exact Function.update_self _ _ _
    · have apart : (NodeIndex.ancestorOf index up : NodeIndex height) ≠
          NodeIndex.ancestorOf index first :=
        fun same => fresh (NodeIndex.ancestorOf_injective _ same ▸ later)
      have kept : addInner pp shardRoot index updateFrInt innerNodes first
          (NodeIndex.ancestorOf index up) = innerNodes (NodeIndex.ancestorOf index up) := by
        rw [addInner]
        split
        · exact Function.update_of_ne apart _ _
        · rfl
      rw [inductionHypothesis nodup _ later, kept]

/-! ### What a tree has received -/

/-- The commitments of some entries, each as often as the entry has received. -/
def share (received : Fin (2 ^ height) → Nat) (points : Fin (2 ^ height) → G)
    (entries : Finset (Fin (2 ^ height))) : G :=
  ∑ entry ∈ entries, received entry • points entry

theorem share_add (received added : Fin (2 ^ height) → Nat) (points : Fin (2 ^ height) → G)
    (entries : Finset (Fin (2 ^ height))) :
    share (received + added) points entries =
      share received points entries + share added points entries := by
  rw [share, share, share, ← Finset.sum_add_distrib]
  exact Finset.sum_congr rfl fun entry _ => add_smul _ _ _

theorem share_single_of_mem {entries : Finset (Fin (2 ^ height))} (inside : index ∈ entries)
    (points : Fin (2 ^ height) → G) :
    share (Pi.single index updateFrInt.toNat) points entries = mul (points index) updateFrInt := by
  rw [share, Finset.sum_eq_single_of_mem index inside fun entry _ apart => ?_, Pi.single_eq_same,
    mul]
  rw [Pi.single_eq_of_ne apart, zero_smul]

theorem share_single_of_notMem {entries : Finset (Fin (2 ^ height))} (outside : index ∉ entries)
    (amount : Nat) (points : Fin (2 ^ height) → G) :
    share (Pi.single index amount) points entries = 0 := by
  refine Finset.sum_eq_zero fun entry member => ?_
  have apart : entry ≠ index := fun same => outside (same ▸ member)
  rw [Pi.single_eq_of_ne apart, zero_smul]

theorem share_zero (points : Fin (2 ^ height) → G) (entries : Finset (Fin (2 ^ height))) :
    share 0 points entries = 0 :=
  Finset.sum_eq_zero fun _ _ => zero_smul _ _

/-- The quotients for the depth of a node. -/
def quotientsAt (node : NodeIndex height) (positive : 0 < node.depth) : Fin (2 ^ height) → G :=
  pp.quotients ⟨node.depth - 1, by have := node.depth_le; omega⟩

/-- The inner node is the sum over the leaves below it. -/
def UpToDate (received : Fin (2 ^ height) → Nat) (innerNodes : NodeIndex height → AMTNode G)
    (node : NodeIndex height) : Prop :=
  ∀ positive : 0 < node.depth, innerNodes node =
    ⟨share received pp.commitments node.below,
      share received (quotientsAt pp node positive) node.below⟩

/-- The commitment and the maintained inner nodes follow what the entries have received. -/
structure Accumulated (shardRoot : Option (NodeIndex height))
    (received : Fin (2 ^ height) → Nat) (view : AMTView Data G height) : Prop where
  commitment : view.commitment = share received pp.commitments Finset.univ
  innerNodes : ∀ root, shardRoot = some root → ∀ node : NodeIndex height,
    node.needsMaintain root → UpToDate pp received view.innerNodes node

theorem accumulated_empty [Inhabited Data] (shardRoot : Option (NodeIndex height)) :
    (empty : AMTView Data G height).Accumulated pp shardRoot 0 where
  commitment := (share_zero _ _).symm
  innerNodes _ _ node _ positive := by
    rw [share_zero, share_zero]
    rfl

variable {pp shardRoot index updateFrInt}

theorem UpToDate.addPath {received : Fin (2 ^ height) → Nat}
    {innerNodes : NodeIndex height → AMTNode G} {node : NodeIndex height}
    (upToDate : UpToDate pp received innerNodes node) (maintained : node.needsMaintain shardRoot) :
    UpToDate pp (received + Pi.single index updateFrInt.toNat)
      (addPath pp (some shardRoot) index updateFrInt innerNodes) node := by
  intro positive
  rw [share_add, share_add]
  show (List.finRange height).foldl (addInner pp shardRoot index updateFrInt) innerNodes node = _
  by_cases inside : index ∈ node.below
  · have onPath := NodeIndex.ancestorOf_of_mem_below positive inside
    have row : Fin.rev ⟨height - node.depth, by have := node.depth_le; omega⟩ =
        (⟨node.depth - 1, by have := node.depth_le; omega⟩ : Fin height) := by
      apply Fin.ext
      rw [Fin.val_rev]
      have le := node.depth_le
      dsimp only
      omega
    have added := foldl_addInner_of_mem pp shardRoot index updateFrInt (List.nodup_finRange height)
      innerNodes (List.mem_finRange ⟨height - node.depth, by have := node.depth_le; omega⟩)
      (onPath.symm ▸ maintained)
    rw [onPath, upToDate positive] at added
    rw [added, share_single_of_mem index updateFrInt inside,
      share_single_of_mem index updateFrInt inside, increment, quotientsAt, row]
  · have off : ∀ up ∈ List.finRange height, NodeIndex.ancestorOf index up ≠ node :=
      fun up _ same => inside (NodeIndex.mem_below_of_ancestorOf same)
    rw [foldl_addInner_of_ne pp shardRoot index updateFrInt _ _ off, upToDate positive,
      share_single_of_notMem index inside, share_single_of_notMem index inside, add_zero, add_zero]

/-- An update is received by its entry. -/
theorem Accumulated.update {shardRoot : Option (NodeIndex height)}
    {received : Fin (2 ^ height) → Nat} {view : AMTView Data G height}
    (accumulated : view.Accumulated pp shardRoot received) (index : Fin (2 ^ height))
    (updateFrInt : FrInt) :
    (view.update pp shardRoot index updateFrInt).Accumulated pp shardRoot
      (received + Pi.single index updateFrInt.toNat) := by
  by_cases zero : updateFrInt = 0
  · have none : (Pi.single index updateFrInt.toNat : Fin (2 ^ height) → Nat) = 0 := by
      rw [zero]
      exact Pi.single_zero index
    rw [AMTView.update, if_pos zero, none, add_zero]
    exact accumulated
  · constructor
    · rw [update_commitment, accumulated.commitment, share_add,
        share_single_of_mem index updateFrInt (Finset.mem_univ index)]
    · rintro root rfl node maintained
      rw [AMTView.update, if_neg zero]
      exact (accumulated.innerNodes root rfl node maintained).addPath maintained

theorem Accumulated.clean {shardRoot : Option (NodeIndex height)}
    {received : Fin (2 ^ height) → Nat} {view : AMTView Data G height}
    (accumulated : view.Accumulated pp shardRoot received) :
    view.clean.Accumulated pp shardRoot received :=
  ⟨accumulated.commitment, accumulated.innerNodes⟩

end AMTView

/-! ### Runs of updates and flushes -/

/-- Add to one leaf's integer, or flush. -/
inductive UpdateOp (height : Nat)
  | update (index : Fin (2 ^ height)) (updateFrInt : FrInt)
  | flush

namespace UpdateOp

variable {height : Nat}

/-- What an operation adds to each leaf. -/
def added : UpdateOp height → Fin (2 ^ height) → Nat
  | update index updateFrInt => Pi.single index updateFrInt.toNat
  | flush => 0

/-- What the entries receive in a run, added up. -/
def received (ops : List (UpdateOp height)) : Fin (2 ^ height) → Nat := (ops.map added).sum

end UpdateOp

namespace AMTreeStore

variable {Name Data G G₂ : Type} {height : Nat} [Curve G] [AMTData Data] [MyToBytes Name]

/-- The tree and its column after an operation. -/
def updateStep (pp : AMTParams G G₂ height) (store : AMTreeStore Name Data G height) :
    UpdateOp height → Option (AMTreeStore Name Data G height × Unit)
  | .update index updateFrInt => do
    let tree ← store.tree.update pp store.db index updateFrInt
    some ({ store with tree }, ())
  | .flush => do
    let (_, db, tree) ← store.tree.flush store.db
    some (⟨db, tree⟩, ())

/-- The tree stands for contents that follow what the entries have received. -/
def Accumulated (pp : AMTParams G G₂ height) (name : Name) (shardRoot : Option (NodeIndex height))
    (received : Fin (2 ^ height) → Nat) (store : AMTreeStore Name Data G height) : Prop :=
  ∃ view, store.Represents name shardRoot view ∧ view.Accumulated pp shardRoot received

variable {pp : AMTParams G G₂ height} {name : Name} {shardRoot : Option (NodeIndex height)}
  {received : Fin (2 ^ height) → Nat} {store : AMTreeStore Name Data G height}

theorem accumulated_opened :
    (opened name shardRoot : AMTreeStore Name Data G height).Accumulated pp name shardRoot 0 :=
  ⟨.empty, represents_opened, AMTView.accumulated_empty pp shardRoot⟩

/-- No update and no flush fails, and each keeps the sums. -/
theorem Accumulated.step (accumulated : store.Accumulated pp name shardRoot received)
    (op : UpdateOp height) :
    ∃ next, store.updateStep pp op = some (next, ()) ∧
      next.Accumulated pp name shardRoot (received + op.added) := by
  obtain ⟨view, represents, sums⟩ := accumulated
  cases op with
  | update index updateFrInt =>
    obtain ⟨tree, done, stands⟩ := AMTree.Represents.update represents pp index updateFrInt
    refine ⟨{ store with tree }, ?_, _, stands, sums.update index updateFrInt⟩
    rw [updateStep, done]
    rfl
  | flush =>
    have lawfulArray := lawfulLayout_fin (le_trans pp.depths_le (by norm_num : 28 ≤ 32))
    have lawfulTree := lawfulLayout_nodeIndex (le_trans pp.depths_le (by norm_num : 28 ≤ 31))
    obtain ⟨flushed, done, stands, -⟩ := AMTree.Represents.flush represents
    refine ⟨⟨flushed, _⟩, ?_, _, stands, ?_⟩
    · rw [updateStep, done]
      rfl
    · rw [UpdateOp.added, add_zero]
      exact sums.clean

theorem Accumulated.run (accumulated : store.Accumulated pp name shardRoot received)
    (ops : List (UpdateOp height)) :
    ∃ final outputs, PartialRun.run (updateStep pp) store ops = some (final, outputs) ∧
      final.Accumulated pp name shardRoot (received + UpdateOp.received ops) := by
  induction ops generalizing store received with
  | nil =>
    rw [UpdateOp.received, List.map_nil, List.sum_nil, add_zero]
    exact ⟨store, [], rfl, accumulated⟩
  | cons op rest inductionHypothesis =>
    obtain ⟨next, stepped, kept⟩ := accumulated.step op
    obtain ⟨final, outputs, ran, holds⟩ := inductionHypothesis kept
    refine ⟨final, () :: outputs,
      PartialRun.run_cons_eq_some.mpr ⟨next, (), outputs, stepped, ran, rfl⟩, ?_⟩
    rw [UpdateOp.received, List.map_cons, List.sum_cons, ← add_assoc]
    exact holds

end AMTreeStore

/-! ### The proofs are accepted -/

section

variable {Data G G₂ Gt : Type} {height : Nat} [Curve G] [AddCommGroup G₂] [AddCommGroup Gt]
  (pairing : G →+ G₂ →+ Gt) {pp : AMTParams G G₂ height}

/-- The equation the parameters are built for: at every depth, the commitment of an entry opens
with its quotient at the verification point of the entry. -/
def AMTParams.PairingEquation (pp : AMTParams G G₂ height) : Prop :=
  ∀ (row : Fin height) (index : Fin (2 ^ height)),
    pairing (pp.commitments index) pp.g2 =
      pairing (pp.quotients row index)
        (pp.verification row ⟨index % 2 ^ (row.val + 1), Nat.mod_lt _ (Nat.two_pow_pos _)⟩)

variable {pairing}

/-- The leaves below a sibling open together at its verification point. -/
theorem AMTParams.PairingEquation.share (equation : pp.PairingEquation pairing)
    (received : Fin (2 ^ height) → Nat) (row : Fin height) (index : Nat)
    (bound : ResidueClasses.other row index < 2 ^ (row.val + 1)) :
    pairing (AMTView.share received pp.commitments
        (members height (row + 1) (ResidueClasses.other row index))) pp.g2 =
      pairing (AMTView.share received (pp.quotients row)
          (members height (row + 1) (ResidueClasses.other row index)))
        (pp.verification row ⟨ResidueClasses.other row index, bound⟩) := by
  rw [AMTView.share, AMTView.share, map_sum, map_sum, AddMonoidHom.finsetSum_apply,
    AddMonoidHom.finsetSum_apply]
  refine Finset.sum_congr rfl fun entry member => ?_
  have residue := ResidueClasses.mem_members.mp member
  have point : (⟨entry % 2 ^ (row.val + 1), Nat.mod_lt _ (Nat.two_pow_pos _)⟩ :
      Fin (2 ^ (row.val + 1))) = ⟨ResidueClasses.other row index, bound⟩ := Fin.ext residue
  rw [map_nsmul, map_nsmul, AddMonoidHom.nsmul_apply, AddMonoidHom.nsmul_apply,
    equation row entry, point]

end

namespace AMTView

section

variable {Data G : Type} {height : Nat} {view : AMTView Data G height}

/-- The siblings on the path, from depth one down. -/
theorem getElem?_proofOf (index : Nat) (idx : Nat) :
    (view.proofOf index)[idx]? =
      if inside : idx < height then
        some (view.innerNodes (NodeIndex.siblingOf index (Fin.rev ⟨idx, inside⟩)))
      else
        none := by
  rw [proofOf]
  by_cases inside : idx < height
  · have place : height - 1 - idx < (List.finRange height).length := by
      rw [List.length_finRange]
      omega
    rw [dif_pos inside, List.getElem?_reverse (by simpa using inside), List.length_map,
      List.length_finRange, List.getElem?_map, List.getElem?_eq_getElem place,
      List.getElem_finRange, Option.map_some]
    congr 3
    apply Fin.ext
    rw [Fin.val_rev]
    show height - 1 - idx = height - (idx + 1)
    omega
  · rw [dif_neg inside, List.getElem?_eq_none]
    rw [List.length_reverse, List.length_map, List.length_finRange]
    omega

theorem length_proofOf (index : Nat) : (view.proofOf index).length = height := by
  rw [proofOf, List.length_reverse, List.length_map, List.length_finRange]

end

variable {Data G G₂ Gt : Type} {height : Nat} [Curve G] {pp : AMTParams G G₂ height}
  {received : Fin (2 ^ height) → Nat} {view : AMTView Data G height}

/-- The sibling on the path of `index` at depth `row + 1`. -/
theorem Accumulated.sibling (accumulated : view.Accumulated pp (some NodeIndex.root) received)
    (index : Nat) (row : Fin height) :
    view.innerNodes (NodeIndex.siblingOf index (Fin.rev row)) =
      ⟨share received pp.commitments
          (members height (row + 1) (ResidueClasses.other row index)),
        share received (pp.quotients row)
          (members height (row + 1) (ResidueClasses.other row index))⟩ := by
  have depth : height - (Fin.rev row).val = row.val + 1 := by
    rw [Fin.val_rev]
    have inside := row.isLt
    omega
  have positive : 0 < (NodeIndex.siblingOf index (Fin.rev row) : NodeIndex height).depth :=
    NodeIndex.ancestorOf_depth_pos index (Fin.rev row)
  have upToDate := accumulated.innerNodes NodeIndex.root rfl _
    (NodeIndex.needsMaintain_root (NodeIndex.siblingOf index (Fin.rev row))) positive
  have row_eq : quotientsAt pp (NodeIndex.siblingOf index (Fin.rev row)) positive =
      pp.quotients row := by
    rw [quotientsAt]
    congr 1
    apply Fin.ext
    show height - (Fin.rev row).val - 1 = row.val
    rw [depth, Nat.add_sub_cancel]
  rw [upToDate, row_eq, NodeIndex.below_siblingOf, depth, Nat.add_sub_cancel]

/-- The commitment is the leaf's own share and the commitments on its path. -/
theorem Accumulated.sumCheck (order : ∀ point : G, FrParams.MODULUS • point = 0)
    (accumulated : view.Accumulated pp (some NodeIndex.root) received) (index : Fin (2 ^ height)) :
    AMTree.SumCheck pp index (received index : Fr) view.commitment (view.proofOf index) := by
  have own : mul (pp.getCommitments index) (FrInt.ofFr (received index : Fr)) =
      received index • pp.commitments index := by
    have small : received index % FrParams.MODULUS < 2 ^ 256 :=
      lt_trans (Nat.mod_lt _ (by decide)) (by decide)
    rw [mul, AMTParams.getCommitments, FrInt.ofFr, BitVec.toNat_ofNat, ZMod.val_natCast,
      Nat.mod_eq_of_lt small]
    conv_rhs => rw [← Nat.mod_add_div (received index) FrParams.MODULUS]
    rw [add_smul, mul_smul, order, add_zero]
  have path : ((view.proofOf index).map AMTNode.commitment).sum =
      ∑ depth ∈ Finset.range height,
        share received pp.commitments
          (members height (depth + 1) (ResidueClasses.other depth index)) := by
    rw [proofOf, List.map_reverse, List.sum_reverse, List.map_map, ← Fin.sum_univ_def,
      Finset.sum_range, ← Equiv.sum_comp Fin.revPerm]
    refine Finset.sum_congr rfl fun row _ => ?_
    rw [Function.comp_apply, Fin.revPerm_apply, accumulated.sibling]
  rw [AMTree.SumCheck, own, path, accumulated.commitment]
  exact ResidueClasses.sum_path (fun entry => received entry • pp.commitments entry) index

theorem Accumulated.pairingChecks [AddCommGroup G₂] [AddCommGroup Gt]
    {pairing : G →+ G₂ →+ Gt} (equation : pp.PairingEquation pairing)
    (accumulated : view.Accumulated pp (some NodeIndex.root) received) (index : Nat) :
    AMTree.PairingChecks pairing pp index 0 (view.proofOf index) := by
  intro idx below node found
  rw [Nat.zero_add] at below
  rw [getElem?_proofOf, dif_pos below, accumulated.sibling] at found
  obtain rfl := Option.some.inj found
  have bounds : 0 < idx + 1 ∧ idx + 1 - 1 < height := ⟨Nat.succ_pos _, below⟩
  rw [Nat.zero_add]
  refine ⟨_, dif_pos bounds, ?_⟩
  exact equation.share received ⟨idx, below⟩ index
    (AMTParams.sibling_lt (idx + 1) index (Nat.succ_pos _))

end AMTView

namespace AMTreeStore

variable {Name Data G G₂ Gt : Type} {height : Nat} [Curve G] [AMTData Data] [MyToBytes Name]
  [AddCommGroup G₂] [AddCommGroup Gt] [DecidableEq Gt]

/-- In a group of the order of the scalar field, over parameters that satisfy the pairing
equation, a tree that maintains every node never fails to update or to flush, and afterwards it
proves every entry with what the entry has received. -/
theorem prove_verify (pairing : G →+ G₂ →+ Gt) (pp : AMTParams G G₂ height)
    (order : ∀ point : G, FrParams.MODULUS • point = 0) (equation : pp.PairingEquation pairing)
    (name : Name) (ops : List (UpdateOp height)) :
    ∃ (final : AMTreeStore Name Data G height) (outputs : List Unit) (commitment : G),
      PartialRun.run (updateStep pp) (opened name (some NodeIndex.root)) ops =
          some (final, outputs) ∧
        final.tree.commitment = some commitment ∧
        ∀ index : Fin (2 ^ height), ∃ proof next,
          final.tree.prove final.db index = some (some proof, next) ∧
            AMTree.verify pairing pp index (UpdateOp.received ops index : Fr) commitment proof =
              some true := by
  have start : (opened name (some NodeIndex.root) : AMTreeStore Name Data G height).Accumulated pp
      name (some NodeIndex.root) 0 := accumulated_opened
  obtain ⟨final, outputs, ran, view, represents, accumulated⟩ := start.run ops
  rw [zero_add] at accumulated
  refine ⟨final, outputs, view.commitment, ran, represents.commitment, fun index => ?_⟩
  obtain ⟨next, proved, -⟩ := AMTree.Represents.prove represents index.val
  refine ⟨view.proofOf index, next, proved, (AMTree.verify_eq_true_iff pairing pp index _ _ _).mpr
    ⟨accumulated.sumCheck order index, accumulated.pairingChecks equation index, ?_⟩⟩
  exact (AMTView.length_proofOf _).le

theorem six_le : 6 ≤ 28 := by decide

/-- Parameters in which every point is the generator. -/
def generatorParams : AMTParams Fr Fr 6 where
  commitments _ := 1
  quotients _ _ := 1
  verification _ _ := 1
  g2 := 1
  depths_le := six_le

/-- Two entries are updated, one of them twice, with a flush in between. -/
def flushedUpdates : List (UpdateOp 6) := [.update 3 5, .flush, .update 40 7, .update 3 (-1)]

theorem prove_verify_flushedUpdates :
    ∃ (final : AMTreeStore UInt64 UInt64 Fr 6) (outputs : List Unit) (commitment : Fr),
      PartialRun.run (updateStep generatorParams) (opened 64 (some NodeIndex.root))
          flushedUpdates = some (final, outputs) ∧
        final.tree.commitment = some commitment ∧
        ∀ index : Fin (2 ^ 6), ∃ proof next,
          final.tree.prove final.db index = some (some proof, next) ∧
            AMTree.verify fieldPairing generatorParams index
              (UpdateOp.received flushedUpdates index : Fr) commitment proof = some true :=
  prove_verify fieldPairing generatorParams modulus_nsmul (fun _ _ => rfl) 64 flushedUpdates

end AMTreeStore

end AuthStorage.Lvmt
