/-
This file is about the commitment of a tree under writes, flushes and re-opens.
The guard adds the wrapped difference of the new and the old integer of a leaf;
where the new one is smaller, the borrow is corrected by the Montgomery constant
`R` in place of the modulus. So the commitment is the sum of the scaled indents
of the data as long as no write lowers an integer, and a write that does moves
the commitment off that sum.
-/

import AuthStorage.Lvmt.AMTView

namespace AuthStorage.Lvmt

variable {Name Data G G₂ : Type} {height : Nat} [Curve G] [AMTData Data] [MyToBytes Name]

/-! ### Trees over their store -/

/-- A guard that replaces the leaf, a flush, or a flush and a re-open with the commitment. -/
inductive AMTreeOp (Data : Type)
  | write (index : Nat) (value : Data)
  | flush
  | reopen

/-- A tree and the column its caches read from. -/
structure AMTreeStore (Name Data G : Type) (height : Nat) where
  db : DBColumn
  tree : AMTree Name Data G height

namespace AMTreeStore

/-- An empty tree over an empty store, with commitment zero. -/
def opened (name : Name) (shardRoot : Option (NodeIndex height)) :
    AMTreeStore Name Data G height :=
  ⟨DBColumn.empty, (AMTree.new name shardRoot).setCommitment 0⟩

/-- Write one leaf through a guard, flush, or open the tree again. -/
def step (pp : AMTParams G G₂ height) (store : AMTreeStore Name Data G height) :
    AMTreeOp Data → Option (AMTreeStore Name Data G height × Unit)
  | .write index value => do
    let guard ← store.tree.writeVersions store.db index
    let tree ← { guard with value }.drop pp store.db
    some ({ store with tree }, ())
  | .flush => do
    let (_, db, tree) ← store.tree.flush store.db
    some (⟨db, tree⟩, ())
  | .reopen => do
    let (commitment, db, tree) ← store.tree.flush store.db
    some (⟨db, (AMTree.new tree.name tree.shardRoot).setCommitment commitment⟩, ())

/-- The commitment is the sum of the scaled indents of the data. -/
def CommitmentFollowsData (pp : AMTParams G G₂ height)
    (store : AMTreeStore Name Data G height) : Prop :=
  ∃ (data : Fin (2 ^ height) → Data) (scalars : Fin (2 ^ height) → Fr),
    (∀ index, ∃ next, store.tree.get store.db index.val = some (data index, next)) ∧
      (∀ index, AMTData.asFr (data index) = some (scalars index)) ∧
      store.tree.commitment =
        some (∑ index, mul (pp.commitments index) (FrInt.ofFr (scalars index)))

/-- The operation lowers no leaf's integer. -/
def LowersNothing (store : AMTreeStore Name Data G height) : AMTreeOp Data → Prop
  | .write index value =>
    ∀ old next oldFrInt newFrInt, store.tree.get store.db index = some (old, next) →
      AMTData.asFrInt old = some oldFrInt → AMTData.asFrInt value = some newFrInt →
        oldFrInt.toNat ≤ newFrInt.toNat
  | .flush => True
  | .reopen => True

end AMTreeStore

/-! ### The same operations on the contents -/

namespace AMTView

/-- The same operations on what the caches stand for. -/
def step (pp : AMTParams G G₂ height) (shardRoot : Option (NodeIndex height))
    (view : AMTView Data G height) : AMTreeOp Data → Option (AMTView Data G height × Unit)
  | .write index value => do
    let index ← checkIndex height index
    let view ← view.replace pp shardRoot index value
    some (view, ())
  | .flush => some (view.clean, ())
  | .reopen => some (view.clean, ())

/-- The integer of a leaf. -/
def frInt (view : AMTView Data G height) (index : Fin (2 ^ height)) : FrInt :=
  (AMTData.asFrInt (view.data index)).getD 0

/-- What the commitment should be. -/
def weight (pp : AMTParams G G₂ height) (view : AMTView Data G height) : G :=
  ∑ index, mul (pp.commitments index) (view.frInt index)

/-- Every leaf has an integer, and the commitment is the sum of the scaled indents. -/
structure Consistent (pp : AMTParams G G₂ height) (view : AMTView Data G height) : Prop where
  defined : ∀ index, AMTData.asFrInt (view.data index) = some (view.frInt index)
  commitment : view.commitment = view.weight pp

theorem consistent_empty (pp : AMTParams G G₂ height) :
    (empty : AMTView Data G height).Consistent pp where
  defined index := by
    rw [frInt, empty, AMTData.asFrInt_default]
    rfl
  commitment := by
    refine (Finset.sum_eq_zero fun index _ => ?_).symm
    rw [frInt, empty, AMTData.asFrInt_default]
    simp [mul]

end AMTView

/-! ### The difference of two integers -/

namespace AMTNodeWriteGuard

theorem toNat_difference_of_le {newFrInt oldFrInt : FrInt}
    (le : oldFrInt.toNat ≤ newFrInt.toNat) :
    (difference newFrInt oldFrInt).toNat = newFrInt.toNat - oldFrInt.toNat := by
  obtain ⟨subtracted, noBorrow⟩ := FrInt.toNat_subNoborrow_of_le le
  unfold difference
  dsimp only
  rw [noBorrow]
  exact subtracted

theorem toNat_difference_of_lt {newFrInt oldFrInt : FrInt}
    (lt : newFrInt.toNat < oldFrInt.toNat) :
    (difference newFrInt oldFrInt).toNat =
      (2 ^ 256 + newFrInt.toNat - oldFrInt.toNat + FrParams.R.toNat) % 2 ^ 256 := by
  have bound := oldFrInt.isLt
  have isBorrow : (newFrInt.subNoborrow oldFrInt).2 = true := by simp [FrInt.subNoborrow, lt]
  unfold difference
  dsimp only
  rw [isBorrow]
  show (newFrInt - oldFrInt + FrParams.R).toNat = _
  rw [BitVec.toNat_add, BitVec.toNat_sub]
  omega

/-- With a borrow, the integer added is off by once or twice the Montgomery constant. -/
theorem difference_of_lt {newFrInt oldFrInt : FrInt} (lt : newFrInt.toNat < oldFrInt.toNat) :
    ((difference newFrInt oldFrInt).toNat : Fr) =
        (newFrInt.toNat : Fr) - oldFrInt.toNat + FrParams.R.toNat ∨
      ((difference newFrInt oldFrInt).toNat : Fr) =
        (newFrInt.toNat : Fr) - oldFrInt.toNat + (2 * FrParams.R.toNat : Nat) := by
  have bound := oldFrInt.isLt
  have wrap : ((2 ^ 256 : Nat) : Fr) = (FrParams.R.toNat : Fr) := by
    rw [ZMod.natCast_eq_natCast_iff]
    decide
  have borrowed := toNat_difference_of_lt lt
  by_cases carry : oldFrInt.toNat - newFrInt.toNat ≤ FrParams.R.toNat
  · left
    have exact_sum : (difference newFrInt oldFrInt).toNat + oldFrInt.toNat =
        newFrInt.toNat + FrParams.R.toNat := by
      have small := FrParams.R.isLt
      omega
    have cast := congrArg (Nat.cast : Nat → Fr) exact_sum
    rw [Nat.cast_add, Nat.cast_add] at cast
    rw [eq_sub_of_add_eq cast]
    ring
  · right
    have exact_sum : (difference newFrInt oldFrInt).toNat + oldFrInt.toNat =
        newFrInt.toNat + 2 ^ 256 + FrParams.R.toNat := by
      omega
    have cast := congrArg (Nat.cast : Nat → Fr) exact_sum
    rw [Nat.cast_add, Nat.cast_add, Nat.cast_add, wrap] at cast
    rw [eq_sub_of_add_eq cast]
    push_cast
    ring

/-- The guard adds the difference in the field exactly when the integer does not get smaller. -/
theorem difference_eq_sub_iff (newFrInt oldFrInt : FrInt) :
    ((difference newFrInt oldFrInt).toNat : Fr) = (newFrInt.toNat : Fr) - oldFrInt.toNat ↔
      oldFrInt.toNat ≤ newFrInt.toNat := by
  constructor
  · intro same
    by_contra lower
    rcases difference_of_lt (Nat.lt_of_not_le lower) with once | twice
    · have zero : (FrParams.R.toNat : Fr) = 0 := by
        rw [same] at once
        exact left_eq_add.mp once
      rw [ZMod.natCast_eq_zero_iff] at zero
      exact absurd zero (by decide)
    · have zero : ((2 * FrParams.R.toNat : Nat) : Fr) = 0 := by
        rw [same] at twice
        exact left_eq_add.mp twice
      rw [ZMod.natCast_eq_zero_iff] at zero
      exact absurd zero (by decide)
  · intro le
    rw [toNat_difference_of_le le, Nat.cast_sub le]

end AMTNodeWriteGuard

/-! ### The commitment follows the data -/

section

variable {pp : AMTParams G G₂ height} {shardRoot : Option (NodeIndex height)}
  {view next : AMTView Data G height}

namespace AMTView

theorem Consistent.replace (consistent : view.Consistent pp) {index : Fin (2 ^ height)}
    {value : Data} (done : view.replace pp shardRoot index value = some next)
    (notLower : ∀ newFrInt, AMTData.asFrInt value = some newFrInt →
      (view.frInt index).toNat ≤ newFrInt.toNat) : next.Consistent pp := by
  obtain ⟨newFrInt, oldFrInt, new, old, data, -, commitment, -⟩ := replace_eq_some done
  have sameOld : view.frInt index = oldFrInt := by rw [frInt, old, Option.getD_some]
  have frInts : next.frInt = Function.update view.frInt index newFrInt := by
    funext other
    rw [frInt, data]
    by_cases same : other = index
    · subst same
      rw [Function.update_self, Function.update_self, new, Option.getD_some]
    · rw [Function.update_of_ne same, Function.update_of_ne same, frInt]
  refine ⟨fun other => ?_, ?_⟩
  · by_cases same : other = index
    · subst same
      rw [frInts, data, Function.update_self, Function.update_self, new]
    · rw [frInts, data, Function.update_of_ne same, Function.update_of_ne same]
      exact consistent.defined other
  · have le := notLower newFrInt new
    rw [sameOld] at le
    have moved : mul (pp.commitments index) oldFrInt +
        mul (pp.commitments index) (AMTNodeWriteGuard.difference newFrInt oldFrInt) =
          mul (pp.commitments index) newFrInt := by
      rw [mul, mul, mul, ← add_smul, AMTNodeWriteGuard.toNat_difference_of_le le,
        Nat.add_sub_cancel' le]
    have others : ∑ other ∈ Finset.univ.erase index, mul (pp.commitments other) (next.frInt other) =
        ∑ other ∈ Finset.univ.erase index, mul (pp.commitments other) (view.frInt other) := by
      refine Finset.sum_congr rfl fun other member => ?_
      rw [frInts, Function.update_of_ne (Finset.ne_of_mem_erase member)]
    rw [commitment, consistent.commitment, weight, weight,
      ← Finset.add_sum_erase _ _ (Finset.mem_univ index),
      ← Finset.add_sum_erase _ (fun other => mul (pp.commitments other) (next.frInt other))
        (Finset.mem_univ index), others, frInts, Function.update_self, ← moved, sameOld]
    abel

end AMTView

namespace AMTreeStore

variable {name : Name} {store final : AMTreeStore Name Data G height}

/-- A store and the contents it stands for. -/
def Represents (name : Name) (shardRoot : Option (NodeIndex height))
    (store : AMTreeStore Name Data G height) (view : AMTView Data G height) : Prop :=
  store.tree.Represents store.db name shardRoot view

theorem represents_opened :
    (opened name shardRoot : AMTreeStore Name Data G height).Represents name shardRoot .empty :=
  AMTree.represents_new fun _ _ => rfl

/-- Every operation on the store is the one on the contents. -/
theorem Represents.step (represents : store.Represents name shardRoot view)
    (pp : AMTParams G G₂ height) (op : AMTreeOp Data) :
    Option.Rel (fun first second => first.1.Represents name shardRoot second.1 ∧
      first.2 = second.2) (store.step pp op) (view.step pp shardRoot op) := by
  have lawfulArray := lawfulLayout_fin (le_trans pp.depths_le (by norm_num : 28 ≤ 32))
  have lawfulTree := lawfulLayout_nodeIndex (le_trans pp.depths_le (by norm_num : 28 ≤ 31))
  obtain ⟨flushed, done, stands, -⟩ := AMTree.Represents.flush represents
  cases op with
  | write index value =>
    rw [AMTreeStore.step, AMTView.step]
    by_cases inside : index < 2 ^ height
    · obtain ⟨index, rfl⟩ : ∃ bounded : Fin (2 ^ height), bounded.val = index :=
        ⟨⟨index, inside⟩, rfl⟩
      rw [checkIndex_val]
      simp only [Option.bind_eq_bind, Option.bind_some]
      rcases AMTree.Represents.writeVersions represents pp index with
        ⟨undefined, failed⟩ | ⟨guard, taken, -, dropped⟩
      · rw [failed, AMTView.replace, undefined]
        exact Option.Rel.none
      · rw [taken, Option.bind_some]
        exact Option.rel_bind (dropped value) fun tree view stands =>
          Option.Rel.some ⟨stands.1, trivial⟩
    · have outside : checkIndex height index = none := dif_neg inside
      rw [AMTree.writeVersions, outside]
      exact Option.Rel.none
  | flush =>
    rw [AMTreeStore.step, done]
    exact Option.Rel.some ⟨stands, rfl⟩
  | reopen =>
    rw [AMTreeStore.step, done]
    exact Option.Rel.some ⟨stands, rfl⟩

theorem Represents.run (represents : store.Represents name shardRoot view)
    (pp : AMTParams G G₂ height) (ops : List (AMTreeOp Data)) :
    Option.Rel (fun first second => first.1.Represents name shardRoot second.1 ∧
      first.2 = second.2) (PartialRun.run (AMTreeStore.step pp) store ops)
      (PartialRun.run (AMTView.step pp shardRoot) view ops) :=
  PartialRun.run_rel (Represents name shardRoot)
    (fun _ _ op represents => Represents.step represents pp op) represents ops

theorem Represents.lowersNothing (represents : store.Represents name shardRoot view)
    {index : Fin (2 ^ height)} {value : Data} (consistent : view.Consistent pp)
    (lowersNothing : store.LowersNothing (.write index value)) {newFrInt : FrInt}
    (new : AMTData.asFrInt value = some newFrInt) :
    (view.frInt index).toNat ≤ newFrInt.toNat := by
  obtain ⟨next, read, -⟩ := AMTree.Represents.get represents index
  exact lowersNothing _ _ _ _ read (consistent.defined index) new

theorem Represents.commitmentFollowsData (represents : store.Represents name shardRoot view)
    (consistent : view.Consistent pp)
    (belowModulus : ∀ (data : Data) frInt, AMTData.asFrInt data = some frInt →
      frInt.toNat < FrParams.MODULUS) : store.CommitmentFollowsData pp := by
  refine ⟨view.data, fun index => ((view.frInt index).toNat : Fr), fun index => ?_,
    fun index => ?_, ?_⟩
  · obtain ⟨next, read, -⟩ := AMTree.Represents.get represents index
    exact ⟨next, read⟩
  · rw [AMTData.asFr, consistent.defined, Option.bind_some, FrInt.toFr,
      if_pos (belowModulus _ _ (consistent.defined index))]
  · rw [represents.commitment, consistent.commitment, AMTView.weight]
    congr 1
    refine Finset.sum_congr rfl fun index _ => ?_
    have canonical : FrInt.toFr (view.frInt index) = some ((view.frInt index).toNat : Fr) :=
      if_pos (belowModulus _ _ (consistent.defined index))
    rw [(FrInt.ofFr_toFr canonical).1]

/-- The invariant of the runs that lower no integer. -/
def Consistent (pp : AMTParams G G₂ height) (name : Name) (shardRoot : Option (NodeIndex height))
    (store : AMTreeStore Name Data G height) : Prop :=
  ∃ view, store.Represents name shardRoot view ∧ view.Consistent pp

theorem Consistent.step {next : AMTreeStore Name Data G height} {op : AMTreeOp Data} {out : Unit}
    (consistent : store.Consistent pp name shardRoot) (lowersNothing : store.LowersNothing op)
    (done : store.step pp op = some (next, out)) : next.Consistent pp name shardRoot := by
  obtain ⟨view, represents, sums⟩ := consistent
  have simulated := represents.step pp op
  rw [done] at simulated
  obtain ⟨⟨after, _⟩, viewed, stands, -⟩ := simulated.of_some_left
  refine ⟨after, stands, ?_⟩
  cases op with
  | write index value =>
    simp only [AMTView.step, Option.bind_eq_bind, Option.bind_eq_some_iff] at viewed
    obtain ⟨bounded, inside, replaced, viewed, same⟩ := viewed
    obtain ⟨rfl, -⟩ := Prod.mk.inj (Option.some.inj same)
    obtain rfl := checkIndex_eq_some inside
    exact sums.replace viewed fun newFrInt new =>
      represents.lowersNothing sums lowersNothing new
  | flush =>
    obtain ⟨rfl, -⟩ := Prod.mk.inj (Option.some.inj viewed)
    exact ⟨sums.defined, sums.commitment⟩
  | reopen =>
    obtain ⟨rfl, -⟩ := Prod.mk.inj (Option.some.inj viewed)
    exact ⟨sums.defined, sums.commitment⟩

/-- In every run in which no write lowers a leaf's integer, the commitment is the sum of the
scaled indents of the current data. -/
theorem commitment_follows_data (pp : AMTParams G G₂ height) (name : Name)
    (shardRoot : Option (NodeIndex height))
    (belowModulus : ∀ (data : Data) frInt, AMTData.asFrInt data = some frInt →
      frInt.toNat < FrParams.MODULUS)
    {ops : List (AMTreeOp Data)} {final : AMTreeStore Name Data G height} {outputs : List Unit}
    (meets : PartialRun.Meets (step pp) LowersNothing (opened name shardRoot) ops)
    (done : PartialRun.run (step pp) (opened name shardRoot) ops = some (final, outputs)) :
    final.CommitmentFollowsData pp := by
  have invariant : final.Consistent pp name shardRoot :=
    PartialRun.run_invariant_of_meets
      (fun store op next out lowersNothing consistent stepped =>
        Consistent.step consistent lowersNothing stepped)
      ⟨.empty, represents_opened, AMTView.consistent_empty pp⟩ meets done
  obtain ⟨view, represents, consistent⟩ := invariant
  exact represents.commitmentFollowsData consistent belowModulus

end AMTreeStore

end

/-! ### Two runs of a tree of plain integers -/

namespace AMTreeStore

/-- An empty tree with 64 plain integers as its leaves. -/
def plain : AMTreeStore UInt64 UInt64 Fr 6 := opened 64 none

/-- The trees of the tests. -/
def plainParams : AMTParams Fr Fr 6 := AMTParams.unit 6 (by decide)

/-- A write of five and then of seven. -/
def ascending : List (AMTreeOp UInt64) := [.write 3 5, .write 3 7, .reopen]

/-- A write of one and then of zero. -/
def descending : List (AMTreeOp UInt64) := [.write 0 1, .write 0 0]

theorem ascending_meets : PartialRun.Meets (step plainParams) LowersNothing plain ascending := by
  constructor
  · intro old next oldFrInt newFrInt read
    obtain rfl : 0 = old := Option.some.inj (congrArg (Option.map Prod.fst) read)
    rintro ⟨⟩ -
    exact Nat.zero_le _
  · intro next stepped
    obtain rfl := Option.some.inj stepped
    refine ⟨?_, fun _ _ => ⟨trivial, fun _ _ => trivial⟩⟩
    intro old next oldFrInt newFrInt read
    obtain rfl : 5 = old := Option.some.inj (congrArg (Option.map Prod.fst) read)
    rintro ⟨⟩ ⟨⟩
    decide

theorem commitment_follows_data_ascending :
    ∃ final outputs,
      PartialRun.run (step plainParams) plain ascending = some (final, outputs) ∧
        final.CommitmentFollowsData plainParams := by
  obtain ⟨⟨final, outputs⟩, done⟩ : ∃ result,
      PartialRun.run (step plainParams) plain ascending = some result :=
    Option.isSome_iff_exists.mp rfl
  refine ⟨final, outputs, done, commitment_follows_data plainParams 64 none ?_ ascending_meets done⟩
  rintro number frInt ⟨⟩
  have small : number.toNat < 2 ^ 64 := number.toNat_lt
  rw [BitVec.toNat_ofNat]
  exact lt_of_le_of_lt (Nat.mod_le _ _) (lt_trans small (by decide))

/-- After the second write all data is zero again, and the commitment is not. -/
theorem commitment_after_descending :
    ∃ final outputs,
      PartialRun.run (step plainParams) plain descending = some (final, outputs) ∧
        ¬ final.CommitmentFollowsData plainParams := by
  have start : plain.Represents 64 none .empty := represents_opened
  have simulated := start.run plainParams descending
  obtain ⟨⟨final, outputs⟩, done⟩ : ∃ result,
      PartialRun.run (step plainParams) plain descending = some result :=
    Option.isSome_iff_exists.mp rfl
  refine ⟨final, outputs, done, ?_⟩
  rintro ⟨data, scalars, read, scalar, commitment⟩
  rw [done] at simulated
  obtain ⟨⟨view, outputs'⟩, viewed, represents, -⟩ := simulated.of_some_left
  have leaves : view.data =
      Function.update (Function.update (fun _ => 0) (0 : Fin (2 ^ 6)) 1) 0 (0 : UInt64) := by
    rw [← (Prod.mk.inj (Option.some.inj viewed)).1]
    rfl
  have moved : ¬ view.commitment = 0 := by
    have value : view.commitment = 0 + mul (1 : Fr) 1 +
        mul (1 : Fr) (AMTNodeWriteGuard.difference 0 1) := by
      rw [← (Prod.mk.inj (Option.some.inj viewed)).1]
      rfl
    rw [value, mul, mul, nsmul_one, nsmul_one, zero_add, ← Nat.cast_add, ZMod.natCast_eq_zero_iff]
    decide
  have zero : ∀ index, scalars index = 0 := by
    intro index
    obtain ⟨next, found⟩ := read index
    obtain ⟨next', found', -⟩ := AMTree.Represents.get represents index
    rw [found, leaves, Function.update_idem, Function.update_apply, ite_self] at found'
    have expected := scalar index
    rw [(Prod.mk.inj (Option.some.inj found')).1] at expected
    exact (Option.some.inj expected).symm
  rw [Finset.sum_eq_zero fun index _ => by rw [zero]; rfl, represents.commitment] at commitment
  exact moved (Option.some.inj commitment)

end AMTreeStore

end AuthStorage.Lvmt
