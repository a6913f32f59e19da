/-
This file says what a tree is, caches and store aside: total maps for the leaf
data, the subtree roots and the inner nodes, together with the commitment and
the dirty flag. Every operation of `AMTree` is shown to be one of these maps'
operations, for any contents of the store and any state of the three caches.
-/

import AuthStorage.Library.Partial
import AuthStorage.Lvmt.AMTree

namespace AuthStorage.Lvmt

/-- The contents of a tree. -/
structure AMTView (Data G : Type) (height : Nat) where
  data : Fin (2 ^ height) → Data
  subtreeRoots : Fin (2 ^ height) → G
  innerNodes : NodeIndex height → AMTNode G
  commitment : G
  dirty : Bool

namespace AMTView

variable {Data G G₂ : Type} {height : Nat}

/-- A leaf with another commitment of the tree below it. -/
def setSubtreeRoot (view : AMTView Data G height) (index : Fin (2 ^ height)) (root : G) :
    AMTView Data G height :=
  { view with subtreeRoots := Function.update view.subtreeRoots index root }

/-- The inner nodes a proof of `index` consists of, from depth one down. -/
def proofOf (view : AMTView Data G height) (index : Nat) : AMTProof G :=
  ((List.finRange height).map fun up => view.innerNodes (NodeIndex.siblingOf index up)).reverse

/-- Flushing only clears the dirty flag. -/
def clean (view : AMTView Data G height) : AMTView Data G height := { view with dirty := false }

section

variable (view : AMTView Data G height) (index : Fin (2 ^ height)) (root : G)

@[simp] theorem setSubtreeRoot_data : (view.setSubtreeRoot index root).data = view.data := rfl

@[simp] theorem setSubtreeRoot_subtreeRoots : (view.setSubtreeRoot index root).subtreeRoots =
    Function.update view.subtreeRoots index root := rfl

@[simp] theorem setSubtreeRoot_commitment :
    (view.setSubtreeRoot index root).commitment = view.commitment := rfl

@[simp] theorem setSubtreeRoot_dirty :
    (view.setSubtreeRoot index root).dirty = view.dirty := rfl

@[simp] theorem clean_data : view.clean.data = view.data := rfl

@[simp] theorem clean_subtreeRoots : view.clean.subtreeRoots = view.subtreeRoots := rfl

@[simp] theorem clean_commitment : view.clean.commitment = view.commitment := rfl

@[simp] theorem clean_dirty : view.clean.dirty = false := rfl

theorem clean_of_not_dirty {view : AMTView Data G height} (clean : view.dirty = false) :
    view.clean = view := by
  cases view
  cases clean
  rfl

end

/-- The subtree roots are those of `view`, and so is the commitment unless the tree is dirty. -/
structure LeafWritten (view next : AMTView Data G height) : Prop where
  roots : next.subtreeRoots = view.subtreeRoots
  clean : next.dirty = false → view.dirty = false ∧ next.commitment = view.commitment

/-! ### The operations -/

variable [Curve G]

/-- The contents of a tree nothing was ever written to. -/
def empty [Inhabited Data] : AMTView Data G height where
  data _ := default
  subtreeRoots _ := 0
  innerNodes _ := default
  commitment := 0
  dirty := false

/-- What an update adds at the node `up` levels above the leaf. -/
def increment (pp : AMTParams G G₂ height) (index : Fin (2 ^ height)) (updateFrInt : FrInt)
    (up : Fin height) : AMTNode G where
  commitment := mul (pp.commitments index) updateFrInt
  proof := mul (pp.quotients (Fin.rev up) index) updateFrInt

/-- Add an update to one inner node on the path, if the shard maintains it. -/
def addInner (pp : AMTParams G G₂ height) (shardRoot : NodeIndex height)
    (index : Fin (2 ^ height)) (updateFrInt : FrInt) (innerNodes : NodeIndex height → AMTNode G)
    (up : Fin height) : NodeIndex height → AMTNode G :=
  if (NodeIndex.ancestorOf index up).needsMaintain shardRoot then
    let node := innerNodes (NodeIndex.ancestorOf index up)
    let added := increment pp index updateFrInt up
    Function.update innerNodes (NodeIndex.ancestorOf index up)
      ⟨node.commitment + added.commitment, node.proof + added.proof⟩
  else
    innerNodes

/-- The inner nodes after an update. -/
def addPath (pp : AMTParams G G₂ height) (shardRoot : Option (NodeIndex height))
    (index : Fin (2 ^ height)) (updateFrInt : FrInt) (innerNodes : NodeIndex height → AMTNode G) :
    NodeIndex height → AMTNode G :=
  match shardRoot with
  | none => innerNodes
  | some shardRoot =>
    (List.finRange height).foldl (addInner pp shardRoot index updateFrInt) innerNodes

/-- Add to a leaf's integer: the inner nodes on the path and the commitment change. -/
def update (pp : AMTParams G G₂ height) (shardRoot : Option (NodeIndex height))
    (view : AMTView Data G height) (index : Fin (2 ^ height)) (updateFrInt : FrInt) :
    AMTView Data G height :=
  if updateFrInt = 0 then
    view
  else
    { view with
      innerNodes := addPath pp shardRoot index updateFrInt view.innerNodes
      commitment := view.commitment + mul (pp.commitments index) updateFrInt
      dirty := true }

/-- A write guard from creation to drop: replace one leaf and move the commitment. -/
def replace [AMTData Data] (pp : AMTParams G G₂ height) (shardRoot : Option (NodeIndex height))
    (view : AMTView Data G height) (index : Fin (2 ^ height)) (value : Data) :
    Option (AMTView Data G height) := do
  let oldFrInt ← AMTData.asFrInt (view.data index)
  let newFrInt ← AMTData.asFrInt value
  let written := { view with data := Function.update view.data index value }
  some (update pp shardRoot written index (AMTNodeWriteGuard.difference newFrInt oldFrInt))

section

variable (pp : AMTParams G G₂ height) (shardRoot : Option (NodeIndex height))
  (view : AMTView Data G height) (index : Fin (2 ^ height)) (updateFrInt : FrInt)

@[simp] theorem update_data : (view.update pp shardRoot index updateFrInt).data = view.data := by
  unfold update
  split <;> rfl

@[simp] theorem update_subtreeRoots :
    (view.update pp shardRoot index updateFrInt).subtreeRoots = view.subtreeRoots := by
  unfold update
  split <;> rfl

theorem update_commitment : (view.update pp shardRoot index updateFrInt).commitment =
    view.commitment + mul (pp.commitments index) updateFrInt := by
  unfold update
  split
  · rename_i zero
    rw [zero]
    simp [mul]
  · rfl

theorem update_dirty : (view.update pp shardRoot index updateFrInt).dirty =
    (view.dirty || decide (updateFrInt ≠ 0)) := by
  unfold update
  split <;> simp_all

theorem update_leafWritten : view.LeafWritten (view.update pp shardRoot index updateFrInt) where
  roots := update_subtreeRoots _ _ _ _ _
  clean isClean := by
    rw [update_dirty, Bool.or_eq_false_iff, decide_eq_false_iff_not, not_not] at isClean
    rw [update_commitment, isClean.2]
    exact ⟨isClean.1, by simp [mul]⟩

end

section

variable [AMTData Data] {pp : AMTParams G G₂ height} {shardRoot : Option (NodeIndex height)}
  {view next : AMTView Data G height} {index : Fin (2 ^ height)} {value : Data}

/-- What a guard leaves behind. -/
theorem replace_eq_some (done : view.replace pp shardRoot index value = some next) :
    ∃ newFrInt oldFrInt, AMTData.asFrInt value = some newFrInt ∧
      AMTData.asFrInt (view.data index) = some oldFrInt ∧
      next.data = Function.update view.data index value ∧
      next.subtreeRoots = view.subtreeRoots ∧
      next.commitment = view.commitment +
        mul (pp.commitments index) (AMTNodeWriteGuard.difference newFrInt oldFrInt) ∧
      next.dirty = (view.dirty ||
        decide (AMTNodeWriteGuard.difference newFrInt oldFrInt ≠ 0)) := by
  rw [replace] at done
  obtain ⟨oldFrInt, old, done⟩ := Option.bind_eq_some_iff.mp done
  obtain ⟨newFrInt, new, done⟩ := Option.bind_eq_some_iff.mp done
  obtain rfl := Option.some.inj done
  exact ⟨newFrInt, oldFrInt, new, old, update_data _ _ _ _ _, update_subtreeRoots _ _ _ _ _,
    update_commitment _ _ _ _ _, update_dirty _ _ _ _ _⟩

theorem replace_leafWritten (done : view.replace pp shardRoot index value = some next) :
    view.LeafWritten next := by
  rw [replace] at done
  obtain ⟨oldFrInt, -, done⟩ := Option.bind_eq_some_iff.mp done
  obtain ⟨newFrInt, -, done⟩ := Option.bind_eq_some_iff.mp done
  obtain rfl := Option.some.inj done
  have written := update_leafWritten pp shardRoot
    { view with data := Function.update view.data index value } index
    (AMTNodeWriteGuard.difference newFrInt oldFrInt)
  exact ⟨written.roots, written.clean⟩

/-- A leaf without an integer cannot be replaced. -/
theorem replace_of_undefined (undefined : AMTData.asFrInt (view.data index) = none) :
    view.replace pp shardRoot index value = none := by
  rw [replace, undefined]
  rfl

end

end AMTView

/-! ### Trees over a store -/

namespace AMTree

variable {Name Data G G₂ Gt : Type} {height : Nat} [Curve G] [AMTData Data] [MyToBytes Name]

/-- The tree of the given name, over the store, has the given contents. -/
structure Represents (tree : AMTree Name Data G height) (db : DBColumn) (name : Name)
    (shardRoot : Option (NodeIndex height)) (view : AMTView Data G height) : Prop where
  nameEq : tree.name = name
  shardRootEq : tree.shardRoot = shardRoot
  dataPrefix : tree.data.keyPrefix = setPrefix 1 name
  innerPrefix : tree.innerNodes.keyPrefix = setPrefix 2 name
  rootsPrefix : tree.subtreeRoots.keyPrefix = setPrefix 3 name
  data : tree.data.Represents db view.data
  innerNodes : tree.innerNodes.Represents db view.innerNodes
  subtreeRoots : tree.subtreeRoots.Represents db view.subtreeRoots
  commitment : tree.commitment = some view.commitment
  dirty : tree.dirty = view.dirty

/-- The store keys a tree may write. -/
def OwnsKey (height : Nat) (name : Name) (key : Bytes) : Prop :=
  (∃ index : Fin (2 ^ height), key = DBAccess.computeKey (setPrefix 1 name) index) ∨
    (∃ node : NodeIndex height, key = DBAccess.computeKey (setPrefix 2 name) node) ∨
    ∃ index : Fin (2 ^ height), key = DBAccess.computeKey (setPrefix 3 name) index

variable {tree : AMTree Name Data G height} {db : DBColumn} {name : Name}
  {shardRoot : Option (NodeIndex height)} {view : AMTView Data G height}

/-- Only the tree's own store keys matter. -/
theorem Represents.frame (represents : tree.Represents db name shardRoot view) {other : DBColumn}
    (same : ∀ key, OwnsKey height name key → other key = db key) :
    tree.Represents other name shardRoot view where
  __ := represents
  data := represents.data.frame fun index =>
    same _ (Or.inl ⟨index, by rw [represents.dataPrefix]⟩)
  innerNodes := represents.innerNodes.frame fun node =>
    same _ (Or.inr (Or.inl ⟨node, by rw [represents.innerPrefix]⟩))
  subtreeRoots := represents.subtreeRoots.frame fun index =>
    same _ (Or.inr (Or.inr ⟨index, by rw [represents.rootsPrefix]⟩))

theorem Represents.get (represents : tree.Represents db name shardRoot view)
    (index : Fin (2 ^ height)) :
    ∃ next, tree.get db index = some (view.data index, next) ∧
      next.Represents db name shardRoot view := by
  obtain ⟨data, done, stands, samePrefix⟩ := represents.data.get index
  refine ⟨{ tree with data }, ?_, { represents with
    data := stands
    dataPrefix := by rw [← represents.dataPrefix, ← samePrefix] }⟩
  rw [AMTree.get, checkIndex_val]
  show (tree.data.get db index).bind _ = _
  rw [done]
  rfl

theorem Represents.subtreeRoot (represents : tree.Represents db name shardRoot view)
    (index : Fin (2 ^ height)) :
    ∃ next, tree.subtreeRoot db index = some (view.subtreeRoots index, next) ∧
      next.Represents db name shardRoot view := by
  obtain ⟨subtreeRoots, done, stands, samePrefix⟩ := represents.subtreeRoots.getMut index
  refine ⟨{ tree with subtreeRoots }, ?_, { represents with
    subtreeRoots := stands
    rootsPrefix := by rw [← represents.rootsPrefix, ← samePrefix] }⟩
  rw [AMTree.subtreeRoot, checkIndex_val]
  show (tree.subtreeRoots.getMut db index).bind _ = _
  rw [done]
  rfl

theorem Represents.setSubtreeRoot (represents : tree.Represents db name shardRoot view)
    (index : Fin (2 ^ height)) (root : G) :
    ∃ next, tree.setSubtreeRoot db index root = some next ∧
      next.Represents db name shardRoot (view.setSubtreeRoot index root) := by
  obtain ⟨subtreeRoots, done, stands, samePrefix⟩ := represents.subtreeRoots.getMut index
  refine ⟨{ tree with subtreeRoots := subtreeRoots.set index root }, ?_, { represents with
    subtreeRoots := stands.set index root
    rootsPrefix := by rw [← represents.rootsPrefix, ← samePrefix]; rfl }⟩
  rw [AMTree.setSubtreeRoot, checkIndex_val]
  show (tree.subtreeRoots.getMut db index).bind _ = _
  rw [done]
  rfl

theorem getQuotientPow_rev (pp : AMTParams G G₂ height) (index : Fin (2 ^ height))
    (updateFrInt : FrInt) (up : Fin height) :
    pp.getQuotientPow (height - up) index updateFrInt =
      some (AMTView.increment pp index updateFrInt up).proof := by
  have bound := up.isLt
  have inside : 0 < height - up.val ∧ height - up.val - 1 < height := by omega
  have same : (⟨height - up.val - 1, inside.2⟩ : Fin height) = Fin.rev up := by
    apply Fin.ext
    rw [Fin.val_rev]
    exact Nat.sub_sub _ _ _
  rw [AMTParams.getQuotientPow, AMTParams.getQuotient, dif_pos inside, same, Option.map_some,
    mulByTable_eq]
  rfl

theorem updateInner_represents (pp : AMTParams G G₂ height) (shardRoot : NodeIndex height)
    (index : Fin (2 ^ height)) (updateFrInt : FrInt) (keyPrefix : Bytes)
    {innerNodes : DBAccess (NodeIndex height) (AMTNode G)}
    {content : NodeIndex height → AMTNode G}
    (represents : innerNodes.Represents db content ∧ innerNodes.keyPrefix = keyPrefix)
    (up : Fin height) :
    Option.Rel (fun next content => next.Represents db content ∧ next.keyPrefix = keyPrefix)
      (updateInner pp db shardRoot index updateFrInt (mul (pp.commitments index) updateFrInt)
        innerNodes up)
      (some (AMTView.addInner pp shardRoot index updateFrInt content up)) := by
  unfold updateInner AMTView.addInner
  dsimp only
  rw [getQuotientPow_rev]
  by_cases maintained : (NodeIndex.ancestorOf index up).needsMaintain shardRoot
  · obtain ⟨next, done, stands, samePrefix⟩ :=
      represents.1.getMut (NodeIndex.ancestorOf index up)
    rw [if_pos maintained, if_pos maintained]
    show Option.Rel _ ((innerNodes.getMut db (NodeIndex.ancestorOf index up)).bind _) _
    rw [done]
    exact Option.Rel.some ⟨stands.set _ _, by rw [← represents.2, ← samePrefix]; rfl⟩
  · rw [if_neg maintained, if_neg maintained]
    exact Option.Rel.some represents

/-- An update adds the scaled indent to the commitment, and the scaled indent and quotients to
the maintained inner nodes above the leaf. -/
theorem Represents.update (represents : tree.Represents db name shardRoot view)
    (pp : AMTParams G G₂ height) (index : Fin (2 ^ height)) (updateFrInt : FrInt) :
    ∃ next, tree.update pp db index updateFrInt = some next ∧
      next.Represents db name shardRoot (view.update pp shardRoot index updateFrInt) := by
  rw [AMTree.update, checkIndex_val]
  simp only [Option.bind_eq_bind, Option.bind_some]
  by_cases zero : updateFrInt = 0
  · rw [if_pos zero]
    refine ⟨tree, rfl, ?_⟩
    rw [AMTView.update, if_pos zero]
    exact represents
  · rw [if_neg zero, represents.commitment, Option.bind_some, represents.shardRootEq]
    have rewritten : view.update pp shardRoot index updateFrInt = { view with
        innerNodes := AMTView.addPath pp shardRoot index updateFrInt view.innerNodes
        commitment := view.commitment + mul (pp.commitments index) updateFrInt
        dirty := true } := by
      rw [AMTView.update, if_neg zero]
    rw [rewritten]
    rw [AMTParams.getIdentsPow_eq]
    cases shardRoot with
    | none =>
      exact ⟨_, rfl, { represents with
        shardRootEq := rfl, commitment := rfl, dirty := rfl }⟩
    | some shardRoot =>
      have folded : Option.Rel
          (fun innerNodes content => DBAccess.Represents innerNodes db content ∧
            innerNodes.keyPrefix = setPrefix 2 name)
          ((List.finRange height).foldlM
            (updateInner pp db shardRoot index updateFrInt (mul (pp.commitments index) updateFrInt))
            tree.innerNodes)
          ((List.finRange height).foldlM
            (fun content up =>
              some (AMTView.addInner pp shardRoot index updateFrInt content up))
            view.innerNodes) :=
        Option.rel_foldlM _
          (fun innerNodes content up _ both =>
            updateInner_represents pp shardRoot index updateFrInt _ both up)
          ⟨represents.innerNodes, represents.innerPrefix⟩
      rw [show (fun content up => some (AMTView.addInner pp shardRoot index updateFrInt content up))
        = fun content up => pure (AMTView.addInner pp shardRoot index updateFrInt content up)
        from rfl, List.foldlM_pure] at folded
      obtain ⟨innerNodes, done, stands, samePrefix⟩ := folded.of_some_right
      refine ⟨{ tree with
        innerNodes := innerNodes
        commitment := some (view.commitment + mul (pp.commitments index) updateFrInt)
        dirty := true
        shardRoot := some shardRoot }, by simp only [done]; rfl, { represents with
        shardRootEq := rfl
        commitment := rfl
        dirty := rfl
        innerPrefix := samePrefix
        innerNodes := stands }⟩

/-- A guard, dropped after its value was replaced, replaces the leaf in the contents. -/
theorem Represents.writeVersions (represents : tree.Represents db name shardRoot view)
    (pp : AMTParams G G₂ height) (index : Fin (2 ^ height)) :
    (AMTData.asFrInt (view.data index) = none ∧ tree.writeVersions db index = none) ∨
      ∃ guard, tree.writeVersions db index = some guard ∧ guard.value = view.data index ∧
        ∀ value, Option.Rel
          (fun next contents => next.Represents db name shardRoot contents ∧
            view.LeafWritten contents)
          ({ guard with value }.drop pp db) (view.replace pp shardRoot index value) := by
  obtain ⟨data, done, stands, samePrefix⟩ := represents.data.getMut index
  rw [AMTree.writeVersions, checkIndex_val]
  simp only [Option.bind_eq_bind, Option.bind_some, done]
  cases old : AMTData.asFrInt (view.data index) with
  | none => exact Or.inl ⟨rfl, rfl⟩
  | some oldFrInt =>
    refine Or.inr ⟨_, rfl, rfl, fun value => ?_⟩
    rw [AMTNodeWriteGuard.drop, AMTView.replace, old]
    simp only [Option.bind_eq_bind, Option.bind_some]
    cases AMTData.asFrInt value with
    | none => exact Option.Rel.none
    | some newFrInt =>
      have taken := stands.set index default
      obtain ⟨data', done', stands', samePrefix'⟩ := taken.getMut index
      simp only [Option.bind_some, done']
      have written := stands'.set index value
      rw [Function.update_idem] at written
      have replaced : ({ tree with data := data'.set index value } :
          AMTree Name Data G height).Represents db name shardRoot
          { view with data := Function.update view.data index value } :=
        { represents with
          data := written
          dataPrefix := by
            rw [← represents.dataPrefix, ← samePrefix]
            exact samePrefix' }
      obtain ⟨next, updated, final⟩ := replaced.update pp index
        (AMTNodeWriteGuard.difference newFrInt oldFrInt)
      have written := AMTView.update_leafWritten pp shardRoot
        { view with data := Function.update view.data index value } index
        (AMTNodeWriteGuard.difference newFrInt oldFrInt)
      rw [updated]
      exact Option.Rel.some ⟨final, written.roots, written.clean⟩

theorem setPrefix_ne {first second : UInt8} (different : first ≠ second) {K K' : Type}
    [LayoutTrait K] [LayoutTrait K'] (firstName secondName : Name) (index : K) (index' : K') :
    DBAccess.computeKey (setPrefix first firstName) index ≠
      DBAccess.computeKey (setPrefix second secondName) index' := by
  intro same
  have prefixes := DBAccess.computeKey_prefix same
  exact different (List.cons.inj prefixes).1

/-- Flushing leaves the tree as if just opened with its commitment; the contents are kept, and
only the tree's own store keys are written. -/
theorem Represents.flush [LawfulLayout (Fin (2 ^ height))] [LawfulLayout (NodeIndex height)]
    (represents : tree.Represents db name shardRoot view) :
    ∃ flushed,
      tree.flush db =
        some (view.commitment, flushed, (new name shardRoot).setCommitment view.commitment) ∧
      ((new name shardRoot).setCommitment view.commitment).Represents flushed name shardRoot
        view.clean ∧
      ∀ key, ¬ OwnsKey height name key → flushed key = db key := by
  obtain ⟨-, -, dataPrefix, innerPrefix, rootsPrefix, data, innerNodes, subtreeRoots, -, -⟩ :=
    id represents
  have afterData := data.flushCache
  have afterInner := (innerNodes.flushOther tree.data fun index node => by
    rw [dataPrefix, innerPrefix]
    exact setPrefix_ne (by decide) _ _ _ _).flushCache
  have afterRoots := ((subtreeRoots.flushOther tree.data fun index index' => by
    rw [dataPrefix, rootsPrefix]
    exact setPrefix_ne (by decide) _ _ _ _).flushOther tree.innerNodes fun node index => by
      rw [innerPrefix, rootsPrefix]
      exact setPrefix_ne (by decide) _ _ _ _).flushCache
  have done : tree.flush db = some (view.commitment,
      (tree.subtreeRoots.flushCache (tree.innerNodes.flushCache (tree.data.flushCache db).1).1).1,
      (new name shardRoot).setCommitment view.commitment) := by
    rw [AMTree.flush, represents.commitment]
    show some (view.commitment, _, AMTree.mk _ _ _ _ _ _ _) = _
    rw [represents.nameEq, represents.shardRootEq, DBAccess.flushCache, DBAccess.flushCache,
      DBAccess.flushCache, dataPrefix, innerPrefix, rootsPrefix]
    rfl
  rw [dataPrefix] at afterData
  rw [innerPrefix] at afterInner
  rw [rootsPrefix] at afterRoots
  refine ⟨_, done, ⟨rfl, rfl, rfl, rfl, rfl, ?_, ?_, afterRoots, rfl, rfl⟩, ?_⟩
  · refine (afterData.flushOther tree.innerNodes fun node index => ?_).flushOther
      tree.subtreeRoots fun index' index => ?_
    · rw [innerPrefix]
      exact setPrefix_ne (by decide) _ _ _ _
    · rw [rootsPrefix]
      exact setPrefix_ne (by decide) _ _ _ _
  · refine afterInner.flushOther tree.subtreeRoots fun index node => ?_
    rw [rootsPrefix]
    exact setPrefix_ne (by decide) _ _ _ _
  · intro key outside
    calc
      _ = (tree.innerNodes.flushCache (tree.data.flushCache db).1).1 key :=
        DBAccess.flushCache_of_ne fun index same =>
          outside (Or.inr (Or.inr ⟨index, by rw [← same, rootsPrefix]⟩))
      _ = (tree.data.flushCache db).1 key := DBAccess.flushCache_of_ne fun node same =>
        outside (Or.inr (Or.inl ⟨node, by rw [← same, innerPrefix]⟩))
      _ = db key := DBAccess.flushCache_of_ne fun index same =>
        outside (Or.inl ⟨index, by rw [← same, dataPrefix]⟩)

/-- Over a store that holds nothing under the tree's keys, a new tree is empty. -/
theorem represents_new (unwritten : ∀ key, OwnsKey height name key → db key = none) :
    (((new name shardRoot).setCommitment 0 : AMTree Name Data G height)).Represents db name
      shardRoot .empty where
  nameEq := rfl
  shardRootEq := rfl
  dataPrefix := rfl
  innerPrefix := rfl
  rootsPrefix := rfl
  data := (DBAccess.represents_new_empty _).frame fun index => unwritten _ (Or.inl ⟨index, rfl⟩)
  innerNodes := (DBAccess.represents_new_empty _).frame fun node =>
    unwritten _ (Or.inr (Or.inl ⟨node, rfl⟩))
  subtreeRoots := (DBAccess.represents_new_empty _).frame fun index =>
    unwritten _ (Or.inr (Or.inr ⟨index, rfl⟩))
  commitment := rfl
  dirty := rfl

/-! ### Proofs -/

theorem proveInner_represents (keyPrefix : Bytes) (index : Nat)
    (answers : AMTProof G) {innerNodes : DBAccess (NodeIndex height) (AMTNode G)}
    {content : NodeIndex height → AMTNode G}
    (represents : innerNodes.Represents db content ∧ innerNodes.keyPrefix = keyPrefix)
    (up : Fin height) :
    ∃ next, proveInner db index (answers, innerNodes) up =
        some (content (NodeIndex.siblingOf index up) :: answers, next) ∧
      next.Represents db content ∧ next.keyPrefix = keyPrefix := by
  obtain ⟨next, done, stands, samePrefix⟩ :=
    represents.1.getMut (NodeIndex.siblingOf index up)
  refine ⟨next, ?_, stands, by rw [samePrefix, represents.2]⟩
  show (innerNodes.getMut db (NodeIndex.siblingOf index up)).bind _ = _
  rw [done]
  rfl

theorem proveInner_foldlM (keyPrefix : Bytes) (index : Nat) (ups : List (Fin height))
    (answers : AMTProof G) {innerNodes : DBAccess (NodeIndex height) (AMTNode G)}
    {content : NodeIndex height → AMTNode G}
    (represents : innerNodes.Represents db content ∧ innerNodes.keyPrefix = keyPrefix) :
    ∃ next, ups.foldlM (proveInner db index) (answers, innerNodes) =
        some ((ups.map fun up => content (NodeIndex.siblingOf index up)).reverse ++ answers,
          next) ∧
      next.Represents db content ∧ next.keyPrefix = keyPrefix := by
  induction ups generalizing answers innerNodes with
  | nil => exact ⟨innerNodes, rfl, represents⟩
  | cons up rest inductionHypothesis =>
    obtain ⟨middle, stepped, stands⟩ :=
      proveInner_represents keyPrefix index answers represents up
    obtain ⟨next, done, final⟩ :=
      inductionHypothesis (content (NodeIndex.siblingOf index up) :: answers) stands
    refine ⟨next, ?_, final⟩
    rw [List.foldlM_cons, stepped]
    simpa using done

/-- A tree that maintains every node proves a leaf by the siblings of the path to it. -/
theorem Represents.prove (represents : tree.Represents db name (some NodeIndex.root) view)
    (index : Nat) :
    ∃ next, tree.prove db index = some (some (view.proofOf index), next) ∧
      next.Represents db name (some NodeIndex.root) view := by
  obtain ⟨next, done, stands, samePrefix⟩ := proveInner_foldlM (setPrefix 2 name) index
    (List.finRange height) [] ⟨represents.innerNodes, represents.innerPrefix⟩
  refine ⟨{ tree with innerNodes := next }, ?_, { represents with
    innerNodes := stands, innerPrefix := samePrefix }⟩
  rw [AMTree.prove, if_pos (by simp [AMTree.canProve, represents.shardRootEq]), done]
  simp [AMTView.proofOf]

end AMTree

end AuthStorage.Lvmt
