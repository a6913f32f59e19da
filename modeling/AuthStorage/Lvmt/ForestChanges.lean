/-
This file says what the operations on the version forest change. A version that
is incremented makes its tree dirty, whichever way the write takes. A commit
lists a tree exactly if the tree or one below it was dirty, moves its version,
position and commitment into the parent, and leaves every other tree as it was.
-/

import AuthStorage.Lvmt.AMTCommitment
import AuthStorage.Lvmt.Forest

namespace AuthStorage.Lvmt

/-! ### Different integers -/

/-- Integers of leaves are so small that their wrapped difference only vanishes if they agree. -/
theorem AMTNodeWriteGuard.difference_ne_zero {newFrInt oldFrInt : FrInt}
    (newSmall : newFrInt.toNat < 2 ^ 240) (oldSmall : oldFrInt.toNat < 2 ^ 240)
    (different : newFrInt.toNat ≠ oldFrInt.toNat) : difference newFrInt oldFrInt ≠ 0 := by
  intro zero
  have isZero : (difference newFrInt oldFrInt).toNat = 0 := by
    rw [zero]
    rfl
  rcases Nat.lt_or_ge newFrInt.toNat oldFrInt.toNat with lt | le
  · have large : 2 ^ 240 ≤ FrParams.R.toNat := by decide
    have bound := FrParams.R.isLt
    rw [toNat_difference_of_lt lt] at isZero
    omega
  · rw [toNat_difference_of_le le] at isZero
    omega

namespace Node

theorem asFrInt_ne {first second : Node} {firstFrInt secondFrInt : FrInt}
    (firstDone : first.asFrInt = some firstFrInt) (secondDone : second.asFrInt = some secondFrInt)
    (sameLength : first.keyVersions.len = second.keyVersions.len)
    (different : first.versions ≠ second.versions) :
    firstFrInt.toNat ≠ secondFrInt.toNat := by
  rw [(toNat_asFrInt firstDone).1, (toNat_asFrInt secondDone).1]
  intro same
  have digits : ∀ node : Node, ∀ version ∈ node.versions, version < 2 ^ 40 := by
    intro node version member
    obtain ⟨stored, -, rfl⟩ := List.mem_map.mp member
    exact Nat.mod_lt _ (Nat.two_pow_pos 40)
  refine different (Nat.ofDigits_inj_of_len_eq (by norm_num) ?_ (digits first) (digits second) same)
  unfold Vec.len at sameLength
  simp only [versions, List.length_map, List.length_cons, sameLength]

end Node

theorem eq_add_of_checkedAdd {first second sum : UInt64}
    (done : checkedAdd first second = some sum) : sum = first + second := by
  unfold checkedAdd at done
  split at done
  · exact (Option.some.inj done).symm
  · cases done

theorem toNat_checkedAdd {first second sum : UInt64} (done : checkedAdd first second = some sum) :
    sum.toNat = first.toNat + second.toNat := by
  unfold checkedAdd at done
  split at done
  · rename_i fits
    rw [← Option.some.inj done, UInt64.toNat_add, Nat.mod_eq_of_lt fits]
  · cases done

/-- One more is another digit. -/
theorem checkedAdd_one_mod {version sum : UInt64} (done : checkedAdd version 1 = some sum) :
    sum.toNat % 2 ^ 40 ≠ version.toNat % 2 ^ 40 := by
  rw [toNat_checkedAdd done, show (1 : UInt64).toNat = 1 from rfl]
  omega

namespace AMTView

variable {G G₂ : Type} {depths : Nat} [Curve G] {pp : AMTParams G G₂ depths}
  {shardRoot : Option (NodeIndex depths)} {view next : AMTView Node G depths}
  {index : Fin (2 ^ depths)} {value : Node}

/-- Replacing a leaf by one with other versions makes the tree dirty. -/
theorem replace_dirty (done : view.replace pp shardRoot index value = some next)
    (sameLength : value.keyVersions.len = (view.data index).keyVersions.len)
    (different : value.versions ≠ (view.data index).versions) : next.dirty = true := by
  obtain ⟨newFrInt, oldFrInt, new, old, -, -, -, dirty⟩ := replace_eq_some done
  have nonzero : AMTNodeWriteGuard.difference newFrInt oldFrInt ≠ 0 :=
    AMTNodeWriteGuard.difference_ne_zero (Node.toNat_asFrInt new).2 (Node.toNat_asFrInt old).2
      (Node.asFrInt_ne new old sameLength different)
  rw [dirty, decide_eq_true nonzero, Bool.or_true]

end AMTView

namespace Forest

variable {G G₂ : Type} {depths : Nat} [Curve G] {pp : AMTParams G G₂ depths}
  {shardNode : Option (NodeIndex depths)} {epoch startPos : UInt64}
  {forest next : Forest G depths}

/-! ### Versions of keys -/

/-- A version of a key was incremented in a tree. -/
structure Bumped (view next : AMTView Node G depths) : Prop where
  roots : next.subtreeRoots = view.subtreeRoots
  treeVersion : ∀ index, (next.data index).treeVersion = (view.data index).treeVersion
  treePosition : ∀ index, (next.data index).treePosition = (view.data index).treePosition
  dirty : next.dirty = true

theorem bumpKeyVersion_eq_some {node value : Node} {slotIndex : Nat}
    (done : VersionTree.bumpKeyVersion node slotIndex = some value) :
    ∃ version next, node.keyVersions.toList[slotIndex]? = some version ∧
      checkedAdd version 1 = some next ∧
      value.keyVersions.toList = node.keyVersions.toList.set slotIndex next ∧
      value.treeVersion = node.treeVersion ∧ value.treePosition = node.treePosition := by
  rw [VersionTree.bumpKeyVersion] at done
  obtain ⟨version, found, done⟩ := Option.bind_eq_some_iff.mp done
  obtain ⟨next, added, done⟩ := Option.bind_eq_some_iff.mp done
  obtain rfl := Option.some.inj done
  exact ⟨version, next, found, added, rfl, rfl, rfl⟩

theorem bumpKeyVersion_versions_ne {node value : Node} {slotIndex : Nat}
    (done : VersionTree.bumpKeyVersion node slotIndex = some value) :
    value.versions ≠ node.versions := by
  obtain ⟨version, next, found, added, keyVersions, -, -⟩ := bumpKeyVersion_eq_some done
  intro same
  have inside : slotIndex < node.keyVersions.toList.length := by
    by_contra outside
    rw [List.getElem?_eq_none (Nat.le_of_not_lt outside)] at found
    cases found
  have digits := congrArg (fun versions => versions[slotIndex + 1]?) same
  simp only [Node.versions, List.map_cons, List.getElem?_cons_succ, List.getElem?_map, keyVersions,
    List.getElem?_set_self inside, found, Option.map_some] at digits
  exact checkedAdd_one_mod added (Option.some.inj digits)

theorem frIntPow2_ne_zero {slotIndex : Nat} (small : slotIndex < 5) :
    VersionTree.frIntPow2 ((slotIndex + 1) * 40) ≠ 0 := by
  interval_cases slotIndex <;> decide

theorem writeSlot_bumped {shardRoot : Option (NodeIndex depths)} {view after : AMTView Node G depths}
    {inShard : Bool} {index : Fin (2 ^ depths)} {slotIndex : Nat} (small : slotIndex < 5)
    (done : writeSlot pp shardRoot view inShard index slotIndex = some after) :
    Bumped view after := by
  rw [writeSlot] at done
  cases inShard with
  | false =>
    rw [if_neg (by decide)] at done
    obtain rfl := Option.some.inj done
    refine ⟨AMTView.update_subtreeRoots _ _ _ _ _, fun _ => ?_, fun _ => ?_, ?_⟩
    · rw [AMTView.update_data]
    · rw [AMTView.update_data]
    · rw [AMTView.update_dirty, decide_eq_true (frIntPow2_ne_zero small), Bool.or_true]
  | true =>
    rw [if_pos rfl] at done
    obtain ⟨value, bumped, done⟩ := Option.bind_eq_some_iff.mp done
    obtain ⟨version, next, -, -, keyVersions, treeVersion, treePosition⟩ :=
      bumpKeyVersion_eq_some bumped
    obtain ⟨-, -, -, -, data, roots, -, -⟩ := AMTView.replace_eq_some done
    have sameLength : value.keyVersions.len = (view.data index).keyVersions.len := by
      rw [Vec.len, keyVersions, List.length_set]
      rfl
    refine ⟨roots, fun other => ?_, fun other => ?_,
      AMTView.replace_dirty done sameLength (bumpKeyVersion_versions_ne bumped)⟩
    · rw [data]
      by_cases same : other = index
      · rw [same, Function.update_self, treeVersion]
      · rw [Function.update_of_ne same]
    · rw [data]
      by_cases same : other = index
      · rw [same, Function.update_self, treePosition]
      · rw [Function.update_of_ne same]

/-- What incrementing a version in a known slot does. -/
theorem bump_eq_some {key : Key} {verInfo result : VerInfo}
    (done : bump pp shardNode forest key verInfo = some (result, next)) :
    ∃ name inside inShard view, key.treeAtLevel depths verInfo.level.toNat = some name ∧
      key.indexAtLevel depths verInfo.level.toNat = some (inside : Fin (2 ^ depths)).val ∧
      VersionTree.inProofShard shardNode key = some inShard ∧
      writeSlot pp (shardRoot shardNode name) (forest name) inShard inside
        verInfo.slotIndex.toNat = some view ∧
      verInfo.version < maxVersionNumber ∧
      result = { verInfo with version := verInfo.version + 1 } ∧
      next = Function.update forest name view := by
  rw [bump] at done
  obtain ⟨name, named, done⟩ := Option.bind_eq_some_iff.mp done
  obtain ⟨index, indexed, done⟩ := Option.bind_eq_some_iff.mp done
  obtain ⟨inside, checked, done⟩ := Option.bind_eq_some_iff.mp done
  obtain ⟨inShard, shard, done⟩ := Option.bind_eq_some_iff.mp done
  obtain ⟨view, written, done⟩ := Option.bind_eq_some_iff.mp done
  rw [checkIndex_eq_some checked] at indexed
  by_cases below : verInfo.version < maxVersionNumber
  · rw [if_pos below] at done
    obtain ⟨rfl, rfl⟩ := Prod.mk.inj (Option.some.inj done)
    exact ⟨name, inside, inShard, view, named, indexed, shard, written, below, rfl, rfl⟩
  · rw [if_neg below] at done
    cases done

/-- What allocating a slot at a level that is not full does. -/
theorem allocateAt_eq_some {key : Key} {level : Nat} {verInfo : VerInfo}
    (done : allocateAt pp shardNode forest key level = some (some verInfo, next)) :
    ∃ name inside keyVersions view, key.treeAtLevel depths level = some name ∧
      key.indexAtLevel depths level = some (inside : Fin (2 ^ depths)).val ∧
      ((forest name).data inside).keyVersions.len < 5 ∧
      ((forest name).data inside).keyVersions.push 0 = some keyVersions ∧
      (forest name).replace pp (shardRoot shardNode name) inside
        { (forest name).data inside with keyVersions } = some view ∧
      verInfo = ⟨0, UInt8.ofNat level,
        UInt8.ofNat ((forest name).data inside).keyVersions.len⟩ ∧
      next = Function.update forest name view := by
  rw [allocateAt] at done
  obtain ⟨name, named, done⟩ := Option.bind_eq_some_iff.mp done
  obtain ⟨index, indexed, done⟩ := Option.bind_eq_some_iff.mp done
  obtain ⟨inside, checked, done⟩ := Option.bind_eq_some_iff.mp done
  rw [checkIndex_eq_some checked] at indexed
  dsimp only at done
  by_cases vacant : ((forest name).data inside).keyVersions.len < 5
  · rw [if_pos vacant] at done
    obtain ⟨keyVersions, pushed, done⟩ := Option.bind_eq_some_iff.mp done
    obtain ⟨view, replaced, done⟩ := Option.bind_eq_some_iff.mp done
    obtain ⟨same, rfl⟩ := Prod.mk.inj (Option.some.inj done)
    exact ⟨name, inside, keyVersions, view, named, indexed, vacant, pushed, replaced,
      (Option.some.inj same).symm, rfl⟩
  · rw [if_neg vacant] at done
    obtain ⟨impossible, -⟩ := Prod.mk.inj (Option.some.inj done)
    cases impossible

/-- A level that is full is left as it is. -/
theorem allocateAt_full {key : Key} {level : Nat}
    (done : allocateAt pp shardNode forest key level = some (none, next)) :
    next = forest ∧ ∃ name inside, key.treeAtLevel depths level = some name ∧
      key.indexAtLevel depths level = some (inside : Fin (2 ^ depths)).val ∧
      ¬ ((forest name).data inside).keyVersions.len < 5 := by
  rw [allocateAt] at done
  obtain ⟨name, named, done⟩ := Option.bind_eq_some_iff.mp done
  obtain ⟨index, indexed, done⟩ := Option.bind_eq_some_iff.mp done
  obtain ⟨inside, checked, done⟩ := Option.bind_eq_some_iff.mp done
  rw [checkIndex_eq_some checked] at indexed
  dsimp only at done
  by_cases vacant : ((forest name).data inside).keyVersions.len < 5
  · rw [if_pos vacant] at done
    obtain ⟨keyVersions, -, done⟩ := Option.bind_eq_some_iff.mp done
    obtain ⟨view, -, done⟩ := Option.bind_eq_some_iff.mp done
    obtain ⟨impossible, -⟩ := Prod.mk.inj (Option.some.inj done)
    cases impossible
  · rw [if_neg vacant] at done
    exact ⟨(Prod.mk.inj (Option.some.inj done)).2.symm, name, inside, named, indexed, vacant⟩

/-- Allocation ends at some level of the list, and only that level's tree is written. -/
theorem allocateFrom_eq_some {key : Key} {levels : List Nat} {verInfo : VerInfo}
    (done : allocateFrom pp shardNode key levels forest = some (verInfo, next)) :
    ∃ level ∈ levels, allocateAt pp shardNode forest key level = some (some verInfo, next) := by
  induction levels with
  | nil => cases done
  | cons level rest inductionHypothesis =>
    rw [allocateFrom] at done
    obtain ⟨⟨found, middle⟩, tried, continued⟩ := Option.bind_eq_some_iff.mp done
    cases found with
    | some found =>
      obtain ⟨rfl, rfl⟩ := Prod.mk.inj (Option.some.inj continued)
      exact ⟨level, List.mem_cons_self, tried⟩
    | none =>
      obtain ⟨rfl, -⟩ := allocateAt_full tried
      obtain ⟨later, member, found⟩ := inductionHypothesis continued
      exact ⟨later, List.mem_cons_of_mem _ member, found⟩

/-- Incrementing the version of a key makes one tree dirty and leaves all others alone. -/
theorem incKeyVer_bumped {key : Key} {version : Option VerInfo} {verInfo : VerInfo}
    (slots : ∀ given, version = some given → given.slotIndex.toNat < 5)
    (done : incKeyVer pp shardNode forest key version = some (verInfo, next)) :
    verInfo.slotIndex.toNat < 5 ∧ ∃ name view,
      key.treeAtLevel depths verInfo.level.toNat = some name ∧ Bumped (forest name) view ∧
        next = Function.update forest name view := by
  cases version with
  | some given =>
    obtain ⟨name, inside, inShard, view, named, -, -, written, -, rfl, rfl⟩ := bump_eq_some done
    have small := slots _ rfl
    exact ⟨small, name, view, named, writeSlot_bumped small written, rfl⟩
  | none =>
    obtain ⟨⟨start, middle⟩, started, done⟩ := Option.bind_eq_some_iff.mp done
    obtain ⟨name, inside, inShard, view, named, indexed, -, written, -, rfl, rfl⟩ :=
      bump_eq_some done
    obtain ⟨level, member, allocated⟩ := allocateFrom_eq_some started
    obtain ⟨name', inside', keyVersions, view', named', -, vacant, -, replaced, rfl, rfl⟩ :=
      allocateAt_eq_some allocated
    dsimp only at named written ⊢
    have sameLevel : (UInt8.ofNat level).toNat = level := by
      rw [UInt8.toNat_ofNat', Nat.mod_eq_of_lt (lt_trans (List.mem_range.mp member) (by norm_num))]
    have small : (UInt8.ofNat ((forest name').data inside').keyVersions.len).toNat < 5 := by
      rw [UInt8.toNat_ofNat', Nat.mod_eq_of_lt (lt_trans vacant (by norm_num))]
      exact vacant
    rw [sameLevel, named'] at named
    obtain rfl := Option.some.inj named
    rw [Function.update_self] at written
    have bumped := writeSlot_bumped small written
    obtain ⟨-, -, -, -, data, roots, -, -⟩ := AMTView.replace_eq_some replaced
    refine ⟨small, name', view, by rw [sameLevel, named'],
      ⟨bumped.roots.trans roots, fun other => ?_, fun other => ?_, bumped.dirty⟩,
      Function.update_idem _ _ _⟩
    · rw [bumped.treeVersion, data]
      by_cases same : other = inside'
      · rw [same, Function.update_self]
      · rw [Function.update_of_ne same]
    · rw [bumped.treePosition, data]
      by_cases same : other = inside'
      · rw [same, Function.update_self]
      · rw [Function.update_of_ne same]

/-- A slot that does not exist may be written to without any effect. -/
theorem writeSlot_dirty {shardRoot : Option (NodeIndex depths)} {view after : AMTView Node G depths}
    {inShard : Bool} {index : Fin (2 ^ depths)} {slotIndex : Nat}
    (done : writeSlot pp shardRoot view inShard index slotIndex = some after) :
    after.dirty = true ∨ after = view := by
  rw [writeSlot] at done
  cases inShard with
  | false =>
    rw [if_neg (by decide)] at done
    obtain rfl := Option.some.inj done
    by_cases zero : VersionTree.frIntPow2 ((slotIndex + 1) * 40) = 0
    · rw [AMTView.update, if_pos zero]
      exact Or.inr rfl
    · rw [AMTView.update_dirty, decide_eq_true zero, Bool.or_true]
      exact Or.inl rfl
  | true =>
    rw [if_pos rfl] at done
    obtain ⟨value, bumped, done⟩ := Option.bind_eq_some_iff.mp done
    obtain ⟨version, next, -, -, keyVersions, -, -⟩ := bumpKeyVersion_eq_some bumped
    have sameLength : value.keyVersions.len = (view.data index).keyVersions.len := by
      rw [Vec.len, keyVersions, List.length_set]
      rfl
    exact Or.inl (AMTView.replace_dirty done sameLength (bumpKeyVersion_versions_ne bumped))

/-- Only one tree is written, and it is dirty afterwards if anything changed. -/
theorem incKeyVer_dirty {key : Key} {version : Option VerInfo} {verInfo : VerInfo}
    (done : incKeyVer pp shardNode forest key version = some (verInfo, next)) :
    next = forest ∨ ∃ name view, name.Proper depths ∧ view.dirty = true ∧
      next = Function.update forest name view := by
  cases version with
  | some given =>
    obtain ⟨name, inside, inShard, view, named, -, -, written, -, -, rfl⟩ := bump_eq_some done
    rcases writeSlot_dirty written with dirty | rfl
    · have proper := Key.proper_treeAtLevel pp.depths_le named
        (Nat.le_of_lt_succ given.level.toNat_lt)
      exact Or.inr ⟨name, view, proper, dirty, rfl⟩
    · exact Or.inl (Function.update_eq_self _ _)
  | none =>
    obtain ⟨-, name, view, named, bumped, rfl⟩ :=
      incKeyVer_bumped (fun given impossible => by cases impossible) done
    have proper := Key.proper_treeAtLevel pp.depths_le named
      (Nat.le_of_lt_succ verInfo.level.toNat_lt)
    exact Or.inr ⟨name, view, proper, bumped.dirty, rfl⟩

/-- Only trees with proper names are dirty. -/
def OnlyProper (forest : Forest G depths) : Prop :=
  ∀ name, (forest name).dirty = true → name.Proper depths

theorem OnlyProper.incKeyVer (onlyProper : OnlyProper forest) {key : Key}
    {version : Option VerInfo} {verInfo : VerInfo}
    (done : Forest.incKeyVer pp shardNode forest key version = some (verInfo, next)) :
    OnlyProper next := by
  rcases incKeyVer_dirty done with rfl | ⟨name, view, proper, -, rfl⟩
  · exact onlyProper
  · intro other dirty
    by_cases same : other = name
    · rwa [same]
    · rw [Function.update_of_ne same] at dirty
      exact onlyProper other dirty

/-! ### Commits -/

/-- The tree or one below it is dirty. -/
def Changed (forest : Forest G depths) (name : TreeName) : Prop :=
  ∃ touched, (forest touched).dirty = true ∧ TreeName.Below name touched

section

variable {state after : Forest G depths × List (VersionTree.SubTreeUpdate G)}

/-- Moving a changed tree into its parent makes the parent dirty. -/
theorem parent_dirty_of_commitOne {parent : TreeName} {index : UInt32}
    (changed : (state.1 (parent.child index)).dirty = true)
    (done : commitOne pp shardNode epoch startPos state (parent.child index) = some after) :
    (after.1 parent).dirty = true := by
  obtain ⟨inside, treeVersion, position, above, -, version, -, replaced, rfl⟩ :=
    commitOne_eq_some changed done
  dsimp only
  rw [Function.update_self]
  refine AMTView.replace_dirty replaced rfl fun same => ?_
  exact checkedAdd_one_mod version (List.cons.inj same).1

/-- What is changed below a name is not affected when a tree is moved into its parent, unless it
is that tree. -/
theorem changed_commitOne {parent name : TreeName} {index : UInt32}
    (changed : (state.1 (parent.child index)).dirty = true)
    (done : commitOne pp shardNode epoch startPos state (parent.child index) = some after)
    (different : name ≠ parent.child index) :
    Changed after.1 name ↔ Changed state.1 name := by
  constructor
  · rintro ⟨touched, dirty, below⟩
    by_cases isParent : touched = parent
    · subst isParent
      exact ⟨_, changed, Or.inr below⟩
    · exact ⟨touched, (dirty_of_commitOne done dirty isParent).2, below⟩
  · rintro ⟨touched, dirty, below⟩
    by_cases isParent : touched = parent
    · exact ⟨parent, parent_dirty_of_commitOne changed done, isParent ▸ below⟩
    · by_cases isChild : touched = parent.child index
      · subst isChild
        refine ⟨parent, parent_dirty_of_commitOne changed done, ?_⟩
        exact below.resolve_left fun same => different same.symm
      · obtain ⟨inside, treeVersion, position, above, -, -, -, -, rfl⟩ :=
          commitOne_eq_some changed done
        refine ⟨touched, ?_, below⟩
        dsimp only
        rwa [Function.update_of_ne isParent, Function.update_of_ne isChild]

/-- The parent's record of a child that is not the one moved, and its keys. -/
theorem frame_commitOne {name parent : TreeName} {index : UInt32} {inside : Fin (2 ^ depths)}
    (done : commitOne pp shardNode epoch startPos state name = some after)
    (sameIndex : inside.val = index.toNat) (different : name ≠ parent.child index) :
    (after.1 parent).data inside = (state.1 parent).data inside ∧
      (after.1 parent).subtreeRoots inside = (state.1 parent).subtreeRoots inside := by
  cases name with
  | root =>
    obtain rfl := Option.some.inj done
    exact ⟨rfl, rfl⟩
  | child above other =>
    cases changed : (state.1 (above.child other)).dirty with
    | false =>
      rw [commitOne_of_clean changed] at done
      obtain rfl := Option.some.inj done
      exact ⟨rfl, rfl⟩
    | true =>
      obtain ⟨moved, treeVersion, position, written, movedIndex, -, -, replaced, rfl⟩ :=
        commitOne_eq_some changed done
      obtain ⟨-, -, -, -, data, roots, -, -⟩ := AMTView.replace_eq_some replaced
      dsimp only
      by_cases isParent : parent = above
      · subst isParent
        have apart : inside ≠ moved := by
          rintro rfl
          exact different (congrArg _ (UInt32.toNat_inj.mp (movedIndex.symm.trans sameIndex)))
        rw [Function.update_self, data, roots, AMTView.setSubtreeRoot_data,
          AMTView.setSubtreeRoot_subtreeRoots, Function.update_of_ne apart,
          Function.update_of_ne apart]
        exact ⟨rfl, rfl⟩
      · rw [Function.update_of_ne isParent]
        by_cases isChild : parent = above.child other
        · rw [isChild, Function.update_self]
          exact ⟨rfl, rfl⟩
        · rw [Function.update_of_ne isChild]
          exact ⟨rfl, rfl⟩

/-- What a tree that is moved leaves in its parent's leaf. -/
theorem parent_commitOne {parent : TreeName} {index : UInt32} {inside : Fin (2 ^ depths)}
    (changed : (state.1 (parent.child index)).dirty = true)
    (done : commitOne pp shardNode epoch startPos state (parent.child index) = some after)
    (sameIndex : inside.val = index.toNat) :
    ∃ treeVersion position,
      checkedAdd ((state.1 parent).data inside).treeVersion 1 = some treeVersion ∧
      checkedAdd startPos (UInt64.ofNat state.2.length) = some position ∧
      (after.1 parent).data inside =
        { (state.1 parent).data inside with treeVersion, treePosition := ⟨epoch, position⟩ } ∧
      (after.1 parent).subtreeRoots inside = (state.1 (parent.child index)).commitment ∧
      (after.1 (parent.child index)).commitment = (state.1 (parent.child index)).commitment ∧
      after.2 = state.2 ++
        [(parent.child index, treeVersion, (state.1 (parent.child index)).commitment)] := by
  obtain ⟨moved, treeVersion, position, written, movedIndex, numbered, placed, replaced, rfl⟩ :=
    commitOne_eq_some changed done
  obtain ⟨-, -, -, -, data, roots, -, -⟩ := AMTView.replace_eq_some replaced
  obtain rfl : moved = inside := Fin.ext (movedIndex.trans sameIndex.symm)
  refine ⟨treeVersion, position, numbered, placed, ?_, ?_, ?_, rfl⟩
  · dsimp only
    rw [Function.update_self, data, Function.update_self]
  · dsimp only
    rw [Function.update_self, roots, AMTView.setSubtreeRoot_subtreeRoots, Function.update_self]
  · dsimp only
    rw [Function.update_of_ne (parent.child_ne_self index), Function.update_self,
      AMTView.clean_commitment]

/-- A leaf keeps its keys, and its tree version is incremented at most once. -/
theorem data_commitOne {name other : TreeName} {inside : Fin (2 ^ depths)}
    (done : commitOne pp shardNode epoch startPos state name = some after) :
    (after.1 other).data inside = (state.1 other).data inside ∨
      ∃ treeVersion position,
        checkedAdd ((state.1 other).data inside).treeVersion 1 = some treeVersion ∧
        (after.1 other).data inside =
          { (state.1 other).data inside with treeVersion, treePosition := ⟨epoch, position⟩ } := by
  by_cases moved : ∃ index, name = other.child index ∧ inside.val = index.toNat
  · obtain ⟨index, rfl, sameIndex⟩ := moved
    cases changed : (state.1 (other.child index)).dirty with
    | false =>
      rw [commitOne_of_clean changed] at done
      obtain rfl := Option.some.inj done
      exact Or.inl rfl
    | true =>
      obtain ⟨treeVersion, position, numbered, -, data, -⟩ :=
        parent_commitOne changed done sameIndex
      exact Or.inr ⟨treeVersion, position, numbered, data⟩
  · push Not at moved
    have small : inside.val < 2 ^ 32 := lt_of_lt_of_le inside.isLt
      (Nat.pow_le_pow_right (by norm_num) (le_trans pp.depths_le (by norm_num)))
    have sameIndex : inside.val = (UInt32.ofNat inside.val).toNat := by
      rw [UInt32.toNat_ofNat', Nat.mod_eq_of_lt small]
    exact Or.inl (frame_commitOne done sameIndex fun same => moved _ same sameIndex).1

/-- Key versions are not affected by a commit. -/
theorem keyVersions_commitOne {name other : TreeName} {inside : Fin (2 ^ depths)}
    (done : commitOne pp shardNode epoch startPos state name = some after) :
    ((after.1 other).data inside).keyVersions = ((state.1 other).data inside).keyVersions := by
  rcases data_commitOne done with same | ⟨treeVersion, position, -, data⟩
  · rw [same]
  · rw [data]

/-- The commitment of a tree changes only when a child is moved into it. -/
theorem commitment_commitOne {name other : TreeName}
    (done : commitOne pp shardNode epoch startPos state name = some after)
    (notParent : ∀ index, name = other.child index → (state.1 name).dirty = false) :
    (after.1 other).commitment = (state.1 other).commitment := by
  cases name with
  | root =>
    obtain rfl := Option.some.inj done
    rfl
  | child above index =>
    cases changed : (state.1 (above.child index)).dirty with
    | false =>
      rw [commitOne_of_clean changed] at done
      obtain rfl := Option.some.inj done
      rfl
    | true =>
      obtain ⟨moved, treeVersion, position, written, -, -, -, -, rfl⟩ :=
        commitOne_eq_some changed done
      have apart : other ≠ above := by
        rintro rfl
        rw [notParent index rfl] at changed
        cases changed
      dsimp only
      rw [Function.update_of_ne apart]
      by_cases isChild : other = above.child index
      · rw [isChild, Function.update_self, AMTView.clean_commitment]
      · rw [Function.update_of_ne isChild]

end

/-- The `count`-th item of a commit, as the trees before and after it show it. -/
structure Recorded (epoch startPos : UInt64) (before after : Forest G depths) (count : Nat)
    (parent : TreeName) (index : UInt32) (version : UInt64) (commitment : G) : Prop where
  commitment_eq : (after (parent.child index)).commitment = commitment
  record : ∃ (inside : Fin (2 ^ depths)) (position : UInt64), inside.val = index.toNat ∧
    checkedAdd ((before parent).data inside).treeVersion 1 = some version ∧
    checkedAdd startPos (UInt64.ofNat count) = some position ∧
    ((after parent).data inside).treeVersion = version ∧
    ((after parent).data inside).treePosition = ⟨epoch, position⟩ ∧
    (after parent).subtreeRoots inside = commitment

section

variable {before middle after : Forest G depths} {count : Nat} {parent : TreeName} {index : UInt32}
  {version : UInt64} {commitment : G}

omit [Curve G] in
/-- An item stays recorded while the child and its record are left alone. -/
theorem Recorded.later
    (recorded : Recorded epoch startPos before middle count parent index version commitment)
    (same : ∀ inside : Fin (2 ^ depths), inside.val = index.toNat →
      (after (parent.child index)).commitment = (middle (parent.child index)).commitment ∧
      (after parent).data inside = (middle parent).data inside ∧
      (after parent).subtreeRoots inside = (middle parent).subtreeRoots inside) :
    Recorded epoch startPos before after count parent index version commitment := by
  obtain ⟨committed, inside, position, sameIndex, numbered, placed, recordedVersion,
    recordedPosition, recordedRoot⟩ := recorded
  obtain ⟨sameCommitment, sameData, sameRoots⟩ := same inside sameIndex
  refine ⟨sameCommitment.trans committed, inside, position, sameIndex, numbered, placed, ?_, ?_,
    sameRoots.trans recordedRoot⟩
  · rw [sameData, recordedVersion]
  · rw [sameData, recordedPosition]

omit [Curve G] in
/-- The version of an item counts from any earlier state with the same record of the child. -/
theorem Recorded.earlier
    (recorded : Recorded epoch startPos middle after count parent index version commitment)
    (same : ∀ inside : Fin (2 ^ depths), inside.val = index.toNat →
      (middle parent).data inside = (before parent).data inside) :
    Recorded epoch startPos before after count parent index version commitment := by
  obtain ⟨committed, inside, position, sameIndex, numbered, rest⟩ := recorded
  rw [same inside sameIndex] at numbered
  exact ⟨committed, inside, position, sameIndex, numbered, rest⟩

/-- The item of a tree that is moved into its parent. -/
theorem recorded_commitOne {state next : Forest G depths × List (VersionTree.SubTreeUpdate G)}
    (changed : (state.1 (parent.child index)).dirty = true)
    (done : commitOne pp shardNode epoch startPos state (parent.child index) = some next)
    (item : next.2 = state.2 ++ [(parent.child index, version, commitment)]) :
    Recorded epoch startPos state.1 next.1 state.2.length parent index version commitment := by
  obtain ⟨inside, -, -, -, sameIndex, -⟩ := commitOne_eq_some changed done
  obtain ⟨treeVersion, position, numbered, placed, data, roots, committed, listed⟩ :=
    parent_commitOne changed done sameIndex
  obtain ⟨-, rfl, rfl⟩ : parent.child index = parent.child index ∧ treeVersion = version ∧
      (state.1 (parent.child index)).commitment = commitment := by
    simpa using List.append_cancel_left (listed.symm.trans item)
  refine ⟨committed, inside, position, sameIndex, numbered, placed, ?_, ?_, roots⟩
  · rw [data]
  · rw [data]

end

/-- What going through some names does to the trees and the list of items. -/
structure Reported (epoch startPos : UInt64) (names : List TreeName) (before after : Forest G depths)
    (earlier added : List (VersionTree.SubTreeUpdate G)) : Prop where
  sublist : (added.map Prod.fst).Sublist names
  listed : ∀ name, name ∈ added.map Prod.fst ↔ name ∈ names ∧ name ≠ .root ∧ Changed before name
  items : ∀ number parent index version commitment,
    added[number]? = some (parent.child index, version, commitment) →
      Recorded epoch startPos before after (earlier.length + number) parent index version commitment
  unlisted : ∀ parent index (inside : Fin (2 ^ depths)), inside.val = index.toNat →
    parent.child index ∉ added.map Prod.fst →
      (after (parent.child index)).commitment = (before (parent.child index)).commitment ∧
      (after parent).data inside = (before parent).data inside ∧
      (after parent).subtreeRoots inside = (before parent).subtreeRoots inside
  keyVersions : ∀ name inside,
    ((after name).data inside).keyVersions = ((before name).data inside).keyVersions
  clean : ∀ name, name ≠ .root → (after name).dirty = false

section

variable {state middle after : Forest G depths × List (VersionTree.SubTreeUpdate G)}
  {name : TreeName} {rest : List TreeName} {added : List (VersionTree.SubTreeUpdate G)}

omit [Curve G] in
/-- A name whose tree is clean, with nothing dirty below it among the rest, adds no item. -/
theorem Reported.skip (reported : Reported epoch startPos rest state.1 after.1 state.2 added)
    (unchanged : name ≠ .root → ¬ Changed state.1 name) :
    Reported epoch startPos (name :: rest) state.1 after.1 state.2 added where
  sublist := reported.sublist.cons _
  listed other := by
    rw [reported.listed]
    refine ⟨fun ⟨member, more⟩ => ⟨List.mem_cons_of_mem _ member, more⟩, ?_⟩
    rintro ⟨member, notRoot, changed⟩
    refine ⟨(List.mem_cons.mp member).resolve_left ?_, notRoot, changed⟩
    rintro rfl
    exact unchanged notRoot changed
  items := reported.items
  unlisted := reported.unlisted
  keyVersions := reported.keyVersions
  clean := reported.clean

/-- A dirty tree is moved into its parent before the rest is gone through. -/
theorem Reported.move {parent : TreeName} {index : UInt32} {treeVersion : UInt64} {commitment : G}
    (reported : Reported epoch startPos rest middle.1 after.1 middle.2 added)
    (changed : (state.1 (parent.child index)).dirty = true)
    (done : commitOne pp shardNode epoch startPos state (parent.child index) = some middle)
    (item : middle.2 = state.2 ++ [(parent.child index, treeVersion, commitment)])
    (fresh : parent.child index ∉ rest) (upward : parent = .root ∨ parent ∈ rest) :
    Reported epoch startPos (parent.child index :: rest) state.1 after.1 state.2
      ((parent.child index, treeVersion, commitment) :: added) := by
  have notAdded : parent.child index ∉ added.map Prod.fst :=
    fun member => fresh (reported.sublist.subset member)
  have itself : Changed state.1 (parent.child index) := ⟨_, changed, TreeName.Below.refl _⟩
  have parentChanged : Changed middle.1 parent :=
    ⟨parent, parent_dirty_of_commitOne changed done, TreeName.Below.refl _⟩
  refine ⟨?_, fun other => ?_, fun number parent' index' version' commitment' found => ?_,
    fun parent' index' inside sameIndex absent => ?_, fun other inside => ?_, reported.clean⟩
  · exact reported.sublist.cons_cons _
  · rw [List.map_cons, List.mem_cons, List.mem_cons, reported.listed]
    by_cases same : other = parent.child index
    · subst same
      simp only [true_or, true_and, true_iff]
      exact ⟨by simp, itself⟩
    · rw [changed_commitOne changed done same]
      simp only [same, false_or]
  · cases number with
    | zero =>
      simp only [List.getElem?_cons_zero, Option.some.injEq, Prod.mk.injEq,
        TreeName.child.injEq] at found
      obtain ⟨⟨rfl, rfl⟩, rfl, rfl⟩ := found
      exact (recorded_commitOne changed done item).later fun inside sameIndex =>
        reported.unlisted parent index inside sameIndex notAdded
    | succ number =>
      rw [List.getElem?_cons_succ] at found
      have member : parent'.child index' ∈ added.map Prod.fst :=
        List.mem_map.mpr ⟨_, List.mem_of_getElem? found, rfl⟩
      have recorded := reported.items number parent' index' version' commitment' found
      rw [item, List.length_append, List.length_singleton, Nat.add_right_comm,
        Nat.add_assoc] at recorded
      refine recorded.earlier fun inside sameIndex => ?_
      exact (frame_commitOne done sameIndex fun same => notAdded (same ▸ member)).1
  · rw [List.map_cons, List.mem_cons, not_or] at absent
    obtain ⟨sameCommitment, sameData, sameRoots⟩ :=
      reported.unlisted parent' index' inside sameIndex absent.2
    obtain ⟨frameData, frameRoots⟩ := frame_commitOne done sameIndex (Ne.symm absent.1)
    refine ⟨sameCommitment.trans (commitment_commitOne done fun index'' same => ?_),
      sameData.trans frameData, sameRoots.trans frameRoots⟩
    -- The parent of the tree that is moved is dirty from now on, so it is listed.
    exfalso
    obtain ⟨isParent, -⟩ := TreeName.child.inj same
    refine absent.2 ((reported.listed _).mpr ⟨?_, by simp, ?_⟩)
    · rw [← isParent]
      exact upward.resolve_left (by rw [isParent]; simp)
    · rw [← isParent]
      exact parentChanged
  · rw [reported.keyVersions, keyVersions_commitOne done]

end

/-- Going through names that contain every dirty tree, descendants before ancestors. -/
theorem commitAll_reported {names : List TreeName}
    {state after : Forest G depths × List (VersionTree.SubTreeUpdate G)}
    (order : names.Pairwise fun earlier later => ¬ TreeName.Below earlier later)
    (upward : ∀ parent index, TreeName.child parent index ∈ names →
      parent = .root ∨ parent ∈ names)
    (covered : ∀ name, name ≠ .root → (state.1 name).dirty = true → name ∈ names)
    (done : names.foldlM (commitOne pp shardNode epoch startPos) state = some after) :
    ∃ added, after.2 = state.2 ++ added ∧
      Reported epoch startPos names state.1 after.1 state.2 added := by
  induction names generalizing state with
  | nil =>
    obtain rfl : state = after := by simpa using done
    refine ⟨[], (List.append_nil _).symm, List.Sublist.refl _, fun name => by simp,
      fun number parent index version commitment found => by simp at found,
      fun _ _ _ _ _ => ⟨rfl, rfl, rfl⟩, fun _ _ => rfl, fun name notRoot => ?_⟩
    exact Bool.eq_false_iff.mpr fun dirty => List.not_mem_nil (covered name notRoot dirty)
  | cons name rest inductionHypothesis =>
    obtain ⟨first, orderRest⟩ := List.pairwise_cons.mp order
    have upwardRest : ∀ parent index, TreeName.child parent index ∈ rest →
        parent = .root ∨ parent ∈ rest := by
      intro parent index member
      rcases upward parent index (List.mem_cons_of_mem _ member) with isRoot | found
      · exact Or.inl isRoot
      · refine Or.inr ((List.mem_cons.mp found).resolve_left ?_)
        rintro rfl
        exact first _ member (Or.inr (TreeName.Below.refl _))
    rw [List.foldlM_cons] at done
    obtain ⟨middle, stepped, remaining⟩ := Option.bind_eq_some_iff.mp done
    by_cases moves : name ≠ .root ∧ (state.1 name).dirty = true
    · obtain ⟨notRoot, changed⟩ := moves
      cases name with
      | root => exact absurd rfl notRoot
      | child parent index =>
        have coveredRest : ∀ other, other ≠ .root → (middle.1 other).dirty = true →
            other ∈ rest := by
          intro other otherNotRoot dirty
          by_cases isParent : other = parent
          · subst isParent
            have found := (upward other index List.mem_cons_self).resolve_left otherNotRoot
            exact (List.mem_cons.mp found).resolve_left (other.child_ne_self index).symm
          · obtain ⟨notSame, wasDirty⟩ := dirty_of_commitOne stepped dirty isParent
            exact (List.mem_cons.mp (covered other otherNotRoot wasDirty)).resolve_left notSame
        obtain ⟨added, sameUpdates, reported⟩ :=
          inductionHypothesis orderRest upwardRest coveredRest remaining
        obtain ⟨inside, treeVersion, position, above, -, -, -, -, moved⟩ :=
          commitOne_eq_some changed stepped
        have item := congrArg Prod.snd moved
        dsimp only at item
        refine ⟨_, ?_, reported.move changed stepped item
          (fun member => first _ member (TreeName.Below.refl _))
          ((upward parent index List.mem_cons_self).imp_right fun found =>
            (List.mem_cons.mp found).resolve_left (parent.child_ne_self index).symm)⟩
        rw [sameUpdates, item, List.append_assoc, List.singleton_append]
    · have unmoved : commitOne pp shardNode epoch startPos state name = some state := by
        by_cases isRoot : name = .root
        · rw [isRoot]
          rfl
        · exact commitOne_of_clean (Bool.eq_false_iff.mpr fun dirty => moves ⟨isRoot, dirty⟩)
      obtain rfl := Option.some.inj (unmoved.symm.trans stepped)
      have coveredRest : ∀ other, other ≠ .root → (state.1 other).dirty = true → other ∈ rest := by
        intro other notRoot dirty
        refine (List.mem_cons.mp (covered other notRoot dirty)).resolve_left ?_
        rintro rfl
        exact moves ⟨notRoot, dirty⟩
      obtain ⟨added, sameUpdates, reported⟩ :=
        inductionHypothesis orderRest upwardRest coveredRest remaining
      refine ⟨added, sameUpdates, reported.skip fun notRoot ⟨touched, dirty, below⟩ => ?_⟩
      have touchedNotRoot : touched ≠ .root := by
        rintro rfl
        exact notRoot (show TreeName.root = name from below).symm
      exact first _ (coveredRest touched touchedNotRoot dirty) below

/-- The commit of the whole forest. -/
theorem commit_reported {commitment : G}
    {updates : List (VersionTree.SubTreeUpdate G)}
    (onlyProper : OnlyProper forest)
    (done : commit pp shardNode forest epoch startPos = some ((commitment, updates), next)) :
    commitment = (next .root).commitment ∧
      Reported epoch startPos (TreeName.allNames depths) forest next [] updates := by
  have distinct : ∀ name, ((fun _ => TreeName.allIndices depths : TreeName → List UInt32)
      name).Nodup := fun _ => TreeName.allIndices_nodup pp.depths_le
  rw [commit] at done
  obtain ⟨⟨after, updates'⟩, committed, done⟩ := Option.bind_eq_some_iff.mp done
  obtain ⟨same, rfl⟩ := Prod.mk.inj (Option.some.inj done)
  obtain ⟨rfl, rfl⟩ := Prod.mk.inj same
  obtain ⟨added, sameUpdates, reported⟩ := commitAll_reported
    (TreeName.postOrder_pairwise distinct _ _)
    (fun parent index member => TreeName.parent_mem_postOrder member)
    (fun name notRoot dirty => TreeName.mem_allNames (onlyProper name dirty) notRoot) committed
  rw [List.nil_append] at sameUpdates
  subst sameUpdates
  exact ⟨rfl, reported⟩

end Forest

end AuthStorage.Lvmt
