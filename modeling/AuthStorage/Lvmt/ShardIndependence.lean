/-
This file is about databases that maintain different shards. Where the proofs of
a key are maintained, the version in its leaf is incremented; elsewhere only the
commitment moves, by the same power of two. So two databases of different shards
hold different leaves, but agree on the number of slots, the tree versions, the
commitments and the dirty flags, and return the same values and roots.
-/

import AuthStorage.Lvmt.Ledger
import AuthStorage.Lvmt.Slots
import AuthStorage.Lvmt.VersionPacking

namespace AuthStorage.Lvmt

/-! ### Trees -/

namespace AMTView

variable {G G₂ : Type} {depths : Nat}

/-- The same leaf for two shards; the versions of keys may differ, and are bounded. -/
structure AlikeLeaf (bound : Nat) (first second : Node) : Prop where
  treeVersion : first.treeVersion = second.treeVersion
  treePosition : first.treePosition = second.treePosition
  slots : first.keyVersions.len = second.keyVersions.len
  short : first.keyVersions.len ≤ 5
  firstBound : ∀ version ∈ first.keyVersions.toList, version.toNat ≤ bound
  secondBound : ∀ version ∈ second.keyVersions.toList, version.toNat ≤ bound

/-- The same tree for two shards. -/
structure Alike (bound : Nat) (first second : AMTView Node G depths) : Prop where
  commitment : first.commitment = second.commitment
  dirty : first.dirty = second.dirty
  subtreeRoots : first.subtreeRoots = second.subtreeRoots
  leaf : ∀ index, AlikeLeaf bound (first.data index) (second.data index)

theorem AlikeLeaf.mono {bound bound' : Nat} {first second : Node} (le : bound ≤ bound')
    (alike : AlikeLeaf bound first second) : AlikeLeaf bound' first second where
  __ := alike
  firstBound version member := le_trans (alike.firstBound version member) le
  secondBound version member := le_trans (alike.secondBound version member) le

theorem AlikeLeaf.refl_default (bound : Nat) : AlikeLeaf bound default default where
  treeVersion := rfl
  treePosition := rfl
  slots := rfl
  short := Nat.zero_le _
  firstBound version member := by cases member
  secondBound version member := by cases member

/-- A leaf after the tree below it was moved into it. -/
theorem AlikeLeaf.moved {bound : Nat} {first second : Node}
    (alike : AlikeLeaf bound first second) (treeVersion : UInt64) (treePosition : EpochPosition) :
    AlikeLeaf bound { first with treeVersion, treePosition }
      { second with treeVersion, treePosition } :=
  { alike with treeVersion := rfl, treePosition := rfl }

theorem AlikeLeaf.difference_moved {bound : Nat} {first second : Node}
    (alike : AlikeLeaf bound first second) (treeVersion : UInt64) (treePosition : EpochPosition)
    (new old new' old' : FrInt)
    (newDone : Node.asFrInt { first with treeVersion, treePosition } = some new)
    (oldDone : first.asFrInt = some old)
    (newDone' : Node.asFrInt { second with treeVersion, treePosition } = some new')
    (oldDone' : second.asFrInt = some old') :
    AMTNodeWriteGuard.difference new old = AMTNodeWriteGuard.difference new' old' := by
  have newEq : new.toNat = treeVersion.toNat % 2 ^ 40 + Node.keysInt first.keyVersions :=
    Node.toNat_asFrInt_cons newDone
  have newEq' : new'.toNat = treeVersion.toNat % 2 ^ 40 + Node.keysInt second.keyVersions :=
    Node.toNat_asFrInt_cons newDone'
  have oldEq' := Node.toNat_asFrInt_cons oldDone'
  rw [← alike.treeVersion] at oldEq'
  exact AMTNodeWriteGuard.difference_congr newEq (Node.toNat_asFrInt_cons oldDone) newEq' oldEq'

section

variable {bound bound' : Nat} {first second : AMTView Node G depths}

theorem Alike.mono (le : bound ≤ bound') (alike : Alike bound first second) :
    Alike bound' first second :=
  { alike with leaf := fun index => (alike.leaf index).mono le }

theorem Alike.clean (alike : Alike bound first second) : Alike bound first.clean second.clean :=
  { alike with dirty := rfl }

theorem Alike.setSubtreeRoot (alike : Alike bound first second) (index : Fin (2 ^ depths))
    (root : G) : Alike bound (first.setSubtreeRoot index root) (second.setSubtreeRoot index root) :=
  { alike with
    subtreeRoots := by
      rw [setSubtreeRoot_subtreeRoots, setSubtreeRoot_subtreeRoots, alike.subtreeRoots] }

/-- Putting leaves in that are the same for the two shards. -/
theorem Alike.setLeaf (alike : Alike bound first second) (index : Fin (2 ^ depths))
    {firstValue secondValue : Node} (leaf : AlikeLeaf bound firstValue secondValue) :
    Alike bound { first with data := Function.update first.data index firstValue }
      { second with data := Function.update second.data index secondValue } where
  __ := alike
  leaf other := by
    dsimp only
    by_cases same : other = index
    · subst same
      rw [Function.update_self, Function.update_self]
      exact leaf
    · rw [Function.update_of_ne same, Function.update_of_ne same]
      exact alike.leaf other

variable [Curve G]

theorem alike_empty (bound : Nat) : Alike bound (empty : AMTView Node G depths) empty :=
  ⟨rfl, rfl, rfl, fun _ => AlikeLeaf.refl_default bound⟩

theorem Alike.update (alike : Alike bound first second) (pp : AMTParams G G₂ depths)
    (shardRoot shardRoot' : Option (NodeIndex depths)) (index : Fin (2 ^ depths))
    (updateFrInt : FrInt) :
    Alike bound (first.update pp shardRoot index updateFrInt)
      (second.update pp shardRoot' index updateFrInt) where
  commitment := by rw [update_commitment, update_commitment, alike.commitment]
  dirty := by rw [update_dirty, update_dirty, alike.dirty]
  subtreeRoots := by rw [update_subtreeRoots, update_subtreeRoots, alike.subtreeRoots]
  leaf other := by
    rw [update_data, update_data]
    exact alike.leaf other

/-- Two guards that move the commitments alike. -/
theorem Alike.replace (alike : Alike bound first second) (pp : AMTParams G G₂ depths)
    (shardRoot shardRoot' : Option (NodeIndex depths)) {index : Fin (2 ^ depths)}
    {firstValue secondValue : Node} (leaf : AlikeLeaf bound firstValue secondValue)
    (sameDifference : ∀ new old new' old', firstValue.asFrInt = some new →
      (first.data index).asFrInt = some old → secondValue.asFrInt = some new' →
        (second.data index).asFrInt = some old' →
          AMTNodeWriteGuard.difference new old = AMTNodeWriteGuard.difference new' old') :
    Option.Rel (Alike bound) (first.replace pp shardRoot index firstValue)
      (second.replace pp shardRoot' index secondValue) := by
  have oldLeaf := alike.leaf index
  obtain ⟨new, newDone⟩ := Node.asFrInt_isSome.mpr leaf.short
  obtain ⟨old, oldDone⟩ := Node.asFrInt_isSome.mpr oldLeaf.short
  obtain ⟨new', newDone'⟩ := Node.asFrInt_isSome.mpr (leaf.slots ▸ leaf.short)
  obtain ⟨old', oldDone'⟩ := Node.asFrInt_isSome.mpr (oldLeaf.slots ▸ oldLeaf.short)
  have same := sameDifference new old new' old' newDone oldDone newDone' oldDone'
  have replaced : first.replace pp shardRoot index firstValue = some (AMTView.update pp shardRoot
      { first with data := Function.update first.data index firstValue } index
      (AMTNodeWriteGuard.difference new old)) := by
    show ((first.data index).asFrInt.bind fun old => firstValue.asFrInt.bind fun new => _) = _
    rw [oldDone, newDone]
    rfl
  have replaced' : second.replace pp shardRoot' index secondValue = some (AMTView.update pp
      shardRoot' { second with data := Function.update second.data index secondValue } index
      (AMTNodeWriteGuard.difference new' old')) := by
    show ((second.data index).asFrInt.bind fun old => secondValue.asFrInt.bind fun new => _) = _
    rw [oldDone', newDone']
    rfl
  rw [replaced, replaced', same]
  exact Option.Rel.some ((alike.setLeaf index leaf).update pp _ _ _ _)

end

end AMTView

/-! ### Forests -/

namespace Forest

variable {G G₂ : Type} {depths : Nat}

/-- The same forest for two shards. -/
def Alike (bound : Nat) (first second : Forest G depths) : Prop :=
  ∀ name, AMTView.Alike bound (first name) (second name)

section

variable {bound : Nat} {first second : Forest G depths}

theorem Alike.update (alike : Alike bound first second) {name : TreeName}
    {view view' : AMTView Node G depths} (views : AMTView.Alike bound view view') :
    Alike bound (Function.update first name view) (Function.update second name view') := by
  intro other
  by_cases same : other = name
  · subst same
    rw [Function.update_self, Function.update_self]
    exact views
  · rw [Function.update_of_ne same, Function.update_of_ne same]
    exact alike other

theorem Alike.mono {bound' : Nat} (le : bound ≤ bound') (alike : Alike bound first second) :
    Alike bound' first second := fun name => (alike name).mono le

variable [Curve G]

theorem Alike.allocateAt (alike : Alike bound first second) (pp : AMTParams G G₂ depths)
    (shardNode : Option (NodeIndex depths)) (key : Key) (level : Nat) :
    Option.Rel (fun x y => x.1 = y.1 ∧ Alike bound x.2 y.2)
      (Forest.allocateAt pp none first key level)
      (Forest.allocateAt pp shardNode second key level) := by
  rw [Forest.allocateAt, Forest.allocateAt]
  cases key.treeAtLevel depths level with
  | none => exact Option.Rel.none
  | some name =>
    simp only [Option.bind_eq_bind, Option.bind_some]
    cases key.indexAtLevel depths level with
    | none => exact Option.Rel.none
    | some index =>
      rw [Option.bind_some, Option.bind_some]
      cases checkIndex depths index with
      | none => exact Option.Rel.none
      | some inside =>
        have leaf := (alike name).leaf inside
        simp only [Option.bind_some, ← leaf.slots]
        by_cases vacant : ((first name).data inside).keyVersions.len < 5
        · have vacant' := vacant
          rw [leaf.slots] at vacant'
          rw [if_pos vacant, if_pos vacant]
          obtain ⟨keyVersions, pushed, list⟩ :=
            ((first name).data inside).keyVersions.push_of_lt 0 (by omega)
          obtain ⟨keyVersions', pushed', list'⟩ :=
            ((second name).data inside).keyVersions.push_of_lt 0 (by omega)
          rw [pushed, pushed', Option.bind_some, Option.bind_some]
          have pushedLeaf : AMTView.AlikeLeaf bound
              { (first name).data inside with keyVersions := keyVersions }
              { (second name).data inside with keyVersions := keyVersions' } := by
            have slots := leaf.slots
            unfold Vec.len at slots vacant
            refine ⟨leaf.treeVersion, leaf.treePosition, ?_, ?_, ?_, ?_⟩
            · rw [Vec.len, Vec.len, list, list', List.length_append, List.length_append, slots]
            · rw [Vec.len, list, List.length_append]
              exact vacant
            · intro version member
              rw [list] at member
              rcases List.mem_append.mp member with old | new
              · exact leaf.firstBound version old
              · rw [List.mem_singleton.mp new]
                exact Nat.zero_le _
            · intro version member
              rw [list'] at member
              rcases List.mem_append.mp member with old | new
              · exact leaf.secondBound version old
              · rw [List.mem_singleton.mp new]
                exact Nat.zero_le _
          refine Option.rel_bind ((alike name).replace pp _ _ pushedLeaf ?_) ?_
          · intro new old new' old' newDone oldDone newDone' oldDone'
            rw [AMTNodeWriteGuard.difference_eq_zero (Node.toNat_push newDone oldDone rfl list),
              AMTNodeWriteGuard.difference_eq_zero (Node.toNat_push newDone' oldDone' rfl list')]
          · intro view view' views
            exact Option.Rel.some ⟨rfl, alike.update views⟩
        · rw [if_neg vacant, if_neg vacant]
          exact Option.Rel.some ⟨rfl, alike⟩

/-- The key's leaf of the root tree is known wherever its slot is. -/
theorem inProofShard_defined (shardNode : Option (NodeIndex depths)) (le : depths ≤ 28) {key : Key}
    {level index : Nat} {name : TreeName} (named : key.treeAtLevel depths level = some name)
    (indexed : key.indexAtLevel depths level = some index) :
    ∃ inShard, VersionTree.inProofShard shardNode key = some inShard := by
  cases shardNode with
  | none => exact ⟨false, rfl⟩
  | some shardNode =>
    obtain ⟨top, topIndexed⟩ : ∃ top, key.indexAtLevel depths 0 = some top := by
      cases level with
      | zero => exact ⟨index, indexed⟩
      | succ level => exact Key.indexAtLevel_zero named
    have inside := Key.indexAtLevel_lt le topIndexed
    refine ⟨(NodeIndex.leaf ⟨top, inside⟩).needsMaintain shardNode, ?_⟩
    rw [VersionTree.inProofShard, topIndexed]
    show (checkIndex depths top).bind _ = _
    rw [show checkIndex depths top = some ⟨top, inside⟩ from dif_pos inside]
    rfl

/-- The two ways to write to a slot that exists. -/
theorem Alike.writeSlot (alike : Alike bound first second) (pp : AMTParams G G₂ depths)
    (shardRoot shardRoot' : Option (NodeIndex depths)) (name : TreeName) (inShard : Bool)
    (index : Fin (2 ^ depths)) {slotIndex : Nat}
    (inside : slotIndex < (second.keyVersions name index).length) (small : bound + 1 < 2 ^ 40) :
    Option.Rel (AMTView.Alike (bound + 1))
      (Forest.writeSlot pp shardRoot (first name) false index slotIndex)
      (Forest.writeSlot pp shardRoot' (second name) inShard index slotIndex) := by
  have views := (alike name).mono (Nat.le_succ bound)
  have leaf := (alike name).leaf index
  rw [Forest.writeSlot, if_neg (by decide), Forest.writeSlot]
  cases inShard with
  | false => exact Option.Rel.some (views.update pp _ _ _ _)
  | true =>
    rw [if_pos rfl]
    obtain ⟨version, found⟩ : ∃ version,
        ((second name).data index).keyVersions.toList[slotIndex]? = some version :=
      ⟨_, List.getElem?_eq_getElem inside⟩
    have member := List.mem_of_getElem? found
    have versionBound := leaf.secondBound version member
    have added : checkedAdd version 1 = some (version + 1) := by
      rw [checkedAdd, if_pos]
      show version.toNat + 1 < _
      omega
    have bumped : ∃ value, VersionTree.bumpKeyVersion ((second name).data index) slotIndex =
        some value := by
      rw [VersionTree.bumpKeyVersion, found]
      simp only [Option.bind_eq_bind, Option.bind_some, added]
      exact ⟨_, rfl⟩
    obtain ⟨value, bumped⟩ := bumped
    obtain ⟨version', next, found', added', keyVersions, treeVersion, treePosition⟩ :=
      bumpKeyVersion_eq_some bumped
    have sameLength : value.keyVersions.len = ((second name).data index).keyVersions.len := by
      rw [Vec.len, keyVersions, List.length_set]
      rfl
    have newLeaf : AMTView.AlikeLeaf (bound + 1) ((first name).data index) value := by
      refine ⟨leaf.treeVersion.trans treeVersion.symm, leaf.treePosition.trans treePosition.symm,
        leaf.slots.trans sameLength.symm, leaf.short,
        fun other found => le_trans (leaf.firstBound other found) (Nat.le_succ _),
        fun other found => ?_⟩
      rw [keyVersions] at found
      rcases List.mem_or_eq_of_mem_set found with old | rfl
      · exact le_trans (leaf.secondBound other old) (Nat.le_succ _)
      · rw [toNat_checkedAdd added']
        exact Nat.succ_le_succ (leaf.secondBound version' (List.mem_of_getElem? found'))
    obtain ⟨new, newDone⟩ := Node.asFrInt_isSome.mpr (newLeaf.slots ▸ newLeaf.short)
    obtain ⟨old, oldDone⟩ := Node.asFrInt_isSome.mpr (leaf.slots ▸ leaf.short)
    have moved : AMTNodeWriteGuard.difference new old =
        VersionTree.frIntPow2 ((slotIndex + 1) * 40) := by
      have slots := leaf.short
      rw [leaf.slots] at slots
      have small' : ∀ version, ((second name).data index).keyVersions.toList[slotIndex]? =
          some version → version.toNat + 1 < 2 ^ 40 := fun version found =>
        lt_of_le_of_lt (Nat.succ_le_succ (leaf.secondBound version (List.mem_of_getElem? found)))
          small
      exact Node.difference_bumpKeyVersion bumped slots small' newDone oldDone
    have replaced : (second name).replace pp shardRoot' index value = some (AMTView.update pp
        shardRoot' { second name with data := Function.update (second name).data index value } index
        (AMTNodeWriteGuard.difference new old)) := by
      show (((second name).data index).asFrInt.bind fun old => value.asFrInt.bind fun new => _) = _
      rw [oldDone, newDone]
      rfl
    rw [bumped]
    show Option.Rel _ _ ((second name).replace pp shardRoot' index value)
    rw [replaced, moved]
    have written := views.setLeaf index newLeaf
    rw [Function.update_eq_self] at written
    exact Option.Rel.some (written.update pp _ _ _ _)

theorem Alike.allocateFrom (alike : Alike bound first second) (pp : AMTParams G G₂ depths)
    (shardNode : Option (NodeIndex depths)) (key : Key) (levels : List Nat) :
    Option.Rel (fun x y => x.1 = y.1 ∧ Alike bound x.2 y.2)
      (Forest.allocateFrom pp none key levels first)
      (Forest.allocateFrom pp shardNode key levels second) := by
  induction levels generalizing first second with
  | nil => exact Option.Rel.none
  | cons level rest inductionHypothesis =>
    rw [Forest.allocateFrom, Forest.allocateFrom]
    refine Option.rel_bind (alike.allocateAt pp shardNode key level) ?_
    rintro ⟨found, next⟩ ⟨_, next'⟩ ⟨rfl, nextAlike⟩
    cases found with
    | some verInfo => exact Option.Rel.some ⟨rfl, nextAlike⟩
    | none => exact inductionHypothesis nextAlike

theorem Alike.bump (alike : Alike bound first second) (pp : AMTParams G G₂ depths)
    (shardNode : Option (NodeIndex depths)) (key : Key) {verInfo : VerInfo}
    (hasSlot : second.HasSlot key verInfo) (small : bound + 1 < 2 ^ 40) :
    Option.Rel (fun x y => x.1 = y.1 ∧ Alike (bound + 1) x.2 y.2)
      (Forest.bump pp none first key verInfo) (Forest.bump pp shardNode second key verInfo) := by
  rw [Forest.bump, Forest.bump]
  cases named : key.treeAtLevel depths verInfo.level.toNat with
  | none => exact Option.Rel.none
  | some name =>
    simp only [Option.bind_eq_bind, Option.bind_some]
    cases indexed : key.indexAtLevel depths verInfo.level.toNat with
    | none => exact Option.Rel.none
    | some index =>
      obtain ⟨inside, rfl⟩ : ∃ inside : Fin (2 ^ depths), inside.val = index :=
        ⟨⟨index, Key.indexAtLevel_lt pp.depths_le indexed⟩, rfl⟩
      obtain ⟨inShard, shard⟩ := inProofShard_defined shardNode pp.depths_le named indexed
      have shard' : VersionTree.inProofShard (none : Option (NodeIndex depths)) key = some false :=
        rfl
      have present := hasSlot ⟨name, inside, _⟩ (Key.slot_eq_some.mpr ⟨named, indexed, rfl⟩)
      rw [shard, shard']
      simp only [Option.bind_some, checkIndex_val]
      refine Option.rel_bind (alike.writeSlot pp _ _ name inShard inside present small) ?_
      intro view view' views
      by_cases below : verInfo.version < maxVersionNumber
      · rw [if_pos below, if_pos below]
        exact Option.Rel.some ⟨rfl, (alike.mono (Nat.le_succ _)).update views⟩
      · rw [if_neg below, if_neg below]
        exact Option.Rel.none

/-- A version is incremented where its slot exists, in the leaf or only in the commitment. -/
theorem Alike.incKeyVer (alike : Alike bound first second) (pp : AMTParams G G₂ depths)
    (shardNode : Option (NodeIndex depths)) (key : Key) (version : Option VerInfo)
    (hasSlot : ∀ given, version = some given → second.HasSlot key given)
    (small : bound + 1 < 2 ^ 40) :
    Option.Rel (fun x y => x.1 = y.1 ∧ Alike (bound + 1) x.2 y.2)
      (Forest.incKeyVer pp none first key version)
      (Forest.incKeyVer pp shardNode second key version) := by
  cases version with
  | some given => exact alike.bump pp shardNode key (hasSlot given rfl) small
  | none =>
    refine Option.rel_bind_some (alike.allocateFrom pp shardNode key (List.range 32)) ?_
    rintro ⟨verInfo, next⟩ ⟨_, next'⟩ - allocated ⟨rfl, nextAlike⟩
    refine nextAlike.bump pp shardNode key (fun slot isSlot => ?_) small
    obtain ⟨slot', isSlot', -, numbered, -, pushed, -⟩ := allocateFrom_slot allocated
    obtain rfl : slot' = slot := Option.some.inj (isSlot'.symm.trans isSlot)
    rw [pushed, List.length_append, ← numbered]
    exact Nat.lt_succ_self _

/-- Moving a changed tree into its parent does not depend on the versions of keys. -/
theorem Alike.commitOne (alike : Alike bound first second) (pp : AMTParams G G₂ depths)
    (shardNode : Option (NodeIndex depths)) (epoch startPos : UInt64)
    (updates : List (VersionTree.SubTreeUpdate G)) (name : TreeName) :
    Option.Rel (fun x y => Alike bound x.1 y.1 ∧ x.2 = y.2)
      (Forest.commitOne pp none epoch startPos (first, updates) name)
      (Forest.commitOne pp shardNode epoch startPos (second, updates) name) := by
  cases name with
  | root => exact Option.Rel.some ⟨alike, rfl⟩
  | child parent index =>
    have child := alike (parent.child index)
    rw [Forest.commitOne, Forest.commitOne]
    dsimp only
    rw [← child.dirty, ← child.commitment]
    by_cases dirty : (first (parent.child index)).dirty = true
    · rw [if_pos dirty, if_pos dirty]
      cases checkIndex depths index.toNat with
      | none => exact Option.Rel.none
      | some inside =>
        have cleaned : Alike bound
            (Function.update first (parent.child index) (first (parent.child index)).clean)
            (Function.update second (parent.child index) (second (parent.child index)).clean) :=
          alike.update child.clean
        have above := (cleaned parent).setSubtreeRoot inside
          (first (parent.child index)).commitment
        have leaf := above.leaf inside
        simp only [Option.bind_eq_bind, Option.bind_some]
        rw [← leaf.treeVersion]
        cases checkedAdd _ 1 with
        | none => exact Option.Rel.none
        | some treeVersion =>
          rw [Option.bind_some, Option.bind_some]
          cases checkedAdd startPos _ with
          | none => exact Option.Rel.none
          | some position =>
            rw [Option.bind_some, Option.bind_some]
            refine Option.rel_bind (above.replace pp _ _ (leaf.moved treeVersion _) ?_) ?_
            · exact leaf.difference_moved treeVersion _
            · intro view view' views
              exact Option.Rel.some ⟨cleaned.update views, rfl⟩
    · rw [if_neg dirty, if_neg dirty]
      exact Option.Rel.some ⟨alike, rfl⟩

theorem Alike.commit (alike : Alike bound first second) (pp : AMTParams G G₂ depths)
    (shardNode : Option (NodeIndex depths)) (epoch startPos : UInt64) :
    Option.Rel (fun x y => x.1 = y.1 ∧ Alike bound x.2 y.2)
      (Forest.commit pp none first epoch startPos)
      (Forest.commit pp shardNode second epoch startPos) := by
  have steps : ∀ (state state' : Forest G depths × List (VersionTree.SubTreeUpdate G)),
      ∀ name ∈ TreeName.allNames depths, Alike bound state.1 state'.1 ∧ state.2 = state'.2 →
        Option.Rel (fun x y => Alike bound x.1 y.1 ∧ x.2 = y.2)
          (Forest.commitOne pp none epoch startPos state name)
          (Forest.commitOne pp shardNode epoch startPos state' name) := by
    rintro ⟨forest, updates⟩ ⟨forest', _⟩ name - ⟨alike, rfl⟩
    exact alike.commitOne pp shardNode epoch startPos updates name
  refine Option.rel_bind (Option.rel_foldlM _ steps ⟨alike, rfl⟩) ?_
  rintro ⟨forest, updates⟩ ⟨forest', _⟩ ⟨alike, rfl⟩
  exact Option.Rel.some ⟨by rw [(alike .root).commitment], alike⟩

end

end Forest

/-! ### Ledgers -/

/-- Operations that ask for no proof. -/
def LvmtOp.NoProof : LvmtOp → Prop
  | .prove _ => False
  | _ => True

/-- The operation is a set. -/
def LvmtOp.isSet : LvmtOp → Bool
  | .set _ _ => true
  | _ => false

namespace Ledger

variable {G G₂ H : Type} {depths : Nat}

/-- The same ledger for two shards after some updates. The two columns of Merkle trees agree on
the epoch. -/
structure Alike (updates : Nat) (first second : Ledger G depths) : Prop where
  forest : ∃ bound, bound + first.uncommittedKeyValues.length = updates ∧
    Forest.Alike bound first.forest second.forest
  dbKey : first.dbKey = second.dbKey
  epoch : LvmtDB.currentEpoch first.dbMerkle = LvmtDB.currentEpoch second.dbMerkle
  uncommitted : first.uncommittedKeyValues = second.uncommittedKeyValues

variable [Curve G] [H256 H] (pp : AMTParams G G₂ depths) (shardNode : Option (NodeIndex depths))

theorem alike_empty : Alike 0 (empty : Ledger G depths) empty where
  forest := ⟨0, rfl, fun _ => AMTView.alike_empty 0⟩
  dbKey := rfl
  epoch := rfl
  uncommitted := rfl

/-- Going through the pairs that were set. The induction is on the pairs: each of them raises the
bound on the versions by one. -/
theorem commitKey_alike {oldVersion : Key → Option (Option VerInfo)} (epoch : UInt64)
    (pairs : List (Key × Vec UInt8)) (position : Nat) {bound : Nat}
    (rest : List H × List DBOp) {first second : Forest G depths}
    (alike : Forest.Alike bound first second)
    (hasSlot : ∀ key verInfo, oldVersion key = some (some verInfo) → second.HasSlot key verInfo)
    (small : bound + pairs.length < 2 ^ 40) :
    Option.Rel (fun x y => Forest.Alike (bound + pairs.length) x.1 y.1 ∧ x.2 = y.2)
      ((pairs.zipIdx position).foldlM (LvmtDB.commitKey oldVersion
        (fun forest key version => forest.incKeyVer pp none key version) epoch) (first, rest))
      ((pairs.zipIdx position).foldlM (LvmtDB.commitKey oldVersion
        (fun forest key version => forest.incKeyVer pp shardNode key version) epoch)
        (second, rest)) := by
  induction pairs generalizing position bound first second rest with
  | nil => exact Option.Rel.some ⟨alike, rfl⟩
  | cons pair pairs inductionHypothesis =>
    rw [List.length_cons] at small ⊢
    rw [List.zipIdx_cons, List.foldlM_cons, List.foldlM_cons]
    cases known : oldVersion pair.1 with
    | none =>
      have fails : ∀ (increment : Forest G depths → Key → Option VerInfo →
          Option (VerInfo × Forest G depths)) forest,
          LvmtDB.commitKey oldVersion increment epoch (forest, rest) (pair, position) = none := by
        intro increment forest
        show (oldVersion pair.1).bind _ = _
        rw [known]
        rfl
      rw [fails, fails]
      exact Option.Rel.none
    | some version =>
      have incremented := alike.incKeyVer pp shardNode pair.1 version
        (fun given isGiven => hasSlot pair.1 given (isGiven ▸ known)) (by omega)
      have stepped : Option.Rel
          (fun (x y : Forest G depths × List H × List DBOp) =>
            Forest.Alike (bound + 1) x.1 y.1 ∧ x.2 = y.2 ∧
              ∀ key verInfo, oldVersion key = some (some verInfo) → y.1.HasSlot key verInfo)
          (LvmtDB.commitKey oldVersion
            (fun forest key version => forest.incKeyVer pp none key version) epoch (first, rest)
            (pair, position))
          (LvmtDB.commitKey oldVersion
            (fun forest key version => forest.incKeyVer pp shardNode key version) epoch
            (second, rest) (pair, position)) := by
        show Option.Rel _ ((oldVersion pair.1).bind _) ((oldVersion pair.1).bind _)
        rw [known, Option.bind_some, Option.bind_some]
        refine Option.rel_bind_some incremented ?_
        rintro ⟨verInfo, next⟩ ⟨_, next'⟩ - done ⟨rfl, nextAlike⟩
        exact Option.Rel.some ⟨nextAlike, rfl,
          fun key given isGiven => (hasSlot key given isGiven).incKeyVer done⟩
      refine Option.rel_bind stepped ?_
      rintro ⟨next, rest⟩ ⟨next', _⟩ ⟨nextAlike, rfl, nextSlots⟩
      have remaining := inductionHypothesis (position + 1) rest nextAlike nextSlots (by omega)
      rwa [Nat.add_assoc, Nat.add_comm 1] at remaining

theorem finishEpoch_alike (dbMerkle dbMerkle' : DBColumn) (epoch : UInt64) (hashes : List H)
    (onlyRoot onlyRoot' : Bool) :
    Option.Rel (fun x y => x.2 = y.2 ∧ LvmtDB.currentEpoch x.1 = LvmtDB.currentEpoch y.1)
      (LvmtDB.finishEpoch dbMerkle epoch hashes onlyRoot)
      (LvmtDB.finishEpoch dbMerkle' epoch hashes onlyRoot') := by
  have sameRoot : (StaticMerkleTree.dump dbMerkle epoch hashes onlyRoot).2 =
      (StaticMerkleTree.dump dbMerkle' epoch hashes onlyRoot').2 := by
    rw [StaticMerkleTree.dump_root, StaticMerkleTree.dump_root]
  rw [LvmtDB.finishEpoch, LvmtDB.finishEpoch]
  cases checkedAdd epoch 1 with
  | none => exact Option.Rel.none
  | some following =>
    refine Option.Rel.some ⟨sameRoot, ?_⟩
    rw [LvmtDB.currentEpoch_writeBuffered, LvmtDB.currentEpoch_writeBuffered]

theorem Alike.commit {updates : Nat} {first second : Ledger G depths}
    (alike : Alike updates first second) (slotsExist : second.SlotsExist)
    (onlyRoot onlyRoot' : Bool) (small : updates < 2 ^ 40) :
    Option.Rel (fun x y => x.1 = y.1 ∧ Alike updates x.2 y.2)
      (first.commit ⟨pp, onlyRoot, none⟩ : Option ((G × H) × Ledger G depths))
      (second.commit ⟨pp, onlyRoot', shardNode⟩) := by
  obtain ⟨bound, total, forests⟩ := alike.forest
  have oldVersions : first.oldVersion = second.oldVersion := by
    funext key
    rw [oldVersion, oldVersion, alike.dbKey]
  rw [Ledger.commit, Ledger.commit, alike.epoch, oldVersions, ← alike.uncommitted]
  cases LvmtDB.currentEpoch second.dbMerkle with
  | none => exact Option.Rel.none
  | some epoch =>
    have batch := commitKey_alike (H := H) pp shardNode epoch
      first.uncommittedKeyValues 0 ([], []) forests
      (fun key verInfo known => slotsExist.oldVersion known) (total ▸ small)
    simp only [Option.bind_eq_bind, Option.bind_some]
    refine Option.rel_bind batch ?_
    rintro ⟨forest, hashes, writeOps⟩ ⟨forest', _⟩ ⟨nextAlike, rfl⟩
    refine Option.rel_bind (nextAlike.commit pp shardNode epoch _) ?_
    rintro ⟨⟨amtRoot, updates'⟩, after⟩ ⟨_, after'⟩ ⟨rfl, afterAlike⟩
    refine Option.rel_bind (finishEpoch_alike first.dbMerkle second.dbMerkle epoch
      (hashes ++ updates'.map LvmtDB.treeValueHash) onlyRoot onlyRoot') ?_
    rintro ⟨dbMerkle, merkleRoot⟩ ⟨dbMerkle', _⟩ ⟨rfl, sameEpoch⟩
    exact Option.Rel.some ⟨rfl, ⟨_, total, afterAlike⟩, by rw [alike.dbKey], sameEpoch, rfl⟩

/-- What an operation other than a proof does to two ledgers that are alike. -/
theorem Alike.step {updates : Nat} {first second : Ledger G depths}
    (alike : Alike updates first second) (slotsExist : second.SlotsExist)
    (onlyRoot onlyRoot' : Bool) {op : LvmtOp} (noProof : op.NoProof)
    (small : updates + (if op.isSet then 1 else 0) < 2 ^ 40) :
    Option.Rel
      (fun x y => (Alike (updates + if op.isSet then 1 else 0) x.1 y.1 ∧ y.1.SlotsExist) ∧
        x.2 = y.2)
      (first.step ⟨pp, onlyRoot, none⟩ op : Option (Ledger G depths × LvmtOutput G H))
      (second.step ⟨pp, onlyRoot', shardNode⟩ op) := by
  cases op with
  | set key value =>
    obtain ⟨bound, total, forests⟩ := alike.forest
    refine Option.Rel.some ⟨⟨{ alike with forest := ?_, uncommitted := ?_ }, slotsExist⟩, rfl⟩
    · refine ⟨bound, ?_, forests⟩
      rw [List.length_append, ← Nat.add_assoc, total]
      rfl
    · rw [alike.uncommitted]
  | get key =>
    rw [Ledger.step, Ledger.step, Ledger.get, Ledger.get, alike.dbKey]
    cases LvmtDB.loadValue second.dbKey key with
    | none => exact Option.Rel.none
    | some value => exact Option.Rel.some ⟨⟨alike, slotsExist⟩, rfl⟩
  | commit =>
    refine Option.rel_bind_some (alike.commit pp shardNode slotsExist onlyRoot onlyRoot' small) ?_
    rintro ⟨⟨amtRoot, merkleRoot⟩, next⟩ ⟨_, next'⟩ - done ⟨rfl, nextAlike⟩
    exact Option.Rel.some ⟨⟨nextAlike, slotsExist.commit done⟩, rfl⟩
  | prove key => exact noProof.elim
  | flushRoot =>
    obtain ⟨bound, total, forests⟩ := alike.forest
    exact Option.Rel.some ⟨⟨{ alike with
      forest := ⟨bound, total, forests.update (forests .root).clean⟩ }, slotsExist.flushRoot⟩, rfl⟩

theorem run_alike (onlyRoot onlyRoot' : Bool) {ops : List LvmtOp}
    (noProof : ∀ op ∈ ops, op.NoProof) (few : ops.countP LvmtOp.isSet < 2 ^ 40) :
    (PartialRun.run (Ledger.step ⟨pp, onlyRoot, none⟩) empty ops :
        Option (Ledger G depths × List (LvmtOutput G H))).map Prod.snd =
      (PartialRun.run (Ledger.step ⟨pp, onlyRoot', shardNode⟩) empty ops).map Prod.snd := by
  let related := fun (history : List LvmtOp) (first second : Ledger G depths) =>
    Alike (history.countP LvmtOp.isSet) first second ∧ second.SlotsExist
  let allowed := fun history : List LvmtOp =>
    (∀ op ∈ history, op.NoProof) ∧ history.countP LvmtOp.isSet < 2 ^ 40
  have counted : ∀ (history : List LvmtOp) op, (history ++ [op]).countP LvmtOp.isSet =
      history.countP LvmtOp.isSet + if op.isSet then 1 else 0 := by
    intro history op
    rw [List.countP_append, List.countP_singleton]
  exact Option.map_snd_eq_of_rel _ (PartialRun.run_simulation related allowed
    (fun earlier later within => ⟨fun op member => within.1 op (List.mem_append_left _ member),
      lt_of_le_of_lt (by rw [List.countP_append]; exact Nat.le_add_right _ _) within.2⟩)
    (fun history first second op within both => by
      have small := within.2
      rw [counted] at small
      have stepped := both.1.step (H := H) pp shardNode both.2 onlyRoot
        onlyRoot' (within.1 op (List.mem_append_right _ (List.mem_singleton_self _))) small
      rw [← counted] at stepped
      exact stepped)
    [] ⟨noProof, few⟩ ⟨alike_empty, slotsExist_empty⟩)

end Ledger

namespace LvmtDB

variable {G G₂ H : Type} {depths : Nat} [Curve G] [H256 H]

/-- A database that maintains a shard returns the values and the roots of one that maintains
none, in every run of fewer than `2 ^ 40` updates that asks for no proof. -/
theorem shard_invisible (pp : AMTParams G G₂ depths) (onlyRoot onlyRoot' : Bool)
    (shardNode : NodeIndex depths) {first second : LvmtDB G depths}
    (firstOpened : new KeyValueDB.empty onlyRoot none = some first)
    (secondOpened : new KeyValueDB.empty onlyRoot' (some shardNode) = some second)
    (ops : List LvmtOp) (noProof : ∀ op ∈ ops, op.NoProof)
    (few : ops.countP LvmtOp.isSet < 2 ^ 40) :
    (PartialRun.run (LvmtDB.step (H := H) pp) first ops).map Prod.snd =
      (PartialRun.run (LvmtDB.step pp) second ops).map Prod.snd := by
  have represents : first.Represents (⟨pp, onlyRoot, none⟩ : LvmtConfig G G₂ depths) Ledger.empty :=
    represents_of_new firstOpened
  have represents' : second.Represents (⟨pp, onlyRoot', some shardNode⟩ : LvmtConfig G G₂ depths)
      Ledger.empty := represents_of_new secondOpened
  let standsFor := fun (config : LvmtConfig G G₂ depths) (db : LvmtDB G depths) ledger =>
    db.Represents config ledger
  calc
    _ = (PartialRun.run (Ledger.step ⟨pp, onlyRoot, none⟩) Ledger.empty ops).map Prod.snd :=
      Option.map_snd_eq_of_rel (standsFor ⟨pp, onlyRoot, none⟩) (represents.run ops)
    _ = (PartialRun.run (Ledger.step ⟨pp, onlyRoot', some shardNode⟩) Ledger.empty ops).map
        Prod.snd := Ledger.run_alike pp (some shardNode) onlyRoot onlyRoot' noProof few
    _ = _ := (Option.map_snd_eq_of_rel (standsFor ⟨pp, onlyRoot', some shardNode⟩)
      (represents'.run ops)).symm

/-! ### A run -/

/-- The right half of the root tree. -/
def rightHalf : NodeIndex 8 := ⟨1, 1, by norm_num, by norm_num⟩

/-- A key in the right half, set twice, and one in the left half. -/
def updateRun : List LvmtOp :=
  [.set ⟨.pair 200 0⟩ (.single 1), .set ⟨.pair 7 1⟩ (.single 2),
    .commit, .get ⟨.pair 200 0⟩, .set ⟨.pair 200 0⟩ (.single 3),
    .commit]

/-- The parameters of the run below. -/
def updateParams : AMTParams Fr Fr 8 := AMTParams.eightBits

theorem shard_invisible_updateRun :
    ∃ (first second : LvmtDB Fr 8) (outputs : List (LvmtOutput Fr Transcript)),
      new KeyValueDB.empty true none = some first ∧
      new KeyValueDB.empty false (some rightHalf) = some second ∧
      (PartialRun.run (LvmtDB.step updateParams) first updateRun).map Prod.snd = some outputs ∧
      (PartialRun.run (LvmtDB.step updateParams) second updateRun).map Prod.snd =
        some outputs := by
  obtain ⟨result, done⟩ : ∃ result : LvmtDB Fr 8 × LvmtDB Fr 8 × List (LvmtOutput Fr Transcript),
      ((new KeyValueDB.empty true none).bind fun first =>
        (new KeyValueDB.empty false (some rightHalf)).bind fun second =>
          (PartialRun.run (LvmtDB.step (H := Transcript) updateParams) first updateRun).map
            fun ran => (first, second, ran.2)) = some result :=
    Option.isSome_iff_exists.mp (by decide +kernel)
  obtain ⟨first, firstOpened, done⟩ := Option.bind_eq_some_iff.mp done
  obtain ⟨second, secondOpened, done⟩ := Option.bind_eq_some_iff.mp done
  obtain ⟨ran, isRan, -⟩ := Option.map_eq_some_iff.mp done
  have returned := shard_invisible (H := Transcript) updateParams true false rightHalf firstOpened
    secondOpened updateRun (by simp [updateRun, LvmtOp.NoProof]) (by decide)
  rw [isRan] at returned
  exact ⟨first, second, ran.2, firstOpened, secondOpened, by rw [isRan]; rfl, returned.symm⟩

end LvmtDB

end AuthStorage.Lvmt
