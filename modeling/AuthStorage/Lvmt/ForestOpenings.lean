/-
This file is about the proofs of a forest in which every tree is maintained. No
operation lowers the integer of a leaf while the counters stay below their five
bytes: a slot that is added holds zero, an increment adds a power of two, and a
commit adds one to the leaf of every tree that changed. So every tree can be
opened at every leaf after any number of increments and commits.
-/

import AuthStorage.Lvmt.AMTOpenings
import AuthStorage.Lvmt.CommitTotal
import AuthStorage.Lvmt.VersionAgreement

namespace AuthStorage.Lvmt

namespace Forest

variable {G G₂ : Type} {depths : Nat}

/-- The whole shard maintains every tree. -/
theorem shardRoot_root {name : TreeName} (valid : name.Valid depths) :
    shardRoot (some (NodeIndex.root : NodeIndex depths)) name = some .root := by
  rw [shardRoot, shardRootOf]
  cases first : name.firstIndex with
  | none => rfl
  | some index =>
    have inside : checkIndex depths index.toNat = some ⟨_, valid.firstIndex_lt first⟩ :=
      dif_pos _
    simp only [inside, Option.bind_eq_bind, Option.bind_some, NodeIndex.needsMaintain_root, if_true,
      Option.join_some]

/-- Every entry of a leaf has an index of the names. -/
theorem exists_index (le : depths ≤ 28) (inside : Fin (2 ^ depths)) :
    ∃ index : UInt32, inside.val = index.toNat := by
  have bound : 2 ^ depths ≤ 2 ^ 28 := Nat.pow_le_pow_right (by norm_num) le
  have small := inside.isLt
  refine ⟨UInt32.ofNat inside.val, ?_⟩
  rw [UInt32.toNat_ofNat', Nat.mod_eq_of_lt (by omega)]

variable [Curve G] {pp : AMTParams G G₂ depths} {forest next : Forest G depths}
  {bound keys trees : Nat}

/-- Every tree opens at every leaf; the versions of keys and those of trees are bounded. -/
structure Openable (pp : AMTParams G G₂ depths) (keys trees : Nat) (forest : Forest G depths) :
    Prop where
  proper : forest.OnlyProper
  opens : ∀ name, (forest name).Opens pp
  short : forest.Short
  counters : forest.CountersLe keys
  treeVersions : forest.TreeVersionsLe trees

theorem openable_empty (pp : AMTParams G G₂ depths) :
    (empty : Forest G depths).Openable pp 0 0 where
  proper name dirty := by cases dirty
  opens name := AMTView.opens_empty pp
  short name index := Nat.zero_le _
  counters name index version member := absurd member List.not_mem_nil
  treeVersions name index := Nat.zero_le _

theorem Openable.mono {keys' trees' : Nat} (openable : forest.Openable pp keys trees)
    (keysLe : keys ≤ keys') (treesLe : trees ≤ trees') : forest.Openable pp keys' trees' :=
  { openable with
    counters := openable.counters.mono keysLe
    treeVersions := fun name index => le_trans (openable.treeVersions name index) treesLe }

/-- Replacing one view. -/
theorem opens_update (opens : ∀ name, (forest name).Opens pp) {name : TreeName}
    {view : AMTView Node G depths} (opensView : view.Opens pp) (other : TreeName) :
    (Function.update forest name view other).Opens pp := by
  by_cases same : other = name
  · rw [same, Function.update_self]
    exact opensView
  · rw [Function.update_of_ne same]
    exact opens other

/-! ### Increments -/

section

variable {key : Key} {verInfo result : VerInfo}

theorem bump_opens (opens : ∀ name, (forest name).Opens pp) (counters : forest.CountersLe bound)
    (small : bound + 1 < 2 ^ 40)
    (done : bump pp (some NodeIndex.root) forest key verInfo = some (result, next)) :
    ∀ name, (next name).Opens pp := by
  obtain ⟨name, inside, inShard, view, named, -, shard, written, -, -, rfl⟩ := bump_eq_some done
  have proper := Key.proper_treeAtLevel pp.depths_le named
    (Nat.le_of_lt_succ verInfo.level.toNat_lt)
  obtain rfl := inProofShard_root shard
  rw [writeSlot, if_pos rfl, shardRoot_root proper.valid] at written
  obtain ⟨value, bumped, replaced⟩ := Option.bind_eq_some_iff.mp written
  refine opens_update opens ((opens name).replace replaced fun newFrInt oldFrInt new old => ?_)
  rw [Node.toNat_bumpKeyVersion bumped (fun version found => ?_) new old]
  · exact Nat.le_add_right _ _
  · exact lt_of_le_of_lt
      (Nat.succ_le_succ (counters name inside version (List.mem_of_getElem? found))) small

theorem allocateFrom_opens (opens : ∀ name, (forest name).Opens pp)
    (done : allocateFrom pp (some NodeIndex.root) key (List.range 32) forest =
      some (verInfo, next)) : ∀ name, (next name).Opens pp := by
  obtain ⟨level, member, allocated⟩ := allocateFrom_eq_some done
  obtain ⟨name, inside, keyVersions, view, named, -, -, pushed, replaced, -, rfl⟩ :=
    allocateAt_eq_some allocated
  have below := List.mem_range.mp member
  have proper := Key.proper_treeAtLevel pp.depths_le named (by omega)
  rw [shardRoot_root proper.valid] at replaced
  refine opens_update opens ((opens name).replace replaced fun newFrInt oldFrInt new old => ?_)
  exact (Node.toNat_push new old rfl (Vec.push_eq_some pushed)).ge

/-- The slot that is added does not exceed the bound. -/
theorem allocateFrom_counters (counters : forest.CountersLe bound)
    (done : allocateFrom pp (some NodeIndex.root) key (List.range 32) forest =
      some (verInfo, next)) : next.CountersLe bound := by
  obtain ⟨slot, -, -, -, -, pushed, kept⟩ := allocateFrom_slot done
  refine kept.all (fun _ _ versions => ∀ version ∈ versions, version.toNat ≤ bound) ?_ counters
  rw [pushed]
  exact counters.concat_zero slot.name slot.index

theorem incKeyVer_opens {version : Option VerInfo} (opens : ∀ name, (forest name).Opens pp)
    (counters : forest.CountersLe bound) (small : bound + 1 < 2 ^ 40)
    (done : incKeyVer pp (some NodeIndex.root) forest key version = some (verInfo, next)) :
    ∀ name, (next name).Opens pp := by
  cases version with
  | some given => exact bump_opens opens counters small done
  | none =>
    obtain ⟨⟨start, middle⟩, allocated, done⟩ := Option.bind_eq_some_iff.mp done
    exact bump_opens (allocateFrom_opens opens allocated)
      (allocateFrom_counters counters allocated) small done

/-- Increments leave the versions of the trees alone. -/
theorem TreeVersionsLe.incKeyVer {version : Option VerInfo} (versions : forest.TreeVersionsLe bound)
    (slots : ∀ given, version = some given → given.slotIndex.toNat < 5)
    (done : Forest.incKeyVer pp (some NodeIndex.root) forest key version =
      some (verInfo, next)) : next.TreeVersionsLe bound := by
  obtain ⟨-, name, view, -, bumped, rfl⟩ := incKeyVer_bumped slots done
  intro other index
  by_cases same : other = name
  · rw [same, Function.update_self, bumped.treeVersion]
    exact versions name index
  · rw [Function.update_of_ne same]
    exact versions other index

theorem Openable.incKeyVer {version : Option VerInfo} (openable : forest.Openable pp keys trees)
    (small : keys + 1 < 2 ^ 40)
    (slots : ∀ given, version = some given → given.slotIndex.toNat < 5)
    (done : Forest.incKeyVer pp (some NodeIndex.root) forest key version =
      some (verInfo, next)) : next.Openable pp (keys + 1) trees where
  proper := openable.proper.incKeyVer done
  opens := incKeyVer_opens openable.opens openable.counters small done
  short := openable.short.incKeyVer done
  counters := openable.counters.incKeyVer done
  treeVersions := openable.treeVersions.incKeyVer slots done

end

/-! ### Commits -/

section

variable {epoch startPos : UInt64} {state after : Forest G depths × List (VersionTree.SubTreeUpdate G)}

theorem commitOne_opens {parent : TreeName} {index : UInt32} (proper : state.1.OnlyProper)
    (opens : ∀ name, (state.1 name).Opens pp)
    (small : ∀ inside : Fin (2 ^ depths), inside.val = index.toNat →
      ((state.1 parent).data inside).treeVersion.toNat + 1 < 2 ^ 40)
    (done : commitOne pp (some NodeIndex.root) epoch startPos state (parent.child index) =
      some after) : after.1.OnlyProper ∧ ∀ name, (after.1 name).Opens pp := by
  cases changed : (state.1 (parent.child index)).dirty with
  | false =>
    rw [commitOne_of_clean changed] at done
    obtain rfl := Option.some.inj done
    exact ⟨proper, opens⟩
  | true =>
    have parentProper := (proper _ changed).parent
    refine ⟨fun other dirty => ?_, ?_⟩
    · by_cases isParent : other = parent
      · rwa [isParent]
      · exact proper other (dirty_of_commitOne done dirty isParent).2
    · obtain ⟨inside, treeVersion, position, above, sameIndex, numbered, -, replaced, rfl⟩ :=
        commitOne_eq_some changed done
      rw [shardRoot_root parentProper.valid] at replaced
      refine opens_update (opens_update opens (opens _).clean)
        (((opens parent).setSubtreeRoot inside _).replace replaced
          fun newFrInt oldFrInt new old => ?_)
      rw [Node.toNat_bumpTreeVersion new old (small inside sameIndex)
        (eq_add_of_checkedAdd numbered) rfl]
      exact Nat.le_succ _

/-- A leaf that does not belong to the tree that is moved is left alone. -/
theorem commitOne_treeVersion {name other : TreeName} {index : UInt32} {inside : Fin (2 ^ depths)}
    (sameIndex : inside.val = index.toNat)
    (done : commitOne pp (some NodeIndex.root) epoch startPos state name = some after)
    (different : name ≠ other.child index) :
    ((after.1 other).data inside).treeVersion = ((state.1 other).data inside).treeVersion := by
  rw [(frame_commitOne done sameIndex different).1]

/-- Every tree is moved at most once. -/
theorem commitAll_opens {names : List TreeName} (distinct : names.Nodup) (small : bound + 1 < 2 ^ 40)
    (proper : state.1.OnlyProper) (opens : ∀ name, (state.1 name).Opens pp)
    (untouched : ∀ parent index (inside : Fin (2 ^ depths)), inside.val = index.toNat →
      TreeName.child parent index ∈ names →
        ((state.1 parent).data inside).treeVersion.toNat ≤ bound)
    (versions : state.1.TreeVersionsLe (bound + 1))
    (done : names.foldlM (commitOne pp (some NodeIndex.root) epoch startPos) state = some after) :
    (∀ name, (after.1 name).Opens pp) ∧ after.1.TreeVersionsLe (bound + 1) := by
  induction names generalizing state with
  | nil =>
    obtain rfl : state = after := by simpa using done
    exact ⟨opens, versions⟩
  | cons name rest inductionHypothesis =>
    obtain ⟨absent, distinct⟩ := List.nodup_cons.mp distinct
    rw [List.foldlM_cons] at done
    obtain ⟨middle, stepped, done⟩ := Option.bind_eq_some_iff.mp done
    obtain ⟨middleProper, middleOpens⟩ :
        middle.1.OnlyProper ∧ ∀ name, (middle.1 name).Opens pp := by
      cases name with
      | root =>
        obtain rfl := Option.some.inj stepped
        exact ⟨proper, opens⟩
      | child parent index =>
        exact commitOne_opens proper opens (fun inside sameIndex => lt_of_le_of_lt
          (Nat.succ_le_succ (untouched parent index inside sameIndex List.mem_cons_self)) small)
          stepped
    refine inductionHypothesis distinct middleProper middleOpens ?_ ?_ done
    · intro parent index inside sameIndex member
      rw [commitOne_treeVersion sameIndex stepped fun same => absent (same ▸ member)]
      exact untouched parent index inside sameIndex (List.mem_cons_of_mem _ member)
    · intro other inside
      obtain ⟨index, sameIndex⟩ := exists_index pp.depths_le inside
      by_cases moved : name = other.child index
      · subst moved
        exact le_trans (treeVersion_commitOne stepped)
          (Nat.succ_le_succ (untouched other index inside sameIndex List.mem_cons_self))
      · rw [commitOne_treeVersion sameIndex stepped moved]
        exact versions other inside

theorem Openable.commit {commitment : G} {updates : List (VersionTree.SubTreeUpdate G)}
    (openable : forest.Openable pp keys trees) (small : trees + 1 < 2 ^ 40)
    (done : Forest.commit pp (some NodeIndex.root) forest epoch startPos =
      some ((commitment, updates), next)) : next.Openable pp keys (trees + 1) := by
  have kept := commit_keyVersions done
  have clean := (commit_reported openable.proper done).2.clean
  rw [Forest.commit] at done
  obtain ⟨⟨after, updates'⟩, committed, done⟩ := Option.bind_eq_some_iff.mp done
  obtain ⟨-, rfl⟩ := Prod.mk.inj (Option.some.inj done)
  have distinct : (TreeName.allNames depths).Nodup :=
    TreeName.postOrder_nodup (fun _ => TreeName.allIndices_nodup pp.depths_le) _ _
  obtain ⟨opens, versions⟩ := commitAll_opens distinct small openable.proper openable.opens
    (fun parent index inside _ _ => openable.treeVersions parent inside)
    (fun name index => le_trans (openable.treeVersions name index) (Nat.le_succ trees)) committed
  refine ⟨fun name dirty => ?_, opens, fun name index => ?_, openable.counters.congr kept, versions⟩
  · by_cases isRoot : name = .root
    · rw [isRoot]
      exact TreeName.proper_root depths
    · rw [clean name isRoot] at dirty
      cases dirty
  · rw [kept]
    exact openable.short name index

end

end Forest

end AuthStorage.Lvmt
