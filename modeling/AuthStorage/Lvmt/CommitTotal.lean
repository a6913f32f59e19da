/-
This file is about commits that do not panic, in the workspace configuration. A
new key takes a slot each time it is set before its first commit, since a commit
looks versions up only where the batch is not written yet. The own leaves of a key
have room for ten slots, so a commit goes through as long as no new key is set more
often in one batch; a new key that is set eighty-six times has filled every leaf it
has, and the search for the next slot runs out of the bytes of the key.
-/

import AuthStorage.Lvmt.BatchMap
import AuthStorage.Lvmt.SlotCapacity

namespace AuthStorage.Lvmt

/-! ### The trees of a key -/

namespace Key

/-- The trees that hold the leaves of a whole key. -/
def path (key : Key) : List TreeName := (List.range 17).filterMap (key.treeAtLevel 16)

/-- The trees on the paths of some keys. -/
def paths (keys : List Key) : List TreeName := keys.flatMap path

theorem mem_path {key : Key} {name : TreeName} :
    name ∈ key.path ↔ ∃ level < 17, key.treeAtLevel 16 level = some name := by
  simp only [path, List.mem_filterMap, List.mem_range]

theorem length_paths_le (keys : List Key) : (paths keys).length ≤ 17 * keys.length := by
  induction keys with
  | nil => exact le_rfl
  | cons key rest inductionHypothesis =>
    have first : key.path.length ≤ 17 :=
      (List.length_filterMap_le _ _).trans_eq List.length_range
    rw [paths, List.flatMap_cons, List.length_append, List.length_cons, Nat.mul_succ, Nat.add_comm]
    exact Nat.add_le_add inductionHypothesis first

theorem proper_of_mem_paths {keys : List Key} {name : TreeName} (member : name ∈ paths keys) :
    name.Proper 16 := by
  obtain ⟨key, -, member⟩ := List.mem_flatMap.mp member
  obtain ⟨level, below, named⟩ := mem_path.mp member
  exact proper_treeAtLevel (by norm_num) named (by omega)

theorem parent_mem_paths {keys : List Key} {parent : TreeName} {index : UInt32}
    (member : parent.child index ∈ paths keys) : parent ∈ paths keys := by
  obtain ⟨key, isKey, member⟩ := List.mem_flatMap.mp member
  obtain ⟨level, below, named⟩ := mem_path.mp member
  cases level with
  | zero => cases named
  | succ level =>
    obtain ⟨parent', named', done⟩ := Option.bind_eq_some_iff.mp named
    obtain ⟨index', -, same⟩ := Option.bind_eq_some_iff.mp done
    obtain ⟨rfl, -⟩ := TreeName.child.inj (Option.some.inj same)
    exact List.mem_flatMap.mpr
      ⟨key, isKey, mem_path.mpr ⟨level, Nat.lt_of_succ_lt below, named'⟩⟩

end Key

/-! ### Commits of the forest -/

namespace Forest

variable {G G₂ : Type} {depths : Nat}

/-- Only the root tree and the trees named are dirty. -/
def DirtyWithin (forest : Forest G depths) (names : List TreeName) : Prop :=
  ∀ name, name ≠ .root → (forest name).dirty = true → name ∈ names

/-- No leaf of any tree has a greater tree version. -/
def TreeVersionsLe (forest : Forest G depths) (bound : Nat) : Prop :=
  ∀ name index, ((forest name).data index).treeVersion.toNat ≤ bound

variable [Curve G] {pp : AMTParams G G₂ depths} {shardNode : Option (NodeIndex depths)}
  {epoch startPos : UInt64} {forest : Forest G depths}
  {state next : Forest G depths × List (VersionTree.SubTreeUpdate G)}

theorem treeVersion_commitOne {name other : TreeName} {inside : Fin (2 ^ depths)}
    (done : commitOne pp shardNode epoch startPos state name = some next) :
    ((next.1 other).data inside).treeVersion.toNat ≤
      ((state.1 other).data inside).treeVersion.toNat + 1 := by
  rcases data_commitOne done with same | ⟨treeVersion, position, numbered, data⟩
  · rw [same]
    exact Nat.le_succ _
  · rw [data]
    exact (toNat_checkedAdd numbered).le

/-- A changed tree can be moved into its parent while the counters fit. -/
theorem commitOne_total {parent : TreeName} {index : UInt32}
    (inside : index.toNat < 2 ^ depths) (short : state.1.Short)
    (versionFits : ((state.1 parent).data ⟨_, inside⟩).treeVersion.toNat + 1 < 2 ^ 64)
    (positionFits : startPos.toNat + state.2.length < 2 ^ 64) :
    ∃ next, commitOne pp shardNode epoch startPos state (parent.child index) = some next := by
  obtain ⟨forest, updates⟩ := state
  dsimp only at short versionFits positionFits
  rw [commitOne]
  dsimp only
  by_cases dirty : (forest (parent.child index)).dirty = true
  · have kept : Function.update forest (parent.child index) (forest (parent.child index)).clean
        parent = forest parent := Function.update_of_ne (parent.child_ne_self index).symm _ _
    have lengthFits : (UInt64.ofNat updates.length).toNat = updates.length := by
      rw [UInt64.toNat_ofNat', Nat.mod_eq_of_lt (by omega)]
    have numbered : checkedAdd ((forest parent).data ⟨_, inside⟩).treeVersion 1 = some _ :=
      if_pos versionFits
    have placed : checkedAdd startPos (UInt64.ofNat updates.length) = some _ :=
      if_pos (by rwa [lengthFits])
    obtain ⟨above, replaced⟩ : ∃ above,
        ((forest parent).setSubtreeRoot ⟨_, inside⟩ (forest (parent.child index)).commitment).replace
          pp (shardRoot shardNode parent) ⟨_, inside⟩
          { (forest parent).data ⟨_, inside⟩ with
            treeVersion := ((forest parent).data ⟨_, inside⟩).treeVersion + 1
            treePosition := ⟨epoch, startPos + UInt64.ofNat updates.length⟩ } = some above :=
      replace_total pp _ (short parent ⟨_, inside⟩) (short parent ⟨_, inside⟩)
    rw [if_pos dirty, kept, show checkIndex depths index.toNat = some ⟨_, inside⟩ from dif_pos inside]
    simp only [Option.bind_eq_bind, Option.bind_some, AMTView.setSubtreeRoot_data, numbered, placed,
      replaced]
    exact ⟨_, rfl⟩
  · rw [if_neg dirty]
    exact ⟨_, rfl⟩

/-- Every tree that is moved is one of the names, so the counters grow by their number at most. -/
theorem commitAll_total (pp : AMTParams G G₂ depths) (shardNode : Option (NodeIndex depths))
    (epoch : UInt64) {touched : List TreeName} {bound room : Nat}
    (proper : ∀ name ∈ touched, name.Proper depths)
    (upward : ∀ parent index, TreeName.child parent index ∈ touched →
      parent = .root ∨ parent ∈ touched)
    (positionsFit : startPos.toNat + room < 2 ^ 64) (versionsFit : bound + room < 2 ^ 64)
    (names : List TreeName) (state : Forest G depths × List (VersionTree.SubTreeUpdate G))
    (short : state.1.Short) (within : state.1.DirtyWithin touched)
    (versions : state.1.TreeVersionsLe (bound + state.2.length))
    (left : state.2.length + (names.filter (· ∈ touched)).length ≤ room) :
    ∃ final, names.foldlM (commitOne pp shardNode epoch startPos) state = some final ∧
      final.1.TreeVersionsLe (bound + final.2.length) ∧ final.2.length ≤ room := by
  induction names generalizing state with
  | nil => exact ⟨state, rfl, versions, le_trans (Nat.le_add_right _ _) left⟩
  | cons name rest inductionHypothesis =>
    rw [List.foldlM_cons]
    by_cases moves : name ≠ .root ∧ (state.1 name).dirty = true
    · obtain ⟨notRoot, dirty⟩ := moves
      have isTouched := within name notRoot dirty
      rw [List.filter_cons_of_pos (by simpa using isTouched), List.length_cons] at left
      cases name with
      | root => exact absurd rfl notRoot
      | child parent index =>
        have inside := (proper _ isTouched).valid.1
        obtain ⟨next, stepped⟩ : ∃ next,
            commitOne pp shardNode epoch startPos state (parent.child index) = some next :=
          commitOne_total inside short
            (by have := versions parent ⟨_, inside⟩; omega) (by omega)
        have longer : next.2.length = state.2.length + 1 := by
          obtain ⟨moved, treeVersion, position, above, -, -, -, -, rfl⟩ :=
            commitOne_eq_some dirty stepped
          exact List.length_append
        rw [stepped]
        refine inductionHypothesis next (fun other index' => ?_)
          (fun other otherNotRoot otherDirty => ?_) (fun other index' => ?_) (by omega)
        · rw [keyVersions, keyVersions_commitOne stepped]
          exact short other index'
        · by_cases isParent : other = parent
          · rw [isParent] at otherNotRoot ⊢
            exact (upward parent index isTouched).resolve_left otherNotRoot
          · exact within other otherNotRoot (dirty_of_commitOne stepped otherDirty isParent).2
        · have before := versions other index'
          have after : ((next.1 other).data index').treeVersion.toNat ≤ _ :=
            treeVersion_commitOne stepped
          omega
    · have unmoved : commitOne pp shardNode epoch startPos state name = some state := by
        by_cases isRoot : name = .root
        · rw [isRoot]
          rfl
        · exact commitOne_of_clean (Bool.eq_false_iff.mpr fun dirty => moves ⟨isRoot, dirty⟩)
      have fewer : (rest.filter (· ∈ touched)).length ≤ ((name :: rest).filter (· ∈ touched)).length :=
        ((List.sublist_cons_self name rest).filter _).length_le
      rw [unmoved]
      exact inductionHypothesis state short within versions (by omega)

/-- A commit succeeds if few trees were touched and the counters have room for all of them. -/
theorem commit_total (pp : AMTParams G G₂ depths) (shardNode : Option (NodeIndex depths))
    {touched : List TreeName} {bound : Nat} (proper : ∀ name ∈ touched, name.Proper depths)
    (upward : ∀ parent index, TreeName.child parent index ∈ touched →
      parent = .root ∨ parent ∈ touched)
    (epoch : UInt64) (positionsFit : startPos.toNat + touched.length < 2 ^ 64)
    (versionsFit : bound + touched.length < 2 ^ 64) (short : forest.Short)
    (within : forest.DirtyWithin touched) (versions : forest.TreeVersionsLe bound) :
    ∃ result, commit pp shardNode forest epoch startPos = some result ∧
      result.2.TreeVersionsLe (bound + touched.length) := by
  have distinct : (TreeName.allNames depths).Nodup :=
    TreeName.postOrder_nodup (fun _ => TreeName.allIndices_nodup pp.depths_le) _ _
  have few : ((TreeName.allNames depths).filter (· ∈ touched)).length ≤ touched.length :=
    ((distinct.filter _).subperm fun name member => by
      simpa using (List.mem_filter.mp member).2).length_le
  obtain ⟨final, done, finalVersions, finalLength⟩ := commitAll_total pp shardNode epoch proper
    upward positionsFit versionsFit (TreeName.allNames depths) (forest, []) short within versions
    (by simpa using few)
  have committed : commitAll pp shardNode epoch startPos (TreeName.allNames depths) forest =
      some final := done
  refine ⟨(((final.1 .root).commitment, final.2), final.1), ?_, fun name index => ?_⟩
  · rw [commit, committed]
    rfl
  · exact le_trans (finalVersions name index) (Nat.add_le_add_left finalLength _)

/-! ### Versions that are handed out -/

theorem incKeyVer_version_le {key : Key} {version : Option VerInfo} {verInfo : VerInfo}
    {next : Forest G depths} {bound : Nat}
    (known : ∀ given, version = some given → given.version.toNat ≤ bound)
    (done : incKeyVer pp shardNode forest key version = some (verInfo, next)) :
    verInfo.version.toNat ≤ bound + 1 := by
  cases version with
  | some given =>
    obtain ⟨slot, inShard, -, -, -, rfl, -, -⟩ := incKeyVer_known done
    refine le_trans ?_ (Nat.succ_le_succ (known given rfl))
    rw [UInt64.toNat_add]
    exact Nat.mod_le _ _
  | none =>
    obtain ⟨slot, inShard, -, -, one, -, -, -, -⟩ := incKeyVer_new done
    rw [one]
    exact Nat.le_add_left _ _

end Forest

/-! ### Operations -/

/-- What a task does: it sets keys of the length that is supplied, reads and commits. -/
def LvmtOp.OfTask : LvmtOp → Prop
  | set key _ => key.Whole
  | get _ | commit => True
  | prove _ | flushRoot => False

/-! ### A batch -/

/-- The loop over the pairs that were set goes through if every increment does that can follow. -/
theorem LvmtDB.commitKey_total {H Tree : Type} [H256 H]
    {oldVersion : Key → Option (Option VerInfo)}
    {incKeyVer : Tree → Key → Option VerInfo → Option (VerInfo × Tree)} {epoch : UInt64}
    (invariant : List (Key × Value) → Tree → Prop) {pairs : List (Key × Vec UInt8)}
    (keeps : ∀ stored tree key value version verInfo next, invariant stored tree →
      stored.map (fun pair => (pair.1, pair.2.value)) ++ [(key, value)] <+: pairs →
      oldVersion key = some version → incKeyVer tree key version = some (verInfo, next) →
        invariant (stored ++ [(key, ⟨value, verInfo, ⟨epoch, UInt64.ofNat stored.length⟩⟩)]) next)
    (proceeds : ∀ stored tree key value, invariant stored tree →
      stored.map (fun pair => (pair.1, pair.2.value)) ++ [(key, value)] <+: pairs →
        ∃ version verInfo next, oldVersion key = some version ∧
          incKeyVer tree key version = some (verInfo, next))
    {tree : Tree} (start : invariant [] tree) :
    ∃ final : Tree × List H × List DBOp,
      pairs.zipIdx.foldlM (commitKey oldVersion incKeyVer epoch) (tree, [], []) = some final := by
  induction pairs using List.reverseRecOn with
  | nil => exact ⟨_, rfl⟩
  | append_singleton pairs pair inductionHypothesis =>
    have longer : ∀ {list : List (Key × Vec UInt8)}, list <+: pairs → list <+: pairs ++ [pair] :=
      fun shorter => shorter.trans (List.prefix_append _ _)
    have keeps' := fun stored tree key value version verInfo next holds among =>
      keeps stored tree key value version verInfo next holds (longer among)
    obtain ⟨final, done⟩ := inductionHypothesis keeps' fun stored tree key value holds among =>
      proceeds stored tree key value holds (longer among)
    obtain ⟨stored, whole, -, -, holds⟩ := commitKey_invariant invariant keeps' start done
    obtain ⟨version, verInfo, next, known, incremented⟩ :=
      proceeds stored final.1 pair.1 pair.2 holds (whole ▸ List.prefix_rfl)
    rw [List.zipIdx_append, List.foldlM_append, done]
    simp only [Option.bind_eq_bind, Option.bind_some, List.zipIdx_singleton, List.foldlM_cons,
      List.foldlM_nil, commitKey, known, incremented]
    exact ⟨_, rfl⟩

namespace Ledger

variable {G G₂ H : Type} [Curve G] [H256 H] {values : Key → Option Value} {committed : Nat}

/-- What holds of the forest while a commit goes through the pairs. Of the slots in the own leaves
of a key, those of a key that is not stored yet were all taken in this batch. -/
structure Underway (values : Key → Option Value) (committed : Nat) (stored : List (Key × Value))
    (forest : Forest G 16) : Prop where
  slots : ∀ key verInfo, Owns values key verInfo → ∃ slot, key.slot 16 verInfo = some slot ∧
    slot.number < (forest.keyVersions slot.name slot.index).length
  short : forest.Short
  counters : forest.CountersLe (committed + stored.length)
  treeVersions : forest.TreeVersionsLe (17 * committed)
  taken : ∀ key, key.Whole → values key = none →
    forest.slotsOn Forest.ownLevels key ≤ (stored.map Prod.fst).count key
  within : forest.DirtyWithin (Key.paths (stored.map Prod.fst))
  versions : ∀ pair ∈ stored, pair.2.version.version.toNat ≤ committed + stored.length

section

variable {stored : List (Key × Value)} {forest next : Forest G 16} {pp : AMTParams G G₂ 16}
  {shardNode : Option (NodeIndex 16)} {key : Key} {verInfo : VerInfo}

theorem Underway.incKeyVer (underway : Underway values committed stored forest)
    (whole : key.Whole)
    (known : ∀ value, values key = some value → value.version.version.toNat ≤ committed)
    (done : forest.incKeyVer pp shardNode key ((values key).map Value.version) =
      some (verInfo, next)) (value : Vec UInt8) (position : EpochPosition) :
    Underway values committed (stored ++ [(key, ⟨value, verInfo, position⟩)]) next := by
  have longer : (stored ++ [(key, (⟨value, verInfo, position⟩ : Value))]).length =
      stored.length + 1 := List.length_append
  have owned : ∀ given, (values key).map Value.version = some given → Owns values key given :=
    fun given isGiven => Option.map_eq_some_iff.mp isGiven
  obtain ⟨-, name, view, named, bumped, rfl⟩ := Forest.incKeyVer_bumped (fun given isGiven => by
    obtain ⟨slot, isSlot, inside⟩ := underway.slots key given (owned given isGiven)
    rw [(Key.slot_eq_some.mp isSlot).2.2] at inside
    exact lt_of_lt_of_le inside (underway.short _ _)) done
  refine ⟨fun other otherInfo isOwned => ?_, underway.short.incKeyVer done, ?_, fun other index => ?_,
    fun other otherWhole unstored => ?_, fun other notRoot dirty => ?_, fun pair member => ?_⟩
  · obtain ⟨slot, isSlot, inside⟩ := underway.slots other otherInfo isOwned
    exact ⟨slot, isSlot, lt_of_lt_of_le inside (Forest.incKeyVer_length_le done _ _)⟩
  · rw [longer]
    exact underway.counters.incKeyVer done
  · by_cases same : other = name
    · rw [same, Function.update_self, bumped.treeVersion]
      exact underway.treeVersions name index
    · rw [Function.update_of_ne same]
      exact underway.treeVersions other index
  · refine le_trans (Forest.slotsOn_ownLevels_incKeyVer whole otherWhole done) ?_
    rw [List.map_append, List.map_singleton, List.count_append, List.count_singleton]
    have before := underway.taken other otherWhole unstored
    simp only [beq_iff_eq]
    exact Nat.add_le_add_right before _
  · rw [List.map_append, List.map_singleton, Key.paths, List.flatMap_append, List.flatMap_singleton,
      List.mem_append]
    by_cases same : other = name
    · obtain ⟨slot, isSlot, -⟩ := Forest.incKeyVer_slot done
      have level_le := whole.level_le (Key.leafAt_of_slot isSlot)
      rw [same]
      exact Or.inr (Key.mem_path.mpr ⟨_, Nat.lt_succ_of_le level_le, named⟩)
    · rw [Function.update_of_ne same] at dirty
      exact Or.inl (underway.within other notRoot dirty)
  · rw [longer]
    rcases List.mem_append.mp member with earlier | added
    · exact le_trans (underway.versions pair earlier) (Nat.le_succ _)
    · have version_le := Forest.incKeyVer_version_le (fun given isGiven => by
        obtain ⟨old, isOld, rfl⟩ := owned given isGiven
        exact known old isOld) done
      rw [List.mem_singleton.mp added]
      exact le_trans version_le (by omega)

/-- The next pair can be stored if its key is known, or new and not set more than ten times. -/
theorem Underway.incKeyVer_total (underway : Underway values committed stored forest)
    (pp : AMTParams G G₂ 16) (shardNode : Option (NodeIndex 16)) (whole : key.Whole)
    (known : ∀ value, values key = some value → value.version.version.toNat ≤ committed)
    (few : committed + stored.length + 1 < 2 ^ 40)
    (spared : values key = none → (stored.map Prod.fst).count key < 10) :
    ∃ result, forest.incKeyVer pp shardNode key ((values key).map Value.version) = some result := by
  refine Forest.incKeyVer_total pp shardNode whole underway.short underway.counters (by omega)
    (fun given isGiven => ?_) fun isNew => ?_
  · obtain ⟨old, isOld, rfl⟩ := Option.map_eq_some_iff.mp isGiven
    refine ⟨UInt64.lt_iff_toNat_lt.mpr ?_, underway.slots key _ ⟨old, isOld, rfl⟩⟩
    have version_le := known old isOld
    rw [show maxVersionNumber.toNat = 2 ^ 40 - 1 from rfl]
    omega
  · have unstored := Option.map_eq_none_iff.mp isNew
    exact lt_of_le_of_lt (underway.taken key whole unstored) (spared unstored)

end

/-! ### Commits of the ledger -/

/-- What holds between two operations: `committed` sets and `epochs` commits were done. -/
structure Roomy (ledger : Ledger G 16) (values : Key → Option Value) (committed epochs : Nat) :
    Prop where
  exclusive : ledger.Exclusive values
  versions : ∀ key value, values key = some value → value.version.version.toNat ≤ committed
  counters : ledger.forest.CountersLe committed
  treeVersions : ledger.forest.TreeVersionsLe (17 * committed)
  vacant : ∀ key, key.Whole → values key = none → ledger.forest.slotsOn Forest.ownLevels key = 0
  clean : ∀ name, name ≠ .root → (ledger.forest name).dirty = false
  whole : ∀ pair ∈ ledger.uncommittedKeyValues, pair.1.Whole
  epoch : ∃ epoch, LvmtDB.currentEpoch ledger.dbMerkle = some epoch ∧ epoch.toNat = epochs

/-- A key that is new takes no more slots than its own leaves have. -/
def Spares (ledger : Ledger G 16) (values : Key → Option Value) : Prop :=
  ∀ pair ∈ ledger.uncommittedKeyValues, values pair.1 = none →
    (ledger.uncommittedKeyValues.map Prod.fst).count pair.1 ≤ 10

section

variable {config : LvmtConfig G G₂ 16} {ledger next : Ledger G 16} {epochs : Nat} {epoch : UInt64}

theorem roomy_empty : (empty : Ledger G 16).Roomy (fun _ => none) 0 0 where
  exclusive := exclusive_empty
  versions key value impossible := by cases impossible
  counters name index version member := absurd member List.not_mem_nil
  treeVersions name index := Nat.zero_le _
  vacant key _ _ := by
    have none : ∀ level, (empty : Ledger G 16).forest.slotsAt key level = 0 := by
      intro level
      unfold Forest.slotsAt
      cases key.leafAt 16 level with
      | none => rfl
      | some leaf => rfl
    simp only [Forest.slotsOn, none, Finset.sum_const_zero]
  clean name _ := rfl
  whole pair member := absurd member List.not_mem_nil
  epoch := ⟨0, rfl, rfl⟩

omit [Curve G] in
theorem Roomy.underway (roomy : ledger.Roomy values committed epochs) :
    Underway values committed [] ledger.forest where
  slots := roomy.exclusive.exclusive.slot
  short := roomy.exclusive.short
  counters := roomy.counters
  treeVersions := roomy.treeVersions
  taken key whole unstored := (roomy.vacant key whole unstored).le
  within name notRoot dirty := by
    rw [roomy.clean name notRoot] at dirty
    cases dirty
  versions pair member := absurd member List.not_mem_nil

omit [Curve G] in
theorem Roomy.oldVersion (roomy : ledger.Roomy values committed epochs) (key : Key) :
    ledger.oldVersion key = some ((values key).map Value.version) := by
  rw [Ledger.oldVersion, roomy.exclusive.holds key]
  rfl

/-- The step of the loop: the pairs so far and the next one are among those that were set. -/
theorem Roomy.underway_step (roomy : ledger.Roomy values committed epochs) (config : LvmtConfig G G₂ 16)
    (stored : List (Key × Value)) (forest : Forest G 16) (key : Key) (value : Vec UInt8)
    (version : Option VerInfo) (verInfo : VerInfo) (next : Forest G 16)
    (underway : Underway values committed stored forest)
    (among : stored.map (fun pair => (pair.1, pair.2.value)) ++ [(key, value)] <+:
      ledger.uncommittedKeyValues)
    (known : ledger.oldVersion key = some version)
    (incremented : forest.incKeyVer config.pp config.shardInfo key version = some (verInfo, next)) :
    Underway values committed
      (stored ++ [(key, ⟨value, verInfo, ⟨epoch, UInt64.ofNat stored.length⟩⟩)]) next := by
  have whole : key.Whole := roomy.whole (key, value)
    (among.subset (List.mem_append_right _ (List.mem_singleton_self _)))
  obtain rfl := Option.some.inj ((roomy.oldVersion key).symm.trans known)
  exact underway.incKeyVer whole (roomy.versions key) incremented value _

/-- The loop of a commit goes through. -/
theorem Roomy.batch_total (roomy : ledger.Roomy values committed epochs)
    (config : LvmtConfig G G₂ 16) (epoch : UInt64)
    (few : committed + ledger.uncommittedKeyValues.length < 2 ^ 40)
    (spares : ledger.Spares values) :
    ∃ final : Forest G 16 × List H × List DBOp, ledger.uncommittedKeyValues.zipIdx.foldlM
      (LvmtDB.commitKey ledger.oldVersion
        (fun forest key version => forest.incKeyVer config.pp config.shardInfo key version) epoch)
      (ledger.forest, [], []) = some final := by
  refine LvmtDB.commitKey_total (Underway values committed) (roomy.underway_step config)
    (fun stored forest key value underway among => ?_) roomy.underway
  have member : (key, value) ∈ ledger.uncommittedKeyValues :=
    among.subset (List.mem_append_right _ (List.mem_singleton_self _))
  have lengths := among.length_le
  have counts := (among.map Prod.fst).sublist.count_le key
  simp only [List.length_append, List.length_map, List.length_singleton] at lengths
  rw [List.map_append, List.map_map, List.map_singleton, List.count_append, List.count_singleton_self]
    at counts
  obtain ⟨⟨verInfo, next⟩, incremented⟩ := underway.incKeyVer_total config.pp config.shardInfo
    (roomy.whole _ member) (roomy.versions key) (by omega)
    fun unstored => lt_of_lt_of_le counts (spares _ member unstored)
  exact ⟨_, verInfo, next, roomy.oldVersion key, incremented⟩

omit [Curve G] [H256 H] in
/-- A key is new after the pairs were stored if it was before and is none of theirs. -/
theorem storeAll_eq_none {stored : List (Key × Value)} {key : Key} :
    LvmtDB.storeAll values stored key = none ↔
      values key = none ∧ key ∉ stored.map Prod.fst := by
  induction stored generalizing values with
  | nil => simp [LvmtDB.storeAll]
  | cons pair rest inductionHypothesis =>
    rw [LvmtDB.storeAll, List.foldl_cons]
    refine inductionHypothesis.trans ?_
    rw [List.map_cons, List.mem_cons]
    by_cases same : key = pair.1
    · simp [same]
    · rw [Function.update_of_ne same]
      simp [same]

/-- What the loop of a commit leaves behind. -/
theorem Roomy.batch (roomy : ledger.Roomy values committed epochs) {config : LvmtConfig G G₂ 16}
    {final : Forest G 16 × List H × List DBOp}
    (done : ledger.uncommittedKeyValues.zipIdx.foldlM
      (LvmtDB.commitKey ledger.oldVersion
        (fun forest key version => forest.incKeyVer config.pp config.shardInfo key version) epoch)
      (ledger.forest, [], []) = some final) :
    ∃ stored, stored.length = ledger.uncommittedKeyValues.length ∧
      final.2.1.length = stored.length ∧ final.2.2 = stored.map LvmtDB.pairOp ∧
      Underway values committed stored final.1 := by
  obtain ⟨stored, whole, hashes, writeOps, underway⟩ := LvmtDB.commitKey_invariant
    (Underway values committed) (roomy.underway_step config) roomy.underway done
  refine ⟨stored, ?_, ?_, writeOps, underway⟩
  · rw [← whole, List.length_map]
  · rw [hashes, List.length_map]

/-- The forest after the loop can be committed. -/
theorem Underway.commit_total {stored : List (Key × Value)} {forest : Forest G 16}
    (underway : Underway values committed stored forest) (config : LvmtConfig G G₂ 16)
    (epoch : UInt64) (few : committed + stored.length < 2 ^ 40) :
    ∃ result, forest.commit config.pp config.shardInfo epoch (UInt64.ofNat stored.length) =
        some result ∧
      result.2.TreeVersionsLe (17 * (committed + stored.length)) := by
  have touched := Key.length_paths_le (stored.map Prod.fst)
  rw [List.length_map] at touched
  have position : (UInt64.ofNat stored.length).toNat = stored.length := by
    rw [UInt64.toNat_ofNat', Nat.mod_eq_of_lt (by omega)]
  obtain ⟨result, done, versions⟩ := Forest.commit_total config.pp config.shardInfo
    (fun name member => Key.proper_of_mem_paths member)
    (fun parent index member => Or.inr (Key.parent_mem_paths member)) epoch
    (by rw [position]; omega) (by omega) underway.short underway.within underway.treeVersions
  refine ⟨result, done, fun name index => le_trans (versions name index) ?_⟩
  rw [Nat.mul_add]
  exact Nat.add_le_add_left touched _

theorem Roomy.commit_total (roomy : ledger.Roomy values committed epochs)
    (config : LvmtConfig G G₂ 16)
    (few : committed + ledger.uncommittedKeyValues.length < 2 ^ 40) (fewEpochs : epochs + 1 < 2 ^ 64)
    (spares : ledger.Spares values) :
    ∃ (roots : G × H) (next : Ledger G 16), ledger.commit config = some (roots, next) := by
  obtain ⟨epoch, current, rfl⟩ := roomy.epoch
  obtain ⟨⟨forest, hashes, writeOps⟩, batch⟩ := roomy.batch_total (H := H) config epoch few spares
  obtain ⟨stored, sameLength, hashesLength, -, underway⟩ := roomy.batch batch
  obtain ⟨⟨⟨amtRoot, updates⟩, after⟩, committed, -⟩ :=
    underway.commit_total config epoch (by rwa [sameLength])
  rw [← hashesLength] at committed
  have following : checkedAdd epoch 1 = some _ := if_pos fewEpochs
  rw [Ledger.commit, current]
  simp only [Option.bind_eq_bind, Option.bind_some, batch, committed, LvmtDB.finishEpoch, following]
  exact ⟨_, _, rfl⟩

theorem Roomy.commit {roots : G × H} (roomy : ledger.Roomy values committed epochs)
    (few : committed + ledger.uncommittedKeyValues.length < 2 ^ 40)
    (done : ledger.commit config = some (roots, next)) :
    ∃ values', next.Roomy values' (committed + ledger.uncommittedKeyValues.length) (epochs + 1) := by
  have onlyProper : ledger.forest.OnlyProper := by
    intro name dirty
    by_cases isRoot : name = .root
    · rw [isRoot]
      exact TreeName.proper_root 16
    · rw [roomy.clean name isRoot] at dirty
      cases dirty
  obtain ⟨values', exclusive, -⟩ := roomy.exclusive.commit done
  have clean := commit_clean onlyProper done
  obtain ⟨epoch, forest, writeOps, updates, after, dbMerkle, hashes, current, batch, commits,
    finished, rfl⟩ := commit_eq_some done
  obtain ⟨stored, sameLength, hashesLength, sameOps, underway⟩ := roomy.batch batch
  dsimp only at hashesLength sameOps
  subst sameOps
  obtain ⟨result, commits', treeVersions⟩ :=
    underway.commit_total config epoch (by rwa [sameLength])
  rw [← hashesLength] at commits'
  obtain rfl := Option.some.inj (commits.symm.trans commits')
  obtain rfl : values' = LvmtDB.storeAll values stored := funext fun key => Option.some.inj
    ((exclusive.holds key).symm.trans (roomy.exclusive.holds.writeBuffered stored key))
  have keyVersions := Forest.commit_keyVersions commits
  rw [← sameLength]
  refine ⟨_, exclusive, fun key value found => ?_, underway.counters.congr keyVersions, treeVersions,
    fun key whole unstored => ?_, clean, fun pair member => absurd member List.not_mem_nil, ?_⟩
  · rcases storeAll_mem values stored key with ⟨value', member, found'⟩ | found'
    · obtain rfl := Option.some.inj (found.symm.trans found')
      exact underway.versions _ member
    · exact le_trans (roomy.versions key value (found'.symm.trans found)) (Nat.le_add_right _ _)
  · obtain ⟨before, absent⟩ := storeAll_eq_none.mp unstored
    have taken := underway.taken key whole before
    rw [List.count_eq_zero_of_not_mem absent] at taken
    dsimp only
    rw [Forest.slotsOn_congr keyVersions]
    exact Nat.le_zero.mp taken
  · obtain ⟨epoch', current', sameEpoch⟩ := roomy.epoch
    obtain rfl := Option.some.inj (current.symm.trans current')
    obtain ⟨-, following, added, stands, -⟩ := LvmtDB.finishEpoch_eq_some finished
    refine ⟨following, stands, ?_⟩
    rw [toNat_checkedAdd added, sameEpoch]
    rfl

omit [H256 H] [Curve G] in
/-- The invariant says nothing of the pairs that wait. -/
theorem Exclusive.pending (exclusive : ledger.Exclusive values) (pairs : List (Key × Vec UInt8)) :
    Exclusive { ledger with uncommittedKeyValues := pairs } values :=
  ⟨exclusive.holds, exclusive.exclusive, exclusive.short⟩

/-! ### Commits that panic -/

/-- Every set of a new key in a batch takes one of the eighty-five slots that its leaves have. -/
theorem Exclusive.commit_eq_none (exclusive : ledger.Exclusive values) (config : LvmtConfig G G₂ 16)
    {key : Key} (whole : key.Whole) (unstored : values key = none)
    (often : 85 < (ledger.uncommittedKeyValues.map Prod.fst).count key) :
    (ledger.commit config : Option ((G × H) × Ledger G 16)) = none := by
  by_contra succeeds
  obtain ⟨⟨roots, next⟩, done⟩ := Option.ne_none_iff_exists'.mp succeeds
  obtain ⟨epoch, forest, writeOps, updates, after, dbMerkle, hashes, -, batch, -, -, -⟩ :=
    commit_eq_some done
  obtain ⟨stored, pairs, -, -, filled, short⟩ := LvmtDB.commitKey_invariant
    (fun (stored : List (Key × Value)) (forest : Forest G 16) =>
      (stored.map Prod.fst).count key ≤ forest.slotsOn Forest.allLevels key ∧ forest.Short)
    (fun stored forest other value version verInfo next holds _ known incremented => by
      refine ⟨?_, holds.2.incKeyVer incremented⟩
      rw [List.map_append, List.map_singleton, List.count_append, List.count_singleton]
      by_cases same : other = key
      · subst same
        have isNew : version = none := by
          rw [oldVersion, exclusive.holds, unstored] at known
          exact (Option.some.inj known).symm
        subst isNew
        rw [Forest.slotsOn_allLevels_incKeyVer whole incremented]
        simpa using holds.1
      · obtain ⟨slot, -, slots⟩ := Forest.slotsOn_incKeyVer incremented
        rw [slots, if_neg (by simpa using same)]
        exact le_trans holds.1 (Nat.le_add_right _ _))
    ⟨Nat.zero_le _, exclusive.short⟩ batch
  have sameKeys : stored.map Prod.fst = ledger.uncommittedKeyValues.map Prod.fst := by
    rw [← pairs, List.map_map]
    rfl
  have room := short.slotsOn_le Forest.allLevels key
  rw [Forest.allLevels, Finset.card_range] at room
  rw [← sameKeys] at often
  exact absurd (lt_of_lt_of_le often (filled.trans room)) (lt_irrefl 85)

/-- Sets wait for the next commit. -/
theorem run_sets (config : LvmtConfig G G₂ 16) (ledger : Ledger G 16)
    (pairs : List (Key × Vec UInt8)) :
    PartialRun.run (Ledger.step config) ledger (pairs.map fun pair => .set pair.1 pair.2) =
      some ({ ledger with uncommittedKeyValues := ledger.uncommittedKeyValues ++ pairs },
        pairs.map fun _ => (.done : LvmtOutput G H)) := by
  induction pairs generalizing ledger with
  | nil =>
    rw [List.append_nil]
    rfl
  | cons pair rest inductionHypothesis =>
    rw [List.map_cons, PartialRun.run_cons, Ledger.step, Option.bind_some, inductionHypothesis,
      List.append_assoc, List.singleton_append]
    rfl

theorem run_crowded_eq_none (config : LvmtConfig G G₂ 16) {pairs : List (Key × Vec UInt8)}
    {key : Key} (whole : key.Whole) (often : 85 < (pairs.map Prod.fst).count key) :
    (PartialRun.run (Ledger.step config) empty
      ((pairs.map fun pair => .set pair.1 pair.2) ++ [.commit]) :
        Option (Ledger G 16 × List (LvmtOutput G H))) = none := by
  have exclusive : (empty : Ledger G 16).Exclusive fun _ => none := exclusive_empty
  have panics := (exclusive.pending ([] ++ pairs)).commit_eq_none (H := H) config whole rfl often
  rw [PartialRun.run_append, run_sets, Option.bind_some, PartialRun.run_cons, Ledger.step]
  dsimp only [empty] at panics ⊢
  rw [panics]
  rfl

/-! ### Steps -/

/-- A set or a commit is counted, a read changes nothing. -/
theorem Roomy.step {op : LvmtOp} (roomy : ledger.Roomy values committed epochs)
    (config : LvmtConfig G G₂ 16) (ofTask : op.OfTask)
    (few : committed + ledger.uncommittedKeyValues.length < 2 ^ 40)
    (fewEpochs : op.isCommit = true → epochs + 1 < 2 ^ 64)
    (spares : op.isCommit = true → ledger.Spares values) :
    ∃ (next : Ledger G 16) (out : LvmtOutput G H), ∃ values' committed',
      ledger.step config op = some (next, out) ∧
      next.Roomy values' committed' (epochs + if op.isCommit then 1 else 0) ∧
      committed' + next.uncommittedKeyValues.length =
        committed + ledger.uncommittedKeyValues.length + if op.isSet then 1 else 0 := by
  cases op with
  | set key value =>
    refine ⟨_, .done, values, committed, rfl, ?_, ?_⟩
    · refine { roomy with
        exclusive := roomy.exclusive.pending _
        whole := fun pair member => ?_ }
      rcases List.mem_append.mp member with earlier | added
      · exact roomy.whole pair earlier
      · rw [List.mem_singleton.mp added]
        exact ofTask
    · dsimp only
      rw [List.length_append, ← Nat.add_assoc]
      rfl
  | get key =>
    refine ⟨ledger, .value ((values key).map Value.value), values, committed, ?_, roomy, rfl⟩
    rw [Ledger.step, Ledger.get, roomy.exclusive.holds key]
    rfl
  | commit =>
    obtain ⟨roots, next, done⟩ := roomy.commit_total (H := H) config few (fewEpochs rfl) (spares rfl)
    obtain ⟨values', nextRoomy⟩ := roomy.commit few done
    refine ⟨next, .roots roots.1 roots.2, values', _, ?_, nextRoomy, ?_⟩
    · rw [Ledger.step, done]
      rfl
    · rw [commit_uncommitted done]
      rfl
  | prove key => exact ofTask.elim
  | flushRoot => exact ofTask.elim

end

end Ledger

/-! ### Databases -/

namespace LvmtDB

variable {G G₂ H : Type} [Curve G] [H256 H]

/-- Before a commit, no key without a stored value is set more than ten times. -/
def SparesNewKeys (db : LvmtDB G 16) (op : LvmtOp) : Prop :=
  op.isCommit = true → ∀ pair ∈ db.uncommittedKeyValues, loadValue db.dbKey pair.1 = some none →
    (db.uncommittedKeyValues.map Prod.fst).count pair.1 ≤ 10

instance (db : LvmtDB G 16) (op : LvmtOp) : Decidable (db.SparesNewKeys op) :=
  inferInstanceAs (Decidable (_ → _))

theorem Represents.spares {db : LvmtDB G 16} {config : LvmtConfig G G₂ 16} {ledger : Ledger G 16}
    {values : Key → Option Value} {committed epochs : Nat} {op : LvmtOp}
    (represents : db.Represents config ledger) (roomy : ledger.Roomy values committed epochs)
    (sparesNewKeys : db.SparesNewKeys op) (isCommit : op.isCommit = true) :
    ledger.Spares values := by
  intro pair member unstored
  rw [← represents.uncommitted] at member ⊢
  refine sparesNewKeys isCommit pair member ?_
  rw [represents.dbKey, roomy.exclusive.holds, unstored]

/-- Whatever keys are set and in whatever order, no commit panics as long as no new key is set more
than ten times between two commits. -/
theorem commits_total (config : LvmtConfig G G₂ 16) {opened : LvmtDB G 16} {ops : List LvmtOp}
    (isOpened : new KeyValueDB.empty config.onlyMerkleRoot config.shardInfo = some opened)
    (ofTask : ∀ op ∈ ops, op.OfTask) (fewSets : ops.countP LvmtOp.isSet < 2 ^ 40)
    (fewCommits : ops.countP LvmtOp.isCommit < 2 ^ 64)
    (meets : PartialRun.Meets (LvmtDB.step (H := H) config.pp) SparesNewKeys opened ops) :
    ∃ final outputs, PartialRun.run (LvmtDB.step (H := H) config.pp) opened ops =
      some (final, outputs) := by
  let invariant := fun (history : List LvmtOp) (db : LvmtDB G 16) =>
    ∃ ledger values committed, db.Represents config ledger ∧
      ledger.Roomy values committed (history.countP LvmtOp.isCommit) ∧
      committed + ledger.uncommittedKeyValues.length = history.countP LvmtOp.isSet
  let allowed := fun ops : List LvmtOp => (∀ op ∈ ops, op.OfTask) ∧
    ops.countP LvmtOp.isSet < 2 ^ 40 ∧ ops.countP LvmtOp.isCommit < 2 ^ 64
  have start : invariant [] opened :=
    ⟨Ledger.empty, _, 0, represents_of_new isOpened, Ledger.roomy_empty, rfl⟩
  obtain ⟨final, outputs, done, -⟩ := PartialRun.run_total_of_meets invariant allowed
    (fun earlier later ⟨ofTask, fewSets, fewCommits⟩ => by
      rw [List.countP_append] at fewSets fewCommits
      exact ⟨fun op member => ofTask op (List.mem_append_left _ member), by omega, by omega⟩)
    (fun history db op ⟨ofTask, fewSets, fewCommits⟩ spared ⟨ledger, values, committed, stands,
      roomy, counted⟩ => by
      rw [List.countP_append, List.countP_singleton] at fewSets fewCommits
      obtain ⟨after, out, values', committed', ledgerStepped, nextRoomy, nextCounted⟩ :=
        roomy.step (H := H) config (ofTask op (List.mem_append_right _ (List.mem_singleton_self _)))
          (by omega) (fun isCommit => by rwa [if_pos isCommit] at fewCommits)
          (stands.spares roomy spared)
      have simulated := stands.step (H := H) op
      rw [ledgerStepped] at simulated
      obtain ⟨⟨next, _⟩, stepped, nextStands, rfl⟩ := simulated.of_some_right
      refine ⟨next, _, stepped, after, values', committed', nextStands, ?_, ?_⟩
      · rwa [List.countP_append, List.countP_singleton]
      · rw [List.countP_append, List.countP_singleton, nextCounted, counted])
    [] ⟨ofTask, fewSets, fewCommits⟩ start meets
  exact ⟨final, outputs, done⟩

/-- A first batch that sets one key more than eighty-five times panics. -/
theorem run_crowded_eq_none (config : LvmtConfig G G₂ 16) {opened : LvmtDB G 16}
    (isOpened : new KeyValueDB.empty config.onlyMerkleRoot config.shardInfo = some opened)
    {pairs : List (Key × Vec UInt8)} {key : Key} (whole : key.Whole)
    (often : 85 < (pairs.map Prod.fst).count key) :
    PartialRun.run (LvmtDB.step (H := H) config.pp) opened
      ((pairs.map fun pair => .set pair.1 pair.2) ++ [.commit]) = none := by
  by_contra succeeds
  obtain ⟨result, done⟩ := Option.ne_none_iff_exists'.mp succeeds
  obtain ⟨ledger, ran, -⟩ := (represents_of_new isOpened).of_run done
  rw [Ledger.run_crowded_eq_none config whole often] at ran
  cases ran

/-! ### Runs -/

/-- A key of 32 bytes. -/
def wholeKey (last : UInt8) : Key := ⟨⟨List.replicate 31 0 ++ [last], by simp⟩⟩

theorem whole_wholeKey (last : UInt8) : (wholeKey last).Whole := by
  simp [Key.Whole, Vec.len, wholeKey]

/-- Trees with sixteen bits for each level. -/
def sixteenBits : LvmtConfig Fr Fr 16 := ⟨AMTParams.unit 16 (by decide), false, some .root⟩

/-- Two new keys, one of them set twice, and one of them again after the commit. -/
def sparingRun : List LvmtOp :=
  [.set (wholeKey 7) (.single 1), .set (wholeKey 7) (.single 2), .set (wholeKey 8) (.single 3),
    .get (wholeKey 7), .commit, .set (wholeKey 7) (.single 4), .commit]

theorem commits_total_sparingRun :
    ∃ (opened final : LvmtDB Fr 16) (outputs : List (LvmtOutput Fr Transcript)),
      new KeyValueDB.empty false (some .root) = some opened ∧
      PartialRun.run (LvmtDB.step sixteenBits.pp) opened sparingRun = some (final, outputs) := by
  obtain ⟨opened, done⟩ : ∃ opened : LvmtDB Fr 16,
      ((new KeyValueDB.empty false (some .root)).bind fun opened =>
        if PartialRun.Meets (LvmtDB.step (H := Transcript) sixteenBits.pp) SparesNewKeys opened
          sparingRun then some opened else none) = some opened :=
    Option.isSome_iff_exists.mp (by decide +kernel)
  obtain ⟨opened', isOpened, done⟩ := Option.bind_eq_some_iff.mp done
  by_cases meets : PartialRun.Meets (LvmtDB.step (H := Transcript) sixteenBits.pp) SparesNewKeys
    opened' sparingRun
  · obtain ⟨final, outputs, ran⟩ := commits_total sixteenBits isOpened
      (by simp [sparingRun, LvmtOp.OfTask, whole_wholeKey]) (by decide) (by decide) meets
    exact ⟨opened', final, outputs, isOpened, ran⟩
  · rw [if_neg meets] at done
    cases done

/-- A new key that is set eighty-six times. -/
def crowdedPairs : List (Key × Vec UInt8) := List.replicate 86 (wholeKey 7, .single 1)

/-- The sets of `crowdedPairs`, and a commit. -/
def crowdedBatch : List LvmtOp := crowdedPairs.map (fun pair => .set pair.1 pair.2) ++ [.commit]

theorem not_commits_total :
    ∃ opened : LvmtDB Fr 16, new KeyValueDB.empty false (some .root) = some opened ∧
      (∀ op ∈ crowdedBatch, op.OfTask) ∧ crowdedBatch.countP LvmtOp.isSet < 2 ^ 40 ∧
      PartialRun.run (LvmtDB.step (H := Transcript) sixteenBits.pp) opened crowdedBatch = none := by
  obtain ⟨opened, isOpened, -⟩ := new_represents_empty sixteenBits
  refine ⟨opened, isOpened, ?_, by decide, ?_⟩
  · intro op member
    rcases List.mem_append.mp member with isSet | isCommit
    · obtain ⟨pair, isPair, rfl⟩ := List.mem_map.mp isSet
      rw [List.eq_of_mem_replicate isPair]
      exact whole_wholeKey 7
    · rw [List.mem_singleton.mp isCommit]
      trivial
  · refine run_crowded_eq_none sixteenBits isOpened (whole_wholeKey 7) ?_
    rw [crowdedPairs, List.map_replicate, List.count_replicate_self]
    norm_num

end LvmtDB

end AuthStorage.Lvmt
