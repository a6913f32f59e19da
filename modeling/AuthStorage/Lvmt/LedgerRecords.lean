/-
This file is about what the leaves of all epochs say of the ledger. Every stored
pair is a leaf of the epoch that wrote it, every tree that was committed is a
leaf of the epoch that listed it last, with the version its parent has for it,
and the trees on the path of a stored pair have all been listed. A commit keeps
this, whichever trees it touches, and so does everything else that is done.
-/

import AuthStorage.Lvmt.ForestRecords
import AuthStorage.Lvmt.MerkleArchive

namespace AuthStorage.Lvmt

variable {G G₂ H : Type} {depths : Nat}

/-! ### The history -/

/-- What one commit stored and which trees it listed. -/
structure Epoch (G : Type) where
  stored : List (Key × Value)
  updates : List (VersionTree.SubTreeUpdate G)

namespace Epoch

variable [Curve G] [H256 H]

/-- The leaves of the Merkle tree of the epoch. -/
def leaves (epoch : Epoch G) : List H :=
  epoch.stored.map LvmtDB.pairHash ++ epoch.updates.map LvmtDB.treeValueHash

/-- The pair was stored at the position. -/
def Stores (history : List (Epoch G)) (position : EpochPosition) (pair : Key × Value) : Prop :=
  ∃ epoch, history[position.epoch.toNat]? = some epoch ∧
    epoch.stored[position.position.toNat]? = some pair

/-- The tree was listed at the position, behind the pairs. -/
def Lists (history : List (Epoch G)) (position : EpochPosition)
    (update : VersionTree.SubTreeUpdate G) : Prop :=
  ∃ epoch number, history[position.epoch.toNat]? = some epoch ∧
    epoch.updates[number]? = some update ∧
    position.position.toNat = epoch.stored.length + number

variable {history : List (Epoch G)} {position : EpochPosition}

omit [Curve G] in
theorem Stores.append {pair : Key × Value} (stores : Stores history position pair)
    (later : List (Epoch G)) : Stores (history ++ later) position pair := by
  obtain ⟨epoch, found, member⟩ := stores
  refine ⟨epoch, ?_, member⟩
  rw [List.getElem?_append_left (List.getElem?_eq_some_iff.mp found).1, found]

omit [Curve G] in
theorem Lists.append {update : VersionTree.SubTreeUpdate G} (lists : Lists history position update)
    (later : List (Epoch G)) : Lists (history ++ later) position update := by
  obtain ⟨epoch, number, found, member⟩ := lists
  refine ⟨epoch, number, ?_, member⟩
  rw [List.getElem?_append_left (List.getElem?_eq_some_iff.mp found).1, found]

theorem Stores.isLeaf {pair : Key × Value} (stores : Stores history position pair) :
    LvmtDB.IsLeaf (history.map (leaves : Epoch G → List H)) position (LvmtDB.pairHash pair) := by
  obtain ⟨epoch, found, member⟩ := stores
  refine ⟨epoch.leaves, by rw [List.getElem?_map, found, Option.map_some], ?_⟩
  have inside := (List.getElem?_eq_some_iff.mp member).1
  rw [leaves, List.getElem?_append_left (by rwa [List.length_map]), List.getElem?_map, member,
    Option.map_some]

theorem Lists.isLeaf {update : VersionTree.SubTreeUpdate G}
    (lists : Lists history position update) :
    LvmtDB.IsLeaf (history.map (leaves : Epoch G → List H)) position
      (LvmtDB.treeValueHash update) := by
  obtain ⟨epoch, number, found, member, placed⟩ := lists
  refine ⟨epoch.leaves, by rw [List.getElem?_map, found, Option.map_some], ?_⟩
  rw [leaves, placed, List.getElem?_append_right (by rw [List.length_map]; omega), List.length_map,
    Nat.add_sub_cancel_left, List.getElem?_map, member, Option.map_some]

/-- Every leaf is a hash. -/
theorem noZero_leaves (neverZero : ∀ bytes, (keccak bytes : H) ≠ default) (epoch : Epoch G) :
    StaticMerkleTree.NoZero (epoch.leaves : List H) := by
  refine StaticMerkleTree.noZero_of_ne_zero neverZero fun member => ?_
  rcases List.mem_append.mp member with inPairs | inUpdates
  · obtain ⟨pair, -, zero⟩ := List.mem_map.mp inPairs
    exact neverZero _ zero
  · obtain ⟨update, -, zero⟩ := List.mem_map.mp inUpdates
    exact neverZero _ zero

end Epoch

open Epoch

/-! ### Levels that are handed out -/

namespace Forest

variable [Curve G] {pp : AMTParams G G₂ depths} {shardNode : Option (NodeIndex depths)}
  {forest next : Forest G depths} {key : Key} {verInfo : VerInfo}

/-- Slots are looked for on the first levels only. -/
theorem incKeyVer_level {version : Option VerInfo}
    (shallow : ∀ given, version = some given → given.level.toNat < 32)
    (done : incKeyVer pp shardNode forest key version = some (verInfo, next)) :
    verInfo.level.toNat < 32 := by
  cases version with
  | some given =>
    obtain ⟨-, -, -, -, -, -, -, -, -, rfl, -⟩ := bump_eq_some done
    exact shallow given rfl
  | none =>
    obtain ⟨⟨start, middle⟩, started, bumped⟩ := Option.bind_eq_some_iff.mp done
    obtain ⟨-, -, -, -, -, -, -, -, -, rfl, -⟩ := bump_eq_some bumped
    obtain ⟨level, member, allocated⟩ := allocateFrom_eq_some started
    obtain ⟨-, -, -, -, -, -, -, -, -, rfl, -⟩ := allocateAt_eq_some allocated
    have below := List.mem_range.mp member
    show (UInt8.ofNat level).toNat < 32
    rw [UInt8.toNat_ofNat', Nat.mod_eq_of_lt (by omega)]
    exact below

end Forest

namespace Ledger

/-! ### While a commit goes through the pairs -/

/-- The tree that holds the slot of a pair. -/
def treeOf (depths : Nat) (pair : Key × Value) : Option TreeName :=
  pair.1.treeAtLevel depths pair.2.version.level.toNat

theorem length_treeOf {pair : Key × Value} {name : TreeName}
    (isTree : treeOf depths pair = some name) : name.length = pair.2.version.level.toNat :=
  Key.length_treeAtLevel isTree

variable [Curve G] [H256 H] {pp : AMTParams G G₂ depths} {values : Key → Option Value}
  {history : List (Epoch G)} {committed : Nat}

/-- Stored pairs have their slots on the first levels, and every tree on their paths was listed. -/
structure Reachable (values : Key → Option Value) (forest : Forest G depths) : Prop where
  shallow : ∀ key value, values key = some value → value.version.level.toNat < 32
  listed : ∀ key value name, values key = some value → treeOf depths (key, value) = some name →
    forest.ListedUpTo name

/-- What holds of the forest while a commit goes through the pairs. -/
structure InBatch (pp : AMTParams G G₂ depths) (values : Key → Option Value)
    (history : List (Epoch G)) (committed : Nat) (epoch : UInt64) (stored : List (Key × Value))
    (forest : Forest G depths) : Prop where
  openable : forest.Openable pp (committed + stored.length) committed
  attested : forest.Attested (Lists history)
  reachable : Reachable values forest
  positions : ∀ (number : Nat) (pair : Key × Value), stored[number]? = some pair →
    pair.2.position = ⟨epoch, UInt64.ofNat number⟩
  levels : ∀ pair ∈ stored, pair.2.version.level.toNat < 32
  dirty : ∀ pair ∈ stored, ∀ name, treeOf depths pair = some name → (forest name).dirty = true
  within : forest.DirtyWithin (stored.filterMap (treeOf depths))

section

variable {epoch : UInt64} {stored : List (Key × Value)} {forest next : Forest G depths} {key : Key}
  {verInfo : VerInfo}

theorem InBatch.incKeyVer (inBatch : InBatch pp values history committed epoch stored forest)
    (small : committed + stored.length + 1 < 2 ^ 40)
    (slots : ∀ value, values key = some value → value.version.slotIndex.toNat < 5)
    (done : forest.incKeyVer pp (some NodeIndex.root) key ((values key).map Value.version) =
      some (verInfo, next)) (value : Vec UInt8) :
    InBatch pp values history committed epoch
      (stored ++ [(key, ⟨value, verInfo, ⟨epoch, UInt64.ofNat stored.length⟩⟩)]) next := by
  have slots' : ∀ given, (values key).map Value.version = some given →
      given.slotIndex.toNat < 5 := by
    intro given isGiven
    obtain ⟨old, isOld, rfl⟩ := Option.map_eq_some_iff.mp isGiven
    exact slots old isOld
  have openable := inBatch.openable.incKeyVer small slots' done
  have level : verInfo.level.toNat < 32 := by
    refine Forest.incKeyVer_level (fun given isGiven => ?_) done
    obtain ⟨old, isOld, rfl⟩ := Option.map_eq_some_iff.mp isGiven
    exact inBatch.reachable.shallow key old isOld
  obtain ⟨-, name, view, named, bumped, rfl⟩ := Forest.incKeyVer_bumped slots' done
  refine ⟨?_, inBatch.attested.bumped bumped, ⟨inBatch.reachable.shallow, ?_⟩, ?_, ?_, ?_, ?_⟩
  · rw [List.length_append, List.length_singleton]
    exact openable
  · intro other old tree isOld isTree
    exact (inBatch.reachable.listed other old tree isOld isTree).bumped bumped
  · intro number pair found
    rcases getElem?_concat_cases found with earlier | ⟨rfl, rfl⟩
    · exact inBatch.positions number pair earlier
    · rfl
  · intro pair member
    rcases List.mem_append.mp member with earlier | added
    · exact inBatch.levels pair earlier
    · rw [List.mem_singleton.mp added]
      exact level
  · intro pair member tree isTree
    by_cases same : tree = name
    · rw [same, Function.update_self]
      exact bumped.dirty
    · rw [Function.update_of_ne same]
      rcases List.mem_append.mp member with earlier | added
      · exact inBatch.dirty pair earlier tree isTree
      · rw [List.mem_singleton.mp added] at isTree
        exact absurd (Option.some.inj (isTree.symm.trans named)) same
  · intro other notRoot isDirty
    rw [List.filterMap_append, List.mem_append]
    by_cases same : other = name
    · refine Or.inr (List.mem_filterMap.mpr ⟨_, List.mem_singleton_self _, ?_⟩)
      rw [same]
      exact named
    · rw [Function.update_of_ne same] at isDirty
      exact Or.inl (inBatch.within other notRoot isDirty)

/-- A commit lists at most thirty-one trees for every pair. -/
theorem InBatch.length_leaves_le (inBatch : InBatch pp values history committed epoch stored forest)
    {startPos : UInt64} {commitment : G} {updates : List (VersionTree.SubTreeUpdate G)}
    {shardNode : Option (NodeIndex depths)}
    (done : forest.commit pp shardNode epoch startPos = some ((commitment, updates), next)) :
    updates.length ≤ 31 * stored.length := by
  refine le_trans (Forest.length_updates_le inBatch.openable.proper inBatch.within
    (fun name member => ?_) done) (Nat.mul_le_mul_left 31 (List.length_filterMap_le _ _))
  obtain ⟨pair, isPair, isTree⟩ := List.mem_filterMap.mp member
  have level := inBatch.levels pair isPair
  rw [length_treeOf isTree]
  omega

end

/-! ### Between two operations -/

/-- What holds between two operations, after so many sets were committed. -/
structure Provable (H : Type) [H256 H] (pp : AMTParams G G₂ depths) (ledger : Ledger G depths)
    (values : Key → Option Value) (history : List (Epoch G)) (committed : Nat) : Prop where
  exclusive : ledger.Exclusive values
  openable : ledger.forest.Openable pp committed committed
  clean : ∀ name, name ≠ .root → (ledger.forest name).dirty = false
  archive : LvmtDB.Archive ledger.dbMerkle (history.map (leaves : Epoch G → List H))
  stores : ∀ key value, values key = some value → Stores history value.position (key, value)
  attested : ledger.forest.Attested (Lists history)
  reachable : Reachable values ledger.forest

theorem provable_empty (pp : AMTParams G G₂ depths) :
    (empty : Ledger G depths).Provable H pp (fun _ => none) [] 0 where
  exclusive := exclusive_empty
  openable := Forest.openable_empty pp
  clean name _ := rfl
  archive := LvmtDB.archive_empty
  stores key value impossible := by cases impossible
  attested parent index inside _ _ listed := absurd rfl listed
  reachable := by
    refine ⟨fun key value impossible => ?_, fun key value name impossible => ?_⟩
    · cases impossible
    · cases impossible

section

variable {ledger next : Ledger G depths} {epoch : UInt64} {roots : G × H}

theorem Provable.slots (provable : ledger.Provable H pp values history committed) (key : Key)
    (value : Value) (found : values key = some value) : value.version.slotIndex.toNat < 5 := by
  obtain ⟨slot, isSlot, inside⟩ := provable.exclusive.exclusive.slot key _ ⟨value, found, rfl⟩
  rw [(Key.slot_eq_some.mp isSlot).2.2] at inside
  exact lt_of_lt_of_le inside (provable.exclusive.short _ _)

theorem Provable.oldVersion (provable : ledger.Provable H pp values history committed)
    (key : Key) : ledger.oldVersion key = some ((values key).map Value.version) := by
  rw [Ledger.oldVersion, provable.exclusive.holds key]
  rfl

theorem Provable.inBatch (provable : ledger.Provable H pp values history committed) :
    InBatch pp values history committed epoch [] ledger.forest where
  openable := provable.openable
  attested := provable.attested
  reachable := provable.reachable
  positions number pair found := by simp at found
  levels pair member := absurd member List.not_mem_nil
  dirty pair member := absurd member List.not_mem_nil
  within name notRoot dirty := by
    rw [provable.clean name notRoot] at dirty
    cases dirty

/-- What the loop of a commit leaves behind. -/
theorem Provable.batch (provable : ledger.Provable H pp values history committed)
    {final : Forest G depths × List H × List DBOp}
    (few : committed + ledger.uncommittedKeyValues.length < 2 ^ 40)
    (done : ledger.uncommittedKeyValues.zipIdx.foldlM
      (LvmtDB.commitKey ledger.oldVersion
        (fun forest key version => forest.incKeyVer pp (some .root) key version) epoch)
      (ledger.forest, [], []) = some final) :
    ∃ stored, stored.map (fun pair => (pair.1, pair.2.value)) = ledger.uncommittedKeyValues ∧
      final.2.1 = stored.map LvmtDB.pairHash ∧ final.2.2 = stored.map LvmtDB.pairOp ∧
      InBatch pp values history committed epoch stored final.1 := by
  refine LvmtDB.commitKey_invariant (InBatch pp values history committed epoch)
    (fun stored forest key value version verInfo next inBatch among known incremented => ?_)
    provable.inBatch done
  have lengths := among.length_le
  simp only [List.length_append, List.length_map, List.length_singleton] at lengths
  obtain rfl := Option.some.inj ((provable.oldVersion key).symm.trans known)
  exact inBatch.incKeyVer (by omega) (provable.slots key) incremented value

/-- A commit without any pair changes no tree, and any other lists a tree once at most. -/
theorem InBatch.commit_openable {stored : List (Key × Value)} {forest after : Forest G depths}
    (inBatch : InBatch pp values history committed epoch stored forest)
    (few : committed + stored.length < 2 ^ 40) {startPos : UInt64}
    {commitment : G} {updates : List (VersionTree.SubTreeUpdate G)}
    (done : forest.commit pp (some .root) epoch startPos = some ((commitment, updates), after)) :
    after.Openable pp (committed + stored.length) (committed + stored.length) := by
  by_cases nothing : stored = []
  · have clean : ∀ name, name ≠ .root → (forest name).dirty = false := by
      intro name notRoot
      rw [Bool.eq_false_iff]
      intro dirty
      have touched := inBatch.within name notRoot dirty
      rw [nothing] at touched
      exact absurd touched List.not_mem_nil
    obtain ⟨rfl, -⟩ := Forest.commit_of_clean clean done
    exact inBatch.openable.mono le_rfl (Nat.le_add_right _ _)
  · have positive := List.length_pos_of_ne_nil nothing
    exact (inBatch.openable.commit (by omega) done).mono le_rfl (by omega)

end

end Ledger

end AuthStorage.Lvmt
