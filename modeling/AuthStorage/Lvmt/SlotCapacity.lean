/-
This file is about the room there is for the slots of one key, in the workspace
configuration: sixteen bits a level and keys of thirty-two bytes. Such a key has a
leaf at each of seventeen levels, the last of which is the first leaf of a tree of
its own, and no leaf at any other level. The leaves of the last two levels are
shared with no other key, so they have room for ten slots of the key whatever is
done with other keys, and all leaves together have room for eighty-five.
-/

import AuthStorage.Lvmt.KeyBits
import AuthStorage.Lvmt.ShardIndependence
import AuthStorage.Lvmt.SlotsExclusive

namespace AuthStorage.Lvmt

/-! ### The leaves of a key -/

namespace Key

open BigEndianBits

/-- The tree and the leaf of a key at a level. -/
def leafAt (depths : Nat) (key : Key) (level : Nat) : Option (TreeName × Fin (2 ^ depths)) := do
  let name ← key.treeAtLevel depths level
  let index ← key.indexAtLevel depths level
  let index ← checkIndex depths index
  some (name, index)

theorem leafAt_eq_some {depths : Nat} {key : Key} {level : Nat} {name : TreeName}
    {index : Fin (2 ^ depths)} : key.leafAt depths level = some (name, index) ↔
      key.treeAtLevel depths level = some name ∧
        key.indexAtLevel depths level = some index.val := by
  unfold leafAt
  constructor
  · intro done
    obtain ⟨name', named, done⟩ := Option.bind_eq_some_iff.mp done
    obtain ⟨index', indexed, done⟩ := Option.bind_eq_some_iff.mp done
    obtain ⟨inside, checked, done⟩ := Option.bind_eq_some_iff.mp done
    obtain ⟨rfl, rfl⟩ := Prod.mk.inj (Option.some.inj done)
    rw [checkIndex_eq_some checked] at indexed
    exact ⟨named, indexed⟩
  · rintro ⟨named, indexed⟩
    rw [named, indexed]
    simp only [Option.bind_eq_bind, Option.bind_some, checkIndex_val]

/-- The slot of a version is in the leaf of its level. -/
theorem leafAt_of_slot {depths : Nat} {key : Key} {verInfo : VerInfo} {slot : Slot depths}
    (isSlot : key.slot depths verInfo = some slot) :
    key.leafAt depths verInfo.level.toNat = some (slot.name, slot.index) := by
  obtain ⟨named, indexed, -⟩ := slot_eq_some.mp isSlot
  exact leafAt_eq_some.mpr ⟨named, indexed⟩

theorem length_of_leafAt {depths : Nat} {key : Key} {level : Nat} {name : TreeName}
    {index : Fin (2 ^ depths)} (found : key.leafAt depths level = some (name, index)) :
    name.length = level :=
  length_treeAtLevel (leafAt_eq_some.mp found).1

/-- The length of the keys that every task generator supplies. -/
def Whole (key : Key) : Prop := key.bytes.len = 32

instance (key : Key) : Decidable key.Whole := inferInstanceAs (Decidable (key.bytes.len = 32))

theorem configured_sixteen : Configured 16 := by
  simp [Configured]

variable {key other : Key} {level level' : Nat} {leaf : TreeName × Fin (2 ^ 16)}

theorem Whole.leafAt (whole : key.Whole) (reachable : level ≤ 16) :
    ∃ leaf, key.leafAt 16 level = some leaf := by
  have inside : ∀ earlier ≤ level, earlier * 16 ≤ 8 * key.bytes.len := by
    intro earlier le
    rw [whole]
    omega
  obtain ⟨name, named, -⟩ := treeAtLevel_eq_some configured_sixteen
    fun earlier below => inside earlier below.le
  have indexed := indexAtLevel_eq_some configured_sixteen (inside level le_rfl)
  exact ⟨(name, ⟨_, indexAtLevel_lt (by norm_num) indexed⟩), leafAt_eq_some.mpr ⟨named, indexed⟩⟩

/-- The slice of the bytes of any later level starts beyond the end. -/
theorem Whole.level_le (whole : key.Whole) (found : key.leafAt 16 level = some leaf) :
    level ≤ 16 := by
  have indexed := (leafAt_eq_some.mp found).2
  rw [indexAtLevel, mid, if_neg (by norm_num)] at indexed
  by_cases inside : level * 16 / 8 ≤ key.bytes.len
  · rw [whole] at inside
    omega
  · dsimp only at indexed
    rw [if_neg inside] at indexed
    cases indexed

/-- A leaf at one of the last two levels belongs to one key. -/
theorem Whole.eq_of_leafAt (whole : key.Whole) (otherWhole : other.Whole) (deep : 15 ≤ level)
    (found : key.leafAt 16 level = some leaf) (found' : other.leafAt 16 level' = some leaf) :
    key = other := by
  obtain rfl : level = level' := (length_of_leafAt found).symm.trans (length_of_leafAt found')
  have reachable := whole.level_le found
  obtain ⟨named, indexed⟩ := leafAt_eq_some.mp found
  obtain ⟨named', indexed'⟩ := leafAt_eq_some.mp found'
  have inside : ∀ {key : Key}, key.Whole → ∀ earlier < level, earlier * 16 ≤ 8 * key.bytes.len := by
    intro key whole earlier below
    rw [whole]
    omega
  -- The name of the tree gives the indices above, and the leaf the one of the level itself.
  have sameIndex : ∀ earlier ≤ level, key.indexAtLevel 16 earlier = other.indexAtLevel 16 earlier := by
    intro earlier le
    rcases Nat.lt_or_eq_of_le le with below | rfl
    · obtain ⟨name, isName, indices⟩ := treeAtLevel_eq_some configured_sixteen (inside whole)
      obtain ⟨name', isName', indices'⟩ := treeAtLevel_eq_some configured_sixteen (inside otherWhole)
      obtain rfl := Option.some.inj (isName.symm.trans named)
      obtain rfl := Option.some.inj (isName'.symm.trans named')
      exact List.map_inj_left.mp (indices.symm.trans indices') earlier (List.mem_range.mpr below)
    · rw [indexed, indexed']
  have sameByte : ∀ number < 32,
      byte key.bytes.toList number = byte other.bytes.toList number := by
    intro number present
    by_contra differ
    have sameLength : key.bytes.len = other.bytes.len := whole.trans otherWhole.symm
    obtain ⟨apart, below, different⟩ := (index_ne_iff configured_sixteen sameLength).mpr
      ⟨number, by rwa [whole], by omega, Or.inl rfl, differ⟩
    rw [whole] at below
    exact different (sameIndex apart.toNat (by omega))
  refine ext (List.ext_getElem (whole.trans otherWhole.symm) fun number inFirst inSecond => ?_)
  have same := sameByte number (whole ▸ inFirst)
  rw [byte, byte, List.getD_eq_getElem _ _ inFirst, List.getD_eq_getElem _ _ inSecond] at same
  exact UInt8.toNat_inj.mp same

end Key

/-! ### The slots of a key -/

namespace Forest

variable {G G₂ : Type} {depths : Nat}

/-- The number of slots in a key's leaf at a level. -/
def slotsAt (forest : Forest G depths) (key : Key) (level : Nat) : Nat :=
  match key.leafAt depths level with
  | none => 0
  | some (name, index) => (forest.keyVersions name index).length

/-- The number of slots in a key's leaves at some levels. -/
def slotsOn (forest : Forest G depths) (levels : Finset Nat) (key : Key) : Nat :=
  ∑ level ∈ levels, forest.slotsAt key level

theorem slotsAt_of_leafAt {forest : Forest G depths} {key : Key} {level : Nat} {name : TreeName}
    {index : Fin (2 ^ depths)} (found : key.leafAt depths level = some (name, index)) :
    forest.slotsAt key level = (forest.keyVersions name index).length := by
  rw [slotsAt, found]

theorem slotsOn_congr {forest next : Forest G depths} (same : next.keyVersions = forest.keyVersions) :
    next.slotsOn = forest.slotsOn := by
  funext levels key
  simp only [slotsOn, slotsAt, same]

theorem Short.slotsAt_le {forest : Forest G depths} (short : forest.Short) (key : Key)
    (level : Nat) : forest.slotsAt key level ≤ 5 := by
  unfold slotsAt
  cases key.leafAt depths level with
  | none => exact Nat.zero_le _
  | some leaf => exact short leaf.1 leaf.2

theorem Short.slotsOn_le {forest : Forest G depths} (short : forest.Short) (levels : Finset Nat)
    (key : Key) : forest.slotsOn levels key ≤ levels.card * 5 := by
  have bound := Finset.sum_le_card_nsmul levels (forest.slotsAt key) 5
    fun level _ => short.slotsAt_le key level
  rwa [smul_eq_mul] at bound

variable [Curve G] {pp : AMTParams G G₂ depths} {shardNode : Option (NodeIndex depths)}
  {forest next : Forest G depths} {key : Key} {verInfo : VerInfo}

/-- Only a key that is new takes a slot: one, in the leaf of the version that it is given. -/
theorem slotsAt_incKeyVer {version : Option VerInfo}
    (done : incKeyVer pp shardNode forest key version = some (verInfo, next)) :
    ∃ slot, key.slot depths verInfo = some slot ∧ ∀ other level,
      next.slotsAt other level = forest.slotsAt other level +
        if version = none ∧ other.leafAt depths level = some (slot.name, slot.index) then 1
        else 0 := by
  cases version with
  | some given =>
    obtain ⟨slot, inShard, isSlot, -, -, rfl, incremented, kept⟩ := incKeyVer_known done
    refine ⟨slot, isSlot, fun other level => ?_⟩
    rw [if_neg (by simp), Nat.add_zero, slotsAt, slotsAt]
    cases other.leafAt depths level with
    | none => rfl
    | some leaf =>
      dsimp only
      by_cases same : leaf = (slot.name, slot.index)
      · rw [same]
        exact incremented.length_eq
      · rw [kept leaf.1 leaf.2 same]
  | none =>
    obtain ⟨slot, inShard, isSlot, -, -, -, -, incremented, kept⟩ := incKeyVer_new done
    refine ⟨slot, isSlot, fun other level => ?_⟩
    rw [slotsAt, slotsAt]
    cases other.leafAt depths level with
    | none => simp
    | some leaf =>
      dsimp only
      by_cases same : leaf = (slot.name, slot.index)
      · rw [same, if_pos ⟨rfl, rfl⟩, incremented.length_eq, List.length_append,
          List.length_singleton]
      · rw [kept leaf.1 leaf.2 same, if_neg fun both => same (Option.some.inj both.2),
          Nat.add_zero]

/-- The leaf is at one level only, so the slots on any levels grow by one at most. -/
theorem slotsOn_incKeyVer {version : Option VerInfo}
    (done : incKeyVer pp shardNode forest key version = some (verInfo, next)) :
    ∃ slot, key.slot depths verInfo = some slot ∧ ∀ levels other,
      next.slotsOn levels other = forest.slotsOn levels other +
        if verInfo.level.toNat ∈ levels ∧ version = none ∧
          other.leafAt depths verInfo.level.toNat = some (slot.name, slot.index) then 1
        else 0 := by
  obtain ⟨slot, isSlot, slots⟩ := slotsAt_incKeyVer done
  refine ⟨slot, isSlot, fun levels other => ?_⟩
  have oneLevel : ∀ level, (version = none ∧
        other.leafAt depths level = some (slot.name, slot.index)) ↔
      level = verInfo.level.toNat ∧ version = none ∧
        other.leafAt depths verInfo.level.toNat = some (slot.name, slot.index) := by
    intro level
    constructor
    · rintro ⟨isNew, found⟩
      obtain rfl : level = verInfo.level.toNat :=
        (Key.length_of_leafAt found).symm.trans (Key.length_of_leafAt (Key.leafAt_of_slot isSlot))
      exact ⟨rfl, isNew, found⟩
    · rintro ⟨rfl, both⟩
      exact both
  rw [slotsOn, Finset.sum_congr rfl fun level _ =>
    (slots other level).trans (congrArg _ (if_congr (oneLevel level) rfl rfl)),
    Finset.sum_add_distrib]
  simp only [ite_and, Finset.sum_ite_eq', slotsOn]

/-! ### Increments that succeed -/

omit [Curve G] in
/-- No version in a slot exceeds the bound. -/
def CountersLe (forest : Forest G depths) (bound : Nat) : Prop :=
  ∀ name index, ∀ version ∈ forest.keyVersions name index, version.toNat ≤ bound

omit [Curve G] in
theorem CountersLe.mono {bound bound' : Nat} (counters : forest.CountersLe bound)
    (le : bound ≤ bound') : forest.CountersLe bound' :=
  fun name index version member => le_trans (counters name index version member) le

omit [Curve G] in
theorem CountersLe.congr {bound : Nat} (counters : forest.CountersLe bound)
    (same : next.keyVersions = forest.keyVersions) : next.CountersLe bound := by
  intro name index
  rw [same]
  exact counters name index

omit [Curve G] in
/-- The slot that is added holds zero. -/
theorem CountersLe.concat_zero {bound : Nat} (counters : forest.CountersLe bound) (name : TreeName)
    (index : Fin (2 ^ depths)) :
    ∀ version ∈ forest.keyVersions name index ++ [0], version.toNat ≤ bound := by
  intro version member
  rcases List.mem_append.mp member with earlier | added
  · exact counters name index version earlier
  · rw [List.mem_singleton.mp added]
    exact Nat.zero_le _

omit [Curve G] in
theorem Incremented.counters_le {inShard : Bool} {number bound : Nat} {old new : List UInt64}
    (incremented : Incremented inShard number old new)
    (counters : ∀ version ∈ old, version.toNat ≤ bound) :
    ∀ version ∈ new, version.toNat ≤ bound + 1 := by
  cases inShard with
  | true =>
    obtain ⟨version, next, found, added, rfl⟩ := incremented
    intro other member
    rcases List.mem_or_eq_of_mem_set member with earlier | rfl
    · exact le_trans (counters other earlier) (Nat.le_succ _)
    · rw [toNat_checkedAdd added]
      exact Nat.succ_le_succ (counters version (List.mem_of_getElem? found))
  | false =>
    intro version member
    rw [show new = old from incremented] at member
    exact le_trans (counters version member) (Nat.le_succ _)

/-- One increment raises one of them by one at most. -/
theorem CountersLe.incKeyVer {bound : Nat} {version : Option VerInfo}
    (counters : forest.CountersLe bound)
    (done : Forest.incKeyVer pp shardNode forest key version = some (verInfo, next)) :
    next.CountersLe (bound + 1) := by
  let within := fun (_ : TreeName) (_ : Fin (2 ^ depths)) (versions : List UInt64) =>
    ∀ version ∈ versions, version.toNat ≤ bound + 1
  have mono := counters.mono (Nat.le_succ bound)
  cases version with
  | some given =>
    obtain ⟨slot, inShard, -, -, -, -, incremented, kept⟩ := incKeyVer_known done
    exact kept.all within (incremented.counters_le (counters _ _)) mono
  | none =>
    obtain ⟨slot, inShard, -, -, -, -, -, incremented, kept⟩ := incKeyVer_new done
    exact kept.all within (incremented.counters_le (counters.concat_zero _ _)) mono

/-- A leaf of at most five slots can be replaced by another one. -/
theorem replace_total (pp : AMTParams G G₂ depths) (shardRoot : Option (NodeIndex depths))
    {view : AMTView Node G depths} {index : Fin (2 ^ depths)} {value : Node}
    (oldShort : (view.data index).keyVersions.len ≤ 5) (short : value.keyVersions.len ≤ 5) :
    ∃ after, view.replace pp shardRoot index value = some after := by
  obtain ⟨oldFrInt, old⟩ := Node.asFrInt_isSome.mpr oldShort
  obtain ⟨newFrInt, new⟩ := Node.asFrInt_isSome.mpr short
  have oldPacked : AMTData.asFrInt (view.data index) = some oldFrInt := old
  have newPacked : AMTData.asFrInt value = some newFrInt := new
  rw [AMTView.replace, oldPacked, newPacked]
  exact ⟨_, rfl⟩

theorem bumpKeyVersion_total {node : Node} {slotIndex : Nat}
    (inside : slotIndex < node.keyVersions.toList.length)
    (small : ∀ version ∈ node.keyVersions.toList, version.toNat + 1 < 2 ^ 64) :
    ∃ value, VersionTree.bumpKeyVersion node slotIndex = some value ∧
      value.keyVersions.len = node.keyVersions.len := by
  have added : checkedAdd node.keyVersions.toList[slotIndex] 1 = some _ :=
    if_pos (small _ (List.getElem_mem inside))
  obtain ⟨value, bumped⟩ : ∃ value, VersionTree.bumpKeyVersion node slotIndex = some value := by
    rw [VersionTree.bumpKeyVersion, List.getElem?_eq_getElem inside]
    show ∃ value, (checkedAdd node.keyVersions.toList[slotIndex] 1).bind _ = some value
    rw [added]
    exact ⟨_, rfl⟩
  obtain ⟨version, next, -, -, keyVersions, -, -⟩ := bumpKeyVersion_eq_some bumped
  refine ⟨value, bumped, ?_⟩
  rw [Vec.len, keyVersions, List.length_set]
  rfl

theorem writeSlot_total (pp : AMTParams G G₂ depths) (shardRoot : Option (NodeIndex depths))
    {view : AMTView Node G depths} (inShard : Bool) {index : Fin (2 ^ depths)} {slotIndex : Nat}
    (short : (view.data index).keyVersions.len ≤ 5)
    (inside : slotIndex < (view.data index).keyVersions.toList.length)
    (small : ∀ version ∈ (view.data index).keyVersions.toList, version.toNat + 1 < 2 ^ 64) :
    ∃ after, writeSlot pp shardRoot view inShard index slotIndex = some after := by
  cases inShard with
  | false => exact ⟨_, rfl⟩
  | true =>
    obtain ⟨value, bumped, sameLength⟩ := bumpKeyVersion_total inside small
    rw [writeSlot, if_pos rfl, bumped]
    exact replace_total pp shardRoot short (sameLength.le.trans short)

/-- A version below the maximum is incremented where its slot exists. -/
theorem bump_total (pp : AMTParams G G₂ depths) (shardNode : Option (NodeIndex depths))
    (short : forest.Short) {bound : Nat} (counters : forest.CountersLe bound)
    (small : bound + 1 < 2 ^ 64) {slot : Slot depths} (isSlot : key.slot depths verInfo = some slot)
    (inside : slot.number < (forest.keyVersions slot.name slot.index).length)
    (below : verInfo.version < maxVersionNumber) :
    ∃ result, bump pp shardNode forest key verInfo = some result := by
  obtain ⟨named, indexed, numbered⟩ := Key.slot_eq_some.mp isSlot
  obtain ⟨inShard, shard⟩ := inProofShard_defined shardNode pp.depths_le named indexed
  rw [numbered] at inside
  obtain ⟨view, written⟩ := writeSlot_total pp (shardRoot shardNode slot.name) inShard
    (short slot.name slot.index) inside fun version member =>
      lt_of_le_of_lt (Nat.succ_le_succ (counters _ _ version member)) small
  rw [bump, named, indexed]
  simp only [Option.bind_eq_bind, Option.bind_some, checkIndex_val, shard, written, if_pos below]
  exact ⟨_, rfl⟩

/-- A level at which the key has a leaf is tried, and a slot is found if the leaf is not full. -/
theorem allocateAt_total (pp : AMTParams G G₂ depths) (shardNode : Option (NodeIndex depths))
    (short : forest.Short) {level : Nat} {leaf : TreeName × Fin (2 ^ depths)}
    (isLeaf : key.leafAt depths level = some leaf) :
    ∃ found after, allocateAt pp shardNode forest key level = some (found, after) ∧
      (forest.slotsAt key level < 5 → ∃ verInfo, found = some verInfo) := by
  obtain ⟨name, index⟩ := leaf
  obtain ⟨named, indexed⟩ := Key.leafAt_eq_some.mp isLeaf
  rw [slotsAt_of_leafAt isLeaf, allocateAt, named, indexed]
  simp only [Option.bind_eq_bind, Option.bind_some, checkIndex_val]
  by_cases vacant : ((forest name).data index).keyVersions.len < 5
  · obtain ⟨keyVersions, pushed, longer⟩ := Vec.push_of_lt _ 0 (lt_trans vacant (by norm_num))
    have stillShort : keyVersions.len ≤ 5 := by
      rw [Vec.len, longer, List.length_append]
      exact vacant
    obtain ⟨view, replaced⟩ : ∃ view, (forest name).replace pp (shardRoot shardNode name) index
        { (forest name).data index with keyVersions } = some view :=
      replace_total pp _ (short name index) stillShort
    rw [if_pos vacant, pushed, Option.bind_some, replaced]
    exact ⟨_, _, rfl, fun _ => ⟨_, rfl⟩⟩
  · rw [if_neg vacant]
    exact ⟨_, _, rfl, fun lt => absurd lt vacant⟩

/-- The search stops at a leaf that is not full, or earlier. -/
theorem allocateFrom_total (pp : AMTParams G G₂ depths) (shardNode : Option (NodeIndex depths))
    (short : forest.Short) {free : Nat} {before : List Nat} (later : List Nat)
    (reachable : ∀ level ∈ before, ∃ leaf, key.leafAt depths level = some leaf)
    (freeReachable : ∃ leaf, key.leafAt depths free = some leaf)
    (vacant : forest.slotsAt key free < 5) :
    ∃ result, allocateFrom pp shardNode key (before ++ free :: later) forest = some result := by
  induction before with
  | nil =>
    obtain ⟨leaf, isLeaf⟩ := freeReachable
    obtain ⟨found, after, tried, found_eq⟩ := allocateAt_total pp shardNode short isLeaf
    obtain ⟨verInfo, rfl⟩ := found_eq vacant
    rw [List.nil_append, allocateFrom, tried]
    exact ⟨_, rfl⟩
  | cons level rest inductionHypothesis =>
    obtain ⟨leaf, isLeaf⟩ := reachable level List.mem_cons_self
    obtain ⟨found, after, tried, -⟩ := allocateAt_total pp shardNode short isLeaf
    rw [List.cons_append, allocateFrom, tried]
    cases found with
    | some verInfo => exact ⟨_, rfl⟩
    | none =>
      obtain ⟨rfl, -⟩ := allocateAt_full tried
      exact inductionHypothesis fun level member => reachable level (List.mem_cons_of_mem _ member)

/-- What a slot that was allocated leaves of the bounds. -/
theorem bounds_of_allocateFrom (short : forest.Short) {bound : Nat}
    (counters : forest.CountersLe bound)
    (done : allocateFrom pp shardNode key (List.range 32) forest = some (verInfo, next)) :
    next.Short ∧ next.CountersLe bound := by
  obtain ⟨slot, -, -, numbered, small, pushed, kept⟩ := allocateFrom_slot done
  refine ⟨kept.all (fun _ _ versions => versions.length ≤ 5) ?_ short,
    kept.all (fun _ _ versions => ∀ version ∈ versions, version.toNat ≤ bound) ?_ counters⟩
  · rw [pushed, List.length_append, ← numbered]
    exact small
  · rw [pushed]
    exact counters.concat_zero _ _

/-! ### Whole keys -/

/-- The levels at which the leaves of a whole key are its own. -/
def ownLevels : Finset Nat := {15, 16}

/-- The levels at which a whole key has leaves. -/
def allLevels : Finset Nat := Finset.range 17

omit [Curve G] in
theorem exists_vacant {forest : Forest G 16} (room : forest.slotsOn ownLevels key < 10) :
    ∃ free ≤ 16, forest.slotsAt key free < 5 := by
  rw [slotsOn, ownLevels, Finset.sum_pair (by norm_num)] at room
  by_cases vacant : forest.slotsAt key 15 < 5
  · exact ⟨15, by norm_num, vacant⟩
  · exact ⟨16, le_rfl, by omega⟩

/-- A key that is known is written to its slot, and one that is new finds a slot as long as it has
not taken ten of them in its own leaves. -/
theorem incKeyVer_total (pp : AMTParams G G₂ 16) (shardNode : Option (NodeIndex 16))
    {forest : Forest G 16} {version : Option VerInfo} (whole : key.Whole) (short : forest.Short)
    {bound : Nat} (counters : forest.CountersLe bound) (small : bound + 1 < 2 ^ 64)
    (known : ∀ given, version = some given → given.version < maxVersionNumber ∧
      ∃ slot, key.slot 16 given = some slot ∧
        slot.number < (forest.keyVersions slot.name slot.index).length)
    (room : version = none → forest.slotsOn ownLevels key < 10) :
    ∃ result, incKeyVer pp shardNode forest key version = some result := by
  cases version with
  | some given =>
    obtain ⟨below, slot, isSlot, inside⟩ := known given rfl
    exact bump_total pp shardNode short counters small isSlot inside below
  | none =>
    obtain ⟨free, reachable, vacant⟩ := exists_vacant (room rfl)
    have levels : List.range 32 = List.range free ++
        free :: (List.range (31 - free)).map (free + 1 + ·) := by
      rw [show 32 = free + 1 + (31 - free) by omega, List.range_add, List.range_succ,
        List.append_assoc, List.singleton_append]
    obtain ⟨⟨start, middle⟩, started⟩ := allocateFrom_total pp shardNode short
      ((List.range (31 - free)).map (free + 1 + ·))
      (fun level member => whole.leafAt ((List.mem_range.mp member).le.trans reachable))
      (whole.leafAt reachable) vacant
    rw [← levels] at started
    obtain ⟨slot, isSlot, zero, numbered, -, pushed, -⟩ := allocateFrom_slot started
    obtain ⟨middleShort, middleCounters⟩ := bounds_of_allocateFrom short counters started
    obtain ⟨result, bumped⟩ := bump_total pp shardNode middleShort middleCounters small isSlot
      (by rw [pushed, List.length_append, ← numbered]; exact Nat.lt_succ_self _)
      (by rw [zero]; decide)
    refine ⟨result, ?_⟩
    rw [incKeyVer]
    show (allocateFrom pp shardNode key (List.range 32) forest).bind _ = _
    rw [started]
    exact bumped

/-- The own leaves of a key are filled by the key alone. -/
theorem slotsOn_ownLevels_incKeyVer {pp : AMTParams G G₂ 16} {shardNode : Option (NodeIndex 16)}
    {forest next : Forest G 16} {version : Option VerInfo} {other : Key} (whole : key.Whole)
    (otherWhole : other.Whole)
    (done : incKeyVer pp shardNode forest key version = some (verInfo, next)) :
    next.slotsOn ownLevels other ≤ forest.slotsOn ownLevels other + if key = other then 1 else 0 := by
  obtain ⟨slot, isSlot, slots⟩ := slotsOn_incKeyVer done
  rw [slots]
  by_cases taken : verInfo.level.toNat ∈ ownLevels ∧ version = none ∧
      other.leafAt 16 verInfo.level.toNat = some (slot.name, slot.index)
  · obtain ⟨own, -, found⟩ := id taken
    have deep : 15 ≤ verInfo.level.toNat := by
      rcases Finset.mem_insert.mp own with same | same
      · exact same.ge
      · rw [Finset.mem_singleton.mp same]
        norm_num
    rw [if_pos taken, if_pos (whole.eq_of_leafAt otherWhole deep (Key.leafAt_of_slot isSlot) found)]
  · rw [if_neg taken]
    exact Nat.le_add_right _ _

/-- A new key takes one slot of its leaves. -/
theorem slotsOn_allLevels_incKeyVer {pp : AMTParams G G₂ 16} {shardNode : Option (NodeIndex 16)}
    {forest next : Forest G 16} (whole : key.Whole)
    (done : incKeyVer pp shardNode forest key none = some (verInfo, next)) :
    next.slotsOn allLevels key = forest.slotsOn allLevels key + 1 := by
  obtain ⟨slot, isSlot, slots⟩ := slotsOn_incKeyVer done
  have found := Key.leafAt_of_slot isSlot
  have level_le := whole.level_le found
  rw [slots, if_pos ⟨Finset.mem_range.mpr (Nat.lt_succ_of_le level_le), rfl, found⟩]

end Forest

end AuthStorage.Lvmt
