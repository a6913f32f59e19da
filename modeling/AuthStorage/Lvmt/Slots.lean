/-
This file is about the slots of the leaves. A slot is a tree, a leaf and a
position among the leaf's key versions. Incrementing the version of a key writes
to one slot, which is the last one of its leaf if the key is new; all other slots
stay as they are.
-/

import AuthStorage.Lvmt.Ledger

namespace AuthStorage.Lvmt

/-- A slot, whether it exists or not. -/
structure Slot (depths : Nat) where
  name : TreeName
  index : Fin (2 ^ depths)
  number : Nat
deriving DecidableEq

/-- The slot a version of a key stands for. -/
def Key.slot (depths : Nat) (key : Key) (verInfo : VerInfo) : Option (Slot depths) := do
  let name ← key.treeAtLevel depths verInfo.level.toNat
  let index ← key.indexAtLevel depths verInfo.level.toNat
  let index ← checkIndex depths index
  some ⟨name, index, verInfo.slotIndex.toNat⟩

theorem Key.slot_eq_some {depths : Nat} {key : Key} {verInfo : VerInfo} {slot : Slot depths} :
    key.slot depths verInfo = some slot ↔
      key.treeAtLevel depths verInfo.level.toNat = some slot.name ∧
        key.indexAtLevel depths verInfo.level.toNat = some slot.index.val ∧
        slot.number = verInfo.slotIndex.toNat := by
  unfold Key.slot
  constructor
  · intro done
    obtain ⟨name, named, done⟩ := Option.bind_eq_some_iff.mp done
    obtain ⟨index, indexed, done⟩ := Option.bind_eq_some_iff.mp done
    obtain ⟨inside, checked, done⟩ := Option.bind_eq_some_iff.mp done
    obtain rfl := Option.some.inj done
    rw [checkIndex_eq_some checked] at indexed
    exact ⟨named, indexed, rfl⟩
  · rintro ⟨named, indexed, numbered⟩
    rw [named, indexed]
    simp only [Option.bind_eq_bind, Option.bind_some, checkIndex_val, ← numbered]

namespace Forest

variable {G G₂ : Type} {depths : Nat}

/-- The key versions of a leaf. -/
def keyVersions (forest : Forest G depths) (name : TreeName) (index : Fin (2 ^ depths)) :
    List UInt64 := ((forest name).data index).keyVersions.toList

/-- The version in a slot that exists. -/
def slotVersion (forest : Forest G depths) (slot : Slot depths) : Option UInt64 :=
  (forest.keyVersions slot.name slot.index)[slot.number]?

/-- The new version of a slot; where no proof is maintained the old one stays. -/
def Incremented (inShard : Bool) (number : Nat) (old new : List UInt64) : Prop :=
  if inShard then
    ∃ version next, old[number]? = some version ∧ checkedAdd version 1 = some next ∧
      new = old.set number next
  else
    new = old

theorem Incremented.length_eq {inShard : Bool} {number : Nat} {old new : List UInt64}
    (incremented : Incremented inShard number old new) : new.length = old.length := by
  cases inShard with
  | true =>
    obtain ⟨version, next, -, -, rfl⟩ := incremented
    exact List.length_set
  | false => exact congrArg List.length incremented

/-- The key versions of every leaf but one are kept. -/
def KeptElsewhere (forest next : Forest G depths) (name : TreeName) (index : Fin (2 ^ depths)) :
    Prop :=
  ∀ other inside, (other, inside) ≠ (name, index) →
    next.keyVersions other inside = forest.keyVersions other inside

theorem keptElsewhere_update {forest : Forest G depths} {name : TreeName} {view : AMTView Node G depths}
    {index : Fin (2 ^ depths)}
    (kept : ∀ other, other ≠ index →
      (view.data other).keyVersions = ((forest name).data other).keyVersions) :
    KeptElsewhere forest (Function.update forest name view) name index := by
  intro other inside different
  unfold keyVersions
  by_cases same : other = name
  · subst same
    rw [Function.update_self, kept inside fun sameIndex => different (by rw [sameIndex])]
  · rw [Function.update_of_ne same]

/-- What holds of all leaves before, and of the one that was written after, holds of all after. -/
theorem KeptElsewhere.all {forest next : Forest G depths} {name : TreeName}
    {index : Fin (2 ^ depths)} (kept : KeptElsewhere forest next name index)
    (property : TreeName → Fin (2 ^ depths) → List UInt64 → Prop)
    (here : property name index (next.keyVersions name index))
    (before : ∀ other inside, property other inside (forest.keyVersions other inside)) :
    ∀ other inside, property other inside (next.keyVersions other inside) := by
  intro other inside
  by_cases same : (other, inside) = (name, index)
  · obtain ⟨rfl, rfl⟩ := Prod.mk.inj same
    exact here
  · rw [kept other inside same]
    exact before other inside

variable [Curve G] {pp : AMTParams G G₂ depths} {shardNode : Option (NodeIndex depths)}
  {forest next : Forest G depths} {key : Key} {verInfo : VerInfo}

theorem writeSlot_keyVersions {shardRoot : Option (NodeIndex depths)}
    {view after : AMTView Node G depths} {inShard : Bool} {index : Fin (2 ^ depths)}
    {slotIndex : Nat} (done : writeSlot pp shardRoot view inShard index slotIndex = some after) :
    Incremented inShard slotIndex (view.data index).keyVersions.toList
        (after.data index).keyVersions.toList ∧
      ∀ other, other ≠ index → after.data other = view.data other := by
  rw [writeSlot] at done
  cases inShard with
  | false =>
    rw [if_neg (by decide)] at done
    obtain rfl := Option.some.inj done
    rw [AMTView.update_data]
    exact ⟨rfl, fun _ _ => rfl⟩
  | true =>
    rw [if_pos rfl] at done
    obtain ⟨value, bumped, done⟩ := Option.bind_eq_some_iff.mp done
    obtain ⟨version, next, found, added, keyVersions, -, -⟩ := bumpKeyVersion_eq_some bumped
    obtain ⟨-, -, -, -, data, -, -, -⟩ := AMTView.replace_eq_some done
    refine ⟨⟨version, next, found, added, ?_⟩, fun other different => ?_⟩
    · rw [data, Function.update_self, keyVersions]
    · rw [data, Function.update_of_ne different]

/-- Incrementing a version that is known writes to its slot. -/
theorem incKeyVer_known {given : VerInfo}
    (done : incKeyVer pp shardNode forest key (some given) = some (verInfo, next)) :
    ∃ slot inShard, key.slot depths given = some slot ∧
      VersionTree.inProofShard shardNode key = some inShard ∧
      given.version < maxVersionNumber ∧
      verInfo = { given with version := given.version + 1 } ∧
      Incremented inShard slot.number (forest.keyVersions slot.name slot.index)
        (next.keyVersions slot.name slot.index) ∧
      KeptElsewhere forest next slot.name slot.index := by
  obtain ⟨name, inside, inShard, view, named, indexed, shard, written, below, rfl, rfl⟩ :=
    bump_eq_some done
  obtain ⟨incremented, others⟩ := writeSlot_keyVersions written
  refine ⟨⟨name, inside, given.slotIndex.toNat⟩, inShard,
    Key.slot_eq_some.mpr ⟨named, indexed, rfl⟩, shard, below, rfl, ?_,
    keptElsewhere_update fun other different => by rw [others other different]⟩
  unfold keyVersions
  rw [Function.update_self]
  exact incremented

/-- A slot is allocated at the end of the first leaf that is not full. -/
theorem allocateFrom_slot
    (done : allocateFrom pp shardNode key (List.range 32) forest = some (verInfo, next)) :
    ∃ slot, key.slot depths verInfo = some slot ∧ verInfo.version = 0 ∧
      slot.number = (forest.keyVersions slot.name slot.index).length ∧ slot.number < 5 ∧
      next.keyVersions slot.name slot.index = forest.keyVersions slot.name slot.index ++ [0] ∧
      KeptElsewhere forest next slot.name slot.index := by
  obtain ⟨level, member, allocated⟩ := allocateFrom_eq_some done
  obtain ⟨name, inside, pushed, view, named, indexed, vacant, isPushed, replaced, rfl, rfl⟩ :=
    allocateAt_eq_some allocated
  obtain ⟨-, -, -, -, data, -, -, -⟩ := AMTView.replace_eq_some replaced
  have sameLevel : (UInt8.ofNat level).toNat = level := by
    rw [UInt8.toNat_ofNat', Nat.mod_eq_of_lt (lt_trans (List.mem_range.mp member) (by norm_num))]
  have sameNumber : (UInt8.ofNat ((forest name).data inside).keyVersions.len).toNat =
      (forest.keyVersions name inside).length := by
    rw [UInt8.toNat_ofNat', Nat.mod_eq_of_lt (lt_trans vacant (by norm_num))]
    rfl
  refine ⟨⟨name, inside, (forest.keyVersions name inside).length⟩,
    Key.slot_eq_some.mpr ⟨?_, ?_, sameNumber.symm⟩, rfl, rfl, vacant, ?_,
    keptElsewhere_update fun other different => by rw [data, Function.update_of_ne different]⟩
  · rw [sameLevel, named]
  · rw [sameLevel, indexed]
  · unfold keyVersions
    rw [Function.update_self, data, Function.update_self]
    exact Vec.push_eq_some isPushed

/-- A key that is new gets such a slot. -/
theorem incKeyVer_new
    (done : incKeyVer pp shardNode forest key none = some (verInfo, next)) :
    ∃ slot inShard, key.slot depths verInfo = some slot ∧
      VersionTree.inProofShard shardNode key = some inShard ∧
      verInfo.version = 1 ∧
      slot.number = (forest.keyVersions slot.name slot.index).length ∧ slot.number < 5 ∧
      Incremented inShard slot.number (forest.keyVersions slot.name slot.index ++ [0])
        (next.keyVersions slot.name slot.index) ∧
      KeptElsewhere forest next slot.name slot.index := by
  obtain ⟨⟨start, middle⟩, started, done⟩ := Option.bind_eq_some_iff.mp done
  obtain ⟨slot, isSlot, zero, numbered, small, pushed, keptHere⟩ := allocateFrom_slot started
  obtain ⟨slot', inShard, isSlot', shard, -, rfl, incremented, kept⟩ := incKeyVer_known done
  obtain rfl : slot = slot' := Option.some.inj (isSlot.symm.trans isSlot')
  rw [pushed] at incremented
  refine ⟨slot, inShard, isSlot, shard, ?_, numbered, small, incremented, ?_⟩
  · rw [zero]
    rfl
  · intro other index different
    rw [kept other index different, keptHere other index different]

/-- No slot is ever lost. -/
theorem incKeyVer_length_le {version : Option VerInfo}
    (done : incKeyVer pp shardNode forest key version = some (verInfo, next))
    (name : TreeName) (index : Fin (2 ^ depths)) :
    (forest.keyVersions name index).length ≤ (next.keyVersions name index).length := by
  let longer := fun name index (new : List UInt64) =>
    (forest.keyVersions name index).length ≤ new.length
  have refl : ∀ name index, longer name index (forest.keyVersions name index) := fun _ _ => le_rfl
  cases version with
  | some given =>
    obtain ⟨slot, inShard, -, -, -, -, incremented, kept⟩ := incKeyVer_known done
    exact kept.all longer incremented.length_eq.ge refl name index
  | none =>
    obtain ⟨slot, inShard, -, -, -, -, -, incremented, kept⟩ := incKeyVer_new done
    refine kept.all longer ?_ refl name index
    show _ ≤ (next.keyVersions slot.name slot.index).length
    rw [incremented.length_eq, List.length_append]
    exact Nat.le_add_right _ _

/-! ### Slots that exist -/

omit [Curve G] in
/-- The slot that a version of the key stands for exists. -/
def HasSlot (forest : Forest G depths) (key : Key) (verInfo : VerInfo) : Prop :=
  ∀ slot, key.slot depths verInfo = some slot →
    slot.number < (forest.keyVersions slot.name slot.index).length

/-- A slot that exists is kept. -/
theorem HasSlot.incKeyVer {other : Key} {otherInfo : VerInfo} {version : Option VerInfo}
    (hasSlot : forest.HasSlot other otherInfo)
    (done : Forest.incKeyVer pp shardNode forest key version = some (verInfo, next)) :
    next.HasSlot other otherInfo := fun slot isSlot =>
  lt_of_lt_of_le (hasSlot slot isSlot) (incKeyVer_length_le done slot.name slot.index)

/-- The version a key has afterwards stands for a slot that exists. -/
theorem incKeyVer_hasSlot {version : Option VerInfo}
    (known : ∀ given, version = some given → forest.HasSlot key given)
    (done : incKeyVer pp shardNode forest key version = some (verInfo, next)) :
    next.HasSlot key verInfo := by
  intro slot isSlot
  cases version with
  | some given =>
    obtain ⟨slot', inShard, isSlot', -, -, rfl, incremented, -⟩ := incKeyVer_known done
    obtain rfl : slot' = slot := Option.some.inj (isSlot'.symm.trans isSlot)
    rw [incremented.length_eq]
    exact known given rfl slot' isSlot'
  | none =>
    obtain ⟨slot', inShard, isSlot', -, -, numbered, -, incremented, -⟩ := incKeyVer_new done
    obtain rfl : slot' = slot := Option.some.inj (isSlot'.symm.trans isSlot)
    rw [incremented.length_eq, List.length_append, ← numbered]
    exact Nat.lt_succ_self _

/-- A commit neither adds nor removes slots, and keeps what is in them. -/
theorem commit_keyVersions {epoch startPos : UInt64} {commitment : G}
    {updates : List (VersionTree.SubTreeUpdate G)}
    (done : commit pp shardNode forest epoch startPos = some ((commitment, updates), next)) :
    next.keyVersions = forest.keyVersions := by
  rw [commit] at done
  obtain ⟨⟨after, updates'⟩, committed, done⟩ := Option.bind_eq_some_iff.mp done
  obtain ⟨-, rfl⟩ := Prod.mk.inj (Option.some.inj done)
  refine Option.foldlM_invariant (fun state => state.1.keyVersions = forest.keyVersions) _
    (fun state name _ state' kept stepped => ?_) rfl committed
  rw [← kept]
  funext other inside
  exact congrArg Vec.toList (keyVersions_commitOne stepped)

end Forest

/-! ### Stored versions -/

namespace Ledger

variable {G G₂ H : Type} {depths : Nat}

/-- Every stored version stands for a slot that exists. -/
def SlotsExist (ledger : Ledger G depths) : Prop :=
  ∀ key value, LvmtDB.loadValue ledger.dbKey key = some (some value) →
    ledger.forest.HasSlot key value.version

theorem SlotsExist.oldVersion {ledger : Ledger G depths} (slotsExist : ledger.SlotsExist)
    {key : Key} {verInfo : VerInfo} (known : ledger.oldVersion key = some (some verInfo)) :
    ledger.forest.HasSlot key verInfo := by
  obtain ⟨value, loaded, same⟩ := Option.map_eq_some_iff.mp known
  obtain ⟨value, rfl, rfl⟩ := Option.map_eq_some_iff.mp same
  exact slotsExist key value loaded

theorem flushRoot_keyVersions (ledger : Ledger G depths) :
    ledger.flushRoot.forest.keyVersions = ledger.forest.keyVersions := by
  funext name index
  unfold flushRoot Forest.keyVersions
  dsimp only
  by_cases isRoot : name = .root
  · subst isRoot
    rw [Function.update_self, AMTView.clean_data]
  · rw [Function.update_of_ne isRoot]

theorem SlotsExist.flushRoot {ledger : Ledger G depths} (slotsExist : ledger.SlotsExist) :
    ledger.flushRoot.SlotsExist := by
  intro key value loaded slot isSlot
  rw [flushRoot_keyVersions]
  exact slotsExist key value loaded slot isSlot

variable [Curve G] [H256 H]

theorem slotsExist_empty : (empty : Ledger G depths).SlotsExist := by
  intro key value loaded
  cases loaded

theorem SlotsExist.commit {config : LvmtConfig G G₂ depths} {ledger next : Ledger G depths}
    {roots : G × H} (slotsExist : ledger.SlotsExist)
    (done : ledger.commit config = some (roots, next)) : next.SlotsExist := by
  obtain ⟨epoch, forest, writeOps, updates, after, dbMerkle, hashes, -, batch, committed, -, rfl⟩ :=
    commit_eq_some done
  obtain ⟨stored, -, -, sameOps, kept, new⟩ := LvmtDB.commitKey_invariant
    (fun (stored : List (Key × Value)) (forest : Forest G depths) =>
      (∀ key value, LvmtDB.loadValue ledger.dbKey key = some (some value) →
        forest.HasSlot key value.version) ∧
      ∀ pair ∈ stored, forest.HasSlot pair.1 pair.2.version)
    (fun stored forest key value version verInfo next holds _ known incremented => by
      refine ⟨fun other value loaded => (holds.1 other value loaded).incKeyVer incremented,
        fun pair member => ?_⟩
      rcases List.mem_append.mp member with earlier | added
      · exact (holds.2 pair earlier).incKeyVer incremented
      · rw [List.mem_singleton.mp added]
        refine Forest.incKeyVer_hasSlot (fun given isGiven => ?_) incremented
        subst isGiven
        obtain ⟨old, loaded, same⟩ := Option.map_eq_some_iff.mp known
        obtain ⟨old, rfl, rfl⟩ := Option.map_eq_some_iff.mp same
        exact holds.1 key old loaded)
    ⟨slotsExist, fun pair member => absurd member List.not_mem_nil⟩ batch
  dsimp only at sameOps
  intro key value loaded slot isSlot
  dsimp only at loaded ⊢
  rw [Forest.commit_keyVersions committed]
  rw [sameOps] at loaded
  rcases LvmtDB.loadValue_writeBuffered ledger.dbKey stored key with
    ⟨value', member, loaded'⟩ | ⟨-, loaded'⟩
  · rw [loaded'] at loaded
    obtain rfl := Option.some.inj (Option.some.inj loaded)
    exact new _ member slot isSlot
  · rw [loaded'] at loaded
    exact kept key value loaded slot isSlot

end Ledger

end AuthStorage.Lvmt
