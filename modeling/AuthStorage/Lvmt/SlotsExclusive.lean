/-
This file is about which slots the stored keys have, for any shard and for keys
that are set any number of times. A slot is handed out once, at the end of a leaf
that is not full, and a key that has a slot keeps it. So stored keys never share
a slot, and no leaf ever has more than five.
-/

import AuthStorage.Lvmt.LvmtReopen
import AuthStorage.Lvmt.Slots
import AuthStorage.Lvmt.VersionTreeRuns

namespace AuthStorage.Lvmt

/-! ### Slots of a forest -/

namespace Forest

variable {G G₂ : Type} {depths : Nat}

/-- No leaf has more than five slots. -/
def Short (forest : Forest G depths) : Prop :=
  ∀ name index, (forest.keyVersions name index).length ≤ 5

/-- Every version that is owned stands for a slot that exists, and different keys own different
slots. -/
structure Exclusive (forest : Forest G depths) (owns : Key → VerInfo → Prop) : Prop where
  slot : ∀ key verInfo, owns key verInfo → ∃ slot, key.slot depths verInfo = some slot ∧
    slot.number < (forest.keyVersions slot.name slot.index).length
  apart : ∀ key key' verInfo verInfo' slot, owns key verInfo → owns key' verInfo' →
    key.slot depths verInfo = some slot → key'.slot depths verInfo' = some slot → key = key'

theorem Exclusive.mono {forest : Forest G depths} {owns owns' : Key → VerInfo → Prop}
    (exclusive : forest.Exclusive owns) (fewer : ∀ key verInfo, owns' key verInfo → owns key verInfo) :
    forest.Exclusive owns' where
  slot key verInfo owned := exclusive.slot key verInfo (fewer key verInfo owned)
  apart key key' verInfo verInfo' slot owned owned' :=
    exclusive.apart key key' verInfo verInfo' slot (fewer _ _ owned) (fewer _ _ owned')

theorem Exclusive.congr {forest next : Forest G depths} {owns : Key → VerInfo → Prop}
    (exclusive : forest.Exclusive owns) (same : next.keyVersions = forest.keyVersions) :
    next.Exclusive owns where
  slot := by
    rw [same]
    exact exclusive.slot
  apart := exclusive.apart

variable [Curve G] {pp : AMTParams G G₂ depths} {shardNode : Option (NodeIndex depths)}
  {forest next : Forest G depths} {key : Key} {verInfo : VerInfo}

theorem Short.incKeyVer {version : Option VerInfo} (short : forest.Short)
    (done : Forest.incKeyVer pp shardNode forest key version = some (verInfo, next)) :
    next.Short := by
  cases version with
  | some given =>
    obtain ⟨slot, inShard, -, -, -, -, incremented, kept⟩ := incKeyVer_known done
    exact kept.all (fun _ _ versions => versions.length ≤ 5)
      (incremented.length_eq.trans_le (short _ _)) short
  | none =>
    obtain ⟨slot, inShard, -, -, -, numbered, small, incremented, kept⟩ := incKeyVer_new done
    refine kept.all (fun _ _ versions => versions.length ≤ 5) ?_ short
    rw [incremented.length_eq, List.length_append, ← numbered]
    exact small

/-- The slot of the version that is handed out: the one of the version handed in, or one that did
not exist. -/
theorem incKeyVer_slot {version : Option VerInfo}
    (done : incKeyVer pp shardNode forest key version = some (verInfo, next)) :
    ∃ slot, key.slot depths verInfo = some slot ∧
      (∀ given, version = some given → key.slot depths given = some slot ∧
        verInfo.level = given.level ∧ verInfo.slotIndex = given.slotIndex) ∧
      (version = none → slot.number = (forest.keyVersions slot.name slot.index).length ∧
        slot.number < (next.keyVersions slot.name slot.index).length) := by
  cases version with
  | some given =>
    obtain ⟨slot, inShard, isSlot, -, -, rfl, -, -⟩ := incKeyVer_known done
    refine ⟨slot, isSlot, ?_, nofun⟩
    rintro _ ⟨⟩
    exact ⟨isSlot, rfl, rfl⟩
  | none =>
    obtain ⟨slot, inShard, isSlot, -, -, numbered, -, incremented, -⟩ := incKeyVer_new done
    refine ⟨slot, isSlot, nofun, fun _ => ⟨numbered, ?_⟩⟩
    rw [incremented.length_eq, List.length_append, ← numbered]
    exact Nat.lt_succ_self _

theorem Exclusive.incKeyVer {owns : Key → VerInfo → Prop} {version : Option VerInfo}
    (exclusive : forest.Exclusive owns) (known : ∀ given, version = some given → owns key given)
    (done : Forest.incKeyVer pp shardNode forest key version = some (verInfo, next)) :
    next.Exclusive fun other otherInfo =>
      owns other otherInfo ∨ other = key ∧ otherInfo = verInfo := by
  obtain ⟨slot, isSlot, sameSlot, fresh⟩ := incKeyVer_slot done
  -- A key that owns the slot already is the key itself.
  have free : ∀ other otherInfo, owns other otherInfo → other.slot depths otherInfo = some slot →
      other = key := by
    intro other otherInfo owned isOther
    cases version with
    | some given =>
      exact exclusive.apart other key otherInfo given slot owned (known given rfl) isOther
        (sameSlot given rfl).1
    | none =>
      obtain ⟨slot', isSlot', inside⟩ := exclusive.slot other otherInfo owned
      obtain rfl : slot = slot' := Option.some.inj (isOther.symm.trans isSlot')
      rw [(fresh rfl).1] at inside
      exact absurd inside (lt_irrefl _)
  refine ⟨?_, ?_⟩
  · rintro other otherInfo (owned | ⟨rfl, rfl⟩)
    · obtain ⟨slot', isSlot', inside⟩ := exclusive.slot other otherInfo owned
      exact ⟨slot', isSlot', lt_of_lt_of_le inside (incKeyVer_length_le done _ _)⟩
    · refine ⟨slot, isSlot, ?_⟩
      cases version with
      | some given =>
        obtain ⟨slot', isSlot', inside⟩ := exclusive.slot other given (known given rfl)
        obtain rfl : slot = slot' := Option.some.inj ((sameSlot given rfl).1.symm.trans isSlot')
        exact lt_of_lt_of_le inside (incKeyVer_length_le done _ _)
      | none => exact (fresh rfl).2
  · rintro first second firstInfo secondInfo slot' (owned | ⟨rfl, rfl⟩) (owned' | ⟨rfl, rfl⟩)
      isFirst isSecond
    · exact exclusive.apart first second firstInfo secondInfo slot' owned owned' isFirst isSecond
    · obtain rfl : slot = slot' := Option.some.inj (isSlot.symm.trans isSecond)
      exact free first firstInfo owned isFirst
    · obtain rfl : slot = slot' := Option.some.inj (isSlot.symm.trans isFirst)
      exact (free second secondInfo owned' isSecond).symm
    · rfl

end Forest

/-! ### Ledgers -/

namespace Ledger

variable {G G₂ H : Type} {depths : Nat}

/-- The version is stored. -/
def Owns (values : Key → Option Value) (key : Key) (verInfo : VerInfo) : Prop :=
  ∃ value, values key = some value ∧ value.version = verInfo

/-- The stored slots are as `values` says, no two keys have the same one, and no leaf has more slots
than five. -/
structure Exclusive (ledger : Ledger G depths) (values : Key → Option Value) : Prop where
  holds : LvmtDB.Holds ledger.dbKey values
  exclusive : ledger.forest.Exclusive (Owns values)
  short : ledger.forest.Short

/-- Keys that had a slot have the same one. -/
def SameSlots (values values' : Key → Option Value) : Prop :=
  ∀ key value, values key = some value → ∃ value', values' key = some value' ∧
    value'.version.level = value.version.level ∧
    value'.version.slotIndex = value.version.slotIndex

theorem SameSlots.refl (values : Key → Option Value) : SameSlots values values :=
  fun _ value found => ⟨value, found, rfl, rfl⟩

theorem SameSlots.trans {first second third : Key → Option Value} (before : SameSlots first second)
    (after : SameSlots second third) : SameSlots first third := by
  intro key value found
  obtain ⟨value', found', level, slotIndex⟩ := before key value found
  obtain ⟨value'', found'', level', slotIndex'⟩ := after key value' found'
  exact ⟨value'', found'', level'.trans level, slotIndex'.trans slotIndex⟩

/-- What is stored in the end is one of the pairs, or was there before. -/
theorem storeAll_mem (values : Key → Option Value) (stored : List (Key × Value)) (key : Key) :
    (∃ value, (key, value) ∈ stored ∧ LvmtDB.storeAll values stored key = some value) ∨
      LvmtDB.storeAll values stored key = values key := by
  induction stored generalizing values with
  | nil => exact Or.inr rfl
  | cons pair rest inductionHypothesis =>
    show (∃ value, _ ∧ LvmtDB.storeAll (Function.update values pair.1 (some pair.2)) rest key = _) ∨
      LvmtDB.storeAll (Function.update values pair.1 (some pair.2)) rest key = _
    rcases inductionHypothesis (Function.update values pair.1 (some pair.2)) with
      ⟨value, member, found⟩ | found
    · exact Or.inl ⟨value, List.mem_cons_of_mem _ member, found⟩
    · by_cases same : key = pair.1
      · subst same
        rw [Function.update_self] at found
        exact Or.inl ⟨pair.2, List.mem_cons_self, found⟩
      · rw [Function.update_of_ne same] at found
        exact Or.inr found

variable [Curve G] [H256 H]

theorem exclusive_empty : (empty : Ledger G depths).Exclusive fun _ => none where
  holds := LvmtDB.holds_empty
  exclusive := by
    refine ⟨?_, ?_⟩
    · rintro key verInfo ⟨value, impossible, -⟩
      cases impossible
    · rintro key key' verInfo verInfo' slot ⟨value, impossible, -⟩
      cases impossible
  short _ _ := Nat.zero_le _

/-- The invariant of the loop is that stored versions and those handed out so far own different
slots, unless they are of one key. -/
theorem Exclusive.commit {config : LvmtConfig G G₂ depths} {ledger next : Ledger G depths}
    {values : Key → Option Value} {roots : G × H} (exclusive : ledger.Exclusive values)
    (done : ledger.commit config = some (roots, next)) :
    ∃ values', next.Exclusive values' ∧ SameSlots values values' := by
  obtain ⟨epoch, forest, writeOps, updates, after, dbMerkle, hashes, -, batch, committed, -, rfl⟩ :=
    commit_eq_some done
  obtain ⟨stored, -, -, sameOps, owned, short, sameSlots⟩ := LvmtDB.commitKey_invariant
    (fun (stored : List (Key × Value)) (forest : Forest G depths) =>
      forest.Exclusive (fun key verInfo =>
        Owns values key verInfo ∨ ∃ pair ∈ stored, key = pair.1 ∧ verInfo = pair.2.version) ∧
      forest.Short ∧
      ∀ pair ∈ stored, ∀ value, values pair.1 = some value →
        pair.2.version.level = value.version.level ∧
          pair.2.version.slotIndex = value.version.slotIndex)
    (fun stored forest key value version verInfo next holds _ known incremented => by
      obtain ⟨owned, short, sameSlots⟩ := holds
      have isVersion : (values key).map Value.version = version := by
        rw [oldVersion, exclusive.holds key] at known
        exact Option.some.inj known
      have given : ∀ given, version = some given → Owns values key given := by
        rintro given rfl
        exact Option.map_eq_some_iff.mp isVersion
      refine ⟨?_, short.incKeyVer incremented, fun pair member old isOld => ?_⟩
      · refine (owned.incKeyVer (fun known isKnown => Or.inl (given known isKnown))
          incremented).mono ?_
        rintro other otherInfo (old | ⟨pair, member, rfl, rfl⟩)
        · exact Or.inl (Or.inl old)
        · rcases List.mem_append.mp member with earlier | added
          · exact Or.inl (Or.inr ⟨pair, earlier, rfl, rfl⟩)
          · rw [List.mem_singleton.mp added]
            exact Or.inr ⟨rfl, rfl⟩
      · rcases List.mem_append.mp member with earlier | added
        · exact sameSlots pair earlier old isOld
        · rw [List.mem_singleton.mp added] at isOld ⊢
          dsimp only at isOld
          rw [isOld] at isVersion
          obtain ⟨slot, -, keeps, -⟩ := Forest.incKeyVer_slot incremented
          exact (keeps old.version isVersion.symm).2)
    ⟨exclusive.exclusive.mono (by
      rintro key verInfo (old | ⟨pair, member, -⟩)
      · exact old
      · exact absurd member List.not_mem_nil), exclusive.short,
      fun pair member => absurd member List.not_mem_nil⟩ batch
  dsimp only at sameOps
  subst sameOps
  have kept := Forest.commit_keyVersions committed
  refine ⟨LvmtDB.storeAll values stored,
    ⟨exclusive.holds.writeBuffered stored, (owned.mono ?_).congr kept, ?_⟩, fun key value found => ?_⟩
  · rintro key verInfo ⟨value, found, rfl⟩
    rcases storeAll_mem values stored key with ⟨value', member, found'⟩ | found'
    · rw [found'] at found
      obtain rfl := Option.some.inj found
      exact Or.inr ⟨_, member, rfl, rfl⟩
    · rw [found'] at found
      exact Or.inl ⟨value, found, rfl⟩
  · intro name index
    rw [kept]
    exact short name index
  · rcases storeAll_mem values stored key with ⟨value', member, found'⟩ | found'
    · exact ⟨value', found', sameSlots _ member value found⟩
    · exact ⟨value, found'.trans found, rfl, rfl⟩

theorem Exclusive.step {config : LvmtConfig G G₂ depths} {ledger next : Ledger G depths}
    {values : Key → Option Value} {op : LvmtOp} {out : LvmtOutput G H}
    (exclusive : ledger.Exclusive values) (done : ledger.step config op = some (next, out)) :
    ∃ values', next.Exclusive values' ∧ SameSlots values values' := by
  cases op with
  | set key value =>
    obtain ⟨rfl, -⟩ := Prod.mk.inj (Option.some.inj done)
    exact ⟨values, ⟨exclusive.holds, exclusive.exclusive, exclusive.short⟩, .refl values⟩
  | get key =>
    obtain ⟨value, -, same⟩ := Option.bind_eq_some_iff.mp done
    obtain ⟨rfl, -⟩ := Prod.mk.inj (Option.some.inj same)
    exact ⟨values, exclusive, .refl values⟩
  | commit =>
    obtain ⟨⟨⟨amtRoot, merkleRoot⟩, after⟩, committed, same⟩ := Option.bind_eq_some_iff.mp done
    obtain ⟨rfl, -⟩ := Prod.mk.inj (Option.some.inj same)
    exact exclusive.commit committed
  | prove key =>
    obtain ⟨proof, -, same⟩ := Option.bind_eq_some_iff.mp done
    obtain ⟨rfl, -⟩ := Prod.mk.inj (Option.some.inj same)
    exact ⟨values, exclusive, .refl values⟩
  | flushRoot =>
    obtain ⟨rfl, -⟩ := Prod.mk.inj (Option.some.inj done)
    refine ⟨values, ⟨exclusive.holds, exclusive.exclusive.congr ledger.flushRoot_keyVersions,
      fun name index => ?_⟩, .refl values⟩
    rw [flushRoot_keyVersions]
    exact exclusive.short name index

end Ledger

/-! ### Databases -/

namespace LvmtDB

variable {G G₂ H : Type} {depths : Nat} [Curve G] [H256 H]

/-- Stored keys have slots of their own, inside leaves of at most five slots. -/
structure SlotsExclusive (db : LvmtDB G depths) : Prop where
  apart : ∀ key key' value value' slot, loadValue db.dbKey key = some (some value) →
    loadValue db.dbKey key' = some (some value') → key.slot depths value.version = some slot →
      key'.slot depths value'.version = some slot → key = key'
  inside : ∀ key value, loadValue db.dbKey key = some (some value) →
    ∃ slot node, key.slot depths value.version = some slot ∧
      db.versionTree.leafOf slot.name slot.index.val = some node ∧
      value.version.slotIndex.toNat < node.keyVersions.len
  short : ∀ (name : TreeName) (index : Fin (2 ^ depths)) node, name.Proper depths →
    db.versionTree.leafOf name index.val = some node →
      node.keyVersions.len ≤ 5 ∧ ∃ frInt, node.asFrInt = some frInt

/-- Keys that are stored keep their level and slot. -/
def KeepsSlots (before after : LvmtDB G depths) : Prop :=
  ∀ key value, loadValue before.dbKey key = some (some value) →
    ∃ value', loadValue after.dbKey key = some (some value') ∧
      value'.version.level = value.version.level ∧
      value'.version.slotIndex = value.version.slotIndex

theorem Represents.slotsExclusive {db : LvmtDB G depths} {config : LvmtConfig G G₂ depths}
    {ledger : Ledger G depths} {values : Key → Option Value}
    (represents : db.Represents config ledger) (exclusive : ledger.Exclusive values) :
    db.SlotsExclusive := by
  have stored : ∀ key value, loadValue db.dbKey key = some (some value) →
      Ledger.Owns values key value.version := by
    intro key value loaded
    rw [represents.dbKey, exclusive.holds key] at loaded
    exact ⟨value, Option.some.inj loaded, rfl⟩
  refine ⟨fun key key' value value' slot loaded loaded' =>
    exclusive.exclusive.apart key key' _ _ slot (stored key value loaded)
      (stored key' value' loaded'), fun key value loaded => ?_,
    fun name index node proper read => ?_⟩
  · obtain ⟨slot, isSlot, inside⟩ := exclusive.exclusive.slot key _ (stored key value loaded)
    obtain ⟨named, -, numbered⟩ := Key.slot_eq_some.mp isSlot
    have proper := Key.proper_treeAtLevel config.pp.depths_le named
      (Nat.le_of_lt_succ value.version.level.toNat_lt)
    rw [numbered] at inside
    exact ⟨slot, _, isSlot, represents.versionTree.leafOf proper slot.index, inside⟩
  · rw [represents.versionTree.leafOf proper index] at read
    obtain rfl := Option.some.inj read
    have short := exclusive.short name index
    exact ⟨short, Node.asFrInt_isSome.mpr short⟩

/-- What a run keeps, from any point on. -/
theorem run_exclusive {config : LvmtConfig G G₂ depths} {ledger final : Ledger G depths}
    {values : Key → Option Value} {ops : List LvmtOp} {outputs : List (LvmtOutput G H)}
    (exclusive : ledger.Exclusive values)
    (done : PartialRun.run (Ledger.step config) ledger ops = some (final, outputs)) :
    ∃ values', final.Exclusive values' ∧ Ledger.SameSlots values values' :=
  PartialRun.run_invariant_of_forall
    (fun _ ledger => ∃ values', ledger.Exclusive values' ∧ Ledger.SameSlots values values')
    (fun _ => True)
    (fun history ledger op next out _ holds stepped => by
      obtain ⟨values', exclusive, kept⟩ := holds
      obtain ⟨values'', exclusive', kept'⟩ := exclusive.step stepped
      exact ⟨values'', exclusive', kept.trans kept'⟩)
    (fun _ _ => trivial) ⟨values, exclusive, .refl values⟩ done

/-- In every state of every run, stored keys have slots of their own in leaves of at most five, and
they keep their slots in all that is done later. -/
theorem slots_exclusive (config : LvmtConfig G G₂ depths) {opened middle final : LvmtDB G depths}
    {earlier later : List LvmtOp} {outputs outputs' : List (LvmtOutput G H)}
    (isOpened : new KeyValueDB.empty config.onlyMerkleRoot config.shardInfo = some opened)
    (ranEarlier : PartialRun.run (LvmtDB.step config.pp) opened earlier = some (middle, outputs))
    (ranLater : PartialRun.run (LvmtDB.step config.pp) middle later = some (final, outputs')) :
    middle.SlotsExclusive ∧ final.SlotsExclusive ∧ middle.KeepsSlots final := by
  obtain ⟨ledger, ran, stands⟩ := (represents_of_new isOpened).of_run ranEarlier
  obtain ⟨values, exclusive, -⟩ := run_exclusive Ledger.exclusive_empty ran
  obtain ⟨ledger', ran', stands'⟩ := stands.of_run ranLater
  obtain ⟨values', exclusive', kept⟩ := run_exclusive exclusive ran'
  refine ⟨stands.slotsExclusive exclusive, stands'.slotsExclusive exclusive',
    fun key value loaded => ?_⟩
  rw [stands.dbKey, exclusive.holds key] at loaded
  obtain ⟨value', found, sameSlot⟩ := kept key value (Option.some.inj loaded)
  refine ⟨value', ?_, sameSlot⟩
  rw [stands'.dbKey, exclusive'.holds key, found]

/-- Two new keys in one epoch, one of them set twice. -/
def crowdedStart : List LvmtOp :=
  [.set ⟨.pair 7 0⟩ (.single 1), .set ⟨.pair 7 0⟩ (.single 2), .set ⟨.pair 7 1⟩ (.single 3), .commit]

theorem slots_exclusive_crowdedStart :
    ∃ (opened middle final : LvmtDB Fr 8) (outputs outputs' : List (LvmtOutput Fr Transcript)),
      new KeyValueDB.empty false (some .root) = some opened ∧
      PartialRun.run (LvmtDB.step fullConfig.pp) opened crowdedStart = some (middle, outputs) ∧
      PartialRun.run (LvmtDB.step fullConfig.pp) middle crowdedStart = some (final, outputs') ∧
      middle.SlotsExclusive ∧ final.SlotsExclusive ∧ middle.KeepsSlots final := by
  obtain ⟨result, done⟩ : ∃ result : LvmtDB Fr 8 ×
      (LvmtDB Fr 8 × List (LvmtOutput Fr Transcript)) ×
        (LvmtDB Fr 8 × List (LvmtOutput Fr Transcript)),
      ((new KeyValueDB.empty false (some .root)).bind fun opened =>
        (PartialRun.run (LvmtDB.step fullConfig.pp) opened crowdedStart).bind fun ran =>
          (PartialRun.run (LvmtDB.step fullConfig.pp) ran.1 crowdedStart).map fun ran' =>
            (opened, ran, ran')) = some result :=
    Option.isSome_iff_exists.mp (by decide +kernel)
  obtain ⟨opened, isOpened, done⟩ := Option.bind_eq_some_iff.mp done
  obtain ⟨ran, isRan, done⟩ := Option.bind_eq_some_iff.mp done
  obtain ⟨ran', isRan', -⟩ := Option.map_eq_some_iff.mp done
  exact ⟨opened, ran.1, ran'.1, ran.2, ran'.2, isOpened, isRan, isRan',
    slots_exclusive fullConfig isOpened isRan isRan'⟩

end LvmtDB

end AuthStorage.Lvmt
