/-
This file is about what the stored versions say of the forest, in a database that
maintains every tree. As long as no key is set twice between two commits, the slot
of every stored key holds the version that is stored, and every slot is the slot
of exactly one key. A key that is set twice leaves the stored version behind.
-/

import AuthStorage.Lvmt.LvmtReopen
import AuthStorage.Lvmt.Slots
import AuthStorage.Lvmt.VersionTreeRuns

namespace AuthStorage.Lvmt

/-! ### The owners of the slots -/

namespace Forest

variable {G G₂ : Type} {depths : Nat}

/-- The versions agree with the slots: each is in its slot, and each slot has one owner. -/
structure Owned (forest : Forest G depths) (versions : Key → Option VerInfo) : Prop where
  inSlot : ∀ key verInfo, versions key = some verInfo →
    ∃ slot, key.slot depths verInfo = some slot ∧ forest.slotVersion slot = some verInfo.version
  owner : ∀ slot version, forest.slotVersion slot = some version →
    ∃ key verInfo, versions key = some verInfo ∧ key.slot depths verInfo = some slot
  apart : ∀ slot key key' verInfo verInfo', versions key = some verInfo →
    versions key' = some verInfo' → key.slot depths verInfo = some slot →
      key'.slot depths verInfo' = some slot → key = key'

theorem Owned.congr {forest next : Forest G depths} {versions : Key → Option VerInfo}
    (owned : forest.Owned versions) (same : next.keyVersions = forest.keyVersions) :
    next.Owned versions := by
  have sameSlots : next.slotVersion = forest.slotVersion := by
    funext slot
    rw [slotVersion, slotVersion, same]
  refine ⟨fun key verInfo => ?_, fun slot version => ?_, owned.apart⟩
  · rw [sameSlots]
    exact owned.inSlot key verInfo
  · rw [sameSlots]
    exact owned.owner slot version

theorem slotVersion_of_kept {forest next : Forest G depths} {slot other : Slot depths}
    (kept : KeptElsewhere forest next slot.name slot.index)
    (here : other.number ≠ slot.number →
      (next.keyVersions slot.name slot.index)[other.number]? =
        (forest.keyVersions slot.name slot.index)[other.number]?)
    (different : other ≠ slot) : next.slotVersion other = forest.slotVersion other := by
  rw [slotVersion, slotVersion]
  by_cases same : (other.name, other.index) = (slot.name, slot.index)
  · obtain ⟨sameName, sameIndex⟩ := Prod.mk.inj same
    rw [sameName, sameIndex]
    refine here fun sameNumber => different ?_
    cases other
    cases slot
    cases sameName
    cases sameIndex
    cases sameNumber
    rfl
  · rw [kept other.name other.index same]

variable [Curve G] {pp : AMTParams G G₂ depths} {forest next : Forest G depths} {key : Key}
  {verInfo : VerInfo}

theorem inProofShard_root {inShard : Bool}
    (shard : VersionTree.inProofShard (some (NodeIndex.root : NodeIndex depths)) key =
      some inShard) : inShard = true := by
  obtain ⟨index, -, shard⟩ := Option.bind_eq_some_iff.mp shard
  obtain ⟨inside, -, shard⟩ := Option.bind_eq_some_iff.mp shard
  rw [NodeIndex.needsMaintain_root] at shard
  exact (Option.some.inj shard).symm

/-- Where every tree is maintained, incrementing a version writes the new version to one slot:
the slot the key had, or one that did not exist. -/
theorem incKeyVer_slotVersion {version : Option VerInfo}
    (agrees : ∀ given slot, version = some given → key.slot depths given = some slot →
      forest.slotVersion slot = some given.version)
    (done : incKeyVer pp (some NodeIndex.root) forest key version = some (verInfo, next)) :
    ∃ slot, key.slot depths verInfo = some slot ∧
      next.slotVersion slot = some verInfo.version ∧
      (∀ other, other ≠ slot → next.slotVersion other = forest.slotVersion other) ∧
      (∀ given, version = some given → key.slot depths given = some slot) ∧
      (version = none → forest.slotVersion slot = none) := by
  cases version with
  | some given =>
    obtain ⟨slot, inShard, isSlot, shard, -, rfl, incremented, kept⟩ := incKeyVer_known done
    obtain rfl := inProofShard_root shard
    obtain ⟨version, added, found, isAdded, written⟩ := incremented
    have current := agrees given slot rfl isSlot
    obtain rfl : version = given.version := Option.some.inj (found.symm.trans current)
    have inside : slot.number < (forest.keyVersions slot.name slot.index).length :=
      (List.getElem?_eq_some_iff.mp found).1
    refine ⟨slot, isSlot, ?_, fun other => slotVersion_of_kept kept fun sameLeaf => ?_, ?_, nofun⟩
    · rw [slotVersion, written, List.getElem?_set_self inside, eq_add_of_checkedAdd isAdded]
    · rw [written, List.getElem?_set_ne sameLeaf.symm]
    · rintro _ ⟨⟩
      exact isSlot
  | none =>
    obtain ⟨slot, inShard, isSlot, shard, one, numbered, -, incremented, kept⟩ :=
      incKeyVer_new done
    obtain rfl := inProofShard_root shard
    obtain ⟨version, added, found, isAdded, written⟩ := incremented
    have inside : slot.number < (forest.keyVersions slot.name slot.index ++ [0]).length :=
      (List.getElem?_eq_some_iff.mp found).1
    rw [numbered, List.getElem?_concat_length] at found
    obtain rfl := Option.some.inj found
    refine ⟨slot, isSlot, ?_, fun other => slotVersion_of_kept kept fun different => ?_, nofun,
      fun _ => ?_⟩
    · rw [slotVersion, written, List.getElem?_set_self inside, one, eq_add_of_checkedAdd isAdded]
      rfl
    · rw [written, List.getElem?_set_ne different.symm]
      rcases Nat.lt_trichotomy other.number slot.number with lt | same | gt
      · rw [List.getElem?_append_left (numbered ▸ lt)]
      · exact absurd same different
      · rw [List.getElem?_eq_none, List.getElem?_eq_none]
        · exact numbered ▸ gt.le
        · rw [List.length_append, ← numbered]
          exact gt
    · rw [slotVersion, numbered]
      exact List.getElem?_eq_none le_rfl

theorem Owned.incKeyVer {versions : Key → Option VerInfo} (owned : forest.Owned versions)
    (done : Forest.incKeyVer pp (some NodeIndex.root) forest key (versions key) =
      some (verInfo, next)) :
    next.Owned (Function.update versions key (some verInfo)) := by
  obtain ⟨slot, isSlot, written, others, known, fresh⟩ :=
    incKeyVer_slotVersion (fun given slot isGiven isSlot => by
      obtain ⟨slot', isSlot', current⟩ := owned.inSlot key given isGiven
      obtain rfl : slot' = slot := Option.some.inj (isSlot'.symm.trans isSlot)
      exact current) done
  -- The slot that was written is not the slot of another key.
  have free : ∀ other verInfo', other ≠ key → versions other = some verInfo' →
      other.slot depths verInfo' ≠ some slot := by
    intro other verInfo' different isOther isSlot'
    cases current : versions key with
    | some given =>
      exact different (owned.apart slot other key verInfo' given isOther current isSlot'
        (known given current))
    | none =>
      obtain ⟨slot', isSlot'', held⟩ := owned.inSlot other verInfo' isOther
      obtain rfl : slot' = slot := Option.some.inj (isSlot''.symm.trans isSlot')
      rw [fresh current] at held
      cases held
  refine ⟨fun other verInfo' isOther => ?_, fun slot' version held => ?_,
    fun slot' first second firstInfo secondInfo isFirst isSecond firstSlot secondSlot => ?_⟩
  · by_cases same : other = key
    · subst same
      rw [Function.update_self] at isOther
      obtain rfl := Option.some.inj isOther
      exact ⟨slot, isSlot, written⟩
    · rw [Function.update_of_ne same] at isOther
      obtain ⟨slot', isSlot', held⟩ := owned.inSlot other verInfo' isOther
      refine ⟨slot', isSlot', ?_⟩
      rw [others slot' fun sameSlot => free other verInfo' same isOther (sameSlot ▸ isSlot'), held]
  · by_cases sameSlot : slot' = slot
    · subst sameSlot
      exact ⟨key, verInfo, Function.update_self _ _ _, isSlot⟩
    · rw [others slot' sameSlot] at held
      obtain ⟨other, verInfo', isOther, isSlot'⟩ := owned.owner slot' version held
      refine ⟨other, verInfo', ?_, isSlot'⟩
      rw [Function.update_of_ne, isOther]
      rintro rfl
      exact sameSlot (Option.some.inj (isSlot'.symm.trans (known verInfo' isOther)))
  · by_cases firstSame : first = key
    · by_cases secondSame : second = key
      · rw [firstSame, secondSame]
      · rw [firstSame, Function.update_self] at isFirst
        obtain rfl := Option.some.inj isFirst
        rw [Function.update_of_ne secondSame] at isSecond
        rw [firstSame, isSlot] at firstSlot
        exact absurd (secondSlot.trans firstSlot.symm) (free second secondInfo secondSame isSecond)
    · rw [Function.update_of_ne firstSame] at isFirst
      by_cases secondSame : second = key
      · rw [secondSame, Function.update_self] at isSecond
        obtain rfl := Option.some.inj isSecond
        rw [secondSame, isSlot] at secondSlot
        exact absurd (firstSlot.trans secondSlot.symm) (free first firstInfo firstSame isFirst)
      · rw [Function.update_of_ne secondSame] at isSecond
        exact owned.apart slot' first second firstInfo secondInfo isFirst isSecond firstSlot
          secondSlot

end Forest

/-! ### Ledgers -/

namespace Ledger

variable {G G₂ H : Type} {depths : Nat}

/-- The versions after some pairs were stored. -/
def versionsAfter (versions : Key → Option VerInfo) (stored : List (Key × Value)) :
    Key → Option VerInfo :=
  stored.foldl (fun versions pair => Function.update versions pair.1 (some pair.2.version)) versions

theorem versionsAfter_concat (versions : Key → Option VerInfo) (stored : List (Key × Value))
    (pair : Key × Value) : versionsAfter versions (stored ++ [pair]) =
      Function.update (versionsAfter versions stored) pair.1 (some pair.2.version) := by
  rw [versionsAfter, List.foldl_append]
  rfl

theorem versionsAfter_of_notMem (versions : Key → Option VerInfo) (stored : List (Key × Value))
    {key : Key} (absent : key ∉ stored.map Prod.fst) :
    versionsAfter versions stored key = versions key := by
  induction stored generalizing versions with
  | nil => rfl
  | cons pair rest inductionHypothesis =>
    rw [List.map_cons, List.mem_cons, not_or] at absent
    have later := inductionHypothesis (Function.update versions pair.1 (some pair.2.version)) absent.2
    rwa [Function.update_of_ne absent.1] at later

/-- Every entry of the column can be read, with these versions. -/
def Reads (dbKey : DBColumn) (versions : Key → Option VerInfo) : Prop :=
  ∀ key, (LvmtDB.loadValue dbKey key).map (fun value => value.map Value.version) =
    some (versions key)

theorem Reads.writeBuffered {dbKey : DBColumn} {versions : Key → Option VerInfo}
    (reads : Reads dbKey versions) (stored : List (Key × Value)) :
    Reads (dbKey.writeBuffered (stored.map LvmtDB.pairOp)) (versionsAfter versions stored) := by
  induction stored generalizing dbKey versions with
  | nil => exact reads
  | cons pair rest inductionHypothesis =>
    refine inductionHypothesis fun key => ?_
    rw [LvmtDB.loadValue, LvmtDB.pairOp, DBOp.apply]
    dsimp only
    by_cases same : key = pair.1
    · subst same
      rw [Function.update_self, Function.update_self]
      show ((fromBytesLocal (toBytesLocal pair.2)).map some).map _ = _
      rw [fromBytesLocal_toBytesLocal]
      rfl
    · rw [Function.update_of_ne same,
        Function.update_of_ne fun equal => same (Key.ext equal)]
      exact reads key

variable [Curve G] [H256 H] {pp : AMTParams G G₂ depths} {onlyMerkleRoot : Bool}

/-- The stored versions agree with the forest, and no key is set twice. -/
structure Agrees (ledger : Ledger G depths) (versions : Key → Option VerInfo) : Prop where
  reads : Reads ledger.dbKey versions
  owned : ledger.forest.Owned versions
  distinct : (ledger.uncommittedKeyValues.map Prod.fst).Nodup

theorem owned_empty : (empty : Ledger G depths).forest.Owned fun _ => none where
  inSlot key verInfo impossible := by cases impossible
  owner slot version impossible := by cases impossible
  apart slot key key' verInfo verInfo' impossible := by cases impossible

theorem agrees_empty : (empty : Ledger G depths).Agrees fun _ => none :=
  ⟨fun _ => rfl, owned_empty, List.nodup_nil⟩

/-- The invariant of the loop is that the slots agree with what was stored so far. -/
theorem Agrees.commit {ledger next : Ledger G depths} {versions : Key → Option VerInfo}
    {roots : G × H} (agrees : ledger.Agrees versions)
    (done : ledger.commit ⟨pp, onlyMerkleRoot, some .root⟩ = some (roots, next)) :
    ∃ versions', next.Agrees versions' := by
  obtain ⟨epoch, forest, writeOps, updates, after, dbMerkle, hashes, -, batch, committed, -, rfl⟩ :=
    commit_eq_some done
  obtain ⟨stored, -, -, sameOps, owned⟩ := LvmtDB.commitKey_invariant
    (fun (stored : List (Key × Value)) (forest : Forest G depths) =>
      forest.Owned (versionsAfter versions stored))
    (fun stored forest key value version verInfo next owned among known incremented => by
      have fresh : key ∉ stored.map Prod.fst := by
        have distinct := agrees.distinct.sublist (among.map Prod.fst).sublist
        rw [List.map_append, List.map_map, List.nodup_append] at distinct
        intro member
        exact distinct.2.2 key member key (List.mem_singleton_self key) rfl
      obtain rfl : versions key = version := Option.some.inj ((agrees.reads key).symm.trans known)
      rw [← versionsAfter_of_notMem versions stored fresh] at incremented
      rw [versionsAfter_concat]
      exact owned.incKeyVer incremented)
    agrees.owned batch
  dsimp only at sameOps
  subst sameOps
  exact ⟨versionsAfter versions stored, agrees.reads.writeBuffered stored,
    owned.congr (Forest.commit_keyVersions committed), List.nodup_nil⟩

/-- No operation but a commit touches the versions. -/
theorem Agrees.step {ledger next : Ledger G depths} {versions : Key → Option VerInfo} {op : LvmtOp}
    {out : LvmtOutput G H} (agrees : ledger.Agrees versions)
    (notTwice : ∀ key value, op = .set key value →
      key ∉ ledger.uncommittedKeyValues.map Prod.fst)
    (done : ledger.step ⟨pp, onlyMerkleRoot, some .root⟩ op = some (next, out)) :
    ∃ versions', next.Agrees versions' := by
  cases op with
  | set key value =>
    obtain ⟨rfl, -⟩ := Prod.mk.inj (Option.some.inj done)
    refine ⟨versions, agrees.reads, agrees.owned, ?_⟩
    rw [List.map_append]
    exact List.Nodup.append agrees.distinct (List.nodup_singleton _)
      (List.disjoint_singleton.mpr (notTwice key value rfl))
  | get key =>
    obtain ⟨value, -, same⟩ := Option.bind_eq_some_iff.mp done
    obtain ⟨rfl, -⟩ := Prod.mk.inj (Option.some.inj same)
    exact ⟨versions, agrees⟩
  | commit =>
    obtain ⟨⟨⟨amtRoot, merkleRoot⟩, after⟩, committed, same⟩ := Option.bind_eq_some_iff.mp done
    obtain ⟨rfl, -⟩ := Prod.mk.inj (Option.some.inj same)
    exact agrees.commit committed
  | prove key =>
    obtain ⟨proof, -, same⟩ := Option.bind_eq_some_iff.mp done
    obtain ⟨rfl, -⟩ := Prod.mk.inj (Option.some.inj same)
    exact ⟨versions, agrees⟩
  | flushRoot =>
    obtain ⟨rfl, -⟩ := Prod.mk.inj (Option.some.inj done)
    exact ⟨versions, agrees.reads, agrees.owned.congr ledger.flushRoot_keyVersions,
      agrees.distinct⟩

end Ledger

/-! ### Databases -/

namespace LvmtDB

variable {G G₂ H : Type} {depths : Nat} [Curve G] [H256 H]

/-- The slot of a stored value, read from the tree. -/
def slotOf (db : LvmtDB G depths) (key : Key) (verInfo : VerInfo) : Option UInt64 := do
  let name ← key.treeAtLevel depths verInfo.level.toNat
  let index ← key.indexAtLevel depths verInfo.level.toNat
  let node ← db.versionTree.leafOf name index
  node.keyVersions.toList[verInfo.slotIndex.toNat]?

/-- Every stored entry can be read and its version is in its slot; every slot of the forest is
the slot of exactly one stored key. -/
structure VersionsAgree (db : LvmtDB G depths) : Prop where
  inSlot : ∀ (key : Key) bytes, db.dbKey key.bytes.toList = some bytes →
    ∃ value : Value, fromBytesLocal bytes = some value ∧
      db.slotOf key value.version = some value.version.version
  owner : ∀ (name : TreeName) (index : Fin (2 ^ depths)) node number, name.Proper depths →
    db.versionTree.leafOf name index.val = some node → number < node.keyVersions.len →
      ∃! key : Key, ∃ value : Value, loadValue db.dbKey key = some (some value) ∧
        key.slot depths value.version = some ⟨name, index, number⟩

/-- The key was not set since the last commit. -/
def NotSetTwice (db : LvmtDB G depths) : LvmtOp → Prop
  | .set key _ => key ∉ db.uncommittedKeyValues.map Prod.fst
  | _ => True

theorem Represents.versionsAgree {db : LvmtDB G depths} {config : LvmtConfig G G₂ depths}
    {ledger : Ledger G depths} {versions : Key → Option VerInfo}
    (represents : db.Represents config ledger) (agrees : ledger.Agrees versions) :
    db.VersionsAgree := by
  have stored : ∀ key verInfo, versions key = some verInfo ↔
      ∃ value : Value, loadValue db.dbKey key = some (some value) ∧ value.version = verInfo := by
    intro key verInfo
    have read := agrees.reads key
    rw [← represents.dbKey] at read
    constructor
    · intro isVersion
      rw [isVersion] at read
      obtain ⟨value, loaded, same⟩ := Option.map_eq_some_iff.mp read
      obtain ⟨value, rfl, rfl⟩ := Option.map_eq_some_iff.mp same
      exact ⟨value, loaded, rfl⟩
    · rintro ⟨value, loaded, rfl⟩
      rw [loaded] at read
      exact (Option.some.inj read).symm
  refine ⟨fun key bytes found => ?_, fun name index node number proper read inside => ?_⟩
  · obtain ⟨value, loaded, isVersion⟩ := Option.map_eq_some_iff.mp (agrees.reads key)
    rw [← represents.dbKey, loadValue, found] at loaded
    obtain ⟨value, decoded, rfl⟩ := Option.map_eq_some_iff.mp loaded
    refine ⟨value, decoded, ?_⟩
    obtain ⟨slot, isSlot, held⟩ := agrees.owned.inSlot key value.version isVersion.symm
    obtain ⟨named, indexed, numbered⟩ := Key.slot_eq_some.mp isSlot
    have proper := Key.proper_treeAtLevel config.pp.depths_le named
      (Nat.le_of_lt_succ value.version.level.toNat_lt)
    rw [slotOf, named, indexed]
    simp only [Option.bind_eq_bind, Option.bind_some,
      represents.versionTree.leafOf proper slot.index, ← numbered]
    exact held
  · rw [represents.versionTree.leafOf proper index] at read
    obtain rfl := Option.some.inj read
    have held : ledger.forest.slotVersion ⟨name, index, number⟩ = some _ :=
      List.getElem?_eq_getElem inside
    obtain ⟨key, verInfo, isVersion, isSlot⟩ := agrees.owned.owner _ _ held
    obtain ⟨value, loaded, rfl⟩ := (stored key verInfo).mp isVersion
    refine ⟨key, ⟨value, loaded, isSlot⟩, ?_⟩
    rintro other ⟨value', loaded', isSlot'⟩
    exact agrees.owned.apart _ other key value'.version value.version
      ((stored other _).mpr ⟨value', loaded', rfl⟩) isVersion isSlot' isSlot

/-- In every run in which no key is set twice between two commits, the stored versions agree with
the forest. -/
theorem versions_agree (pp : AMTParams G G₂ depths) (onlyMerkleRoot : Bool)
    {opened final : LvmtDB G depths} {ops : List LvmtOp} {outputs : List (LvmtOutput G H)}
    (isOpened : new KeyValueDB.empty onlyMerkleRoot (some .root) = some opened)
    (meets : PartialRun.Meets (LvmtDB.step (H := H) pp) NotSetTwice opened ops)
    (done : PartialRun.run (LvmtDB.step pp) opened ops = some (final, outputs)) :
    final.VersionsAgree := by
  let config : LvmtConfig G G₂ depths := ⟨pp, onlyMerkleRoot, some .root⟩
  have represents : opened.Represents config Ledger.empty := represents_of_new isOpened
  let invariant := fun db : LvmtDB G depths =>
    ∃ ledger versions, db.Represents config ledger ∧ ledger.Agrees versions
  have kept : invariant final := PartialRun.run_invariant_of_meets
    (fun db op next out notTwice holds stepped => by
      obtain ⟨ledger, versions, stands, agrees⟩ := holds
      have simulated := stands.step (H := H) op
      rw [stepped] at simulated
      obtain ⟨⟨after, _⟩, ledgerStepped, nextStands, rfl⟩ := simulated.of_some_left
      obtain ⟨versions', nextAgrees⟩ := agrees.step (fun key value isSet => by
        subst isSet
        rw [← stands.uncommitted]
        exact notTwice) ledgerStepped
      exact ⟨after, versions', nextStands, nextAgrees⟩)
    ⟨Ledger.empty, _, represents, Ledger.agrees_empty⟩ meets done
  obtain ⟨ledger, versions, stands, agrees⟩ := kept
  exact stands.versionsAgree agrees

/-! ### Two runs -/

instance (db : LvmtDB G depths) : ∀ op, Decidable (db.NotSetTwice op)
  | .set key _ => inferInstanceAs (Decidable (key ∉ db.uncommittedKeyValues.map Prod.fst))
  | .get _ | .commit | .prove _ | .flushRoot => isTrue trivial

/-- The key of the failing run. -/
def oneKey : Key := ⟨.pair 7 0⟩

/-- Two keys; one of them is set again after a commit. -/
def setOnce : List LvmtOp :=
  [.set oneKey (.single 1), .set ⟨.pair 7 1⟩ (.single 2), .commit,
    .set oneKey (.single 3), .commit]

/-- One key, set twice after it was committed. -/
def setTwice : List LvmtOp :=
  [.set oneKey (.single 1), .commit, .set oneKey (.single 2),
    .set oneKey (.single 3), .commit]

theorem versions_agree_setOnce :
    ∃ (opened final : LvmtDB Fr 8) (outputs : List (LvmtOutput Fr Transcript)),
      new KeyValueDB.empty false (some .root) = some opened ∧
      PartialRun.run (LvmtDB.step fullConfig.pp) opened setOnce = some (final, outputs) ∧
      final.VersionsAgree := by
  obtain ⟨result, done⟩ : ∃ result : LvmtDB Fr 8 × LvmtDB Fr 8 × List (LvmtOutput Fr Transcript),
      ((new KeyValueDB.empty false (some .root)).bind fun opened =>
        (PartialRun.run (LvmtDB.step fullConfig.pp) opened setOnce).bind fun ran =>
          if PartialRun.Meets (LvmtDB.step (H := Transcript) fullConfig.pp) NotSetTwice opened
            setOnce then some (opened, ran) else none) = some result :=
    Option.isSome_iff_exists.mp (by decide +kernel)
  obtain ⟨opened, isOpened, done⟩ := Option.bind_eq_some_iff.mp done
  obtain ⟨ran, isRan, done⟩ := Option.bind_eq_some_iff.mp done
  by_cases meets : PartialRun.Meets (LvmtDB.step (H := Transcript) fullConfig.pp) NotSetTwice
    opened setOnce
  · exact ⟨opened, ran.1, ran.2, isOpened, isRan,
      versions_agree fullConfig.pp false isOpened meets isRan⟩
  · rw [if_neg meets] at done
    cases done

/-- The stored version is two, and the slot holds three. -/
theorem versions_after_setTwice :
    ∃ (opened final : LvmtDB Fr 8) (outputs : List (LvmtOutput Fr Transcript)),
      new KeyValueDB.empty false (some .root) = some opened ∧
      PartialRun.run (LvmtDB.step fullConfig.pp) opened setTwice = some (final, outputs) ∧
      ¬ final.VersionsAgree := by
  obtain ⟨result, done⟩ : ∃ result : (LvmtDB Fr 8 × LvmtDB Fr 8 ×
      List (LvmtOutput Fr Transcript)) × Bytes × Value,
      ((new KeyValueDB.empty false (some .root)).bind fun opened =>
        (PartialRun.run (LvmtDB.step fullConfig.pp) opened setTwice).bind fun ran =>
          (ran.1.dbKey oneKey.bytes.toList).bind fun bytes =>
            (fromBytesLocal bytes).bind fun (value : Value) =>
              if ran.1.slotOf oneKey value.version ≠ some value.version.version then
                some ((opened, ran), bytes, value) else none) = some result :=
    Option.isSome_iff_exists.mp (by decide +kernel)
  obtain ⟨opened, isOpened, done⟩ := Option.bind_eq_some_iff.mp done
  obtain ⟨ran, isRan, done⟩ := Option.bind_eq_some_iff.mp done
  obtain ⟨bytes, found, done⟩ := Option.bind_eq_some_iff.mp done
  obtain ⟨value, decoded, done⟩ := Option.bind_eq_some_iff.mp done
  refine ⟨opened, ran.1, ran.2, isOpened, isRan, fun agree => ?_⟩
  obtain ⟨value', decoded', inSlot⟩ := agree.inSlot oneKey bytes found
  obtain rfl : value = value' := Option.some.inj (decoded.symm.trans decoded')
  rw [if_neg (not_not.mpr inSlot)] at done
  cases done

end LvmtDB

end AuthStorage.Lvmt
