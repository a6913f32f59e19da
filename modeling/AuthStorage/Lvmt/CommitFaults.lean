/-
This file models `LvmtDB::commit` over a store whose reads and whose flush may fail.
A failing read of the epoch number, a failing or undecodable read of a stored value
and a failing flush are returned; a failing read below the version tree is unwrapped
and panics. The pending pairs are drained by the loop that reads the stored values,
so the first of these errors leaves the database as it was, and the other two do not.
-/

import AuthStorage.Lvmt.LvmtDB

namespace AuthStorage.Lvmt

/-- The errors `commit` returns. -/
inductive StorageError
  | read
  | decode
  | flush
deriving DecidableEq

/-- Which calls to the store fail during a commit. The pairs are counted from the first one. -/
structure StorageFaults where
  /-- The read of the epoch number. -/
  epochRead : Bool
  /-- The read of the stored value, for the pair at a position. -/
  keyRead : Nat → Bool
  /-- A read of a tree, while the version of the pair at a position is incremented. -/
  incKeyVer : Nat → Bool
  /-- A read of a tree, while the trees are committed. -/
  commitTrees : Bool
  flush : Bool

/-- A store that works. -/
def StorageFaults.working : StorageFaults :=
  ⟨false, fun _ => false, fun _ => false, false, false⟩

namespace LvmtDB

variable {G G₂ H : Type} {depths : Nat} [Curve G] [H256 H]

/-! ### A commit over a failing store -/

/-- The version before the commit: from the read cache, or else from the store. -/
def readVersion (faults : StorageFaults) (db : LvmtDB G depths) (key : Key) (position : Nat) :
    Except StorageError (Option VerInfo) :=
  match db.cache.lookup key with
  | some (value, _) => .ok (value.map Value.version)
  | none =>
    if faults.keyRead position then
      .error .read
    else
      match loadValue db.dbKey key with
      | some value => .ok (value.map Value.version)
      | none => .error .decode

/-- The loop over the drained pairs. An error ends it early and leaves what was done before. -/
def commitKeys (faults : StorageFaults) (pp : AMTParams G G₂ depths) (db : LvmtDB G depths)
    (epoch : UInt64) :
    List ((Key × Vec UInt8) × Nat) → VersionTree G depths × List H × List DBOp →
      Option (Except StorageError Unit × (VersionTree G depths × List H × List DBOp))
  | [], state => some (.ok (), state)
  | entry :: rest, state =>
    match readVersion faults db entry.1.1 entry.2 with
    | .error error => some (.error error, state)
    | .ok version =>
      if faults.incKeyVer entry.2 then
        none
      else do
        let state ← commitKey (fun _ => some version)
          (fun tree key version => tree.incKeyVer pp key version) epoch state entry
        commitKeys faults pp db epoch rest state

/-- `commit`, with the state that is left when it returns. -/
def commitWith (faults : StorageFaults) (pp : AMTParams G G₂ depths) (db : LvmtDB G depths) :
    Option (Except StorageError (G × H) × LvmtDB G depths) :=
  if faults.epochRead then
    some (.error .read, db)
  else do
    let epoch ← currentEpoch db.dbMerkle
    let (outcome, (versionTree, hashes, writeOps)) ←
      commitKeys faults pp db epoch db.uncommittedKeyValues.zipIdx (db.versionTree, [], [])
    -- The iterator over the drained pairs drops those that were not reached.
    let drained := { db with versionTree, uncommittedKeyValues := [] }
    match outcome with
    | .error error => some (.error error, drained)
    | .ok () =>
      if faults.commitTrees then
        none
      else do
        let dbKey := db.dbKey.writeBuffered writeOps
        let ((amtRoot, updates), versionTree) ←
          versionTree.commit pp epoch (UInt64.ofNat hashes.length)
        let hashes : List H := hashes ++ updates.map treeValueHash
        let (dbMerkle, merkleRoot) ← finishEpoch db.dbMerkle epoch hashes db.onlyMerkleRoot
        let written := { drained with versionTree, dbKey, dbMerkle }
        if faults.flush then
          some (.error .flush, written)
        else
          some (.ok (amtRoot, merkleRoot), { written with cache := ∅ })

/-! ### Which errors are reached -/

/-- The stored value of a pending key is needed and cannot be had. -/
def ReadFails (faults : StorageFaults) (db : LvmtDB G depths) (key : Key) (position : Nat) : Prop :=
  db.cache.lookup key = none ∧
    (faults.keyRead position = true ∨ loadValue db.dbKey key = none)

/-- A stored value cannot be read, and no tree panics for a pair before it. -/
def ReadErrorReached (faults : StorageFaults) (db : LvmtDB G depths) :
    List ((Key × Vec UInt8) × Nat) → Prop
  | [] => False
  | entry :: rest =>
    ReadFails faults db entry.1.1 entry.2 ∨
      faults.incKeyVer entry.2 = false ∧ ReadErrorReached faults db rest

/-- The flush fails, and no tree panics before it. -/
def FlushErrorReached (faults : StorageFaults) (entries : List ((Key × Vec UInt8) × Nat)) : Prop :=
  faults.flush = true ∧ faults.commitTrees = false ∧
    ∀ entry ∈ entries, faults.incKeyVer entry.2 = false

variable {faults : StorageFaults} {pp : AMTParams G G₂ depths} {db : LvmtDB G depths}
  {epoch : UInt64} {entries : List ((Key × Vec UInt8) × Nat)}

omit [Curve G] in
theorem readVersion_error_iff {key : Key} {position : Nat} :
    (∃ error, readVersion faults db key position = .error error) ↔
      ReadFails faults db key position := by
  rw [readVersion, ReadFails]
  cases db.cache.lookup key with
  | some entry => simp
  | none => cases faults.keyRead position <;> cases loadValue db.dbKey key <;> simp

omit [Curve G] in
theorem readVersion_ok {key : Key} {position : Nat} {version : Option VerInfo}
    (done : readVersion faults db key position = .ok version) :
    db.oldVersion key = some version := by
  rw [readVersion] at done
  rw [oldVersion]
  cases found : db.cache.lookup key with
  | some entry =>
    rw [found] at done
    exact congrArg some (Except.ok.inj done)
  | none =>
    rw [found] at done
    dsimp only at done
    split at done
    · cases done
    · cases loaded : loadValue db.dbKey key with
      | none =>
        rw [loaded] at done
        cases done
      | some value =>
        rw [loaded] at done
        exact congrArg some (Except.ok.inj done)

/-- One pair, with the version that was read. -/
theorem commitKey_readVersion {entry : (Key × Vec UInt8) × Nat} {version : Option VerInfo}
    (done : readVersion faults db entry.1.1 entry.2 = .ok version)
    (state : VersionTree G depths × List H × List DBOp) :
    commitKey (fun _ => some version) (fun tree key version => tree.incKeyVer pp key version)
        epoch state entry =
      commitKey db.oldVersion (fun tree key version => tree.incKeyVer pp key version) epoch state
        entry := by
  rw [commitKey, commitKey, readVersion_ok done]

/-- The loop comes to the error, if the increments before it work. -/
theorem commitKeys_of_reached (reached : ReadErrorReached faults db entries)
    {state final : VersionTree G depths × List H × List DBOp}
    (works : entries.foldlM (commitKey db.oldVersion
      (fun tree key version => tree.incKeyVer pp key version) epoch) state = some final) :
    ∃ error last, commitKeys faults pp db epoch entries state = some (.error error, last) := by
  induction entries generalizing state with
  | nil => exact reached.elim
  | cons entry rest inductionHypothesis =>
    rw [List.foldlM_cons] at works
    obtain ⟨next, stepped, works⟩ := Option.bind_eq_some_iff.mp works
    rw [commitKeys]
    cases read : readVersion faults db entry.1.1 entry.2 with
    | error error => exact ⟨error, state, rfl⟩
    | ok version =>
      dsimp only
      rw [commitKey_readVersion read, stepped]
      rcases reached with fails | ⟨quiet, later⟩
      · obtain ⟨error, failed⟩ := readVersion_error_iff.mpr fails
        cases read.symm.trans failed
      · rw [quiet]
        exact inductionHypothesis later works

/-- Without an error, and without a failing read of a tree, the loop is the one over a store that
works. -/
theorem commitKeys_of_quiet (clear : ¬ ReadErrorReached faults db entries)
    (quiet : ∀ entry ∈ entries, faults.incKeyVer entry.2 = false)
    (state : VersionTree G depths × List H × List DBOp) :
    commitKeys faults pp db epoch entries state =
      (entries.foldlM (commitKey db.oldVersion
        (fun tree key version => tree.incKeyVer pp key version) epoch) state).map
          fun final => (.ok (), final) := by
  induction entries generalizing state with
  | nil => rfl
  | cons entry rest inductionHypothesis =>
    have quietHere := quiet entry List.mem_cons_self
    rw [List.foldlM_cons, commitKeys, quietHere]
    cases read : readVersion faults db entry.1.1 entry.2 with
    | error error => exact absurd (Or.inl (readVersion_error_iff.mp ⟨error, read⟩)) clear
    | ok version =>
      dsimp only
      rw [commitKey_readVersion read]
      cases commitKey db.oldVersion (fun tree key version => tree.incKeyVer pp key version) epoch
        state entry with
      | none => rfl
      | some next =>
        exact inductionHypothesis (fun later => clear (Or.inr ⟨quietHere, later⟩))
          (fun other member => quiet other (List.mem_cons_of_mem _ member)) next

/-- What the end of the loop says about the faults. -/
theorem commitKeys_eq_some {outcome : Except StorageError Unit}
    {state last : VersionTree G depths × List H × List DBOp}
    (done : commitKeys faults pp db epoch entries state = some (outcome, last)) :
    match outcome with
    | .error _ => ReadErrorReached faults db entries
    | .ok () => ∀ entry ∈ entries, faults.incKeyVer entry.2 = false := by
  induction entries generalizing state with
  | nil =>
    obtain ⟨rfl, -⟩ := Prod.mk.inj (Option.some.inj done)
    exact fun entry member => absurd member List.not_mem_nil
  | cons entry rest inductionHypothesis =>
    rw [commitKeys] at done
    cases read : readVersion faults db entry.1.1 entry.2 with
    | error error =>
      rw [read] at done
      obtain ⟨rfl, -⟩ := Prod.mk.inj (Option.some.inj done)
      exact Or.inl (readVersion_error_iff.mp ⟨error, read⟩)
    | ok version =>
      rw [read] at done
      dsimp only at done
      cases panics : faults.incKeyVer entry.2 with
      | true =>
        rw [panics] at done
        cases done
      | false =>
        rw [panics] at done
        obtain ⟨next, -, done⟩ := Option.bind_eq_some_iff.mp done
        have later := inductionHypothesis done
        cases outcome with
        | error error => exact Or.inr ⟨panics, later⟩
        | ok =>
          intro other member
          rcases List.mem_cons.mp member with rfl | member
          · exact panics
          · exact later other member

/-- A commit that returns an error: the epoch number could not be read and nothing was done, or
the pairs are gone. -/
theorem commitWith_error {error : StorageError} {after : LvmtDB G depths}
    (done : commitWith (H := H) faults pp db = some (.error error, after)) :
    (faults.epochRead = true ∧ after = db) ∨
      after.uncommittedKeyValues = [] ∧
        (ReadErrorReached faults db db.uncommittedKeyValues.zipIdx ∨
          FlushErrorReached faults db.uncommittedKeyValues.zipIdx) := by
  rw [commitWith] at done
  split at done
  · next failed =>
    exact Or.inl ⟨failed, (Prod.mk.inj (Option.some.inj done)).2.symm⟩
  · obtain ⟨epoch, -, done⟩ := Option.bind_eq_some_iff.mp done
    obtain ⟨⟨outcome, versionTree, hashes, writeOps⟩, looped, done⟩ :=
      Option.bind_eq_some_iff.mp done
    have reached := commitKeys_eq_some looped
    cases outcome with
    | error error' =>
      obtain ⟨-, rfl⟩ := Prod.mk.inj (Option.some.inj done)
      exact Or.inr ⟨rfl, Or.inl reached⟩
    | ok =>
      dsimp only at done
      split at done
      · cases done
      · next quiet =>
        obtain ⟨⟨⟨amtRoot, updates⟩, committed⟩, -, done⟩ := Option.bind_eq_some_iff.mp done
        obtain ⟨⟨dbMerkle, merkleRoot⟩, -, done⟩ := Option.bind_eq_some_iff.mp done
        dsimp only at done
        split at done
        · next failed =>
          obtain ⟨-, rfl⟩ := Prod.mk.inj (Option.some.inj done)
          exact Or.inr ⟨rfl, Or.inr ⟨failed, Bool.not_eq_true _ ▸ quiet, reached⟩⟩
        · cases (Prod.mk.inj (Option.some.inj done)).1

/-- Over a store that works, and holds nothing that cannot be decoded, this is the commit. -/
theorem commitWith_working (clear : ¬ ReadErrorReached .working db db.uncommittedKeyValues.zipIdx) :
    commitWith (H := H) .working pp db =
      (db.commit pp).map fun done => (.ok done.1, done.2) := by
  have quiet : ∀ entry ∈ db.uncommittedKeyValues.zipIdx,
      StorageFaults.working.incKeyVer entry.2 = false := fun _ _ => rfl
  rw [commitWith, if_neg (by decide), commit]
  cases currentEpoch db.dbMerkle with
  | none => rfl
  | some epoch =>
    simp only [Option.bind_eq_bind, Option.bind_some, commitKeys_of_quiet clear quiet]
    cases db.uncommittedKeyValues.zipIdx.foldlM (commitKey db.oldVersion
      (fun tree key version => tree.incKeyVer pp key version) epoch)
      (db.versionTree, ([] : List H), []) with
    | none => rfl
    | some looped =>
      obtain ⟨versionTree, hashes, writeOps⟩ := looped
      simp only [Option.map_some, Option.bind_some]
      rw [if_neg (by decide)]
      cases versionTree.commit pp epoch (UInt64.ofNat hashes.length) with
      | none => rfl
      | some committed =>
        obtain ⟨⟨amtRoot, updates⟩, next⟩ := committed
        simp only [Option.bind_some]
        cases finishEpoch db.dbMerkle epoch (hashes ++ updates.map treeValueHash)
          db.onlyMerkleRoot <;> rfl

/-- A commit that would work comes to every error that is reached. -/
theorem commitWith_of_reached {result : (G × H) × LvmtDB G depths}
    (works : db.commit pp = some result) (readable : faults.epochRead = false)
    (reached : ReadErrorReached faults db db.uncommittedKeyValues.zipIdx ∨
      FlushErrorReached faults db.uncommittedKeyValues.zipIdx) :
    ∃ error after, commitWith (H := H) faults pp db = some (.error error, after) := by
  rw [commit] at works
  obtain ⟨epoch, current, works⟩ := Option.bind_eq_some_iff.mp works
  obtain ⟨⟨versionTree, hashes, writeOps⟩, looped, works⟩ := Option.bind_eq_some_iff.mp works
  obtain ⟨⟨⟨amtRoot, updates⟩, next⟩, committed, works⟩ := Option.bind_eq_some_iff.mp works
  obtain ⟨⟨dbMerkle, merkleRoot⟩, finished, -⟩ := Option.bind_eq_some_iff.mp works
  rw [commitWith, readable, current]
  by_cases failing : ReadErrorReached faults db db.uncommittedKeyValues.zipIdx
  · obtain ⟨error, last, ended⟩ := commitKeys_of_reached failing looped
    refine ⟨error, { db with versionTree := last.1, uncommittedKeyValues := [] }, ?_⟩
    simp only [Bool.false_eq_true, if_false, Option.bind_eq_bind, Option.bind_some, ended]
  · obtain ⟨flushFails, quietCommit, quiet⟩ := reached.resolve_left failing
    refine ⟨.flush, { db with
      versionTree := next
      uncommittedKeyValues := []
      dbKey := db.dbKey.writeBuffered writeOps
      dbMerkle := dbMerkle }, ?_⟩
    simp only [Bool.false_eq_true, if_false, Option.bind_eq_bind, Option.bind_some,
      commitKeys_of_quiet failing quiet, looped, Option.map_some, quietCommit, committed, finished,
      flushFails, if_true]

/-! ### Atomicity -/

/-- A commit that returns an error leaves the pending pairs, the version forest and the read cache
as they were, shows nothing of the batch, and can be repeated. -/
def AtomicOnError (H : Type) [H256 H] (pp : AMTParams G G₂ depths) (faults : StorageFaults)
    (db : LvmtDB G depths) : Prop :=
  ∀ error after, commitWith (H := H) faults pp db = some (.error error, after) →
    after.uncommittedKeyValues = db.uncommittedKeyValues ∧
      after.versionTree = db.versionTree ∧ after.cache = db.cache ∧
      (∀ key, (after.get key).map Prod.fst = (db.get key).map Prod.fst) ∧
      after.commit (H := H) pp = db.commit pp

/-- The epoch number cannot be read, or neither an error of a stored value nor one of the flush is
reached. -/
def Harmless (faults : StorageFaults) (db : LvmtDB G depths) : Prop :=
  faults.epochRead = true ∨
    ¬ (ReadErrorReached faults db db.uncommittedKeyValues.zipIdx ∨
      FlushErrorReached faults db.uncommittedKeyValues.zipIdx)

/-- A commit of pending pairs is atomic over a store with harmless faults, and over no other, as
far as a commit over a working store has a result. -/
theorem atomicOnError_iff (faults : StorageFaults) (pp : AMTParams G G₂ depths)
    (db : LvmtDB G depths) (pending : db.uncommittedKeyValues ≠ []) :
    (Harmless faults db → AtomicOnError H pp faults db) ∧
      ((∃ result, db.commit (H := H) pp = some result) → AtomicOnError H pp faults db →
        Harmless faults db) := by
  constructor
  · intro harmless error after failed
    rcases commitWith_error failed with ⟨-, rfl⟩ | ⟨-, reached⟩
    · exact ⟨rfl, rfl, rfl, fun _ => rfl, rfl⟩
    · rcases harmless with unreadable | clear
      · rw [commitWith, if_pos unreadable] at failed
        obtain ⟨-, rfl⟩ := Prod.mk.inj (Option.some.inj failed)
        exact ⟨rfl, rfl, rfl, fun _ => rfl, rfl⟩
      · exact absurd reached clear
  · rintro ⟨result, works⟩ atomic
    by_contra harmful
    obtain ⟨readable, reached⟩ := not_or.mp harmful
    rw [Bool.not_eq_true] at readable
    obtain ⟨error, after, failed⟩ := commitWith_of_reached works readable (not_not.mp reached)
    rcases commitWith_error failed with ⟨unreadable, -⟩ | ⟨gone, -⟩
    · exact absurd (unreadable.symm.trans readable) (by decide)
    · exact pending ((atomic error after failed).1.symm.trans gone)

/-! ### A pair that is lost -/

theorem isSome_new_empty :
    (new KeyValueDB.empty true none : Option (LvmtDB Fr 8)).isSome = true := rfl

/-- One pair was set in a new database. -/
def onePending : LvmtDB Fr 8 :=
  ((new KeyValueDB.empty true none).get isSome_new_empty).set ⟨.pair 7 0⟩ (.single 1)

/-- The read of the first stored value fails. -/
def failingRead : StorageFaults := { StorageFaults.working with keyRead := fun _ => true }

/-- The flush of the backend fails. -/
def failingFlush : StorageFaults := { StorageFaults.working with flush := true }

/-- The epoch number cannot be read. -/
def unreadEpoch : StorageFaults := { StorageFaults.working with epochRead := true }

/-- The commit that cannot read the epoch number fails and is atomic, the one that cannot read a
stored value is not, since that value is asked for. -/
theorem atomicOnError_iff_onePending :
    (∃ after, commitWith (H := Transcript) unreadEpoch AMTParams.eightBits onePending =
        some (.error .read, after)) ∧
      AtomicOnError Transcript AMTParams.eightBits unreadEpoch onePending ∧
      (AtomicOnError Transcript AMTParams.eightBits failingRead onePending →
        Harmless failingRead onePending) :=
  ⟨⟨onePending, rfl⟩,
    (atomicOnError_iff unreadEpoch AMTParams.eightBits onePending (by decide)).1 (.inl rfl),
    (atomicOnError_iff failingRead AMTParams.eightBits onePending (by decide)).2
      (Option.isSome_iff_exists.mp (by decide +kernel))⟩

theorem not_atomicOnError_onePending :
    ¬ AtomicOnError Transcript AMTParams.eightBits failingRead onePending ∧
      ¬ AtomicOnError Transcript AMTParams.eightBits failingFlush onePending := by
  constructor
  · intro atomic
    cases (atomic .read { onePending with uncommittedKeyValues := [] } rfl).1
  · intro atomic
    have fails : (commitWith (H := Transcript) failingFlush AMTParams.eightBits onePending).map
        (fun done => done.1.toOption.isNone) = some true := by decide +kernel
    obtain ⟨⟨outcome, after⟩, done, isError⟩ := Option.map_eq_some_iff.mp fails
    cases outcome with
    | ok roots => cases isError
    | error error =>
      rcases commitWith_error done with ⟨unreadable, -⟩ | ⟨gone, -⟩
      · cases unreadable
      · cases (atomic error after done).1.symm.trans gone

end LvmtDB

end AuthStorage.Lvmt
