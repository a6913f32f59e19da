/-
This file is about a database that is closed after a commit and a flush of the
root, and opened again over its store. Both stand for the same ledger from then
on, so nothing that is done afterwards can tell them apart.
-/

import AuthStorage.Lvmt.Ledger

namespace AuthStorage.Lvmt

variable {G G₂ H : Type} {depths : Nat} [Curve G] [H256 H]

/-- After a commit only the root tree can be dirty. -/
theorem Ledger.commit_clean {config : LvmtConfig G G₂ depths} {ledger next : Ledger G depths}
    {roots : G × H} (onlyProper : ledger.forest.OnlyProper)
    (done : ledger.commit config = some (roots, next)) :
    ∀ name, name ≠ .root → (next.forest name).dirty = false := by
  obtain ⟨epoch, forest, writeOps, updates, after, dbMerkle, hashes, -, batch, committed, -, rfl⟩ :=
    Ledger.commit_eq_some done
  obtain ⟨stored, -, -, -, stillProper⟩ := LvmtDB.commitKey_invariant (fun _ => Forest.OnlyProper)
    (fun _ _ _ _ _ _ _ onlyProper _ _ incremented => onlyProper.incKeyVer incremented)
    onlyProper batch
  exact (Forest.commit_reported stillProper committed).2.clean

theorem Ledger.commit_uncommitted {config : LvmtConfig G G₂ depths}
    {ledger next : Ledger G depths} {roots : G × H}
    (done : ledger.commit config = some (roots, next)) : next.uncommittedKeyValues = [] := by
  obtain ⟨epoch, forest, writeOps, updates, after, dbMerkle, hashes, -, -, -, -, rfl⟩ :=
    Ledger.commit_eq_some done
  rfl

namespace LvmtDB

/-- After a flush the store holds all of a ledger in which only the root tree is dirty. -/
theorem reopened_represents {config : LvmtConfig G G₂ depths} {db flushed : LvmtDB G depths}
    {ledger : Ledger G depths} (represents : db.Represents config ledger)
    (clean : ∀ name, name ≠ .root → (ledger.forest name).dirty = false)
    (committed : ledger.uncommittedKeyValues = []) (isFlushed : db.flushRoot = some flushed) :
    flushed.Represents config ledger.flushRoot ∧
      ∃ reopened, new flushed.backend config.onlyMerkleRoot config.shardInfo = some reopened ∧
        reopened.Represents config ledger.flushRoot := by
  obtain ⟨versionTree, treeFlushed, stands, sameShard, stored, reopening⟩ :=
    VersionTree.flushAll_refines config.pp.depths_le represents.versionTree
      (by rw [represents.shardInfo]; exact represents.stored)
  obtain ⟨reopened, isReopened, reopenedStands, reopenedDb, reopenedShard⟩ := reopening clean
  rw [represents.shardInfo] at sameShard stored isReopened reopenedShard
  rw [LvmtDB.flushRoot, treeFlushed] at isFlushed
  obtain rfl := Option.some.inj isFlushed
  refine ⟨{ represents with versionTree := stands, stored := stored, shardInfo := sameShard },
    LvmtDB.mk reopened db.dbKey db.dbMerkle ∅ [] config.onlyMerkleRoot, ?_, reopenedStands, ?_,
    reopenedShard, represents.dbKey, represents.dbMerkle, committed.symm, rfl,
    fun key value dirty found => by simp at found⟩
  · show (VersionTree.new versionTree.db config.shardInfo).bind _ = _
    rw [isReopened]
    rfl
  · show VersionTree.Stored reopened.db _ _
    rw [reopenedDb]
    exact stored

/-- A database that is opened again after a commit and a flush returns what the running one
returns, whatever is done next. -/
theorem reopen_invisible (config : LvmtConfig G G₂ depths) {ops : List LvmtOp}
    {opened committed flushed : LvmtDB G depths} {outputs : List (LvmtOutput G H)}
    (isOpened : new KeyValueDB.empty config.onlyMerkleRoot config.shardInfo = some opened)
    (done : PartialRun.run (LvmtDB.step config.pp) opened (ops ++ [.commit]) =
      some (committed, outputs))
    (isFlushed : committed.flushRoot = some flushed) :
    ∃ reopened, new flushed.backend config.onlyMerkleRoot config.shardInfo = some reopened ∧
      ∀ continuation : List LvmtOp,
        (PartialRun.run (LvmtDB.step (H := H) config.pp) reopened continuation).map Prod.snd =
          (PartialRun.run (LvmtDB.step config.pp) flushed continuation).map Prod.snd := by
  obtain ⟨before, earlier, roots, isBefore, isCommit⟩ := run_commit_eq_some done
  obtain ⟨ledger, -, stands⟩ := (represents_of_new isOpened).of_run isBefore
  have committing := stands.commit (H := H)
  rw [isCommit] at committing
  obtain ⟨⟨roots', next⟩, ledgerCommit, -, nextStands⟩ := committing.of_some_left
  obtain ⟨original, reopened, isReopened, reopenedStands⟩ := reopened_represents nextStands
    (Ledger.commit_clean stands.onlyProper ledgerCommit) (Ledger.commit_uncommitted ledgerCommit)
    isFlushed
  let standsFor := fun db ledger => LvmtDB.Represents db config ledger
  refine ⟨reopened, isReopened, fun continuation => ?_⟩
  calc
    _ = (PartialRun.run (Ledger.step config) next.flushRoot continuation).map Prod.snd :=
      Option.map_snd_eq_of_rel standsFor (reopenedStands.run continuation)
    _ = _ := (Option.map_snd_eq_of_rel standsFor (original.run continuation)).symm

/-! ### A run -/

/-- Full proof mode, eight bits for each level. -/
def fullConfig : LvmtConfig Fr Fr 8 := ⟨AMTParams.eightBits, false, some NodeIndex.root⟩

/-- Two keys, one of them set again, and a proof. -/
def shortRun : List LvmtOp :=
  [.set ⟨.pair 7 0⟩ (.single 1), .set ⟨.pair 7 1⟩ (.single 2),
    .commit, .prove ⟨.pair 7 1⟩, .set ⟨.pair 7 0⟩ (.single 3)]

theorem reopen_invisible_shortRun :
    ∃ (flushed reopened : LvmtDB Fr 8),
      new flushed.backend fullConfig.onlyMerkleRoot fullConfig.shardInfo = some reopened ∧
      ∀ continuation : List LvmtOp,
        (PartialRun.run (LvmtDB.step (H := Transcript) fullConfig.pp) reopened
          continuation).map Prod.snd =
          (PartialRun.run (LvmtDB.step fullConfig.pp) flushed continuation).map Prod.snd := by
  obtain ⟨⟨opened, ⟨committed, outputs⟩, flushed⟩, done⟩ : ∃ result,
      ((new KeyValueDB.empty fullConfig.onlyMerkleRoot fullConfig.shardInfo).bind fun opened =>
        (PartialRun.run (LvmtDB.step (H := Transcript) fullConfig.pp) opened
          (shortRun ++ [.commit])).bind fun ran =>
            ran.1.flushRoot.map fun flushed => (opened, ran, flushed)) = some result :=
    Option.isSome_iff_exists.mp (by decide +kernel)
  obtain ⟨opened, isOpened, done⟩ := Option.bind_eq_some_iff.mp done
  obtain ⟨ran, isRan, done⟩ := Option.bind_eq_some_iff.mp done
  obtain ⟨flushed, isFlushed, same⟩ := Option.map_eq_some_iff.mp done
  simp only [Prod.mk.injEq] at same
  obtain ⟨rfl, rfl, rfl⟩ := same
  exact ⟨_, reopen_invisible fullConfig isOpened isRan isFlushed⟩

end LvmtDB

end AuthStorage.Lvmt
