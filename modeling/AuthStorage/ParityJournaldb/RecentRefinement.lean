/-
This file proves that an `OverlayRecentDB` and its column stand for a block
history: the transaction overlay for what is not journalled yet, the memory and
the journal on disk for the blocks that are not settled, and the nodes on disk for
what is kept for good. Reading, journalling and settling are the operations of the
history, and opening reads the same history back if its eras have no gap.
-/

import AuthStorage.ParityJournaldb.RecentMemory

namespace AuthStorage.ParityJournaldb

open AuthStorage.Lvmt (Bytes DBColumn DBOp)

/-! ### What a database stands for -/

/-- A journal entry as it is stored. -/
def storedEntry (content : H256 → DBValue) (entry : JournalEntry) : RecentValue :=
  ⟨entry.id, entry.insertions.map fun key => (key, content key), entry.deletions⟩

/-- The column holds the stored nodes, the journal and the latest era. -/
structure OnDisk (content : H256 → DBValue) (overlay : JournalOverlay) (stored : Set H256)
    (db : DBColumn) : Prop where
  node : ∀ key ∈ stored, db key.asBytes = some (content key)
  noNode : ∀ key ∉ stored, db key.asBytes = none
  entry : ∀ era index, index < 2 ^ 64 → db (DatabaseKey.encode ⟨era, index⟩) =
    (overlay.records era)[index]?.map fun entry => (storedEntry content entry).encode
  latest : db LATEST_ERA_KEY = overlay.latestEra.map encodeEra

/-- Everything but the pending nodes and the read cache, which only save reads. -/
structure Stands (hash : Bytes → H256) (content : H256 → DBValue) (used : Set H256)
    (jdb : OverlayRecentDB) (db : DBColumn) (history : BlockHistory H256 H256 UInt64) : Prop where
  known : KnowsNull hash jdb.transactionOverlay
  written : jdb.transactionOverlay.Represents content history.net
  uses : UsesOnly content used history.net
  memory : Holds hash content used jdb.journalOverlay history.blocks
  disk : OnDisk content jdb.journalOverlay history.stored db
  latest : jdb.journalOverlay.latestEra = history.latest
  bounded : history.Bounded
  kept : ∀ key ∈ history.stored, key ∈ used ∧ content key ≠ NULL_RLP

theorem laterEra_eq (latestEra : Option UInt64) (now : UInt64) :
    laterEra latestEra now = BlockHistory.laterOf latestEra now := by
  cases latestEra with
  | none => simp [laterEra, isLater, BlockHistory.laterOf]
  | some era => simp [laterEra, isLater, BlockHistory.laterOf]

theorem stands_new (hash : Bytes → H256) (content : H256 → DBValue) (used : Set H256) :
    Stands hash content used ⟨newMemoryDb hash, .new hash, ∅⟩ DBColumn.empty .empty where
  known := knowsNull_newMemoryDb hash
  written := MemoryDB.represents_fromNullNode hash NULL_RLP NULL_RLP
  uses _ nonzero := absurd rfl nonzero
  memory := holds_new hash content used
  disk := ⟨fun _ member => absurd member (Set.notMem_empty _), fun _ _ => rfl, fun _ _ _ => rfl, rfl⟩
  latest := rfl
  bounded _ nonempty := absurd rfl nonempty
  kept _ member := absurd member (Set.notMem_empty _)

variable {hash : Bytes → H256} {content : H256 → DBValue} {used : Set H256}
  {jdb : OverlayRecentDB} {db : DBColumn} {history : BlockHistory H256 H256 UInt64}

theorem length_records_le (overlay : JournalOverlay) (era : UInt64) :
    (overlay.records era).length ≤ blockCount overlay.journal := by
  rw [blockCount_eq overlay era]
  exact Nat.le_add_right _ _

/-- A write of a node in use keeps the block to nodes in use. -/
theorem UsesOnly.effect {net : H256 → Int} (uses : UsesOnly content used net) {op : HashOp}
    (addressed : op.Addressed hash content)
    (inUse : op.key hash ∈ used ∨ op.key hash = hash NULL_RLP) :
    UsesOnly content used (op.effect hash net) := by
  intro key nonzero
  have member : key ∈ used := by
    by_cases zero : net key = 0
    · rw [HashOp.effect] at nonzero
      split at nonzero
      · exact absurd zero nonzero
      · next proper =>
        by_cases same : key = op.key hash
        · exact same ▸ inUse.resolve_right proper
        · rw [Function.update_of_ne same] at nonzero
          exact absurd zero nonzero
    · exact (uses key zero).1
  refine ⟨member, fun positive => ?_⟩
  by_cases more : net key < op.effect hash net key
  · obtain ⟨same, proper, unit⟩ := HashOp.of_lt_effect more
    intro isNull
    refine proper ?_
    rw [same, ← addressed.named unit, ← same, isNull]
  · have before : 0 < net key := lt_of_lt_of_le positive (not_lt.mp more)
    exact (uses key (ne_of_gt before)).2 before

namespace Stands

/-! ### Writing -/

theorem write (keyed : Keyed hash content used) (stands : Stands hash content used jdb db history)
    {op : HashOp} (addressed : op.Addressed hash content)
    (inUse : op.key hash ∈ used ∨ op.key hash = hash NULL_RLP) {limit : Nat}
    (within : Within history.net limit) (small : limit < 2 ^ 31 - 1) :
    Stands hash content used (jdb.write hash op) db
      { history with net := op.effect hash history.net } where
  known := (stands.written.apply stands.known keyed.null addressed within small).2
  written := (stands.written.apply stands.known keyed.null addressed within small).1
  uses := stands.uses.effect addressed inUse
  memory := stands.memory
  disk := stands.disk
  latest := stands.latest
  bounded := stands.bounded
  kept := stands.kept

/-! ### Journalling -/

theorem writes_drainedValue (stands : Stands hash content used jdb db history)
    (walk : Walk H256 (DBValue × Int)) (id : H256) :
    Holds.Writes content (jdb.drainedValue walk id) ⟨id, history.net⟩ := by
  have listed : (jdb.drainedValue walk id).inserts =
      (insertedKeys (jdb.transactionOverlay.drain walk).1).map fun key => (key, content key) :=
    insertions_eq walk stands.written
  have keys : (jdb.drainedValue walk id).inserts.map Prod.fst =
      insertedKeys (jdb.transactionOverlay.drain walk).1 := by
    rw [listed, List.map_map]
    exact List.map_id _
  refine ⟨rfl, ?_, ?_, ?_, ?_⟩
  · rw [keys]
    exact nodup_insertedKeys walk _
  · intro key
    rw [keys]
    exact mem_insertedKeys walk stands.written
  · rw [keys, listed]
  · exact fun key => mem_removedKeys walk stands.written

theorem journalUnder (keyed : Keyed hash content used)
    (stands : Stands hash content used jdb db history) (walk : Walk H256 (DBValue × Int))
    (now : UInt64) (id : H256) (bound : blockCount jdb.journalOverlay.journal + 1 < 2 ^ 31) :
    Stands hash content used (jdb.journalUnder walk now id).1
        (db.writeBuffered (jdb.journalUnder walk now id).2.1) (history.journal now id) ∧
      blockCount (jdb.journalUnder walk now id).1.journalOverlay.journal =
        blockCount jdb.journalOverlay.journal + 1 := by
  have cleared : Holds hash content used { jdb.journalOverlay with pendingOverlay := ∅ }
      history.blocks := stands.memory.congr rfl rfl rfl
  have recorded := cleared.record keyed now (stands.writes_drainedValue walk id)
    stands.uses bound
  have memory : Holds hash content used (jdb.journalUnder walk now id).1.journalOverlay
      (history.journal now id).blocks := recorded.congr rfl rfl rfl
  have small : (jdb.journalOverlay.records now).length < 2 ^ 64 := by
    have few := length_records_le jdb.journalOverlay now
    omega
  have journal : (jdb.journalUnder walk now id).1.journalOverlay.journal =
      jdb.journalOverlay.journal.insert now
        (jdb.journalOverlay.records now ++ [(jdb.drainedValue walk id).entry]) :=
    journal_record { jdb.journalOverlay with pendingOverlay := ∅ } now _
  have entries : ∀ era, (jdb.journalUnder walk now id).1.journalOverlay.records era =
      if era = now then jdb.journalOverlay.records now ++ [(jdb.drainedValue walk id).entry]
      else jdb.journalOverlay.records era :=
    fun era => records_record { jdb.journalOverlay with pendingOverlay := ∅ } now era _
  have value : storedEntry content (jdb.drainedValue walk id).entry = jdb.drainedValue walk id := by
    rw [storedEntry, RecentValue.entry, ← (stands.writes_drainedValue walk id).values]
  have latest : (jdb.journalUnder walk now id).1.journalOverlay.latestEra =
      (history.journal now id).latest := by
    refine (laterEra_eq jdb.journalOverlay.latestEra now).trans ?_
    rw [stands.latest]
    rfl
  refine ⟨⟨stands.known.clear, MemoryDB.represents_clear _, fun key nonzero =>
    absurd rfl nonzero, memory, ⟨?_, ?_, ?_, ?_⟩, latest, stands.bounded.journal now id,
    stands.kept⟩, ?_⟩
  · intro key member
    exact (writeBuffered_putEntry_node db _ _ _ small key).trans (stands.disk.node key member)
  · intro key absent
    exact (writeBuffered_putEntry_node db _ _ _ small key).trans (stands.disk.noNode key absent)
  · intro era index indexSmall
    rw [entries]
    refine (writeBuffered_putEntry_encode db _ _ _ indexSmall).trans ?_
    dsimp only
    rw [stands.disk.entry era index indexSmall]
    by_cases here : era = now
    · subst here
      rw [if_pos rfl]
      rcases lt_trichotomy index (jdb.journalOverlay.records era).length with before | last | after
      · rw [if_neg fun both => absurd both.2 (ne_of_lt before), List.getElem?_append_left before]
      · rw [if_pos ⟨rfl, last⟩, last, List.getElem?_concat_length, Option.map_some, value]
      · rw [if_neg fun both => absurd both.2 (ne_of_gt after),
          List.getElem?_eq_none (le_of_lt after), List.getElem?_eq_none (by
            rw [List.length_append, List.length_singleton]
            exact after)]
    · rw [if_neg here, if_neg fun both => here both.1]
  · exact writeBuffered_putEntry_latest db _ _ _ small stands.disk.latest
  · have before := blockCount_eq jdb.journalOverlay now
    rw [journal, blockCount, FiniteMap.total_insert, List.length_append, List.length_singleton,
      before, blockCount, Nat.add_right_comm]

/-! ### Settling -/

/-- The memory after settling. -/
theorem memory_markCanonical (keyed : Keyed hash content used)
    (stands : Stands hash content used jdb db history) (endEra : UInt64) (canonId : H256)
    (bound : blockCount jdb.journalOverlay.journal < 2 ^ 31) :
    Holds hash content used (jdb.markCanonical endEra canonId).1.journalOverlay
      (Function.update history.blocks endEra []) := by
  rw [(jdb.markCanonical_eq endEra canonId).1]
  have moved : Holds hash content used { jdb.journalOverlay with
      pendingOverlay := OverlayRecentDB.pendingNodes jdb.journalOverlay
        (jdb.journalOverlay.records endEra) canonId } history.blocks :=
    stands.memory.congr rfl rfl rfl
  refine moved.releaseEra keyed endEra bound rfl ?_ rfl
  rw [OverlayRecentDB.settleRecords, OverlayRecentDB.releaseRecords, journal_foldl_release]

/-- A node in use is still in memory if a block of another era inserts it. -/
theorem contains_markCanonical (keyed : Keyed hash content used)
    (stands : Stands hash content used jdb db history) (endEra : UInt64) (canonId : H256)
    (bound : blockCount jdb.journalOverlay.journal < 2 ^ 31) {key : H256} (member : key ∈ used) :
    (OverlayRecentDB.releaseRecords jdb.journalOverlay (jdb.journalOverlay.records endEra)
        canonId).backingOverlay.contains (toShortKey key) = true ↔
      (history.release endEra).Pending key := by
  have after := stands.memory_markCanonical keyed endEra canonId bound
  have contained := after.counts.contains keyed member
  have nodes : (jdb.markCanonical endEra canonId).1.journalOverlay.backingOverlay =
      (OverlayRecentDB.releaseRecords jdb.journalOverlay (jdb.journalOverlay.records endEra)
        canonId).backingOverlay := by
    rw [(jdb.markCanonical_eq endEra canonId).1, OverlayRecentDB.settleRecords]
  rw [← nodes, contained, decide_eq_true_iff]
  exact after.mem_journalled keyed member

/-- The nodes that settling takes off the disk. -/
theorem mem_deleted (keyed : Keyed hash content used)
    (stands : Stands hash content used jdb db history) (endEra : UInt64) (canonId : H256)
    (bound : blockCount jdb.journalOverlay.journal < 2 ^ 31) {key : H256} :
    key ∈ (OverlayRecentDB.canonDeletions (jdb.journalOverlay.records endEra) canonId).filter
        (fun key => !(OverlayRecentDB.releaseRecords jdb.journalOverlay
          (jdb.journalOverlay.records endEra) canonId).backingOverlay.contains (toShortKey key)) ↔
      (∃ block, (history.chosen endEra canonId).getLast? = some block ∧ block.Removes key) ∧
        ¬ (history.release endEra).Pending key := by
  rw [List.mem_filter, stands.memory.mem_canonDeletions]
  refine and_congr_right ?_
  rintro ⟨block, last, removes⟩
  have inside := (List.mem_filter.mp (List.mem_of_getLast? last)).1
  have member := (stands.memory.writes endEra block inside key (ne_of_lt removes)).1
  rw [← stands.contains_markCanonical keyed endEra canonId bound member, Bool.not_eq_true',
    Bool.not_eq_true]

/-- What the batch of a settled era writes to the nodes. -/
theorem node_markCanonical (keyed : Keyed hash content used)
    (stands : Stands hash content used jdb db history) (endEra : UInt64) (canonId : H256)
    (bound : blockCount jdb.journalOverlay.journal < 2 ^ 31) (key : H256) :
    (key ∈ (history.settle endEra canonId).stored →
      db.writeBuffered (jdb.markCanonical endEra canonId).2.1 key.asBytes = some (content key)) ∧
    (key ∉ (history.settle endEra canonId).stored →
      db.writeBuffered (jdb.markCanonical endEra canonId).2.1 key.asBytes = none) := by
  classical
  have few := length_records_le jdb.journalOverlay endEra
  have entriesGone : db.writeBuffered (deleteEntries endEra (jdb.journalOverlay.records endEra).length)
      key.asBytes = db key.asBytes :=
    writeBuffered_deleteEntries_of_ne db endEra fun index small =>
      DatabaseKey.encode_ne_asBytes (lt_of_lt_of_le small (by omega)) key
  have result : db.writeBuffered (jdb.markCanonical endEra canonId).2.1 key.asBytes =
      if (∃ block, (history.chosen endEra canonId).getLast? = some block ∧ block.Removes key) ∧
        ¬ (history.release endEra).Pending key then none
      else if ∃ block ∈ history.chosen endEra canonId, block.Inserts key then some (content key)
      else db key.asBytes := by
    rw [(jdb.markCanonical_eq endEra canonId).2, OverlayRecentDB.settleRecords, writeBuffered_append,
      writeBuffered_append, writeBuffered_deleteNodes, stands.memory.canonInsertions_eq keyed,
      writeBuffered_putNodes, entriesGone]
    refine if_congr (stands.mem_deleted keyed endEra canonId bound) rfl (if_congr ?_ rfl rfl)
    exact stands.memory.mem_canonInsertions endEra canonId key
  rw [result]
  constructor
  · rintro ⟨entered, stays⟩
    rw [if_neg stays]
    split
    · rfl
    · next notInserted => exact stands.disk.node key (entered.resolve_right notInserted)
  · intro absent
    split
    · rfl
    · next stays =>
      have fresh : ¬ (key ∈ history.stored ∨
          ∃ block ∈ history.chosen endEra canonId, block.Inserts key) :=
        fun entered => absent ⟨entered, stays⟩
      rw [if_neg (not_or.mp fresh).2]
      exact stands.disk.noNode key (not_or.mp fresh).1

theorem markCanonical (keyed : Keyed hash content used)
    (stands : Stands hash content used jdb db history) (endEra : UInt64) (canonId : H256)
    (bound : blockCount jdb.journalOverlay.journal < 2 ^ 31) :
    Stands hash content used (jdb.markCanonical endEra canonId).1
        (db.writeBuffered (jdb.markCanonical endEra canonId).2.1) (history.settle endEra canonId) ∧
      blockCount (jdb.markCanonical endEra canonId).1.journalOverlay.journal ≤
        blockCount jdb.journalOverlay.journal := by
  have few := length_records_le jdb.journalOverlay endEra
  have journal : (jdb.markCanonical endEra canonId).1.journalOverlay.journal =
      jdb.journalOverlay.journal.erase endEra := by
    rw [(jdb.markCanonical_eq endEra canonId).1, OverlayRecentDB.settleRecords,
      OverlayRecentDB.releaseRecords, journal_foldl_release]
  have entries : ∀ era, (jdb.markCanonical endEra canonId).1.journalOverlay.records era =
      if era = endEra then [] else jdb.journalOverlay.records era := by
    intro era
    rw [JournalOverlay.records, journal, FiniteMap.lookup_erase_eq]
    split
    · rfl
    · rfl
  have latest : (jdb.markCanonical endEra canonId).1.journalOverlay.latestEra =
      jdb.journalOverlay.latestEra := by
    rw [(jdb.markCanonical_eq endEra canonId).1, OverlayRecentDB.settleRecords,
      OverlayRecentDB.releaseRecords, latestEra_foldl_release]
  have overlay : (jdb.markCanonical endEra canonId).1.transactionOverlay = jdb.transactionOverlay := by
    rw [(jdb.markCanonical_eq endEra canonId).1]
  -- Outside the nodes, only the entries of the settled era are deleted.
  have elsewhere : ∀ name : Bytes, (∀ node : H256, node.asBytes ≠ name) →
      db.writeBuffered (jdb.markCanonical endEra canonId).2.1 name =
        db.writeBuffered (deleteEntries endEra (jdb.journalOverlay.records endEra).length) name := by
    intro name other
    rw [(jdb.markCanonical_eq endEra canonId).2, OverlayRecentDB.settleRecords, writeBuffered_append,
      writeBuffered_append, writeBuffered_deleteNodes_of_ne _ _ other,
      writeBuffered_putNodes_of_ne _ _ other]
  refine ⟨⟨overlay ▸ stands.known, overlay ▸ stands.written, stands.uses,
    stands.memory_markCanonical keyed endEra canonId bound, ⟨?_, ?_, ?_, ?_⟩,
    latest.trans stands.latest, stands.bounded.settle endEra canonId, ?_⟩, ?_⟩
  · exact fun key => (stands.node_markCanonical keyed endEra canonId bound key).1
  · exact fun key => (stands.node_markCanonical keyed endEra canonId bound key).2
  · intro era index small
    rw [elsewhere _ fun node same => DatabaseKey.encode_ne_asBytes small node same.symm,
      writeBuffered_deleteEntries_encode, entries, stands.disk.entry era index small]
    dsimp only
    by_cases same : era = endEra
    · subst same
      rw [if_pos rfl, List.getElem?_nil, Option.map_none]
      split
      · rfl
      · next outside =>
        rw [List.getElem?_eq_none (not_lt.mp fun inside => outside ⟨rfl, inside⟩), Option.map_none]
    · rw [if_neg same, if_neg fun both => same both.1]
  · rw [elsewhere _ asBytes_ne_latestEraKey, latest, ← stands.disk.latest]
    exact writeBuffered_deleteEntries_of_ne db endEra fun index small =>
      DatabaseKey.encode_ne_latestEraKey (lt_of_lt_of_le small (by omega))
  · rintro key ⟨old | ⟨block, member, inserts⟩, -⟩
    · exact stands.kept key old
    · have both := stands.memory.writes endEra block (List.mem_filter.mp member).1 key (ne_of_gt inserts)
      exact ⟨both.1, both.2 inserts⟩
  · rw [journal, blockCount_eq jdb.journalOverlay endEra]
    exact Nat.le_add_left _ _

end Stands

end AuthStorage.ParityJournaldb
