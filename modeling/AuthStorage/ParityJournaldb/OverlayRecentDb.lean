/-
This file models `overlayrecentdb.rs`. Nodes inserted in the history period are
kept in memory, counted under the first twelve bytes of their hash, and every
block is recorded in a journal, in memory and on disk. When an era is settled, the
canonical block's insertions go to disk, all blocks of the era are released from
memory, and the canonical block's removals are deleted from disk unless memory
still holds the node. Opening reads the journal back from the latest era down.
-/

import AuthStorage.ParityJournaldb.Batch
import AuthStorage.ParityJournaldb.Traits

namespace AuthStorage.ParityJournaldb

open AuthStorage.Lvmt (Bytes DBColumn DBOp)

/-! ### Stored journal entries -/

/-- The journal entry of this database, which holds the inserted values. -/
structure RecentValue where
  id : H256
  inserts : List (H256 × DBValue)
  deletes : List H256

namespace RecentValue

/-- An inserted node: its hash and its value. -/
def encodeInsert (node : H256 × DBValue) : Bytes := Rlp.list [node.1.encode, Rlp.string node.2]

/-- The hash and the value of an inserted node. -/
def decodeInsert (input : Bytes) : Option (H256 × DBValue) :=
  (Rlp.items input).bind fun items =>
    (items[0]?.bind H256.decode).bind fun key => (items[1]?.bind Rlp.data).map fun value =>
      (key, value)

/-- The list of the block's hash, the inserted nodes and the deleted hashes. -/
def encode (value : RecentValue) : Bytes :=
  Rlp.list [value.id.encode, Rlp.list (value.inserts.map encodeInsert),
    Rlp.list (value.deletes.map H256.encode)]

/-- The fields by their positions; items after the third are not looked at. -/
def decode (input : Bytes) : Option RecentValue :=
  (Rlp.items input).bind fun items =>
    (items[0]?.bind H256.decode).bind fun id =>
      (items[1]?.bind (Rlp.readList decodeInsert)).bind fun inserts =>
        (items[2]?.bind (Rlp.readList H256.decode)).map fun deletes => ⟨id, inserts, deletes⟩

theorem decodeInsert_encodeInsert (node : H256 × DBValue) :
    decodeInsert (encodeInsert node) = some node := by
  have fields : Rlp.items (encodeInsert node) = some [node.1.encode, Rlp.string node.2] := by
    refine Rlp.items_list fun item member => ?_
    simp only [List.mem_cons, List.not_mem_nil, or_false] at member
    rcases member with rfl | rfl <;> exact Rlp.isItem_string _
  rw [decodeInsert, fields]
  simp [H256.decode_encode, Rlp.data_string]

theorem decode_encode (value : RecentValue) : decode value.encode = some value := by
  have fields : Rlp.items value.encode = some [value.id.encode,
      Rlp.list (value.inserts.map encodeInsert), Rlp.list (value.deletes.map H256.encode)] := by
    refine Rlp.items_list fun item member => ?_
    simp only [List.mem_cons, List.not_mem_nil, or_false] at member
    rcases member with rfl | rfl | rfl
    · exact Rlp.isItem_string _
    · exact Rlp.isItem_list _
    · exact Rlp.isItem_list _
  have inserts : Rlp.readList decodeInsert (Rlp.list (value.inserts.map encodeInsert)) =
      some value.inserts :=
    Rlp.readList_list (fun node _ => Rlp.isItem_list _) fun node _ => decodeInsert_encodeInsert node
  rw [decode, fields]
  simp [H256.decode_encode, inserts, H256.readList_encode]

end RecentValue

/-! ### The database -/

/-- What is kept in memory of a journalled block: its hash, and the hashes of the nodes it inserts
and deletes. -/
structure JournalEntry where
  id : H256
  insertions : List H256
  deletions : List H256

/-- The blocks of the history period. -/
structure JournalOverlay where
  /-- Nodes added in the history period. -/
  backingOverlay : MemoryDB H256 DBValue
  /-- Nodes on their way from `backingOverlay` to the disk. -/
  pendingOverlay : FiniteMap H256 DBValue
  journal : FiniteMap UInt64 (List JournalEntry)
  latestEra : Option UInt64
  earliestEra : Option UInt64
  cumulativeSize : UInt64

/-- Changes are collected in `transactionOverlay` until a block is journalled. -/
structure OverlayRecentDB where
  transactionOverlay : MemoryDB H256 DBValue
  journalOverlay : JournalOverlay
  readCache : FiniteMap H256 (Option DBValue)

/-- The first twelve bytes, filled up with zeros. -/
def toShortKey (key : H256) : H256 :=
  Vector.ofFn fun index => if index.val < DB_PREFIX_LEN then key[index] else 0

namespace JournalOverlay

/-- The overlay of a column without a journal. -/
def new (hash : Bytes → H256) : JournalOverlay where
  backingOverlay := newMemoryDb hash
  pendingOverlay := ∅
  journal := ∅
  latestEra := none
  earliestEra := none
  cumulativeSize := 0

/-- Count one insertion; a node that is not there yet adds its size. -/
def emplace (overlay : JournalOverlay) (node : H256 × DBValue) : JournalOverlay :=
  { overlay with
    cumulativeSize :=
      if overlay.backingOverlay.contains (toShortKey node.1) then overlay.cumulativeSize
      else overlay.cumulativeSize + UInt64.ofNat node.2.length
    backingOverlay := overlay.backingOverlay.emplace (toShortKey node.1) node.2 }

/-- The journal entries of an era. -/
def records (overlay : JournalOverlay) (era : UInt64) : List JournalEntry :=
  (overlay.journal.lookup era).getD []

/-- One more block of an era. -/
def push (overlay : JournalOverlay) (era : UInt64) (entry : JournalEntry) : JournalOverlay :=
  { overlay with journal := overlay.journal.insert era (overlay.records era ++ [entry]) }

/-- Count the insertions of one block and enter it in the journal. -/
def record (overlay : JournalOverlay) (era : UInt64) (value : RecentValue) : JournalOverlay :=
  (value.inserts.foldl emplace overlay).push era
    ⟨value.id, value.inserts.map Prod.fst, value.deletes⟩

/-- Release one insertion; the last release of a node takes its size off. -/
def release (overlay : JournalOverlay) (key : H256) : JournalOverlay :=
  { overlay with
    backingOverlay := (overlay.backingOverlay.removeAndPurge (toShortKey key)).2
    cumulativeSize := match (overlay.backingOverlay.removeAndPurge (toShortKey key)).1 with
      | some value => overlay.cumulativeSize - UInt64.ofNat value.length
      | none => overlay.cumulativeSize }

theorem emplace_fields (overlay : JournalOverlay) (node : H256 × DBValue) :
    (overlay.emplace node).journal = overlay.journal ∧
      (overlay.emplace node).latestEra = overlay.latestEra ∧
      (overlay.emplace node).pendingOverlay = overlay.pendingOverlay := by
  rw [emplace]
  exact ⟨rfl, rfl, rfl⟩

theorem journal_release (overlay : JournalOverlay) (key : H256) :
    (overlay.release key).journal = overlay.journal := by
  rw [release]

theorem latestEra_release (overlay : JournalOverlay) (key : H256) :
    (overlay.release key).latestEra = overlay.latestEra := by
  rw [release]

theorem backingOverlay_release (overlay : JournalOverlay) (key : H256) :
    (overlay.release key).backingOverlay =
      (overlay.backingOverlay.removeAndPurge (toShortKey key)).2 := by
  rw [release]

end JournalOverlay

namespace OverlayRecentDB

/-! ### Opening -/

/-- The entries of one era, by index; also how many there were. Out of fuel is `none`, and so is
an entry that cannot be decoded. -/
def readEra (db : DBColumn) (era : UInt64) : Nat → Nat → JournalOverlay →
    Option (Nat × JournalOverlay)
  | 0, _, _ => none
  | fuel + 1, index, overlay =>
    match db (DatabaseKey.encode ⟨era, index⟩) with
    | none => some (index, overlay)
    | some rlpData =>
      (RecentValue.decode rlpData).bind fun value =>
        readEra db era fuel (index + 1)
          { overlay.record era value with earliestEra := some era }

/-- The eras from `era` down, until one has no entries. -/
def readEras (db : DBColumn) (fuel : Nat) : Nat → JournalOverlay → Option JournalOverlay
  | 0, overlay => (readEra db 0 fuel 0 overlay).map Prod.snd
  | era + 1, overlay =>
    (readEra db (UInt64.ofNat (era + 1)) fuel 0 overlay).bind fun found =>
      if found.1 = 0 then some found.2 else readEras db fuel era found.2

/-- The journal is read again, from the latest era downwards. There is none when no block was ever
journalled. -/
def readOverlay (hash : Bytes → H256) (fuel : Nat) (db : DBColumn) : Option JournalOverlay :=
  match db LATEST_ERA_KEY with
  | none => some (.new hash)
  | some val =>
    (decodeEra val).bind fun era =>
      readEras db fuel era.toNat { JournalOverlay.new hash with latestEra := some era }

/-- Open a database over a column. -/
def new (hash : Bytes → H256) (fuel : Nat) (db : DBColumn) : Option OverlayRecentDB :=
  (readOverlay hash fuel db).map fun overlay => ⟨newMemoryDb hash, overlay, ∅⟩

/-! ### `HashDB` -/

/-- A read remembers what it found on disk. -/
def get (jdb : OverlayRecentDB) (db : DBColumn) (key : H256) : Option DBValue × OverlayRecentDB :=
  match (jdb.transactionOverlay.raw key).filter fun entry => decide (0 < entry.2) with
  | some (value, _) => (some value, jdb)
  | none =>
    match (jdb.journalOverlay.backingOverlay.get (toShortKey key)).or
        (jdb.journalOverlay.pendingOverlay.lookup (toShortKey key)) with
    | some value => (some value, jdb)
    | none =>
      match jdb.readCache.lookup key with
      | some answer => (answer, jdb)
      | none =>
        (db key.asBytes, { jdb with readCache := jdb.readCache.insert key (db key.asBytes) })

/-- A key is there if a read finds it. -/
def contains (jdb : OverlayRecentDB) (db : DBColumn) (key : H256) : Bool :=
  (jdb.get db key).1.isSome

/-- `HashDB::insert`, `emplace` and `remove` change the transaction overlay only. -/
def write (hash : Bytes → H256) (jdb : OverlayRecentDB) (op : HashOp) : OverlayRecentDB :=
  { jdb with transactionOverlay := jdb.transactionOverlay.apply hash op }

/-! ### `JournalDB` -/

/-- The era is earlier than the recorded one, if there is one. -/
def isEarlier (now : UInt64) : Option UInt64 → Bool
  | none => true
  | some era => decide (now < era)

/-- The block of the transaction overlay, as it is journalled. -/
def drainedValue (walk : Walk H256 (DBValue × Int)) (jdb : OverlayRecentDB) (id : H256) :
    RecentValue :=
  let tx := (jdb.transactionOverlay.drain walk).1
  ⟨id, insertions tx, removedKeys tx⟩

/-- The database, the batch and the number of operations. -/
def journalUnder (walk : Walk H256 (DBValue × Int)) (jdb : OverlayRecentDB) (now : UInt64)
    (id : H256) : OverlayRecentDB × List DBOp × UInt32 :=
  let value := jdb.drainedValue walk id
  let before := { jdb.journalOverlay with pendingOverlay := ∅ }
  let index := (before.records now).length
  let overlay := before.record now value
  ({ jdb with
      transactionOverlay := (jdb.transactionOverlay.drain walk).2
      journalOverlay :=
        { overlay with
          latestEra := laterEra before.latestEra now
          earliestEra := if isEarlier now before.earliestEra then some now
            else overlay.earliestEra } },
    putEntry ⟨now, index⟩ value.encode before.latestEra now,
    UInt32.ofNat (value.inserts.length + value.deletes.length))

/-- The insertions of the entries named `canonId` that memory still holds. -/
def canonInsertions (overlay : JournalOverlay) (records : List JournalEntry) (canonId : H256) :
    List (H256 × DBValue) :=
  (records.filter fun entry => entry.id = canonId).flatMap fun entry =>
    entry.insertions.filterMap fun key =>
      (overlay.backingOverlay.raw (toShortKey key)).bind fun found =>
        if 0 < found.2 then some (key, found.1) else none

/-- The deletions of the last entry named `canonId`. -/
def canonDeletions (records : List JournalEntry) (canonId : H256) : List H256 :=
  ((records.filter fun entry => entry.id = canonId).getLast?.map JournalEntry.deletions).getD []

/-- The pending nodes once the canonical insertions are on their way to disk. -/
def pendingNodes (overlay : JournalOverlay) (records : List JournalEntry) (canonId : H256) :
    FiniteMap H256 DBValue :=
  (canonInsertions overlay records canonId).foldl
    (fun pending node => pending.insert (toShortKey node.1) node.2) overlay.pendingOverlay

/-- The canonical insertions become pending, and then all insertions are released. -/
def releaseRecords (overlay : JournalOverlay) (records : List JournalEntry) (canonId : H256) :
    JournalOverlay :=
  (records.flatMap JournalEntry.insertions).foldl JournalOverlay.release
    { overlay with pendingOverlay := pendingNodes overlay records canonId }

/-- The overlay after an era with entries has been settled, and the batch. -/
def settleRecords (overlay : JournalOverlay) (records : List JournalEntry) (endEra : UInt64)
    (canonId : H256) : JournalOverlay × List DBOp :=
  let released := releaseRecords overlay records canonId
  let deleted := (canonDeletions records canonId).filter fun key =>
    !released.backingOverlay.contains (toShortKey key)
  (released, deleteEntries endEra records.length ++
    putNodes (canonInsertions overlay records canonId) ++ deleteNodes deleted)

/-- The block `canonId` of the era is settled: its insertions and deletions go to the batch, and the
other blocks of the era are forgotten. The count is that of the changed nodes. -/
def markCanonical (jdb : OverlayRecentDB) (endEra : UInt64) (canonId : H256) :
    OverlayRecentDB × List DBOp × UInt32 :=
  let overlay := jdb.journalOverlay
  let settled := match overlay.journal.lookup endEra with
    | some records => settleRecords overlay records endEra canonId
    | none => (overlay, [])
  let ops := match overlay.journal.lookup endEra with
    | some records =>
      (canonInsertions overlay records canonId).length + (canonDeletions records canonId).length
    | none => 0
  let journal := settled.1.journal.erase endEra
  ({ jdb with
      journalOverlay :=
        { settled.1 with
          journal := journal
          earliestEra := if journal.entries.isEmpty then settled.1.earliestEra
            else some (endEra + 1) }
      readCache := ∅ },
    settled.2, UInt32.ofNat ops)

/-- An era without entries is settled like an empty list of entries. -/
theorem markCanonical_eq (jdb : OverlayRecentDB) (endEra : UInt64) (canonId : H256) :
    let settled := settleRecords jdb.journalOverlay (jdb.journalOverlay.records endEra) endEra canonId
    let journal := settled.1.journal.erase endEra
    (jdb.markCanonical endEra canonId).1 =
        { jdb with
          journalOverlay :=
            { settled.1 with
              journal := journal
              earliestEra := if journal.entries.isEmpty then settled.1.earliestEra
                else some (endEra + 1) }
          readCache := ∅ } ∧
      (jdb.markCanonical endEra canonId).2.1 = settled.2 := by
  rw [markCanonical, JournalOverlay.records]
  cases jdb.journalOverlay.journal.lookup endEra with
  | none => exact ⟨rfl, rfl⟩
  | some records => exact ⟨rfl, rfl⟩

/-- What was written to the disk is no longer pending. -/
def flush (jdb : OverlayRecentDB) : OverlayRecentDB :=
  { jdb with journalOverlay := { jdb.journalOverlay with pendingOverlay := ∅ } }

/-- Mark eras canonical one after the other, in one batch. -/
def markAll (state : OverlayRecentDB × List DBOp) (canonical : List (UInt64 × H256)) :
    OverlayRecentDB × List DBOp :=
  canonical.foldl (fun state mark =>
    let marked := state.1.markCanonical mark.1 mark.2
    (marked.1, state.2 ++ marked.2.1)) state

/-- Journal a block if there is one, mark eras canonical, write the batch and flush: what
`commit_batch` and the commits of the `MptDB` do. -/
def commit (walk : Walk H256 (DBValue × Int)) (jdb : OverlayRecentDB) (db : DBColumn)
    (block : Option (UInt64 × H256)) (canonical : List (UInt64 × H256)) :
    OverlayRecentDB × DBColumn :=
  let journalled := match block with
    | some (now, id) =>
      let under := jdb.journalUnder walk now id
      (under.1, under.2.1)
    | none => (jdb, [])
  let marked := markAll journalled canonical
  (marked.1.flush, db.writeBuffered marked.2)

/-- Why `inject` stops: a node was removed more often than added, or, with debug assertions only,
a removed node is not stored. -/
inductive InjectError
  | invalidState
  | negativelyReferenced (key : H256)

/-- One entry of `inject`. With assertions, a deletion of a node that is not there is an error. -/
def injectEntry (debugAssertions : Bool) (db : DBColumn) (entry : H256 × DBValue × Int) :
    Except InjectError (List DBOp) :=
  if entry.2.2 = 0 then .ok []
  else if 0 < entry.2.2 then .ok [DBOp.insert entry.1.asBytes entry.2.1]
  else if entry.2.2 = -1 then
    if debugAssertions && (db entry.1.asBytes).isNone then .error (.negativelyReferenced entry.1)
    else .ok [DBOp.delete entry.1.asBytes]
  else .error .invalidState

/-- Write the transaction overlay to disk without journalling it. -/
def inject (walk : Walk H256 (DBValue × Int)) (debugAssertions : Bool) (jdb : OverlayRecentDB)
    (db : DBColumn) : Except InjectError (OverlayRecentDB × List DBOp × Nat) :=
  let tx := jdb.transactionOverlay.drain walk
  (tx.1.mapM (injectEntry debugAssertions db)).map fun ops =>
    ({ jdb with transactionOverlay := tx.2 }, ops.flatten,
      (tx.1.filter fun entry => entry.2.2 != 0).length)

/-- Nothing was ever journalled. -/
def isEmpty (db : DBColumn) : Bool := (db LATEST_ERA_KEY).isNone

/-- The latest era that was journalled. -/
def latestEra (jdb : OverlayRecentDB) : Option UInt64 := jdb.journalOverlay.latestEra

/-- The earliest era as it is recorded; settling an era moves it behind that era. -/
def earliestEra (jdb : OverlayRecentDB) : Option UInt64 := jdb.journalOverlay.earliestEra

/-- The size of the nodes in the backing overlay, as it is counted. -/
def journalSize (jdb : OverlayRecentDB) : UInt64 := jdb.journalOverlay.cumulativeSize

end OverlayRecentDB

end AuthStorage.ParityJournaldb
