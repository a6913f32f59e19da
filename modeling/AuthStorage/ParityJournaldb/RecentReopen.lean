/-
This file is about reading an `OverlayRecentDB` and opening it again. Between two
commits a read answers for the block history, whatever the read cache remembers.
Opening reads the journal from the latest era down to the first era without
entries, and finds exactly the blocks above it; it rebuilds the memory it had if
and only if no era in between is without blocks.
-/

import AuthStorage.ParityJournaldb.RecentRefinement

namespace AuthStorage.ParityJournaldb

open AuthStorage.Lvmt (Bytes DBColumn DBOp)

variable {hash : Bytes → H256} {content : H256 → DBValue} {used : Set H256}
  {jdb : OverlayRecentDB} {db : DBColumn} {history : BlockHistory H256 H256 UInt64}

/-! ### Reading -/

open Classical in
/-- What a read has to answer. -/
noncomputable def answer (hash : Bytes → H256) (content : H256 → DBValue)
    (history : BlockHistory H256 H256 UInt64) (key : H256) : Option DBValue :=
  if key = hash NULL_RLP then some NULL_RLP
  else if history.Readable key then some (content key) else none

/-- Between two commits nothing is pending, and the read cache agrees with the disk. -/
structure Coherent (jdb : OverlayRecentDB) (db : DBColumn) : Prop where
  pending : jdb.journalOverlay.pendingOverlay = ∅
  cache : ∀ key found, jdb.readCache.lookup key = some found → found = db key.asBytes

theorem answer_of_readable {key : H256} (proper : key ≠ hash NULL_RLP)
    (readable : history.Readable key) : answer hash content history key = some (content key) := by
  rw [answer, if_neg proper, if_pos readable]

namespace Stands

theorem raw_of_pos (stands : Stands hash content used jdb db history) {key : H256}
    (proper : key ≠ hash NULL_RLP) (positive : 0 < history.net key) :
    (jdb.transactionOverlay.raw key).filter (fun entry => decide (0 < entry.2)) =
      some (content key, history.net key) := by
  rw [MemoryDB.raw, stands.known.key, if_neg proper, stands.written.lookup positive,
    Option.filter_some, if_pos (decide_eq_true positive)]

theorem raw_of_not_pos (stands : Stands hash content used jdb db history) {key : H256}
    (proper : key ≠ hash NULL_RLP) (notPositive : ¬ 0 < history.net key) :
    (jdb.transactionOverlay.raw key).filter (fun entry => decide (0 < entry.2)) = none := by
  rw [MemoryDB.raw, stands.known.key, if_neg proper]
  cases found : jdb.transactionOverlay.data.lookup key with
  | none => rfl
  | some entry =>
    obtain ⟨value, rc⟩ := entry
    have counted := stands.written.counted key
    rw [MemoryDB.refs_of_lookup found] at counted
    rw [Option.filter_some, if_neg]
    rw [decide_eq_true_iff, counted]
    exact notPositive

theorem disk_eq (stands : Stands hash content used jdb db history) {key : H256}
    (proper : key ≠ hash NULL_RLP) (notPositive : ¬ 0 < history.net key)
    (notPending : ¬ history.Pending key) :
    db key.asBytes = answer hash content history key := by
  rw [answer, if_neg proper]
  by_cases stored : key ∈ history.stored
  · have readable : history.Readable key := Or.inr (Or.inr stored)
    rw [if_pos readable, stands.disk.node key stored]
  · rw [if_neg, stands.disk.noNode key stored]
    rintro (positive | pending | member)
    · exact notPositive positive
    · exact notPending pending
    · exact stored member

/-- A read answers for the history and changes nothing but the cache. -/
theorem get (keyed : Keyed hash content used) (stands : Stands hash content used jdb db history)
    (coherent : Coherent jdb db) {key : H256} (member : key ∈ used ∨ key = hash NULL_RLP) :
    (jdb.get db key).1 = answer hash content history key ∧
      Stands hash content used (jdb.get db key).2 db history ∧
      Coherent (jdb.get db key).2 db ∧
      (jdb.get db key).2.journalOverlay = jdb.journalOverlay := by
  by_cases isNull : key = hash NULL_RLP
  · have raw : (jdb.transactionOverlay.raw key).filter (fun entry => decide (0 < entry.2)) =
        some (NULL_RLP, 1) := by
      rw [MemoryDB.raw, stands.known.key, if_pos isNull, stands.known.data]
      rfl
    rw [OverlayRecentDB.get, raw, answer, if_pos isNull]
    exact ⟨rfl, stands, coherent, rfl⟩
  have inUse := member.resolve_right isNull
  by_cases positive : 0 < history.net key
  · rw [OverlayRecentDB.get, stands.raw_of_pos isNull positive,
      answer_of_readable isNull (Or.inl positive)]
    exact ⟨rfl, stands, coherent, rfl⟩
  have inMemory := stands.memory.counts.get keyed inUse
  rw [OverlayRecentDB.get, stands.raw_of_not_pos isNull positive, inMemory, coherent.pending]
  by_cases pending : history.Pending key
  · rw [if_pos ((stands.memory.mem_journalled keyed inUse).mpr pending),
      answer_of_readable isNull (Or.inr (Or.inl pending))]
    exact ⟨rfl, stands, coherent, rfl⟩
  rw [if_neg fun inside => pending ((stands.memory.mem_journalled keyed inUse).mp inside),
    AList.lookup_empty, Option.or_none]
  have onDisk := stands.disk_eq isNull positive pending
  cases cached : jdb.readCache.lookup key with
  | some found =>
    refine ⟨?_, stands, coherent, rfl⟩
    exact (coherent.cache key found cached).trans onDisk
  | none =>
    refine ⟨onDisk, ⟨stands.known, stands.written, stands.uses, stands.memory, stands.disk,
      stands.latest, stands.bounded, stands.kept⟩, ⟨coherent.pending, fun other found stored => ?_⟩, rfl⟩
    dsimp only at stored
    rw [FiniteMap.lookup_insert_eq] at stored
    split at stored
    · next same =>
      rw [same]
      exact (Option.some.inj stored).symm
    · exact coherent.cache other found stored

end Stands

/-! ### Reading the journal back -/

/-- The first `kept era` entries of every era have been read. -/
structure Reading (hash : Bytes → H256) (content : H256 → DBValue) (used : Set H256)
    (source : JournalOverlay) (blocks : UInt64 → List (Block H256 H256)) (read : JournalOverlay)
    (kept : UInt64 → Nat) : Prop where
  holds : Holds hash content used read fun era => (blocks era).take (kept era)
  records : ∀ era, read.records era = (source.records era).take (kept era)
  latest : read.latestEra = source.latestEra
  pending : read.pendingOverlay = ∅

variable {source read : JournalOverlay} {blocks : UInt64 → List (Block H256 H256)}
  {kept : UInt64 → Nat}

/-- Every journalled era is entered under its records. -/
theorem Holds.lookup_journal (holds : Holds hash content used source blocks) (era : UInt64) :
    source.journal.lookup era =
      if source.records era = [] then none else some (source.records era) := by
  cases found : source.journal.lookup era with
  | none => rw [records_of_none found, if_pos rfl]
  | some records =>
    rw [records_of_lookup found, if_neg]
    rintro rfl
    exact holds.nonempty era found

namespace Reading

theorem blockCount_le (reading : Reading hash content used source blocks read kept) :
    blockCount read.journal ≤ blockCount source.journal := by
  refine FiniteMap.total_le_total fun era records found => ?_
  have same := reading.records era
  rw [records_of_lookup found] at same
  cases stored : source.journal.lookup era with
  | none =>
    rw [records_of_none stored, List.take_nil] at same
    exact absurd (same ▸ found) (reading.holds.nonempty era)
  | some all =>
    rw [records_of_lookup stored] at same
    refine ⟨all, rfl, ?_⟩
    rw [same]
    exact List.length_take_le' _ _

theorem take_update {α : Type} (parts : UInt64 → List α) (kept : UInt64 → Nat) {era : UInt64}
    {item : α} (next : (parts era)[kept era]? = some item) (other : UInt64) :
    (parts other).take (Function.update kept era (kept era + 1) other) =
      if other = era then (parts era).take (kept era) ++ [item]
      else (parts other).take (kept other) := by
  by_cases same : other = era
  · rw [if_pos same, same, Function.update_self, List.take_add_one, next, Option.toList_some]
  · rw [if_neg same, Function.update_of_ne same]

/-- One more entry. -/
theorem next (keyed : Keyed hash content used)
    (sourceHolds : Holds hash content used source blocks)
    (bound : blockCount source.journal + 1 < 2 ^ 31)
    (reading : Reading hash content used source blocks read kept) {era : UInt64}
    {entry : JournalEntry} (found : (source.records era)[kept era]? = some entry) :
    Reading hash content used source blocks
      { read.record era (storedEntry content entry) with earliestEra := some era }
      (Function.update kept era (kept era + 1)) := by
  obtain ⟨inside, here⟩ := List.getElem?_eq_some_iff.mp found
  have lengths := (sourceHolds.entries era).length_eq
  have blockAt : (blocks era)[kept era]? = some (blocks era)[kept era] :=
    List.getElem?_eq_getElem (by omega)
  have entryOf : EntryOf entry (blocks era)[kept era] := by
    rw [← here]
    exact (List.forall₂_iff_get.mp (sourceHolds.entries era)).2 (kept era) inside (by omega)
  have keys : (storedEntry content entry).inserts.map Prod.fst = entry.insertions := by
    rw [storedEntry, List.map_map]
    exact List.map_id _
  have writes : Holds.Writes content (storedEntry content entry) (blocks era)[kept era] := by
    refine ⟨entryOf.name, ?_, fun key => ?_, ?_, entryOf.removes⟩
    · rw [keys]
      exact entryOf.distinct
    · rw [keys]
      exact entryOf.inserts key
    · rw [keys, storedEntry]
  have uses := sourceHolds.writes era (blocks era)[kept era] (List.getElem_mem (by omega))
  have few := reading.blockCount_le
  have recorded := reading.holds.record keyed era writes uses (by omega)
  have sameBlocks : Function.update (fun other => (blocks other).take (kept other)) era
      ((blocks era).take (kept era) ++ [(blocks era)[kept era]]) =
      fun other => (blocks other).take (Function.update kept era (kept era + 1) other) := by
    funext other
    rw [take_update blocks kept blockAt, Function.update_apply]
  rw [sameBlocks] at recorded
  refine ⟨recorded.congr rfl rfl rfl, fun other => ?_, ?_, ?_⟩
  · have value : (storedEntry content entry).entry = entry := by
      rw [RecentValue.entry, keys, storedEntry]
    rw [take_update source.records kept found, ← reading.records, ← reading.records]
    refine (records_record read era other _).trans ?_
    rw [value]
  · exact (latestEra_record read era _).trans reading.latest
  · exact (pendingOverlay_record read era _).trans reading.pending

/-- The entries of one era are read to the end. -/
theorem readEra (keyed : Keyed hash content used)
    (sourceHolds : Holds hash content used source blocks)
    (bound : blockCount source.journal + 1 < 2 ^ 31) {era : UInt64}
    (stored : ∀ index < 2 ^ 64, db (DatabaseKey.encode ⟨era, index⟩) =
      (source.records era)[index]?.map fun entry => (storedEntry content entry).encode)
    (fuel : Nat) (reading : Reading hash content used source blocks read kept)
    (within : kept era ≤ (source.records era).length)
    (enough : (source.records era).length < kept era + fuel) :
    ∃ read', OverlayRecentDB.readEra db era fuel (kept era) read =
        some ((source.records era).length, read') ∧
      Reading hash content used source blocks read'
        (Function.update kept era (source.records era).length) := by
  induction fuel generalizing read kept with
  | zero => omega
  | succ fuel inductionHypothesis =>
    have few := length_records_le source era
    rw [OverlayRecentDB.readEra, stored _ (by omega)]
    cases found : (source.records era)[kept era]? with
    | none =>
      have last : kept era = (source.records era).length :=
        le_antisymm within (List.getElem?_eq_none_iff.mp found)
      refine ⟨read, ?_, ?_⟩
      · rw [Option.map_none, last]
      · rw [← last, Function.update_eq_self]
        exact reading
    | some entry =>
      have inside := (List.getElem?_eq_some_iff.mp found).1
      have more := reading.next keyed sourceHolds bound found
      obtain ⟨read', result, after⟩ := inductionHypothesis more
        (by rw [Function.update_self]; omega) (by rw [Function.update_self]; omega)
      rw [Function.update_self] at result
      rw [Function.update_idem] at after
      refine ⟨read', ?_, after⟩
      rw [Option.map_some]
      dsimp only
      rw [RecentValue.decode_encode, Option.bind_some]
      exact result

end Reading

/-! ### From the latest era down -/

/-- All eras from this one up to the latest have entries. -/
def TopRun (source : JournalOverlay) (latest era : UInt64) : Prop :=
  era ≤ latest ∧ ∀ between, era ≤ between → between ≤ latest → source.records between ≠ []

/-- The eras from `lower` up to the latest have entries and are read, the others are not read. -/
structure Down (source : JournalOverlay) (latest : UInt64) (lower : Nat) (kept : UInt64 → Nat) :
    Prop where
  read : ∀ era, lower ≤ era.toNat → era ≤ latest →
    source.records era ≠ [] ∧ kept era = (source.records era).length
  unread : ∀ era, ¬ (lower ≤ era.toNat ∧ era ≤ latest) → kept era = 0

variable {latest : UInt64}

/-- Reading stops at the first era, or below the first era without entries. -/
theorem Down.topRun {lower : Nat} (down : Down source latest lower kept)
    (stop : lower = 0 ∨ ∃ era : UInt64, era.toNat + 1 = lower ∧ era ≤ latest ∧
      source.records era = []) (era : UInt64) :
    (TopRun source latest era → kept era = (source.records era).length) ∧
      (¬ TopRun source latest era → kept era = 0) := by
  have same : TopRun source latest era ↔ lower ≤ era.toNat ∧ era ≤ latest := by
    constructor
    · rintro ⟨below, full⟩
      refine ⟨?_, below⟩
      rcases stop with zero | ⟨gap, next, gapBelow, none⟩
      · omega
      · by_contra under
        refine full gap ?_ gapBelow none
        rw [UInt64.le_iff_toNat_le]
        omega
    · rintro ⟨above, below⟩
      refine ⟨below, fun between higher under => (down.read between ?_ under).1⟩
      rw [UInt64.le_iff_toNat_le] at higher
      omega
  rw [same]
  exact ⟨fun inside => (down.read era inside.1 inside.2).2, down.unread era⟩

/-- One era further down. -/
theorem Down.next {era : UInt64} (down : Down source latest (era.toNat + 1) kept)
    (below : era ≤ latest) (nonempty : source.records era ≠ []) :
    Down source latest era.toNat (Function.update kept era (source.records era).length) := by
  constructor
  · intro other above under
    by_cases same : other = era
    · rw [same, Function.update_self]
      exact ⟨nonempty, rfl⟩
    · have apart : other.toNat ≠ era.toNat := fun equal => same (UInt64.toNat_inj.mp equal)
      rw [Function.update_of_ne same]
      exact down.read other (by omega) under
  · intro other outside
    have apart : other ≠ era := by
      rintro rfl
      exact outside ⟨le_rfl, below⟩
    rw [Function.update_of_ne apart]
    exact down.unread other fun inside => outside ⟨by omega, inside.2⟩

theorem readEras (keyed : Keyed hash content used)
    (sourceHolds : Holds hash content used source blocks)
    (bound : blockCount source.journal + 1 < 2 ^ 31)
    (stored : ∀ era index, index < 2 ^ 64 → db (DatabaseKey.encode ⟨era, index⟩) =
      (source.records era)[index]?.map fun entry => (storedEntry content entry).encode)
    {fuel : Nat} (enough : 2 ^ 31 ≤ fuel) {era : Nat} (below : era ≤ latest.toNat)
    (reading : Reading hash content used source blocks read kept)
    (down : Down source latest (era + 1) kept) :
    ∃ read' kept', OverlayRecentDB.readEras db fuel era read = some read' ∧
      Reading hash content used source blocks read' kept' ∧
      ∀ other, (TopRun source latest other → kept' other = (source.records other).length) ∧
        (¬ TopRun source latest other → kept' other = 0) := by
  have last := UInt64.toNat_lt latest
  induction era generalizing read kept with
  | zero =>
    have few := length_records_le source 0
    have unread : kept 0 = 0 := down.unread 0 fun inside => absurd inside.1 (by decide)
    obtain ⟨read', result, after⟩ := Reading.readEra keyed sourceHolds bound (stored 0) fuel
      reading (by omega) (by omega)
    rw [unread] at result
    refine ⟨read', _, ?_, after, ?_⟩
    · rw [OverlayRecentDB.readEras, result, Option.map_some]
    · by_cases none : source.records 0 = []
      · have stays : Function.update kept 0 (source.records 0).length = kept := by
          rw [none, List.length_nil, ← unread, Function.update_eq_self]
        rw [stays]
        exact down.topRun (Or.inr ⟨0, rfl, UInt64.zero_le, none⟩)
      · have further : Down source latest (0 : UInt64).toNat
            (Function.update kept 0 (source.records 0).length) := down.next UInt64.zero_le none
        exact further.topRun (Or.inl rfl)
  | succ era inductionHypothesis =>
    have named : (UInt64.ofNat (era + 1)).toNat = era + 1 := UInt64.toNat_ofNat_of_lt' (by rw [UInt64.size]; omega)
    generalize current : UInt64.ofNat (era + 1) = here at named
    have few := length_records_le source here
    have under : here ≤ latest := by
      rw [UInt64.le_iff_toNat_le]
      omega
    have unread : kept here = 0 := down.unread here fun inside => by omega
    obtain ⟨read', result, after⟩ := Reading.readEra keyed sourceHolds bound (stored here) fuel
      reading (by omega) (by omega)
    rw [unread] at result
    rw [OverlayRecentDB.readEras, current, result, Option.bind_some]
    by_cases none : source.records here = []
    · have stays : Function.update kept here (source.records here).length = kept := by
        rw [none, List.length_nil, ← unread, Function.update_eq_self]
      rw [stays] at after
      refine ⟨read', kept, ?_, after, down.topRun (Or.inr ⟨here, by omega, under, none⟩)⟩
      rw [if_pos (by rw [none, List.length_nil])]
    · rw [if_neg fun zero => none (List.length_eq_zero_iff.mp zero)]
      rw [← named] at down
      have further := down.next under none
      rw [named] at further
      exact inductionHypothesis (by omega) after further

/-! ### Opening -/

/-- Equal as far as the tests of the repository compare: a database rebuilds what it had. -/
structure Reconstructs (overlay rebuilt : JournalOverlay) : Prop where
  backing : ∀ key, overlay.backingOverlay.data.lookup key = rebuilt.backingOverlay.data.lookup key
  pending : ∀ key, overlay.pendingOverlay.lookup key = rebuilt.pendingOverlay.lookup key
  journal : ∀ era, overlay.journal.lookup era = rebuilt.journal.lookup era
  latest : overlay.latestEra = rebuilt.latestEra
  size : overlay.cumulativeSize = rebuilt.cumulativeSize

theorem down_start (source : JournalOverlay) (latest : UInt64) :
    Down source latest (latest.toNat + 1) fun _ => 0 := by
  refine ⟨fun era above below => ?_, fun _ _ => rfl⟩
  rw [UInt64.le_iff_toNat_le] at below
  omega

theorem reading_start (source : JournalOverlay) (blocks : UInt64 → List (Block H256 H256))
    {latest : Option UInt64} (same : source.latestEra = latest) :
    Reading hash content used source blocks { JournalOverlay.new hash with latestEra := latest }
      fun _ => 0 where
  holds := by
    simp only [List.take_zero]
    exact (holds_new hash content used).congr rfl rfl rfl
  records era := by rw [List.take_zero, records_of_none (AList.lookup_empty era)]
  latest := same.symm
  pending := rfl

namespace Stands

/-- Opening finds the blocks of the eras at the top. -/
theorem readOverlay (keyed : Keyed hash content used)
    (stands : Stands hash content used jdb db history)
    (bound : blockCount jdb.journalOverlay.journal + 1 < 2 ^ 31) {fuel : Nat}
    (enough : 2 ^ 31 ≤ fuel) :
    ∃ overlay kept, OverlayRecentDB.readOverlay hash fuel db = some overlay ∧
      Reading hash content used jdb.journalOverlay history.blocks overlay kept ∧
      ∀ latest ∈ history.latest, ∀ era,
        (TopRun jdb.journalOverlay latest era →
          kept era = (jdb.journalOverlay.records era).length) ∧
        (¬ TopRun jdb.journalOverlay latest era → kept era = 0) := by
  have stored := stands.disk.latest
  rw [OverlayRecentDB.readOverlay, stored, stands.latest]
  cases known : history.latest with
  | none =>
    refine ⟨.new hash, fun _ => 0, rfl, ?_, fun latest member => absurd member (by simp)⟩
    exact reading_start jdb.journalOverlay history.blocks (stands.latest.trans known)
  | some latest =>
    obtain ⟨overlay, kept, result, reading, top⟩ := readEras keyed stands.memory bound
      stands.disk.entry enough (le_refl latest.toNat)
      (reading_start jdb.journalOverlay history.blocks (stands.latest.trans known))
      (down_start jdb.journalOverlay latest)
    refine ⟨overlay, kept, ?_, reading, fun other member => ?_⟩
    · rw [Option.map_some]
      dsimp only
      rw [decodeEra_encodeEra, Option.bind_some]
      exact result
    · obtain rfl : latest = other := by simpa using member
      exact top

theorem records_eq_nil_iff (stands : Stands hash content used jdb db history) (era : UInt64) :
    jdb.journalOverlay.records era = [] ↔ history.blocks era = [] := by
  rw [← List.length_eq_zero_iff, ← List.length_eq_zero_iff,
    (stands.memory.entries era).length_eq]

/-- Without a gap everything is read. -/
theorem kept_of_unbroken (stands : Stands hash content used jdb db history)
    (unbroken : history.Unbroken) {kept : UInt64 → Nat}
    (top : ∀ latest ∈ history.latest, ∀ era, TopRun jdb.journalOverlay latest era →
      kept era = (jdb.journalOverlay.records era).length) (era : UInt64) :
    (jdb.journalOverlay.records era).length ≤ kept era := by
  by_cases none : history.blocks era = []
  · rw [(stands.records_eq_nil_iff era).mpr none]
    exact Nat.zero_le _
  · obtain ⟨latest, known, below⟩ := stands.bounded era none
    refine le_of_eq (top latest known era ⟨below, fun between higher under => ?_⟩).symm
    rw [Ne, stands.records_eq_nil_iff]
    exact unbroken latest known era none between higher under

/-- Opening a database whose eras have no gap. -/
theorem new (keyed : Keyed hash content used) (stands : Stands hash content used jdb db history)
    (unbroken : history.Unbroken) (bound : blockCount jdb.journalOverlay.journal + 1 < 2 ^ 31)
    {fuel : Nat} (enough : 2 ^ 31 ≤ fuel) :
    ∃ jdb', OverlayRecentDB.new hash fuel db = some jdb' ∧
      Stands hash content used jdb' db history.reopen ∧ Coherent jdb' db ∧
      blockCount jdb'.journalOverlay.journal ≤ blockCount jdb.journalOverlay.journal ∧
      Reconstructs { jdb.journalOverlay with pendingOverlay := ∅ } jdb'.journalOverlay := by
  obtain ⟨overlay, kept, result, reading, top⟩ := stands.readOverlay keyed bound enough
  have all := stands.kept_of_unbroken unbroken fun latest known era => (top latest known era).1
  have records : ∀ era, overlay.records era = jdb.journalOverlay.records era := fun era => by
    rw [reading.records, List.take_of_length_le (all era)]
  have blocks : (fun era => (history.blocks era).take (kept era)) = history.blocks := by
    funext era
    rw [List.take_of_length_le]
    rw [← (stands.memory.entries era).length_eq]
    exact all era
  have holds := reading.holds
  rw [blocks] at holds
  have journal : ∀ era, jdb.journalOverlay.journal.lookup era = overlay.journal.lookup era :=
    fun era => by rw [stands.memory.lookup_journal, holds.lookup_journal, records]
  have counted : journalled overlay.journal = journalled jdb.journalOverlay.journal :=
    (FiniteMap.total_congr _ journal).symm
  have counts := holds.counts
  rw [counted] at counts
  refine ⟨⟨newMemoryDb hash, overlay, ∅⟩, ?_, ⟨?_, ?_, ?_, holds, ⟨?_, ?_, ?_, ?_⟩, ?_, ?_, ?_⟩,
    ⟨reading.pending, fun key found stored => ?_⟩, reading.blockCount_le, ⟨?_, ?_, ?_, ?_, ?_⟩⟩
  · rw [OverlayRecentDB.new, result, Option.map_some]
  · exact knowsNull_newMemoryDb hash
  · exact MemoryDB.represents_fromNullNode hash NULL_RLP NULL_RLP
  · exact fun key nonzero => absurd rfl nonzero
  · exact stands.disk.node
  · exact stands.disk.noNode
  · intro era index small
    rw [records]
    exact stands.disk.entry era index small
  · rw [reading.latest]
    exact stands.disk.latest
  · exact reading.latest.trans stands.latest
  · exact stands.bounded
  · exact stands.kept
  · cases (AList.lookup_empty key).symm.trans stored
  · exact stands.memory.counts.lookup_eq counts
  · intro key
    rw [reading.pending]
  · exact journal
  · exact reading.latest.symm
  · exact stands.memory.counts.size_eq counts

/-- What is on disk rebuilds the memory exactly if no era is passed over. -/
theorem reconstructs_iff (keyed : Keyed hash content used)
    (stands : Stands hash content used jdb db history)
    (flushed : jdb.journalOverlay.pendingOverlay = ∅)
    (bound : blockCount jdb.journalOverlay.journal + 1 < 2 ^ 31) {fuel : Nat}
    (enough : 2 ^ 31 ≤ fuel) :
    (∃ overlay, OverlayRecentDB.readOverlay hash fuel db = some overlay ∧
      Reconstructs jdb.journalOverlay overlay) ↔ history.Unbroken := by
  constructor
  · rintro ⟨overlay, result, rebuilt⟩ latest known era some between higher under
    obtain ⟨other, kept, result', reading, top⟩ := stands.readOverlay keyed bound enough
    obtain rfl : overlay = other := Option.some.inj (result.symm.trans result')
    have same : overlay.records era = jdb.journalOverlay.records era := by
      rw [JournalOverlay.records, JournalOverlay.records, rebuilt.journal]
    have run : TopRun jdb.journalOverlay latest era := by
      by_contra notTop
      have read := reading.records era
      rw [(top latest known era).2 notTop, List.take_zero, same] at read
      exact some ((stands.records_eq_nil_iff era).mp read)
    exact fun none => run.2 between higher under ((stands.records_eq_nil_iff between).mpr none)
  · intro unbroken
    obtain ⟨jdb', opened, -, -, -, rebuilt⟩ := stands.new keyed unbroken bound enough
    rw [OverlayRecentDB.new, Option.map_eq_some_iff] at opened
    obtain ⟨overlay, result, rfl⟩ := opened
    refine ⟨overlay, result, rebuilt.backing, fun key => ?_, rebuilt.journal, rebuilt.latest,
      rebuilt.size⟩
    rw [flushed]
    exact rebuilt.pending key

end Stands

end AuthStorage.ParityJournaldb
