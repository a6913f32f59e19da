/-
This file relates the memory of an `OverlayRecentDB` to the blocks that are not
settled. The nodes in memory are the multiset of all insertions of these blocks,
counted under their short keys, and the size is that of the distinct nodes.
Recording a block adds its insertions, settling an era takes the insertions of all
its blocks away again, and what is left over is exactly what other blocks insert.
-/

import AuthStorage.Library.BlockHistory
import AuthStorage.ParityJournaldb.OverlayRecentDb
import Mathlib.Data.Multiset.Count

namespace AuthStorage.ParityJournaldb

open AuthStorage.Lvmt (Bytes DBColumn DBOp)

/-! ### The nodes in use -/

/-- `content` knows the value of each node, and the first twelve bytes tell the nodes in use apart,
also from the null node. -/
structure Keyed (hash : Bytes → H256) (content : H256 → DBValue) (used : Set H256) : Prop where
  null : content (hash NULL_RLP) = NULL_RLP
  injOn : Set.InjOn toShortKey used
  ne_null : ∀ key ∈ used, toShortKey key ≠ hash NULL_RLP

/-- The value under a short key. -/
noncomputable def shortContent (content : H256 → DBValue) (used : Set H256) (key : H256) : DBValue :=
  content (Function.invFunOn toShortKey used key)

/-- A block that writes nodes in use, and no null node. -/
def UsesOnly (content : H256 → DBValue) (used : Set H256) (net : H256 → Int) : Prop :=
  ∀ key, net key ≠ 0 → key ∈ used ∧ (0 < net key → content key ≠ NULL_RLP)

variable {hash : Bytes → H256} {content : H256 → DBValue} {used : Set H256}
  {overlay : JournalOverlay} {counts : Multiset H256}

theorem Keyed.shortContent_toShortKey (keyed : Keyed hash content used) {key : H256}
    (member : key ∈ used) : shortContent content used (toShortKey key) = content key := by
  rw [shortContent]
  congr 1
  exact keyed.injOn (Function.invFunOn_mem ⟨key, member, rfl⟩) member
    (Function.invFunOn_eq ⟨key, member, rfl⟩)

/-! ### Counting nodes in memory -/

/-- Memory holds the short keys of a multiset, each with its multiplicity. -/
structure Counts (hash : Bytes → H256) (content : H256 → DBValue) (used : Set H256)
    (overlay : JournalOverlay) (counts : Multiset H256) : Prop where
  known : KnowsNull hash overlay.backingOverlay
  represents : overlay.backingOverlay.Represents (shortContent content used)
    fun key => (counts.count key : Int)
  positive : ∀ key value rc, overlay.backingOverlay.data.lookup key = some (value, rc) → 0 < rc
  size : overlay.cumulativeSize =
    UInt64.ofNat (FiniteMap.total (fun _ entry => entry.1.length) overlay.backingOverlay.data)

theorem counts_new (hash : Bytes → H256) (content : H256 → DBValue) (used : Set H256) :
    Counts hash content used (.new hash) 0 where
  known := knowsNull_newMemoryDb hash
  represents := MemoryDB.represents_fromNullNode hash NULL_RLP NULL_RLP
  positive key value rc stored := by cases (AList.lookup_empty key).symm.trans stored
  size := rfl

namespace Counts

theorem lookup (holds : Counts hash content used overlay counts) (key : H256) :
    overlay.backingOverlay.data.lookup key =
      if key ∈ counts then some (shortContent content used key, (counts.count key : Int))
      else none := by
  split
  · next member =>
    exact holds.represents.lookup (Int.natCast_pos.mpr (Multiset.count_pos.mpr member))
  · next absent =>
    have zero := holds.represents.counted key
    rw [Multiset.count_eq_zero_of_notMem absent, Nat.cast_zero] at zero
    cases stored : overlay.backingOverlay.data.lookup key with
    | none => rfl
    | some entry =>
      obtain ⟨value, rc⟩ := entry
      rw [MemoryDB.refs_of_lookup stored] at zero
      exact absurd (holds.positive key value rc stored) (by omega)

theorem contains (keyed : Keyed hash content used) (holds : Counts hash content used overlay counts)
    {key : H256} (member : key ∈ used) :
    overlay.backingOverlay.contains (toShortKey key) = decide (toShortKey key ∈ counts) := by
  rw [MemoryDB.contains, holds.known.key, if_neg (keyed.ne_null key member),
    MemoryDB.plainContains, holds.lookup]
  by_cases inside : toShortKey key ∈ counts
  · rw [if_pos inside]
    exact decide_eq_decide.mpr (iff_of_true
      (Int.natCast_pos.mpr (Multiset.count_pos.mpr inside)) inside)
  · rw [if_neg inside, decide_eq_false inside]

theorem get (keyed : Keyed hash content used) (holds : Counts hash content used overlay counts)
    {key : H256} (member : key ∈ used) :
    overlay.backingOverlay.get (toShortKey key) =
      if toShortKey key ∈ counts then some (content key) else none := by
  rw [MemoryDB.get, holds.known.key, if_neg (keyed.ne_null key member),
    holds.represents.plainGet, keyed.shortContent_toShortKey member]
  simp only [Int.natCast_pos, Multiset.count_pos]

theorem raw (keyed : Keyed hash content used) (holds : Counts hash content used overlay counts)
    {key : H256} (member : key ∈ used) (inside : toShortKey key ∈ counts) :
    ∃ rc, 0 < rc ∧ overlay.backingOverlay.raw (toShortKey key) = some (content key, rc) := by
  refine ⟨(counts.count (toShortKey key) : Int),
    Int.natCast_pos.mpr (Multiset.count_pos.mpr inside), ?_⟩
  rw [MemoryDB.raw, holds.known.key, if_neg (keyed.ne_null key member), holds.lookup,
    if_pos inside, keyed.shortContent_toShortKey member]

/-- What the counts say of memory does not depend on how it came about. -/
theorem lookup_eq {other : JournalOverlay} (holds : Counts hash content used overlay counts)
    (holds' : Counts hash content used other counts) (key : H256) :
    overlay.backingOverlay.data.lookup key = other.backingOverlay.data.lookup key := by
  rw [holds.lookup, holds'.lookup]

theorem size_eq {other : JournalOverlay} (holds : Counts hash content used overlay counts)
    (holds' : Counts hash content used other counts) :
    overlay.cumulativeSize = other.cumulativeSize := by
  rw [holds.size, holds'.size, FiniteMap.total_congr _ (holds.lookup_eq holds')]

/-! ### One node more, one node less -/

theorem emplace (keyed : Keyed hash content used) (holds : Counts hash content used overlay counts)
    {key : H256} (member : key ∈ used) (proper : content key ≠ NULL_RLP)
    (bound : counts.count (toShortKey key) + 1 < 2 ^ 31) :
    Counts hash content used (overlay.emplace (key, content key)) (toShortKey key ::ₘ counts) := by
  have value := keyed.shortContent_toShortKey member
  have emplaced : (overlay.emplace (key, content key)).backingOverlay =
      overlay.backingOverlay.plainEmplace (toShortKey key) (content key) := by
    rw [JournalOverlay.emplace, MemoryDB.emplace, holds.known.data, if_neg proper]
  have size : (overlay.emplace (key, content key)).cumulativeSize =
      if toShortKey key ∈ counts then overlay.cumulativeSize
      else overlay.cumulativeSize + UInt64.ofNat (content key).length := by
    rw [JournalOverlay.emplace, holds.contains keyed member]
    simp only [decide_eq_true_eq]
  have data : (overlay.backingOverlay.plainEmplace (toShortKey key) (content key)).data =
      overlay.backingOverlay.data.insert (toShortKey key)
        (content key, (counts.count (toShortKey key) : Int) + 1) := by
    rw [MemoryDB.plainEmplace, holds.lookup]
    by_cases inside : toShortKey key ∈ counts
    · have positive := Multiset.count_pos.mpr inside
      rw [if_pos inside, value]
      dsimp only
      rw [ite_self, addI32_of_isI32 ⟨by omega, by omega⟩]
    · rw [if_neg inside, Multiset.count_eq_zero_of_notMem inside]
      rfl
  have added : (fun other => ((toShortKey key ::ₘ counts).count other : Int)) =
      Function.update (fun other => (counts.count other : Int)) (toShortKey key)
        ((counts.count (toShortKey key) : Int) + 1) := by
    funext other
    by_cases same : other = toShortKey key
    · rw [same, Function.update_self, Multiset.count_cons_self]
      push_cast
      rfl
    · rw [Function.update_of_ne same, Multiset.count_cons_of_ne same]
  refine ⟨?_, ?_, ?_, ?_⟩
  · rw [emplaced]
    exact holds.known.plainEmplace _ _
  · rw [emplaced, added]
    exact holds.represents.plainEmplace value.symm ⟨by omega, by omega⟩
  · intro other stored rc found
    rw [emplaced, data, FiniteMap.lookup_insert_eq] at found
    split at found
    · rw [Option.some.injEq, Prod.mk.injEq] at found
      omega
    · exact holds.positive other stored rc found
  · rw [size, emplaced, data, FiniteMap.total_insert, holds.size]
    have old := holds.lookup (toShortKey key)
    by_cases inside : toShortKey key ∈ counts
    · rw [if_pos inside] at old ⊢
      rw [FiniteMap.total_of_lookup _ old, value]
    · rw [if_neg inside] at old ⊢
      rw [FiniteMap.erase_of_lookup_none old, add_comm, ← UInt64.ofNat_add]

theorem release (keyed : Keyed hash content used) {key : H256} (member : key ∈ used)
    (holds : Counts hash content used overlay (toShortKey key ::ₘ counts))
    (bound : (toShortKey key ::ₘ counts).count (toShortKey key) < 2 ^ 31) :
    Counts hash content used (overlay.release key) counts := by
  have value := keyed.shortContent_toShortKey member
  have inside : toShortKey key ∈ toShortKey key ::ₘ counts := Multiset.mem_cons_self _ _
  have stored := holds.lookup (toShortKey key)
  rw [if_pos inside, value, Multiset.count_cons_self] at stored
  rw [Multiset.count_cons_self] at bound
  have proper : toShortKey key ≠ overlay.backingOverlay.hashedNullNode := by
    rw [holds.known.key]
    exact keyed.ne_null key member
  have removed := holds.represents.removeAndPurge proper (by
    rw [Multiset.count_cons_self]
    exact ⟨by push_cast; omega, by push_cast; omega⟩)
  have taken : Function.update (fun other => ((toShortKey key ::ₘ counts).count other : Int))
      (toShortKey key) (((toShortKey key ::ₘ counts).count (toShortKey key) : Int) - 1) =
      fun other => (counts.count other : Int) := by
    funext other
    by_cases same : other = toShortKey key
    · rw [same, Function.update_self, Multiset.count_cons_self]
      push_cast
      ring
    · rw [Function.update_of_ne same, Multiset.count_cons_of_ne same]
  rw [taken, value, Multiset.count_cons_self] at removed
  have data : (overlay.backingOverlay.removeAndPurge (toShortKey key)).2.data =
      if toShortKey key ∈ counts then overlay.backingOverlay.data.insert (toShortKey key)
        (content key, (counts.count (toShortKey key) : Int))
      else overlay.backingOverlay.data.erase (toShortKey key) := by
    rw [MemoryDB.removeAndPurge, if_neg proper, stored]
    dsimp only
    by_cases still : toShortKey key ∈ counts
    · have more := Multiset.count_pos.mpr still
      have back : addI32 ((counts.count (toShortKey key) + 1 : Nat) : Int) (-1) =
          (counts.count (toShortKey key) : Int) := by
        rw [addI32_of_isI32 ⟨by push_cast; omega, by push_cast; omega⟩]
        push_cast
        ring
      rw [if_pos still, if_neg (by push_cast; omega), back]
    · rw [if_neg still, Multiset.count_eq_zero_of_notMem still, if_pos (by norm_num)]
  have released := overlay.backingOverlay_release key
  refine ⟨?_, ?_, ?_, ?_⟩
  · rw [released]
    exact holds.known.removeAndPurge _
  · rw [released]
    exact removed.2
  · intro other found rc entry
    rw [released, data] at entry
    split at entry
    · next still =>
      rw [FiniteMap.lookup_insert_eq] at entry
      split at entry
      · rw [Option.some.injEq, Prod.mk.injEq] at entry
        have more := Multiset.count_pos.mpr still
        omega
      · exact holds.positive other found rc entry
    · rw [FiniteMap.lookup_erase_eq] at entry
      split at entry
      · cases entry
      · exact holds.positive other found rc entry
  · rw [released, data, JournalOverlay.release, removed.1, holds.size]
    have total := FiniteMap.total_of_lookup
      (fun (_ : H256) (entry : DBValue × Int) => entry.1.length) stored
    by_cases still : toShortKey key ∈ counts
    · have more := Multiset.count_pos.mpr still
      rw [if_pos still, if_neg (by push_cast; omega), FiniteMap.total_insert, total]
    · rw [if_neg still, Multiset.count_eq_zero_of_notMem still, if_pos (by norm_num), total]
      dsimp only
      rw [UInt64.ofNat_add, add_comm, UInt64.add_sub_cancel]

/-! ### All insertions of a block, all insertions of an era -/

theorem foldl_emplace (keyed : Keyed hash content used) {keys : List H256}
    (holds : Counts hash content used overlay counts) (member : ∀ key ∈ keys, key ∈ used)
    (proper : ∀ key ∈ keys, content key ≠ NULL_RLP)
    (bound : ∀ key, counts.count key + (keys.map toShortKey).count key < 2 ^ 31) :
    Counts hash content used ((keys.map fun key => (key, content key)).foldl
      JournalOverlay.emplace overlay) (↑(keys.map toShortKey) + counts) := by
  induction keys generalizing overlay counts with
  | nil =>
    rw [List.map_nil, List.foldl_nil, List.map_nil, Multiset.coe_nil, zero_add]
    exact holds
  | cons key keys inductionHypothesis =>
    have here := bound (toShortKey key)
    rw [List.map_cons, List.count_cons_self] at here
    have one := holds.emplace keyed (member key List.mem_cons_self) (proper key List.mem_cons_self)
      (by omega)
    have rest := inductionHypothesis one
      (fun other inside => member other (List.mem_cons_of_mem _ inside))
      (fun other inside => proper other (List.mem_cons_of_mem _ inside))
      (fun other => by
        have all := bound other
        rw [List.map_cons, List.count_cons] at all
        rw [Multiset.count_cons]
        simp only [beq_iff_eq] at all
        simp only [eq_comm (a := other)]
        omega)
    have same : (↑(keys.map toShortKey) + toShortKey key ::ₘ counts : Multiset H256) =
        ↑((key :: keys).map toShortKey) + counts := by
      rw [List.map_cons, ← Multiset.cons_coe, Multiset.cons_add, Multiset.add_cons]
    rw [same] at rest
    exact rest

theorem foldl_release (keyed : Keyed hash content used) {keys : List H256}
    (holds : Counts hash content used overlay (↑(keys.map toShortKey) + counts))
    (member : ∀ key ∈ keys, key ∈ used)
    (bound : ∀ key, (↑(keys.map toShortKey) + counts : Multiset H256).count key < 2 ^ 31) :
    Counts hash content used (keys.foldl JournalOverlay.release overlay) counts := by
  induction keys generalizing overlay with
  | nil =>
    rw [List.map_nil, Multiset.coe_nil, zero_add] at holds
    exact holds
  | cons key keys inductionHypothesis =>
    have same : (↑((key :: keys).map toShortKey) + counts : Multiset H256) =
        toShortKey key ::ₘ (↑(keys.map toShortKey) + counts) := by
      rw [List.map_cons, ← Multiset.cons_coe, Multiset.cons_add]
    rw [same] at holds bound
    rw [List.foldl_cons]
    refine inductionHypothesis
      (holds.release keyed (member key List.mem_cons_self) (bound _))
      (fun other inside => member other (List.mem_cons_of_mem _ inside)) fun other => ?_
    exact lt_of_le_of_lt (Multiset.count_le_count_cons _ _ _) (bound other)

end Counts

/-- Counting insertions leaves the journal, the latest era and the pending nodes alone. -/
theorem foldl_emplace_fields (nodes : List (H256 × DBValue)) (overlay : JournalOverlay) :
    (nodes.foldl JournalOverlay.emplace overlay).journal = overlay.journal ∧
      (nodes.foldl JournalOverlay.emplace overlay).latestEra = overlay.latestEra ∧
      (nodes.foldl JournalOverlay.emplace overlay).pendingOverlay = overlay.pendingOverlay := by
  induction nodes generalizing overlay with
  | nil => exact ⟨rfl, rfl, rfl⟩
  | cons node nodes inductionHypothesis =>
    obtain ⟨journal, latest, pending⟩ := inductionHypothesis (overlay.emplace node)
    obtain ⟨journal', latest', pending'⟩ := overlay.emplace_fields node
    exact ⟨journal.trans journal', latest.trans latest', pending.trans pending'⟩

theorem journal_foldl_release (keys : List H256) (overlay : JournalOverlay) :
    (keys.foldl JournalOverlay.release overlay).journal = overlay.journal := by
  induction keys generalizing overlay with
  | nil => rfl
  | cons key keys inductionHypothesis =>
    rw [List.foldl_cons, inductionHypothesis, JournalOverlay.journal_release]

theorem latestEra_foldl_release (keys : List H256) (overlay : JournalOverlay) :
    (keys.foldl JournalOverlay.release overlay).latestEra = overlay.latestEra := by
  induction keys generalizing overlay with
  | nil => rfl
  | cons key keys inductionHypothesis =>
    rw [List.foldl_cons, inductionHypothesis, JournalOverlay.latestEra_release]

/-- The journal entry of a block. -/
def RecentValue.entry (value : RecentValue) : JournalEntry :=
  ⟨value.id, value.inserts.map Prod.fst, value.deletes⟩

theorem journal_record (overlay : JournalOverlay) (era : UInt64) (value : RecentValue) :
    (overlay.record era value).journal =
      overlay.journal.insert era (overlay.records era ++ [value.entry]) := by
  rw [JournalOverlay.record, JournalOverlay.push, JournalOverlay.records,
    (foldl_emplace_fields _ overlay).1, JournalOverlay.records, RecentValue.entry]

theorem records_record (overlay : JournalOverlay) (era other : UInt64) (value : RecentValue) :
    (overlay.record era value).records other =
      if other = era then overlay.records era ++ [value.entry] else overlay.records other := by
  rw [JournalOverlay.records, journal_record, FiniteMap.lookup_insert_eq]
  split
  · rfl
  · rfl

theorem latestEra_record (overlay : JournalOverlay) (era : UInt64) (value : RecentValue) :
    (overlay.record era value).latestEra = overlay.latestEra := by
  rw [JournalOverlay.record, JournalOverlay.push, (foldl_emplace_fields _ overlay).2.1]

theorem pendingOverlay_record (overlay : JournalOverlay) (era : UInt64) (value : RecentValue) :
    (overlay.record era value).pendingOverlay = overlay.pendingOverlay := by
  rw [JournalOverlay.record, JournalOverlay.push, (foldl_emplace_fields _ overlay).2.2]

/-! ### The journal -/

/-- A journal entry lists the nodes its block inserts and removes. -/
structure EntryOf (entry : JournalEntry) (block : Block H256 H256) : Prop where
  name : entry.id = block.name
  distinct : entry.insertions.Nodup
  inserts : ∀ key, key ∈ entry.insertions ↔ block.Inserts key
  removes : ∀ key, key ∈ entry.deletions ↔ block.Removes key

/-- The short keys of all insertions of some entries. -/
def insertedBy (records : List JournalEntry) : Multiset H256 :=
  ↑((records.flatMap JournalEntry.insertions).map toShortKey)

/-- The short keys of all insertions of the journal. -/
def journalled (journal : FiniteMap UInt64 (List JournalEntry)) : Multiset H256 :=
  FiniteMap.total (fun _ records => insertedBy records) journal

/-- The number of journalled blocks. -/
def blockCount (journal : FiniteMap UInt64 (List JournalEntry)) : Nat :=
  FiniteMap.total (fun _ records => records.length) journal

theorem insertedBy_append (first second : List JournalEntry) :
    insertedBy (first ++ second) = insertedBy first + insertedBy second := by
  rw [insertedBy, List.flatMap_append, List.map_append, ← Multiset.coe_add]
  rfl

/-- The memory of the database, for the blocks that are not settled. -/
structure Holds (hash : Bytes → H256) (content : H256 → DBValue) (used : Set H256)
    (overlay : JournalOverlay) (blocks : UInt64 → List (Block H256 H256)) : Prop where
  counts : Counts hash content used overlay (journalled overlay.journal)
  nonempty : ∀ era, overlay.journal.lookup era ≠ some []
  entries : ∀ era, List.Forall₂ EntryOf (overlay.records era) (blocks era)
  writes : ∀ era, ∀ block ∈ blocks era, UsesOnly content used block.net

theorem holds_new (hash : Bytes → H256) (content : H256 → DBValue) (used : Set H256) :
    Holds hash content used (.new hash) fun _ => [] where
  counts := counts_new hash content used
  nonempty era := by rw [JournalOverlay.new, AList.lookup_empty]; exact (Option.some_ne_none _).symm
  entries _ := List.Forall₂.nil
  writes _ block member := absurd member List.not_mem_nil

theorem records_of_lookup {era : UInt64} {records : List JournalEntry}
    (found : overlay.journal.lookup era = some records) : overlay.records era = records := by
  rw [JournalOverlay.records, found, Option.getD_some]

theorem records_of_none {era : UInt64} (none : overlay.journal.lookup era = none) :
    overlay.records era = [] := by
  rw [JournalOverlay.records, none, Option.getD_none]

theorem journalled_eq (overlay : JournalOverlay) (era : UInt64) :
    journalled overlay.journal =
      insertedBy (overlay.records era) + journalled (overlay.journal.erase era) := by
  cases found : overlay.journal.lookup era with
  | none =>
    rw [records_of_none found, FiniteMap.erase_of_lookup_none found]
    exact (zero_add _).symm
  | some records =>
    rw [records_of_lookup found, journalled, FiniteMap.total_of_lookup _ found, journalled]

theorem blockCount_eq (overlay : JournalOverlay) (era : UInt64) :
    blockCount overlay.journal =
      (overlay.records era).length + blockCount (overlay.journal.erase era) := by
  cases found : overlay.journal.lookup era with
  | none =>
    rw [records_of_none found, FiniteMap.erase_of_lookup_none found]
    exact (Nat.zero_add _).symm
  | some records =>
    rw [records_of_lookup found, blockCount, FiniteMap.total_of_lookup _ found, blockCount]

namespace Holds

variable {blocks : UInt64 → List (Block H256 H256)}

theorem used_of_mem (holds : Holds hash content used overlay blocks) {era : UInt64}
    {entry : JournalEntry} (member : entry ∈ overlay.records era) :
    ∃ block ∈ blocks era, EntryOf entry block := by
  obtain ⟨index, inside, rfl⟩ := List.mem_iff_getElem.mp member
  have inside' : index < (blocks era).length := (holds.entries era).length_eq ▸ inside
  exact ⟨(blocks era)[index], List.getElem_mem _,
    (List.forall₂_iff_get.mp (holds.entries era)).2 index inside inside'⟩

theorem entry_of_mem (holds : Holds hash content used overlay blocks) {era : UInt64}
    {block : Block H256 H256} (member : block ∈ blocks era) :
    ∃ entry ∈ overlay.records era, EntryOf entry block := by
  obtain ⟨index, inside, rfl⟩ := List.mem_iff_getElem.mp member
  have inside' : index < (overlay.records era).length := (holds.entries era).length_eq ▸ inside
  exact ⟨(overlay.records era)[index], List.getElem_mem _,
    (List.forall₂_iff_get.mp (holds.entries era)).2 index inside' inside⟩

/-- Journalled insertions are of nodes in use, with proper values. -/
theorem insertion_used (holds : Holds hash content used overlay blocks) {era : UInt64}
    {entry : JournalEntry} (member : entry ∈ overlay.records era) {key : H256}
    (inserted : key ∈ entry.insertions) : key ∈ used ∧ content key ≠ NULL_RLP := by
  obtain ⟨block, inside, entryOf⟩ := holds.used_of_mem member
  have positive := (entryOf.inserts key).mp inserted
  have both := holds.writes era block inside key (ne_of_gt positive)
  exact ⟨both.1, both.2 positive⟩

/-- A node in use is in memory exactly if a journalled block inserts it. -/
theorem mem_journalled (keyed : Keyed hash content used)
    (holds : Holds hash content used overlay blocks) {key : H256} (member : key ∈ used) :
    toShortKey key ∈ journalled overlay.journal ↔
      ∃ era, ∃ block ∈ blocks era, block.Inserts key := by
  constructor
  · intro inside
    obtain ⟨era, records, found, inPart⟩ := (FiniteMap.mem_total _ _ _).mp inside
    obtain ⟨other, otherIn, same⟩ := List.mem_map.mp (Multiset.mem_coe.mp inPart)
    obtain ⟨entry, entryIn, inserted⟩ := List.mem_flatMap.mp otherIn
    rw [← records_of_lookup found] at entryIn
    have otherUsed := (holds.insertion_used entryIn inserted).1
    obtain rfl := keyed.injOn otherUsed member same
    obtain ⟨block, inBlocks, entryOf⟩ := holds.used_of_mem entryIn
    exact ⟨era, block, inBlocks, (entryOf.inserts other).mp inserted⟩
  · rintro ⟨era, block, inBlocks, inserts⟩
    obtain ⟨entry, entryIn, entryOf⟩ := holds.entry_of_mem inBlocks
    rw [journalled_eq overlay era, Multiset.mem_add]
    refine Or.inl (Multiset.mem_coe.mpr (List.mem_map.mpr ⟨key, ?_, rfl⟩))
    exact List.mem_flatMap.mpr ⟨entry, entryIn, (entryOf.inserts key).mpr inserts⟩

theorem count_insertedBy_le (keyed : Keyed hash content used)
    (holds : Holds hash content used overlay blocks) (era : UInt64) (key : H256) :
    (insertedBy (overlay.records era)).count key ≤ (overlay.records era).length := by
  have each : ∀ records : List JournalEntry, (∀ entry ∈ records,
      (entry.insertions.map toShortKey).Nodup) → (insertedBy records).count key ≤ records.length := by
    intro records distinct
    induction records with
    | nil => exact le_rfl
    | cons head tail inductionHypothesis =>
      have first : insertedBy [head] = ↑(head.insertions.map toShortKey) := by
        rw [insertedBy, List.flatMap_cons, List.flatMap_nil, List.append_nil]
      have once := Multiset.coe_nodup.mpr (distinct head List.mem_cons_self)
      rw [← List.singleton_append, insertedBy_append, Multiset.count_add, List.length_append,
        first]
      exact Nat.add_le_add (Multiset.nodup_iff_count_le_one.mp once key)
        (inductionHypothesis fun entry member => distinct entry (List.mem_cons_of_mem _ member))
  refine each _ fun entry member => ?_
  obtain ⟨block, -, entryOf⟩ := holds.used_of_mem member
  exact List.Nodup.map_on (fun first inside second inside' same =>
    keyed.injOn (holds.insertion_used member inside).1 (holds.insertion_used member inside').1 same)
    entryOf.distinct

/-- A node is counted at most once for each journalled block. -/
theorem count_journalled_le (keyed : Keyed hash content used)
    (holds : Holds hash content used overlay blocks) (key : H256) :
    (journalled overlay.journal).count key ≤ blockCount overlay.journal := by
  refine FiniteMap.count_total_le fun era records found => ?_
  rw [← records_of_lookup found]
  exact holds.count_insertedBy_le keyed era key

/-! ### Recording a block -/

/-- A journal entry as it is written for a block. -/
structure Writes (content : H256 → DBValue) (value : RecentValue) (block : Block H256 H256) :
    Prop where
  name : value.id = block.name
  distinct : (value.inserts.map Prod.fst).Nodup
  inserts : ∀ key, key ∈ value.inserts.map Prod.fst ↔ block.Inserts key
  values : value.inserts = (value.inserts.map Prod.fst).map fun key => (key, content key)
  removes : ∀ key, key ∈ value.deletes ↔ block.Removes key

theorem record (keyed : Keyed hash content used) (holds : Holds hash content used overlay blocks)
    (era : UInt64) {value : RecentValue} {block : Block H256 H256}
    (writes : Writes content value block) (uses : UsesOnly content used block.net)
    (bound : blockCount overlay.journal + 1 < 2 ^ 31) :
    Holds hash content used (overlay.record era value)
      (Function.update blocks era (blocks era ++ [block])) := by
  have used_of : ∀ key ∈ value.inserts.map Prod.fst, key ∈ used ∧ content key ≠ NULL_RLP :=
    fun key member => by
      have positive := (writes.inserts key).mp member
      exact ⟨(uses key (ne_of_gt positive)).1, (uses key (ne_of_gt positive)).2 positive⟩
  have once : ((value.inserts.map Prod.fst).map toShortKey).Nodup :=
    List.Nodup.map_on (fun first inside second inside' same =>
      keyed.injOn (used_of first inside).1 (used_of second inside').1 same) writes.distinct
  have counted := holds.counts.foldl_emplace keyed (fun key member => (used_of key member).1)
    (fun key member => (used_of key member).2) fun key => by
      have single := List.nodup_iff_count_le_one.mp once key
      have many := holds.count_journalled_le keyed key
      omega
  rw [← writes.values] at counted
  have lookup : ∀ other, (overlay.record era value).journal.lookup other =
      if other = era then some (overlay.records era ++ [value.entry])
      else overlay.journal.lookup other := fun other => by
    rw [journal_record, FiniteMap.lookup_insert_eq]
  have total : journalled (overlay.record era value).journal =
      ↑((value.inserts.map Prod.fst).map toShortKey) + journalled overlay.journal := by
    have single : insertedBy [value.entry] = ↑((value.inserts.map Prod.fst).map toShortKey) := by
      rw [insertedBy, List.flatMap_cons, List.flatMap_nil, List.append_nil, RecentValue.entry]
    rw [journal_record, journalled, FiniteMap.total_insert, insertedBy_append, single,
      journalled_eq overlay era, journalled]
    abel
  refine ⟨?_, ?_, ?_, ?_⟩
  · rw [total]
    exact ⟨counted.known, counted.represents, counted.positive, counted.size⟩
  · intro other
    rw [lookup]
    split
    · rw [Ne, Option.some.injEq]
      exact List.append_ne_nil_of_right_ne_nil _ (List.cons_ne_nil _ _)
    · exact holds.nonempty other
  · intro other
    rw [records_record]
    by_cases same : other = era
    · rw [if_pos same, same, Function.update_self]
      refine List.rel_append (holds.entries era) (List.Forall₂.cons ?_ List.Forall₂.nil)
      exact ⟨writes.name, writes.distinct, writes.inserts, writes.removes⟩
    · rw [if_neg same, Function.update_of_ne same]
      exact holds.entries other
  · intro other written member
    by_cases same : other = era
    · rw [same, Function.update_self, List.mem_append, List.mem_singleton] at member
      rcases member with old | rfl
      · exact holds.writes era written old
      · exact uses
    · rw [Function.update_of_ne same] at member
      exact holds.writes other written member

/-! ### Settling an era -/

/-- What memory stands for does not depend on the pending nodes and the eras. -/
theorem congr {other : JournalOverlay} (holds : Holds hash content used overlay blocks)
    (nodes : other.backingOverlay = overlay.backingOverlay) (journal : other.journal = overlay.journal)
    (size : other.cumulativeSize = overlay.cumulativeSize) :
    Holds hash content used other blocks where
  counts := by
    rw [journal]
    exact ⟨nodes ▸ holds.counts.known, nodes ▸ holds.counts.represents,
      nodes ▸ holds.counts.positive, by rw [size, nodes]; exact holds.counts.size⟩
  nonempty := journal ▸ holds.nonempty
  entries era := by
    rw [JournalOverlay.records, journal]
    exact holds.entries era
  writes := holds.writes

/-- The insertions of an era are released, and those of the other eras stay. -/
theorem releaseEra (keyed : Keyed hash content used) (holds : Holds hash content used overlay blocks)
    (era : UInt64) (bound : blockCount overlay.journal < 2 ^ 31) {released : JournalOverlay}
    (nodes : released.backingOverlay = (((overlay.records era).flatMap JournalEntry.insertions).foldl
      JournalOverlay.release overlay).backingOverlay)
    (journal : released.journal = overlay.journal.erase era)
    (size : released.cumulativeSize = (((overlay.records era).flatMap JournalEntry.insertions).foldl
      JournalOverlay.release overlay).cumulativeSize) :
    Holds hash content used released (Function.update blocks era []) := by
  have counted := holds.counts
  rw [journalled_eq overlay era, insertedBy] at counted
  have rest := counted.foldl_release keyed
    (fun key member => by
      obtain ⟨entry, inside, inserted⟩ := List.mem_flatMap.mp member
      exact (holds.insertion_used inside inserted).1)
    (fun key => by
      have many := holds.count_journalled_le keyed key
      rw [journalled_eq overlay era, insertedBy] at many
      omega)
  have lookup : ∀ other, released.journal.lookup other =
      if other = era then none else overlay.journal.lookup other := fun other => by
    rw [journal, FiniteMap.lookup_erase_eq]
  refine ⟨?_, ?_, ?_, ?_⟩
  · rw [journal]
    exact ⟨nodes ▸ rest.known, nodes ▸ rest.represents, nodes ▸ rest.positive,
      by rw [size, nodes]; exact rest.size⟩
  · intro other
    rw [lookup]
    split
    · exact Option.some_ne_none _ ∘ Eq.symm
    · exact holds.nonempty other
  · intro other
    rw [JournalOverlay.records, lookup]
    by_cases same : other = era
    · rw [if_pos same, same, Function.update_self]
      exact List.Forall₂.nil
    · rw [if_neg same, Function.update_of_ne same]
      exact holds.entries other
  · intro other written member
    by_cases same : other = era
    · rw [same, Function.update_self] at member
      cases member
    · rw [Function.update_of_ne same] at member
      exact holds.writes other written member

/-- The canonical entries are those of the canonical blocks. -/
theorem entries_filter (holds : Holds hash content used overlay blocks) (era : UInt64)
    (canonId : H256) :
    List.Forall₂ EntryOf ((overlay.records era).filter fun entry => entry.id = canonId)
      ((blocks era).filter fun block => block.name = canonId) := by
  refine List.rel_filter (fun entry block entryOf => ?_) (holds.entries era)
  have same : decide (entry.id = canonId) = true ↔ decide (block.name = canonId) = true := by
    rw [decide_eq_true_iff, decide_eq_true_iff, entryOf.name]
  exact same

/-- Memory still holds everything the canonical blocks insert. -/
theorem canonInsertions_eq (keyed : Keyed hash content used)
    (holds : Holds hash content used overlay blocks) (era : UInt64) (canonId : H256) :
    OverlayRecentDB.canonInsertions overlay (overlay.records era) canonId =
      (((overlay.records era).filter fun entry => entry.id = canonId).flatMap
        JournalEntry.insertions).map fun key => (key, content key) := by
  rw [OverlayRecentDB.canonInsertions, List.map_flatMap]
  refine List.flatMap_congr fun entry member => ?_
  have inside := (List.mem_filter.mp member).1
  rw [← List.filterMap_eq_map]
  refine List.filterMap_congr fun key inserted => ?_
  have keyUsed := (holds.insertion_used inside inserted).1
  have inMemory : toShortKey key ∈ journalled overlay.journal := by
    obtain ⟨block, inBlocks, entryOf⟩ := holds.used_of_mem inside
    exact (holds.mem_journalled keyed keyUsed).mpr
      ⟨era, block, inBlocks, (entryOf.inserts key).mp inserted⟩
  obtain ⟨rc, positive, found⟩ := holds.counts.raw keyed keyUsed inMemory
  rw [found, Option.bind_some, if_pos positive]
  rfl

theorem mem_canonInsertions (holds : Holds hash content used overlay blocks) (era : UInt64)
    (canonId key : H256) :
    key ∈ ((overlay.records era).filter fun entry => entry.id = canonId).flatMap
        JournalEntry.insertions ↔
      ∃ block ∈ (blocks era).filter fun block => block.name = canonId, block.Inserts key := by
  rw [List.mem_flatMap]
  have related := holds.entries_filter era canonId
  constructor
  · rintro ⟨entry, member, inserted⟩
    obtain ⟨index, inside, rfl⟩ := List.mem_iff_getElem.mp member
    have lengths := related.length_eq
    have entryOf := (List.forall₂_iff_get.mp related).2 index inside (by omega)
    exact ⟨_, List.getElem_mem (by omega), (entryOf.inserts key).mp inserted⟩
  · rintro ⟨block, member, inserts⟩
    obtain ⟨index, inside, rfl⟩ := List.mem_iff_getElem.mp member
    have lengths := related.length_eq
    have entryOf := (List.forall₂_iff_get.mp related).2 index (by omega) inside
    exact ⟨_, List.getElem_mem (by omega), (entryOf.inserts key).mpr inserts⟩

theorem mem_canonDeletions (holds : Holds hash content used overlay blocks) (era : UInt64)
    (canonId key : H256) :
    key ∈ OverlayRecentDB.canonDeletions (overlay.records era) canonId ↔
      ∃ block, ((blocks era).filter fun block => block.name = canonId).getLast? = some block ∧
        block.Removes key := by
  have reversed := List.forall₂_reverse_iff.mpr (holds.entries_filter era canonId)
  rw [OverlayRecentDB.canonDeletions, ← List.head?_reverse, ← List.head?_reverse]
  generalize ((overlay.records era).filter fun entry => entry.id = canonId).reverse = entries,
    ((blocks era).filter fun block => block.name = canonId).reverse = canonical at reversed ⊢
  cases reversed with
  | nil => simp
  | cons entryOf rest =>
    rw [List.head?_cons, List.head?_cons, Option.map_some, Option.getD_some, entryOf.removes]
    simp

end Holds

end AuthStorage.ParityJournaldb
