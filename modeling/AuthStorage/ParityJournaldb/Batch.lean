/-
This file is about batches: what a column holds after a run of deletions, or of
insertions that agree on the value of each key, and after a journal entry has been
entered and the latest era updated. The journal databases collect such runs in one
batch and write it at the end.
-/

import AuthStorage.ParityJournaldb.Util

namespace AuthStorage.ParityJournaldb

open AuthStorage.Lvmt (Bytes DBColumn DBOp)

/-! ### Parts of a batch -/

theorem writeBuffered_append (db : DBColumn) (first second : List DBOp) :
    db.writeBuffered (first ++ second) = (db.writeBuffered first).writeBuffered second := by
  rw [DBColumn.writeBuffered, List.foldl_append]
  rfl

theorem writeBuffered_delete (db : DBColumn) (keys : List Bytes) (key : Bytes) :
    db.writeBuffered (keys.map DBOp.delete) key = if key ∈ keys then none else db key := by
  induction keys generalizing db with
  | nil => rfl
  | cons head tail inductionHypothesis =>
    rw [List.map_cons, DBColumn.writeBuffered_cons, inductionHypothesis]
    by_cases later : key ∈ tail
    · rw [if_pos later, if_pos (List.mem_cons_of_mem _ later)]
    · rw [if_neg later, DBOp.apply]
      by_cases here : key = head
      · rw [here, Function.update_self, if_pos List.mem_cons_self]
      · rw [Function.update_of_ne here,
          if_neg (fun member => (List.mem_cons.mp member).elim here later)]

/-- Insertions that give each key the value `content` says. -/
theorem writeBuffered_insert {α : Type} (db : DBColumn) {name : α → Bytes} {content : α → Bytes}
    {items : List α} (agree : ∀ first ∈ items, ∀ second ∈ items,
      name first = name second → content first = content second) (key : Bytes) :
    db.writeBuffered (items.map fun item => DBOp.insert (name item) (content item)) key =
      ((items.find? fun item => name item == key).map content).or (db key) := by
  induction items generalizing db with
  | nil => rfl
  | cons head tail inductionHypothesis =>
    have agree' := fun first inside second inside' =>
      agree first (List.mem_cons_of_mem head inside) second (List.mem_cons_of_mem head inside')
    rw [List.map_cons, DBColumn.writeBuffered_cons, inductionHypothesis _ agree', DBOp.apply]
    by_cases here : name head = key
    · rw [List.find?_cons_of_pos (by simpa using here), Option.map_some, Option.some_or]
      cases found : tail.find? fun item => name item == key with
      | none => rw [Option.map_none, Option.none_or, ← here, Function.update_self]
      | some item =>
        have member := List.mem_of_find?_eq_some found
        have named : name item = key := by simpa using List.find?_some found
        rw [Option.map_some, Option.some_or, agree item (List.mem_cons_of_mem _ member) head
          List.mem_cons_self (named.trans here.symm)]
    · rw [List.find?_cons_of_neg (by simpa using here), Function.update_of_ne (Ne.symm here)]

/-! ### Nodes -/

/-- Write nodes under their hashes. -/
def putNodes (nodes : List (H256 × DBValue)) : List DBOp :=
  nodes.map fun node => DBOp.insert node.1.asBytes node.2

/-- Delete the nodes with these hashes. -/
def deleteNodes (keys : List H256) : List DBOp := keys.map fun key => DBOp.delete key.asBytes

theorem mem_putNodes_key {nodes : List (H256 × DBValue)} {op : DBOp} (member : op ∈ putNodes nodes) :
    ∃ node : H256, op.key = node.asBytes := by
  obtain ⟨node, -, rfl⟩ := List.mem_map.mp member
  exact ⟨node.1, rfl⟩

theorem mem_deleteNodes_key {keys : List H256} {op : DBOp} (member : op ∈ deleteNodes keys) :
    ∃ node : H256, op.key = node.asBytes := by
  obtain ⟨node, -, rfl⟩ := List.mem_map.mp member
  exact ⟨node, rfl⟩

/-- Nodes are put with the values `content` says. -/
theorem writeBuffered_putNodes (db : DBColumn) (content : H256 → DBValue) (keys : List H256)
    (node : H256) :
    db.writeBuffered (putNodes (keys.map fun key => (key, content key))) node.asBytes =
      if node ∈ keys then some (content node) else db node.asBytes := by
  have agree : ∀ first ∈ keys, ∀ second ∈ keys, first.asBytes = second.asBytes →
      content first = content second := fun first _ second _ same => by
    rw [H256.asBytes_injective same]
  rw [putNodes, List.map_map]
  refine (writeBuffered_insert db agree node.asBytes).trans ?_
  cases found : keys.find? fun key => key.asBytes == node.asBytes with
  | none =>
    have absent : node ∉ keys := fun member => by
      have other := List.find?_eq_none.mp found node member
      rw [beq_self_eq_true] at other
      exact other rfl
    rw [if_neg absent]
    rfl
  | some key =>
    have named : key.asBytes = node.asBytes := by simpa using List.find?_some found
    obtain rfl := H256.asBytes_injective named
    rw [if_pos (List.mem_of_find?_eq_some found)]
    rfl

theorem writeBuffered_deleteNodes (db : DBColumn) (keys : List H256) (node : H256) :
    db.writeBuffered (deleteNodes keys) node.asBytes =
      if node ∈ keys then none else db node.asBytes := by
  have written : deleteNodes keys = (keys.map H256.asBytes).map DBOp.delete := by
    rw [deleteNodes, List.map_map]
    rfl
  rw [written, writeBuffered_delete]
  simp only [List.mem_map_of_injective H256.asBytes_injective]

/-- Writing nodes leaves everything else alone. -/
theorem writeBuffered_putNodes_of_ne (db : DBColumn) (nodes : List (H256 × DBValue)) {key : Bytes}
    (other : ∀ node : H256, node.asBytes ≠ key) :
    db.writeBuffered (putNodes nodes) key = db key := by
  refine DBColumn.writeBuffered_of_notMem db _ fun op member same => ?_
  obtain ⟨node, named⟩ := mem_putNodes_key member
  exact other node (by rw [← named, same])

theorem writeBuffered_deleteNodes_of_ne (db : DBColumn) (keys : List H256) {key : Bytes}
    (other : ∀ node : H256, node.asBytes ≠ key) :
    db.writeBuffered (deleteNodes keys) key = db key := by
  refine DBColumn.writeBuffered_of_notMem db _ fun op member same => ?_
  obtain ⟨node, named⟩ := mem_deleteNodes_key member
  exact other node (by rw [← named, same])

/-! ### Journal entries -/

/-- Delete the first `count` journal entries of an era. -/
def deleteEntries (era : UInt64) (count : Nat) : List DBOp :=
  (List.range count).map fun index => DBOp.delete (DatabaseKey.encode ⟨era, index⟩)

theorem writeBuffered_deleteEntries (db : DBColumn) (era : UInt64) (count : Nat) (key : Bytes) :
    db.writeBuffered (deleteEntries era count) key =
      if ∃ index < count, DatabaseKey.encode ⟨era, index⟩ = key then none else db key := by
  have written : deleteEntries era count =
      ((List.range count).map fun index => DatabaseKey.encode ⟨era, index⟩).map DBOp.delete := by
    rw [deleteEntries, List.map_map]
    rfl
  rw [written, writeBuffered_delete]
  simp only [List.mem_map, List.mem_range]

theorem writeBuffered_deleteEntries_encode (db : DBColumn) (era : UInt64) (count : Nat)
    (key : DatabaseKey) :
    db.writeBuffered (deleteEntries era count) key.encode =
      if key.era = era ∧ key.index < count then none else db key.encode := by
  rw [writeBuffered_deleteEntries]
  refine if_congr ⟨?_, ?_⟩ rfl rfl
  · rintro ⟨index, small, same⟩
    rw [← DatabaseKey.encode_injective same]
    exact ⟨rfl, small⟩
  · rintro ⟨sameEra, small⟩
    exact ⟨key.index, small, by rw [← sameEra]⟩

/-- Deleting entries touches journal keys only. -/
theorem writeBuffered_deleteEntries_of_ne (db : DBColumn) (era : UInt64) {count : Nat} {key : Bytes}
    (other : ∀ index < count, DatabaseKey.encode ⟨era, index⟩ ≠ key) :
    db.writeBuffered (deleteEntries era count) key = db key := by
  rw [writeBuffered_deleteEntries, if_neg]
  rintro ⟨index, small, same⟩
  exact other index small same

/-! ### The latest era -/

/-- Whether `now` is later than the era, if there is one. -/
def isLater (now : UInt64) : Option UInt64 → Bool
  | none => true
  | some era => decide (era < now)

/-- The later one of the latest era and the present one. -/
def laterEra (latestEra : Option UInt64) (now : UInt64) : Option UInt64 :=
  if isLater now latestEra then some now else latestEra

/-- The latest era is written only when it changes. -/
def putLatestEra (latestEra : Option UInt64) (now : UInt64) : List DBOp :=
  if isLater now latestEra then [DBOp.insert LATEST_ERA_KEY (encodeEra now)] else []

theorem writeBuffered_putLatestEra {db : DBColumn} {latestEra : Option UInt64}
    (stored : db LATEST_ERA_KEY = latestEra.map encodeEra) (now : UInt64) :
    db.writeBuffered (putLatestEra latestEra now) LATEST_ERA_KEY =
      (laterEra latestEra now).map encodeEra := by
  rw [putLatestEra, laterEra]
  split
  · rw [DBColumn.writeBuffered_cons, DBOp.apply]
    exact Function.update_self LATEST_ERA_KEY _ db
  · exact stored

theorem writeBuffered_putLatestEra_of_ne (db : DBColumn) (latestEra : Option UInt64) (now : UInt64)
    {key : Bytes} (other : key ≠ LATEST_ERA_KEY) :
    db.writeBuffered (putLatestEra latestEra now) key = db key := by
  rw [putLatestEra]
  split
  · rw [DBColumn.writeBuffered_cons, DBOp.apply]
    exact Function.update_of_ne other _ db
  · rfl

/-! ### A new journal entry -/

/-- A journal entry, and the latest era with it. -/
def putEntry (key : DatabaseKey) (value : Bytes) (latestEra : Option UInt64) (now : UInt64) :
    List DBOp :=
  DBOp.insert key.encode value :: putLatestEra latestEra now

section

variable (db : DBColumn) {entry : DatabaseKey} (value : Bytes) (latestEra : Option UInt64)
  (now : UInt64)

theorem writeBuffered_putEntry_of_ne {key : Bytes} (notEntry : key ≠ entry.encode)
    (notLatest : key ≠ LATEST_ERA_KEY) :
    db.writeBuffered (putEntry entry value latestEra now) key = db key := by
  rw [putEntry, DBColumn.writeBuffered_cons, writeBuffered_putLatestEra_of_ne _ _ _ notLatest,
    DBOp.apply, Function.update_of_ne notEntry]

theorem writeBuffered_putEntry_node (small : entry.index < 2 ^ 64) (node : H256) :
    db.writeBuffered (putEntry entry value latestEra now) node.asBytes = db node.asBytes :=
  writeBuffered_putEntry_of_ne db value latestEra now
    (DatabaseKey.encode_ne_asBytes small node).symm (asBytes_ne_latestEraKey node)

theorem writeBuffered_putEntry_encode {key : DatabaseKey} (small : key.index < 2 ^ 64) :
    db.writeBuffered (putEntry entry value latestEra now) key.encode =
      if key.era = entry.era ∧ key.index = entry.index then some value else db key.encode := by
  have notLatest := DatabaseKey.encode_ne_latestEraKey small
  by_cases same : key.era = entry.era ∧ key.index = entry.index
  · have equal : key = entry := by
      obtain ⟨era, index⟩ := key
      obtain ⟨era', index'⟩ := entry
      obtain ⟨rfl, rfl⟩ := same
      rfl
    rw [if_pos same, putEntry, DBColumn.writeBuffered_cons,
      writeBuffered_putLatestEra_of_ne _ _ _ notLatest, equal, DBOp.apply, Function.update_self]
  · rw [if_neg same]
    refine writeBuffered_putEntry_of_ne db value latestEra now (fun equal => same ?_) notLatest
    have keys := DatabaseKey.encode_injective equal
    exact ⟨congrArg DatabaseKey.era keys, congrArg DatabaseKey.index keys⟩

theorem writeBuffered_putEntry_latest (small : entry.index < 2 ^ 64)
    (stored : db LATEST_ERA_KEY = latestEra.map encodeEra) :
    db.writeBuffered (putEntry entry value latestEra now) LATEST_ERA_KEY =
      (laterEra latestEra now).map encodeEra := by
  rw [putEntry, DBColumn.writeBuffered_cons]
  refine writeBuffered_putLatestEra ?_ now
  rw [← stored, DBOp.apply,
    Function.update_of_ne (DatabaseKey.encode_ne_latestEraKey small).symm]

end

end AuthStorage.ParityJournaldb
