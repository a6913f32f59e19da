/-
This file is about what the journal databases of `traits.rs` share: the writes of
the `HashDB` interface, which go to an overlay in memory until they are journalled,
and the block such an overlay amounts to. A block is the signed count of every
node: inserted more often than removed, removed more often than inserted, or left
alone. Draining the overlay, in whatever order, gives the block.
-/

import AuthStorage.ParityJournaldb.Util

namespace AuthStorage.ParityJournaldb

open AuthStorage.Lvmt (Bytes DBColumn DBOp)

/-! ### The writes of `HashDB` -/

/-- A call of `HashDB` that changes the database. -/
inductive HashOp
  | insert (value : DBValue)
  | emplace (key : H256) (value : DBValue)
  | remove (key : H256)

namespace HashOp

variable (hash : Bytes → H256)

/-- The hash under which the call changes the database. -/
def key : HashOp → H256
  | insert value => hash value
  | emplace key _ => key
  | remove key => key

/-- By how much the call changes the references. -/
def delta : HashOp → Int
  | insert _ => 1
  | emplace _ _ => 1
  | remove _ => -1

/-- A node is named by the hash of its value, and `content` knows the value of each name. -/
def Addressed (content : H256 → DBValue) : HashOp → Prop
  | insert value => content (hash value) = value
  | emplace key value => key = hash value ∧ content key = value
  | remove _ => True

/-- What a write does to the counts; the null node is never counted. -/
def effect (net : H256 → Int) (op : HashOp) : H256 → Int :=
  if op.key hash = hash NULL_RLP then net
  else Function.update net (op.key hash) (net (op.key hash) + op.delta)

end HashOp

/-- A write to the overlay. -/
def MemoryDB.apply (hash : Bytes → H256) (db : MemoryDB H256 DBValue) :
    HashOp → MemoryDB H256 DBValue
  | .insert value => (db.insert hash value).2
  | .emplace key value => db.emplace key value
  | .remove key => db.remove key

/-! ### Overlays -/

/-- An overlay made by `new_memory_db`. -/
structure KnowsNull (hash : Bytes → H256) (db : MemoryDB H256 DBValue) : Prop where
  key : db.hashedNullNode = hash NULL_RLP
  data : db.nullNodeData = NULL_RLP

theorem knowsNull_newMemoryDb (hash : Bytes → H256) : KnowsNull hash (newMemoryDb hash) :=
  ⟨rfl, rfl⟩

theorem KnowsNull.clear {hash : Bytes → H256} {db : MemoryDB H256 DBValue}
    (known : KnowsNull hash db) : KnowsNull hash db.clear := ⟨known.key, known.data⟩

theorem KnowsNull.plainEmplace {hash : Bytes → H256} {db : MemoryDB H256 DBValue}
    (known : KnowsNull hash db) (key : H256) (value : DBValue) :
    KnowsNull hash (db.plainEmplace key value) :=
  ⟨by rw [MemoryDB.plainEmplace_hashedNullNode, known.key],
    by rw [MemoryDB.plainEmplace_nullNodeData, known.data]⟩

theorem KnowsNull.plainRemove {hash : Bytes → H256} {db : MemoryDB H256 DBValue}
    (known : KnowsNull hash db) (key : H256) : KnowsNull hash (db.plainRemove key) :=
  ⟨by rw [MemoryDB.plainRemove_hashedNullNode, known.key],
    by rw [MemoryDB.plainRemove_nullNodeData, known.data]⟩

theorem KnowsNull.removeAndPurge {hash : Bytes → H256} {db : MemoryDB H256 DBValue}
    (known : KnowsNull hash db) (key : H256) : KnowsNull hash (db.removeAndPurge key).2 :=
  ⟨by rw [MemoryDB.removeAndPurge_hashedNullNode, known.key],
    by rw [MemoryDB.removeAndPurge_nullNodeData, known.data]⟩

section

variable {hash : Bytes → H256} {content : H256 → DBValue} {db : MemoryDB H256 DBValue}
  {net : H256 → Int}

/-- Counts that cannot overflow yet. -/
def Within (net : H256 → Int) (limit : Nat) : Prop := ∀ key, -limit ≤ net key ∧ net key ≤ limit

theorem Within.effect {limit : Nat} (within : Within net limit) (op : HashOp) :
    Within (op.effect hash net) (limit + 1) := by
  intro key
  have old := within key
  rw [HashOp.effect]
  split
  · constructor <;> push_cast <;> omega
  · by_cases same : key = op.key hash
    · rw [same, Function.update_self]
      have here := within (op.key hash)
      have unit : op.delta = 1 ∨ op.delta = -1 := by cases op <;> simp [HashOp.delta]
      constructor <;> push_cast <;> omega
    · rw [Function.update_of_ne same]
      constructor <;> push_cast <;> omega

/-- With values that are told apart by their hash, the null node is known by its value. -/
theorem hash_eq_null_iff (null : content (hash NULL_RLP) = NULL_RLP) {value : DBValue}
    (addressed : content (hash value) = value) :
    value = NULL_RLP ↔ hash value = hash NULL_RLP :=
  ⟨fun same => by rw [same], fun same => by rw [← addressed, same, null]⟩

theorem MemoryDB.Represents.insertValue (represents : db.Represents content net)
    (known : KnowsNull hash db) (null : content (hash NULL_RLP) = NULL_RLP) {value : DBValue}
    (addressed : content (hash value) = value) (bound : IsI32 (net (hash value) + 1)) :
    (db.emplace (hash value) value).Represents content
        ((HashOp.insert value).effect hash net) ∧
      KnowsNull hash (db.emplace (hash value) value) := by
  have nulls := hash_eq_null_iff null addressed
  rw [MemoryDB.emplace, known.data, HashOp.effect, HashOp.key]
  by_cases isNull : value = NULL_RLP
  · rw [if_pos isNull, if_pos (nulls.mp isNull)]
    exact ⟨represents, known⟩
  · rw [if_neg isNull, if_neg (mt nulls.mpr isNull)]
    exact ⟨represents.plainEmplace addressed.symm bound, known.plainEmplace _ _⟩

/-- Every write is the arithmetic of the counts. -/
theorem MemoryDB.Represents.apply (represents : db.Represents content net)
    (known : KnowsNull hash db) (null : content (hash NULL_RLP) = NULL_RLP) {op : HashOp}
    (addressed : op.Addressed hash content) {limit : Nat} (within : Within net limit)
    (small : limit < 2 ^ 31 - 1) :
    (db.apply hash op).Represents content (op.effect hash net) ∧
      KnowsNull hash (db.apply hash op) := by
  have bound : ∀ key, IsI32 (net key + 1) ∧ IsI32 (net key - 1) := by
    intro key
    have both := within key
    exact ⟨⟨by omega, by omega⟩, by omega, by omega⟩
  cases op with
  | insert value =>
    have same : (db.insert hash value).2 = db.emplace (hash value) value := by
      rw [MemoryDB.insert, MemoryDB.emplace]
      split <;> rfl
    rw [MemoryDB.apply, same]
    exact represents.insertValue known null addressed (bound _).1
  | emplace key value =>
    obtain ⟨rfl, stored⟩ := addressed
    exact represents.insertValue known null stored (bound _).1
  | remove key =>
    rw [MemoryDB.apply, MemoryDB.remove, known.key]
    by_cases isNull : key = hash NULL_RLP
    · rw [if_pos isNull, HashOp.effect, HashOp.key, if_pos isNull]
      exact ⟨represents, known⟩
    · rw [if_neg isNull, HashOp.effect, HashOp.key, if_neg isNull]
      exact ⟨represents.plainRemove (bound key).2, known.plainRemove key⟩

/-- The nodes a write can insert. -/
theorem HashOp.of_lt_effect {op : HashOp} {key : H256} (more : net key < op.effect hash net key) :
    key = op.key hash ∧ key ≠ hash NULL_RLP ∧ op.delta = 1 := by
  rw [HashOp.effect] at more
  split at more
  · exact absurd more (lt_irrefl _)
  · next proper =>
    by_cases same : key = op.key hash
    · subst same
      rw [Function.update_self] at more
      refine ⟨rfl, proper, ?_⟩
      cases op with
      | insert value => rfl
      | emplace key value => rfl
      | remove key =>
        rw [HashOp.delta] at more
        omega
    · rw [Function.update_of_ne same] at more
      exact absurd more (lt_irrefl _)

/-- An inserted node is named by the hash of its value. -/
theorem HashOp.Addressed.named {op : HashOp} (addressed : op.Addressed hash content)
    (unit : op.delta = 1) : hash (content (op.key hash)) = op.key hash := by
  cases op with
  | insert value =>
    rw [HashOp.key, addressed]
  | emplace key value =>
    obtain ⟨named, stored⟩ := addressed
    rw [HashOp.key, stored, ← named]
  | remove key =>
    rw [HashOp.delta] at unit
    omega

end

/-! ### Blocks -/

/-- The hashes of the nodes that a transaction inserts. -/
def insertedKeys (tx : List (H256 × DBValue × Int)) : List H256 :=
  tx.filterMap fun entry => if 0 < entry.2.2 then some entry.1 else none

/-- The hashes of the nodes that a transaction removes. -/
def removedKeys (tx : List (H256 × DBValue × Int)) : List H256 :=
  tx.filterMap fun entry => if entry.2.2 < 0 then some entry.1 else none

/-- The nodes that a transaction inserts. -/
def insertions (tx : List (H256 × DBValue × Int)) : List (H256 × DBValue) :=
  tx.filterMap fun entry => if 0 < entry.2.2 then some (entry.1, entry.2.1) else none

section

variable {content : H256 → DBValue} {db : MemoryDB H256 DBValue} {net : H256 → Int}
  (walk : Walk H256 (DBValue × Int))

theorem mem_insertedKeys (represents : db.Represents content net) {key : H256} :
    key ∈ insertedKeys (db.drain walk).1 ↔ 0 < net key := by
  rw [insertedKeys, List.mem_filterMap]
  constructor
  · rintro ⟨entry, member, found⟩
    have stored : db.data.lookup entry.1 = some entry.2 := (FiniteMap.mem_walk walk).mp member
    split at found
    · next positive =>
      rw [Option.some.injEq] at found
      rw [← found, ← represents.counted, MemoryDB.refs_of_lookup stored]
      exact positive
    · cases found
  · intro positive
    have stored := represents.lookup positive
    exact ⟨(key, content key, net key), (FiniteMap.mem_walk walk).mpr stored, if_pos positive⟩

theorem mem_removedKeys (represents : db.Represents content net) {key : H256} :
    key ∈ removedKeys (db.drain walk).1 ↔ net key < 0 := by
  rw [removedKeys, List.mem_filterMap]
  constructor
  · rintro ⟨entry, member, found⟩
    have stored : db.data.lookup entry.1 = some entry.2 := (FiniteMap.mem_walk walk).mp member
    split at found
    · next negative =>
      rw [Option.some.injEq] at found
      rw [← found, ← represents.counted, MemoryDB.refs_of_lookup stored]
      exact negative
    · cases found
  · intro negative
    rw [← represents.counted key] at negative
    cases stored : db.data.lookup key with
    | none =>
      rw [MemoryDB.refs_of_none stored] at negative
      exact absurd negative (lt_irrefl 0)
    | some entry =>
      rw [MemoryDB.refs_of_lookup stored] at negative
      exact ⟨(key, entry), (FiniteMap.mem_walk walk).mpr stored, if_pos negative⟩

theorem nodup_insertedKeys (db : MemoryDB H256 DBValue) :
    (insertedKeys (db.drain walk).1).Nodup := by
  have sublist : (insertedKeys (db.drain walk).1).Sublist ((db.drain walk).1.map Prod.fst) := by
    rw [insertedKeys]
    generalize (db.drain walk).1 = entries
    induction entries with
    | nil => exact List.Sublist.slnil
    | cons head tail inductionHypothesis =>
      rw [List.filterMap_cons, List.map_cons]
      split
      · exact inductionHypothesis.cons _
      · next key found =>
        split at found
        · rw [Option.some.injEq] at found
          rw [found]
          exact inductionHypothesis.cons_cons _
        · cases found
  exact sublist.nodup (FiniteMap.nodup_walk walk db.data)

/-- The inserted nodes go into the journal with their values. -/
theorem insertions_eq (represents : db.Represents content net) :
    insertions (db.drain walk).1 =
      (insertedKeys (db.drain walk).1).map fun key => (key, content key) := by
  have right : ∀ entry ∈ (db.drain walk).1, 0 < entry.2.2 → entry.2.1 = content entry.1 :=
    fun entry member positive => represents.valued entry.1 entry.2.1 entry.2.2
      ((FiniteMap.mem_walk walk).mp member) (le_of_lt positive)
  rw [insertions, insertedKeys, List.map_filterMap]
  refine List.filterMap_congr fun entry member => ?_
  split
  · next positive => rw [Option.map_some, right entry member positive]
  · rfl

end

end AuthStorage.ParityJournaldb
