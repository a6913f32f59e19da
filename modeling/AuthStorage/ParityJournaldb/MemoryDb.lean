/-
This file models `memory-db`, the reference-counted database in memory that the
journal databases are built from. Every key has a signed count: inserting adds
one, removing takes one away, and a value is visible while its count is positive.
The file states which counts a database stands for and proves that each operation
is the arithmetic of these counts. Counts are `i32`, so the rules carry a bound.
-/

import AuthStorage.Library.FiniteMap
import AuthStorage.Lvmt.Storage

namespace AuthStorage.ParityJournaldb

open AuthStorage.Lvmt (Bytes)

/-! ### The database -/

/-- `i32` addition, which wraps in a release build. -/
def addI32 (first second : Int) : Int := (first + second).bmod (2 ^ 32)

/-- The number fits into 32 bits with a sign. -/
def IsI32 (number : Int) : Prop := -2 ^ 31 ≤ number ∧ number < 2 ^ 31

theorem addI32_of_isI32 {first second : Int} (bounds : IsI32 (first + second)) :
    addI32 first second = first + second := by
  obtain ⟨low, high⟩ := bounds
  exact Int.bmod_eq_of_le (by omega) (by omega)

/-- Values with their reference counts, which may be negative. The null node is always there and is
never stored. -/
structure MemoryDB (K T : Type) where
  data : FiniteMap K (T × Int)
  hashedNullNode : K
  nullNodeData : T

namespace MemoryDB

variable {K T : Type} [DecidableEq K]

/-- A database without entries; `nullKey` is hashed to the key of the null node. -/
def fromNullNode (hash : Bytes → K) (nullKey : Bytes) (nullNodeData : T) : MemoryDB K T :=
  ⟨∅, hash nullKey, nullNodeData⟩

/-- Remove an element and drop its entry if that was the last reference; the dropped value. -/
def removeAndPurge [Inhabited T] (db : MemoryDB K T) (key : K) : Option T × MemoryDB K T :=
  if key = db.hashedNullNode then (none, db)
  else
    match db.data.lookup key with
    | some (value, rc) =>
      if rc = 1 then (some value, { db with data := db.data.erase key })
      else (none, { db with data := db.data.insert key (value, addI32 rc (-1)) })
    | none => (none, { db with data := db.data.insert key (default, -1) })

/-- Every entry is dropped. -/
def clear (db : MemoryDB K T) : MemoryDB K T := { db with data := ∅ }

/-- The entries, in the order of the walk, and the cleared database. -/
def drain (walk : Walk K (T × Int)) (db : MemoryDB K T) :
    List (K × T × Int) × MemoryDB K T :=
  (walk.entries db.data, db.clear)

/-- The value and the count, also when the value is not visible. -/
def raw (db : MemoryDB K T) (key : K) : Option (T × Int) :=
  if key = db.hashedNullNode then some (db.nullNodeData, 1) else db.data.lookup key

/-! ### `PlainDB` -/

/-- A value is found when its count is positive; the null node is not treated apart. -/
def plainGet (db : MemoryDB K T) (key : K) : Option T :=
  match db.data.lookup key with
  | some (value, rc) => if 0 < rc then some value else none
  | none => none

/-- `plainGet` finds a value. -/
def plainContains (db : MemoryDB K T) (key : K) : Bool :=
  match db.data.lookup key with
  | some (_, rc) => decide (0 < rc)
  | none => false

/-- One reference more. The value is replaced when no reference was left. -/
def plainEmplace (db : MemoryDB K T) (key : K) (value : T) : MemoryDB K T :=
  match db.data.lookup key with
  | some (oldValue, rc) =>
    { db with data := db.data.insert key (if rc ≤ 0 then value else oldValue, addI32 rc 1) }
  | none => { db with data := db.data.insert key (value, 1) }

/-- One reference less, and the count is `-1` when there was no entry. -/
def plainRemove [Inhabited T] (db : MemoryDB K T) (key : K) : MemoryDB K T :=
  match db.data.lookup key with
  | some (value, rc) => { db with data := db.data.insert key (value, addI32 rc (-1)) }
  | none => { db with data := db.data.insert key (default, -1) }

/-! ### `HashDB`, which knows the null node -/

/-- `plainGet`, except that the null node is always found. -/
def get (db : MemoryDB K T) (key : K) : Option T :=
  if key = db.hashedNullNode then some db.nullNodeData else db.plainGet key

/-- `plainContains`, except that the null node is always there. -/
def contains (db : MemoryDB K T) (key : K) : Bool :=
  if key = db.hashedNullNode then true else db.plainContains key

/-- `plainEmplace`, except that the null node is not stored. -/
def emplace [DecidableEq T] (db : MemoryDB K T) (key : K) (value : T) : MemoryDB K T :=
  if value = db.nullNodeData then db else db.plainEmplace key value

/-- `plainRemove`, except that the null node stays. -/
def remove [Inhabited T] (db : MemoryDB K T) (key : K) : MemoryDB K T :=
  if key = db.hashedNullNode then db else db.plainRemove key

/-- The key of the value, which is its hash. -/
def insert (hash : Bytes → K) (db : MemoryDB K Bytes) (value : Bytes) :
    K × MemoryDB K Bytes :=
  if value = db.nullNodeData then (db.hashedNullNode, db)
  else (hash value, db.plainEmplace (hash value) value)

/-! ### What a database stands for -/

/-- The count of a key, zero if there is no entry. -/
def refs (db : MemoryDB K T) (key : K) : Int := (db.data.lookup key).elim 0 Prod.snd

theorem refs_of_lookup {db : MemoryDB K T} {key : K} {value : T} {rc : Int}
    (stored : db.data.lookup key = some (value, rc)) : db.refs key = rc := by
  rw [refs, stored, Option.elim_some]

theorem refs_of_none {db : MemoryDB K T} {key : K} (absent : db.data.lookup key = none) :
    db.refs key = 0 := by
  rw [refs, absent, Option.elim_none]

/-- The counts, and the values of the keys whose count is not negative. The value under a
negative count is never read. -/
structure Represents (db : MemoryDB K T) (content : K → T) (count : K → Int) : Prop where
  counted : ∀ key, db.refs key = count key
  valued : ∀ key value rc, db.data.lookup key = some (value, rc) → 0 ≤ rc → value = content key

variable {db : MemoryDB K T} {content : K → T} {count : K → Int}

theorem represents_of_data_empty (empty : db.data = ∅) : db.Represents content fun _ => 0 where
  counted key := refs_of_none (by rw [empty]; exact AList.lookup_empty key)
  valued key value rc stored := by
    rw [empty, AList.lookup_empty] at stored
    cases stored

theorem represents_fromNullNode (hash : Bytes → K) (nullKey : Bytes) (nullNodeData : T) :
    (fromNullNode hash nullKey nullNodeData).Represents content fun _ => 0 :=
  represents_of_data_empty rfl

theorem represents_clear (db : MemoryDB K T) : db.clear.Represents content fun _ => 0 :=
  represents_of_data_empty rfl

theorem Represents.lookup (represents : db.Represents content count) {key : K}
    (positive : 0 < count key) : db.data.lookup key = some (content key, count key) := by
  rw [← represents.counted key] at positive ⊢
  cases stored : db.data.lookup key with
  | none =>
    rw [refs_of_none stored] at positive
    exact absurd positive (lt_irrefl 0)
  | some entry =>
    obtain ⟨value, rc⟩ := entry
    rw [refs_of_lookup stored] at positive ⊢
    rw [represents.valued key value rc stored (le_of_lt positive)]

/-- Every operation but purging writes one entry. -/
theorem Represents.write (represents : db.Represents content count) {key : K} {value : T}
    {rc : Int} (right : 0 ≤ rc → value = content key) :
    ({ db with data := db.data.insert key (value, rc) } : MemoryDB K T).Represents content
      (Function.update count key rc) where
  counted other := by
    by_cases same : other = key
    · subst same
      rw [Function.update_self]
      exact refs_of_lookup (AList.lookup_insert _)
    · rw [Function.update_of_ne same, ← represents.counted other, refs,
        AList.lookup_insert_ne same, refs]
  valued other stored rc' found visible := by
    by_cases same : other = key
    · subst same
      rw [AList.lookup_insert, Option.some.injEq, Prod.mk.injEq] at found
      rw [← found.1]
      exact right (found.2 ▸ visible)
    · rw [AList.lookup_insert_ne same] at found
      exact represents.valued other stored rc' found visible

theorem Represents.plainEmplace (represents : db.Represents content count) {key : K} {value : T}
    (right : value = content key) (bound : IsI32 (count key + 1)) :
    (db.plainEmplace key value).Represents content
      (Function.update count key (count key + 1)) := by
  have counted := represents.counted key
  rw [MemoryDB.plainEmplace]
  split
  · next oldValue rc stored =>
    rw [refs_of_lookup stored] at counted
    rw [← counted] at bound ⊢
    rw [addI32_of_isI32 bound]
    refine represents.write fun _ => ?_
    split
    · exact right
    · next seen => exact represents.valued key oldValue rc stored (by omega)
  · next absent =>
    rw [refs_of_none absent] at counted
    rw [← counted]
    exact represents.write fun _ => right

theorem Represents.plainRemove [Inhabited T] (represents : db.Represents content count) {key : K}
    (bound : IsI32 (count key - 1)) :
    (db.plainRemove key).Represents content (Function.update count key (count key - 1)) := by
  have counted := represents.counted key
  rw [MemoryDB.plainRemove]
  split
  · next value rc stored =>
    rw [refs_of_lookup stored] at counted
    rw [← counted] at bound ⊢
    rw [addI32_of_isI32 bound]
    exact represents.write fun visible => represents.valued key value rc stored (by omega)
  · next absent =>
    rw [refs_of_none absent] at counted
    rw [← counted]
    exact represents.write fun visible => absurd visible (by decide)

theorem Represents.plainGet (represents : db.Represents content count) (key : K) :
    db.plainGet key = if 0 < count key then some (content key) else none := by
  by_cases positive : 0 < count key
  · rw [MemoryDB.plainGet, represents.lookup positive, if_pos positive]
    exact if_pos positive
  · rw [if_neg positive, MemoryDB.plainGet]
    rw [← represents.counted key] at positive
    split
    · next value rc stored => exact if_neg (refs_of_lookup stored ▸ positive)
    · rfl

theorem plainContains_eq_isSome (db : MemoryDB K T) (key : K) :
    db.plainContains key = (db.plainGet key).isSome := by
  rw [plainContains, MemoryDB.plainGet]
  split
  · split
    · next positive => exact decide_eq_true positive
    · next invisible => exact decide_eq_false invisible
  · rfl

/-! ### Purging -/

theorem Represents.erase (represents : db.Represents content count) (key : K) :
    ({ db with data := db.data.erase key } : MemoryDB K T).Represents content
      (Function.update count key 0) where
  counted other := by
    by_cases same : other = key
    · subst same
      rw [Function.update_self]
      exact refs_of_none (AList.lookup_erase _ _)
    · rw [Function.update_of_ne same, ← represents.counted other, refs,
        AList.lookup_erase_ne same, refs]
  valued other stored rc found visible := by
    rw [FiniteMap.lookup_erase_eq] at found
    split at found
    · cases found
    · exact represents.valued other stored rc found visible

/-- The value is handed out with the last reference. -/
theorem Represents.removeAndPurge [Inhabited T] (represents : db.Represents content count)
    {key : K} (proper : key ≠ db.hashedNullNode) (bound : IsI32 (count key - 1)) :
    (db.removeAndPurge key).1 = (if count key = 1 then some (content key) else none) ∧
      (db.removeAndPurge key).2.Represents content
        (Function.update count key (count key - 1)) := by
  have counted := represents.counted key
  rw [MemoryDB.removeAndPurge, if_neg proper]
  split
  · next value rc stored =>
    rw [refs_of_lookup stored] at counted
    rw [← counted] at bound ⊢
    by_cases last : rc = 1
    · rw [if_pos last, if_pos last, represents.valued key value rc stored (by omega), last]
      exact ⟨rfl, represents.erase key⟩
    · rw [if_neg last, if_neg last, addI32_of_isI32 bound]
      exact ⟨rfl, represents.write fun visible => represents.valued key value rc stored (by omega)⟩
  · next absent =>
    rw [refs_of_none absent] at counted
    rw [← counted]
    exact ⟨rfl, represents.write fun visible => absurd visible (by decide)⟩

/-! ### The null node -/

section NullNode

variable (db)

omit [DecidableEq K] in
@[simp] theorem clear_hashedNullNode : db.clear.hashedNullNode = db.hashedNullNode := rfl

omit [DecidableEq K] in
@[simp] theorem clear_nullNodeData : db.clear.nullNodeData = db.nullNodeData := rfl

@[simp] theorem plainEmplace_hashedNullNode (key : K) (value : T) :
    (db.plainEmplace key value).hashedNullNode = db.hashedNullNode := by
  rw [MemoryDB.plainEmplace]
  split <;> rfl

@[simp] theorem plainEmplace_nullNodeData (key : K) (value : T) :
    (db.plainEmplace key value).nullNodeData = db.nullNodeData := by
  rw [MemoryDB.plainEmplace]
  split <;> rfl

@[simp] theorem plainRemove_hashedNullNode [Inhabited T] (key : K) :
    (db.plainRemove key).hashedNullNode = db.hashedNullNode := by
  rw [MemoryDB.plainRemove]
  split <;> rfl

@[simp] theorem plainRemove_nullNodeData [Inhabited T] (key : K) :
    (db.plainRemove key).nullNodeData = db.nullNodeData := by
  rw [MemoryDB.plainRemove]
  split <;> rfl

@[simp] theorem removeAndPurge_hashedNullNode [Inhabited T] (key : K) :
    (db.removeAndPurge key).2.hashedNullNode = db.hashedNullNode := by
  rw [removeAndPurge]
  split
  · rfl
  · split
    · split <;> rfl
    · rfl

@[simp] theorem removeAndPurge_nullNodeData [Inhabited T] (key : K) :
    (db.removeAndPurge key).2.nullNodeData = db.nullNodeData := by
  rw [removeAndPurge]
  split
  · rfl
  · split
    · split <;> rfl
    · rfl

end NullNode

end MemoryDB

end AuthStorage.ParityJournaldb
