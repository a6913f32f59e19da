/-
This file models `storage/`: one column of the key-value store, and the
write-back caches `DBAccess` keeps over it. A cache holds decoded values with a
dirty flag; a miss decodes the stored bytes or takes the default. The file
states what a cache stands for -- a total map from keys to values -- and proves
that reading, writing and flushing are the operations of that map, and that a
flush touches no store key outside the cache's own prefix.
-/

import AuthStorage.Lvmt.NodeIndex
import AuthStorage.Lvmt.Serde
import Mathlib.Data.List.AList

namespace AuthStorage.Lvmt

/-! ### The key-value store -/

/-- One column of the store. Buffered writes are visible to reads at once. -/
abbrev DBColumn := Bytes → Option Bytes

/-- One operation of a batch. -/
inductive DBOp
  | insert (key value : Bytes)
  | delete (key : Bytes)

namespace DBOp

/-- The key that an operation changes. -/
def key : DBOp → Bytes
  | insert key _ => key
  | delete key => key

/-- The column after an operation. -/
def apply (db : DBColumn) : DBOp → DBColumn
  | insert key value => Function.update db key (some value)
  | delete key => Function.update db key none

end DBOp

namespace DBColumn

/-- The column without entries. -/
def empty : DBColumn := fun _ => none

/-- The operations of one transaction are applied in order. -/
def writeBuffered (db : DBColumn) (ops : List DBOp) : DBColumn := ops.foldl DBOp.apply db

theorem writeBuffered_cons (db : DBColumn) (op : DBOp) (ops : List DBOp) :
    db.writeBuffered (op :: ops) = (op.apply db).writeBuffered ops := rfl

theorem apply_of_ne (db : DBColumn) (op : DBOp) {key : Bytes} (other : op.key ≠ key) :
    op.apply db key = db key := by
  cases op with
  | insert written value => exact Function.update_of_ne (Ne.symm other) _ _
  | delete written => exact Function.update_of_ne (Ne.symm other) _ _

theorem writeBuffered_of_notMem (db : DBColumn) (ops : List DBOp) {key : Bytes}
    (other : ∀ op ∈ ops, op.key ≠ key) : db.writeBuffered ops key = db key := by
  induction ops generalizing db with
  | nil => rfl
  | cons op rest inductionHypothesis =>
    rw [writeBuffered_cons,
      inductionHypothesis _ (fun op' member => other op' (List.mem_cons_of_mem _ member)),
      apply_of_ne _ _ (other op List.mem_cons_self)]

/-- With distinct keys, every inserted pair is in the store afterwards. -/
theorem writeBuffered_of_mem (db : DBColumn) (ops : List DBOp) {key value : Bytes}
    (distinct : (ops.map DBOp.key).Nodup) (member : DBOp.insert key value ∈ ops) :
    db.writeBuffered ops key = some value := by
  induction ops generalizing db with
  | nil => cases member
  | cons op rest inductionHypothesis =>
    rw [List.map_cons, List.nodup_cons] at distinct
    rw [writeBuffered_cons]
    rcases List.mem_cons.mp member with same | later
    · subst same
      rw [writeBuffered_of_notMem _ rest]
      · exact Function.update_self _ _ _
      · intro op' member' same
        exact distinct.1 (List.mem_map.mpr ⟨op', member', same⟩)
    · exact inductionHypothesis _ distinct.2 later

end DBColumn

/-! ### Layouts -/

/-- How the nodes of a tree are numbered. -/
class LayoutTrait (K : Type) where
  position : K → Nat

/-- `FlattenArray`, on indices below a bound. -/
instance {bound : Nat} : LayoutTrait (Fin bound) := ⟨Fin.val⟩

/-- `FlattenArray`, on an unbounded `usize`. -/
instance : LayoutTrait Nat := ⟨id⟩

/-- `FlattenTree`. -/
instance {height : Nat} : LayoutTrait (NodeIndex height) :=
  ⟨fun treeIndex => (1 <<< treeIndex.depth) + treeIndex.index⟩

/-- Positions that survive the cast to `u32`, one for each key. -/
class LawfulLayout (K : Type) [LayoutTrait K] : Prop where
  position_lt : ∀ key : K, LayoutTrait.position key < 2 ^ 32
  position_injective : Function.Injective (LayoutTrait.position (K := K))

theorem lawfulLayout_fin {bits : Nat} (le : bits ≤ 32) : LawfulLayout (Fin (2 ^ bits)) where
  position_lt key := lt_of_lt_of_le key.isLt (Nat.pow_le_pow_right (by norm_num) le)
  position_injective := Fin.val_injective

theorem nodeIndex_position_bounds {height : Nat} (node : NodeIndex height) :
    2 ^ node.depth ≤ LayoutTrait.position node ∧
      LayoutTrait.position node < 2 ^ (node.depth + 1) := by
  have bound := node.index_lt
  show 2 ^ node.depth ≤ (1 <<< node.depth) + node.index ∧
    (1 <<< node.depth) + node.index < 2 ^ (node.depth + 1)
  rw [Nat.one_shiftLeft, pow_succ]
  omega

theorem nodeIndex_position_injective {height : Nat} :
    Function.Injective (LayoutTrait.position (K := NodeIndex height)) := by
  intro first second same
  have firstBounds := nodeIndex_position_bounds first
  have secondBounds := nodeIndex_position_bounds second
  rw [same] at firstBounds
  have sameDepth : first.depth = second.depth := by
    have forth := lt_of_le_of_lt firstBounds.1 secondBounds.2
    have back := lt_of_le_of_lt secondBounds.1 firstBounds.2
    rw [Nat.pow_lt_pow_iff_right (by norm_num)] at forth back
    omega
  refine NodeIndex.ext sameDepth ?_
  change (1 <<< first.depth) + first.index = (1 <<< second.depth) + second.index at same
  rw [sameDepth] at same
  exact Nat.add_left_cancel same

theorem lawfulLayout_nodeIndex {height : Nat} (le : height ≤ 31) :
    LawfulLayout (NodeIndex height) where
  position_lt node := by
    refine lt_of_lt_of_le (nodeIndex_position_bounds node).2
      (Nat.pow_le_pow_right (by norm_num) ?_)
    have bound := node.depth_le
    omega
  position_injective := nodeIndex_position_injective

/-! ### The write-back cache -/

/-- A cache over the keys of one prefix. -/
structure DBAccess (K V : Type) [DecidableEq K] where
  keyPrefix : Bytes
  cache : AList fun _ : K => V × Bool

namespace DBAccess

/-! ### Store keys -/

section

variable {K : Type} [LayoutTrait K]

/-- The prefix followed by the position as a big-endian `u32`. -/
def computeKey (name : Bytes) (nodeIndex : K) : Bytes :=
  let layoutIndex := UInt32.ofNat (LayoutTrait.position nodeIndex)
  name ++ (LittleEndian.digits 4 layoutIndex.toNat).reverse

theorem computeKey_length (name : Bytes) (nodeIndex : K) :
    (computeKey name nodeIndex).length = name.length + 4 := by
  rw [computeKey, List.length_append, List.length_reverse, LittleEndian.length_digits]

theorem computeKey_prefix {first second : Bytes} {K' : Type} [LayoutTrait K'] {firstIndex : K}
    {secondIndex : K'}
    (same : computeKey first firstIndex = computeKey second secondIndex) : first = second := by
  have sameLength := congrArg List.length same
  rw [computeKey_length, computeKey_length] at sameLength
  exact (List.append_inj same (by omega)).1

theorem computeKey_injective [LawfulLayout K] (name : Bytes) :
    Function.Injective (computeKey (K := K) name) := by
  intro first second same
  have tails := List.reverse_injective (List.append_cancel_left same)
  have words := LittleEndian.digits_injective (UInt32.toNat_lt _) (UInt32.toNat_lt _) tails
  rw [UInt32.toNat_ofNat', UInt32.toNat_ofNat',
    Nat.mod_eq_of_lt (LawfulLayout.position_lt first),
    Nat.mod_eq_of_lt (LawfulLayout.position_lt second)] at words
  exact LawfulLayout.position_injective words

end

/-! ### The operations -/

variable {K V : Type} [DecidableEq K]

/-- A cache without entries. -/
def new (keyPrefix : Bytes) : DBAccess K V := ⟨keyPrefix, ∅⟩

/-- Write to the cache; the entry is dirty. -/
def set (access : DBAccess K V) (nodeIndex : K) (value : V) : DBAccess K V :=
  { access with cache := access.cache.insert nodeIndex (value, true) }

@[simp] theorem new_keyPrefix (keyPrefix : Bytes) :
    (new keyPrefix : DBAccess K V).keyPrefix = keyPrefix := rfl

@[simp] theorem set_keyPrefix (access : DBAccess K V) (nodeIndex : K) (value : V) :
    (access.set nodeIndex value).keyPrefix = access.keyPrefix := rfl

variable [LayoutTrait K]

section

variable [Inhabited V] [MyFromBytes V]

/-- What a cache miss loads; it panics if the stored bytes cannot be decoded. -/
def load (db : DBColumn) (keyPrefix : Bytes) (nodeIndex : K) : Option V :=
  match db (computeKey keyPrefix nodeIndex) with
  | some bytes => fromBytesLocal bytes
  | none => some default

/-- The entry of a node, loaded first if it is not in the cache. -/
def ensureCached (access : DBAccess K V) (db : DBColumn) (nodeIndex : K) :
    Option ((V × Bool) × DBAccess K V) :=
  match access.cache.lookup nodeIndex with
  | some entry => some (entry, access)
  | none =>
    (load db access.keyPrefix nodeIndex).map fun value =>
      ((value, false), { access with cache := access.cache.insert nodeIndex (value, false) })

/-- The value of a node. -/
def get (access : DBAccess K V) (db : DBColumn) (nodeIndex : K) : Option (V × DBAccess K V) :=
  (access.ensureCached db nodeIndex).map fun cached => (cached.1.1, cached.2)

/-- The value behind the returned reference, and the cache with the entry marked dirty; a write
through the reference is a `set`. -/
def getMut (access : DBAccess K V) (db : DBColumn) (nodeIndex : K) : Option (V × DBAccess K V) :=
  (access.ensureCached db nodeIndex).map fun cached =>
    (cached.1.1, cached.2.set nodeIndex cached.1.1)

end

/-- A write for every dirty entry. -/
def flushOps [MyToBytes V] (access : DBAccess K V) : List DBOp :=
  (access.cache.entries.filter fun entry => entry.2.2).map fun entry =>
    .insert (computeKey access.keyPrefix entry.1) (toBytesLocal entry.2.1)

/-- Write the dirty entries back and drop all entries. -/
def flushCache [MyToBytes V] (access : DBAccess K V) (db : DBColumn) :
    DBColumn × DBAccess K V :=
  (db.writeBuffered access.flushOps, new access.keyPrefix)

section

variable [MyToBytes V] {access : DBAccess K V} {db : DBColumn}

theorem flushOps_key {op : DBOp} (member : op ∈ access.flushOps) :
    ∃ nodeIndex : K, op.key = computeKey access.keyPrefix nodeIndex := by
  obtain ⟨entry, -, rfl⟩ := List.mem_map.mp member
  exact ⟨entry.1, rfl⟩

/-- A flush leaves every store key outside the prefix alone. -/
theorem flushCache_of_ne {key : Bytes}
    (other : ∀ nodeIndex : K, computeKey access.keyPrefix nodeIndex ≠ key) :
    (access.flushCache db).1 key = db key := by
  refine DBColumn.writeBuffered_of_notMem _ _ fun op member same => ?_
  obtain ⟨nodeIndex, written⟩ := flushOps_key member
  exact other nodeIndex (by rw [← written, same])

/-- Cached keys that the layout tells apart are written to different places. -/
theorem flushOps_nodup {keys : Set K} (apart : Set.InjOn (computeKey access.keyPrefix) keys)
    (cached : ∀ nodeIndex ∈ access.cache, nodeIndex ∈ keys) :
    (access.flushOps.map DBOp.key).Nodup := by
  have written : access.flushOps.map DBOp.key =
      ((access.cache.entries.filter fun entry => entry.2.2).map Sigma.fst).map
        (computeKey access.keyPrefix) := by
    rw [flushOps, List.map_map, List.map_map]
    rfl
  have sublist : ((access.cache.entries.filter fun entry => entry.2.2).map Sigma.fst).Sublist
      access.cache.keys := List.Sublist.map _ List.filter_sublist
  rw [written]
  refine List.Nodup.map_on (fun first firstMem second secondMem same => ?_)
    (sublist.nodup access.cache.nodupKeys)
  exact apart (cached first (sublist.subset firstMem)) (cached second (sublist.subset secondMem))
    same

end

/-! ### What a cache stands for -/

variable [Inhabited V] [MyFromBytes V]

/-- The cache, over its part of the store, stands for a total map: cached values are the map's,
and where no dirty entry hides the store, the store holds them too. -/
structure Represents (access : DBAccess K V) (db : DBColumn) (content : K → V) : Prop where
  cached : ∀ nodeIndex value dirty, access.cache.lookup nodeIndex = some (value, dirty) →
    value = content nodeIndex
  backed : ∀ nodeIndex, (∀ value, access.cache.lookup nodeIndex ≠ some (value, true)) →
    load db access.keyPrefix nodeIndex = some (content nodeIndex)

/-- With an empty cache, the store alone has to hold the map. -/
theorem represents_new (db : DBColumn) (keyPrefix : Bytes) (content : K → V) :
    (new keyPrefix : DBAccess K V).Represents db content ↔
      ∀ nodeIndex, load db keyPrefix nodeIndex = some (content nodeIndex) := by
  constructor
  · intro represents nodeIndex
    exact represents.backed nodeIndex fun value cached => by
      simp [new] at cached
  · intro stored
    exact ⟨fun nodeIndex value dirty cached => by simp [new] at cached,
      fun nodeIndex _ => stored nodeIndex⟩

/-- Over an empty store everything is at its default. -/
theorem represents_new_empty (keyPrefix : Bytes) :
    (new keyPrefix : DBAccess K V).Represents DBColumn.empty fun _ => default :=
  (represents_new _ _ _).mpr fun _ => rfl

variable {access : DBAccess K V} {db : DBColumn} {content : K → V}

/-- Only the store keys of the prefix matter. -/
theorem Represents.frame (represents : access.Represents db content) {other : DBColumn}
    (same : ∀ nodeIndex : K, other (computeKey access.keyPrefix nodeIndex) =
      db (computeKey access.keyPrefix nodeIndex)) : access.Represents other content := by
  refine ⟨represents.cached, fun nodeIndex clean => ?_⟩
  rw [← represents.backed nodeIndex clean, load, load, same]

/-- A flush of a cache with other store keys is not seen. -/
theorem Represents.flushOther {K' V' : Type} [DecidableEq K'] [LayoutTrait K'] [MyToBytes V']
    (represents : access.Represents db content) (other : DBAccess K' V')
    (disjoint : ∀ (nodeIndex' : K') (nodeIndex : K),
      computeKey other.keyPrefix nodeIndex' ≠ computeKey access.keyPrefix nodeIndex) :
    access.Represents (other.flushCache db).1 content :=
  represents.frame fun nodeIndex => flushCache_of_ne fun nodeIndex' => disjoint nodeIndex' nodeIndex

theorem Represents.ensureCached (represents : access.Represents db content) (nodeIndex : K) :
    ∃ dirty next, access.ensureCached db nodeIndex = some ((content nodeIndex, dirty), next) ∧
      next.Represents db content ∧ next.keyPrefix = access.keyPrefix := by
  unfold DBAccess.ensureCached
  cases cached : access.cache.lookup nodeIndex with
  | some entry =>
    obtain ⟨value, dirty⟩ := entry
    obtain rfl := represents.cached nodeIndex value dirty cached
    exact ⟨dirty, access, rfl, represents, rfl⟩
  | none =>
    have loaded := represents.backed nodeIndex fun value hit => by rw [cached] at hit; cases hit
    refine ⟨false, { access with cache := access.cache.insert nodeIndex (content nodeIndex, false) },
      by rw [loaded]; rfl, ⟨?_, ?_⟩, rfl⟩
    · intro other value dirty hit
      by_cases same : other = nodeIndex
      · subst same
        rw [AList.lookup_insert, Option.some.injEq, Prod.mk.injEq] at hit
        exact hit.1.symm
      · rw [AList.lookup_insert_ne same] at hit
        exact represents.cached other value dirty hit
    · intro other clean
      by_cases same : other = nodeIndex
      · subst same
        exact loaded
      · refine represents.backed other fun value => ?_
        have notDirty := clean value
        rwa [AList.lookup_insert_ne same] at notDirty

/-- A read returns the map's value and changes nothing. -/
theorem Represents.get (represents : access.Represents db content) (nodeIndex : K) :
    ∃ next, access.get db nodeIndex = some (content nodeIndex, next) ∧
      next.Represents db content ∧ next.keyPrefix = access.keyPrefix := by
  obtain ⟨dirty, next, done, stands, samePrefix⟩ := represents.ensureCached nodeIndex
  exact ⟨next, by rw [DBAccess.get, done]; rfl, stands, samePrefix⟩

/-- A write replaces the map's value at one key. -/
theorem Represents.set (represents : access.Represents db content) (nodeIndex : K) (value : V) :
    (access.set nodeIndex value).Represents db (Function.update content nodeIndex value) := by
  refine ⟨fun other found dirty hit => ?_, fun other clean => ?_⟩
  · by_cases same : other = nodeIndex
    · subst same
      rw [DBAccess.set, AList.lookup_insert, Option.some.injEq, Prod.mk.injEq] at hit
      rw [Function.update_self, hit.1]
    · rw [DBAccess.set, AList.lookup_insert_ne same] at hit
      rw [Function.update_of_ne same]
      exact represents.cached other found dirty hit
  · by_cases same : other = nodeIndex
    · subst same
      exact absurd (AList.lookup_insert _) (clean value)
    · rw [Function.update_of_ne same]
      refine represents.backed other fun found => ?_
      have notDirty := clean found
      rwa [DBAccess.set, AList.lookup_insert_ne same] at notDirty

/-- Taking a mutable reference reads the value and changes nothing by itself. -/
theorem Represents.getMut (represents : access.Represents db content) (nodeIndex : K) :
    ∃ next, access.getMut db nodeIndex = some (content nodeIndex, next) ∧
      next.Represents db content ∧ next.keyPrefix = access.keyPrefix := by
  obtain ⟨dirty, next, done, stands, samePrefix⟩ := represents.ensureCached nodeIndex
  refine ⟨next.set nodeIndex (content nodeIndex), by rw [DBAccess.getMut, done]; rfl, ?_,
    samePrefix⟩
  have written := stands.set nodeIndex (content nodeIndex)
  rwa [Function.update_eq_self] at written

/-- What the store holds after a flush, for keys that the layout tells apart. -/
theorem Represents.load_flushCache [MyToBytes V] [LocalSerde V]
    (represents : access.Represents db content) {keys : Set K}
    (apart : Set.InjOn (computeKey access.keyPrefix) keys)
    (within : ∀ nodeIndex ∈ access.cache, nodeIndex ∈ keys) {nodeIndex : K}
    (member : nodeIndex ∈ keys) :
    load (access.flushCache db).1 access.keyPrefix nodeIndex = some (content nodeIndex) := by
  by_cases dirty : ∃ value, access.cache.lookup nodeIndex = some (value, true)
  · obtain ⟨value, cached⟩ := dirty
    have entry : (⟨nodeIndex, (value, true)⟩ : Sigma fun _ : K => V × Bool) ∈
        access.cache.entries := AList.mem_lookup_iff.mp cached
    have written : DBOp.insert (computeKey access.keyPrefix nodeIndex) (toBytesLocal value) ∈
        access.flushOps :=
      List.mem_map.mpr ⟨_, List.mem_filter.mpr ⟨entry, rfl⟩, rfl⟩
    have stored := DBColumn.writeBuffered_of_mem db _ (flushOps_nodup apart within) written
    rw [load]
    show (match db.writeBuffered access.flushOps (computeKey access.keyPrefix nodeIndex) with
      | some bytes => fromBytesLocal bytes
      | none => some default) = _
    rw [stored, ← represents.cached nodeIndex value true cached]
    exact LocalSerde.fromBytesLocal_toBytesLocal value
  · have clean : ∀ value, access.cache.lookup nodeIndex ≠ some (value, true) :=
      fun value cached => dirty ⟨value, cached⟩
    rw [← represents.backed nodeIndex clean, load, load]
    have untouched : db.writeBuffered access.flushOps (computeKey access.keyPrefix nodeIndex) =
        db (computeKey access.keyPrefix nodeIndex) := by
      refine DBColumn.writeBuffered_of_notMem _ _ fun op opMember same => ?_
      obtain ⟨entry, filtered, rfl⟩ := List.mem_map.mp opMember
      obtain ⟨found, isDirty⟩ := List.mem_filter.mp filtered
      have inCache : entry.1 ∈ access.cache := List.mem_map_of_mem found
      obtain rfl : entry.1 = nodeIndex := apart (within _ inCache) member same
      obtain ⟨key, value, flag⟩ := entry
      obtain rfl : flag = true := isDirty
      exact clean value (AList.mem_lookup_iff.mpr found)
    show (match db.writeBuffered access.flushOps (computeKey access.keyPrefix nodeIndex) with
      | some bytes => fromBytesLocal bytes
      | none => some default) = _
    rw [untouched]

/-- A flush loses no dirty entry: the store alone holds the map afterwards. -/
theorem Represents.flushCache [MyToBytes V] [LawfulLayout K] [LocalSerde V]
    (represents : access.Represents db content) :
    (new access.keyPrefix : DBAccess K V).Represents (access.flushCache db).1 content :=
  (represents_new _ _ _).mpr fun _ =>
    represents.load_flushCache (Set.injOn_univ.mpr (computeKey_injective _))
      (fun _ _ => Set.mem_univ _) (Set.mem_univ _)

end DBAccess

end AuthStorage.Lvmt
