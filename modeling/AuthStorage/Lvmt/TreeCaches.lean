/-
This file is about the caches of all trees over one column. `AMTree::new` gives each tree
three of them, and puts the kind of the cache and the encoded name of the tree in front of
their store keys. Different caches have different prefixes, and every key is longer than
`ROOT_KEY`; so the caches are independent maps, whatever is done with them in between.
-/

import AuthStorage.Lvmt.CacheFamily
import AuthStorage.Lvmt.VersionTree

namespace AuthStorage.Lvmt

/-! ### The caches of a tree -/

/-- The three caches of a tree. -/
inductive CacheKind
  | data
  | innerNodes
  | subtreeRoots
deriving DecidableEq

namespace CacheKind

/-- The byte in front of the name. -/
def byte : CacheKind → UInt8
  | data => 1
  | innerNodes => 2
  | subtreeRoots => 3

theorem byte_injective : Function.Injective byte := by
  intro first second same
  cases first <;> cases second <;> first | rfl | cases same

/-- Leaves and subtree roots are found by their `usize`, inner nodes by their node index. -/
def Index (height : Nat) : CacheKind → Type
  | data => UInt64
  | innerNodes => NodeIndex height
  | subtreeRoots => UInt64

variable {height : Nat}

instance : (kind : CacheKind) → DecidableEq (kind.Index height)
  | data => inferInstanceAs (DecidableEq UInt64)
  | innerNodes => inferInstanceAs (DecidableEq (NodeIndex height))
  | subtreeRoots => inferInstanceAs (DecidableEq UInt64)

/-- `FlattenArray`, on a `usize`. -/
instance : LayoutTrait UInt64 := ⟨UInt64.toNat⟩

instance : (kind : CacheKind) → LayoutTrait (kind.Index height)
  | data => inferInstanceAs (LayoutTrait UInt64)
  | innerNodes => inferInstanceAs (LayoutTrait (NodeIndex height))
  | subtreeRoots => inferInstanceAs (LayoutTrait UInt64)

theorem position_injective (kind : CacheKind) :
    Function.Injective (LayoutTrait.position (K := kind.Index height)) := by
  cases kind with
  | data => exact fun _ _ => UInt64.toNat.inj
  | innerNodes => exact nodeIndex_position_injective
  | subtreeRoots => exact fun _ _ => UInt64.toNat.inj

end CacheKind

/-- The prefix of one of the caches of a tree. -/
def AMTree.keyPrefix {Name Data G : Type} {height : Nat} (tree : AMTree Name Data G height) :
    CacheKind → Bytes
  | .data => tree.data.keyPrefix
  | .innerNodes => tree.innerNodes.keyPrefix
  | .subtreeRoots => tree.subtreeRoots.keyPrefix

/-! ### The caches of all trees -/

/-- A cache of a tree; the length of the name is written as one byte. -/
structure TreeCache where
  kind : CacheKind
  name : TreeName
  short : name.length ≤ 255
deriving DecidableEq

namespace TreeCache

/-- The prefix of a cache's keys. -/
def keyPrefix (cache : TreeCache) : Bytes := setPrefix cache.kind.byte cache.name

/-- These are the prefixes of the trees as they are made. -/
theorem keyPrefix_new {Data G : Type} {height : Nat} (cache : TreeCache)
    (shardRoot : Option (NodeIndex height)) :
    (AMTree.new cache.name shardRoot : AMTree TreeName Data G height).keyPrefix cache.kind =
      cache.keyPrefix := by
  obtain ⟨kind, name, short⟩ := cache
  cases kind <;> rfl

theorem keyPrefix_injective : Function.Injective keyPrefix := by
  rintro ⟨kind, name, short⟩ ⟨kind', name', short'⟩ same
  obtain ⟨sameByte, sameName⟩ := List.cons.inj same
  obtain rfl := CacheKind.byte_injective sameByte
  obtain rfl := TreeName.toBytesConsensus_inj short short' sameName
  rfl

/-- The keys of a cache, as far as their positions survive the cast to `u32`. -/
abbrev Index (height : Nat) (cache : TreeCache) : Type := Addressable (cache.kind.Index height)

variable {height : Nat}

instance (cache : TreeCache) : LawfulLayout (cache.Index height) :=
  lawfulLayout_addressable (CacheKind.position_injective cache.kind)

theorem outside_rootKey : CacheFamily.Outside (Index height) keyPrefix ROOT_KEY := by
  intro cache nodeIndex same
  have lengths := congrArg List.length same
  rw [DBAccess.computeKey_length] at lengths
  change _ = 2 at lengths
  omega

section

variable {V : TreeCache → Type} [∀ cache, Inhabited (V cache)] [∀ cache, MyToBytes (V cache)]
  [∀ cache, MyFromBytes (V cache)] [∀ cache, LocalSerde (V cache)]

/-- The caches of all trees are independent maps: every run goes through and reads what was
last written, and at the end of it a flush of any cache changes no read, writes every dirty entry
in whatever order the cache is walked, leaves the root alone, and leaves nothing to lose. -/
theorem independent_maps {db : DBColumn} (fresh : CacheFamily.Fresh (Index height) keyPrefix db)
    {ops : List (CacheOp TreeCache (Index height) V)}
    (drops : PartialRun.Meets (CacheFamily.step keyPrefix) CacheFamily.DropsClean
      (.new keyPrefix db) ops) :
    ∃ final outputs,
      PartialRun.run (CacheFamily.step keyPrefix) (.new keyPrefix db) ops =
        some (final, outputs) ∧
      Answered (ops.zip outputs) ∧
      final.db ROOT_KEY = db ROOT_KEY ∧
      ∀ cache,
        ((final.flush cache).caches cache).Clean ∧
        (∀ other nodeIndex,
          (final.flush cache).read other nodeIndex = final.read other nodeIndex) ∧
        (∀ op ∈ (final.caches cache).flushOps, op.key ≠ ROOT_KEY) ∧
        ∀ order : List DBOp, order.Perm (final.caches cache).flushOps →
          final.db.writeBuffered order = (final.flush cache).db ∧
          ∀ nodeIndex value, (final.caches cache).cache.lookup nodeIndex = some (value, true) →
            final.db.writeBuffered order (DBAccess.computeKey cache.keyPrefix nodeIndex) =
              some (toBytesLocal value) := by
  obtain ⟨final, outputs, done, answered, ⟨maps, represents, -⟩, outside⟩ :=
    CacheFamily.run_fresh keyPrefix_injective fresh drops
  refine ⟨final, outputs, done, answered, outside _ outside_rootKey, fun cache =>
    ⟨?_, fun other nodeIndex => ?_, fun op member => ?_, fun order perm =>
      ⟨DBAccess.writeBuffered_perm _ _ perm, fun nodeIndex value dirty => ?_⟩⟩⟩
  · rw [CacheFamily.flush, CacheFamily.setCache_caches_self]
    exact DBAccess.clean_flushCache _ _
  · rw [(represents.flush keyPrefix_injective cache).read, represents.read]
  · obtain ⟨nodeIndex, written⟩ := DBAccess.flushOps_key member
    rw [written, represents.keyPrefixEq]
    exact outside_rootKey cache nodeIndex
  · rw [← represents.keyPrefixEq]
    exact DBAccess.writeBuffered_dirty _ _ perm dirty

end

/-- A column that has a root already. -/
def rooted : DBColumn := DBColumn.empty.writeBuffered [.insert ROOT_KEY [7]]

theorem fresh_rooted : CacheFamily.Fresh (Index height) keyPrefix rooted :=
  fun cache nodeIndex => DBColumn.writeBuffered_of_notMem _ _ fun op member => by
    obtain rfl := List.mem_singleton.mp member
    exact (outside_rootKey cache nodeIndex).symm

/-- The leaves of the root tree. -/
def rootLeaves : TreeCache := ⟨.data, .root, by decide⟩

/-- The inner nodes of a child of the root tree. -/
def childNodes : TreeCache := ⟨.innerNodes, .child .root 5, by decide⟩

/-- Numbers in two caches; one of them is flushed, dropped and made again. -/
def numberOps : List (CacheOp TreeCache (Index 6) fun _ => UInt64) :=
  [.set rootLeaves ⟨(3 : UInt64), by decide⟩ 41,
    .getMut childNodes ⟨(NodeIndex.root : NodeIndex 6), by decide⟩ (some 9),
    .getMut rootLeaves ⟨(3 : UInt64), by decide⟩ (some 42),
    .flushCache rootLeaves,
    .recreate rootLeaves,
    .get rootLeaves ⟨(3 : UInt64), by decide⟩,
    .get childNodes ⟨(NodeIndex.root : NodeIndex 6), by decide⟩,
    .get rootLeaves ⟨(4 : UInt64), by decide⟩]

/-- What the operations give back. -/
def numberOuts : List (CacheOut TreeCache fun _ => UInt64) :=
  [.done, .value childNodes 0, .value rootLeaves 41, .done, .done, .value rootLeaves 42,
    .value childNodes 9, .value rootLeaves 0]

theorem independent_maps_numbers :
    ∃ final, PartialRun.run (CacheFamily.step keyPrefix) (.new keyPrefix rooted) numberOps =
        some (final, numberOuts) ∧ final.db ROOT_KEY = some [7] := by
  obtain ⟨final, outputs, done, -, root, -⟩ :=
    independent_maps fresh_rooted (show PartialRun.Meets (CacheFamily.step keyPrefix)
      CacheFamily.DropsClean (.new keyPrefix rooted) numberOps by decide)
  refine ⟨final, ?_, root⟩
  have given : (PartialRun.run (CacheFamily.step keyPrefix) (.new keyPrefix rooted)
      numberOps).map Prod.snd = some numberOuts := rfl
  rw [done, Option.map_some, Option.some.injEq] at given
  rw [done, ← given]

end TreeCache

end AuthStorage.Lvmt
