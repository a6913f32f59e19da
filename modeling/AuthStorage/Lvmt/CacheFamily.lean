/-
This file is about several write-back caches over one column, each under a prefix of
its own. Whatever is read, written, flushed and dropped in between, every cache is the
map of the values last written to it: a flush writes under its own prefix only, and a
cache without dirty entries can be dropped and made again at any time.
-/

import AuthStorage.Library.Partial
import AuthStorage.Lvmt.Storage

namespace AuthStorage.Lvmt

/-! ### Positions below the cast -/

/-- The keys whose positions survive the cast to `u32`. -/
abbrev Addressable (K : Type) [LayoutTrait K] := {key : K // LayoutTrait.position key < 2 ^ 32}

instance {K : Type} [LayoutTrait K] : LayoutTrait (Addressable K) :=
  ⟨fun key => LayoutTrait.position key.val⟩

theorem lawfulLayout_addressable {K : Type} [LayoutTrait K]
    (injective : Function.Injective (LayoutTrait.position (K := K))) :
    LawfulLayout (Addressable K) where
  position_lt key := key.property
  position_injective _ _ same := Subtype.ext (injective same)

/-! ### The order of a transaction -/

namespace DBColumn

theorem apply_comm (db : DBColumn) {first second : DBOp} (other : first.key ≠ second.key) :
    second.apply (first.apply db) = first.apply (second.apply db) := by
  cases first <;> cases second <;> exact Function.update_comm other _ _ _

/-- Operations on distinct keys can be done in any order. -/
theorem writeBuffered_perm (db : DBColumn) {first second : List DBOp}
    (distinct : (first.map DBOp.key).Nodup) (perm : first.Perm second) :
    db.writeBuffered first = db.writeBuffered second := by
  refine perm.foldl_eq' (fun op member op' member' column => ?_) db
  by_cases same : op.key = op'.key
  · rw [List.inj_on_of_nodup_map distinct member member' same]
  · exact apply_comm column same

end DBColumn

/-! ### Caches without dirty entries -/

namespace DBAccess

variable {K V : Type} [DecidableEq K]

/-- Nothing has to be written back. -/
def Clean (access : DBAccess K V) : Prop :=
  ∀ entry ∈ access.cache.entries, entry.2.2 = false

instance (access : DBAccess K V) : Decidable access.Clean :=
  inferInstanceAs (Decidable (∀ entry ∈ access.cache.entries, entry.2.2 = false))

theorem clean_new (keyPrefix : Bytes) : (new keyPrefix : DBAccess K V).Clean :=
  fun _ member => absurd member List.not_mem_nil

theorem Clean.lookup_ne {access : DBAccess K V} (clean : access.Clean) (nodeIndex : K) (value : V) :
    access.cache.lookup nodeIndex ≠ some (value, true) := by
  intro cached
  cases clean _ (AList.mem_lookup_iff.mp cached)

variable [LayoutTrait K]

section

variable [MyToBytes V]

theorem clean_flushCache (access : DBAccess K V) (db : DBColumn) :
    (access.flushCache db).2.Clean := clean_new _

/-- A hash map is walked in no particular order, and none makes a difference. -/
theorem writeBuffered_perm [LawfulLayout K] (access : DBAccess K V) (db : DBColumn)
    {order : List DBOp} (perm : order.Perm access.flushOps) :
    db.writeBuffered order = (access.flushCache db).1 :=
  (DBColumn.writeBuffered_perm db (flushOps_nodup (Set.injOn_univ.mpr (computeKey_injective _))
    fun _ _ => Set.mem_univ _) perm.symm).symm

/-- Every dirty entry is written, in whatever order. -/
theorem writeBuffered_dirty [LawfulLayout K] (access : DBAccess K V) (db : DBColumn)
    {order : List DBOp} (perm : order.Perm access.flushOps) {nodeIndex : K} {value : V}
    (dirty : access.cache.lookup nodeIndex = some (value, true)) :
    db.writeBuffered order (computeKey access.keyPrefix nodeIndex) = some (toBytesLocal value) := by
  have distinct : (access.flushOps.map DBOp.key).Nodup :=
    flushOps_nodup (Set.injOn_univ.mpr (computeKey_injective _)) fun _ _ => Set.mem_univ _
  refine DBColumn.writeBuffered_of_mem db order ((perm.map _).nodup_iff.mpr distinct) ?_
  exact perm.mem_iff.mpr (List.mem_map.mpr
    ⟨⟨nodeIndex, value, true⟩, List.mem_filter.mpr ⟨AList.mem_lookup_iff.mp dirty, rfl⟩, rfl⟩)

end

variable [Inhabited V] [MyFromBytes V] {access : DBAccess K V} {db : DBColumn} {content : K → V}

/-- A cache without dirty entries can be dropped. -/
theorem Represents.recreate (represents : access.Represents db content) (clean : access.Clean) :
    (new access.keyPrefix : DBAccess K V).Represents db content :=
  (represents_new _ _ _).mpr fun nodeIndex =>
    represents.backed nodeIndex (clean.lookup_ne nodeIndex)

end DBAccess

/-! ### Families of caches -/

variable {Owner : Type} {K V : Owner → Type}

/-- One cache for each owner, over one column. -/
structure CacheFamily (Owner : Type) (K V : Owner → Type) [∀ owner, DecidableEq (K owner)] where
  db : DBColumn
  caches : ∀ owner, DBAccess (K owner) (V owner)

/-- What can be done with a family. -/
inductive CacheOp (Owner : Type) (K V : Owner → Type)
  | get (owner : Owner) (nodeIndex : K owner)
  /-- The value may be written through the reference. -/
  | getMut (owner : Owner) (nodeIndex : K owner) (written : Option (V owner))
  | set (owner : Owner) (nodeIndex : K owner) (value : V owner)
  | flushCache (owner : Owner)
  /-- The cache is dropped and made again. -/
  | recreate (owner : Owner)

/-- What a call returns. -/
inductive CacheOut (Owner : Type) (V : Owner → Type)
  | done
  | value (owner : Owner) (found : V owner)

section

variable [DecidableEq Owner] [∀ owner, DecidableEq (K owner)]

namespace CacheFamily

/-- Caches that were just made. -/
def new (keyPrefix : Owner → Bytes) (db : DBColumn) : CacheFamily Owner K V :=
  ⟨db, fun owner => .new (keyPrefix owner)⟩

/-- Replace one owner's cache. -/
def setCache (family : CacheFamily Owner K V) (owner : Owner)
    (access : DBAccess (K owner) (V owner)) : CacheFamily Owner K V :=
  { family with caches := Function.update family.caches owner access }

section

variable (family : CacheFamily Owner K V) {owner other : Owner}
  (access : DBAccess (K owner) (V owner))

@[simp] theorem setCache_db : (family.setCache owner access).db = family.db := rfl

@[simp] theorem setCache_caches_self : (family.setCache owner access).caches owner = access :=
  Function.update_self _ _ _

theorem setCache_caches_of_ne (different : other ≠ owner) :
    (family.setCache owner access).caches other = family.caches other :=
  Function.update_of_ne different _ _

end

variable [∀ owner, LayoutTrait (K owner)] [∀ owner, MyToBytes (V owner)]

/-- Write back one owner's cache. -/
def flush (family : CacheFamily Owner K V) (owner : Owner) : CacheFamily Owner K V :=
  let flushed := (family.caches owner).flushCache family.db
  { family with db := flushed.1 }.setCache owner flushed.2

variable [∀ owner, Inhabited (V owner)] [∀ owner, MyFromBytes (V owner)]

/-- One call of one owner. -/
def step (keyPrefix : Owner → Bytes) (family : CacheFamily Owner K V) :
    CacheOp Owner K V → Option (CacheFamily Owner K V × CacheOut Owner V)
  | .get owner nodeIndex => do
    let (value, access) ← (family.caches owner).get family.db nodeIndex
    some (family.setCache owner access, .value owner value)
  | .getMut owner nodeIndex written => do
    let (value, access) ← (family.caches owner).getMut family.db nodeIndex
    let access := match written with
      | none => access
      | some new => access.set nodeIndex new
    some (family.setCache owner access, .value owner value)
  | .set owner nodeIndex value =>
    some (family.setCache owner ((family.caches owner).set nodeIndex value), .done)
  | .flushCache owner => some (family.flush owner, .done)
  | .recreate owner => some (family.setCache owner (.new (keyPrefix owner)), .done)

/-- What a read gives. -/
def read (family : CacheFamily Owner K V) (owner : Owner) (nodeIndex : K owner) :
    Option (V owner) :=
  ((family.caches owner).get family.db nodeIndex).map Prod.fst

end CacheFamily

end

/-! ### The values last written -/

/-- An operation that writes a value. -/
inductive CacheOp.Writes : CacheOp Owner K V → (owner : Owner) → K owner → V owner → Prop
  | set (owner : Owner) (nodeIndex : K owner) (value : V owner) :
      Writes (.set owner nodeIndex value) owner nodeIndex value
  | getMut (owner : Owner) (nodeIndex : K owner) (value : V owner) :
      Writes (.getMut owner nodeIndex (some value)) owner nodeIndex value

/-- The value that was last written in a history, or the default. -/
inductive LastWritten [∀ owner, Inhabited (V owner)] (owner : Owner) (nodeIndex : K owner) :
    List (CacheOp Owner K V) → V owner → Prop
  | never : LastWritten owner nodeIndex [] default
  | written {history : List (CacheOp Owner K V)} {op : CacheOp Owner K V} {value : V owner}
      (writes : op.Writes owner nodeIndex value) :
      LastWritten owner nodeIndex (history ++ [op]) value
  | kept {history : List (CacheOp Owner K V)} {op : CacheOp Owner K V} {value : V owner}
      (before : LastWritten owner nodeIndex history value)
      (other : ∀ value, ¬ op.Writes owner nodeIndex value) :
      LastWritten owner nodeIndex (history ++ [op]) value

theorem CacheOp.Writes.unique {op : CacheOp Owner K V} {owner : Owner} {nodeIndex : K owner}
    {first second : V owner} (writes : op.Writes owner nodeIndex first)
    (writes' : op.Writes owner nodeIndex second) : first = second := by
  cases writes <;> cases writes' <;> rfl

section

variable [∀ owner, Inhabited (V owner)] {owner : Owner} {nodeIndex : K owner}

theorem lastWritten_nil {value : V owner} (last : LastWritten owner nodeIndex [] value) :
    value = default := by
  generalize whole : ([] : List (CacheOp Owner K V)) = full at last
  cases last with
  | never => rfl
  | written | kept => exact absurd whole.symm (List.concat_ne_nil _ _)

theorem lastWritten_concat {history : List (CacheOp Owner K V)} {op : CacheOp Owner K V}
    {value : V owner} :
    LastWritten owner nodeIndex (history ++ [op]) value ↔
      op.Writes owner nodeIndex value ∨
        LastWritten owner nodeIndex history value ∧ ∀ value, ¬ op.Writes owner nodeIndex value := by
  constructor
  · intro last
    generalize whole : history ++ [op] = full at last
    cases last with
    | never => exact absurd whole (List.concat_ne_nil op history)
    | written writes =>
      obtain ⟨rfl, ⟨⟩⟩ := List.append_inj' whole rfl
      exact .inl writes
    | kept before other =>
      obtain ⟨rfl, ⟨⟩⟩ := List.append_inj' whole rfl
      exact .inr ⟨before, other⟩
  · rintro (writes | ⟨before, other⟩)
    · exact .written writes
    · exact .kept before other

/-- There is one such value. -/
theorem LastWritten.unique {history : List (CacheOp Owner K V)} {first second : V owner}
    (last : LastWritten owner nodeIndex history first)
    (last' : LastWritten owner nodeIndex history second) : first = second := by
  induction history using List.reverseRecOn with
  | nil =>
    rw [lastWritten_nil last, lastWritten_nil last']
  | append_singleton history op inductionHypothesis =>
    rw [lastWritten_concat] at last last'
    rcases last with writes | ⟨before, silent⟩
    · rcases last' with writes' | ⟨-, silent⟩
      · exact writes.unique writes'
      · exact absurd writes (silent _)
    · rcases last' with writes' | ⟨before', -⟩
      · exact absurd writes' (silent _)
      · exact inductionHypothesis before before'

end

/-- The output an operation should have after a history. -/
def CacheOp.Answer [∀ owner, Inhabited (V owner)] (history : List (CacheOp Owner K V)) :
    CacheOp Owner K V → CacheOut Owner V → Prop
  | .get owner nodeIndex, out =>
    ∃ value, LastWritten owner nodeIndex history value ∧ out = .value owner value
  | .getMut owner nodeIndex _, out =>
    ∃ value, LastWritten owner nodeIndex history value ∧ out = .value owner value
  | .set .., out => out = .done
  | .flushCache _, out => out = .done
  | .recreate _, out => out = .done

/-- Every operation has the output that it should have after the ones before it. -/
inductive Answered [∀ owner, Inhabited (V owner)] :
    List (CacheOp Owner K V × CacheOut Owner V) → Prop
  | nil : Answered []
  | snoc {history : List (CacheOp Owner K V × CacheOut Owner V)} {op : CacheOp Owner K V}
      {out : CacheOut Owner V} (before : Answered history)
      (answer : op.Answer (history.map Prod.fst) out) : Answered (history ++ [(op, out)])

/-! ### Independent maps -/

/-- A map for each owner. -/
abbrev Maps (K V : Owner → Type) := ∀ owner, K owner → V owner

section

variable [DecidableEq Owner] [∀ owner, DecidableEq (K owner)]

namespace Maps

/-- Set one key of one owner. -/
def write (maps : Maps K V) (owner : Owner) (nodeIndex : K owner) (value : V owner) : Maps K V :=
  Function.update maps owner (Function.update (maps owner) nodeIndex value)

theorem write_self (maps : Maps K V) (owner : Owner) (nodeIndex : K owner) (value : V owner) :
    maps.write owner nodeIndex value owner nodeIndex = value := by
  rw [write, Function.update_self, Function.update_self]

theorem write_of_ne (maps : Maps K V) {owner other : Owner} {nodeIndex : K owner}
    {otherIndex : K other} (value : V owner)
    (different : (⟨other, otherIndex⟩ : Sigma K) ≠ ⟨owner, nodeIndex⟩) :
    maps.write owner nodeIndex value other otherIndex = maps other otherIndex := by
  rw [write]
  by_cases same : other = owner
  · subst same
    rw [Function.update_self, Function.update_of_ne fun equal => different (by rw [equal])]
  · rw [Function.update_of_ne same]

/-- Flushing and dropping do nothing to a map. -/
def step (maps : Maps K V) : CacheOp Owner K V → Maps K V × CacheOut Owner V
  | .get owner nodeIndex => (maps, .value owner (maps owner nodeIndex))
  | .getMut owner nodeIndex written =>
    (match written with
      | none => maps
      | some new => maps.write owner nodeIndex new,
      .value owner (maps owner nodeIndex))
  | .set owner nodeIndex value => (maps.write owner nodeIndex value, .done)
  | .flushCache _ => (maps, .done)
  | .recreate _ => (maps, .done)

end Maps

end

namespace Maps

variable [∀ owner, Inhabited (V owner)]

/-- The maps hold what was last written to each of their cells. -/
def Holds (maps : Maps K V) (history : List (CacheOp Owner K V)) : Prop :=
  ∀ owner nodeIndex, LastWritten owner nodeIndex history (maps owner nodeIndex)

variable {maps : Maps K V} {history : List (CacheOp Owner K V)}

theorem holds_default : Holds (fun _ _ => default : Maps K V) [] := fun _ _ => .never

theorem Holds.kept (holds : maps.Holds history) {op : CacheOp Owner K V}
    (silent : ∀ owner nodeIndex value, ¬ op.Writes owner nodeIndex value) :
    maps.Holds (history ++ [op]) :=
  fun owner nodeIndex => .kept (holds owner nodeIndex) (silent owner nodeIndex)

variable [DecidableEq Owner] [∀ owner, DecidableEq (K owner)]

theorem Holds.write (holds : maps.Holds history) {op : CacheOp Owner K V} {owner : Owner}
    {nodeIndex : K owner} {value : V owner} (writes : op.Writes owner nodeIndex value)
    (only : ∀ other otherIndex found, op.Writes other otherIndex found →
      (⟨other, otherIndex⟩ : Sigma K) = ⟨owner, nodeIndex⟩) :
    (maps.write owner nodeIndex value).Holds (history ++ [op]) := by
  intro other otherIndex
  by_cases same : (⟨other, otherIndex⟩ : Sigma K) = ⟨owner, nodeIndex⟩
  · cases same
    rw [write_self]
    exact .written writes
  · rw [write_of_ne maps value same]
    exact .kept (holds other otherIndex) fun found written => same (only _ _ _ written)

/-- One operation on maps that hold what was last written. -/
theorem Holds.step (holds : maps.Holds history) (op : CacheOp Owner K V) :
    (maps.step op).1.Holds (history ++ [op]) ∧ op.Answer history (maps.step op).2 := by
  cases op with
  | get owner nodeIndex =>
    exact ⟨holds.kept fun _ _ _ writes => (by cases writes), _, holds owner nodeIndex, rfl⟩
  | getMut owner nodeIndex written =>
    refine ⟨?_, _, holds owner nodeIndex, rfl⟩
    cases written with
    | none => exact holds.kept fun _ _ _ writes => (by cases writes)
    | some new => exact holds.write (.getMut _ _ _) fun _ _ _ writes => (by cases writes; rfl)
  | set owner nodeIndex value =>
    exact ⟨holds.write (.set _ _ _) fun _ _ _ writes => (by cases writes; rfl), rfl⟩
  | flushCache owner => exact ⟨holds.kept fun _ _ _ writes => (by cases writes), rfl⟩
  | recreate owner => exact ⟨holds.kept fun _ _ _ writes => (by cases writes), rfl⟩

end Maps

/-! ### The family is the maps -/

namespace CacheFamily

variable [∀ owner, DecidableEq (K owner)] [∀ owner, LayoutTrait (K owner)]
  [∀ owner, Inhabited (V owner)] [∀ owner, MyFromBytes (V owner)]

/-- Each cache, over the column, stands for the map of its owner. -/
structure Represents (family : CacheFamily Owner K V) (keyPrefix : Owner → Bytes)
    (maps : Maps K V) : Prop where
  keyPrefixEq : ∀ owner, (family.caches owner).keyPrefix = keyPrefix owner
  stands : ∀ owner, (family.caches owner).Represents family.db (maps owner)

variable {family : CacheFamily Owner K V} {keyPrefix : Owner → Bytes} {maps : Maps K V}

/-- Nothing is stored under the prefixes yet. -/
def Fresh (K : Owner → Type) [∀ owner, LayoutTrait (K owner)] (keyPrefix : Owner → Bytes)
    (db : DBColumn) : Prop :=
  ∀ owner (nodeIndex : K owner), db (DBAccess.computeKey (keyPrefix owner) nodeIndex) = none

/-- A cache is dropped only when it has nothing to write back. -/
def DropsClean (family : CacheFamily Owner K V) : CacheOp Owner K V → Prop
  | .recreate owner => (family.caches owner).Clean
  | _ => True

instance (family : CacheFamily Owner K V) : DecidablePred family.DropsClean
  | .recreate owner => inferInstanceAs (Decidable (family.caches owner).Clean)
  | .get .. | .getMut .. | .set .. | .flushCache _ => isTrue trivial

theorem represents_new {db : DBColumn} (fresh : Fresh K keyPrefix db) :
    (new keyPrefix db : CacheFamily Owner K V).Represents keyPrefix fun _ _ => default where
  keyPrefixEq _ := rfl
  stands owner := (DBAccess.represents_new _ _ _).mpr fun nodeIndex => by
    have absent : DBAccess.load db (keyPrefix owner) nodeIndex = some (default : V owner) := by
      simp only [DBAccess.load, fresh owner nodeIndex]
    exact absent

theorem Represents.read (represents : family.Represents keyPrefix maps) (owner : Owner)
    (nodeIndex : K owner) : family.read owner nodeIndex = some (maps owner nodeIndex) := by
  obtain ⟨next, done, -, -⟩ := (represents.stands owner).get nodeIndex
  rw [CacheFamily.read, done]
  rfl

variable [DecidableEq Owner]

/-- One cache is replaced by another one under the same prefix. -/
theorem Represents.setCache (represents : family.Represents keyPrefix maps) {owner : Owner}
    {access : DBAccess (K owner) (V owner)} {map : K owner → V owner}
    (samePrefix : access.keyPrefix = keyPrefix owner) (stands : access.Represents family.db map) :
    (family.setCache owner access).Represents keyPrefix (Function.update maps owner map) where
  keyPrefixEq other := by
    by_cases same : other = owner
    · subst same
      rw [setCache_caches_self, samePrefix]
    · rw [setCache_caches_of_ne _ _ same, represents.keyPrefixEq]
  stands other := by
    by_cases same : other = owner
    · subst same
      rw [setCache_caches_self, Function.update_self]
      exact stands
    · rw [setCache_caches_of_ne _ _ same, Function.update_of_ne same]
      exact represents.stands other

/-- The same, without a change to the map. -/
theorem Represents.setCache_self (represents : family.Represents keyPrefix maps) {owner : Owner}
    {access : DBAccess (K owner) (V owner)} (samePrefix : access.keyPrefix = keyPrefix owner)
    (stands : access.Represents family.db (maps owner)) :
    (family.setCache owner access).Represents keyPrefix maps := by
  have replaced := represents.setCache samePrefix stands
  rwa [Function.update_eq_self] at replaced

/-- A store key that belongs to no cache. -/
def Outside (K : Owner → Type) [∀ owner, LayoutTrait (K owner)] (keyPrefix : Owner → Bytes)
    (key : Bytes) : Prop :=
  ∀ owner (nodeIndex : K owner), DBAccess.computeKey (keyPrefix owner) nodeIndex ≠ key

variable [∀ owner, MyToBytes (V owner)]

theorem Represents.flush_db (represents : family.Represents keyPrefix maps) (owner : Owner)
    {key : Bytes} (outside : Outside K keyPrefix key) : (family.flush owner).db key = family.db key :=
  DBAccess.flushCache_of_ne fun nodeIndex => by
    rw [represents.keyPrefixEq]
    exact outside owner nodeIndex

variable [∀ owner, LawfulLayout (K owner)] [∀ owner, LocalSerde (V owner)]

/-- A flush is seen by no cache, its own included. -/
theorem Represents.flush (represents : family.Represents keyPrefix maps)
    (apart : Function.Injective keyPrefix) (owner : Owner) :
    (family.flush owner).Represents keyPrefix maps where
  keyPrefixEq other := by
    by_cases same : other = owner
    · subst same
      rw [CacheFamily.flush, setCache_caches_self]
      exact represents.keyPrefixEq other
    · rw [CacheFamily.flush, setCache_caches_of_ne _ _ same]
      exact represents.keyPrefixEq other
  stands other := by
    by_cases same : other = owner
    · subst same
      rw [CacheFamily.flush, setCache_caches_self]
      exact (represents.stands other).flushCache
    · rw [CacheFamily.flush, setCache_caches_of_ne _ _ same]
      refine (represents.stands other).flushOther (family.caches owner) fun index' index equal => ?_
      have prefixes := DBAccess.computeKey_prefix equal
      rw [represents.keyPrefixEq, represents.keyPrefixEq] at prefixes
      exact same (apart prefixes).symm

/-- One operation on the family is one on the maps. -/
theorem Represents.step (represents : family.Represents keyPrefix maps)
    (apart : Function.Injective keyPrefix) {op : CacheOp Owner K V} (drops : family.DropsClean op) :
    ∃ next, family.step keyPrefix op = some (next, (maps.step op).2) ∧
      next.Represents keyPrefix (maps.step op).1 ∧
      ∀ key, Outside K keyPrefix key → next.db key = family.db key := by
  cases op with
  | get owner nodeIndex =>
    obtain ⟨access, done, stands, samePrefix⟩ := (represents.stands owner).get nodeIndex
    refine ⟨family.setCache owner access, ?_, represents.setCache_self
      (samePrefix.trans (represents.keyPrefixEq owner)) stands, fun _ _ => rfl⟩
    show ((family.caches owner).get family.db nodeIndex).bind _ = _
    rw [done]
    rfl
  | getMut owner nodeIndex written =>
    obtain ⟨access, done, stands, samePrefix⟩ := (represents.stands owner).getMut nodeIndex
    have ownPrefix := samePrefix.trans (represents.keyPrefixEq owner)
    cases written with
    | none =>
      refine ⟨family.setCache owner access, ?_, represents.setCache_self ownPrefix stands,
        fun _ _ => rfl⟩
      show ((family.caches owner).getMut family.db nodeIndex).bind _ = _
      rw [done]
      rfl
    | some new =>
      refine ⟨family.setCache owner (access.set nodeIndex new), ?_,
        represents.setCache ownPrefix (stands.set nodeIndex new), fun _ _ => rfl⟩
      show ((family.caches owner).getMut family.db nodeIndex).bind _ = _
      rw [done]
      rfl
  | set owner nodeIndex value =>
    exact ⟨_, rfl, represents.setCache (represents.keyPrefixEq owner)
      ((represents.stands owner).set nodeIndex value), fun _ _ => rfl⟩
  | flushCache owner =>
    exact ⟨_, rfl, represents.flush apart owner, fun _ => represents.flush_db owner⟩
  | recreate owner =>
    have remade := (represents.stands owner).recreate drops
    rw [represents.keyPrefixEq] at remade
    exact ⟨_, rfl, represents.setCache_self rfl remade, fun _ _ => rfl⟩

/-- Every run goes through and gives the answers of the maps, which the family stands for at the
end; what belongs to no cache stays as it was. -/
theorem run_fresh {db : DBColumn} (apart : Function.Injective keyPrefix)
    (fresh : Fresh K keyPrefix db) {ops : List (CacheOp Owner K V)}
    (drops : PartialRun.Meets (CacheFamily.step keyPrefix) DropsClean (new keyPrefix db) ops) :
    ∃ final outputs,
      PartialRun.run (CacheFamily.step keyPrefix) (new keyPrefix db) ops = some (final, outputs) ∧
        Answered (ops.zip outputs) ∧
        (∃ maps, final.Represents keyPrefix maps ∧ maps.Holds ops) ∧
        ∀ key, Outside K keyPrefix key → final.db key = db key := by
  let follows := fun (history : List (CacheOp Owner K V × CacheOut Owner V))
      (family : CacheFamily Owner K V) =>
    Answered history ∧
      (∃ maps, family.Represents keyPrefix maps ∧ maps.Holds (history.map Prod.fst)) ∧
      ∀ key, Outside K keyPrefix key → family.db key = db key
  obtain ⟨final, outputs, done, answered, stands, outside⟩ :=
    PartialRun.run_answers_of_meets follows (fun _ => True) (fun _ _ _ => trivial)
      (fun history family op _ drops ⟨answered, ⟨maps, represents, holds⟩, outside⟩ => by
        obtain ⟨next, done, nextRepresents, untouched⟩ := represents.step apart drops
        obtain ⟨nextHolds, answer⟩ := holds.step op
        refine ⟨next, _, done, answered.snoc answer, ⟨_, nextRepresents, ?_⟩,
          fun key isOutside => (untouched key isOutside).trans (outside key isOutside)⟩
        rwa [List.map_append])
      [] trivial ⟨.nil, ⟨_, represents_new fresh, Maps.holds_default⟩, fun _ _ => rfl⟩ drops
  refine ⟨final, outputs, done, answered, ?_, outside⟩
  rwa [List.nil_append, List.map_fst_zip (PartialRun.length_run done).ge] at stands

end CacheFamily

end AuthStorage.Lvmt
