/-
This file is about the database as a map: the pairs that are set wait for the
next commit, which stores them in order, and a key is read from what is stored.
So a key has the value it was last set to before the latest commit, however the
reads fill the cache in between.
-/

import AuthStorage.Lvmt.LvmtReopen

namespace AuthStorage.Lvmt

/-! ### A map with batches -/

/-- What the database is for a caller who only sets, gets and commits. -/
structure BatchMap where
  committed : Key → Option (Vec UInt8)
  pending : List (Key × Vec UInt8)

namespace BatchMap

/-- The later of two pairs with the same key stays. -/
def putAll (values : Key → Option (Vec UInt8)) (pairs : List (Key × Vec UInt8)) :
    Key → Option (Vec UInt8) :=
  pairs.foldl (fun values pair => Function.update values pair.1 (some pair.2)) values

/-- What an operation does to the map. -/
def apply (map : BatchMap) : LvmtOp → BatchMap
  | .set key value => { map with pending := map.pending ++ [(key, value)] }
  | .commit => ⟨putAll map.committed map.pending, []⟩
  | .get _ | .prove _ | .flushRoot => map

/-- Nothing is set. -/
def empty : BatchMap := ⟨fun _ => none, []⟩

/-- The map after a run. -/
def after (ops : List LvmtOp) : BatchMap := ops.foldl apply empty

theorem after_concat (ops : List LvmtOp) (op : LvmtOp) :
    after (ops ++ [op]) = (after ops).apply op := by
  rw [after, List.foldl_append]
  rfl

end BatchMap

/-! ### What a history says of a key -/

/-- The operation is a commit. -/
def LvmtOp.isCommit : LvmtOp → Bool
  | .commit => true
  | _ => false

/-- The value an operation sets the key to. -/
def LvmtOp.setTo (key : Key) : LvmtOp → Option (Vec UInt8)
  | .set other value => if other = key then some value else none
  | _ => none

/-- The value of the last set of the key. -/
def lastSet (key : Key) (ops : List LvmtOp) : Option (Vec UInt8) :=
  ops.reverse.findSome? (LvmtOp.setTo key)

/-- The history up to the latest commit. -/
def committedPart (ops : List LvmtOp) : List LvmtOp :=
  (ops.reverse.dropWhile fun op => !op.isCommit).reverse

theorem lastSet_concat (key : Key) (ops : List LvmtOp) (op : LvmtOp) :
    lastSet key (ops ++ [op]) = (op.setTo key).or (lastSet key ops) := by
  rw [lastSet, List.reverse_concat, List.findSome?_cons]
  cases op.setTo key <;> rfl

theorem committedPart_concat (ops : List LvmtOp) (op : LvmtOp) :
    committedPart (ops ++ [op]) = if op.isCommit then ops ++ [op] else committedPart ops := by
  rw [committedPart, List.reverse_concat, List.dropWhile_cons]
  cases op.isCommit with
  | true => simp
  | false => rfl

/-- The map after a history: what is committed is what was last set before the latest commit. -/
theorem BatchMap.after_eq (ops : List LvmtOp) :
    (after ops).committed = (fun key => lastSet key (committedPart ops)) ∧
      putAll (after ops).committed (after ops).pending = fun key => lastSet key ops := by
  induction ops using List.reverseRecOn with
  | nil => exact ⟨rfl, rfl⟩
  | append_singleton ops op inductionHypothesis =>
    obtain ⟨committed, all⟩ := inductionHypothesis
    rw [after_concat]
    simp only [lastSet_concat, committedPart_concat]
    cases op with
    | set key value =>
      refine ⟨committed, ?_⟩
      show putAll (after ops).committed ((after ops).pending ++ [(key, value)]) = _
      rw [putAll, List.foldl_append]
      show Function.update (putAll (after ops).committed (after ops).pending) key (some value) = _
      rw [all]
      funext other
      by_cases same : other = key
      · subst same
        rw [Function.update_self, LvmtOp.setTo, if_pos rfl]
        rfl
      · rw [Function.update_of_ne same, LvmtOp.setTo, if_neg fun equal => same equal.symm]
        rfl
    | commit =>
      refine ⟨?_, all⟩
      show putAll (after ops).committed (after ops).pending = _
      rw [all]
      funext key
      show _ = lastSet key (ops ++ [.commit])
      rw [lastSet_concat]
      rfl
    | get key => exact ⟨committed, all⟩
    | prove key => exact ⟨committed, all⟩
    | flushRoot => exact ⟨committed, all⟩

/-! ### Ledgers -/

namespace Ledger

variable {G G₂ H : Type} {depths : Nat}

/-- The ledger stores the values of the map, and the same pairs are waiting. -/
structure IsMap (ledger : Ledger G depths) (map : BatchMap) : Prop where
  stored : ∃ values, LvmtDB.Holds ledger.dbKey values ∧
    map.committed = fun key => (values key).map Value.value
  pending : ledger.uncommittedKeyValues = map.pending

theorem IsMap.get {ledger : Ledger G depths} {map : BatchMap} (isMap : ledger.IsMap map)
    (key : Key) : ledger.get key = some (map.committed key) := by
  obtain ⟨values, holds, committed⟩ := isMap.stored
  rw [Ledger.get, holds key, committed]
  rfl

variable [Curve G] [H256 H]

theorem isMap_empty : (empty : Ledger G depths).IsMap BatchMap.empty :=
  ⟨⟨fun _ => none, LvmtDB.holds_empty, rfl⟩, rfl⟩

theorem putAll_storeAll (values : Key → Option Value) (stored : List (Key × Value)) :
    BatchMap.putAll (fun key => (values key).map Value.value)
        (stored.map fun pair => (pair.1, pair.2.value)) =
      fun key => (LvmtDB.storeAll values stored key).map Value.value := by
  induction stored generalizing values with
  | nil => rfl
  | cons pair rest inductionHypothesis =>
    have step : Function.update (fun key => (values key).map Value.value) pair.1
        (some pair.2.value) =
          fun key => (Function.update values pair.1 (some pair.2) key).map Value.value := by
      funext key
      by_cases same : key = pair.1
      · rw [same, Function.update_self, Function.update_self]
        rfl
      · rw [Function.update_of_ne same, Function.update_of_ne same]
    show BatchMap.putAll (Function.update _ pair.1 (some pair.2.value)) _ = _
    rw [step]
    exact inductionHypothesis _

/-- A commit stores exactly the pairs that wait. -/
theorem IsMap.commit {config : LvmtConfig G G₂ depths} {ledger next : Ledger G depths}
    {map : BatchMap} {roots : G × H} (isMap : ledger.IsMap map)
    (done : ledger.commit config = some (roots, next)) : next.IsMap (map.apply .commit) := by
  obtain ⟨values, holds, committed⟩ := isMap.stored
  obtain ⟨epoch, forest, writeOps, updates, after, dbMerkle, hashes, -, batch, -, -, rfl⟩ :=
    commit_eq_some done
  obtain ⟨stored, samePairs, -, sameOps, -⟩ := LvmtDB.commitKey_invariant (fun _ _ => True)
    (fun _ _ _ _ _ _ _ _ _ _ _ => trivial) trivial batch
  dsimp only at sameOps
  subst sameOps
  refine ⟨⟨LvmtDB.storeAll values stored, holds.writeBuffered stored, ?_⟩, rfl⟩
  show BatchMap.putAll map.committed map.pending = _
  rw [committed, ← isMap.pending, ← samePairs, putAll_storeAll]

theorem IsMap.step {config : LvmtConfig G G₂ depths} {ledger next : Ledger G depths}
    {map : BatchMap} {op : LvmtOp} {out : LvmtOutput G H} (isMap : ledger.IsMap map)
    (done : ledger.step config op = some (next, out)) : next.IsMap (map.apply op) := by
  cases op with
  | set key value =>
    obtain ⟨rfl, -⟩ := Prod.mk.inj (Option.some.inj done)
    exact ⟨isMap.stored, congrArg (· ++ [(key, value)]) isMap.pending⟩
  | get key =>
    obtain ⟨value, -, same⟩ := Option.bind_eq_some_iff.mp done
    obtain ⟨rfl, -⟩ := Prod.mk.inj (Option.some.inj same)
    exact isMap
  | commit =>
    obtain ⟨⟨⟨amtRoot, merkleRoot⟩, after⟩, committed, same⟩ := Option.bind_eq_some_iff.mp done
    obtain ⟨rfl, -⟩ := Prod.mk.inj (Option.some.inj same)
    exact isMap.commit committed
  | prove key =>
    obtain ⟨proof, -, same⟩ := Option.bind_eq_some_iff.mp done
    obtain ⟨rfl, -⟩ := Prod.mk.inj (Option.some.inj same)
    exact isMap
  | flushRoot =>
    obtain ⟨rfl, -⟩ := Prod.mk.inj (Option.some.inj done)
    exact ⟨isMap.stored, isMap.pending⟩

theorem run_isMap {config : LvmtConfig G G₂ depths} {ops : List LvmtOp} {final : Ledger G depths}
    {outputs : List (LvmtOutput G H)}
    (done : PartialRun.run (step config) empty ops = some (final, outputs)) :
    final.IsMap (BatchMap.after ops) := by
  have kept := PartialRun.run_invariant_of_forall
    (fun history ledger => ledger.IsMap (BatchMap.after (history.map Prod.fst))) (fun _ => True)
    (fun history ledger op next out _ isMap stepped => by
      rw [List.map_append, List.map_singleton, BatchMap.after_concat]
      exact isMap.step stepped)
    (fun _ _ => trivial) isMap_empty done
  rwa [List.map_fst_zip (PartialRun.length_run done).ge] at kept

end Ledger

/-! ### Databases -/

namespace LvmtDB

variable {G G₂ H : Type} {depths : Nat} [Curve G] [H256 H]

/-- After any run a key is read as the value it was last set to before the latest commit, and as
none if there is no such set. -/
theorem get_committed (config : LvmtConfig G G₂ depths) {opened final : LvmtDB G depths}
    {ops : List LvmtOp} {outputs : List (LvmtOutput G H)}
    (isOpened : new KeyValueDB.empty config.onlyMerkleRoot config.shardInfo = some opened)
    (done : PartialRun.run (LvmtDB.step config.pp) opened ops = some (final, outputs)) (key : Key) :
    ∃ next, final.get key = some (lastSet key (committedPart ops), next) := by
  obtain ⟨ledger, ran, stands⟩ := (represents_of_new isOpened).of_run done
  have read := stands.get key
  rw [(Ledger.run_isMap ran).get key, (BatchMap.after_eq ops).1] at read
  obtain ⟨⟨value, next⟩, got, rfl, -⟩ := read.of_some_right
  exact ⟨next, got⟩

/-- A key that is set twice in one epoch, read before and after the commit, and set again. -/
def batchRun : List LvmtOp :=
  [.get ⟨.pair 7 0⟩, .set ⟨.pair 7 0⟩ (.single 1), .set ⟨.pair 7 0⟩ (.single 2),
    .get ⟨.pair 7 0⟩, .commit, .get ⟨.pair 7 0⟩, .set ⟨.pair 7 0⟩ (.single 3)]

theorem get_committed_batchRun :
    ∃ (opened final next : LvmtDB Fr 8) (outputs : List (LvmtOutput Fr Transcript)),
      new KeyValueDB.empty false (some .root) = some opened ∧
      PartialRun.run (LvmtDB.step fullConfig.pp) opened batchRun = some (final, outputs) ∧
      final.get ⟨.pair 7 0⟩ = some (some (.single 2), next) := by
  obtain ⟨result, done⟩ : ∃ result : LvmtDB Fr 8 × LvmtDB Fr 8 × List (LvmtOutput Fr Transcript),
      ((new KeyValueDB.empty false (some .root)).bind fun opened =>
        (PartialRun.run (LvmtDB.step fullConfig.pp) opened batchRun).map fun ran =>
          (opened, ran)) = some result :=
    Option.isSome_iff_exists.mp (by decide +kernel)
  obtain ⟨opened, isOpened, done⟩ := Option.bind_eq_some_iff.mp done
  obtain ⟨ran, isRan, -⟩ := Option.map_eq_some_iff.mp done
  obtain ⟨next, got⟩ := get_committed fullConfig isOpened isRan ⟨.pair 7 0⟩
  have last : lastSet ⟨.pair 7 0⟩ (committedPart batchRun) = some (.single 2) := by decide
  rw [last] at got
  exact ⟨opened, ran.1, next, ran.2, isOpened, isRan, got⟩

end LvmtDB

end AuthStorage.Lvmt
