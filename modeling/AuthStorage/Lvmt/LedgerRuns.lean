/-
This file is about runs of a ledger that maintains every tree and keeps the Merkle
trees of its epochs. A commit turns the pairs that wait and the trees that are
dirty into the leaves of one more epoch, in this order, so that both can be found
there; every other operation leaves the epochs and the trees as they are. So
the records of a ledger hold in every state that it reaches, and a key that has
a slot keeps it.
-/

import AuthStorage.Lvmt.LedgerRecords

namespace AuthStorage.Lvmt

open Epoch

namespace Ledger

variable {G G₂ H : Type} {depths : Nat} [Curve G] [H256 H] {pp : AMTParams G G₂ depths}
  {values : Key → Option Value} {history : List (Epoch G)} {committed : Nat}

/-! ### The leaves of a commit -/

section

variable {epoch : UInt64} {stored : List (Key × Value)} {forest after : Forest G depths}
  {commitment : G} {updates : List (VersionTree.SubTreeUpdate G)}

/-- The epoch has room for the pairs and all trees on their paths. -/
theorem InBatch.short_leaves (inBatch : InBatch pp values history committed epoch stored forest)
    (batch : stored.length < 2 ^ 26) {shardNode : Option (NodeIndex depths)} {startPos : UInt64}
    (done : forest.commit pp shardNode epoch startPos = some ((commitment, updates), after)) :
    ((Epoch.mk stored updates).leaves : List H).length < 2 ^ 31 := by
  have few := inBatch.length_leaves_le done
  rw [leaves, List.length_append, List.length_map, List.length_map]
  dsimp only
  omega

omit [H256 H] in
/-- A pair that was stored is found in the last epoch. -/
theorem InBatch.stores (inBatch : InBatch pp values history committed epoch stored forest)
    (last : epoch.toNat = history.length) (batch : stored.length < 2 ^ 26)
    {pair : Key × Value} (member : pair ∈ stored) :
    Stores (history ++ [⟨stored, updates⟩]) pair.2.position pair := by
  obtain ⟨number, found⟩ := List.getElem?_of_mem member
  have inside := (List.getElem?_eq_some_iff.mp found).1
  refine ⟨⟨stored, updates⟩, ?_, ?_⟩
  · rw [inBatch.positions number pair found]
    dsimp only
    rw [last, List.getElem?_concat_length]
  · rw [inBatch.positions number pair found]
    dsimp only
    rwa [UInt64.toNat_ofNat', Nat.mod_eq_of_lt (by omega)]

omit [Curve G] in
/-- A tree that was listed is found behind the pairs. -/
theorem lists_last {number : Nat} {update : VersionTree.SubTreeUpdate G} {position : UInt64}
    (last : epoch.toNat = history.length) (short : stored.length + updates.length < 2 ^ 31)
    (found : updates[number]? = some update)
    (placed : checkedAdd (UInt64.ofNat stored.length) (UInt64.ofNat number) = some position) :
    Lists (history ++ [⟨stored, updates⟩]) ⟨epoch, position⟩ update := by
  have inside := (List.getElem?_eq_some_iff.mp found).1
  refine ⟨⟨stored, updates⟩, number, ?_, found, ?_⟩
  · dsimp only
    rw [last, List.getElem?_concat_length]
  · dsimp only
    rw [toNat_checkedAdd placed, UInt64.toNat_ofNat', UInt64.toNat_ofNat',
      Nat.mod_eq_of_lt (by omega), Nat.mod_eq_of_lt (by omega)]

end

/-! ### Commits -/

section

variable {ledger next : Ledger G depths} {roots : G × H}

omit [Curve G] [H256 H] in
/-- What is stored after a commit is one of its pairs, or was stored before. -/
theorem storeAll_cases {stored : List (Key × Value)} {key : Key} {value : Value}
    (found : LvmtDB.storeAll values stored key = some value) :
    (key, value) ∈ stored ∨ values key = some value := by
  rcases storeAll_mem values stored key with ⟨value', member, found'⟩ | found'
  · obtain rfl := Option.some.inj (found.symm.trans found')
    exact Or.inl member
  · exact Or.inr (found'.symm.trans found)

/-- The paths of the stored pairs stay listed, and those of the new ones are listed now. -/
theorem InBatch.commit_reachable {epoch startPos : UInt64} {stored : List (Key × Value)}
    {forest after : Forest G depths} {commitment : G}
    {updates : List (VersionTree.SubTreeUpdate G)} {shardNode : Option (NodeIndex depths)}
    (inBatch : InBatch pp values history committed epoch stored forest)
    (done : forest.commit pp shardNode epoch startPos = some ((commitment, updates), after)) :
    Reachable (LvmtDB.storeAll values stored) after := by
  have proper := inBatch.openable.proper
  refine ⟨fun key value found => ?_, fun key value name found isTree => ?_⟩
  · rcases storeAll_cases found with added | earlier
    · exact inBatch.levels _ added
    · exact inBatch.reachable.shallow key value earlier
  · rcases storeAll_cases found with added | earlier
    · exact Forest.listedUpTo_of_dirty proper (inBatch.dirty _ added name isTree) done
    · exact (inBatch.reachable.listed key value name earlier isTree).commit proper done

/-- A commit adds an epoch whose root it returns, and keys stay in their slots. -/
theorem Provable.commit (provable : ledger.Provable H pp values history committed)
    (neverZero : ∀ bytes, (keccak bytes : H) ≠ default)
    (few : committed + ledger.uncommittedKeyValues.length < 2 ^ 40)
    (batch : ledger.uncommittedKeyValues.length < 2 ^ 26)
    (done : ledger.commit ⟨pp, false, some .root⟩ = some (roots, next)) :
    ∃ values' added, next.Provable H pp values' (history ++ [added])
        (committed + ledger.uncommittedKeyValues.length) ∧
      roots.2 = LvmtDB.rootOfLeaves added.leaves ∧ SameSlots values values' := by
  obtain ⟨values', exclusive, sameSlots⟩ := provable.exclusive.commit done
  have clean := commit_clean provable.openable.proper done
  obtain ⟨epoch, forest, writeOps, updates, after, dbMerkle, hashes, current, batched, commits,
    finished, rfl⟩ := commit_eq_some done
  obtain ⟨stored, pairs, sameHashes, sameOps, inBatch⟩ := provable.batch few batched
  dsimp only at sameHashes sameOps inBatch commits finished
  subst sameHashes sameOps
  have sameLength : stored.length = ledger.uncommittedKeyValues.length := by
    rw [← pairs, List.length_map]
  rw [← sameLength] at few batch ⊢
  rw [List.length_map] at commits
  obtain ⟨epoch', current', last⟩ := provable.archive.current
  obtain rfl := Option.some.inj (current.symm.trans current')
  rw [List.length_map] at last
  have short := inBatch.short_leaves (H := H) batch commits
  have shortSum : stored.length + updates.length < 2 ^ 31 := by
    rwa [leaves, List.length_append, List.length_map, List.length_map] at short
  obtain ⟨archive, isRoot⟩ := provable.archive.finishEpoch current short
    (noZero_leaves neverZero ⟨stored, updates⟩) finished
  rw [← List.map_singleton, ← List.map_append] at archive
  obtain rfl : values' = LvmtDB.storeAll values stored := funext fun key => Option.some.inj
    ((exclusive.holds key).symm.trans (provable.exclusive.holds.writeBuffered stored key))
  refine ⟨_, ⟨stored, updates⟩, ⟨exclusive, ?_, clean, archive, ?_, ?_, ?_⟩, isRoot, sameSlots⟩
  · exact inBatch.commit_openable few commits
  · intro key value found
    rcases storeAll_cases found with added | earlier
    · exact inBatch.stores last batch added
    · exact (provable.stores key value earlier).append _
  · exact Forest.Attested.commit inBatch.openable.proper inBatch.attested
      (fun position update lists => lists.append _)
      (fun number update position found placed => lists_last last shortSum found placed) commits
  · exact inBatch.commit_reachable commits

/-! ### Other operations -/

omit [Curve G] [H256 H] in
theorem flushRoot_of_ne {name : TreeName} (notRoot : name ≠ .root) :
    ledger.flushRoot.forest name = ledger.forest name :=
  Function.update_of_ne notRoot _ _

omit [Curve G] [H256 H] in
theorem flushRoot_data (name : TreeName) :
    (ledger.flushRoot.forest name).data = (ledger.forest name).data := by
  by_cases isRoot : name = .root
  · subst isRoot
    unfold flushRoot
    dsimp only
    rw [Function.update_self, AMTView.clean_data]
  · rw [flushRoot_of_ne isRoot]

/-- Only the flag of the root changes. -/
theorem Provable.flushRoot (provable : ledger.Provable H pp values history committed) :
    ledger.flushRoot.Provable H pp values history committed where
  exclusive := by
    refine ⟨provable.exclusive.holds,
      provable.exclusive.exclusive.congr ledger.flushRoot_keyVersions, fun name index => ?_⟩
    rw [flushRoot_keyVersions]
    exact provable.exclusive.short name index
  openable := by
    refine ⟨fun name dirty => ?_, ?_, fun name index => ?_,
      provable.openable.counters.congr ledger.flushRoot_keyVersions, fun name index => ?_⟩
    · by_cases isRoot : name = .root
      · rw [isRoot]
        exact TreeName.proper_root depths
      · rw [flushRoot_of_ne isRoot] at dirty
        exact provable.openable.proper name dirty
    · exact Forest.opens_update provable.openable.opens (provable.openable.opens .root).clean
    · rw [flushRoot_keyVersions]
      exact provable.openable.short name index
    · rw [flushRoot_data]
      exact provable.openable.treeVersions name index
  clean name notRoot := by
    rw [flushRoot_of_ne notRoot]
    exact provable.clean name notRoot
  archive := provable.archive
  stores := provable.stores
  attested parent index inside sameIndex clean listed := by
    have notRoot : TreeName.child parent index ≠ .root := TreeName.noConfusion
    rw [flushRoot_of_ne notRoot] at clean ⊢
    rw [flushRoot_data] at listed ⊢
    exact provable.attested parent index inside sameIndex clean listed
  reachable := by
    refine ⟨provable.reachable.shallow, fun key value name found isTree => ?_⟩
    intro parent index inside sameIndex below
    rw [flushRoot_data]
    exact provable.reachable.listed key value name found isTree parent index inside sameIndex below

end

end Ledger

/-! ### The roots that were returned -/

/-- The Merkle root that a commit returned. -/
def LvmtOutput.merkleRoot {G H : Type} : LvmtOutput G H → Option H
  | .roots _ merkleRoot => some merkleRoot
  | _ => none

/-- The Merkle roots of the epochs, in order. -/
def merkleRoots {G H : Type} (outputs : List (LvmtOutput G H)) : List H :=
  outputs.filterMap LvmtOutput.merkleRoot

theorem merkleRoots_append {G H : Type} (first second : List (LvmtOutput G H)) :
    merkleRoots (first ++ second) = merkleRoots first ++ merkleRoots second :=
  List.filterMap_append

namespace Ledger

variable {G G₂ H : Type} {depths : Nat} [Curve G] [H256 H] {pp : AMTParams G G₂ depths}
  {values : Key → Option Value} {history : List (Epoch G)} {committed : Nat}
  {ledger next : Ledger G depths}

/-- Every operation keeps the records and the slots of the keys, and a commit returns the root of
the epoch it adds. -/
theorem Provable.step {op : LvmtOp} {out : LvmtOutput G H}
    (provable : ledger.Provable H pp values history committed)
    (neverZero : ∀ bytes, (keccak bytes : H) ≠ default)
    (few : committed + ledger.uncommittedKeyValues.length < 2 ^ 40)
    (batch : op.isCommit = true → ledger.uncommittedKeyValues.length < 2 ^ 26)
    (done : ledger.step ⟨pp, false, some .root⟩ op = some (next, out)) :
    ∃ values' added committed', next.Provable H pp values' (history ++ added) committed' ∧
      committed' + next.uncommittedKeyValues.length =
        committed + ledger.uncommittedKeyValues.length + (if op.isSet then 1 else 0) ∧
      merkleRoots [out] = added.map (fun epoch => LvmtDB.rootOfLeaves epoch.leaves) ∧
      SameSlots values values' := by
  cases op with
  | set key value =>
    obtain ⟨rfl, rfl⟩ := Prod.mk.inj (Option.some.inj done)
    refine ⟨values, [], committed, ?_, ?_, rfl, .refl values⟩
    · rw [List.append_nil]
      exact { provable with
        exclusive := ⟨provable.exclusive.holds, provable.exclusive.exclusive,
          provable.exclusive.short⟩ }
    · dsimp only
      rw [List.length_append, ← Nat.add_assoc]
      rfl
  | get key =>
    obtain ⟨value, -, same⟩ := Option.bind_eq_some_iff.mp done
    obtain ⟨rfl, rfl⟩ := Prod.mk.inj (Option.some.inj same)
    exact ⟨values, [], committed, by rwa [List.append_nil], rfl, rfl, .refl values⟩
  | commit =>
    obtain ⟨⟨⟨amtRoot, merkleRoot⟩, after⟩, commits, same⟩ := Option.bind_eq_some_iff.mp done
    obtain ⟨rfl, rfl⟩ := Prod.mk.inj (Option.some.inj same)
    obtain ⟨values', added, provable', isRoot, sameSlots⟩ :=
      provable.commit neverZero few (batch rfl) commits
    refine ⟨values', [added], _, provable', ?_, congrArg (fun root => [root]) isRoot, sameSlots⟩
    rw [commit_uncommitted commits]
    rfl
  | prove key =>
    obtain ⟨proof, -, same⟩ := Option.bind_eq_some_iff.mp done
    obtain ⟨rfl, rfl⟩ := Prod.mk.inj (Option.some.inj same)
    exact ⟨values, [], committed, by rwa [List.append_nil], rfl, rfl, .refl values⟩
  | flushRoot =>
    obtain ⟨rfl, rfl⟩ := Prod.mk.inj (Option.some.inj done)
    refine ⟨values, [], committed, ?_, rfl, rfl, .refl values⟩
    rw [List.append_nil]
    exact provable.flushRoot

end Ledger

end AuthStorage.Lvmt
