/-
This file is about the Merkle trees of all epochs in one column. A commit writes
the tree of its epoch and the number of the next one, and neither touches what
earlier epochs wrote. So a hash that was a leaf of some epoch can be proved
against the root of that epoch ever after.
-/

import AuthStorage.Lvmt.ForestChanges
import AuthStorage.Lvmt.LvmtDB
import AuthStorage.Lvmt.MerkleProofs

namespace AuthStorage.Lvmt

/-- An entry of a list with one more item is an earlier one, or the last. -/
theorem getElem?_concat_cases {Item : Type} {items : List Item} {last item : Item} {number : Nat}
    (found : (items ++ [last])[number]? = some item) :
    items[number]? = some item ∨ number = items.length ∧ last = item := by
  rcases Nat.lt_trichotomy number items.length with before | rfl | after
  · rw [List.getElem?_append_left before] at found
    exact Or.inl found
  · rw [List.getElem?_concat_length] at found
    exact Or.inr ⟨rfl, Option.some.inj found⟩
  · rw [List.getElem?_eq_none (by rwa [List.length_append, List.length_singleton])] at found
    cases found

variable {H : Type} [H256 H] {db dbMerkle next : DBColumn} {epoch : UInt64} {data hashes : List H}

namespace StaticMerkleTree

/-- The store holds the tree of an epoch. -/
structure Archived (db : DBColumn) (epoch : UInt64) (data : List H) : Prop where
  short : data.length < 2 ^ 31
  noZero : NoZero data
  content : (DBAccess.new (epochPrefix epoch) : DBAccess Nat H).Represents db (contentOf data)

/-- Only the part of the epoch matters. -/
theorem Archived.frame (archived : Archived db epoch data) {other : DBColumn}
    (same : ∀ nodeIndex : Nat, other (DBAccess.computeKey (epochPrefix epoch) nodeIndex) =
      db (DBAccess.computeKey (epochPrefix epoch) nodeIndex)) : Archived other epoch data :=
  { archived with content := archived.content.frame same }

/-- The proof of a position is made, and its leaf is accepted. -/
theorem Archived.prove (archived : Archived db epoch data) {position : UInt64} {hash : H}
    (found : data[position.toNat]? = some hash) :
    ∃ tree : StaticMerkleTree H, ∃ path, new db epoch = some tree ∧
      tree.prove db position = some (path, position) ∧
      verify (rootOf (depthOf data.length) data) hash (path, position) = some true := by
  obtain ⟨fits, rfl⟩ := List.getElem?_eq_some_iff.mp found
  have low := depthOf_le archived.short.le
  have nonempty : data ≠ [] := List.ne_nil_of_length_pos (Nat.zero_lt_of_lt fits)
  obtain ⟨tree, made, stands⟩ := new_of_represents archived.content nonempty low
  obtain ⟨after, proved, -⟩ := stands.proveMut archived.noZero low fits
  refine ⟨tree, _, made, ?_, verify_path low fits⟩
  rw [prove_eq, proved]
  rfl

end StaticMerkleTree

open StaticMerkleTree

namespace LvmtDB

/-- The number of the next epoch is no place of a tree. -/
theorem epochNumberKey_ne (epoch : UInt64) (nodeIndex : Nat) :
    DBAccess.computeKey (epochPrefix epoch) nodeIndex ≠ EPOCH_NUMBER_KEY := by
  intro same
  have lengths := congrArg List.length same
  rw [DBAccess.computeKey_length, epochPrefix, List.length_reverse,
    LittleEndian.length_digits] at lengths
  cases lengths

theorem writeBuffered_epochNumber (dbMerkle : DBColumn) (value : Bytes) (epoch : UInt64)
    (nodeIndex : Nat) :
    dbMerkle.writeBuffered [.insert EPOCH_NUMBER_KEY value]
        (DBAccess.computeKey (epochPrefix epoch) nodeIndex) =
      dbMerkle (DBAccess.computeKey (epochPrefix epoch) nodeIndex) :=
  Function.update_of_ne (epochNumberKey_ne epoch nodeIndex) _ _

/-- The leaves of the epochs so far, and the store that holds their trees. An epoch without any
leaf has no tree that could be read. -/
structure Archive (dbMerkle : DBColumn) (epochs : List (List H)) : Prop where
  current : ∃ epoch, currentEpoch dbMerkle = some epoch ∧ epoch.toNat = epochs.length
  archived : ∀ epoch : UInt64, ∀ data, epochs[epoch.toNat]? = some data → data ≠ [] →
    Archived dbMerkle epoch data
  fresh : ∀ epoch : UInt64, epochs.length ≤ epoch.toNat → Fresh epoch dbMerkle

/-- The hash is a leaf of the epoch, at the position. -/
def IsLeaf (epochs : List (List H)) (position : EpochPosition) (hash : H) : Prop :=
  ∃ data, epochs[position.epoch.toNat]? = some data ∧
    data[position.position.toNat]? = some hash

/-- The root that a commit returns for the leaves of its epoch. -/
def rootOfLeaves (data : List H) : H := rootOf (depthOf data.length) data

theorem archive_empty : Archive DBColumn.empty ([] : List (List H)) where
  current := ⟨0, rfl, rfl⟩
  archived epoch data found := by simp at found
  fresh epoch _ := fresh_empty epoch

/-- A leaf can be proved against the root of its epoch. -/
theorem Archive.proveMerkle {epochs : List (List H)} (archive : Archive dbMerkle epochs)
    {position : EpochPosition} {hash : H} (isLeaf : IsLeaf epochs position hash) :
    ∃ (root : H) (path : List H),
      LvmtDB.proveMerkle dbMerkle position = some (position.epoch, path, position.position) ∧
      (epochs.map rootOfLeaves)[position.epoch.toNat]? = some root ∧
      StaticMerkleTree.verify root hash (path, position.position) = some true := by
  obtain ⟨data, found, member⟩ := isLeaf
  have nonempty : data ≠ [] := by
    rintro rfl
    simp at member
  obtain ⟨tree, path, made, proved, accepted⟩ :=
    (archive.archived position.epoch data found nonempty).prove member
  refine ⟨_, path, ?_, ?_, accepted⟩
  · rw [LvmtDB.proveMerkle, made, Option.bind_eq_bind, Option.bind_some, proved]
    rfl
  · rw [List.getElem?_map, found]
    rfl

/-- The tree of one more epoch. -/
theorem Archive.finishEpoch {epochs : List (List H)} {root : H} (archive : Archive dbMerkle epochs)
    (isCurrent : currentEpoch dbMerkle = some epoch) (short : hashes.length < 2 ^ 31)
    (noZero : NoZero hashes)
    (done : LvmtDB.finishEpoch dbMerkle epoch hashes false = some (next, root)) :
    Archive next (epochs ++ [hashes]) ∧ root = rootOfLeaves hashes := by
  obtain ⟨rfl, following, added, stands, rfl⟩ := finishEpoch_eq_some done
  obtain ⟨epoch', isCurrent', sameEpoch⟩ := archive.current
  obtain rfl : epoch = epoch' := Option.some.inj (isCurrent.symm.trans isCurrent')
  have successor : following.toNat = epochs.length + 1 := by
    rw [toNat_checkedAdd added, sameEpoch]
    rfl
  refine ⟨⟨⟨following, stands, ?_⟩, fun other data found nonempty => ?_,
    fun other later nodeIndex => ?_⟩, rfl⟩
  · rw [successor, List.length_append, List.length_singleton]
  · rcases getElem?_concat_cases found with earlier | ⟨last, rfl⟩
    · have inside := (List.getElem?_eq_some_iff.mp earlier).1
      have apart : epoch ≠ other := by
        rintro rfl
        omega
      refine (archive.archived other data earlier nonempty).frame fun nodeIndex => ?_
      rw [writeBuffered_epochNumber, dump_computeKey dbMerkle apart]
    · obtain rfl : other = epoch := UInt64.toNat_inj.mp (last.trans sameEpoch.symm)
      have written : Archived (StaticMerkleTree.dump dbMerkle other hashes false).1 other hashes :=
        ⟨short, noZero, (archive.fresh other sameEpoch.ge).dump_represents (depthOf_le short.le)⟩
      exact written.frame (writeBuffered_epochNumber _ _ other)
  · rw [List.length_append, List.length_singleton] at later
    have different : epoch ≠ other := by
      rintro rfl
      omega
    rw [writeBuffered_epochNumber, dump_computeKey dbMerkle different]
    exact archive.fresh other (by omega) nodeIndex

end LvmtDB

end AuthStorage.Lvmt
