/-
This file proves what keeps the store free of garbage. Between two operations every
entry is accounted for in memory or is to be deleted; a commit deletes, and leaves
the entries of nodes that the trie references by digest. A commit writes exiled
nodes however short they are, and does not make them committed if a flush has made
the nodes above them so; an entry written like that is never deleted again.
-/

import AuthStorage.RainblockTrie.CommitAccounts
import AuthStorage.RainblockTrie.Counts
import AuthStorage.RainblockTrie.Reads

namespace AuthStorage.RainblockTrie

open AuthStorage.Lvmt (Bytes DBColumn DBOp)

variable {H : Type} [RlpHasher H]

/-! ### The store after a transaction -/

/-- What is present was inserted, or was there and not deleted. -/
theorem present_of_writeBuffered {db : DBColumn} {ops : List DBOp} {key : Bytes}
    (present : db.writeBuffered ops key ≠ none) :
    (∃ value, DBOp.insert key value ∈ ops) ∨ (db key ≠ none ∧ DBOp.delete key ∉ ops) := by
  induction ops generalizing db with
  | nil => exact .inr ⟨present, List.not_mem_nil⟩
  | cons op ops inductionHypothesis =>
    rw [DBColumn.writeBuffered_cons] at present
    rcases inductionHypothesis present with ⟨value, member⟩ | ⟨before, kept⟩
    · exact .inl ⟨value, List.mem_cons_of_mem _ member⟩
    · by_cases same : op.key = key
      · cases op with
        | insert written value =>
          obtain rfl : written = key := same
          exact .inl ⟨value, List.mem_cons_self⟩
        | delete deleted =>
          obtain rfl : deleted = key := same
          rw [DBOp.apply, Function.update_self] at before
          exact absurd rfl before
      · rw [DBColumn.apply_of_ne db op same] at before
        refine .inr ⟨before, fun member => ?_⟩
        rcases List.mem_cons.mp member with rfl | member
        · exact same rfl
        · exact kept member

namespace MerklePatriciaTree

/-! ### Every entry is accounted for -/

/-- Every entry but the root's is that of a digest which is accounted for or to be deleted. -/
def Accounted (tree : MerklePatriciaTree H) : Prop :=
  ∀ key, tree.db key ≠ none → key ≠ ROOT_KEY →
    ∃ wanted : H, key = RlpHasher.toBytes wanted ∧ tree.Accounts wanted

/-- The exiled nodes of the tree are tracked. -/
abbrev ExilesTracked (tree : MerklePatriciaTree H) : Prop :=
  tree.Everywhere (fun _ me => me.ExilesTracked) anyDigest

variable {tree after : MerklePatriciaTree H} {trie : Trie} {N : Nat}

theorem Accounted.sameStore (accounted : tree.Accounted) (sameStore : after.db = tree.db)
    (keeps : ∀ wanted : H, tree.Accounts wanted → after.Accounts wanted) : after.Accounted := by
  intro key present other
  rw [sameStore] at present
  obtain ⟨wanted, same, held⟩ := accounted key present other
  exact ⟨wanted, same, keeps wanted held⟩

theorem insert_mem_putOps {entries : List (H × Bytes)} {key value : Bytes}
    (member : DBOp.insert key value ∈ entries.map putOp) :
    ∃ entry ∈ entries, key = RlpHasher.toBytes entry.1 := by
  obtain ⟨entry, inside, same⟩ := List.mem_map.mp member
  cases same
  exact ⟨entry, inside, rfl⟩

theorem insert_not_mem_delOps {digests : List H} {key value : Bytes} :
    DBOp.insert key value ∉ digests.map delOp := by
  intro member
  obtain ⟨found, -, same⟩ := List.mem_map.mp member
  cases same

/-- After a commit nothing waits to be deleted, and without a root the store is empty. -/
theorem commit_accounted [CollisionFree H] (represents : tree.Represents trie) (positive : N ≠ 0)
    (tracked : tree.ExilesTracked) (accounted : tree.Accounted) {digest : H}
    (done : tree.commit N = .ok (digest, after)) :
    after.Accounted ∧ after.delOps = [] ∧ (after.root = none → ∀ key, after.db key = none) := by
  obtain ⟨db, root, delOps⟩ := tree
  have deleted : ∀ {ops : List DBOp} {wanted : H}, delOps.map delOp ⊆ ops → wanted ∈ delOps →
      DBOp.delete (RlpHasher.toBytes wanted) ∈ ops := fun included member =>
    included (List.mem_map.mpr ⟨_, member, rfl⟩)
  cases root with
  | none =>
    cases done
    have nothing : ∀ key, db.writeBuffered (.delete ROOT_KEY :: delOps.map delOp) key = none := by
      intro key
      by_contra present
      rcases present_of_writeBuffered present with ⟨value, member⟩ | ⟨before, kept⟩
      · rcases List.mem_cons.mp member with no | member
        · cases no
        · exact insert_not_mem_delOps member
      · have other : key ≠ ROOT_KEY := by
          rintro rfl
          exact kept List.mem_cons_self
        obtain ⟨wanted, rfl, waits | ⟨root, same, -⟩⟩ := accounted key before other
        · exact kept (deleted (List.subset_cons_self _ _) waits)
        · cases same
    exact ⟨fun key present => absurd (nothing key) present, rfl, fun _ => nothing⟩
  | some root =>
    have standsRoot : root.Stands trie := represents.root
    rw [commit] at done
    dsimp only at done
    split at done
    · cases done
      have drained := standsRoot.drainExiled.1
      have carried := drained.carried positive false
      have standsDone := (drained.commit positive false).1
      -- what the committed root accounts for, the root does in the end
      have finishes : ∀ wanted : H, (root.drainExiled.1.commit N 0 false).result.Accounts wanted →
          (root.drainExiled.1.commit N 0 false).result.truncateLoaded.fillHash.Accounts wanted :=
        fun wanted held => standsDone.truncateLoaded.fillHash_accounts
          (standsDone.truncateLoaded_accounts held)
      refine ⟨fun key present other => ?_, rfl, fun no => by cases no⟩
      rcases present_of_writeBuffered present with ⟨value, member⟩ | ⟨before, kept⟩
      · simp only [List.mem_append, List.mem_singleton] at member
        rcases member with (no | member) | rootKey
        · exact absurd no insert_not_mem_delOps
        · obtain ⟨entry, inside, rfl⟩ := insert_mem_putOps member
          refine ⟨entry.1, rfl, .inr ⟨_, rfl, finishes _ ?_⟩⟩
          rcases List.mem_append.mp inside with exiled | put
          · exact ChildRef.accounts_owned.mp (carried.promised rfl _ (ChildRef.promises_owned.mpr
              (standsRoot.drainExiled_promises (tracked root rfl) entry exiled)))
          · exact ChildRef.accounts_owned.mp (carried.putOps entry put)
        · cases rootKey
          exact absurd rfl other
      · obtain ⟨wanted, rfl, waits | ⟨root', same, held⟩⟩ := accounted key before other
        · refine absurd (deleted ?_ waits) kept
          rw [List.append_assoc]
          exact List.subset_append_left _ _
        · cases same
          exact ⟨wanted, rfl, .inr ⟨_, rfl, finishes _ (ChildRef.accounts_owned.mp
            (carried.kept wanted (ChildRef.accounts_owned.mpr
              (standsRoot.drainExiled_accounts held))))⟩⟩
    · cases done

theorem flushAll_accounted [CollisionFree H] (represents : tree.Represents trie) (positive : N ≠ 0)
    (accounted : tree.Accounted) (done : tree.flushAll N = .ok after) : after.Accounted := by
  obtain ⟨db, root, delOps⟩ := tree
  cases root with
  | none =>
    cases done
    exact accounted
  | some root =>
    have standsRoot : root.Stands trie := represents.root
    rw [flushAll] at done
    dsimp only at done
    split at done
    · cases done
      have carried := standsRoot.carried positive true
      intro key present other
      rcases present_of_writeBuffered present with ⟨value, member⟩ | ⟨before, -⟩
      · obtain ⟨entry, inside, rfl⟩ := insert_mem_putOps member
        exact ⟨entry.1, rfl, .inr ⟨_, rfl, ChildRef.accounts_owned.mp (carried.putOps entry inside)⟩⟩
      · obtain ⟨wanted, rfl, held⟩ := accounted key before other
        refine ⟨wanted, rfl, held.imp_right ?_⟩
        rintro ⟨root', same, held⟩
        cases same
        exact ⟨_, rfl, ChildRef.accounts_owned.mp
          (carried.kept wanted (ChildRef.accounts_owned.mpr held))⟩
    · cases done

/-! ### Runs -/

/-- In the run, every operation meets the condition on the tree it starts from. -/
def AllMeet (condition : MerklePatriciaTree H → Op → Prop) (N : Nat) :
    List Op → MerklePatriciaTree H → Prop
  | [], _ => True
  | op :: ops, tree =>
    condition tree op ∧ ∀ after ∈ (tree.step N op).toOption, AllMeet condition N ops after

instance AllMeet.decidable (condition : MerklePatriciaTree H → Op → Prop)
    [∀ tree op, Decidable (condition tree op)] (N : Nat) :
    (ops : List Op) → (tree : MerklePatriciaTree H) → Decidable (AllMeet condition N ops tree)
  | [], _ => inferInstanceAs (Decidable True)
  | op :: ops, tree =>
    have := AllMeet.decidable condition N ops
    inferInstanceAs (Decidable (condition tree op ∧
      ∀ after ∈ (tree.step N op).toOption, AllMeet condition N ops after))

/-- The exiled nodes that a commit finds are tracked. -/
def TracksExiles (tree : MerklePatriciaTree H) : Op → Prop
  | .commit => tree.ExilesTracked
  | _ => True

instance (tree : MerklePatriciaTree H) : (op : Op) → Decidable (tree.TracksExiles op)
  | .commit => inferInstanceAs (Decidable tree.ExilesTracked)
  | .put _ _ => inferInstanceAs (Decidable True)
  | .get _ => inferInstanceAs (Decidable True)
  | .flushAll => inferInstanceAs (Decidable True)
  | .root => inferInstanceAs (Decidable True)

theorem proper_of_step {op : Op} (done : tree.step N op = .ok after) : op.Proper := by
  cases op with
  | put key val =>
    rintro rfl
    cases done
  | get key =>
    rintro rfl
    cases done
  | commit => trivial
  | flushAll => trivial
  | root => trivial

/-- What holds between two operations of a run. -/
structure Tidy (tree : MerklePatriciaTree H) : Prop where
  represents : ∃ trie : Trie, tree.Represents trie
  accounted : tree.Accounted

theorem step_tidy [CollisionFree H] (positive : N ≠ 0) (tidy : tree.Tidy) {op : Op}
    (tracks : tree.TracksExiles op) (done : tree.step N op = .ok after) : after.Tidy := by
  obtain ⟨⟨trie, represents⟩, accounted⟩ := tidy
  have proper := proper_of_step done
  cases op with
  | put key val =>
    have becomes := represents.put N proper val
    rw [show tree.put N key val = .ok after from done] at becomes
    obtain ⟨sameStore, trie', represents', -⟩ := becomes
    exact ⟨⟨trie', represents'⟩, accounted.sameStore sameStore
      fun wanted => represents.put_accounts done⟩
  | get key =>
    obtain ⟨⟨found, read⟩, returned, same⟩ := bind_eq_ok.mp done
    cases same
    have known := represents.get N proper
    rw [returned] at known
    obtain ⟨represents', sameStore, -⟩ := known
    exact ⟨⟨trie, represents'⟩, accounted.sameStore sameStore
      fun wanted => represents.get_accounts returned⟩
  | commit =>
    obtain ⟨⟨digest, committed⟩, returned, same⟩ := bind_eq_ok.mp done
    cases same
    obtain ⟨expected, returned', represents'⟩ := represents.commit positive
    rw [returned] at returned'
    cases returned'
    exact ⟨⟨trie, represents'⟩,
      (commit_accounted represents positive tracks accounted returned).1⟩
  | flushAll =>
    obtain ⟨expected, returned', represents'⟩ := represents.flushAll positive
    rw [show tree.flushAll N = .ok after from done] at returned'
    cases returned'
    exact ⟨⟨trie, represents'⟩, flushAll_accounted represents positive accounted done⟩
  | root =>
    cases done
    refine ⟨⟨trie, represents.rootHash.1⟩, accounted.sameStore rfl fun wanted held => ?_⟩
    refine held.imp_right ?_
    rintro ⟨root, opened, held⟩
    have standsRoot := represents.root
    rw [opened] at standsRoot
    exact ⟨root.fillHash, congrArg (Option.map TrieNodeExt.fillHash) opened,
      TrieNodeExt.Stands.fillHash_accounts standsRoot held⟩

theorem run_tidy [CollisionFree H] (positive : N ≠ 0) {ops : List Op} (tidy : tree.Tidy)
    (tracks : AllMeet TracksExiles N ops tree) (done : ops.foldlM (step N) tree = .ok after) :
    after.Tidy := by
  induction ops generalizing tree with
  | nil =>
    cases done
    exact tidy
  | cons op ops inductionHypothesis =>
    obtain ⟨middle, stepped, done⟩ := bind_eq_ok.mp done
    obtain ⟨here, later⟩ := tracks
    exact inductionHypothesis (step_tidy positive tidy here stepped)
      (later middle (mem_toOption.mpr stepped)) done

theorem tidy_new (N : Nat) {tree : MerklePatriciaTree H}
    (opened : new N DBColumn.empty = .ok tree) : tree.Tidy := by
  cases opened
  exact ⟨⟨.empty, fun _ _ stored => (by cases stored), trivial, rfl⟩,
    fun key present => absurd rfl present⟩

/-! ### Garbage -/

/-- Every entry but the root's belongs to a node of the trie that is referenced by digest: it takes
at least 32 bytes, or is the root. A store without a trie is empty. -/
structure NoGarbage (H : Type) [RlpHasher H] (db : DBColumn) (trie : Trie) : Prop where
  referenced : ∀ key, db key ≠ none → key ≠ ROOT_KEY → ∃ sub : Trie, RadixTrie.Within sub trie ∧
    key = RlpHasher.toBytes (digest sub : H) ∧ (32 ≤ (encode H sub).length ∨ sub = trie)
  empty : trie = .empty → ∀ key, db key = none

theorem Tidy.noGarbage [CollisionFree H] (positive : N ≠ 0) (tidy : tree.Tidy)
    (tracked : tree.ExilesTracked) {digest : H} (done : tree.commit N = .ok (digest, after)) :
    ∃ trie : Trie, after.Represents trie ∧ NoGarbage H after.db trie := by
  obtain ⟨⟨trie, represents⟩, accounted⟩ := tidy
  obtain ⟨accountedAfter, nothing, cleared⟩ :=
    commit_accounted represents positive tracked accounted done
  obtain ⟨expected, returned, represents'⟩ := represents.commit positive
  rw [done] at returned
  cases returned
  refine ⟨trie, represents', fun key present other => ?_, fun empty key => ?_⟩
  · obtain ⟨wanted, rfl, waits | ⟨root, opened, held⟩⟩ := accountedAfter key present other
    · rw [nothing] at waits
      cases waits
    · have standsRoot := represents'.root
      rw [opened] at standsRoot
      rcases TrieNodeExt.Stands.storedIn standsRoot held with rfl | ⟨sub, within, large, rfl⟩
      · exact ⟨trie, .refl trie, rfl, .inr rfl⟩
      · exact ⟨sub, within, rfl, .inl large⟩
  · refine cleared ?_ key
    have standsRoot := represents'.root
    cases opened : after.root with
    | none => rfl
    | some root =>
      rw [opened] at standsRoot
      exact absurd empty (TrieNodeExt.stands_iff.mp standsRoot).1.ne_empty

/-- In a run whose commits find the exiled nodes tracked, every commit leaves a store without
garbage. -/
theorem noGarbage_of_tracked [CollisionFree H] {ops : List Op} {current : MerklePatriciaTree H}
    {digest : H} (positive : N ≠ 0) (opened : new N DBColumn.empty = .ok tree)
    (tracks : AllMeet TracksExiles N ops tree) (ran : ops.foldlM (step N) tree = .ok current)
    (tracked : current.ExilesTracked) (committed : current.commit N = .ok (digest, after)) :
    ∃ trie : Trie, after.Represents trie ∧ NoGarbage H after.db trie :=
  (run_tidy positive (tidy_new N opened) tracks ran).noGarbage positive tracked committed

/-- A branch of two leaves is exiled when a third key splits the extension above it. -/
def splitRun (val val' : Bytes) : List Op :=
  [.put [0x11] val, .put [0x12] val', .put [0x21] [3]]

theorem noGarbage_of_tracked_large :
    ∃ (tree current after : MerklePatriciaTree Preimage) (digest : Preimage) (trie : Trie),
      new 2 DBColumn.empty = .ok tree ∧
      (splitRun (List.replicate 40 1) (List.replicate 40 2)).foldlM (step 2) tree = .ok current ∧
      current.commit 2 = .ok (digest, after) ∧ after.Represents trie ∧
      NoGarbage Preimage after.db trie := by
  have commits : ∃ current ∈ ((splitRun (List.replicate 40 1) (List.replicate 40 2)).foldlM (step 2)
      (⟨DBColumn.empty, none, []⟩ : MerklePatriciaTree Preimage)).toOption,
      current.ExilesTracked ∧ (current.commit 2).toOption.isSome := by
    decide +kernel
  obtain ⟨current, ran, tracked, commits⟩ := commits
  obtain ⟨⟨digest, after⟩, committed⟩ := Option.isSome_iff_exists.mp commits
  have ran := mem_toOption.mp ran
  have committed := mem_toOption.mp committed
  have opened : new 2 DBColumn.empty =
      .ok (⟨DBColumn.empty, none, []⟩ : MerklePatriciaTree Preimage) := rfl
  obtain ⟨trie, represents, clean⟩ :=
    noGarbage_of_tracked (by decide) opened (by decide +kernel) ran tracked committed
  exact ⟨_, current, after, digest, trie, opened, ran, committed, represents, clean⟩

/-- The branch that the third key exiles, if the values are short. -/
def exiledBranch : TrieNode (ChildRef Preimage) :=
  .branch (fun index =>
    if index = 1 then (TrieNode.newLeaf [] [1]).sealRef
    else if index = 2 then (TrieNode.newLeaf [] [2]).sealRef
    else .null) []

/-- The three keys are deleted after a commit. -/
def emptiedRun : List Op :=
  splitRun [1] [2] ++ [.commit, .put [0x11] [], .put [0x12] [], .put [0x21] []]

/-- The branch is written although it takes 22 bytes, and is still there after its keys are gone. -/
theorem not_noGarbage_of_commit : ¬ ∀ (N : Nat) (ops : List Op)
    (tree current after : MerklePatriciaTree Preimage) (digest : Preimage), N ≠ 0 →
    new N DBColumn.empty = .ok tree → ops.foldlM (step N) tree = .ok current →
    current.commit N = .ok (digest, after) →
    ∃ trie : Trie, after.Represents trie ∧ NoGarbage Preimage after.db trie := by
  intro clean
  have leaks : ∃ current ∈ (emptiedRun.foldlM (step 2)
      (⟨DBColumn.empty, none, []⟩ : MerklePatriciaTree Preimage)).toOption,
      ∃ result ∈ (current.commit 2).toOption, result.2.root.isNone = true ∧
        (result.2.db (RlpHasher.toBytes
          (RlpHasher.hash exiledBranch.rlpBytes : Preimage))).isSome = true := by
    decide +kernel
  obtain ⟨current, ran, result, committed, absent, present⟩ := leaks
  obtain ⟨trie, represents, noGarbage⟩ := clean 2 emptiedRun _ current result.2 result.1
    (by decide) rfl (mem_toOption.mp ran) (mem_toOption.mp committed)
  have stands := represents.root
  rw [Option.isNone_iff_eq_none.mp absent] at stands
  rw [noGarbage.empty stands] at present
  cases present

end MerklePatriciaTree

end AuthStorage.RainblockTrie
