/-
This file proves that no digest dangles in a run that loses nothing: no operation
misses a digest, and every commit leaves a tree whose digests are complete in the
store, and which can be flushed and opened again. An operation that loses something
exists: two leaves with the same encoding share one entry, and changing one of them
deletes it.
-/

import AuthStorage.RainblockTrie.NoGarbage
import AuthStorage.RainblockTrie.Reopen
import AuthStorage.RainblockTrie.Taken

namespace AuthStorage.RainblockTrie

open AuthStorage.Lvmt (Bytes DBColumn DBOp)

variable {H : Type} [RlpHasher H]

namespace MerklePatriciaTree

variable {tree after : MerklePatriciaTree H} {trie : Trie} {N : Nat}

/-! ### Runs -/

/-- The operation loses nothing. A put takes no node that another position of the trie needs; a
flush comes while no large node below the boundary waits for a commit, which would pass by it from
then on; and neither a commit nor a flush comes while a large node of the top layer waits below a
marked node, whose children the commit drops. -/
def Safe [DecidableEq H] (N : Nat) (tree : MerklePatriciaTree H) : Op → Prop
  | .put key val => tree.TakesNoTwin N key val
  | .commit => tree.DropsDone N
  | .flushAll => tree.Everywhere (TrieNodeExt.DoneBelow N) anyDigest ∧ tree.DropsDone N
  | .get _ => True
  | .root => True

theorem AllMeet.imp {first second : MerklePatriciaTree H → Op → Prop}
    (implies : ∀ tree op, first tree op → second tree op) {ops : List Op}
    (meets : AllMeet first N ops tree) : AllMeet second N ops tree := by
  induction ops generalizing tree with
  | nil => trivial
  | cons op ops inductionHypothesis =>
    exact ⟨implies tree op meets.1,
      fun after stepped => inductionHypothesis (meets.2 after stepped)⟩

/-- What holds between two operations of a run that loses nothing. -/
structure Sound (N : Nat) (tree : MerklePatriciaTree H) : Prop where
  represents : ∃ trie : Trie, tree.Represents trie
  guarded : tree.Guarded N tree.Secure
  ordered : tree.Everywhere TrieNodeExt.Ordered anyDigest

theorem sound_new (N : Nat) {tree : MerklePatriciaTree H}
    (opened : new N DBColumn.empty = .ok tree) : tree.Sound N := by
  cases opened
  exact ⟨⟨.empty, fun _ _ stored => (by cases stored), trivial, rfl⟩, fun root no => (by cases no),
    fun root no => by cases no⟩

theorem Sound.kept (sound : tree.Sound N) : tree.Kept N (Present tree.db) := by
  intro root opened
  exact ChildRef.everywhere_owned.mp ((ChildRef.everywhere_owned.mpr
    (sound.guarded root opened)).imp (fun _ _ guarded => guarded.kept.imp fun _ => And.left)
      fun _ complete => complete.imp fun _ => And.left)

section

variable [CollisionFree H]

/-- A put that takes no twin leaves secure what is relied on: the digests that it puts into the list
are accounted for by nothing in memory any more. -/
theorem put_guarded [DecidableEq H] {key val : Bytes} (represents : tree.Represents trie)
    (guarded : tree.Guarded N tree.Secure) (single : tree.TakesNoTwin N key val)
    (becomes : ∃ after', after.Represents after') (done : tree.put N key val = .ok after) :
    after.Guarded N after.Secure := by
  have survives := survives_guarded N tree.Secure represents.honest
  obtain ⟨sameStore, before⟩ := put_holds survives done guarded
    (splitHolds_of_exile survives fun _ _ holds => holds.exile)
  intro root opened
  obtain ⟨trie', represents'⟩ := becomes
  have standsRoot := represents'.root
  rw [opened] at standsRoot
  have accounts : root.Everywhere (TrieNodeExt.Guarded N fun wanted => root.Accounts wanted)
      (Complete fun wanted => root.Accounts wanted) 0 :=
    TrieNodeExt.Stands.guarded_of_accounts standsRoot fun _ held => held
  refine ChildRef.everywhere_owned.mp (((ChildRef.everywhere_owned.mpr
    (before root opened)).guarded_and (ChildRef.everywhere_owned.mpr accounts)).imp
      (fun _ _ guarded => guarded.imp ?_) fun _ complete => complete.imp ?_)
  all_goals
    rintro wanted ⟨⟨present, notQueued⟩, accounts⟩
    refine ⟨by rwa [sameStore], fun queued => ?_⟩
    exact TrieNodeExt.accounts_iff_count.mp accounts
      (put_spares represents single done opened queued notQueued)

theorem step_sound [DecidableEq H] (positive : N ≠ 0) (sound : tree.Sound N) {op : Op}
    (safe : tree.Safe N op) (done : tree.step N op = .ok after) : after.Sound N := by
  obtain ⟨⟨trie, represents⟩, guarded, ordered⟩ := sound
  have survives := survives_guarded N tree.Secure represents.honest
  have survivesOrdered := survives_ordered (H := H) N tree.db
  have proper := proper_of_step done
  cases op with
  | put key val =>
    have becomes := represents.put N proper val
    rw [show tree.put N key val = .ok after from done] at becomes
    obtain ⟨-, trie', represents', -⟩ := becomes
    refine ⟨⟨trie', represents'⟩, put_guarded represents guarded safe ⟨trie', represents'⟩ done,
      (put_holds survivesOrdered done ordered (splitHolds_of_exile survivesOrdered ?_)).2⟩
    exact fun _ depth holds => holds.exile_ordered N (depth + 1) (depth + 1)
  | get key =>
    obtain ⟨⟨found, read⟩, returned, same⟩ := bind_eq_ok.mp done
    cases same
    have known := represents.get N proper
    rw [returned] at known
    obtain ⟨represents', sameStore, -⟩ := known
    refine ⟨⟨trie, represents'⟩, Guarded.imp (get_holds survives returned guarded).2 ?_,
      (get_holds survivesOrdered returned ordered).2⟩
    rintro wanted ⟨present, notQueued⟩
    exact ⟨by rwa [sameStore], by rwa [get_delOps returned]⟩
  | commit =>
    obtain ⟨⟨digest, committed⟩, returned, same⟩ := bind_eq_ok.mp done
    cases same
    obtain ⟨expected, returned', represents'⟩ := represents.commit positive
    rw [returned] at returned'
    cases returned'
    exact ⟨⟨trie, represents'⟩, commit_guarded represents positive guarded ordered safe returned,
      ordered_of_isSettled (commit_isSettled represents positive ordered returned)⟩
  | flushAll =>
    obtain ⟨expected, returned', represents'⟩ := represents.flushAll positive
    rw [show tree.flushAll N = .ok after from done] at returned'
    cases returned'
    exact ⟨⟨trie, represents'⟩, flushAll_guarded represents positive guarded safe.2 done,
      ordered_of_isSettled (flushAll_isSettled represents positive ordered safe.1 done)⟩
  | root =>
    cases done
    exact ⟨⟨trie, represents.rootHash.1⟩, rootHash_guarded represents guarded,
      rootHash_ordered represents ordered⟩

/-- No read or write misses a digest that the tree keeps. -/
theorem Represents.finds (represents : tree.Represents trie)
    (kept : tree.Kept N (Present tree.db)) (key : Bytes) :
    FindsAll (tree.get N key) ∧ ∀ val, FindsAll (tree.put N key val) := by
  have survives := survives_kept N (Present tree.db) represents.honest
  have present : ∀ found : H, Complete (Present tree.db) found → Present tree.db found :=
    fun found complete => complete.own
  exact ⟨get_findsAll survives present kept key, put_findsAll survives present kept key⟩

theorem step_findsAll (positive : N ≠ 0) (sound : tree.Sound N) (op : Op) :
    FindsAll (tree.step N op) := by
  obtain ⟨trie, represents⟩ := sound.represents
  cases op with
  | put key val => exact (represents.finds sound.kept key).2 val
  | get key => exact (represents.finds sound.kept key).1.bind fun _ _ => .ok _
  | commit =>
    obtain ⟨expected, returned, -⟩ := represents.commit positive
    rw [step, returned]
    exact .ok _
  | flushAll =>
    obtain ⟨expected, returned, -⟩ := represents.flushAll positive
    rw [step, returned]
    exact .ok _
  | root => exact .ok _

theorem run_sound [DecidableEq H] (positive : N ≠ 0) (sound : tree.Sound N) {ops : List Op}
    (safe : AllMeet (Safe N) N ops tree) :
    FindsAll (ops.foldlM (step N) tree) ∧
      ∀ after, ops.foldlM (step N) tree = .ok after → after.Sound N := by
  induction ops generalizing tree with
  | nil =>
    refine ⟨.ok _, fun after done => ?_⟩
    cases done
    exact sound
  | cons op ops inductionHypothesis =>
    obtain ⟨here, later⟩ := safe
    have next : ∀ middle, tree.step N op = .ok middle →
        FindsAll (ops.foldlM (step N) middle) ∧
          ∀ after, ops.foldlM (step N) middle = .ok after → after.Sound N :=
      fun middle stepped => inductionHypothesis (step_sound positive sound here stepped)
        (later middle (mem_toOption.mpr stepped))
    rw [List.foldlM_cons]
    refine ⟨(step_findsAll positive sound op).bind fun middle stepped => (next middle stepped).1,
      fun after done => ?_⟩
    obtain ⟨middle, stepped, done⟩ := bind_eq_ok.mp done
    exact (next middle stepped).2 after done

end

/-! ### Dangling digests -/

/-- The store has bytes under the digest that hash to it. -/
def Stored (db : DBColumn) (found : H) : Prop :=
  ∃ bytes, db (RlpHasher.toBytes found) = some bytes ∧ RlpHasher.hash bytes = found

/-- After a flush the store opens as a tree with the same root and the same contents. -/
def Reopens (N : Nat) (tree : MerklePatriciaTree H) : Prop :=
  ∃ flushed reopened, tree.flushAll N = .ok flushed ∧ new N flushed.db = .ok reopened ∧
    reopened.rootHash.1 = tree.rootHash.1 ∧
    ∀ key, key ≠ [] → ∃ found, (tree.get N key).map Prod.fst = .ok found ∧
      (reopened.get N key).map Prod.fst = .ok found

/-- Every digest that the tree refers to is stored, and so is every digest that is reached from it;
reads and writes find them, and so do those of a tree that is opened after a flush. -/
structure NoDangling (N : Nat) (tree : MerklePatriciaTree H) : Prop where
  stored : tree.Everywhere (fun _ _ => True) (Complete (Stored tree.db))
  finds : ∀ key, FindsAll (tree.get N key) ∧ ∀ val, FindsAll (tree.put N key val)
  reopens : tree.Reopens N

omit [RlpHasher H] in
theorem Answers.unique {contents : List Nibble → Option Value} {key : List Nibble}
    {first second : Option Bytes} (answers : Answers contents key first)
    (answers' : Answers contents key second) : first = second := by
  cases present : contents key with
  | some value => rw [answers.present value present, answers'.present value present]
  | none =>
    by_cases forks : Forks contents key
    · rw [answers.forks present forks, answers'.forks present forks]
    · rw [answers.absent present forks, answers'.absent present forks]

section

variable [CollisionFree H]

/-- Two trees for the same trie return the same. -/
theorem Represents.reads {first second : MerklePatriciaTree H} (represents : first.Represents trie)
    (represents' : second.Represents trie) (kept : first.Kept N (Present first.db))
    (kept' : second.Kept N (Present second.db)) {key : Bytes} (nonempty : key ≠ []) :
    ∃ found, (first.get N key).map Prod.fst = .ok found ∧
      (second.get N key).map Prod.fst = .ok found := by
  obtain ⟨result, done, -, -, answers⟩ :=
    (represents.get N nonempty).exists_ok (represents.finds kept key).1
  obtain ⟨result', done', -, -, answers'⟩ :=
    (represents'.get N nonempty).exists_ok (represents'.finds kept' key).1
  refine ⟨result.1, by rw [done]; rfl, ?_⟩
  rw [done', answers.unique answers']
  rfl

theorem Sound.noDangling (positive : N ≠ 0) (sound : tree.Sound N) (drops : tree.DropsDone N)
    {digest : H} (done : tree.commit N = .ok (digest, after)) : after.NoDangling N := by
  have soundAfter : after.Sound N := by
    classical
    exact step_sound positive sound (show tree.Safe N .commit from drops)
      (bind_eq_ok.mpr ⟨_, done, rfl⟩)
  obtain ⟨⟨trie, represents⟩, guarded, ordered⟩ := sound
  obtain ⟨expected, returned, representsAfter⟩ := represents.commit positive
  rw [done] at returned
  cases returned
  refine ⟨fun root opened => ?_, representsAfter.finds soundAfter.kept, ?_⟩
  · refine ChildRef.everywhere_owned.mp ((ChildRef.everywhere_owned.mpr
      (soundAfter.kept root opened)).imp (fun _ _ _ => trivial)
        fun found complete => complete.imp fun wanted present => ?_)
    obtain ⟨bytes, stored⟩ := Option.ne_none_iff_exists'.mp present
    exact ⟨bytes, stored, representsAfter.honest wanted bytes stored⟩
  · obtain ⟨flushed, flushes, representsFlushed⟩ := representsAfter.flushAll positive
    have rootStored := flushAll_rootStored (commit_rootStored represents positive done) flushes
    have lasts : ∀ wanted : H, tree.Lasts N wanted → Present after.db wanted :=
      fun wanted lasts => commit_present represents positive done lasts
    obtain ⟨reopened, opened, sameStore, representsReopened, keptReopened⟩ :=
      new_of_present representsFlushed.honest positive represents.canonical rootStored
        fun nonempty wanted needed => flushAll_present representsAfter positive lasts
          (commit_saved represents positive guarded ordered drops done) flushes nonempty needed
    refine ⟨flushed, reopened, flushes, opened, ?_, fun key nonempty => ?_⟩
    · rw [representsReopened.rootHash.2, representsAfter.rootHash.2]
    · exact representsAfter.reads representsReopened soundAfter.kept keptReopened nonempty

/-- In a run that loses nothing no operation misses a digest, and no digest dangles after a
commit. -/
theorem noDangling_of_safe [DecidableEq H] {ops : List Op} (positive : N ≠ 0)
    (opened : new N DBColumn.empty = .ok tree) (safe : AllMeet (Safe N) N ops tree) :
    FindsAll (ops.foldlM (step N) tree) ∧
      ∀ (current after : MerklePatriciaTree H) (digest : H),
        ops.foldlM (step N) tree = .ok current → current.Safe N .commit →
        current.commit N = .ok (digest, after) → after.NoDangling N := by
  obtain ⟨finds, sound⟩ := run_sound positive (sound_new N opened) safe
  exact ⟨finds, fun current after digest ran drops done =>
    (sound current ran).noDangling positive drops done⟩

end

/-- A value that makes a leaf large. -/
def longValue (byte : UInt8) : Value := ⟨List.replicate 40 byte, List.cons_ne_nil _ _⟩

/-- Three leaves are committed, one is deleted, so that another one moves up, and one is changed. -/
def deletedRun : List Op :=
  [.put [0x11] (longValue 1).val, .put [0x12] (longValue 2).val, .put [0x21] (longValue 3).val,
    .commit, .flushAll, .put [0x12] [], .get [0x11], .put [0x21] (longValue 4).val]

/-- What the run has put when it deletes, and when it changes a leaf. -/
def deletedRunTries : List Trie :=
  [.branch (fun index =>
    if index = 1 then .branch (fun index =>
      if index = 1 then .leaf [] (longValue 1) else if index = 2 then .leaf [] (longValue 2)
      else .empty) none
    else if index = 2 then .leaf [1] (longValue 3) else .empty) none,
   .branch (fun index =>
    if index = 1 then .leaf [1] (longValue 1) else if index = 2 then .leaf [1] (longValue 3)
    else .empty) none]

/-- The condition on an operation, with tries at which it can be checked. -/
def SafeAt (candidates : List Trie) (N : Nat) (tree : MerklePatriciaTree Preimage) : Op → Prop
  | .put key val => TakesNoTwinIn candidates N tree key val
  | .commit => tree.DropsDone N
  | .flushAll => tree.Everywhere (TrieNodeExt.DoneBelow N) anyDigest ∧ tree.DropsDone N
  | .get _ => True
  | .root => True

instance (candidates : List Trie) (N : Nat) (tree : MerklePatriciaTree Preimage) :
    (op : Op) → Decidable (SafeAt candidates N tree op)
  | .put key val => inferInstanceAs (Decidable (TakesNoTwinIn candidates N tree key val))
  | .commit => inferInstanceAs (Decidable (tree.DropsDone N))
  | .flushAll => inferInstanceAs
    (Decidable (tree.Everywhere (TrieNodeExt.DoneBelow N) anyDigest ∧ tree.DropsDone N))
  | .get _ => inferInstanceAs (Decidable True)
  | .root => inferInstanceAs (Decidable True)

theorem SafeAt.safe {candidates : List Trie} {tree : MerklePatriciaTree Preimage} {op : Op}
    (holds : SafeAt candidates N tree op) : tree.Safe N op := by
  cases op with
  | put key val => exact TakesNoTwinIn.takesNoTwin holds
  | get key => trivial
  | commit => exact holds
  | flushAll => exact holds
  | root => trivial

/-- With one level in the top layer every leaf is dropped for its digest. Of the digests in the
store the run takes five out, and after the last commit it still refers to others. -/
theorem noDangling_of_safe_deletedRun :
    ∃ (tree current after : MerklePatriciaTree Preimage) (digest : Preimage),
      new 1 DBColumn.empty = .ok tree ∧ deletedRun.foldlM (step 1) tree = .ok current ∧
      current.delOps.length = 5 ∧ current.commit 1 = .ok (digest, after) ∧
      ¬ after.Everywhere (fun _ _ => True) (fun _ => False) ∧ after.NoDangling 1 := by
  have commits : ∃ current ∈ (deletedRun.foldlM (step 1)
      (⟨DBColumn.empty, none, []⟩ : MerklePatriciaTree Preimage)).toOption,
      current.delOps.length = 5 ∧ current.DropsDone 1 ∧
        ∃ result ∈ (current.commit 1).toOption,
          ¬ result.2.Everywhere (fun _ _ => True) (fun _ => False) := by
    decide +kernel
  obtain ⟨current, ran, queued, drops, ⟨digest, after⟩, committed, refers⟩ := commits
  have ran := mem_toOption.mp ran
  have committed := mem_toOption.mp committed
  have opened : new 1 DBColumn.empty =
      .ok (⟨DBColumn.empty, none, []⟩ : MerklePatriciaTree Preimage) := rfl
  have meets : AllMeet (SafeAt deletedRunTries 1) 1 deletedRun
      (⟨DBColumn.empty, none, []⟩ : MerklePatriciaTree Preimage) := by
    decide +kernel
  exact ⟨_, current, after, digest, opened, ran, queued, committed, refers,
    (noDangling_of_safe (by decide) opened (meets.imp fun _ _ => SafeAt.safe)).2
      current after digest ran drops committed⟩

/-- Two leaves with the same encoding are committed, and one of them is changed. -/
def twinRun : List Op :=
  [.put [0x11] (List.replicate 40 1), .put [0x21] (List.replicate 40 1), .commit,
    .put [0x11] (List.replicate 40 2)]

/-- With one level the leaves are dropped for their digest, which is the same for both. The entry is
deleted when one of them is changed, and the other cannot be read any more. -/
theorem not_noDangling_of_commit : ¬ ∀ (N : Nat) (ops : List Op)
    (tree current after : MerklePatriciaTree Preimage) (digest : Preimage), N ≠ 0 →
    new N DBColumn.empty = .ok tree → ops.foldlM (step N) tree = .ok current →
    current.commit N = .ok (digest, after) → after.NoDangling N := by
  intro sound
  have misses : ∃ current ∈ (twinRun.foldlM (step 1)
      (⟨DBColumn.empty, none, []⟩ : MerklePatriciaTree Preimage)).toOption,
      ∃ result ∈ (current.commit 1).toOption,
        (result.2.get 1 [0x21]).toOption.isNone = true := by
    decide +kernel
  obtain ⟨current, ran, result, committed, missed⟩ := misses
  have noDangling := sound 1 twinRun _ current result.2 result.1 (by decide)
    rfl (mem_toOption.mp ran) (mem_toOption.mp committed)
  obtain ⟨_, _, -, -, -, reads⟩ := noDangling.reopens
  obtain ⟨found, read, -⟩ := reads [0x21] (by decide)
  cases got : result.2.get 1 [0x21] with
  | ok pair =>
    rw [got] at missed
    cases missed
  | error panic =>
    rw [got] at read
    cases read

end MerklePatriciaTree

end AuthStorage.RainblockTrie
