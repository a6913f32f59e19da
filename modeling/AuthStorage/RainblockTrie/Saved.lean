/-
This file follows through a commit which nodes are saved in the store. Every large
node below the boundary has to be, since it is dropped for its digest sooner or
later, and so has every large node below a marked one, since the commit drops it. A
commit visits, drops and fills nodes; it leaves every large node that it keeps below
the boundary saved, and drops a node only together with everything that is stored
below it.
-/

import AuthStorage.RainblockTrie.CommitAccounts
import AuthStorage.RainblockTrie.Filled
import AuthStorage.RainblockTrie.Kept

namespace AuthStorage.RainblockTrie

open AuthStorage.Lvmt (Bytes)

variable {H : Type} [RlpHasher H]

/-! ### Saved nodes -/

mutual

/-- From here down, a large node is saved if it is below the boundary or below a marked node, and
every digest is complete. -/
def TrieNodeExt.Saved (N : Nat) (saved : H → Prop) (marked : Bool) (depth : Nat) : NodePtr H → Prop
  | ⟨node, cells⟩ =>
    (N ≤ depth ∨ marked = true → 32 ≤ (TrieNodeExt.getRlpEncode ⟨node, cells⟩).length →
      saved (TrieNodeExt.hash ⟨node, cells⟩)) ∧
      TrieNode.SavedBelow N saved (marked || cells.loaded) (depth + 1) node

/-- Every child is saved. -/
def TrieNode.SavedBelow (N : Nat) (saved : H → Prop) (marked : Bool) (depth : Nat) :
    TrieNode (ChildRef H) → Prop
  | .leaf _ _ => True
  | .branch children _ => ∀ index, ChildRef.Saved N saved marked depth (children index)
  | .extension _ child => ChildRef.Saved N saved marked depth child

/-- A child in memory is saved, and a digest is complete. -/
def ChildRef.Saved (N : Nat) (saved : H → Prop) (marked : Bool) (depth : Nat) : ChildRef H → Prop
  | .null => True
  | .ref found => Complete saved found
  | .owned me => TrieNodeExt.Saved N saved marked depth me

end

variable {N depth : Nat} {saved : H → Prop} {marked : Bool}

theorem TrieNodeExt.saved_iff {me : NodePtr H} :
    me.Saved N saved marked depth ↔
      (N ≤ depth ∨ marked = true → 32 ≤ me.getRlpEncode.length → saved me.hash) ∧
        me.node.AllChildren (ChildRef.Saved N saved (marked || me.cells.loaded) (depth + 1)) := by
  obtain ⟨node, cells⟩ := me
  rw [TrieNodeExt.Saved.eq_def]
  cases node <;> exact Iff.rfl

theorem ChildRef.saved_owned {me : NodePtr H} :
    (ChildRef.owned me).Saved N saved marked depth ↔ me.Saved N saved marked depth := by
  rw [ChildRef.Saved.eq_def]

/-- With fewer marks above, less has to be saved. -/
theorem ChildRef.Saved.unmark {child : ChildRef H} {fewer : Bool}
    (holds : child.Saved N saved marked depth) (fewerMarked : fewer = true → marked = true) :
    child.Saved N saved fewer depth := by
  induction child using ChildRef.induction generalizing depth marked fewer with
  | null => trivial
  | ref found => exact holds
  | owned me inductionHypothesis =>
    obtain ⟨here, below⟩ := TrieNodeExt.saved_iff.mp (ChildRef.saved_owned.mp holds)
    refine ChildRef.saved_owned.mpr (TrieNodeExt.saved_iff.mpr
      ⟨fun deep => here (deep.imp_right fewerMarked), ?_⟩)
    refine (inductionHypothesis.and below).imp fun child both => both.1 both.2 ?_
    rw [Bool.or_eq_true, Bool.or_eq_true]
    exact Or.imp_left fewerMarked

/-- What is stored of a trie is the trie itself, if it is large, and what is stored of its
children. -/
theorem TrieNode.Stands.stored_of_children {node : TrieNode (ChildRef H)} {trie : Trie}
    (stands : node.Stands trie) (own : 32 ≤ (encode H trie).length → saved (digest trie))
    (each : node.AllChildren fun child => ∀ below : Trie, child.Stands below →
      ∀ wanted, StoredIn below wanted → saved wanted) :
    ∀ wanted, StoredIn trie wanted → saved wanted := by
  rintro wanted ⟨sub, within, large, rfl⟩
  cases node with
  | leaf key value =>
    obtain ⟨stored, -, rfl⟩ := stands
    cases within
    exact own large
  | branch children value =>
    obtain ⟨tries, stored, -, rfl, below⟩ := stands
    cases within with
    | refl => exact own large
    | branch digit value inside => exact each digit _ (below digit) _ ⟨sub, inside, large, rfl⟩
  | extension key child =>
    obtain ⟨below, rfl, standsBelow⟩ := stands
    cases within with
    | refl => exact own large
    | extension key inside => exact each _ standsBelow _ ⟨sub, inside, large, rfl⟩

/-- All that is stored behind a complete digest is saved. -/
theorem ChildRef.Stands.stored_of_ref [CollisionFree H] {found : H} {trie : Trie}
    (stands : (ChildRef.ref found).Stands trie) (complete : Complete saved found) :
    ∀ wanted, StoredIn trie wanted → saved wanted := by
  obtain ⟨-, rfl⟩ := stands
  obtain ⟨other, same, -, all⟩ := complete
  obtain rfl : trie = other := encode_injective (CollisionFree.hash_injective same)
  exact all

/-- Below the boundary or a marked node, all that is stored of a child is saved. -/
theorem ChildRef.Stands.stored_of_saved [CollisionFree H] {child : ChildRef H} {trie : Trie}
    (stands : child.Stands trie) (holds : child.Saved N saved marked depth)
    (deep : N ≤ depth ∨ marked = true) : ∀ wanted, StoredIn trie wanted → saved wanted := by
  induction child using ChildRef.induction generalizing depth marked trie with
  | null =>
    obtain rfl : trie = .empty := stands
    exact fun wanted stored => absurd rfl stored.ne_empty
  | ref found => exact stands.stored_of_ref holds
  | owned me inductionHypothesis =>
    obtain ⟨here, below⟩ := TrieNodeExt.saved_iff.mp (ChildRef.saved_owned.mp holds)
    have standsMe := (ChildRef.stands_owned.mp stands).1
    refine (TrieNodeExt.stands_iff.mp standsMe).1.stored_of_children (fun large => ?_) ?_
    · rw [← standsMe.hash_eq]
      exact here deep (by rwa [standsMe.getRlpEncode_eq])
    · refine (inductionHypothesis.and below).imp fun child both trie standsChild => ?_
      refine both.1 standsChild both.2 (deep.imp Nat.le_succ_of_le fun above => ?_)
      rw [above, Bool.true_or]

/-- A node for the same trie with the same mark, and with saved children, is saved as the other. -/
theorem TrieNodeExt.Stands.saved_congr {me after : NodePtr H} {trie : Trie}
    (stands : me.Stands trie) (standsAfter : after.Stands trie)
    (loaded : after.cells.loaded = me.cells.loaded)
    (holds : me.Saved N saved marked depth)
    (below : after.node.AllChildren
      (ChildRef.Saved N saved (marked || me.cells.loaded) (depth + 1))) :
    after.Saved N saved marked depth := by
  obtain ⟨here, -⟩ := TrieNodeExt.saved_iff.mp holds
  rw [stands.getRlpEncode_eq, stands.hash_eq] at here
  refine TrieNodeExt.saved_iff.mpr ⟨?_, by rwa [loaded]⟩
  rwa [standsAfter.getRlpEncode_eq, standsAfter.hash_eq]

/-! ### Filling the cells -/

theorem ChildRef.Stands.fill_saved {child : ChildRef H} {trie : Trie} (stands : child.Stands trie)
    (holds : child.Saved N saved marked depth) : child.fill.Saved N saved marked depth := by
  induction child using ChildRef.induction generalizing depth marked trie with
  | null => trivial
  | ref found => exact holds
  | owned me inductionHypothesis =>
    have holdsMe := ChildRef.saved_owned.mp holds
    have standsMe := (ChildRef.stands_owned.mp stands).1
    obtain ⟨after, same, standsAfter, filled, -⟩ := stands.fill_as
    rw [same]
    refine ChildRef.saved_owned.mpr (standsMe.saved_congr standsAfter filled.loaded holdsMe
      (filled.children (TrieNodeExt.saved_iff.mp holdsMe).2 ?_))
    refine (inductionHypothesis.and standsMe.children).imp ?_
    rintro child ⟨known, trie, standsChild⟩ holdsChild
    exact known standsChild holdsChild

/-- The children stay saved when they are filled. -/
theorem TrieNodeExt.Stands.fill_children {me : NodePtr H} {trie : Trie} (stands : me.Stands trie) :
    me.node.AllChildren fun child =>
      child.Saved N saved marked depth → child.fill.Saved N saved marked depth := by
  refine stands.children.imp ?_
  rintro child ⟨below, standsBelow⟩
  exact standsBelow.fill_saved

theorem TrieNodeExt.FilledAs.keepsSaved {me after : NodePtr H} {trie : Trie}
    (filled : me.FilledAs after) (stands : me.Stands trie) (standsAfter : after.Stands trie)
    (holds : me.Saved N saved marked depth) : after.Saved N saved marked depth :=
  stands.saved_congr standsAfter filled.loaded holds
    (filled.children (TrieNodeExt.saved_iff.mp holds).2 stands.fill_children)

theorem TrieNodeExt.Stands.fillRlp_saved {me : NodePtr H} {trie : Trie} (stands : me.Stands trie)
    (holds : me.Saved N saved marked depth) : me.fillRlp.Saved N saved marked depth :=
  stands.fillRlp_as.keepsSaved stands stands.fillRlp.1 holds

theorem TrieNodeExt.Stands.fillHash_saved {me : NodePtr H} {trie : Trie} (stands : me.Stands trie)
    (holds : me.Saved N saved marked depth) : me.fillHash.Saved N saved marked depth :=
  stands.fillHash_as.keepsSaved stands stands.fillHash.1 holds

/-! ### Emptying the list of exiled nodes -/

theorem TrieNodeExt.Stands.drainExiled_saved_of_children {me : NodePtr H} {trie : Trie}
    (stands : me.Stands trie) (holds : me.Saved N saved marked depth)
    (each : me.node.AllChildren fun child =>
      child.drainExiled.1.Saved N saved (marked || me.cells.loaded) (depth + 1)) :
    me.drainExiled.1.Saved N saved marked depth := by
  have below : ∀ exiled : Bool, TrieNodeExt.Saved N saved marked depth
      (⟨me.node.mapChildren fun child => child.drainExiled.1,
        { me.cells with exiled := exiled }⟩ : NodePtr H) := fun exiled =>
    stands.saved_congr (stands.drainedBelow exiled) rfl holds
      (TrieNode.allChildren_mapChildren.mpr each)
  rw [TrieNodeExt.drainExiled_eq, TrieNode.drainExiledChildren_result]
  dsimp only
  split
  · have unmarked := stands.drainedBelow false
    exact unmarked.fillHash.1.fillRlp_saved (unmarked.fillHash_saved (below false))
  · exact below me.cells.exiled

theorem ChildRef.Stands.drainExiled_saved {child : ChildRef H} {trie : Trie}
    (stands : child.Stands trie) (holds : child.Saved N saved marked depth) :
    child.drainExiled.1.Saved N saved marked depth := by
  induction child using ChildRef.induction generalizing depth marked trie with
  | null => trivial
  | ref found => exact holds
  | owned me inductionHypothesis =>
    have holdsMe := ChildRef.saved_owned.mp holds
    have standsMe := (ChildRef.stands_owned.mp stands).1
    refine ChildRef.saved_owned.mpr (standsMe.drainExiled_saved_of_children holdsMe ?_)
    refine ((inductionHypothesis.and (TrieNodeExt.saved_iff.mp holdsMe).2).and
      standsMe.children).imp ?_
    rintro child ⟨⟨known, holdsChild⟩, below, standsBelow⟩
    exact known standsBelow holdsChild

theorem TrieNodeExt.Stands.drainExiled_saved {me : NodePtr H} {trie : Trie}
    (stands : me.Stands trie) (holds : me.Saved N saved marked depth) :
    me.drainExiled.1.Saved N saved marked depth := by
  refine stands.drainExiled_saved_of_children holds ?_
  refine ((TrieNodeExt.saved_iff.mp holds).2.and stands.children).imp ?_
  rintro child ⟨holdsChild, below, standsBelow⟩
  exact standsBelow.drainExiled_saved holdsChild

/-! ### Dropping nodes for their digests -/

/-- A child that is dropped leaves a complete digest. -/
theorem ChildRef.Stands.truncate_saved [CollisionFree H] {child : ChildRef H} {trie : Trie}
    (stands : child.Stands trie) (holds : child.Saved N saved marked depth)
    (deep : N ≤ depth ∨ marked = true) : child.truncate.Saved N saved marked depth := by
  cases child with
  | null => trivial
  | ref found => exact holds
  | owned me =>
    have standsMe := (ChildRef.stands_owned.mp stands).1
    rw [ChildRef.truncate, standsMe.getRlpEncode_eq]
    split
    · exact ChildRef.saved_owned.mpr (standsMe.fillRlp_saved (ChildRef.saved_owned.mp holds))
    · next large =>
      exact ⟨trie, standsMe.hash_eq, Nat.le_of_not_lt large, stands.stored_of_saved holds deep⟩

theorem TrieNodeExt.Stands.truncateLoaded_saved_of_children [CollisionFree H] {me : NodePtr H}
    {trie : Trie} (stands : me.Stands trie) (holds : me.Saved N saved marked depth)
    (each : me.node.AllChildren fun child =>
      child.truncateLoaded.Saved N saved (marked || me.cells.loaded) (depth + 1)) :
    me.truncateLoaded.Saved N saved marked depth := by
  obtain ⟨standsNode, fits⟩ := TrieNodeExt.stands_iff.mp stands
  have standsDone := stands.truncateLoaded
  obtain ⟨here, -⟩ := TrieNodeExt.saved_iff.mp holds
  rw [stands.getRlpEncode_eq, stands.hash_eq, ← standsDone.getRlpEncode_eq,
    ← standsDone.hash_eq] at here
  rw [TrieNodeExt.truncateLoaded_eq] at here ⊢
  split at here
  · next loaded =>
    rw [if_pos loaded]
    refine TrieNodeExt.saved_iff.mpr ⟨here, ?_⟩
    refine TrieNode.allChildren_mapChildren.mpr (TrieNode.allChildren_mapChildren.mpr
      ((each.and standsNode.children).imp ?_))
    rintro child ⟨holdsChild, below, standsBelow⟩
    have above : (marked || me.cells.loaded) = true := by rw [loaded, Bool.or_true]
    refine (standsBelow.truncateLoaded.truncate_saved holdsChild (.inr above)).unmark ?_
    exact fun _ => above
  · next unmarked =>
    rw [if_neg unmarked]
    exact TrieNodeExt.saved_iff.mpr ⟨here, TrieNode.allChildren_mapChildren.mpr each⟩

theorem ChildRef.Stands.truncateLoaded_saved [CollisionFree H] {child : ChildRef H} {trie : Trie}
    (stands : child.Stands trie) (holds : child.Saved N saved marked depth) :
    child.truncateLoaded.Saved N saved marked depth := by
  induction child using ChildRef.induction generalizing depth marked trie with
  | null => trivial
  | ref found => exact holds
  | owned me inductionHypothesis =>
    have holdsMe := ChildRef.saved_owned.mp holds
    have standsMe := (ChildRef.stands_owned.mp stands).1
    refine ChildRef.saved_owned.mpr (standsMe.truncateLoaded_saved_of_children holdsMe ?_)
    refine ((inductionHypothesis.and (TrieNodeExt.saved_iff.mp holdsMe).2).and
      standsMe.children).imp ?_
    rintro child ⟨⟨known, holdsChild⟩, below, standsBelow⟩
    exact known standsBelow holdsChild

theorem TrieNodeExt.Stands.truncateLoaded_saved [CollisionFree H] {me : NodePtr H} {trie : Trie}
    (stands : me.Stands trie) (holds : me.Saved N saved marked depth) :
    me.truncateLoaded.Saved N saved marked depth := by
  refine stands.truncateLoaded_saved_of_children holds ?_
  refine ((TrieNodeExt.saved_iff.mp holds).2.and stands.children).imp ?_
  rintro child ⟨holdsChild, below, standsBelow⟩
  exact standsBelow.truncateLoaded_saved holdsChild

/-! ### Committing -/

/-- What a commit leaves of a node it visits, before the children at the boundary are dropped. -/
structure TrieNodeExt.Finished (me done : NodePtr H) : Prop where
  settled : done.cells.Settled
  loaded : done.cells.loaded = me.cells.loaded
  exiled : done.cells.exiled = me.cells.exiled
  node : done.node = me.fillRlp.node

/-- A filled node that is small is settled. -/
theorem TrieNodeExt.Stands.settled_of_short {me : NodePtr H} {trie : Trie}
    (stands : me.Stands trie) (filled : me.cells.commited ≠ .working)
    (short : (encode H trie).length < 32) : me.cells.Settled := by
  have status := (TrieNodeExt.stands_iff.mp stands).2.status
  cases state : me.cells.commited with
  | committed => exact .inl state
  | light => exact .inr state
  | pending =>
    rw [state] at status
    exact absurd status.2 (Nat.not_le.mpr short)
  | working => exact absurd state filled

/-- A commit of one node, with the children done, fills the node and sets its status, and drops the
children at the boundary. -/
theorem TrieNodeExt.Stands.finishCommit_result (N depth : Nat) (topLayer : Bool) {me : NodePtr H}
    {trie : Trie} (stands : me.Stands trie) (below : List (H × Bytes)) (asserted : Bool) :
    ∃ done : NodePtr H, done.Stands trie ∧ me.Finished done ∧
      (me.finishCommit N depth topLayer below asserted).result =
        if depth + 1 = N ∧ topLayer = false then done.truncate else done := by
  obtain ⟨standsFilled, encoded, -⟩ := stands.fillRlp
  obtain ⟨standsHashed, hashed, -⟩ := standsFilled.fillHash
  have cached := TrieNodeExt.fillHash_rlpEncode standsFilled encoded
  have sameNode : me.fillRlp.fillHash.node = me.fillRlp.node := by
    rw [TrieNodeExt.fillHash_of_some encoded]
  have filled := stands.fillRlp_as
  have again := standsFilled.fillHash_as
  rw [TrieNodeExt.finishCommit]
  dsimp only
  by_cases stored : 32 ≤ me.getRlpEncode.length ∨ depth = 0
  · rw [if_pos stored]
    refine ⟨_, standsHashed.setCommitted cached hashed, ⟨.inl rfl, ?_, ?_, sameNode⟩, ?_⟩
    · exact again.loaded.trans filled.loaded
    · exact again.exiled.trans filled.exiled
    · split <;> rfl
  · rw [if_neg stored]
    have short : (encode H trie).length < 32 := by
      rw [← stands.getRlpEncode_eq]
      exact Nat.lt_of_not_le fun large => stored (.inl large)
    refine ⟨_, standsFilled, ⟨?_, filled.loaded, filled.exiled, rfl⟩, ?_⟩
    · exact standsFilled.settled_of_short stands.fillRlp_not_working short
    · split <;> rfl

theorem TrieNodeExt.Finished.children {me done : NodePtr H} {trie : Trie}
    {property : ChildRef H → Prop} (finished : me.Finished done) (stands : me.Stands trie)
    (all : me.node.AllChildren property)
    (each : me.node.AllChildren fun child => property child → property child.fill) :
    done.node.AllChildren property := by
  rw [finished.node]
  exact stands.fillRlp_as.children all each

theorem TrieNodeExt.Stands.finishCommit_saved [CollisionFree H] (topLayer : Bool) {me : NodePtr H}
    {trie : Trie} (stands : me.Stands trie) (holds : me.Saved N saved marked depth)
    (below : List (H × Bytes)) (asserted : Bool) :
    (me.finishCommit N depth topLayer below asserted).result.Saved N saved marked depth := by
  obtain ⟨done, standsDone, finished, result⟩ :=
    stands.finishCommit_result N depth topLayer below asserted
  have children := finished.children stands (TrieNodeExt.saved_iff.mp holds).2 stands.fill_children
  rw [result]
  split
  · next boundary =>
    refine stands.saved_congr standsDone.truncate finished.loaded holds ?_
    refine TrieNode.allChildren_mapChildren.mpr
      ((children.and standsDone.children).imp ?_)
    rintro child ⟨holdsChild, below, standsBelow⟩
    exact standsBelow.truncate_saved holdsChild (.inl (le_of_eq boundary.1.symm))
  · exact stands.saved_congr standsDone finished.loaded holds children

theorem TrieNodeExt.Stands.commit_saved_of_children [CollisionFree H] {topLayer : Bool}
    {me : NodePtr H} {trie : Trie} (stands : me.Stands trie) (holds : me.Saved N saved marked depth)
    (each : me.node.AllChildren fun child =>
      (∀ below : Trie, child.Stands below →
        (child.commit N (depth + 1) topLayer).result.Stands below) ∧
      (child.commit N (depth + 1) topLayer).result.Saved N saved (marked || me.cells.loaded)
        (depth + 1)) :
    (me.commit N depth topLayer).result.Saved N saved marked depth := by
  obtain ⟨standsNode, fits⟩ := TrieNodeExt.stands_iff.mp stands
  by_cases skips : me.Skips N depth topLayer
  · rwa [TrieNodeExt.commit_of_skips skips]
  · have standsBelow : TrieNodeExt.Stands
        (⟨(me.node.commitChildren N (depth + 1) topLayer).result, me.cells⟩ : NodePtr H) trie := by
      rw [TrieNode.commitChildren_result]
      exact TrieNodeExt.stands_iff.mpr ⟨standsNode.mapChildren (each.imp fun _ both => both.1), fits⟩
    rw [TrieNodeExt.commit_of_not_skips skips]
    refine standsBelow.finishCommit_saved topLayer ?_ _ _
    refine stands.saved_congr standsBelow rfl holds ?_
    rw [TrieNode.commitChildren_result]
    exact TrieNode.allChildren_mapChildren.mpr (each.imp fun _ both => both.2)

theorem ChildRef.Stands.commit_saved [CollisionFree H] (positive : N ≠ 0) (topLayer : Bool)
    {child : ChildRef H} {trie : Trie} (stands : child.Stands trie)
    (holds : child.Saved N saved marked (depth + 1)) :
    (child.commit N (depth + 1) topLayer).result.Saved N saved marked (depth + 1) := by
  induction child using ChildRef.induction generalizing depth marked trie with
  | null => trivial
  | ref found => exact holds
  | owned me inductionHypothesis =>
    have holdsMe := ChildRef.saved_owned.mp holds
    have standsMe := (ChildRef.stands_owned.mp stands).1
    refine ChildRef.saved_owned.mpr (standsMe.commit_saved_of_children holdsMe ?_)
    refine ((inductionHypothesis.and (TrieNodeExt.saved_iff.mp holdsMe).2).and
      standsMe.children).imp ?_
    rintro child ⟨⟨known, holdsChild⟩, below, standsBelow⟩
    exact ⟨fun _ standsChild => (standsChild.commit positive topLayer).1,
      known standsBelow holdsChild⟩

theorem TrieNodeExt.Stands.commit_saved [CollisionFree H] (positive : N ≠ 0) (topLayer : Bool)
    {me : NodePtr H} {trie : Trie} (stands : me.Stands trie) (holds : me.Saved N saved marked 0) :
    (me.commit N 0 topLayer).result.Saved N saved marked 0 := by
  refine stands.commit_saved_of_children holds ?_
  refine ((TrieNodeExt.saved_iff.mp holds).2.and stands.children).imp ?_
  rintro child ⟨holdsChild, below, standsBelow⟩
  exact ⟨fun _ standsChild => (standsChild.commit positive topLayer).1,
    standsBelow.commit_saved positive topLayer holdsChild⟩

/-! ### From the nodes saved to the nodes kept -/

theorem ChildRef.Stands.kept_of_saved {child : ChildRef H} {trie : Trie}
    (stands : child.Stands trie) (holds : child.Saved N saved marked depth) :
    child.Everywhere (TrieNodeExt.Kept N saved) (Complete saved) depth := by
  induction child using ChildRef.induction generalizing depth marked trie with
  | null => trivial
  | ref found => exact holds
  | owned me inductionHypothesis =>
    obtain ⟨here, below⟩ := TrieNodeExt.saved_iff.mp (ChildRef.saved_owned.mp holds)
    obtain ⟨standsMe, large⟩ := ChildRef.stands_owned.mp stands
    obtain ⟨standsNode, fits⟩ := TrieNodeExt.stands_iff.mp standsMe
    refine ChildRef.everywhere_owned_iff.mpr ⟨?_, ?_⟩
    · intro boundary committed _ found same
      rw [fits.hash found same]
      rw [standsMe.getRlpEncode_eq, standsMe.hash_eq] at here
      exact here (.inl boundary) (large committed)
    · refine ((inductionHypothesis.and below).and standsNode.children).imp ?_
      rintro child ⟨⟨known, holdsChild⟩, below, standsBelow⟩
      exact known standsBelow holdsChild

end AuthStorage.RainblockTrie
