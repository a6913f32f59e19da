/-
This file orders the nodes by how far they are on their way into the store: a node
was just changed, or has its encoding, or is settled. No child in memory is behind
its parent, so a commit that passes by a settled node passes by settled nodes only,
and after a commit every node in memory is settled. A flush settles the top layer and
all that is small; below the boundary it leaves a large node as it was.
-/

import AuthStorage.RainblockTrie.CommitWrites
import AuthStorage.RainblockTrie.Saved

namespace AuthStorage.RainblockTrie

open AuthStorage.Lvmt (Bytes DBColumn)

variable {H : Type} [RlpHasher H]

/-! ### Progress -/

/-- How far a node with the status is on its way into the store. -/
def Commit.progress : Commit → Nat
  | .working => 0
  | .pending => 1
  | .light => 2
  | .committed => 2

theorem Commit.progress_le (status : Commit) : status.progress ≤ 2 := by
  cases status <;> decide

theorem Commit.progress_pos {status : Commit} : 1 ≤ status.progress ↔ status ≠ .working := by
  cases status <;> decide

omit [RlpHasher H] in
theorem Cells.settled_iff {cells : Cells H} : cells.Settled ↔ 2 ≤ cells.commited.progress := by
  rw [Cells.Settled]
  cases cells.commited <;> decide

/-- A child in memory has come so far at least. -/
def ChildRef.AtLeast (least : Nat) : ChildRef H → Prop
  | .owned me => least ≤ me.cells.commited.progress
  | _ => True

/-- No child in memory is behind the node. -/
def TrieNodeExt.Ordered (_ : Nat) (me : NodePtr H) : Prop :=
  me.node.AllChildren (ChildRef.AtLeast me.cells.commited.progress)

/-- The node is settled, at whatever depth. -/
def TrieNodeExt.IsSettled (_ : Nat) (me : NodePtr H) : Prop := me.cells.Settled

variable {N depth : Nat} {trie : Trie}

omit [RlpHasher H] in
theorem ChildRef.AtLeast.less {child : ChildRef H} {least less : Nat} (holds : child.AtLeast least)
    (le : less ≤ least) : child.AtLeast less := by
  cases child with
  | null => trivial
  | ref found => trivial
  | owned me => exact le_trans le holds

omit [RlpHasher H] in
theorem ChildRef.Everywhere.atLeast {child : ChildRef H} {known : H → Prop}
    (holds : child.Everywhere TrieNodeExt.IsSettled known depth) (least : Nat) (le : least ≤ 2) :
    child.AtLeast least := by
  cases child with
  | null => trivial
  | ref found => trivial
  | owned me =>
    have settled := (ChildRef.everywhere_owned_iff.mp holds).1
    exact le_trans le (Cells.settled_iff.mp settled)

omit [RlpHasher H] in
/-- Where all are settled, no child is behind. -/
theorem ChildRef.Everywhere.ordered {child : ChildRef H}
    (holds : child.Everywhere TrieNodeExt.IsSettled anyDigest depth) :
    child.Everywhere TrieNodeExt.Ordered anyDigest depth := by
  induction child using ChildRef.induction generalizing depth with
  | null => trivial
  | ref found => trivial
  | owned me inductionHypothesis =>
    obtain ⟨-, below⟩ := ChildRef.everywhere_owned_iff.mp holds
    exact ChildRef.everywhere_owned_iff.mpr
      ⟨below.imp fun _ holds => holds.atLeast _ (Commit.progress_le _),
        (inductionHypothesis.and below).imp fun _ both => both.1 both.2⟩

omit [RlpHasher H] in
/-- Below a settled node all are settled. -/
theorem ChildRef.Everywhere.isSettled {child : ChildRef H}
    (holds : child.Everywhere TrieNodeExt.Ordered anyDigest depth) (settled : child.AtLeast 2) :
    child.Everywhere TrieNodeExt.IsSettled anyDigest depth := by
  induction child using ChildRef.induction generalizing depth with
  | null => trivial
  | ref found => trivial
  | owned me inductionHypothesis =>
    obtain ⟨here, below⟩ := ChildRef.everywhere_owned_iff.mp holds
    refine ChildRef.everywhere_owned_iff.mpr ⟨Cells.settled_iff.mpr settled, ?_⟩
    exact ((inductionHypothesis.and below).and here).imp fun _ all =>
      all.1.1 all.1.2 (all.2.less settled)

/-! ### Reads and writes -/

/-- A node as it is loaded is settled, and so is what is embedded in it. -/
theorem ChildRef.Calm.isSettled {child : ChildRef H} (calm : child.Calm)
    (holds : child.Everywhere (TrieNodeExt.Layered N) anyDigest depth) :
    child.Everywhere TrieNodeExt.IsSettled anyDigest depth := by
  induction child using ChildRef.induction generalizing depth with
  | null => trivial
  | ref found => trivial
  | owned me inductionHypothesis =>
    obtain ⟨here, below⟩ := ChildRef.everywhere_owned_iff.mp holds
    refine ChildRef.everywhere_owned_iff.mpr ⟨calm.1, ?_⟩
    exact ((inductionHypothesis.and below).and (here.orderly.settled calm.1)).imp
      fun _ all => all.1.1 all.2 all.1.2

theorem load_isSettled {db : DBColumn} {found : H} {me : NodePtr H}
    (done : TrieNodeExt.load db found = .ok me) (depth : Nat) :
    (ChildRef.owned me).Everywhere TrieNodeExt.IsSettled anyDigest depth := by
  obtain ⟨layered, settled⟩ := layered_of_load 0 done depth
  have filled := (TrieNodeExt.everywhere_iff.mp layered).1.orderly.filled_of_settled settled
  have calm : (ChildRef.owned me).Calm := ⟨settled, filled⟩
  exact calm.isSettled (ChildRef.everywhere_owned.mpr layered)

theorem Opens.ordered {db : DBColumn} {me after : NodePtr H} (opens : Opens N db depth me after)
    (holds : me.Everywhere TrieNodeExt.Ordered anyDigest depth) :
    after.Everywhere TrieNodeExt.Ordered anyDigest depth := by
  induction opens with
  | refl => exact holds
  | @child depth me index before child after isLoaded node found held below set
      inductionHypothesis =>
    obtain ⟨here, children⟩ := TrieNodeExt.everywhere_iff.mp holds
    have orderedChild : child.Everywhere TrieNodeExt.Ordered anyDigest (depth + 1) ∧
        (ChildRef.owned child).AtLeast me.cells.commited.progress := by
      cases held with
      | owned => exact ⟨ChildRef.everywhere_owned.mp (children.childAt found), here.childAt found⟩
      | loaded stored =>
        have settled := load_isSettled stored (depth + 1)
        exact ⟨ChildRef.everywhere_owned.mp settled.ordered,
          settled.atLeast _ (Commit.progress_le _)⟩
    have least : (ChildRef.owned after).AtLeast me.cells.commited.progress := by
      show _ ≤ after.cells.commited.progress
      rw [below.cells.1]
      exact orderedChild.2
    exact TrieNodeExt.everywhere_iff.mpr ⟨here.others.all set least,
      children.others.all set (ChildRef.everywhere_owned.mpr (inductionHypothesis orderedChild.1))⟩

theorem survives_ordered (N : Nat) (db : DBColumn) :
    Survives N db (TrieNodeExt.Ordered (H := H)) anyDigest where
  working depth node := .of_forall (fun child => by
    cases child with
    | null => trivial
    | ref found => trivial
    | owned me => exact Nat.zero_le _) node
  loads _ _ depth _ done := ChildRef.everywhere_owned.mp (load_isSettled done depth).ordered
  opens _ _ _ opens holds := opens.ordered holds
  rises _ _ ordered := ordered

omit [RlpHasher H] in
/-- A mark for exile does not change the status. -/
theorem ChildRef.AtLeast.exile {child : ChildRef H} {least : Nat} (holds : child.AtLeast least)
    (N base : Nat) : (child.exile N base).AtLeast least := by
  cases child with
  | null => trivial
  | ref found => trivial
  | owned me =>
    show (ChildRef.owned (me.exile N base)).AtLeast least
    rw [TrieNodeExt.exile_eq]
    split
    · exact holds
    split <;> exact holds

omit [RlpHasher H] in
theorem ChildRef.Everywhere.exile_ordered {child : ChildRef H}
    (holds : child.Everywhere TrieNodeExt.Ordered anyDigest depth) (N base depth' : Nat) :
    (child.exile N base).Everywhere TrieNodeExt.Ordered anyDigest depth' := by
  have moves : ∀ {child : ChildRef H} {depth : Nat} (depth' : Nat),
      child.Everywhere TrieNodeExt.Ordered anyDigest depth →
      child.Everywhere TrieNodeExt.Ordered anyDigest depth' := by
    intro child depth depth' holds
    induction child using ChildRef.induction generalizing depth depth' with
    | null => trivial
    | ref found => trivial
    | owned me inductionHypothesis =>
      obtain ⟨here, below⟩ := ChildRef.everywhere_owned_iff.mp holds
      exact ChildRef.everywhere_owned_iff.mpr
        ⟨here, (inductionHypothesis.and below).imp fun _ both => both.1 _ both.2⟩
  induction child using ChildRef.induction generalizing depth base depth' with
  | null => trivial
  | ref found => trivial
  | owned me inductionHypothesis =>
    obtain ⟨here, below⟩ := ChildRef.everywhere_owned_iff.mp (moves depth' holds)
    show (ChildRef.owned (me.exile N base)).Everywhere _ _ _
    rw [TrieNodeExt.exile_eq]
    split
    · exact moves depth' holds
    split
    · exact ChildRef.everywhere_owned_iff.mpr ⟨here, below⟩
    · refine ChildRef.everywhere_owned_iff.mpr ⟨?_, ?_⟩
      · exact TrieNode.allChildren_mapChildren.mpr
          (here.imp fun _ holds => holds.exile N (base + 1))
      · exact TrieNode.allChildren_mapChildren.mpr
          ((inductionHypothesis.and below).imp fun _ both => both.1 both.2 (base + 1) (depth' + 1))

/-! ### Filling the cells -/

section

variable {me after : NodePtr H}

/-- The children of a node that is filled are far enough for it. -/
theorem TrieNodeExt.FilledAs.ordered (filled : me.FilledAs after) (stands : me.Stands trie)
    (ordered : me.Ordered depth) : after.Ordered depth := by
  rcases filled.status with ⟨sameNode, same⟩ | ⟨sameNode, -, status⟩
  · rwa [TrieNodeExt.Ordered, sameNode, same]
  rw [TrieNodeExt.Ordered, sameNode, status]
  refine TrieNode.allChildren_mapChildren.mpr ?_
  have standsNode := (TrieNodeExt.stands_iff.mp stands).1
  have filledChild : ∀ {child : NodePtr H} {below : Trie}, (ChildRef.owned child).Stands below →
      (ChildRef.owned child).fill.AtLeast 1 ∧
        ((ChildRef.owned child).Small → (ChildRef.owned child).fill.AtLeast 2) := by
    intro child below standsChild
    obtain ⟨child', same, standsChild', -, notWorking⟩ := standsChild.fill_as
    rw [same]
    refine ⟨Commit.progress_pos.mpr notWorking, fun small => ?_⟩
    have short : (encode H below).length < 32 := by
      rwa [← (ChildRef.stands_owned.mp standsChild).1.getRlpEncode_eq]
    exact Cells.settled_iff.mp (standsChild'.settled_of_short notWorking short)
  split
  · next short =>
    rw [stands.getRlpEncode_eq, ← standsNode.rlpBytes_eq] at short
    refine ((TrieNode.small_of_short short).and standsNode.children).imp ?_
    rintro child ⟨small, below, standsChild⟩
    cases child with
    | null => trivial
    | ref found => trivial
    | owned child => exact (filledChild standsChild).2 small
  · refine standsNode.children.imp ?_
    rintro child ⟨below, standsChild⟩
    cases child with
    | null => trivial
    | ref found => trivial
    | owned child => exact (filledChild standsChild).1

theorem TrieNodeExt.FilledAs.progress (filled : me.FilledAs after) :
    me.cells.commited.progress ≤ after.cells.commited.progress := by
  rcases filled.status with ⟨-, same⟩ | ⟨-, working, -⟩
  · rw [same]
  · rw [working]
    exact Nat.zero_le _

theorem TrieNodeExt.FilledAs.isSettled (filled : me.FilledAs after)
    (settled : me.IsSettled depth) : after.IsSettled depth :=
  Cells.settled_iff.mpr (le_trans (Cells.settled_iff.mp settled) filled.progress)

theorem TrieNodeExt.FilledAs.everywhere_ordered (filled : me.FilledAs after)
    (stands : me.Stands trie) (standsAfter : after.Stands trie)
    (holds : me.Everywhere TrieNodeExt.Ordered anyDigest depth) :
    after.Everywhere TrieNodeExt.Ordered anyDigest depth := by
  refine filled.everywhere ?_ stands standsAfter holds
  exact fun _ _ _ _ stands _ filled ordered => filled.ordered stands ordered

end

theorem ChildRef.Stands.fill_isSettled {child : ChildRef H} (stands : child.Stands trie)
    (holds : child.Everywhere TrieNodeExt.IsSettled anyDigest depth) :
    child.fill.Everywhere TrieNodeExt.IsSettled anyDigest depth := by
  refine ChildRef.Stands.fill_everywhere ?_ stands holds
  exact fun _ _ _ _ _ _ filled settled => filled.isSettled settled

/-! ### Emptying the list of exiled nodes -/

theorem TrieNodeExt.Stands.drainExiled_ordered_of_children {me : NodePtr H}
    (stands : me.Stands trie) (ordered : me.Ordered depth)
    (each : me.node.AllChildren fun child =>
      child.drainExiled.1.Everywhere TrieNodeExt.Ordered anyDigest (depth + 1) ∧
        ∀ least, child.AtLeast least → child.drainExiled.1.AtLeast least) :
    me.drainExiled.1.Everywhere TrieNodeExt.Ordered anyDigest depth ∧
      me.cells.commited.progress ≤ me.drainExiled.1.cells.commited.progress := by
  have below : ∀ exiled : Bool, TrieNodeExt.Everywhere TrieNodeExt.Ordered anyDigest depth
      (⟨me.node.mapChildren fun child => child.drainExiled.1,
        { me.cells with exiled := exiled }⟩ : NodePtr H) := by
    intro exiled
    refine TrieNodeExt.everywhere_iff.mpr
      ⟨?_, TrieNode.allChildren_mapChildren.mpr (each.imp fun _ both => both.1)⟩
    rw [TrieNodeExt.Ordered]
    exact TrieNode.allChildren_mapChildren.mpr
      ((each.and ordered).imp fun _ both => both.1.2 _ both.2)
  rw [TrieNodeExt.drainExiled_eq, TrieNode.drainExiledChildren_result]
  dsimp only
  split
  · have unmarked := stands.drainedBelow false
    have hashed := unmarked.fillHash.1
    have filled := unmarked.fillHash_as
    have again := hashed.fillRlp_as
    exact ⟨again.everywhere_ordered hashed hashed.fillRlp.1
      (filled.everywhere_ordered unmarked hashed (below false)),
      le_trans filled.progress again.progress⟩
  · exact ⟨below me.cells.exiled, le_rfl⟩

theorem ChildRef.Stands.drainExiled_ordered {child : ChildRef H} (stands : child.Stands trie)
    (holds : child.Everywhere TrieNodeExt.Ordered anyDigest depth) :
    child.drainExiled.1.Everywhere TrieNodeExt.Ordered anyDigest depth ∧
      ∀ least, child.AtLeast least → child.drainExiled.1.AtLeast least := by
  induction child using ChildRef.induction generalizing depth trie with
  | null => exact ⟨trivial, fun _ _ => trivial⟩
  | ref found => exact ⟨trivial, fun _ _ => trivial⟩
  | owned me inductionHypothesis =>
    obtain ⟨here, below⟩ := ChildRef.everywhere_owned_iff.mp holds
    have standsMe := (ChildRef.stands_owned.mp stands).1
    have drained := standsMe.drainExiled_ordered_of_children here ?_
    · exact ⟨ChildRef.everywhere_owned.mpr drained.1, fun _ holds => le_trans holds drained.2⟩
    · refine ((inductionHypothesis.and below).and standsMe.children).imp ?_
      rintro child ⟨⟨known, ordered⟩, trie, standsChild⟩
      exact known standsChild ordered

theorem TrieNodeExt.Stands.drainExiled_ordered {me : NodePtr H} (stands : me.Stands trie)
    (holds : me.Everywhere TrieNodeExt.Ordered anyDigest depth) :
    me.drainExiled.1.Everywhere TrieNodeExt.Ordered anyDigest depth := by
  obtain ⟨here, below⟩ := TrieNodeExt.everywhere_iff.mp holds
  refine (stands.drainExiled_ordered_of_children here ?_).1
  refine (below.and stands.children).imp ?_
  rintro child ⟨ordered, trie, standsChild⟩
  exact standsChild.drainExiled_ordered ordered

/-! ### Committing -/

theorem ChildRef.Everywhere.truncate_isSettled {child : ChildRef H} (stands : child.Stands trie)
    (holds : child.Everywhere TrieNodeExt.IsSettled anyDigest depth) :
    child.truncate.Everywhere TrieNodeExt.IsSettled anyDigest depth := by
  cases child with
  | null => trivial
  | ref found => trivial
  | owned me =>
    have standsMe := (ChildRef.stands_owned.mp stands).1
    rw [ChildRef.truncate]
    split
    · refine ChildRef.everywhere_owned.mpr (standsMe.fillRlp_as.everywhere ?_ standsMe
        standsMe.fillRlp.1 (ChildRef.everywhere_owned.mp holds))
      exact fun _ _ _ _ _ _ filled settled => filled.isSettled settled
    · trivial

/-- A node that is visited is settled, and so is what is below it, if that was settled by the commit
of the children, or is settled when it is filled. -/
theorem TrieNodeExt.Stands.finishCommit_isSettled (topLayer : Bool) {me : NodePtr H}
    (stands : me.Stands trie) (each : me.node.AllChildren fun child =>
      (me.cells.commited ≠ .working →
        child.Everywhere TrieNodeExt.IsSettled anyDigest (depth + 1)) ∧
      child.fill.Everywhere TrieNodeExt.IsSettled anyDigest (depth + 1))
    (below : List (H × Bytes)) (asserted : Bool) :
    (me.finishCommit N depth topLayer below asserted).result.Everywhere TrieNodeExt.IsSettled
      anyDigest depth := by
  obtain ⟨done, standsDone, finished, result⟩ :=
    stands.finishCommit_result N depth topLayer below asserted
  have children : done.node.AllChildren
      (ChildRef.Everywhere TrieNodeExt.IsSettled anyDigest (depth + 1)) := by
    rw [finished.node]
    rcases stands.fillRlp_as.status with ⟨sameNode, same⟩ | ⟨sameNode, -, -⟩
    · rw [sameNode]
      exact each.imp fun _ both => both.1 (same ▸ stands.fillRlp_not_working)
    · rw [sameNode]
      exact TrieNode.allChildren_mapChildren.mpr (each.imp fun _ both => both.2)
  rw [result]
  split
  · refine TrieNodeExt.everywhere_iff.mpr
      ⟨finished.settled, TrieNode.allChildren_mapChildren.mpr ?_⟩
    refine (children.and standsDone.children).imp ?_
    rintro child ⟨settled, below, standsBelow⟩
    exact settled.truncate_isSettled standsBelow
  · exact TrieNodeExt.everywhere_iff.mpr ⟨finished.settled, children⟩

theorem TrieNodeExt.Stands.visit_isSettled (positive : N ≠ 0) {topLayer : Bool} {me : NodePtr H}
    (stands : me.Stands trie) (visits : ¬ me.Skips N depth topLayer)
    (each : me.node.AllChildren fun child =>
      (me.cells.commited ≠ .working → (child.commit N (depth + 1) topLayer).result.Everywhere
        TrieNodeExt.IsSettled anyDigest (depth + 1)) ∧
      (child.commit N (depth + 1) topLayer).result.fill.Everywhere TrieNodeExt.IsSettled anyDigest
        (depth + 1)) :
    (me.commit N depth topLayer).result.Everywhere TrieNodeExt.IsSettled anyDigest depth := by
  have standsBelow := stands.committedBelow positive topLayer depth
  rw [TrieNodeExt.commit_of_not_skips visits]
  refine standsBelow.finishCommit_isSettled topLayer ?_ _ _
  rw [TrieNode.commitChildren_result]
  dsimp only
  exact TrieNode.allChildren_mapChildren.mpr each

theorem TrieNodeExt.Stands.commit_isSettled_of_children (positive : N ≠ 0) {me : NodePtr H}
    (stands : me.Stands trie) (holds : me.Everywhere TrieNodeExt.Ordered anyDigest depth)
    (each : me.node.AllChildren fun child =>
      (child.commit N (depth + 1) false).result.Everywhere TrieNodeExt.IsSettled anyDigest
        (depth + 1)) :
    (me.commit N depth false).result.Everywhere TrieNodeExt.IsSettled anyDigest depth := by
  by_cases skips : me.Skips N depth false
  · rw [TrieNodeExt.commit_of_skips skips]
    have settled : me.cells.Settled := by
      rcases skips with ⟨-, no⟩ | ⟨settled, -⟩
      · cases no
      · exact settled
    exact ChildRef.everywhere_owned.mp
      ((ChildRef.everywhere_owned.mpr holds).isSettled (Cells.settled_iff.mp settled))
  · refine stands.visit_isSettled positive skips
      ((each.and stands.children).imp ?_)
    rintro child ⟨settled, below, standsBelow⟩
    exact ⟨fun _ => settled, (standsBelow.commit positive false).1.fill_isSettled settled⟩

theorem ChildRef.Stands.commit_isSettled (positive : N ≠ 0) {child : ChildRef H}
    (stands : child.Stands trie) (holds : child.Everywhere TrieNodeExt.Ordered anyDigest depth) :
    (child.commit N depth false).result.Everywhere TrieNodeExt.IsSettled anyDigest depth := by
  induction child using ChildRef.induction generalizing depth trie with
  | null => trivial
  | ref found => trivial
  | owned me inductionHypothesis =>
    have holdsMe := ChildRef.everywhere_owned.mp holds
    have standsMe := (ChildRef.stands_owned.mp stands).1
    refine ChildRef.everywhere_owned.mpr (standsMe.commit_isSettled_of_children positive holdsMe ?_)
    refine ((inductionHypothesis.and (TrieNodeExt.everywhere_iff.mp holdsMe).2).and
      standsMe.children).imp ?_
    rintro child ⟨⟨known, ordered⟩, below, standsBelow⟩
    exact known standsBelow ordered

theorem TrieNodeExt.Stands.truncateLoaded_isSettled_of_children {me : NodePtr H}
    (stands : me.Stands trie) (settled : me.IsSettled depth)
    (each : me.node.AllChildren fun child =>
      child.truncateLoaded.Everywhere TrieNodeExt.IsSettled anyDigest (depth + 1)) :
    me.truncateLoaded.Everywhere TrieNodeExt.IsSettled anyDigest depth := by
  rw [TrieNodeExt.truncateLoaded_eq]
  split
  · refine TrieNodeExt.everywhere_iff.mpr ⟨settled, ?_⟩
    refine TrieNode.allChildren_mapChildren.mpr (TrieNode.allChildren_mapChildren.mpr
      ((each.and stands.children).imp ?_))
    rintro child ⟨settled, below, standsBelow⟩
    exact settled.truncate_isSettled standsBelow.truncateLoaded
  · exact TrieNodeExt.everywhere_iff.mpr ⟨settled, TrieNode.allChildren_mapChildren.mpr each⟩

theorem ChildRef.Stands.truncateLoaded_isSettled {child : ChildRef H} (stands : child.Stands trie)
    (holds : child.Everywhere TrieNodeExt.IsSettled anyDigest depth) :
    child.truncateLoaded.Everywhere TrieNodeExt.IsSettled anyDigest depth := by
  induction child using ChildRef.induction generalizing depth trie with
  | null => trivial
  | ref found => trivial
  | owned me inductionHypothesis =>
    obtain ⟨here, below⟩ := ChildRef.everywhere_owned_iff.mp holds
    have standsMe := (ChildRef.stands_owned.mp stands).1
    refine ChildRef.everywhere_owned.mpr (standsMe.truncateLoaded_isSettled_of_children here ?_)
    refine ((inductionHypothesis.and below).and standsMe.children).imp ?_
    rintro child ⟨⟨known, settled⟩, below, standsBelow⟩
    exact known standsBelow settled

/-! ### Flushing -/

/-- A large node is committed. -/
def TrieNodeExt.Done (me : NodePtr H) : Prop :=
  32 ≤ me.getRlpEncode.length → me.cells.commited = .committed

/-- A large node at the boundary or below it is committed. -/
def TrieNodeExt.DoneBelow (N depth : Nat) (me : NodePtr H) : Prop := N ≤ depth → me.Done

instance (me : NodePtr H) : Decidable me.Done := inferInstanceAs (Decidable (_ → _))

instance (N depth : Nat) (me : NodePtr H) : Decidable (me.DoneBelow N depth) :=
  inferInstanceAs (Decidable (_ → _))

theorem TrieNodeExt.FilledAs.done {me after : NodePtr H} (filled : me.FilledAs after)
    (stands : me.Stands trie) (standsAfter : after.Stands trie) (done : me.Done) : after.Done := by
  intro large
  rw [standsAfter.getRlpEncode_eq, ← stands.getRlpEncode_eq] at large
  exact filled.committed.mpr (done large)

/-- Where no large node waits for a commit, what is filled is settled. -/
theorem ChildRef.Stands.isSettled_of_done {child : ChildRef H} (stands : child.Stands trie)
    (holds : child.Everywhere TrieNodeExt.Ordered anyDigest depth)
    (done : child.Everywhere (TrieNodeExt.DoneBelow N) anyDigest depth) (boundary : N ≤ depth)
    (filled : child.AtLeast 1) : child.Everywhere TrieNodeExt.IsSettled anyDigest depth := by
  induction child using ChildRef.induction generalizing depth trie with
  | null => trivial
  | ref found => trivial
  | owned me inductionHypothesis =>
    obtain ⟨here, below⟩ := ChildRef.everywhere_owned_iff.mp holds
    obtain ⟨doneHere, doneBelow⟩ := ChildRef.everywhere_owned_iff.mp done
    have standsMe := (ChildRef.stands_owned.mp stands).1
    refine ChildRef.everywhere_owned_iff.mpr ⟨?_, ?_⟩
    · by_cases large : 32 ≤ (encode H trie).length
      · exact .inl (doneHere boundary (by rwa [standsMe.getRlpEncode_eq]))
      · exact standsMe.settled_of_short (Commit.progress_pos.mp filled) (Nat.lt_of_not_le large)
    · refine ((((inductionHypothesis.and below).and doneBelow).and here).and
        standsMe.children).imp ?_
      rintro child ⟨⟨⟨⟨known, ordered⟩, done⟩, least⟩, trie, standsChild⟩
      exact known standsChild ordered done (Nat.le_succ_of_le boundary) (least.less filled)

/-- A flush leaves a child settled if it is filled, and else it is settled when it is filled. -/
theorem ChildRef.Stands.flush_isSettled (positive : N ≠ 0) {child : ChildRef H}
    (stands : child.Stands trie)
    (holds : child.Everywhere TrieNodeExt.Ordered anyDigest (depth + 1))
    (done : child.Everywhere (TrieNodeExt.DoneBelow N) anyDigest (depth + 1)) :
    (child.AtLeast 1 → (child.commit N (depth + 1) true).result.Everywhere TrieNodeExt.IsSettled
      anyDigest (depth + 1)) ∧
    (child.commit N (depth + 1) true).result.fill.Everywhere TrieNodeExt.IsSettled anyDigest
      (depth + 1) := by
  induction child using ChildRef.induction generalizing depth trie with
  | null => exact ⟨fun _ => trivial, trivial⟩
  | ref found => exact ⟨fun _ => trivial, trivial⟩
  | owned me inductionHypothesis =>
    have standsMe := (ChildRef.stands_owned.mp stands).1
    obtain ⟨here, below⟩ := ChildRef.everywhere_owned_iff.mp holds
    obtain ⟨-, doneBelow⟩ := ChildRef.everywhere_owned_iff.mp done
    have standsResult : ((ChildRef.owned me).commit N (depth + 1) true).result.Stands trie :=
      (stands.commit positive true).1
    show (_ → (ChildRef.owned (me.commit N (depth + 1) true).result).Everywhere _ _ _) ∧
      (ChildRef.owned (me.commit N (depth + 1) true).result).fill.Everywhere _ _ _
    by_cases boundary : N ≤ depth + 1
    · rw [TrieNodeExt.commit_of_skips (.inl ⟨boundary, rfl⟩)]
      refine ⟨stands.isSettled_of_done holds done boundary, ?_⟩
      have filledOrdered : (ChildRef.owned me).fill.Everywhere TrieNodeExt.Ordered anyDigest
          (depth + 1) := by
        refine ChildRef.Stands.fill_everywhere ?_ stands holds
        exact fun _ _ _ _ stands _ filled ordered => filled.ordered stands ordered
      have filledDone : (ChildRef.owned me).fill.Everywhere (TrieNodeExt.DoneBelow N) anyDigest
          (depth + 1) := by
        refine ChildRef.Stands.fill_everywhere ?_ stands done
        exact fun _ _ _ _ stands standsAfter filled done boundary =>
          filled.done stands standsAfter (done boundary)
      refine stands.fill.isSettled_of_done filledOrdered filledDone boundary ?_
      obtain ⟨after, same, -, -, notWorking⟩ := stands.fill_as
      rw [same]
      exact Commit.progress_pos.mpr notWorking
    · have settled : (ChildRef.owned (me.commit N (depth + 1) true).result).Everywhere
          TrieNodeExt.IsSettled anyDigest (depth + 1) := by
        have visits : ¬ me.Skips N (depth + 1) true := by
          rintro (⟨no, -⟩ | ⟨-, no⟩)
          · exact boundary no
          · cases no
        refine ChildRef.everywhere_owned.mpr (standsMe.visit_isSettled positive visits ?_)
        refine (((inductionHypothesis.and below).and doneBelow).and
          (here.and standsMe.children)).imp ?_
        rintro child ⟨⟨⟨known, ordered⟩, done⟩, least, trie, standsChild⟩
        have known := known standsChild ordered done
        exact ⟨fun filled => known.1 (least.less (Commit.progress_pos.mpr filled)), known.2⟩
      exact ⟨fun _ => settled, standsResult.fill_isSettled settled⟩

namespace MerklePatriciaTree

variable {tree after : MerklePatriciaTree H}

theorem rootHash_ordered (represents : tree.Represents trie)
    (ordered : tree.Everywhere TrieNodeExt.Ordered anyDigest) :
    tree.rootHash.2.Everywhere TrieNodeExt.Ordered anyDigest := by
  intro root same
  obtain ⟨before, opened, rfl⟩ := Option.map_eq_some_iff.mp same
  have standsRoot := represents.root
  rw [opened] at standsRoot
  exact (TrieNodeExt.Stands.fillHash_as standsRoot).everywhere_ordered standsRoot
    (TrieNodeExt.Stands.fillHash standsRoot).1 (ordered before opened)

/-- After a commit every node in memory is settled. -/
theorem commit_isSettled (represents : tree.Represents trie) (positive : N ≠ 0)
    (ordered : tree.Everywhere TrieNodeExt.Ordered anyDigest) {digest : H}
    (done : tree.commit N = .ok (digest, after)) :
    after.Everywhere TrieNodeExt.IsSettled anyDigest := by
  obtain ⟨db, root, delOps⟩ := tree
  cases root with
  | none =>
    cases done
    intro root no
    cases no
  | some root =>
    have standsRoot : root.Stands trie := represents.root
    rw [commit] at done
    dsimp only at done
    split at done
    · cases done
      intro result same
      cases same
      have drained := standsRoot.drainExiled.1
      have drainedOrdered := standsRoot.drainExiled_ordered (ordered root rfl)
      have standsDone := (drained.commit positive false).1
      have committed : (root.drainExiled.1.commit N 0 false).result.Everywhere
          TrieNodeExt.IsSettled anyDigest 0 := by
        refine drained.commit_isSettled_of_children positive drainedOrdered ?_
        refine ((TrieNodeExt.everywhere_iff.mp drainedOrdered).2.and drained.children).imp ?_
        rintro child ⟨ordered, below, standsBelow⟩
        exact standsBelow.commit_isSettled positive ordered
      obtain ⟨here, below⟩ := TrieNodeExt.everywhere_iff.mp committed
      have truncated : (root.drainExiled.1.commit N 0 false).result.truncateLoaded.Everywhere
          TrieNodeExt.IsSettled anyDigest 0 := by
        refine standsDone.truncateLoaded_isSettled_of_children here ?_
        refine (below.and standsDone.children).imp ?_
        rintro child ⟨settled, below, standsBelow⟩
        exact standsBelow.truncateLoaded_isSettled settled
      have standsTruncated := standsDone.truncateLoaded
      refine standsTruncated.fillHash_as.everywhere ?_ standsTruncated
        standsTruncated.fillHash.1 truncated
      exact fun _ _ _ _ _ _ filled settled => filled.isSettled settled
    · cases done

/-- After a flush every node in memory is settled, if no large node waited for a commit. -/
theorem flushAll_isSettled (represents : tree.Represents trie) (positive : N ≠ 0)
    (ordered : tree.Everywhere TrieNodeExt.Ordered anyDigest)
    (waits : tree.Everywhere (TrieNodeExt.DoneBelow N) anyDigest)
    (done : tree.flushAll N = .ok after) : after.Everywhere TrieNodeExt.IsSettled anyDigest := by
  obtain ⟨db, root, delOps⟩ := tree
  cases root with
  | none =>
    cases done
    intro root no
    cases no
  | some root =>
    have standsRoot : root.Stands trie := represents.root
    rw [flushAll] at done
    dsimp only at done
    split at done
    · cases done
      intro result same
      cases same
      obtain ⟨here, below⟩ := TrieNodeExt.everywhere_iff.mp (ordered root rfl)
      obtain ⟨-, doneBelow⟩ := TrieNodeExt.everywhere_iff.mp (waits root rfl)
      have visits : ¬ root.Skips N 0 true := by
        rintro (⟨no, -⟩ | ⟨-, no⟩)
        · exact positive (Nat.le_zero.mp no)
        · cases no
      refine standsRoot.visit_isSettled positive visits ?_
      refine ((below.and doneBelow).and (here.and standsRoot.children)).imp ?_
      rintro child ⟨⟨ordered, done⟩, least, trie, standsChild⟩
      have known := standsChild.flush_isSettled positive ordered done
      exact ⟨fun filled => known.1 (least.less (Commit.progress_pos.mpr filled)), known.2⟩
    · cases done

omit [RlpHasher H] in
theorem ordered_of_isSettled (settled : tree.Everywhere TrieNodeExt.IsSettled anyDigest) :
    tree.Everywhere TrieNodeExt.Ordered anyDigest := fun root opened =>
  ChildRef.everywhere_owned.mp (ChildRef.everywhere_owned.mpr (settled root opened)).ordered

end MerklePatriciaTree

end AuthStorage.RainblockTrie
