/-
This file says what the nodes in memory rely on in the store. The marks matter for it:
a commit drops the children of a marked node, wherever they are, so below a marked
node every committed node has to be saved, above the boundary as well. Reads and
writes keep this; and whatever a node relies on, it accounts for.
-/

import AuthStorage.RainblockTrie.Saved

namespace AuthStorage.RainblockTrie

open AuthStorage.Lvmt (Bytes DBColumn)

variable {H : Type} [RlpHasher H] {N depth : Nat} {saved : H → Prop}

/-- At the boundary and below it, and below a marked node, a committed node is saved or exiled. -/
structure TrieNodeExt.Guarded (N : Nat) (saved : H → Prop) (depth : Nat) (me : NodePtr H) :
    Prop where
  kept : me.Kept N saved depth
  below : me.cells.loaded = true → me.node.AllChildren
    (ChildRef.Everywhere (TrieNodeExt.Kept 0 saved) (Complete saved) (depth + 1))

/-! ### Kept and guarded nodes -/

/-- Where every committed node is kept, the marks do not matter. -/
theorem ChildRef.Everywhere.guarded {child : ChildRef H}
    (holds : child.Everywhere (TrieNodeExt.Kept 0 saved) (Complete saved) depth) :
    child.Everywhere (TrieNodeExt.Guarded N saved) (Complete saved) depth := by
  induction child using ChildRef.induction generalizing depth with
  | null => trivial
  | ref found => exact holds
  | owned me inductionHypothesis =>
    obtain ⟨here, below⟩ := ChildRef.everywhere_owned_iff.mp holds
    refine ChildRef.everywhere_owned_iff.mpr
      ⟨⟨fun _ => here (Nat.zero_le depth), fun _ => below⟩, ?_⟩
    exact (inductionHypothesis.and below).imp fun _ both => both.1 both.2

/-- At the boundary and below it every committed node is kept. -/
theorem ChildRef.Everywhere.kept_of_guarded {child : ChildRef H} (boundary : N ≤ depth)
    (holds : child.Everywhere (TrieNodeExt.Guarded N saved) (Complete saved) depth) :
    child.Everywhere (TrieNodeExt.Kept 0 saved) (Complete saved) depth := by
  induction child using ChildRef.induction generalizing depth with
  | null => trivial
  | ref found => exact holds
  | owned me inductionHypothesis =>
    obtain ⟨here, below⟩ := ChildRef.everywhere_owned_iff.mp holds
    refine ChildRef.everywhere_owned_iff.mpr ⟨fun _ => here.kept boundary, ?_⟩
    exact (inductionHypothesis.and below).imp fun _ both =>
      both.1 (Nat.le_succ_of_le boundary) both.2

omit [RlpHasher H] in
theorem TrieNodeExt.Kept.imp {other : H → Prop} {me : NodePtr H} (kept : me.Kept N saved depth)
    (implies : ∀ wanted, saved wanted → other wanted) : me.Kept N other depth :=
  fun boundary committed notExiled found same =>
    implies found (kept boundary committed notExiled found same)

/-- More may be saved. -/
theorem TrieNodeExt.Guarded.imp {other : H → Prop} {me : NodePtr H}
    (guarded : me.Guarded N saved depth) (implies : ∀ wanted, saved wanted → other wanted) :
    me.Guarded N other depth :=
  ⟨guarded.kept.imp implies, fun loaded => (guarded.below loaded).imp fun _ below =>
    below.imp (fun _ _ kept => kept.imp implies) fun _ complete => complete.imp implies⟩

section

variable [CollisionFree H] {first second : H → Prop}

theorem Complete.and {found : H} (complete : Complete first found)
    (complete' : Complete second found) :
    Complete (fun wanted => first wanted ∧ second wanted) found := by
  obtain ⟨trie, rfl, large, all⟩ := complete
  obtain ⟨other, same, -, all'⟩ := complete'
  obtain rfl : trie = other := encode_injective (CollisionFree.hash_injective same)
  exact ⟨trie, rfl, large, fun wanted stored => ⟨all wanted stored, all' wanted stored⟩⟩

theorem ChildRef.Everywhere.kept_and {child : ChildRef H}
    (holds : child.Everywhere (TrieNodeExt.Kept N first) (Complete first) depth)
    (holds' : child.Everywhere (TrieNodeExt.Kept N second) (Complete second) depth) :
    child.Everywhere (TrieNodeExt.Kept N fun wanted => first wanted ∧ second wanted)
      (Complete fun wanted => first wanted ∧ second wanted) depth :=
  (holds.and holds').imp
    (fun _ _ both boundary committed notExiled found same =>
      ⟨both.1 boundary committed notExiled found same,
        both.2 boundary committed notExiled found same⟩)
    fun _ both => both.1.and both.2

theorem ChildRef.Everywhere.guarded_and {child : ChildRef H}
    (holds : child.Everywhere (TrieNodeExt.Guarded N first) (Complete first) depth)
    (holds' : child.Everywhere (TrieNodeExt.Guarded N second) (Complete second) depth) :
    child.Everywhere (TrieNodeExt.Guarded N fun wanted => first wanted ∧ second wanted)
      (Complete fun wanted => first wanted ∧ second wanted) depth := by
  refine (holds.and holds').imp (fun depth me both => ⟨?_, fun loaded => ?_⟩)
    fun _ both => both.1.and both.2
  · intro boundary committed notExiled found same
    exact ⟨both.1.kept boundary committed notExiled found same,
      both.2.kept boundary committed notExiled found same⟩
  · exact ((both.1.below loaded).and (both.2.below loaded)).imp fun _ kept => kept.1.kept_and kept.2

end

/-! ### Reads and writes -/

/-- Loading below the boundary marks a node of which every child is kept. -/
theorem Opens.guarded [CollisionFree H] {db : DBColumn} (honest : HonestStore H db)
    {me after : NodePtr H} (opens : Opens N db depth me after)
    (holds : me.Everywhere (TrieNodeExt.Guarded N saved) (Complete saved) depth) :
    after.Everywhere (TrieNodeExt.Guarded N saved) (Complete saved) depth := by
  have loads : ∀ found me depth, Complete saved found → TrieNodeExt.load db found = .ok me →
      me.Everywhere (TrieNodeExt.Kept 0 saved) (Complete saved) depth :=
    fun _ _ depth complete done => load_kept honest complete done depth
  induction opens with
  | refl => exact holds
  | @child depth me index before child after isLoaded node found held below set
      inductionHypothesis =>
    obtain ⟨here, children⟩ := TrieNodeExt.everywhere_iff.mp holds
    have keptChild : before.Everywhere (TrieNodeExt.Kept 0 saved) (Complete saved) (depth + 1) →
        child.Everywhere (TrieNodeExt.Kept 0 saved) (Complete saved) (depth + 1) := by
      intro keptBefore
      cases held with
      | owned => exact ChildRef.everywhere_owned.mp keptBefore
      | loaded stored =>
        rw [ChildRef.Everywhere.eq_def] at keptBefore
        exact loads _ _ _ keptBefore stored
    have guardedChild : child.Everywhere (TrieNodeExt.Guarded N saved) (Complete saved)
        (depth + 1) := by
      have guardedBefore := children.childAt found
      cases held with
      | owned => exact ChildRef.everywhere_owned.mp guardedBefore
      | loaded stored =>
        rw [ChildRef.Everywhere.eq_def] at guardedBefore
        exact ChildRef.everywhere_owned.mp
          (ChildRef.everywhere_owned.mpr (loads _ _ _ guardedBefore stored)).guarded
    have guardedAfter := ChildRef.everywhere_owned.mpr (inductionHypothesis guardedChild)
    have guardedNode := children.others.all set guardedAfter
    refine TrieNodeExt.everywhere_iff.mpr ⟨⟨here.kept, fun marked => ?_⟩, guardedNode⟩
    rcases Bool.or_eq_true_iff.mp marked with loaded | opened
    · have keptBelow := here.below loaded
      have keptAfter := below.everywhere (fun _ _ _ _ kept => kept) loads
        (keptChild (keptBelow.childAt found))
      exact keptBelow.others.all set (ChildRef.everywhere_owned.mpr keptAfter)
    · have boundary : N ≤ depth + 1 := of_decide_eq_true (Bool.and_eq_true_iff.mp opened).2
      exact guardedNode.imp fun _ guarded => guarded.kept_of_guarded boundary

theorem survives_guarded [CollisionFree H] (N : Nat) (saved : H → Prop) {db : DBColumn}
    (honest : HonestStore H db) :
    Survives N db (TrieNodeExt.Guarded (H := H) N saved) (Complete saved) where
  working depth node := ⟨TrieNodeExt.kept_working depth node, fun no => by cases no⟩
  loads _ _ depth complete done := ChildRef.everywhere_owned.mp
    (ChildRef.everywhere_owned.mpr (load_kept honest complete done depth)).guarded
  opens _ _ _ opens holds := opens.guarded honest holds
  rises _ _ guarded := ⟨fun boundary => guarded.kept (Nat.le_succ_of_le boundary),
    fun loaded => (guarded.below loaded).imp fun _ below =>
      below.shallower fun _ _ kept boundary => kept (Nat.le_succ_of_le boundary)⟩

/-- A subtree that goes one level deeper is exiled where it crosses the boundary. -/
theorem ChildRef.Everywhere.exile {child : ChildRef H}
    (holds : child.Everywhere (TrieNodeExt.Guarded N saved) (Complete saved) depth) :
    (child.exile N (depth + 1)).Everywhere (TrieNodeExt.Guarded N saved) (Complete saved)
      (depth + 1) := by
  have deepens : ∀ {child : ChildRef H} {depth : Nat}, N ≤ depth →
      child.Everywhere (TrieNodeExt.Guarded N saved) (Complete saved) depth →
      child.Everywhere (TrieNodeExt.Guarded N saved) (Complete saved) (depth + 1) :=
    fun {_ depth} boundary holds =>
      ((holds.kept_of_guarded boundary).deeper (Nat.zero_le depth)).guarded
  induction child using ChildRef.induction generalizing depth with
  | null => trivial
  | ref found => exact holds
  | owned me inductionHypothesis =>
    obtain ⟨here, below⟩ := ChildRef.everywhere_owned_iff.mp holds
    have lower : me.cells.loaded = true → me.node.AllChildren
        (ChildRef.Everywhere (TrieNodeExt.Kept 0 saved) (Complete saved) (depth + 2)) :=
      fun loaded => (here.below loaded).imp fun _ below => below.deeper (Nat.zero_le _)
    show (ChildRef.owned (me.exile N (depth + 1))).Everywhere _ _ _
    rw [TrieNodeExt.exile_eq]
    split
    · next beyond => exact deepens (Nat.lt_succ_iff.mp beyond) holds
    split
    · next boundary =>
      refine ChildRef.everywhere_owned_iff.mpr ⟨⟨fun _ _ no => (by cases no), lower⟩, ?_⟩
      exact below.imp fun _ below => deepens (le_of_eq boundary.symm) below
    · next above other =>
      refine ChildRef.everywhere_owned_iff.mpr
        ⟨⟨fun boundary => absurd boundary (by omega), fun loaded => ?_⟩,
          TrieNode.allChildren_mapChildren.mpr ?_⟩
      · exact TrieNode.allChildren_mapChildren.mpr
          ((lower loaded).imp fun _ below => below.markExile (depth + 2))
      · exact (inductionHypothesis.and below).imp fun _ both => both.1 both.2

/-! ### What is accounted for -/

/-- Whatever a subtree relies on, it accounts for. -/
theorem ChildRef.Stands.kept_of_accounts {child : ChildRef H} {trie : Trie}
    (stands : child.Stands trie) (accounts : ∀ wanted, child.Accounts wanted → saved wanted) :
    child.Everywhere (TrieNodeExt.Kept 0 saved) (Complete saved) depth := by
  induction child using ChildRef.induction generalizing depth trie with
  | null => trivial
  | ref found =>
    obtain ⟨large, rfl⟩ := stands
    exact ⟨trie, rfl, large, fun wanted stored => accounts wanted ⟨trie, rfl, stored⟩⟩
  | owned me inductionHypothesis =>
    have standsMe := (ChildRef.stands_owned.mp stands).1
    have accounted : ∀ wanted, me.Accounts wanted → saved wanted :=
      fun wanted held => accounts wanted (ChildRef.accounts_owned.mpr held)
    refine ChildRef.everywhere_owned_iff.mpr ⟨?_, ?_⟩
    · exact fun _ committed _ found same =>
        accounted found (TrieNodeExt.accounts_iff.mpr (.inl ⟨committed, same⟩))
    · have each := TrieNode.forall_of_any fun wanted any =>
        accounted wanted (TrieNodeExt.accounts_iff.mpr (.inr any))
      refine ((inductionHypothesis.and each).and standsMe.children).imp ?_
      rintro child ⟨⟨known, accounts⟩, trie, standsChild⟩
      exact known standsChild accounts

theorem TrieNodeExt.Stands.guarded_of_accounts {me : NodePtr H} {trie : Trie}
    (stands : me.Stands trie) (accounts : ∀ wanted, me.Accounts wanted → saved wanted) :
    me.Everywhere (TrieNodeExt.Guarded N saved) (Complete saved) depth := by
  have each := TrieNode.forall_of_any fun wanted any =>
    accounts wanted (TrieNodeExt.accounts_iff.mpr (.inr any))
  have below : me.node.AllChildren
      (ChildRef.Everywhere (TrieNodeExt.Kept 0 saved) (Complete saved) (depth + 1)) := by
    refine (each.and stands.children).imp ?_
    rintro child ⟨accounts, trie, standsChild⟩
    exact standsChild.kept_of_accounts accounts
  refine TrieNodeExt.everywhere_iff.mpr ⟨⟨?_, fun _ => below⟩, below.imp fun _ kept => kept.guarded⟩
  exact fun _ committed _ found same =>
    accounts found (TrieNodeExt.accounts_iff.mpr (.inl ⟨committed, same⟩))

/-! ### What is saved -/

/-- Below a marked node the boundary does not matter. -/
theorem ChildRef.Saved.anywhere {child : ChildRef H} (holds : child.Saved N saved true depth) :
    child.Saved 0 saved true depth := by
  induction child using ChildRef.induction generalizing depth with
  | null => trivial
  | ref found => exact holds
  | owned me inductionHypothesis =>
    obtain ⟨here, below⟩ := TrieNodeExt.saved_iff.mp (ChildRef.saved_owned.mp holds)
    refine ChildRef.saved_owned.mpr (TrieNodeExt.saved_iff.mpr ⟨fun _ => here (.inr rfl), ?_⟩)
    rw [Bool.true_or] at below ⊢
    exact (inductionHypothesis.and below).imp fun _ both => both.1 both.2

/-- Where every large node that a commit relies on is saved, the children of a node are guarded, and
below a marked one every committed node is kept. -/
theorem TrieNodeExt.Stands.guarded_of_children {me : NodePtr H} {trie : Trie} {marked : Bool}
    (stands : me.Stands trie) (holds : me.Saved N saved marked depth) (kept : me.Kept N saved depth)
    (each : me.node.AllChildren fun child => ∀ below : Trie, child.Stands below →
      child.Saved N saved (marked || me.cells.loaded) (depth + 1) →
        child.Everywhere (TrieNodeExt.Guarded N saved) (Complete saved) (depth + 1)) :
    me.Everywhere (TrieNodeExt.Guarded N saved) (Complete saved) depth := by
  have below := (TrieNodeExt.saved_iff.mp holds).2.and stands.children
  refine TrieNodeExt.everywhere_iff.mpr
    ⟨⟨kept, fun loaded => below.imp ?_⟩, (each.and below).imp ?_⟩
  · rintro child ⟨holdsChild, below, standsBelow⟩
    rw [loaded, Bool.or_true] at holdsChild
    exact standsBelow.kept_of_saved holdsChild.anywhere
  · rintro child ⟨known, holdsChild, below, standsBelow⟩
    exact known below standsBelow holdsChild

theorem ChildRef.Stands.guarded_of_saved {child : ChildRef H} {trie : Trie} {marked : Bool}
    (stands : child.Stands trie) (holds : child.Saved N saved marked depth) :
    child.Everywhere (TrieNodeExt.Guarded N saved) (Complete saved) depth := by
  induction child using ChildRef.induction generalizing depth marked trie with
  | null => trivial
  | ref found => exact holds
  | owned me inductionHypothesis =>
    have kept := ChildRef.everywhere_owned.mp (stands.kept_of_saved holds)
    refine ChildRef.everywhere_owned.mpr ((ChildRef.stands_owned.mp stands).1.guarded_of_children
      (ChildRef.saved_owned.mp holds) (TrieNodeExt.everywhere_iff.mp kept).1 ?_)
    exact inductionHypothesis.imp fun _ known below standsBelow holdsBelow =>
      known standsBelow holdsBelow

/-- The root is never at the boundary. -/
theorem TrieNodeExt.Stands.guarded_of_saved (positive : N ≠ 0) {me : NodePtr H} {trie : Trie}
    {marked : Bool} (stands : me.Stands trie) (holds : me.Saved N saved marked 0) :
    me.Everywhere (TrieNodeExt.Guarded N saved) (Complete saved) 0 :=
  stands.guarded_of_children holds (fun boundary => absurd (Nat.le_zero.mp boundary) positive)
    (.of_forall (fun _ _ standsBelow holdsBelow => standsBelow.guarded_of_saved holdsBelow) _)

/-! ### Filling the cells -/

section

variable {me after : NodePtr H} {trie : Trie}

theorem TrieNodeExt.FilledAs.kept (filled : me.FilledAs after) (stands : me.Stands trie)
    (standsAfter : after.Stands trie) (kept : me.Kept N saved depth) :
    after.Kept N saved depth := by
  intro boundary committed notExiled found same
  have status := (TrieNodeExt.stands_iff.mp stands).2.status
  rw [filled.committed.mp committed] at status
  rw [(TrieNodeExt.stands_iff.mp standsAfter).2.hash found same]
  exact kept boundary (filled.committed.mp committed) (filled.exiled ▸ notExiled) _ status.2

theorem ChildRef.Stands.fill_kept {known : H → Prop} {child : ChildRef H}
    (stands : child.Stands trie) (holds : child.Everywhere (TrieNodeExt.Kept N saved) known depth) :
    child.fill.Everywhere (TrieNodeExt.Kept N saved) known depth := by
  refine ChildRef.Stands.fill_everywhere ?_ stands holds
  exact fun _ _ _ _ stands standsAfter filled kept => filled.kept stands standsAfter kept

theorem TrieNodeExt.FilledAs.guarded (filled : me.FilledAs after) (stands : me.Stands trie)
    (standsAfter : after.Stands trie) (guarded : me.Guarded N saved depth) :
    after.Guarded N saved depth := by
  refine ⟨filled.kept stands standsAfter guarded.kept, fun loaded => ?_⟩
  refine filled.children (guarded.below (filled.loaded ▸ loaded)) ?_
  refine stands.children.imp ?_
  rintro child ⟨below, standsBelow⟩
  exact standsBelow.fill_kept

theorem ChildRef.Stands.fill_guarded {known : H → Prop} {child : ChildRef H}
    (stands : child.Stands trie)
    (holds : child.Everywhere (TrieNodeExt.Guarded N saved) known depth) :
    child.fill.Everywhere (TrieNodeExt.Guarded N saved) known depth := by
  refine ChildRef.Stands.fill_everywhere ?_ stands holds
  exact fun _ _ _ _ stands standsAfter filled guarded => filled.guarded stands standsAfter guarded

end

namespace MerklePatriciaTree

/-- The tree relies on nothing that is not saved. -/
abbrev Guarded (N : Nat) (saved : H → Prop) (tree : MerklePatriciaTree H) : Prop :=
  tree.Everywhere (TrieNodeExt.Guarded N saved) (Complete saved)

variable {tree : MerklePatriciaTree H} {trie : Trie}

theorem rootHash_guarded (represents : tree.Represents trie) (guarded : tree.Guarded N saved) :
    tree.rootHash.2.Guarded N saved := by
  intro root same
  obtain ⟨before, opened, rfl⟩ := Option.map_eq_some_iff.mp same
  have standsRoot := represents.root
  rw [opened] at standsRoot
  exact (TrieNodeExt.Stands.fillHash_as standsRoot).everywhere
    (fun _ _ _ _ stands standsAfter filled guarded => filled.guarded stands standsAfter guarded)
    standsRoot (TrieNodeExt.Stands.fillHash standsRoot).1 (guarded before opened)

end MerklePatriciaTree

end AuthStorage.RainblockTrie
