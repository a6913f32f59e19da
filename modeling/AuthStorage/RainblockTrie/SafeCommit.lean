/-
This file proves that a commit loses nothing the tree relies on, where the tree relies
on nothing that is to be deleted, no child is behind its parent, and no large node of
the top layer waits below a marked node to be dropped. It writes the large nodes below
the boundary that are not settled, so all that it drops for a digest is complete in
the store. A flush of the top layer loses nothing under the same condition.
-/

import AuthStorage.RainblockTrie.Guarded
import AuthStorage.RainblockTrie.Progress

namespace AuthStorage.RainblockTrie

open AuthStorage.Lvmt (Bytes DBColumn DBOp)

variable {H : Type} [RlpHasher H] {N depth : Nat}

/-! ### The condition -/

/-- A large node of the top layer is committed. -/
def TrieNodeExt.DoneAbove (N depth : Nat) (me : NodePtr H) : Prop := depth < N → me.Done

instance (N depth : Nat) (me : NodePtr H) : Decidable (me.DoneAbove N depth) :=
  inferInstanceAs (Decidable (_ → _))

/-- Below a marked node, the large nodes of the top layer are committed. -/
def TrieNodeExt.DropsDone (N depth : Nat) (me : NodePtr H) : Prop :=
  me.cells.loaded = true →
    me.node.AllChildren (ChildRef.Everywhere (TrieNodeExt.DoneAbove N) anyDigest (depth + 1))

instance (N depth : Nat) (me : NodePtr H) : Decidable (me.DropsDone N depth) :=
  inferInstanceAs (Decidable (_ → _))

/-! ### From the condition to what is saved -/

/-- What is known of a subtree before a commit. -/
structure ChildRef.Safe (N : Nat) (secure lasts : H → Prop) (marked : Bool) (depth : Nat)
    (child : ChildRef H) : Prop where
  guarded : child.Everywhere (TrieNodeExt.Guarded N secure) (Complete secure) depth
  ordered : child.Everywhere TrieNodeExt.Ordered anyDigest depth
  drops : child.Everywhere (TrieNodeExt.DropsDone N) anyDigest depth
  exiles : ∀ wanted, ¬ child.Everywhere (TrieNodeExt.ExilesNot wanted) anyDigest depth →
    lasts wanted
  /-- A commit comes to the subtree, or passed by a node above it. -/
  notice : (∀ wanted, child.Due N wanted depth → lasts wanted) ∨
    child.Everywhere TrieNodeExt.IsSettled anyDigest depth
  below : marked = true →
    child.Everywhere (TrieNodeExt.Kept 0 secure) (Complete secure) depth ∧
      child.Everywhere (TrieNodeExt.DoneAbove N) anyDigest depth

variable {secure lasts : H → Prop} {marked : Bool}

/-- What is known of a node is known of its children. -/
theorem ChildRef.Safe.children {me : NodePtr H}
    (safe : (ChildRef.owned me).Safe N secure lasts marked depth) :
    me.node.AllChildren
      (ChildRef.Safe N secure lasts (marked || me.cells.loaded) (depth + 1)) := by
  obtain ⟨guardedHere, guarded⟩ := ChildRef.everywhere_owned_iff.mp safe.guarded
  obtain ⟨-, ordered⟩ := ChildRef.everywhere_owned_iff.mp safe.ordered
  obtain ⟨dropsHere, drops⟩ := ChildRef.everywhere_owned_iff.mp safe.drops
  have exiles : me.node.AllChildren fun child => ∀ wanted,
      ¬ child.Everywhere (TrieNodeExt.ExilesNot wanted) anyDigest (depth + 1) → lasts wanted :=
    TrieNode.forall_of_any fun wanted any => safe.exiles wanted fun all =>
      any.not_all (ChildRef.everywhere_owned_iff.mp all).2
  have notice : me.node.AllChildren fun child =>
      (∀ wanted, child.Due N wanted (depth + 1) → lasts wanted) ∨
        child.Everywhere TrieNodeExt.IsSettled anyDigest (depth + 1) := by
    by_cases settled : me.cells.Settled
    · have all := safe.ordered.isSettled (Cells.settled_iff.mp settled)
      exact (ChildRef.everywhere_owned_iff.mp all).2.imp fun _ => .inr
    · rcases safe.notice with due | all
      · refine (TrieNode.forall_of_any fun wanted any => due wanted ?_).imp fun _ => .inl
        exact ChildRef.due_owned.mpr (TrieNodeExt.due_iff.mpr ⟨settled, .inr any⟩)
      · exact absurd (ChildRef.everywhere_owned_iff.mp all).1 settled
  have below : me.node.AllChildren fun child => (marked || me.cells.loaded) = true →
      child.Everywhere (TrieNodeExt.Kept 0 secure) (Complete secure) (depth + 1) ∧
        child.Everywhere (TrieNodeExt.DoneAbove N) anyDigest (depth + 1) := by
    by_cases above : (marked || me.cells.loaded) = true
    · rcases Bool.or_eq_true_iff.mp above with above | loaded
      · obtain ⟨kept, done⟩ := safe.below above
        exact ((ChildRef.everywhere_owned_iff.mp kept).2.and
          (ChildRef.everywhere_owned_iff.mp done).2).imp fun _ both _ => both
      · exact ((guardedHere.below loaded).and (dropsHere loaded)).imp fun _ both _ => both
    · exact .of_forall (fun _ no => absurd no above) _
  refine (((((guarded.and ordered).and drops).and exiles).and notice).and below).imp ?_
  rintro child ⟨⟨⟨⟨⟨guarded, ordered⟩, drops⟩, exiles⟩, notice⟩, below⟩
  exact ⟨guarded, ordered, drops, exiles, notice, below⟩

variable (secures : ∀ wanted, secure wanted → lasts wanted)

include secures

/-- The node itself is saved, if it has to be. -/
theorem ChildRef.Safe.own {me : NodePtr H} {trie : Trie} (stands : me.Stands trie)
    (safe : (ChildRef.owned me).Safe N secure lasts marked depth)
    (deep : N ≤ depth ∨ marked = true) (large : 32 ≤ me.getRlpEncode.length) : lasts me.hash := by
  cases exiled : me.cells.exiled with
  | true =>
    refine safe.exiles me.hash fun all => ?_
    exact (ChildRef.everywhere_owned_iff.mp all).1 exiled rfl
  | false =>
    have status := (TrieNodeExt.stands_iff.mp stands).2.status
    by_cases committed : me.cells.commited = .committed
    · -- its entry is there, and stays
      rw [committed] at status
      rw [stands.hash_eq]
      rcases deep with boundary | above
      · have guarded := (ChildRef.everywhere_owned_iff.mp safe.guarded).1
        exact secures _ (guarded.kept boundary committed exiled _ status.2)
      · have kept := (ChildRef.everywhere_owned_iff.mp (safe.below above).1).1
        exact secures _ (kept (Nat.zero_le depth) committed exiled _ status.2)
    · -- it is below the boundary, and the commit comes to it
      have boundary : N ≤ depth := by
        refine deep.elim id fun above => Nat.le_of_not_lt fun top => committed ?_
        exact (ChildRef.everywhere_owned_iff.mp (safe.below above).2).1 top large
      have unsettled : ¬ me.cells.Settled := by
        rintro (no | light)
        · exact committed no
        · rw [light] at status
          rw [stands.getRlpEncode_eq] at large
          exact absurd status.2 (Nat.not_lt.mpr large)
      rcases safe.notice with due | all
      · exact due me.hash (ChildRef.due_owned.mpr
          (TrieNodeExt.due_iff.mpr ⟨unsettled, .inl ⟨boundary, large, rfl⟩⟩))
      · exact absurd (ChildRef.everywhere_owned_iff.mp all).1 unsettled

theorem ChildRef.Safe.saved_of_children {me : NodePtr H} {trie : Trie} (stands : me.Stands trie)
    (safe : (ChildRef.owned me).Safe N secure lasts marked depth)
    (each : me.node.AllChildren fun child => ∀ below : Trie, child.Stands below →
      child.Safe N secure lasts (marked || me.cells.loaded) (depth + 1) →
        child.Saved N lasts (marked || me.cells.loaded) (depth + 1)) :
    me.Saved N lasts marked depth := by
  refine TrieNodeExt.saved_iff.mpr ⟨safe.own secures stands, ?_⟩
  refine ((each.and safe.children).and stands.children).imp ?_
  rintro child ⟨⟨known, safeChild⟩, below, standsBelow⟩
  exact known below standsBelow safeChild

theorem ChildRef.Safe.saved {child : ChildRef H} {trie : Trie} (stands : child.Stands trie)
    (safe : child.Safe N secure lasts marked depth) : child.Saved N lasts marked depth := by
  induction child using ChildRef.induction generalizing depth marked trie with
  | null => trivial
  | ref found =>
    have complete := safe.guarded
    rw [ChildRef.Everywhere.eq_def] at complete
    exact complete.imp secures
  | owned me inductionHypothesis =>
    refine ChildRef.saved_owned.mpr
      (safe.saved_of_children secures (ChildRef.stands_owned.mp stands).1 ?_)
    exact inductionHypothesis.imp fun _ known below standsBelow safeBelow =>
      known standsBelow safeBelow

theorem ChildRef.Safe.saved_node {me : NodePtr H} {trie : Trie} (stands : me.Stands trie)
    (safe : (ChildRef.owned me).Safe N secure lasts marked depth) :
    me.Saved N lasts marked depth :=
  safe.saved_of_children secures stands
    (.of_forall (fun _ _ standsBelow safeBelow => safeBelow.saved secures standsBelow) _)

omit secures

/-! ### Flushing -/

section

variable {saved : H → Prop} {trie : Trie} (positive : N ≠ 0)

include positive

/-- What a flush leaves of a node it visits. -/
theorem TrieNodeExt.Stands.flush_finished {me : NodePtr H} (stands : me.Stands trie)
    (visits : ¬ me.Skips N depth true) :
    (me.commit N depth true).result.Stands trie ∧ TrieNodeExt.Finished
      ⟨me.node.mapChildren fun child => (child.commit N (depth + 1) true).result, me.cells⟩
      (me.commit N depth true).result := by
  have standsBelow := stands.committedBelow positive true depth
  obtain ⟨result, standsResult, finished, same⟩ := standsBelow.finishCommit_result N depth true
    (me.node.commitChildren N (depth + 1) true).putOps
    (me.node.commitChildren N (depth + 1) true).asserted
  rw [if_neg fun both => Bool.noConfusion both.2] at same
  rw [TrieNodeExt.commit_of_not_skips visits]
  dsimp only
  rw [same]
  rw [TrieNode.commitChildren_result] at finished
  exact ⟨standsResult, finished⟩

theorem TrieNodeExt.Stands.flush_children {me : NodePtr H} {property : ChildRef H → Prop}
    (stands : me.Stands trie) (visits : ¬ me.Skips N depth true)
    (each : me.node.AllChildren fun child => property (child.commit N (depth + 1) true).result)
    (fills : ∀ (child : ChildRef H) (below : Trie), child.Stands below → property child →
      property child.fill) :
    (me.commit N depth true).result.node.AllChildren property := by
  have standsBelow := stands.committedBelow positive true depth
  rw [TrieNode.commitChildren_result] at standsBelow
  refine (stands.flush_finished positive visits).2.children standsBelow
    (TrieNode.allChildren_mapChildren.mpr each) ?_
  refine standsBelow.children.imp ?_
  rintro child ⟨below, standsChild⟩
  exact fills child below standsChild

/-- Where the large nodes of the top layer are committed, a flush commits no node anew. -/
theorem ChildRef.Stands.flush_kept {child : ChildRef H} (stands : child.Stands trie)
    (holds : child.Everywhere (TrieNodeExt.Kept 0 saved) (Complete saved) (depth + 1))
    (done : child.Everywhere (TrieNodeExt.DoneAbove N) anyDigest (depth + 1)) :
    (child.commit N (depth + 1) true).result.Everywhere (TrieNodeExt.Kept 0 saved)
      (Complete saved) (depth + 1) := by
  induction child using ChildRef.induction generalizing depth trie with
  | null => trivial
  | ref found => exact holds
  | owned me inductionHypothesis =>
    obtain ⟨here, below⟩ := ChildRef.everywhere_owned_iff.mp holds
    obtain ⟨doneHere, doneBelow⟩ := ChildRef.everywhere_owned_iff.mp done
    have standsMe := (ChildRef.stands_owned.mp stands).1
    have standsDone : ((ChildRef.owned me).commit N (depth + 1) true).result.Stands trie :=
      (stands.commit positive true).1
    obtain ⟨-, large⟩ := ChildRef.stands_owned.mp standsDone
    refine ChildRef.everywhere_owned_iff.mpr ?_
    by_cases skips : me.Skips N (depth + 1) true
    · rw [TrieNodeExt.commit_of_skips skips]
      exact ⟨here, below⟩
    · obtain ⟨standsResult, finished⟩ := standsMe.flush_finished positive skips
      refine ⟨?_, standsMe.flush_children positive skips ?_ fun _ _ standsChild kept =>
        standsChild.fill_kept kept⟩
      · intro _ committed notExiled found cached
        have top : depth + 1 < N := Nat.lt_of_not_le fun no => skips (.inl ⟨no, rfl⟩)
        have before := doneHere top (by rw [standsMe.getRlpEncode_eq]; exact large committed)
        have status := (TrieNodeExt.stands_iff.mp standsMe).2.status
        rw [before] at status
        rw [finished.exiled] at notExiled
        rw [(TrieNodeExt.stands_iff.mp standsResult).2.hash found cached]
        exact here (Nat.zero_le _) before notExiled _ status.2
      · refine ((inductionHypothesis.and below).and (doneBelow.and standsMe.children)).imp ?_
        rintro child ⟨⟨known, kept⟩, done, trie, standsChild⟩
        exact known standsChild kept done

/-- A flush visits the nodes above the boundary only, and what a marked one will drop stays. -/
theorem TrieNodeExt.Stands.flush_guarded_of_children {me : NodePtr H} (stands : me.Stands trie)
    (holds : me.Everywhere (TrieNodeExt.Guarded N saved) (Complete saved) depth)
    (drops : me.DropsDone N depth)
    (each : me.node.AllChildren fun child => (child.commit N (depth + 1) true).result.Everywhere
      (TrieNodeExt.Guarded N saved) (Complete saved) (depth + 1)) :
    (me.commit N depth true).result.Everywhere (TrieNodeExt.Guarded N saved) (Complete saved)
      depth := by
  by_cases skips : me.Skips N depth true
  · rwa [TrieNodeExt.commit_of_skips skips]
  · obtain ⟨here, -⟩ := TrieNodeExt.everywhere_iff.mp holds
    refine TrieNodeExt.everywhere_iff.mpr ⟨⟨?_, fun loaded => ?_⟩,
      stands.flush_children positive skips each fun _ _ standsChild guarded =>
        standsChild.fill_guarded guarded⟩
    · exact fun boundary => absurd (.inl ⟨boundary, rfl⟩) skips
    · rw [(stands.flush_finished positive skips).2.loaded] at loaded
      refine stands.flush_children positive skips ?_ fun _ _ standsChild kept =>
        standsChild.fill_kept kept
      refine ((here.below loaded).and ((drops loaded).and stands.children)).imp ?_
      rintro child ⟨kept, done, trie, standsChild⟩
      exact standsChild.flush_kept positive kept done

theorem ChildRef.Stands.flush_guarded {child : ChildRef H} (stands : child.Stands trie)
    (holds : child.Everywhere (TrieNodeExt.Guarded N saved) (Complete saved) depth)
    (drops : child.Everywhere (TrieNodeExt.DropsDone N) anyDigest depth) :
    (child.commit N depth true).result.Everywhere (TrieNodeExt.Guarded N saved) (Complete saved)
      depth := by
  induction child using ChildRef.induction generalizing depth trie with
  | null => trivial
  | ref found => exact holds
  | owned me inductionHypothesis =>
    have holdsMe := ChildRef.everywhere_owned.mp holds
    obtain ⟨dropsHere, dropsBelow⟩ := ChildRef.everywhere_owned_iff.mp drops
    have standsMe := (ChildRef.stands_owned.mp stands).1
    refine ChildRef.everywhere_owned.mpr
      (standsMe.flush_guarded_of_children positive holdsMe dropsHere ?_)
    refine ((inductionHypothesis.and (TrieNodeExt.everywhere_iff.mp holdsMe).2).and
      (dropsBelow.and standsMe.children)).imp ?_
    rintro child ⟨⟨known, guarded⟩, drops, trie, standsChild⟩
    exact known standsChild guarded drops

end

namespace MerklePatriciaTree

variable {tree after : MerklePatriciaTree H} {trie : Trie}

/-- No large node of the top layer waits for a commit below a marked node, which the commit makes
drop its children. -/
def DropsDone (N : Nat) (tree : MerklePatriciaTree H) : Prop :=
  tree.Everywhere (TrieNodeExt.DropsDone N) anyDigest

instance (N : Nat) (tree : MerklePatriciaTree H) : Decidable (tree.DropsDone N) :=
  inferInstanceAs (Decidable (tree.Everywhere _ _))

theorem Guarded.imp {saved other : H → Prop} (guarded : tree.Guarded N saved)
    (implies : ∀ wanted, saved wanted → other wanted) : tree.Guarded N other :=
  fun root opened => ChildRef.everywhere_owned.mp
    ((ChildRef.everywhere_owned.mpr (guarded root opened)).imp
      (fun _ _ guarded => guarded.imp implies) fun _ complete => complete.imp implies)

theorem flushAll_guarded (represents : tree.Represents trie) (positive : N ≠ 0)
    (guarded : tree.Guarded N tree.Secure) (drops : tree.DropsDone N)
    (done : tree.flushAll N = .ok after) : after.Guarded N after.Secure := by
  obtain ⟨db, root, delOps⟩ := tree
  cases root with
  | none =>
    cases done
    exact guarded
  | some root =>
    have standsRoot : root.Stands trie := represents.root
    rw [flushAll] at done
    dsimp only at done
    split at done
    · cases done
      have stays : ∀ wanted : H, Secure ⟨db, some root, delOps⟩ wanted →
          Secure ⟨db.writeBuffered ((root.commit N 0 true).putOps.map putOp),
            some (root.commit N 0 true).result, delOps⟩ wanted :=
        fun wanted secure => ⟨present_of_kept secure.1 delete_not_mem_putOps, secure.2⟩
      refine Guarded.imp ?_ stays
      intro result same
      cases same
      obtain ⟨dropsHere, dropsBelow⟩ := TrieNodeExt.everywhere_iff.mp (drops root rfl)
      refine standsRoot.flush_guarded_of_children positive (guarded root rfl) dropsHere ?_
      refine ((TrieNodeExt.everywhere_iff.mp (guarded root rfl)).2.and
        (dropsBelow.and standsRoot.children)).imp ?_
      rintro child ⟨guarded, drops, trie, standsChild⟩
      exact standsChild.flush_guarded positive guarded drops
    · cases done

/-! ### Committing -/

/-- A commit leaves saved what it has to. -/
theorem commit_saved [CollisionFree H] (represents : tree.Represents trie) (positive : N ≠ 0)
    (guarded : tree.Guarded N tree.Secure)
    (ordered : tree.Everywhere TrieNodeExt.Ordered anyDigest) (drops : tree.DropsDone N)
    {digest : H} (done : tree.commit N = .ok (digest, after)) :
    ∀ root ∈ after.root, root.Saved N (tree.Lasts N) false 0 := by
  obtain ⟨db, root, delOps⟩ := tree
  cases root with
  | none =>
    cases done
    intro root no
    cases no
  | some root =>
    have standsRoot : root.Stands trie := represents.root
    have safe : (ChildRef.owned root).Safe N (Secure ⟨db, some root, delOps⟩)
        (Lasts N ⟨db, some root, delOps⟩) false 0 :=
      ⟨ChildRef.everywhere_owned.mpr (guarded root rfl),
        ChildRef.everywhere_owned.mpr (ordered root rfl),
        ChildRef.everywhere_owned.mpr (drops root rfl),
        fun wanted exiles => .inr ⟨root, rfl, .inr fun all =>
          exiles (ChildRef.everywhere_owned.mpr all)⟩,
        .inl fun wanted due => .inr ⟨root, rfl, .inl (ChildRef.due_owned.mp due)⟩,
        fun no => by cases no⟩
    have saved := safe.saved_node (fun _ => .inl) standsRoot
    rw [commit] at done
    dsimp only at done
    split at done
    · cases done
      intro result same
      cases same
      have drained := standsRoot.drainExiled.1
      have standsDone := (drained.commit positive false).1
      have committed := drained.commit_saved positive false (standsRoot.drainExiled_saved saved)
      exact standsDone.truncateLoaded.fillHash_saved (standsDone.truncateLoaded_saved committed)
    · cases done

/-- A commit forgets what was to be deleted. -/
theorem commit_delOps {digest : H} (done : tree.commit N = .ok (digest, after)) :
    after.delOps = [] := by
  rw [commit] at done
  split at done
  · cases done
    rfl
  · dsimp only at done
    split at done
    · cases done
      rfl
    · cases done

theorem commit_guarded [CollisionFree H] (represents : tree.Represents trie) (positive : N ≠ 0)
    (guarded : tree.Guarded N tree.Secure)
    (ordered : tree.Everywhere TrieNodeExt.Ordered anyDigest) (drops : tree.DropsDone N)
    {digest : H} (done : tree.commit N = .ok (digest, after)) :
    after.Guarded N after.Secure := by
  obtain ⟨expected, returned, represents'⟩ := represents.commit positive
  rw [done] at returned
  cases returned
  have stays : ∀ wanted : H, tree.Lasts N wanted → after.Secure wanted := by
    refine fun wanted lasts => ⟨commit_present represents positive done lasts, ?_⟩
    rw [commit_delOps done]
    exact List.not_mem_nil
  refine Guarded.imp (fun root opened => ?_) stays
  have standsRoot := represents'.root
  rw [opened] at standsRoot
  exact TrieNodeExt.Stands.guarded_of_saved positive standsRoot
    (commit_saved represents positive guarded ordered drops done root opened)

end MerklePatriciaTree

end AuthStorage.RainblockTrie
