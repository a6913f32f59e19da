/-
This file says which digests have an entry in the store after a commit: those that
were stored and are not to be deleted, and those that the commit writes. It writes
the exiled nodes, and the large nodes below the boundary that it visits, on a way
from the root on which no node is settled. Emptying the list of exiled nodes makes
no large node settled, so the visit is the same after it.
-/

import AuthStorage.RainblockTrie.CommitAccounts
import AuthStorage.RainblockTrie.Kept

namespace AuthStorage.RainblockTrie

open AuthStorage.Lvmt (Bytes DBColumn DBOp)

variable {H : Type} [RlpHasher H] {N depth : Nat} {wanted : H}

/-! ### Visited nodes -/

mutual

/-- A commit that comes to the node visits a large node below the boundary that has the digest. -/
def TrieNodeExt.Due (N : Nat) (wanted : H) (depth : Nat) : NodePtr H → Prop
  | ⟨node, cells⟩ => ¬ cells.Settled ∧
    ((N ≤ depth ∧ 32 ≤ (TrieNodeExt.getRlpEncode ⟨node, cells⟩).length ∧
      TrieNodeExt.hash ⟨node, cells⟩ = wanted) ∨ TrieNode.DueBelow N wanted (depth + 1) node)

/-- The commit visits such a node below some child. -/
def TrieNode.DueBelow (N : Nat) (wanted : H) (depth : Nat) : TrieNode (ChildRef H) → Prop
  | .leaf _ _ => False
  | .branch children _ => ∃ index, ChildRef.Due N wanted depth (children index)
  | .extension _ child => ChildRef.Due N wanted depth child

/-- Nothing is visited behind a digest. -/
def ChildRef.Due (N : Nat) (wanted : H) (depth : Nat) : ChildRef H → Prop
  | .null => False
  | .ref _ => False
  | .owned me => TrieNodeExt.Due N wanted depth me

end

theorem TrieNodeExt.due_iff {me : NodePtr H} :
    me.Due N wanted depth ↔ ¬ me.cells.Settled ∧
      ((N ≤ depth ∧ 32 ≤ me.getRlpEncode.length ∧ me.hash = wanted) ∨
        me.node.AnyChild (ChildRef.Due N wanted (depth + 1))) := by
  obtain ⟨node, cells⟩ := me
  rw [TrieNodeExt.Due.eq_def]
  cases node <;> exact Iff.rfl

theorem ChildRef.due_owned {me : NodePtr H} :
    (ChildRef.owned me).Due N wanted depth ↔ me.Due N wanted depth := by
  rw [ChildRef.Due.eq_def]

theorem ChildRef.Due.promises {child : ChildRef H} (due : child.Due N wanted depth) :
    child.Promises wanted := by
  induction child using ChildRef.induction generalizing depth with
  | null => exact due
  | ref found => exact due.elim
  | owned me inductionHypothesis =>
    obtain ⟨unsettled, held⟩ := TrieNodeExt.due_iff.mp (ChildRef.due_owned.mp due)
    refine ChildRef.promises_owned.mpr (TrieNodeExt.promises_iff.mpr (.inr ⟨unsettled, ?_⟩))
    refine held.imp (fun own => own.2) ?_
    exact (inductionHypothesis.imp fun _ known held => @known (depth + 1) held).any

section

variable [CollisionFree H]

theorem ChildRef.Stands.large_of_due {child : ChildRef H} {trie : Trie} (stands : child.Stands trie)
    (due : child.Due N wanted depth) : 32 ≤ (encode H trie).length :=
  (stands.storedIn_of_promises due.promises).large

/-- A node that is filled is visited as before. -/
theorem ChildRef.Stands.fill_due {child : ChildRef H} {trie : Trie} (stands : child.Stands trie)
    (due : child.Due N wanted depth) : child.fill.Due N wanted depth := by
  induction child using ChildRef.induction generalizing depth trie with
  | null => exact due
  | ref found => exact due
  | owned me inductionHypothesis =>
    have large := stands.large_of_due due
    have standsMe := (ChildRef.stands_owned.mp stands).1
    have filled := stands.fill
    obtain ⟨unsettled, held⟩ := TrieNodeExt.due_iff.mp (ChildRef.due_owned.mp due)
    rw [ChildRef.fill, standsMe.getRlpEncode_eq, if_neg (Nat.not_lt.mpr large)] at filled ⊢
    have standsFilled := (ChildRef.stands_owned.mp filled).1
    refine ChildRef.due_owned.mpr (TrieNodeExt.due_iff.mpr
      ⟨fun settled => unsettled (standsMe.fillRlp_settled large settled), ?_⟩)
    rcases held with ⟨boundary, -, rfl⟩ | any
    · refine .inl ⟨boundary, ?_, ?_⟩
      · rwa [standsFilled.getRlpEncode_eq]
      · rw [standsFilled.hash_eq, standsMe.hash_eq]
    · refine .inr ?_
      dsimp only
      cases cached : me.cells.rlpEncode with
      | some encoding => rwa [TrieNodeExt.fillRlp_of_some cached]
      | none =>
        rw [TrieNodeExt.fillRlp_of_none cached]
        exact (TrieNodeExt.stands_iff.mp standsMe).1.any_map (inductionHypothesis.imp
          fun _ known below standsBelow => @known (depth + 1) below standsBelow) any

theorem TrieNodeExt.Stands.drainExiled_due_of_children {me : NodePtr H} {trie : Trie}
    (stands : me.Stands trie) (due : me.Due N wanted depth)
    (each : me.node.AllChildren fun child => ∀ below : Trie, child.Stands below →
      child.Due N wanted (depth + 1) → child.drainExiled.1.Due N wanted (depth + 1)) :
    me.drainExiled.1.Due N wanted depth := by
  obtain ⟨unsettled, held⟩ := TrieNodeExt.due_iff.mp due
  -- before the own cells are filled
  have drained : ∀ exiled : Bool, TrieNodeExt.Due N wanted depth
      (⟨me.node.mapChildren fun child => child.drainExiled.1,
        { me.cells with exiled := exiled }⟩ : NodePtr H) := by
    intro exiled
    have standsBelow := stands.drainedBelow exiled
    refine TrieNodeExt.due_iff.mpr ⟨unsettled, held.imp ?_ ?_⟩
    · rintro ⟨boundary, large, rfl⟩
      rw [stands.getRlpEncode_eq] at large
      refine ⟨boundary, ?_, ?_⟩
      · rwa [standsBelow.getRlpEncode_eq]
      · rw [standsBelow.hash_eq, stands.hash_eq]
    · exact (TrieNodeExt.stands_iff.mp stands).1.any_map each
  rw [TrieNodeExt.drainExiled_eq, TrieNode.drainExiledChildren_result]
  dsimp only
  split
  · have unmarked := stands.drainedBelow false
    have standsOwned : (ChildRef.owned (⟨me.node.mapChildren fun child => child.drainExiled.1,
        { me.cells with exiled := false }⟩ : NodePtr H)).Stands trie :=
      ChildRef.stands_owned.mpr ⟨unmarked, fun committed => absurd (.inl committed) unsettled⟩
    have dueOwned := ChildRef.due_owned.mpr (drained false)
    have filled := standsOwned.fill_due dueOwned
    rw [unmarked.fill_owned (standsOwned.large_of_due dueOwned)] at filled
    exact ChildRef.due_owned.mp filled
  · exact drained me.cells.exiled

theorem ChildRef.Stands.drainExiled_due {child : ChildRef H} {trie : Trie}
    (stands : child.Stands trie) (due : child.Due N wanted depth) :
    child.drainExiled.1.Due N wanted depth := by
  induction child using ChildRef.induction generalizing depth trie with
  | null => exact due
  | ref found => exact due
  | owned me inductionHypothesis =>
    refine ChildRef.due_owned.mpr ((ChildRef.stands_owned.mp stands).1.drainExiled_due_of_children
      (ChildRef.due_owned.mp due) ?_)
    exact inductionHypothesis.imp fun _ known below standsBelow =>
      @known (depth + 1) below standsBelow

theorem TrieNodeExt.Stands.drainExiled_due {me : NodePtr H} {trie : Trie} (stands : me.Stands trie)
    (due : me.Due N wanted depth) : me.drainExiled.1.Due N wanted depth :=
  stands.drainExiled_due_of_children due
    (.of_forall (fun _ _ standsBelow held => standsBelow.drainExiled_due held) _)

end

/-! ### Entries of a commit -/

/-- A visited node is written below the boundary if it is large, and by a flush above it; the root
is written by a flush in any case. -/
theorem TrieNodeExt.Stands.mem_finishCommit {topLayer : Bool} {me : NodePtr H} {trie : Trie}
    (stands : me.Stands trie) (stored : 32 ≤ (encode H trie).length ∨ depth = 0)
    (layer : N ≤ depth ∨ topLayer = true) (below : List (H × Bytes)) (asserted : Bool) :
    ((digest trie, encode H trie) : H × Bytes) ∈
      (me.finishCommit N depth topLayer below asserted).putOps := by
  have entries : (me.finishCommit N depth topLayer below asserted).putOps =
      below ++ [(digest trie, encode H trie)] := by
    rw [TrieNodeExt.finishCommit, stands.getRlpEncode_eq, stands.fillRlp.1.hash_eq]
    dsimp only
    rw [if_pos stored, if_pos layer]
    split <;> rfl
  rw [entries]
  exact List.mem_append_right _ List.mem_cons_self

theorem TrieNodeExt.below_subset_finishCommit (N depth : Nat) (topLayer : Bool) (me : NodePtr H)
    (below : List (H × Bytes)) (asserted : Bool) :
    below ⊆ (me.finishCommit N depth topLayer below asserted).putOps := by
  rw [TrieNodeExt.finishCommit]
  dsimp only
  by_cases stored : 32 ≤ me.getRlpEncode.length ∨ depth = 0
  · rw [if_pos stored]
    split <;> exact List.subset_append_left _ _
  · rw [if_neg stored]
    split <;> exact fun _ => id

/-- An entry of a child is an entry of the node. -/
theorem TrieNode.mem_commitChildren {topLayer : Bool} (node : TrieNode (ChildRef H)) :
    node.AllChildren fun child => (child.commit N depth topLayer).putOps ⊆
      (node.commitChildren N depth topLayer).putOps := by
  cases node with
  | leaf key value => trivial
  | branch children value =>
    exact fun index entry member => List.mem_flatMap.mpr ⟨index, List.mem_finRange index, member⟩
  | extension key child => exact fun _ => id

theorem TrieNodeExt.mem_commit {topLayer : Bool} {me : NodePtr H}
    (visits : ¬ me.Skips N depth topLayer) :
    me.node.AllChildren fun child => (child.commit N (depth + 1) topLayer).putOps ⊆
      (me.commit N depth topLayer).putOps := by
  rw [TrieNodeExt.commit_of_not_skips visits]
  exact (TrieNode.mem_commitChildren me.node).imp fun _ inside =>
    List.Subset.trans inside (TrieNodeExt.below_subset_finishCommit _ _ _ _ _ _)

/-- The node with its children committed. -/
theorem TrieNodeExt.Stands.committedBelow (positive : N ≠ 0) (topLayer : Bool) (depth : Nat)
    {me : NodePtr H} {trie : Trie} (stands : me.Stands trie) :
    TrieNodeExt.Stands
      (⟨(me.node.commitChildren N (depth + 1) topLayer).result, me.cells⟩ : NodePtr H) trie := by
  obtain ⟨standsNode, fits⟩ := TrieNodeExt.stands_iff.mp stands
  rw [TrieNode.commitChildren_result]
  exact TrieNodeExt.stands_iff.mpr ⟨standsNode.mapChildren
    (.of_forall (fun _ _ standsBelow => (standsBelow.commit positive topLayer).1) _), fits⟩

theorem TrieNodeExt.Stands.mem_commit_own (positive : N ≠ 0) {topLayer : Bool} {me : NodePtr H}
    {trie : Trie} (stands : me.Stands trie) (visits : ¬ me.Skips N depth topLayer)
    (stored : 32 ≤ (encode H trie).length ∨ depth = 0) (layer : N ≤ depth ∨ topLayer = true) :
    ((digest trie, encode H trie) : H × Bytes) ∈ (me.commit N depth topLayer).putOps := by
  rw [TrieNodeExt.commit_of_not_skips visits]
  exact (stands.committedBelow positive topLayer depth).mem_finishCommit stored layer _ _

/-- A commit writes what it visits. -/
theorem TrieNodeExt.Stands.commit_due_of_children (positive : N ≠ 0) {me : NodePtr H} {trie : Trie}
    (stands : me.Stands trie) (due : me.Due N wanted depth)
    (each : me.node.AllChildren fun child => ∀ below : Trie, child.Stands below →
      child.Due N wanted (depth + 1) →
        ∃ entry ∈ (child.commit N (depth + 1) false).putOps, entry.1 = wanted) :
    ∃ entry ∈ (me.commit N depth false).putOps, entry.1 = wanted := by
  obtain ⟨unsettled, held⟩ := TrieNodeExt.due_iff.mp due
  have visits : ¬ me.Skips N depth false := by
    rintro (⟨-, no⟩ | ⟨settled, -⟩)
    · cases no
    · exact unsettled settled
  rcases held with ⟨boundary, large, rfl⟩ | any
  · rw [stands.getRlpEncode_eq] at large
    exact ⟨_, stands.mem_commit_own positive visits (.inl large) (.inl boundary),
      stands.hash_eq.symm⟩
  · have standsNode := (TrieNodeExt.stands_iff.mp stands).1
    have found : me.node.AnyChild fun _ =>
        ∃ entry ∈ (me.commit N depth false).putOps, entry.1 = wanted := by
      refine (((each.and standsNode.children).and (TrieNodeExt.mem_commit visits)).imp ?_).any any
      rintro child ⟨⟨known, below, standsBelow⟩, inside⟩ held
      obtain ⟨entry, member, same⟩ := known below standsBelow held
      exact ⟨entry, inside member, same⟩
    cases shape : me.node with
    | leaf key value =>
      rw [shape] at found
      exact found.elim
    | branch children value =>
      rw [shape] at found
      exact found.elim fun _ => id
    | extension key child =>
      rw [shape] at found
      exact found

theorem ChildRef.Stands.commit_due (positive : N ≠ 0) {child : ChildRef H} {trie : Trie}
    (stands : child.Stands trie) (due : child.Due N wanted depth) :
    ∃ entry ∈ (child.commit N depth false).putOps, entry.1 = wanted := by
  induction child using ChildRef.induction generalizing depth trie with
  | null => exact due.elim
  | ref found => exact due.elim
  | owned me inductionHypothesis =>
    refine (ChildRef.stands_owned.mp stands).1.commit_due_of_children positive
      (ChildRef.due_owned.mp due) ?_
    exact inductionHypothesis.imp fun _ known below standsBelow =>
      @known (depth + 1) below standsBelow

theorem TrieNodeExt.Stands.commit_due (positive : N ≠ 0) {me : NodePtr H} {trie : Trie}
    (stands : me.Stands trie) (due : me.Due N wanted depth) :
    ∃ entry ∈ (me.commit N depth false).putOps, entry.1 = wanted :=
  stands.commit_due_of_children positive due
    (.of_forall (fun _ _ standsBelow held => standsBelow.commit_due positive held) _)

/-! ### Entries of the exiled nodes -/

/-- The node is not exiled, or has another digest. -/
def TrieNodeExt.ExilesNot (wanted : H) (_ : Nat) (me : NodePtr H) : Prop :=
  me.cells.exiled = true → me.hash ≠ wanted

theorem TrieNode.drainExiledChildren_forall {property : H × Bytes → Prop}
    {node : TrieNode (ChildRef H)} (all : ∀ entry ∈ node.drainExiledChildren.2, property entry) :
    node.AllChildren fun child => ∀ entry ∈ child.drainExiled.2, property entry := by
  cases node with
  | leaf key value => trivial
  | branch children value =>
    exact fun index entry member =>
      all entry (List.mem_flatMap.mpr ⟨index, List.mem_finRange index, member⟩)
  | extension key child => exact all

/-- A digest without an entry is that of no exiled node. -/
theorem TrieNodeExt.Stands.exilesNot_of_children {me : NodePtr H} {trie : Trie}
    (stands : me.Stands trie) (others : ∀ entry ∈ me.drainExiled.2, entry.1 ≠ wanted)
    (each : me.node.AllChildren fun child => ∀ below : Trie, child.Stands below →
      (∀ entry ∈ child.drainExiled.2, entry.1 ≠ wanted) →
        child.Everywhere (TrieNodeExt.ExilesNot wanted) anyDigest (depth + 1)) :
    me.Everywhere (TrieNodeExt.ExilesNot wanted) anyDigest depth := by
  rw [TrieNodeExt.drainExiled_eq, TrieNode.drainExiledChildren_result] at others
  dsimp only at others
  have below : ∀ entry ∈ me.node.drainExiledChildren.2, entry.1 ≠ wanted := by
    intro entry member
    split at others
    · exact others entry (List.mem_append_left _ member)
    · exact others entry member
  refine TrieNodeExt.everywhere_iff.mpr ⟨fun exiled => ?_, ?_⟩
  · rw [if_pos exiled] at others
    have own := others _ (List.mem_append_right _ List.mem_cons_self)
    rwa [(stands.drainedBelow false).hash_eq, ← stands.hash_eq] at own
  · refine ((each.and (TrieNode.drainExiledChildren_forall below)).and stands.children).imp ?_
    rintro child ⟨⟨known, none⟩, trie, standsChild⟩
    exact known trie standsChild none

theorem ChildRef.Stands.exilesNot {child : ChildRef H} {trie : Trie} (stands : child.Stands trie)
    (others : ∀ entry ∈ child.drainExiled.2, entry.1 ≠ wanted) :
    child.Everywhere (TrieNodeExt.ExilesNot wanted) anyDigest depth := by
  induction child using ChildRef.induction generalizing depth trie with
  | null => trivial
  | ref found => trivial
  | owned me inductionHypothesis =>
    refine ChildRef.everywhere_owned.mpr
      ((ChildRef.stands_owned.mp stands).1.exilesNot_of_children others ?_)
    exact inductionHypothesis.imp fun _ known below standsBelow =>
      @known (depth + 1) below standsBelow

theorem TrieNodeExt.Stands.exilesNot {me : NodePtr H} {trie : Trie} (stands : me.Stands trie)
    (others : ∀ entry ∈ me.drainExiled.2, entry.1 ≠ wanted) :
    me.Everywhere (TrieNodeExt.ExilesNot wanted) anyDigest depth :=
  stands.exilesNot_of_children others
    (.of_forall (fun _ _ standsBelow others => standsBelow.exilesNot others) _)

/-! ### The store after a transaction -/

omit [RlpHasher H] in
theorem present_of_kept {db : DBColumn} {ops : List DBOp} {key : Bytes} (present : db key ≠ none)
    (kept : DBOp.delete key ∉ ops) : db.writeBuffered ops key ≠ none := by
  induction ops generalizing db with
  | nil => exact present
  | cons op ops inductionHypothesis =>
    rw [DBColumn.writeBuffered_cons]
    refine inductionHypothesis ?_ fun member => kept (List.mem_cons_of_mem _ member)
    by_cases same : op.key = key
    · cases op with
      | insert written value =>
        obtain rfl : written = key := same
        rw [DBOp.apply, Function.update_self]
        exact Option.some_ne_none _
      | delete deleted =>
        obtain rfl : deleted = key := same
        exact absurd List.mem_cons_self kept
    · rwa [DBColumn.apply_of_ne db op same]

theorem present_of_inserted {db : DBColumn} {ops : List DBOp} {key value : Bytes}
    (inserted : DBOp.insert key value ∈ ops) (kept : DBOp.delete key ∉ ops) :
    db.writeBuffered ops key ≠ none := by
  induction ops generalizing db with
  | nil => cases inserted
  | cons op ops inductionHypothesis =>
    have keptLater : DBOp.delete key ∉ ops := fun member => kept (List.mem_cons_of_mem _ member)
    rw [DBColumn.writeBuffered_cons]
    rcases List.mem_cons.mp inserted with rfl | later
    · refine present_of_kept ?_ keptLater
      rw [DBOp.apply, Function.update_self]
      exact Option.some_ne_none _
    · exact inductionHypothesis later keptLater

theorem delete_not_mem_putOps {entries : List (H × Bytes)} {key : Bytes} :
    DBOp.delete key ∉ entries.map MerklePatriciaTree.putOp := by
  intro member
  obtain ⟨entry, -, same⟩ := List.mem_map.mp member
  cases same

theorem delete_mem_delOps {digests : List H} :
    DBOp.delete (RlpHasher.toBytes wanted) ∈ digests.map MerklePatriciaTree.delOp ↔
      wanted ∈ digests := by
  constructor
  · intro member
    obtain ⟨found, inside, same⟩ := List.mem_map.mp member
    rwa [toBytes_injective (DBOp.delete.inj same)] at inside
  · exact fun member => List.mem_map.mpr ⟨wanted, member, rfl⟩

/-- The entries of a transaction are in the store. -/
theorem present_of_putOps (db : DBColumn) {entries : List (H × Bytes)} {entry : H × Bytes}
    (member : entry ∈ entries) (rest : List DBOp) (others : ∀ key, DBOp.delete key ∉ rest) :
    Present (db.writeBuffered (entries.map MerklePatriciaTree.putOp ++ rest)) entry.1 := by
  have inserted : DBOp.insert (RlpHasher.toBytes entry.1) entry.2 ∈
      entries.map MerklePatriciaTree.putOp ++ rest :=
    List.mem_append_left _ (List.mem_map.mpr ⟨entry, member, rfl⟩)
  refine present_of_inserted inserted fun deleted => ?_
  rcases List.mem_append.mp deleted with no | no
  · exact delete_not_mem_putOps no
  · exact others _ no

namespace MerklePatriciaTree

/-! ### The entries that last -/

variable {tree after : MerklePatriciaTree H} {trie : Trie}

/-- A commit writes the digest: it visits a node that has it, or an exiled node has it. -/
def Writes (N : Nat) (tree : MerklePatriciaTree H) (wanted : H) : Prop :=
  ∃ root, tree.root = some root ∧
    (root.Due N wanted 0 ∨ ¬ root.Everywhere (TrieNodeExt.ExilesNot wanted) anyDigest 0)

/-- The digest is stored, and not to be deleted. -/
def Secure (tree : MerklePatriciaTree H) (wanted : H) : Prop :=
  Present tree.db wanted ∧ wanted ∉ tree.delOps

/-- The digest is secure, or a commit writes it. -/
def Lasts (N : Nat) (tree : MerklePatriciaTree H) (wanted : H) : Prop :=
  tree.Secure wanted ∨ tree.Writes N wanted

/-- A commit deletes before it writes. -/
theorem commit_present [CollisionFree H] (represents : tree.Represents trie) (positive : N ≠ 0)
    {digest : H} (done : tree.commit N = .ok (digest, after)) (lasts : tree.Lasts N wanted) :
    Present after.db wanted := by
  obtain ⟨db, root, delOps⟩ := tree
  cases root with
  | none =>
    cases done
    rcases lasts with ⟨present, kept⟩ | ⟨root, no, -⟩
    · refine present_of_kept present fun member => ?_
      rcases List.mem_cons.mp member with same | member
      · exact toBytes_ne_rootKey wanted (DBOp.delete.inj same)
      · exact kept (delete_mem_delOps.mp member)
    · cases no
  | some root =>
    have standsRoot : root.Stands trie := represents.root
    rw [commit] at done
    dsimp only at done
    split at done
    · cases done
      have rootKey : ∀ (key bytes : Bytes), DBOp.delete key ∉ [DBOp.insert ROOT_KEY bytes] := by
        intro key bytes member
        cases List.mem_singleton.mp member
      rw [List.append_assoc]
      dsimp only
      rcases lasts with ⟨present, kept⟩ | ⟨root', same, written⟩
      · refine present_of_kept present fun member => ?_
        rcases List.mem_append.mp member with deleted | member
        · exact kept (delete_mem_delOps.mp deleted)
        · rcases List.mem_append.mp member with no | no
          · exact delete_not_mem_putOps no
          · exact rootKey _ _ no
      · cases same
        have entry : ∃ entry ∈ root.drainExiled.2 ++ (root.drainExiled.1.commit N 0 false).putOps,
            entry.1 = wanted := by
          rcases written with due | exiles
          · obtain ⟨entry, member, same⟩ :=
              standsRoot.drainExiled.1.commit_due positive (standsRoot.drainExiled_due due)
            exact ⟨entry, List.mem_append_right _ member, same⟩
          · by_contra none
            refine exiles (standsRoot.exilesNot fun entry member same => none ?_)
            exact ⟨entry, List.mem_append_left _ member, same⟩
        obtain ⟨entry, member, rfl⟩ := entry
        rw [DBColumn.writeBuffered, List.foldl_append]
        exact present_of_putOps _ member _ fun key => rootKey key _
    · cases done

end MerklePatriciaTree

end AuthStorage.RainblockTrie
