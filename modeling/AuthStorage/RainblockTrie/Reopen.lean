/-
This file proves what a store gives back that was flushed after a commit. The flush
writes the large nodes of the top layer and the root, the commit before it left the
large nodes below the boundary saved, so every node of the trie that is referenced by
digest has its entry. Opening such a store loads the top layer without a miss, and
ends with a tree for the same trie.
-/

import AuthStorage.RainblockTrie.Boundary
import AuthStorage.RainblockTrie.SafeCommit

namespace AuthStorage.RainblockTrie

open AuthStorage.Lvmt (Bytes DBColumn DBOp)

variable {H : Type} [RlpHasher H] {N depth : Nat} {saved : H → Prop} {marked : Bool}

/-! ### What a flush writes -/

theorem TrieNodeExt.Stands.flushed_of_children (positive : N ≠ 0) {me : NodePtr H} {trie : Trie}
    (stands : me.Stands trie) (above : depth < N)
    (each : me.node.AllChildren fun child => ∀ below : Trie, child.Stands below →
      ∀ wanted, StoredIn below wanted →
        saved wanted ∨ ∃ entry ∈ (child.commit N (depth + 1) true).putOps, entry.1 = wanted) :
    ∀ wanted, StoredIn trie wanted →
      saved wanted ∨ ∃ entry ∈ (me.commit N depth true).putOps, entry.1 = wanted := by
  have visits : ¬ me.Skips N depth true := by
    rintro (⟨boundary, -⟩ | ⟨-, no⟩)
    · exact absurd above (Nat.not_lt.mpr boundary)
    · cases no
  refine (TrieNodeExt.stands_iff.mp stands).1.stored_of_children
    (fun large => .inr ?_) ?_
  · exact ⟨_, stands.mem_commit_own positive visits (.inl large) (.inr rfl), rfl⟩
  · refine (each.and (TrieNodeExt.mem_commit visits)).imp ?_
    rintro child ⟨known, inside⟩ below standsBelow wanted stored
    refine (known below standsBelow wanted stored).imp_right ?_
    rintro ⟨entry, member, same⟩
    exact ⟨entry, inside member, same⟩

theorem ChildRef.Stands.flushed [CollisionFree H] (positive : N ≠ 0) {child : ChildRef H}
    {trie : Trie} (stands : child.Stands trie) (holds : child.Saved N saved marked depth) :
    ∀ wanted, StoredIn trie wanted →
      saved wanted ∨ ∃ entry ∈ (child.commit N depth true).putOps, entry.1 = wanted := by
  induction child using ChildRef.induction generalizing depth marked trie with
  | null =>
    obtain rfl : trie = .empty := stands
    exact fun wanted stored => absurd rfl stored.ne_empty
  | ref found => exact fun wanted stored => .inl (stands.stored_of_ref holds wanted stored)
  | owned me inductionHypothesis =>
    by_cases boundary : N ≤ depth
    · exact fun wanted stored => .inl (stands.stored_of_saved holds (.inl boundary) wanted stored)
    · obtain ⟨-, below⟩ := TrieNodeExt.saved_iff.mp (ChildRef.saved_owned.mp holds)
      refine (ChildRef.stands_owned.mp stands).1.flushed_of_children positive
        (Nat.lt_of_not_le boundary) ?_
      refine (inductionHypothesis.and below).imp ?_
      rintro child ⟨known, holdsChild⟩ trie standsChild
      exact known standsChild holdsChild

/-- From the root on, everything is saved or written, and so is the root. -/
theorem TrieNodeExt.Stands.flushed [CollisionFree H] (positive : N ≠ 0) {me : NodePtr H}
    {trie : Trie} (stands : me.Stands trie) (holds : me.Saved N saved marked 0) {wanted : H}
    (needed : wanted = digest trie ∨ StoredIn trie wanted) :
    saved wanted ∨ ∃ entry ∈ (me.commit N 0 true).putOps, entry.1 = wanted := by
  have above : 0 < N := Nat.pos_of_ne_zero positive
  rcases needed with rfl | stored
  · have visits : ¬ me.Skips N 0 true := by
      rintro (⟨boundary, -⟩ | ⟨-, no⟩)
      · exact absurd above (Nat.not_lt.mpr boundary)
      · cases no
    exact .inr ⟨_, stands.mem_commit_own positive visits (.inr rfl) (.inr rfl), rfl⟩
  · refine stands.flushed_of_children positive above ?_ wanted stored
    exact (TrieNodeExt.saved_iff.mp holds).2.imp fun _ holdsChild _ standsBelow =>
      standsBelow.flushed positive holdsChild

/-! ### Loading the top layer -/

omit [RlpHasher H] in
theorem forChildren_of_ok {child : Nibble → Except (Panic H) (ChildRef H)}
    {children : Nibble → ChildRef H} (done : ∀ index, child index = .ok (children index)) :
    forChildren child = .ok children := by
  have passes : ∀ items : List Nibble,
      (items.forM fun index => do let _ ← child index) = (.ok () : Except (Panic H) PUnit) := by
    intro items
    induction items with
    | nil => rfl
    | cons index items inductionHypothesis =>
      show ((child index >>= fun _ => pure ()) >>= fun _ => items.forM _) = _
      rw [done index]
      exact inductionHypothesis
  rw [forChildren, passes]
  show Except.ok _ = _
  congr 1
  funext index
  rw [done index]

/-- What `load_children` goes on with, once a child is opened. -/
def ChildRef.loadBelow (db : DBColumn) (levels : Nat) (child : ChildRef H) :
    Option (NodePtr H × Bool) → Except (Panic H) (ChildRef H)
  | none => pure child
  | some (node, _) => do
    let node ← node.loadChildren db levels
    pure (.owned node)

section

variable {db : DBColumn} {levels : Nat} {cells : Cells H} (filled : cells.commited ≠ .working)

include filled

theorem TrieNodeExt.loadChildren_branch (children : Nibble → ChildRef H) (value : Bytes) :
    TrieNodeExt.loadChildren db (levels + 1) ⟨.branch children value, cells⟩ =
      forChildren (fun index => (children index).ownedOrLoad db >>=
        (children index).loadBelow db levels) >>= fun children =>
          pure ⟨.branch children value, cells⟩ := by
  rw [TrieNodeExt.loadChildren]
  refine (if_neg filled).trans ?_
  dsimp only
  congr 2
  funext index
  congr 1
  funext opened
  cases opened <;> rfl

theorem TrieNodeExt.loadChildren_extension (key : List Nibble) (child : ChildRef H) :
    TrieNodeExt.loadChildren db (levels + 1) ⟨.extension key child, cells⟩ =
      (child.ownedOrLoad db >>= child.loadBelow db levels) >>= fun child =>
        pure ⟨.extension key child, cells⟩ := by
  rw [TrieNodeExt.loadChildren]
  refine (if_neg filled).trans ?_
  dsimp only
  congr 2
  funext opened
  cases opened <;> rfl

end

/-- Where every digest is complete, the top layer is loaded, and the trie stays the same. -/
theorem TrieNodeExt.Stands.loadChildren [CollisionFree H] {db : DBColumn} (levels : Nat)
    (honest : HonestStore H db) (present : ∀ found, saved found → Present db found)
    {me : NodePtr H} {trie : Trie} (stands : me.Stands trie) (settled : me.cells.Settled)
    (layered : me.Everywhere (TrieNodeExt.Layered N) anyDigest depth)
    (kept : me.Everywhere (TrieNodeExt.Kept N saved) (Complete saved) depth) :
    ∃ after, me.loadChildren db levels = .ok after ∧ after.cells = me.cells ∧ after.Stands trie ∧
      after.Everywhere (TrieNodeExt.Kept N saved) (Complete saved) depth := by
  induction levels generalizing me trie depth with
  | zero => exact ⟨me, rfl, rfl, stands, kept⟩
  | succ levels inductionHypothesis =>
    obtain ⟨⟨orderly, -⟩, layeredBelow⟩ := TrieNodeExt.everywhere_iff.mp layered
    obtain ⟨keptHere, keptBelow⟩ := TrieNodeExt.everywhere_iff.mp kept
    obtain ⟨standsNode, fits⟩ := TrieNodeExt.stands_iff.mp stands
    have calm := orderly.settled settled
    have loads : ∀ {child : ChildRef H} {below : Trie}, child.Stands below → child.Calm →
        child.Everywhere (TrieNodeExt.Layered N) anyDigest (depth + 1) →
        child.Everywhere (TrieNodeExt.Kept N saved) (Complete saved) (depth + 1) →
        ∃ loaded, child.ownedOrLoad db >>= child.loadBelow db levels = .ok loaded ∧
          loaded.Stands below ∧
          loaded.Everywhere (TrieNodeExt.Kept N saved) (Complete saved) (depth + 1) := by
      intro child below standsChild calm layeredChild keptChild
      have complete : ∀ found, Complete saved found → Present db found :=
        fun found complete => present found complete.own
      obtain ⟨opened, held, found⟩ := (standsChild.ownedOrLoad honest).exists_ok
        (ownedOrLoad_findsAll complete keptChild)
      rw [held]
      rcases found with ⟨rfl, rfl⟩ | ⟨node, isLoaded, rfl, heldAs⟩
      · exact ⟨child, rfl, standsChild, keptChild⟩
      · have heldBy := heldBy_of_ownedOrLoad held
        have standsOwned := heldAs.stands standsChild
        have settledNode : node.cells.Settled := by
          cases heldBy with
          | owned => exact calm.1
          | loaded stored => exact (layered_of_load N stored 0).2
        obtain ⟨after, loaded, sameCells, standsAfter, keptAfter⟩ := inductionHypothesis
          (ChildRef.stands_owned.mp standsOwned).1 settledNode
          ((survives_layered N db).held heldBy layeredChild)
          ((survives_kept N saved honest).held heldBy keptChild)
        refine ⟨.owned after, ?_, ChildRef.stands_owned.mpr ⟨standsAfter, ?_⟩,
          ChildRef.everywhere_owned.mpr keptAfter⟩
        · show TrieNodeExt.loadChildren db levels node >>=
            (fun node => pure (ChildRef.owned node)) = _
          rw [loaded]
          rfl
        · rw [sameCells]
          exact (ChildRef.stands_owned.mp standsOwned).2
    obtain ⟨node, cells⟩ := me
    have filled : cells.commited ≠ .working := settled.not_working
    cases node with
    | leaf key value =>
      refine ⟨_, ?_, rfl, stands, kept⟩
      rw [TrieNodeExt.loadChildren]
      exact if_neg filled
    | branch children value =>
      obtain ⟨tries, stored, sameValue, rfl, standsBelow⟩ := standsNode
      choose loaded done standsLoaded keptLoaded using fun index =>
        loads (standsBelow index) (calm index) (layeredBelow index) (keptBelow index)
      refine ⟨⟨.branch loaded value, cells⟩, ?_, rfl, ?_, ?_⟩
      · rw [TrieNodeExt.loadChildren_branch filled, forChildren_of_ok done]
        rfl
      · exact TrieNodeExt.stands_iff.mpr ⟨⟨tries, stored, sameValue, rfl, standsLoaded⟩, fits⟩
      · exact TrieNodeExt.everywhere_iff.mpr ⟨keptHere, keptLoaded⟩
    | extension key child =>
      obtain ⟨below, rfl, standsBelow⟩ := standsNode
      obtain ⟨loaded, done, standsLoaded, keptLoaded⟩ :=
        loads standsBelow calm layeredBelow keptBelow
      refine ⟨⟨.extension key loaded, cells⟩, ?_, rfl, ?_, ?_⟩
      · rw [TrieNodeExt.loadChildren_extension filled, done]
        rfl
      · exact TrieNodeExt.stands_iff.mpr ⟨⟨below, rfl, standsLoaded⟩, fits⟩
      · exact TrieNodeExt.everywhere_iff.mpr ⟨keptHere, keptLoaded⟩

namespace MerklePatriciaTree

variable {tree after : MerklePatriciaTree H} {trie : Trie}

/-! ### The digest of the root -/

/-- Under the root's key is the digest of the trie, and nothing if it is empty. -/
def RootStored (H : Type) [RlpHasher H] (db : DBColumn) (trie : Trie) : Prop :=
  db ROOT_KEY = (rootDigest trie : Option H).map RlpHasher.toBytes

theorem commit_rootStored (represents : tree.Represents trie) (positive : N ≠ 0) {digest : H}
    (done : tree.commit N = .ok (digest, after)) : RootStored H after.db trie := by
  obtain ⟨db, root, delOps⟩ := tree
  cases root with
  | none =>
    cases done
    obtain rfl : trie = .empty := represents.root
    rw [RootStored]
    dsimp only
    rw [DBColumn.writeBuffered_cons, DBColumn.writeBuffered_of_notMem, DBOp.apply]
    · exact Function.update_self ROOT_KEY none db
    · intro op member same
      obtain ⟨found, -, rfl⟩ := List.mem_map.mp member
      exact toBytes_ne_rootKey found same
  | some root =>
    have standsRoot : root.Stands trie := represents.root
    rw [commit] at done
    dsimp only at done
    split at done
    · cases done
      have standsDone := (standsRoot.drainExiled.1.commit positive false).1.truncateLoaded
      rw [RootStored, rootDigest_of_ne (TrieNodeExt.stands_iff.mp standsRoot).1.ne_empty,
        ← standsDone.hash_eq]
      dsimp only
      rw [DBColumn.writeBuffered, List.foldl_append, List.foldl_cons, DBOp.apply, List.foldl_nil,
        Function.update_self]
      rfl
    · cases done

theorem flushAll_rootStored (stored : RootStored H tree.db trie)
    (done : tree.flushAll N = .ok after) : RootStored H after.db trie := by
  obtain ⟨db, root, delOps⟩ := tree
  cases root with
  | none =>
    cases done
    exact stored
  | some root =>
    rw [flushAll] at done
    dsimp only at done
    split at done
    · cases done
      rw [RootStored]
      dsimp only
      rw [DBColumn.writeBuffered_of_notMem]
      · exact stored
      · intro op member same
        obtain ⟨entry, -, rfl⟩ := List.mem_map.mp member
        exact toBytes_ne_rootKey entry.1 same
    · cases done

/-! ### Opening the store again -/

/-- A flush after a commit leaves an entry for every node that is referenced by digest. -/
theorem flushAll_present [CollisionFree H] (represents : tree.Represents trie) (positive : N ≠ 0)
    (present : ∀ wanted, saved wanted → Present tree.db wanted)
    (holds : ∀ root ∈ tree.root, root.Saved N saved marked 0) (done : tree.flushAll N = .ok after)
    (nonempty : trie ≠ .empty) {wanted : H} (needed : wanted = digest trie ∨ StoredIn trie wanted) :
    Present after.db wanted := by
  obtain ⟨db, root, delOps⟩ := tree
  cases root with
  | none => exact absurd represents.root nonempty
  | some root =>
    have standsRoot : root.Stands trie := represents.root
    rw [flushAll] at done
    dsimp only at done
    split at done
    · cases done
      rcases standsRoot.flushed positive (holds root rfl) needed with before | ⟨entry, member, rfl⟩
      · exact present_of_kept (present wanted before) delete_not_mem_putOps
      · have written := present_of_putOps db member [] fun _ => List.not_mem_nil
        rwa [List.append_nil] at written
    · cases done

/-- A store with all entries of a trie opens as a tree for it. -/
theorem new_of_present [CollisionFree H] {db : DBColumn} (honest : HonestStore H db)
    (positive : N ≠ 0) (canonical : trie.Canonical) (stored : RootStored H db trie)
    (present : trie ≠ .empty → ∀ wanted : H, wanted = digest trie ∨ StoredIn trie wanted →
      Present db wanted) :
    ∃ tree : MerklePatriciaTree H, new N db = .ok tree ∧ tree.db = db ∧ tree.Represents trie ∧
      tree.Kept N (Present tree.db) := by
  by_cases empty : trie = .empty
  · subst empty
    refine ⟨⟨db, none, []⟩, ?_, rfl, ⟨honest, canonical, rfl⟩, fun root no => by cases no⟩
    rw [new, stored]
    rfl
  · have all := present empty
    rw [RootStored, rootDigest_of_ne empty] at stored
    have finds : ∀ found, (TrieNodeExt.load db (digest trie : H)) ≠ .error (.hashNotFound found) :=
      load_findsAll (fun found (same : found = digest trie) => all found (.inl same)) rfl
    obtain ⟨node, loaded, rfl⟩ := (load_spec honest empty).exists_ok finds
    obtain ⟨layered, settled⟩ := layered_of_load N loaded 0
    obtain ⟨root, loadedBelow, -, standsRoot, kept⟩ := (loadedNode_stands empty).loadChildren
      (N - 1) honest (fun _ => id) settled layered
      (loadedNode_kept (all _ (.inl rfl)) (fun wanted inside => all wanted (.inr inside)) 0)
    refine ⟨⟨db, some root, []⟩, ?_, rfl, ⟨honest, canonical, standsRoot⟩, ?_⟩
    · rw [new, stored]
      show expect (RlpHasher.fromBytes (RlpHasher.toBytes (digest trie))) >>= _ = _
      rw [RlpHasher.fromBytes_toBytes]
      show TrieNodeExt.load db (digest trie) >>= _ = _
      rw [loaded]
      show (if N = 0 then Except.error Panic.failed else _) = _
      rw [if_neg positive, loadedBelow]
      rfl
    · rintro found same
      cases same
      exact kept

end MerklePatriciaTree

end AuthStorage.RainblockTrie
