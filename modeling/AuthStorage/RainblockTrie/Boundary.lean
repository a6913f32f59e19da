/-
This file is about what a commit leaves in memory. It visits the nodes that changed
and drops the large nodes below the boundary for their digests, and it does the same
below every marked node. An insertion that moves a subtree down marks nothing: the
nodes it moves across the boundary are written, but they stay in memory, until a
later change comes by.
-/

import AuthStorage.RainblockTrie.TopLayer
import AuthStorage.RainblockTrie.Histories

namespace AuthStorage.RainblockTrie

open AuthStorage.Lvmt (Bytes DBColumn)

variable {H : Type} [RlpHasher H]

/-! ### Committing -/

/-- A child after the visit of a commit: below the boundary only what a small node holds is clear,
and everything else there is going to be dropped. -/
structure ChildRef.Visited (N depth : Nat) (child : ChildRef H) : Prop where
  calm : child.Calm
  layered : depth < N ∨ child.Small → child.Everywhere (TrieNodeExt.Layered N) anyDigest depth

theorem ChildRef.Visited.fill {N depth : Nat} {child : ChildRef H}
    (visited : child.Visited N depth) : child.fill.Visited N depth := by
  cases child with
  | null => exact visited
  | ref found => exact visited
  | owned me =>
    obtain ⟨encoding, cached⟩ := Option.ne_none_iff_exists'.mp visited.calm.2
    rw [ChildRef.fill, TrieNodeExt.fillRlp_of_some cached]
    split
    · exact visited
    · next large =>
      refine ⟨visited.calm, fun kept => ChildRef.everywhere_owned.mpr
        (TrieNodeExt.Everywhere.setCells ?_ rfl rfl rfl)⟩
      refine ChildRef.everywhere_owned.mp (visited.layered (kept.imp_right fun small => ?_))
      have same : (⟨me.node, { me.cells with hash := some me.hash }⟩ : NodePtr H).getRlpEncode =
          me.getRlpEncode := TrieNodeExt.getRlpEncode_congr visited.calm.2 rfl
      exact absurd (same ▸ small) large

theorem ChildRef.Visited.small_fill {N depth : Nat} {child : ChildRef H}
    (visited : child.Visited N depth) (small : child.Small) : child.fill.Small := by
  cases child with
  | null => trivial
  | ref found => trivial
  | owned me =>
    obtain ⟨encoding, cached⟩ := Option.ne_none_iff_exists'.mp visited.calm.2
    have short : me.getRlpEncode.length < 32 := small
    rw [ChildRef.fill, TrieNodeExt.fillRlp_of_some cached, if_pos short]
    exact small

/-- A calm child is dropped for its digest, or stays as it is. -/
theorem ChildRef.Calm.truncate {child : ChildRef H} (calm : child.Calm) :
    child.truncate = child ∧ child.Small ∨ ∃ found, child.truncate = .ref found := by
  cases child with
  | null => exact .inl ⟨rfl, trivial⟩
  | ref found => exact .inl ⟨rfl, trivial⟩
  | owned me =>
    obtain ⟨encoding, cached⟩ := Option.ne_none_iff_exists'.mp calm.2
    rw [ChildRef.truncate, TrieNodeExt.fillRlp_of_some cached]
    split
    · next small => exact .inl ⟨rfl, small⟩
    · exact .inr ⟨_, rfl⟩

theorem ChildRef.Visited.truncate {N depth : Nat} {child : ChildRef H}
    (visited : child.Visited N depth) :
    child.truncate.Calm ∧ child.truncate.Small ∧
      child.truncate.Everywhere (TrieNodeExt.Layered N) anyDigest depth := by
  rcases visited.calm.truncate with ⟨same, small⟩ | ⟨found, same⟩
  · rw [same]
    exact ⟨visited.calm, small, visited.layered (.inr small)⟩
  · rw [same]
    exact ⟨trivial, trivial, trivial⟩

/-- What filling makes of a node whose children were visited. -/
theorem TrieNodeExt.Orderly.fillRlp_of_visited {N depth : Nat} {me : NodePtr H}
    (orderly : me.Orderly) (visits : ¬ me.cells.Settled)
    (visited : me.node.AllChildren (ChildRef.Visited N (depth + 1))) :
    me.fillRlp.node.AllChildren (ChildRef.Visited N (depth + 1)) ∧
      me.fillRlp.cells.rlpEncode = some me.getRlpEncode ∧
      (me.getRlpEncode.length < 32 → me.fillRlp.cells.commited = .light ∧
        me.fillRlp.node.AllChildren ChildRef.Small) := by
  cases cached : me.cells.rlpEncode with
  | some encoding =>
    rw [TrieNodeExt.fillRlp_of_some cached]
    refine ⟨visited, by rw [TrieNodeExt.getRlpEncode_of_some cached, cached], fun short => ?_⟩
    cases state : me.cells.commited with
    | committed => exact absurd (.inl state) visits
    | light => exact absurd (.inr state) visits
    | pending => exact absurd (orderly.pending state) (Nat.not_le.mpr short)
    | working =>
      rw [orderly.working state] at cached
      cases cached
  | none =>
    have same : me.getRlpEncode = me.node.rlpBytes := by
      rw [TrieNodeExt.getRlpEncode_eq, cached]
      rfl
    rw [TrieNodeExt.fillRlp_of_none cached, same]
    refine ⟨TrieNode.allChildren_mapChildren.mpr (visited.imp fun _ each => each.fill), rfl,
      fun short => ⟨if_pos short, TrieNode.allChildren_mapChildren.mpr ?_⟩⟩
    exact ((TrieNode.small_of_short short).and visited).imp fun _ both => both.2.small_fill both.1

/-- A node that was visited: the boundary is clear, unless the node is large and below it. -/
theorem TrieNodeExt.visited_of_committed {N depth : Nat} {me : NodePtr H} {encoding : Bytes}
    (cached : me.cells.rlpEncode = some encoding) (settled : me.cells.Settled)
    (visited : me.node.AllChildren (ChildRef.Visited N (depth + 1)))
    (small : N ≤ depth + 1 → depth < N ∨ encoding.length < 32 → me.node.AllChildren ChildRef.Small) :
    (ChildRef.owned me).Visited N depth := by
  have same := TrieNodeExt.getRlpEncode_of_some cached
  have filled : me.cells.rlpEncode ≠ none := by
    rw [cached]
    exact Option.some_ne_none _
  refine ⟨⟨settled, filled⟩, fun kept => ?_⟩
  have kept : depth < N ∨ encoding.length < 32 := kept.imp_right fun short => same ▸ short
  refine ChildRef.everywhere_owned_iff.mpr
    ⟨⟨⟨fun working => absurd working settled.not_working, fun _ => filled, fun pending => ?_,
      fun _ => visited.imp fun _ each => each.calm⟩, fun _ _ boundary => small boundary kept⟩, ?_⟩
  · rcases settled with state | state <;> rw [state] at pending <;> cases pending
  · by_cases boundary : N ≤ depth + 1
    · exact (visited.and (small boundary kept)).imp fun _ both => both.1.layered (.inr both.2)
    · exact visited.imp fun _ each => each.layered (.inl (Nat.lt_of_not_le boundary))

theorem TrieNodeExt.Orderly.finishCommit_visited {N depth : Nat} {me : NodePtr H}
    (orderly : me.Orderly) (visits : ¬ me.cells.Settled)
    (visited : me.node.AllChildren (ChildRef.Visited N (depth + 1))) (below : List (H × Bytes))
    (asserted : Bool) :
    (ChildRef.owned (me.finishCommit N depth false below asserted).result).Visited N depth := by
  obtain ⟨visitedFilled, cached, short⟩ := orderly.fillRlp_of_visited visits visited
  have hashed := TrieNodeExt.fillHash_of_some cached
  -- before the children at the boundary are dropped
  obtain ⟨done, result, sameNode, doneCached, doneSettled⟩ : ∃ done : NodePtr H,
      (me.finishCommit N depth false below asserted).result =
        (if depth + 1 = N then done.truncate else done) ∧
      done.node = me.fillRlp.node ∧ done.cells.rlpEncode = some me.getRlpEncode ∧
      done.cells.Settled := by
    rw [TrieNodeExt.finishCommit]
    dsimp only
    by_cases large : 32 ≤ me.getRlpEncode.length ∨ depth = 0
    · refine ⟨⟨me.fillRlp.fillHash.node, { me.fillRlp.fillHash.cells with
        commited := .committed }⟩, ?_, ?_, ?_, .inl rfl⟩
      · rw [if_pos large]
        by_cases boundary : depth + 1 = N
        · rw [if_pos ⟨boundary, rfl⟩, if_pos boundary]
        · rw [if_neg fun both => boundary both.1, if_neg boundary]
      · rw [hashed]
      · dsimp only
        rw [hashed]
        exact cached
    · refine ⟨me.fillRlp, ?_, rfl, cached, .inr (short ?_).1⟩
      · rw [if_neg large]
        by_cases boundary : depth + 1 = N
        · rw [if_pos ⟨boundary, rfl⟩, if_pos boundary]
        · rw [if_neg fun both => boundary both.1, if_neg boundary]
      · exact Nat.lt_of_not_le fun no => large (.inl no)
  rw [result]
  rw [← sameNode] at visitedFilled
  split
  · next boundary =>
    have dropped := visitedFilled.imp fun _ each => each.truncate
    have truncated : done.truncate.cells.rlpEncode = some me.getRlpEncode := doneCached
    refine TrieNodeExt.visited_of_committed truncated doneSettled ?_ ?_
    · exact TrieNode.allChildren_mapChildren.mpr
        (dropped.imp fun _ each => ⟨each.1, fun _ => each.2.2⟩)
    · exact fun _ _ => TrieNode.allChildren_mapChildren.mpr (dropped.imp fun _ each => each.2.1)
  · next other =>
    refine TrieNodeExt.visited_of_committed doneCached doneSettled visitedFilled ?_
    intro boundary kept
    rw [sameNode]
    exact (short (kept.resolve_left (by omega))).2

theorem ChildRef.commit_visited {N depth : Nat} {child : ChildRef H}
    (holds : child.Everywhere (TrieNodeExt.Layered N) anyDigest depth) :
    (child.commit N depth false).result.Visited N depth := by
  induction child using ChildRef.induction generalizing depth with
  | null => exact ⟨trivial, fun _ => trivial⟩
  | ref found => exact ⟨trivial, fun _ => trivial⟩
  | owned me inductionHypothesis =>
    obtain ⟨layered, children⟩ := ChildRef.everywhere_owned_iff.mp holds
    show (ChildRef.owned (me.commit N depth false).result).Visited N depth
    by_cases settled : me.cells.Settled
    · rw [TrieNodeExt.commit_of_skips (.inr ⟨settled, rfl⟩)]
      exact ⟨⟨settled, layered.orderly.filled_of_settled settled⟩, fun _ => holds⟩
    · have visits : ¬ me.Skips N depth false := by
        rintro (no | skips)
        · cases no.2
        · exact settled skips.1
      rw [TrieNodeExt.commit_of_not_skips visits]
      dsimp only
      rw [TrieNode.commitChildren_result]
      have committed : TrieNodeExt.Orderly ⟨me.node.mapChildren fun child =>
          (ChildRef.commit N (depth + 1) false child).result, me.cells⟩ :=
        layered.orderly.setNode rfl rfl fun no => absurd no settled
      refine committed.finishCommit_visited settled ?_ _ _
      · exact TrieNode.allChildren_mapChildren.mpr
          ((inductionHypothesis.and children).imp fun _ both => both.1 both.2)

/-! ### Truncating -/

/-- A large node in memory is above the boundary. -/
def TrieNodeExt.Bounded (N depth : Nat) (me : NodePtr H) : Prop :=
  32 ≤ me.getRlpEncode.length → depth < N

instance (N depth : Nat) (me : NodePtr H) : Decidable (me.Bounded N depth) :=
  inferInstanceAs (Decidable (_ → _))

/-- A child whose marked nodes were truncated. -/
structure ChildRef.Trimmed (N depth : Nat) (child after : ChildRef H) : Prop where
  calm : after.Calm
  small : child.Small → after.Small
  layered : after.Everywhere (TrieNodeExt.Layered N) anyDigest depth
  bounded : depth < N ∨ after.Small → after.Everywhere (TrieNodeExt.Bounded N) anyDigest depth

theorem ChildRef.trimmed_of_children {N depth : Nat} {me after : NodePtr H}
    (orderly : me.Orderly) (calm : (ChildRef.owned me).Calm)
    (status : after.cells.commited = me.cells.commited)
    (encoding : after.cells.rlpEncode = me.cells.rlpEncode)
    (below : after.node.AllChildren fun child => child.Calm ∧
      child.Everywhere (TrieNodeExt.Layered N) anyDigest (depth + 1) ∧
      child.Everywhere (TrieNodeExt.Bounded N) anyDigest (depth + 1))
    (small : N ≤ depth + 1 → after.node.AllChildren ChildRef.Small) :
    (ChildRef.owned me).Trimmed N depth (.owned after) where
  calm := by
    show after.cells.Settled ∧ after.cells.rlpEncode ≠ none
    rw [Cells.Settled, status, encoding]
    exact calm
  small := calm.small encoding
  layered := ChildRef.everywhere_owned_iff.mpr
    ⟨⟨orderly.setNode status encoding fun _ => below.imp fun _ each => each.1,
      fun _ _ boundary => small boundary⟩, below.imp fun _ each => each.2.1⟩
  bounded kept := ChildRef.everywhere_owned_iff.mpr
    ⟨fun large => kept.resolve_right (Nat.not_lt.mpr large), below.imp fun _ each => each.2.2⟩

/-- Truncating the marked nodes leaves the others clear of large children. -/
theorem ChildRef.truncateLoaded_trimmed {N depth : Nat} {child : ChildRef H}
    (holds : child.Everywhere (TrieNodeExt.Layered N) anyDigest depth) (calm : child.Calm) :
    child.Trimmed N depth child.truncateLoaded := by
  induction child using ChildRef.induction generalizing depth with
  | null => exact ⟨trivial, id, trivial, fun _ => trivial⟩
  | ref found => exact ⟨trivial, id, trivial, fun _ => trivial⟩
  | owned me inductionHypothesis =>
    obtain ⟨⟨orderly, clear⟩, children⟩ := ChildRef.everywhere_owned_iff.mp holds
    have each := ((inductionHypothesis.and children).and (orderly.settled calm.1)).imp
      fun _ all => all.1.1 all.1.2 all.2
    show (ChildRef.owned me).Trimmed N depth (.owned me.truncateLoaded)
    rw [TrieNodeExt.truncateLoaded_eq]
    split
    · refine ChildRef.trimmed_of_children orderly calm rfl rfl ?_ fun _ => ?_
      · refine TrieNode.allChildren_mapChildren.mpr (TrieNode.allChildren_mapChildren.mpr
          (each.imp fun child trimmed => ?_))
        rcases trimmed.calm.truncate with ⟨same, small⟩ | ⟨found, same⟩
        · rw [same]
          exact ⟨trimmed.calm, trimmed.layered, trimmed.bounded (.inr small)⟩
        · rw [same]
          exact ⟨trivial, trivial, trivial⟩
      · refine TrieNode.allChildren_mapChildren.mpr (TrieNode.allChildren_mapChildren.mpr
          (each.imp fun child trimmed => ?_))
        rcases trimmed.calm.truncate with ⟨same, small⟩ | ⟨found, same⟩
        · rwa [same]
        · rw [same]
          trivial
    · next unmarked =>
      have small := clear calm.1 (Bool.eq_false_iff.mpr unmarked)
      refine ChildRef.trimmed_of_children orderly calm rfl rfl ?_ fun boundary => ?_
      · refine TrieNode.allChildren_mapChildren.mpr ?_
        by_cases boundary : N ≤ depth + 1
        · exact (each.and (small boundary)).imp fun _ both =>
            ⟨both.1.calm, both.1.layered, both.1.bounded (.inr (both.1.small both.2))⟩
        · exact each.imp fun _ trimmed => ⟨trimmed.calm, trimmed.layered,
            trimmed.bounded (.inl (Nat.lt_of_not_le boundary))⟩
      · exact TrieNode.allChildren_mapChildren.mpr
          ((each.and (small boundary)).imp fun _ both => both.1.small both.2)

namespace MerklePatriciaTree

variable {tree after : MerklePatriciaTree H} {N : Nat}

/-- A commit leaves every large node it does not drop above the boundary. -/
theorem commit_bounded (positive : N ≠ 0) {digest : H}
    (done : tree.commit N = .ok (digest, after))
    (holds : tree.Everywhere (TrieNodeExt.Layered N) anyDigest) :
    after.Everywhere (TrieNodeExt.Layered N) anyDigest ∧
      after.Everywhere (TrieNodeExt.Bounded N) anyDigest := by
  rw [commit] at done
  split at done
  · cases done
    exact ⟨fun root found => (by cases found), fun root found => (by cases found)⟩
  · next root opened =>
    dsimp only at done
    split at done
    · cases done
      have drained := TrieNodeExt.drainExiled_layered (holds root opened)
      have visited := ChildRef.commit_visited (ChildRef.everywhere_owned.mpr drained)
      have above : 0 < N := Nat.pos_of_ne_zero positive
      have trimmed := ChildRef.truncateLoaded_trimmed (visited.layered (.inl above)) visited.calm
      have layered := ChildRef.everywhere_owned.mp trimmed.layered
      obtain ⟨encoding, cached⟩ := Option.ne_none_iff_exists'.mp trimmed.calm.2
      refine ⟨fun found same => ?_, fun found same => ?_⟩
      · cases same
        exact TrieNodeExt.fillHash_layered layered
      · cases same
        have bounded := (ChildRef.everywhere_owned_iff.mp (trimmed.bounded (.inl above))).2
        rw [TrieNodeExt.fillHash_of_some cached]
        exact TrieNodeExt.everywhere_iff.mpr ⟨fun _ => above, bounded⟩
    · cases done

theorem rootHash_layered (holds : tree.Everywhere (TrieNodeExt.Layered N) anyDigest) :
    tree.rootHash.2.Everywhere (TrieNodeExt.Layered N) anyDigest := by
  intro found same
  obtain ⟨root, opened, rfl⟩ := Option.map_eq_some_iff.mp same
  exact TrieNodeExt.fillHash_layered (holds root opened)

end MerklePatriciaTree

/-! ### Opening a store -/

omit [RlpHasher H] in
/-- If a pass over a list panics nowhere, every step has a result. -/
theorem exists_of_forM {α β : Type} {call : α → Except (Panic H) β} {items : List α}
    (all : (items.forM fun item => do let _ ← call item) = (.ok () : Except (Panic H) PUnit))
    {item : α} (member : item ∈ items) : ∃ result, call item = .ok result := by
  induction items with
  | nil => cases member
  | cons first rest inductionHypothesis =>
    obtain ⟨_, firstDone, restDone⟩ := bind_eq_ok.mp all
    rcases List.mem_cons.mp member with rfl | member
    · obtain ⟨result, same, -⟩ := bind_eq_ok.mp firstDone
      exact ⟨result, same⟩
    · exact inductionHypothesis restDone member

omit [RlpHasher H] in
theorem forChildren_eq_ok {child : Nibble → Except (Panic H) (ChildRef H)}
    {children : Nibble → ChildRef H} (done : forChildren child = .ok children) (index : Nibble) :
    child index = .ok (children index) := by
  obtain ⟨_, all, done⟩ := bind_eq_ok.mp done
  cases done
  obtain ⟨found, same⟩ := exists_of_forM all (List.mem_finRange index)
  dsimp only
  rw [same]

/-- Above the boundary a node may hold anything, so loading the top layer breaks nothing. -/
theorem TrieNodeExt.loadChildren_layered {N : Nat} {db : DBColumn} {levels depth : Nat}
    {me after : NodePtr H} (done : me.loadChildren db levels = .ok after)
    (above : depth + levels < N) (holds : me.Everywhere (TrieNodeExt.Layered N) anyDigest depth)
    (settled : me.cells.Settled) :
    after.Everywhere (TrieNodeExt.Layered N) anyDigest depth ∧ after.cells = me.cells := by
  induction levels generalizing depth me after with
  | zero =>
    cases done
    exact ⟨holds, rfl⟩
  | succ levels inductionHypothesis =>
    obtain ⟨⟨orderly, -⟩, children⟩ := TrieNodeExt.everywhere_iff.mp holds
    have calm := orderly.settled settled
    have loads : ∀ {child loaded : ChildRef H}
        {loadBelow : Option (NodePtr H × Bool) → Except (Panic H) (ChildRef H)},
        loadBelow none = pure child →
        (∀ node isLoaded, loadBelow (some (node, isLoaded)) =
          TrieNodeExt.loadChildren db levels node >>= fun node => pure (.owned node)) →
        child.Calm → child.Everywhere (TrieNodeExt.Layered N) anyDigest (depth + 1) →
        child.ownedOrLoad db >>= loadBelow = .ok loaded →
        loaded.Calm ∧ loaded.Everywhere (TrieNodeExt.Layered N) anyDigest (depth + 1) := by
      intro child loaded loadBelow absent present calm holds done
      obtain ⟨opened, held, done⟩ := bind_eq_ok.mp done
      cases opened with
      | none =>
        rw [absent] at done
        cases done
        exact ⟨calm, holds⟩
      | some pair =>
        obtain ⟨node, isLoaded⟩ := pair
        rw [present] at done
        obtain ⟨node', loadedBelow, done⟩ := bind_eq_ok.mp done
        cases done
        have heldBy := heldBy_of_ownedOrLoad held
        have holdsNode := (survives_layered N db).held heldBy holds
        have settledNode : node.cells.Settled := by
          cases heldBy with
          | owned => exact calm.1
          | loaded stored => exact (layered_of_load N stored 0).2
        obtain ⟨holdsLoaded, sameCells⟩ :=
          inductionHypothesis loadedBelow (by omega) holdsNode settledNode
        have filled :=
          (TrieNodeExt.everywhere_iff.mp holdsNode).1.orderly.filled_of_settled settledNode
        rw [← sameCells] at settledNode filled
        exact ⟨⟨settledNode, filled⟩, ChildRef.everywhere_owned.mpr holdsLoaded⟩
    -- what the children are does not matter for a node above the boundary
    have relinked : ∀ {node : TrieNode (ChildRef H)}, (node.AllChildren fun child =>
        child.Calm ∧ child.Everywhere (TrieNodeExt.Layered N) anyDigest (depth + 1)) →
        (⟨node, me.cells⟩ : NodePtr H).Everywhere (TrieNodeExt.Layered N) anyDigest depth := by
      intro node below
      exact TrieNodeExt.everywhere_iff.mpr
        ⟨⟨orderly.setNode rfl rfl fun _ => below.imp fun _ each => each.1,
          fun _ _ boundary => absurd boundary (by omega)⟩, below.imp fun _ each => each.2⟩
    rw [TrieNodeExt.loadChildren] at done
    dsimp only at done
    split at done
    · cases done
    split at done
    · cases done
      exact ⟨holds, rfl⟩
    · next branch value shape =>
      rw [shape] at calm children
      obtain ⟨loaded, all, done⟩ := bind_eq_ok.mp done
      cases done
      exact ⟨relinked fun index =>
        loads rfl (fun _ _ => rfl) (calm index) (children index) (forChildren_eq_ok all index), rfl⟩
    · next key child shape =>
      rw [shape] at calm children
      obtain ⟨loaded, once, done⟩ := bind_eq_ok.mp done
      cases done
      exact ⟨relinked (loads rfl (fun _ _ => rfl) calm children once), rfl⟩

theorem MerklePatriciaTree.new_layered {N : Nat} {db : DBColumn} {tree : MerklePatriciaTree H}
    (done : MerklePatriciaTree.new N db = .ok tree) :
    tree.Everywhere (TrieNodeExt.Layered N) anyDigest := by
  rw [MerklePatriciaTree.new] at done
  split at done
  · cases done
    exact fun root found => (by cases found)
  · obtain ⟨digest, -, done⟩ := bind_eq_ok.mp done
    obtain ⟨node, loaded, done⟩ := bind_eq_ok.mp done
    split at done
    · cases done
    · next positive =>
      obtain ⟨root, loadedBelow, done⟩ := bind_eq_ok.mp done
      cases done
      intro found same
      cases same
      obtain ⟨holds, settled⟩ := layered_of_load N loaded 0
      exact (TrieNodeExt.loadChildren_layered loadedBelow (by omega) holds settled).1

/-! ### Subtrees that move down -/

namespace MerklePatriciaTree

/-- Where the child of a split extension comes to be: below the new branch, and below what is left
of the extension's key. -/
def movedDepth (rest extKey : List Nibble) (depth : Nat) : Nat :=
  if extKey.drop ((commonPrefix rest extKey).length + 1) = [] then splitDepth rest extKey depth
  else splitDepth rest extKey depth + 1

/-- If the rest of a key splits the node, no settled node that moves down comes to hold a large
node below the boundary. -/
def SplitStaysAbove (N depth : Nat) (rest : List Nibble) : TrieNode (ChildRef H) → Prop
  | .extension extKey child =>
    child.Everywhere (TrieNodeExt.Clear N) anyDigest (movedDepth rest extKey depth)
  | _ => True

instance (N depth : Nat) (rest : List Nibble) :
    (node : TrieNode (ChildRef H)) → Decidable (SplitStaysAbove N depth rest node)
  | .leaf _ _ => inferInstanceAs (Decidable True)
  | .branch _ _ => inferInstanceAs (Decidable True)
  | .extension extKey child => inferInstanceAs
    (Decidable (child.Everywhere (TrieNodeExt.Clear N) anyDigest (movedDepth rest extKey depth)))

/-- The subtree that an insertion moves down has no large node that it takes across the boundary
without a commit's notice. -/
def StaysAbove (N : Nat) (tree : MerklePatriciaTree H) (key : Bytes) : Prop :=
  ∀ root ∈ tree.root, ∀ result ∈ (search N tree.db root key).toOption,
    SplitStaysAbove N result.stack.parents.length result.remainder result.stack.last.node

instance (N : Nat) (tree : MerklePatriciaTree H) (key : Bytes) : Decidable (StaysAbove N tree key) :=
  inferInstanceAs (Decidable (∀ root ∈ tree.root, ∀ result ∈ (search N tree.db root key).toOption,
    SplitStaysAbove N result.stack.parents.length result.remainder result.stack.last.node))

end MerklePatriciaTree

/-- The node's place changes. -/
theorem ChildRef.layered_of_clear {N depth moved : Nat} {child : ChildRef H}
    (holds : child.Everywhere (TrieNodeExt.Layered N) anyDigest depth)
    (clear : child.Everywhere (TrieNodeExt.Clear N) anyDigest moved) :
    child.Everywhere (TrieNodeExt.Layered N) anyDigest moved := by
  induction child using ChildRef.induction generalizing depth moved with
  | null => trivial
  | ref found => trivial
  | owned me inductionHypothesis =>
    obtain ⟨⟨orderly, -⟩, children⟩ := ChildRef.everywhere_owned_iff.mp holds
    obtain ⟨clearMe, clearBelow⟩ := ChildRef.everywhere_owned_iff.mp clear
    exact ChildRef.everywhere_owned_iff.mpr ⟨⟨orderly, clearMe⟩,
      ((inductionHypothesis.and children).and clearBelow).imp
        fun _ all => all.1.1 all.1.2 all.2⟩

namespace MerklePatriciaTree

variable {tree after : MerklePatriciaTree H} {N : Nat}

theorem splitHolds_of_staysAbove {key : Bytes} (stays : StaysAbove N tree key) :
    SplitHolds N (TrieNodeExt.Layered N) anyDigest tree key := by
  intro root result extKey child next more moved delOps delOps' opened searched shape keyTail
    lengthened below
  have clear := stays root opened result (mem_toOption.mpr searched)
  rw [shape] at clear
  have layered := ChildRef.layered_of_clear below clear
  have tail : extKey.drop ((commonPrefix result.remainder extKey).length + 1) = more := by
    rw [← List.drop_drop, keyTail]
    rfl
  rw [movedDepth, tail] at layered
  have survives := survives_layered (H := H) N tree.db
  refine (ChildRef.exile_layered _ ?_).1
  rw [lengthenChild] at lengthened
  split at lengthened
  · next noMore =>
    cases lengthened
    rwa [if_pos noMore] at layered
  · next someMore =>
    rw [if_neg someMore] at layered
    obtain ⟨node, loaded, lengthened⟩ := bind_eq_ok.mp lengthened
    obtain ⟨isLoaded, held⟩ := heldBy_of_loadedMut loaded
    have holds := survives.held held layered
    split at lengthened
    · cases lengthened
      exact survives.sealRef (ChildRef.exile_layered _ (ChildRef.everywhere_owned.mpr holds)).1
    · rw [makeMut_eq] at lengthened
      obtain ⟨after, longer, lengthened⟩ := bind_eq_ok.mp lengthened
      cases lengthened
      have children := survives.shallower (TrieNodeExt.everywhere_iff.mp holds).2
      exact ChildRef.everywhere_owned.mpr
        (survives.changed (addPrefixKey_children (expect_eq_ok.mp longer) children))

end MerklePatriciaTree

/-! ### Runs -/

/-- The operation makes no settled node that moves down hold a large node in memory below the
boundary. -/
def Op.StaysAbove (N : Nat) (tree : MerklePatriciaTree H) : Op → Prop
  | .put key val => val ≠ [] → tree.StaysAbove N key
  | _ => True

instance (N : Nat) (tree : MerklePatriciaTree H) : (op : Op) → Decidable (op.StaysAbove N tree)
  | .put key val => inferInstanceAs (Decidable (val ≠ [] → tree.StaysAbove N key))
  | .get _ => inferInstanceAs (Decidable True)
  | .commit => inferInstanceAs (Decidable True)
  | .flushAll => inferInstanceAs (Decidable True)
  | .root => inferInstanceAs (Decidable True)

namespace MerklePatriciaTree

variable {tree after : MerklePatriciaTree H} {N : Nat}

/-- No operation of the run makes a settled node that moves down hold a large node in memory below
the boundary. -/
def AllStayAbove (N : Nat) : List Op → MerklePatriciaTree H → Prop
  | [], _ => True
  | op :: ops, tree =>
    op.StaysAbove N tree ∧ ∀ after ∈ (tree.step N op).toOption, AllStayAbove N ops after

instance AllStayAbove.decidable (N : Nat) :
    (ops : List Op) → (tree : MerklePatriciaTree H) → Decidable (AllStayAbove N ops tree)
  | [], _ => inferInstanceAs (Decidable True)
  | op :: ops, tree =>
    have := AllStayAbove.decidable N ops
    inferInstanceAs (Decidable (op.StaysAbove N tree ∧
      ∀ after ∈ (tree.step N op).toOption, AllStayAbove N ops after))

theorem step_layered {op : Op} (positive : N ≠ 0) (kind : op ≠ .flushAll)
    (stays : op.StaysAbove N tree) (done : tree.step N op = .ok after)
    (holds : tree.Everywhere (TrieNodeExt.Layered N) anyDigest) :
    after.Everywhere (TrieNodeExt.Layered N) anyDigest := by
  have survives := survives_layered (H := H) N tree.db
  cases op with
  | put key val =>
    by_cases deleted : val = []
    · rw [step, put] at done
      split at done
      · cases done
      · exact (del_holds survives done holds).2
    · exact (put_holds survives done holds (splitHolds_of_staysAbove (stays deleted))).2
  | get key =>
    obtain ⟨⟨found, read⟩, returned, done⟩ := bind_eq_ok.mp done
    cases done
    exact (get_holds survives returned holds).2
  | commit =>
    obtain ⟨⟨digest, committed⟩, returned, done⟩ := bind_eq_ok.mp done
    cases done
    exact (commit_bounded positive returned holds).1
  | flushAll => exact absurd rfl kind
  | root =>
    cases done
    exact rootHash_layered holds

theorem run_layered {ops : List Op} (positive : N ≠ 0) (kinds : ∀ op ∈ ops, op ≠ .flushAll)
    (stay : AllStayAbove N ops tree) (done : ops.foldlM (step N) tree = .ok after)
    (holds : tree.Everywhere (TrieNodeExt.Layered N) anyDigest) :
    after.Everywhere (TrieNodeExt.Layered N) anyDigest := by
  induction ops generalizing tree with
  | nil =>
    cases done
    exact holds
  | cons op ops inductionHypothesis =>
    obtain ⟨middle, stepped, done⟩ := bind_eq_ok.mp done
    obtain ⟨stays, stay⟩ := stay
    refine inductionHypothesis (fun other member => kinds other (List.mem_cons_of_mem _ member))
      (stay middle (mem_toOption.mpr stepped)) done ?_
    exact step_layered positive (kinds op List.mem_cons_self) stays stepped holds

/-- In a run in which no settled node that moves down comes to hold a large node in memory below the
boundary, every commit leaves all large nodes that are in memory above the boundary. -/
theorem bounded_of_allStayAbove {db : DBColumn} {ops : List Op} {current : MerklePatriciaTree H}
    {digest : H} (positive : N ≠ 0) (opened : new N db = .ok tree)
    (kinds : ∀ op ∈ ops, op ≠ .flushAll) (stay : AllStayAbove N ops tree)
    (ran : ops.foldlM (step N) tree = .ok current)
    (committed : current.commit N = .ok (digest, after)) :
    after.Everywhere (TrieNodeExt.Bounded N) anyDigest :=
  (commit_bounded positive committed
    (run_layered positive kinds stay ran (new_layered opened))).2

/-- Two leaves at depth 2 go down when a third key splits the extension above them. -/
def pushedRun : List Op :=
  [.put [0x11, 0x00] (List.replicate 40 1), .put [0x11, 0x10] (List.replicate 40 2), .commit,
    .put [0x20] [1]]

theorem pushedRun_kinds : ∀ op ∈ pushedRun, op ≠ .flushAll := by
  intro op member
  simp only [pushedRun, List.mem_cons, List.not_mem_nil, or_false] at member
  rcases member with rfl | rfl | rfl | rfl
  all_goals exact fun same => by cases same

/-- With a top layer of two levels the commit finds large nodes below it, and drops them. -/
theorem bounded_of_allStayAbove_pushed :
    ∃ (tree current after : MerklePatriciaTree Preimage) (digest : Preimage),
      new 2 DBColumn.empty = .ok tree ∧ pushedRun.foldlM (step 2) tree = .ok current ∧
      ¬ current.Everywhere (TrieNodeExt.Bounded 2) anyDigest ∧
      current.commit 2 = .ok (digest, after) ∧
      after.Everywhere (TrieNodeExt.Bounded 2) anyDigest := by
  have commits : ∃ current ∈ (pushedRun.foldlM (step 2)
      (⟨DBColumn.empty, none, []⟩ : MerklePatriciaTree Preimage)).toOption,
      ¬ current.Everywhere (TrieNodeExt.Bounded 2) anyDigest ∧
        (current.commit 2).toOption.isSome := by
    decide +kernel
  obtain ⟨current, ran, unbounded, commits⟩ := commits
  obtain ⟨⟨digest, after⟩, committed⟩ := Option.isSome_iff_exists.mp commits
  have ran := mem_toOption.mp ran
  have committed := mem_toOption.mp committed
  have opened : new 2 DBColumn.empty =
      .ok (⟨DBColumn.empty, none, []⟩ : MerklePatriciaTree Preimage) := rfl
  exact ⟨_, current, after, digest, opened, ran, unbounded, committed,
    bounded_of_allStayAbove (by decide) opened pushedRun_kinds (by decide +kernel) ran committed⟩

/-- With a top layer of three levels the two leaves stay in memory below it. -/
theorem not_bounded_of_commit : ¬ ∀ (N : Nat) (db : DBColumn) (ops : List Op)
    (tree current after : MerklePatriciaTree Preimage) (digest : Preimage), N ≠ 0 →
    new N db = .ok tree → (∀ op ∈ ops, op ≠ .flushAll) →
    ops.foldlM (step N) tree = .ok current → current.commit N = .ok (digest, after) →
    after.Everywhere (TrieNodeExt.Bounded N) anyDigest := by
  intro bounded
  have unbounded : ¬ ∀ current ∈ (pushedRun.foldlM (step 3)
      (⟨DBColumn.empty, none, []⟩ : MerklePatriciaTree Preimage)).toOption,
      ∀ result ∈ (current.commit 3).toOption,
        result.2.Everywhere (TrieNodeExt.Bounded 3) anyDigest := by
    decide +kernel
  refine unbounded fun current ran result committed => ?_
  exact bounded 3 DBColumn.empty pushedRun _ current result.2 result.1 (by decide) rfl
    pushedRun_kinds (mem_toOption.mp ran) (mem_toOption.mp committed)

end MerklePatriciaTree

end AuthStorage.RainblockTrie
