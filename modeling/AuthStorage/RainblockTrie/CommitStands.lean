/-
This file proves that a commit is invisible in what the nodes stand for: dropping
nodes for their digests, marking nodes, emptying the lists of remembered nodes and
committing keep the trie, every entry that is to be written is an encoding under
its digest, and no assertion of a commit fails.
-/

import AuthStorage.RainblockTrie.Stands

namespace AuthStorage.RainblockTrie

open AuthStorage.Lvmt (Bytes)

variable {H : Type} [RlpHasher H]

/-! ### Truncating -/

theorem ChildRef.Stands.truncate {child : ChildRef H} {trie : Trie} (stands : child.Stands trie) :
    child.truncate.Stands trie := by
  cases child with
  | null => exact stands
  | ref found => exact stands
  | owned me =>
    obtain ⟨standsMe, large⟩ := ChildRef.stands_owned.mp stands
    rw [ChildRef.truncate, standsMe.getRlpEncode_eq]
    split
    · obtain ⟨standsFilled, -, committed⟩ := standsMe.fillRlp
      exact ChildRef.stands_owned.mpr ⟨standsFilled, fun done => large (committed.mp done)⟩
    · next long => exact ⟨Nat.le_of_not_lt long, standsMe.hash_eq⟩

theorem TrieNodeExt.Stands.truncate {me : NodePtr H} {trie : Trie} (stands : me.Stands trie) :
    me.truncate.Stands trie := by
  obtain ⟨standsNode, fits⟩ := TrieNodeExt.stands_iff.mp stands
  exact TrieNodeExt.stands_iff.mpr
    ⟨standsNode.mapChildren (.of_forall (fun _ _ below => below.truncate) _), fits⟩

theorem TrieNodeExt.truncateLoaded_eq (me : NodePtr H) :
    me.truncateLoaded =
      if me.cells.loaded then
        ⟨(me.node.mapChildren ChildRef.truncateLoaded).mapChildren ChildRef.truncate,
          { me.cells with loaded := false }⟩
      else ⟨me.node.mapChildren ChildRef.truncateLoaded, me.cells⟩ := by
  obtain ⟨node, cells⟩ := me
  have same : TrieNode.truncateLoadedChildren node =
      node.mapChildren (ChildRef.truncateLoaded (H := H)) := by
    cases node <;> rfl
  rw [TrieNodeExt.truncateLoaded.eq_def]
  dsimp only
  rw [same]
  rfl

theorem TrieNodeExt.Stands.truncateLoaded_of_children {me : NodePtr H} {trie : Trie}
    (stands : me.Stands trie)
    (each : me.node.AllChildren fun child =>
      ∀ below : Trie, child.Stands below → child.truncateLoaded.Stands below) :
    me.truncateLoaded.Stands trie ∧ me.truncateLoaded.cells.commited = me.cells.commited := by
  obtain ⟨standsNode, fits⟩ := TrieNodeExt.stands_iff.mp stands
  have below : (⟨me.node.mapChildren ChildRef.truncateLoaded, me.cells⟩ : NodePtr H).Stands trie :=
    TrieNodeExt.stands_iff.mpr ⟨standsNode.mapChildren each, fits⟩
  rw [TrieNodeExt.truncateLoaded_eq]
  split
  · exact ⟨TrieNodeExt.stands_iff.mpr ⟨(TrieNodeExt.stands_iff.mp below.truncate).1,
      fits.mark false me.cells.exiled⟩, rfl⟩
  · exact ⟨below, rfl⟩

theorem ChildRef.Stands.truncateLoaded {child : ChildRef H} {trie : Trie}
    (stands : child.Stands trie) : child.truncateLoaded.Stands trie := by
  induction child using ChildRef.induction generalizing trie with
  | null => exact stands
  | ref found => exact stands
  | owned me inductionHypothesis =>
    obtain ⟨standsMe, large⟩ := ChildRef.stands_owned.mp stands
    obtain ⟨standsDone, same⟩ := standsMe.truncateLoaded_of_children
      (inductionHypothesis.imp fun _ known below standsBelow => @known below standsBelow)
    exact ChildRef.stands_owned.mpr ⟨standsDone, by rwa [same]⟩

theorem TrieNodeExt.Stands.truncateLoaded {me : NodePtr H} {trie : Trie}
    (stands : me.Stands trie) : me.truncateLoaded.Stands trie :=
  (stands.truncateLoaded_of_children (.of_forall (fun _ _ below => below.truncateLoaded) _)).1

/-! ### Exile -/

omit [RlpHasher H] in
theorem TrieNodeExt.exile_eq (N depth : Nat) (me : NodePtr H) :
    me.exile N depth =
      if depth > N then me
      else if depth = N then ⟨me.node, { me.cells with exiled := true }⟩
      else ⟨me.node.mapChildren (ChildRef.exile N (depth + 1)), me.cells⟩ := by
  obtain ⟨node, cells⟩ := me
  have same : TrieNode.exileChildren N (depth + 1) node =
      node.mapChildren (ChildRef.exile N (depth + 1)) := by
    cases node <;> rfl
  rw [TrieNodeExt.exile.eq_def]
  dsimp only
  rw [same]

theorem ChildRef.Stands.exile {child : ChildRef H} {trie : Trie} (N depth : Nat)
    (stands : child.Stands trie) : (child.exile N depth).Stands trie := by
  induction child using ChildRef.induction generalizing depth trie with
  | null => exact stands
  | ref found => exact stands
  | owned me inductionHypothesis =>
    obtain ⟨standsMe, large⟩ := ChildRef.stands_owned.mp stands
    obtain ⟨standsNode, fits⟩ := TrieNodeExt.stands_iff.mp standsMe
    show ChildRef.Stands (.owned (me.exile N depth)) trie
    rw [TrieNodeExt.exile_eq]
    split
    · exact stands
    · split
      · exact ChildRef.stands_owned.mpr
          ⟨TrieNodeExt.stands_iff.mpr ⟨standsNode, fits.mark me.cells.loaded true⟩, large⟩
      · refine ChildRef.stands_owned.mpr ⟨TrieNodeExt.stands_iff.mpr
          ⟨standsNode.mapChildren (inductionHypothesis.imp ?_), fits⟩, large⟩
        exact fun _ known below standsBelow => @known below (depth + 1) standsBelow

/-! ### Entries -/

/-- An entry to be written is an encoding under its digest. -/
def HonestEntry (entry : H × Bytes) : Prop := entry.1 = RlpHasher.hash entry.2

theorem TrieNode.drainExiledChildren_result (node : TrieNode (ChildRef H)) :
    node.drainExiledChildren.1 = node.mapChildren fun child => child.drainExiled.1 := by
  cases node <;> rfl

theorem TrieNode.drainExiledChildren_putOps {property : H × Bytes → Prop}
    {node : TrieNode (ChildRef H)}
    (each : node.AllChildren fun child => ∀ entry ∈ child.drainExiled.2, property entry) :
    ∀ entry ∈ node.drainExiledChildren.2, property entry := by
  cases node with
  | leaf key value => exact List.forall_mem_nil _
  | branch children value =>
    intro entry member
    obtain ⟨index, -, member⟩ := List.mem_flatMap.mp member
    exact each index entry member
  | extension key child => exact each

theorem TrieNodeExt.drainExiled_eq (me : NodePtr H) :
    me.drainExiled =
      let below : NodePtr H := ⟨me.node.drainExiledChildren.1, me.cells⟩
      let unmarked : NodePtr H := ⟨below.node, { me.cells with exiled := false }⟩
      if me.cells.exiled then
        (unmarked.fillHash.fillRlp,
          me.node.drainExiledChildren.2 ++ [(unmarked.hash, unmarked.getRlpEncode)])
      else (below, me.node.drainExiledChildren.2) := by
  obtain ⟨node, cells⟩ := me
  rw [TrieNodeExt.drainExiled.eq_def]

theorem TrieNodeExt.Stands.drainExiled_of_children {me : NodePtr H} {trie : Trie}
    (stands : me.Stands trie)
    (each : me.node.AllChildren fun child => ∀ below : Trie, child.Stands below →
      child.drainExiled.1.Stands below ∧ ∀ entry ∈ child.drainExiled.2, HonestEntry entry) :
    me.drainExiled.1.Stands trie ∧
      (me.drainExiled.1.cells.commited = .committed ↔ me.cells.commited = .committed) ∧
      ∀ entry ∈ me.drainExiled.2, HonestEntry entry := by
  obtain ⟨standsNode, fits⟩ := TrieNodeExt.stands_iff.mp stands
  have standsBelow : me.node.drainExiledChildren.1.Stands trie := by
    rw [TrieNode.drainExiledChildren_result]
    exact standsNode.mapChildren (each.imp fun _ known below stands => (known below stands).1)
  have honestBelow : ∀ entry ∈ me.node.drainExiledChildren.2, HonestEntry entry := by
    refine TrieNode.drainExiledChildren_putOps ((each.and standsNode.children).imp ?_)
    rintro child ⟨known, below, stands⟩
    exact (known below stands).2
  rw [TrieNodeExt.drainExiled_eq]
  dsimp only
  split
  · have unmarked : TrieNodeExt.Stands
        (⟨me.node.drainExiledChildren.1, { me.cells with exiled := false }⟩ : NodePtr H) trie :=
      TrieNodeExt.stands_iff.mpr ⟨standsBelow, fits.mark me.cells.loaded false⟩
    obtain ⟨hashed, -, committed⟩ := unmarked.fillHash
    obtain ⟨filled, -, committed'⟩ := hashed.fillRlp
    refine ⟨filled, committed'.trans committed, fun entry member => ?_⟩
    rcases List.mem_append.mp member with earlier | last
    · exact honestBelow entry earlier
    · rw [List.mem_singleton.mp last, HonestEntry, unmarked.hash_eq, unmarked.getRlpEncode_eq]
      rfl
  · exact ⟨TrieNodeExt.stands_iff.mpr ⟨standsBelow, fits⟩, Iff.rfl, honestBelow⟩

theorem ChildRef.Stands.drainExiled {child : ChildRef H} {trie : Trie}
    (stands : child.Stands trie) :
    child.drainExiled.1.Stands trie ∧ ∀ entry ∈ child.drainExiled.2, HonestEntry entry := by
  induction child using ChildRef.induction generalizing trie with
  | null => exact ⟨stands, List.forall_mem_nil _⟩
  | ref found => exact ⟨stands, List.forall_mem_nil _⟩
  | owned me inductionHypothesis =>
    obtain ⟨standsMe, large⟩ := ChildRef.stands_owned.mp stands
    obtain ⟨standsDone, committed, honest⟩ := standsMe.drainExiled_of_children
      (inductionHypothesis.imp fun _ known below standsBelow => @known below standsBelow)
    exact ⟨ChildRef.stands_owned.mpr ⟨standsDone, fun done => large (committed.mp done)⟩, honest⟩

theorem TrieNodeExt.Stands.drainExiled {me : NodePtr H} {trie : Trie} (stands : me.Stands trie) :
    me.drainExiled.1.Stands trie ∧
      (me.drainExiled.1.cells.commited = .committed ↔ me.cells.commited = .committed) ∧
      ∀ entry ∈ me.drainExiled.2, HonestEntry entry :=
  stands.drainExiled_of_children (.of_forall (fun _ _ below => below.drainExiled) _)

/-! ### Committing -/

theorem TrieNode.commitChildren_result (N depth : Nat) (topLayer : Bool)
    (node : TrieNode (ChildRef H)) :
    (node.commitChildren N depth topLayer).result =
      node.mapChildren fun child => (child.commit N depth topLayer).result := by
  cases node <;> rfl

theorem TrieNode.commitChildren_putOps {N depth : Nat} {topLayer : Bool}
    {property : H × Bytes → Prop} {node : TrieNode (ChildRef H)}
    (each : node.AllChildren fun child =>
      ∀ entry ∈ (child.commit N depth topLayer).putOps, property entry) :
    ∀ entry ∈ (node.commitChildren N depth topLayer).putOps, property entry := by
  cases node with
  | leaf key value => exact List.forall_mem_nil _
  | branch children value =>
    intro entry member
    obtain ⟨index, -, member⟩ := List.mem_flatMap.mp member
    exact each index entry member
  | extension key child => exact each

theorem TrieNode.commitChildren_asserted {N depth : Nat} {topLayer : Bool}
    {node : TrieNode (ChildRef H)}
    (each : node.AllChildren fun child => (child.commit N depth topLayer).asserted = true) :
    (node.commitChildren N depth topLayer).asserted = true := by
  cases node with
  | leaf key value => rfl
  | branch children value => exact List.all_eq_true.mpr fun index _ => each index
  | extension key child => exact each

/-- A commit goes no deeper: what it is about is written already, or is the other call's. -/
def TrieNodeExt.Skips (N depth : Nat) (topLayer : Bool) (me : NodePtr H) : Prop :=
  (N ≤ depth ∧ topLayer = true) ∨
    ((me.cells.commited = .committed ∨ me.cells.commited = .light) ∧ topLayer = false)

theorem TrieNodeExt.commit_of_skips {N depth : Nat} {topLayer : Bool} {me : NodePtr H}
    (skips : me.Skips N depth topLayer) : me.commit N depth topLayer = ⟨me, [], true⟩ := by
  obtain ⟨node, cells⟩ := me
  rw [TrieNodeExt.commit.eq_def]
  dsimp only
  split
  · rfl
  · next other =>
    exact if_pos (skips.resolve_left other)

theorem TrieNodeExt.commit_of_not_skips {N depth : Nat} {topLayer : Bool} {me : NodePtr H}
    (visits : ¬ me.Skips N depth topLayer) :
    me.commit N depth topLayer =
      let below := me.node.commitChildren N (depth + 1) topLayer
      TrieNodeExt.finishCommit N depth topLayer ⟨below.result, me.cells⟩ below.putOps
        below.asserted := by
  obtain ⟨node, cells⟩ := me
  rw [TrieNodeExt.commit.eq_def]
  dsimp only
  rw [if_neg fun other => visits (.inl other), if_neg fun other => visits (.inr other)]

/-- What a commit of one node achieves, with the children done. -/
structure Settled (depth : Nat) (trie : Trie) (below : List (H × Bytes)) (asserted : Bool)
    (done : Committed H (NodePtr H)) : Prop where
  stands : done.result.Stands trie
  large : depth ≠ 0 → done.result.cells.commited = .committed → 32 ≤ (encode H trie).length
  putOps : ∀ entry ∈ done.putOps, entry ∈ below ∨ entry = (digest trie, encode H trie)
  asserted : asserted = true → done.asserted = true

theorem Settled.truncate {depth : Nat} {trie : Trie} {below : List (H × Bytes)}
    {asserted : Bool} {done : Committed H (NodePtr H)}
    (settled : Settled depth trie below asserted done) :
    Settled depth trie below asserted { done with result := done.result.truncate } :=
  ⟨settled.stands.truncate, settled.large, settled.putOps, settled.asserted⟩

theorem TrieNodeExt.Stands.setCommitted {me : NodePtr H} {trie : Trie} (stands : me.Stands trie)
    (encoded : me.cells.rlpEncode = some (encode H trie))
    (hashed : me.cells.hash = some (digest trie)) :
    TrieNodeExt.Stands (⟨me.node, { me.cells with commited := .committed }⟩ : NodePtr H) trie := by
  obtain ⟨standsNode, fits⟩ := TrieNodeExt.stands_iff.mp stands
  exact TrieNodeExt.stands_iff.mpr ⟨standsNode, fits.hash, encoded, hashed⟩

theorem TrieNodeExt.fillHash_rlpEncode {me : NodePtr H} {trie : Trie} (stands : me.Stands trie)
    (encoded : me.cells.rlpEncode = some (encode H trie)) :
    me.fillHash.cells.rlpEncode = some (encode H trie) := by
  rw [TrieNodeExt.fillHash]
  cases cached : me.cells.hash with
  | some found => exact encoded
  | none => exact stands.fillRlp.2.1

theorem TrieNodeExt.Stands.finishCommit {N depth : Nat} (positive : N ≠ 0) (topLayer : Bool)
    {me : NodePtr H} {trie : Trie} (stands : me.Stands trie)
    (large : depth ≠ 0 → me.cells.commited = .committed → 32 ≤ (encode H trie).length)
    (below : List (H × Bytes)) (asserted : Bool) :
    Settled depth trie below asserted (me.finishCommit N depth topLayer below asserted) := by
  obtain ⟨standsFilled, encoded, committed⟩ := stands.fillRlp
  obtain ⟨standsHashed, hashed, -⟩ := standsFilled.fillHash
  have kept := TrieNodeExt.fillHash_rlpEncode standsFilled encoded
  have untruncated : Settled depth trie below asserted
      (if 32 ≤ me.getRlpEncode.length ∨ depth = 0 then
        ⟨⟨me.fillRlp.fillHash.node, { me.fillRlp.fillHash.cells with commited := .committed }⟩,
          below ++ (if N ≤ depth ∨ topLayer = true then
            [(me.fillRlp.hash, me.getRlpEncode)] else []), asserted && N ≠ 0⟩
      else ⟨me.fillRlp, below, asserted && me.fillRlp.cells.commited = .light && N ≠ 0⟩) := by
    rw [stands.getRlpEncode_eq, standsFilled.hash_eq]
    split
    · next stored =>
      refine ⟨standsHashed.setCommitted kept hashed, fun deep _ => stored.resolve_right deep,
        fun entry member => ?_, fun held => by simp [held, positive]⟩
      rcases List.mem_append.mp member with earlier | last
      · exact .inl earlier
      · split at last
        · exact .inr (List.mem_singleton.mp last)
        · cases last
    · next small =>
      obtain ⟨short, deep⟩ := not_or.mp small
      refine ⟨standsFilled, fun _ done => large deep (committed.mp done),
        fun entry member => .inl member, fun held => ?_⟩
      have light : me.fillRlp.cells.commited = .light := by
        have status := (TrieNodeExt.stands_iff.mp standsFilled).2.status
        have notCommitted := fun done => short (large deep (committed.mp done))
        cases state : me.fillRlp.cells.commited with
        | light => rfl
        | working => exact absurd state stands.fillRlp_not_working
        | pending =>
          rw [state] at status
          exact absurd status.2 short
        | committed => exact absurd state notCommitted
      simp [held, light, positive]
  rw [TrieNodeExt.finishCommit]
  dsimp only
  split
  · exact untruncated.truncate
  · exact untruncated

theorem TrieNodeExt.Stands.commit_of_children {N depth : Nat} (positive : N ≠ 0) (topLayer : Bool)
    {me : NodePtr H} {trie : Trie} (stands : me.Stands trie)
    (large : depth ≠ 0 → me.cells.commited = .committed → 32 ≤ (encode H trie).length)
    (each : me.node.AllChildren fun child => ∀ below : Trie, child.Stands below →
      (child.commit N (depth + 1) topLayer).result.Stands below ∧
      (∀ entry ∈ (child.commit N (depth + 1) topLayer).putOps, HonestEntry entry) ∧
      (child.commit N (depth + 1) topLayer).asserted = true) :
    (me.commit N depth topLayer).result.Stands trie ∧
      (depth ≠ 0 → (me.commit N depth topLayer).result.cells.commited = .committed →
        32 ≤ (encode H trie).length) ∧
      (∀ entry ∈ (me.commit N depth topLayer).putOps, HonestEntry entry) ∧
      (me.commit N depth topLayer).asserted = true := by
  by_cases skips : me.Skips N depth topLayer
  · rw [TrieNodeExt.commit_of_skips skips]
    exact ⟨stands, large, List.forall_mem_nil _, rfl⟩
  · obtain ⟨standsNode, fits⟩ := TrieNodeExt.stands_iff.mp stands
    have both := each.and standsNode.children
    have standsBelow : TrieNodeExt.Stands
        (⟨(me.node.commitChildren N (depth + 1) topLayer).result, me.cells⟩ : NodePtr H) trie := by
      rw [TrieNode.commitChildren_result]
      exact TrieNodeExt.stands_iff.mpr ⟨standsNode.mapChildren
        (each.imp fun _ known below stands => (known below stands).1), fits⟩
    have honest : ∀ entry ∈ (me.node.commitChildren N (depth + 1) topLayer).putOps,
        HonestEntry entry := by
      refine TrieNode.commitChildren_putOps (both.imp ?_)
      rintro child ⟨known, below, stands⟩
      exact (known below stands).2.1
    have asserted : (me.node.commitChildren N (depth + 1) topLayer).asserted = true := by
      refine TrieNode.commitChildren_asserted (both.imp ?_)
      rintro child ⟨known, below, stands⟩
      exact (known below stands).2.2
    have settled := standsBelow.finishCommit positive topLayer large
      (me.node.commitChildren N (depth + 1) topLayer).putOps
      (me.node.commitChildren N (depth + 1) topLayer).asserted
    rw [TrieNodeExt.commit_of_not_skips skips]
    refine ⟨settled.stands, settled.large, fun entry member => ?_, settled.asserted asserted⟩
    rcases settled.putOps entry member with earlier | rfl
    · exact honest entry earlier
    · rfl

theorem ChildRef.Stands.commit {N depth : Nat} (positive : N ≠ 0) (topLayer : Bool)
    {child : ChildRef H} {trie : Trie} (stands : child.Stands trie) :
    (child.commit N (depth + 1) topLayer).result.Stands trie ∧
      (∀ entry ∈ (child.commit N (depth + 1) topLayer).putOps, HonestEntry entry) ∧
      (child.commit N (depth + 1) topLayer).asserted = true := by
  induction child using ChildRef.induction generalizing depth trie with
  | null => exact ⟨stands, List.forall_mem_nil _, rfl⟩
  | ref found => exact ⟨stands, List.forall_mem_nil _, rfl⟩
  | owned me inductionHypothesis =>
    obtain ⟨standsMe, large⟩ := ChildRef.stands_owned.mp stands
    have deep : depth + 1 ≠ 0 → me.cells.commited = .committed → 32 ≤ (encode H trie).length :=
      fun _ => large
    obtain ⟨standsDone, largeDone, honest, asserted⟩ :=
      standsMe.commit_of_children positive topLayer deep
        (inductionHypothesis.imp fun _ known below standsBelow =>
          @known (depth + 1) below standsBelow)
    exact ⟨ChildRef.stands_owned.mpr ⟨standsDone, largeDone (Nat.succ_ne_zero depth)⟩, honest,
      asserted⟩

/-- Committing from the root down. -/
theorem TrieNodeExt.Stands.commit {N : Nat} (positive : N ≠ 0) (topLayer : Bool)
    {me : NodePtr H} {trie : Trie} (stands : me.Stands trie) :
    (me.commit N 0 topLayer).result.Stands trie ∧
      (∀ entry ∈ (me.commit N 0 topLayer).putOps, HonestEntry entry) ∧
      (me.commit N 0 topLayer).asserted = true := by
  obtain ⟨standsDone, -, honest, asserted⟩ :=
    stands.commit_of_children positive topLayer (fun deep => absurd rfl deep)
      (.of_forall (fun _ _ below => below.commit positive topLayer) _)
  exact ⟨standsDone, honest, asserted⟩

end AuthStorage.RainblockTrie
