/-
This file counts how often the nodes in memory account for a digest: a committed node
once for its own digest, and a digest as often as a node with it is stored in the
subtrie. A trie that is loaded counts as its digest did, so a read leaves the count as
it is. A write takes from the nodes exactly what it puts into the list of digests to
be deleted: nothing is lost, and nothing that is still accounted for is put there
twice.
-/

import AuthStorage.RainblockTrie.Kept

namespace AuthStorage.RainblockTrie

open AuthStorage.Lvmt (Bytes DBColumn)

/-! ### Sums over children -/

namespace TrieNode

variable {C : Type}

/-- The sum over the children. -/
def sumChildren (count : C → Nat) : TrieNode C → Nat
  | leaf _ _ => 0
  | branch children _ => ∑ index, count (children index)
  | extension _ child => count child

/-- The sum over the children off the way. -/
def sumOthers (index : Nibble) (count : C → Nat) : TrieNode C → Nat
  | branch children _ => ∑ other ∈ Finset.univ.erase index, count (children other)
  | _ => 0

variable {count : C → Nat} {index : Nibble} {child : C} {node after : TrieNode C}

theorem sumChildren_of_childAt (found : node.childAt index = some child) :
    node.sumChildren count = count child + node.sumOthers index count := by
  cases node with
  | leaf key value => cases found
  | branch children value =>
    cases found
    exact (Finset.add_sum_erase _ (fun other => count (children other))
      (Finset.mem_univ index)).symm
  | extension key below =>
    rw [TrieNode.childAt] at found
    split at found
    · cases found
      rfl
    · cases found

theorem sum_update (children : Nibble → C) (index : Nibble) (child : C) :
    ∑ other, count (Function.update children index child other) =
      count child + ∑ other ∈ Finset.univ.erase index, count (children other) := by
  rw [← Finset.add_sum_erase _ _ (Finset.mem_univ index), Function.update_self]
  refine congrArg (count child + ·) (Finset.sum_congr rfl fun other member => ?_)
  rw [Function.update_of_ne (Finset.ne_of_mem_erase member)]

theorem sumOthers_setChild (done : node.setChild index child = some after) :
    after.sumOthers index count = node.sumOthers index count := by
  cases node with
  | leaf key value => cases done
  | branch children value =>
    cases done
    refine Finset.sum_congr rfl fun other member => ?_
    rw [Function.update_of_ne (Finset.ne_of_mem_erase member)]
  | extension key below =>
    rw [TrieNode.setChild] at done
    split at done
    · cases done
      rfl
    · cases done

theorem sumChildren_setChild (done : node.setChild index child = some after) :
    after.sumChildren count = count child + node.sumOthers index count := by
  cases node with
  | leaf key value => cases done
  | branch children value =>
    cases done
    exact sum_update children index child
  | extension key below =>
    rw [TrieNode.setChild] at done
    split at done
    · cases done
      rfl
    · cases done

theorem sumChildren_mapChildren {C' : Type} {count' : C' → Nat} {change : C → C'}
    (each : node.AllChildren fun child => count' (change child) = count child) :
    (node.mapChildren change).sumChildren count' = node.sumChildren count := by
  cases node with
  | leaf key value => rfl
  | branch children value => exact Finset.sum_congr rfl fun index _ => each index
  | extension key child => exact each

end TrieNode

variable {H : Type} [RlpHasher H] [DecidableEq H]

/-! ### Positions of a digest -/

/-- The node of the trie is referenced by the digest. -/
def ReferencedBy (wanted : H) (sub : Trie) : Prop :=
  32 ≤ (encode H sub).length ∧ digest sub = wanted

instance (wanted : H) : DecidablePred (ReferencedBy wanted) := fun sub =>
  inferInstanceAs (Decidable (32 ≤ (encode H sub).length ∧ digest sub = wanted))

/-- At how many positions of the trie a node is referenced by the digest. -/
def occurrences (wanted : H) (trie : Trie) : Nat := trie.positions (ReferencedBy wanted)

variable {wanted : H}

theorem occurrences_eq_zero_iff {trie : Trie} :
    occurrences wanted trie = 0 ↔ ¬ StoredIn trie wanted := by
  rw [occurrences, RadixTrie.positions_eq_zero_iff]
  constructor
  · rintro none ⟨sub, within, large, rfl⟩
    exact none sub within ⟨large, rfl⟩
  · rintro none sub within ⟨large, rfl⟩
    exact none ⟨sub, within, large, rfl⟩

open Classical in
/-- How often a node with the wanted digest is stored in the trie that a digest stands for. -/
noncomputable def reached (found wanted : H) : Nat :=
  if known : ∃ trie : Trie, found = digest trie then occurrences wanted known.choose else 0

theorem reached_digest [CollisionFree H] (trie : Trie) :
    reached (digest trie : H) wanted = occurrences wanted trie := by
  have known : ∃ other : Trie, (digest trie : H) = digest other := ⟨trie, rfl⟩
  have same : known.choose = trie :=
    encode_injective (CollisionFree.hash_injective known.choose_spec.symm)
  rw [reached, dif_pos known, same]

theorem reached_eq_zero_iff [CollisionFree H] {found : H} :
    reached found wanted = 0 ↔ ¬ Reaches found wanted := by
  by_cases known : ∃ trie : Trie, found = digest trie
  · obtain ⟨trie, rfl⟩ := known
    rw [reached_digest, occurrences_eq_zero_iff]
    refine not_congr ⟨fun stored => ⟨trie, rfl, stored⟩, ?_⟩
    rintro ⟨other, same, stored⟩
    obtain rfl : trie = other := encode_injective (CollisionFree.hash_injective same)
    exact stored
  · rw [reached, dif_neg known]
    refine ⟨fun _ => ?_, fun _ => rfl⟩
    rintro ⟨trie, same, -⟩
    exact known ⟨trie, same⟩

/-! ### Counting in memory -/

instance (cells : Cells H) : Decidable (cells.Keeps wanted) :=
  inferInstanceAs (Decidable (_ ∧ _))

/-- One for the node itself, if it is committed and has the digest. -/
def Cells.count (wanted : H) (cells : Cells H) : Nat := if cells.Keeps wanted then 1 else 0

mutual

/-- How often the nodes from here down account for the digest. -/
noncomputable def TrieNodeExt.count (wanted : H) : NodePtr H → Nat
  | ⟨node, cells⟩ => cells.count wanted + TrieNode.countBelow wanted node

/-- How often the digest is held below a node. -/
noncomputable def TrieNode.countBelow (wanted : H) : TrieNode (ChildRef H) → Nat
  | .leaf _ _ => 0
  | .branch children _ => ∑ index, ChildRef.count wanted (children index)
  | .extension _ child => ChildRef.count wanted child

/-- How often the digest is held from a child on. -/
noncomputable def ChildRef.count (wanted : H) : ChildRef H → Nat
  | .null => 0
  | .ref found => reached found wanted
  | .owned me => TrieNodeExt.count wanted me

end

theorem TrieNodeExt.count_eq (me : NodePtr H) :
    me.count wanted = me.cells.count wanted + me.node.sumChildren (ChildRef.count wanted) := by
  obtain ⟨node, cells⟩ := me
  rw [TrieNodeExt.count.eq_def]
  cases node <;> rfl

theorem ChildRef.count_owned (me : NodePtr H) :
    (ChildRef.owned me).count wanted = me.count wanted := by
  rw [ChildRef.count.eq_def]

theorem ChildRef.count_of_isNull {child : ChildRef H} (null : child.isNull = true) :
    child.count wanted = 0 := by
  cases child with
  | null => rfl
  | ref found => cases null
  | owned me => cases null

omit [RlpHasher H] in
theorem Cells.count_working : (Cells.working : Cells H).count wanted = 0 :=
  if_neg Cells.not_keeps_working

/-- The marks and the encoding do not matter. -/
theorem TrieNodeExt.count_setCells (me : NodePtr H) {cells : Cells H}
    (status : cells.commited = me.cells.commited) (hash : cells.hash = me.cells.hash) :
    (⟨me.node, cells⟩ : NodePtr H).count wanted = me.count wanted := by
  have keeps : cells.Keeps wanted ↔ me.cells.Keeps wanted := by
    rw [Cells.Keeps, Cells.Keeps, status, hash]
  rw [TrieNodeExt.count_eq, TrieNodeExt.count_eq me]
  exact congrArg (· + _) (if_congr keeps rfl rfl)

theorem count_working (node : TrieNode (ChildRef H)) :
    (⟨node, .working⟩ : NodePtr H).count wanted = node.sumChildren (ChildRef.count wanted) := by
  rw [TrieNodeExt.count_eq, Cells.count_working, Nat.zero_add]

theorem count_sealRef (node : TrieNode (ChildRef H)) :
    node.sealRef.count wanted = node.sumChildren (ChildRef.count wanted) :=
  (ChildRef.count_owned _).trans (count_working node)

/-- A mark for exile does not change the count. -/
theorem ChildRef.count_exile (child : ChildRef H) (N depth : Nat) :
    (child.exile N depth).count wanted = child.count wanted := by
  induction child using ChildRef.induction generalizing depth with
  | null => rfl
  | ref found => rfl
  | owned me inductionHypothesis =>
    show (ChildRef.owned (me.exile N depth)).count wanted = _
    rw [ChildRef.count_owned, ChildRef.count_owned, TrieNodeExt.exile_eq]
    split
    · rfl
    split
    · exact me.count_setCells rfl rfl
    · rw [TrieNodeExt.count_eq, TrieNodeExt.count_eq me]
      exact congrArg (me.cells.count wanted + ·) (TrieNode.sumChildren_mapChildren
        (inductionHypothesis.imp fun _ known => known (depth + 1)))

/-! ### Opening references -/

section

variable [CollisionFree H] {N : Nat} {db : DBColumn} {saved : H → Prop}

/-- A child as it is loaded, and a node as it is loaded, count as their subtrie. -/
theorem embedRef_count {node : TrieNode (ChildRef H)} {trie : Trie}
    (split : occurrences wanted trie = (if ReferencedBy wanted trie then 1 else 0) +
      node.sumChildren (ChildRef.count wanted)) :
    (embedRef node (encode H trie)).count wanted = occurrences wanted trie := by
  rw [embedRef]
  by_cases short : (encode H trie).length < 32
  · have embedded : ¬ ReferencedBy wanted trie := fun referenced =>
      absurd referenced.1 (Nat.not_le.mpr short)
    have own : (Cells.light (encode H trie) : Cells H).count wanted = 0 :=
      if_neg fun keeps => by cases keeps.1
    rw [if_pos short, split, if_neg embedded, ChildRef.count_owned, TrieNodeExt.count_eq, own]
  · rw [if_neg short]
    exact reached_digest trie

theorem stub_count (trie : Trie) :
    (stub trie : ChildRef H).count wanted = occurrences wanted trie := by
  induction trie with
  | empty =>
    have none : occurrences wanted RadixTrie.empty = 0 :=
      occurrences_eq_zero_iff.mpr fun stored => stored.ne_empty rfl
    rw [none]
    rfl
  | leaf key value => exact embedRef_count (by rw [occurrences, RadixTrie.positions]; rfl)
  | branch children value inductionHypothesis =>
    refine embedRef_count ?_
    rw [occurrences, RadixTrie.positions, TrieNode.sumChildren]
    exact Nat.add_left_cancel_iff.mpr
      (Finset.sum_congr rfl fun index _ => (inductionHypothesis index).symm)
  | extension key child inductionHypothesis =>
    refine embedRef_count ?_
    rw [occurrences, RadixTrie.positions, TrieNode.sumChildren, inductionHypothesis]
    rfl

theorem loadedNode_count {trie : Trie} (large : 32 ≤ (encode H trie).length) :
    (loadedNode trie : NodePtr H).count wanted = occurrences wanted trie := by
  have own : (loadedNode trie : NodePtr H).cells.count wanted =
      if ReferencedBy wanted trie then 1 else 0 := by
    refine if_congr ⟨fun keeps => ⟨large, Option.some.inj keeps.2⟩, fun referenced => ?_⟩ rfl rfl
    exact ⟨rfl, congrArg some referenced.2⟩
  rw [TrieNodeExt.count_eq, own]
  cases trie with
  | empty => exact absurd rfl (storedIn_self (H := H) large).ne_empty
  | leaf key value =>
    rw [occurrences, RadixTrie.positions]
    rfl
  | branch children value =>
    rw [occurrences, RadixTrie.positions]
    exact Nat.add_left_cancel_iff.mpr (Finset.sum_congr rfl fun index _ => stub_count _)
  | extension key child =>
    rw [occurrences, RadixTrie.positions]
    exact Nat.add_left_cancel_iff.mpr (stub_count child)

/-- A node counts as the reference to it did. -/
theorem count_of_heldBy (honest : HonestStore H db) {child : ChildRef H} {me : NodePtr H}
    {isLoaded : Bool} (held : child.HeldBy db me isLoaded) {property : Nat → NodePtr H → Prop}
    {depth : Nat} (holds : child.Everywhere property (Complete saved) depth) :
    me.count wanted = child.count wanted := by
  cases held with
  | owned => exact (ChildRef.count_owned me).symm
  | @loaded found _ done =>
    rw [ChildRef.Everywhere.eq_def] at holds
    obtain ⟨trie, rfl, large, -⟩ := holds
    have loaded := load_spec honest (H := H) (storedIn_self (H := H) large).ne_empty
    rw [done] at loaded
    obtain rfl : me = loadedNode trie := loaded
    rw [loadedNode_count large]
    exact (reached_digest trie).symm

theorem Opens.count (honest : HonestStore H db) {depth : Nat} {me after : NodePtr H}
    (opens : Opens N db depth me after)
    (holds : me.Everywhere (TrieNodeExt.Kept N saved) (Complete saved) depth) :
    after.count wanted = me.count wanted := by
  induction opens with
  | refl => rfl
  | @child depth me index before child after isLoaded node found held below set
      inductionHypothesis =>
    have beforeHolds := (TrieNodeExt.everywhere_iff.mp holds).2.childAt found
    have childHolds := (survives_kept N saved honest).held held beforeHolds
    rw [TrieNodeExt.count_eq, TrieNodeExt.count_eq me, TrieNode.sumChildren_setChild set,
      TrieNode.sumChildren_of_childAt found, ChildRef.count_owned, inductionHypothesis childHolds,
      count_of_heldBy honest held beforeHolds]
    rfl

end

/-! ### The stack -/

/-- What the nodes above the last one of a stack account for, off the way. -/
noncomputable def framesCount (wanted : H) : List (Frame H) → Nat
  | [] => 0
  | (me, index) :: parents =>
    me.cells.count wanted + me.node.sumOthers index (ChildRef.count wanted) +
      framesCount wanted parents

/-- How often the digest is held along a search and below it. -/
noncomputable def Stack.count (wanted : H) (stack : Stack H) : Nat :=
  stack.last.count wanted + framesCount wanted stack.parents

/-- No node above has cells that are worth anything. -/
def FramesWorking (parents : List (Frame H)) : Prop :=
  ∀ frame ∈ parents, frame.1.cells = .working

namespace MerklePatriciaTree

/-- How often the tree accounts for the digest, to be deleted or in memory. -/
noncomputable def count (wanted : H) (tree : MerklePatriciaTree H) : Nat :=
  tree.delOps.count wanted + (tree.root.map (TrieNodeExt.count wanted)).getD 0

variable {N : Nat} {db : DBColumn} {saved : H → Prop} {delOps delOps' : List H}

theorem searchLoop_count [CollisionFree H] (honest : HonestStore H db) {rounds : Nat}
    {stack : Stack H} {rest : List Nibble} {depth : Nat} {result : SearchResult H}
    (done : searchLoop N db rounds stack rest depth = .ok result)
    (holds : stack.Holds (TrieNodeExt.Kept N saved) (Complete saved)) :
    result.stack.count wanted = stack.count wanted := by
  induction rounds generalizing stack rest depth with
  | zero => cases done
  | succ rounds inductionHypothesis =>
    obtain ⟨step, stepped, done⟩ := bind_eq_ok.mp done
    cases step with
    | matched =>
      cases done
      rfl
    | notMatched =>
      cases done
      rfl
    | next me child index tail =>
      obtain ⟨before, isLoaded, found, held, set, cells⟩ := next_eq_next stepped
      have beforeHolds := (TrieNodeExt.everywhere_iff.mp holds.last).2.childAt found
      rw [inductionHypothesis done (holds.next (survives_kept N saved honest) stepped),
        Stack.count, Stack.count, framesCount, TrieNodeExt.count_eq stack.last,
        TrieNode.sumChildren_of_childAt found, count_of_heldBy honest held beforeHolds,
        TrieNode.sumOthers_setChild set, cells]
      have sameCells : Cells.count wanted { stack.last.cells with
          loaded := stack.last.cells.loaded || (isLoaded && depth ≥ N) } =
        stack.last.cells.count wanted := rfl
      rw [sameCells]
      omega

omit [RlpHasher H] in
/-- A node that is taken for a change has its digest deleted. -/
theorem makeMut_count (me : NodePtr H) (delOps : List H) :
    (me.makeMut delOps).2.count wanted = delOps.count wanted + me.cells.count wanted := by
  rw [TrieNodeExt.makeMut, Cells.count]
  split
  · next found committed hashed =>
    rw [List.count_append, List.count_singleton]
    have keeps : me.cells.Keeps wanted ↔ found = wanted := by
      rw [Cells.Keeps, committed, hashed, Option.some.injEq]
      exact and_iff_right rfl
    simp only [keeps, beq_iff_eq]
  · next other =>
    rw [if_neg fun keeps => other _ keeps.1 keeps.2]
    rfl

theorem resetPointers_count {parents parents' : List (Frame H)}
    (done : resetPointers parents delOps = .ok (parents', delOps')) :
    FramesWorking parents' ∧ ∀ wanted : H, delOps'.count wanted + framesCount wanted parents' =
      delOps.count wanted + framesCount wanted parents := by
  induction parents generalizing parents' delOps' with
  | nil =>
    cases done
    exact ⟨fun frame member => (by cases member), fun wanted => rfl⟩
  | cons frame parents inductionHypothesis =>
    obtain ⟨me, index⟩ := frame
    obtain ⟨⟨up, delOps''⟩, detached, done⟩ := bind_eq_ok.mp done
    obtain ⟨upWorking, upCount⟩ := inductionHypothesis detached
    dsimp only at done
    rw [makeMut_eq] at done
    obtain ⟨node, set, done⟩ := bind_eq_ok.mp done
    cases done
    refine ⟨List.forall_mem_cons.mpr ⟨rfl, upWorking⟩, fun wanted => ?_⟩
    have above := upCount wanted
    have others : node.sumOthers index (ChildRef.count wanted) =
        me.node.sumOthers index (ChildRef.count wanted) :=
      TrieNode.sumOthers_setChild (expect_eq_ok.mp set)
    rw [makeMut_count, framesCount, framesCount, Cells.count_working, others]
    omega

theorem recoverPointers_count {last root : NodePtr H} {parents : List (Frame H)}
    (done : recoverPointers last parents delOps = .ok (root, delOps')) :
    delOps'.count wanted + root.count wanted =
      delOps.count wanted + (last.count wanted + framesCount wanted parents) := by
  induction parents generalizing last delOps with
  | nil =>
    cases done
    rfl
  | cons frame parents inductionHypothesis =>
    obtain ⟨me, index⟩ := frame
    rw [recoverPointers, makeMut_eq] at done
    obtain ⟨node, set, done⟩ := bind_eq_ok.mp done
    rw [inductionHypothesis done, makeMut_count, count_working,
      TrieNode.sumChildren_setChild (expect_eq_ok.mp set), ChildRef.count_owned, framesCount]
    dsimp only
    omega

/-! ### Inserting -/

theorem newLeaf_count (key : List Nibble) (value : Bytes) :
    (TrieNode.newLeaf key value : TrieNode (ChildRef H)).sealRef.count wanted = 0 :=
  count_sealRef _

theorem placeLeaf_count {children : Nibble → ChildRef H} (key : List Nibble)
    (free : ∀ digit rest, key = digit :: rest → (children digit).isNull = true)
    (value val : Bytes) :
    ∑ index, ((placeLeaf children value key val).1 index).count wanted =
      ∑ index, (children index).count wanted := by
  cases key with
  | nil => rfl
  | cons digit rest =>
    rw [placeLeaf, TrieNode.sum_update, newLeaf_count,
      ← ChildRef.count_of_isNull (free digit rest rfl)]
    exact Finset.add_sum_erase _ (fun index => (children index).count wanted)
      (Finset.mem_univ digit)

/-- A leaf that takes the place of another counts for nothing. -/
theorem placeLeaf_vacant {children : Nibble → ChildRef H}
    (vacant : ∀ index, (children index).count wanted = 0) (value : Bytes) (key : List Nibble)
    (val : Bytes) (index : Nibble) :
    ((placeLeaf children value key val).1 index).count wanted = 0 := by
  cases key with
  | nil => exact vacant index
  | cons digit rest =>
    rw [placeLeaf]
    dsimp only
    by_cases same : index = digit
    · rw [same, Function.update_self, newLeaf_count]
    · rw [Function.update_of_ne same]
      exact vacant index

theorem insertOnBranch_count {children : Nibble → ChildRef H} {value : Bytes}
    {rest : List Nibble} {val : Bytes} {depth : Nat} {node : TrieNode (ChildRef H)}
    (done : insertOnBranch N children value rest val depth delOps = .ok (node, delOps'))
    (stops : Stops (.branch children value) rest) :
    delOps' = delOps ∧ node.sumChildren (ChildRef.count wanted) =
      ∑ index, (children index).count wanted := by
  obtain ⟨digit, more, rfl, vacant⟩ := stops
  have free : (children digit).isNull = true := by
    rw [vacant]
    rfl
  rw [insertOnBranch, if_pos free] at done
  cases done
  refine ⟨rfl, placeLeaf_count (digit :: more) (fun first rest same => ?_) value val⟩
  cases same
  exact free

theorem insertOnLeaf_count (key : List Nibble) (value : Bytes) (rest : List Nibble) (val : Bytes) :
    (insertOnLeaf key value rest val : TrieNode (ChildRef H)).sumChildren
      (ChildRef.count wanted) = 0 := by
  have vacant : ∀ index, ((fun _ => .null : Nibble → ChildRef H) index).count wanted = 0 :=
    fun _ => rfl
  have both := placeLeaf_vacant
    (placeLeaf_vacant vacant [] (rest.drop (commonPrefix rest key).length) val)
    (placeLeaf (fun _ => (ChildRef.null : ChildRef H)) []
      (rest.drop (commonPrefix rest key).length) val).2
    (key.drop (commonPrefix rest key).length) value
  rw [insertOnLeaf]
  split
  · exact Finset.sum_eq_zero fun index _ => both index
  · exact (count_sealRef _).trans (Finset.sum_eq_zero fun index _ => both index)

omit [RlpHasher H] [DecidableEq H] in
theorem setValue_sum {count : ChildRef H → Nat} {node after : TrieNode (ChildRef H)} {val : Bytes}
    (done : node.setValue val = some after) : after.sumChildren count = node.sumChildren count := by
  cases node with
  | leaf key value =>
    cases done
    rfl
  | branch children value =>
    cases done
    rfl
  | extension key child => cases done

omit [RlpHasher H] [DecidableEq H] in
theorem addPrefixKey_sum {count : ChildRef H → Nat} {node after : TrieNode (ChildRef H)}
    {front : List Nibble} (done : node.addPrefixKey front = some after) :
    after.sumChildren count = node.sumChildren count := by
  cases node with
  | leaf key value =>
    cases done
    rfl
  | branch children value => cases done
  | extension key child =>
    cases done
    rfl

section

variable [CollisionFree H] (honest : HonestStore H db) {property : Nat → NodePtr H → Prop}

include honest

theorem lengthenChild_count {child moved : ChildRef H} {more : List Nibble} {depth place : Nat}
    (done : lengthenChild N db child more depth delOps = .ok (moved, delOps'))
    (holds : child.Everywhere property (Complete saved) place) :
    delOps'.count wanted + moved.count wanted = delOps.count wanted + child.count wanted := by
  rw [lengthenChild] at done
  split at done
  · cases done
    rfl
  · obtain ⟨node, loaded, done⟩ := bind_eq_ok.mp done
    obtain ⟨isLoaded, held⟩ := heldBy_of_loadedMut loaded
    have same : node.count wanted = child.count wanted := count_of_heldBy honest held holds
    split at done
    · cases done
      rw [count_sealRef, ← same, ← ChildRef.count_owned node,
        ← (ChildRef.owned node).count_exile N (depth + 2)]
      rfl
    · rw [makeMut_eq] at done
      obtain ⟨after, longer, done⟩ := bind_eq_ok.mp done
      cases done
      rw [makeMut_count, ← same, ChildRef.count_owned, count_working,
        addPrefixKey_sum (expect_eq_ok.mp longer), TrieNodeExt.count_eq node]
      exact Nat.add_assoc _ _ _

omit honest in
/-- The rest of the key goes on with another nibble than the extension. -/
theorem head_ne_of_split {rest key more : List Nibble} {next digit : Nibble} {tail : List Nibble}
    (keyTail : key.drop (commonPrefix rest key).length = next :: more)
    (restTail : rest.drop (commonPrefix rest key).length = digit :: tail) : digit ≠ next := by
  rintro rfl
  obtain ⟨-, -, apart⟩ := commonPrefix_spec rest key
  rw [keyTail, restTail] at apart
  cases (apart rfl).1

theorem insertOnExtension_count {key : List Nibble} {child : ChildRef H} {rest : List Nibble}
    {val : Bytes} {depth place : Nat} {node : TrieNode (ChildRef H)}
    (done : insertOnExtension N db key child rest val depth delOps = .ok (node, delOps'))
    (holds : child.Everywhere property (Complete saved) place) :
    delOps'.count wanted + node.sumChildren (ChildRef.count wanted) =
      delOps.count wanted + child.count wanted := by
  rw [insertOnExtension] at done
  dsimp only at done
  split at done
  · cases done
  · next next more keyTail =>
    obtain ⟨⟨moved, delOps''⟩, lengthened, done⟩ := bind_eq_ok.mp done
    have kept : delOps''.count wanted + moved.count wanted =
        delOps.count wanted + child.count wanted := lengthenChild_count honest lengthened holds
    have placed : ∑ index, ((placeLeaf
        (Function.update (fun _ => .null) next (moved.exile N (depth + 2))) []
        (rest.drop (commonPrefix rest key).length) val).1 index).count wanted =
          moved.count wanted := by
      rw [placeLeaf_count, TrieNode.sum_update, ChildRef.count_exile]
      · exact Nat.add_eq_left.mpr (Finset.sum_eq_zero fun _ _ => rfl)
      · intro digit tail restTail
        rw [Function.update_of_ne (head_ne_of_split keyTail restTail)]
        rfl
    dsimp only at done
    split at done
    · cases done
      rw [← kept, ← placed]
      rfl
    · cases done
      rw [← kept, ← placed]
      exact Nat.add_left_cancel_iff.mpr (count_sealRef _)

theorem insert_count {last node : TrieNode (ChildRef H)} {rest : List Nibble} {val : Bytes}
    {depth place : Nat} (done : insert N db last rest val depth delOps = .ok (node, delOps'))
    (stops : Stops last rest)
    (below : last.AllChildren (ChildRef.Everywhere property (Complete saved) place)) :
    delOps'.count wanted + node.sumChildren (ChildRef.count wanted) =
      delOps.count wanted + last.sumChildren (ChildRef.count wanted) := by
  cases last with
  | leaf key value =>
    cases done
    rw [insertOnLeaf_count]
    rfl
  | branch children value =>
    have inserted : delOps' = delOps ∧ node.sumChildren (ChildRef.count wanted) =
        ∑ index, (children index).count wanted := insertOnBranch_count done stops
    rw [inserted.1, inserted.2]
    rfl
  | extension key child => exact insertOnExtension_count honest done below

end

/-! ### Removing -/

section

variable [CollisionFree H] (honest : HonestStore H db) {property : Nat → NodePtr H → Prop}
  {place : Nat}

include honest

theorem dropSingleChildBranch_count {index : Nibble} {child : ChildRef H}
    {node : TrieNode (ChildRef H)}
    (done : dropSingleChildBranch db index child delOps = .ok (node, delOps'))
    (holds : child.Everywhere property (Complete saved) place) :
    delOps'.count wanted + node.sumChildren (ChildRef.count wanted) =
      delOps.count wanted + child.count wanted := by
  obtain ⟨me, loaded, done⟩ := bind_eq_ok.mp done
  obtain ⟨isLoaded, held⟩ := heldBy_of_loadedMut loaded
  have same : me.count wanted = child.count wanted := count_of_heldBy honest held holds
  split at done
  · rw [makeMut_eq] at done
    obtain ⟨after, longer, done⟩ := bind_eq_ok.mp done
    cases done
    rw [makeMut_count, addPrefixKey_sum (expect_eq_ok.mp longer), ← same, TrieNodeExt.count_eq me]
    exact Nat.add_assoc _ _ _
  · cases done
    rw [← same, ← ChildRef.count_owned me]
    rfl

omit honest [CollisionFree H] in
/-- An extension whose key is taken over has been changed already. -/
theorem pushNonBranchToStack_count {node : TrieNode (ChildRef H)} {parents : List (Frame H)}
    {stack : Stack H} (done : pushNonBranchToStack node parents = .ok stack)
    (working : FramesWorking parents) :
    stack.count wanted = node.sumChildren (ChildRef.count wanted) + framesCount wanted parents := by
  cases parents with
  | nil =>
    cases done
    exact congrArg (· + _) (count_working node)
  | cons frame parents =>
    obtain ⟨me, index⟩ := frame
    rw [pushNonBranchToStack] at done
    split at done
    · next extKey child shape =>
      obtain ⟨after, longer, done⟩ := bind_eq_ok.mp done
      cases done
      have taken : me.cells.count wanted + me.node.sumOthers index (ChildRef.count wanted) = 0 := by
        rw [working _ List.mem_cons_self, Cells.count_working, shape]
        rfl
      have same : Stack.count wanted ⟨after.sealNode, parents⟩ =
          after.sumChildren (ChildRef.count wanted) + framesCount wanted parents :=
        congrArg (· + _) (count_working after)
      rw [same, addPrefixKey_sum (expect_eq_ok.mp longer), framesCount, taken, Nat.zero_add]
    · cases done
      exact congrArg (· + _) (count_working node)

theorem settleBranch_count {children : Nibble → ChildRef H} {value : Bytes}
    {parents : List (Frame H)} {stack : Stack H}
    (done : settleBranch db ⟨.branch children value, .working⟩ children parents delOps =
      .ok (stack, delOps'))
    (working : FramesWorking parents)
    (hold : ∀ index, (children index).Everywhere property (Complete saved) place) :
    delOps'.count wanted + stack.count wanted = delOps.count wanted +
      (∑ index, (children index).count wanted + framesCount wanted parents) := by
  rw [settleBranch] at done
  split at done
  · next index only =>
    obtain ⟨⟨node, delOps''⟩, dropped, done⟩ := bind_eq_ok.mp done
    obtain ⟨pushed, placed, done⟩ := bind_eq_ok.mp done
    cases done
    have dropped : delOps'.count wanted + node.sumChildren (ChildRef.count wanted) =
        delOps.count wanted + (children index).count wanted :=
      dropSingleChildBranch_count honest dropped (hold index)
    have others : ∑ other, (children other).count wanted = (children index).count wanted :=
      Finset.sum_eq_single index
        (fun other _ different =>
          ChildRef.count_of_isNull ((onlyChild_eq_some only).2 other different))
        fun absent => absurd (Finset.mem_univ index) absent
    rw [pushNonBranchToStack_count placed working, others]
    omega
  · cases done
    rw [Stack.count, count_working]
    rfl

theorem remove_count {stack : Stack H} {left : Option (Stack H)}
    (done : remove db stack delOps = .ok (left, delOps')) (working : FramesWorking stack.parents)
    (holds : stack.Holds property (Complete saved)) :
    delOps'.count wanted + (left.map (Stack.count wanted)).getD 0 =
      delOps.count wanted + stack.count wanted := by
  obtain ⟨last, parents⟩ := stack
  obtain ⟨-, below⟩ := TrieNodeExt.everywhere_iff.mp holds.last
  -- the last node is taken for the change
  have changed : (last.makeMut delOps).2.count wanted +
      (last.node.sumChildren (ChildRef.count wanted) + framesCount wanted parents) =
        delOps.count wanted + Stack.count wanted ⟨last, parents⟩ := by
    rw [makeMut_count, Stack.count, TrieNodeExt.count_eq last]
    dsimp only
    omega
  rw [← changed]
  rw [remove, makeMut_eq] at done
  dsimp only at below done working
  split at done
  · next children value shape =>
    rw [shape] at below ⊢
    obtain ⟨⟨settled, delOps''⟩, settles, done⟩ := bind_eq_ok.mp done
    cases done
    exact settleBranch_count honest settles working below
  · next key value shape =>
    rw [shape]
    cases parents with
    | nil =>
      cases done
      rfl
    | cons frame parents =>
      obtain ⟨me, index⟩ := frame
      obtain ⟨others, -⟩ := holds.parents
      have upWorking : FramesWorking parents := fun frame member =>
        working frame (List.mem_cons_of_mem _ member)
      dsimp only at done
      rw [makeMut_eq] at done
      dsimp only at done
      split at done
      · next children value' shape' =>
        rw [shape'] at others
        -- the leaf's place is free now, the other children stay
        have cleared : ∀ other, (Function.update children index .null other).Everywhere
            property (Complete saved) (parents.length + 1) := by
          intro other
          by_cases same : other = index
          · rw [same, Function.update_self]
            trivial
          · rw [Function.update_of_ne same]
            exact others other same
        have freed : (me.makeMut (last.makeMut delOps).2).2.count wanted +
            (∑ other, (Function.update children index .null other).count wanted +
              framesCount wanted parents) =
            (last.makeMut delOps).2.count wanted +
              (TrieNode.sumChildren (ChildRef.count wanted) (.leaf key value) +
                framesCount wanted ((me, index) :: parents)) := by
          rw [makeMut_count, framesCount, shape', TrieNode.sum_update, TrieNode.sumOthers,
            TrieNode.sumChildren, ChildRef.count.eq_1]
          omega
        rw [← freed]
        split at done
        · obtain ⟨⟨settled, delOps''⟩, settles, done⟩ := bind_eq_ok.mp done
          cases done
          exact settleBranch_count honest settles upWorking cleared
        · split at done
          · next bare =>
            obtain ⟨pushed, placed, done⟩ := bind_eq_ok.mp done
            cases done
            have nothing : ∑ other, (Function.update children index .null other).count wanted = 0 :=
              Finset.sum_eq_zero fun other _ =>
                ChildRef.count_of_isNull (noChild_iff.mp bare other)
            rw [Option.map_some, Option.getD_some, pushNonBranchToStack_count placed upWorking,
              nothing]
            rfl
          · cases done
            rw [Option.map_some, Option.getD_some, Stack.count, count_working]
            rfl
      · cases done
  · cases done

end

/-! ### The operations -/

variable {tree after : MerklePatriciaTree H}

theorem relink_count {stack : Option (Stack H)} (done : tree.relink stack delOps = .ok after) :
    after.count wanted = delOps.count wanted + (stack.map (Stack.count wanted)).getD 0 := by
  cases stack with
  | none =>
    cases done
    rfl
  | some stack =>
    obtain ⟨⟨root, delOps'⟩, attached, done⟩ := bind_eq_ok.mp done
    cases done
    exact recoverPointers_count attached

section

variable [CollisionFree H] (honest : HonestStore H tree.db) {root : NodePtr H} {key : Bytes}
  {result : SearchResult H} (holds : tree.Kept N saved)

include honest holds

/-- What a search leaves of the tree, and the stack it returns, count the same. -/
theorem search_count (wanted : H) (opened : tree.root = some root)
    (searched : search N tree.db root key = .ok result) :
    tree.delOps.count wanted + (shared result.stack.last result.stack.parents).count wanted =
        tree.count wanted ∧
      tree.delOps.count wanted + result.stack.count wanted = tree.count wanted := by
  have start : (⟨root, []⟩ : Stack H).Holds (TrieNodeExt.Kept N saved) (Complete saved) :=
    ⟨holds root opened, trivial⟩
  have same : tree.count wanted = tree.delOps.count wanted + root.count wanted := by
    rw [count, opened]
    rfl
  rw [same, (search_opens searched).count honest (holds root opened),
    searchLoop_count honest searched start]
  exact ⟨rfl, rfl⟩

/-- A read does not change the count. -/
theorem get_count {found : Option Bytes} (done : tree.get N key = .ok (found, after)) :
    after.count wanted = tree.count wanted := by
  rw [get] at done
  split at done
  · cases done
  · split at done
    · cases done
      rfl
    · next root opened =>
      obtain ⟨result, searched, done⟩ := bind_eq_ok.mp done
      cases done
      exact (search_count honest holds wanted opened searched).1

theorem del_count (done : tree.del N key = .ok after) : after.count wanted = tree.count wanted := by
  rw [del] at done
  split at done
  · cases done
    rfl
  · next root opened =>
    obtain ⟨result, searched, done⟩ := bind_eq_ok.mp done
    obtain ⟨unchanged, same⟩ := search_count honest holds wanted opened searched
    have stack := search_holds (survives_kept N saved honest) searched (holds root opened)
    split at done
    · obtain ⟨⟨parents, delOps⟩, detached, done⟩ := bind_eq_ok.mp done
      obtain ⟨⟨left, delOps'⟩, removed, done⟩ := bind_eq_ok.mp done
      obtain ⟨working, above⟩ := resetPointers_count detached
      obtain ⟨sameLength, hold⟩ := resetPointers_holds detached stack.parents
      have last := stack.last
      rw [← sameLength] at last
      have detachedCount := above wanted
      rw [relink_count done, remove_count honest removed working ⟨last, hold⟩, ← same, Stack.count,
        Stack.count]
      dsimp only
      omega
    · cases done
      exact unchanged

theorem putLast_count {val : Bytes} (opened : tree.root = some root)
    (searched : search N tree.db root key = .ok result)
    (done : tree.putLast N result val = .ok after) : after.count wanted = tree.count wanted := by
  obtain ⟨-, same⟩ := search_count honest holds wanted opened searched
  have stack := search_holds (survives_kept N saved honest) searched (holds root opened)
  obtain ⟨-, below⟩ := TrieNodeExt.everywhere_iff.mp stack.last
  rw [putLast] at done
  obtain ⟨⟨parents, delOps⟩, detached, done⟩ := bind_eq_ok.mp done
  have above := (resetPointers_count detached).2 wanted
  have changed : (result.stack.last.makeMut delOps).2.count wanted +
      (result.stack.last.node.sumChildren (ChildRef.count wanted) + framesCount wanted parents) =
        tree.count wanted := by
    rw [makeMut_count, ← same, Stack.count, TrieNodeExt.count_eq result.stack.last]
    omega
  rw [← changed]
  dsimp only at done
  rw [makeMut_eq] at done
  split at done
  · obtain ⟨node, set, done⟩ := bind_eq_ok.mp done
    have sameSum : node.sumChildren (ChildRef.count wanted) =
        result.stack.last.node.sumChildren (ChildRef.count wanted) :=
      setValue_sum (expect_eq_ok.mp set)
    rw [relink_count done, Option.map_some, Option.getD_some, Stack.count, count_working, sameSum]
  · next absent =>
    obtain ⟨⟨node, delOps'⟩, inserted, done⟩ := bind_eq_ok.mp done
    have stops := searchLoop_stops searched (Bool.eq_false_iff.mpr absent)
    have inserts : delOps'.count wanted + node.sumChildren (ChildRef.count wanted) = _ :=
      insert_count honest inserted stops below
    rw [relink_count done, Option.map_some, Option.getD_some, Stack.count, count_working]
    dsimp only at inserts ⊢
    omega

/-- What a write takes from memory, it puts into the list of digests to be deleted. -/
theorem put_count {val : Bytes} (done : tree.put N key val = .ok after) :
    after.count wanted = tree.count wanted := by
  rw [put] at done
  split at done
  · cases done
  split at done
  · exact del_count honest holds done
  split at done
  · next absent =>
    cases done
    rw [count, count, absent]
    exact Nat.add_left_cancel_iff.mpr (count_working _)
  · next root opened =>
    obtain ⟨result, searched, done⟩ := bind_eq_ok.mp done
    have puts : tree.putLast N result val = .ok after → after.count wanted = tree.count wanted :=
      putLast_count honest holds opened searched
    split at done
    · obtain ⟨value, -, done⟩ := bind_eq_ok.mp done
      split at done
      · cases done
        exact (search_count honest holds wanted opened searched).1
      · exact puts done
    · exact puts done

end

end MerklePatriciaTree

/-! ### What is accounted for at all -/

omit [RlpHasher H] [DecidableEq H] in
theorem TrieNode.sumChildren_ne_zero_iff {count : ChildRef H → Nat} {node : TrieNode (ChildRef H)} :
    node.sumChildren count ≠ 0 ↔ node.AnyChild fun child => count child ≠ 0 := by
  cases node with
  | leaf key value => exact iff_of_false (fun counted => counted rfl) id
  | branch children value => simp [TrieNode.sumChildren, TrieNode.AnyChild]
  | extension key child => exact Iff.rfl

omit [RlpHasher H] in
theorem Cells.keeps_iff_count {cells : Cells H} : cells.Keeps wanted ↔ cells.count wanted ≠ 0 := by
  rw [Cells.count]
  split
  · next keeps => exact iff_of_true keeps Nat.one_ne_zero
  · next other => exact iff_of_false other fun counted => counted rfl

theorem TrieNodeExt.accounts_iff_count_of_children {me : NodePtr H}
    (each : me.node.AllChildren fun child => child.Accounts wanted ↔ child.count wanted ≠ 0) :
    me.Accounts wanted ↔ me.count wanted ≠ 0 := by
  have below : me.node.AnyChild (ChildRef.Accounts wanted) ↔
      me.node.AnyChild fun child => child.count wanted ≠ 0 :=
    ⟨(each.imp fun _ same => same.mp).any, (each.imp fun _ same => same.mpr).any⟩
  rw [TrieNodeExt.accounts_iff, TrieNodeExt.count_eq, Cells.keeps_iff_count, below,
    ← TrieNode.sumChildren_ne_zero_iff, ← not_and_or, ← Nat.add_eq_zero_iff]

section

variable [CollisionFree H]

theorem ChildRef.accounts_iff_count {child : ChildRef H} :
    child.Accounts wanted ↔ child.count wanted ≠ 0 := by
  induction child using ChildRef.induction with
  | null => exact iff_of_false id fun counted => counted rfl
  | ref found =>
    have reaches : reached found wanted = 0 ↔ ¬ Reaches found wanted := reached_eq_zero_iff
    exact (not_iff_comm.mp reaches.symm).symm
  | owned me inductionHypothesis =>
    rw [ChildRef.accounts_owned, ChildRef.count_owned]
    exact TrieNodeExt.accounts_iff_count_of_children inductionHypothesis

theorem TrieNodeExt.accounts_iff_count {me : NodePtr H} :
    me.Accounts wanted ↔ me.count wanted ≠ 0 :=
  TrieNodeExt.accounts_iff_count_of_children (.of_forall (fun _ => ChildRef.accounts_iff_count) _)

end

/-! ### Counts and positions -/

theorem TrieNode.Stands.sum_le {node : TrieNode (ChildRef H)} {trie : Trie}
    (stands : node.Stands trie)
    (each : node.AllChildren fun child => ∀ below : Trie, child.Stands below →
      child.count wanted ≤ occurrences wanted below) :
    (if ReferencedBy wanted trie then 1 else 0) + node.sumChildren (ChildRef.count wanted) ≤
      occurrences wanted trie := by
  cases node with
  | leaf key value =>
    obtain ⟨stored, -, rfl⟩ := stands
    rw [occurrences, RadixTrie.positions]
    exact le_rfl
  | branch children value =>
    obtain ⟨tries, stored, -, rfl, below⟩ := stands
    rw [occurrences, RadixTrie.positions]
    exact Nat.add_le_add_left (Finset.sum_le_sum fun index _ => each index _ (below index)) _
  | extension key child =>
    obtain ⟨below, rfl, standsBelow⟩ := stands
    rw [occurrences, RadixTrie.positions]
    exact Nat.add_le_add_left (each _ standsBelow) _

omit [DecidableEq H] in
theorem TrieNodeExt.Stands.digest_of_keeps {me : NodePtr H} {trie : Trie} (stands : me.Stands trie)
    (keeps : me.cells.Keeps wanted) : digest trie = wanted := by
  have status := (TrieNodeExt.stands_iff.mp stands).2.status
  rw [keeps.1] at status
  exact Option.some.inj (status.2.symm.trans keeps.2)

/-- A large node accounts for its positions at most. -/
theorem TrieNodeExt.Stands.count_le {me : NodePtr H} {trie : Trie} (stands : me.Stands trie)
    (large : me.cells.commited = .committed → 32 ≤ (encode H trie).length)
    (each : me.node.AllChildren fun child => ∀ below : Trie, child.Stands below →
      child.count wanted ≤ occurrences wanted below) :
    me.count wanted ≤ occurrences wanted trie := by
  have below := (TrieNodeExt.stands_iff.mp stands).1.sum_le each
  rw [TrieNodeExt.count_eq, Cells.count]
  split
  · next keeps =>
    rwa [if_pos ⟨large keeps.1, stands.digest_of_keeps keeps⟩] at below
  · rw [Nat.zero_add]
    exact le_trans (Nat.le_add_left _ _) below

theorem ChildRef.Stands.count_le [CollisionFree H] {child : ChildRef H} {trie : Trie}
    (stands : child.Stands trie) : child.count wanted ≤ occurrences wanted trie := by
  induction child using ChildRef.induction generalizing trie with
  | null => exact Nat.zero_le _
  | ref found =>
    obtain ⟨-, rfl⟩ := stands
    exact le_of_eq (reached_digest trie)
  | owned me inductionHypothesis =>
    obtain ⟨standsMe, large⟩ := ChildRef.stands_owned.mp stands
    rw [ChildRef.count_owned]
    exact standsMe.count_le large
      (inductionHypothesis.imp fun _ known below standsBelow => @known below standsBelow)

/-- A root that is small accounts for its own digest only. -/
theorem TrieNodeExt.Stands.count_le_one [CollisionFree H] {me : NodePtr H} {trie : Trie}
    (stands : me.Stands trie) (once : occurrences wanted trie ≤ 1) : me.count wanted ≤ 1 := by
  have each : me.node.AllChildren fun child => ∀ below : Trie, child.Stands below →
      child.count wanted ≤ occurrences wanted below :=
    .of_forall (fun _ _ standsBelow => standsBelow.count_le) _
  by_cases large : 32 ≤ (encode H trie).length
  · exact le_trans (stands.count_le (fun _ => large) each) once
  · have nowhere : occurrences wanted trie = 0 :=
      occurrences_eq_zero_iff.mpr fun stored => large stored.large
    have below := (TrieNodeExt.stands_iff.mp stands).1.sum_le each
    have own : me.cells.count wanted ≤ 1 := by
      rw [Cells.count]
      split <;> omega
    rw [TrieNodeExt.count_eq]
    omega

omit [DecidableEq H] in
/-- Every digest in memory is that of a trie. -/
theorem ChildRef.Stands.known {child : ChildRef H} {trie : Trie} (stands : child.Stands trie)
    (N depth : Nat) :
    child.Everywhere (TrieNodeExt.Kept N fun _ => True) (Complete fun _ => True) depth := by
  induction child using ChildRef.induction generalizing trie depth with
  | null => trivial
  | ref found => exact ⟨trie, stands.2, stands.1, fun _ _ => trivial⟩
  | owned me inductionHypothesis =>
    have standsMe := (ChildRef.stands_owned.mp stands).1
    refine ChildRef.everywhere_owned_iff.mpr ⟨fun _ _ _ _ _ => trivial, ?_⟩
    refine (inductionHypothesis.and standsMe.children).imp ?_
    rintro child ⟨known, below, standsBelow⟩
    exact known standsBelow (depth + 1)

namespace MerklePatriciaTree

variable {tree after : MerklePatriciaTree H} {trie : Trie} {N : Nat} {key : Bytes}

omit [DecidableEq H] in
theorem Represents.known (represents : tree.Represents trie) (N : Nat) :
    tree.Kept N fun _ => True := by
  intro root opened
  have standsRoot := represents.root
  rw [opened] at standsRoot
  refine TrieNodeExt.everywhere_iff.mpr ⟨fun _ _ _ _ _ => trivial, ?_⟩
  refine standsRoot.children.imp ?_
  rintro child ⟨below, standsBelow⟩
  exact standsBelow.known N 1

variable [CollisionFree H]

theorem accounts_iff_count : tree.Accounts wanted ↔ tree.count wanted ≠ 0 := by
  have inMemory : (∃ root, tree.root = some root ∧ root.Accounts wanted) ↔
      (tree.root.map (TrieNodeExt.count wanted)).getD 0 ≠ 0 := by
    cases opened : tree.root with
    | none => simp
    | some root => simp [TrieNodeExt.accounts_iff_count]
  rw [Accounts, inMemory, count, Ne, Ne, Nat.add_eq_zero_iff, not_and_or, List.count_eq_zero,
    not_not]

omit [DecidableEq H] in
/-- No read loses anything. -/
theorem Represents.get_accounts (represents : tree.Represents trie) {found : Option Bytes}
    (done : tree.get N key = .ok (found, after)) (accounts : tree.Accounts wanted) :
    after.Accounts wanted := by
  classical
  rw [accounts_iff_count] at accounts ⊢
  rwa [get_count represents.honest (represents.known N) done]

omit [DecidableEq H] in
/-- No write loses anything that it does not put into the list of digests to be deleted. -/
theorem Represents.put_accounts (represents : tree.Represents trie) {val : Bytes}
    (done : tree.put N key val = .ok after) (accounts : tree.Accounts wanted) :
    after.Accounts wanted := by
  classical
  rw [accounts_iff_count] at accounts ⊢
  rwa [put_count represents.honest (represents.known N) done]

end MerklePatriciaTree

end AuthStorage.RainblockTrie
