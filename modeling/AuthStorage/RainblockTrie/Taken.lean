/-
This file says which nodes a write takes for a change: those on the way to the key,
and the leaf or extension that takes the place of a branch that is left with one
child. Their digests, and no others, are put into the list of digests to be deleted.
If none of them is the digest of a second position of the trie, nothing in memory
accounts any more for what the write has put there.
-/

import AuthStorage.RainblockTrie.Counts

namespace AuthStorage.RainblockTrie

open AuthStorage.Lvmt (Bytes DBColumn)

variable {H : Type} [RlpHasher H]

/-! ### The nodes taken -/

/-- The children of the branch of which a deletion at the last node leaves nothing else: the last
node, or the parent of a leaf that has no value itself. -/
def Stack.remaining (stack : Stack H) : Option (Nibble → ChildRef H) :=
  match stack.last.node with
  | .branch children _ => some children
  | .leaf _ _ =>
    match stack.parents with
    | [] => none
    | (parent, index) :: _ =>
      match parent.node with
      | .branch children value =>
        if value = [] then some (Function.update children index .null) else none
      | _ => none
  | .extension _ _ => none

/-- The leaf or extension that takes the place of a branch with these children. -/
def mergedChild (db : DBColumn) (children : Nibble → ChildRef H) : Option (NodePtr H) := do
  let index ← MerklePatriciaTree.onlyChild children
  let child ← ((children index).loadedMut db).toOption
  if child.node.key.isSome then some child else none

/-- The leaf or extension that a deletion at the last node moves up. -/
def Stack.merged (db : DBColumn) (stack : Stack H) : Option (NodePtr H) :=
  stack.remaining.bind (mergedChild db)

/-- The nodes that a write at the end of a search takes for a change. -/
def Stack.taken (db : DBColumn) (stack : Stack H) (val : Bytes) : List (NodePtr H) :=
  stack.last :: stack.parents.map Prod.fst ++ if val = [] then (stack.merged db).toList else []

/-- A put of the value goes on where the search ended: what it deletes was found, or what it writes
is not there yet. -/
def SearchResult.Changes (result : SearchResult H) (val : Bytes) : Prop :=
  if val = [] then result.isMatched = true
  else ¬ (result.isMatched = true ∧ result.stack.last.node.value = some val)

instance (result : SearchResult H) (val : Bytes) : Decidable (result.Changes val) := by
  unfold SearchResult.Changes
  infer_instance

/-! ### What is to be deleted -/

/-- One of the nodes keeps the digest. -/
def AnyKeeps (wanted : H) (nodes : List (NodePtr H)) : Prop :=
  ∃ me ∈ nodes, me.cells.Keeps wanted

namespace MerklePatriciaTree

variable {N : Nat} {db : DBColumn} {delOps delOps' : List H} {wanted : H}

omit [RlpHasher H] in
theorem of_mem_makeMut {me : NodePtr H} (member : wanted ∈ (me.makeMut delOps).2) :
    wanted ∈ delOps ∨ me.cells.Keeps wanted := by
  rw [TrieNodeExt.makeMut] at member
  split at member
  · next found committed hashed =>
    rcases List.mem_append.mp member with before | own
    · exact .inl before
    · rw [List.mem_singleton.mp own]
      exact .inr ⟨committed, hashed⟩
  · exact .inl member

omit [RlpHasher H] in
theorem makeMut_working (node : TrieNode (ChildRef H)) (delOps : List H) :
    ((⟨node, .working⟩ : NodePtr H).makeMut delOps).2 = delOps := rfl

/-- Every node above is changed, with the child on the way cut off. -/
def Detached (frame after : Frame H) : Prop :=
  after.1.cells = .working ∧ after.2 = frame.2 ∧
    frame.1.node.setChild frame.2 .null = some after.1.node

omit [RlpHasher H] in
theorem resetPointers_detached {parents parents' : List (Frame H)}
    (done : resetPointers parents delOps = .ok (parents', delOps')) :
    List.Forall₂ Detached parents parents' ∧ ∀ wanted : H, wanted ∈ delOps' →
      wanted ∈ delOps ∨ AnyKeeps wanted (parents.map Prod.fst) := by
  induction parents generalizing parents' delOps' with
  | nil =>
    cases done
    exact ⟨.nil, fun wanted member => .inl member⟩
  | cons frame parents inductionHypothesis =>
    obtain ⟨me, index⟩ := frame
    obtain ⟨⟨up, delOps''⟩, above, done⟩ := bind_eq_ok.mp done
    obtain ⟨detached, known⟩ := inductionHypothesis above
    dsimp only at done
    rw [makeMut_eq] at done
    obtain ⟨node, set, done⟩ := bind_eq_ok.mp done
    cases done
    refine ⟨.cons ⟨rfl, rfl, expect_eq_ok.mp set⟩ detached, fun wanted member => ?_⟩
    rcases of_mem_makeMut member with before | keeps
    · refine (known wanted before).imp_right ?_
      rintro ⟨other, inside, keeps⟩
      exact ⟨other, List.mem_cons_of_mem _ inside, keeps⟩
    · exact .inr ⟨me, List.mem_cons_self, keeps⟩

omit [RlpHasher H] in
theorem framesWorking_of_detached {parents parents' : List (Frame H)}
    (detached : List.Forall₂ Detached parents parents') : FramesWorking parents' := by
  induction detached with
  | nil => exact fun frame member => (by cases member)
  | cons head _ inductionHypothesis =>
    exact List.forall_mem_cons.mpr ⟨head.1, inductionHypothesis⟩

omit [RlpHasher H] in
/-- Nodes that have been changed already are not deleted again. -/
theorem recoverPointers_delOps {last root : NodePtr H} {parents : List (Frame H)}
    (done : recoverPointers last parents delOps = .ok (root, delOps'))
    (working : FramesWorking parents) : delOps' = delOps := by
  induction parents generalizing last with
  | nil =>
    cases done
    rfl
  | cons frame parents inductionHypothesis =>
    obtain ⟨⟨node, cells⟩, index⟩ := frame
    obtain ⟨rfl, upWorking⟩ := List.forall_mem_cons.mp working
    rw [recoverPointers, makeMut_eq, makeMut_working] at done
    obtain ⟨after, set, done⟩ := bind_eq_ok.mp done
    exact inductionHypothesis done upWorking

/-! ### Inserting -/

section

variable [CollisionFree H] (honest : HonestStore H db)

include honest

/-- The child of an extension is a branch. -/
theorem lengthenChild_delOps {child moved : ChildRef H} {below : Trie} (stands : child.Stands below)
    (branching : below.IsBranch) {more : List Nibble} {depth : Nat}
    (done : lengthenChild N db child more depth delOps = .ok (moved, delOps')) :
    delOps' = delOps := by
  have nonempty : below ≠ .empty := by
    rintro rfl
    exact branching
  rw [lengthenChild] at done
  split at done
  · cases done
    rfl
  · obtain ⟨node, loaded, done⟩ := bind_eq_ok.mp done
    have held := stands.loadedMut honest nonempty
    rw [loaded] at held
    have standsNode := (TrieNodeExt.stands_iff.mp
      (ChildRef.stands_owned.mp (held.stands stands)).1).1
    obtain ⟨⟨key, value⟩ | ⟨children, value⟩ | ⟨key, child'⟩, cells⟩ := node
    · obtain ⟨stored, -, rfl⟩ := standsNode
      exact branching.elim
    · cases done
      rfl
    · obtain ⟨below', rfl, -⟩ := standsNode
      exact branching.elim

theorem insert_delOps {last node : TrieNode (ChildRef H)} {below : Trie}
    (stands : last.Stands below) (canonical : below.Canonical) {rest : List Nibble} (stops : Stops last rest) {val : Bytes}
    {depth : Nat} (done : insert N db last rest val depth delOps = .ok (node, delOps')) :
    delOps' = delOps := by
  cases last with
  | leaf key value =>
    cases done
    rfl
  | branch children value =>
    obtain ⟨digit, more, rfl, vacant⟩ := stops
    have free : (children digit).isNull = true := by
      rw [vacant]
      rfl
    rw [insert, insertOnBranch, if_pos free] at done
    cases done
    rfl
  | extension key child =>
    obtain ⟨inner, rfl, standsInner⟩ := stands
    rw [insert, insertOnExtension] at done
    dsimp only at done
    split at done
    · cases done
    · obtain ⟨⟨moved, delOps''⟩, lengthened, done⟩ := bind_eq_ok.mp done
      have same := lengthenChild_delOps honest standsInner canonical.2.1 lengthened
      dsimp only at done
      split at done
      · cases done
        exact same
      · cases done
        exact same

end

/-! ### Removing -/

omit [RlpHasher H] in
theorem pushNonBranchToStack_working {node : TrieNode (ChildRef H)} {parents : List (Frame H)}
    {stack : Stack H} (done : pushNonBranchToStack node parents = .ok stack)
    (working : FramesWorking parents) : FramesWorking stack.parents := by
  cases parents with
  | nil =>
    cases done
    exact working
  | cons frame parents =>
    obtain ⟨me, index⟩ := frame
    rw [pushNonBranchToStack] at done
    split at done
    · obtain ⟨after, -, done⟩ := bind_eq_ok.mp done
      cases done
      exact fun frame member => working frame (List.mem_cons_of_mem _ member)
    · cases done
      exact working

theorem settleBranch_delOps {branch : NodePtr H} {children : Nibble → ChildRef H}
    {parents : List (Frame H)} {stack : Stack H}
    (done : settleBranch db branch children parents delOps = .ok (stack, delOps'))
    (working : FramesWorking parents) :
    FramesWorking stack.parents ∧ ∀ wanted ∈ delOps', wanted ∈ delOps ∨
      AnyKeeps wanted (mergedChild db children).toList := by
  rw [settleBranch] at done
  split at done
  · next index only =>
    obtain ⟨⟨node, delOps''⟩, dropped, done⟩ := bind_eq_ok.mp done
    obtain ⟨pushed, placed, done⟩ := bind_eq_ok.mp done
    cases done
    refine ⟨pushNonBranchToStack_working placed working, fun wanted member => ?_⟩
    obtain ⟨child, loaded, dropped⟩ := bind_eq_ok.mp dropped
    split at dropped
    · next keyed =>
      have merges : mergedChild db children = some child := by
        rw [mergedChild, only, Option.bind_eq_bind, Option.bind_some, loaded]
        exact if_pos keyed
      rw [makeMut_eq] at dropped
      obtain ⟨after, -, dropped⟩ := bind_eq_ok.mp dropped
      cases dropped
      refine (of_mem_makeMut member).imp_right fun keeps => ⟨child, ?_, keeps⟩
      rw [merges]
      exact List.mem_singleton.mpr rfl
    · cases dropped
      exact .inl member
  · cases done
    exact ⟨working, fun wanted member => .inl member⟩

omit [RlpHasher H] in
/-- Where a leaf is deleted, its place was cut off already. -/
theorem remaining_of_leaf {last me : NodePtr H} {index : Nibble} {children : Nibble → ChildRef H}
    {parents : List (Frame H)} {key : List Nibble} {value : Bytes}
    (shape : last.node = .leaf key value)
    (set : me.node.setChild index .null = some (.branch children [])) :
    Stack.remaining ⟨last, (me, index) :: parents⟩ =
      some (Function.update children index .null) := by
  rw [Stack.remaining, shape]
  dsimp only
  cases shape' : me.node with
  | leaf key' value' =>
    rw [shape'] at set
    cases set
  | branch children' value' =>
    rw [shape'] at set
    cases set
    rw [Function.update_idem]
    exact if_pos rfl
  | extension key' child =>
    rw [shape', TrieNode.setChild] at set
    split at set <;> cases set

/-- A deletion takes the last node and the one that moves up. -/
theorem remove_delOps {last : NodePtr H} {parents parents' : List (Frame H)}
    {left : Option (Stack H)} (done : remove db ⟨last, parents'⟩ delOps = .ok (left, delOps'))
    (detached : List.Forall₂ Detached parents parents') :
    (∀ found, left = some found → FramesWorking found.parents) ∧ ∀ wanted ∈ delOps',
      wanted ∈ delOps ∨ last.cells.Keeps wanted ∨
        AnyKeeps wanted (Stack.merged db ⟨last, parents⟩).toList := by
  rw [remove, makeMut_eq] at done
  dsimp only at done
  split at done
  · next children value shape =>
    obtain ⟨⟨settled, delOps''⟩, settles, done⟩ := bind_eq_ok.mp done
    cases done
    obtain ⟨working, known⟩ := settleBranch_delOps settles (framesWorking_of_detached detached)
    have remaining : Stack.merged db ⟨last, parents⟩ = mergedChild db children := by
      rw [Stack.merged, Stack.remaining, shape]
      rfl
    rw [remaining]
    refine ⟨fun found same => ?_, fun wanted member => ?_⟩
    · cases same
      exact working
    · rcases known wanted member with before | merged
      · exact (of_mem_makeMut before).imp_right .inl
      · exact .inr (.inr merged)
  · next key value shape =>
    cases detached with
    | nil =>
      cases done
      exact ⟨fun found no => (by cases no),
        fun wanted member => (of_mem_makeMut member).imp_right .inl⟩
    | @cons frame frame' parents parents' head detached =>
      obtain ⟨me, place⟩ := frame
      obtain ⟨⟨node, cells⟩, index⟩ := frame'
      obtain ⟨rfl, rfl, set⟩ := head
      have upWorking := framesWorking_of_detached detached
      dsimp only at done
      rw [makeMut_eq, makeMut_working] at done
      dsimp only at done set
      split at done
      · next children value' =>
        have remaining : value' = [] → Stack.merged db ⟨last, (me, index) :: parents⟩ =
            mergedChild db (Function.update children index .null) := by
          rintro rfl
          rw [Stack.merged, remaining_of_leaf shape set]
          rfl
        split at done
        · next bare =>
          obtain ⟨⟨settled, delOps''⟩, settles, done⟩ := bind_eq_ok.mp done
          cases done
          obtain ⟨working, known⟩ := settleBranch_delOps settles upWorking
          rw [remaining bare]
          refine ⟨fun found same => ?_, fun wanted member => ?_⟩
          · cases same
            exact working
          · rcases known wanted member with before | merged
            · exact (of_mem_makeMut before).imp_right .inl
            · exact .inr (.inr merged)
        · have known : ∀ wanted ∈ (last.makeMut delOps).2, wanted ∈ delOps ∨
              last.cells.Keeps wanted ∨
                AnyKeeps wanted (Stack.merged db ⟨last, (me, index) :: parents⟩).toList :=
            fun wanted member => (of_mem_makeMut member).imp_right .inl
          split at done
          · obtain ⟨pushed, placed, done⟩ := bind_eq_ok.mp done
            cases done
            refine ⟨fun found same => ?_, known⟩
            cases same
            exact pushNonBranchToStack_working placed upWorking
          · cases done
            refine ⟨fun found same => ?_, known⟩
            cases same
            exact upWorking
      · cases done
  · cases done

/-! ### The operations -/

variable {tree after : MerklePatriciaTree H} {trie : Trie} {key val : Bytes}

omit [RlpHasher H] in
theorem relink_delOps {stack : Option (Stack H)} (done : tree.relink stack delOps = .ok after)
    (working : ∀ found, stack = some found → FramesWorking found.parents) :
    after.delOps = delOps := by
  cases stack with
  | none =>
    cases done
    rfl
  | some stack =>
    obtain ⟨⟨root, delOps'⟩, attached, done⟩ := bind_eq_ok.mp done
    cases done
    exact recoverPointers_delOps attached (working stack rfl)

/-- A read puts nothing into the list. -/
theorem get_delOps {found : Option Bytes}
    (done : tree.get N key = .ok (found, after)) : after.delOps = tree.delOps := by
  rw [get] at done
  split at done
  · cases done
  split at done
  · cases done
    rfl
  · obtain ⟨result, -, done⟩ := bind_eq_ok.mp done
    cases done
    rfl

/-- The write at the end of the search takes a node that keeps the digest. -/
def TakesKeeping (N : Nat) (tree : MerklePatriciaTree H) (key val : Bytes) (wanted : H) : Prop :=
  ∃ root result, tree.root = some root ∧ search N tree.db root key = .ok result ∧
    result.Changes val ∧ AnyKeeps wanted (result.stack.taken tree.db val)

theorem del_delOps (done : tree.del N key = .ok after) :
    ∀ wanted ∈ after.delOps, wanted ∈ tree.delOps ∨ tree.TakesKeeping N key [] wanted := by
  intro wanted member
  rw [del] at done
  split at done
  · cases done
    exact .inl member
  · next root opened =>
    obtain ⟨result, searched, done⟩ := bind_eq_ok.mp done
    split at done
    · next matched =>
      obtain ⟨⟨parents, delOps⟩, reset, done⟩ := bind_eq_ok.mp done
      obtain ⟨⟨left, delOps'⟩, removed, done⟩ := bind_eq_ok.mp done
      obtain ⟨detached, above⟩ := resetPointers_detached reset
      obtain ⟨working, known⟩ := remove_delOps removed detached
      rw [relink_delOps done working] at member
      have takes : AnyKeeps wanted (result.stack.taken tree.db []) →
          tree.TakesKeeping N key [] wanted := fun keeps =>
        ⟨root, result, opened, searched, by rw [SearchResult.Changes, if_pos rfl]; exact matched,
          keeps⟩
      rw [Stack.taken, if_pos rfl] at takes
      rcases known wanted member with before | own | ⟨me, inside, keeps⟩
      · refine (above wanted before).imp_right ?_
        rintro ⟨me, inside, keeps⟩
        exact takes ⟨me, List.mem_cons_of_mem _ (List.mem_append_left _ inside), keeps⟩
      · exact .inr (takes ⟨_, List.mem_cons_self, own⟩)
      · exact .inr (takes ⟨me, List.mem_cons_of_mem _ (List.mem_append_right _ inside), keeps⟩)
    · cases done
      exact .inl member

theorem putLast_delOps [CollisionFree H] (represents : tree.Represents trie) {root : NodePtr H}
    {result : SearchResult H} (opened : tree.root = some root)
    (searched : search N tree.db root key = .ok result)
    (done : tree.putLast N result val = .ok after) :
    ∀ wanted ∈ after.delOps, wanted ∈ tree.delOps ∨
      AnyKeeps wanted (result.stack.taken tree.db val) := by
  have standsRoot := represents.root
  rw [opened] at standsRoot
  have finds := search_spec represents.honest N standsRoot represents.canonical key
  rw [searched] at finds
  obtain ⟨crumbs, below, rest, -, -, standsAt, canonical, -, -⟩ := finds
  rw [putLast] at done
  obtain ⟨⟨parents, delOps⟩, reset, done⟩ := bind_eq_ok.mp done
  obtain ⟨detached, above⟩ := resetPointers_detached reset
  have working := framesWorking_of_detached detached
  dsimp only at done
  rw [makeMut_eq] at done
  suffices same : after.delOps = (result.stack.last.makeMut delOps).2 by
    intro wanted member
    rw [same] at member
    rcases of_mem_makeMut member with before | own
    · refine (above wanted before).imp_right ?_
      rintro ⟨me, inside, keeps⟩
      exact ⟨me, List.mem_cons_of_mem _ (List.mem_append_left _ inside), keeps⟩
    · exact .inr ⟨_, List.mem_cons_self, own⟩
  have linked : ∀ {node delOps'}, tree.relink (some ⟨⟨node, .working⟩, parents⟩) delOps' =
      .ok after → after.delOps = delOps' := fun linked => relink_delOps linked fun found same => by
    cases same
    exact working
  split at done
  · obtain ⟨node, -, done⟩ := bind_eq_ok.mp done
    exact linked done
  · next absent =>
    obtain ⟨⟨node, delOps'⟩, inserted, done⟩ := bind_eq_ok.mp done
    have stops := searchLoop_stops searched (Bool.eq_false_iff.mpr absent)
    rw [linked done]
    exact insert_delOps represents.honest (TrieNodeExt.stands_iff.mp standsAt.last).1 canonical
      stops inserted

/-- Only the digests of the nodes that a write takes are put into the list. -/
theorem put_delOps [CollisionFree H] (represents : tree.Represents trie)
    (done : tree.put N key val = .ok after) :
    ∀ wanted ∈ after.delOps, wanted ∈ tree.delOps ∨ tree.TakesKeeping N key val wanted := by
  intro wanted member
  rw [put] at done
  split at done
  · cases done
  split at done
  · next deletes =>
    subst deletes
    exact del_delOps done wanted member
  next writes =>
  split at done
  · cases done
    exact .inl member
  · next root opened =>
    obtain ⟨result, searched, done⟩ := bind_eq_ok.mp done
    have puts : result.Changes val → tree.putLast N result val = .ok after →
        wanted ∈ tree.delOps ∨ tree.TakesKeeping N key val wanted := fun changes done =>
      (putLast_delOps represents opened searched done wanted member).imp_right fun keeps =>
        ⟨root, result, opened, searched, changes, keeps⟩
    rw [SearchResult.Changes, if_neg writes] at puts
    split at done
    · obtain ⟨value, found, done⟩ := bind_eq_ok.mp done
      have found := expect_eq_ok.mp found
      split at done
      · cases done
        exact .inl member
      · next other =>
        refine puts (fun both => other ?_) done
        rw [found] at both
        exact Option.some.inj both.2
    · next absent => exact puts (fun both => absent both.1) done

/-! ### Twins -/

/-- No digest that a put takes out of the store is the digest of two positions of the trie. -/
def TakesNoTwin [DecidableEq H] (N : Nat) (tree : MerklePatriciaTree H) (key val : Bytes) : Prop :=
  ∀ trie : Trie, tree.Represents trie → ∀ root ∈ tree.root,
    ∀ result ∈ (search N tree.db root key).toOption, result.Changes val →
      ∀ me ∈ result.stack.taken tree.db val, ∀ wanted, me.cells.Keeps wanted →
        occurrences wanted trie ≤ 1

/-- The condition at a trie that has the root's encoding. -/
def TakesNoTwinIn [DecidableEq H] (candidates : List Trie) (N : Nat) (tree : MerklePatriciaTree H)
    (key val : Bytes) : Prop :=
  ∀ root ∈ tree.root, ∀ result ∈ (search N tree.db root key).toOption, result.Changes val →
    ∀ me ∈ result.stack.taken tree.db val, me.cells.commited = .committed →
      ∀ wanted ∈ me.cells.hash, ∃ candidate ∈ candidates,
        root.getRlpEncode = encode H candidate ∧ occurrences wanted candidate ≤ 1

instance [DecidableEq H] (candidates : List Trie) (N : Nat) (tree : MerklePatriciaTree H)
    (key val : Bytes) : Decidable (TakesNoTwinIn candidates N tree key val) := by
  unfold TakesNoTwinIn
  infer_instance

/-- An encoding belongs to one trie. -/
theorem TakesNoTwinIn.takesNoTwin [CollisionFree H] [DecidableEq H] {candidates : List Trie}
    (holds : TakesNoTwinIn candidates N tree key val) : tree.TakesNoTwin N key val := by
  intro trie represents root opened result searched changes me inside wanted keeps
  obtain ⟨candidate, -, same, once⟩ :=
    holds root opened result searched changes me inside keeps.1 wanted keeps.2
  have standsRoot := represents.root
  rw [opened] at standsRoot
  rw [TrieNodeExt.Stands.getRlpEncode_eq standsRoot] at same
  rwa [encode_injective same]

/-- What a put without twins puts into the list, nothing in memory accounts for any more. -/
theorem put_spares [CollisionFree H] [DecidableEq H] (represents : tree.Represents trie)
    (single : tree.TakesNoTwin N key val) (done : tree.put N key val = .ok after) {root : NodePtr H}
    (opened : after.root = some root) (member : wanted ∈ after.delOps)
    (fresh : wanted ∉ tree.delOps) : root.count wanted = 0 := by
  obtain ⟨root', result, opened', searched, writes, me, inside, keeps⟩ :=
    (put_delOps represents done wanted member).resolve_left fresh
  have once := single trie represents root' opened' result (mem_toOption.mpr searched) writes me
    inside wanted keeps
  have standsRoot := represents.root
  rw [opened'] at standsRoot
  have before : root'.count wanted ≤ 1 := TrieNodeExt.Stands.count_le_one standsRoot once
  have same : after.count wanted = tree.count wanted :=
    put_count represents.honest (represents.known N) done
  have queued := List.count_pos_iff.mpr member
  rw [count, count, opened, opened', List.count_eq_zero.mpr fresh] at same
  dsimp only [Option.map_some, Option.getD_some] at same
  omega

end MerklePatriciaTree

end AuthStorage.RainblockTrie
