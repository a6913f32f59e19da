/-
This file proves what a removal does: the key where the search ended is gone,
everything else stays, and the shape is canonical again. A branch that is left with
one child and no value turns into that child with a longer key, a branch that is
left with its value alone into a leaf, and what is not a branch joins an extension
above it.
-/

import AuthStorage.RainblockTrie.Insert

namespace AuthStorage.RainblockTrie

open AuthStorage.Lvmt (Bytes DBColumn)
open RadixTrie (plug pathTo lookup)

variable {H : Type}

/-! ### Counting children -/

section

variable {children : Nibble → ChildRef H}

theorem mem_nonNull (children : Nibble → ChildRef H) (idx : Nibble) :
    idx ∈ (List.finRange 16).filter (fun idx => !(children idx).isNull) ↔
      (children idx).isNull = false := by
  rw [List.mem_filter]
  simp

theorem onlyChild_eq_some {idx : Nibble} (only : MerklePatriciaTree.onlyChild children = some idx) :
    (children idx).isNull = false ∧ ∀ other, other ≠ idx → (children other).isNull = true := by
  have members := mem_nonNull children
  unfold MerklePatriciaTree.onlyChild at only
  split at only
  · next found same =>
    cases only
    rw [same] at members
    refine ⟨(members idx).mp List.mem_cons_self, fun other different => ?_⟩
    by_contra nonNull
    exact different (List.mem_singleton.mp ((members other).mpr (by simpa using nonNull)))
  · cases only

theorem exists_other_of_onlyChild {idx : Nibble}
    (several : MerklePatriciaTree.onlyChild children = none)
    (nonNull : (children idx).isNull = false) :
    ∃ other, other ≠ idx ∧ (children other).isNull = false := by
  have nodup : ((List.finRange 16).filter fun idx => !(children idx).isNull).Nodup :=
    (List.nodup_finRange 16).filter _
  have members := mem_nonNull children
  unfold MerklePatriciaTree.onlyChild at several
  generalize (List.finRange 16).filter (fun idx => !(children idx).isNull) = found at *
  match found, several with
  | [], _ => exact absurd ((members idx).mpr nonNull) List.not_mem_nil
  | first :: second :: rest, _ =>
    have apart : first ≠ second := fun same =>
      (List.nodup_cons.mp nodup).1 (same ▸ List.mem_cons_self)
    by_cases same : first = idx
    · exact ⟨second, fun equal => apart (same.trans equal.symm),
        (members second).mp (List.mem_cons_of_mem _ List.mem_cons_self)⟩
    · exact ⟨first, same, (members first).mp List.mem_cons_self⟩

theorem noChild_iff :
    MerklePatriciaTree.noChild children = true ↔ ∀ idx, (children idx).isNull = true := by
  rw [MerklePatriciaTree.noChild, List.all_eq_true]
  exact ⟨fun all idx => all idx (List.mem_finRange idx), fun all idx _ => all idx⟩

end

variable [RlpHasher H]

/-! ### Longer keys -/

theorem addPrefixKey_spec {node : TrieNode (ChildRef H)} {trie : Trie} (stands : node.Stands trie)
    (plain : ¬ trie.IsBranch) (front : List Nibble) :
    ∃ node', node.addPrefixKey front = some node' ∧
      node'.Stands (RadixTrie.prepend front trie) := by
  cases node with
  | leaf key value =>
    obtain ⟨stored, rfl, rfl⟩ := stands
    exact ⟨_, rfl, stored, rfl, rfl⟩
  | branch children value =>
    obtain ⟨tries, stored, -, rfl, -⟩ := stands
    exact absurd trivial plain
  | extension key child =>
    obtain ⟨below, rfl, standsBelow⟩ := stands
    exact ⟨_, rfl, below, rfl, standsBelow⟩

theorem prepend_not_isBranch (front : List Nibble) (trie : Trie) :
    ¬ (RadixTrie.prepend front trie).IsBranch := by
  cases trie <;> exact id

theorem dropSingleChildBranch_spec [CollisionFree H] {db : DBColumn} (honest : HonestStore H db)
    {child : ChildRef H} {trie : Trie} (stands : child.Stands trie) (nonempty : trie ≠ .empty)
    (idx : Nibble) (delOps : List H) :
    UnlessMissing db (fun result => result.1.Stands (RadixTrie.prepend [idx] trie))
      (MerklePatriciaTree.dropSingleChildBranch db idx child delOps) := by
  refine (stands.loadedMut honest nonempty).bind fun node held => ?_
  have standsOwned := held.stands stands
  have standsNode := (TrieNodeExt.stands_iff.mp (ChildRef.stands_owned.mp standsOwned).1).1
  by_cases branching : trie.IsBranch
  · cases trie with
    | branch tries stored =>
      have noKey : node.node.key = none := by
        cases shape : node.node with
        | branch children value => rfl
        | leaf key value =>
          rw [shape] at standsNode
          obtain ⟨stored', -, same⟩ := standsNode
          cases same
        | extension key child =>
          rw [shape] at standsNode
          obtain ⟨below, same, -⟩ := standsNode
          cases same
      rw [noKey]
      exact ⟨_, rfl, standsOwned⟩
    | empty => exact branching.elim
    | leaf key value => exact branching.elim
    | extension key below => exact branching.elim
  · obtain ⟨node', done, stands'⟩ := addPrefixKey_spec standsNode branching [idx]
    have hasKey : node.node.key.isSome = true := by
      cases shape : node.node with
      | branch children value =>
        rw [shape] at standsNode
        obtain ⟨tries, stored, -, rfl, -⟩ := standsNode
        exact absurd trivial branching
      | leaf key value => rfl
      | extension key child => rfl
    rw [if_pos hasKey]
    show UnlessMissing db _ (expect ((node.makeMut delOps).1.node.addPrefixKey [idx]) >>= _)
    rw [makeMut_fst, done]
    exact stands'

/-! ### The stack afterwards -/

/-- The stack is one of a canonical trie with these contents, and its last node is new. -/
structure Stack.Rebuilds (stack : Stack H) (contents : List Nibble → Option Value)
    (crumbs : List Crumb) (after : Trie) : Prop where
  parents : List.Forall₂ Frame.Matches stack.parents crumbs
  last : stack.last.Stands after
  changed : stack.last.cells.commited ≠ .committed
  canonical : (plug crumbs after).Canonical
  lookup : (plug crumbs after).lookup = contents

theorem pushNonBranchToStack_spec {node : TrieNode (ChildRef H)} {trie : Trie}
    (stands : node.Stands trie) (plain : ¬ trie.IsBranch) (canonical : trie.Canonical)
    {parents : List (Frame H)} {crumbs : List Crumb}
    (isMatch : List.Forall₂ Frame.Matches parents crumbs)
    (canonicalPath : RadixTrie.CanonicalPath crumbs) :
    ∃ stack crumbs' after, MerklePatriciaTree.pushNonBranchToStack node parents = .ok stack ∧
      stack.Rebuilds (plug crumbs trie).lookup crumbs' after := by
  have nonempty := stands.ne_empty
  have sealed : TrieNodeExt.Stands node.sealNode trie :=
    TrieNodeExt.stands_iff.mpr ⟨stands, Cells.fits_working _⟩
  have changed : (node.sealNode : NodePtr H).cells.commited ≠ .committed := fun no => by cases no
  cases isMatch with
  | nil => exact ⟨_, [], trie, rfl, .nil, sealed, changed, canonical, rfl⟩
  | @cons frame crumb parents crumbs head tail =>
    obtain ⟨⟨before, cells⟩, pos⟩ := frame
    cases crumb with
    | branch tries value digit =>
      obtain ⟨rfl, children, rfl, others⟩ := id head
      refine ⟨_, _, trie, rfl, .cons head tail, sealed, changed, ?_, rfl⟩
      exact (RadixTrie.canonical_plug_iff _ nonempty).mpr ⟨canonicalPath, canonical, False.elim⟩
    | extension key =>
      obtain ⟨rfl, child, rfl⟩ := head
      obtain ⟨proper, canonicalUp, apart⟩ := canonicalPath
      obtain ⟨node', done, standsLonger⟩ := addPrefixKey_spec stands plain key
      refine ⟨⟨node'.sealNode, parents⟩, crumbs, RadixTrie.prepend key trie, ?_, tail,
        TrieNodeExt.stands_iff.mpr ⟨standsLonger, Cells.fits_working _⟩, fun no => (by cases no),
        ?_, ?_⟩
      · rw [MerklePatriciaTree.pushNonBranchToStack]
        dsimp only
        rw [done]
        rfl
      · exact (RadixTrie.canonical_plug_iff _ (RadixTrie.prepend_ne_empty key nonempty)).mpr
          ⟨canonicalUp, canonical.prepend proper, fun needed => absurd trivial (apart needed)⟩
      · exact RadixTrie.lookup_plug_congr crumbs (RadixTrie.lookup_prepend key trie)

/-- A branch without a value that still has a child. -/
theorem settleBranch_spec [CollisionFree H] {db : DBColumn} (honest : HonestStore H db)
    {children : Nibble → ChildRef H} {tries : Nibble → Trie}
    (stand : ∀ index, (children index).Stands (tries index))
    (canonical : ∀ digit, (tries digit).Canonical) {digit : Nibble}
    (occupied : tries digit ≠ .empty) {parents : List (Frame H)} {crumbs : List Crumb}
    (isMatch : List.Forall₂ Frame.Matches parents crumbs)
    (canonicalPath : RadixTrie.CanonicalPath crumbs) (delOps : List H) :
    UnlessMissing db (fun result => ∃ crumbs' after,
      result.1.Rebuilds (plug crumbs (.branch tries none)).lookup crumbs' after)
      (MerklePatriciaTree.settleBranch db ⟨.branch children [], .working⟩ children parents
        delOps) := by
  have isNull : ∀ index, (children index).isNull = true ↔ tries index = .empty :=
    fun index => (stand index).eq_empty_iff.symm
  rw [MerklePatriciaTree.settleBranch]
  cases only : MerklePatriciaTree.onlyChild children with
  | some idx =>
    obtain ⟨nonNull, others⟩ := onlyChild_eq_some only
    have nonempty : tries idx ≠ .empty := fun empty => by
      rw [(isNull idx).mpr empty] at nonNull
      cases nonNull
    refine (dropSingleChildBranch_spec honest (stand idx) nonempty idx delOps).bind ?_
    rintro ⟨connectNode, delOps⟩ standsConnect
    obtain ⟨stack, crumbs', after, done, rebuilds⟩ := pushNonBranchToStack_spec standsConnect
      (prepend_not_isBranch [idx] (tries idx)) ((canonical idx).prepend (List.cons_ne_nil idx []))
      isMatch canonicalPath
    dsimp only
    rw [done]
    refine ⟨crumbs', after, rebuilds.parents, rebuilds.last, rebuilds.changed, rebuilds.canonical,
      rebuilds.lookup.trans (RadixTrie.lookup_plug_congr crumbs ?_)⟩
    exact (RadixTrie.lookup_branch_single fun other different =>
      (isNull other).mp (others other different)).symm
  | none =>
    have nonNull : (children digit).isNull = false := by
      cases null : (children digit).isNull with
      | false => rfl
      | true => exact absurd ((isNull digit).mp null) occupied
    obtain ⟨other, different, nonNull'⟩ := exists_other_of_onlyChild only nonNull
    have occupied' : tries other ≠ .empty := fun empty => by
      rw [(isNull other).mpr empty] at nonNull'
      cases nonNull'
    have apart : some other ≠ some digit := fun same => different (Option.some.inj same)
    refine ⟨crumbs, .branch tries none, isMatch, ?_, fun no => (by cases no), ?_, rfl⟩
    · exact TrieNodeExt.stands_iff.mpr ⟨⟨tries, none, rfl, rfl, stand⟩, Cells.fits_working _⟩
    · exact (RadixTrie.canonical_plug_iff _ (fun empty => by cases empty)).mpr
        ⟨canonicalPath, ⟨canonical, some other, some digit, apart, occupied', occupied⟩,
          fun _ => trivial⟩

/-! ### Removing the key -/

/-- What is left of a trie: nothing, or a stack that rebuilds it. -/
def Leaves (contents : List Nibble → Option Value) : Option (Stack H) → Prop
  | none => contents = (RadixTrie.empty : Trie).lookup
  | some stack => ∃ crumbs after, stack.Rebuilds contents crumbs after

theorem lookup_clearBranch (tries : Nibble → Trie) (stored : Option Value) :
    (RadixTrie.branch tries none).lookup =
      Function.update (RadixTrie.branch tries stored).lookup [] none := by
  funext wanted
  cases wanted with
  | nil => rw [Function.update_self]; rfl
  | cons head tail => rw [Function.update_of_ne (List.cons_ne_nil _ _)]; rfl

theorem lookup_clearLeaf (key : List Nibble) (stored : Value) :
    (RadixTrie.empty : Trie).lookup =
      Function.update (RadixTrie.leaf key stored).lookup key none := by
  funext wanted
  by_cases same : wanted = key
  · subst same
    rw [Function.update_self]
    rfl
  · rw [Function.update_of_ne same, RadixTrie.lookup_leaf, if_neg (Ne.symm same)]
    rfl

theorem Crumb.exists_child {tries : Nibble → Trie} {digit : Nibble}
    (canonical : (RadixTrie.Crumb.branch tries none digit).Canonical) :
    ∃ other, other ≠ digit ∧ tries other ≠ .empty := by
  obtain ⟨-, position, apart, occupied⟩ := canonical
  cases position with
  | none => exact absurd rfl occupied
  | some other => exact ⟨other, fun same => apart (congrArg some same), occupied⟩

/-- A branch loses its value. -/
theorem removeValue_spec [CollisionFree H] {db : DBColumn} (honest : HonestStore H db)
    {children : Nibble → ChildRef H} {tries : Nibble → Trie}
    (stand : ∀ index, (children index).Stands (tries index)) {stored : Option Value}
    {parents : List (Frame H)} {crumbs : List Crumb}
    (isMatch : List.Forall₂ Frame.Matches parents crumbs)
    (canonical : (plug crumbs (.branch tries stored)).Canonical) (delOps : List H) :
    UnlessMissing db (fun result => ∃ crumbs' after, result.1.Rebuilds
      (Function.update (plug crumbs (.branch tries stored)).lookup (pathTo crumbs ++ []) none)
        crumbs' after)
      (MerklePatriciaTree.settleBranch db ⟨.branch children [], .working⟩ children parents
        delOps) := by
  obtain ⟨canonicalPath, ⟨canonicalTries, first, second, apart, firstOccupied, secondOccupied⟩, -⟩ :=
    (RadixTrie.canonical_plug_iff crumbs (fun empty => by cases empty)).mp canonical
  obtain ⟨digit, occupied⟩ : ∃ digit, tries digit ≠ .empty := by
    cases first with
    | some digit => exact ⟨digit, firstOccupied⟩
    | none =>
      cases second with
      | some digit => exact ⟨digit, secondOccupied⟩
      | none => exact absurd rfl apart
  rw [← RadixTrie.lookup_plug_update crumbs (lookup_clearBranch tries stored)]
  exact settleBranch_spec honest stand canonicalTries occupied isMatch canonicalPath delOps

omit [RlpHasher H] in
theorem makeMut_eq (me : NodePtr H) (delOps : List H) :
    me.makeMut delOps = (⟨me.node, .working⟩, (me.makeMut delOps).2) := by
  rw [← makeMut_fst me delOps]

theorem remove_makeMut (db : DBColumn) (last : NodePtr H) (parents : List (Frame H))
    (delOps : List H) :
    MerklePatriciaTree.remove db ⟨last, parents⟩ delOps =
      MerklePatriciaTree.remove db ⟨⟨last.node, .working⟩, parents⟩ (last.makeMut delOps).2 := by
  rw [MerklePatriciaTree.remove]
  dsimp only
  rw [makeMut_eq last]
  rfl

theorem lookup_clearChild (tries : Nibble → Trie) (stored : Option Value) (digit : Nibble)
    (key : List Nibble) (leafValue : Value) :
    (RadixTrie.branch (Function.update tries digit .empty) stored).lookup =
      Function.update ((RadixTrie.Crumb.branch tries stored digit).fill (.leaf key leafValue)).lookup
        (digit :: key) none :=
  (RadixTrie.Crumb.branch tries stored digit).lookup_fill_update (lookup_clearLeaf key leafValue)

/-- A branch loses a leaf. -/
theorem removeLeaf_spec [CollisionFree H] {db : DBColumn} (honest : HonestStore H db)
    {children : Nibble → ChildRef H} {tries : Nibble → Trie} {stored : Option Value}
    {digit : Nibble} (others : ∀ other, other ≠ digit → (children other).Stands (tries other))
    {parents : List (Frame H)} {crumbs : List Crumb}
    (isMatch : List.Forall₂ Frame.Matches parents crumbs)
    (canonicalPath : RadixTrie.CanonicalPath (.branch tries stored digit :: crumbs))
    (cells : Cells H) (key : List Nibble) (leafValue : Value) (delOps : List H) :
    UnlessMissing db (fun result => Leaves (Function.update
        (plug (.branch tries stored digit :: crumbs) (.leaf key leafValue)).lookup
        (pathTo (.branch tries stored digit :: crumbs) ++ key) none) result.1)
      (MerklePatriciaTree.remove db ⟨⟨.leaf key leafValue.val, .working⟩,
        (⟨.branch children (valueBytes stored), cells⟩, digit) :: parents⟩ delOps) := by
  obtain ⟨canonicalCrumb, canonicalUp, -⟩ := canonicalPath
  have stand : ∀ index, (Function.update children digit .null index).Stands
      (Function.update tries digit .empty index) := by
    intro index
    by_cases same : index = digit
    · subst same
      rw [Function.update_self, Function.update_self]
      rfl
    · rw [Function.update_of_ne same, Function.update_of_ne same]
      exact others index same
  have canonicalTries : ∀ index, (Function.update tries digit .empty index).Canonical := by
    intro index
    by_cases same : index = digit
    · subst same
      rw [Function.update_self]
      trivial
    · rw [Function.update_of_ne same]
      exact canonicalCrumb.1 index same
  have contents : (plug crumbs (.branch (Function.update tries digit .empty) stored)).lookup =
      Function.update (plug (.branch tries stored digit :: crumbs) (.leaf key leafValue)).lookup
        (pathTo (.branch tries stored digit :: crumbs) ++ key) none := by
    rw [plug, pathTo, List.append_assoc]
    exact RadixTrie.lookup_plug_update crumbs (lookup_clearChild tries stored digit key leafValue)
  rw [← contents, MerklePatriciaTree.remove]
  simp only [makeMut_fst]
  cases stored with
  | none =>
    obtain ⟨other, different, occupied⟩ := Crumb.exists_child canonicalCrumb
    have occupied' : Function.update tries digit .empty other ≠ .empty := by
      rwa [Function.update_of_ne different]
    rw [if_pos (valueBytes_eq_nil.mpr rfl)]
    refine (settleBranch_spec honest stand canonicalTries occupied' isMatch canonicalUp _).bind ?_
    rintro ⟨stack, delOps⟩ rebuilds
    exact rebuilds
  | some value =>
    rw [if_neg fun none => by cases valueBytes_eq_nil.mp none]
    split
    · next childless =>
      have empties : ∀ index, Function.update tries digit .empty index = .empty :=
        fun index => (stand index).eq_empty_iff.mpr (noChild_iff.mp childless index)
      have leafStands : (TrieNode.newLeaf [] (valueBytes (some value)) :
          TrieNode (ChildRef H)).Stands (.leaf [] value) := ⟨value, rfl, rfl⟩
      obtain ⟨stack, crumbs', after, done, rebuilds⟩ :=
        pushNonBranchToStack_spec leafStands id trivial isMatch canonicalUp
      rw [done]
      refine ⟨crumbs', after, rebuilds.parents, rebuilds.last, rebuilds.changed,
        rebuilds.canonical, rebuilds.lookup.trans (RadixTrie.lookup_plug_congr crumbs ?_)⟩
      exact (RadixTrie.lookup_branch_childless empties value).symm
    · next child =>
      obtain ⟨other, nonNull⟩ : ∃ other, (Function.update children digit .null other).isNull ≠
          true := by
        by_contra noOther
        push Not at noOther
        exact child (noChild_iff.mpr noOther)
      have occupied : Function.update tries digit .empty other ≠ .empty := fun empty =>
        nonNull ((stand other).eq_empty_iff.mp empty)
      refine ⟨crumbs, .branch _ (some value), isMatch, ?_, fun no => (by cases no), ?_, rfl⟩
      · exact TrieNodeExt.stands_iff.mpr ⟨⟨_, some value, rfl, rfl, stand⟩, Cells.fits_working _⟩
      · exact (RadixTrie.canonical_plug_iff _ (fun empty => by cases empty)).mpr
          ⟨canonicalUp, ⟨canonicalTries, none, some other, fun no => (by cases no),
            fun absent => (by cases absent), occupied⟩, fun _ => trivial⟩

/-- Where a search found the key, the key is removed. -/
theorem remove_spec [CollisionFree H] {db : DBColumn} (honest : HonestStore H db)
    {last : NodePtr H} {below : Trie} (stands : last.node.Stands below) {rest : List Nibble}
    (ends : SearchEnd below rest true) {parents : List (Frame H)} {crumbs : List Crumb}
    (isMatch : List.Forall₂ Frame.Matches parents crumbs)
    (canonical : (plug crumbs below).Canonical) (delOps : List H) :
    UnlessMissing db (fun result => Leaves
        (Function.update (plug crumbs below).lookup (pathTo crumbs ++ rest) none) result.1)
      (MerklePatriciaTree.remove db ⟨last, parents⟩ delOps) := by
  obtain ⟨node, cells⟩ := last
  rw [remove_makeMut]
  cases ends with
  | branch tries stored =>
    cases node with
    | leaf key value => obtain ⟨stored', -, same⟩ := stands; cases same
    | extension key child => obtain ⟨inner, same, -⟩ := stands; cases same
    | branch children value =>
      obtain ⟨tries', stored', rfl, same, stand⟩ := stands
      cases same
      rw [MerklePatriciaTree.remove]
      simp only [makeMut_fst]
      refine (removeValue_spec honest stand isMatch canonical _).bind ?_
      rintro ⟨stack, delOps⟩ rebuilds
      exact rebuilds
  | leaf key stored =>
    cases node with
    | branch children value => obtain ⟨tries, stored', -, same, -⟩ := stands; cases same
    | extension key' child => obtain ⟨inner, same, -⟩ := stands; cases same
    | leaf key' value =>
      obtain ⟨stored', rfl, same⟩ := stands
      cases same
      cases isMatch with
      | nil => exact (lookup_clearLeaf rest stored).symm
      | @cons frame crumb parents crumbs head tail =>
        obtain ⟨canonicalPath, -, needs⟩ :=
          (RadixTrie.canonical_plug_iff _ (fun empty => by cases empty)).mp canonical
        cases crumb with
        | extension key => exact (needs trivial).elim
        | branch tries value digit =>
          obtain ⟨⟨before, cells'⟩, pos⟩ := frame
          obtain ⟨rfl, children, rfl, others⟩ := head
          exact removeLeaf_spec honest others tail canonicalPath cells' rest stored _

end AuthStorage.RainblockTrie
