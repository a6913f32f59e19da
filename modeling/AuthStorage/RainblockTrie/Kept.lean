/-
This file proves that no read and no write asks for a digest that is not stored. A
committed node at the boundary or below it is stored, unless it was exiled since the
last commit, and what a digest stands for is stored as a whole. Loading a node, moving
one up and marking nodes for exile keep this.
-/

import AuthStorage.RainblockTrie.Accounts

namespace AuthStorage.RainblockTrie

open AuthStorage.Lvmt (Bytes DBColumn)

variable {H : Type} [RlpHasher H]

/-! ### Stored nodes -/

/-- The store has an entry for the digest. -/
def Present (db : DBColumn) (found : H) : Prop := db (RlpHasher.toBytes found) ≠ none

/-- The digest is that of a trie of which every node that is referenced by digest is saved. -/
def Complete (saved : H → Prop) (found : H) : Prop :=
  ∃ trie : Trie, found = digest trie ∧ 32 ≤ (encode H trie).length ∧
    ∀ wanted, StoredIn trie wanted → saved wanted

/-- At the boundary and below it, a committed node is saved or exiled. -/
def TrieNodeExt.Kept (N : Nat) (saved : H → Prop) (depth : Nat) (me : NodePtr H) : Prop :=
  N ≤ depth → me.cells.commited = .committed → me.cells.exiled = false →
    ∀ found, me.cells.hash = some found → saved found

variable {N : Nat} {saved : H → Prop}

theorem Complete.own {found : H} (complete : Complete saved found) : saved found := by
  obtain ⟨trie, rfl, large, all⟩ := complete
  exact all _ (storedIn_self large)

theorem Complete.imp {other : H → Prop} {found : H} (complete : Complete saved found)
    (implies : ∀ wanted, saved wanted → other wanted) : Complete other found := by
  obtain ⟨trie, same, large, all⟩ := complete
  exact ⟨trie, same, large, fun wanted stored => implies wanted (all wanted stored)⟩

omit [RlpHasher H] in
theorem TrieNodeExt.kept_working (depth : Nat) (node : TrieNode (ChildRef H)) :
    (⟨node, .working⟩ : NodePtr H).Kept N saved depth := fun _ no => by cases no

/-! ### Loading -/

/-- The children of a node as it is loaded. -/
theorem stub_kept {trie : Trie} (all : ∀ wanted, StoredIn trie wanted → saved wanted)
    (depth : Nat) : (stub trie : ChildRef H).Everywhere (TrieNodeExt.Kept N saved)
      (Complete saved) depth := by
  have embedded : ∀ {node : TrieNode (ChildRef H)} {sub : Trie} {depth : Nat},
      (∀ wanted, StoredIn sub wanted → saved wanted) →
      node.AllChildren (ChildRef.Everywhere (TrieNodeExt.Kept N saved) (Complete saved)
        (depth + 1)) →
      (embedRef node (encode H sub)).Everywhere (TrieNodeExt.Kept N saved) (Complete saved)
        depth := by
    intro node sub depth all below
    rw [embedRef]
    split
    · exact ChildRef.everywhere_owned_iff.mpr ⟨fun _ no => (by cases no), below⟩
    · next large => exact ⟨sub, rfl, Nat.le_of_not_lt large, all⟩
  induction trie generalizing depth with
  | empty => trivial
  | leaf key value => exact embedded all trivial
  | branch children value inductionHypothesis =>
    exact embedded all fun index =>
      inductionHypothesis index (fun wanted stored => all wanted (stored.branch value)) (depth + 1)
  | extension key child inductionHypothesis =>
    exact embedded all
      (inductionHypothesis (fun wanted stored => all wanted (stored.extension key)) (depth + 1))

theorem loadedNode_kept {trie : Trie} (own : saved (digest trie))
    (all : ∀ wanted, StoredIn trie wanted → saved wanted) (depth : Nat) :
    (loadedNode trie : NodePtr H).Everywhere (TrieNodeExt.Kept N saved) (Complete saved) depth := by
  refine TrieNodeExt.everywhere_iff.mpr ⟨fun _ _ _ found same => ?_, ?_⟩
  · cases same
    exact own
  · cases trie with
    | empty => trivial
    | leaf key value => trivial
    | branch children value =>
      exact fun index => stub_kept (fun wanted stored => all wanted (stored.branch value)) _
    | extension key child =>
      exact stub_kept (fun wanted stored => all wanted (stored.extension key)) _

theorem load_kept [CollisionFree H] {db : DBColumn} (honest : HonestStore H db) {found : H}
    {me : NodePtr H} (complete : Complete saved found) (done : TrieNodeExt.load db found = .ok me)
    (depth : Nat) : me.Everywhere (TrieNodeExt.Kept N saved) (Complete saved) depth := by
  obtain ⟨trie, rfl, large, all⟩ := complete
  have loaded := load_spec honest (H := H) (storedIn_self (H := H) large).ne_empty
  rw [done] at loaded
  obtain rfl : me = loadedNode trie := loaded
  exact loadedNode_kept (all _ (storedIn_self large)) all depth

/-! ### Reads and writes -/

/-- A property that does not depend on the mark of a read survives opening references. -/
theorem Opens.everywhere {property : Nat → NodePtr H → Prop} {known : H → Prop} {db : DBColumn}
    (marks : ∀ depth (me : NodePtr H) node loaded, property depth me →
      property depth ⟨node, { me.cells with loaded := loaded }⟩)
    (loads : ∀ found me depth, known found → TrieNodeExt.load db found = .ok me →
      me.Everywhere property known depth)
    {depth : Nat} {me after : NodePtr H} (opens : Opens N db depth me after)
    (holds : me.Everywhere property known depth) : after.Everywhere property known depth := by
  induction opens with
  | refl => exact holds
  | @child depth me index before child after isLoaded node found held below set
      inductionHypothesis =>
    obtain ⟨here, children⟩ := TrieNodeExt.everywhere_iff.mp holds
    have childHolds : child.Everywhere property known (depth + 1) := by
      have beforeHolds := children.childAt found
      cases held with
      | owned => exact ChildRef.everywhere_owned.mp beforeHolds
      | loaded stored =>
        rw [ChildRef.Everywhere.eq_def] at beforeHolds
        exact loads _ _ _ beforeHolds stored
    exact TrieNodeExt.everywhere_iff.mpr ⟨marks _ _ _ _ here,
      children.others.all set (ChildRef.everywhere_owned.mpr (inductionHypothesis childHolds))⟩

theorem survives_kept [CollisionFree H] (N : Nat) (saved : H → Prop) {db : DBColumn}
    (honest : HonestStore H db) :
    Survives N db (TrieNodeExt.Kept (H := H) N saved) (Complete saved) where
  working := TrieNodeExt.kept_working
  loads _ _ depth complete done := load_kept honest complete done depth
  opens _ _ _ opens holds := opens.everywhere (fun _ _ _ _ kept => kept)
    (fun _ _ depth complete done => load_kept honest complete done depth) holds
  rises _ _ kept boundary := kept (Nat.le_succ_of_le boundary)

/-! ### Subtrees that move down -/

/-- At the boundary and below it nothing changes by going deeper. -/
theorem ChildRef.Everywhere.deeper {child : ChildRef H} {depth : Nat} (boundary : N ≤ depth)
    (holds : child.Everywhere (TrieNodeExt.Kept N saved) (Complete saved) depth) :
    child.Everywhere (TrieNodeExt.Kept N saved) (Complete saved) (depth + 1) := by
  induction child using ChildRef.induction generalizing depth with
  | null => trivial
  | ref found => exact holds
  | owned me inductionHypothesis =>
    obtain ⟨here, below⟩ := ChildRef.everywhere_owned_iff.mp holds
    refine ChildRef.everywhere_owned_iff.mpr
      ⟨fun _ => here boundary, (inductionHypothesis.and below).imp fun _ both => ?_⟩
    exact both.1 (Nat.le_succ_of_le boundary) both.2

/-- A mark for exile takes nodes out of what has to be saved. -/
theorem ChildRef.Everywhere.markExile {child : ChildRef H} {depth : Nat} {boundary : Nat}
    (holds : child.Everywhere (TrieNodeExt.Kept boundary saved) (Complete saved) depth)
    (base : Nat) : (child.exile N base).Everywhere (TrieNodeExt.Kept boundary saved)
      (Complete saved) depth := by
  induction child using ChildRef.induction generalizing depth base with
  | null => trivial
  | ref found => exact holds
  | owned me inductionHypothesis =>
    obtain ⟨here, below⟩ := ChildRef.everywhere_owned_iff.mp holds
    show (ChildRef.owned (me.exile N base)).Everywhere _ _ _
    rw [TrieNodeExt.exile_eq]
    split
    · exact holds
    split
    · exact ChildRef.everywhere_owned_iff.mpr ⟨fun _ _ no => (by cases no), below⟩
    · refine ChildRef.everywhere_owned_iff.mpr ⟨here, TrieNode.allChildren_mapChildren.mpr ?_⟩
      exact (inductionHypothesis.and below).imp fun _ both => both.1 both.2 (base + 1)

namespace MerklePatriciaTree

/-- The tree keeps what will be read from the store. -/
abbrev Kept (N : Nat) (saved : H → Prop) (tree : MerklePatriciaTree H) : Prop :=
  tree.Everywhere (TrieNodeExt.Kept N saved) (Complete saved)

end MerklePatriciaTree

/-! ### No digest is missing -/

/-- The call does not end with a digest that is not stored. -/
def FindsAll {α : Type} (call : Except (Panic H) α) : Prop :=
  ∀ found, call ≠ .error (.hashNotFound found)

namespace FindsAll

omit [RlpHasher H] in
theorem ok {α : Type} (result : α) : FindsAll (.ok result : Except (Panic H) α) :=
  fun _ no => by cases no

omit [RlpHasher H] in
theorem failed {α : Type} : FindsAll (.error .failed : Except (Panic H) α) :=
  fun _ no => by cases no

omit [RlpHasher H] in
theorem expect {α : Type} (value : Option α) :
    FindsAll (RainblockTrie.expect value : Except (Panic H) α) := by
  cases value with
  | none => exact failed
  | some value => exact ok value

omit [RlpHasher H] in
theorem bind {α β : Type} {call : Except (Panic H) α} {next : α → Except (Panic H) β}
    (first : FindsAll call) (second : ∀ result, call = .ok result → FindsAll (next result)) :
    FindsAll (call >>= next) := by
  cases call with
  | ok result => exact second result rfl
  | error panic =>
    intro found same
    exact first found (by cases same; rfl)

end FindsAll

section

variable {property : Nat → NodePtr H → Prop} {known : H → Prop} {db : DBColumn}
  (present : ∀ found, known found → Present db found)

include present

theorem load_findsAll {found : H} (knownFound : known found) :
    FindsAll (TrieNodeExt.load db found) := by
  rw [TrieNodeExt.load]
  split
  · next missing => exact absurd missing (present found knownFound)
  · exact (FindsAll.expect _).bind fun _ _ => .ok _

theorem ownedOrLoad_findsAll {child : ChildRef H} {depth : Nat}
    (holds : child.Everywhere property known depth) : FindsAll (child.ownedOrLoad db) := by
  cases child with
  | null => exact .ok _
  | ref found =>
    rw [ChildRef.Everywhere.eq_def] at holds
    exact (load_findsAll present holds).bind fun _ _ => .ok _
  | owned me => exact .ok _

theorem loadedMut_findsAll {child : ChildRef H} {depth : Nat}
    (holds : child.Everywhere property known depth) : FindsAll (child.loadedMut db) := by
  cases child with
  | null => exact .failed
  | ref found =>
    rw [ChildRef.Everywhere.eq_def] at holds
    exact load_findsAll present holds
  | owned me => exact .ok _

theorem next_findsAll {me : NodePtr H} {depth : Nat} (holds : me.Everywhere property known depth)
    (rest : List Nibble) (below : Nat) : FindsAll (TrieNode.next N db me rest below) := by
  have follows : ∀ (child : NodePtr H) position truncateOp left,
      FindsAll (NextResult.follow me child position truncateOp left) :=
    fun _ _ _ _ => (FindsAll.expect _).bind fun _ _ => .ok _
  obtain ⟨-, children⟩ := TrieNodeExt.everywhere_iff.mp holds
  rw [TrieNode.next]
  split
  · next branch value shape =>
    rw [shape] at children
    cases rest with
    | nil => exact .ok _
    | cons digit rest =>
      refine (ownedOrLoad_findsAll present (children digit)).bind fun opened _ => ?_
      cases opened with
      | none => exact .ok _
      | some pair => exact follows _ _ _ _
  · next key child shape =>
    rw [shape] at children
    split
    · refine (ownedOrLoad_findsAll present children).bind fun opened _ => ?_
      exact (FindsAll.expect _).bind fun _ _ => follows _ _ _ _
    · exact .ok _
  · split <;> exact .ok _

end

namespace MerklePatriciaTree

section

variable {property : Nat → NodePtr H → Prop} {known : H → Prop} {db : DBColumn}
  (survives : Survives N db property known) (present : ∀ found, known found → Present db found)

include survives present

theorem searchLoop_findsAll {rounds : Nat} {stack : Stack H} (holds : stack.Holds property known)
    (rest : List Nibble) (depth : Nat) : FindsAll (searchLoop N db rounds stack rest depth) := by
  induction rounds generalizing stack rest depth with
  | zero => exact fun found no => by cases no
  | succ rounds inductionHypothesis =>
    refine (next_findsAll present holds.last rest depth).bind fun step stepped => ?_
    cases step with
    | matched => exact .ok _
    | notMatched => exact .ok _
    | next me child index tail => exact inductionHypothesis (holds.next survives stepped) _ _

theorem search_findsAll {root : NodePtr H} (holds : root.Everywhere property known 0)
    (key : Bytes) : FindsAll (search N db root key) := by
  have start : (⟨root, []⟩ : Stack H).Holds property known := ⟨holds, trivial⟩
  exact searchLoop_findsAll survives present start _ _

end

section

omit [RlpHasher H]

theorem resetPointers_findsAll (parents : List (Frame H)) (delOps : List H) :
    FindsAll (resetPointers parents delOps) := by
  induction parents with
  | nil => exact .ok _
  | cons frame parents inductionHypothesis =>
    exact inductionHypothesis.bind fun _ _ => (FindsAll.expect _).bind fun _ _ => .ok _

theorem recoverPointers_findsAll (last : NodePtr H) (parents : List (Frame H)) (delOps : List H) :
    FindsAll (recoverPointers last parents delOps) := by
  induction parents generalizing last delOps with
  | nil => exact .ok _
  | cons frame parents inductionHypothesis =>
    exact (FindsAll.expect _).bind fun _ _ => inductionHypothesis _ _

theorem relink_findsAll (tree : MerklePatriciaTree H) (stack : Option (Stack H)) (delOps : List H) :
    FindsAll (tree.relink stack delOps) := by
  cases stack with
  | none => exact .ok _
  | some stack => exact (recoverPointers_findsAll _ _ _).bind fun _ _ => .ok _

theorem pushNonBranchToStack_findsAll (node : TrieNode (ChildRef H)) (parents : List (Frame H)) :
    FindsAll (pushNonBranchToStack node parents) := by
  cases parents with
  | nil => exact .ok _
  | cons frame parents =>
    obtain ⟨me, index⟩ := frame
    rw [pushNonBranchToStack]
    split
    · exact (FindsAll.expect _).bind fun _ _ => .ok _
    · exact .ok _

theorem insertOnBranch_findsAll (N : Nat) (children : Nibble → ChildRef H) (value : Bytes)
    (rest : List Nibble) (val : Bytes) (depth : Nat) (delOps : List H) :
    FindsAll (insertOnBranch N children value rest val depth delOps) := by
  cases rest with
  | nil => exact .failed
  | cons digit rest =>
    rw [insertOnBranch]
    split
    · exact .ok _
    · refine FindsAll.bind ?_ fun _ _ => .ok _
      generalize children digit = prev
      cases prev with
      | null => exact .failed
      | ref found => exact .failed
      | owned me =>
        rw [insertOnChild]
        dsimp only
        split
        · exact .ok _
        · split
          · exact .ok _
          · exact .failed
        · exact .failed

end

section

variable {property : Nat → NodePtr H → Prop} {known : H → Prop} {db : DBColumn}
  (present : ∀ found, known found → Present db found)

include present

theorem insert_findsAll {last : TrieNode (ChildRef H)} {depth : Nat}
    (below : last.AllChildren (ChildRef.Everywhere property known depth)) (rest : List Nibble)
    (val : Bytes) (lastDepth : Nat) (delOps : List H) :
    FindsAll (insert N db last rest val lastDepth delOps) := by
  cases last with
  | leaf key value => exact .ok _
  | branch children value => exact insertOnBranch_findsAll N children value rest val lastDepth delOps
  | extension key child =>
    show FindsAll (insertOnExtension N db key child rest val lastDepth delOps)
    rw [insertOnExtension]
    dsimp only
    split
    · exact .failed
    · refine FindsAll.bind ?_ fun _ _ => ?_
      · rw [lengthenChild]
        split
        · exact .ok _
        · refine (loadedMut_findsAll present below).bind fun node _ => ?_
          split
          · exact .ok _
          · exact (FindsAll.expect _).bind fun _ _ => .ok _
      · split <;> exact .ok _

theorem settleBranch_findsAll {children : Nibble → ChildRef H} {depth : Nat}
    (below : ∀ index, (children index).Everywhere property known depth) (branch : NodePtr H)
    (parents : List (Frame H)) (delOps : List H) :
    FindsAll (settleBranch db branch children parents delOps) := by
  rw [settleBranch]
  split
  · next index only =>
    refine FindsAll.bind ?_ fun _ _ => (pushNonBranchToStack_findsAll _ _).bind fun _ _ => .ok _
    refine (loadedMut_findsAll present (below index)).bind fun child _ => ?_
    dsimp only
    split
    · exact (FindsAll.expect _).bind fun _ _ => .ok _
    · exact .ok _
  · exact .ok _

theorem remove_findsAll {stack : Stack H} (holds : stack.Holds property known) (delOps : List H) :
    FindsAll (remove db stack delOps) := by
  obtain ⟨last, parents⟩ := stack
  obtain ⟨-, below⟩ := TrieNodeExt.everywhere_iff.mp holds.last
  rw [remove, makeMut_eq]
  dsimp only at below ⊢
  split
  · next children value shape =>
    rw [shape] at below
    exact (settleBranch_findsAll present below _ _ _).bind fun _ _ => .ok _
  · cases parents with
    | nil => exact .ok _
    | cons frame parents =>
      obtain ⟨me, index⟩ := frame
      have others := holds.parents.1
      dsimp only
      rw [makeMut_eq]
      dsimp only
      split
      · next children value shape =>
        rw [shape] at others
        have cleared : ∀ other, (Function.update children index .null other).Everywhere
            property known (parents.length + 1) := by
          intro other
          by_cases same : other = index
          · rw [same, Function.update_self]
            trivial
          · rw [Function.update_of_ne same]
            exact others other same
        split
        · exact (settleBranch_findsAll present cleared _ _ _).bind fun _ _ => .ok _
        · split
          · exact (pushNonBranchToStack_findsAll _ _).bind fun _ _ => .ok _
          · exact .ok _
      · exact .failed
  · exact .failed

end

section

variable {property : Nat → NodePtr H → Prop} {known : H → Prop}
  {tree : MerklePatriciaTree H} (survives : Survives N tree.db property known)
  (present : ∀ found, known found → Present tree.db found)
  (holds : tree.Everywhere property known)

include survives present holds

theorem get_findsAll (key : Bytes) : FindsAll (tree.get N key) := by
  rw [get]
  split
  · exact .failed
  · split
    · exact .ok _
    · next root opened =>
      exact (search_findsAll survives present (holds root opened) key).bind
        fun _ _ => .ok _

theorem del_findsAll (key : Bytes) : FindsAll (tree.del N key) := by
  rw [del]
  split
  · exact .ok _
  · next root opened =>
    refine (search_findsAll survives present (holds root opened) key).bind
      fun result searched => ?_
    have stack := search_holds survives searched (holds root opened)
    split
    · refine (resetPointers_findsAll _ _).bind fun detached reset => ?_
      obtain ⟨sameLength, hold⟩ := resetPointers_holds reset stack.parents
      have last := stack.last
      rw [← sameLength] at last
      exact (remove_findsAll present ⟨last, hold⟩ _).bind fun _ _ => relink_findsAll _ _ _
    · exact .ok _

theorem putLast_findsAll {root : NodePtr H} {key : Bytes} {result : SearchResult H}
    (opened : tree.root = some root) (searched : search N tree.db root key = .ok result)
    (val : Bytes) : FindsAll (tree.putLast N result val) := by
  have stack := search_holds survives searched (holds root opened)
  obtain ⟨-, below⟩ := TrieNodeExt.everywhere_iff.mp stack.last
  rw [putLast]
  refine (resetPointers_findsAll _ _).bind fun detached reset => ?_
  dsimp only
  rw [makeMut_fst]
  split
  · exact (FindsAll.expect _).bind fun _ _ => relink_findsAll _ _ _
  · exact (insert_findsAll present below _ _ _ _).bind fun _ _ => relink_findsAll _ _ _

theorem put_findsAll (key val : Bytes) : FindsAll (tree.put N key val) := by
  rw [put]
  split
  · exact .failed
  split
  · exact del_findsAll survives present holds key
  split
  · exact .ok _
  · next root opened =>
    refine (search_findsAll survives present (holds root opened) key).bind
      fun result searched => ?_
    have puts := putLast_findsAll survives present holds opened searched val
    split
    · refine (FindsAll.expect _).bind fun _ _ => ?_
      split
      · exact .ok _
      · exact puts
    · exact puts

end

end MerklePatriciaTree

end AuthStorage.RainblockTrie
