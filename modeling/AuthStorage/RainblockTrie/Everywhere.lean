/-
This file follows a property of the nodes in memory through the operations of a
tree. The property may speak of the depth of a node. It survives a read if opening
references does not hurt it, and a write if it holds of every node that was just
changed and of every node that moves up; only the subtree that an insertion moves
down needs an argument of its own.
-/

import AuthStorage.RainblockTrie.Represents

namespace AuthStorage.RainblockTrie

open AuthStorage.Lvmt (Bytes DBColumn)

variable {H : Type}

/-! ### Every node in memory -/

mutual

/-- The property holds at every node from here down, and every digest is known. -/
def TrieNodeExt.Everywhere (property : Nat → NodePtr H → Prop) (known : H → Prop) (depth : Nat) :
    NodePtr H → Prop
  | ⟨node, cells⟩ =>
    property depth ⟨node, cells⟩ ∧ TrieNode.EverywhereBelow property known (depth + 1) node

/-- The property holds below every child. -/
def TrieNode.EverywhereBelow (property : Nat → NodePtr H → Prop) (known : H → Prop) (depth : Nat) :
    TrieNode (ChildRef H) → Prop
  | .leaf _ _ => True
  | .branch children _ => ∀ index, ChildRef.Everywhere property known depth (children index)
  | .extension _ child => ChildRef.Everywhere property known depth child

/-- The property holds from the child on; a digest is known. -/
def ChildRef.Everywhere (property : Nat → NodePtr H → Prop) (known : H → Prop) (depth : Nat) :
    ChildRef H → Prop
  | .null => True
  | .ref digest => known digest
  | .owned me => TrieNodeExt.Everywhere property known depth me

end

section

variable (property : Nat → NodePtr H → Prop) (known : H → Prop)
  [∀ depth me, Decidable (property depth me)] [DecidablePred known]

mutual

instance TrieNodeExt.decidableEverywhere (depth : Nat) :
    (me : NodePtr H) → Decidable (me.Everywhere property known depth)
  | ⟨node, cells⟩ =>
    have := TrieNode.decidableEverywhereBelow (depth + 1) node
    inferInstanceAs (Decidable (property depth ⟨node, cells⟩ ∧
      TrieNode.EverywhereBelow property known (depth + 1) node))

instance TrieNode.decidableEverywhereBelow (depth : Nat) :
    (node : TrieNode (ChildRef H)) → Decidable (node.EverywhereBelow property known depth)
  | .leaf _ _ => inferInstanceAs (Decidable True)
  | .branch children _ =>
    have := fun index => ChildRef.decidableEverywhere depth (children index)
    inferInstanceAs (Decidable (∀ index, ChildRef.Everywhere property known depth (children index)))
  | .extension _ child => ChildRef.decidableEverywhere depth child

instance ChildRef.decidableEverywhere (depth : Nat) :
    (child : ChildRef H) → Decidable (child.Everywhere property known depth)
  | .null => inferInstanceAs (Decidable True)
  | .ref digest => inferInstanceAs (Decidable (known digest))
  | .owned me => TrieNodeExt.decidableEverywhere depth me

end

end

section

variable {property other : Nat → NodePtr H → Prop} {known otherKnown : H → Prop}

theorem TrieNodeExt.everywhere_iff {depth : Nat} {me : NodePtr H} :
    me.Everywhere property known depth ↔
      property depth me ∧ me.node.AllChildren (ChildRef.Everywhere property known (depth + 1)) := by
  obtain ⟨node, cells⟩ := me
  rw [TrieNodeExt.Everywhere.eq_def]
  cases node <;> exact Iff.rfl

theorem ChildRef.everywhere_owned {depth : Nat} {me : NodePtr H} :
    (ChildRef.owned me).Everywhere property known depth ↔ me.Everywhere property known depth := by
  rw [ChildRef.Everywhere.eq_def]

theorem ChildRef.everywhere_owned_iff {depth : Nat} {me : NodePtr H} :
    (ChildRef.owned me).Everywhere property known depth ↔
      property depth me ∧ me.node.AllChildren (ChildRef.Everywhere property known (depth + 1)) :=
  ChildRef.everywhere_owned.trans TrieNodeExt.everywhere_iff

/-- From one property to another, node by node. -/
theorem ChildRef.Everywhere.imp (implies : ∀ depth me, property depth me → other depth me)
    (digests : ∀ found, known found → otherKnown found)
    {child : ChildRef H} {depth : Nat} (holds : child.Everywhere property known depth) :
    child.Everywhere other otherKnown depth := by
  induction child using ChildRef.induction generalizing depth with
  | null => trivial
  | ref found => exact digests found holds
  | owned me inductionHypothesis =>
    obtain ⟨here, below⟩ := ChildRef.everywhere_owned_iff.mp holds
    refine ChildRef.everywhere_owned_iff.mpr ⟨implies _ _ here, ?_⟩
    exact (inductionHypothesis.and below).imp fun _ both => both.1 both.2

theorem ChildRef.Everywhere.and {child : ChildRef H} {depth : Nat}
    (holds : child.Everywhere property known depth)
    (holds' : child.Everywhere other otherKnown depth) :
    child.Everywhere (fun depth me => property depth me ∧ other depth me)
      (fun found => known found ∧ otherKnown found) depth := by
  induction child using ChildRef.induction generalizing depth with
  | null => trivial
  | ref found => exact ⟨holds, holds'⟩
  | owned me inductionHypothesis =>
    obtain ⟨here, below⟩ := ChildRef.everywhere_owned_iff.mp holds
    obtain ⟨here', below'⟩ := ChildRef.everywhere_owned_iff.mp holds'
    refine ChildRef.everywhere_owned_iff.mpr ⟨⟨here, here'⟩, ?_⟩
    exact ((inductionHypothesis.and below).and below').imp fun _ all => all.1.1 all.1.2 all.2

theorem ChildRef.Everywhere.shallower
    (rises : ∀ depth me, property (depth + 1) me → property depth me)
    {child : ChildRef H} {depth : Nat} (holds : child.Everywhere property known (depth + 1)) :
    child.Everywhere property known depth := by
  induction child using ChildRef.induction generalizing depth with
  | null => trivial
  | ref found => exact holds
  | owned me inductionHypothesis =>
    obtain ⟨here, below⟩ := ChildRef.everywhere_owned_iff.mp holds
    refine ChildRef.everywhere_owned_iff.mpr ⟨rises _ _ here, ?_⟩
    exact (inductionHypothesis.and below).imp fun _ both => both.1 both.2

end

/-! ### The child on the way -/

namespace TrieNode

variable {C : Type}

/-- A read through `child_mut`. -/
def childAt : TrieNode C → Nibble → Option C
  | branch children _, index => some (children index)
  | extension _ child, index => if index = 0 then some child else none
  | leaf _ _, _ => none

/-- The property holds of every child off the way. -/
def OtherChildren (index : Nibble) (property : C → Prop) : TrieNode C → Prop
  | branch children _ => ∀ other, other ≠ index → property (children other)
  | _ => True

instance (property : C → Prop) [DecidablePred property] :
    (node : TrieNode C) → Decidable (node.AllChildren property)
  | leaf _ _ => inferInstanceAs (Decidable True)
  | branch children _ => inferInstanceAs (Decidable (∀ index, property (children index)))
  | extension _ child => inferInstanceAs (Decidable (property child))

theorem AllChildren.others {index : Nibble} {property : C → Prop} {node : TrieNode C}
    (all : node.AllChildren property) : node.OtherChildren index property := by
  cases node with
  | leaf key value => trivial
  | branch children value => exact fun other _ => all other
  | extension key child => trivial

theorem allChildren_mapChildren {C' : Type} {change : C → C'} {property : C' → Prop}
    {node : TrieNode C} : (node.mapChildren change).AllChildren property ↔
      node.AllChildren fun child => property (change child) := by
  cases node <;> exact Iff.rfl

theorem AllChildren.childAt {index : Nibble} {property : C → Prop} {node : TrieNode C}
    (all : node.AllChildren property) {child : C} (found : node.childAt index = some child) :
    property child := by
  cases node with
  | leaf key value => cases found
  | branch children value =>
    cases found
    exact all index
  | extension key below =>
    rw [TrieNode.childAt] at found
    split at found
    · cases found
      exact all
    · cases found

variable {index : Nibble} {child : C} {node after : TrieNode C}

/-- Setting the child on the way leaves the others. -/
theorem OtherChildren.setChild {property : C → Prop} (others : node.OtherChildren index property)
    (done : node.setChild index child = some after) : after.OtherChildren index property := by
  cases node with
  | leaf key value => cases done
  | branch children value =>
    cases done
    intro other different
    rw [Function.update_of_ne different]
    exact others other different
  | extension key below =>
    rw [TrieNode.setChild] at done
    split at done
    · cases done
      trivial
    · cases done

theorem OtherChildren.all {property : C → Prop} (others : node.OtherChildren index property)
    (done : node.setChild index child = some after) (holds : property child) :
    after.AllChildren property := by
  cases node with
  | leaf key value => cases done
  | branch children value =>
    cases done
    intro other
    by_cases same : other = index
    · rwa [same, Function.update_self]
    · rw [Function.update_of_ne same]
      exact others other same
  | extension key below =>
    rw [TrieNode.setChild] at done
    split at done
    · cases done
      exact holds
    · cases done

/-- Of two writes in one place the second one stays. -/
theorem setChild_setChild (done : node.setChild index child = some after) (second : C) :
    after.setChild index second = node.setChild index second := by
  cases node with
  | leaf key value => cases done
  | branch children value =>
    cases done
    exact congrArg (fun children => some (TrieNode.branch children value)) (Function.update_idem ..)
  | extension key below =>
    rw [TrieNode.setChild] at done
    split at done
    · cases done
      rfl
    · cases done

/-- Whether a write goes through does not depend on what is written. -/
theorem exists_setChild (done : node.setChild index child = some after) (second : C) :
    ∃ other, node.setChild index second = some other := by
  cases node with
  | leaf key value => cases done
  | branch children value => exact ⟨_, rfl⟩
  | extension key below =>
    rw [TrieNode.setChild] at done ⊢
    split at done
    · next zero => exact ⟨_, if_pos zero⟩
    · cases done

end TrieNode

variable [RlpHasher H]

/-! ### Opening references -/

/-- The node is the child, as it is held or as it is loaded. -/
inductive ChildRef.HeldBy (db : DBColumn) : ChildRef H → NodePtr H → Bool → Prop
  | owned (me : NodePtr H) : HeldBy db (.owned me) me false
  | loaded {found : H} {me : NodePtr H} (stored : TrieNodeExt.load db found = .ok me) :
    HeldBy db (.ref found) me true

omit [RlpHasher H] in
/-- A result of two steps is a result of the second for one of the first. -/
theorem bind_eq_ok {α β : Type} {call : Except (Panic H) α} {next : α → Except (Panic H) β}
    {result : β} :
    call >>= next = .ok result ↔ ∃ middle, call = .ok middle ∧ next middle = .ok result := by
  cases call with
  | ok middle =>
    refine ⟨fun done => ⟨middle, rfl, done⟩, ?_⟩
    rintro ⟨_, same, done⟩
    cases same
    exact done
  | error panic =>
    refine ⟨fun done => (by cases done), ?_⟩
    rintro ⟨_, same, _⟩
    cases same

omit [RlpHasher H] in
theorem expect_eq_ok {α : Type} {found : Option α} {result : α} :
    (expect found : Except (Panic H) α) = .ok result ↔ found = some result := by
  cases found with
  | none => exact ⟨fun done => (by cases done), fun done => (by cases done)⟩
  | some value => exact ⟨fun done => (by cases done; rfl), fun done => (by cases done; rfl)⟩

omit [RlpHasher H] in
theorem mem_toOption {α : Type} {call : Except (Panic H) α} {result : α} :
    result ∈ call.toOption ↔ call = .ok result := by
  cases call with
  | ok value => exact ⟨fun found => (by cases found; rfl), fun done => (by cases done; rfl)⟩
  | error panic => exact ⟨fun found => (by cases found), fun done => (by cases done)⟩

theorem heldBy_of_ownedOrLoad {db : DBColumn} {child : ChildRef H} {me : NodePtr H}
    {isLoaded : Bool} (done : child.ownedOrLoad db = .ok (some (me, isLoaded))) :
    child.HeldBy db me isLoaded := by
  cases child with
  | null => cases done
  | ref found =>
    obtain ⟨node, stored, same⟩ := bind_eq_ok.mp done
    cases same
    exact .loaded stored
  | owned node =>
    cases done
    exact .owned _

theorem null_of_ownedOrLoad {db : DBColumn} {child : ChildRef H}
    (done : child.ownedOrLoad db = .ok none) : child = .null := by
  cases child with
  | null => rfl
  | ref found =>
    obtain ⟨node, -, same⟩ := bind_eq_ok.mp done
    cases same
  | owned node => cases done

theorem heldBy_of_loadedMut {db : DBColumn} {child : ChildRef H} {me : NodePtr H}
    (done : child.loadedMut db = .ok me) : ∃ isLoaded, child.HeldBy db me isLoaded := by
  cases child with
  | null => cases done
  | ref found => exact ⟨true, .loaded done⟩
  | owned node =>
    cases done
    exact ⟨false, .owned _⟩

/-- Along one path references are opened. Where a node is loaded at the boundary or below it, its
parent is marked. -/
inductive Opens (N : Nat) (db : DBColumn) : Nat → NodePtr H → NodePtr H → Prop
  | refl (depth : Nat) (me : NodePtr H) : Opens N db depth me me
  | child {depth : Nat} {me : NodePtr H} {index : Nibble} {before : ChildRef H}
    {child after : NodePtr H} {isLoaded : Bool} {node : TrieNode (ChildRef H)}
    (found : me.node.childAt index = some before) (held : before.HeldBy db child isLoaded)
    (below : Opens N db (depth + 1) child after)
    (set : me.node.setChild index (.owned after) = some node) :
    Opens N db depth me
      ⟨node, { me.cells with loaded := me.cells.loaded || (isLoaded && depth + 1 ≥ N) }⟩

/-- What a step of a search does to the node it starts from. -/
theorem next_eq_next {N : Nat} {db : DBColumn} {me me' child : NodePtr H} {nibbles rest : List Nibble}
    {depth : Nat} {index : Nibble}
    (done : TrieNode.next N db me nibbles depth = .ok (.next me' child index rest)) :
    ∃ before isLoaded, me.node.childAt index = some before ∧ before.HeldBy db child isLoaded ∧
      me.node.setChild index (.owned child) = some me'.node ∧
      me'.cells = { me.cells with loaded := me.cells.loaded || (isLoaded && depth ≥ N) } := by
  have follows : ∀ {node : NodePtr H} {position : Nibble} {truncateOp : Bool} {left : List Nibble},
      NextResult.follow me node position truncateOp left = .ok (.next me' child index rest) →
        node = child ∧ position = index ∧ me.node.setChild index (.owned child) = some me'.node ∧
          me'.cells = { me.cells with loaded := me.cells.loaded || truncateOp } := by
    intro node position truncateOp left followed
    obtain ⟨after, set, same⟩ := bind_eq_ok.mp followed
    cases same
    exact ⟨rfl, rfl, expect_eq_ok.mp set, rfl⟩
  rw [TrieNode.next] at done
  split at done
  · next children value shape =>
    cases nibbles with
    | nil => cases done
    | cons digit tail =>
      obtain ⟨opened, held, done⟩ := bind_eq_ok.mp done
      cases opened with
      | none => cases done
      | some pair =>
        obtain ⟨node, isLoaded⟩ := pair
        obtain ⟨rfl, rfl, set, cells⟩ := follows done
        exact ⟨children digit, isLoaded, by rw [shape]; rfl, heldBy_of_ownedOrLoad held, set, cells⟩
  · next key below shape =>
    split at done
    · obtain ⟨opened, held, done⟩ := bind_eq_ok.mp done
      obtain ⟨⟨node, isLoaded⟩, some, done⟩ := bind_eq_ok.mp done
      obtain rfl := expect_eq_ok.mp some
      obtain ⟨rfl, rfl, set, cells⟩ := follows done
      exact ⟨below, isLoaded, by rw [shape]; rfl, heldBy_of_ownedOrLoad held, set, cells⟩
    · cases done
  · split at done <;> cases done

namespace MerklePatriciaTree

omit [RlpHasher H] in
theorem shared_append (last : NodePtr H) (inner : List (Frame H)) (me : NodePtr H)
    (index : Nibble) (parents : List (Frame H)) :
    shared last (inner ++ (me, index) :: parents) =
      shared ⟨(me.node.setChild index (.owned (shared last inner))).getD me.node, me.cells⟩ parents := by
  induction inner generalizing last with
  | nil => rfl
  | cons frame inner inductionHypothesis => exact inductionHypothesis _

/-- A search opens references, along the nodes of its stack. -/
theorem searchLoop_opens {N : Nat} {db : DBColumn} {rounds : Nat} {last : NodePtr H}
    {parents : List (Frame H)} {rest : List Nibble} {depth : Nat} {result : SearchResult H}
    (done : searchLoop N db rounds ⟨last, parents⟩ rest (depth + 1) = .ok result) :
    ∃ inner, result.stack.parents = inner ++ parents ∧
      Opens N db depth last (shared result.stack.last inner) := by
  induction rounds generalizing last parents rest depth with
  | zero => cases done
  | succ rounds inductionHypothesis =>
    obtain ⟨step, stepped, done⟩ := bind_eq_ok.mp done
    cases step with
    | matched =>
      cases done
      exact ⟨[], rfl, .refl _ _⟩
    | notMatched =>
      cases done
      exact ⟨[], rfl, .refl _ _⟩
    | next me child index tail =>
      obtain ⟨inner, split, opens⟩ := inductionHypothesis done
      obtain ⟨before, isLoaded, found, held, set, cells⟩ := next_eq_next stepped
      refine ⟨inner ++ [(me, index)], by rw [split, List.append_assoc]; rfl, ?_⟩
      rw [shared_append, shared, cells]
      obtain ⟨node, reset⟩ := TrieNode.exists_setChild set (.owned (shared result.stack.last inner))
      rw [TrieNode.setChild_setChild set, reset, Option.getD_some]
      exact .child found held opens reset

theorem search_opens {N : Nat} {db : DBColumn} {root : NodePtr H} {key : Bytes}
    {result : SearchResult H} (done : search N db root key = .ok result) :
    Opens N db 0 root (shared result.stack.last result.stack.parents) := by
  obtain ⟨inner, split, opens⟩ := searchLoop_opens done
  rwa [split, List.append_nil]

/-! ### Where a search stops -/

/-- Why a search that found nothing stopped at a node. -/
def Stops : TrieNode (ChildRef H) → List Nibble → Prop
  | .leaf key _, rest => key ≠ rest
  | .branch children _, rest => ∃ digit more, rest = digit :: more ∧ children digit = .null
  | .extension key _, rest => ¬ key <+: rest

theorem stops_of_next {N : Nat} {db : DBColumn} {me : NodePtr H} {rest : List Nibble} {depth : Nat}
    (done : TrieNode.next N db me rest depth = .ok .notMatched) : Stops me.node rest := by
  have never : ∀ {node : NodePtr H} {position : Nibble} {truncateOp : Bool} {left : List Nibble},
      NextResult.follow me node position truncateOp left ≠ .ok .notMatched := by
    intro node position truncateOp left followed
    obtain ⟨after, -, same⟩ := bind_eq_ok.mp followed
    cases same
  rw [TrieNode.next] at done
  split at done
  · next children value shape =>
    rw [shape]
    cases rest with
    | nil => cases done
    | cons digit more =>
      obtain ⟨opened, held, done⟩ := bind_eq_ok.mp done
      cases opened with
      | none => exact ⟨digit, more, rfl, null_of_ownedOrLoad held⟩
      | some pair => exact absurd done never
  · next key below shape =>
    rw [shape]
    split at done
    · obtain ⟨opened, -, done⟩ := bind_eq_ok.mp done
      obtain ⟨pair, -, done⟩ := bind_eq_ok.mp done
      exact absurd done never
    · next off => exact off
  · next key value shape =>
    rw [shape]
    split at done
    · cases done
    · next other => exact other

theorem searchLoop_stops {N : Nat} {db : DBColumn} {rounds : Nat} {stack : Stack H}
    {rest : List Nibble} {depth : Nat} {result : SearchResult H}
    (done : searchLoop N db rounds stack rest depth = .ok result)
    (absent : result.isMatched = false) : Stops result.stack.last.node result.remainder := by
  induction rounds generalizing stack rest depth with
  | zero => cases done
  | succ rounds inductionHypothesis =>
    obtain ⟨step, stepped, done⟩ := bind_eq_ok.mp done
    cases step with
    | matched =>
      cases done
      cases absent
    | notMatched =>
      cases done
      exact stops_of_next stepped
    | next me child index tail => exact inductionHypothesis done

end MerklePatriciaTree

/-! ### Properties that survive -/

variable {property : Nat → NodePtr H → Prop} {known : H → Prop}

/-- The property holds of a node that was just changed, of a node as it is loaded, after references
were opened, and of a node that moves up. -/
structure Survives (N : Nat) (db : DBColumn) (property : Nat → NodePtr H → Prop)
    (known : H → Prop) : Prop where
  working : ∀ depth node, property depth ⟨node, .working⟩
  loads : ∀ found me depth, known found → TrieNodeExt.load db found = .ok me →
    me.Everywhere property known depth
  opens : ∀ depth me after, Opens N db depth me after → me.Everywhere property known depth →
    after.Everywhere property known depth
  rises : ∀ depth me, property (depth + 1) me → property depth me

namespace Survives

variable {N : Nat} {db : DBColumn}

theorem changed (survives : Survives N db property known) {depth : Nat}
    {node : TrieNode (ChildRef H)}
    (below : node.AllChildren (ChildRef.Everywhere property known (depth + 1))) :
    (⟨node, .working⟩ : NodePtr H).Everywhere property known depth :=
  TrieNodeExt.everywhere_iff.mpr ⟨survives.working depth node, below⟩

theorem sealRef (survives : Survives N db property known) {depth : Nat}
    {node : TrieNode (ChildRef H)}
    (below : node.AllChildren (ChildRef.Everywhere property known (depth + 1))) :
    node.sealRef.Everywhere property known depth :=
  ChildRef.everywhere_owned.mpr (survives.changed below)

theorem held (survives : Survives N db property known) {child : ChildRef H} {me : NodePtr H}
    {isLoaded : Bool} (heldBy : child.HeldBy db me isLoaded) {depth : Nat}
    (holds : child.Everywhere property known depth) : me.Everywhere property known depth := by
  cases heldBy with
  | owned => exact ChildRef.everywhere_owned.mp holds
  | @loaded found _ stored =>
    rw [ChildRef.Everywhere.eq_def] at holds
    exact survives.loads found me depth holds stored

theorem shallower (survives : Survives N db property known) {node : TrieNode (ChildRef H)}
    {depth : Nat} (below : node.AllChildren (ChildRef.Everywhere property known (depth + 1))) :
    node.AllChildren (ChildRef.Everywhere property known depth) :=
  below.imp fun _ holds => holds.shallower survives.rises

end Survives

/-! ### The stack -/

/-- The property holds below the nodes above a stack's last one, off the way. -/
def FramesHold (property : Nat → NodePtr H → Prop) (known : H → Prop) : List (Frame H) → Prop
  | [] => True
  | (me, index) :: parents =>
    me.node.OtherChildren index (ChildRef.Everywhere property known (parents.length + 1)) ∧
      FramesHold property known parents

/-- The property holds from the last node down and beside the way to it. -/
structure Stack.Holds (property : Nat → NodePtr H → Prop) (known : H → Prop) (stack : Stack H) :
    Prop where
  last : stack.last.Everywhere property known stack.parents.length
  parents : FramesHold property known stack.parents

/-- A step of a search takes the child on the way out of the last node. -/
theorem Stack.Holds.next {N : Nat} {db : DBColumn} (survives : Survives N db property known)
    {stack : Stack H} (holds : stack.Holds property known) {rest tail : List Nibble} {depth : Nat}
    {me child : NodePtr H} {index : Nibble} (stepped : TrieNode.next N db stack.last rest depth =
      .ok (.next me child index tail)) :
    (⟨child, (me, index) :: stack.parents⟩ : Stack H).Holds property known := by
  obtain ⟨before, isLoaded, found, held, set, -⟩ := next_eq_next stepped
  obtain ⟨-, below⟩ := TrieNodeExt.everywhere_iff.mp holds.last
  exact ⟨survives.held held (below.childAt found), below.others.setChild set, holds.parents⟩

/-- The property holds at every node of the tree. -/
def MerklePatriciaTree.Everywhere (property : Nat → NodePtr H → Prop) (known : H → Prop)
    (tree : MerklePatriciaTree H) : Prop :=
  ∀ root, tree.root = some root → root.Everywhere property known 0

omit [RlpHasher H] in
instance MerklePatriciaTree.decidableEverywhere (property : Nat → NodePtr H → Prop)
    (known : H → Prop) [∀ depth me, Decidable (property depth me)] [DecidablePred known]
    (tree : MerklePatriciaTree H) : Decidable (tree.Everywhere property known) :=
  inferInstanceAs (Decidable (∀ root ∈ tree.root, root.Everywhere property known 0))

namespace MerklePatriciaTree

variable {N : Nat} {db : DBColumn} {delOps delOps' : List H}

theorem searchLoop_holds (survives : Survives N db property known) {rounds : Nat}
    {stack : Stack H} {rest : List Nibble} {depth : Nat} {result : SearchResult H}
    (done : searchLoop N db rounds stack rest depth = .ok result)
    (holds : stack.Holds property known) : result.stack.Holds property known := by
  induction rounds generalizing stack rest depth with
  | zero => cases done
  | succ rounds inductionHypothesis =>
    obtain ⟨step, stepped, done⟩ := bind_eq_ok.mp done
    cases step with
    | matched =>
      cases done
      exact holds
    | notMatched =>
      cases done
      exact holds
    | next me child index tail => exact inductionHypothesis done (holds.next survives stepped)

theorem search_holds (survives : Survives N db property known) {root : NodePtr H} {key : Bytes}
    {result : SearchResult H} (done : search N db root key = .ok result)
    (holds : root.Everywhere property known 0) : result.stack.Holds property known :=
  searchLoop_holds survives done ⟨holds, trivial⟩

omit [RlpHasher H] in
theorem resetPointers_holds {parents parents' : List (Frame H)}
    (done : resetPointers parents delOps = .ok (parents', delOps'))
    (hold : FramesHold property known parents) :
    parents'.length = parents.length ∧ FramesHold property known parents' := by
  induction parents generalizing parents' delOps' with
  | nil =>
    cases done
    exact ⟨rfl, trivial⟩
  | cons frame parents inductionHypothesis =>
    obtain ⟨me, index⟩ := frame
    obtain ⟨others, above⟩ := hold
    obtain ⟨⟨up, delOps''⟩, detached, done⟩ := bind_eq_ok.mp done
    obtain ⟨sameLength, upHold⟩ := inductionHypothesis detached above
    dsimp only at done
    rw [makeMut_eq] at done
    obtain ⟨node, set, done⟩ := bind_eq_ok.mp done
    cases done
    refine ⟨congrArg (· + 1) sameLength, ?_, upHold⟩
    rw [sameLength]
    exact others.setChild (expect_eq_ok.mp set)

theorem recoverPointers_holds (survives : Survives N db property known) {last root : NodePtr H}
    {parents : List (Frame H)} (done : recoverPointers last parents delOps = .ok (root, delOps'))
    (holds : last.Everywhere property known parents.length)
    (hold : FramesHold property known parents) : root.Everywhere property known 0 := by
  induction parents generalizing last delOps with
  | nil =>
    cases done
    exact holds
  | cons frame parents inductionHypothesis =>
    obtain ⟨me, index⟩ := frame
    obtain ⟨others, above⟩ := hold
    rw [recoverPointers, makeMut_eq] at done
    obtain ⟨node, set, done⟩ := bind_eq_ok.mp done
    have all := others.all (expect_eq_ok.mp set) (ChildRef.everywhere_owned.mpr holds)
    exact inductionHypothesis done (survives.changed all) above

theorem relink_holds (survives : Survives N db property known) {tree tree' : MerklePatriciaTree H}
    {stack : Option (Stack H)} (done : tree.relink stack delOps = .ok tree')
    (holds : ∀ found, stack = some found → found.Holds property known) :
    tree'.db = tree.db ∧ tree'.Everywhere property known := by
  cases stack with
  | none =>
    cases done
    exact ⟨rfl, fun root found => by cases found⟩
  | some stack =>
    obtain ⟨⟨root, delOps'⟩, attached, done⟩ := bind_eq_ok.mp done
    cases done
    refine ⟨rfl, fun root' found => ?_⟩
    cases found
    exact recoverPointers_holds survives attached (holds stack rfl).last (holds stack rfl).parents

/-! ### Inserting -/

omit [RlpHasher H] in
theorem update_holds {depth : Nat} {children : Nibble → ChildRef H}
    (hold : ∀ index, (children index).Everywhere property known depth) {child : ChildRef H}
    (holds : child.Everywhere property known depth) (digit index : Nibble) :
    (Function.update children digit child index).Everywhere property known depth := by
  by_cases same : index = digit
  · rwa [same, Function.update_self]
  · rw [Function.update_of_ne same]
    exact hold index

omit [RlpHasher H] in
theorem vacant_holds (depth : Nat) (index : Nibble) :
    ((fun _ => .null : Nibble → ChildRef H) index).Everywhere property known depth := trivial

/-- A leaf has nothing below it. -/
theorem newLeaf_holds (survives : Survives N db property known) (depth : Nat) (key : List Nibble)
    (value : Bytes) :
    (TrieNode.newLeaf key value : TrieNode (ChildRef H)).sealRef.Everywhere property known depth :=
  ChildRef.everywhere_owned_iff.mpr ⟨survives.working depth _, trivial⟩

theorem placeLeaf_holds (survives : Survives N db property known) {depth : Nat}
    {children : Nibble → ChildRef H}
    (hold : ∀ index, (children index).Everywhere property known depth) (value : Bytes)
    (key : List Nibble) (val : Bytes) (index : Nibble) :
    ((placeLeaf children value key val).1 index).Everywhere property known depth := by
  cases key with
  | nil => exact hold index
  | cons digit rest => exact update_holds hold (newLeaf_holds survives depth rest val) digit index

theorem insertOnBranch_holds (survives : Survives N db property known)
    {children : Nibble → ChildRef H} {value : Bytes} {rest : List Nibble} {val : Bytes} {depth : Nat}
    {node : TrieNode (ChildRef H)}
    (done : insertOnBranch N children value rest val depth delOps = .ok (node, delOps'))
    (stops : Stops (.branch children value) rest)
    (hold : ∀ index, (children index).Everywhere property known (depth + 1)) :
    node.AllChildren (ChildRef.Everywhere property known (depth + 1)) := by
  obtain ⟨digit, more, rfl, vacant⟩ := stops
  rw [insertOnBranch, vacant] at done
  cases done
  exact placeLeaf_holds survives hold value (digit :: more) val

theorem insertOnLeaf_holds (survives : Survives N db property known) {depth : Nat}
    (key : List Nibble) (value : Bytes) (rest : List Nibble) (val : Bytes) :
    (insertOnLeaf key value rest val : TrieNode (ChildRef H)).AllChildren
      (ChildRef.Everywhere property known (depth + 1)) := by
  have both : ∀ deeper (index : Nibble), (ChildRef.Everywhere property known deeper
      ((placeLeaf (placeLeaf (fun _ => (ChildRef.null : ChildRef H)) []
        (rest.drop (commonPrefix rest key).length) val).1
        (placeLeaf (fun _ => (ChildRef.null : ChildRef H)) []
          (rest.drop (commonPrefix rest key).length) val).2
        (key.drop (commonPrefix rest key).length) value).1 index)) := fun deeper =>
    placeLeaf_holds survives (placeLeaf_holds survives (vacant_holds deeper) [] _ val) _ _ value
  rw [insertOnLeaf]
  split
  · exact both (depth + 1)
  · exact survives.sealRef (both (depth + 2))

/-- Where the child of an extension is after a split. -/
def splitDepth (rest key : List Nibble) (depth : Nat) : Nat :=
  if commonPrefix rest key = [] then depth + 1 else depth + 2

theorem insertOnExtension_holds (survives : Survives N db property known) {key : List Nibble}
    {child : ChildRef H} {rest : List Nibble} {val : Bytes} {depth : Nat}
    {node : TrieNode (ChildRef H)}
    (done : insertOnExtension N db key child rest val depth delOps = .ok (node, delOps'))
    (moves : ∀ next more moved delOps'', key.drop (commonPrefix rest key).length = next :: more →
      lengthenChild N db child more depth delOps = .ok (moved, delOps'') →
      (moved.exile N (depth + 2)).Everywhere property known (splitDepth rest key depth)) :
    node.AllChildren (ChildRef.Everywhere property known (depth + 1)) := by
  rw [insertOnExtension] at done
  dsimp only at done
  split at done
  · cases done
  · next next more keyTail =>
    obtain ⟨⟨moved, delOps''⟩, lengthened, done⟩ := bind_eq_ok.mp done
    have holds := moves next more moved delOps'' keyTail lengthened
    have base : ∀ index, (Function.update (fun _ => ChildRef.null) next
        (moved.exile N (depth + 2)) index).Everywhere property known
          (splitDepth rest key depth) := update_holds (vacant_holds _) holds next
    have placed := placeLeaf_holds survives base []
      (rest.drop (commonPrefix rest key).length) val
    dsimp only at done
    rw [splitDepth] at placed
    split at done
    · next atFront =>
      cases done
      rw [if_pos atFront] at placed
      exact placed
    · next behind =>
      cases done
      rw [if_neg behind] at placed
      exact survives.sealRef placed

/-- A search that found nothing makes room where it stopped. -/
theorem insert_holds (survives : Survives N db property known) {last node : TrieNode (ChildRef H)}
    {rest : List Nibble} {val : Bytes} {depth : Nat}
    (done : insert N db last rest val depth delOps = .ok (node, delOps')) (stops : Stops last rest)
    (hold : last.AllChildren (ChildRef.Everywhere property known (depth + 1)))
    (moves : ∀ key child next more moved delOps'', last = .extension key child →
      key.drop (commonPrefix rest key).length = next :: more →
      lengthenChild N db child more depth delOps = .ok (moved, delOps'') →
      (moved.exile N (depth + 2)).Everywhere property known (splitDepth rest key depth)) :
    node.AllChildren (ChildRef.Everywhere property known (depth + 1)) := by
  cases last with
  | leaf key value =>
    cases done
    exact insertOnLeaf_holds survives key value rest val
  | branch children value => exact insertOnBranch_holds survives done stops hold
  | extension key child =>
    exact insertOnExtension_holds survives done fun next more moved delOps'' =>
      moves key child next more moved delOps'' rfl

/-! ### Removing -/

omit [RlpHasher H] in
theorem addPrefixKey_children {property : ChildRef H → Prop} {node after : TrieNode (ChildRef H)}
    {front : List Nibble} (done : node.addPrefixKey front = some after)
    (all : node.AllChildren property) : after.AllChildren property := by
  cases node with
  | leaf key value =>
    cases done
    trivial
  | branch children value => cases done
  | extension key child =>
    cases done
    exact all

/-- The child of a branch takes its place. -/
theorem dropSingleChildBranch_holds (survives : Survives N db property known) {depth : Nat}
    {index : Nibble} {child : ChildRef H} {node : TrieNode (ChildRef H)}
    (done : dropSingleChildBranch db index child delOps = .ok (node, delOps'))
    (holds : child.Everywhere property known (depth + 1)) :
    node.AllChildren (ChildRef.Everywhere property known (depth + 1)) := by
  obtain ⟨me, loaded, done⟩ := bind_eq_ok.mp done
  obtain ⟨isLoaded, held⟩ := heldBy_of_loadedMut loaded
  have holdsMe := survives.held held holds
  split at done
  · rw [makeMut_eq] at done
    obtain ⟨after, longer, done⟩ := bind_eq_ok.mp done
    cases done
    have below := (TrieNodeExt.everywhere_iff.mp holdsMe).2
    exact addPrefixKey_children (expect_eq_ok.mp longer) (survives.shallower below)
  · cases done
    exact ChildRef.everywhere_owned.mpr holdsMe

theorem pushNonBranchToStack_holds (survives : Survives N db property known)
    {node : TrieNode (ChildRef H)} {parents : List (Frame H)} {stack : Stack H}
    (done : pushNonBranchToStack node parents = .ok stack)
    (below : node.AllChildren (ChildRef.Everywhere property known (parents.length + 1)))
    (hold : FramesHold property known parents) : stack.Holds property known := by
  cases parents with
  | nil =>
    cases done
    exact ⟨survives.changed below, hold⟩
  | cons frame parents =>
    obtain ⟨me, index⟩ := frame
    rw [pushNonBranchToStack] at done
    split at done
    · obtain ⟨after, longer, done⟩ := bind_eq_ok.mp done
      cases done
      exact ⟨survives.changed
        (addPrefixKey_children (expect_eq_ok.mp longer) (survives.shallower below)), hold.2⟩
    · cases done
      exact ⟨survives.changed below, hold⟩

theorem settleBranch_holds (survives : Survives N db property known)
    {children : Nibble → ChildRef H} {value : Bytes} {parents : List (Frame H)} {stack : Stack H}
    (done : settleBranch db ⟨.branch children value, .working⟩ children parents delOps =
      .ok (stack, delOps'))
    (below : ∀ index, (children index).Everywhere property known (parents.length + 1))
    (hold : FramesHold property known parents) : stack.Holds property known := by
  rw [settleBranch] at done
  split at done
  · next index only =>
    obtain ⟨⟨node, delOps''⟩, dropped, done⟩ := bind_eq_ok.mp done
    obtain ⟨pushed, placed, done⟩ := bind_eq_ok.mp done
    cases done
    exact pushNonBranchToStack_holds survives placed
      (dropSingleChildBranch_holds survives dropped (below index)) hold
  · cases done
    exact ⟨survives.changed below, hold⟩

theorem remove_holds (survives : Survives N db property known) {stack : Stack H}
    {left : Option (Stack H)} (done : remove db stack delOps = .ok (left, delOps'))
    (holds : stack.Holds property known) :
    ∀ found, left = some found → found.Holds property known := by
  obtain ⟨last, parents⟩ := stack
  obtain ⟨-, below⟩ := TrieNodeExt.everywhere_iff.mp holds.last
  rw [remove, makeMut_eq] at done
  intro found same
  subst same
  dsimp only at below done
  split at done
  · next children value shape =>
    rw [shape] at below
    obtain ⟨⟨settled, delOps''⟩, settles, done⟩ := bind_eq_ok.mp done
    cases done
    exact settleBranch_holds survives settles below holds.parents
  · next key value shape =>
    cases parents with
    | nil => cases done
    | cons frame parents =>
      obtain ⟨me, index⟩ := frame
      obtain ⟨others, above⟩ := holds.parents
      dsimp only at done
      rw [makeMut_eq] at done
      dsimp only at done
      split at done
      · next children value' shape' =>
        rw [shape'] at others
        have cleared : ∀ other, (Function.update children index .null other).Everywhere
            property known (parents.length + 1) := by
          intro other
          by_cases same : other = index
          · rw [same, Function.update_self]
            trivial
          · rw [Function.update_of_ne same]
            exact others other same
        split at done
        · obtain ⟨⟨settled, delOps''⟩, settles, done⟩ := bind_eq_ok.mp done
          cases done
          exact settleBranch_holds survives settles cleared above
        · split at done
          · obtain ⟨pushed, placed, done⟩ := bind_eq_ok.mp done
            cases done
            exact pushNonBranchToStack_holds survives placed trivial above
          · cases done
            exact ⟨survives.changed cleared, above⟩
      · cases done
  · cases done

/-! ### The operations -/

variable {tree after : MerklePatriciaTree H}

theorem get_holds (survives : Survives N tree.db property known) {key : Bytes}
    {found : Option Bytes} (done : tree.get N key = .ok (found, after))
    (holds : tree.Everywhere property known) :
    after.db = tree.db ∧ after.Everywhere property known := by
  rw [get] at done
  split at done
  · cases done
  · split at done
    · cases done
      exact ⟨rfl, holds⟩
    · next root opened =>
      obtain ⟨result, searched, done⟩ := bind_eq_ok.mp done
      cases done
      refine ⟨rfl, fun root' same => ?_⟩
      cases same
      exact survives.opens 0 _ _ (search_opens searched) (holds root opened)

theorem del_holds (survives : Survives N tree.db property known) {key : Bytes}
    (done : tree.del N key = .ok after) (holds : tree.Everywhere property known) :
    after.db = tree.db ∧ after.Everywhere property known := by
  rw [del] at done
  split at done
  · cases done
    exact ⟨rfl, holds⟩
  · next root opened =>
    obtain ⟨result, searched, done⟩ := bind_eq_ok.mp done
    have stack := search_holds survives searched (holds root opened)
    split at done
    · obtain ⟨⟨parents, delOps⟩, detached, done⟩ := bind_eq_ok.mp done
      obtain ⟨⟨left, delOps'⟩, removed, done⟩ := bind_eq_ok.mp done
      obtain ⟨sameLength, hold⟩ := resetPointers_holds detached stack.parents
      have last := stack.last
      rw [← sameLength] at last
      exact relink_holds survives done (remove_holds survives removed ⟨last, hold⟩)
    · cases done
      refine ⟨rfl, fun root' same => ?_⟩
      cases same
      exact survives.opens 0 _ _ (search_opens searched) (holds root opened)

/-- The subtree that an insertion moves down has the property where it comes to be. -/
def SplitHolds (N : Nat) (property : Nat → NodePtr H → Prop) (known : H → Prop)
    (tree : MerklePatriciaTree H) (key : Bytes) : Prop :=
  ∀ root result extKey child next more moved delOps delOps', tree.root = some root →
    search N tree.db root key = .ok result → result.stack.last.node = .extension extKey child →
    extKey.drop (commonPrefix result.remainder extKey).length = next :: more →
    lengthenChild N tree.db child more result.stack.parents.length delOps = .ok (moved, delOps') →
    child.Everywhere property known (result.stack.parents.length + 1) →
    (moved.exile N (result.stack.parents.length + 2)).Everywhere property known
      (splitDepth result.remainder extKey result.stack.parents.length)

/-- A property that survives the mark for exile of a subtree that goes one level deeper. -/
theorem splitHolds_of_exile (survives : Survives N tree.db property known)
    (exiles : ∀ (child : ChildRef H) depth, child.Everywhere property known depth →
      (child.exile N (depth + 1)).Everywhere property known (depth + 1)) {key : Bytes} :
    SplitHolds N property known tree key := by
  intro root result extKey child next more moved delOps delOps' opened searched shape keyTail
    lengthened below
  -- a level deeper, and with it at the place of the child
  suffices holds : moved.Everywhere property known (result.stack.parents.length + 1) by
    have deeper := exiles moved _ holds
    rw [splitDepth]
    split
    · exact deeper.shallower survives.rises
    · exact deeper
  rw [lengthenChild] at lengthened
  split at lengthened
  · cases lengthened
    exact below
  · obtain ⟨node, loaded, lengthened⟩ := bind_eq_ok.mp lengthened
    obtain ⟨isLoaded, held⟩ := heldBy_of_loadedMut loaded
    have holds := survives.held held below
    split at lengthened
    · cases lengthened
      exact survives.sealRef (exiles _ _ (ChildRef.everywhere_owned.mpr holds))
    · rw [makeMut_eq] at lengthened
      obtain ⟨after, longer, lengthened⟩ := bind_eq_ok.mp lengthened
      cases lengthened
      exact ChildRef.everywhere_owned.mpr (survives.changed
        (addPrefixKey_children (expect_eq_ok.mp longer) (TrieNodeExt.everywhere_iff.mp holds).2))

theorem putLast_holds (survives : Survives N tree.db property known) {root : NodePtr H}
    {key val : Bytes} {result : SearchResult H} (opened : tree.root = some root)
    (searched : search N tree.db root key = .ok result)
    (done : tree.putLast N result val = .ok after) (holds : root.Everywhere property known 0)
    (splits : SplitHolds N property known tree key) :
    after.db = tree.db ∧ after.Everywhere property known := by
  have stack := search_holds survives searched holds
  obtain ⟨-, below⟩ := TrieNodeExt.everywhere_iff.mp stack.last
  rw [putLast] at done
  obtain ⟨⟨parents, delOps⟩, detached, done⟩ := bind_eq_ok.mp done
  obtain ⟨sameLength, hold⟩ := resetPointers_holds detached stack.parents
  dsimp only at done
  rw [makeMut_fst] at done
  have relinks : ∀ {node delOps'}, node.AllChildren
      (ChildRef.Everywhere property known (result.stack.parents.length + 1)) →
      tree.relink (some ⟨⟨node, .working⟩, parents⟩) delOps' = .ok after →
      after.db = tree.db ∧ after.Everywhere property known := by
    intro node delOps' changed linked
    refine relink_holds survives linked fun found same => ?_
    cases same
    rw [← sameLength] at changed
    exact ⟨survives.changed changed, hold⟩
  split at done
  · obtain ⟨node, set, done⟩ := bind_eq_ok.mp done
    refine relinks ?_ done
    have set := expect_eq_ok.mp set
    cases shape : result.stack.last.node with
    | leaf key' value =>
      rw [shape] at set
      cases set
      trivial
    | branch children value =>
      rw [shape] at set below
      cases set
      exact below
    | extension key' child =>
      rw [shape] at set
      cases set
  · next absent =>
    obtain ⟨⟨node, delOps'⟩, inserted, done⟩ := bind_eq_ok.mp done
    rw [sameLength] at inserted
    refine relinks ?_ done
    refine insert_holds survives inserted
      (searchLoop_stops searched (Bool.eq_false_iff.mpr absent)) below ?_
    intro extKey child next more moved delOps'' shape keyTail lengthened
    rw [shape] at below
    exact splits root result extKey child next more moved _ delOps'' opened searched shape keyTail
      lengthened below

theorem put_holds (survives : Survives N tree.db property known) {key val : Bytes}
    (done : tree.put N key val = .ok after) (holds : tree.Everywhere property known)
    (splits : SplitHolds N property known tree key) :
    after.db = tree.db ∧ after.Everywhere property known := by
  rw [put] at done
  split at done
  · cases done
  split at done
  · exact del_holds survives done holds
  split at done
  · cases done
    refine ⟨rfl, fun root same => ?_⟩
    cases same
    exact survives.changed trivial
  · next root opened =>
    obtain ⟨result, searched, done⟩ := bind_eq_ok.mp done
    have puts : tree.putLast N result val = .ok after →
        after.db = tree.db ∧ after.Everywhere property known := fun done =>
      putLast_holds survives opened searched done (holds root opened) splits
    split at done
    · obtain ⟨value, -, done⟩ := bind_eq_ok.mp done
      split at done
      · cases done
        refine ⟨rfl, fun root' same => ?_⟩
        cases same
        exact survives.opens 0 _ _ (search_opens searched) (holds root opened)
      · exact puts done
    · exact puts done

end MerklePatriciaTree

end AuthStorage.RainblockTrie
