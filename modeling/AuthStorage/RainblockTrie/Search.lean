/-
This file proves what a search finds. As long as every digest it loads is stored,
it ends at a subtrie of the trie and with the rest of the key, for one of the
reasons it can stop; the nodes of its stack match the steps from the root to that
subtrie; and the trie it leaves, with more nodes held than before, is the same.
-/

import AuthStorage.RainblockTrie.CommitStands

namespace AuthStorage.RainblockTrie

open AuthStorage.Lvmt (Bytes DBColumn)
open RadixTrie (plug pathTo)

variable {H : Type}

/-! ### Results up to a missing digest -/

variable [RlpHasher H]

/-- The call ends as stated, unless it needs a digest that is not stored. -/
def UnlessMissing {α : Type} (db : DBColumn) (post : α → Prop) : Except (Panic H) α → Prop
  | .ok result => post result
  | .error (.hashNotFound found) => db (RlpHasher.toBytes found) = none
  | .error _ => False

namespace UnlessMissing

variable {α β : Type} {db : DBColumn}

theorem imp {first second : α → Prop} {call : Except (Panic H) α}
    (known : UnlessMissing db first call) (implies : ∀ result, first result → second result) :
    UnlessMissing db second call := by
  cases call with
  | ok result => exact implies result known
  | error panic =>
    cases panic with
    | hashNotFound found => exact known
    | failed => exact known
    | endless => exact known

theorem bind {first : α → Prop} {second : β → Prop} {call : Except (Panic H) α}
    {next : α → Except (Panic H) β} (known : UnlessMissing db first call)
    (continues : ∀ result, first result → UnlessMissing db second (next result)) :
    UnlessMissing db second (call >>= next) := by
  cases call with
  | ok result => exact continues result known
  | error panic =>
    cases panic with
    | hashNotFound found => exact known
    | failed => exact known.elim
    | endless => exact known.elim

end UnlessMissing

/-! ### Loading -/

/-- Every entry under a digest hashes to that digest. -/
def HonestStore (H : Type) [RlpHasher H] (db : DBColumn) : Prop :=
  ∀ (found : H) (bytes : Bytes), db (RlpHasher.toBytes found) = some bytes →
    RlpHasher.hash bytes = found

/-- A node as it is loaded. -/
def loadedNode (trie : Trie) : NodePtr H :=
  ⟨nodeOf trie, ⟨some (digest trie), some (encode H trie), .committed, false, false⟩⟩

theorem embedRef_stands {node : TrieNode (ChildRef H)} {trie : Trie} (stands : node.Stands trie) :
    (embedRef node (encode H trie)).Stands trie := by
  rw [embedRef]
  split
  · next short =>
    exact ChildRef.stands_owned.mpr
      ⟨TrieNodeExt.stands_iff.mpr ⟨stands, Cells.fits_light short⟩, fun done => by cases done⟩
  · next large => exact ⟨Nat.le_of_not_lt large, rfl⟩

theorem stub_stands (trie : Trie) : (stub trie : ChildRef H).Stands trie := by
  induction trie with
  | empty => rfl
  | leaf key value => exact embedRef_stands ⟨value, rfl, rfl⟩
  | branch children value inductionHypothesis =>
    exact embedRef_stands ⟨children, value, rfl, rfl, inductionHypothesis⟩
  | extension key child inductionHypothesis =>
    exact embedRef_stands ⟨child, rfl, inductionHypothesis⟩

theorem nodeOf_stands {trie : Trie} (nonempty : trie ≠ .empty) :
    (nodeOf trie : TrieNode (ChildRef H)).Stands trie := by
  cases trie with
  | empty => exact absurd rfl nonempty
  | leaf key value => exact ⟨value, rfl, rfl⟩
  | branch children value => exact ⟨children, value, rfl, rfl, fun index => stub_stands _⟩
  | extension key child => exact ⟨child, rfl, stub_stands _⟩

theorem loadedNode_stands {trie : Trie} (nonempty : trie ≠ .empty) :
    (loadedNode trie : NodePtr H).Stands trie :=
  TrieNodeExt.stands_iff.mpr ⟨nodeOf_stands nonempty,
    fun _ found => (Option.some.inj found).symm, rfl, rfl⟩

section

variable [CollisionFree H] {db : DBColumn}

theorem load_spec (honest : HonestStore H db) {trie : Trie} (nonempty : trie ≠ .empty) :
    UnlessMissing db (fun node => node = loadedNode trie)
      (TrieNodeExt.load db (digest trie : H)) := by
  rw [TrieNodeExt.load]
  cases stored : db (RlpHasher.toBytes (digest trie : H)) with
  | none => exact stored
  | some bytes =>
    obtain rfl : bytes = encode H trie :=
      CollisionFree.hash_injective (honest _ _ stored)
    dsimp only
    rw [new_encode nonempty]
    exact rfl

/-- A held child is returned as it is, a stored one as it is loaded. -/
def ChildRef.HeldAs (child : ChildRef H) (trie : Trie) (node : NodePtr H) : Prop :=
  child = .owned node ∨ (child = .ref (digest trie) ∧ node = loadedNode trie)

omit [CollisionFree H] in
theorem ChildRef.HeldAs.stands {child : ChildRef H} {trie : Trie} {node : NodePtr H}
    (held : child.HeldAs trie node) (stands : child.Stands trie) :
    (ChildRef.owned node).Stands trie := by
  rcases held with rfl | ⟨rfl, rfl⟩
  · exact stands
  · refine ChildRef.stands_owned.mpr ⟨loadedNode_stands ?_, fun _ => stands.1⟩
    exact fun empty => by cases stands.eq_empty_iff.mp empty

theorem ChildRef.Stands.loadedMut {child : ChildRef H} {trie : Trie} (honest : HonestStore H db)
    (stands : child.Stands trie) (nonempty : trie ≠ .empty) :
    UnlessMissing db (child.HeldAs trie) (child.loadedMut db) := by
  cases child with
  | null => exact absurd stands nonempty
  | ref found =>
    obtain rfl : found = digest trie := stands.2
    exact (load_spec honest nonempty).imp fun node loaded => .inr ⟨rfl, loaded⟩
  | owned me => exact .inl rfl

theorem ChildRef.Stands.ownedOrLoad {child : ChildRef H} {trie : Trie}
    (honest : HonestStore H db) (stands : child.Stands trie) :
    UnlessMissing db (fun result => (result = none ∧ trie = .empty) ∨
      ∃ node isLoaded, result = some (node, isLoaded) ∧ child.HeldAs trie node)
      (child.ownedOrLoad db) := by
  cases child with
  | null => exact .inl ⟨rfl, stands⟩
  | ref found =>
    have nonempty : trie ≠ .empty := fun empty => by cases stands.eq_empty_iff.mp empty
    obtain rfl : found = digest trie := stands.2
    exact (load_spec honest nonempty).bind fun node loaded =>
      .inr ⟨node, true, rfl, .inr ⟨rfl, loaded⟩⟩
  | owned me => exact .inr ⟨me, false, rfl, .inl rfl⟩

end

/-! ### The stack -/

/-- One step of a search. -/
abbrev Crumb := RadixTrie.Crumb Nibble Value

/-- A node of the stack matches a step: the children off the way stand for the step's. -/
def Frame.Matches : Frame H → Crumb → Prop
  | (node, pos), .branch tries value digit =>
    pos = digit ∧ ∃ children, node.node = .branch children (valueBytes value) ∧
      ∀ other, other ≠ digit → (children other).Stands (tries other)
  | (node, pos), .extension key => pos = 0 ∧ ∃ child, node.node = .extension key child

/-- Setting the child on the way fills the step. -/
theorem Frame.Matches.setChild {frame : Frame H} {crumb : Crumb} (isMatch : Frame.Matches frame crumb)
    (child : ChildRef H) :
    ∃ node, frame.1.node.setChild frame.2 child = some node ∧
      (∀ cells, Frame.Matches (⟨node, cells⟩, frame.2) crumb) ∧
      ∀ below : Trie, child.Stands below → node.Stands (crumb.fill below) := by
  obtain ⟨⟨node, cells⟩, pos⟩ := frame
  cases crumb with
  | branch tries value digit =>
    obtain ⟨rfl, children, rfl, others⟩ := isMatch
    refine ⟨_, rfl, fun _ => ⟨rfl, _, rfl, fun other different => ?_⟩, fun below stands =>
      ⟨_, value, rfl, rfl, fun index => ?_⟩⟩
    · rw [Function.update_of_ne different]
      exact others other different
    · by_cases same : index = pos
      · subst same
        rwa [Function.update_self, Function.update_self]
      · rw [Function.update_of_ne same, Function.update_of_ne same]
        exact others index same
  | extension key =>
    obtain ⟨rfl, before, rfl⟩ := isMatch
    exact ⟨_, rfl, fun _ => ⟨rfl, _, rfl⟩, fun below stands => ⟨below, rfl, stands⟩⟩

/-- The nodes above a subtrie, with cells that belong to the trie as it is. -/
def FramesStand : List (Frame H) → List Crumb → Trie → Prop
  | [], [], _ => True
  | frame :: parents, crumb :: crumbs, trie =>
    Frame.Matches frame crumb ∧ frame.1.cells.Fits (encode H (crumb.fill trie)) ∧
      (parents ≠ [] → frame.1.cells.commited = .committed →
        32 ≤ (encode H (crumb.fill trie)).length) ∧
      FramesStand parents crumbs (crumb.fill trie)
  | _, _, _ => False

theorem FramesStand.matches {parents : List (Frame H)} {crumbs : List Crumb} {trie : Trie}
    (stand : FramesStand parents crumbs trie) : List.Forall₂ Frame.Matches parents crumbs := by
  induction parents generalizing crumbs trie with
  | nil =>
    cases crumbs with
    | nil => exact .nil
    | cons crumb crumbs => exact stand.elim
  | cons frame parents inductionHypothesis =>
    cases crumbs with
    | nil => exact stand.elim
    | cons crumb crumbs =>
      obtain ⟨isMatch, -, -, standAbove⟩ := stand
      exact .cons isMatch (inductionHypothesis standAbove)

/-- A stack at a subtrie of the trie. -/
structure Stack.StandsAt (stack : Stack H) (crumbs : List Crumb) (below : Trie) : Prop where
  last : stack.last.Stands below
  large : stack.parents ≠ [] → stack.last.cells.commited = .committed →
    32 ≤ (encode H below).length
  parents : FramesStand stack.parents crumbs below

theorem Stack.StandsAt.shared {stack : Stack H} {crumbs : List Crumb} {below : Trie}
    (standsAt : stack.StandsAt crumbs below) :
    (MerklePatriciaTree.shared stack.last stack.parents).Stands (plug crumbs below) := by
  obtain ⟨last, parents⟩ := stack
  induction parents generalizing last crumbs below with
  | nil =>
    cases crumbs with
    | nil => exact standsAt.last
    | cons crumb crumbs => exact standsAt.parents.elim
  | cons frame parents inductionHypothesis =>
    cases crumbs with
    | nil => exact standsAt.parents.elim
    | cons crumb crumbs =>
      obtain ⟨isMatch, fits, large, standAbove⟩ := standsAt.parents
      obtain ⟨node, done, -, stands⟩ := isMatch.setChild (.owned last)
      have filled := stands below (ChildRef.stands_owned.mpr
        ⟨standsAt.last, standsAt.large (List.cons_ne_nil _ _)⟩)
      obtain ⟨⟨before, cells⟩, pos⟩ := frame
      have above : Stack.StandsAt (⟨⟨node, cells⟩, parents⟩ : Stack H) crumbs
          (crumb.fill below) :=
        ⟨TrieNodeExt.stands_iff.mpr ⟨filled, fits⟩, large, standAbove⟩
      rw [MerklePatriciaTree.shared, done, Option.getD_some, plug]
      exact inductionHypothesis _ above

/-! ### One step of a search -/

/-- Why a search stops at a subtrie with this rest of the key, and whether it found the key. -/
inductive SearchEnd : Trie → List Nibble → Bool → Prop
  | leaf (key : List Nibble) (value : Value) : SearchEnd (.leaf key value) key true
  | branch (tries : Nibble → Trie) (value : Option Value) : SearchEnd (.branch tries value) [] true
  | otherLeaf {key rest : List Nibble} (value : Value) (other : key ≠ rest) :
    SearchEnd (.leaf key value) rest false
  | noChild {tries : Nibble → Trie} (value : Option Value) {digit : Nibble} (rest : List Nibble)
    (absent : tries digit = .empty) : SearchEnd (.branch tries value) (digit :: rest) false
  | otherExtension {key rest : List Nibble} (below : Trie) (off : ¬ key <+: rest) :
    SearchEnd (.extension key below) rest false

/-- What a step of a search leads to. -/
def NextResult.Leads (me : NodePtr H) (trie : Trie) (nibbles : List Nibble) :
    NextResult H → Prop
  | .matched => SearchEnd trie nibbles true
  | .notMatched => SearchEnd trie nibbles false
  | .next followed child pos rest => ∃ (crumb : Crumb) (below : Trie),
      trie = crumb.fill below ∧ nibbles = crumb.path ++ rest ∧ crumb.path ≠ [] ∧
        below.Canonical ∧ Frame.Matches (followed, pos) crumb ∧
        (∃ loaded, followed.cells = { me.cells with loaded := loaded }) ∧
        (ChildRef.owned child).Stands below

theorem follow_spec {db : DBColumn} {me child : NodePtr H} {pos : Nibble} {crumb : Crumb}
    (isMatch : Frame.Matches (me, pos) crumb) {below : Trie} (canonical : below.Canonical)
    (stands : (ChildRef.owned child).Stands below) (truncateOp : Bool) {nibbles rest : List Nibble}
    (split : nibbles = crumb.path ++ rest) (proper : crumb.path ≠ []) :
    UnlessMissing db (NextResult.Leads me (crumb.fill below) nibbles)
      (NextResult.follow me child pos truncateOp rest) := by
  obtain ⟨node, done, isMatch', -⟩ := isMatch.setChild (.owned child)
  rw [NextResult.follow]
  dsimp only at done
  rw [done]
  exact ⟨crumb, below, rfl, split, proper, canonical, isMatch' _, ⟨_, rfl⟩, stands⟩

theorem next_spec [CollisionFree H] {db : DBColumn} (honest : HonestStore H db) (N : Nat)
    {me : NodePtr H} {trie : Trie} (stands : me.Stands trie) (canonical : trie.Canonical)
    (nibbles : List Nibble) (depth : Nat) :
    UnlessMissing db (NextResult.Leads me trie nibbles)
      (TrieNode.next N db me nibbles depth) := by
  obtain ⟨node, cells⟩ := me
  have standsNode := (TrieNodeExt.stands_iff.mp stands).1
  cases node with
  | leaf key value =>
    obtain ⟨stored, rfl, rfl⟩ := standsNode
    show NextResult.Leads _ _ _ (if key = nibbles then .matched else .notMatched)
    split
    · next same =>
      subst same
      exact .leaf key stored
    · next other => exact .otherLeaf stored other
  | branch children value =>
    obtain ⟨tries, stored, rfl, rfl, below⟩ := standsNode
    cases nibbles with
    | nil => exact SearchEnd.branch tries stored
    | cons digit rest =>
      refine ((below digit).ownedOrLoad honest).bind ?_
      rintro result (⟨rfl, absent⟩ | ⟨child, isLoaded, rfl, held⟩)
      · exact SearchEnd.noChild stored rest absent
      · have isMatch : Frame.Matches
            ((⟨.branch children (valueBytes stored), cells⟩, digit) : Frame H)
            (.branch tries stored digit) := ⟨rfl, children, rfl, fun other _ => below other⟩
        have filled : UnlessMissing db _ (NextResult.follow _ child digit
            (isLoaded && depth ≥ N) rest) :=
          follow_spec isMatch (canonical.1 digit) (held.stands (below digit)) _ rfl
            (List.cons_ne_nil digit [])
        rwa [RadixTrie.Crumb.fill, Function.update_eq_self] at filled
  | extension key child =>
    obtain ⟨below, rfl, standsBelow⟩ := standsNode
    obtain ⟨proper, branching, canonicalBelow⟩ := canonical
    rw [TrieNode.next]
    dsimp only
    split
    · next within =>
      obtain ⟨rest, rfl⟩ := within
      refine (standsBelow.ownedOrLoad honest).bind ?_
      rintro result (⟨-, absent⟩ | ⟨child', isLoaded, rfl, held⟩)
      · subst absent
        exact branching.elim
      · have isMatch : Frame.Matches ((⟨.extension key child, cells⟩, 0) : Frame H)
            (.extension key) := ⟨rfl, child, rfl⟩
        rw [List.drop_left' rfl]
        exact follow_spec isMatch canonicalBelow (held.stands standsBelow) _ rfl proper
    · next off => exact SearchEnd.otherExtension below off

/-! ### The whole search -/

/-- A search result in a trie: the subtrie and the rest of the key where it ended. -/
structure SearchResult.Finds (result : SearchResult H) (trie : Trie) (key : List Nibble)
    (crumbs : List Crumb) (below : Trie) (rest : List Nibble) : Prop where
  trie_eq : trie = plug crumbs below
  key_eq : key = pathTo crumbs ++ rest
  standsAt : result.stack.StandsAt crumbs below
  canonical : below.Canonical
  ends : SearchEnd below rest result.isMatched
  remainder : result.isMatched = false → result.remainder = rest

theorem searchLoop_spec [CollisionFree H] {db : DBColumn} (honest : HonestStore H db) (N : Nat)
    {rounds : Nat} {stack : Stack H} {crumbs : List Crumb} {below : Trie}
    (standsAt : stack.StandsAt crumbs below) (canonical : below.Canonical)
    {rest : List Nibble} (enough : rest.length < rounds) (depth : Nat) :
    UnlessMissing db (fun result => ∃ crumbs' below' rest',
      result.Finds (plug crumbs below) (pathTo crumbs ++ rest) crumbs' below' rest')
      (MerklePatriciaTree.searchLoop N db rounds stack rest depth) := by
  induction rounds generalizing stack crumbs below rest depth with
  | zero => exact absurd enough (Nat.not_lt_zero _)
  | succ rounds inductionHypothesis =>
    rw [MerklePatriciaTree.searchLoop]
    refine (next_spec honest N standsAt.last canonical rest depth).bind ?_
    intro result leads
    cases result with
    | matched =>
      exact ⟨crumbs, below, rest, rfl, rfl, standsAt, canonical, leads, fun no => by cases no⟩
    | notMatched =>
      exact ⟨crumbs, below, rest, rfl, rfl, standsAt, canonical, leads, fun _ => rfl⟩
    | next me child pos tail =>
      obtain ⟨crumb, inner, rfl, rfl, proper, canonicalInner, isMatch, ⟨loaded, cells⟩,
        standsChild⟩ := leads
      obtain ⟨standsInner, large⟩ := ChildRef.stands_owned.mp standsChild
      have fits := (TrieNodeExt.stands_iff.mp standsAt.last).2.mark loaded stack.last.cells.exiled
      have deeper : Stack.StandsAt (⟨child, (me, pos) :: stack.parents⟩ : Stack H)
          (crumb :: crumbs) inner := by
        refine ⟨standsInner, fun _ => large, isMatch, ?_, ?_, standsAt.parents⟩
        · rwa [cells]
        · rw [cells]
          exact standsAt.large
      have shorter : tail.length < rounds := by
        have positive := List.length_pos_of_ne_nil proper
        rw [List.length_append] at enough
        omega
      have found := inductionHypothesis deeper canonicalInner shorter (depth + 1)
      rwa [pathTo, plug, List.append_assoc] at found

theorem search_spec [CollisionFree H] {db : DBColumn} (honest : HonestStore H db) (N : Nat)
    {root : NodePtr H} {trie : Trie} (stands : root.Stands trie) (canonical : trie.Canonical)
    (key : Bytes) :
    UnlessMissing db (fun result => ∃ crumbs below rest,
      result.Finds trie (bytesToNibbleList key) crumbs below rest)
      (MerklePatriciaTree.search N db root key) := by
  have standsAt : Stack.StandsAt (⟨root, []⟩ : Stack H) [] trie :=
    ⟨stands, fun deep => absurd rfl deep, trivial⟩
  exact searchLoop_spec honest N standsAt canonical (Nat.lt_succ_self _) 1

end AuthStorage.RainblockTrie
