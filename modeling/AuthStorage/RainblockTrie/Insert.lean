/-
This file proves what an insertion does: at the node where a search for an absent
key ended, the subtrie is replaced by one that holds the new value under the rest
of the key and everything it held before, in canonical shape. Detaching the stack
and attaching it again puts the new subtrie in the place of the old one.
-/

import AuthStorage.RainblockTrie.Search

namespace AuthStorage.RainblockTrie

open AuthStorage.Lvmt (Bytes DBColumn)
open RadixTrie (plug pathTo lookup)

variable {H : Type}

/-! ### Changes of a subtrie -/

/-- One key changes, and the shape stays canonical in the same place. -/
structure Changed (before after : Trie) (key : List Nibble) (found : Option Value) : Prop where
  lookup : after.lookup = Function.update before.lookup key found
  canonical : after.Canonical
  nonempty : after ≠ .empty
  branching : before.IsBranch → after.IsBranch

theorem Changed.plug {before after : Trie} {rest : List Nibble} {found : Option Value}
    (changed : Changed before after rest found) {crumbs : List Crumb} (nonempty : before ≠ .empty)
    (canonical : (plug crumbs before).Canonical) :
    (plug crumbs after).Canonical ∧
      (RadixTrie.plug crumbs after).lookup =
        Function.update (RadixTrie.plug crumbs before).lookup (pathTo crumbs ++ rest) found := by
  obtain ⟨canonicalPath, -, needs⟩ := (RadixTrie.canonical_plug_iff crumbs nonempty).mp canonical
  exact ⟨(RadixTrie.canonical_plug_iff crumbs changed.nonempty).mpr
    ⟨canonicalPath, changed.canonical, fun needed => changed.branching (needs needed)⟩,
    RadixTrie.lookup_plug_update crumbs changed.lookup⟩

variable [RlpHasher H]

/-! ### Detaching and attaching -/

omit [RlpHasher H] in
theorem makeMut_fst (me : NodePtr H) (delOps : List H) :
    (me.makeMut delOps).1 = ⟨me.node, .working⟩ := by
  rw [TrieNodeExt.makeMut]
  split <;> rfl

theorem Frame.Matches.setCells {node : NodePtr H} {pos : Nibble} {crumb : Crumb}
    (isMatch : Frame.Matches (node, pos) crumb) (cells : Cells H) :
    Frame.Matches (⟨node.node, cells⟩, pos) crumb := by
  cases crumb <;> exact isMatch

theorem resetPointers_spec {parents : List (Frame H)} {crumbs : List Crumb}
    (isMatch : List.Forall₂ Frame.Matches parents crumbs) (delOps : List H) :
    ∃ parents' delOps', MerklePatriciaTree.resetPointers parents delOps = .ok (parents', delOps') ∧
      List.Forall₂ Frame.Matches parents' crumbs := by
  induction isMatch with
  | nil => exact ⟨[], delOps, rfl, .nil⟩
  | @cons frame crumb parents crumbs head tail inductionHypothesis =>
    obtain ⟨parents', delOps', done, tail'⟩ := inductionHypothesis
    obtain ⟨node, pos⟩ := frame
    obtain ⟨node', done', head', -⟩ := (head.setCells .working).setChild .null
    refine ⟨(⟨node', .working⟩, pos) :: parents', (node.makeMut delOps').2, ?_,
      .cons (head' .working) tail'⟩
    dsimp only at done'
    rw [MerklePatriciaTree.resetPointers, done]
    show (expect ((node.makeMut delOps').1.node.setChild pos .null) >>= fun trieNode =>
      pure ((⟨trieNode, (node.makeMut delOps').1.cells⟩, pos) :: parents',
        (node.makeMut delOps').2)) = _
    rw [makeMut_fst, done']
    rfl

theorem recoverPointers_spec {parents : List (Frame H)} {crumbs : List Crumb}
    (isMatch : List.Forall₂ Frame.Matches parents crumbs) {last : NodePtr H} {below : Trie}
    (stands : last.Stands below) (changed : last.cells.commited ≠ .committed) (delOps : List H) :
    ∃ root delOps', MerklePatriciaTree.recoverPointers last parents delOps = .ok (root, delOps') ∧
      root.Stands (plug crumbs below) := by
  induction isMatch generalizing last below delOps with
  | nil => exact ⟨last, delOps, rfl, stands⟩
  | @cons frame crumb parents crumbs head tail inductionHypothesis =>
    obtain ⟨node, pos⟩ := frame
    obtain ⟨node', done, -, fills⟩ := (head.setCells .working).setChild (.owned last)
    have filled := fills below (ChildRef.stands_owned.mpr
      ⟨stands, fun committed => absurd committed changed⟩)
    have above : TrieNodeExt.Stands (⟨node', .working⟩ : NodePtr H) (crumb.fill below) :=
      TrieNodeExt.stands_iff.mpr ⟨filled, Cells.fits_working _⟩
    obtain ⟨root, delOps', done', standsRoot⟩ :=
      inductionHypothesis above (fun committed => by cases committed) (node.makeMut delOps).2
    refine ⟨root, delOps', ?_, standsRoot⟩
    dsimp only at done
    rw [MerklePatriciaTree.recoverPointers]
    show (expect ((node.makeMut delOps).1.node.setChild pos (.owned last)) >>= fun trieNode =>
      MerklePatriciaTree.recoverPointers ⟨trieNode, (node.makeMut delOps).1.cells⟩ parents
        (node.makeMut delOps).2) = _
    rw [makeMut_fst, done]
    exact done'

/-! ### New nodes -/

theorem sealRef_stands {node : TrieNode (ChildRef H)} {trie : Trie} (stands : node.Stands trie) :
    node.sealRef.Stands trie :=
  ChildRef.stands_owned.mpr ⟨TrieNodeExt.stands_iff.mpr ⟨stands, Cells.fits_working _⟩,
    fun committed => by cases committed⟩

theorem newLeaf_stands (key : List Nibble) (value : Value) :
    (TrieNode.newLeaf key value.val).sealRef.Stands (.leaf key value : Trie) (H := H) :=
  sealRef_stands ⟨value, rfl, rfl⟩

theorem update_stands {children : Nibble → ChildRef H} {tries : Nibble → Trie}
    (stand : ∀ index, (children index).Stands (tries index)) (digit : Nibble) {child : ChildRef H}
    {trie : Trie} (stands : child.Stands trie) (index : Nibble) :
    (Function.update children digit child index).Stands
      (Function.update tries digit trie index) := by
  by_cases same : index = digit
  · subst same
    rwa [Function.update_self, Function.update_self]
  · rw [Function.update_of_ne same, Function.update_of_ne same]
    exact stand index

/-- The leaf goes where the trie has it. -/
theorem placeLeaf_stands {children : Nibble → ChildRef H} {tries : Nibble → Trie}
    (stand : ∀ index, (children index).Stands (tries index)) (stored : Option Value)
    (key : List Nibble) (value : Value) :
    let placed := MerklePatriciaTree.placeLeaf children (valueBytes stored) key value.val
    let added := RadixTrie.addLeaf tries stored key value
    placed.2 = valueBytes added.2 ∧ ∀ index, (placed.1 index).Stands (added.1 index) := by
  cases key with
  | nil => exact ⟨rfl, stand⟩
  | cons digit rest => exact ⟨rfl, update_stands stand digit (newLeaf_stands rest value)⟩

/-! ### A new branch below a common prefix -/

/-- A trie below a prefix that may be empty. -/
def behind (front : List Nibble) (trie : Trie) : Trie :=
  if front = [] then trie else .extension front trie

theorem lookup_behind (front : List Nibble) (trie : Trie) :
    (behind front trie).lookup = (RadixTrie.extension front trie).lookup := by
  rw [behind]
  split
  · next empty =>
    subst empty
    funext wanted
    exact (RadixTrie.lookup_extension_append [] wanted trie).symm
  · rfl

theorem behind_stands (front : List Nibble) {node : TrieNode (ChildRef H)} {trie : Trie}
    (stands : node.Stands trie) :
    (if front = [] then node else TrieNode.extension front node.sealRef).Stands
      (behind front trie) := by
  rw [behind]
  split
  · exact stands
  · exact ⟨trie, rfl, sealRef_stands stands⟩

/-- A new branch below the common prefix of the key that was there and the key that is added. -/
theorem Changed.split {before : Trie} {front : List Nibble} {tries : Nibble → Trie}
    {stored : Option Value} {key : List Nibble} {value : Value}
    (held : before.lookup = (RadixTrie.extension front (.branch tries stored)).lookup)
    (plain : ¬ before.IsBranch) (canonical : ∀ digit, (tries digit).Canonical)
    {other : Option Nibble} (occupied : RadixTrie.Occupied tries stored other)
    (apart : other ≠ key.head?) (free : ∀ digit ∈ key.head?, tries digit = .empty) :
    Changed before (behind front (.branch (RadixTrie.addLeaf tries stored key value).1
      (RadixTrie.addLeaf tries stored key value).2)) (front ++ key) (some value) := by
  have canonicalBranch := RadixTrie.canonical_addLeaf canonical occupied apart value
  refine ⟨?_, ?_, ?_, fun branching => absurd branching plain⟩
  · rw [lookup_behind, held]
    exact (RadixTrie.Crumb.extension front).lookup_fill_update
      (RadixTrie.lookup_addLeaf tries stored free value)
  · rw [behind]
    split
    · exact canonicalBranch
    · next proper => exact ⟨proper, trivial, canonicalBranch⟩
  · rw [behind]
    split <;> exact fun empty => by cases empty

/-- A leaf whose key leaves the common prefix in another position than the new key. -/
theorem Changed.splitLeaf (front : List Nibble) {keyTail restTail : List Nibble}
    (heads : keyTail.head? ≠ restTail.head?) (stored value : Value) :
    let held := RadixTrie.addLeaf (fun _ => .empty) none keyTail stored
    Changed (.leaf (front ++ keyTail) stored)
      (behind front (.branch (RadixTrie.addLeaf held.1 held.2 restTail value).1
        (RadixTrie.addLeaf held.1 held.2 restTail value).2)) (front ++ restTail) (some value) := by
  have canonicalEmpty : ∀ digit : Nibble, ((fun _ => .empty : Nibble → Trie) digit).Canonical :=
    fun _ => trivial
  refine Changed.split ?_ id
    (RadixTrie.canonical_addLeaf_children canonicalEmpty none keyTail stored)
    (RadixTrie.occupied_addLeaf _ _ keyTail stored) heads ?_
  · rw [RadixTrie.lookup_extension_congr front (RadixTrie.lookup_addLeaf_empty keyTail stored),
      ← RadixTrie.lookup_prepend]
    rfl
  · intro digit head
    by_contra occupied
    have position : some digit ≠ keyTail.head? := fun same => heads (same.symm.trans head.symm)
    exact (RadixTrie.occupied_addLeaf_of_ne position stored).mp occupied rfl

/-- An extension whose key leaves the common prefix in another position than the new key. -/
theorem Changed.splitExtension (front : List Nibble) {keyNext : Nibble}
    {keyRest restTail : List Nibble} (heads : some keyNext ≠ restTail.head?) {inner : Trie}
    (branching : inner.IsBranch) (canonical : inner.Canonical) (value : Value) :
    let tries := Function.update (fun _ => .empty) keyNext (behind keyRest inner)
    Changed (.extension (front ++ keyNext :: keyRest) inner)
      (behind front (.branch (RadixTrie.addLeaf tries none restTail value).1
        (RadixTrie.addLeaf tries none restTail value).2)) (front ++ restTail) (some value) := by
  have canonicalMoved : (behind keyRest inner).Canonical := by
    rw [behind]
    split
    · exact canonical
    · next proper => exact ⟨proper, branching, canonical⟩
  have nonempty : behind keyRest inner ≠ .empty := by
    intro empty
    rw [behind] at empty
    split at empty
    · rw [empty] at branching
      exact branching
    · cases empty
  refine Changed.split ?_ id (fun digit => ?_) (show RadixTrie.Occupied _ none (some keyNext) from ?_)
    heads ?_
  · have single : (RadixTrie.branch (Function.update (fun _ => .empty) keyNext
        (behind keyRest inner)) none).lookup =
        (RadixTrie.extension (keyNext :: keyRest) inner).lookup := by
      rw [RadixTrie.lookup_branch_update_empty,
        RadixTrie.lookup_extension_congr _ (lookup_behind keyRest inner),
        RadixTrie.lookup_extension_extension]
      rfl
    rw [RadixTrie.lookup_extension_congr front single, RadixTrie.lookup_extension_extension]
  · by_cases same : digit = keyNext
    · subst same
      rwa [Function.update_self]
    · rw [Function.update_of_ne same]
      trivial
  · show Function.update (fun _ => RadixTrie.empty) keyNext (behind keyRest inner) keyNext ≠ .empty
    rwa [Function.update_self]
  · intro digit head
    exact Function.update_of_ne (fun same => heads (by rw [← same]; exact head.symm)) _ _

/-! ### The three kinds of nodes -/

theorem insertOnLeaf_spec {key rest : List Nibble} (other : key ≠ rest) (stored value : Value) :
    ∃ after : Trie,
      (MerklePatriciaTree.insertOnLeaf key stored.val rest value.val : TrieNode (ChildRef H)).Stands
        after ∧ Changed (.leaf key stored) after rest (some value) := by
  obtain ⟨restSplit, keySplit, apart⟩ := commonPrefix_spec rest key
  rw [MerklePatriciaTree.insertOnLeaf]
  generalize commonPrefix rest key = front at restSplit keySplit apart ⊢
  generalize rest.drop front.length = restTail at restSplit apart ⊢
  generalize key.drop front.length = keyTail at keySplit apart ⊢
  subst restSplit keySplit
  have heads : restTail.head? ≠ keyTail.head? := by
    intro same
    obtain ⟨rfl, rfl⟩ := apart same
    exact other rfl
  -- the new leaf is placed first, and the old one next to it
  obtain ⟨firstValue, firstStand⟩ := placeLeaf_stands (H := H)
    (fun _ => show ChildRef.null.Stands RadixTrie.empty from rfl) none restTail value
  obtain ⟨bothValue, bothStand⟩ := placeLeaf_stands firstStand
    (RadixTrie.addLeaf (fun _ => .empty) none restTail value).2 keyTail stored
  rw [← firstValue] at bothValue bothStand
  have stands := behind_stands front (show TrieNode.Stands (.branch _ _) _ from
    ⟨_, _, bothValue, rfl, bothStand⟩)
  refine ⟨_, stands, ?_⟩
  rw [RadixTrie.addLeaf_comm _ _ heads]
  exact Changed.splitLeaf front heads.symm stored value

theorem lengthenChild_spec [CollisionFree H] {db : DBColumn} (honest : HonestStore H db) (N : Nat)
    {child : ChildRef H} {below : Trie} (stands : child.Stands below) (branching : below.IsBranch)
    (keyRest : List Nibble) (depth : Nat) (delOps : List H) :
    UnlessMissing db (fun result => result.1.Stands (behind keyRest below))
      (MerklePatriciaTree.lengthenChild N db child keyRest depth delOps) := by
  have nonempty : below ≠ .empty := by
    rintro rfl
    exact branching
  rw [MerklePatriciaTree.lengthenChild, behind]
  split
  · exact stands
  · refine (stands.loadedMut honest nonempty).bind fun node held => ?_
    have standsOwned := held.stands stands
    have standsNode := (TrieNodeExt.stands_iff.mp (ChildRef.stands_owned.mp standsOwned).1).1
    obtain ⟨⟨key, value⟩ | ⟨children, value⟩ | ⟨key, child'⟩, cells⟩ := node
    · obtain ⟨stored, -, rfl⟩ := standsNode
      exact branching.elim
    · exact sealRef_stands ⟨below, rfl, standsOwned.exile N (depth + 2)⟩
    · obtain ⟨below', rfl, -⟩ := standsNode
      exact branching.elim

theorem insertOnExtension_spec [CollisionFree H] {db : DBColumn} (honest : HonestStore H db)
    (N : Nat) {key : List Nibble} {child : ChildRef H} {below : Trie}
    (stands : child.Stands below) (canonical : (RadixTrie.extension key below).Canonical)
    {rest : List Nibble} (off : ¬ key <+: rest) (value : Value) (depth : Nat) (delOps : List H) :
    UnlessMissing db (fun result => ∃ after : Trie, result.1.Stands after ∧
        Changed (.extension key below) after rest (some value))
      (MerklePatriciaTree.insertOnExtension N db key child rest value.val depth delOps) := by
  obtain ⟨restSplit, keySplit, apart⟩ := commonPrefix_spec rest key
  rw [MerklePatriciaTree.insertOnExtension]
  dsimp only
  generalize commonPrefix rest key = front at restSplit keySplit apart ⊢
  generalize rest.drop front.length = restTail at restSplit apart ⊢
  generalize key.drop front.length = keyTail at keySplit apart ⊢
  subst restSplit keySplit
  cases keyTail with
  | nil => exact absurd (by rw [List.append_nil]; exact List.prefix_append _ _) off
  | cons keyNext keyRest =>
    have heads : some keyNext ≠ restTail.head? := fun same => by cases (apart same.symm).2
    obtain ⟨-, branching, canonicalBelow⟩ := canonical
    refine (lengthenChild_spec honest N stands branching keyRest depth delOps).bind ?_
    rintro ⟨moved, delOps⟩ standsMoved
    have baseStand := update_stands (H := H)
      (fun _ => show ChildRef.null.Stands RadixTrie.empty from rfl) keyNext
      (standsMoved.exile N (depth + 2))
    obtain ⟨sameValue, stand⟩ := placeLeaf_stands baseStand none restTail value
    have standsAfter := behind_stands front (show TrieNode.Stands (.branch _ _) _ from
      ⟨_, _, sameValue, rfl, stand⟩)
    by_cases atFront : front = []
    · rw [if_pos atFront] at standsAfter
      rw [if_pos atFront]
      exact ⟨_, standsAfter, Changed.splitExtension front heads branching canonicalBelow value⟩
    · rw [if_neg atFront] at standsAfter
      rw [if_neg atFront]
      exact ⟨_, standsAfter, Changed.splitExtension front heads branching canonicalBelow value⟩

/-- A search ends at a branch with a key that goes on only where the branch has no child. -/
theorem insertOnBranch_spec (N : Nat) {children : Nibble → ChildRef H} {tries : Nibble → Trie}
    (stand : ∀ index, (children index).Stands (tries index)) {stored : Option Value}
    (canonical : (RadixTrie.branch tries stored).Canonical) {digit : Nibble}
    (absent : tries digit = .empty) (rest : List Nibble) (value : Value) (depth : Nat)
    (delOps : List H) :
    ∃ (node : TrieNode (ChildRef H)) (after : Trie),
      MerklePatriciaTree.insertOnBranch N children (valueBytes stored) (digit :: rest) value.val
        depth delOps = .ok (node, delOps) ∧ node.Stands after ∧
      Changed (.branch tries stored) after (digit :: rest) (some value) := by
  have isNull : (children digit).isNull = true := (stand digit).eq_empty_iff.mp absent
  obtain ⟨sameValue, standAfter⟩ := placeLeaf_stands stand stored (digit :: rest) value
  refine ⟨.branch _ _, .branch _ _, ?_, ⟨_, _, sameValue, rfl, standAfter⟩, ?_, ?_, ?_,
    fun _ => trivial⟩
  · rw [MerklePatriciaTree.insertOnBranch, if_pos isNull]
    rfl
  · refine RadixTrie.lookup_addLeaf tries stored (fun head same => ?_) value
    obtain rfl : digit = head := Option.some.inj same
    exact absent
  · obtain ⟨canonicalChildren, first, second, apart, firstOccupied, secondOccupied⟩ := canonical
    have vacant : ∀ position, RadixTrie.Occupied tries stored position → position ≠ some digit := by
      rintro position occupied rfl
      exact occupied absent
    have position : first ≠ (digit :: rest).head? := vacant first firstOccupied
    exact RadixTrie.canonical_addLeaf canonicalChildren firstOccupied position value
  · exact fun empty => by cases empty

/-- Where a search for an absent key ended, the key is added. -/
theorem insert_spec [CollisionFree H] {db : DBColumn} (honest : HonestStore H db) (N : Nat)
    {node : TrieNode (ChildRef H)} {trie : Trie} (stands : node.Stands trie)
    (canonical : trie.Canonical) {rest : List Nibble} (ends : SearchEnd trie rest false)
    (value : Value) (depth : Nat) (delOps : List H) :
    UnlessMissing db (fun result => ∃ after : Trie, result.1.Stands after ∧
        Changed trie after rest (some value))
      (MerklePatriciaTree.insert N db node rest value.val depth delOps) := by
  cases ends with
  | @otherLeaf key _ stored other =>
    cases node with
    | leaf key' value' =>
      obtain ⟨stored', rfl, same⟩ := stands
      cases same
      exact insertOnLeaf_spec other stored value
    | branch children value' => obtain ⟨tries, stored', -, same, -⟩ := stands; cases same
    | extension key' child => obtain ⟨below, same, -⟩ := stands; cases same
  | @noChild tries stored digit rest absent =>
    cases node with
    | leaf key' value' => obtain ⟨stored', -, same⟩ := stands; cases same
    | branch children value' =>
      obtain ⟨tries', stored', rfl, same, stand⟩ := stands
      cases same
      obtain ⟨node', after, done, standsAfter, changed⟩ :=
        insertOnBranch_spec N stand canonical absent rest value depth delOps
      rw [MerklePatriciaTree.insert, done]
      exact ⟨after, standsAfter, changed⟩
    | extension key' child => obtain ⟨below, same, -⟩ := stands; cases same
  | @otherExtension key _ below off =>
    cases node with
    | leaf key' value' => obtain ⟨stored', -, same⟩ := stands; cases same
    | branch children value' => obtain ⟨tries, stored', -, same, -⟩ := stands; cases same
    | extension key' child =>
      obtain ⟨below', same, standsBelow⟩ := stands
      cases same
      exact insertOnExtension_spec honest N standsBelow canonical off value depth delOps

/-- Where a search found the key, its value is replaced. -/
theorem setValue_spec {node : TrieNode (ChildRef H)} {trie : Trie} (stands : node.Stands trie)
    (canonical : trie.Canonical) {rest : List Nibble} (ends : SearchEnd trie rest true)
    (value : Value) :
    ∃ (node' : TrieNode (ChildRef H)) (after : Trie), node.setValue value.val = some node' ∧
      node'.Stands after ∧ Changed trie after rest (some value) := by
  cases ends with
  | leaf key stored =>
    cases node with
    | leaf key' value' =>
      obtain ⟨stored', -, same⟩ := stands
      cases same
      refine ⟨_, .leaf rest value, rfl, ⟨value, rfl, rfl⟩, ?_, trivial,
        fun empty => (by cases empty), id⟩
      funext wanted
      by_cases same : wanted = rest
      · subst same
        rw [Function.update_self, RadixTrie.lookup_leaf_self]
      · rw [Function.update_of_ne same, RadixTrie.lookup_leaf, RadixTrie.lookup_leaf,
          if_neg (Ne.symm same), if_neg (Ne.symm same)]
    | branch children value' => obtain ⟨tries, stored', -, same, -⟩ := stands; cases same
    | extension key' child => obtain ⟨below, same, -⟩ := stands; cases same
  | branch tries stored =>
    cases node with
    | leaf key' value' => obtain ⟨stored', -, same⟩ := stands; cases same
    | branch children value' =>
      obtain ⟨tries', stored', -, same, stand⟩ := stands
      cases same
      refine ⟨_, .branch tries (some value), rfl, ⟨tries, some value, rfl, rfl, stand⟩, ?_, ?_,
        fun empty => (by cases empty), fun _ => trivial⟩
      · have free : ∀ digit ∈ ([] : List Nibble).head?, tries digit = .empty :=
          fun digit head => by cases head
        exact RadixTrie.lookup_addLeaf tries stored free value
      · obtain ⟨canonicalChildren, first, second, apart, firstOccupied, secondOccupied⟩ := canonical
        have stays : ∀ position, RadixTrie.Occupied tries stored position →
            RadixTrie.Occupied tries (some value) position := by
          rintro (_ | digit) occupied
          · exact fun absent => by cases absent
          · exact occupied
        exact ⟨canonicalChildren, first, second, apart, stays _ firstOccupied,
          stays _ secondOccupied⟩
    | extension key' child => obtain ⟨below, same, -⟩ := stands; cases same

end AuthStorage.RainblockTrie
