/-
This file proves the operations of the tree against the trie it stands for: a read
changes nothing and answers from the contents, up to keys that end at a branch
without a value; a write changes one key and keeps the canonical shape; a commit
changes nothing at all. Whatever is in the store under a digest hashes to it.
-/

import AuthStorage.RainblockTrie.Remove

namespace AuthStorage.RainblockTrie

open AuthStorage.Lvmt (Bytes DBColumn DBOp)
open RadixTrie (plug pathTo)

variable {H : Type} [RlpHasher H]

/-! ### The store -/

theorem toBytes_injective : Function.Injective (RlpHasher.toBytes (H := H)) := by
  intro first second same
  have back := congrArg (RlpHasher.fromBytes (H := H)) same
  rwa [RlpHasher.fromBytes_toBytes, RlpHasher.fromBytes_toBytes, Option.some.injEq] at back

theorem toBytes_ne_rootKey (found : H) : RlpHasher.toBytes found ≠ ROOT_KEY := by
  intro same
  have long := RlpHasher.le_length_toBytes found
  rw [same] at long
  exact absurd long (by decide)

/-- Whatever the operation writes under a digest hashes to it. -/
def HonestOp (H : Type) [RlpHasher H] : DBOp → Prop
  | .insert key value => ∀ found : H, key = RlpHasher.toBytes found → RlpHasher.hash value = found
  | .delete _ => True

theorem HonestStore.apply {db : DBColumn} (honest : HonestStore H db) {op : DBOp}
    (honestOp : HonestOp H op) : HonestStore H (op.apply db) := by
  intro found bytes stored
  by_cases same : op.key = RlpHasher.toBytes found
  · cases op with
    | insert key value =>
      have same' : key = RlpHasher.toBytes found := same
      rw [DBOp.apply, same', Function.update_self, Option.some.injEq] at stored
      rw [← stored]
      exact honestOp found same'
    | delete key =>
      have same' : key = RlpHasher.toBytes found := same
      rw [DBOp.apply, same', Function.update_self] at stored
      cases stored
  · rw [DBColumn.apply_of_ne db op same] at stored
    exact honest found bytes stored

theorem HonestStore.writeBuffered {db : DBColumn} (honest : HonestStore H db) {ops : List DBOp}
    (honestOps : ∀ op ∈ ops, HonestOp H op) : HonestStore H (db.writeBuffered ops) := by
  induction ops generalizing db with
  | nil => exact honest
  | cons op ops inductionHypothesis =>
    rw [DBColumn.writeBuffered_cons]
    exact inductionHypothesis (honest.apply (honestOps op List.mem_cons_self))
      fun other member => honestOps other (List.mem_cons_of_mem _ member)

theorem honestOp_delOp (found : H) : HonestOp H (MerklePatriciaTree.delOp found) := trivial

theorem honestOp_putOp {entry : H × Bytes} (honest : HonestEntry entry) :
    HonestOp H (MerklePatriciaTree.putOp entry) := by
  intro found same
  rw [← toBytes_injective same]
  exact honest.symm

theorem honestOp_rootKey (value : Bytes) : HonestOp H (.insert ROOT_KEY value) :=
  fun found same => absurd same.symm (toBytes_ne_rootKey found)

/-! ### What a tree stands for -/

/-- The root stands for the trie; without a root there is nothing. -/
def RootStands : Option (NodePtr H) → Trie → Prop
  | none, trie => trie = .empty
  | some root, trie => root.Stands trie

/-- The tree stands for a trie: what is stored is stored under its digest, and the root in memory
stands for the trie. -/
structure MerklePatriciaTree.Represents (tree : MerklePatriciaTree H) (trie : Trie) : Prop where
  honest : HonestStore H tree.db
  canonical : trie.Canonical
  root : RootStands tree.root trie

namespace MerklePatriciaTree

theorem represents_new (N : Nat) :
    ∃ tree : MerklePatriciaTree H, new N DBColumn.empty = .ok tree ∧ tree.Represents .empty :=
  ⟨⟨DBColumn.empty, none, []⟩, rfl, fun _ _ stored => (by cases stored), trivial, rfl⟩

variable {tree : MerklePatriciaTree H} {trie : Trie}

/-! ### Reading -/

/-- Two keys of the trie go on from the key with different nibbles. -/
def Forks (contents : List Nibble → Option Value) (key : List Nibble) : Prop :=
  ∃ first second firstRest secondRest, first ≠ second ∧
    contents (key ++ first :: firstRest) ≠ none ∧ contents (key ++ second :: secondRest) ≠ none

theorem not_forks_leaf (key : List Nibble) (value : Value) (wanted : List Nibble) :
    ¬ Forks (RadixTrie.leaf key value : Trie).lookup wanted := by
  rintro ⟨first, second, firstRest, secondRest, apart, firstPresent, secondPresent⟩
  obtain ⟨found, firstFound⟩ := Option.ne_none_iff_exists'.mp firstPresent
  obtain ⟨found', secondFound⟩ := Option.ne_none_iff_exists'.mp secondPresent
  have same := (RadixTrie.lookup_eq_of_leaf firstFound).symm.trans
    (RadixTrie.lookup_eq_of_leaf secondFound)
  exact apart (List.cons.inj (List.append_cancel_left same)).1

/-- Where a search fails, no two keys go on from the rest of the key with different nibbles. -/
theorem not_forks_of_searchEnd {below : Trie} {rest : List Nibble}
    (ends : SearchEnd below rest false) : below.lookup rest = none ∧ ¬ Forks below.lookup rest := by
  cases ends with
  | @otherLeaf key _ stored other =>
    exact ⟨if_neg other, not_forks_leaf _ _ _⟩
  | @noChild tries stored digit rest absent =>
    have nothing : ∀ more, (RadixTrie.branch tries stored).lookup (digit :: more) = none := by
      intro more
      rw [RadixTrie.lookup_branch_cons, absent, RadixTrie.lookup_empty]
    refine ⟨nothing rest, ?_⟩
    rintro ⟨first, -, firstRest, -, -, present, -⟩
    exact present (nothing _)
  | @otherExtension key _ inner off =>
    refine ⟨RadixTrie.lookup_extension_off off inner, ?_⟩
    rintro ⟨first, second, firstRest, secondRest, apart, firstPresent, secondPresent⟩
    obtain ⟨found, firstFound⟩ := Option.ne_none_iff_exists'.mp firstPresent
    obtain ⟨found', secondFound⟩ := Option.ne_none_iff_exists'.mp secondPresent
    obtain ⟨tail, firstSplit, -⟩ := RadixTrie.prefix_of_lookup_extension firstFound
    obtain ⟨tail', secondSplit, -⟩ := RadixTrie.prefix_of_lookup_extension secondFound
    -- the key of the extension is longer than the rest, and goes on with one nibble
    rcases List.append_eq_append_iff.mp firstSplit with ⟨more, longer, split⟩ | ⟨more, shorter, -⟩
    · cases more with
      | nil => exact off (by rw [longer, List.append_nil])
      | cons head more =>
        rw [longer, List.append_assoc] at secondSplit
        have firstHead := (List.cons.inj split).1
        have secondHead := (List.cons.inj (List.append_cancel_left secondSplit)).1
        exact apart (firstHead.trans secondHead.symm)
    · exact off ⟨more, shorter.symm⟩

/-- What a search finds at a branch without a value. -/
theorem forks_of_canonical {tries : Nibble → Trie}
    (canonical : (RadixTrie.branch tries none).Canonical) :
    Forks (RadixTrie.branch tries none).lookup [] := by
  obtain ⟨first, second, found, found', apart, firstPresent, secondPresent⟩ :=
    canonical.exists_two
  have proper : ∀ {wanted : List Nibble} {value : Value},
      (RadixTrie.branch tries none).lookup wanted = some value →
        ∃ digit rest, wanted = digit :: rest := by
    intro wanted value present
    cases wanted with
    | nil => cases present
    | cons digit rest => exact ⟨digit, rest, rfl⟩
  obtain ⟨digit, rest, rfl⟩ := proper firstPresent
  obtain ⟨digit', rest', rfl⟩ := proper secondPresent
  exact ⟨digit, digit', rest, rest', fun same => apart (congrArg some same),
    fun absent => (by rw [List.nil_append, firstPresent] at absent; cases absent),
    fun absent => (by rw [List.nil_append, secondPresent] at absent; cases absent)⟩

theorem forks_plug (crumbs : List Crumb) (below : Trie) (rest : List Nibble) :
    Forks (plug crumbs below).lookup (pathTo crumbs ++ rest) ↔ Forks below.lookup rest := by
  have moves : ∀ more, (plug crumbs below).lookup (pathTo crumbs ++ rest ++ more) =
      below.lookup (rest ++ more) := by
    intro more
    rw [List.append_assoc]
    exact RadixTrie.lookup_plug crumbs below (rest ++ more)
  constructor
  · rintro ⟨first, second, firstRest, secondRest, apart, firstPresent, secondPresent⟩
    rw [moves] at firstPresent secondPresent
    exact ⟨first, second, firstRest, secondRest, apart, firstPresent, secondPresent⟩
  · rintro ⟨first, second, firstRest, secondRest, apart, firstPresent, secondPresent⟩
    rw [← moves] at firstPresent secondPresent
    exact ⟨first, second, firstRest, secondRest, apart, firstPresent, secondPresent⟩

/-- The answer of a read: the value, and the empty string at a branch without one. -/
structure Answers (contents : List Nibble → Option Value) (key : List Nibble)
    (found : Option Bytes) : Prop where
  present : ∀ value, contents key = some value → found = some value.val
  forks : contents key = none → Forks contents key → found = some []
  absent : contents key = none → ¬ Forks contents key → found = none

theorem Answers.of_absent {contents : List Nibble → Option Value} {key : List Nibble}
    (nothing : contents key = none ∧ ¬ Forks contents key) : Answers contents key none :=
  ⟨fun value present => (by rw [nothing.1] at present; cases present),
    fun _ forks => absurd forks nothing.2, fun _ _ => rfl⟩

theorem answers_of_searchEnd {below : Trie} {rest : List Nibble} {isMatched : Bool}
    (ends : SearchEnd below rest isMatched) (canonical : below.Canonical)
    {node : TrieNode (ChildRef H)} (stands : node.Stands below) :
    Answers below.lookup rest (if isMatched then node.value else none) := by
  cases ends with
  | leaf key stored =>
    cases node with
    | leaf key' value =>
      obtain ⟨stored', rfl, same⟩ := stands
      cases same
      refine ⟨fun value present => ?_, fun absent => ?_, fun absent => ?_⟩
      · rw [RadixTrie.lookup_leaf_self, Option.some.injEq] at present
        rw [← present]
        rfl
      · rw [RadixTrie.lookup_leaf_self] at absent
        cases absent
      · rw [RadixTrie.lookup_leaf_self] at absent
        cases absent
    | branch children value => obtain ⟨tries, stored', -, same, -⟩ := stands; cases same
    | extension key' child => obtain ⟨inner, same, -⟩ := stands; cases same
  | branch tries stored =>
    cases node with
    | leaf key' value => obtain ⟨stored', -, same⟩ := stands; cases same
    | extension key' child => obtain ⟨inner, same, -⟩ := stands; cases same
    | branch children value =>
      obtain ⟨tries', stored', rfl, same, -⟩ := stands
      cases same
      refine ⟨fun value present => ?_, fun absent _ => ?_, fun absent plain => ?_⟩
      · obtain rfl : stored = some value := present
        rfl
      · obtain rfl : stored = none := absent
        rfl
      · obtain rfl : stored = none := absent
        exact absurd (forks_of_canonical canonical) plain
  | otherLeaf stored other => exact .of_absent (not_forks_of_searchEnd (.otherLeaf stored other))
  | noChild stored rest nothing =>
    exact .of_absent (not_forks_of_searchEnd (.noChild stored rest nothing))
  | otherExtension inner off =>
    exact .of_absent (not_forks_of_searchEnd (.otherExtension inner off))

theorem Answers.plug {crumbs : List Crumb} {below : Trie} {rest : List Nibble}
    {found : Option Bytes} (answers : Answers below.lookup rest found) :
    Answers (plug crumbs below).lookup (pathTo crumbs ++ rest) found := by
  have same := RadixTrie.lookup_plug crumbs below rest
  have forks := forks_plug crumbs below rest
  exact ⟨fun value present => answers.present value (by rwa [← same]),
    fun absent forked => answers.forks (by rwa [← same]) (forks.mp forked),
    fun absent plain => answers.absent (by rwa [← same]) fun forked => plain (forks.mpr forked)⟩

/-- A read answers from the contents and leaves the trie as it is. -/
theorem Represents.get [CollisionFree H] (represents : tree.Represents trie) (N : Nat)
    {key : Bytes} (nonempty : key ≠ []) :
    UnlessMissing tree.db (fun result => result.2.Represents trie ∧ result.2.db = tree.db ∧
      Answers trie.lookup (bytesToNibbleList key) result.1) (tree.get N key) := by
  obtain ⟨db, root, delOps⟩ := tree
  rw [MerklePatriciaTree.get, if_neg nonempty]
  cases root with
  | none =>
    obtain rfl : trie = .empty := represents.root
    refine ⟨represents, rfl, .of_absent ⟨rfl, ?_⟩⟩
    rintro ⟨first, -, firstRest, -, -, present, -⟩
    exact present rfl
  | some root =>
    refine (search_spec represents.honest N represents.root represents.canonical key).bind ?_
    rintro result ⟨crumbs, below, rest, rfl, split, standsAt, canonical, ends, -⟩
    refine ⟨⟨represents.honest, represents.canonical, standsAt.shared⟩, rfl, ?_⟩
    rw [split]
    exact Answers.plug (answers_of_searchEnd ends canonical
      (TrieNodeExt.stands_iff.mp standsAt.last).1)

/-! ### Writing -/

/-- The trie afterwards has these contents. -/
def Becomes (db : DBColumn) (contents : List Nibble → Option Value)
    (tree : MerklePatriciaTree H) : Prop :=
  tree.db = db ∧ ∃ trie : Trie, tree.Represents trie ∧ trie.lookup = contents

theorem Rebuilds.relink {stack : Stack H} {contents : List Nibble → Option Value}
    {crumbs : List Crumb} {after : Trie} (rebuilds : stack.Rebuilds contents crumbs after)
    (honest : HonestStore H tree.db) (delOps : List H) :
    ∃ tree', tree.relink (some stack) delOps = .ok tree' ∧ Becomes tree.db contents tree' := by
  obtain ⟨root, delOps', done, stands⟩ :=
    recoverPointers_spec rebuilds.parents rebuilds.last rebuilds.changed delOps
  refine ⟨{ tree with root := some root, delOps := delOps' }, ?_, rfl, _,
    ⟨honest, rebuilds.canonical, stands⟩, rebuilds.lookup⟩
  rw [MerklePatriciaTree.relink, done]
  rfl

theorem Leaves.relink {stack : Option (Stack H)} {contents : List Nibble → Option Value}
    (leaves : Leaves contents stack) (honest : HonestStore H tree.db) (delOps : List H) :
    ∃ tree', tree.relink stack delOps = .ok tree' ∧ Becomes tree.db contents tree' := by
  cases stack with
  | none =>
    exact ⟨{ tree with root := none, delOps := delOps }, rfl, rfl, .empty,
      ⟨honest, trivial, rfl⟩, leaves.symm⟩
  | some stack =>
    obtain ⟨crumbs, after, rebuilds⟩ := leaves
    exact Rebuilds.relink rebuilds honest delOps

theorem lookup_update_none {key : List Nibble} (absent : trie.lookup key = none) :
    Function.update trie.lookup key none = trie.lookup := by
  rw [← absent, Function.update_eq_self]

/-- A deletion removes the key. -/
theorem Represents.del [CollisionFree H] (represents : tree.Represents trie) (N : Nat)
    (key : Bytes) :
    UnlessMissing tree.db
      (Becomes tree.db (Function.update trie.lookup (bytesToNibbleList key) none))
      (tree.del N key) := by
  obtain ⟨db, root, delOps⟩ := tree
  rw [MerklePatriciaTree.del]
  cases root with
  | none =>
    obtain rfl : trie = .empty := represents.root
    exact ⟨rfl, .empty, represents, (lookup_update_none rfl).symm⟩
  | some root =>
    refine (search_spec represents.honest N represents.root represents.canonical key).bind ?_
    rintro ⟨⟨last, parents⟩, isMatched, remainder⟩
      ⟨crumbs, below, rest, rfl, split, standsAt, canonical, ends, -⟩
    have standsLast := (TrieNodeExt.stands_iff.mp standsAt.last).1
    rw [split]
    dsimp only at ends standsLast ⊢
    cases isMatched with
    | false =>
      refine ⟨rfl, plug crumbs below, ⟨represents.honest, represents.canonical, standsAt.shared⟩,
        (lookup_update_none ?_).symm⟩
      rw [RadixTrie.lookup_plug]
      exact (not_forks_of_searchEnd ends).1
    | true =>
      obtain ⟨parents', delOps', detached, isMatch⟩ :=
        resetPointers_spec standsAt.parents.matches delOps
      rw [if_pos rfl, detached]
      refine (remove_spec represents.honest standsLast ends isMatch represents.canonical
        delOps').bind ?_
      rintro ⟨stack, delOps''⟩ leaves
      obtain ⟨tree', done, becomes⟩ := Leaves.relink leaves
        (show HonestStore H (⟨db, some root, delOps⟩ : MerklePatriciaTree H).db from
          represents.honest) delOps''
      dsimp only
      rw [done]
      exact becomes

/-- Attaching the new last node of a search. -/
theorem relink_changed {before after : Trie} {crumbs : List Crumb} {rest : List Nibble}
    {found : Option Value} (changed : Changed before after rest found) (nonempty : before ≠ .empty)
    (canonical : (plug crumbs before).Canonical) {node : TrieNode (ChildRef H)}
    (stands : node.Stands after) {parents : List (Frame H)}
    (isMatch : List.Forall₂ Frame.Matches parents crumbs) (honest : HonestStore H tree.db)
    (delOps : List H) :
    ∃ tree', tree.relink (some ⟨⟨node, .working⟩, parents⟩) delOps = .ok tree' ∧
      Becomes tree.db
        (Function.update (plug crumbs before).lookup (pathTo crumbs ++ rest) found) tree' := by
  obtain ⟨canonicalAfter, lookupAfter⟩ := changed.plug nonempty canonical
  have rebuilds : Stack.Rebuilds (⟨⟨node, .working⟩, parents⟩ : Stack H)
      (Function.update (plug crumbs before).lookup (pathTo crumbs ++ rest) found) crumbs after :=
    ⟨isMatch, TrieNodeExt.stands_iff.mpr ⟨stands, Cells.fits_working _⟩, fun no => (by cases no),
      canonicalAfter, lookupAfter⟩
  exact Rebuilds.relink rebuilds honest delOps

/-- The last node of a search takes the value, or makes room for it. -/
theorem putLast_spec [CollisionFree H] (honest : HonestStore H tree.db) (N : Nat)
    {result : SearchResult H} {key : List Nibble} {crumbs : List Crumb} {below : Trie}
    {rest : List Nibble} (finds : result.Finds trie key crumbs below rest)
    (canonical : trie.Canonical) (value : Value) :
    UnlessMissing tree.db (Becomes tree.db (Function.update trie.lookup key (some value)))
      (tree.putLast N result value.val) := by
  obtain ⟨⟨last, parents⟩, isMatched, remainder⟩ := result
  obtain ⟨rfl, rfl, standsAt, canonicalBelow, ends, sameRest⟩ := finds
  have standsLast := (TrieNodeExt.stands_iff.mp standsAt.last).1
  obtain ⟨parents', delOps', detached, isMatch⟩ :=
    resetPointers_spec standsAt.parents.matches tree.delOps
  dsimp only at standsLast ends sameRest ⊢
  rw [MerklePatriciaTree.putLast]
  dsimp only
  rw [detached]
  show UnlessMissing tree.db _
    (if isMatched = true then
      expect ((last.makeMut delOps').1.node.setValue value.val) >>= fun trieNode =>
        tree.relink (some ⟨⟨trieNode, (last.makeMut delOps').1.cells⟩, parents'⟩)
          (last.makeMut delOps').2
    else
      insert N tree.db (last.makeMut delOps').1.node remainder value.val parents'.length
        (last.makeMut delOps').2 >>= fun inserted =>
          tree.relink (some ⟨⟨inserted.1, (last.makeMut delOps').1.cells⟩, parents'⟩) inserted.2)
  rw [makeMut_fst]
  cases isMatched with
  | true =>
    obtain ⟨node, after, done, standsAfter, changed⟩ :=
      setValue_spec standsLast canonicalBelow ends value
    obtain ⟨tree', linked, becomes⟩ := relink_changed changed standsLast.ne_empty canonical
      standsAfter isMatch honest (last.makeMut delOps').2
    rw [if_pos rfl]
    dsimp only
    rw [done]
    show UnlessMissing tree.db _ (tree.relink (some ⟨⟨node, .working⟩, parents'⟩) _)
    rw [linked]
    exact becomes
  | false =>
    rw [if_neg (by decide), sameRest rfl]
    refine (insert_spec honest N standsLast canonicalBelow ends value parents'.length _).bind ?_
    rintro ⟨node, delOps''⟩ ⟨after, standsAfter, changed⟩
    obtain ⟨tree', linked, becomes⟩ := relink_changed changed standsLast.ne_empty canonical
      standsAfter isMatch honest delOps''
    dsimp only
    rw [linked]
    exact becomes

/-- Where a search found the key, the node has the value the trie has. -/
theorem value_of_searchEnd {below : Trie} {rest : List Nibble} (ends : SearchEnd below rest true)
    {node : TrieNode (ChildRef H)} (stands : node.Stands below) :
    node.value = some (valueBytes (below.lookup rest)) := by
  cases ends with
  | leaf key stored =>
    cases node with
    | leaf key' value =>
      obtain ⟨stored', rfl, same⟩ := stands
      cases same
      rw [RadixTrie.lookup_leaf_self]
      rfl
    | branch children value => obtain ⟨tries, stored', -, same, -⟩ := stands; cases same
    | extension key' child => obtain ⟨inner, same, -⟩ := stands; cases same
  | branch tries stored =>
    cases node with
    | leaf key' value => obtain ⟨stored', -, same⟩ := stands; cases same
    | extension key' child => obtain ⟨inner, same, -⟩ := stands; cases same
    | branch children value =>
      obtain ⟨tries', stored', rfl, same, -⟩ := stands
      cases same
      rfl

/-- What the last write of a key leaves for it: nothing, if the value is empty. -/
def written (val : Bytes) : Option Value := if nonempty : val ≠ [] then some ⟨val, nonempty⟩ else none

/-- A write changes one key. -/
theorem Represents.put [CollisionFree H] (represents : tree.Represents trie) (N : Nat)
    {key : Bytes} (nonempty : key ≠ []) (val : Bytes) :
    UnlessMissing tree.db
      (Becomes tree.db (Function.update trie.lookup (bytesToNibbleList key) (written val)))
      (tree.put N key val) := by
  rw [MerklePatriciaTree.put, if_neg nonempty]
  by_cases deletes : val = []
  · rw [if_pos deletes, written, dif_neg (fun no => no deletes)]
    exact represents.del N key
  · rw [if_neg deletes, written, dif_pos deletes]
    obtain ⟨db, root, delOps⟩ := tree
    cases root with
    | none =>
      obtain rfl : trie = .empty := represents.root
      refine ⟨rfl, .leaf (bytesToNibbleList key) ⟨val, deletes⟩, ⟨represents.honest, trivial, ?_⟩, ?_⟩
      · exact TrieNodeExt.stands_iff.mpr ⟨⟨_, rfl, rfl⟩, Cells.fits_working _⟩
      · funext wanted
        by_cases same : wanted = bytesToNibbleList key
        · subst same
          rw [Function.update_self, RadixTrie.lookup_leaf_self]
        · rw [Function.update_of_ne same, RadixTrie.lookup_leaf, if_neg (Ne.symm same)]
          rfl
    | some root =>
      refine (search_spec represents.honest N represents.root represents.canonical key).bind ?_
      rintro result ⟨crumbs, below, rest, finds⟩
      have changes := putLast_spec represents.honest N finds represents.canonical ⟨val, deletes⟩
      obtain ⟨rfl, split, standsAt, canonical, ends, -⟩ := finds
      dsimp only at changes ⊢
      cases matched : result.isMatched with
      | false => rwa [if_neg (by decide)]
      | true =>
        rw [matched] at ends
        have sameValue := value_of_searchEnd ends (TrieNodeExt.stands_iff.mp standsAt.last).1
        rw [if_pos rfl, sameValue]
        show UnlessMissing db _ (if valueBytes (below.lookup rest) = val then
          pure ⟨db, some (shared result.stack.last result.stack.parents), delOps⟩
        else putLast N ⟨db, some root, delOps⟩ result val)
        split_ifs with unchanged
        · have present : below.lookup rest = some ⟨val, deletes⟩ :=
            valueBytes_injective unchanged
          refine ⟨rfl, plug crumbs below,
            ⟨represents.honest, represents.canonical, standsAt.shared⟩, ?_⟩
          rw [split, ← present, ← RadixTrie.lookup_plug crumbs below rest,
            Function.update_eq_self]
        · exact changes

/-! ### Committing -/

/-- The digest of a trie, if there is one. -/
def rootDigest (trie : Trie) : Option H :=
  match trie with
  | .empty => none
  | _ => some (digest trie)

theorem rootDigest_of_ne {trie : Trie} (nonempty : trie ≠ .empty) :
    (rootDigest trie : Option H) = some (digest trie) := by
  cases trie with
  | empty => exact absurd rfl nonempty
  | leaf key value => rfl
  | branch children value => rfl
  | extension key child => rfl

/-- Nothing changes when the cells of the root are filled. -/
theorem Represents.rootHash (represents : tree.Represents trie) :
    tree.rootHash.2.Represents trie ∧ tree.rootHash.1 = rootDigest trie := by
  obtain ⟨db, root, delOps⟩ := tree
  cases root with
  | none =>
    obtain rfl : trie = .empty := represents.root
    exact ⟨represents, rfl⟩
  | some root =>
    have standsRoot : root.Stands trie := represents.root
    refine ⟨⟨represents.honest, represents.canonical, standsRoot.fillHash.1⟩, ?_⟩
    rw [rootDigest_of_ne (TrieNodeExt.stands_iff.mp standsRoot).1.ne_empty,
      MerklePatriciaTree.rootHash, ← standsRoot.hash_eq]
    rfl

/-- A commit returns the digest of the trie and changes nothing. -/
theorem Represents.commit (represents : tree.Represents trie) {N : Nat} (positive : N ≠ 0) :
    ∃ tree', tree.commit N = .ok ((rootDigest trie).getD EMPTY_ROOT, tree') ∧
      tree'.Represents trie := by
  obtain ⟨db, root, delOps⟩ := tree
  have deletes : ∀ op ∈ delOps.map delOp, HonestOp H op := by
    intro op member
    obtain ⟨found, -, rfl⟩ := List.mem_map.mp member
    exact honestOp_delOp found
  cases root with
  | none =>
    obtain rfl : trie = .empty := represents.root
    refine ⟨_, rfl, represents.honest.writeBuffered fun op member => ?_, trivial, rfl⟩
    rcases List.mem_cons.mp member with rfl | member
    · trivial
    · exact deletes op member
  | some root =>
    have standsRoot : root.Stands trie := represents.root
    obtain ⟨standsDrained, -, honestExiled⟩ := standsRoot.drainExiled
    obtain ⟨standsDone, honestPut, asserted⟩ := standsDrained.commit positive false
    have standsTruncated := standsDone.truncateLoaded
    rw [rootDigest_of_ne (TrieNodeExt.stands_iff.mp standsRoot).1.ne_empty, Option.getD_some,
      ← standsTruncated.hash_eq]
    refine ⟨_, if_pos asserted, represents.honest.writeBuffered fun op member => ?_,
      represents.canonical, standsTruncated.fillHash.1⟩
    simp only [List.mem_append, List.mem_singleton] at member
    rcases member with (member | member) | rfl
    · exact deletes op member
    · obtain ⟨entry, inside, rfl⟩ := List.mem_map.mp member
      refine honestOp_putOp ?_
      rcases List.mem_append.mp inside with exiled | put
      · exact honestExiled entry exiled
      · exact honestPut entry put
    · exact honestOp_rootKey _

theorem Represents.flushAll (represents : tree.Represents trie) {N : Nat} (positive : N ≠ 0) :
    ∃ tree', tree.flushAll N = .ok tree' ∧ tree'.Represents trie := by
  obtain ⟨db, root, delOps⟩ := tree
  cases root with
  | none => exact ⟨_, rfl, represents⟩
  | some root =>
    have standsRoot : root.Stands trie := represents.root
    obtain ⟨standsDone, honestPut, asserted⟩ := standsRoot.commit positive true
    refine ⟨_, if_pos asserted, represents.honest.writeBuffered fun op member => ?_,
      represents.canonical, standsDone⟩
    obtain ⟨entry, inside, rfl⟩ := List.mem_map.mp member
    exact honestOp_putOp (honestPut entry inside)

end MerklePatriciaTree

end AuthStorage.RainblockTrie
