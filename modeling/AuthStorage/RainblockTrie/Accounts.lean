/-
This file says which digests the nodes in memory account for: a committed node for
its own digest, and a digest that stands for a subtrie for all that are stored with
it. What is stored with a trie is what its nodes of at least 32 bytes refer to by
digest.
-/

import AuthStorage.RainblockTrie.Everywhere

namespace AuthStorage.RainblockTrie

open AuthStorage.Lvmt (Bytes DBColumn)

/-! ### Children -/

namespace TrieNode

variable {C : Type}

/-- Some child has the property. -/
def AnyChild (property : C → Prop) : TrieNode C → Prop
  | leaf _ _ => False
  | branch children _ => ∃ index, property (children index)
  | extension _ child => property child

variable {property : C → Prop} {node : TrieNode C}

theorem AllChildren.any {changed : C → Prop}
    (all : node.AllChildren fun child => property child → changed child)
    (any : node.AnyChild property) : node.AnyChild changed := by
  cases node with
  | leaf key value => exact any
  | branch children value =>
    obtain ⟨index, holds⟩ := any
    exact ⟨index, all index holds⟩
  | extension key child => exact all any

theorem AllChildren.anyMap {C' : Type} {change : C → C'} {changed : C' → Prop}
    (all : node.AllChildren fun child => property child → changed (change child))
    (any : node.AnyChild property) : (node.mapChildren change).AnyChild changed := by
  cases node with
  | leaf key value => exact any
  | branch children value =>
    obtain ⟨index, holds⟩ := any
    exact ⟨index, all index holds⟩
  | extension key child => exact all any

/-- What holds whenever some child has a property follows from the property of each child. -/
theorem forall_of_any {W : Type} {property : W → C → Prop} {good : W → Prop}
    (any : ∀ wanted, node.AnyChild (property wanted) → good wanted) :
    node.AllChildren fun child => ∀ wanted, property wanted child → good wanted := by
  cases node with
  | leaf key value => trivial
  | branch children value => exact fun index wanted holds => any wanted ⟨index, holds⟩
  | extension key child => exact any

theorem AnyChild.not_all (any : node.AnyChild fun child => ¬ property child) :
    ¬ node.AllChildren property := by
  cases node with
  | leaf key value => exact any.elim
  | branch children value => exact fun all => any.elim fun index fails => fails (all index)
  | extension key child => exact any

end TrieNode

variable {H : Type} [RlpHasher H]

/-! ### Digests in the store -/

/-- The digest is that of a node of the trie that is referenced by digest. -/
def StoredIn (trie : Trie) (wanted : H) : Prop :=
  ∃ sub : Trie, RadixTrie.Within sub trie ∧ 32 ≤ (encode H sub).length ∧ wanted = digest sub

/-- What is embedded in a short encoding is short. -/
theorem short_of_embed {encoding whole : Bytes}
    (inside : (embed H encoding).length < whole.length) (short : whole.length < 32) :
    encoding.length < 32 := by
  by_contra large
  have long := length_embed_of_large (H := H) large
  omega

theorem short_of_within {sub trie : Trie} (within : RadixTrie.Within sub trie)
    (short : (encode H trie).length < 32) : (encode H sub).length < 32 := by
  induction within with
  | refl => exact short
  | branch digit value below inductionHypothesis =>
    exact inductionHypothesis (short_of_embed (length_embed_lt_branch _ value digit) short)
  | extension key below inductionHypothesis =>
    exact inductionHypothesis (short_of_embed (length_embed_lt_extension key _) short)

theorem StoredIn.large {trie : Trie} {wanted : H} (stored : StoredIn trie wanted) :
    32 ≤ (encode H trie).length := by
  obtain ⟨sub, within, large, -⟩ := stored
  by_contra short
  exact absurd (short_of_within within (Nat.lt_of_not_le short)) (Nat.not_lt.mpr large)

theorem StoredIn.ne_empty {trie : Trie} {wanted : H} (stored : StoredIn trie wanted) :
    trie ≠ .empty := by
  rintro rfl
  have large := stored.large
  rw [encode] at large
  exact absurd large (by decide)

theorem storedIn_self {trie : Trie} (large : 32 ≤ (encode H trie).length) :
    StoredIn trie (digest trie : H) := ⟨trie, .refl trie, large, rfl⟩

theorem StoredIn.branch {children : Nibble → Trie} {index : Nibble} {wanted : H}
    (stored : StoredIn (children index) wanted) (value : Option Value) :
    StoredIn (.branch children value) wanted := by
  obtain ⟨sub, within, large, same⟩ := stored
  exact ⟨sub, .branch index value within, large, same⟩

theorem StoredIn.extension {child : Trie} {wanted : H} (stored : StoredIn child wanted)
    (key : List Nibble) : StoredIn (.extension key child) wanted := by
  obtain ⟨sub, within, large, same⟩ := stored
  exact ⟨sub, .extension key within, large, same⟩

/-! ### What the nodes account for -/

/-- The digest stands for a subtrie that is stored with the wanted node. -/
def Reaches (found wanted : H) : Prop := ∃ trie : Trie, found = digest trie ∧ StoredIn trie wanted

/-- The node is committed and its digest is the wanted one. -/
def Cells.Keeps (wanted : H) (cells : Cells H) : Prop :=
  cells.commited = .committed ∧ cells.hash = some wanted

mutual

/-- Somewhere from here down, a committed node has the digest, or a digest reaches it. -/
def TrieNodeExt.Accounts (wanted : H) : NodePtr H → Prop
  | ⟨node, cells⟩ => cells.Keeps wanted ∨ TrieNode.AccountsBelow wanted node

/-- Some child accounts for the digest. -/
def TrieNode.AccountsBelow (wanted : H) : TrieNode (ChildRef H) → Prop
  | .leaf _ _ => False
  | .branch children _ => ∃ index, ChildRef.Accounts wanted (children index)
  | .extension _ child => ChildRef.Accounts wanted child

/-- A digest accounts for what it reaches, a node in memory for itself and what is below it. -/
def ChildRef.Accounts (wanted : H) : ChildRef H → Prop
  | .null => False
  | .ref found => Reaches found wanted
  | .owned me => TrieNodeExt.Accounts wanted me

end

variable {wanted : H}

theorem TrieNodeExt.accounts_iff {me : NodePtr H} :
    me.Accounts wanted ↔
      me.cells.Keeps wanted ∨ me.node.AnyChild (ChildRef.Accounts wanted) := by
  obtain ⟨node, cells⟩ := me
  rw [TrieNodeExt.Accounts.eq_def]
  cases node <;> exact Iff.rfl

theorem ChildRef.accounts_owned {me : NodePtr H} :
    (ChildRef.owned me).Accounts wanted ↔ me.Accounts wanted := by
  rw [ChildRef.Accounts.eq_def]

omit [RlpHasher H] in
theorem Cells.not_keeps_working : ¬ (Cells.working : Cells H).Keeps wanted :=
  fun keeps => by cases keeps.1

/-- The marks and the encoding do not matter. -/
theorem TrieNodeExt.Accounts.setCells {me : NodePtr H} (accounts : me.Accounts wanted)
    {cells : Cells H} (status : cells.commited = me.cells.commited)
    (hash : cells.hash = me.cells.hash) : (⟨me.node, cells⟩ : NodePtr H).Accounts wanted := by
  refine TrieNodeExt.accounts_iff.mpr ((TrieNodeExt.accounts_iff.mp accounts).imp_left ?_)
  rintro ⟨committed, hashed⟩
  exact ⟨status.trans committed, hash.trans hashed⟩

/-- The digest is to be deleted, or accounted for. -/
def MerklePatriciaTree.Accounts (wanted : H) (tree : MerklePatriciaTree H) : Prop :=
  wanted ∈ tree.delOps ∨ ∃ root, tree.root = some root ∧ root.Accounts wanted

end AuthStorage.RainblockTrie
