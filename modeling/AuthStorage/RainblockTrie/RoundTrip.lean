/-
This file states the round trip of the node codec for nodes as they are in memory,
canonical or not. Decoding the encoding of a node gives it back with every large child
replaced by its digest; a small child is in the encoding as a whole, and comes back
with everything below it and with its encoding in its cell.
-/

import AuthStorage.RainblockTrie.Stands

namespace AuthStorage.RainblockTrie

open AuthStorage.Lvmt (Bytes)

variable {H : Type} [RlpHasher H]

/-! ### Cells without stale values -/

/-- What is cached was computed from the node. -/
structure Cells.Fresh (cells : Cells H) (encoding : Bytes) : Prop where
  rlpEncode : ∀ found, cells.rlpEncode = some found → found = encoding
  hash : ∀ found, cells.hash = some found → found = RlpHasher.hash encoding

theorem Cells.fresh_working (encoding : Bytes) : (Cells.working : Cells H).Fresh encoding :=
  ⟨fun _ found => (by cases found), fun _ found => (by cases found)⟩

theorem Cells.Fits.fresh {cells : Cells H} {encoding : Bytes} (fits : cells.Fits encoding) :
    cells.Fresh encoding := by
  refine ⟨fun found cached => ?_, fits.hash⟩
  have same := fits.rlpEncode_getD
  rwa [cached, Option.getD_some] at same

mutual

/-- No cell of the node or below it is stale. -/
def TrieNodeExt.Coherent : NodePtr H → Prop
  | ⟨node, cells⟩ => TrieNode.Coherent node ∧ cells.Fresh node.rlpBytes

/-- The cells of every node below fit the nodes. -/
def TrieNode.Coherent : TrieNode (ChildRef H) → Prop
  | .leaf _ _ => True
  | .branch children _ => ∀ index, ChildRef.Coherent (children index)
  | .extension _ child => ChildRef.Coherent child

/-- The cells from the child on fit the nodes. -/
def ChildRef.Coherent : ChildRef H → Prop
  | .null => True
  | .ref _ => True
  | .owned me => TrieNodeExt.Coherent me

end

theorem TrieNode.coherent_iff {node : TrieNode (ChildRef H)} :
    node.Coherent ↔ node.AllChildren ChildRef.Coherent := by
  cases node <;> exact Iff.rfl

theorem ChildRef.coherent_owned {me : NodePtr H} :
    (ChildRef.owned me).Coherent ↔ me.node.Coherent ∧ me.cells.Fresh me.node.rlpBytes := by
  obtain ⟨node, cells⟩ := me
  rw [ChildRef.Coherent, TrieNodeExt.Coherent]

/-- The nodes of a trie are coherent. -/
theorem ChildRef.Stands.coherent {child : ChildRef H} {trie : Trie} (stands : child.Stands trie) :
    child.Coherent := by
  induction child using ChildRef.induction generalizing trie with
  | null => trivial
  | ref found => trivial
  | owned me inductionHypothesis =>
    have standsMe := (ChildRef.stands_owned.mp stands).1
    obtain ⟨standsNode, fits⟩ := TrieNodeExt.stands_iff.mp standsMe
    refine ChildRef.coherent_owned.mpr ⟨TrieNode.coherent_iff.mpr ?_, ?_⟩
    · have below := standsNode.children
      cases node : me.node with
      | leaf key value => trivial
      | branch children value =>
        rw [node] at below inductionHypothesis
        exact fun index => (below index).elim fun _ standsBelow =>
          inductionHypothesis index standsBelow
      | extension key child =>
        rw [node] at below inductionHypothesis
        exact below.elim fun _ standsBelow => inductionHypothesis standsBelow
    · rw [standsNode.rlpBytes_eq]
      exact fits.fresh

theorem TrieNode.Stands.coherent {node : TrieNode (ChildRef H)} {trie : Trie}
    (stands : node.Stands trie) : node.Coherent :=
  TrieNode.coherent_iff.mpr
    (stands.children.imp fun _ known => known.elim fun _ standsBelow => standsBelow.coherent)

theorem Cells.Fresh.getRlpEncode_eq {me : NodePtr H} (fresh : me.cells.Fresh me.node.rlpBytes) :
    me.getRlpEncode = me.node.rlpBytes := by
  rw [TrieNodeExt.getRlpEncode_eq]
  cases cached : me.cells.rlpEncode with
  | none => rfl
  | some found => exact fresh.rlpEncode found cached

theorem Cells.Fresh.hash_eq {me : NodePtr H} (fresh : me.cells.Fresh me.node.rlpBytes) :
    me.hash = RlpHasher.hash me.node.rlpBytes := by
  rw [TrieNodeExt.hash, fresh.getRlpEncode_eq]
  cases cached : me.cells.hash with
  | none => rfl
  | some found => exact fresh.hash found cached

/-- A coherent child in the encoding of its parent. -/
theorem ChildRef.Coherent.rlpAppend_owned {me : NodePtr H}
    (coherent : (ChildRef.owned me).Coherent) :
    (ChildRef.owned me).rlpAppend = embed H me.node.rlpBytes := by
  have fresh := (ChildRef.coherent_owned.mp coherent).2
  rw [ChildRef.rlpAppend_owned, fresh.getRlpEncode_eq, fresh.hash_eq, embed]

/-! ### What decoding gives back -/

mutual

/-- The same subtree, with the cells of nodes that were embedded. -/
def TrieNodeExt.light : NodePtr H → NodePtr H
  | ⟨node, _⟩ => ⟨TrieNode.lightChildren node, .light node.rlpBytes⟩

/-- The children with the cells of embedded nodes. -/
def TrieNode.lightChildren : TrieNode (ChildRef H) → TrieNode (ChildRef H)
  | .leaf key value => .leaf key value
  | .branch children value => .branch (fun index => ChildRef.light (children index)) value
  | .extension key child => .extension key (ChildRef.light child)

/-- The child with the cells of embedded nodes. -/
def ChildRef.light : ChildRef H → ChildRef H
  | .null => .null
  | .ref digest => .ref digest
  | .owned me => .owned (TrieNodeExt.light me)

end

/-- A child after its parent was decoded. -/
def ChildRef.received : ChildRef H → ChildRef H
  | .null => .null
  | .ref digest => .ref digest
  | .owned me =>
    if me.node.rlpBytes.length < 32 then .owned me.light
    else .ref (RlpHasher.hash me.node.rlpBytes)

/-- The node after it was decoded. -/
def TrieNode.received (node : TrieNode (ChildRef H)) : TrieNode (ChildRef H) :=
  node.mapChildren ChildRef.received

theorem TrieNode.lightChildren_eq (node : TrieNode (ChildRef H)) :
    node.lightChildren = node.mapChildren ChildRef.light := by
  cases node <;> rfl

theorem TrieNodeExt.light_eq (me : NodePtr H) :
    me.light = ⟨me.node.mapChildren ChildRef.light, .light me.node.rlpBytes⟩ := by
  obtain ⟨node, cells⟩ := me
  rw [TrieNodeExt.light, TrieNode.lightChildren_eq]

theorem TrieNode.mapChildren_congr {C C' : Type} {first second : C → C'} {node : TrieNode C}
    (same : node.AllChildren fun child => first child = second child) :
    node.mapChildren first = node.mapChildren second := by
  cases node with
  | leaf key value => rfl
  | branch children value => exact congrArg (TrieNode.branch · value) (funext same)
  | extension key child => exact congrArg (TrieNode.extension key) same

/-- A child that takes fewer than 32 bytes in its parent is not replaced by its digest. -/
theorem ChildRef.Coherent.received_eq_light {child : ChildRef H} (coherent : child.Coherent)
    (short : child.rlpAppend.length < 32) : child.received = child.light := by
  cases child with
  | null => rfl
  | ref digest => rfl
  | owned me =>
    have small : me.node.rlpBytes.length < 32 := by
      by_contra large
      rw [coherent.rlpAppend_owned] at short
      exact absurd (length_embed_of_large (H := H) large) (by omega)
    rw [ChildRef.received, if_pos small, ChildRef.light.eq_def]

/-! ### The items of an encoding -/

theorem TrieNode.rlpBytes_eq_list (node : TrieNode (ChildRef H)) :
    ∃ items, node.rlpBytes = Rlp.list items ∧ items.flatten ≠ [] ∧
      node.AllChildren fun child => child.rlpAppend ∈ items := by
  have starts : ∀ (bytes : Bytes) (items : List Bytes),
      (Rlp.string bytes :: items).flatten ≠ [] := fun bytes items empty =>
    (Rlp.isItem_string bytes).1 (List.append_eq_nil_iff.mp empty).1
  cases node with
  | leaf key value => exact ⟨_, rfl, starts _ _, trivial⟩
  | extension key child =>
    exact ⟨_, rfl, starts _ _, List.mem_cons_of_mem _ List.mem_cons_self⟩
  | branch children value =>
    refine ⟨_, rfl, ?_, fun index => List.mem_append_left _ (List.mem_map.mpr
      ⟨index, List.mem_finRange index, rfl⟩)⟩
    rw [List.flatten_append]
    exact fun empty => starts _ [] (List.append_eq_nil_iff.mp empty).2

/-- A child takes less room than the node it is in. -/
theorem TrieNode.length_rlpAppend_lt (node : TrieNode (ChildRef H)) :
    node.AllChildren fun child => child.rlpAppend.length < node.rlpBytes.length := by
  obtain ⟨items, same, -, members⟩ := node.rlpBytes_eq_list
  rw [same]
  exact members.imp fun _ member => Rlp.length_lt_length_list member

theorem TrieNode.length_rlpBytes_pos (node : TrieNode (ChildRef H)) :
    0 < node.rlpBytes.length := by
  obtain ⟨items, same, -⟩ := node.rlpBytes_eq_list
  rw [same]
  exact List.length_pos_of_ne_nil (Rlp.isItem_list items).1

theorem ChildRef.Coherent.isItem_rlpAppend {child : ChildRef H} (coherent : child.Coherent) :
    Rlp.IsItem child.rlpAppend := by
  cases child with
  | null => exact Rlp.isItem_string []
  | ref digest => exact Rlp.isItem_string _
  | owned me =>
    obtain ⟨items, same, -⟩ := me.node.rlpBytes_eq_list
    rw [coherent.rlpAppend_owned, embed]
    split
    · rw [same]
      exact Rlp.isItem_list items
    · exact Rlp.isItem_string _

/-! ### The round trip -/

/-- A node is decoded if its children are. -/
theorem TrieNode.Coherent.decode_of_children {node : TrieNode (ChildRef H)}
    (coherent : node.Coherent) {depth : Nat}
    (each : node.AllChildren fun child =>
      ChildRef.decodeWith (TrieNode.decode depth) child.rlpAppend = some child.received) :
    TrieNode.decode (depth + 1) node.rlpBytes = some node.received := by
  have whole := (TrieNode.coherent_iff.mp coherent).imp fun _ known => known.isItem_rlpAppend
  cases node with
  | leaf key value => exact TrieNode.decode_leaf depth key value
  | branch children value => exact TrieNode.decode_branch whole each value
  | extension key child => exact TrieNode.decode_extension key whole each

/-- The children of an embedded node are embedded in it, so nothing below it is lost. -/
theorem TrieNode.Coherent.received_eq_light {node : TrieNode (ChildRef H)}
    (coherent : node.Coherent) (short : node.rlpBytes.length < 32) :
    node.received = node.mapChildren ChildRef.light := by
  refine TrieNode.mapChildren_congr ?_
  have inside := node.length_rlpAppend_lt
  have known := TrieNode.coherent_iff.mp coherent
  cases node with
  | leaf key value => trivial
  | branch children value =>
    exact fun index => (known index).received_eq_light (lt_trans (inside index) short)
  | extension key child => exact known.received_eq_light (lt_trans inside short)

/-- A child in memory, of which only the short encoding has to be decoded. -/
theorem ChildRef.Coherent.decodeWith_owned {me : NodePtr H}
    (coherent : (ChildRef.owned me).Coherent) {decode : Bytes → Option (TrieNode (ChildRef H))}
    (decoded : me.node.rlpBytes.length < 32 →
      decode me.node.rlpBytes = some me.node.received) :
    ChildRef.decodeWith decode (ChildRef.owned me).rlpAppend =
      some (ChildRef.owned me).received := by
  rw [coherent.rlpAppend_owned, ChildRef.received, embed]
  by_cases short : me.node.rlpBytes.length < 32
  · obtain ⟨items, same, someItem, -⟩ := me.node.rlpBytes_eq_list
    have found := decoded short
    rw [(ChildRef.coherent_owned.mp coherent).1.received_eq_light short] at found
    rw [if_pos short, if_pos short, TrieNodeExt.light_eq]
    rw [same] at short found ⊢
    exact ChildRef.decodeWith_embedded someItem short found
  · rw [if_neg short, if_neg short]
    exact ChildRef.decodeWith_digest _ _

/-- Every child is decoded from its place in the parent. The induction is on what is in memory:
an embedded child is decoded with one level less, and takes at least one byte less. -/
theorem ChildRef.Coherent.decodeWith_rlpAppend {child : ChildRef H} (coherent : child.Coherent)
    {depth : Nat} (enough : child.rlpAppend.length ≤ depth) :
    ChildRef.decodeWith (TrieNode.decode depth) child.rlpAppend = some child.received := by
  induction child using ChildRef.induction generalizing depth with
  | null => rfl
  | ref digest => exact ChildRef.decodeWith_digest _ digest
  | owned me inductionHypothesis =>
    refine coherent.decodeWith_owned fun short => ?_
    have known := (ChildRef.coherent_owned.mp coherent).1
    rw [coherent.rlpAppend_owned, embed, if_pos short] at enough
    have positive := me.node.length_rlpBytes_pos
    obtain ⟨less, rfl⟩ : ∃ less, depth = less + 1 := ⟨depth - 1, by omega⟩
    refine known.decode_of_children ?_
    have inside := me.node.length_rlpAppend_lt
    have children := TrieNode.coherent_iff.mp known
    cases node : me.node with
    | leaf key value => trivial
    | branch children' value =>
      rw [node] at inductionHypothesis inside children enough
      exact fun index => inductionHypothesis index (children index)
        (Nat.le_of_lt_succ (lt_of_lt_of_le (inside index) enough))
    | extension key child =>
      rw [node] at inductionHypothesis inside children enough
      exact inductionHypothesis children (Nat.le_of_lt_succ (lt_of_lt_of_le inside enough))

theorem TrieNode.Coherent.decode_rlpBytes {node : TrieNode (ChildRef H)}
    (coherent : node.Coherent) {depth : Nat} (enough : node.rlpBytes.length ≤ depth) :
    TrieNode.decode depth node.rlpBytes = some node.received := by
  have positive := node.length_rlpBytes_pos
  obtain ⟨less, rfl⟩ : ∃ less, depth = less + 1 := ⟨depth - 1, by omega⟩
  refine coherent.decode_of_children ?_
  have inside := node.length_rlpAppend_lt
  have known := TrieNode.coherent_iff.mp coherent
  cases node with
  | leaf key value => trivial
  | branch children value =>
    exact fun index => (known index).decodeWith_rlpAppend
      (Nat.le_of_lt_succ (lt_of_lt_of_le (inside index) enough))
  | extension key child =>
    exact known.decodeWith_rlpAppend (Nat.le_of_lt_succ (lt_of_lt_of_le inside enough))

/-- The codec loses nothing but what is behind a digest: every node whose cells are not stale is
read back from its encoding, and every key from its packed form. -/
theorem TrieNode.new_rlpBytes {node : TrieNode (ChildRef H)} (coherent : node.Coherent) :
    TrieNode.new node.rlpBytes = some node.received ∧
      ∀ (key : List Nibble) (leaf : Bool), fromMptKey (toMptKey key leaf) = some (key, leaf) :=
  ⟨coherent.decode_rlpBytes le_rfl, fromMptKey_toMptKey⟩

/-! ### A node with children of every kind -/

/-- A leaf of more than 32 bytes that was committed. -/
def committedLeaf : NodePtr Preimage :=
  let node : TrieNode (ChildRef Preimage) := .leaf [5] (List.replicate 40 1)
  ⟨node, ⟨some (RlpHasher.hash node.rlpBytes), some node.rlpBytes, .committed, false, false⟩⟩

/-- An extension and a leaf in the nodes above them, a committed leaf, a digest and empty
places. -/
def mixedBranch : TrieNode (ChildRef Preimage) :=
  .branch (fun index => match index.val with
    | 0 => .owned ⟨.extension [1, 2, 3] (.owned ⟨.leaf [4] [7], .working⟩), .working⟩
    | 1 => .owned committedLeaf
    | 2 => .ref ⟨[9]⟩
    | _ => .null) [8]

theorem mixedBranch_coherent : mixedBranch.Coherent := by
  intro index
  dsimp only
  split
  · exact ⟨⟨trivial, Cells.fresh_working _⟩, Cells.fresh_working _⟩
  · exact ⟨trivial, fun _ found => (Option.some.inj found).symm,
      fun _ found => (Option.some.inj found).symm⟩
  · trivial
  · trivial

theorem TrieNode.new_rlpBytes_mixedBranch :
    TrieNode.new mixedBranch.rlpBytes = some mixedBranch.received ∧
      ∀ (key : List Nibble) (leaf : Bool), fromMptKey (toMptKey key leaf) = some (key, leaf) :=
  TrieNode.new_rlpBytes mixedBranch_coherent

end AuthStorage.RainblockTrie
