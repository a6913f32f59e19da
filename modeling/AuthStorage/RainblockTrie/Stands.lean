/-
This file states what the nodes in memory stand for: a trie, of which any part may
be known by its digest only, and whose cached encodings and digests are right. The
encoding of a node is the encoding of its trie; filling the cells, dropping nodes
for their digests and committing do not change the trie.
-/

import AuthStorage.RainblockTrie.Codec
import AuthStorage.RainblockTrie.MerklePatriciaTree

namespace AuthStorage.RainblockTrie

open AuthStorage.Lvmt (Bytes DBColumn DBOp)

variable {H : Type} [RlpHasher H]

/-! ### Cells -/

/-- What the status of a node says about its cells. -/
def Cells.StatusFits (cells : Cells H) (encoding : Bytes) : Commit → Prop
  | .working => cells.rlpEncode = none ∧ cells.hash = none
  | .light => cells.rlpEncode = some encoding ∧ encoding.length < 32
  | .pending => cells.rlpEncode = some encoding ∧ 32 ≤ encoding.length
  | .committed => cells.rlpEncode = some encoding ∧ cells.hash = some (RlpHasher.hash encoding)

/-- No cell is stale: what is cached belongs to the encoding. -/
structure Cells.Fits (cells : Cells H) (encoding : Bytes) : Prop where
  hash : ∀ found, cells.hash = some found → found = RlpHasher.hash encoding
  status : cells.StatusFits encoding cells.commited

theorem Cells.fits_working (encoding : Bytes) : (Cells.working : Cells H).Fits encoding :=
  ⟨fun _ found => (by cases found), rfl, rfl⟩

theorem Cells.fits_light {encoding : Bytes} (short : encoding.length < 32) :
    (Cells.light encoding : Cells H).Fits encoding :=
  ⟨fun _ found => (by cases found), rfl, short⟩

/-- The marks do not matter. -/
theorem Cells.Fits.mark {cells : Cells H} {encoding : Bytes} (fits : cells.Fits encoding)
    (loaded exiled : Bool) : ({ cells with loaded := loaded, exiled := exiled } : Cells H).Fits
      encoding := ⟨fits.hash, by
  obtain ⟨hash, rlpEncode, commited, loaded', exiled'⟩ := cells
  cases commited <;> exact fits.status⟩

theorem Cells.Fits.rlpEncode_getD {cells : Cells H} {encoding : Bytes}
    (fits : cells.Fits encoding) : cells.rlpEncode.getD encoding = encoding := by
  have status := fits.status
  cases state : cells.commited <;> rw [state] at status <;>
    rw [Cells.StatusFits] at status <;> rw [status.1] <;> rfl

/-! ### Nodes -/

mutual

/-- The node stands for the trie. -/
def TrieNodeExt.Stands : NodePtr H → Trie → Prop
  | ⟨node, cells⟩, trie => TrieNode.Stands node trie ∧ cells.Fits (encode H trie)

/-- The node stands for a trie, and each of its children for a part of it. -/
def TrieNode.Stands : TrieNode (ChildRef H) → Trie → Prop
  | .leaf key value, trie => ∃ stored : Value, value = stored.val ∧ trie = .leaf key stored
  | .branch children value, trie => ∃ (tries : Nibble → Trie) (stored : Option Value),
      value = valueBytes stored ∧ trie = .branch tries stored ∧
        ∀ index, ChildRef.Stands (children index) (tries index)
  | .extension key child, trie => ∃ below, trie = .extension key below ∧ ChildRef.Stands child below

/-- A child that is known by its digest, or was committed, is not embedded in its parent. -/
def ChildRef.Stands : ChildRef H → Trie → Prop
  | .null, trie => trie = .empty
  | .ref found, trie => 32 ≤ (encode H trie).length ∧ found = digest trie
  | .owned me, trie => TrieNodeExt.Stands me trie ∧
      (me.cells.commited = .committed → 32 ≤ (encode H trie).length)

end

theorem TrieNodeExt.stands_iff {me : NodePtr H} {trie : Trie} :
    me.Stands trie ↔ me.node.Stands trie ∧ me.cells.Fits (encode H trie) := by
  rw [TrieNodeExt.Stands.eq_def]

theorem ChildRef.stands_owned {me : NodePtr H} {trie : Trie} :
    (ChildRef.owned me).Stands trie ↔
      me.Stands trie ∧ (me.cells.commited = .committed → 32 ≤ (encode H trie).length) := by
  rw [ChildRef.Stands.eq_def]

theorem TrieNode.Stands.ne_empty {node : TrieNode (ChildRef H)} {trie : Trie}
    (stands : node.Stands trie) : trie ≠ .empty := by
  rintro rfl
  cases node with
  | leaf key value =>
    obtain ⟨stored, -, same⟩ := stands
    cases same
  | branch children value =>
    obtain ⟨tries, stored, -, same, -⟩ := stands
    cases same
  | extension key child =>
    obtain ⟨below, same, -⟩ := stands
    cases same

theorem ChildRef.Stands.eq_empty_iff {child : ChildRef H} {trie : Trie}
    (stands : child.Stands trie) : trie = .empty ↔ child.isNull = true := by
  cases child with
  | null => exact ⟨fun _ => rfl, fun _ => stands⟩
  | ref found =>
    refine ⟨?_, fun null => by cases null⟩
    rintro rfl
    have large := stands.1
    rw [encode] at large
    exact absurd large (by decide)
  | owned me =>
    refine ⟨fun empty => ?_, fun null => by cases null⟩
    exact absurd empty (TrieNodeExt.stands_iff.mp (ChildRef.stands_owned.mp stands).1).1.ne_empty

/-- Changing the children without changing what they stand for. -/
theorem TrieNode.Stands.mapChildren {change : ChildRef H → ChildRef H}
    {node : TrieNode (ChildRef H)} {trie : Trie} (stands : node.Stands trie)
    (each : node.AllChildren fun child =>
      ∀ below : Trie, child.Stands below → (change child).Stands below) :
    (node.mapChildren change).Stands trie := by
  cases node with
  | leaf key value => exact stands
  | branch children value =>
    obtain ⟨tries, stored, sameValue, same, below⟩ := stands
    exact ⟨tries, stored, sameValue, same, fun index => each index _ (below index)⟩
  | extension key child =>
    obtain ⟨below, same, standsBelow⟩ := stands
    exact ⟨below, same, each _ standsBelow⟩

/-- Every child stands for something. -/
theorem TrieNode.Stands.children {node : TrieNode (ChildRef H)} {trie : Trie}
    (stands : node.Stands trie) :
    node.AllChildren fun child => ∃ below : Trie, child.Stands below := by
  cases node with
  | leaf key value => trivial
  | branch children value =>
    obtain ⟨tries, stored, -, -, below⟩ := stands
    exact fun index => ⟨tries index, below index⟩
  | extension key child =>
    obtain ⟨below, -, standsBelow⟩ := stands
    exact ⟨below, standsBelow⟩

theorem TrieNodeExt.Stands.children {me : NodePtr H} {trie : Trie} (stands : me.Stands trie) :
    me.node.AllChildren fun child => ∃ below : Trie, child.Stands below :=
  (TrieNodeExt.stands_iff.mp stands).1.children

/-! ### Encodings -/

theorem TrieNode.Stands.rlpBytes_of_children {node : TrieNode (ChildRef H)} {trie : Trie}
    (stands : node.Stands trie)
    (each : node.AllChildren fun child =>
      ∀ below : Trie, child.Stands below → child.rlpAppend = embed H (encode H below)) :
    node.rlpBytes = encode H trie := by
  cases node with
  | leaf key value =>
    obtain ⟨stored, rfl, rfl⟩ := stands
    rw [TrieNode.rlpBytes, encode]
  | branch children value =>
    obtain ⟨tries, stored, rfl, rfl, below⟩ := stands
    have same : (fun index => (children index).rlpAppend) =
        fun index => embed H (encode H (tries index)) :=
      funext fun index => each index _ (below index)
    rw [TrieNode.rlpBytes, encode, same]
  | extension key child =>
    obtain ⟨below, rfl, standsBelow⟩ := stands
    rw [TrieNode.rlpBytes, encode, each _ standsBelow]

theorem TrieNodeExt.getRlpEncode_of_rlpBytes {me : NodePtr H} {trie : Trie}
    (stands : me.Stands trie) (computed : me.node.rlpBytes = encode H trie) :
    me.getRlpEncode = encode H trie := by
  rw [TrieNodeExt.getRlpEncode_eq, computed,
    (TrieNodeExt.stands_iff.mp stands).2.rlpEncode_getD]

theorem TrieNodeExt.hash_of_getRlpEncode {me : NodePtr H} {trie : Trie}
    (stands : me.Stands trie) (computed : me.getRlpEncode = encode H trie) :
    me.hash = digest trie := by
  rw [TrieNodeExt.hash, computed]
  cases cached : me.cells.hash with
  | none => rfl
  | some found => exact (TrieNodeExt.stands_iff.mp stands).2.hash found cached

/-- What a child contributes to its parent's encoding. -/
theorem ChildRef.Stands.rlpAppend_eq {child : ChildRef H} {trie : Trie}
    (stands : child.Stands trie) : child.rlpAppend = embed H (encode H trie) := by
  induction child using ChildRef.induction generalizing trie with
  | null =>
    obtain rfl : trie = .empty := stands
    rfl
  | ref found =>
    obtain ⟨large, rfl⟩ := stands
    rw [embed, if_neg (Nat.not_lt.mpr large)]
    rfl
  | owned me inductionHypothesis =>
    have standsMe := (ChildRef.stands_owned.mp stands).1
    have computed := TrieNodeExt.getRlpEncode_of_rlpBytes standsMe
      ((TrieNodeExt.stands_iff.mp standsMe).1.rlpBytes_of_children
        (inductionHypothesis.imp fun _ known below standsBelow => @known below standsBelow))
    rw [ChildRef.rlpAppend_owned, embed, computed,
      TrieNodeExt.hash_of_getRlpEncode standsMe computed, digest]

theorem TrieNode.Stands.rlpBytes_eq {node : TrieNode (ChildRef H)} {trie : Trie}
    (stands : node.Stands trie) : node.rlpBytes = encode H trie := by
  refine stands.rlpBytes_of_children ?_
  cases node with
  | leaf key value => trivial
  | branch children value => exact fun index below => ChildRef.Stands.rlpAppend_eq
  | extension key child => exact fun below => ChildRef.Stands.rlpAppend_eq

theorem TrieNodeExt.Stands.getRlpEncode_eq {me : NodePtr H} {trie : Trie}
    (stands : me.Stands trie) : me.getRlpEncode = encode H trie :=
  TrieNodeExt.getRlpEncode_of_rlpBytes stands (TrieNodeExt.stands_iff.mp stands).1.rlpBytes_eq

theorem TrieNodeExt.Stands.hash_eq {me : NodePtr H} {trie : Trie} (stands : me.Stands trie) :
    me.hash = digest trie :=
  TrieNodeExt.hash_of_getRlpEncode stands stands.getRlpEncode_eq

theorem TrieNode.AllChildren.of_forall {C : Type} {property : C → Prop}
    (all : ∀ child, property child) (node : TrieNode C) : node.AllChildren property := by
  cases node with
  | leaf key value => trivial
  | branch children value => exact fun index => all _
  | extension key child => exact all _

/-! ### Filling the cells -/

theorem TrieNode.fillChildren_eq (node : TrieNode (ChildRef H)) :
    node.fillChildren = node.mapChildren ChildRef.fill := by
  cases node <;> rfl

theorem Cells.Fits.fill {cells : Cells H} {encoding : Bytes} (fits : cells.Fits encoding) :
    ({ cells with
      rlpEncode := some encoding
      commited := if encoding.length < 32 then .light else .pending } : Cells H).Fits
      encoding := by
  refine ⟨fits.hash, ?_⟩
  show Cells.StatusFits _ encoding (if encoding.length < 32 then .light else .pending)
  split
  · next short => exact ⟨rfl, short⟩
  · next large => exact ⟨rfl, Nat.le_of_not_lt large⟩

/-- Setting the digest keeps the status, unless the encoding is not there yet. -/
theorem Cells.Fits.setHash {cells : Cells H} {encoding : Bytes} (fits : cells.Fits encoding)
    (filled : cells.commited ≠ .working) :
    ({ cells with hash := some (RlpHasher.hash encoding) } : Cells H).Fits encoding := by
  refine ⟨fun _ found => (Option.some.inj found).symm, ?_⟩
  have status := fits.status
  obtain ⟨hash, rlpEncode, commited, loaded, exiled⟩ := cells
  cases commited with
  | working => exact absurd rfl filled
  | light => exact status
  | pending => exact status
  | committed => exact ⟨status.1, rfl⟩

theorem TrieNodeExt.fillRlp_of_some {me : NodePtr H} {encoding : Bytes}
    (cached : me.cells.rlpEncode = some encoding) : me.fillRlp = me := by
  obtain ⟨node, cells⟩ := me
  rw [TrieNodeExt.fillRlp.eq_def]
  dsimp only at cached ⊢
  rw [cached]

theorem TrieNodeExt.fillRlp_of_none {me : NodePtr H} (missing : me.cells.rlpEncode = none) :
    me.fillRlp = ⟨me.node.mapChildren ChildRef.fill,
      { me.cells with
        rlpEncode := some me.node.rlpBytes
        commited := if me.node.rlpBytes.length < 32 then .light else .pending }⟩ := by
  obtain ⟨node, cells⟩ := me
  rw [TrieNodeExt.fillRlp.eq_def]
  dsimp only at missing ⊢
  rw [missing, TrieNode.fillChildren_eq]

/-- After filling, the status says that the encoding is there; a committed node stays one. -/
theorem TrieNodeExt.Stands.fillRlp_of_children {me : NodePtr H} {trie : Trie}
    (stands : me.Stands trie)
    (each : me.node.AllChildren fun child =>
      ∀ below : Trie, child.Stands below → child.fill.Stands below) :
    me.fillRlp.Stands trie ∧ me.fillRlp.cells.rlpEncode = some (encode H trie) ∧
      (me.fillRlp.cells.commited = .committed ↔ me.cells.commited = .committed) := by
  obtain ⟨standsNode, fits⟩ := TrieNodeExt.stands_iff.mp stands
  cases cached : me.cells.rlpEncode with
  | some found =>
    rw [TrieNodeExt.fillRlp_of_some cached]
    have same := fits.rlpEncode_getD
    rw [cached, Option.getD_some] at same
    exact ⟨stands, by rw [cached, same], Iff.rfl⟩
  | none =>
    rw [TrieNodeExt.fillRlp_of_none cached, standsNode.rlpBytes_eq]
    refine ⟨TrieNodeExt.stands_iff.mpr ⟨standsNode.mapChildren each, fits.fill⟩, rfl, ?_⟩
    have status := fits.status
    constructor
    · intro committed
      dsimp only at committed
      split at committed <;> cases committed
    · intro committed
      rw [committed] at status
      rw [status.1] at cached
      cases cached

/-- Filling a node below the root. -/
theorem ChildRef.Stands.fill {child : ChildRef H} {trie : Trie} (stands : child.Stands trie) :
    child.fill.Stands trie := by
  induction child using ChildRef.induction generalizing trie with
  | null => exact stands
  | ref found => exact stands
  | owned me inductionHypothesis =>
    obtain ⟨standsMe, large⟩ := ChildRef.stands_owned.mp stands
    obtain ⟨standsFilled, cached, committed⟩ := standsMe.fillRlp_of_children
      (inductionHypothesis.imp fun _ known below standsBelow => @known below standsBelow)
    rw [ChildRef.fill]
    split
    · exact ChildRef.stands_owned.mpr ⟨standsFilled, fun done => large (committed.mp done)⟩
    · obtain ⟨standsNode, fits⟩ := TrieNodeExt.stands_iff.mp standsFilled
      have notWorking : me.fillRlp.cells.commited ≠ .working := by
        intro working
        have status := fits.status
        rw [working] at status
        rw [status.1] at cached
        cases cached
      refine ChildRef.stands_owned.mpr ⟨TrieNodeExt.stands_iff.mpr ⟨standsNode, ?_⟩,
        fun done => large (committed.mp done)⟩
      rw [standsMe.hash_eq]
      exact fits.setHash notWorking

theorem TrieNodeExt.Stands.fillRlp {me : NodePtr H} {trie : Trie} (stands : me.Stands trie) :
    me.fillRlp.Stands trie ∧ me.fillRlp.cells.rlpEncode = some (encode H trie) ∧
      (me.fillRlp.cells.commited = .committed ↔ me.cells.commited = .committed) :=
  stands.fillRlp_of_children (.of_forall (fun _ _ standsBelow => standsBelow.fill) _)

theorem TrieNodeExt.Stands.fillRlp_not_working {me : NodePtr H} {trie : Trie}
    (stands : me.Stands trie) : me.fillRlp.cells.commited ≠ .working := by
  obtain ⟨standsFilled, cached, -⟩ := stands.fillRlp
  intro working
  have status := (TrieNodeExt.stands_iff.mp standsFilled).2.status
  rw [working] at status
  rw [status.1] at cached
  cases cached

theorem TrieNodeExt.Stands.fillHash {me : NodePtr H} {trie : Trie} (stands : me.Stands trie) :
    me.fillHash.Stands trie ∧ me.fillHash.cells.hash = some (digest trie) ∧
      (me.fillHash.cells.commited = .committed ↔ me.cells.commited = .committed) := by
  rw [TrieNodeExt.fillHash]
  cases cached : me.cells.hash with
  | some found =>
    have same := (TrieNodeExt.stands_iff.mp stands).2.hash found cached
    exact ⟨stands, by rw [cached, same]; rfl, Iff.rfl⟩
  | none =>
    obtain ⟨standsFilled, -, committed⟩ := stands.fillRlp
    obtain ⟨standsNode, fits⟩ := TrieNodeExt.stands_iff.mp standsFilled
    dsimp only
    rw [stands.hash_eq]
    exact ⟨TrieNodeExt.stands_iff.mpr ⟨standsNode, fits.setHash stands.fillRlp_not_working⟩, rfl,
      committed⟩

end AuthStorage.RainblockTrie
