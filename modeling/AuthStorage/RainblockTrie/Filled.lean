/-
This file says what filling the cells of a node changes. A node that has its encoding
stays as it is. Any other node is one that was just changed: its children are filled
with it, and its encoding tells which status it gets. A property that does not depend
on more than this survives filling at every node below.
-/

import AuthStorage.RainblockTrie.Everywhere

namespace AuthStorage.RainblockTrie

variable {H : Type} [RlpHasher H]

/-! ### One node -/

/-- What filling leaves of a node, up to its encoding and its digest. -/
structure TrieNodeExt.FilledAs (me after : NodePtr H) : Prop where
  loaded : after.cells.loaded = me.cells.loaded
  exiled : after.cells.exiled = me.cells.exiled
  status : (after.node = me.node ∧ after.cells.commited = me.cells.commited) ∨
    (after.node = me.node.mapChildren ChildRef.fill ∧ me.cells.commited = .working ∧
      after.cells.commited = if me.getRlpEncode.length < 32 then .light else .pending)

variable {me after : NodePtr H} {trie : Trie}

theorem TrieNodeExt.FilledAs.refl (me : NodePtr H) : me.FilledAs me :=
  ⟨rfl, rfl, .inl ⟨rfl, rfl⟩⟩

/-- The digest does not matter. -/
theorem TrieNodeExt.FilledAs.setHash (filled : me.FilledAs after) (hash : Option H) :
    me.FilledAs ⟨after.node, { after.cells with hash := hash }⟩ :=
  ⟨filled.loaded, filled.exiled, filled.status⟩

theorem TrieNodeExt.FilledAs.committed (filled : me.FilledAs after) :
    after.cells.commited = .committed ↔ me.cells.commited = .committed := by
  rcases filled.status with ⟨-, same⟩ | ⟨-, working, status⟩
  · rw [same]
  · rw [working, status]
    split <;> exact ⟨fun no => (by cases no), fun no => (by cases no)⟩

/-- A node is filled with its children, or had been filled before. -/
theorem TrieNodeExt.FilledAs.children {property : ChildRef H → Prop} (filled : me.FilledAs after)
    (all : me.node.AllChildren property)
    (each : me.node.AllChildren fun child => property child → property child.fill) :
    after.node.AllChildren property := by
  rcases filled.status with ⟨same, -⟩ | ⟨same, -, -⟩
  · rwa [same]
  · rw [same]
    exact TrieNode.allChildren_mapChildren.mpr ((each.and all).imp fun _ both => both.1 both.2)

theorem TrieNodeExt.Stands.fillRlp_as (stands : me.Stands trie) : me.FilledAs me.fillRlp := by
  cases cached : me.cells.rlpEncode with
  | some encoding =>
    rw [TrieNodeExt.fillRlp_of_some cached]
    exact .refl me
  | none =>
    have working : me.cells.commited = .working := by
      have status := (TrieNodeExt.stands_iff.mp stands).2.status
      cases state : me.cells.commited with
      | working => rfl
      | _ =>
        rw [state, Cells.StatusFits, cached] at status
        cases status.1
    have same : me.getRlpEncode = me.node.rlpBytes := by
      rw [TrieNodeExt.getRlpEncode_eq, cached]
      rfl
    rw [TrieNodeExt.fillRlp_of_none cached]
    exact ⟨rfl, rfl, .inr ⟨rfl, working, by rw [same]⟩⟩

theorem TrieNodeExt.Stands.fillHash_as (stands : me.Stands trie) : me.FilledAs me.fillHash := by
  rw [TrieNodeExt.fillHash]
  split
  · exact .refl me
  · exact stands.fillRlp_as.setHash _

/-- What filling makes of a child. -/
theorem ChildRef.Stands.fill_as (stands : (ChildRef.owned me).Stands trie) :
    ∃ after, (ChildRef.owned me).fill = .owned after ∧ after.Stands trie ∧ me.FilledAs after ∧
      after.cells.commited ≠ .working := by
  have standsMe := (ChildRef.stands_owned.mp stands).1
  have filled := stands.fill
  rw [ChildRef.fill] at filled ⊢
  split
  · exact ⟨_, rfl, standsMe.fillRlp.1, standsMe.fillRlp_as, standsMe.fillRlp_not_working⟩
  · next large =>
    rw [if_neg large] at filled
    exact ⟨_, rfl, (ChildRef.stands_owned.mp filled).1, standsMe.fillRlp_as.setHash _,
      standsMe.fillRlp_not_working⟩

/-! ### Every node below -/

section

variable {property : Nat → NodePtr H → Prop} {known : H → Prop} {depth : Nat}
  (fills : ∀ (depth : Nat) (me after : NodePtr H) (trie : Trie), me.Stands trie →
    after.Stands trie → me.FilledAs after → property depth me → property depth after)

include fills

theorem ChildRef.Stands.fill_everywhere {child : ChildRef H} (stands : child.Stands trie)
    (holds : child.Everywhere property known depth) :
    child.fill.Everywhere property known depth := by
  induction child using ChildRef.induction generalizing depth trie with
  | null => trivial
  | ref found => exact holds
  | owned me inductionHypothesis =>
    obtain ⟨here, below⟩ := ChildRef.everywhere_owned_iff.mp holds
    have standsMe := (ChildRef.stands_owned.mp stands).1
    obtain ⟨after, same, standsAfter, filled, -⟩ := stands.fill_as
    rw [same]
    refine ChildRef.everywhere_owned_iff.mpr
      ⟨fills depth me after trie standsMe standsAfter filled here, filled.children below ?_⟩
    refine (inductionHypothesis.and standsMe.children).imp ?_
    rintro child ⟨known, trie, standsChild⟩ holdsChild
    exact known standsChild holdsChild

theorem TrieNodeExt.FilledAs.everywhere (filled : me.FilledAs after) (stands : me.Stands trie)
    (standsAfter : after.Stands trie) (holds : me.Everywhere property known depth) :
    after.Everywhere property known depth := by
  obtain ⟨here, below⟩ := TrieNodeExt.everywhere_iff.mp holds
  refine TrieNodeExt.everywhere_iff.mpr
    ⟨fills depth me after trie stands standsAfter filled here, filled.children below ?_⟩
  refine stands.children.imp ?_
  rintro child ⟨trie, standsChild⟩
  exact standsChild.fill_everywhere fills

end

end AuthStorage.RainblockTrie
