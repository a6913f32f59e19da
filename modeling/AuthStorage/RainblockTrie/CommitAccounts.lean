/-
This file proves that filling cells, dropping nodes for their digests and committing
lose no digest that the nodes account for, and that a commit accounts for what it
writes. What is written for an exiled node is accounted for if the commit then comes
by the node, or if the node is committed already.
-/

import AuthStorage.RainblockTrie.Accounts
import AuthStorage.RainblockTrie.TopLayer

namespace AuthStorage.RainblockTrie

open AuthStorage.Lvmt (Bytes)

variable {H : Type} [RlpHasher H] {wanted : H}

/-! ### Nodes that stand for a trie -/

theorem TrieNode.Stands.storedIn_of_children {property : ChildRef H → Prop}
    {node : TrieNode (ChildRef H)} {trie : Trie} (stands : node.Stands trie)
    (each : node.AllChildren fun child =>
      ∀ below : Trie, child.Stands below → property child → StoredIn below wanted)
    (any : node.AnyChild property) : StoredIn trie wanted := by
  cases node with
  | leaf key value => exact any.elim
  | branch children value =>
    obtain ⟨tries, stored, -, rfl, below⟩ := stands
    obtain ⟨index, holds⟩ := any
    exact (each index _ (below index) holds).branch stored
  | extension key child =>
    obtain ⟨below, rfl, standsBelow⟩ := stands
    exact (each _ standsBelow any).extension key

/-- What the children have, the changed children have. -/
theorem TrieNode.Stands.any_map {before after : ChildRef H → Prop} {change : ChildRef H → ChildRef H}
    {node : TrieNode (ChildRef H)} {trie : Trie} (stands : node.Stands trie)
    (each : node.AllChildren fun child =>
      ∀ below : Trie, child.Stands below → before child → after (change child))
    (any : node.AnyChild before) : (node.mapChildren change).AnyChild after := by
  refine TrieNode.AllChildren.anyMap ((each.and stands.children).imp ?_) any
  rintro child ⟨keeps, below, standsBelow⟩ holds
  exact keeps below standsBelow holds

theorem Cells.Fits.eq_of_keeps {cells : Cells H} {trie : Trie} (fits : cells.Fits (encode H trie))
    (keeps : cells.Keeps wanted) : wanted = digest trie := fits.hash wanted keeps.2

/-- The nodes account for digests of the trie only. -/
theorem ChildRef.Stands.storedIn [CollisionFree H] {child : ChildRef H} {trie : Trie}
    (stands : child.Stands trie) (accounts : child.Accounts wanted) : StoredIn trie wanted := by
  induction child using ChildRef.induction generalizing trie with
  | null => exact accounts.elim
  | ref found =>
    rw [ChildRef.Accounts.eq_def] at accounts
    obtain ⟨-, rfl⟩ := stands
    obtain ⟨other, same, stored⟩ := accounts
    obtain rfl : trie = other := encode_injective (CollisionFree.hash_injective same)
    exact stored
  | owned me inductionHypothesis =>
    obtain ⟨standsMe, large⟩ := ChildRef.stands_owned.mp stands
    obtain ⟨standsNode, fits⟩ := TrieNodeExt.stands_iff.mp standsMe
    rcases TrieNodeExt.accounts_iff.mp (ChildRef.accounts_owned.mp accounts) with keeps | any
    · rw [fits.eq_of_keeps keeps]
      exact storedIn_self (large keeps.1)
    · exact standsNode.storedIn_of_children
        (inductionHypothesis.imp fun _ known below standsBelow => @known below standsBelow) any

theorem TrieNodeExt.Stands.storedIn [CollisionFree H] {me : NodePtr H} {trie : Trie}
    (stands : me.Stands trie) (accounts : me.Accounts wanted) :
    wanted = digest trie ∨ StoredIn trie wanted := by
  obtain ⟨standsNode, fits⟩ := TrieNodeExt.stands_iff.mp stands
  refine (TrieNodeExt.accounts_iff.mp accounts).imp fits.eq_of_keeps ?_
  exact standsNode.storedIn_of_children
    (.of_forall (fun _ _ standsBelow held => standsBelow.storedIn held) _)

/-! ### Filling the cells -/

theorem TrieNodeExt.Stands.fillRlp_accounts_of_children {me : NodePtr H} {trie : Trie}
    (stands : me.Stands trie)
    (each : me.node.AllChildren fun child =>
      ∀ below : Trie, child.Stands below → child.Accounts wanted → child.fill.Accounts wanted)
    (accounts : me.Accounts wanted) : me.fillRlp.Accounts wanted := by
  obtain ⟨standsNode, fits⟩ := TrieNodeExt.stands_iff.mp stands
  cases cached : me.cells.rlpEncode with
  | some found => rwa [TrieNodeExt.fillRlp_of_some cached]
  | none =>
    rw [TrieNodeExt.fillRlp_of_none cached]
    rcases TrieNodeExt.accounts_iff.mp accounts with keeps | any
    · have status := fits.status
      rw [keeps.1] at status
      rw [status.1] at cached
      cases cached
    · exact TrieNodeExt.accounts_iff.mpr (.inr (standsNode.any_map each any))

/-- The digest that is set is the one that was there. -/
theorem TrieNodeExt.Stands.setHash_accounts {me : NodePtr H} {trie : Trie} (stands : me.Stands trie)
    (accounts : me.Accounts wanted) :
    TrieNodeExt.Accounts wanted
      (⟨me.node, { me.cells with hash := some (digest trie) }⟩ : NodePtr H) := by
  refine TrieNodeExt.accounts_iff.mpr
    ((TrieNodeExt.accounts_iff.mp accounts).imp_left fun keeps => ?_)
  rw [(TrieNodeExt.stands_iff.mp stands).2.eq_of_keeps keeps]
  exact ⟨keeps.1, rfl⟩

theorem ChildRef.Stands.fill_accounts {child : ChildRef H} {trie : Trie} (stands : child.Stands trie)
    (accounts : child.Accounts wanted) : child.fill.Accounts wanted := by
  induction child using ChildRef.induction generalizing trie with
  | null => exact accounts
  | ref found => exact accounts
  | owned me inductionHypothesis =>
    obtain ⟨standsMe, large⟩ := ChildRef.stands_owned.mp stands
    have filled := standsMe.fillRlp_accounts_of_children
      (inductionHypothesis.imp fun _ known below standsBelow => @known below standsBelow)
      (ChildRef.accounts_owned.mp accounts)
    rw [ChildRef.fill]
    split
    · exact ChildRef.accounts_owned.mpr filled
    · rw [standsMe.hash_eq]
      exact ChildRef.accounts_owned.mpr (standsMe.fillRlp.1.setHash_accounts filled)

theorem TrieNodeExt.Stands.fillRlp_accounts {me : NodePtr H} {trie : Trie} (stands : me.Stands trie)
    (accounts : me.Accounts wanted) : me.fillRlp.Accounts wanted :=
  stands.fillRlp_accounts_of_children
    (.of_forall (fun _ _ standsBelow held => standsBelow.fill_accounts held) _) accounts

theorem TrieNodeExt.Stands.fillHash_accounts {me : NodePtr H} {trie : Trie} (stands : me.Stands trie)
    (accounts : me.Accounts wanted) : me.fillHash.Accounts wanted := by
  rw [TrieNodeExt.fillHash]
  split
  · exact accounts
  · rw [stands.hash_eq]
    exact stands.fillRlp.1.setHash_accounts (stands.fillRlp_accounts accounts)

/-! ### Truncating -/

section

variable [CollisionFree H]

theorem ChildRef.Stands.truncate_accounts {child : ChildRef H} {trie : Trie}
    (stands : child.Stands trie) (accounts : child.Accounts wanted) :
    child.truncate.Accounts wanted := by
  have stored := stands.storedIn accounts
  cases child with
  | null => exact accounts
  | ref found => exact accounts
  | owned me =>
    have standsMe := (ChildRef.stands_owned.mp stands).1
    rw [ChildRef.truncate, standsMe.getRlpEncode_eq, if_neg (Nat.not_lt.mpr stored.large)]
    exact ⟨trie, standsMe.hash_eq, stored⟩

theorem TrieNodeExt.Stands.truncate_accounts {me : NodePtr H} {trie : Trie} (stands : me.Stands trie)
    (accounts : me.Accounts wanted) : me.truncate.Accounts wanted := by
  refine TrieNodeExt.accounts_iff.mpr ((TrieNodeExt.accounts_iff.mp accounts).imp_right ?_)
  exact (TrieNodeExt.stands_iff.mp stands).1.any_map
    (.of_forall (fun _ _ standsBelow held => standsBelow.truncate_accounts held) _)

theorem TrieNodeExt.Stands.truncateLoaded_accounts_of_children {me : NodePtr H} {trie : Trie}
    (stands : me.Stands trie)
    (each : me.node.AllChildren fun child => ∀ below : Trie, child.Stands below →
      child.Accounts wanted → child.truncateLoaded.Accounts wanted)
    (accounts : me.Accounts wanted) : me.truncateLoaded.Accounts wanted := by
  obtain ⟨standsNode, fits⟩ := TrieNodeExt.stands_iff.mp stands
  have below : TrieNodeExt.Accounts wanted
      (⟨me.node.mapChildren ChildRef.truncateLoaded, me.cells⟩ : NodePtr H) :=
    TrieNodeExt.accounts_iff.mpr
      ((TrieNodeExt.accounts_iff.mp accounts).imp_right (standsNode.any_map each))
  have standsBelow : (⟨me.node.mapChildren ChildRef.truncateLoaded, me.cells⟩ : NodePtr H).Stands
      trie := TrieNodeExt.stands_iff.mpr ⟨standsNode.mapChildren
    (.of_forall (fun _ _ standsChild => standsChild.truncateLoaded) _), fits⟩
  rw [TrieNodeExt.truncateLoaded_eq]
  split
  · exact (standsBelow.truncate_accounts below).setCells rfl rfl
  · exact below

theorem ChildRef.Stands.truncateLoaded_accounts {child : ChildRef H} {trie : Trie}
    (stands : child.Stands trie) (accounts : child.Accounts wanted) :
    child.truncateLoaded.Accounts wanted := by
  induction child using ChildRef.induction generalizing trie with
  | null => exact accounts
  | ref found => exact accounts
  | owned me inductionHypothesis =>
    exact ChildRef.accounts_owned.mpr
      ((ChildRef.stands_owned.mp stands).1.truncateLoaded_accounts_of_children
        (inductionHypothesis.imp fun _ known below standsBelow => @known below standsBelow)
        (ChildRef.accounts_owned.mp accounts))

theorem TrieNodeExt.Stands.truncateLoaded_accounts {me : NodePtr H} {trie : Trie}
    (stands : me.Stands trie) (accounts : me.Accounts wanted) : me.truncateLoaded.Accounts wanted :=
  stands.truncateLoaded_accounts_of_children
    (.of_forall (fun _ _ standsBelow held => standsBelow.truncateLoaded_accounts held) _) accounts

/-! ### Promises -/

mutual

/-- The node accounts for the digest, or will once a commit has visited the unsettled nodes. -/
def TrieNodeExt.Promises (wanted : H) : NodePtr H → Prop
  | ⟨node, cells⟩ => TrieNodeExt.Accounts wanted ⟨node, cells⟩ ∨ (¬ cells.Settled ∧
      ((32 ≤ (TrieNodeExt.getRlpEncode ⟨node, cells⟩).length ∧
        TrieNodeExt.hash ⟨node, cells⟩ = wanted) ∨ TrieNode.PromisesBelow wanted node))

/-- Some child promises the digest. -/
def TrieNode.PromisesBelow (wanted : H) : TrieNode (ChildRef H) → Prop
  | .leaf _ _ => False
  | .branch children _ => ∃ index, ChildRef.Promises wanted (children index)
  | .extension _ child => ChildRef.Promises wanted child

/-- A digest promises what it reaches. -/
def ChildRef.Promises (wanted : H) : ChildRef H → Prop
  | .null => False
  | .ref found => Reaches found wanted
  | .owned me => TrieNodeExt.Promises wanted me

end

omit [CollisionFree H] in
theorem TrieNodeExt.promises_iff {me : NodePtr H} :
    me.Promises wanted ↔ me.Accounts wanted ∨ (¬ me.cells.Settled ∧
      ((32 ≤ me.getRlpEncode.length ∧ me.hash = wanted) ∨
        me.node.AnyChild (ChildRef.Promises wanted))) := by
  obtain ⟨node, cells⟩ := me
  rw [TrieNodeExt.Promises.eq_def]
  cases node <;> exact Iff.rfl

omit [CollisionFree H] in
theorem ChildRef.promises_owned {me : NodePtr H} :
    (ChildRef.owned me).Promises wanted ↔ me.Promises wanted := by
  rw [ChildRef.Promises.eq_def]

theorem ChildRef.Stands.storedIn_of_promises {child : ChildRef H} {trie : Trie}
    (stands : child.Stands trie) (promises : child.Promises wanted) : StoredIn trie wanted := by
  induction child using ChildRef.induction generalizing trie with
  | null => exact promises.elim
  | ref found => exact stands.storedIn promises
  | owned me inductionHypothesis =>
    have standsMe := (ChildRef.stands_owned.mp stands).1
    rcases TrieNodeExt.promises_iff.mp (ChildRef.promises_owned.mp promises) with
      accounts | ⟨-, ⟨large, rfl⟩ | any⟩
    · exact stands.storedIn (ChildRef.accounts_owned.mpr accounts)
    · rw [standsMe.getRlpEncode_eq] at large
      rw [standsMe.hash_eq]
      exact storedIn_self large
    · exact (TrieNodeExt.stands_iff.mp standsMe).1.storedIn_of_children
        (inductionHypothesis.imp fun _ known below standsBelow => @known below standsBelow) any

omit [CollisionFree H] in
/-- A large child is filled with its encoding and its digest. -/
theorem TrieNodeExt.Stands.fill_owned {me : NodePtr H} {trie : Trie} (stands : me.Stands trie)
    (large : 32 ≤ (encode H trie).length) :
    (ChildRef.owned me).fill = .owned me.fillHash.fillRlp := by
  rw [ChildRef.fill, stands.getRlpEncode_eq, if_neg (Nat.not_lt.mpr large)]
  dsimp only
  congr 1
  obtain ⟨-, encoded, -⟩ := stands.fillRlp
  cases hashed : me.cells.hash with
  | none =>
    have filled : me.fillHash =
        ⟨me.fillRlp.node, { me.fillRlp.cells with hash := some me.hash }⟩ := by
      rw [TrieNodeExt.fillHash, hashed]
    have cached : me.fillHash.cells.rlpEncode = some (encode H trie) := by
      rw [filled]
      exact encoded
    rw [TrieNodeExt.fillRlp_of_some cached, filled]
  | some found =>
    have filled : me.fillHash = me := by
      rw [TrieNodeExt.fillHash, hashed]
    have kept : me.fillRlp.cells.hash = some found := by
      cases cached : me.cells.rlpEncode with
      | some encoding => rwa [TrieNodeExt.fillRlp_of_some cached]
      | none =>
        rw [TrieNodeExt.fillRlp_of_none cached]
        exact hashed
    have same : me.hash = found := by
      rw [TrieNodeExt.hash, hashed]
      rfl
    rw [filled, same, ← kept]

omit [CollisionFree H] in
/-- A large node is as settled as before once it is filled. -/
theorem TrieNodeExt.Stands.fillRlp_settled {me : NodePtr H} {trie : Trie} (stands : me.Stands trie)
    (large : 32 ≤ (encode H trie).length) (settled : me.fillRlp.cells.Settled) :
    me.cells.Settled := by
  cases cached : me.cells.rlpEncode with
  | some encoding => rwa [TrieNodeExt.fillRlp_of_some cached] at settled
  | none =>
    rw [TrieNodeExt.fillRlp_of_none cached,
      (TrieNodeExt.stands_iff.mp stands).1.rlpBytes_eq] at settled
    dsimp only [Cells.Settled] at settled
    rw [if_neg (Nat.not_lt.mpr large)] at settled
    rcases settled with no | no <;> cases no

theorem ChildRef.Stands.fill_promises {child : ChildRef H} {trie : Trie} (stands : child.Stands trie)
    (promises : child.Promises wanted) : child.fill.Promises wanted := by
  induction child using ChildRef.induction generalizing trie with
  | null => exact promises
  | ref found => exact promises
  | owned me inductionHypothesis =>
    have large := (stands.storedIn_of_promises promises).large
    have standsMe := (ChildRef.stands_owned.mp stands).1
    have filled := stands.fill
    rw [ChildRef.fill, standsMe.getRlpEncode_eq, if_neg (Nat.not_lt.mpr large)] at filled
    have standsFilled := (ChildRef.stands_owned.mp filled).1
    rcases TrieNodeExt.promises_iff.mp (ChildRef.promises_owned.mp promises) with
      accounts | ⟨unsettled, held⟩
    · have kept := stands.fill_accounts (ChildRef.accounts_owned.mpr accounts)
      rw [ChildRef.fill, standsMe.getRlpEncode_eq, if_neg (Nat.not_lt.mpr large)] at kept ⊢
      exact ChildRef.promises_owned.mpr
        (TrieNodeExt.promises_iff.mpr (.inl (ChildRef.accounts_owned.mp kept)))
    · rw [ChildRef.fill, standsMe.getRlpEncode_eq, if_neg (Nat.not_lt.mpr large)]
      refine ChildRef.promises_owned.mpr (TrieNodeExt.promises_iff.mpr (.inr
        ⟨fun settled => unsettled (standsMe.fillRlp_settled large settled), ?_⟩))
      rcases held with ⟨-, rfl⟩ | any
      · refine .inl ⟨?_, ?_⟩
        · rwa [standsFilled.getRlpEncode_eq]
        · rw [standsFilled.hash_eq, standsMe.hash_eq]
      · refine .inr ?_
        dsimp only
        cases cached : me.cells.rlpEncode with
        | some encoding => rwa [TrieNodeExt.fillRlp_of_some cached]
        | none =>
          rw [TrieNodeExt.fillRlp_of_none cached]
          exact (TrieNodeExt.stands_iff.mp standsMe).1.any_map (inductionHypothesis.imp
            fun _ known below standsBelow => @known below standsBelow) any

/-! ### Committing -/

/-- What a commit of one node, with the children done, accounts for. -/
structure Entered (me : NodePtr H) (trie : Trie) (below : List (H × Bytes))
    (done : Committed H (NodePtr H)) : Prop where
  stands : done.result.Stands trie
  kept : ∀ wanted : H, me.Accounts wanted → done.result.Accounts wanted
  large : 32 ≤ (encode H trie).length → done.result.Accounts (digest trie : H)
  putOps : ∀ entry ∈ done.putOps, entry ∈ below ∨ done.result.Accounts entry.1

theorem Entered.truncate {me : NodePtr H} {trie : Trie} {below : List (H × Bytes)}
    {done : Committed H (NodePtr H)} (entered : Entered me trie below done) :
    Entered me trie below { done with result := done.result.truncate } :=
  ⟨entered.stands.truncate,
    fun wanted held => entered.stands.truncate_accounts (entered.kept wanted held),
    fun large => entered.stands.truncate_accounts (entered.large large),
    fun entry member => (entered.putOps entry member).imp_right entered.stands.truncate_accounts⟩

theorem TrieNodeExt.Stands.finishCommit_entered (N depth : Nat) (topLayer : Bool) {me : NodePtr H}
    {trie : Trie} (stands : me.Stands trie) (below : List (H × Bytes)) (asserted : Bool) :
    Entered me trie below (me.finishCommit N depth topLayer below asserted) := by
  obtain ⟨standsFilled, encoded, -⟩ := stands.fillRlp
  obtain ⟨standsHashed, hashed, -⟩ := standsFilled.fillHash
  have cached := TrieNodeExt.fillHash_rlpEncode standsFilled encoded
  have untruncated : Entered me trie below
      (if 32 ≤ me.getRlpEncode.length ∨ depth = 0 then
        ⟨⟨me.fillRlp.fillHash.node, { me.fillRlp.fillHash.cells with commited := .committed }⟩,
          below ++ (if N ≤ depth ∨ topLayer = true then
            [(me.fillRlp.hash, me.getRlpEncode)] else []), asserted && N ≠ 0⟩
      else ⟨me.fillRlp, below, asserted && me.fillRlp.cells.commited = .light && N ≠ 0⟩) := by
    rw [stands.getRlpEncode_eq, standsFilled.hash_eq]
    split
    · have own : TrieNodeExt.Accounts (digest trie) (⟨me.fillRlp.fillHash.node,
          { me.fillRlp.fillHash.cells with commited := .committed }⟩ : NodePtr H) :=
        TrieNodeExt.accounts_iff.mpr (.inl ⟨rfl, hashed⟩)
      refine ⟨standsHashed.setCommitted cached hashed, fun wanted held => ?_, fun _ => own,
        fun entry member => ?_⟩
      · have filled := standsFilled.fillHash_accounts (stands.fillRlp_accounts held)
        exact TrieNodeExt.accounts_iff.mpr
          ((TrieNodeExt.accounts_iff.mp filled).imp_left fun keeps => ⟨rfl, keeps.2⟩)
      · rcases List.mem_append.mp member with earlier | last
        · exact .inl earlier
        · split at last
          · rw [List.mem_singleton.mp last]
            exact .inr own
          · cases last
    · next small =>
      exact ⟨standsFilled, fun wanted held => stands.fillRlp_accounts held,
        fun large => absurd (.inl large) small, fun entry member => .inl member⟩
  rw [TrieNodeExt.finishCommit]
  dsimp only
  split
  · exact untruncated.truncate
  · exact untruncated

omit [CollisionFree H] in
/-- What the children's commits write is accounted for among the children. -/
theorem TrieNode.commitChildren_any {N depth : Nat} {topLayer : Bool}
    (property : H → ChildRef H → Prop) {node : TrieNode (ChildRef H)}
    (each : node.AllChildren fun child => ∀ entry ∈ (child.commit N depth topLayer).putOps,
      property entry.1 (child.commit N depth topLayer).result) :
    ∀ entry ∈ (node.commitChildren N depth topLayer).putOps,
      (node.mapChildren fun child => (child.commit N depth topLayer).result).AnyChild
        (property entry.1) := by
  cases node with
  | leaf key value => exact List.forall_mem_nil _
  | branch children value =>
    intro entry member
    obtain ⟨index, -, member⟩ := List.mem_flatMap.mp member
    exact ⟨index, each index entry member⟩
  | extension key child => exact each

/-- A commit loses nothing, accounts for what it writes, and below the top layer for what was
promised. -/
structure ChildRef.Carried (N depth : Nat) (topLayer : Bool) (child : ChildRef H) : Prop where
  kept : ∀ wanted : H, child.Accounts wanted →
    (child.commit N depth topLayer).result.Accounts wanted
  putOps : ∀ entry ∈ (child.commit N depth topLayer).putOps,
    (child.commit N depth topLayer).result.Accounts entry.1
  promised : topLayer = false → ∀ wanted : H, child.Promises wanted →
    (child.commit N depth topLayer).result.Accounts wanted

theorem TrieNodeExt.Stands.carried_of_children {N depth : Nat} {topLayer : Bool} {me : NodePtr H}
    {trie : Trie} (stands : me.Stands trie)
    (each : me.node.AllChildren fun child => ∀ below : Trie, child.Stands below →
      (child.commit N (depth + 1) topLayer).result.Stands below ∧
        child.Carried N (depth + 1) topLayer) :
    (ChildRef.owned me).Carried N depth topLayer := by
  have commits : (ChildRef.owned me).commit N depth topLayer =
      ⟨.owned (me.commit N depth topLayer).result, (me.commit N depth topLayer).putOps,
        (me.commit N depth topLayer).asserted⟩ := rfl
  by_cases skips : me.Skips N depth topLayer
  · rw [TrieNodeExt.commit_of_skips skips] at commits
    refine ⟨fun wanted held => by rwa [commits], fun entry member => ?_,
      fun bottom wanted promises => ?_⟩
    · rw [commits] at member
      cases member
    · rw [commits]
      have settled : me.cells.Settled := by
        rcases skips with ⟨-, top⟩ | ⟨settled, -⟩
        · rw [bottom] at top
          cases top
        · exact settled
      rcases TrieNodeExt.promises_iff.mp (ChildRef.promises_owned.mp promises) with
        held | ⟨unsettled, -⟩
      · exact ChildRef.accounts_owned.mpr held
      · exact absurd settled unsettled
  · obtain ⟨standsNode, fits⟩ := TrieNodeExt.stands_iff.mp stands
    have both := each.and standsNode.children
    have standsBelow : TrieNodeExt.Stands
        (⟨(me.node.commitChildren N (depth + 1) topLayer).result, me.cells⟩ : NodePtr H) trie := by
      rw [TrieNode.commitChildren_result]
      exact TrieNodeExt.stands_iff.mpr ⟨standsNode.mapChildren
        (each.imp fun _ known below stands => (known below stands).1), fits⟩
    have entered := standsBelow.finishCommit_entered N depth topLayer
      (me.node.commitChildren N (depth + 1) topLayer).putOps
      (me.node.commitChildren N (depth + 1) topLayer).asserted
    -- whatever a child has in the end, the node has
    have rises : ∀ wanted : H, (me.node.mapChildren fun child =>
        (child.commit N (depth + 1) topLayer).result).AnyChild (ChildRef.Accounts wanted) →
        (me.commit N depth topLayer).result.Accounts wanted := by
      intro wanted any
      rw [TrieNodeExt.commit_of_not_skips skips]
      refine entered.kept wanted (TrieNodeExt.accounts_iff.mpr (.inr ?_))
      rwa [TrieNode.commitChildren_result]
    have kept : ∀ wanted : H, me.Accounts wanted →
        (me.commit N depth topLayer).result.Accounts wanted := by
      intro wanted held
      rcases TrieNodeExt.accounts_iff.mp held with keeps | any
      · rw [TrieNodeExt.commit_of_not_skips skips]
        exact entered.kept wanted (TrieNodeExt.accounts_iff.mpr (.inl keeps))
      · exact rises wanted (standsNode.any_map (each.imp fun _ known below stands =>
          (known below stands).2.kept wanted) any)
    refine ⟨fun wanted held => ChildRef.accounts_owned.mpr
      (kept wanted (ChildRef.accounts_owned.mp held)), fun entry member =>
        ChildRef.accounts_owned.mpr ?_, fun bottom wanted promises =>
          ChildRef.accounts_owned.mpr ?_⟩
    · rw [commits, TrieNodeExt.commit_of_not_skips skips] at member
      rcases entered.putOps entry member with earlier | own
      · refine rises entry.1
          (TrieNode.commitChildren_any ChildRef.Accounts (both.imp ?_) entry earlier)
        rintro child ⟨known, below, stands⟩
        exact (known below stands).2.putOps
      · rw [TrieNodeExt.commit_of_not_skips skips]
        exact own
    · rcases TrieNodeExt.promises_iff.mp (ChildRef.promises_owned.mp promises) with
        held | ⟨-, ⟨large, rfl⟩ | any⟩
      · exact kept wanted held
      · rw [stands.getRlpEncode_eq] at large
        rw [stands.hash_eq, TrieNodeExt.commit_of_not_skips skips]
        exact entered.large large
      · exact rises wanted (standsNode.any_map (each.imp fun _ known below stands =>
          (known below stands).2.promised bottom wanted) any)

theorem ChildRef.Stands.carried {N depth : Nat} (positive : N ≠ 0) (topLayer : Bool)
    {child : ChildRef H} {trie : Trie} (stands : child.Stands trie) :
    child.Carried N (depth + 1) topLayer := by
  induction child using ChildRef.induction generalizing depth trie with
  | null => exact ⟨fun _ held => held.elim, List.forall_mem_nil _, fun _ _ held => held.elim⟩
  | ref found => exact ⟨fun _ held => held, List.forall_mem_nil _, fun _ _ held => held⟩
  | owned me inductionHypothesis =>
    refine (ChildRef.stands_owned.mp stands).1.carried_of_children ?_
    exact inductionHypothesis.imp fun _ known below standsBelow =>
      ⟨(standsBelow.commit positive topLayer).1, @known (depth + 1) below standsBelow⟩

theorem TrieNodeExt.Stands.carried {N : Nat} (positive : N ≠ 0) (topLayer : Bool) {me : NodePtr H}
    {trie : Trie} (stands : me.Stands trie) : (ChildRef.owned me).Carried N 0 topLayer :=
  stands.carried_of_children (.of_forall (fun _ _ standsBelow =>
    ⟨(standsBelow.commit positive topLayer).1, standsBelow.carried positive topLayer⟩) _)

/-! ### Exiled nodes -/

/-- An exiled node is large, and below a node that a commit passes by it is committed. -/
def TrieNodeExt.ExilesTracked (me : NodePtr H) : Prop :=
  (me.cells.exiled = true → 32 ≤ me.getRlpEncode.length) ∧
    (me.cells.Settled → me.node.AllChildren (ChildRef.Everywhere
      (fun _ below => below.cells.exiled = true → below.cells.commited = .committed) anyDigest 0))

omit [CollisionFree H] in
instance (me : NodePtr H) : Decidable me.ExilesTracked := inferInstanceAs (Decidable (_ ∧ _))

omit [CollisionFree H] in
theorem TrieNode.drainExiledChildren_any (property : H → ChildRef H → Prop)
    {node : TrieNode (ChildRef H)}
    (each : node.AllChildren fun child => ∀ entry ∈ child.drainExiled.2,
      property entry.1 child.drainExiled.1) :
    ∀ entry ∈ node.drainExiledChildren.2,
      (node.mapChildren fun child => child.drainExiled.1).AnyChild (property entry.1) := by
  cases node with
  | leaf key value => exact List.forall_mem_nil _
  | branch children value =>
    intro entry member
    obtain ⟨index, -, member⟩ := List.mem_flatMap.mp member
    exact ⟨index, each index entry member⟩
  | extension key child => exact each

omit [CollisionFree H] in
/-- The node with its children drained, before its own entry is made. -/
theorem TrieNodeExt.Stands.drainedBelow {me : NodePtr H} {trie : Trie} (stands : me.Stands trie)
    (exiled : Bool) :
    TrieNodeExt.Stands (⟨me.node.mapChildren fun child => child.drainExiled.1,
      { me.cells with exiled := exiled }⟩ : NodePtr H) trie := by
  obtain ⟨standsNode, fits⟩ := TrieNodeExt.stands_iff.mp stands
  exact TrieNodeExt.stands_iff.mpr ⟨standsNode.mapChildren
    (.of_forall (fun _ _ standsChild => standsChild.drainExiled.1) _),
    fits.mark me.cells.loaded exiled⟩

omit [CollisionFree H] in
theorem TrieNodeExt.Stands.drainExiled_accounts_of_children {me : NodePtr H} {trie : Trie}
    (stands : me.Stands trie)
    (any : (me.node.mapChildren fun child => child.drainExiled.1).AnyChild
      (ChildRef.Accounts wanted) ∨ me.cells.Keeps wanted) :
    me.drainExiled.1.Accounts wanted := by
  rw [TrieNodeExt.drainExiled_eq, TrieNode.drainExiledChildren_result]
  dsimp only
  split
  · have unmarked := stands.drainedBelow false
    refine unmarked.fillHash.1.fillRlp_accounts (unmarked.fillHash_accounts ?_)
    exact TrieNodeExt.accounts_iff.mpr any.symm
  · exact TrieNodeExt.accounts_iff.mpr any.symm

omit [CollisionFree H] in
theorem ChildRef.Stands.drainExiled_accounts {child : ChildRef H} {trie : Trie}
    (stands : child.Stands trie) (accounts : child.Accounts wanted) :
    child.drainExiled.1.Accounts wanted := by
  induction child using ChildRef.induction generalizing trie with
  | null => exact accounts
  | ref found => exact accounts
  | owned me inductionHypothesis =>
    have standsMe := (ChildRef.stands_owned.mp stands).1
    refine ChildRef.accounts_owned.mpr (standsMe.drainExiled_accounts_of_children ?_)
    refine (TrieNodeExt.accounts_iff.mp (ChildRef.accounts_owned.mp accounts)).symm.imp_left ?_
    exact (TrieNodeExt.stands_iff.mp standsMe).1.any_map (inductionHypothesis.imp
      fun _ known below standsBelow => @known below standsBelow)

omit [CollisionFree H] in
theorem TrieNodeExt.Stands.drainExiled_accounts {me : NodePtr H} {trie : Trie}
    (stands : me.Stands trie) (accounts : me.Accounts wanted) :
    me.drainExiled.1.Accounts wanted := by
  refine stands.drainExiled_accounts_of_children
    ((TrieNodeExt.accounts_iff.mp accounts).symm.imp_left ?_)
  exact (TrieNodeExt.stands_iff.mp stands).1.any_map
    (.of_forall (fun _ _ standsBelow held => standsBelow.drainExiled_accounts held) _)

omit [CollisionFree H] in
/-- The entries of a node that is drained: those of its children, and its own if it is exiled. -/
theorem TrieNodeExt.Stands.mem_drainExiled {me : NodePtr H} {trie : Trie} (stands : me.Stands trie)
    {entry : H × Bytes} (member : entry ∈ me.drainExiled.2) :
    entry ∈ me.node.drainExiledChildren.2 ∨ (me.cells.exiled = true ∧ entry.1 = digest trie) := by
  rw [TrieNodeExt.drainExiled_eq, TrieNode.drainExiledChildren_result] at member
  dsimp only at member
  split at member
  · next exiled =>
    rcases List.mem_append.mp member with earlier | last
    · exact .inl earlier
    · rw [List.mem_singleton.mp last]
      exact .inr ⟨exiled, (stands.drainedBelow false).hash_eq⟩
  · exact .inl member

omit [CollisionFree H] in
/-- What is written for committed nodes is accounted for. -/
theorem ChildRef.Stands.drainExiled_committed {child : ChildRef H} {trie : Trie}
    (stands : child.Stands trie) {depth : Nat} (committed : child.Everywhere
      (fun _ below => below.cells.exiled = true → below.cells.commited = .committed)
      anyDigest depth) :
    ∀ entry ∈ child.drainExiled.2, child.drainExiled.1.Accounts entry.1 := by
  induction child using ChildRef.induction generalizing trie depth with
  | null => exact List.forall_mem_nil _
  | ref found => exact List.forall_mem_nil _
  | owned me inductionHypothesis =>
    have standsMe := (ChildRef.stands_owned.mp stands).1
    obtain ⟨standsNode, fits⟩ := TrieNodeExt.stands_iff.mp standsMe
    obtain ⟨here, below⟩ := ChildRef.everywhere_owned_iff.mp committed
    intro entry member
    refine ChildRef.accounts_owned.mpr (standsMe.drainExiled_accounts_of_children ?_)
    rcases standsMe.mem_drainExiled member with earlier | ⟨exiled, same⟩
    · refine .inl (TrieNode.drainExiledChildren_any ChildRef.Accounts ?_ entry earlier)
      refine ((inductionHypothesis.and below).and standsNode.children).imp ?_
      rintro child ⟨⟨known, below⟩, trie, standsChild⟩
      exact known standsChild below
    · have status := fits.status
      rw [here exiled] at status
      exact .inr ⟨here exiled, by rw [status.2, same]; rfl⟩

/-- What is written for exiled nodes is promised, if they are tracked. -/
theorem TrieNodeExt.Stands.drainExiled_promises_of_children {me : NodePtr H} {trie : Trie}
    (stands : me.Stands trie) (tracked : me.ExilesTracked)
    (each : me.node.AllChildren fun child => ∀ below : Trie, child.Stands below →
      ∀ entry ∈ child.drainExiled.2, child.drainExiled.1.Promises entry.1) :
    ∀ entry ∈ me.drainExiled.2, me.drainExiled.1.Promises entry.1 := by
  obtain ⟨standsNode, fits⟩ := TrieNodeExt.stands_iff.mp stands
  intro entry member
  -- before the own cells are filled
  have promised : ∀ exiled : Bool, TrieNodeExt.Promises entry.1
      (⟨me.node.mapChildren fun child => child.drainExiled.1,
        { me.cells with exiled := exiled }⟩ : NodePtr H) := by
    intro exiled
    have standsBelow := stands.drainedBelow exiled
    refine TrieNodeExt.promises_iff.mpr ?_
    by_cases settled : me.cells.Settled
    · refine .inl (TrieNodeExt.accounts_iff.mpr ?_)
      rcases stands.mem_drainExiled member with earlier | ⟨exiled, same⟩
      · refine .inr (TrieNode.drainExiledChildren_any ChildRef.Accounts ?_
          entry earlier)
        refine ((tracked.2 settled).and standsNode.children).imp ?_
        rintro child ⟨committed, below, standsChild⟩
        exact standsChild.drainExiled_committed committed
      · have large := tracked.1 exiled
        have status := fits.status
        rw [stands.getRlpEncode_eq] at large
        rcases settled with committed | light
        · rw [committed] at status
          exact .inl ⟨committed, by rw [same]; exact status.2⟩
        · rw [light] at status
          exact absurd status.2 (Nat.not_lt.mpr large)
    · refine .inr ⟨settled, ?_⟩
      rcases stands.mem_drainExiled member with earlier | ⟨exiled, same⟩
      · refine .inr (TrieNode.drainExiledChildren_any ChildRef.Promises ?_
          entry earlier)
        refine (each.and standsNode.children).imp ?_
        rintro child ⟨known, below, standsChild⟩
        exact known below standsChild
      · have large := tracked.1 exiled
        rw [stands.getRlpEncode_eq] at large
        exact .inl ⟨by rwa [standsBelow.getRlpEncode_eq], by rw [standsBelow.hash_eq, same]⟩
  rw [TrieNodeExt.drainExiled_eq, TrieNode.drainExiledChildren_result]
  dsimp only
  split
  · next exiled =>
    have large := tracked.1 exiled
    rw [stands.getRlpEncode_eq] at large
    have unmarked := stands.drainedBelow false
    have filled := ChildRef.Stands.fill_promises
      (ChildRef.stands_owned.mpr ⟨unmarked, fun _ => large⟩)
      (ChildRef.promises_owned.mpr (promised false))
    rw [unmarked.fill_owned large] at filled
    exact ChildRef.promises_owned.mp filled
  · exact promised me.cells.exiled

theorem ChildRef.Stands.drainExiled_promises {child : ChildRef H} {trie : Trie}
    (stands : child.Stands trie) {depth : Nat}
    (tracked : child.Everywhere (fun _ below => below.ExilesTracked) anyDigest depth) :
    ∀ entry ∈ child.drainExiled.2, child.drainExiled.1.Promises entry.1 := by
  induction child using ChildRef.induction generalizing trie depth with
  | null => exact List.forall_mem_nil _
  | ref found => exact List.forall_mem_nil _
  | owned me inductionHypothesis =>
    obtain ⟨here, below⟩ := ChildRef.everywhere_owned_iff.mp tracked
    intro entry member
    refine ChildRef.promises_owned.mpr
      ((ChildRef.stands_owned.mp stands).1.drainExiled_promises_of_children here ?_ entry member)
    exact (inductionHypothesis.and below).imp fun _ both _ standsBelow => both.1 standsBelow both.2

theorem TrieNodeExt.Stands.drainExiled_promises {me : NodePtr H} {trie : Trie}
    (stands : me.Stands trie)
    (tracked : me.Everywhere (fun _ below => below.ExilesTracked) anyDigest 0) :
    ∀ entry ∈ me.drainExiled.2, me.drainExiled.1.Promises entry.1 := by
  obtain ⟨here, below⟩ := TrieNodeExt.everywhere_iff.mp tracked
  exact stands.drainExiled_promises_of_children here
    (below.imp fun _ tracked _ standsBelow => standsBelow.drainExiled_promises tracked)

end

end AuthStorage.RainblockTrie
