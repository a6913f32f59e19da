/-
This file states what keeps large nodes out of the layers below the boundary. A
commit passes by a settled node, so what a settled node at the boundary holds has to
be small, unless the node was marked when a read loaded a child across the boundary.
Loading, reading, filling the cells and marking for exile keep this.
-/

import AuthStorage.RainblockTrie.Everywhere
import AuthStorage.RainblockTrie.RoundTrip

namespace AuthStorage.RainblockTrie

open AuthStorage.Lvmt (Bytes DBColumn)

variable {H : Type} [RlpHasher H]

/-! ### Nodes that a commit passes by -/

/-- A commit does not visit the node. -/
def Cells.Settled (cells : Cells H) : Prop := cells.commited = .committed ∨ cells.commited = .light

instance (cells : Cells H) : Decidable cells.Settled := inferInstanceAs (Decidable (_ ∨ _))

namespace ChildRef

/-- A child in memory takes fewer than 32 bytes. -/
def Small : ChildRef H → Prop
  | .owned me => me.getRlpEncode.length < 32
  | _ => True

instance : (child : ChildRef H) → Decidable child.Small
  | .null => inferInstanceAs (Decidable True)
  | .ref _ => inferInstanceAs (Decidable True)
  | .owned me => inferInstanceAs (Decidable (me.getRlpEncode.length < 32))

/-- A child in memory is settled, with its encoding in its cell. -/
def Calm : ChildRef H → Prop
  | .owned me => me.cells.Settled ∧ me.cells.rlpEncode ≠ none
  | _ => True

end ChildRef

namespace TrieNodeExt

/-- The encoding is cached when it is said to be, and below a settled node all are settled. -/
structure Orderly (me : NodePtr H) : Prop where
  working : me.cells.commited = .working → me.cells.rlpEncode = none
  filled : me.cells.commited ≠ .working → me.cells.rlpEncode ≠ none
  pending : me.cells.commited = .pending → 32 ≤ me.getRlpEncode.length
  settled : me.cells.Settled → me.node.AllChildren ChildRef.Calm

/-- At the boundary and below it, a settled node holds a large child only if it is marked. -/
def Clear (N depth : Nat) (me : NodePtr H) : Prop :=
  me.cells.Settled → me.cells.loaded = false → N ≤ depth + 1 → me.node.AllChildren ChildRef.Small

instance (N depth : Nat) (me : NodePtr H) : Decidable (me.Clear N depth) :=
  inferInstanceAs (Decidable (_ → _ → _ → _))

/-- What holds of every node between two operations. -/
structure Layered (N depth : Nat) (me : NodePtr H) : Prop where
  orderly : me.Orderly
  clear : me.Clear N depth

end TrieNodeExt

/-- Everything is known about a digest. -/
abbrev anyDigest : H → Prop := fun _ => True

theorem TrieNodeExt.getRlpEncode_congr {first second : NodePtr H}
    (filled : second.cells.rlpEncode ≠ none) (same : first.cells.rlpEncode = second.cells.rlpEncode) :
    first.getRlpEncode = second.getRlpEncode := by
  obtain ⟨found, cached⟩ := Option.ne_none_iff_exists'.mp filled
  rw [TrieNodeExt.getRlpEncode_eq, TrieNodeExt.getRlpEncode_eq, same, cached]
  rfl

/-- A calm child stays small while its encoding stays in its cell. -/
theorem ChildRef.Calm.small {me after : NodePtr H} (calm : (ChildRef.owned me).Calm)
    (encoding : after.cells.rlpEncode = me.cells.rlpEncode) (small : (ChildRef.owned me).Small) :
    (ChildRef.owned after).Small := by
  show after.getRlpEncode.length < 32
  rw [TrieNodeExt.getRlpEncode_congr calm.2 encoding]
  exact small

omit [RlpHasher H] in
theorem Cells.Settled.not_working {cells : Cells H} (settled : cells.Settled) :
    cells.commited ≠ .working := by
  rcases settled with committed | light
  · rw [committed]
    decide
  · rw [light]
    decide

/-- A node whose encoding is short has no large child, since that would take 33 bytes. -/
theorem TrieNode.small_of_short {node : TrieNode (ChildRef H)} (short : node.rlpBytes.length < 32) :
    node.AllChildren ChildRef.Small := by
  refine node.length_rlpAppend_lt.imp fun child inside => ?_
  cases child with
  | null => trivial
  | ref found => trivial
  | owned me =>
    by_contra large
    have large : ¬ me.getRlpEncode.length < 32 := large
    rw [ChildRef.rlpAppend_owned, if_neg large] at inside
    have long := Rlp.length_lt_length_string (one_lt_length_toBytes me.hash)
    have wide := RlpHasher.le_length_toBytes me.hash
    omega

/-! ### Nodes as they are loaded -/

/-- A child in an encoding is absent, a digest, or embedded with its own encoding. -/
theorem embedded_of_decodeWith {decode : Bytes → Option (TrieNode (ChildRef H))}
    {property : ChildRef H → Prop} (null : property .null) (ref : ∀ found, property (.ref found))
    (embedded : ∀ rlp node, rlp.length < 32 → decode rlp = some node →
      property (.owned ⟨node, .light rlp⟩))
    {rlp : Bytes} {child : ChildRef H} (done : ChildRef.decodeWith decode rlp = some child) :
    property child := by
  rw [ChildRef.decodeWith] at done
  split at done
  · cases done
    exact null
  split at done
  · obtain ⟨node, decoded, done⟩ := Option.bind_eq_some_iff.mp done
    split at done
    · next short =>
      cases done
      exact embedded rlp node short decoded
    · cases done
  · obtain ⟨found, -, rfl⟩ := Option.map_eq_some_iff.mp done
    exact ref found

/-- All children of a decoded node are embedded ones. -/
theorem children_of_decode {depth : Nat} {rlp : Bytes} {node : TrieNode (ChildRef H)}
    {property : ChildRef H → Prop}
    (each : ∀ item child, ChildRef.decodeWith (TrieNode.decode depth) item = some child →
      property child)
    (done : TrieNode.decode (depth + 1) rlp = some node) : node.AllChildren property := by
  rw [TrieNode.decode] at done
  split at done
  · next items view =>
    dsimp only at done
    split at done
    · obtain ⟨item, -, done⟩ := Option.bind_eq_some_iff.mp done
      obtain ⟨⟨key, isLeaf⟩, -, done⟩ := Option.bind_eq_some_iff.mp done
      dsimp only at done
      split at done
      · obtain ⟨value, -, done⟩ := Option.bind_eq_some_iff.mp done
        cases done
        trivial
      · obtain ⟨child, decoded, done⟩ := Option.bind_eq_some_iff.mp done
        cases done
        exact each _ child decoded
    split at done
    · split at done
      · next all =>
        obtain ⟨value, -, rfl⟩ := Option.map_eq_some_iff.mp done
        intro index
        obtain ⟨child, decoded⟩ := Option.isSome_iff_exists.mp (all index)
        dsimp only
        rw [decoded]
        exact each _ child decoded
      · cases done
    · cases done
  · cases done

/-- A child as it comes out of an encoding. -/
structure ChildRef.Embedded (N depth : Nat) (child : ChildRef H) : Prop where
  calm : child.Calm
  small : child.Small
  layered : child.Everywhere (TrieNodeExt.Layered N) anyDigest depth

theorem embedded_of_decode (N : Nat) {fuel : Nat} {rlp : Bytes} {node : TrieNode (ChildRef H)}
    (done : TrieNode.decode fuel rlp = some node) (depth : Nat) :
    node.AllChildren (ChildRef.Embedded N depth) := by
  induction fuel generalizing rlp node depth with
  | zero => cases done
  | succ fuel inductionHypothesis =>
    refine children_of_decode (fun item child decoded => ?_) done
    refine embedded_of_decodeWith ⟨trivial, trivial, trivial⟩
      (fun found => ⟨trivial, trivial, trivial⟩) (fun rlp' node' short decoded' => ?_) decoded
    have below := inductionHypothesis decoded' (depth + 1)
    have encoding : (⟨node', .light rlp'⟩ : NodePtr H).getRlpEncode = rlp' := by
      rw [TrieNodeExt.getRlpEncode_eq]
      rfl
    refine ⟨⟨.inr rfl, fun missing => by cases missing⟩, by rwa [← encoding] at short,
      ChildRef.everywhere_owned_iff.mpr
        ⟨⟨⟨?_, ?_, ?_, ?_⟩, ?_⟩, below.imp fun _ each => each.layered⟩⟩
    · exact fun no => by cases no
    · exact fun _ missing => by cases missing
    · exact fun no => by cases no
    · exact fun _ => below.imp fun _ each => each.calm
    · exact fun _ _ _ => below.imp fun _ each => each.small

theorem layered_of_load (N : Nat) {db : DBColumn} {found : H} {me : NodePtr H}
    (done : TrieNodeExt.load db found = .ok me) (depth : Nat) :
    me.Everywhere (TrieNodeExt.Layered N) anyDigest depth ∧ me.cells.Settled := by
  rw [TrieNodeExt.load] at done
  split at done
  · cases done
  · obtain ⟨node, decoded, done⟩ := bind_eq_ok.mp done
    cases done
    have below := embedded_of_decode N (expect_eq_ok.mp decoded) (depth + 1)
    refine ⟨TrieNodeExt.everywhere_iff.mpr ⟨⟨⟨?_, ?_, ?_, ?_⟩, ?_⟩,
      below.imp fun _ each => each.layered⟩, .inl rfl⟩
    · exact fun no => by cases no
    · exact fun _ missing => by cases missing
    · exact fun no => by cases no
    · exact fun _ => below.imp fun _ each => each.calm
    · exact fun _ _ _ => below.imp fun _ each => each.small

/-! ### Reads and writes -/

/-- Opening references below a node does not touch its cells, up to the mark. -/
theorem Opens.cells {N : Nat} {db : DBColumn} {depth : Nat} {me after : NodePtr H}
    (opens : Opens N db depth me after) :
    after.cells.commited = me.cells.commited ∧ after.cells.rlpEncode = me.cells.rlpEncode := by
  cases opens with
  | refl => exact ⟨rfl, rfl⟩
  | child => exact ⟨rfl, rfl⟩

/-- A settled node has its encoding in its cell. -/
theorem TrieNodeExt.Orderly.filled_of_settled {me : NodePtr H} (orderly : me.Orderly)
    (settled : me.cells.Settled) : me.cells.rlpEncode ≠ none :=
  orderly.filled settled.not_working

/-- The node is of the same status and encoding, with other children. -/
theorem TrieNodeExt.Orderly.setNode {me after : NodePtr H} (orderly : me.Orderly)
    (status : after.cells.commited = me.cells.commited)
    (encoding : after.cells.rlpEncode = me.cells.rlpEncode)
    (calm : me.cells.Settled → after.node.AllChildren ChildRef.Calm) : after.Orderly := by
  refine ⟨fun working => ?_, fun other => ?_, fun pending => ?_, fun settled => ?_⟩
  · rw [encoding]
    exact orderly.working (status ▸ working)
  · rw [encoding]
    exact orderly.filled (status ▸ other)
  · rw [status] at pending
    have filled := orderly.filled (by rw [pending]; decide)
    rw [TrieNodeExt.getRlpEncode_congr filled encoding]
    exact orderly.pending pending
  · exact calm (by rwa [Cells.Settled, status] at settled)

theorem Opens.layered {N : Nat} {db : DBColumn} {depth : Nat} {me after : NodePtr H}
    (opens : Opens N db depth me after)
    (holds : me.Everywhere (TrieNodeExt.Layered N) anyDigest depth) :
    after.Everywhere (TrieNodeExt.Layered N) anyDigest depth := by
  induction opens with
  | refl => exact holds
  | @child depth me index before child after isLoaded node found held below set
      inductionHypothesis =>
    obtain ⟨⟨orderly, clear⟩, children⟩ := TrieNodeExt.everywhere_iff.mp holds
    have childHolds : child.Everywhere (TrieNodeExt.Layered N) anyDigest (depth + 1) := by
      have beforeHolds := children.childAt found
      cases held with
      | owned => exact ChildRef.everywhere_owned.mp beforeHolds
      | loaded stored => exact (layered_of_load N stored _).1
    obtain ⟨sameStatus, sameEncoding⟩ := below.cells
    have calm : me.cells.Settled → child.cells.Settled := by
      intro settled
      cases held with
      | owned => exact ((orderly.settled settled).childAt found).1
      | loaded stored => exact (layered_of_load N stored 0).2
    have childOrderly := (TrieNodeExt.everywhere_iff.mp childHolds).1.orderly
    refine TrieNodeExt.everywhere_iff.mpr ⟨⟨orderly.setNode rfl rfl fun settled => ?_, ?_⟩, ?_⟩
    · refine (orderly.settled settled).others.all set ?_
      show after.cells.Settled ∧ after.cells.rlpEncode ≠ none
      rw [Cells.Settled, sameStatus, sameEncoding]
      exact ⟨calm settled, childOrderly.filled_of_settled (calm settled)⟩
    · intro settled unmarked boundary
      obtain ⟨unmarkedBefore, notLoaded⟩ := Bool.or_eq_false_iff.mp unmarked
      have small := clear settled unmarkedBefore boundary
      refine small.others.all set ?_
      cases held with
      | owned =>
        show after.getRlpEncode.length < 32
        rw [TrieNodeExt.getRlpEncode_congr (childOrderly.filled_of_settled (calm settled))
          sameEncoding]
        exact small.childAt found
      | loaded stored =>
        -- a node loaded here marks its parent
        rw [Bool.true_and, decide_eq_false_iff_not] at notLoaded
        exact absurd boundary notLoaded
    · exact children.others.all set
        (ChildRef.everywhere_owned.mpr (inductionHypothesis childHolds))

theorem survives_layered (N : Nat) (db : DBColumn) :
    Survives N db (TrieNodeExt.Layered (H := H) N) anyDigest where
  working depth node := by
    refine ⟨⟨fun _ => rfl, fun other => absurd rfl other, fun no => (by cases no), ?_⟩, ?_⟩
    · exact fun settled => absurd rfl settled.not_working
    · exact fun settled => absurd rfl settled.not_working
  loads found me depth _ done := (layered_of_load N done depth).1
  opens depth me after opens holds := opens.layered holds
  rises depth me layered :=
    ⟨layered.orderly, fun settled unmarked boundary =>
      layered.clear settled unmarked (Nat.le_succ_of_le boundary)⟩

/-! ### Filling the cells -/

/-- The digest and the mark for exile do not matter. -/
theorem TrieNodeExt.Layered.setCells {N depth : Nat} {me : NodePtr H} (layered : me.Layered N depth)
    {cells : Cells H} (status : cells.commited = me.cells.commited)
    (encoding : cells.rlpEncode = me.cells.rlpEncode) (loaded : cells.loaded = me.cells.loaded) :
    (⟨me.node, cells⟩ : NodePtr H).Layered N depth := by
  refine ⟨layered.orderly.setNode status encoding layered.orderly.settled,
    fun settled unmarked boundary => ?_⟩
  rw [Cells.Settled, status] at settled
  exact layered.clear settled (loaded ▸ unmarked) boundary

theorem TrieNodeExt.Everywhere.setCells {N depth : Nat} {me : NodePtr H}
    (holds : me.Everywhere (TrieNodeExt.Layered N) anyDigest depth) {cells : Cells H}
    (status : cells.commited = me.cells.commited)
    (encoding : cells.rlpEncode = me.cells.rlpEncode) (loaded : cells.loaded = me.cells.loaded) :
    (⟨me.node, cells⟩ : NodePtr H).Everywhere (TrieNodeExt.Layered N) anyDigest depth := by
  obtain ⟨layered, children⟩ := TrieNodeExt.everywhere_iff.mp holds
  exact TrieNodeExt.everywhere_iff.mpr ⟨layered.setCells status encoding loaded, children⟩

theorem TrieNodeExt.getRlpEncode_of_some {me : NodePtr H} {encoding : Bytes}
    (cached : me.cells.rlpEncode = some encoding) : me.getRlpEncode = encoding := by
  rw [TrieNodeExt.getRlpEncode_eq, cached]
  rfl

/-- With the encoding in its cell, a node only gets its digest. -/
theorem TrieNodeExt.fillHash_of_some {me : NodePtr H} {encoding : Bytes}
    (cached : me.cells.rlpEncode = some encoding) :
    me.fillHash = ⟨me.node, { me.cells with hash := some me.hash }⟩ := by
  rw [TrieNodeExt.fillHash]
  cases hashed : me.cells.hash with
  | none => rw [TrieNodeExt.fillRlp_of_some cached]
  | some found =>
    obtain ⟨node, cells⟩ := me
    dsimp only at hashed
    rw [TrieNodeExt.hash]
    dsimp only
    rw [hashed, Option.getD_some, ← hashed]

theorem TrieNodeExt.fillRlp_fillHash_of_some {me : NodePtr H} {encoding : Bytes}
    (cached : me.cells.rlpEncode = some encoding) :
    me.fillHash.fillRlp = ⟨me.node, { me.cells with hash := some me.hash }⟩ := by
  have kept : me.fillHash.cells.rlpEncode = some encoding := by
    rw [TrieNodeExt.fillHash_of_some cached]
    exact cached
  rw [TrieNodeExt.fillRlp_of_some kept, TrieNodeExt.fillHash_of_some cached]

/-- What filling does to a child. -/
structure ChildRef.Fills (N depth : Nat) (child after : ChildRef H) : Prop where
  layered : after.Everywhere (TrieNodeExt.Layered N) anyDigest depth
  calm : child.Calm → after.Calm
  small : child.Small → after.Small ∧ after.Calm

/-- What filling does to a node. -/
structure TrieNodeExt.Fills (N depth : Nat) (me after : NodePtr H) : Prop where
  layered : after.Everywhere (TrieNodeExt.Layered N) anyDigest depth
  encoding : after.cells.rlpEncode = some me.getRlpEncode
  settled : me.cells.Settled → after.cells.Settled
  short : me.getRlpEncode.length < 32 → after.cells.Settled

theorem TrieNodeExt.fillRlp_fills_of_children {N depth : Nat} {me : NodePtr H}
    (holds : me.Everywhere (TrieNodeExt.Layered N) anyDigest depth)
    (each : me.node.AllChildren fun child => child.Fills N (depth + 1) child.fill) :
    me.Fills N depth me.fillRlp := by
  obtain ⟨⟨orderly, clear⟩, children⟩ := TrieNodeExt.everywhere_iff.mp holds
  cases cached : me.cells.rlpEncode with
  | some encoding =>
    rw [TrieNodeExt.fillRlp_of_some cached]
    have same := TrieNodeExt.getRlpEncode_of_some cached
    refine ⟨holds, by rw [same, cached], id, fun short => ?_⟩
    cases state : me.cells.commited with
    | committed => exact .inl state
    | light => exact .inr state
    | pending => exact absurd (orderly.pending state) (Nat.not_le.mpr short)
    | working =>
      rw [orderly.working state] at cached
      cases cached
  | none =>
    have working : me.cells.commited = .working := by
      by_contra other
      exact orderly.filled other cached
    have same : me.getRlpEncode = me.node.rlpBytes := by
      rw [TrieNodeExt.getRlpEncode_eq, cached]
      rfl
    rw [TrieNodeExt.fillRlp_of_none cached]
    have below : me.node.rlpBytes.length < 32 →
        (me.node.mapChildren ChildRef.fill).AllChildren fun child => child.Small ∧ child.Calm :=
      fun short => TrieNode.allChildren_mapChildren.mpr
        (((TrieNode.small_of_short short).and each).imp fun _ both => both.2.small both.1)
    have everywhere : (me.node.mapChildren ChildRef.fill).AllChildren
        (ChildRef.Everywhere (TrieNodeExt.Layered N) anyDigest (depth + 1)) :=
      TrieNode.allChildren_mapChildren.mpr (each.imp fun _ fills => fills.layered)
    by_cases short : me.node.rlpBytes.length < 32
    · rw [if_pos short]
      refine ⟨TrieNodeExt.everywhere_iff.mpr ⟨⟨⟨fun no => (by cases no),
        fun _ missing => (by cases missing), fun no => (by cases no), fun _ => ?_⟩, ?_⟩, everywhere⟩,
        congrArg some same.symm, fun _ => .inr rfl, fun _ => .inr rfl⟩
      · exact (below short).imp fun _ both => both.2
      · exact fun _ _ _ => (below short).imp fun _ both => both.1
    · rw [if_neg short]
      have pending : ¬ (Cells.Settled { me.cells with
          rlpEncode := some me.node.rlpBytes, commited := .pending }) := by
        rintro (no | no) <;> cases no
      refine ⟨TrieNodeExt.everywhere_iff.mpr ⟨⟨⟨fun no => (by cases no),
        fun _ missing => (by cases missing), fun _ => ?_, fun settled => absurd settled pending⟩,
        fun settled => absurd settled pending⟩, everywhere⟩,
        congrArg some same.symm, fun settled => absurd working settled.not_working,
        fun no => absurd (same ▸ no) short⟩
      rw [TrieNodeExt.getRlpEncode_of_some rfl]
      exact Nat.le_of_not_lt short

theorem ChildRef.fills {N depth : Nat} {child : ChildRef H}
    (holds : child.Everywhere (TrieNodeExt.Layered N) anyDigest depth) :
    child.Fills N depth child.fill := by
  induction child using ChildRef.induction generalizing depth with
  | null => exact ⟨trivial, id, fun _ => ⟨trivial, trivial⟩⟩
  | ref found => exact ⟨trivial, id, fun _ => ⟨trivial, trivial⟩⟩
  | owned me inductionHypothesis =>
    have holdsMe := ChildRef.everywhere_owned.mp holds
    have each := inductionHypothesis.and (TrieNodeExt.everywhere_iff.mp holdsMe).2
    obtain ⟨layered, encoding, settled, short⟩ :=
      TrieNodeExt.fillRlp_fills_of_children holdsMe (each.imp fun _ both => both.1 both.2)
    have filled : me.fillRlp.cells.rlpEncode ≠ none := by
      rw [encoding]
      exact Option.some_ne_none _
    have same := TrieNodeExt.getRlpEncode_of_some encoding
    rw [ChildRef.fill]
    split
    · next small =>
      refine ⟨ChildRef.everywhere_owned.mpr layered, fun calm => ⟨settled calm.1, filled⟩,
        fun _ => ⟨?_, short small, filled⟩⟩
      show me.fillRlp.getRlpEncode.length < 32
      rwa [same]
    · next large =>
      exact ⟨ChildRef.everywhere_owned.mpr (layered.setCells rfl rfl rfl),
        fun calm => ⟨settled calm.1, filled⟩, fun small => absurd small large⟩

theorem TrieNodeExt.fillRlp_fills {N depth : Nat} {me : NodePtr H}
    (holds : me.Everywhere (TrieNodeExt.Layered N) anyDigest depth) :
    me.Fills N depth me.fillRlp :=
  TrieNodeExt.fillRlp_fills_of_children holds
    ((TrieNodeExt.everywhere_iff.mp holds).2.imp fun _ => ChildRef.fills)

theorem TrieNodeExt.fillHash_layered {N depth : Nat} {me : NodePtr H}
    (holds : me.Everywhere (TrieNodeExt.Layered N) anyDigest depth) :
    me.fillHash.Everywhere (TrieNodeExt.Layered N) anyDigest depth := by
  rw [TrieNodeExt.fillHash]
  split
  · exact holds
  · exact (TrieNodeExt.fillRlp_fills holds).layered.setCells rfl rfl rfl

/-! ### Exile -/

/-- Marking nodes for exile leaves their status and their encodings. -/
theorem ChildRef.exile_layered {N depth : Nat} (base : Nat) {child : ChildRef H}
    (holds : child.Everywhere (TrieNodeExt.Layered N) anyDigest depth) :
    (child.exile N base).Everywhere (TrieNodeExt.Layered N) anyDigest depth ∧
      (child.Calm → (child.exile N base).Calm ∧ (child.Small → (child.exile N base).Small)) := by
  induction child using ChildRef.induction generalizing base depth with
  | null => exact ⟨trivial, fun _ => ⟨trivial, id⟩⟩
  | ref found => exact ⟨trivial, fun _ => ⟨trivial, id⟩⟩
  | owned me inductionHypothesis =>
    have holdsMe := ChildRef.everywhere_owned.mp holds
    obtain ⟨⟨orderly, clear⟩, children⟩ := TrieNodeExt.everywhere_iff.mp holdsMe
    show ChildRef.Everywhere _ _ _ (.owned (me.exile N base)) ∧
      (_ → ChildRef.Calm (.owned (me.exile N base)) ∧ (_ → ChildRef.Small (.owned (me.exile N base))))
    rw [TrieNodeExt.exile_eq]
    split
    · exact ⟨holds, fun calm => ⟨calm, id⟩⟩
    split
    · exact ⟨ChildRef.everywhere_owned.mpr (holdsMe.setCells rfl rfl rfl),
        fun calm => ⟨calm, calm.small rfl⟩⟩
    · have each := (inductionHypothesis.and children).imp
        fun _ both => both.1 (base + 1) both.2
      refine ⟨ChildRef.everywhere_owned_iff.mpr
        ⟨⟨orderly.setNode rfl rfl fun settled => ?_, fun settled unmarked boundary => ?_⟩, ?_⟩,
        fun calm => ⟨calm, calm.small rfl⟩⟩
      · exact TrieNode.allChildren_mapChildren.mpr
          ((each.and (orderly.settled settled)).imp fun _ both => (both.1.2 both.2).1)
      · exact TrieNode.allChildren_mapChildren.mpr
          (((each.and (orderly.settled settled)).and (clear settled unmarked boundary)).imp
            fun _ both => (both.1.1.2 both.1.2).2 both.2)
      · exact TrieNode.allChildren_mapChildren.mpr (each.imp fun _ both => both.1)

/-- Emptying the list of exiled nodes leaves the status and the encodings of settled nodes. -/
theorem TrieNodeExt.drainExiled_layered_of_children {N depth : Nat} {me : NodePtr H}
    (holds : me.Everywhere (TrieNodeExt.Layered N) anyDigest depth)
    (each : me.node.AllChildren fun child =>
      child.drainExiled.1.Everywhere (TrieNodeExt.Layered N) anyDigest (depth + 1) ∧
        (child.Calm → child.drainExiled.1.Calm ∧ (child.Small → child.drainExiled.1.Small))) :
    me.drainExiled.1.Everywhere (TrieNodeExt.Layered N) anyDigest depth ∧
      (me.cells.Settled → me.drainExiled.1.cells.Settled ∧
        me.drainExiled.1.cells.rlpEncode = me.cells.rlpEncode) := by
  obtain ⟨⟨orderly, clear⟩, children⟩ := TrieNodeExt.everywhere_iff.mp holds
  have below : (⟨me.node.drainExiledChildren.1, { me.cells with exiled := false }⟩ :
      NodePtr H).Everywhere (TrieNodeExt.Layered N) anyDigest depth := by
    rw [TrieNode.drainExiledChildren_result]
    refine TrieNodeExt.everywhere_iff.mpr ⟨⟨orderly.setNode rfl rfl fun settled => ?_,
      fun settled unmarked boundary => ?_⟩, ?_⟩
    · exact TrieNode.allChildren_mapChildren.mpr
        ((each.and (orderly.settled settled)).imp fun _ both => (both.1.2 both.2).1)
    · exact TrieNode.allChildren_mapChildren.mpr
        (((each.and (orderly.settled settled)).and (clear settled unmarked boundary)).imp
          fun _ both => (both.1.1.2 both.1.2).2 both.2)
    · exact TrieNode.allChildren_mapChildren.mpr (each.imp fun _ both => both.1)
  rw [TrieNodeExt.drainExiled_eq]
  dsimp only
  split
  · refine ⟨(TrieNodeExt.fillRlp_fills (TrieNodeExt.fillHash_layered below)).layered,
      fun settled => ?_⟩
    obtain ⟨encoding, cached⟩ := Option.ne_none_iff_exists'.mp (orderly.filled_of_settled settled)
    have unmarked : (⟨me.node.drainExiledChildren.1, { me.cells with exiled := false }⟩ :
        NodePtr H).cells.rlpEncode = some encoding := cached
    rw [TrieNodeExt.fillRlp_fillHash_of_some unmarked]
    exact ⟨settled, rfl⟩
  · exact ⟨below.setCells rfl rfl rfl, fun settled => ⟨settled, rfl⟩⟩

theorem ChildRef.drainExiled_layered {N depth : Nat} {child : ChildRef H}
    (holds : child.Everywhere (TrieNodeExt.Layered N) anyDigest depth) :
    child.drainExiled.1.Everywhere (TrieNodeExt.Layered N) anyDigest depth ∧
      (child.Calm → child.drainExiled.1.Calm ∧ (child.Small → child.drainExiled.1.Small)) := by
  induction child using ChildRef.induction generalizing depth with
  | null => exact ⟨trivial, fun _ => ⟨trivial, id⟩⟩
  | ref found => exact ⟨trivial, fun _ => ⟨trivial, id⟩⟩
  | owned me inductionHypothesis =>
    have holdsMe := ChildRef.everywhere_owned.mp holds
    have each := inductionHypothesis.and (TrieNodeExt.everywhere_iff.mp holdsMe).2
    obtain ⟨layered, settled⟩ := TrieNodeExt.drainExiled_layered_of_children holdsMe
      (each.imp fun _ both => both.1 both.2)
    refine ⟨ChildRef.everywhere_owned.mpr layered, fun calm => ?_⟩
    obtain ⟨settledAfter, encoding⟩ := settled calm.1
    exact ⟨⟨settledAfter, encoding ▸ calm.2⟩, calm.small encoding⟩

theorem TrieNodeExt.drainExiled_layered {N depth : Nat} {me : NodePtr H}
    (holds : me.Everywhere (TrieNodeExt.Layered N) anyDigest depth) :
    me.drainExiled.1.Everywhere (TrieNodeExt.Layered N) anyDigest depth :=
  (TrieNodeExt.drainExiled_layered_of_children holds
    ((TrieNodeExt.everywhere_iff.mp holds).2.imp fun _ => ChildRef.drainExiled_layered)).1

end AuthStorage.RainblockTrie
