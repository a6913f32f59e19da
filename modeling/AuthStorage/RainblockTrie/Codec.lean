/-
This file relates the stored form of a node to the trie it stands for. The
encoding of a trie is defined once for all its states in memory: a subtrie is
embedded or replaced by its digest. Decoding the encoding gives the node back,
with the children that are embedded in memory and the others known by digest.
-/

import AuthStorage.Library.RadixTrie
import AuthStorage.RainblockTrie.TrieNode

namespace AuthStorage.RainblockTrie

open AuthStorage.Lvmt (Bytes)

/-! ### Decoding what was encoded -/

section

variable {H : Type} [RlpHasher H]

theorem one_lt_length_toBytes (digest : H) : 1 < (RlpHasher.toBytes digest).length :=
  lt_of_lt_of_le (by norm_num) (RlpHasher.le_length_toBytes digest)

theorem ChildRef.decodeWith_digest (decode : Bytes → Option (TrieNode (ChildRef H)))
    (digest : H) :
    ChildRef.decodeWith decode (Rlp.string (RlpHasher.toBytes digest)) = some (.ref digest) := by
  have long := one_lt_length_toBytes digest
  rw [ChildRef.decodeWith, if_neg (by rw [Rlp.isEmpty_string long]; decide),
    if_neg (by rw [Rlp.isList_string long]; decide), Rlp.data_string, Option.bind_some,
    RlpHasher.fromBytes_toBytes, Option.map_some]

/-- A short list of items is an embedded node. -/
theorem ChildRef.decodeWith_embedded {decode : Bytes → Option (TrieNode (ChildRef H))}
    {items : List Bytes} (nonempty : items.flatten ≠ []) (short : (Rlp.list items).length < 32)
    {node : TrieNode (ChildRef H)} (decoded : decode (Rlp.list items) = some node) :
    ChildRef.decodeWith decode (Rlp.list items) =
      some (.owned ⟨node, .light (Rlp.list items)⟩) := by
  rw [ChildRef.decodeWith, if_neg (by rw [Rlp.isEmpty_list nonempty]; decide),
    if_pos (Rlp.isList_list items), decoded, Option.bind_some, if_pos short]

theorem TrieNode.decode_leaf (depth : Nat) (key : List Nibble) (value : Bytes) :
    TrieNode.decode (depth + 1) (Rlp.list [Rlp.string (toMptKey key true), Rlp.string value]) =
      some (.leaf key value : TrieNode (ChildRef H)) := by
  have viewed : Rlp.view (Rlp.list [Rlp.string (toMptKey key true), Rlp.string value]) =
      some (.list [Rlp.string (toMptKey key true), Rlp.string value]) := by
    refine Rlp.view_list fun item member => ?_
    simp only [List.mem_cons, List.not_mem_nil, or_false] at member
    rcases member with rfl | rfl <;> exact Rlp.isItem_string _
  rw [TrieNode.decode, viewed]
  simp [Rlp.data_string, fromMptKey_toMptKey]

theorem TrieNode.decode_extension {depth : Nat} (key : List Nibble) {item : Bytes}
    (whole : Rlp.IsItem item) {child : ChildRef H}
    (decoded : ChildRef.decodeWith (TrieNode.decode depth) item = some child) :
    TrieNode.decode (depth + 1) (Rlp.list [Rlp.string (toMptKey key false), item]) =
      some (.extension key child) := by
  have viewed : Rlp.view (Rlp.list [Rlp.string (toMptKey key false), item]) =
      some (.list [Rlp.string (toMptKey key false), item]) := by
    refine Rlp.view_list fun other member => ?_
    simp only [List.mem_cons, List.not_mem_nil, or_false] at member
    rcases member with rfl | rfl
    · exact Rlp.isItem_string _
    · exact whole
  rw [TrieNode.decode, viewed]
  simp [Rlp.data_string, fromMptKey_toMptKey, decoded]

/-- A branch, from its items: one for each child and one for the value. -/
theorem TrieNode.decode_branch {depth : Nat} {item : Nibble → Bytes}
    (whole : ∀ index, Rlp.IsItem (item index)) {children : Nibble → ChildRef H}
    (decoded : ∀ index,
      ChildRef.decodeWith (TrieNode.decode depth) (item index) = some (children index))
    (value : Bytes) :
    TrieNode.decode (depth + 1) (Rlp.list ((List.finRange 16).map item ++ [Rlp.string value])) =
      some (.branch children value) := by
  obtain ⟨items, same⟩ : ∃ items, items = (List.finRange 16).map item ++ [Rlp.string value] :=
    ⟨_, rfl⟩
  have viewed : Rlp.view (Rlp.list items) = some (.list items) := by
    refine Rlp.view_list fun other member => ?_
    rw [same] at member
    rcases List.mem_append.mp member with child | last
    · obtain ⟨index, -, rfl⟩ := List.mem_map.mp child
      exact whole index
    · rw [List.mem_singleton.mp last]
      exact Rlp.isItem_string _
  have count : items.length = 17 := by
    rw [same, List.length_append, List.length_map, List.length_finRange]
    rfl
  have at_index : ∀ index : Nibble, items.getD index.val [] = item index := by
    intro index
    rw [same, List.getD_append _ _ _ _ (by simp), List.getD_eq_getElem _ _ (by simp)]
    simp
  have at_value : items.getD 16 [] = Rlp.string value := by
    rw [same, List.getD_append_right _ _ _ _ (by simp)]
    simp
  rw [← same, TrieNode.decode, viewed]
  dsimp only
  rw [if_neg (by omega), if_pos count, if_pos (fun index => by rw [at_index, decoded]; rfl),
    at_value, Rlp.data_string, Option.map_some]
  simp only [at_index, decoded, Option.getD_some]

end

/-! ### The trie and its encoding -/

/-- Writing an empty value deletes, so the values of a trie are not empty. -/
abbrev Value := { bytes : Bytes // bytes ≠ [] }

/-- The trie that a tree stands for. -/
abbrev Trie := RadixTrie Nibble Value

/-- The value field of a branch, empty for no value. -/
def valueBytes : Option Value → Bytes
  | some value => value.val
  | none => []

theorem valueBytes_eq_nil {value : Option Value} : valueBytes value = [] ↔ value = none := by
  cases value with
  | none => exact ⟨fun _ => rfl, fun _ => rfl⟩
  | some value => exact ⟨fun empty => absurd empty value.property, fun absent => by cases absent⟩

theorem valueBytes_injective : Function.Injective valueBytes := by
  intro first second same
  cases first with
  | none => exact (valueBytes_eq_nil.mp same.symm).symm
  | some first =>
    cases second with
    | none => exact absurd same first.property
    | some second => exact congrArg some (Subtype.ext same)

variable (H : Type) [RlpHasher H]

/-- A node inside its parent: whole if it is short, by its digest otherwise. -/
def embed (encoding : Bytes) : Bytes :=
  if encoding.length < 32 then encoding
  else Rlp.string (RlpHasher.toBytes (RlpHasher.hash encoding : H))

/-- The encoding of a trie, with large subtries by their digests. -/
def encode : Trie → Bytes
  | .empty => Rlp.string []
  | .leaf key value => Rlp.list [Rlp.string (toMptKey key true), Rlp.string value.val]
  | .branch children value =>
    Rlp.list ((List.finRange 16).map (fun index => embed H (encode (children index))) ++
      [Rlp.string (valueBytes value)])
  | .extension key child =>
    Rlp.list [Rlp.string (toMptKey key false), embed H (encode child)]

variable {H}

/-- The hash of the encoding, under which a large trie is stored. -/
def digest (trie : Trie) : H := RlpHasher.hash (encode H trie)

/-! ### What a stored trie looks like after loading -/

/-- A child as its parent's encoding gives it. -/
def embedRef (node : TrieNode (ChildRef H)) (encoding : Bytes) : ChildRef H :=
  if encoding.length < 32 then .owned ⟨node, .light encoding⟩ else .ref (RlpHasher.hash encoding)

/-- A trie as a child that was just loaded: in memory if it is short, by its digest otherwise. -/
def stub : Trie → ChildRef H
  | .empty => .null
  | .leaf key value => embedRef (.leaf key value.val) (encode H (.leaf key value))
  | .branch children value =>
    embedRef (.branch (fun index => stub (children index)) (valueBytes value))
      (encode H (.branch children value))
  | .extension key child => embedRef (.extension key (stub child)) (encode H (.extension key child))

/-- The node a nonempty trie is decoded to. -/
def nodeOf : Trie → TrieNode (ChildRef H)
  | .empty => .leaf [] []
  | .leaf key value => .leaf key value.val
  | .branch children value => .branch (fun index => stub (children index)) (valueBytes value)
  | .extension key child => .extension key (stub child)

theorem stub_eq {trie : Trie} (nonempty : trie ≠ .empty) :
    (stub trie : ChildRef H) = embedRef (nodeOf trie) (encode H trie) := by
  cases trie with
  | empty => exact absurd rfl nonempty
  | leaf key value => rfl
  | branch children value => rfl
  | extension key child => rfl

/-! ### Items -/

theorem isItem_encode (trie : Trie) : Rlp.IsItem (encode H trie) := by
  cases trie with
  | empty => exact Rlp.isItem_string []
  | leaf key value => exact Rlp.isItem_list _
  | branch children value => exact Rlp.isItem_list _
  | extension key child => exact Rlp.isItem_list _

theorem isItem_embed (trie : Trie) : Rlp.IsItem (embed H (encode H trie)) := by
  rw [embed]
  split
  · exact isItem_encode trie
  · exact Rlp.isItem_string _

/-- The encoding of a nonempty trie is a nonempty list. -/
theorem encode_eq_list {trie : Trie} (nonempty : trie ≠ .empty) :
    ∃ items, encode H trie = Rlp.list items ∧ items.flatten ≠ [] := by
  have starts : ∀ (bytes : Bytes) (items : List Bytes),
      (Rlp.string bytes :: items).flatten ≠ [] := fun bytes items empty =>
    (Rlp.isItem_string bytes).1 (List.append_eq_nil_iff.mp empty).1
  cases trie with
  | empty => exact absurd rfl nonempty
  | leaf key value => exact ⟨_, rfl, starts _ _⟩
  | extension key child => exact ⟨_, rfl, starts _ _⟩
  | branch children value =>
    refine ⟨_, rfl, ?_⟩
    rw [List.flatten_append]
    exact fun empty => starts _ [] (List.append_eq_nil_iff.mp empty).2

/-- A digest takes more than 32 bytes in its parent. -/
theorem length_embed_of_large {encoding : Bytes} (large : ¬ encoding.length < 32) :
    32 < (embed H encoding).length := by
  have long := RlpHasher.le_length_toBytes (RlpHasher.hash encoding : H)
  rw [embed, if_neg large]
  have longer := Rlp.length_lt_length_string (show 1 < _ from lt_of_lt_of_le (by norm_num) long)
  omega

/-- The embedded children are items of the encoding. -/
theorem length_embed_lt_branch (children : Nibble → Trie) (value : Option Value)
    (index : Nibble) :
    (embed H (encode H (children index))).length < (encode H (.branch children value)).length :=
  Rlp.length_lt_length_list (List.mem_append_left _ (List.mem_map.mpr
    ⟨index, List.mem_finRange index, rfl⟩))

theorem length_embed_lt_extension (key : List Nibble) (child : Trie) :
    (embed H (encode H child)).length < (encode H (.extension key child)).length :=
  Rlp.length_lt_length_list (List.mem_cons_of_mem _ List.mem_cons_self)

/-! ### Decoding -/

theorem decodeWith_embed {decode : Bytes → Option (TrieNode (ChildRef H))} {trie : Trie}
    (decoded : trie ≠ .empty → (encode H trie).length < 32 →
      decode (encode H trie) = some (nodeOf trie)) :
    ChildRef.decodeWith decode (embed H (encode H trie)) = some (stub trie) := by
  by_cases nonempty : trie = .empty
  · subst nonempty
    rfl
  · rw [stub_eq nonempty, embed, embedRef]
    by_cases short : (encode H trie).length < 32
    · obtain ⟨items, same, someItem⟩ := encode_eq_list (H := H) nonempty
      have found := decoded nonempty short
      rw [if_pos short, if_pos short]
      rw [same] at short found ⊢
      exact ChildRef.decodeWith_embedded someItem short found
    · rw [if_neg short, if_neg short]
      exact ChildRef.decodeWith_digest _ _

/-- Decoding gives back what was encoded, with its children one level deep. -/
theorem decode_encode {trie : Trie} (nonempty : trie ≠ .empty) {depth : Nat}
    (enough : (encode H trie).length ≤ depth) :
    TrieNode.decode depth (encode H trie) = some (nodeOf trie : TrieNode (ChildRef H)) := by
  obtain ⟨depth, rfl⟩ : ∃ less, depth = less + 1 := by
    have positive := List.length_pos_of_ne_nil (isItem_encode (H := H) trie).1
    exact ⟨depth - 1, by omega⟩
  induction trie generalizing depth with
  | empty => exact absurd rfl nonempty
  | leaf key value => exact TrieNode.decode_leaf depth key value.val
  | extension key child inductionHypothesis =>
    refine TrieNode.decode_extension key (isItem_embed child) ?_
    refine decodeWith_embed fun nonemptyChild short => ?_
    have inside := length_embed_lt_extension (H := H) key child
    have positive := List.length_pos_of_ne_nil (isItem_encode (H := H) child).1
    rw [embed, if_pos short] at inside
    obtain ⟨less, rfl⟩ : ∃ less, depth = less + 1 := ⟨depth - 1, by omega⟩
    exact inductionHypothesis nonemptyChild less (by omega)
  | branch children value inductionHypothesis =>
    refine TrieNode.decode_branch (fun index => isItem_embed (children index)) (fun index => ?_) _
    refine decodeWith_embed fun nonemptyChild short => ?_
    have inside := length_embed_lt_branch (H := H) children value index
    have positive := List.length_pos_of_ne_nil (isItem_encode (H := H) (children index)).1
    rw [embed, if_pos short] at inside
    obtain ⟨less, rfl⟩ : ∃ less, depth = less + 1 := ⟨depth - 1, by omega⟩
    exact inductionHypothesis index nonemptyChild less (by omega)

theorem new_encode {trie : Trie} (nonempty : trie ≠ .empty) :
    TrieNode.new (encode H trie) = some (nodeOf trie : TrieNode (ChildRef H)) :=
  decode_encode nonempty le_rfl

/-! ### Different tries have different encodings -/

/-- A child is read back with its encoding or with its digest. -/
theorem encode_eq_of_stub [CollisionFree H] {first second : Trie}
    (same : (stub first : ChildRef H) = stub second) : encode H first = encode H second := by
  by_cases firstEmpty : first = .empty
  · subst firstEmpty
    by_cases secondEmpty : second = .empty
    · rw [secondEmpty]
    · rw [stub_eq secondEmpty, embedRef] at same
      split at same <;> cases same
  · rw [stub_eq firstEmpty, embedRef] at same
    by_cases secondEmpty : second = .empty
    · subst secondEmpty
      split at same <;> cases same
    · rw [stub_eq secondEmpty, embedRef] at same
      split at same <;> split at same
      · exact Option.some.inj (congrArg (fun cells => cells.rlpEncode)
          (TrieNodeExt.mk.inj (ChildRef.owned.inj same)).2)
      · cases same
      · cases same
      · exact CollisionFree.hash_injective (ChildRef.ref.inj same)

theorem isList_encode {trie : Trie} : Rlp.isList (encode H trie) = true ↔ trie ≠ .empty := by
  constructor
  · rintro list rfl
    rw [encode] at list
    exact absurd list (by decide)
  · intro nonempty
    obtain ⟨items, same, -⟩ := encode_eq_list (H := H) nonempty
    rw [same]
    exact Rlp.isList_list items

theorem encode_injective [CollisionFree H] : Function.Injective (encode H) := by
  have nodes : ∀ {first second : Trie}, first ≠ .empty → encode H first = encode H second →
      second ≠ .empty ∧ (nodeOf first : TrieNode (ChildRef H)) = nodeOf second := by
    intro first second nonempty same
    have nonempty' : second ≠ .empty := isList_encode.mp (same ▸ isList_encode.mpr nonempty)
    refine ⟨nonempty', ?_⟩
    rw [← Option.some.injEq, ← new_encode nonempty, ← new_encode nonempty', same]
  intro first second same
  induction first generalizing second with
  | empty =>
    by_contra different
    exact isList_encode.mp (same.symm ▸ isList_encode.mpr (Ne.symm different)) rfl
  | leaf key value =>
    obtain ⟨nonempty, read⟩ := nodes (fun empty => by cases empty) same
    cases second with
    | leaf key' value' =>
      injection read with sameKey sameValue
      rw [sameKey, Subtype.ext sameValue]
    | empty => exact absurd rfl nonempty
    | branch children value' => cases read
    | extension key' child => cases read
  | branch children value inductionHypothesis =>
    obtain ⟨nonempty, read⟩ := nodes (fun empty => by cases empty) same
    cases second with
    | branch children' value' =>
      injection read with sameChildren sameValue
      rw [valueBytes_injective sameValue]
      congr 1
      exact funext fun index =>
        inductionHypothesis index (encode_eq_of_stub (congrFun sameChildren index))
    | empty => exact absurd rfl nonempty
    | leaf key' value' => cases read
    | extension key' child => cases read
  | extension key child inductionHypothesis =>
    obtain ⟨nonempty, read⟩ := nodes (fun empty => by cases empty) same
    cases second with
    | extension key' child' =>
      injection read with sameKey sameChild
      rw [sameKey, inductionHypothesis (encode_eq_of_stub sameChild)]
    | empty => exact absurd rfl nonempty
    | leaf key' value' => cases read
    | branch children value' => cases read

end AuthStorage.RainblockTrie
