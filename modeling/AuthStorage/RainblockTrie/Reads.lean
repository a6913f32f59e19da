/-
This file follows whole runs of a tree. As long as every digest that is loaded is
stored, a run does not panic, and the trie holds what the writes of the run say. A
read returns what the last write of the key left, except at one kind of key: one
that was not written, or deleted, and where two keys that are present go on with
different nibbles. There the search ends at a branch without a value, and the read
returns an empty value instead of none.
-/

import AuthStorage.RainblockTrie.Represents

namespace AuthStorage.RainblockTrie

open AuthStorage.Lvmt (Bytes DBColumn)

variable {H : Type} [RlpHasher H]

/-! ### Runs -/

/-- The calls of the tree. -/
inductive Op
  | put (key val : Bytes)
  | get (key : Bytes)
  | commit
  | flushAll
  | root

/-- Empty keys are not supported. -/
def Op.Proper : Op → Prop
  | put key _ => key ≠ []
  | get key => key ≠ []
  | _ => True

namespace MerklePatriciaTree

/-- The tree after a call. -/
def step (N : Nat) (tree : MerklePatriciaTree H) : Op → Except (Panic H) (MerklePatriciaTree H)
  | .put key val => tree.put N key val
  | .get key => do
    let (_, tree) ← tree.get N key
    pure tree
  | .commit => do
    let (_, tree) ← tree.commit N
    pure tree
  | .flushAll => tree.flushAll N
  | .root => pure tree.rootHash.2

/-- The tree after the operations, from an empty store on. -/
def run (N : Nat) (ops : List Op) : Except (Panic H) (MerklePatriciaTree H) := do
  let tree ← new N DBColumn.empty
  ops.foldlM (step N) tree

/-- What a read returns after the operations. -/
def read (N : Nat) (ops : List Op) (key : Bytes) : Except (Panic H) (Option Bytes) := do
  let tree ← run (H := H) N ops
  let (found, _) ← tree.get N key
  pure found

end MerklePatriciaTree

/-! ### Contents -/

/-- What an operation does to the map from keys to values. -/
def Op.apply (contents : Bytes → Option Value) : Op → Bytes → Option Value
  | put key val => Function.update contents key (MerklePatriciaTree.written val)
  | _ => contents

/-- What the last write of each key left. -/
def contentsOf (ops : List Op) : Bytes → Option Value := ops.foldl Op.apply fun _ => none

/-- The map on byte keys, as a map on nibble lists. -/
def nibbleContents (contents : Bytes → Option Value) (nibbles : List Nibble) : Option Value :=
  if nibbles.length % 2 = 0 then contents (combinePairs nibbles) else none

theorem length_bytesToNibbleList (key : Bytes) :
    (bytesToNibbleList key).length = 2 * key.length := by
  induction key with
  | nil => rfl
  | cons x key inductionHypothesis =>
    rw [bytesToNibbleList_cons, List.length_cons, List.length_cons, inductionHypothesis,
      List.length_cons]
    omega

theorem combinePairs_bytesToNibbleList (key : Bytes) :
    combinePairs (bytesToNibbleList key) = key := by
  refine bytesToNibbleList_injective (bytesToNibbleList_combinePairs ?_)
  rw [length_bytesToNibbleList, Nat.mul_mod_right]

theorem nibbleContents_bytesToNibbleList (contents : Bytes → Option Value) (key : Bytes) :
    nibbleContents contents (bytesToNibbleList key) = contents key := by
  rw [nibbleContents, length_bytesToNibbleList, if_pos (Nat.mul_mod_right 2 key.length),
    combinePairs_bytesToNibbleList]

/-- Only the nibble lists of byte keys are present. -/
theorem exists_of_nibbleContents {contents : Bytes → Option Value} {nibbles : List Nibble}
    (present : nibbleContents contents nibbles ≠ none) :
    ∃ key, nibbles = bytesToNibbleList key ∧ contents key ≠ none := by
  rw [nibbleContents] at present
  split at present
  · next even => exact ⟨_, (bytesToNibbleList_combinePairs even).symm, present⟩
  · exact absurd rfl present

theorem nibbleContents_update (contents : Bytes → Option Value) (key : Bytes)
    (found : Option Value) :
    nibbleContents (Function.update contents key found) =
      Function.update (nibbleContents contents) (bytesToNibbleList key) found := by
  funext nibbles
  by_cases same : nibbles = bytesToNibbleList key
  · subst same
    rw [nibbleContents_bytesToNibbleList, Function.update_self, Function.update_self]
  · rw [Function.update_of_ne same, nibbleContents, nibbleContents]
    split
    · next even =>
      have other : combinePairs nibbles ≠ key := by
        rintro rfl
        exact same (bytesToNibbleList_combinePairs even).symm
      rw [Function.update_of_ne other]
    · rfl

/-! ### Runs keep the contents -/

theorem UnlessMissing.exists_ok {α : Type} {db : DBColumn} {post : α → Prop}
    {call : Except (Panic H) α} (known : UnlessMissing db post call)
    (loads : ∀ found, call ≠ .error (.hashNotFound found)) :
    ∃ result, call = .ok result ∧ post result := by
  cases call with
  | ok result => exact ⟨result, rfl, known⟩
  | error panic =>
    cases panic with
    | hashNotFound found => exact absurd rfl (loads found)
    | failed => exact known.elim
    | endless => exact known.elim

namespace MerklePatriciaTree

/-- The tree stands for a canonical trie with these contents. -/
def Holds (tree : MerklePatriciaTree H) (contents : Bytes → Option Value) : Prop :=
  ∃ trie : Trie, tree.Represents trie ∧ trie.lookup = nibbleContents contents

theorem Holds.step [CollisionFree H] {N : Nat} (positive : N ≠ 0) {tree : MerklePatriciaTree H}
    {contents : Bytes → Option Value} (holds : tree.Holds contents) {op : Op} (proper : op.Proper) :
    UnlessMissing tree.db (fun after => after.Holds (op.apply contents)) (tree.step N op) := by
  obtain ⟨trie, represents, same⟩ := holds
  cases op with
  | put key val =>
    refine (represents.put N proper val).imp ?_
    rintro after ⟨-, trie', represents', changed⟩
    exact ⟨trie', represents', by rw [changed, same, Op.apply, nibbleContents_update]⟩
  | get key =>
    refine (represents.get N proper).bind ?_
    rintro ⟨found, after⟩ ⟨represents', -⟩
    exact ⟨trie, represents', same⟩
  | commit =>
    obtain ⟨after, done, represents'⟩ := represents.commit positive
    rw [MerklePatriciaTree.step, done]
    exact ⟨trie, represents', same⟩
  | flushAll =>
    obtain ⟨after, done, represents'⟩ := represents.flushAll positive
    rw [MerklePatriciaTree.step, done]
    exact ⟨trie, represents', same⟩
  | root => exact ⟨trie, represents.rootHash.1, same⟩

theorem Holds.run [CollisionFree H] {N : Nat} (positive : N ≠ 0) {ops : List Op}
    (proper : ∀ op ∈ ops, op.Proper) {tree : MerklePatriciaTree H}
    {contents : Bytes → Option Value} (holds : tree.Holds contents)
    (loads : ∀ found, ops.foldlM (MerklePatriciaTree.step N) tree ≠ .error (.hashNotFound found)) :
    ∃ after, ops.foldlM (MerklePatriciaTree.step N) tree = .ok after ∧
      after.Holds (ops.foldl Op.apply contents) := by
  induction ops generalizing tree contents with
  | nil => exact ⟨tree, rfl, holds⟩
  | cons op ops inductionHypothesis =>
    rw [List.foldlM_cons] at loads ⊢
    have stepLoads : ∀ found, tree.step N op ≠ .error (.hashNotFound found) := by
      intro found missing
      rw [missing] at loads
      exact loads found rfl
    obtain ⟨next, done, holdsNext⟩ :=
      (holds.step positive (proper op List.mem_cons_self)).exists_ok stepLoads
    rw [done] at loads ⊢
    exact inductionHypothesis (fun other member => proper other (List.mem_cons_of_mem _ member))
      holdsNext loads

theorem holds_new (N : Nat) : ∃ tree : MerklePatriciaTree H,
    new N DBColumn.empty = .ok tree ∧ tree.Holds fun _ => none := by
  obtain ⟨tree, done, represents⟩ := represents_new (H := H) N
  refine ⟨tree, done, .empty, represents, ?_⟩
  funext nibbles
  rw [nibbleContents, ite_self]
  rfl

/-- A run in which every load finds its digest ends, and holds what was written. -/
theorem run_holds [CollisionFree H] {N : Nat} (positive : N ≠ 0) {ops : List Op}
    (proper : ∀ op ∈ ops, op.Proper)
    (loads : ∀ found : H, run N ops ≠ .error (.hashNotFound found)) :
    ∃ tree : MerklePatriciaTree H, run N ops = .ok tree ∧ tree.Holds (contentsOf ops) := by
  obtain ⟨tree, opened, holds⟩ := holds_new (H := H) N
  have started : (run N ops : Except (Panic H) _) = ops.foldlM (step N) tree := by
    rw [run, opened]
    rfl
  rw [started] at loads ⊢
  exact Holds.run positive proper holds loads

/-! ### Reads -/

/-- Two keys that are present go on from the key with different nibbles. -/
def Splits (contents : Bytes → Option Value) (key : Bytes) : Prop :=
  ∃ first second next next' rest rest', contents first ≠ none ∧ contents second ≠ none ∧
    next ≠ next' ∧ bytesToNibbleList first = bytesToNibbleList key ++ next :: rest ∧
      bytesToNibbleList second = bytesToNibbleList key ++ next' :: rest'

theorem forks_nibbleContents_iff (contents : Bytes → Option Value) (key : Bytes) :
    Forks (nibbleContents contents) (bytesToNibbleList key) ↔ Splits contents key := by
  constructor
  · rintro ⟨next, next', rest, rest', apart, present, present'⟩
    obtain ⟨first, same, held⟩ := exists_of_nibbleContents present
    obtain ⟨second, same', held'⟩ := exists_of_nibbleContents present'
    exact ⟨first, second, next, next', rest, rest', held, held', apart, same.symm, same'.symm⟩
  · rintro ⟨first, second, next, next', rest, rest', held, held', apart, same, same'⟩
    refine ⟨next, next', rest, rest', apart, ?_, ?_⟩
    · rwa [← same, nibbleContents_bytesToNibbleList]
    · rwa [← same', nibbleContents_bytesToNibbleList]

/-- After any run in which every load finds its digest, a read returns what the last write of the
key left, exactly if the key is present or no two present keys part there. -/
theorem read_eq_contents_iff [CollisionFree H] {N : Nat} (positive : N ≠ 0) {ops : List Op}
    (proper : ∀ op ∈ ops, op.Proper) {key : Bytes} (nonempty : key ≠ [])
    (loads : ∀ found : H, read N ops key ≠ .error (.hashNotFound found)) :
    ∃ found, (read N ops key : Except (Panic H) _) = .ok found ∧
      (found = (contentsOf ops key).map Subtype.val ↔
        contentsOf ops key ≠ none ∨ ¬ Splits (contentsOf ops) key) := by
  have runLoads : ∀ found : H, run N ops ≠ .error (.hashNotFound found) := by
    intro found missing
    rw [read, missing] at loads
    exact loads found rfl
  obtain ⟨tree, ran, trie, represents, same⟩ := run_holds positive proper runLoads
  rw [read, ran] at loads ⊢
  have getLoads : ∀ found : H, tree.get N key ≠ .error (.hashNotFound found) := by
    intro found missing
    refine loads found ?_
    show tree.get N key >>= _ = _
    rw [missing]
    rfl
  obtain ⟨⟨found, after⟩, done, -, -, answers⟩ := (represents.get N nonempty).exists_ok getLoads
  rw [same] at answers
  dsimp only at answers
  refine ⟨found, ?_, ?_⟩
  · show tree.get N key >>= _ = _
    rw [done]
    rfl
  · have held := nibbleContents_bytesToNibbleList (contentsOf ops) key
    have splits := forks_nibbleContents_iff (contentsOf ops) key
    cases present : contentsOf ops key with
    | some value =>
      have returned := answers.present value (by rw [held, present])
      exact ⟨fun _ => .inl fun absent => (by cases absent), fun _ => returned⟩
    | none =>
      have absent := held.trans present
      by_cases parted : Splits (contentsOf ops) key
      · have returned := answers.forks absent (splits.mpr parted)
        rw [returned]
        exact ⟨fun no => (by cases no), fun either => (by
          rcases either with no | no
          · exact absurd rfl no
          · exact absurd parted no)⟩
      · have returned := answers.absent absent fun forks => parted (splits.mp forks)
        exact ⟨fun _ => .inr parted, fun _ => returned⟩

/-- Two keys that part after the first byte; their leaves are read back from the store. -/
def forkedRun : List Op :=
  [.put [0x11, 0x00] (List.replicate 40 1), .put [0x11, 0x10] (List.replicate 40 2), .commit]

theorem forkedRun_proper : ∀ op ∈ forkedRun, op.Proper := by
  intro op member
  simp only [forkedRun, List.mem_cons, List.not_mem_nil, or_false] at member
  rcases member with rfl | rfl | rfl
  · exact List.cons_ne_nil _ _
  · exact List.cons_ne_nil _ _
  · trivial

theorem read_eq_contents_iff_forked :
    ∃ found, (read 2 forkedRun [0x11, 0x10] : Except (Panic Preimage) _) = .ok found ∧
      (found = (contentsOf forkedRun [0x11, 0x10]).map Subtype.val ↔
        contentsOf forkedRun [0x11, 0x10] ≠ none ∨
          ¬ Splits (contentsOf forkedRun) [0x11, 0x10]) := by
  have returned : (read 2 forkedRun [0x11, 0x10] : Except (Panic Preimage) _) =
      .ok (some (List.replicate 40 2)) := by
    decide +kernel
  refine read_eq_contents_iff (by decide) forkedRun_proper (by decide) fun found missing => ?_
  rw [returned] at missing
  cases missing

/-- The shared byte was never written, and still reads as an empty value. -/
theorem read_fork :
    (read 2 forkedRun [0x11] : Except (Panic Preimage) _) = .ok (some []) ∧
      contentsOf forkedRun [0x11] = none := by
  decide +kernel

end MerklePatriciaTree

end AuthStorage.RainblockTrie
