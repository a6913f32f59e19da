/-
This file compares runs of a tree. After any run the trie has the canonical shape,
so it is determined by its contents: two histories that end in the same map end in
the same trie, with the same root digest, whatever was cached on the way.
-/

import AuthStorage.RainblockTrie.Reads

namespace AuthStorage.RainblockTrie

open AuthStorage.Lvmt (Bytes DBColumn)

variable {H : Type} [RlpHasher H]

namespace MerklePatriciaTree

theorem eq_empty_iff {trie : Trie} (canonical : trie.Canonical) {contents : Bytes → Option Value}
    (same : trie.lookup = nibbleContents contents) :
    trie = .empty ↔ ∀ key, contents key = none := by
  constructor
  · rintro rfl key
    rw [← nibbleContents_bytesToNibbleList contents key, ← same]
    rfl
  · intro nothing
    refine canonical.eq_empty fun wanted => ?_
    rw [same]
    by_contra present
    obtain ⟨key, -, held⟩ := exists_of_nibbleContents present
    exact held (nothing key)

/-- Two histories with the same contents stand for the same trie. -/
theorem represents_unique {first second : MerklePatriciaTree H}
    {contents : Bytes → Option Value} (secondHolds : second.Holds contents)
    {trie : Trie} (represents : first.Represents trie)
    (same : trie.lookup = nibbleContents contents) : second.Represents trie := by
  obtain ⟨other, representsOther, sameOther⟩ := secondHolds
  have equal : trie = other :=
    represents.canonical.ext representsOther.canonical (same.trans sameOther.symm)
  rwa [equal]

/-- What a tree shows of the trie it stands for: the digest, and what a commit returns. -/
theorem Represents.shows {tree : MerklePatriciaTree H} {trie : Trie}
    (represents : tree.Represents trie) {N : Nat} (positive : N ≠ 0) :
    tree.rootHash.1 = rootDigest trie ∧
      ∃ after, tree.commit N = .ok ((rootDigest trie).getD EMPTY_ROOT, after) := by
  obtain ⟨after, done, -⟩ := represents.commit positive
  exact ⟨represents.rootHash.2, after, done⟩

/-- After any run in which every load finds its digest, the tree stands for a trie of canonical
shape that holds what the writes left, and so does the tree of any other run that leaves the same;
both show the digest of that trie. -/
theorem run_represents [CollisionFree H] {N : Nat} (positive : N ≠ 0) {ops : List Op}
    (proper : ∀ op ∈ ops, op.Proper)
    (loads : ∀ found : H, run N ops ≠ .error (.hashNotFound found)) :
    ∃ (tree : MerklePatriciaTree H) (trie : Trie), run N ops = .ok tree ∧
      tree.Represents trie ∧ trie.Canonical ∧ trie.lookup = nibbleContents (contentsOf ops) ∧
      (trie = .empty ↔ ∀ key, contentsOf ops key = none) ∧
      tree.rootHash.1 = rootDigest trie ∧
      (∃ after, tree.commit N = .ok ((rootDigest trie).getD EMPTY_ROOT, after)) ∧
      ∀ N' ops', N' ≠ 0 → (∀ op ∈ ops', op.Proper) → contentsOf ops' = contentsOf ops →
        (∀ found : H, run N' ops' ≠ .error (.hashNotFound found)) →
        ∃ other : MerklePatriciaTree H, run N' ops' = .ok other ∧ other.Represents trie ∧
          other.rootHash.1 = rootDigest trie ∧
          ∃ after, other.commit N' = .ok ((rootDigest trie).getD EMPTY_ROOT, after) := by
  obtain ⟨tree, ran, holds⟩ := run_holds positive proper loads
  obtain ⟨trie, represents, same⟩ := holds
  refine ⟨tree, trie, ran, represents, represents.canonical, same,
    eq_empty_iff represents.canonical same, (represents.shows positive).1,
    (represents.shows positive).2, fun N' ops' positive' proper' sameContents loads' => ?_⟩
  obtain ⟨other, ran', holds'⟩ := run_holds positive' proper' loads'
  rw [sameContents] at holds'
  have represents' := represents_unique holds' represents same
  exact ⟨other, ran', represents', represents'.shows positive'⟩

/-- The two keys of the forked run are written in the other order, and a third one comes and
goes. -/
def detourRun : List Op :=
  [.put [0x11, 0x10] (List.replicate 40 2), .put [0x12] [1], .commit,
    .put [0x11, 0x00] (List.replicate 40 1), .root, .put [0x12] [], .get [0x11, 0x00]]

theorem detourRun_proper : ∀ op ∈ detourRun, op.Proper := by
  intro op member
  simp only [detourRun, List.mem_cons, List.not_mem_nil, or_false] at member
  rcases member with rfl | rfl | rfl | rfl | rfl | rfl | rfl
  all_goals first | exact List.cons_ne_nil _ _ | trivial

theorem contentsOf_detourRun : contentsOf detourRun = contentsOf forkedRun := by
  funext key
  by_cases deleted : key = [0x12]
  · subst deleted
    rfl
  · simp only [contentsOf, detourRun, forkedRun, List.foldl_cons, List.foldl_nil, Op.apply,
      Function.update_of_ne deleted]
    -- the key is taken out first, then the other two change places
    rw [Function.update_comm (by decide), Function.update_of_ne deleted,
      Function.update_comm (by decide)]

/-- The run comes to its end. -/
def Ends (call : Except (Panic Preimage) (MerklePatriciaTree Preimage)) : Bool :=
  match call with
  | .ok _ => true
  | .error _ => false

theorem loads_of_ends {call : Except (Panic Preimage) (MerklePatriciaTree Preimage)}
    (ends : Ends call = true) (found : Preimage) : call ≠ .error (.hashNotFound found) := by
  rintro rfl
  cases ends

theorem run_represents_detour :
    ∃ (tree other : MerklePatriciaTree Preimage) (trie : Trie), run 2 forkedRun = .ok tree ∧
      run 1 detourRun = .ok other ∧ tree.Represents trie ∧ other.Represents trie ∧
      tree.rootHash.1 = other.rootHash.1 := by
  obtain ⟨tree, trie, ran, represents, -, -, -, shown, -, others⟩ :=
    run_represents (N := 2) (H := Preimage) (by decide) forkedRun_proper
      (loads_of_ends (by decide +kernel))
  obtain ⟨other, ran', represents', shown', -⟩ :=
    others 1 detourRun (by decide) detourRun_proper contentsOf_detourRun
      (loads_of_ends (by decide +kernel))
  exact ⟨tree, other, trie, ran, ran', represents, represents', shown.trans shown'.symm⟩

end MerklePatriciaTree

end AuthStorage.RainblockTrie
