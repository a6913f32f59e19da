/-
This file says what `AMTree::verify` checks: the commitment is the share of the
leaf and the commitments of the proof, and every node of the proof satisfies the
pairing equation of its depth. Both fail with an answer; only a proof with more
nodes than the tree is deep panics, once all the equations hold.
-/

import AuthStorage.Lvmt.AMTree

namespace AuthStorage.Lvmt

namespace AMTParams

variable {G G₂ : Type} {depths : Nat} (pp : AMTParams G G₂ depths)

theorem getSiblingVerification_eq_some {idx : Nat} (inside : idx < depths) (index : Nat) :
    ∃ verification, pp.getSiblingVerification (idx + 1) index = some verification := by
  have bounds : 0 < idx + 1 ∧ idx + 1 - 1 < depths := by omega
  exact ⟨_, dif_pos bounds⟩

theorem getSiblingVerification_eq_none {idx : Nat} (outside : depths ≤ idx) (index : Nat) :
    pp.getSiblingVerification (idx + 1) index = none := by
  have bounds : ¬ (0 < idx + 1 ∧ idx + 1 - 1 < depths) := by omega
  exact dif_neg bounds

end AMTParams

namespace AMTree

variable {G G₂ Gt : Type} {depths : Nat} [Curve G] [AddCommGroup G₂] [AddCommGroup Gt]
  (pairing : G →+ G₂ →+ Gt) (pp : AMTParams G G₂ depths)

/-- The commitment is the share of the leaf and the commitments on the path. -/
def SumCheck (index : Fin (2 ^ depths)) (value : Fr) (commitment : G) (proof : AMTProof G) :
    Prop :=
  commitment = mul (pp.getCommitments index) (FrInt.ofFr value) +
    (proof.map AMTNode.commitment).sum

/-- The pairing equation at depth `idx + 1`. -/
def PairingCheck (index idx : Nat) (node : AMTNode G) : Prop :=
  ∃ verification, pp.getSiblingVerification (idx + 1) index = some verification ∧
    pairing node.commitment pp.g2 = pairing node.proof verification

/-- Every node at a depth the tree has satisfies the pairing equation, the first one being at
depth `start + 1`. -/
def PairingChecks (index start : Nat) (proof : AMTProof G) : Prop :=
  ∀ offset, start + offset < depths → ∀ node, proof[offset]? = some node →
    PairingCheck pairing pp index (start + offset) node

theorem pairingChecks_cons {index start : Nat} (inside : start < depths) {node : AMTNode G}
    {rest : AMTProof G} :
    PairingChecks pairing pp index start (node :: rest) ↔
      PairingCheck pairing pp index start node ∧
        PairingChecks pairing pp index (start + 1) rest := by
  constructor
  · refine fun all => ⟨all 0 inside node rfl, fun offset below node' found => ?_⟩
    have position : start + (offset + 1) = start + 1 + offset := by omega
    exact position ▸ all (offset + 1) (position ▸ below) node' found
  · rintro ⟨first, later⟩ offset below node' found
    cases offset with
    | zero =>
      obtain rfl := Option.some.inj found
      exact first
    | succ offset =>
      have position : start + 1 + offset = start + (offset + 1) := by omega
      exact position ▸ later offset (position ▸ below) node' found

variable [DecidableEq Gt]

/-- The loop stops at the first pairing that fails, and panics at the first node too many. -/
theorem verifyPairings_cases (index : Nat) {start : Nat} (le : start ≤ depths)
    (proof : AMTProof G) :
    PairingChecks pairing pp index start proof ∧
        verifyPairings pairing pp index start proof =
          (if start + proof.length ≤ depths then some true else none) ∨
      ¬ PairingChecks pairing pp index start proof ∧
        verifyPairings pairing pp index start proof = some false := by
  induction proof generalizing start with
  | nil =>
    refine Or.inl ⟨fun offset inside node found => by simp at found, ?_⟩
    rw [List.length_nil, Nat.add_zero, if_pos le, verifyPairings]
  | cons node rest inductionHypothesis =>
    rw [verifyPairings]
    rcases Nat.lt_or_ge start depths with inside | full
    · obtain ⟨verification, looked⟩ := pp.getSiblingVerification_eq_some inside index
      rw [pairingChecks_cons pairing pp inside, looked, Option.bind_eq_bind, Option.bind_some]
      by_cases equation : pairing node.commitment pp.g2 = pairing node.proof verification
      · have here : PairingCheck pairing pp index start node := ⟨verification, looked, equation⟩
        have length : start + (node :: rest).length = start + 1 + rest.length := by
          rw [List.length_cons]
          omega
        rw [if_neg (not_not.mpr equation), length, and_iff_right here]
        exact inductionHypothesis inside
      · refine Or.inr ⟨fun both => equation ?_, if_pos equation⟩
        obtain ⟨verification', looked', holds⟩ := both.1
        rw [looked] at looked'
        rwa [Option.some.inj looked']
    · refine Or.inl ⟨fun offset below => absurd below (by omega), ?_⟩
      rw [pp.getSiblingVerification_eq_none full index, if_neg]
      · rfl
      · rw [List.length_cons]
        omega

theorem verify_cases (index : Fin (2 ^ depths)) (value : Fr) (commitment : G)
    (proof : AMTProof G) :
    (SumCheck pp index value commitment proof ∧ PairingChecks pairing pp index 0 proof) ∧
      verify pairing pp index value commitment proof =
        (if proof.length ≤ depths then some true else none) ∨
    ¬ (SumCheck pp index value commitment proof ∧ PairingChecks pairing pp index 0 proof) ∧
      verify pairing pp index value commitment proof = some false := by
  have inside : checkIndex depths index.val = some index := dif_pos index.isLt
  rw [verify, inside, Option.bind_eq_bind, Option.bind_some]
  dsimp only
  by_cases sum : SumCheck pp index value commitment proof
  · unfold SumCheck at sum ⊢
    rw [if_neg (not_not.mpr sum)]
    rcases verifyPairings_cases pairing pp index (Nat.zero_le depths) proof with
      ⟨pairings, result⟩ | ⟨fails, result⟩
    · rw [Nat.zero_add] at result
      exact Or.inl ⟨⟨sum, pairings⟩, result⟩
    · exact Or.inr ⟨fun both => fails both.2, result⟩
  · exact Or.inr ⟨fun both => sum both.1, if_pos sum⟩

theorem verify_eq_none_iff (index : Fin (2 ^ depths)) (value : Fr) (commitment : G)
    (proof : AMTProof G) :
    verify pairing pp index value commitment proof = none ↔
      SumCheck pp index value commitment proof ∧ PairingChecks pairing pp index 0 proof ∧
        depths < proof.length := by
  rcases verify_cases pairing pp index value commitment proof with ⟨both, result⟩ | ⟨fails, result⟩
  · rw [result]
    by_cases short : proof.length ≤ depths
    · rw [if_pos short]
      exact iff_of_false (fun absurd => nomatch absurd) fun all => absurd all.2.2 (by omega)
    · rw [if_neg short]
      exact iff_of_true rfl ⟨both.1, both.2, by omega⟩
  · rw [result]
    exact iff_of_false (fun absurd => nomatch absurd) fun all => fails ⟨all.1, all.2.1⟩

theorem verify_eq_true_iff (index : Fin (2 ^ depths)) (value : Fr) (commitment : G)
    (proof : AMTProof G) :
    verify pairing pp index value commitment proof = some true ↔
      SumCheck pp index value commitment proof ∧ PairingChecks pairing pp index 0 proof ∧
        proof.length ≤ depths := by
  rcases verify_cases pairing pp index value commitment proof with ⟨both, result⟩ | ⟨fails, result⟩
  · rw [result]
    by_cases short : proof.length ≤ depths
    · rw [if_pos short]
      exact iff_of_true rfl ⟨both.1, both.2, short⟩
    · rw [if_neg short]
      exact iff_of_false (fun absurd => nomatch absurd) fun all => short all.2.2
  · rw [result]
    exact iff_of_false (fun same => nomatch same) fun all => fails ⟨all.1, all.2.1⟩

end AMTree

end AuthStorage.Lvmt
