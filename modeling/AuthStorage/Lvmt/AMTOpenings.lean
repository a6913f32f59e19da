/-
This file is about the proofs of a tree that is written through its guards. In a
tree that maintains every node, an entry has received the integer of its leaf as
long as no write lowers an integer; moving the commitment of a child or flushing
changes nothing of that. So the proof of any leaf is accepted with the integer
that the leaf has.
-/

import AuthStorage.Lvmt.AMTCompleteness

namespace AuthStorage.Lvmt

namespace AMTView

variable {Data G G₂ Gt : Type} {height : Nat} [Curve G] [AMTData Data] {pp : AMTParams G G₂ height}
  {view next : AMTView Data G height}

/-- Every entry has received the integer of its leaf. -/
def Opens (pp : AMTParams G G₂ height) (view : AMTView Data G height) : Prop :=
  view.Accumulated pp (some NodeIndex.root) fun index => (view.frInt index).toNat

theorem opens_empty (pp : AMTParams G G₂ height) :
    (empty : AMTView Data G height).Opens pp := by
  have nothing : (fun index => ((empty : AMTView Data G height).frInt index).toNat) = 0 := by
    funext index
    rw [frInt, empty, AMTData.asFrInt_default]
    rfl
  rw [Opens, nothing]
  exact accumulated_empty pp _

theorem Opens.clean (opens : view.Opens pp) : view.clean.Opens pp :=
  Accumulated.clean opens

/-- The roots of the subtrees are no part of the sums. -/
theorem Opens.setSubtreeRoot (opens : view.Opens pp) (index : Fin (2 ^ height)) (root : G) :
    (view.setSubtreeRoot index root).Opens pp :=
  ⟨opens.commitment, opens.innerNodes⟩

/-- A write that does not lower the integer adds the difference to the entry. -/
theorem Opens.replace (opens : view.Opens pp) {index : Fin (2 ^ height)} {value : Data}
    (done : view.replace pp (some NodeIndex.root) index value = some next)
    (notLower : ∀ newFrInt oldFrInt, AMTData.asFrInt value = some newFrInt →
      AMTData.asFrInt (view.data index) = some oldFrInt → oldFrInt.toNat ≤ newFrInt.toNat) :
    next.Opens pp := by
  rw [AMTView.replace] at done
  obtain ⟨oldFrInt, old, done⟩ := Option.bind_eq_some_iff.mp done
  obtain ⟨newFrInt, new, done⟩ := Option.bind_eq_some_iff.mp done
  obtain rfl := Option.some.inj done
  have written : Accumulated pp (some NodeIndex.root) (fun index => (view.frInt index).toNat)
      { view with data := Function.update view.data index value } :=
    ⟨opens.commitment, opens.innerNodes⟩
  have added := written.update index (AMTNodeWriteGuard.difference newFrInt oldFrInt)
  rw [Opens]
  convert added using 1
  funext other
  have le := notLower newFrInt oldFrInt new old
  rw [Pi.add_apply, AMTNodeWriteGuard.toNat_difference_of_le le, frInt, update_data]
  dsimp only
  by_cases same : other = index
  · subst same
    rw [Function.update_self, Pi.single_eq_same, new, frInt, old, Option.getD_some,
      Option.getD_some, Nat.add_sub_cancel' le]
  · rw [Function.update_of_ne same, Pi.single_eq_of_ne same, frInt, Nat.add_zero]

variable [AddCommGroup G₂] [AddCommGroup Gt] [DecidableEq Gt] {pairing : G →+ G₂ →+ Gt}

/-- The proof of a leaf is accepted with the integer of the leaf. -/
theorem Opens.verify (opens : view.Opens pp) (order : ∀ point : G, FrParams.MODULUS • point = 0)
    (equation : pp.PairingEquation pairing) (index : Fin (2 ^ height)) {frInt : FrInt}
    (packed : AMTData.asFrInt (view.data index) = some frInt) :
    AMTree.verify pairing pp index (frInt.toNat : Fr) view.commitment (view.proofOf index) =
      some true := by
  have received : (view.frInt index).toNat = frInt.toNat := by
    rw [AMTView.frInt, packed, Option.getD_some]
  have sum := Accumulated.sumCheck order opens index
  rw [received] at sum
  exact (AMTree.verify_eq_true_iff pairing pp index _ _ _).mpr
    ⟨sum, Accumulated.pairingChecks equation opens index, (length_proofOf _).le⟩

end AMTView

end AuthStorage.Lvmt
