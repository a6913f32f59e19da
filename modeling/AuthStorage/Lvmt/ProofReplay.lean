/-
This file shows that the verifier does not notice when a value has been
overwritten. It compares the version in the leaf of the slot with the one that
the bottom level states, but not with the version that is hashed with the value.
A key keeps its slot, so the value, its version and its Merkle path can be taken
from a proof that was made at any time, and everything else from a proof that is
made now: the commitments are those of now, and the verifier accepts.
-/

import AuthStorage.Lvmt.ProofsAccepted

namespace AuthStorage.Lvmt

open Checks

/-! ### Old values in new proofs -/

/-- The bottom level of a proof, with the Merkle path of an earlier one. -/
def LevelProof.withMerkle {G H : Type} (bottom earlier : LevelProof G H) : LevelProof G H :=
  { bottom with merkleEpoch := earlier.merkleEpoch, merkleProof := earlier.merkleProof }

namespace LvmtDB

section

variable {G H : Type}

/-- The current proof, with the value, its version and its Merkle path from an earlier one. -/
def replay (earlier current : Proof G H) : Proof G H :=
  match earlier.2.getLast?, current.2.getLast? with
  | some old, some bottom => (earlier.1, current.2.dropLast ++ [bottom.withMerkle old])
  | _, _ => current

theorem replay_concat (earlier current : AssociateProof)
    (upperEarlier upper : List (LevelProof G H)) (old bottom : LevelProof G H) :
    replay (earlier, upperEarlier ++ [old]) (current, upper ++ [bottom]) =
      (earlier, upper ++ [bottom.withMerkle old]) := by
  rw [replay, List.getLast?_concat, List.getLast?_concat, List.dropLast_concat]

theorem map_commitment_withMerkle (upper : List (LevelProof G H))
    (bottom earlier : LevelProof G H) :
    (upper ++ [bottom.withMerkle earlier]).map LevelProof.commitment =
      (upper ++ [bottom]).map LevelProof.commitment := by
  rw [List.map_append, List.map_append]
  rfl

end

variable {G G₂ Gt H : Type} {depths : Nat} [Curve G] [AddCommGroup G₂] [AddCommGroup Gt] [H256 H]
  {pairing : G →+ G₂ →+ Gt} {pp : AMTParams G G₂ depths} {epochRoot : UInt64 → Option H} {key : Key}
  {verInfo oldInfo : VerInfo} {value oldValue : Vec UInt8} {upper : List (LevelProof G H)}
  {bottom old : LevelProof G H}

/-- Only the slot of the old version matters, and that its pair is a leaf of some epoch. -/
theorem ProofAccepted.replay
    (accepted : ProofAccepted pairing pp epochRoot key verInfo value upper bottom)
    (sameSlot : oldInfo.slotIndex = verInfo.slotIndex)
    (merkle : ∃ root, epochRoot old.merkleEpoch = some root ∧
      StaticMerkleTree.verify root (keyValueHash key oldInfo oldValue : H) old.merkleProof =
        some true) :
    ProofAccepted pairing pp epochRoot key oldInfo oldValue upper (bottom.withMerkle old) where
  few := accepted.few
  slot := ⟨accepted.slot.opening, merkle, by
    rw [sameSlot]
    exact accepted.slot.version⟩
  above level levelProof commitment found foundBelow := by
    rw [map_commitment_withMerkle] at foundBelow
    exact accepted.above level levelProof commitment found foundBelow

end LvmtDB

namespace Ledger

variable {G H : Type} [Curve G] [H256 H] {history : List (Epoch G)} {epoch : UInt64} {root : H}

/-- The root of an epoch stays. -/
theorem epochRoot_append (isRoot : epochRoot history epoch = some root) (later : List (Epoch G)) :
    epochRoot (history ++ later) epoch = some root := by
  have inside := (List.getElem?_eq_some_iff.mp isRoot).1
  rw [epochRoot, List.map_append, List.getElem?_append_left inside]
  exact isRoot

end Ledger

/-! ### Databases -/

namespace LvmtDB

variable {G G₂ Gt H : Type} {depths : Nat} [Curve G] [AddCommGroup G₂] [AddCommGroup Gt]
  [DecidableEq Gt] [H256 H]

/-- Whatever is done after a key was read with a value, the verifier accepts the value still, with
the commitments of the present and against the roots that the commits returned. -/
theorem overwritten_accepted (pairing : G →+ G₂ →+ Gt) (pp : AMTParams G G₂ depths)
    (order : ∀ point : G, FrParams.MODULUS • point = 0) (equation : pp.PairingEquation pairing)
    (neverZero : ∀ bytes, (keccak bytes : H) ≠ default)
    {opened middle final next : LvmtDB G depths} {before later : List LvmtOp}
    {outputs outputs' : List (LvmtOutput G H)}
    (isOpened : new KeyValueDB.empty false (some .root) = some opened)
    (fewSets : (before ++ later).countP LvmtOp.isSet < 2 ^ 40)
    (meets : PartialRun.Meets (LvmtDB.step (H := H) pp) SmallBatch opened before)
    (done : PartialRun.run (LvmtDB.step pp) opened before = some (middle, outputs))
    (meets' : PartialRun.Meets (LvmtDB.step (H := H) pp) SmallBatch middle later)
    (done' : PartialRun.run (LvmtDB.step pp) middle later = some (final, outputs')) {key : Key}
    {value : Vec UInt8} (got : middle.get key = some (some value, next)) :
    ∃ (earlier current : Proof G H) (middle' final' : LvmtDB G depths),
      middle.prove key = some (earlier, middle') ∧ final.prove key = some (current, final') ∧
      (replay earlier current).1.value = some value ∧
      (replay earlier current).2.map LevelProof.commitment =
        current.2.map LevelProof.commitment ∧
      Gives (verify depths (AMTree.verify pairing pp) key (replay earlier current)
        (returnedRoot (outputs ++ outputs'))) () := by
  rw [List.countP_append] at fewSets
  obtain ⟨ledger, values, history, committed, stands, provable, counted, roots⟩ :=
    provable_of_run neverZero isOpened (by omega) meets done
  obtain ⟨ledger', values', added, committed', stands', provable', counted', roots', sameSlots⟩ :=
    stands.provable_run neverZero provable (by omega) meets' done'
  obtain ⟨stored, isStored, rfl⟩ := stands.stored_of_get provable.exclusive got
  obtain ⟨stored', isStored', -, sameSlot⟩ := sameSlots key stored isStored
  obtain ⟨upperOld, old, proved, accepted⟩ := provable.prove order equation (by omega) isStored
  obtain ⟨upper, bottom, proved', accepted'⟩ :=
    provable'.prove order equation (by omega) isStored'
  obtain ⟨middle', isProof⟩ := stands.prove_of_ledger proved
  obtain ⟨final', isProof'⟩ := stands'.prove_of_ledger proved'
  have oldMerkle : ∃ root, Ledger.epochRoot (history ++ added) old.merkleEpoch = some root ∧
      StaticMerkleTree.verify root (keyValueHash key stored.version stored.value : H)
        old.merkleProof = some true := by
    obtain ⟨root, isRoot, climbs⟩ := accepted.slot.merkle
    exact ⟨root, Ledger.epochRoot_append isRoot added, climbs⟩
  have allRoots : merkleRoots (outputs ++ outputs') =
      (history ++ added).map (fun epoch => rootOfLeaves epoch.leaves) := by
    rw [merkleRoots_append, roots, roots', List.map_append]
  refine ⟨_, _, middle', final', isProof, isProof', ?_, ?_, ?_⟩
  · rw [replay_concat]
  · rw [replay_concat]
    exact map_commitment_withMerkle upper bottom old
  · rw [replay_concat, returnedRoot_eq allRoots]
    exact (accepted'.replay sameSlot.symm oldMerkle).gives_verify

/-! ### A run -/

/-- The key in the lower tree has the value six, and later seven; the verifier accepts both. -/
theorem overwritten_accepted_provedRun :
    ∃ (opened middle final next : LvmtDB Fr 8) (outputs outputs' : List (LvmtOutput Fr Transcript))
      (earlier current : Proof Fr Transcript) (middle' final' : LvmtDB Fr 8),
      new KeyValueDB.empty false (some .root) = some opened ∧
      PartialRun.run (LvmtDB.step openingParams) opened (provedRun.take 7) =
        some (middle, outputs) ∧
      PartialRun.run (LvmtDB.step openingParams) middle (provedRun.drop 7) =
        some (final, outputs') ∧
      final.get ⟨.pair 7 5⟩ = some (some (.single 7), next) ∧
      middle.prove ⟨.pair 7 5⟩ = some (earlier, middle') ∧
      final.prove ⟨.pair 7 5⟩ = some (current, final') ∧ current.2.length = 2 ∧
      (replay earlier current).1.value = some (.single 6) ∧
      Gives (verify 8 (AMTree.verify fieldPairing openingParams) ⟨.pair 7 5⟩
        (replay earlier current) (returnedRoot (outputs ++ outputs'))) () := by
  obtain ⟨result, done⟩ :
      ∃ result : LvmtDB Fr 8 × (LvmtDB Fr 8 × List (LvmtOutput Fr Transcript)) ×
        (LvmtDB Fr 8 × List (LvmtOutput Fr Transcript)) × LvmtDB Fr 8 × LvmtDB Fr 8 ×
          (Proof Fr Transcript × LvmtDB Fr 8),
      ((new KeyValueDB.empty false (some .root)).bind fun opened =>
        (PartialRun.run (LvmtDB.step openingParams) opened (provedRun.take 7)).bind fun ran =>
          (PartialRun.run (LvmtDB.step openingParams) ran.1 (provedRun.drop 7)).bind fun ran' =>
            (ran.1.get ⟨.pair 7 5⟩).bind fun read => (ran'.1.get ⟨.pair 7 5⟩).bind fun read' =>
              (ran'.1.prove ⟨.pair 7 5⟩).bind fun proved =>
                if (PartialRun.Meets (LvmtDB.step (H := Transcript) openingParams) SmallBatch
                    opened (provedRun.take 7) ∧
                  PartialRun.Meets (LvmtDB.step (H := Transcript) openingParams) SmallBatch ran.1
                    (provedRun.drop 7)) ∧
                    (read.1 = some (.single 6) ∧ read'.1 = some (.single 7)) ∧
                    proved.1.2.length = 2 then
                  some (opened, ran, ran', read.2, read'.2, proved)
                else none) = some result :=
    Option.isSome_iff_exists.mp (by decide +kernel)
  obtain ⟨opened, isOpened, done⟩ := Option.bind_eq_some_iff.mp done
  obtain ⟨⟨middle, outputs⟩, isRan, done⟩ := Option.bind_eq_some_iff.mp done
  obtain ⟨⟨final, outputs'⟩, isRan', done⟩ := Option.bind_eq_some_iff.mp done
  obtain ⟨⟨value, next⟩, got, done⟩ := Option.bind_eq_some_iff.mp done
  obtain ⟨⟨value', next'⟩, got', done⟩ := Option.bind_eq_some_iff.mp done
  obtain ⟨⟨made, _⟩, isMade, done⟩ := Option.bind_eq_some_iff.mp done
  obtain ⟨⟨⟨meets, meets'⟩, ⟨isSix, isSeven⟩, twoLevels⟩, -⟩ :=
    Option.ite_none_right_eq_some.mp done
  obtain rfl : value = some (.single 6) := isSix
  obtain rfl : value' = some (.single 7) := isSeven
  obtain ⟨earlier, current, middle', final', isEarlier, isCurrent, sameValue, -, accepted⟩ :=
    overwritten_accepted fieldPairing openingParams modulus_nsmul (fun _ _ => rfl)
      Transcript.keccak_ne_zero isOpened (by decide) meets isRan meets' isRan' got
  obtain ⟨rfl, -⟩ := Prod.mk.inj (Option.some.inj (isMade.symm.trans isCurrent))
  exact ⟨opened, middle, final, next', outputs, outputs', earlier, made, middle', final', isOpened,
    isRan, isRan', got', isEarlier, isCurrent, twoLevels, sameValue, accepted⟩

end LvmtDB

end AuthStorage.Lvmt
