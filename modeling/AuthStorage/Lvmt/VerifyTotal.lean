/-
This file finds the proofs on which the verifier panics. Checks that fail are
errors, but a proof without levels, a level beyond the key, an integer that is
no scalar, an opening with more nodes than the tree is deep and a slot number
beyond the last slot are not checked at all. Each stops the verifier as soon as
the checks before it have passed.
-/

import AuthStorage.Library.Checks
import AuthStorage.Lvmt.AMTVerify
import AuthStorage.Lvmt.KeyBits
import AuthStorage.Lvmt.LvmtDB

namespace AuthStorage.Lvmt

open Checks

namespace LvmtDB

/-! ### Single checks -/

section

variable {G H : Type} {depths : Nat}

/-- A level that starts within the key has an index. -/
theorem indexAtLevel_isSome_iff (deep : 8 ≤ depths) (le : depths ≤ 28) {key : Key}
    {level : Nat} :
    (∃ index, key.indexAtLevel depths level = some index) ↔
      level * depths / 8 ≤ key.bytes.len := by
  constructor
  · rintro ⟨index, indexed⟩
    by_contra outside
    rw [Key.indexAtLevel, Key.mid, if_neg (by omega : depths ≠ 0)] at indexed
    dsimp only at indexed
    rw [if_neg outside] at indexed
    cases indexed
  · intro inside
    exact ⟨_, Key.mid_eq_some inside (by omega) (by omega)⟩

/-- A level whose index exists and all levels before it name the tree below it. -/
theorem treeAtLevel_isSome {key : Key} {level : Nat}
    (indexed : ∀ earlier < level, ∃ index, key.indexAtLevel depths earlier = some index) :
    ∃ name, key.treeAtLevel depths level = some name := by
  induction level with
  | zero => exact ⟨.root, rfl⟩
  | succ level inductionHypothesis =>
    obtain ⟨parent, found⟩ :=
      inductionHypothesis fun earlier below => indexed earlier (Nat.lt_succ_of_lt below)
    obtain ⟨index, here⟩ := indexed level (Nat.lt_succ_self level)
    refine ⟨parent.child (UInt32.ofNat index), ?_⟩
    rw [Key.treeAtLevel, found, Option.bind_eq_bind, Option.bind_some, here]
    rfl

/-- A level and the one below it. -/
theorem mem_zip_tail_zipIdx {levelProofs : List (LevelProof G H)}
    {levelProof below : LevelProof G H} {level : Nat} :
    ((levelProof, below), level) ∈ (levelProofs.zip levelProofs.tail).zipIdx ↔
      levelProofs[level]? = some levelProof ∧ levelProofs[level + 1]? = some below := by
  rw [List.mem_zipIdx_iff_getElem?, List.getElem?_zip_eq_some, List.getElem?_tail]

theorem gives_check {condition : Option Bool} {message : String} :
    Gives (check condition message) () ↔ condition = some true := by
  show Gives (ExceptT.lift condition >>= fun holds : Bool => _) () ↔ _
  rw [gives_bind]
  simp only [gives_lift, gives_ite, exists_eq_right]

theorem total_check {condition : Option Bool} {message : String} :
    Total (check condition message) ↔ condition ≠ none := by
  show Total (ExceptT.lift condition >>= fun holds : Bool => _) ↔ _
  rw [total_bind, total_lift, Option.ne_none_iff_exists']
  exact and_iff_left fun _ _ => total_ite

/-- A leaf has six places for versions. -/
theorem total_verifyVersion {levelProof : LevelProof G H} {index : Nat} {message : String} :
    Total (verifyVersion levelProof index message) ↔ index < 6 := by
  show Total (ExceptT.lift _ >>= fun _ => _) ↔ _
  simp only [total_bind, total_lift, gives_lift, total_check]
  unfold Node.versionsFromFrInt
  constructor
  · rintro ⟨⟨version, read⟩, -⟩
    by_contra outside
    rw [if_neg outside] at read
    cases read
  · intro inside
    rw [if_pos inside]
    exact ⟨⟨_, rfl⟩, fun version _ panics => nomatch panics⟩

variable [H256 H]

/-- The Merkle path of a level proof leads from the hash to the root of its epoch. -/
def ClimbsTo (root : UInt64 → H) (levelProof : LevelProof G H) (hash : H) : Prop :=
  StaticMerkleTree.climb levelProof.merkleProof.2 0 hash levelProof.merkleProof.1 =
    root levelProof.merkleEpoch

variable {root : UInt64 → H} {levelProof : LevelProof G H} {hash : H} {message : String}

theorem total_verifyMerkle (short : levelProof.merkleProof.1.length ≤ 64) :
    Total (verifyMerkle (fun epoch => some (root epoch)) levelProof hash message) := by
  show Total (ExceptT.lift _ >>= fun _ => _)
  rw [total_bind]
  refine ⟨total_lift.mpr ⟨_, rfl⟩, fun found _ => total_check.mpr ?_⟩
  rw [StaticMerkleTree.verify, if_pos short]
  exact fun panics => nomatch panics

theorem gives_verifyMerkle (short : levelProof.merkleProof.1.length ≤ 64) :
    Gives (verifyMerkle (fun epoch => some (root epoch)) levelProof hash message) () ↔
      ClimbsTo root levelProof hash := by
  show Gives (ExceptT.lift _ >>= fun _ => _) () ↔ _
  simp only [gives_bind, gives_lift, gives_check, Option.some.injEq, exists_eq_left',
    StaticMerkleTree.verify, if_pos short, decide_eq_true_eq]
  rfl

theorem total_verifyKeyMerkle (short : levelProof.merkleProof.1.length ≤ 64) (key : Key)
    (assocProof : AssociateProof) :
    Total (verifyKeyMerkle (fun epoch => some (root epoch)) key assocProof levelProof) := by
  unfold verifyKeyMerkle
  cases assocProof.value with
  | none => exact total_pure ()
  | some value => exact total_verifyMerkle short

theorem gives_verifyKeyMerkle (short : levelProof.merkleProof.1.length ≤ 64) (key : Key)
    (assocProof : AssociateProof) :
    Gives (verifyKeyMerkle (fun epoch => some (root epoch)) key assocProof levelProof) () ↔
      ∀ value, assocProof.value = some value →
        ClimbsTo root levelProof (keyValueHash key assocProof.verInfo value) := by
  unfold verifyKeyMerkle
  cases assocProof.value with
  | none => exact iff_of_true rfl fun value absurd => nomatch absurd
  | some value =>
    rw [gives_verifyMerkle short]
    exact ⟨fun climbs value' same => Option.some.inj same ▸ climbs, fun all => all value rfl⟩

end

/-! ### One level -/

variable {G G₂ Gt H : Type} {depths : Nat} [Curve G] [AddCommGroup G₂] [AddCommGroup Gt]
  (pairing : G →+ G₂ →+ Gt) (pp : AMTParams G G₂ depths)

/-- The level has an index and a scalar, and the opening at that index is accepted. -/
def AmtAccepted (key : Key) (levelProof : LevelProof G H) (level : Nat) : Prop :=
  ∃ (index : Fin (2 ^ depths)) (scalar : Fr),
    key.indexAtLevel depths (level % 2 ^ 8) = some index.val ∧
      levelProof.nodeFrInt.toFr = some scalar ∧
      AMTree.SumCheck pp index scalar levelProof.commitment levelProof.amtProof ∧
      AMTree.PairingChecks pairing pp index 0 levelProof.amtProof ∧
      levelProof.amtProof.length ≤ depths

/-- What the verifier does not check of a level before it computes with it. -/
structure AmtSafe (key : Key) (levelProof : LevelProof G H) (level : Nat) : Prop where
  /-- The level starts within the key. -/
  inside : level % 2 ^ 8 * depths / 8 ≤ key.bytes.len
  /-- The integer is a scalar. -/
  canonical : levelProof.nodeFrInt.toNat < FrParams.MODULUS
  /-- No node is left when the equations for every depth of the tree hold. -/
  short : ∀ (index : Fin (2 ^ depths)) (scalar : Fr),
    key.indexAtLevel depths (level % 2 ^ 8) = some index.val →
      levelProof.nodeFrInt.toFr = some scalar →
        AMTree.SumCheck pp index scalar levelProof.commitment levelProof.amtProof →
          AMTree.PairingChecks pairing pp index 0 levelProof.amtProof →
            levelProof.amtProof.length ≤ depths

/-- Every opening is accepted. -/
def AllAmtAccepted (key : Key) (levelProofs : List (LevelProof G H)) : Prop :=
  ∀ level levelProof, levelProofs[level]? = some levelProof →
    AmtAccepted pairing pp key levelProof level

/-- Every level up to the first that is not accepted is safe. -/
def AllAmtSafe (key : Key) (levelProofs : List (LevelProof G H)) : Prop :=
  ∀ level levelProof, levelProofs[level]? = some levelProof →
    (∀ earlier < level, ∀ levelProof', levelProofs[earlier]? = some levelProof' →
      AmtAccepted pairing pp key levelProof' earlier) →
      AmtSafe pairing pp key levelProof level

/-- A key of 32 bytes has at most 33 levels that start within it. -/
theorem length_le_of_accepted (deep : 8 ≤ depths) {key : Key} (length : key.bytes.len = 32)
    {levelProofs : List (LevelProof G H)} (accepted : AllAmtAccepted pairing pp key levelProofs) :
    levelProofs.length ≤ 33 := by
  by_contra long
  obtain ⟨index, -, indexed, -⟩ := accepted 33 _ (List.getElem?_eq_getElem (by omega))
  have inside := (indexAtLevel_isSome_iff deep pp.depths_le).mp ⟨_, indexed⟩
  rw [length] at inside
  omega

/-! ### The Merkle proofs -/

section

variable [H256 H]

/-- Every Merkle proof is accepted: the one of the value, if there is one, and the one of the
tree below each level. -/
def MerkleAccepted (depths : Nat) (root : UInt64 → H) (key : Key) (proof : Proof G H) : Prop :=
  (∀ value bottom, proof.1.value = some value → proof.2.getLast? = some bottom →
      ClimbsTo root bottom (keyValueHash key proof.1.verInfo value)) ∧
    ∀ level levelProof below, proof.2[level]? = some levelProof →
      proof.2[level + 1]? = some below →
        ∃ name, key.treeAtLevel depths (level + 1) = some name ∧
          ClimbsTo root levelProof
            (treeValueHash (name, levelProof.nodeVersion, below.commitment))

/-- The step of the loop over the trees below the levels, where the name of the tree exists. -/
theorem verifyTreeMerkle_of_name {root : UInt64 → H} {key : Key}
    {levelProof below : LevelProof G H} {level : Nat} {name : TreeName}
    (small : level % 2 ^ 8 + 1 < 2 ^ 8)
    (named : key.treeAtLevel depths (level % 2 ^ 8 + 1) = some name) :
    verifyTreeMerkle depths (fun epoch => some (root epoch)) key ((levelProof, below), level) =
      verifyMerkle (fun epoch => some (root epoch)) levelProof
        (treeValueHash (name, levelProof.nodeVersion, below.commitment))
        s!"Incorrect Merkle proof at level {level}" := by
  rw [verifyTreeMerkle, if_pos small, named]
  rfl

theorem verifyTreeMerkle_loop (deep : 8 ≤ depths) {key : Key} (length : key.bytes.len = 32)
    (root : UInt64 → H) {levelProofs : List (LevelProof G H)}
    (short : ∀ levelProof ∈ levelProofs, levelProof.merkleProof.1.length ≤ 64)
    (accepted : AllAmtAccepted pairing pp key levelProofs) :
    Total ((levelProofs.zip levelProofs.tail).zipIdx.forM
        (verifyTreeMerkle depths (fun epoch => some (root epoch)) key)) ∧
      (Gives ((levelProofs.zip levelProofs.tail).zipIdx.forM
          (verifyTreeMerkle depths (fun epoch => some (root epoch)) key)) () ↔
        ∀ level levelProof below, levelProofs[level]? = some levelProof →
          levelProofs[level + 1]? = some below →
            ∃ name, key.treeAtLevel depths (level + 1) = some name ∧
              ClimbsTo root levelProof
                (treeValueHash (name, levelProof.nodeVersion, below.commitment))) := by
  have few := length_le_of_accepted pairing pp deep length accepted
  have step : ∀ level levelProof below, levelProofs[level]? = some levelProof →
      levelProofs[level + 1]? = some below → level % 2 ^ 8 = level ∧
        ∃ name, key.treeAtLevel depths (level + 1) = some name ∧
          verifyTreeMerkle depths (fun epoch => some (root epoch)) key
              ((levelProof, below), level) =
            verifyMerkle (fun epoch => some (root epoch)) levelProof
              (treeValueHash (name, levelProof.nodeVersion, below.commitment))
              s!"Incorrect Merkle proof at level {level}" := by
    intro level levelProof below found _
    have present := (List.getElem?_eq_some_iff.mp found).1
    have small : level % 2 ^ 8 = level := Nat.mod_eq_of_lt (by omega)
    obtain ⟨name, named⟩ : ∃ name, key.treeAtLevel depths (level + 1) = some name := by
      refine treeAtLevel_isSome fun earlier below => ?_
      obtain ⟨index, -, indexed, -⟩ := accepted earlier _ (List.getElem?_eq_getElem (by omega))
      rw [Nat.mod_eq_of_lt (by omega : earlier < 2 ^ 8)] at indexed
      exact ⟨_, indexed⟩
    refine ⟨small, name, named, verifyTreeMerkle_of_name (by omega) ?_⟩
    rwa [small]
  constructor
  · rw [total_forM]
    rintro number ⟨⟨levelProof, below⟩, level⟩ found -
    obtain ⟨present, presentBelow⟩ := mem_zip_tail_zipIdx.mp (List.mem_of_getElem? found)
    obtain ⟨-, name, -, same⟩ := step level levelProof below present presentBelow
    rw [same]
    exact total_verifyMerkle (short _ (List.mem_of_getElem? present))
  · rw [gives_forM]
    constructor
    · intro all level levelProof below present presentBelow
      obtain ⟨-, name, named, same⟩ := step level levelProof below present presentBelow
      have gives := all _ (mem_zip_tail_zipIdx.mpr ⟨present, presentBelow⟩)
      rw [same, gives_verifyMerkle (short _ (List.mem_of_getElem? present))] at gives
      exact ⟨name, named, gives⟩
    · rintro all ⟨⟨levelProof, below⟩, level⟩ member
      obtain ⟨present, presentBelow⟩ := mem_zip_tail_zipIdx.mp member
      obtain ⟨-, name, named, same⟩ := step level levelProof below present presentBelow
      obtain ⟨name', named', climbs⟩ := all level levelProof below present presentBelow
      rw [same, gives_verifyMerkle (short _ (List.mem_of_getElem? present))]
      rw [named, Option.some.injEq] at named'
      exact named' ▸ climbs

end

/-! ### The loop over the openings -/

variable [DecidableEq Gt]

/-- One iteration of the loop over the openings. -/
def amtStep (key : Key) (entry : LevelProof G H × Nat) : ExceptT String Option Unit := do
  let amtIndex ← ExceptT.lift (key.indexAtLevel depths (entry.2 % 2 ^ 8))
  let scalar ← ExceptT.lift entry.1.nodeFrInt.toFr
  check (AMTree.verify pairing pp amtIndex scalar entry.1.commitment entry.1.amtProof)
    s!"Incorrect AMT proof at level {entry.2}"

theorem verifyAmt_eq (key : Key) (levelProofs : List (LevelProof G H)) :
    verifyAmt depths (AMTree.verify pairing pp) key levelProofs =
      levelProofs.zipIdx.forM (amtStep pairing pp key) := rfl

theorem gives_amtStep {key : Key} {levelProof : LevelProof G H} {level : Nat} :
    Gives (amtStep pairing pp key (levelProof, level)) () ↔
      AmtAccepted pairing pp key levelProof level := by
  show Gives (ExceptT.lift _ >>= fun _ => ExceptT.lift _ >>= fun _ => _) () ↔ _
  simp only [gives_bind, gives_lift, gives_check]
  constructor
  · rintro ⟨index, indexed, scalar, canonical, accepted⟩
    have bound : index < 2 ^ depths := Key.indexAtLevel_lt pp.depths_le indexed
    obtain ⟨sum, pairings, short⟩ :=
      (AMTree.verify_eq_true_iff pairing pp ⟨index, bound⟩ _ _ _).mp accepted
    exact ⟨⟨index, bound⟩, scalar, indexed, canonical, sum, pairings, short⟩
  · rintro ⟨index, scalar, indexed, canonical, sum, pairings, short⟩
    exact ⟨index, indexed, scalar, canonical,
      (AMTree.verify_eq_true_iff pairing pp index _ _ _).mpr ⟨sum, pairings, short⟩⟩

theorem total_amtStep (deep : 8 ≤ depths) {key : Key} {levelProof : LevelProof G H}
    {level : Nat} :
    Total (amtStep pairing pp key (levelProof, level)) ↔
      AmtSafe pairing pp key levelProof level := by
  show Total (ExceptT.lift _ >>= fun _ => ExceptT.lift _ >>= fun _ => _) ↔ _
  simp only [total_bind, total_lift, gives_lift, total_check]
  constructor
  · rintro ⟨indexed, rest⟩
    obtain ⟨index, found⟩ := indexed
    obtain ⟨⟨scalar, canonical⟩, -⟩ := rest index found
    refine ⟨(indexAtLevel_isSome_iff deep pp.depths_le).mp ⟨index, found⟩, ?_, ?_⟩
    · unfold FrInt.toFr at canonical
      by_contra large
      rw [if_neg large] at canonical
      cases canonical
    · intro index' scalar' found' canonical' sum pairings
      by_contra long
      refine (rest index'.val found').2 scalar' canonical' ?_
      exact (AMTree.verify_eq_none_iff pairing pp index' _ _ _).mpr
        ⟨sum, pairings, Nat.lt_of_not_le long⟩
  · rintro ⟨inside, canonical, short⟩
    refine ⟨(indexAtLevel_isSome_iff deep pp.depths_le).mpr inside, fun index found => ?_⟩
    refine ⟨⟨_, if_pos canonical⟩, fun scalar isScalar panics => ?_⟩
    have bound : index < 2 ^ depths := Key.indexAtLevel_lt pp.depths_le found
    obtain ⟨sum, pairings, long⟩ :=
      (AMTree.verify_eq_none_iff pairing pp ⟨index, bound⟩ _ _ _).mp panics
    exact absurd (short ⟨index, bound⟩ scalar found isScalar sum pairings) (Nat.not_le.mpr long)

theorem gives_verifyAmt {key : Key} {levelProofs : List (LevelProof G H)} :
    Gives (verifyAmt depths (AMTree.verify pairing pp) key levelProofs) () ↔
      AllAmtAccepted pairing pp key levelProofs := by
  rw [verifyAmt_eq, gives_forM]
  constructor
  · intro all level levelProof found
    refine (gives_amtStep pairing pp).mp (all (levelProof, level) ?_)
    exact List.mem_zipIdx_iff_getElem?.mpr found
  · rintro all ⟨levelProof, level⟩ member
    exact (gives_amtStep pairing pp).mpr
      (all level levelProof (List.mem_zipIdx_iff_getElem?.mp member))

theorem total_verifyAmt (deep : 8 ≤ depths) {key : Key} {levelProofs : List (LevelProof G H)} :
    Total (verifyAmt depths (AMTree.verify pairing pp) key levelProofs) ↔
      AllAmtSafe pairing pp key levelProofs := by
  rw [verifyAmt_eq, total_forM]
  have found_iff : ∀ (level number : Nat) (levelProof : LevelProof G H),
      levelProofs.zipIdx[number]? = some (levelProof, level) ↔
        levelProofs[number]? = some levelProof ∧ number = level := by
    intro level number levelProof
    rw [List.getElem?_zipIdx, Option.map_eq_some_iff]
    simp only [Prod.mk.injEq, Nat.zero_add]
    constructor
    · rintro ⟨_, found, rfl, rfl⟩
      exact ⟨found, rfl⟩
    · rintro ⟨found, rfl⟩
      exact ⟨levelProof, found, rfl, rfl⟩
  constructor
  · intro all level levelProof found accepted
    refine (total_amtStep pairing pp deep).mp
      (all level (levelProof, level) ((found_iff _ _ _).mpr ⟨found, rfl⟩) ?_)
    rintro earlier below ⟨levelProof', level'⟩ found'
    obtain ⟨present, rfl⟩ := (found_iff _ _ _).mp found'
    exact (gives_amtStep pairing pp).mpr (accepted earlier below levelProof' present)
  · rintro all number ⟨levelProof, level⟩ found accepted
    obtain ⟨present, rfl⟩ := (found_iff _ _ _).mp found
    refine (total_amtStep pairing pp deep).mpr
      (all number levelProof present fun earlier below levelProof' found' => ?_)
    exact (gives_amtStep pairing pp).mp
      (accepted earlier below (levelProof', earlier) ((found_iff _ _ _).mpr ⟨found', rfl⟩))

/-! ### The verifier -/

variable [H256 H]

/-- For a key of 32 bytes, Merkle paths of at most 64 hashes and roots for every epoch the
verifier ends with a result or an error exactly when there is a level, every level up to the
first whose opening is rejected starts within the key, carries a scalar and has no more nodes
than the tree is deep unless an equation fails, and the slot number is below five unless an
opening or a Merkle proof is rejected. -/
theorem verify_total_iff (deep : 8 ≤ depths) {key : Key} (length : key.bytes.len = 32)
    (proof : Proof G H) (root : UInt64 → H)
    (short : ∀ levelProof ∈ proof.2, levelProof.merkleProof.1.length ≤ 64) :
    Total (verify depths (AMTree.verify pairing pp) key proof fun epoch => some (root epoch)) ↔
      proof.2 ≠ [] ∧ AllAmtSafe pairing pp key proof.2 ∧
        (AllAmtAccepted pairing pp key proof.2 → MerkleAccepted depths root key proof →
          proof.1.verInfo.slotIndex.toNat < 5) := by
  have sequence : verify depths (AMTree.verify pairing pp) key proof
      (fun epoch => some (root epoch)) =
        (verifyAmt depths (AMTree.verify pairing pp) key proof.2 >>= fun _ =>
          ExceptT.lift proof.2.getLast? >>= fun bottom =>
            verifyKeyMerkle (fun epoch => some (root epoch)) key proof.1 bottom >>= fun _ =>
              (proof.2.zip proof.2.tail).zipIdx.forM
                  (verifyTreeMerkle depths (fun epoch => some (root epoch)) key) >>= fun _ =>
                verifyVersion bottom (proof.1.verInfo.slotIndex.toNat + 1)
                    "Inconsistent version value at level -1" >>= fun _ =>
                  proof.2.dropLast.zipIdx.forM fun entry =>
                    verifyVersion entry.1 0 s!"Inconsistent version value at level {entry.2}") :=
    rfl
  have upperTotal : Total (proof.2.dropLast.zipIdx.forM fun entry =>
      verifyVersion entry.1 0 s!"Inconsistent version value at level {entry.2}") :=
    total_forM.mpr fun _ _ _ _ => total_verifyVersion.mpr (by norm_num)
  rw [sequence]
  simp only [total_bind, total_verifyAmt pairing pp deep]
  constructor
  · rintro ⟨safe, rest⟩
    have nonempty : proof.2 ≠ [] := by
      intro empty
      have accepted : AllAmtAccepted pairing pp key proof.2 := by
        intro level levelProof found
        rw [empty] at found
        simp at found
      obtain ⟨present, -⟩ := rest () ((gives_verifyAmt pairing pp).mpr accepted)
      obtain ⟨bottom, last⟩ := total_lift.mp present
      rw [empty] at last
      cases last
    refine ⟨nonempty, safe, fun accepted merkle => ?_⟩
    obtain ⟨-, after⟩ := rest () ((gives_verifyAmt pairing pp).mpr accepted)
    have last := List.getLast?_eq_some_getLast nonempty
    set bottom := proof.2.getLast nonempty
    have bottomShort := short _ (List.mem_of_getLast? last)
    obtain ⟨-, after⟩ := after bottom (gives_lift.mpr last)
    obtain ⟨-, after⟩ := after () ((gives_verifyKeyMerkle bottomShort key proof.1).mpr
      fun value isValue => merkle.1 value bottom isValue last)
    obtain ⟨versionTotal, -⟩ := after ()
      ((verifyTreeMerkle_loop pairing pp deep length root short accepted).2.mpr merkle.2)
    exact Nat.lt_of_succ_lt_succ (total_verifyVersion.mp versionTotal)
  · rintro ⟨nonempty, safe, slot⟩
    refine ⟨safe, fun _ gives => ?_⟩
    have accepted := (gives_verifyAmt pairing pp).mp gives
    have last := List.getLast?_eq_some_getLast nonempty
    refine ⟨total_lift.mpr ⟨_, last⟩, fun bottom isBottom => ?_⟩
    have lastIsBottom := gives_lift.mp isBottom
    have bottomShort := short _ (List.mem_of_getLast? lastIsBottom)
    refine ⟨total_verifyKeyMerkle bottomShort key proof.1, fun _ keyGives => ?_⟩
    obtain ⟨treeTotal, treeGives_iff⟩ :=
      verifyTreeMerkle_loop pairing pp deep length root short accepted
    refine ⟨treeTotal, fun _ treeGives => ⟨total_verifyVersion.mpr ?_, fun _ _ => upperTotal⟩⟩
    have merkle : MerkleAccepted depths root key proof := by
      refine ⟨fun value bottom' isValue isBottom' => ?_, treeGives_iff.mp treeGives⟩
      obtain rfl := Option.some.inj (lastIsBottom.symm.trans isBottom')
      exact (gives_verifyKeyMerkle bottomShort key proof.1).mp keyGives value isValue
    exact Nat.succ_lt_succ (slot accepted merkle)

/-! ### Two levels -/

/-- The key of 32 zeros. -/
def zeroKey : Key := ⟨⟨List.replicate 32 0, by norm_num⟩⟩

theorem zeroKey_len : zeroKey.bytes.len = 32 := List.length_replicate

theorem eight_le : 8 ≤ 28 := by decide

/-- Eight bits for each level, and every point is the generator. -/
def openingParams : AMTParams Fr Fr 8 where
  commitments _ := 1
  quotients _ _ := 1
  verification _ _ := 1
  g2 := 1
  depths_le := eight_le

/-- A level with one node in its opening and one hash in its Merkle path. -/
def shortLevel (epoch position : UInt64) (sibling : Transcript) (opening : Fr) (frInt : FrInt)
    (version : UInt64) : LevelProof Fr Transcript where
  merkleEpoch := epoch
  merkleProof := ([sibling], position)
  amtProof := [⟨opening, opening⟩]
  commitment := mul 1 frInt + opening
  nodeFrInt := frInt
  nodeVersion := version

theorem shortLevel_accepted {epoch position version : UInt64} {sibling : Transcript}
    {opening : Fr} {frInt : FrInt} {level : Nat} (canonical : frInt.toNat < FrParams.MODULUS)
    (indexed : zeroKey.indexAtLevel 8 (level % 2 ^ 8) = some 0) :
    AmtAccepted fieldPairing openingParams zeroKey
      (shortLevel epoch position sibling opening frInt version) level := by
  have isScalar : frInt.toFr = some (frInt.toNat : Fr) := if_pos canonical
  refine ⟨0, _, indexed, isScalar, ?_, ?_, (by decide : 1 ≤ 8)⟩
  · rw [AMTree.SumCheck, (FrInt.ofFr_toFr isScalar).1]
    exact congrArg (mul 1 frInt + ·) List.sum_singleton.symm
  · rintro (_ | offset) inside node found
    · obtain rfl := Option.some.inj found
      exact ⟨1, rfl, rfl⟩
    · cases found

/-- The last slot of this leaf has version 4. -/
def lowerLevel : LevelProof Fr Transcript := shortLevel 1 1 ⟨[2]⟩ 7 (4 <<< 200) 4

/-- The leaf of the level above has version 3. -/
def twoLevels (slot : UInt8) : Proof Fr Transcript :=
  (⟨some (.single 9), ⟨4, 1, slot⟩⟩, [shortLevel 0 0 ⟨[1]⟩ 5 3 3, lowerLevel])

/-- The roots to which the paths of `twoLevels` lead. -/
def twoLevelsRoot (slot : UInt8) (epoch : UInt64) : Transcript :=
  if epoch = 0 then
    combineHash (treeValueHash (TreeName.root.child 0, 3, lowerLevel.commitment)) ⟨[1]⟩
  else
    combineHash ⟨[2]⟩ (keyValueHash zeroKey ⟨4, 1, slot⟩ (.single 9))

theorem twoLevels_short (slot : UInt8) :
    ∀ levelProof ∈ (twoLevels slot).2, levelProof.merkleProof.1.length ≤ 64 := by
  intro levelProof member
  fin_cases member <;> exact (by decide : 1 ≤ 64)

theorem twoLevels_accepted (slot : UInt8) :
    AllAmtAccepted fieldPairing openingParams zeroKey (twoLevels slot).2
  | 0, _, found => Option.some.inj found ▸ shortLevel_accepted (by decide) (by decide)
  | 1, _, found => Option.some.inj found ▸ shortLevel_accepted (by decide) (by decide)
  | _ + 2, _, found => nomatch found

theorem twoLevels_merkle (slot : UInt8) :
    MerkleAccepted 8 (twoLevelsRoot slot) zeroKey (twoLevels slot) := by
  constructor
  · rintro value bottom ⟨⟩ ⟨⟩
    exact (if_neg (by decide : (1 : UInt64) ≠ 0)).symm
  · intro level levelProof below found foundBelow
    rcases level with _ | level
    · obtain rfl := Option.some.inj found
      obtain rfl := Option.some.inj foundBelow
      exact ⟨TreeName.root.child 0, rfl, (if_pos (rfl : (0 : UInt64) = 0)).symm⟩
    · cases foundBelow

/-- With the last slot number the verifier ends. With the next one it panics, although every opening
and every Merkle proof is accepted. -/
theorem verify_total_iff_twoLevels :
    Total (verify 8 (AMTree.verify fieldPairing openingParams) zeroKey (twoLevels 4)
        fun epoch => some (twoLevelsRoot 4 epoch)) ∧
      ¬ Total (verify 8 (AMTree.verify fieldPairing openingParams) zeroKey (twoLevels 5)
        fun epoch => some (twoLevelsRoot 5 epoch)) := by
  constructor
  · have safe : AllAmtSafe fieldPairing openingParams zeroKey (twoLevels 4).2 := by
      refine (total_verifyAmt fieldPairing openingParams le_rfl).mp fun panics => ?_
      cases panics.symm.trans
        ((gives_verifyAmt fieldPairing openingParams).mpr (twoLevels_accepted 4))
    exact (verify_total_iff fieldPairing openingParams le_rfl zeroKey_len (twoLevels 4)
      (twoLevelsRoot 4) (twoLevels_short 4)).mpr
        ⟨List.cons_ne_nil _ _, safe, fun _ _ => (by decide : 4 < 5)⟩
  · intro total
    obtain ⟨-, -, slot⟩ := (verify_total_iff fieldPairing openingParams le_rfl zeroKey_len
      (twoLevels 5) (twoLevelsRoot 5) (twoLevels_short 5)).mp total
    exact absurd (slot (twoLevels_accepted 5) (twoLevels_merkle 5)) (by decide)

/-! ### No level -/

/-- The proof without levels. -/
def emptyProof : Proof Fr Transcript := (⟨none, default⟩, [])

theorem emptyProof_short : ∀ levelProof ∈ emptyProof.2, levelProof.merkleProof.1.length ≤ 64 :=
  fun _ member => absurd member List.not_mem_nil

/-- A proof without levels makes the verifier panic. -/
theorem verify_panics :
    ¬ ∀ (key : Key) (proof : Proof Fr Transcript) (root : UInt64 → Transcript),
      key.bytes.len = 32 →
        (∀ levelProof ∈ proof.2, levelProof.merkleProof.1.length ≤ 64) →
          Total (verify 8 (AMTree.verify fieldPairing AMTParams.eightBits) key proof
            fun epoch => some (root epoch)) := by
  intro total
  have panics : (verify 8 (AMTree.verify fieldPairing AMTParams.eightBits) zeroKey emptyProof
      fun _ => some default).run = none := rfl
  exact total zeroKey emptyProof (fun _ => default) zeroKey_len emptyProof_short panics

end LvmtDB

end AuthStorage.Lvmt
