/-
This file models the caches of `crypto/prove_params.rs` and the multiplication
that fills them. A cache of a point holds its multiples by powers of two, under
the position of the bit; a product is the sum of the entries for the set bits of
the power, lowest first, and a missing entry is computed and kept. The warm-up
enters six multiples of every quotient, forty bits apart. Entries are only ever
right, so whatever was asked before, a product is the product.
-/

import AuthStorage.Lvmt.AMTree
import AuthStorage.Lvmt.NodeIndex
import AuthStorage.Library.Partial

namespace AuthStorage.Lvmt

variable {G G₂ : Type} {depths : Nat} [Curve G]

/-! ### The loop over the bits -/

/-- `BTreeMap<usize, G1>`, keyed by the position of a bit. -/
abbrev PowCache (G : Type) := Nat → Option G

namespace PowCache

/-- `caches.entry(idx).or_insert_with(..)`. -/
def entryOrInsert (point : G) (caches : PowCache G) (idx : Nat) : G × PowCache G :=
  match caches idx with
  | some entry => (entry, caches)
  | none =>
    let entry := mul point (FrInt.muln 1 idx)
    (entry, Function.update caches idx (some entry))

theorem ctz_lt_iff (limb : BitVec 64) : limb.ctz.toNat < 64 ↔ limb ≠ 0#64 := by
  rw [← BitVec.ctz_lt_iff_ne_zero, BitVec.lt_def]
  rfl

/-- Clearing the lowest set bit takes its power off. -/
theorem toNat_clear_lowest {limb : BitVec 64} (more : limb.ctz.toNat < 64) :
    limb.toNat = (limb ^^^ 1#64 <<< limb.ctz.toNat).toNat + 2 ^ limb.ctz.toNat := by
  have lowest := BitVec.getLsbD_true_ctz_of_ne_zero ((ctz_lt_iff limb).mp more)
  generalize limb.ctz.toNat = bitIdx at more lowest ⊢
  rw [← BitVec.twoPow_eq]
  have apart : (limb ^^^ BitVec.twoPow 64 bitIdx) &&& BitVec.twoPow 64 bitIdx = 0#64 := by
    apply BitVec.eq_of_getLsbD_eq
    intro position inside
    by_cases same : bitIdx = position
    · simp [← same, more, lowest]
    · simp [same]
  have whole : (limb ^^^ BitVec.twoPow 64 bitIdx) + BitVec.twoPow 64 bitIdx = limb := by
    rw [BitVec.add_eq_or_of_and_eq_zero _ _ apart]
    apply BitVec.eq_of_getLsbD_eq
    intro position inside
    by_cases same : bitIdx = position
    · simp [← same, more, lowest]
    · simp [same]
  have split := BitVec.toNat_add_of_and_eq_zero apart
  rwa [whole, BitVec.toNat_twoPow, Nat.mod_eq_of_lt (Nat.pow_lt_pow_right (by norm_num) more)]
    at split

/-- `while limb.trailing_zeros() < 64`. -/
def bitLoop (point : G) (dwordIdx : Nat) (limb : BitVec 64) (state : PowCache G × G) :
    PowCache G × G :=
  if _more : limb.ctz.toNat < 64 then
    let bitIdx := limb.ctz.toNat
    let entry := entryOrInsert point state.1 (dwordIdx * 64 + bitIdx)
    bitLoop point dwordIdx (limb ^^^ 1#64 <<< bitIdx) (entry.2, state.2 + entry.1)
  else
    state
termination_by limb.toNat
decreasing_by
  rw [toNat_clear_lowest _more]
  exact Nat.lt_add_of_pos_right (Nat.two_pow_pos _)

/-- The limbs of `power.as_ref()`, the lowest first. -/
def limbs (power : FrInt) : List (BitVec 64) :=
  [power.extractLsb' 0 64, power.extractLsb' 64 64, power.extractLsb' 128 64,
    power.extractLsb' 192 64]

/-- The common body of the two cached products. -/
def powFrom (point : G) (caches : PowCache G) (power : FrInt) : PowCache G × G :=
  (limbs power).zipIdx.foldl (fun state (n, dwordIdx) => bitLoop point dwordIdx n state)
    (caches, 0)

/-! ### Entries are right -/

/-- Every entry is the multiple of the point by the power of two of its position. -/
def Holds (point : G) (caches : PowCache G) : Prop :=
  ∀ idx entry, caches idx = some entry → idx < 256 ∧ entry = 2 ^ idx • point

theorem holds_empty (point : G) : Holds point fun _ => none := nofun

theorem Holds.insert {point : G} {caches : PowCache G} (holds : Holds point caches) {idx : Nat}
    (inside : idx < 256) :
    Holds point (Function.update caches idx (some (mul point (FrInt.muln 1 idx)))) := by
  intro other entry found
  by_cases same : other = idx
  · subst same
    rw [Function.update_self, Option.some.injEq] at found
    exact ⟨inside, by rw [← found, mul_muln_one point inside]⟩
  · rw [Function.update_of_ne same] at found
    exact holds other entry found

/-- A cached entry is the one that would be computed. -/
theorem entryOrInsert_spec {point : G} {caches : PowCache G} (holds : Holds point caches)
    {idx : Nat} (inside : idx < 256) :
    (entryOrInsert point caches idx).1 = 2 ^ idx • point ∧
      Holds point (entryOrInsert point caches idx).2 := by
  unfold entryOrInsert
  cases found : caches idx with
  | some entry => exact ⟨(holds idx entry found).2, holds⟩
  | none => exact ⟨mul_muln_one point inside, holds.insert inside⟩

/-- The loop adds the multiple by its limb, at the place of the limb. -/
theorem bitLoop_spec {point : G} {dwordIdx : Nat} (place : dwordIdx < 4) (limb : BitVec 64)
    (state : PowCache G × G) (holds : Holds point state.1) :
    Holds point (bitLoop point dwordIdx limb state).1 ∧
      (bitLoop point dwordIdx limb state).2 =
        state.2 + (limb.toNat * 2 ^ (dwordIdx * 64)) • point := by
  induction limb, state using bitLoop.induct point dwordIdx with
  | case1 limb state more bitIdx entry inductionHypothesis =>
    have inside : dwordIdx * 64 + bitIdx < 256 := by
      have room : dwordIdx * 64 ≤ 3 * 64 := Nat.mul_le_mul_right _ (Nat.le_of_lt_succ place)
      omega
    have spec := entryOrInsert_spec holds inside
    have rest := inductionHypothesis spec.2
    rw [bitLoop, dif_pos more]
    refine ⟨rest.1, rest.2.trans ?_⟩
    rw [spec.1, toNat_clear_lowest more, add_mul, add_smul, ← pow_add, add_assoc,
      Nat.add_comm (dwordIdx * 64)]
    exact congrArg (state.2 + ·) (add_comm _ _)
  | case2 limb state done =>
    have zero : limb = 0#64 := by
      by_contra notZero
      exact done ((ctz_lt_iff limb).mpr notZero)
    rw [bitLoop, dif_neg done, zero]
    refine ⟨holds, ?_⟩
    rw [BitVec.toNat_zero, Nat.zero_mul, zero_smul, add_zero]

theorem toNat_limbs (power : FrInt) :
    (power.extractLsb' 0 64).toNat + (power.extractLsb' 64 64).toNat * 2 ^ 64 +
      (power.extractLsb' 128 64).toNat * 2 ^ 128 + (power.extractLsb' 192 64).toNat * 2 ^ 192 =
        power.toNat := by
  have bound := power.isLt
  simp only [BitVec.extractLsb'_toNat, Nat.shiftRight_eq_div_pow]
  omega

/-- A product through a cache is the product, and leaves the cache right. -/
theorem powFrom_spec {point : G} {caches : PowCache G} (holds : Holds point caches)
    (power : FrInt) :
    Holds point (powFrom point caches power).1 ∧ (powFrom point caches power).2 = mul point power := by
  have first := bitLoop_spec (show 0 < 4 by norm_num) (power.extractLsb' 0 64) (caches, 0) holds
  have second := bitLoop_spec (show 1 < 4 by norm_num) (power.extractLsb' 64 64) _ first.1
  have third := bitLoop_spec (show 2 < 4 by norm_num) (power.extractLsb' 128 64) _ second.1
  have fourth := bitLoop_spec (show 3 < 4 by norm_num) (power.extractLsb' 192 64) _ third.1
  refine ⟨fourth.1, fourth.2.trans ?_⟩
  rw [third.2, second.2, first.2, mul, ← toNat_limbs power, add_smul, add_smul, add_smul, zero_add,
    Nat.zero_mul, pow_zero, Nat.mul_one]

end PowCache

/-! ### The caches of the parameters -/

/-- The tables of powers, one for each indent and one for each quotient. -/
structure PowCaches (G : Type) (depths : Nat) where
  indentsCache : Fin (2 ^ depths) → PowCache G
  /-- Indexed by `depth - 1`, then by leaf. -/
  quotientsCache : Fin depths → Fin (2 ^ depths) → PowCache G

namespace PowCaches

/-- The caches of parameters that were just built or loaded. -/
def new : PowCaches G depths where
  indentsCache _ _ := none
  quotientsCache _ _ _ := none

/-- Replace one table of an indent. -/
def setIndents (caches : PowCaches G depths) (index : Fin (2 ^ depths)) (cache : PowCache G) :
    PowCaches G depths :=
  { caches with indentsCache := Function.update caches.indentsCache index cache }

/-- Replace one table of a quotient. -/
def setQuotients (caches : PowCaches G depths) (row : Fin depths) (index : Fin (2 ^ depths))
    (cache : PowCache G) : PowCaches G depths :=
  { caches with
    quotientsCache := Function.update caches.quotientsCache row
      (Function.update (caches.quotientsCache row) index cache) }

/-- A power of an indent, and the caches afterwards. -/
def getIdentsPow (pp : AMTParams G G₂ depths) (caches : PowCaches G depths) (index : Nat)
    (power : FrInt) : Option (PowCaches G depths × G) := do
  let index ← checkIndex depths index
  let (cache, answer) := (caches.indentsCache index).powFrom (pp.commitments index) power
  some (caches.setIndents index cache, answer)

/-- `quotient_cache[depth - 1]`; the subtraction panics at zero. -/
def checkDepth (depths : Nat) : Nat → Option (Fin depths)
  | 0 => none
  | row + 1 => if inside : row < depths then some ⟨row, inside⟩ else none

/-- A power of a quotient, and the caches afterwards. -/
def getQuotientPow (pp : AMTParams G G₂ depths) (caches : PowCaches G depths) (depth index : Nat)
    (power : FrInt) : Option (PowCaches G depths × G) := do
  let row ← checkDepth depths depth
  let index ← checkIndex depths index
  let (cache, answer) := (caches.quotientsCache row index).powFrom (pp.quotients row index) power
  some (caches.setQuotients row index cache, answer)

/-- The powers of the warm-up, each 40 bits above the last. -/
def vecFrInt : Nat → FrInt → List FrInt
  | 0, _ => []
  | count + 1, frInt => frInt :: vecFrInt count (FrInt.muln frInt 40)

/-- The entries of one quotient: the `k`-th goes to position `k * 40`. -/
def warmCache (cache : PowCache G) (quotientPow : List G) : PowCache G :=
  quotientPow.zipIdx.foldl (fun cache (entry, k) => Function.update cache (k * 40) (some entry)) cache

/-- One row: the points are multiplied first, then entered, both in bit-reversed order. -/
def warmRow (pp : AMTParams G G₂ depths) (caches : PowCaches G depths) (row : Fin depths) :
    PowCaches G depths :=
  let index (j : Nat) : Fin (2 ^ depths) := ⟨bitreverse j depths, bitreverse_lt _ _⟩
  let quotientPow := (List.range (2 ^ depths)).map fun j =>
    (vecFrInt 6 1).map (mul (pp.quotients row (index j)))
  quotientPow.zipIdx.foldl (fun caches (entries, j) =>
    caches.setQuotients row (index j)
      (warmCache (caches.quotientsCache row (index j)) entries)) caches

/-- `warm_quotient`; `quotient_cache[0]` is out of range for parameters of depth zero. -/
def warmQuotient (pp : AMTParams G G₂ depths) (caches : PowCaches G depths) :
    Option (PowCaches G depths) :=
  if 0 < depths then some ((List.finRange depths).foldl (warmRow pp) caches) else none

/-! ### All entries are right -/

/-- Every entry of every cache is right. -/
structure Hold (pp : AMTParams G G₂ depths) (caches : PowCaches G depths) : Prop where
  indents : ∀ index, PowCache.Holds (pp.commitments index) (caches.indentsCache index)
  quotients : ∀ row index, PowCache.Holds (pp.quotients row index) (caches.quotientsCache row index)

theorem hold_new (pp : AMTParams G G₂ depths) : Hold pp new where
  indents _ := PowCache.holds_empty _
  quotients _ _ := PowCache.holds_empty _

theorem Hold.setIndents {pp : AMTParams G G₂ depths} {caches : PowCaches G depths}
    (hold : Hold pp caches) {index : Fin (2 ^ depths)} {cache : PowCache G}
    (holds : PowCache.Holds (pp.commitments index) cache) :
    Hold pp (caches.setIndents index cache) where
  indents := by
    intro other
    show PowCache.Holds _ (Function.update caches.indentsCache index cache other)
    by_cases same : other = index
    · subst same
      rwa [Function.update_self]
    · rw [Function.update_of_ne same]
      exact hold.indents other
  quotients := hold.quotients

theorem Hold.setQuotients {pp : AMTParams G G₂ depths} {caches : PowCaches G depths}
    (hold : Hold pp caches) {row : Fin depths} {index : Fin (2 ^ depths)} {cache : PowCache G}
    (holds : PowCache.Holds (pp.quotients row index) cache) :
    Hold pp (caches.setQuotients row index cache) where
  indents := hold.indents
  quotients := by
    intro otherRow other
    show PowCache.Holds _ (Function.update caches.quotientsCache row
      (Function.update (caches.quotientsCache row) index cache) otherRow other)
    by_cases sameRow : otherRow = row
    · subst sameRow
      rw [Function.update_self]
      by_cases same : other = index
      · subst same
        rwa [Function.update_self]
      · rw [Function.update_of_ne same]
        exact hold.quotients otherRow other
    · rw [Function.update_of_ne sameRow]
      exact hold.quotients otherRow other

theorem Hold.getIdentsPow {pp : AMTParams G G₂ depths} {caches : PowCaches G depths}
    (hold : Hold pp caches) (index : Fin (2 ^ depths)) (power : FrInt) :
    ∃ next, caches.getIdentsPow pp index power = some (next, mul (pp.commitments index) power) ∧
      Hold pp next := by
  have spec := PowCache.powFrom_spec (hold.indents index) power
  refine ⟨_, ?_, hold.setIndents spec.1⟩
  rw [PowCaches.getIdentsPow, checkIndex_val, ← spec.2]
  rfl

theorem Hold.getQuotientPow {pp : AMTParams G G₂ depths} {caches : PowCaches G depths}
    (hold : Hold pp caches) {depth : Nat} {row : Fin depths}
    (inside : checkDepth depths depth = some row) (index : Fin (2 ^ depths)) (power : FrInt) :
    ∃ next, caches.getQuotientPow pp depth index power =
        some (next, mul (pp.quotients row index) power) ∧ Hold pp next := by
  have spec := PowCache.powFrom_spec (hold.quotients row index) power
  refine ⟨_, ?_, hold.setQuotients spec.1⟩
  rw [PowCaches.getQuotientPow, inside, checkIndex_val, ← spec.2]
  rfl

/-- The powers of the warm-up are those of its positions. -/
theorem vecFrInt_six : vecFrInt 6 1 = (List.range 6).map fun k => FrInt.muln 1 (k * 40) := by
  decide

theorem holds_warmCache {point : G} {cache : PowCache G} (holds : PowCache.Holds point cache) :
    PowCache.Holds point (warmCache cache ((vecFrInt 6 1).map (mul point))) := by
  rw [vecFrInt_six, List.map_map]
  exact (((((holds.insert (show 0 * 40 < 256 by norm_num)).insert
    (show 1 * 40 < 256 by norm_num)).insert (show 2 * 40 < 256 by norm_num)).insert
    (show 3 * 40 < 256 by norm_num)).insert (show 4 * 40 < 256 by norm_num)).insert
    (show 5 * 40 < 256 by norm_num)

theorem Hold.warmRow {pp : AMTParams G G₂ depths} {caches : PowCaches G depths}
    (hold : Hold pp caches) (row : Fin depths) : Hold pp (warmRow pp caches row) := by
  refine List.foldlRecOn _ _ hold fun caches hold item member => hold.setQuotients ?_
  have same : item.1 = (vecFrInt 6 1).map
      (mul (pp.quotients row ⟨bitreverse item.2 depths, bitreverse_lt _ _⟩)) := by
    have found := List.mem_zipIdx_iff_getElem?.mp member
    rw [List.getElem?_map] at found
    obtain ⟨j, counted, entries⟩ := Option.map_eq_some_iff.mp found
    obtain ⟨inside, rfl⟩ := List.getElem?_eq_some_iff.mp counted
    rw [List.getElem_range] at entries
    exact entries.symm
  rw [same]
  exact holds_warmCache (hold.quotients row _)

theorem Hold.warmQuotient {pp : AMTParams G G₂ depths} {caches : PowCaches G depths}
    (hold : Hold pp caches) (positive : 0 < depths) :
    ∃ next, caches.warmQuotient pp = some next ∧ Hold pp next :=
  ⟨_, if_pos positive, List.foldlRecOn _ _ hold fun _ hold row _ => hold.warmRow row⟩

end PowCaches

/-! ### Runs -/

/-- The calls that use the tables. -/
inductive PowCall
  | warmQuotient
  | getIdentsPow (index : Nat) (power : FrInt)
  | getQuotientPow (depth index : Nat) (power : FrInt)

namespace PowCaches

/-- A call, with the point it returns. -/
def step (pp : AMTParams G G₂ depths) (caches : PowCaches G depths) :
    PowCall → Option (PowCaches G depths × Option G)
  | .warmQuotient => (caches.warmQuotient pp).map fun caches => (caches, none)
  | .getIdentsPow index power =>
    (caches.getIdentsPow pp index power).map fun (caches, answer) => (caches, some answer)
  | .getQuotientPow depth index power =>
    (caches.getQuotientPow pp depth index power).map fun (caches, answer) => (caches, some answer)

end PowCaches

namespace PowCall

/-- The calls that do not index out of range. -/
def InRange (depths : Nat) : PowCall → Prop
  | warmQuotient => 0 < depths
  | getIdentsPow index _ => index < 2 ^ depths
  | getQuotientPow depth index _ => (0 < depth ∧ depth ≤ depths) ∧ index < 2 ^ depths

/-- The same calls with the feature `no_cache_pow`. -/
def noCachePow (pp : AMTParams G G₂ depths) : PowCall → Option (Option G)
  | warmQuotient => if 0 < depths then some none else none
  | getIdentsPow index power =>
    (checkIndex depths index).map fun index => some (mul (pp.commitments index) power)
  | getQuotientPow depth index power => do
    let row ← PowCaches.checkDepth depths depth
    let index ← checkIndex depths index
    some (some (mul (pp.quotients row index) power))

end PowCall

namespace PowCaches

/-- A call with right caches returns the product, or panics with the uncached one. -/
theorem Hold.step {pp : AMTParams G G₂ depths} {caches : PowCaches G depths}
    (hold : Hold pp caches) (call : PowCall) :
    Option.Rel (fun x y => Hold pp x.1 ∧ x.2 = y) (step pp caches call) (call.noCachePow pp) := by
  cases call with
  | warmQuotient =>
    rw [PowCaches.step, PowCall.noCachePow]
    by_cases positive : 0 < depths
    · obtain ⟨next, done, kept⟩ := hold.warmQuotient positive
      rw [if_pos positive, done]
      exact Option.Rel.some ⟨kept, rfl⟩
    · rw [if_neg positive, PowCaches.warmQuotient, if_neg positive]
      exact Option.Rel.none
  | getIdentsPow index power =>
    rw [PowCaches.step, PowCall.noCachePow]
    cases inside : checkIndex depths index with
    | none =>
      rw [PowCaches.getIdentsPow, inside]
      exact Option.Rel.none
    | some bounded =>
      obtain ⟨next, done, kept⟩ := hold.getIdentsPow bounded power
      rw [checkIndex_eq_some inside, done]
      exact Option.Rel.some ⟨kept, rfl⟩
  | getQuotientPow depth index power =>
    rw [PowCaches.step, PowCall.noCachePow]
    cases row : checkDepth depths depth with
    | none =>
      rw [PowCaches.getQuotientPow, row]
      exact Option.Rel.none
    | some row' =>
      cases inside : checkIndex depths index with
      | none =>
        rw [PowCaches.getQuotientPow, row, inside]
        exact Option.Rel.none
      | some bounded =>
        obtain ⟨next, done, kept⟩ := hold.getQuotientPow row bounded power
        rw [checkIndex_eq_some inside, done]
        exact Option.Rel.some ⟨kept, rfl⟩

/-- Whatever was asked before, the cached products are the plain ones. -/
theorem Hold.run {pp : AMTParams G G₂ depths} {caches : PowCaches G depths}
    (hold : Hold pp caches) (calls : List PowCall) :
    (PartialRun.run (PowCaches.step pp) caches calls).map Prod.snd =
      calls.mapM (PowCall.noCachePow pp) := by
  induction calls generalizing caches with
  | nil => rfl
  | cons call rest inductionHypothesis =>
    rw [PartialRun.run_cons, List.mapM_cons]
    have stepped := hold.step call
    generalize PowCaches.step pp caches call = cached at stepped ⊢
    generalize call.noCachePow pp = plain at stepped ⊢
    cases stepped with
    | none => rfl
    | some both =>
      obtain ⟨kept, rfl⟩ := both
      show ((PartialRun.run _ _ rest).map _).map _ = Option.bind (rest.mapM _) _
      rw [← inductionHypothesis kept, Option.map_map, Option.bind_map, Option.map_eq_bind]
      rfl

end PowCaches

namespace PowCall

/-- The uncached calls panic only where an index is out of range. -/
theorem noCachePow_eq_some_iff (pp : AMTParams G G₂ depths) (call : PowCall) :
    (∃ product, call.noCachePow pp = some product) ↔ call.InRange depths := by
  rw [← Option.isSome_iff_exists]
  cases call with
  | warmQuotient =>
    rw [noCachePow, InRange]
    split <;> simp [*]
  | getIdentsPow index power =>
    rw [noCachePow, InRange, checkIndex]
    split <;> simp [*]
  | getQuotientPow depth index power =>
    rw [noCachePow, InRange, checkIndex]
    cases depth with
    | zero => simp [PowCaches.checkDepth]
    | succ row =>
      rw [PowCaches.checkDepth, Nat.succ_le_iff]
      split <;> split <;> simp [*]

/-- The products the trees are modelled with. -/
theorem noCachePow_getIdentsPow (pp : AMTParams G G₂ depths) (index : Fin (2 ^ depths))
    (power : FrInt) :
    (getIdentsPow index power).noCachePow pp = some (some (pp.getIdentsPow index power)) := by
  rw [noCachePow, checkIndex_val, AMTParams.getIdentsPow_eq]
  rfl

theorem noCachePow_getQuotientPow (pp : AMTParams G G₂ depths) (depth : Nat)
    (index : Fin (2 ^ depths)) (power : FrInt) :
    (getQuotientPow depth index power).noCachePow pp =
      (pp.getQuotientPow depth index power).map some := by
  rw [noCachePow, checkIndex_val, AMTParams.getQuotientPow, AMTParams.getQuotient]
  cases depth with
  | zero => rfl
  | succ row =>
    rw [PowCaches.checkDepth]
    by_cases inside : row < depths
    · rw [dif_pos inside, dif_pos ⟨row.succ_pos, inside⟩, Option.map_some, mulByTable_eq]
      rfl
    · rw [dif_neg inside, dif_neg fun both => inside both.2]
      rfl

end PowCall

namespace PowCaches

/-- From fresh caches every sequence of calls returns the plain products, and panics only where
an index is out of range. -/
theorem run_new (pp : AMTParams G G₂ depths) (calls : List PowCall) :
    (PartialRun.run (step pp) new calls).map Prod.snd = calls.mapM (PowCall.noCachePow pp) ∧
      ∀ call, (∃ product, PowCall.noCachePow pp call = some product) ↔ call.InRange depths :=
  ⟨(hold_new pp).run calls, PowCall.noCachePow_eq_some_iff pp⟩

end PowCaches

end AuthStorage.Lvmt
