/-
This file models `nibble.rs` and the two list helpers of `lib.rs`: half bytes,
the nibble list of a byte key, the packed keys of leaves and extensions, which
tell the two apart and whether the number of nibbles is odd, and common prefixes.
-/

import AuthStorage.Lvmt.Storage

namespace AuthStorage.RainblockTrie

open AuthStorage.Lvmt (Bytes)

/-- A nibble is below sixteen. -/
abbrev Nibble := Fin 16

/-- For the nibbles that are written as numbers. -/
instance Nibble.neZero : NeZero 16 := ⟨by decide⟩

namespace Nibble

/-- The high half of a byte. -/
def fromHi (x : UInt8) : Nibble := Fin.ofNat 16 (x >>> 4).toNat

/-- The low half of a byte. -/
def fromLo (x : UInt8) : Nibble := Fin.ofNat 16 (x &&& 0xf).toNat

/-- A byte of two halves. -/
def combinePair (hi lo : Nibble) : UInt8 := UInt8.ofNat (hi.val <<< 4 ||| lo.val)

theorem fromHi_combinePair (hi lo : Nibble) : fromHi (combinePair hi lo) = hi := by
  revert hi lo
  decide +kernel

theorem fromLo_combinePair (hi lo : Nibble) : fromLo (combinePair hi lo) = lo := by
  revert hi lo
  decide +kernel

theorem combinePair_fromHi_fromLo (x : UInt8) : combinePair (fromHi x) (fromLo x) = x := by
  have each : ∀ bits : Fin 256,
      combinePair (fromHi (UInt8.ofNat bits.val)) (fromLo (UInt8.ofNat bits.val)) =
        UInt8.ofNat bits.val := by
    decide +kernel
  have at_x := each ⟨x.toNat, x.toNat_lt⟩
  rwa [UInt8.ofNat_toNat] at at_x

end Nibble

/-! ### Byte keys -/

/-- The nibbles of a key, the high half of each byte first. -/
def bytesToNibbleList (data : Bytes) : List Nibble :=
  data.flatMap fun x => [Nibble.fromHi x, Nibble.fromLo x]

theorem bytesToNibbleList_cons (x : UInt8) (data : Bytes) :
    bytesToNibbleList (x :: data) =
      Nibble.fromHi x :: Nibble.fromLo x :: bytesToNibbleList data := rfl

theorem bytesToNibbleList_injective : Function.Injective bytesToNibbleList := by
  intro first second same
  induction first generalizing second with
  | nil =>
    cases second with
    | nil => rfl
    | cons y second => cases same
  | cons x first inductionHypothesis =>
    cases second with
    | nil => cases same
    | cons y second =>
      rw [bytesToNibbleList_cons, bytesToNibbleList_cons, List.cons.injEq, List.cons.injEq] at same
      obtain ⟨sameHi, sameLo, sameRest⟩ := same
      rw [inductionHypothesis sameRest, ← Nibble.combinePair_fromHi_fromLo x, sameHi, sameLo,
        Nibble.combinePair_fromHi_fromLo]

/-- Pack the nibbles in pairs; the lists to be packed have an even length. -/
def combinePairs : List Nibble → Bytes
  | hi :: lo :: rest => Nibble.combinePair hi lo :: combinePairs rest
  | _ => []

theorem bytesToNibbleList_combinePairs : ∀ {nibbles : List Nibble},
    nibbles.length % 2 = 0 → bytesToNibbleList (combinePairs nibbles) = nibbles
  | [], _ => rfl
  | [_], odd => by cases odd
  | hi :: lo :: rest, even => by
    have shorter : rest.length % 2 = 0 := by
      rw [List.length_cons, List.length_cons] at even
      omega
    rw [combinePairs, bytesToNibbleList_cons, Nibble.fromHi_combinePair,
      Nibble.fromLo_combinePair, bytesToNibbleList_combinePairs shorter]

/-! ### The keys of leaves and extensions -/

/-- The nibbles in front of the key: one or two, so that the whole has an even length. -/
def mptPrefix (odd leaf : Bool) : List Nibble :=
  match odd, leaf with
  | false, false => [0, 0]
  | true, false => [1]
  | false, true => [2, 0]
  | true, true => [3]

/-- The packed key of a leaf or an extension. -/
def toMptKey (key : List Nibble) (leaf : Bool) : Bytes :=
  combinePairs (mptPrefix (key.length % 2 == 1) leaf ++ key)

/-- An empty key, or one that ends before its padding, panics. -/
def fromMptKey (key : Bytes) : Option (List Nibble × Bool) :=
  match bytesToNibbleList key with
  | [] => none
  | ty :: rest =>
    let leaf := decide (ty.val &&& 2 ≠ 0)
    if ty.val &&& 1 = 0 then
      match rest with
      | [] => none
      | _ :: nibbles => some (nibbles, leaf)
    else
      some (rest, leaf)

theorem fromMptKey_toMptKey (key : List Nibble) (leaf : Bool) :
    fromMptKey (toMptKey key leaf) = some (key, leaf) := by
  have parity : (mptPrefix (key.length % 2 == 1) leaf ++ key).length % 2 = 0 := by
    rcases Nat.mod_two_eq_zero_or_one key.length with even | odd
    · cases leaf <;> simp [mptPrefix, even, Nat.add_mod]
    · cases leaf <;> simp [mptPrefix, odd, Nat.add_mod]
  rw [fromMptKey, toMptKey, bytesToNibbleList_combinePairs parity]
  cases key.length % 2 == 1 <;> cases leaf <;> rfl

/-! ### Common prefixes -/

/-- `common_prefix_iter`. -/
def commonPrefix (first second : List Nibble) : List Nibble :=
  ((first.zip second).takeWhile fun pair => pair.1 == pair.2).map Prod.fst

/-- `add_prefix`. -/
def addPrefix (base front : List Nibble) : List Nibble := front ++ base

theorem commonPrefix_cons_self (digit : Nibble) (first second : List Nibble) :
    commonPrefix (digit :: first) (digit :: second) = digit :: commonPrefix first second := by
  rw [commonPrefix, List.zip_cons_cons, List.takeWhile_cons, if_pos (beq_self_eq_true digit),
    List.map_cons, commonPrefix]

theorem commonPrefix_cons_ne {digit digit' : Nibble} (different : digit ≠ digit')
    (first second : List Nibble) : commonPrefix (digit :: first) (digit' :: second) = [] := by
  rw [commonPrefix, List.zip_cons_cons, List.takeWhile_cons,
    if_neg (fun same => different (beq_iff_eq.mp same)), List.map_nil]

theorem commonPrefix_split (first second : List Nibble) :
    ∃ firstRest secondRest, first = commonPrefix first second ++ firstRest ∧
      second = commonPrefix first second ++ secondRest ∧
      (firstRest.head? = secondRest.head? → firstRest = [] ∧ secondRest = []) := by
  induction first generalizing second with
  | nil =>
    refine ⟨[], second, rfl, rfl, fun same => ⟨rfl, ?_⟩⟩
    cases second with
    | nil => rfl
    | cons digit second => cases same
  | cons digit first inductionHypothesis =>
    cases second with
    | nil => exact ⟨digit :: first, [], rfl, rfl, fun same => by cases same⟩
    | cons digit' second =>
      by_cases same : digit = digit'
      · subst same
        obtain ⟨firstRest, secondRest, firstSplit, secondSplit, apart⟩ :=
          inductionHypothesis second
        refine ⟨firstRest, secondRest, ?_, ?_, apart⟩
        · rw [commonPrefix_cons_self, List.cons_append, ← firstSplit]
        · rw [commonPrefix_cons_self, List.cons_append, ← secondSplit]
      · refine ⟨digit :: first, digit' :: second, ?_, ?_, fun equal =>
          absurd (Option.some.inj equal) same⟩
        · rw [commonPrefix_cons_ne same, List.nil_append]
        · rw [commonPrefix_cons_ne same, List.nil_append]

/-- After the common prefix the lists differ at once, or both have ended. -/
theorem commonPrefix_spec (first second : List Nibble) :
    let shared := commonPrefix first second
    let firstRest := first.drop shared.length
    let secondRest := second.drop shared.length
    shared ++ firstRest = first ∧ shared ++ secondRest = second ∧
      (firstRest.head? = secondRest.head? → firstRest = [] ∧ secondRest = []) := by
  obtain ⟨firstRest, secondRest, firstSplit, secondSplit, apart⟩ := commonPrefix_split first second
  have firstDrop : first.drop (commonPrefix first second).length = firstRest :=
    (congrArg (List.drop _) firstSplit).trans (List.drop_left' rfl)
  have secondDrop : second.drop (commonPrefix first second).length = secondRest :=
    (congrArg (List.drop _) secondSplit).trans (List.drop_left' rfl)
  dsimp only
  rw [firstDrop, secondDrop]
  exact ⟨firstSplit.symm, secondSplit.symm, apart⟩

end AuthStorage.RainblockTrie
