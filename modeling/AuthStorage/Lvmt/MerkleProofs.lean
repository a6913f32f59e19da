/-
This file is about the proofs of the Merkle tree of an epoch. The dump is the
padded tree over its leaves, written level by level below the epoch's prefix;
the padding itself is not written, and a proof puts it back where the store has
nothing. So a proof made from the dump is the path of its position: it is
accepted against the root, and with an injective hash no other proof is.
-/

import AuthStorage.Library.PaddedMerkle
import AuthStorage.Library.Partial
import AuthStorage.Lvmt.Merkle

namespace AuthStorage.Lvmt

variable {H : Type} [H256 H]

namespace StaticMerkleTree

/-! ### The dump is the padded tree -/

theorem nextLevel_eq_parents (thisLevel : List H) :
    nextLevel thisLevel = PaddedMerkle.parents combineHash (keccakEmpty H) thisLevel := by
  induction thisLevel using PaddedMerkle.parents.induct with
  | case1 => rfl
  | case2 last => rfl
  | case3 first second rest inductionHypothesis =>
    rw [PaddedMerkle.parents, ← inductionHypothesis, nextLevel, nextLevel, List.length_cons,
      List.length_cons, Nat.add_assoc, Nat.add_mod_right]
    split <;> rfl

/-- The hashes of the tree, some steps above the leaves. -/
abbrev levelAbove (data : List H) (height : Nat) : List H :=
  PaddedMerkle.levelAbove combineHash (keccakEmpty H) data height

/-- The loop of `verify` reads the bits of the position from the lowest up. -/
theorem climb_eq (position : UInt64) (height : Nat) (current : H) (siblings : List H) :
    climb position height current siblings =
      PaddedMerkle.climb combineHash (position.toNat / 2 ^ height) current siblings := by
  induction siblings generalizing height current with
  | nil => rfl
  | cons sibling rest inductionHypothesis =>
    rw [climb, PaddedMerkle.climb, inductionHypothesis, Nat.shiftRight_eq_div_pow,
      Nat.div_div_eq_div_mul, ← pow_succ]

theorem length_le_depthOf (length : Nat) : length ≤ 2 ^ depthOf length := by
  unfold depthOf
  split
  · rename_i short
    exact short
  · have below := Nat.lt_log2_self (n := length - 1)
    omega

theorem depthOf_le {length bits : Nat} (short : length ≤ 2 ^ bits) : depthOf length ≤ bits := by
  unfold depthOf
  split
  · exact Nat.zero_le _
  · rename_i several
    have low : 2 ^ Nat.log2 (length - 1) ≤ length - 1 := Nat.log2_self_le (by omega)
    have order : 2 ^ Nat.log2 (length - 1) < 2 ^ bits := by omega
    exact (Nat.pow_lt_pow_iff_right (by norm_num)).mp order

/-- The root is the only entry of the top level. -/
theorem rootOf_eq {data : List H} {depth : Nat} (nonempty : data ≠ [])
    (short : data.length ≤ 2 ^ depth) :
    rootOf depth data = (levelAbove data depth).getD 0 (keccakEmpty H) := by
  induction depth generalizing data with
  | zero =>
    obtain ⟨only, rfl⟩ : ∃ only, data = [only] :=
      List.length_eq_one_iff.mp (Nat.le_antisymm short (List.length_pos_of_ne_nil nonempty))
    rfl
  | succ depth inductionHypothesis =>
    have length := PaddedMerkle.length_parents combineHash (keccakEmpty H) data
    have positive := List.length_pos_of_ne_nil nonempty
    rw [rootOf, nextLevel_eq_parents, inductionHypothesis]
    · rfl
    · exact List.ne_nil_of_length_pos (by omega)
    · rw [pow_succ] at short
      omega

/-! ### Accepting a proof -/

theorem verify_eq_true_iff {root hash : H} {siblings : List H} {position : UInt64}
    (short : siblings.length ≤ 64) :
    verify root hash (siblings, position) = some true ↔
      PaddedMerkle.climb combineHash position.toNat hash siblings = root := by
  rw [verify, if_pos short, Option.some.injEq, decide_eq_true_iff, climb_eq, pow_zero, Nat.div_one]

theorem combineHash_injective2 (injective : Function.Injective (keccak : Bytes → H)) :
    Function.Injective2 (combineHash : H → H → H) := by
  intro first first' second second' same
  have pairs : toBytesLocal first ++ toBytesLocal second =
      toBytesLocal first' ++ toBytesLocal second' := injective same
  obtain ⟨sameFirst, sameSecond⟩ := (LawfulSerde.code (α := H) ⟨false⟩).append_inj pairs
  exact ⟨sameFirst, (LawfulSerde.code (α := H) ⟨false⟩).injective sameSecond⟩

/-! ### What the dump writes -/

theorem epochPrefix_injective : Function.Injective epochPrefix := by
  intro first second same
  have words := LittleEndian.digits_injective (UInt64.toNat_lt _) (UInt64.toNat_lt _)
    (List.reverse_injective same)
  exact UInt64.toNat_inj.mp words

/-- The places of an unbounded `usize` are told apart up to the cast to `u32`. -/
theorem computeKey_mod (name : Bytes) (nodeIndex : Nat) :
    DBAccess.computeKey name nodeIndex = DBAccess.computeKey name (nodeIndex % 2 ^ 32) := by
  have same : UInt32.ofNat nodeIndex = UInt32.ofNat (nodeIndex % 2 ^ 32) := by
    apply UInt32.toNat_inj.mp
    rw [UInt32.toNat_ofNat', UInt32.toNat_ofNat', Nat.mod_mod]
  exact congrArg (fun word : UInt32 => name ++ (LittleEndian.digits 4 word.toNat).reverse) same

theorem computeKey_injOn (name : Bytes) :
    Set.InjOn (DBAccess.computeKey name) {nodeIndex : Nat | nodeIndex < 2 ^ 32} := by
  intro first firstSmall second secondSmall same
  have firstLt : first < UInt32.size := firstSmall
  have secondLt : second < UInt32.size := secondSmall
  have tails := List.reverse_injective (List.append_cancel_left same)
  have words := LittleEndian.digits_injective (UInt32.toNat_lt _) (UInt32.toNat_lt _) tails
  change (UInt32.ofNat first).toNat = (UInt32.ofNat second).toNat at words
  rwa [UInt32.toNat_ofNat_of_lt' firstLt, UInt32.toNat_ofNat_of_lt' secondLt] at words

/-- The cache of a dump under way: what it stands for, and that no place is cast. -/
structure Staged (db : DBColumn) (epoch : UInt64) (backend : DBAccess Nat H)
    (content : Nat → H) : Prop where
  represents : backend.Represents db content
  samePrefix : backend.keyPrefix = epochPrefix epoch
  within : ∀ nodeIndex ∈ backend.cache, nodeIndex < 2 ^ 32

theorem Staged.set {db : DBColumn} {epoch : UInt64} {backend : DBAccess Nat H}
    {content : Nat → H} (staged : Staged db epoch backend content) {nodeIndex : Nat}
    (inside : nodeIndex < 2 ^ 32) (hash : H) :
    Staged db epoch (backend.set nodeIndex hash) (Function.update content nodeIndex hash) where
  represents := staged.represents.set nodeIndex hash
  samePrefix := staged.samePrefix
  within other member := by
    rcases (AList.mem_insert _).mp member with rfl | earlier
    · exact inside
    · exact staged.within other earlier

/-- The entries of a map after a list is written from some place on. -/
def writtenFrom (content : Nat → H) (start : Nat) (hashes : List H) (nodeIndex : Nat) : H :=
  if start ≤ nodeIndex then hashes.getD (nodeIndex - start) (content nodeIndex)
  else content nodeIndex

section

omit [H256 H]

variable (content : Nat → H) {start nodeIndex : Nat} {hashes : List H}

theorem writtenFrom_of_lt (before : nodeIndex < start) :
    writtenFrom content start hashes nodeIndex = content nodeIndex :=
  if_neg (Nat.not_le.mpr before)

theorem writtenFrom_of_le (beyond : start + hashes.length ≤ nodeIndex) :
    writtenFrom content start hashes nodeIndex = content nodeIndex := by
  rw [writtenFrom, if_pos (by omega), List.getD_eq_default _ _ (by omega)]

theorem writtenFrom_add (index : Nat) :
    writtenFrom content start hashes (start + index) =
      hashes.getD index (content (start + index)) := by
  rw [writtenFrom, if_pos (Nat.le_add_right _ _), Nat.add_sub_cancel_left]

theorem writtenFrom_cons (start : Nat) (hash : H) (rest : List H) :
    writtenFrom content start (hash :: rest) =
      writtenFrom (Function.update content start hash) (start + 1) rest := by
  funext nodeIndex
  unfold writtenFrom
  rcases Nat.lt_trichotomy start nodeIndex with before | rfl | after
  · rw [if_pos before.le, if_pos (Nat.succ_le_of_lt before), Function.update_of_ne before.ne']
    obtain ⟨offset, rfl⟩ := Nat.exists_eq_add_of_lt before
    rw [show start + offset + 1 - start = offset + 1 by omega,
      show start + offset + 1 - (start + 1) = offset by omega, List.getD_cons_succ]
  · rw [if_pos le_rfl, if_neg (Nat.not_succ_le_self _), Nat.sub_self, Function.update_self]
    rfl
  · rw [if_neg (Nat.not_le.mpr after), if_neg (by omega), Function.update_of_ne after.ne]

end

theorem Staged.setLevel {db : DBColumn} {epoch : UInt64} {backend : DBAccess Nat H}
    {content : Nat → H} (staged : Staged db epoch backend content) {level : Nat}
    {thisLevel : List H} (fits : 2 ^ level + thisLevel.length ≤ 2 ^ 32) :
    Staged db epoch (setLevel backend level thisLevel)
      (writtenFrom content (2 ^ level) thisLevel) := by
  suffices all : ∀ (hashes : List H) (offset : Nat) (backend : DBAccess Nat H)
      (content : Nat → H), Staged db epoch backend content →
        2 ^ level + offset + hashes.length ≤ 2 ^ 32 →
          Staged db epoch ((hashes.zipIdx offset).foldl
            (fun backend entry => backend.set ((1 <<< level) + entry.2) entry.1) backend)
            (writtenFrom content (2 ^ level + offset) hashes) from
    all thisLevel 0 backend content staged fits
  intro hashes
  induction hashes with
  | nil =>
    intro offset backend content staged _
    have same : writtenFrom content (2 ^ level + offset) [] = content := by
      funext nodeIndex
      exact ite_self _
    rwa [same]
  | cons hash rest inductionHypothesis =>
    intro offset backend content staged fits
    rw [List.length_cons] at fits
    rw [writtenFrom_cons, List.zipIdx_cons, List.foldl_cons]
    rw [Nat.one_shiftLeft] at inductionHypothesis ⊢
    exact inductionHypothesis (offset + 1) _ _ (staged.set (by omega) hash) (by omega)

/-- The map after the levels from `depth` to the root are written. -/
def dumped : Nat → List H → (Nat → H) → Nat → H
  | 0, thisLevel, content => writtenFrom content (2 ^ 0) thisLevel
  | depth + 1, thisLevel, content =>
    dumped depth (nextLevel thisLevel) (writtenFrom content (2 ^ (depth + 1)) thisLevel)

theorem length_nextLevel_le {thisLevel : List H} {depth : Nat}
    (short : thisLevel.length ≤ 2 ^ (depth + 1)) : (nextLevel thisLevel).length ≤ 2 ^ depth := by
  rw [nextLevel_eq_parents, PaddedMerkle.length_parents]
  rw [pow_succ] at short
  omega

theorem Staged.dumpFrom {db : DBColumn} {epoch : UInt64} {backend : DBAccess Nat H}
    {content : Nat → H} (staged : Staged db epoch backend content) {depth : Nat}
    (low : depth ≤ 31) {thisLevel : List H} (short : thisLevel.length ≤ 2 ^ depth) :
    Staged db epoch (dumpFrom false depth thisLevel backend).1
      (dumped depth thisLevel content) := by
  have fits : 2 ^ depth + thisLevel.length ≤ 2 ^ 32 := by
    have bound : (2 : Nat) ^ depth ≤ 2 ^ 31 := Nat.pow_le_pow_right (by norm_num) low
    omega
  induction depth generalizing thisLevel backend content with
  | zero => exact staged.setLevel fits
  | succ depth inductionHypothesis =>
    have above := length_nextLevel_le short
    refine inductionHypothesis (staged.setLevel fits) (by omega) above ?_
    rw [pow_succ] at fits
    omega

/-- The levels lie below the place after them. -/
theorem dumped_of_le {depth : Nat} {thisLevel : List H} (short : thisLevel.length ≤ 2 ^ depth)
    (content : Nat → H) {nodeIndex : Nat} (beyond : 2 ^ (depth + 1) ≤ nodeIndex) :
    dumped depth thisLevel content nodeIndex = content nodeIndex := by
  have past : 2 ^ depth + thisLevel.length ≤ nodeIndex := by
    rw [pow_succ] at beyond
    omega
  induction depth generalizing thisLevel content with
  | zero => exact writtenFrom_of_le content past
  | succ depth inductionHypothesis =>
    have above := length_nextLevel_le short
    have less : 2 ^ (depth + 1) ≤ 2 ^ (depth + 1 + 1) :=
      Nat.pow_le_pow_right (by norm_num) (Nat.le_succ _)
    rw [dumped, inductionHypothesis above _ (le_trans less beyond)]
    · exact writtenFrom_of_le content past
    · rw [pow_succ] at less
      rw [pow_succ, pow_succ] at beyond
      omega

/-- Each level is found at its power of two. -/
theorem dumped_apply {depth level index : Nat} (le : level ≤ depth) (inside : index < 2 ^ level)
    {thisLevel : List H} (short : thisLevel.length ≤ 2 ^ depth) (content : Nat → H) :
    dumped depth thisLevel content (2 ^ level + index) =
      (levelAbove thisLevel (depth - level)).getD index (content (2 ^ level + index)) := by
  induction depth generalizing thisLevel content with
  | zero =>
    obtain rfl := Nat.le_zero.mp le
    exact writtenFrom_add content index
  | succ depth inductionHypothesis =>
    have above := length_nextLevel_le short
    rcases Nat.eq_or_lt_of_le le with rfl | lower
    · -- the level itself; the levels above it come to lie before it
      rw [dumped, dumped_of_le above _ (Nat.le_add_right _ _), writtenFrom_add, Nat.sub_self]
      rfl
    · have lower := Nat.le_of_lt_succ lower
      have before : 2 ^ level + index < 2 ^ (depth + 1) := by
        have bound : (2 : Nat) ^ level ≤ 2 ^ depth := Nat.pow_le_pow_right (by norm_num) lower
        rw [pow_succ]
        omega
      rw [dumped, inductionHypothesis lower above, writtenFrom_of_lt _ before,
        nextLevel_eq_parents, Nat.succ_sub lower]
      rfl

/-! ### Making a proof -/

/-- `prove` together with the tree it leaves behind. -/
def proveMut (db : DBColumn) (tree : StaticMerkleTree H) (position : UInt64) :
    Option (StaticMerkleTree H × MerkleProof H) := do
  let (proofs, data) ← (List.range tree.depth.toNat).foldlM
    (proveLevel db tree.depth.toNat position) ([], tree.data)
  some ({ tree with data }, (proofs, position))

theorem prove_eq (db : DBColumn) (tree : StaticMerkleTree H) (position : UInt64) :
    tree.prove db position = (proveMut db tree position).map Prod.snd := by
  rw [prove, proveMut]
  cases (List.range tree.depth.toNat).foldlM (proveLevel db tree.depth.toNat position)
    ([], tree.data) <;> rfl

/-- What the store of an epoch stands for after the dump, the cast of the places included. -/
def contentOf (data : List H) (nodeIndex : Nat) : H :=
  Function.update (dumped (depthOf data.length) data fun _ => default) 0
    (H256.fromLowU64Be (UInt64.ofNat (depthOf data.length))) (nodeIndex % 2 ^ 32)

/-- The tree of an epoch, over a store that holds what the dump of some data wrote. -/
structure StandsFor (tree : StaticMerkleTree H) (db : DBColumn) (data : List H) : Prop where
  represents : tree.data.Represents db (contentOf data)
  depth : tree.depth.toNat = depthOf data.length
  root : tree.root = rootOf (depthOf data.length) data

/-- The store has nothing for an epoch. -/
def Fresh (epoch : UInt64) (db : DBColumn) : Prop :=
  ∀ nodeIndex : Nat, db (DBAccess.computeKey (epochPrefix epoch) nodeIndex) = none

/-- No hash of the data or of a level above it is zero. -/
def NoZero (data : List H) : Prop :=
  ∀ height ≤ depthOf data.length, default ∉ levelAbove data height

variable {db : DBColumn} {epoch : UInt64} {data : List H}

theorem contentOf_zero (data : List H) :
    contentOf data 0 = H256.fromLowU64Be (UInt64.ofNat (depthOf data.length)) :=
  Function.update_self _ _ _

/-- A level of the tree, with a zero behind its end. -/
theorem contentOf_apply {level index : Nat} (low : depthOf data.length ≤ 31)
    (le : level ≤ depthOf data.length) (inside : index < 2 ^ level) :
    contentOf data (2 ^ level + index) =
      (levelAbove data (depthOf data.length - level)).getD index default := by
  have small : 2 ^ level + index < 2 ^ 32 := by
    have bound : (2 : Nat) ^ level ≤ 2 ^ 31 := Nat.pow_le_pow_right (by norm_num) (le.trans low)
    omega
  have positive : 2 ^ level + index ≠ 0 := by
    have := Nat.two_pow_pos level
    omega
  rw [contentOf, Nat.mod_eq_of_lt small, Function.update_of_ne positive,
    dumped_apply le inside (length_le_depthOf _)]

/-- The dump of an epoch the store knows nothing of. -/
theorem Fresh.dump_represents (fresh : Fresh epoch db) (low : depthOf data.length ≤ 31) :
    (DBAccess.new (epochPrefix epoch) : DBAccess Nat H).Represents (dump db epoch data false).1
      (contentOf data) := by
  have start : Staged db epoch (.new (epochPrefix epoch)) (fun _ => (default : H)) := by
    refine ⟨(DBAccess.represents_new _ _ _).mpr fun nodeIndex => ?_, rfl, nofun⟩
    rw [DBAccess.load, fresh nodeIndex]
  have staged := (start.dumpFrom low (length_le_depthOf _)).set
    (show 0 < 2 ^ 32 by norm_num) (H256.fromLowU64Be (UInt64.ofNat (depthOf data.length)))
  refine (DBAccess.represents_new _ _ _).mpr fun nodeIndex => ?_
  have loaded := staged.represents.load_flushCache (computeKey_injOn _) staged.within
    (Nat.mod_lt nodeIndex (Nat.two_pow_pos 32))
  rw [staged.samePrefix] at loaded
  rw [DBAccess.load, computeKey_mod]
  exact loaded

/-- A store that holds what the dump wrote has a tree for the epoch. -/
theorem new_of_represents
    (represents : (DBAccess.new (epochPrefix epoch) : DBAccess Nat H).Represents db (contentOf data))
    (nonempty : data ≠ []) (low : depthOf data.length ≤ 31) :
    ∃ tree : StaticMerkleTree H, new db epoch = some tree ∧ tree.StandsFor db data := by
  obtain ⟨first, gotDepth, represents, -⟩ := represents.get 0
  obtain ⟨second, gotRoot, represents, -⟩ := represents.get 1
  refine ⟨⟨second, contentOf data 1, (H256.toLowU64Be (contentOf data 0)).toUInt32⟩, ?_,
    represents, ?_, ?_⟩
  · rw [StaticMerkleTree.new, gotDepth, Option.bind_eq_bind, Option.bind_some]
    simp only [gotRoot]
    rfl
  · have small : depthOf data.length < 2 ^ 32 := by omega
    have word : depthOf data.length < 2 ^ 64 := by omega
    show (H256.toLowU64Be (contentOf data 0)).toUInt32.toNat = _
    rw [contentOf_zero, H256.toLowU64Be_fromLowU64Be, UInt64.toNat_toUInt32, UInt64.toNat_ofNat',
      Nat.mod_eq_of_lt word, Nat.mod_eq_of_lt small]
  · have top := contentOf_apply low (Nat.zero_le _) (show 0 < 2 ^ 0 by norm_num)
    have positive := PaddedMerkle.lt_length_levelAbove combineHash (keccakEmpty H)
      (List.length_pos_of_ne_nil nonempty) (depthOf data.length)
    rw [Nat.zero_div] at positive
    rw [rootOf_eq nonempty (length_le_depthOf _), List.getD_eq_getElem _ _ positive]
    rw [Nat.sub_zero, List.getD_eq_getElem _ _ positive] at top
    exact top

theorem Fresh.new (fresh : Fresh epoch db) (nonempty : data ≠ [])
    (low : depthOf data.length ≤ 31) :
    ∃ tree : StaticMerkleTree H, new (dump db epoch data false).1 epoch = some tree ∧
      tree.StandsFor (dump db epoch data false).1 data :=
  new_of_represents (fresh.dump_represents low) nonempty low

/-- The place of a sibling. -/
theorem sibling_place {depth height position : Nat} (inside : height < depth)
    (fits : position < 2 ^ depth) :
    (1 <<< (depth - height)) ||| ((position >>> height) ^^^ 1) =
        2 ^ (depth - height) + ((position / 2 ^ height) ^^^ 1) ∧
      (position / 2 ^ height) ^^^ 1 < 2 ^ (depth - height) := by
  have whole : 2 ^ depth = 2 ^ height * 2 ^ (depth - height) := by
    rw [← pow_add, Nat.add_sub_cancel' inside.le]
  have bound : (position / 2 ^ height) ^^^ 1 < 2 ^ (depth - height) :=
    Nat.xor_lt_two_pow (Nat.div_lt_of_lt_mul (whole ▸ fits))
      (Nat.one_lt_two_pow (Nat.sub_ne_zero_of_lt inside))
  refine ⟨?_, bound⟩
  rw [Nat.one_shiftLeft, Nat.shiftRight_eq_div_pow]
  have apart := Nat.two_pow_add_eq_or_of_lt bound 1
  rw [Nat.mul_one] at apart
  exact apart.symm

/-- Where no entry is zero, the default of a read can be told from an entry. -/
theorem getD_or_default {hashes : List H} (noZero : default ∉ hashes) (index : Nat) (padding : H) :
    (if hashes.getD index default = default then padding else hashes.getD index default) =
      hashes.getD index padding := by
  by_cases inside : index < hashes.length
  · rw [List.getD_eq_getElem _ _ inside, List.getD_eq_getElem _ _ inside,
      if_neg fun zero : hashes[index] = default => noZero (zero ▸ List.getElem_mem inside)]
  · have outside := Nat.le_of_not_lt inside
    rw [List.getD_eq_default _ _ outside, List.getD_eq_default _ _ outside, if_pos rfl]

/-- A sibling read from the store, the padding put back. -/
theorem proveLevel_spec (noZero : NoZero data) (low : depthOf data.length ≤ 31)
    {position : UInt64} (fits : position.toNat < data.length) {backend : DBAccess Nat H}
    (represents : backend.Represents db (contentOf data)) {height : Nat}
    (inside : height < depthOf data.length) (proofs : List H) :
    ∃ next, proveLevel db (depthOf data.length) position (proofs, backend) height =
        some (proofs ++ [(levelAbove data height).getD ((position.toNat / 2 ^ height) ^^^ 1)
          (keccakEmpty H)], next) ∧
      next.Represents db (contentOf data) := by
  have short := length_le_depthOf data.length
  obtain ⟨place, bound⟩ := sibling_place inside (lt_of_lt_of_le fits short)
  obtain ⟨next, got, represents, -⟩ := represents.get
    (2 ^ (depthOf data.length - height) + ((position.toNat / 2 ^ height) ^^^ 1))
  refine ⟨next, ?_, represents⟩
  rw [proveLevel, if_pos (by omega), place]
  simp only [Option.bind_eq_bind]
  rw [got, Option.bind_some, contentOf_apply low (Nat.sub_le _ _) bound,
    Nat.sub_sub_self inside.le]
  simp only [getD_or_default (noZero height inside.le)]

/-- The loop of `prove` collects the path. -/
theorem proveLoop_spec (noZero : NoZero data) (low : depthOf data.length ≤ 31)
    {position : UInt64} (fits : position.toNat < data.length) {heights : List Nat}
    (inside : ∀ height ∈ heights, height < depthOf data.length) {backend : DBAccess Nat H}
    (represents : backend.Represents db (contentOf data)) (proofs : List H) :
    ∃ next, heights.foldlM (proveLevel db (depthOf data.length) position) (proofs, backend) =
        some (proofs ++ heights.map fun height =>
          (levelAbove data height).getD ((position.toNat / 2 ^ height) ^^^ 1) (keccakEmpty H),
          next) ∧
      next.Represents db (contentOf data) := by
  induction heights generalizing backend proofs with
  | nil => exact ⟨backend, by rw [List.map_nil, List.append_nil]; rfl, represents⟩
  | cons height rest inductionHypothesis =>
    obtain ⟨middle, read, represents⟩ := proveLevel_spec noZero low fits represents
      (inside height List.mem_cons_self) proofs
    obtain ⟨next, done, represents⟩ := inductionHypothesis
      (fun other member => inside other (List.mem_cons_of_mem _ member)) represents _
    refine ⟨next, ?_, represents⟩
    rw [List.foldlM_cons, read]
    show rest.foldlM _ _ = _
    rw [done, List.map_cons, List.append_assoc, List.singleton_append]

/-- A proof is the path of its position, and the tree still stands for the data. -/
theorem StandsFor.proveMut {tree : StaticMerkleTree H} (stands : tree.StandsFor db data)
    (noZero : NoZero data) (low : depthOf data.length ≤ 31) {position : UInt64}
    (fits : position.toNat < data.length) :
    ∃ next, proveMut db tree position = some (next, (PaddedMerkle.path combineHash (keccakEmpty H)
        (depthOf data.length) data position.toNat, position)) ∧
      next.StandsFor db data := by
  obtain ⟨next, done, represents⟩ := proveLoop_spec noZero low fits
    (fun height member => List.mem_range.mp member) stands.represents []
  refine ⟨{ tree with data := next }, ?_, represents, stands.depth, stands.root⟩
  rw [StaticMerkleTree.proveMut, stands.depth, done, PaddedMerkle.path_eq_map]
  rfl

/-- The path of an entry is accepted against the root. -/
theorem verify_path (low : depthOf data.length ≤ 31) {position : UInt64}
    (fits : position.toNat < data.length) :
    verify (rootOf (depthOf data.length) data) data[position.toNat]
      (PaddedMerkle.path combineHash (keccakEmpty H) (depthOf data.length) data position.toNat,
        position) = some true := by
  have nonempty : data ≠ [] := List.ne_nil_of_length_pos (Nat.zero_lt_of_lt fits)
  have short := length_le_depthOf data.length
  rw [verify_eq_true_iff (by rw [PaddedMerkle.length_path]; omega),
    ← List.getD_eq_getElem data (keccakEmpty H) fits, PaddedMerkle.climb_path _ _ _ fits,
    Nat.div_eq_of_lt (lt_of_lt_of_le fits short), rootOf_eq nonempty short]

/-- After a dump, the tree of the epoch has the root the dump returned, with or without the nodes,
and every proof it makes is accepted, whatever was proved before. -/
theorem dump_complete (db : DBColumn) (epoch : UInt64) (data : List H) (nonempty : data ≠ [])
    (short : data.length < 2 ^ 31) (noZero : NoZero data) (fresh : Fresh epoch db) :
    ∃ tree, new (dump db epoch data false).1 epoch = some tree ∧
      tree.root = (dump db epoch data false).2 ∧
      (dump db epoch data true).2 = (dump db epoch data false).2 ∧
      ∀ positions : List UInt64, (∀ position ∈ positions, position.toNat < data.length) →
        ∃ final proofs, PartialRun.run (StaticMerkleTree.proveMut (dump db epoch data false).1) tree
            positions = some (final, proofs) ∧
          List.Forall₂ (fun position proof => ∃ hash, data[position.toNat]? = some hash ∧
            verify tree.root hash proof = some true) positions proofs := by
  have low := depthOf_le short.le
  obtain ⟨tree, made, stands⟩ := fresh.new nonempty low
  refine ⟨tree, made, ?_, ?_, fun positions inside => ?_⟩
  · rw [stands.root, dump_root]
  · rw [dump_root, dump_root]
  · rw [stands.root]
    clear made
    induction positions generalizing tree with
    | nil => exact ⟨tree, [], rfl, List.Forall₂.nil⟩
    | cons position rest inductionHypothesis =>
      have fits := inside position List.mem_cons_self
      obtain ⟨next, proved, stands⟩ := stands.proveMut noZero low fits
      obtain ⟨final, proofs, done, accepted⟩ := inductionHypothesis next stands
        fun other member => inside other (List.mem_cons_of_mem _ member)
      refine ⟨final, _ :: proofs, PartialRun.run_cons_eq_some.mpr
        ⟨next, _, proofs, proved, done, rfl⟩, List.Forall₂.cons ?_ accepted⟩
      exact ⟨data[position.toNat], List.getElem?_eq_getElem fits, verify_path low fits⟩

/-! ### Other epochs -/

omit [H256 H] in
theorem keyPrefix_setLevel (backend : DBAccess Nat H) (level : Nat) (thisLevel : List H) :
    (setLevel backend level thisLevel).keyPrefix = backend.keyPrefix :=
  List.foldlRecOn (motive := fun next : DBAccess Nat H => next.keyPrefix = backend.keyPrefix) _ _
    rfl fun _ same _ _ => same

theorem keyPrefix_dumpFrom (onlyRoot : Bool) (depth : Nat) (thisLevel : List H)
    (backend : DBAccess Nat H) :
    (dumpFrom onlyRoot depth thisLevel backend).1.keyPrefix = backend.keyPrefix := by
  induction depth generalizing thisLevel backend with
  | zero =>
    rw [dumpFrom]
    cases onlyRoot
    · exact keyPrefix_setLevel _ _ _
    · rfl
  | succ depth inductionHypothesis =>
    rw [dumpFrom, inductionHypothesis]
    cases onlyRoot
    · exact keyPrefix_setLevel _ _ _
    · rfl

theorem fresh_empty (epoch : UInt64) : Fresh epoch DBColumn.empty := fun _ => rfl

/-- A dump of another epoch leaves an epoch's part of the store alone. -/
theorem dump_computeKey (db : DBColumn) {other epoch : UInt64} (different : other ≠ epoch)
    (data : List H) (onlyRoot : Bool) (nodeIndex : Nat) :
    (dump db other data onlyRoot).1 (DBAccess.computeKey (epochPrefix epoch) nodeIndex) =
      db (DBAccess.computeKey (epochPrefix epoch) nodeIndex) := by
  refine DBAccess.flushCache_of_ne fun otherIndex same => different (epochPrefix_injective ?_)
  have samePrefix := DBAccess.computeKey_prefix same
  rwa [DBAccess.set_keyPrefix, keyPrefix_dumpFrom] at samePrefix

theorem Fresh.dump (fresh : Fresh epoch db) {other : UInt64} (different : other ≠ epoch)
    (data : List H) (onlyRoot : Bool) : Fresh epoch (dump db other data onlyRoot).1 := by
  intro nodeIndex
  rw [dump_computeKey db different, fresh nodeIndex]

/-! ### No other proof is accepted -/

theorem noZero_of_ne_zero (neverZero : ∀ bytes, (keccak bytes : H) ≠ default)
    (nonzero : default ∉ data) : NoZero data := by
  intro height _ member
  cases height with
  | zero => exact nonzero member
  | succ height =>
    rw [levelAbove, PaddedMerkle.levelAbove_succ'] at member
    obtain ⟨first, second, combined⟩ := PaddedMerkle.exists_of_mem_parents _ _ member
    exact neverZero _ combined.symm

/-- A hash is accepted at a position only if it is the leaf there, and only with the proof the
tree makes for the position. -/
theorem dump_binding (keccakInjective : Function.Injective (keccak : Bytes → H))
    (neverZero : ∀ bytes, (keccak bytes : H) ≠ default) (db : DBColumn) (epoch : UInt64)
    (data : List H) (short : data.length < 2 ^ 31) (nonzero : default ∉ data)
    (fresh : Fresh epoch db) (hash : H) (position : UInt64) (inside : position.toNat < data.length)
    (path : List H) (full : path.length = depthOf data.length)
    (accepted : verify (dump db epoch data false).2 hash (path, position) = some true) :
    data[position.toNat]? = some hash ∧
      ∃ tree, new (dump db epoch data false).1 epoch = some tree ∧
        tree.prove (dump db epoch data false).1 position = some (path, position) := by
  have low := depthOf_le short.le
  have nonempty : data ≠ [] := List.ne_nil_of_length_pos (Nat.zero_lt_of_lt inside)
  have wide := length_le_depthOf data.length
  rw [dump_root, verify_eq_true_iff (by omega), rootOf_eq nonempty wide,
    ← Nat.div_eq_of_lt (lt_of_lt_of_le inside wide)] at accepted
  obtain ⟨rfl, rfl⟩ := PaddedMerkle.eq_path_of_climb _ (combineHash_injective2 keccakInjective)
    inside full accepted
  obtain ⟨tree, made, stands⟩ := fresh.new nonempty low
  obtain ⟨next, proved, -⟩ := stands.proveMut (noZero_of_ne_zero neverZero nonzero) low inside
  refine ⟨?_, tree, made, ?_⟩
  · rw [List.getD_eq_getElem _ _ inside, List.getElem?_eq_getElem inside]
  · rw [prove_eq, proved]
    rfl

/-! ### A tree of three leaves -/

/-- Three leaves, so that one level is padded. -/
def threeLeaves : List Transcript := [⟨[1]⟩, ⟨[2]⟩, ⟨[3]⟩]

/-- A store that holds the tree of epoch one. -/
def oneEpoch : DBColumn := (dump DBColumn.empty 1 threeLeaves false).1

theorem fresh_oneEpoch : Fresh 2 oneEpoch := (fresh_empty 2).dump (by decide) threeLeaves false

/-- The proofs of the last and of the first leaf, one after the other. -/
theorem dump_complete_threeLeaves :
    ∃ (tree final : StaticMerkleTree Transcript) (last first : MerkleProof Transcript),
      new (dump oneEpoch 2 threeLeaves false).1 2 = some tree ∧
        tree.root = (dump oneEpoch 2 threeLeaves false).2 ∧
        tree.root = (dump oneEpoch 2 threeLeaves true).2 ∧
        PartialRun.run (StaticMerkleTree.proveMut (dump oneEpoch 2 threeLeaves false).1) tree
          [2, 0] = some (final, [last, first]) ∧
        verify tree.root ⟨[3]⟩ last = some true ∧ verify tree.root ⟨[1]⟩ first = some true := by
  obtain ⟨tree, made, root, onlyRoot, proves⟩ :=
    dump_complete oneEpoch 2 threeLeaves (by decide) (by decide)
      (show ∀ height ≤ 2, default ∉ levelAbove threeLeaves height by decide +kernel) fresh_oneEpoch
  obtain ⟨final, proofs, done, accepted⟩ := proves [2, 0] fun position member => by
    fin_cases member <;> decide
  obtain ⟨last, rest, ⟨_, isThird, lastAccepted⟩, others, rfl⟩ :=
    List.forall₂_cons_left_iff.mp accepted
  obtain ⟨first, _, ⟨_, isFirst, firstAccepted⟩, none, rfl⟩ :=
    List.forall₂_cons_left_iff.mp others
  obtain rfl := List.forall₂_nil_left_iff.mp none
  obtain rfl := Option.some.inj isThird
  obtain rfl := Option.some.inj isFirst
  exact ⟨tree, final, last, first, made, root, root.trans onlyRoot.symm, done, lastAccepted,
    firstAccepted⟩

/-- The proof of the last leaf, whose sibling is the padding. -/
theorem dump_binding_threeLeaves :
    verify (dump oneEpoch 2 threeLeaves false).2 ⟨[3]⟩
        ([keccakEmpty _, combineHash ⟨[1]⟩ ⟨[2]⟩], 2) = some true ∧
      threeLeaves[2]? = some ⟨[3]⟩ := by
  have accepted : verify (dump oneEpoch 2 threeLeaves false).2 ⟨[3]⟩
      ([keccakEmpty _, combineHash ⟨[1]⟩ ⟨[2]⟩], 2) = some true := by
    rw [dump_root]
    decide +kernel
  exact ⟨accepted, (dump_binding Transcript.keccak_injective
    (fun _ same => List.cons_ne_nil _ _ (congrArg Transcript.bytes same)) oneEpoch 2 threeLeaves
    (by decide) (by decide) fresh_oneEpoch ⟨[3]⟩ 2 (by decide) _ rfl accepted).1⟩

end StaticMerkleTree

end AuthStorage.Lvmt
