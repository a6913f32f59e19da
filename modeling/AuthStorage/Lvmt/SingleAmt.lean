/-
This file models `single_amt/`: the database over one tree, which puts the value
of a key into the leaf of the key's low bits. It states what such a database is
for -- a map from leaves to values, of which only what was committed survives --
and proves that the tree, its caches and its store are that map, for any way of
finding the leaf of a key. The way the source finds it is then the only thing
that decides whether a run succeeds.
-/

import AuthStorage.Lvmt.AMTView

namespace AuthStorage.Lvmt.SingleAmt

/-! ### Leaves -/

/-- Where the commitment is stored. -/
def ROOT_KEY : Bytes := [0, 0]

/-- There is one tree, with an empty name. -/
structure TreeName where
deriving DecidableEq

instance : MyToBytes TreeName := ⟨fun _ _ => []⟩

/-- The value of a leaf, and its hash, of which the leaf's integer is made. -/
structure Node (H : Type) where
  data : Vec UInt8
  hash : H

variable {G G₂ H K : Type} [Curve G] [H256 H]

namespace Node

instance : Inhabited (Node H) := ⟨⟨default, H256.zero⟩⟩

instance : MyToBytes (Node H) := ⟨fun ty node => write ty node.data ++ write ty node.hash⟩

instance : MyFromBytes (Node H) where
  read ty input := do
    let (data, input) ← read ty input
    let (hash, input) ← read ty input
    some (⟨data, hash⟩, input)

instance : LawfulSerde (Node H) where
  code ty := by
    intro node rest
    show (read ty (write ty node.data ++ write ty node.hash ++ rest)).bind _ = _
    rw [List.append_assoc, read_write, Option.bind_some]
    show (read ty (write ty node.hash ++ rest)).bind _ = _
    rw [read_write]
    rfl

/-- The digest as four little-endian limbs, of which the last one is masked. -/
def asFrInt (node : Node H) : FrInt :=
  BitVec.ofNat 256 (LittleEndian.value (toBytesLocal node.hash)) &&&
    BitVec.ofNat 256 (0x3fffffff * 2 ^ 192 + (2 ^ 192 - 1))

instance : AMTData (Node H) where
  asFrInt node := some node.asFrInt
  asFrInt_default := by
    show some (BitVec.ofNat 256 (LittleEndian.value (toBytesLocal (H256.zero : H))) &&& _) = some 0
    rw [H256.value_zero]
    exact congrArg some (BitVec.zero_and)

/-- A leaf is empty if its digest is zero. -/
def content (node : Node H) : Option (Vec UInt8) :=
  if node.hash = H256.zero then none else some node.data

@[simp] theorem content_default : (default : Node H).content = none := if_pos rfl

end Node

/-! ### The database -/

/-- A single tree with its column; `root` is the commitment of the last commit. -/
structure AmtDB (G H : Type) (N : Nat) where
  root : G
  amt : AMTree TreeName (Node H) G N
  db : DBColumn

namespace AmtDB

variable {N : Nat}

/-- The commitment in the store. -/
def storedRoot (db : DBColumn) : Option G :=
  match db ROOT_KEY with
  | some bytes => fromBytesLocal bytes
  | none => some 0

/-- The tree of a new database. -/
def openTree (shardRoot : Option (NodeIndex N)) (root : G) : AMTree TreeName (Node H) G N :=
  (AMTree.new TreeName.mk shardRoot).setCommitment root

/-- Open the tree over a column. -/
def new (db : DBColumn) (shardRoot : Option (NodeIndex N)) : Option (AmtDB G H N) := do
  let root ← storedRoot db
  some ⟨root, openTree shardRoot root, db⟩

/-- `copy_from_slice` into an array panics unless the lengths are equal. -/
def copyFromSlice (length : Nat) (source : Bytes) : Option Bytes :=
  if source.length = length then some source else none

/-- `index`; the array has the eight bytes of a `u64`. -/
def index (N : Nat) (key : Bytes) : Option Nat := do
  let bytes := (N + 7) / 8
  if bytes ≤ key.length then
    let index ← copyFromSlice 8 (key.take bytes)
    some (LittleEndian.value index &&& ((1 <<< N) - 1))
  else
    none

/-- `get`, after the index. -/
def getAt (db : AmtDB G H N) (index : Nat) : Option (Option (Vec UInt8) × AmtDB G H N) := do
  let (node, amt) ← db.amt.get db.db index
  some (if node.hash = H256.zero then none else some node.data, { db with amt })

/-- The value at the leaf of a key; the zero hash means that there is none. -/
def get (db : AmtDB G H N) (key : Bytes) : Option (Option (Vec UInt8) × AmtDB G H N) := do
  let index ← index N key
  db.getAt index

/-- `set`, after the index: a guard is taken, its value replaced, and it is dropped. -/
def setAt (pp : AMTParams G G₂ N) (db : AmtDB G H N) (index : Nat) (value : Vec UInt8) :
    Option (AmtDB G H N) := do
  let newNode : Node H := ⟨value, keccak value.toList⟩
  let guard ← db.amt.writeVersions db.db index
  let amt ← { guard with value := newNode }.drop pp db.db
  some { db with amt }

/-- Write the leaf of a key. -/
def set (pp : AMTParams G G₂ N) (db : AmtDB G H N) (key : Bytes) (value : Vec UInt8) :
    Option (AmtDB G H N) := do
  let index ← index N key
  db.setAt pp index value

/-- Flush the tree, and store its commitment. -/
def commit (db : AmtDB G H N) : Option (G × AmtDB G H N) := do
  let (root, column, amt) ← db.amt.flush db.db
  some (root, ⟨root, amt, column.writeBuffered [.insert ROOT_KEY (toBytesLocal root)]⟩)

end AmtDB

/-! ### Runs -/

/-- An operation on a database whose keys are of type `K`. -/
inductive AmtOp (K : Type)
  | set (key : K) (value : Vec UInt8)
  | get (key : K)
  | commit
  /-- Drop the database and open it again over its store. -/
  | reopen

/-- What a call returns. -/
inductive AmtOutput (G : Type)
  | done
  | answer (value : Option (Vec UInt8))
  | root (commitment : G)

/-- The key that the call is about. -/
def AmtOp.key? : AmtOp K → Option K
  | set key _ => some key
  | get key => some key
  | commit => none
  | reopen => none

/-- What a read found. -/
def AmtOutput.answer? : AmtOutput G → Option (Option (Vec UInt8))
  | answer value => some value
  | done => none
  | root _ => none

namespace AmtDB

variable {N : Nat}

/-- One operation, where `locate` finds the index of a key. -/
def step (locate : K → Option Nat) (pp : AMTParams G G₂ N) (shardRoot : Option (NodeIndex N))
    (db : AmtDB G H N) : AmtOp K → Option (AmtDB G H N × AmtOutput G)
  | .set key value => do
    let index ← locate key
    let db ← db.setAt pp index value
    some (db, .done)
  | .get key => do
    let index ← locate key
    let (value, db) ← db.getAt index
    some (db, .answer value)
  | .commit => do
    let (root, db) ← db.commit
    some (db, .root root)
  | .reopen => do
    let db ← new db.db shardRoot
    some (db, .done)

/-- A run over a store that was empty. -/
def run (locate : K → Option Nat) (pp : AMTParams G G₂ N) (shardRoot : Option (NodeIndex N))
    (ops : List (AmtOp K)) : Option (AmtDB G H N × List (AmtOutput G)) := do
  let db ← new DBColumn.empty shardRoot
  PartialRun.run (step locate pp shardRoot) db ops

/-- With the source's own index, the steps are the source's operations. -/
theorem step_index (pp : AMTParams G G₂ N) (shardRoot : Option (NodeIndex N)) (db : AmtDB G H N)
    (key : Bytes) (value : Vec UInt8) :
    step (index N) pp shardRoot db (.set key value) =
        (db.set pp key value).map (fun db => (db, .done)) ∧
      step (index N) pp shardRoot db (.get key) =
        (db.get key).map fun found => (found.2, .answer found.1) := by
  rw [step, step, set, get]
  constructor
  · cases index N key with
    | none => rfl
    | some index => exact (Option.map_eq_bind ..).symm
  · cases index N key with
    | none => rfl
    | some index => exact (Option.map_eq_bind ..).symm

end AmtDB

/-! ### What the database is for -/

/-- The values of the leaves, and those that survive. -/
structure LeafMap where
  current : Nat → Option (Vec UInt8)
  committed : Nat → Option (Vec UInt8)

namespace LeafMap

/-- No leaf is written. -/
def empty : LeafMap := ⟨fun _ => none, fun _ => none⟩

/-- One operation and its answer, where `locate` is the leaf of a key. -/
def step (locate : K → Nat) (map : LeafMap) : AmtOp K → LeafMap × Option (Option (Vec UInt8))
  | .set key value =>
    ({ map with current := Function.update map.current (locate key) (some value) }, none)
  | .get key => (map, some (map.current (locate key)))
  | .commit => ({ map with committed := map.current }, none)
  | .reopen => ({ map with current := map.committed }, none)

/-- The answers of a run. -/
def answers (locate : K → Nat) : LeafMap → List (AmtOp K) → List (Option (Option (Vec UInt8)))
  | _, [] => []
  | map, op :: rest => (map.step locate op).2 :: answers locate (map.step locate op).1 rest

end LeafMap

/-- The little-endian integer of the first bytes of a key, reduced to `N` bits. -/
def lowBits (N : Nat) (key : Bytes) : Nat :=
  LittleEndian.value (key.take ((N + 7) / 8)) % 2 ^ N

/-! ### The database is the map -/

namespace AmtDB

variable {N : Nat}

/-- The tree has the current values; a tree opened over the store has the committed ones. -/
def Represents (db : AmtDB G H N) (shardRoot : Option (NodeIndex N)) (map : LeafMap) : Prop :=
  ∃ view stored : AMTView (Node H) G N,
    db.amt.Represents db.db TreeName.mk shardRoot view ∧
      storedRoot db.db = some stored.commitment ∧
      (openTree shardRoot stored.commitment).Represents db.db TreeName.mk shardRoot stored ∧
      (∀ leaf, (view.data leaf).content = map.current leaf) ∧
      ∀ leaf, (stored.data leaf).content = map.committed leaf

variable {shardRoot : Option (NodeIndex N)} {db : AmtDB G H N} {map : LeafMap}

theorem new_empty (shardRoot : Option (NodeIndex N)) :
    ∃ opened : AmtDB G H N, new DBColumn.empty shardRoot = some opened ∧
      opened.Represents shardRoot .empty := by
  have stands : (openTree shardRoot (0 : G) : AMTree TreeName (Node H) G N).Represents
      DBColumn.empty TreeName.mk shardRoot .empty := AMTree.represents_new fun _ _ => rfl
  exact ⟨_, rfl, .empty, .empty, stands, rfl, stands, fun _ => Node.content_default,
    fun _ => Node.content_default⟩

theorem Represents.getAt (represents : db.Represents shardRoot map) (leaf : Fin (2 ^ N)) :
    ∃ next, db.getAt leaf = some (map.current leaf, next) ∧ next.Represents shardRoot map := by
  obtain ⟨view, stored, stands, isStored, standsStored, current, committed⟩ := represents
  obtain ⟨amt, done, standsNext⟩ := stands.get leaf
  refine ⟨{ db with amt }, ?_, view, stored, standsNext, isStored, standsStored, current,
    committed⟩
  rw [AmtDB.getAt, done, ← current leaf]
  rfl

/-- A value whose digest is not zero. -/
theorem Represents.setAt (represents : db.Represents shardRoot map) (pp : AMTParams G G₂ N)
    (leaf : Fin (2 ^ N)) {value : Vec UInt8} (visible : (keccak value.toList : H) ≠ H256.zero) :
    ∃ next, db.setAt pp leaf value = some next ∧ next.Represents shardRoot
      { map with current := Function.update map.current leaf (some value) } := by
  obtain ⟨view, stored, stands, isStored, standsStored, current, committed⟩ := represents
  rcases stands.writeVersions pp leaf with ⟨undefined, -⟩ | ⟨guard, taken, -, dropped⟩
  · cases undefined
  · have replaced := dropped ⟨value, keccak value.toList⟩
    obtain ⟨amt, done, standsNext, -⟩ := replaced.of_some_right
    obtain ⟨-, -, -, -, written, -⟩ := AMTView.replace_eq_some
      (rfl : view.replace pp shardRoot leaf ⟨value, keccak value.toList⟩ = some _)
    refine ⟨{ db with amt }, ?_, _, stored, standsNext, isStored, standsStored, fun other => ?_,
      committed⟩
    · rw [AmtDB.setAt, taken]
      show (AMTNodeWriteGuard.drop pp _ db.db).bind _ = _
      rw [done]
      rfl
    · rw [written]
      dsimp only
      by_cases same : other = leaf
      · subst same
        rw [Function.update_self, Function.update_self]
        exact if_neg visible
      · rw [Function.update_of_ne same,
          Function.update_of_ne fun equal => same (Fin.ext equal), current other]

/-- The key of the root is none of the tree's. -/
theorem not_ownsKey_rootKey : ¬ AMTree.OwnsKey N TreeName.mk ROOT_KEY := by
  have start : ∀ (kind : UInt8) (rest : Bytes), kind ≠ 0 →
      ROOT_KEY ≠ setPrefix kind TreeName.mk ++ rest := fun kind rest other same =>
    other (List.cons.inj same).1.symm
  rintro (⟨leaf, same⟩ | ⟨node, same⟩ | ⟨leaf, same⟩) <;> exact start _ _ (by decide) same

theorem storedRoot_writeBuffered (column : DBColumn) (root : G) :
    storedRoot (column.writeBuffered [.insert ROOT_KEY (toBytesLocal root)]) = some root := by
  rw [storedRoot, DBColumn.writeBuffered, List.foldl_cons, List.foldl_nil, DBOp.apply,
    Function.update_self]
  exact fromBytesLocal_toBytesLocal root

theorem Represents.commit (represents : db.Represents shardRoot map) (small : N ≤ 28) :
    ∃ root next, db.commit = some (root, next) ∧
      next.Represents shardRoot { map with committed := map.current } := by
  have : LawfulLayout (Fin (2 ^ N)) := lawfulLayout_fin (by omega)
  have : LawfulLayout (NodeIndex N) := lawfulLayout_nodeIndex (by omega)
  obtain ⟨view, stored, stands, isStored, standsStored, current, committed⟩ := represents
  obtain ⟨column, done, flushed, -⟩ := stands.flush
  have outside : ∀ key, AMTree.OwnsKey N TreeName.mk key →
      column.writeBuffered [.insert ROOT_KEY (toBytesLocal view.commitment)] key = column key := by
    refine fun key owned => DBColumn.writeBuffered_of_notMem _ _ fun op member same => ?_
    rw [List.mem_singleton.mp member] at same
    exact not_ownsKey_rootKey (same ▸ owned)
  have framed := flushed.frame outside
  refine ⟨view.commitment, ⟨view.commitment, openTree shardRoot view.commitment, _⟩, ?_,
    view.clean, view.clean, framed, storedRoot_writeBuffered _ _, framed, current, current⟩
  rw [AmtDB.commit, done]
  rfl

theorem Represents.reopen (represents : db.Represents shardRoot map) :
    ∃ next : AmtDB G H N, new db.db shardRoot = some next ∧
      next.Represents shardRoot { map with current := map.committed } := by
  obtain ⟨view, stored, stands, isStored, standsStored, current, committed⟩ := represents
  refine ⟨⟨stored.commitment, _, db.db⟩, ?_, stored, stored, standsStored, isStored, standsStored,
    committed, committed⟩
  rw [new, isStored]
  rfl

/-- The operations for which the map is right: the index of the key is found, and is a leaf, and
the digest of the value is not the one of an empty leaf. -/
def Located (H : Type) [H256 H] (N : Nat) (locate : K → Option Nat) (leafOf : K → Nat)
    (op : AmtOp K) : Prop :=
  (∀ key, op.key? = some key → locate key = some (leafOf key) ∧ leafOf key < 2 ^ N) ∧
    ∀ key value, op = .set key value → (keccak value.toList : H) ≠ H256.zero

theorem Represents.step (represents : db.Represents shardRoot map) (pp : AMTParams G G₂ N)
    {locate : K → Option Nat} {leafOf : K → Nat} {op : AmtOp K}
    (located : Located H N locate leafOf op) :
    ∃ next out, AmtDB.step locate pp shardRoot db op = some (next, out) ∧
      next.Represents shardRoot (map.step leafOf op).1 ∧
      out.answer? = (map.step leafOf op).2 := by
  cases op with
  | set key value =>
    obtain ⟨found, inside⟩ := located.1 key rfl
    obtain ⟨next, done, stands⟩ :=
      represents.setAt pp ⟨leafOf key, inside⟩ (located.2 key value rfl)
    refine ⟨next, .done, ?_, stands, rfl⟩
    rw [AmtDB.step, found]
    show (db.setAt pp (leafOf key) value).bind _ = _
    rw [done]
    rfl
  | get key =>
    obtain ⟨found, inside⟩ := located.1 key rfl
    obtain ⟨next, done, stands⟩ := represents.getAt ⟨leafOf key, inside⟩
    refine ⟨next, .answer (map.current (leafOf key)), ?_, stands, rfl⟩
    rw [AmtDB.step, found]
    show (db.getAt (leafOf key)).bind _ = _
    rw [done]
    rfl
  | commit =>
    obtain ⟨root, next, done, stands⟩ := represents.commit pp.depths_le
    refine ⟨next, .root root, ?_, stands, rfl⟩
    rw [AmtDB.step, done]
    rfl
  | reopen =>
    obtain ⟨next, done, stands⟩ := represents.reopen
    refine ⟨next, .done, ?_, stands, rfl⟩
    rw [AmtDB.step, done]
    rfl

/-- Every run gives the answers of the map. -/
theorem Represents.run (represents : db.Represents shardRoot map) (pp : AMTParams G G₂ N)
    {locate : K → Option Nat} {leafOf : K → Nat} {ops : List (AmtOp K)}
    (located : ∀ op ∈ ops, Located H N locate leafOf op) :
    ∃ final outputs, PartialRun.run (AmtDB.step locate pp shardRoot) db ops =
        some (final, outputs) ∧
      outputs.map AmtOutput.answer? = map.answers leafOf ops := by
  induction ops generalizing db map with
  | nil => exact ⟨db, [], rfl, rfl⟩
  | cons op rest inductionHypothesis =>
    obtain ⟨next, out, stepped, stands, sameOut⟩ :=
      represents.step pp (located op List.mem_cons_self)
    obtain ⟨final, outputs, done, sameRest⟩ := inductionHypothesis stands
      fun other member => located other (List.mem_cons_of_mem _ member)
    refine ⟨final, out :: outputs, ?_, ?_⟩
    · rw [PartialRun.run_cons, stepped, Option.bind_some, done]
      rfl
    · rw [List.map_cons, LeafMap.answers, sameOut, sameRest]

/-- The tree, its caches and its store are a map from leaves to values, across commits and
reopening, however the leaf of a key is found. -/
theorem run_located (pp : AMTParams G G₂ N) (shardRoot : Option (NodeIndex N))
    {locate : K → Option Nat} {leafOf : K → Nat} {ops : List (AmtOp K)}
    (located : ∀ op ∈ ops, Located H N locate leafOf op) :
    ∃ (final : AmtDB G H N) (outputs : List (AmtOutput G)),
      AmtDB.run locate pp shardRoot ops = some (final, outputs) ∧
        outputs.map AmtOutput.answer? = LeafMap.empty.answers leafOf ops := by
  obtain ⟨opened, isOpened, represents⟩ := new_empty (G := G) (H := H) shardRoot
  obtain ⟨final, outputs, done, same⟩ := represents.run pp located
  refine ⟨final, outputs, ?_, same⟩
  rw [AmtDB.run, isOpened]
  exact done

/-! ### Finding the leaf -/

/-- For the supported heights three or four bytes of the key are copied into an array of eight. -/
theorem index_eq_none {N : Nat} (supported : 20 ≤ N ∧ N ≤ 28) (key : Bytes) :
    index N key = none := by
  rw [index]
  split
  · next long =>
    have other : (key.take ((N + 7) / 8)).length ≠ 8 := by
      rw [List.length_take_of_le long]
      omega
    rw [copyFromSlice, if_neg other]
    rfl
  · rfl

/-- The run ends without a panic, and every read gives the value that was last written to its
leaf. -/
def ReadsLast (H : Type) [H256 H] (pp : AMTParams G G₂ N) (shardRoot : Option (NodeIndex N))
    (ops : List (AmtOp Bytes)) : Prop :=
  ∃ (final : AmtDB G H N) (outputs : List (AmtOutput G)),
    run (index N) pp shardRoot ops = some (final, outputs) ∧
      outputs.map AmtOutput.answer? = LeafMap.empty.answers (lowBits N) ops

/-- A run succeeds exactly if it neither reads nor writes. -/
theorem readsLast_iff {N : Nat} (supported : 20 ≤ N ∧ N ≤ 28) (pp : AMTParams G G₂ N)
    (shardRoot : Option (NodeIndex N)) (ops : List (AmtOp Bytes)) :
    ReadsLast H pp shardRoot ops ↔ ∀ op ∈ ops, op.key? = none := by
  constructor
  · rintro ⟨final, outputs, done, -⟩ op member
    rw [run] at done
    obtain ⟨opened, -, done⟩ := Option.bind_eq_some_iff.mp done
    refine PartialRun.forall_of_run_eq_some (fun op => op.key? = none) ?_ done op member
    intro state op next stepped
    cases op with
    | set key value =>
      rw [step, index_eq_none supported] at stepped
      cases stepped
    | get key =>
      rw [step, index_eq_none supported] at stepped
      cases stepped
    | commit => rfl
    | reopen => rfl
  · intro keyless
    refine run_located pp shardRoot fun op member => ⟨fun key isKey => ?_, ?_⟩
    · rw [keyless op member] at isKey
      cases isKey
    · rintro key value rfl
      cases keyless _ member

/-- The whole key space of the smallest height, with a proof for every leaf. -/
def smallestParams : AMTParams Fr Fr 20 := .unit 20 (by decide)

theorem readsLast_iff_commits :
    ReadsLast Transcript smallestParams (some NodeIndex.root) [.commit, .reopen, .commit] ↔
      ∀ op ∈ ([.commit, .reopen, .commit] : List (AmtOp Bytes)), op.key? = none :=
  readsLast_iff (by decide) smallestParams (some NodeIndex.root) _

/-- The first read panics, of a key of the three bytes that are needed and of one with more. -/
theorem not_readsLast_shortKey :
    ¬ ReadsLast Transcript smallestParams (some NodeIndex.root) [.get [1, 2, 3]] ∧
      ¬ ReadsLast Transcript smallestParams (some NodeIndex.root)
        [.set (List.replicate 32 7) (.single 1), .commit, .get (List.replicate 32 7)] := by
  constructor
  · rintro ⟨final, outputs, done, -⟩
    cases done
  · rintro ⟨final, outputs, done, -⟩
    cases done

end AmtDB

end AuthStorage.Lvmt.SingleAmt
