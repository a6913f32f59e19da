/-
This file models `merkle/`: the Merkle tree of one epoch, kept in a column under
the epoch's number. The nodes are numbered from the root down, one power of two
for each level, and entry zero holds the depth. A level with an odd number of
hashes is filled up with the hash of the empty string.
-/

import AuthStorage.Lvmt.Crypto
import AuthStorage.Lvmt.Storage

namespace AuthStorage.Lvmt

variable {H : Type} [H256 H]

instance H256.inhabited : Inhabited H := ⟨H256.zero⟩

/-- The hash of two hashes. -/
def combineHash (first second : H) : H := keccak (toBytesLocal first ++ toBytesLocal second)

/-- The tree of one epoch. -/
structure StaticMerkleTree (H : Type) where
  data : DBAccess Nat H
  root : H
  depth : UInt32

/-- The hashes on the path, from the leaf up, and the position of the leaf. -/
abbrev MerkleProof (H : Type) := List H × UInt64

namespace StaticMerkleTree

/-- The prefix of an epoch's entries: its number, big-endian. -/
def epochPrefix (epoch : UInt64) : Bytes := (LittleEndian.digits 8 epoch.toNat).reverse

/-- Open the tree of an epoch; its depth and root are stored as its first entries. -/
def new (db : DBColumn) (epoch : UInt64) : Option (StaticMerkleTree H) := do
  let backend : DBAccess Nat H := .new (epochPrefix epoch)
  let (depth, backend) ← backend.get db 0
  let (root, backend) ← backend.get db 1
  some ⟨backend, root, (H256.toLowU64Be depth).toUInt32⟩

/-- One iteration of the loop of `prove`, `height` levels above the leaves; shifting by 64 bits or
more panics. -/
def proveLevel (db : DBColumn) (depth : Nat) (position : UInt64)
    (state : List H × DBAccess Nat H) (height : Nat) : Option (List H × DBAccess Nat H) := do
  if depth - height < 64 then
    let index := (1 <<< (depth - height)) ||| ((position.toNat >>> height) ^^^ 1)
    let (answer, data) ← state.2.get db index
    let answer := if answer = default then keccakEmpty H else answer
    some (state.1 ++ [answer], data)
  else
    none

/-- The siblings on the way from a leaf to the root. -/
def prove (tree : StaticMerkleTree H) (db : DBColumn) (position : UInt64) :
    Option (MerkleProof H) := do
  let (proofs, _) ← (List.range tree.depth.toNat).foldlM
    (proveLevel db tree.depth.toNat position) ([], tree.data)
  some (proofs, position)

/-- The hash of the path: `height` is the number of steps done so far. -/
def climb (position : UInt64) : Nat → H → List H → H
  | _, current, [] => current
  | height, current, sibling :: rest =>
    let rightAppend := (position.toNat >>> height) % 2 = 0
    climb position (height + 1)
      (if rightAppend then combineHash current sibling else combineHash sibling current) rest

/-- Shifting the position by 64 bits or more panics. -/
def verify (root hash : H) (proof : MerkleProof H) : Option Bool :=
  if proof.1.length ≤ 64 then some (decide (climb proof.2 0 hash proof.1 = root)) else none

/-- `length.next_power_of_two().trailing_zeros()`. -/
def depthOf (length : Nat) : Nat := if length ≤ 1 then 0 else Nat.log2 (length - 1) + 1

/-- `chunks(2)`, each chunk combined. -/
def combinePairs : List H → List H
  | first :: second :: rest => combineHash first second :: combinePairs rest
  | _ => []

/-- The level above. -/
def nextLevel (thisLevel : List H) : List H :=
  combinePairs (if thisLevel.length % 2 ≠ 0 then thisLevel ++ [keccakEmpty H] else thisLevel)

/-- The entries of one level. -/
def setLevel (backend : DBAccess Nat H) (level : Nat) (thisLevel : List H) : DBAccess Nat H :=
  thisLevel.zipIdx.foldl (fun backend entry => backend.set ((1 <<< level) + entry.2) entry.1)
    backend

/-- The loop over the levels, from the leaves to the root. -/
def dumpFrom (onlyRoot : Bool) : Nat → List H → DBAccess Nat H → DBAccess Nat H × H
  | 0, thisLevel, backend =>
    (if onlyRoot then backend else setLevel backend 0 thisLevel, thisLevel.getLastD default)
  | level + 1, thisLevel, backend =>
    let backend := if onlyRoot then backend else setLevel backend (level + 1) thisLevel
    dumpFrom onlyRoot level (nextLevel thisLevel) backend

/-- Write the tree over some leaves; returns the root. -/
def dump (db : DBColumn) (epoch : UInt64) (data : List H) (onlyRoot : Bool) : DBColumn × H :=
  let depth := depthOf data.length
  let (backend, root) := dumpFrom onlyRoot depth data (.new (epochPrefix epoch))
  let backend := backend.set 0 (H256.fromLowU64Be (UInt64.ofNat depth))
  ((backend.flushCache db).1, root)

/-- The root over the hashes of one level. -/
def rootOf : Nat → List H → H
  | 0, thisLevel => thisLevel.getLastD default
  | level + 1, thisLevel => rootOf level (nextLevel thisLevel)

theorem dumpFrom_root (onlyRoot : Bool) (level : Nat) (thisLevel : List H)
    (backend : DBAccess Nat H) :
    (dumpFrom onlyRoot level thisLevel backend).2 = rootOf level thisLevel := by
  induction level generalizing thisLevel backend with
  | zero => rfl
  | succ level inductionHypothesis => exact inductionHypothesis _ _

/-- The root does not depend on the store, nor on what is written to it. -/
theorem dump_root (db : DBColumn) (epoch : UInt64) (data : List H) (onlyRoot : Bool) :
    (dump db epoch data onlyRoot).2 = rootOf (depthOf data.length) data :=
  dumpFrom_root _ _ _ _

end StaticMerkleTree

end AuthStorage.Lvmt
