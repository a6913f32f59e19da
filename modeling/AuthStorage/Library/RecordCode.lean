/-
This file is about the codes of records. A code is meant for some items, and what
it reads back may be another representation of the item that was written. The code
of a record writes its fields one after the other, and reads them in the same order
into the record's constructor. If every field is read back exactly, the record is,
and no codeword is a proper prefix of another.
-/

import AuthStorage.Library.PrefixCode

variable {α β : Type} {Symbol : Type}

/-- The items a code is meant for, and when two of them mean the same. -/
structure Meaning (α : Type) where
  Admissible : α → Prop
  Same : α → α → Prop

/-- Every item is meant, and only as itself. -/
def Meaning.literal : Meaning α := ⟨fun _ => True, Eq⟩

/-- `read` consumes exactly what `write` produced for a meant item, whatever follows, and gives
an item of the same meaning. -/
def ExactCode (meaning : Meaning α) (write : α → List Symbol)
    (read : List Symbol → Option (α × List Symbol)) : Prop :=
  ∀ item, meaning.Admissible item → ∀ rest,
    ∃ found, read (write item ++ rest) = some (found, rest) ∧ meaning.Same item found

theorem PrefixCode.exact {write : α → List Symbol} {read : List Symbol → Option (α × List Symbol)}
    (code : PrefixCode write read) : ExactCode Meaning.literal write read :=
  fun item _ rest => ⟨item, code item rest, rfl⟩

namespace ExactCode

section

variable {meaning meaning' : Meaning α} {write : α → List Symbol}
  {read : List Symbol → Option (α × List Symbol)}

theorem imp (code : ExactCode meaning write read)
    (admissible : ∀ item, meaning'.Admissible item → meaning.Admissible item)
    (same : ∀ item found, meaning.Same item found → meaning'.Same item found) :
    ExactCode meaning' write read := by
  intro item isAdmissible rest
  obtain ⟨found, done, agrees⟩ := code item (admissible item isAdmissible) rest
  exact ⟨found, done, same item found agrees⟩

theorem prefixCode (code : ExactCode Meaning.literal write read) : PrefixCode write read := by
  intro item rest
  obtain ⟨found, done, rfl⟩ := code item trivial rest
  exact done

/-- No codeword is a proper prefix of another. -/
theorem eq_of_isPrefix (code : ExactCode meaning write read) {first second : α}
    (firstAdmissible : meaning.Admissible first) (secondAdmissible : meaning.Admissible second)
    (isPrefix : write first <+: write second) : write first = write second := by
  obtain ⟨rest, same⟩ := isPrefix
  obtain ⟨foundFirst, readFirst, -⟩ := code first firstAdmissible rest
  obtain ⟨foundSecond, readSecond, -⟩ := code second secondAdmissible []
  rw [List.append_nil, ← same, readFirst, Option.some.injEq, Prod.mk.injEq] at readSecond
  rw [← same, readSecond.2, List.append_nil]

/-- As many items as were written are read back, each with its meaning. -/
theorem readMany_flatMap (code : ExactCode meaning write read) (items : List α)
    (admissible : ∀ item ∈ items, meaning.Admissible item) (rest : List Symbol) :
    ∃ found, PrefixCode.readMany read items.length (items.flatMap write ++ rest) =
        some (found, rest) ∧ List.Forall₂ meaning.Same items found := by
  induction items with
  | nil => exact ⟨[], rfl, .nil⟩
  | cons head tail inductionHypothesis =>
    obtain ⟨others, readOthers, sameOthers⟩ :=
      inductionHypothesis fun item member => admissible item (List.mem_cons_of_mem _ member)
    obtain ⟨found, readHead, sameHead⟩ :=
      code head (admissible head List.mem_cons_self) (tail.flatMap write ++ rest)
    refine ⟨found :: others, ?_, .cons sameHead sameOthers⟩
    rw [List.length_cons, List.flatMap_cons, List.append_assoc, PrefixCode.readMany, readHead,
      Option.bind_some, readOthers]
    rfl

end

end ExactCode

/-! ### Codes of a fixed length -/

/-- Items that are written in a fixed number of symbols, and decoded from exactly these. -/
structure FixedCode (Symbol α : Type) where
  size : Nat
  encode : α → List Symbol
  decode : List Symbol → Option α
  length_encode : ∀ item, (encode item).length = size
  decode_encode : ∀ item, decode (encode item) = some item

namespace FixedCode

/-- Take the symbols of one item from the front. -/
def read (code : FixedCode Symbol α) (input : List Symbol) : Option (α × List Symbol) :=
  if code.size ≤ input.length then
    (code.decode (input.take code.size)).map fun item => (item, input.drop code.size)
  else
    none

theorem prefixCode (code : FixedCode Symbol α) : PrefixCode code.encode code.read := by
  intro item rest
  have length := code.length_encode item
  have long : code.size ≤ (code.encode item ++ rest).length := by
    rw [List.length_append, length]
    exact Nat.le_add_right _ _
  rw [read, if_pos long, ← length, List.take_left, List.drop_left, code.decode_encode]
  rfl

/-- One code after the other. -/
def append (first : FixedCode Symbol α) (second : FixedCode Symbol β) :
    FixedCode Symbol (α × β) where
  size := first.size + second.size
  encode pair := first.encode pair.1 ++ second.encode pair.2
  decode symbols := do
    let front ← first.decode (symbols.take first.size)
    let back ← second.decode (symbols.drop first.size)
    some (front, back)
  length_encode pair := by
    rw [List.length_append, first.length_encode, second.length_encode]
  decode_encode pair := by
    rw [← first.length_encode pair.1, List.take_left, List.drop_left, first.decode_encode,
      second.decode_encode]
    rfl

end FixedCode

/-! ### Records -/

/-- The fields of a record `S`, in the order in which `Build` still takes them: where each is found
in the record, what it means and its code. -/
inductive Fields (Symbol S : Type) : Type → Type 1
  | done : Fields Symbol S S
  | field {α Build : Type} (get : S → α) (meaning : Meaning α) (write : α → List Symbol)
      (read : List Symbol → Option (α × List Symbol)) (rest : Fields Symbol S Build) :
      Fields Symbol S (α → Build)

namespace Fields

variable {S Build : Type}

/-- The fields one after the other. -/
def write : {Build : Type} → Fields Symbol S Build → S → List Symbol
  | _, done, _ => []
  | _, field get _ write _ others, item => write (get item) ++ others.write item

/-- Each field is read and handed to the constructor. -/
def read : {Build : Type} → Fields Symbol S Build → Build → List Symbol → Option (S × List Symbol)
  | _, done, item, input => some (item, input)
  | _, field _ _ _ read others, build, input =>
    (read input).bind fun found => others.read (build found.1) found.2

/-- Every field holds a value that its own code admits. -/
def Admissible : {Build : Type} → Fields Symbol S Build → S → Prop
  | _, done, _ => True
  | _, field get meaning _ _ others, item =>
    meaning.Admissible (get item) ∧ others.Admissible item

/-- What is found is built from fields that mean the same as the item's. -/
def Agrees : {Build : Type} → Fields Symbol S Build → Build → S → S → Prop
  | _, done, built, _, found => built = found
  | _, field get meaning _ _ others, build, item, found =>
    ∃ part, meaning.Same (get item) part ∧ others.Agrees (build part) item found

/-- The meaning of a record, field by field. -/
def meaning (fields : Fields Symbol S Build) (build : Build) : Meaning S :=
  ⟨fields.Admissible, fields.Agrees build⟩

/-- Every field has an exact code. -/
def Exact : {Build : Type} → Fields Symbol S Build → Prop
  | _, done => True
  | _, field _ meaning write read others => ExactCode meaning write read ∧ others.Exact

/-- The code of a record is exact if the codes of its fields are. -/
theorem Exact.record {fields : Fields Symbol S Build} (exact : fields.Exact) (build : Build) :
    ExactCode (fields.meaning build) fields.write (fields.read build) := by
  intro item admissible rest
  induction fields with
  | done => exact ⟨build, rfl, rfl⟩
  | field get meaning write read others inductionHypothesis =>
    obtain ⟨part, readPart, samePart⟩ := exact.1 (get item) admissible.1 (others.write item ++ rest)
    obtain ⟨found, readOthers, agrees⟩ := inductionHypothesis exact.2 (build part) admissible.2
    refine ⟨found, ?_, part, samePart, agrees⟩
    show ((read ((write (get item) ++ others.write item) ++ rest)).bind _) = _
    rw [List.append_assoc, readPart, Option.bind_some]
    exact readOthers

end Fields
