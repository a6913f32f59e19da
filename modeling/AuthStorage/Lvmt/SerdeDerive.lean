/-
This file models the derive macros of the serialisation traits. For each field of a
struct they look at how its type is spelled: a vector of anything but bytes goes
through `write_vec` and `read_vec` of its items, every other type through its own
`write` and `read`. Both macros look in the same way, so what one writes the other
reads, and a struct is read back exactly if its fields are.
-/

import AuthStorage.Library.RecordCode
import AuthStorage.Lvmt.Serde

namespace AuthStorage.Lvmt

variable {α S Build : Type}

/-! ### Types as they are spelled -/

/-- `syn::Type`: a path, to whose last segment generic arguments may be applied, or another form. -/
inductive SynType
  | path (segments : List String)
  | generic (base argument : SynType)
  | other
deriving DecidableEq

namespace SynType

/-- The path of a type, without its generic arguments. -/
def segments : SynType → Option (List String)
  | path segments => some segments
  | generic base _ => base.segments
  | other => none

/-- The type `Vec<u8>`. -/
def vecU8 : SynType := generic (path ["Vec"]) (path ["u8"])

/-- `is_vec`. -/
def isVec (ty : SynType) : Bool :=
  match ty.segments with
  | none => false
  | some segments =>
    if segments.length ≠ 1 then
      false
    else
      let isVec := segments.head? == some "Vec"
      let isU8 := ty == vecU8
      isVec && !isU8

/-- Vectors of bytes have an impl of their own. -/
theorem isVec_iff (ty : SynType) :
    ty.isVec = true ↔ ty.segments = some ["Vec"] ∧ ty ≠ vecU8 := by
  unfold isVec
  cases found : ty.segments with
  | none => simp
  | some segments =>
    rcases segments with _ | ⟨ident, _ | ⟨other, rest⟩⟩
    · simp
    · simp [Option.some.injEq]
    · simp

end SynType

/-! ### The functions for a field -/

/-- A function that writes and one that reads. -/
@[ext] structure SerdeFns (α : Type) where
  write : SerdeType → α → Bytes
  read : SerdeType → Bytes → Option (α × Bytes)

namespace SerdeFns

/-- `write` and `read` of a type. -/
def own (α : Type) [MyToBytes α] [MyFromBytes α] : SerdeFns α :=
  ⟨MyToBytes.write, MyFromBytes.read⟩

/-- `write_vec` and `read_vec`, which an item type has for its vectors. -/
def vec (α : Type) [MyToBytes α] [MyFromBytes α] : SerdeFns (Vec α) := ⟨writeVec, readVec⟩

/-- In one mode the functions are a prefix code for the meaning. -/
def Exact (fns : SerdeFns α) (meaning : Meaning α) (ty : SerdeType) : Prop :=
  ExactCode meaning (fns.write ty) (fns.read ty)

section

variable [MyToBytes α] [MyFromBytes α] [LawfulSerde α]

theorem exact_own (ty : SerdeType) : (own α).Exact .literal ty := (LawfulSerde.code ty).exact

theorem exact_of_eq_own {fns : SerdeFns α} (same : fns = own α) (ty : SerdeType) :
    fns.Exact .literal ty := same ▸ exact_own ty

end

end SerdeFns

/-- Vectors mean the same if their items do. -/
def Vec.meaning (items : Meaning α) : Meaning (Vec α) where
  Admissible vector := ∀ item ∈ vector.toList, items.Admissible item
  Same first second := List.Forall₂ items.Same first.toList second.toList

/-- A count of eight bytes, then the items: exact if the items are. -/
theorem SerdeFns.Exact.vec [MyToBytes α] [MyFromBytes α] {meaning : Meaning α} {ty : SerdeType}
    (exact : (own α).Exact meaning ty) : (SerdeFns.vec α).Exact (Vec.meaning meaning) ty := by
  intro items admissible rest
  obtain ⟨found, done, same⟩ := exact.readMany_flatMap items.toList admissible rest
  have length : (UInt64.ofNat items.len).toNat = items.toList.length := toNat_ofNat_len items
  have fits : found.length < 2 ^ 64 := same.length_eq ▸ items.length_lt
  refine ⟨⟨found, fits⟩, ?_, same⟩
  show readVec ty (writeVec ty items ++ rest) = _
  rw [readVec, writeVec, List.append_assoc, read_write]
  show (PrefixCode.readMany _ (UInt64.ofNat items.len).toNat _).bind _ = _
  rw [length]
  rw [show PrefixCode.readMany (MyFromBytes.read ty) items.toList.length
    (items.toList.flatMap (MyToBytes.write ty) ++ rest) = some (found, rest) from done]
  exact dif_pos fits

/-- What is known of the type of a field: its meaning, its own impls, and if it is a vector the
functions its items have for it. -/
structure FieldType (α : Type) where
  meaning : Meaning α
  ownFns : Option (SerdeFns α)
  vecFns : Option (SerdeFns α)

namespace FieldType

/-- What the generated code calls for a field. -/
def chosen (type : FieldType α) (isVec : Bool) : Option (SerdeFns α) :=
  if isVec then type.vecFns else type.ownFns

/-- Whatever is called is exact. -/
def Exact (type : FieldType α) (ty : SerdeType) : Prop :=
  ∀ isVec, ∀ fns ∈ type.chosen isVec, fns.Exact type.meaning ty

end FieldType

/-! ### The macros -/

/-- A field of the struct `S`. The struct compiles, so there is something to call. -/
structure Member (S α : Type) where
  ty : SynType
  get : S → α
  type : FieldType α
  typed : (type.chosen ty.isVec).isSome

namespace Member

/-- The function that the derive calls to write the member. -/
def writeFn (member : Member S α) : SerdeType → α → Bytes :=
  ((member.type.chosen member.ty.isVec).get member.typed).write

/-- The function that the derive calls to read the member. -/
def readFn (member : Member S α) : SerdeType → Bytes → Option (α × Bytes) :=
  ((member.type.chosen member.ty.isVec).get member.typed).read

end Member

/-- The fields of a struct in order; `Build` is what is left of its constructor. -/
inductive Members (S : Type) : Type → Type 1
  | nil : Members S S
  | cons {α Build : Type} (member : Member S α) (others : Members S Build) :
      Members S (α → Build)

namespace Members

/-- `#[derive(MyToBytes)]`. -/
def encodable : {Build : Type} → Members S Build → SerdeType → S → Bytes
  | _, nil, _, _ => []
  | _, cons member others, ty, item =>
    member.writeFn ty (member.get item) ++ others.encodable ty item

/-- `#[derive(MyFromBytes)]`, into what is left of the constructor. -/
def decodable : {Build : Type} → Members S Build → SerdeType → Build → Bytes → Option (S × Bytes)
  | _, nil, _, built, input => some (built, input)
  | _, cons member others, ty, build, input => do
    let (value, input) ← member.readFn ty input
    others.decodable ty (build value) input

/-- Every field has exact functions. -/
def Exact (ty : SerdeType) : {Build : Type} → Members S Build → Prop
  | _, nil => True
  | _, cons member others => member.type.Exact ty ∧ others.Exact ty

/-- The fields as a record. -/
def fields (ty : SerdeType) : {Build : Type} → Members S Build → Fields UInt8 S Build
  | _, nil => .done
  | _, cons member others =>
    .field member.get member.type.meaning (member.writeFn ty) (member.readFn ty) (others.fields ty)

/-- The meaning of a struct, field by field. -/
def meaning (members : Members S Build) (build : Build) (ty : SerdeType) : Meaning S :=
  (members.fields ty).meaning build

theorem encodable_eq (members : Members S Build) (ty : SerdeType) :
    members.encodable ty = (members.fields ty).write := by
  funext item
  induction members with
  | nil => rfl
  | cons member others inductionHypothesis =>
    rw [encodable, inductionHypothesis]
    rfl

theorem decodable_eq (members : Members S Build) (ty : SerdeType) (build : Build) :
    members.decodable ty build = (members.fields ty).read build := by
  funext input
  induction members generalizing input with
  | nil => rfl
  | cons member others inductionHypothesis =>
    show (member.readFn ty input).bind _ = (member.readFn ty input).bind _
    refine congrArg (Option.bind _) (funext fun found => ?_)
    exact inductionHypothesis (build found.1) found.2

/-- Both macros choose for a field what its type has, and the same. -/
theorem fields_exact {members : Members S Build} {ty : SerdeType} (exact : members.Exact ty) :
    (members.fields ty).Exact := by
  induction members with
  | nil => trivial
  | cons member others inductionHypothesis =>
    exact ⟨exact.1 member.ty.isVec _ (Option.get_mem member.typed), inductionHypothesis exact.2⟩

/-- A derived struct is read back exactly if its fields are. -/
theorem Exact.derived {members : Members S Build} {ty : SerdeType} (exact : members.Exact ty)
    (build : Build) :
    ExactCode (members.meaning build ty) (members.encodable ty) (members.decodable ty build) := by
  rw [encodable_eq, decodable_eq]
  exact (fields_exact exact).record build

end Members

end AuthStorage.Lvmt
