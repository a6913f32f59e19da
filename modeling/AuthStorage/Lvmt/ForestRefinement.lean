/-
This file connects the version trees as the code keeps them to the forest they
stand for. A live tree represents its contents over the store; a tree that was
never visited is in the store alone, with its commitment in its parent. The
marks lead to every changed tree. Visiting a tree changes nothing that the
forest can see, every operation on a visited tree is the forest's operation, and
a commit along the marks is the commit of the forest.
-/

import AuthStorage.Lvmt.Forest

namespace AuthStorage.Lvmt

/-! ### Store keys of different trees -/

namespace AMTree

theorem OwnsKey.split {depths : Nat} {name : TreeName} {key : Bytes}
    (owns : OwnsKey depths name key) :
    ∃ kind tail, key = setPrefix kind name ++ tail ∧ tail.length = 4 := by
  have tail : ∀ number, (LittleEndian.digits 4 number).reverse.length = 4 := fun number => by
    rw [List.length_reverse, LittleEndian.length_digits]
  rcases owns with ⟨_, rfl⟩ | ⟨_, rfl⟩ | ⟨_, rfl⟩
  · exact ⟨1, _, rfl, tail _⟩
  · exact ⟨2, _, rfl, tail _⟩
  · exact ⟨3, _, rfl, tail _⟩

/-- Trees with different names share no store key. -/
theorem OwnsKey.name_eq {depths : Nat} {first second : TreeName} {key : Bytes}
    (firstShort : first.length ≤ 255) (secondShort : second.length ≤ 255)
    (owns : OwnsKey depths first key) (owns' : OwnsKey depths second key) : first = second := by
  obtain ⟨kind, tail, rfl, length⟩ := owns.split
  obtain ⟨kind', tail', same, length'⟩ := owns'.split
  obtain ⟨prefixes, -⟩ := List.append_inj' same (length.trans length'.symm)
  exact TreeName.toBytesConsensus_inj firstShort secondShort (List.cons.inj prefixes).2

theorem OwnsKey.ne_rootKey {depths : Nat} {name : TreeName} {key : Bytes}
    (owns : OwnsKey depths name key) : key ≠ ROOT_KEY := by
  obtain ⟨kind, tail, rfl, length⟩ := owns.split
  intro same
  have lengths := congrArg List.length same
  rw [List.length_append, length] at lengths
  change _ = 2 at lengths
  omega

section

variable {Name Data G : Type} {height : Nat} {tree : AMTree Name Data G height}

theorem setCommitment_of_ne_none (known : tree.commitment ≠ none) (commitment : G) :
    tree.setCommitment commitment = tree := by
  unfold setCommitment
  split
  · contradiction
  · rfl

theorem setCommitment_ne_none (commitment : G) :
    (tree.setCommitment commitment).commitment ≠ none := by
  unfold setCommitment
  split
  · exact Option.some_ne_none _
  · rename_i known
    rw [known]
    exact Option.some_ne_none _

theorem setCommitment_subtreeRoots (commitment : G)
    (subtreeRoots : DBAccess (Fin (2 ^ height)) G) :
    { tree with subtreeRoots }.setCommitment commitment =
      { tree.setCommitment commitment with subtreeRoots } := by
  obtain ⟨_, _, _, _, known, _, _⟩ := tree
  cases known <;> rfl

end

/-- Reading a subtree root does not need the tree's own commitment. -/
theorem subtreeRoot_of_setCommitment {Name Data G : Type} {height : Nat} [Curve G] [AMTData Data]
    [MyToBytes Name] {tree : AMTree Name Data G height} {db : DBColumn} {name : Name}
    {shardRoot : Option (NodeIndex height)} {view : AMTView Data G height} {commitment : G}
    (represents : (tree.setCommitment commitment).Represents db name shardRoot view)
    (index : Fin (2 ^ height)) :
    ∃ next, tree.subtreeRoot db index = some (view.subtreeRoots index, next) ∧
      (next.setCommitment commitment).Represents db name shardRoot view ∧
      next.commitment = tree.commitment := by
  have sameRoots : (tree.setCommitment commitment).subtreeRoots = tree.subtreeRoots := by
    unfold setCommitment
    cases tree.commitment <;> rfl
  have roots := represents.subtreeRoots
  have rootsPrefix := represents.rootsPrefix
  rw [sameRoots] at roots rootsPrefix
  obtain ⟨subtreeRoots, done, stands, samePrefix⟩ := roots.getMut index
  refine ⟨{ tree with subtreeRoots }, ?_, ?_, rfl⟩
  · rw [subtreeRoot, checkIndex_val]
    show (tree.subtreeRoots.getMut db index).bind _ = _
    rw [done]
    rfl
  · rw [setCommitment_subtreeRoots]
    exact { represents with
      subtreeRoots := stands
      rootsPrefix := by rw [← rootsPrefix, ← samePrefix] }

end AMTree

/-! ### What the trees stand for -/

theorem TreeName.Valid.firstIndex_lt {depths : Nat} {name : TreeName} {index : UInt32}
    (valid : name.Valid depths) (first : name.firstIndex = some index) :
    index.toNat < 2 ^ depths := by
  induction name with
  | root => cases first
  | child parent last inductionHypothesis =>
    cases parent with
    | root =>
      cases first
      exact valid.1
    | child above next => exact inductionHypothesis valid.2 first

/-- The shard of a tree that can be visited is known. -/
theorem shardRootOf_eq {depths : Nat} (shardNode : Option (NodeIndex depths)) {name : TreeName}
    (valid : name.Valid depths) :
    shardRootOf shardNode name = some (Forest.shardRoot shardNode name) := by
  suffices defined : ∃ shardRoot, shardRootOf shardNode name = some shardRoot by
    obtain ⟨shardRoot, done⟩ := defined
    rw [Forest.shardRoot, done]
    rfl
  cases shardNode with
  | none => exact ⟨_, rfl⟩
  | some shardNode =>
    unfold shardRootOf
    cases first : name.firstIndex with
    | none => exact ⟨_, rfl⟩
    | some index =>
      have inside : checkIndex depths index.toNat = some ⟨_, valid.firstIndex_lt first⟩ :=
        dif_pos _
      simp [inside]

namespace VersionTree

variable {G G₂ : Type} {depths : Nat} [Curve G]

/-- The trees stand for the forest, but the pending ones still have to be marked in their parents
and to take their commitments from there. -/
structure RepresentsBut (pending : TreeName → Prop) (versionTree : VersionTree G depths)
    (forest : Forest G depths) : Prop where
  proper : ∀ {name info}, versionTree.forest name = some info → name.Proper depths
  live : ∀ {name info}, versionTree.forest name = some info →
    (info.tree.setCommitment (forest name).commitment).Represents versionTree.db name
      (Forest.shardRoot versionTree.shardNode name) (forest name)
  known : ∀ {name info}, versionTree.forest name = some info → ¬ pending name →
    info.tree.commitment ≠ none
  absent : ∀ {name}, versionTree.forest name = none → name.Proper depths →
    ((AMTree.new name (Forest.shardRoot versionTree.shardNode name)).setCommitment
      (forest name).commitment).Represents versionTree.db name
      (Forest.shardRoot versionTree.shardNode name) (forest name)
  root : ∃ info, versionTree.forest .root = some info ∧ info.tree.commitment ≠ none
  marked : ∀ {parent index info}, versionTree.forest (.child parent index) = some info →
    info.markInParent = true → ¬ pending (.child parent index) →
      ∃ above, versionTree.forest parent = some above ∧ index ∈ above.childrenMarks ∧
        (parent = .root ∨ above.markInParent = true)
  children : ∀ {name info index}, versionTree.forest name = some info →
    index ∈ info.childrenMarks → ∃ child, versionTree.forest (.child name index) = some child
  distinct : ∀ {name info}, versionTree.forest name = some info → info.childrenMarks.Nodup
  dirty : ∀ {parent index}, (forest (.child parent index)).dirty = true →
    ∃ info, versionTree.forest (.child parent index) = some info ∧ info.markInParent = true
  layered : ∀ {name info}, versionTree.forest name = some info → name.length < versionTree.layers
  layers_le : versionTree.layers ≤ 256

/-- The trees stand for the forest, and nothing is pending. -/
structure Represents (versionTree : VersionTree G depths) (forest : Forest G depths) : Prop extends
    RepresentsBut (fun _ => False) versionTree forest where
  linked : forest.Linked

variable {versionTree : VersionTree G depths} {forest : Forest G depths}
  {pending : TreeName → Prop}

omit [Curve G] in
theorem insert_forest_eq_some {name other : TreeName} {info found : TreeWithInfo G depths} :
    (versionTree.insert name info).forest other = some found ↔
      other = name ∧ found = info ∨ other ≠ name ∧ versionTree.forest other = some found := by
  by_cases same : other = name
  · subst same
    rw [insert_forest_self]
    simp [eq_comm]
  · rw [insert_forest_of_ne same]
    simp [same]

/-- Putting in a tree with contents of its own, over a store in which only its keys have changed. The
marks of the children that are there lead to the name. -/
theorem RepresentsBut.insertOver (represents : versionTree.RepresentsBut pending forest)
    (name : TreeName) (info : TreeWithInfo G depths) (view : AMTView Node G depths)
    (pending' : TreeName → Prop) {db : DBColumn}
    (elsewhere : ∀ other, other ≠ name → other.Proper depths →
      ∀ key, AMTree.OwnsKey depths other key → db key = versionTree.db key)
    (proper : name.Proper depths) (layered : name.length < versionTree.layers)
    (live : (info.tree.setCommitment view.commitment).Represents db name
      (Forest.shardRoot versionTree.shardNode name) view)
    (known : ¬ pending' name ∨ name = .root → info.tree.commitment ≠ none)
    (others : ∀ other, other ≠ name → ¬ pending' other → ¬ pending other)
    (marked : ∀ parent index, name = .child parent index → info.markInParent = true →
      ¬ pending' name → ∃ above, versionTree.forest parent = some above ∧
        index ∈ above.childrenMarks ∧ (parent = .root ∨ above.markInParent = true))
    (keeps : ∀ index child, versionTree.forest (.child name index) = some child →
      child.markInParent = true → ¬ pending' (.child name index) →
        index ∈ info.childrenMarks ∧ (name = .root ∨ info.markInParent = true))
    (children : ∀ index ∈ info.childrenMarks,
      ∃ child, versionTree.forest (.child name index) = some child)
    (distinct : info.childrenMarks.Nodup)
    (dirty : name ≠ .root → view.dirty = true → info.markInParent = true) :
    ({ versionTree with db }.insert name info).RepresentsBut pending'
      (Function.update forest name view) where
  proper {other found} inForest := by
    rcases insert_forest_eq_some.mp inForest with ⟨rfl, rfl⟩ | ⟨different, wasInForest⟩
    · exact proper
    · exact represents.proper wasInForest
  live {other found} inForest := by
    rcases insert_forest_eq_some.mp inForest with ⟨rfl, rfl⟩ | ⟨different, wasInForest⟩
    · rwa [Function.update_self]
    · rw [Function.update_of_ne different]
      exact (represents.live wasInForest).frame
        (elsewhere other different (represents.proper wasInForest))
  known {other found} inForest notPending := by
    rcases insert_forest_eq_some.mp inForest with ⟨rfl, rfl⟩ | ⟨different, wasInForest⟩
    · exact known (Or.inl notPending)
    · exact represents.known wasInForest (others other different notPending)
  absent {other} notInForest properOther := by
    have different : other ≠ name := by
      rintro rfl
      rw [insert_forest_self] at notInForest
      cases notInForest
    rw [insert_forest_of_ne different] at notInForest
    rw [Function.update_of_ne different]
    exact (represents.absent notInForest properOther).frame (elsewhere other different properOther)
  root := by
    by_cases same : .root = name
    · subst same
      exact ⟨info, insert_forest_self _ _ _, known (Or.inr rfl)⟩
    · rw [insert_forest_of_ne same]
      exact represents.root
  marked {parent index found} inForest isMarked notPending := by
    rcases insert_forest_eq_some.mp inForest with ⟨rfl, rfl⟩ | ⟨different, wasInForest⟩
    · rw [insert_forest_of_ne (parent.child_ne_self index).symm]
      exact marked parent index rfl isMarked notPending
    · by_cases isParent : parent = name
      · subst isParent
        exact ⟨info, insert_forest_self _ _ _, keeps index found wasInForest isMarked notPending⟩
      · rw [insert_forest_of_ne isParent]
        exact represents.marked wasInForest isMarked (others _ different notPending)
  children {other found index} inForest member := by
    have present : ∀ {child}, versionTree.forest (.child other index) = some child →
        ∃ child, ({ versionTree with db }.insert name info).forest (.child other index) =
          some child := by
      intro child inForest
      by_cases same : .child other index = name
      · exact ⟨info, by rw [same, insert_forest_self]⟩
      · exact ⟨child, insert_forest_eq_some.mpr (Or.inr ⟨same, inForest⟩)⟩
    rcases insert_forest_eq_some.mp inForest with ⟨rfl, rfl⟩ | ⟨different, wasInForest⟩
    · exact (children index member).elim fun _ => present
    · exact (represents.children wasInForest member).elim fun _ => present
  distinct {other found} inForest := by
    rcases insert_forest_eq_some.mp inForest with ⟨rfl, rfl⟩ | ⟨different, wasInForest⟩
    · exact distinct
    · exact represents.distinct wasInForest
  dirty {parent index} isDirty := by
    by_cases same : .child parent index = name
    · subst same
      rw [Function.update_self] at isDirty
      exact ⟨info, insert_forest_self _ _ _, dirty (by simp) isDirty⟩
    · rw [Function.update_of_ne same] at isDirty
      rw [insert_forest_of_ne same]
      exact represents.dirty isDirty
  layered {other found} inForest := by
    rcases insert_forest_eq_some.mp inForest with ⟨rfl, rfl⟩ | ⟨different, wasInForest⟩
    · exact layered
    · exact represents.layered wasInForest
  layers_le := represents.layers_le

/-- Putting in a tree with contents of its own, under a name whose marks do not shrink. -/
theorem RepresentsBut.insert (represents : versionTree.RepresentsBut pending forest)
    (name : TreeName) (info : TreeWithInfo G depths) (view : AMTView Node G depths)
    (pending' : TreeName → Prop) (proper : name.Proper depths)
    (layered : name.length < versionTree.layers)
    (live : (info.tree.setCommitment view.commitment).Represents versionTree.db name
      (Forest.shardRoot versionTree.shardNode name) view)
    (known : ¬ pending' name ∨ name = .root → info.tree.commitment ≠ none)
    (others : ∀ other, other ≠ name → ¬ pending' other → ¬ pending other)
    (marked : ∀ parent index, name = .child parent index → info.markInParent = true →
      ¬ pending' name → ∃ above, versionTree.forest parent = some above ∧
        index ∈ above.childrenMarks ∧ (parent = .root ∨ above.markInParent = true))
    (children : ∀ index ∈ info.childrenMarks,
      ∃ child, versionTree.forest (.child name index) = some child)
    (distinct : info.childrenMarks.Nodup)
    (grows : ∀ old, versionTree.forest name = some old →
      (old.markInParent = true → info.markInParent = true) ∧
        ∀ index ∈ old.childrenMarks, index ∈ info.childrenMarks)
    (dirty : name ≠ .root → view.dirty = true → info.markInParent = true) :
    (versionTree.insert name info).RepresentsBut pending' (Function.update forest name view) := by
  refine represents.insertOver name info view pending' (fun _ _ _ _ _ => rfl) proper layered live
    known others marked (fun index child inForest isMarked notPending => ?_) children distinct dirty
  obtain ⟨above, aboveInForest, member, higher⟩ :=
    represents.marked inForest isMarked (others _ (name.child_ne_self index) notPending)
  obtain ⟨marks, more⟩ := grows above aboveInForest
  exact ⟨more index member, higher.imp_right marks⟩

/-! ### Visiting a tree -/

/-- The entry for a name: the live tree, or a new one. -/
theorem RepresentsBut.entry (represents : versionTree.RepresentsBut pending forest)
    {name : TreeName} (proper : name.Proper depths) :
    ∃ info, versionTree.entry name = some info ∧
      (info.tree.setCommitment (forest name).commitment).Represents versionTree.db name
        (Forest.shardRoot versionTree.shardNode name) (forest name) ∧
      (∀ index ∈ info.childrenMarks,
        ∃ child, versionTree.forest (.child name index) = some child) ∧
      info.childrenMarks.Nodup ∧
      (∀ old, versionTree.forest name = some old → old = info) ∧
      (info.markInParent = true → versionTree.forest name = some info) := by
  cases inForest : versionTree.forest name with
  | some info =>
    refine ⟨info, ?_, represents.live inForest, fun index member => ?_, ?_, fun old same => ?_,
      fun _ => rfl⟩
    · rw [VersionTree.entry, inForest]
    · exact represents.children inForest member
    · exact represents.distinct inForest
    · exact (Option.some.inj same).symm
  | none =>
    refine ⟨⟨.new name (Forest.shardRoot versionTree.shardNode name), false, []⟩, ?_,
      represents.absent inForest proper, fun index member => ?_, List.nodup_nil,
      fun old same => ?_, fun isMarked => ?_⟩
    · rw [VersionTree.entry, inForest]
      show newTreeWithInfo versionTree.shardNode name = _
      rw [newTreeWithInfo, newTree, shardRootOf_eq _ proper.valid]
      rfl
    · cases member
    · cases same
    · cases isMarked

/-- A tree that is known and marked is no longer pending. -/
theorem RepresentsBut.settle (represents : versionTree.RepresentsBut pending forest)
    (settled : ∀ name info, pending name → versionTree.forest name = some info →
      info.tree.commitment ≠ none ∧
        ∀ parent index, name = .child parent index → info.markInParent = true →
          ∃ above, versionTree.forest parent = some above ∧ index ∈ above.childrenMarks ∧
            (parent = .root ∨ above.markInParent = true)) :
    versionTree.RepresentsBut (fun _ => False) forest where
  __ := represents
  known {name info} inForest _ := by
    by_cases isPending : pending name
    · exact (settled name info isPending inForest).1
    · exact represents.known inForest isPending
  marked {parent index info} inForest isMarked _ := by
    by_cases isPending : pending (.child parent index)
    · exact (settled _ info isPending inForest).2 parent index rfl isMarked
    · exact represents.marked inForest isMarked isPending

omit [Curve G] in
/-- Linking a child to its parent keeps the marks there are. -/
theorem linkChild_marked {parent : TreeName} {index : UInt32} {last ancestor : TreeWithInfo G depths}
    {root : G} {tree : AMTree TreeName Node G depths} (isMarked : last.markInParent = true)
    {other : TreeName} {found : TreeWithInfo G depths}
    (inForest : versionTree.forest other = some found) (marked : found.markInParent = true) :
    ∃ found', (versionTree.linkChild parent index last ancestor root tree).forest other =
      some found' ∧ found'.markInParent = true := by
  unfold linkChild
  by_cases isChild : other = .child parent index
  · exact ⟨{ last with tree := last.tree.setCommitment root },
      by rw [isChild, insert_forest_self], isMarked⟩
  · rw [insert_forest_of_ne isChild]
    by_cases isParent : other = parent
    · exact ⟨_, by rw [isParent, insert_forest_self], rfl⟩
    · rw [insert_forest_of_ne isParent]
      exact ⟨found, inForest, marked⟩

/-- Linking a child that was pending to its parent settles it; the parent is pending instead. -/
theorem RepresentsBut.linkChild {parent : TreeName} {index : UInt32} {info : TreeWithInfo G depths}
    (represents : versionTree.RepresentsBut (fun other => other = .child parent index) forest)
    (inForest : versionTree.forest (.child parent index) = some info)
    (isMarked : info.markInParent = true) (inside : index.toNat < 2 ^ depths)
    (linked : (forest (.child parent index)).commitment = (forest parent).subtreeRoots ⟨_, inside⟩)
    {ancestor : TreeWithInfo G depths} (entered : versionTree.entry parent = some ancestor)
    {root : G} {tree : AMTree TreeName Node G depths}
    (read : ancestor.tree.subtreeRoot versionTree.db index.toNat = some (root, tree)) :
    (versionTree.linkChild parent index info ancestor root tree).RepresentsBut
      (fun other => other = parent) forest := by
  have proper := represents.proper inForest
  obtain ⟨ancestor', entered', stands, children, distinct, unique, -⟩ :=
    represents.entry proper.parent
  obtain rfl := Option.some.inj (entered.symm.trans entered')
  obtain ⟨tree', read', stands', sameCommitment⟩ :=
    AMTree.subtreeRoot_of_setCommitment stands ⟨_, inside⟩
  obtain ⟨rfl, rfl⟩ := Prod.mk.inj (Option.some.inj (read.symm.trans read'))
  have shallower : parent.length < versionTree.layers :=
    lt_trans (Nat.lt_succ_self _) (represents.layered inForest)
  -- the parent, with the child among its marks
  have above := represents.insert parent
    ⟨tree, true, ancestor.childrenMarks.insert index⟩ (forest parent)
    (fun other => other = .child parent index ∨ other = parent) proper.parent shallower stands'
    (fun settled => by
      have isRoot := settled.resolve_left fun notPending => notPending (Or.inr rfl)
      obtain ⟨root, rootInForest, known⟩ := represents.root
      rw [← isRoot] at rootInForest
      rw [sameCommitment, ← unique root rootInForest]
      exact known)
    (fun other _ notPending isChild => notPending (Or.inl isChild))
    (fun _ _ _ _ notPending => absurd (Or.inr rfl) notPending)
    (fun other member => (List.mem_insert_iff.mp member).elim
      (fun same => ⟨info, by rw [same, inForest]⟩) (children other))
    (List.Nodup.insert distinct)
    (fun old inForest' => ⟨fun _ => rfl, fun other member => by
      rw [unique old inForest'] at member
      exact List.mem_insert_of_mem member⟩)
    (fun _ _ => rfl)
  rw [Function.update_eq_self] at above
  -- the child, with its commitment
  have both := above.insert (.child parent index)
    { info with tree := info.tree.setCommitment ((forest parent).subtreeRoots ⟨_, inside⟩) }
    (forest (.child parent index)) (fun other => other = parent) proper
    (represents.layered inForest)
    (by
      rw [← linked, AMTree.setCommitment_of_ne_none (AMTree.setCommitment_ne_none _)]
      exact represents.live inForest)
    (fun _ => AMTree.setCommitment_ne_none _)
    (fun other notChild notPending isPending => isPending.elim notChild notPending)
    (fun parent' index' same _ _ => by
      cases same
      exact ⟨_, insert_forest_self _ _ _, List.mem_insert_self, Or.inr rfl⟩)
    (fun other member => by
      obtain ⟨child, childInForest⟩ := represents.children inForest member
      refine ⟨child, ?_⟩
      rw [insert_forest_of_ne (parent.child_child_ne_self index other), childInForest])
    (represents.distinct inForest : info.childrenMarks.Nodup)
    (fun old inForest' => by
      rw [insert_forest_of_ne (parent.child_ne_self index), inForest] at inForest'
      obtain rfl := Option.some.inj inForest'
      exact ⟨id, fun _ => id⟩)
    (fun _ _ => isMarked)
  rwa [Function.update_eq_self] at both

/-- Climbing marks the tree in its ancestors and gives it its commitment. -/
theorem climb_spec {forest : Forest G depths} {name : TreeName} {versionTree : VersionTree G depths}
    (represents : versionTree.RepresentsBut (fun other => other = name) forest)
    {info : TreeWithInfo G depths} (inForest : versionTree.forest name = some info)
    (isMarked : info.markInParent = true) (clean : name = .root ∨ (forest name).dirty = false)
    (allLinked : forest.Linked) :
    ∃ next, climb name versionTree = some next ∧ next.RepresentsBut (fun _ => False) forest ∧
      next.db = versionTree.db ∧ next.shardNode = versionTree.shardNode ∧
      next.layers = versionTree.layers ∧
      ∀ other found, versionTree.forest other = some found → found.markInParent = true →
        ∃ found', next.forest other = some found' ∧ found'.markInParent = true := by
  induction name generalizing versionTree info with
  | root =>
    refine ⟨versionTree, rfl, represents.settle fun name info isRoot inForest => ?_, rfl, rfl, rfl,
      fun other found inForest isMarked => ⟨found, inForest, isMarked⟩⟩
    subst isRoot
    obtain ⟨root, rootInForest, known⟩ := represents.root
    rw [inForest] at rootInForest
    obtain rfl := Option.some.inj rootInForest
    exact ⟨known, fun parent index same => by cases same⟩
  | child parent index inductionHypothesis =>
    have proper := represents.proper inForest
    have inside := proper.valid.1
    have cleanChild := clean.resolve_left (by simp)
    have linked := allLinked inside proper cleanChild
    have notChild : parent ≠ .child parent index := (parent.child_ne_self index).symm
    obtain ⟨ancestor, entered, stands, -, -, unique, ofMarked⟩ := represents.entry proper.parent
    obtain ⟨tree, read, -, sameCommitment⟩ :=
      AMTree.subtreeRoot_of_setCommitment stands ⟨_, inside⟩
    have both := represents.linkChild inForest isMarked inside linked entered read
    have kept : ∀ other found, versionTree.forest other = some found →
        found.markInParent = true → ∃ found', (versionTree.linkChild parent index info ancestor
          ((forest parent).subtreeRoots ⟨_, inside⟩) tree).forest other = some found' ∧
            found'.markInParent = true :=
      fun other found => linkChild_marked isMarked
    rw [climb, inForest, entered]
    simp only [Option.bind_eq_bind, Option.bind_some, read]
    cases ancestorMarked : ancestor.markInParent with
    | true =>
      rw [if_pos rfl]
      refine ⟨_, rfl, both.settle fun name found isParent found_inForest => ?_, rfl, rfl, rfl, kept⟩
      subst isParent
      rw [linkChild, insert_forest_of_ne notChild, insert_forest_self] at found_inForest
      obtain rfl := Option.some.inj found_inForest
      have ancestorInForest := ofMarked ancestorMarked
      refine ⟨?_, fun parent' index' same _ => ?_⟩
      · rw [sameCommitment]
        exact represents.known ancestorInForest notChild
      · subst same
        obtain ⟨higher, higherInForest, member, marks⟩ :=
          represents.marked ancestorInForest ancestorMarked notChild
        refine ⟨higher, ?_, member, marks⟩
        rw [linkChild, insert_forest_of_ne (parent'.child_child_ne_self index' index).symm,
          insert_forest_of_ne (parent'.child_ne_self index').symm, higherInForest]
    | false =>
      rw [if_neg (by decide)]
      have cleanParent : parent = .root ∨ (forest parent).dirty = false := by
        cases parent with
        | root => exact Or.inl rfl
        | child parent' index' =>
          refine Or.inr (Bool.eq_false_iff.mpr fun dirty => ?_)
          obtain ⟨old, oldInForest, oldMarked⟩ := represents.dirty dirty
          rw [unique old oldInForest, ancestorMarked] at oldMarked
          cases oldMarked
      obtain ⟨next, climbed, stands, sameDb, sameShard, sameLayers, keptAbove⟩ :=
        inductionHypothesis both
          (by rw [linkChild, insert_forest_of_ne notChild, insert_forest_self]) rfl cleanParent
      refine ⟨next, climbed, stands, sameDb, sameShard, sameLayers,
        fun other found found_inForest found_marked => ?_⟩
      obtain ⟨middle, middleInForest, middleMarked⟩ := kept other found found_inForest found_marked
      exact keptAbove other middle middleInForest middleMarked

theorem RepresentsBut.moreLayers (represents : versionTree.RepresentsBut pending forest)
    (layers : Nat) (le : layers ≤ 256) :
    { versionTree with layers := max versionTree.layers layers }.RepresentsBut pending forest where
  __ := represents
  layered inForest := lt_of_lt_of_le (represents.layered inForest) (le_max_left _ _)
  layers_le := max_le represents.layers_le le

/-- A visited tree, and the version tree around it. -/
structure Visited (versionTree next : VersionTree G depths) (forest : Forest G depths)
    (name : TreeName) (info : TreeWithInfo G depths) : Prop where
  represents : next.Represents forest
  sameDb : next.db = versionTree.db
  sameShard : next.shardNode = versionTree.shardNode
  inForest : next.forest name = some info
  isMarked : info.markInParent = true
  stands : info.tree.Represents next.db name (Forest.shardRoot versionTree.shardNode name)
    (forest name)

theorem RepresentsBut.tree (represents : versionTree.RepresentsBut (fun _ => False) forest)
    {name : TreeName}
    {info : TreeWithInfo G depths} (inForest : versionTree.forest name = some info) :
    info.tree.Represents versionTree.db name (Forest.shardRoot versionTree.shardNode name)
      (forest name) := by
  have stands := represents.live inForest
  rwa [AMTree.setCommitment_of_ne_none (represents.known inForest not_false)] at stands

/-- Visiting a tree changes nothing the forest can see. -/
theorem Represents.visit (represents : versionTree.Represents forest) {name : TreeName}
    (proper : name.Proper depths) :
    ∃ info next, versionTree.visit name = some (info, next) ∧
      Visited versionTree next forest name info := by
  have short := proper.short
  obtain ⟨info, entered, stands, children, distinct, unique, ofMarked⟩ := represents.entry proper
  have grown := represents.toRepresentsBut.moreLayers (name.length + 1) (by omega)
  have reached : ∃ next, versionTree.getTreeMut name = some next ∧
      next.RepresentsBut (fun _ => False) forest ∧
      next.db = versionTree.db ∧ next.shardNode = versionTree.shardNode ∧
      ∃ found, next.forest name = some found ∧ found.markInParent = true := by
    rw [getTreeMut, entered]
    simp only [Option.bind_eq_bind, Option.bind_some]
    cases isMarked : info.markInParent with
    | true =>
      rw [if_pos rfl]
      have same : { versionTree with layers := max versionTree.layers (name.length + 1) }.insert
          name info = { versionTree with layers := max versionTree.layers (name.length + 1) } := by
        unfold VersionTree.insert
        dsimp only
        rw [← ofMarked isMarked, Function.update_eq_self]
      rw [same]
      exact ⟨_, rfl, grown, rfl, rfl, info, ofMarked isMarked, isMarked⟩
    | false =>
      rw [if_neg (by decide)]
      have marked := grown.insert name { info with markInParent := true } (forest name)
        (fun other => other = name) proper (lt_of_lt_of_le (Nat.lt_succ_self _) (le_max_right _ _))
        stands
        (fun settled => by
          have isRoot := settled.resolve_left fun notPending => notPending rfl
          obtain ⟨root, rootInForest, known⟩ := represents.root
          rw [← isRoot] at rootInForest
          rw [← unique root rootInForest]
          exact known)
        (fun _ _ _ => not_false) (fun _ _ _ _ notPending => absurd rfl notPending) children distinct
        (fun old inForest => ⟨fun _ => rfl, fun other member => by
          rwa [unique old inForest] at member⟩)
        (fun _ _ => rfl)
      rw [Function.update_eq_self] at marked
      have clean : name = .root ∨ (forest name).dirty = false := by
        cases name with
        | root => exact Or.inl rfl
        | child parent index =>
          refine Or.inr (Bool.eq_false_iff.mpr fun dirty => ?_)
          obtain ⟨old, oldInForest, oldMarked⟩ := represents.dirty dirty
          rw [unique old oldInForest, isMarked] at oldMarked
          cases oldMarked
      obtain ⟨next, climbed, stands, sameDb, sameShard, -, kept⟩ :=
        climb_spec marked (insert_forest_self _ _ _) rfl clean represents.linked
      exact ⟨next, climbed, stands, sameDb, sameShard, kept _ _ (insert_forest_self _ _ _) rfl⟩
  obtain ⟨next, done, stands, sameDb, sameShard, found, inForest, isMarked⟩ := reached
  refine ⟨found, next, ?_, ⟨stands, represents.linked⟩, sameDb, sameShard, inForest, isMarked,
    by rw [← sameShard]; exact stands.tree inForest⟩
  rw [VersionTree.visit, done]
  show (next.forest name).bind _ = _
  rw [inForest]
  rfl

/-- A visited tree may be replaced by one with other contents. -/
theorem Visited.setTree {next : VersionTree G depths} {name : TreeName}
    {info : TreeWithInfo G depths} (visited : Visited versionTree next forest name info)
    {tree : AMTree TreeName Node G depths} {view : AMTView Node G depths}
    (stands : tree.Represents next.db name (Forest.shardRoot versionTree.shardNode name) view)
    (written : (forest name).LeafWritten view) :
    (next.setTree name info tree).Represents (Function.update forest name view) := by
  have represents := visited.represents
  have known : tree.commitment ≠ none := by
    rw [stands.commitment]
    exact Option.some_ne_none _
  refine ⟨represents.insert name { info with tree := tree } view (fun _ => False)
    (represents.proper visited.inForest) (represents.layered visited.inForest) ?_ (fun _ => known)
    (fun _ _ => id) ?_ ?_ (represents.distinct visited.inForest : info.childrenMarks.Nodup) ?_
    (fun _ _ => visited.isMarked), Forest.Linked.written represents.linked written⟩
  · rwa [AMTree.setCommitment_of_ne_none known, visited.sameShard]
  · rintro parent index rfl isMarked -
    exact represents.marked visited.inForest isMarked not_false
  · exact fun index member => represents.children visited.inForest member
  · intro old inForest
    rw [visited.inForest] at inForest
    obtain rfl := Option.some.inj inForest
    exact ⟨id, fun _ => id⟩

/-! ### Versions of keys -/

/-- A result of the code and one of the forest. -/
def SameResult {Result : Type} (versionTree : VersionTree G depths)
    (first : Result × VersionTree G depths) (second : Result × Forest G depths) : Prop :=
  first.1 = second.1 ∧ first.2.Represents second.2 ∧ first.2.db = versionTree.db ∧
    first.2.shardNode = versionTree.shardNode

theorem allocateAt_refines (pp : AMTParams G G₂ depths)
    (represents : versionTree.Represents forest) (key : Key) {level : Nat} (le : level ≤ 255) :
    Option.Rel (SameResult versionTree) (allocateAt pp versionTree key level)
      (Forest.allocateAt pp versionTree.shardNode forest key level) := by
  rw [allocateAt, Forest.allocateAt]
  cases named : key.treeAtLevel depths level with
  | none => exact Option.Rel.none
  | some name =>
    have proper := Key.proper_treeAtLevel pp.depths_le named le
    obtain ⟨info, next, visited_eq, visited⟩ := represents.visit proper
    simp only [Option.bind_eq_bind, Option.bind_some, visited_eq]
    cases indexed : key.indexAtLevel depths level with
    | none => exact Option.Rel.none
    | some index =>
      obtain ⟨index, rfl⟩ : ∃ bounded : Fin (2 ^ depths), bounded.val = index :=
        ⟨⟨index, Key.indexAtLevel_lt pp.depths_le indexed⟩, rfl⟩
      obtain ⟨tree, read, stands⟩ := visited.stands.get index
      simp only [Option.bind_some, checkIndex_val, read]
      have unchanged : (next.setTree name info tree).Represents forest := by
        have kept := visited.setTree stands ⟨rfl, fun clean => ⟨clean, rfl⟩⟩
        rwa [Function.update_eq_self] at kept
      by_cases vacant : ((forest name).data index).keyVersions.len < 5
      · rw [if_pos vacant, if_pos vacant]
        rcases stands.writeVersions pp index with
          ⟨undefined, failed⟩ | ⟨guard, taken, value, dropped⟩
        · rw [failed]
          simp only [AMTView.replace_of_undefined undefined]
          cases ((forest name).data index).keyVersions.push 0 <;> exact Option.Rel.none
        · rw [taken, Option.bind_some, value]
          cases ((forest name).data index).keyVersions.push 0 with
          | none => exact Option.Rel.none
          | some keyVersions =>
            simp only [Option.bind_some]
            refine Option.rel_bind (dropped _) fun tree view stands => ?_
            exact Option.Rel.some
              ⟨rfl, visited.setTree stands.1 stands.2, visited.sameDb, visited.sameShard⟩
      · rw [if_neg vacant, if_neg vacant]
        exact Option.Rel.some ⟨rfl, unchanged, visited.sameDb, visited.sameShard⟩

theorem SameResult.trans_tree {Result : Type} {next : VersionTree G depths}
    {first : Result × VersionTree G depths} {second : Result × Forest G depths}
    (same : SameResult next first second) (sameDb : next.db = versionTree.db)
    (sameShard : next.shardNode = versionTree.shardNode) : SameResult versionTree first second :=
  ⟨same.1, same.2.1, same.2.2.1.trans sameDb, same.2.2.2.trans sameShard⟩

theorem allocateFrom_refines (pp : AMTParams G G₂ depths)
    (represents : versionTree.Represents forest) (key : Key) (levels : List Nat)
    (le : ∀ level ∈ levels, level ≤ 255) :
    Option.Rel (SameResult versionTree) (allocateFrom pp key levels versionTree)
      (Forest.allocateFrom pp versionTree.shardNode key levels forest) := by
  induction levels generalizing versionTree forest with
  | nil => exact Option.Rel.none
  | cons level rest inductionHypothesis =>
    rw [allocateFrom, Forest.allocateFrom]
    refine Option.rel_bind (allocateAt_refines pp represents key (le level List.mem_cons_self)) ?_
    rintro ⟨found, next⟩ ⟨_, forest⟩ ⟨rfl, represents, sameDb, sameShard⟩
    cases found with
    | some verInfo => exact Option.Rel.some ⟨rfl, represents, sameDb, sameShard⟩
    | none =>
      have rest := inductionHypothesis represents fun level member =>
        le level (List.mem_cons_of_mem _ member)
      rw [sameShard] at rest
      exact rest.imp fun _ _ same => same.trans_tree sameDb sameShard

/-- The write to the slot: of the leaf in a shard, of the commitment alone elsewhere. -/
theorem writeSlot_refines (pp : AMTParams G G₂ depths) {tree : AMTree TreeName Node G depths}
    {db : DBColumn} {name : TreeName} {shardRoot : Option (NodeIndex depths)}
    {view : AMTView Node G depths} (stands : tree.Represents db name shardRoot view)
    (inShard : Bool) (index : Fin (2 ^ depths)) (slotIndex : Nat) :
    Option.Rel (fun tree next => tree.Represents db name shardRoot next ∧ view.LeafWritten next)
      (writeSlot pp tree db inShard index slotIndex)
      (Forest.writeSlot pp shardRoot view inShard index slotIndex) := by
  rw [writeSlot, Forest.writeSlot]
  cases inShard with
  | true =>
    rw [if_pos rfl, if_pos rfl]
    rcases stands.writeVersions pp index with
      ⟨undefined, failed⟩ | ⟨guard, taken, value, dropped⟩
    · rw [failed]
      simp only [AMTView.replace_of_undefined undefined]
      cases bumpKeyVersion (view.data index) slotIndex <;> exact Option.Rel.none
    · simp only [taken, Option.bind_eq_bind, Option.bind_some, value]
      cases bumpKeyVersion (view.data index) slotIndex with
      | none => exact Option.Rel.none
      | some value => exact dropped value
  | false =>
    rw [if_neg (by decide), if_neg (by decide)]
    obtain ⟨tree, updated, stands⟩ := stands.update pp index (frIntPow2 ((slotIndex + 1) * 40))
    rw [updated]
    exact Option.Rel.some ⟨stands, AMTView.update_leafWritten _ _ _ _ _⟩

theorem bump_refines (pp : AMTParams G G₂ depths) (represents : versionTree.Represents forest)
    (key : Key) (verInfo : VerInfo) :
    Option.Rel (SameResult versionTree) (versionTree.incKeyVer pp key (some verInfo))
      (Forest.bump pp versionTree.shardNode forest key verInfo) := by
  rw [incKeyVer, Forest.bump]
  simp only [Option.bind_eq_bind, Option.bind_some]
  cases named : key.treeAtLevel depths verInfo.level.toNat with
  | none => exact Option.Rel.none
  | some name =>
    have proper := Key.proper_treeAtLevel pp.depths_le named
      (Nat.le_of_lt_succ verInfo.level.toNat_lt)
    obtain ⟨info, next, visited_eq, visited⟩ := represents.visit proper
    simp only [Option.bind_some, visited_eq]
    cases indexed : key.indexAtLevel depths verInfo.level.toNat with
    | none => exact Option.Rel.none
    | some index =>
      obtain ⟨index, rfl⟩ : ∃ bounded : Fin (2 ^ depths), bounded.val = index :=
        ⟨⟨index, Key.indexAtLevel_lt pp.depths_le indexed⟩, rfl⟩
      simp only [Option.bind_some, checkIndex_val, visited.sameShard]
      cases inProofShard versionTree.shardNode key with
      | none => exact Option.Rel.none
      | some inShard =>
        simp only [Option.bind_some]
        refine Option.rel_bind (writeSlot_refines pp visited.stands inShard index _)
          fun tree view stands => ?_
        split
        · exact Option.Rel.some
            ⟨rfl, visited.setTree stands.1 stands.2, visited.sameDb, visited.sameShard⟩
        · exact Option.Rel.none

theorem incKeyVer_refines (pp : AMTParams G G₂ depths) (represents : versionTree.Represents forest)
    (key : Key) (version : Option VerInfo) :
    Option.Rel (SameResult versionTree) (versionTree.incKeyVer pp key version)
      (Forest.incKeyVer pp versionTree.shardNode forest key version) := by
  cases version with
  | some verInfo => exact bump_refines pp represents key verInfo
  | none =>
    have allocated := allocateFrom_refines pp represents key (List.range 32) fun level member =>
      le_trans (List.mem_range.mp member).le (by norm_num)
    refine Option.rel_bind allocated fun first second same => ?_
    obtain ⟨verInfo, next⟩ := first
    obtain ⟨_, forest⟩ := second
    obtain ⟨rfl, represents, sameDb, sameShard⟩ := same
    have bumped := bump_refines pp represents key verInfo
    rw [sameShard] at bumped
    exact bumped.imp fun _ _ same => same.trans_tree sameDb sameShard

end VersionTree

end AuthStorage.Lvmt
