/-
This file says what the version forest is: one tree for every name, all of them
there from the start. There are no layers, no marks and no caches. A commit goes
through all names, descendants before ancestors, and where a tree has changed it
moves the tree's version, position and commitment into the parent. Which names
are gone through does not matter as long as every changed tree and its ancestors
are among them.
-/

import AuthStorage.Lvmt.VersionTree
import AuthStorage.Lvmt.AMTView

namespace AuthStorage.Lvmt

/-! ### Names -/

namespace TreeName

/-- The name itself or one below it. -/
def Below (ancestor : TreeName) : TreeName → Prop
  | root => root = ancestor
  | child parent index => child parent index = ancestor ∨ Below ancestor parent

/-- Names of trees that can be visited. -/
def Valid (depths : Nat) : TreeName → Prop
  | root => True
  | child parent index => index.toNat < 2 ^ depths ∧ Valid depths parent

/-- Valid names that the length byte can hold. -/
structure Proper (depths : Nat) (name : TreeName) : Prop where
  valid : name.Valid depths
  short : name.length ≤ 255

theorem Below.refl (name : TreeName) : Below name name := by
  cases name with
  | root => rfl
  | child parent index => exact Or.inl rfl

theorem Below.length_le {ancestor name : TreeName} (below : Below ancestor name) :
    ancestor.length ≤ name.length := by
  induction name with
  | root =>
    obtain rfl := (show root = ancestor from below)
    exact le_rfl
  | child parent index inductionHypothesis =>
    rcases below with rfl | above
    · exact le_rfl
    · exact le_trans (inductionHypothesis above) (Nat.le_succ _)

theorem Below.of_child {parent name : TreeName} {index : UInt32}
    (below : Below (parent.child index) name) : Below parent name := by
  induction name with
  | root => cases (show root = parent.child index from below)
  | child above last inductionHypothesis =>
    rcases below with same | further
    · cases same
      exact Or.inr (Below.refl _)
    · exact Or.inr (inductionHypothesis further)

theorem Below.trans {first second third : TreeName} (below : Below first second)
    (below' : Below second third) : Below first third := by
  induction third with
  | root =>
    obtain rfl := (show root = second from below')
    exact below
  | child parent index inductionHypothesis =>
    rcases below' with rfl | further
    · exact below
    · exact Or.inr (inductionHypothesis further)

theorem child_ne_self (parent : TreeName) (index : UInt32) : parent.child index ≠ parent := by
  intro same
  have lengths := congrArg length same
  rw [length] at lengths
  omega

theorem child_child_ne_self (parent : TreeName) (index index' : UInt32) :
    (parent.child index).child index' ≠ parent := by
  intro same
  have lengths := congrArg length same
  simp only [length] at lengths
  omega

theorem not_below_child (parent : TreeName) (index : UInt32) :
    ¬ Below (parent.child index) parent := by
  intro below
  have le := below.length_le
  rw [length] at le
  omega

/-- Subtrees of different children are disjoint. -/
theorem Below.index_eq {parent name : TreeName} {first second : UInt32}
    (below : Below (parent.child first) name) (below' : Below (parent.child second) name) :
    first = second := by
  induction name with
  | root => cases (show root = parent.child first from below)
  | child above last inductionHypothesis =>
    rcases below with same | further
    · rcases below' with same' | further'
      · rw [same] at same'
        cases same'
        rfl
      · cases same
        exact absurd further' (not_below_child _ _)
    · rcases below' with same' | further'
      · cases same'
        exact absurd further (not_below_child _ _)
      · exact inductionHypothesis further further'

theorem Proper.parent {depths : Nat} {parent : TreeName} {index : UInt32}
    (proper : (parent.child index).Proper depths) : parent.Proper depths :=
  ⟨proper.valid.2, le_trans (Nat.le_succ _) proper.short⟩

theorem Proper.above {depths : Nat} {ancestor name : TreeName} (proper : name.Proper depths)
    (below : Below ancestor name) : ancestor.Proper depths := by
  induction name with
  | root =>
    obtain rfl := (show root = ancestor from below)
    exact proper
  | child parent index inductionHypothesis =>
    rcases below with rfl | further
    · exact proper
    · exact inductionHypothesis proper.parent further

theorem proper_root (depths : Nat) : root.Proper depths := ⟨trivial, Nat.zero_le _⟩

end TreeName

theorem Key.proper_treeAtLevel {depths : Nat} (le : depths ≤ 28) {key : Key} {level : Nat}
    {name : TreeName} (done : key.treeAtLevel depths level = some name) (short : level ≤ 255) :
    name.Proper depths := by
  refine ⟨?_, by rwa [Key.length_treeAtLevel done]⟩
  clear short
  induction level generalizing name with
  | zero =>
    obtain rfl := Option.some.inj done
    exact trivial
  | succ level inductionHypothesis =>
    obtain ⟨parent, found, done⟩ := Option.bind_eq_some_iff.mp done
    obtain ⟨index, indexed, done⟩ := Option.bind_eq_some_iff.mp done
    obtain rfl := Option.some.inj done
    have small := Key.indexAtLevel_lt le indexed
    have bound : 2 ^ depths ≤ 2 ^ 28 := Nat.pow_le_pow_right (by norm_num) le
    refine ⟨?_, inductionHypothesis found⟩
    rwa [UInt32.toNat_ofNat', Nat.mod_eq_of_lt (by omega)]

namespace TreeName

/-! ### Going through the names -/

/-- The names below `name` that the marks lead to, descendants before ancestors. -/
def postOrder (marks : TreeName → List UInt32) : Nat → TreeName → List TreeName
  | 0, _ => []
  | layers + 1, name =>
    (marks name).flatMap fun index =>
      postOrder marks layers (name.child index) ++ [name.child index]

/-- The children of a tree, one for each leaf. -/
def allIndices (depths : Nat) : List UInt32 := (List.range (2 ^ depths)).map UInt32.ofNat

/-- All names that matter, and more: those of up to 256 indices. -/
def allNames (depths : Nat) : List TreeName := postOrder (fun _ => allIndices depths) 256 root

theorem below_of_mem_postOrder {marks : TreeName → List UInt32} {layers : Nat}
    {name found : TreeName} (member : found ∈ postOrder marks layers name) :
    ∃ index ∈ marks name, Below (name.child index) found := by
  induction layers generalizing name with
  | zero => cases member
  | succ layers inductionHypothesis =>
    obtain ⟨index, marked, member⟩ := List.mem_flatMap.mp member
    refine ⟨index, marked, ?_⟩
    rcases List.mem_append.mp member with deeper | last
    · obtain ⟨next, -, below⟩ := inductionHypothesis deeper
      exact below.of_child
    · rw [List.mem_singleton.mp last]
      exact Below.refl _

theorem below_of_mem_branch {marks : TreeName → List UInt32} {layers : Nat}
    {name found : TreeName} {index : UInt32}
    (member : found ∈ postOrder marks layers (name.child index) ++ [name.child index]) :
    Below (name.child index) found := by
  rcases List.mem_append.mp member with deeper | last
  · obtain ⟨next, -, below⟩ := below_of_mem_postOrder deeper
    exact below.of_child
  · rw [List.mem_singleton.mp last]
    exact Below.refl _

/-- No name comes after one of its ancestors, nor twice. -/
theorem postOrder_pairwise {marks : TreeName → List UInt32}
    (distinct : ∀ name, (marks name).Nodup) (layers : Nat) (name : TreeName) :
    (postOrder marks layers name).Pairwise fun earlier later => ¬ Below earlier later := by
  induction layers generalizing name with
  | zero => exact List.Pairwise.nil
  | succ layers inductionHypothesis =>
    refine List.pairwise_flatMap.mpr ⟨fun index _ => ?_, ?_⟩
    · refine List.pairwise_append.mpr ⟨inductionHypothesis _, List.pairwise_singleton _ _, ?_⟩
      intro found member last same below
      obtain rfl := List.mem_singleton.mp same
      obtain ⟨next, -, deeper⟩ := below_of_mem_postOrder member
      exact not_below_child _ _ (deeper.trans below)
    · refine (distinct name).imp fun {first second} different => ?_
      intro found member found' member' below
      exact different (((below_of_mem_branch member).trans below).index_eq
        (below_of_mem_branch member'))

theorem postOrder_nodup {marks : TreeName → List UInt32} (distinct : ∀ name, (marks name).Nodup)
    (layers : Nat) (name : TreeName) : (postOrder marks layers name).Nodup := by
  refine (postOrder_pairwise distinct layers name).imp fun {earlier later} apart same => ?_
  subst same
  exact apart (Below.refl _)

/-- Fewer marks and fewer layers leave names out. -/
theorem postOrder_sublist {marks marks' : TreeName → List UInt32}
    (fewer : ∀ name, (marks name).Sublist (marks' name)) {layers layers' : Nat}
    (le : layers ≤ layers') (name : TreeName) :
    (postOrder marks layers name).Sublist (postOrder marks' layers' name) := by
  induction layers generalizing layers' name with
  | zero => exact List.nil_sublist _
  | succ layers inductionHypothesis =>
    obtain ⟨layers', rfl⟩ : ∃ lower, layers' = lower + 1 := ⟨layers' - 1, by omega⟩
    refine ((fewer name).flatMap _).trans (List.Sublist.flatMap_right _ fun index _ => ?_)
    exact (inductionHypothesis (Nat.le_of_succ_le_succ le) _).append_right _

theorem parent_mem_postOrder {marks : TreeName → List UInt32} {layers : Nat}
    {name parent : TreeName} {index : UInt32}
    (member : parent.child index ∈ postOrder marks layers name) :
    parent = name ∨ parent ∈ postOrder marks layers name := by
  induction layers generalizing name with
  | zero => cases member
  | succ layers inductionHypothesis =>
    obtain ⟨next, marked, member⟩ := List.mem_flatMap.mp member
    rcases List.mem_append.mp member with deeper | last
    · right
      refine List.mem_flatMap.mpr ⟨next, marked, ?_⟩
      rcases inductionHypothesis deeper with rfl | found
      · exact List.mem_append_right _ (List.mem_singleton_self _)
      · exact List.mem_append_left _ found
    · cases List.mem_singleton.mp last
      exact Or.inl rfl

theorem child_mem_postOrder {marks : TreeName → List UInt32} {layers : Nat} {name : TreeName}
    {index : UInt32} (marked : index ∈ marks name) (positive : 0 < layers) :
    name.child index ∈ postOrder marks layers name := by
  obtain ⟨lower, rfl⟩ : ∃ lower, layers = lower + 1 := ⟨layers - 1, by omega⟩
  exact List.mem_flatMap.mpr ⟨index, marked, List.mem_append_right _ (List.mem_singleton_self _)⟩

theorem child_mem_postOrder_of_mem {marks : TreeName → List UInt32} {layers : Nat}
    {name found : TreeName} {index : UInt32} (marked : index ∈ marks found)
    (member : found ∈ postOrder marks layers name) (deep : found.length < name.length + layers) :
    found.child index ∈ postOrder marks layers name := by
  induction layers generalizing name with
  | zero => cases member
  | succ layers inductionHypothesis =>
    obtain ⟨next, nextMarked, member⟩ := List.mem_flatMap.mp member
    refine List.mem_flatMap.mpr ⟨next, nextMarked, List.mem_append_left _ ?_⟩
    have length : (name.child next).length = name.length + 1 := rfl
    rcases List.mem_append.mp member with deeper | last
    · exact inductionHypothesis deeper (by omega)
    · obtain rfl := List.mem_singleton.mp last
      exact child_mem_postOrder marked (by omega)

theorem allIndices_nodup {depths : Nat} (le : depths ≤ 28) : (allIndices depths).Nodup := by
  refine List.Nodup.map_on (fun first firstMember second secondMember same => ?_) List.nodup_range
  have bound : (2 : Nat) ^ depths ≤ 2 ^ 28 := Nat.pow_le_pow_right (by norm_num) le
  have numbers := congrArg UInt32.toNat same
  rw [List.mem_range] at firstMember secondMember
  rwa [UInt32.toNat_ofNat', UInt32.toNat_ofNat', Nat.mod_eq_of_lt (by omega),
    Nat.mod_eq_of_lt (by omega)] at numbers

theorem mem_allNames {depths : Nat} {name : TreeName} (proper : name.Proper depths)
    (notRoot : name ≠ root) : name ∈ allNames depths := by
  have index_mem : ∀ {index : UInt32}, index.toNat < 2 ^ depths → index ∈ allIndices depths :=
    fun inside => List.mem_map.mpr ⟨_, List.mem_range.mpr inside, UInt32.ofNat_toNat⟩
  induction name with
  | root => exact absurd rfl notRoot
  | child parent index inductionHypothesis =>
    have inside := index_mem proper.valid.1
    cases parent with
    | root => exact child_mem_postOrder inside (by norm_num)
    | child above last =>
      refine child_mem_postOrder_of_mem inside (inductionHypothesis proper.parent (by simp)) ?_
      have short := proper.short
      simp only [length] at short ⊢
      omega

end TreeName

/-! ### Forests -/

/-- What the trees of a version tree stand for, those not loaded as well. -/
abbrev Forest (G : Type) (depths : Nat) := TreeName → AMTView Node G depths

namespace Forest

variable {G G₂ : Type} {depths : Nat}

/-! ### Commitments in the parents -/

/-- The commitment of a tree that has not changed is the one its parent knows. -/
def Linked (forest : Forest G depths) : Prop :=
  ∀ ⦃parent index⦄ (inside : index.toNat < 2 ^ depths),
    (TreeName.child parent index).Proper depths → (forest (.child parent index)).dirty = false →
      (forest (.child parent index)).commitment = (forest parent).subtreeRoots ⟨_, inside⟩

theorem Linked.written {forest : Forest G depths} (linked : forest.Linked) {name : TreeName}
    {view : AMTView Node G depths} (written : (forest name).LeafWritten view) :
    Linked (Function.update forest name view) := by
  intro parent index inside proper clean
  by_cases same : .child parent index = name
  · subst same
    rw [Function.update_self] at clean ⊢
    rw [Function.update_of_ne (parent.child_ne_self index).symm]
    obtain ⟨wasClean, unmoved⟩ := written.clean clean
    rw [unmoved]
    exact linked inside proper wasClean
  · rw [Function.update_of_ne same] at clean ⊢
    by_cases isParent : parent = name
    · subst isParent
      rw [Function.update_self, written.roots]
      exact linked inside proper clean
    · rw [Function.update_of_ne isParent]
      exact linked inside proper clean

/-! ### The operations -/

variable [Curve G]

/-- Every tree is empty. -/
def empty : Forest G depths := fun _ => .empty

theorem linked_empty : (empty : Forest G depths).Linked := fun _ _ _ _ _ => rfl

/-- The shard a tree maintains. -/
def shardRoot (shardNode : Option (NodeIndex depths)) (name : TreeName) :
    Option (NodeIndex depths) :=
  (shardRootOf shardNode name).join

/-! ### Versions of keys -/

/-- Take a slot of the leaf at this level, if it has one left. -/
def allocateAt (pp : AMTParams G G₂ depths) (shardNode : Option (NodeIndex depths))
    (forest : Forest G depths) (key : Key) (level : Nat) :
    Option (Option VerInfo × Forest G depths) := do
  let name ← key.treeAtLevel depths level
  let index ← key.indexAtLevel depths level
  let index ← checkIndex depths index
  let node := (forest name).data index
  if node.keyVersions.len < 5 then
    let keyVersions ← node.keyVersions.push 0
    let view ← (forest name).replace pp (shardRoot shardNode name) index { node with keyVersions }
    some (some ⟨0, UInt8.ofNat level, UInt8.ofNat node.keyVersions.len⟩,
      Function.update forest name view)
  else
    some (none, forest)

/-- Take a slot at the first level that has one left. -/
def allocateFrom (pp : AMTParams G G₂ depths) (shardNode : Option (NodeIndex depths)) (key : Key) :
    List Nat → Forest G depths → Option (VerInfo × Forest G depths)
  | [], _ => none
  | level :: rest, forest => do
    let (found, forest) ← allocateAt pp shardNode forest key level
    match found with
    | some verInfo => some (verInfo, forest)
    | none => allocateFrom pp shardNode key rest forest

/-- Count a slot's version up: in the shard its leaf changes, outside it only the commitment. -/
def writeSlot (pp : AMTParams G G₂ depths) (shardRoot : Option (NodeIndex depths))
    (view : AMTView Node G depths) (inShard : Bool) (index : Fin (2 ^ depths)) (slotIndex : Nat) :
    Option (AMTView Node G depths) :=
  if inShard then do
    let value ← VersionTree.bumpKeyVersion (view.data index) slotIndex
    view.replace pp shardRoot index value
  else
    some (view.update pp shardRoot index (VersionTree.frIntPow2 ((slotIndex + 1) * 40)))

/-- Count the version of a key in its slot up. -/
def bump (pp : AMTParams G G₂ depths) (shardNode : Option (NodeIndex depths))
    (forest : Forest G depths) (key : Key) (verInfo : VerInfo) :
    Option (VerInfo × Forest G depths) := do
  let name ← key.treeAtLevel depths verInfo.level.toNat
  let index ← key.indexAtLevel depths verInfo.level.toNat
  let index ← checkIndex depths index
  let inShard ← VersionTree.inProofShard shardNode key
  let view ← writeSlot pp (shardRoot shardNode name) (forest name) inShard index
    verInfo.slotIndex.toNat
  if verInfo.version < maxVersionNumber then
    some ({ verInfo with version := verInfo.version + 1 }, Function.update forest name view)
  else
    none

/-- A key without a slot gets one first. -/
def incKeyVer (pp : AMTParams G G₂ depths) (shardNode : Option (NodeIndex depths))
    (forest : Forest G depths) (key : Key) (version : Option VerInfo) :
    Option (VerInfo × Forest G depths) := do
  let (verInfo, forest) ← match version with
    | none => allocateFrom pp shardNode key (List.range 32) forest
    | some verInfo => some (verInfo, forest)
  bump pp shardNode forest key verInfo

/-! ### Commits -/

/-- Move the commitment and the version of a changed tree into its parent. -/
def commitOne (pp : AMTParams G G₂ depths) (shardNode : Option (NodeIndex depths))
    (epoch startPos : UInt64) (state : Forest G depths × List (VersionTree.SubTreeUpdate G)) :
    TreeName → Option (Forest G depths × List (VersionTree.SubTreeUpdate G))
  | .root => some state
  | .child parent index =>
    let (forest, updates) := state
    let view := forest (.child parent index)
    if view.dirty then do
      let inside ← checkIndex depths index.toNat
      let forest := Function.update forest (.child parent index) view.clean
      let above := (forest parent).setSubtreeRoot inside view.commitment
      let node := above.data inside
      let treeVersion ← checkedAdd node.treeVersion 1
      let position ← checkedAdd startPos (UInt64.ofNat updates.length)
      let above ← above.replace pp (shardRoot shardNode parent) inside
        { node with treeVersion, treePosition := ⟨epoch, position⟩ }
      some (Function.update forest parent above,
        updates ++ [(.child parent index, treeVersion, view.commitment)])
    else
      some state

/-- Commit the trees in the order of their names. -/
def commitAll (pp : AMTParams G G₂ depths) (shardNode : Option (NodeIndex depths))
    (epoch startPos : UInt64) (names : List TreeName) (forest : Forest G depths) :
    Option (Forest G depths × List (VersionTree.SubTreeUpdate G)) :=
  names.foldlM (commitOne pp shardNode epoch startPos) (forest, [])

/-- The commitment of the root, and the changed trees. -/
def commit (pp : AMTParams G G₂ depths) (shardNode : Option (NodeIndex depths))
    (forest : Forest G depths) (epoch startPos : UInt64) :
    Option ((G × List (VersionTree.SubTreeUpdate G)) × Forest G depths) := do
  let (forest, updates) ← commitAll pp shardNode epoch startPos (TreeName.allNames depths) forest
  some (((forest .root).commitment, updates), forest)

/-! ### Which names are gone through -/

section

variable {pp : AMTParams G G₂ depths} {shardNode : Option (NodeIndex depths)}
  {epoch startPos : UInt64} {state next : Forest G depths × List (VersionTree.SubTreeUpdate G)}

theorem commitOne_of_clean {name : TreeName} (clean : (state.1 name).dirty = false) :
    commitOne pp shardNode epoch startPos state name = some state := by
  cases name with
  | root => rfl
  | child parent index =>
    rw [commitOne]
    dsimp only
    rw [if_neg (by rw [clean]; decide)]

/-- What committing one changed tree does. -/
theorem commitOne_eq_some {parent : TreeName} {index : UInt32}
    (dirty : (state.1 (parent.child index)).dirty = true)
    (done : commitOne pp shardNode epoch startPos state (parent.child index) = some next) :
    ∃ (inside : Fin (2 ^ depths)) (treeVersion position : UInt64) (above : AMTView Node G depths),
      inside.val = index.toNat ∧
      checkedAdd ((state.1 parent).data inside).treeVersion 1 = some treeVersion ∧
      checkedAdd startPos (UInt64.ofNat state.2.length) = some position ∧
      ((state.1 parent).setSubtreeRoot inside (state.1 (parent.child index)).commitment).replace pp
          (shardRoot shardNode parent) inside
          { (state.1 parent).data inside with treeVersion, treePosition := ⟨epoch, position⟩ } =
        some above ∧
      next = (Function.update (Function.update state.1 (parent.child index)
          (state.1 (parent.child index)).clean) parent above,
        state.2 ++ [(parent.child index, treeVersion, (state.1 (parent.child index)).commitment)]) := by
  obtain ⟨forest, updates⟩ := state
  rw [commitOne] at done
  dsimp only at done dirty
  rw [if_pos dirty] at done
  have kept : Function.update forest (parent.child index) (forest (parent.child index)).clean
      parent = forest parent := Function.update_of_ne (parent.child_ne_self index).symm _ _
  rw [kept] at done
  obtain ⟨inside, inRange, done⟩ := Option.bind_eq_some_iff.mp done
  obtain ⟨treeVersion, version, done⟩ := Option.bind_eq_some_iff.mp done
  obtain ⟨position, placed, done⟩ := Option.bind_eq_some_iff.mp done
  obtain ⟨above, replaced, done⟩ := Option.bind_eq_some_iff.mp done
  exact ⟨inside, treeVersion, position, above, (checkIndex_eq_some inRange).symm, version, placed,
    replaced, (Option.some.inj done).symm⟩

/-- Afterwards only the parent can be newly dirty, and the tree itself is clean. -/
theorem dirty_of_commitOne {parent other : TreeName} {index : UInt32}
    (done : commitOne pp shardNode epoch startPos state (parent.child index) = some next)
    (dirty : (next.1 other).dirty = true) (notParent : other ≠ parent) :
    other ≠ parent.child index ∧ (state.1 other).dirty = true := by
  cases changed : (state.1 (parent.child index)).dirty with
  | false =>
    rw [commitOne_of_clean changed] at done
    obtain rfl := Option.some.inj done
    refine ⟨fun same => ?_, dirty⟩
    rw [same, changed] at dirty
    cases dirty
  | true =>
    obtain ⟨inside, treeVersion, position, above, -, -, -, -, rfl⟩ :=
      commitOne_eq_some changed done
    dsimp only at dirty
    rw [Function.update_of_ne notParent] at dirty
    by_cases same : other = parent.child index
    · subst same
      rw [Function.update_self] at dirty
      cases dirty
    · rw [Function.update_of_ne same] at dirty
      exact ⟨same, dirty⟩

theorem Linked.commitOne (linked : Linked state.1) {name : TreeName}
    (done : Forest.commitOne pp shardNode epoch startPos state name = some next) :
    Linked next.1 := by
  cases name with
  | root =>
    obtain rfl := Option.some.inj done
    exact linked
  | child parent index =>
    cases changed : (state.1 (parent.child index)).dirty with
    | false =>
      rw [commitOne_of_clean changed] at done
      obtain rfl := Option.some.inj done
      exact linked
    | true =>
      obtain ⟨inside, treeVersion, position, above, sameIndex, -, -, replaced, rfl⟩ :=
        commitOne_eq_some changed done
      have written := AMTView.replace_leafWritten replaced
      intro above' index' inside' proper clean
      dsimp only at clean ⊢
      by_cases isParent : .child above' index' = parent
      · subst isParent
        rw [Function.update_self] at clean ⊢
        obtain ⟨wasClean, unmoved⟩ := written.clean clean
        rw [unmoved, Function.update_of_ne (above'.child_ne_self index').symm,
          Function.update_of_ne (above'.child_child_ne_self index' index).symm]
        exact linked inside' proper wasClean
      · rw [Function.update_of_ne isParent] at clean ⊢
        by_cases isChild : TreeName.child above' index' = parent.child index
        · cases isChild
          rw [Function.update_self, Function.update_self, written.roots]
          have sameInside : (⟨_, inside'⟩ : Fin (2 ^ depths)) = inside := Fin.ext sameIndex.symm
          rw [AMTView.setSubtreeRoot_subtreeRoots, sameInside, Function.update_self,
            AMTView.clean_commitment]
        · rw [Function.update_of_ne isChild] at clean ⊢
          rw [linked inside' proper clean]
          by_cases sibling : above' = parent
          · subst sibling
            rw [Function.update_self, written.roots, AMTView.setSubtreeRoot_subtreeRoots,
              Function.update_of_ne]
            intro same
            refine isChild (congrArg _ (UInt32.toNat_inj.mp ?_))
            rw [← sameIndex, ← same]
          · rw [Function.update_of_ne sibling]
            by_cases below : above' = parent.child index
            · rw [below, Function.update_self]
              rfl
            · rw [Function.update_of_ne below]

theorem Linked.commitAll {forest : Forest G depths} {names : List TreeName}
    {final : Forest G depths × List (VersionTree.SubTreeUpdate G)} (linked : forest.Linked)
    (done : Forest.commitAll pp shardNode epoch startPos names forest = some final) :
    Linked final.1 := by
  exact Option.foldlM_invariant (fun state => Linked state.1) names
    (fun _ _ _ _ linked done => linked.commitOne done) linked done

/-- Going through more names changes nothing, as long as the changed trees and their ancestors
are gone through in order. -/
theorem commitAll_sublist {fewer names : List TreeName} (sublist : fewer.Sublist names)
    (distinct : names.Nodup)
    (order : fewer.Pairwise fun earlier later => ¬ TreeName.Below earlier later)
    (upward : ∀ parent index, TreeName.child parent index ∈ fewer →
      parent = .root ∨ parent ∈ fewer)
    (covered : ∀ name, name ≠ .root → (state.1 name).dirty = true → name ∈ fewer) :
    fewer.foldlM (commitOne pp shardNode epoch startPos) state =
      names.foldlM (commitOne pp shardNode epoch startPos) state := by
  induction sublist generalizing state with
  | slnil => rfl
  | cons extra sublist inductionHypothesis =>
    rename_i fewer names
    obtain ⟨absent, distinct⟩ := List.nodup_cons.mp distinct
    have unchanged : commitOne pp shardNode epoch startPos state extra = some state := by
      by_cases isRoot : extra = .root
      · rw [isRoot]
        rfl
      · refine commitOne_of_clean (Bool.eq_false_iff.mpr fun dirty => ?_)
        exact absent (sublist.subset (covered extra isRoot dirty))
    rw [List.foldlM_cons, unchanged]
    exact inductionHypothesis distinct order upward covered
  | cons_cons name sublist inductionHypothesis =>
    rename_i fewer names
    obtain ⟨absent, distinct⟩ := List.nodup_cons.mp distinct
    obtain ⟨first, order⟩ := List.pairwise_cons.mp order
    rw [List.foldlM_cons, List.foldlM_cons]
    cases done : commitOne pp shardNode epoch startPos state name with
    | none => rfl
    | some next =>
      refine inductionHypothesis distinct order (fun parent index member => ?_)
        fun other notRoot dirty => ?_
      · rcases upward parent index (List.mem_cons_of_mem _ member) with isRoot | found
        · exact Or.inl isRoot
        · refine Or.inr ((List.mem_cons.mp found).resolve_left fun same => ?_)
          subst same
          exact first _ member (Or.inr (TreeName.Below.refl _))
      · cases name with
        | root =>
          obtain rfl := Option.some.inj done
          exact (List.mem_cons.mp (covered other notRoot dirty)).resolve_left notRoot
        | child parent index =>
          by_cases isParent : other = parent
          · subst isParent
            rcases upward other index List.mem_cons_self with isRoot | found
            · exact absurd isRoot notRoot
            · exact (List.mem_cons.mp found).resolve_left (other.child_ne_self index).symm
          · obtain ⟨notSame, dirty⟩ := dirty_of_commitOne done dirty isParent
            exact (List.mem_cons.mp (covered other notRoot dirty)).resolve_left notSame

end

end Forest

end AuthStorage.Lvmt
