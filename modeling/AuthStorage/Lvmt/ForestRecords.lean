/-
This file is about what the leaf of a parent says of the tree below it: the last
version that was committed, and where in which epoch the tree was listed with
that version and its commitment. An increment makes its tree dirty and leaves the
record aside, and the next commit writes it anew for that tree and for all trees
above it. A tree in which a version was committed has been listed, and so has
every tree on its path.
-/

import AuthStorage.Lvmt.ForestOpenings

namespace AuthStorage.Lvmt

namespace TreeName

/-- The name and the names on its path, without the root. -/
def ancestors : TreeName → List TreeName
  | root => []
  | child parent index => child parent index :: ancestors parent

theorem length_ancestors (name : TreeName) : name.ancestors.length = name.length := by
  induction name with
  | root => rfl
  | child parent index inductionHypothesis =>
    rw [ancestors, List.length_cons, inductionHypothesis, length]

theorem mem_ancestors {ancestor name : TreeName} (below : Below ancestor name)
    (notRoot : ancestor ≠ root) : ancestor ∈ name.ancestors := by
  induction name with
  | root => exact absurd (show root = ancestor from below).symm notRoot
  | child parent index inductionHypothesis =>
    rcases below with rfl | above
    · exact List.mem_cons_self
    · exact List.mem_cons_of_mem _ (inductionHypothesis above)

/-- Few names have few ancestors. -/
theorem length_flatMap_ancestors_le {names : List TreeName} {height : Nat}
    (shallow : ∀ name ∈ names, name.length ≤ height) :
    (names.flatMap ancestors).length ≤ height * names.length := by
  induction names with
  | nil => exact Nat.zero_le _
  | cons name rest inductionHypothesis =>
    have here := shallow name List.mem_cons_self
    have later := inductionHypothesis fun other member => shallow other (List.mem_cons_of_mem _ member)
    rw [List.flatMap_cons, List.length_append, length_ancestors, List.length_cons, Nat.mul_succ,
      Nat.add_comm]
    exact Nat.add_le_add later here

end TreeName

namespace Forest

variable {G G₂ : Type} {depths : Nat}

/-- What the leaf of a parent says of a clean tree that was listed before is attested. -/
def Attested (attests : EpochPosition → VersionTree.SubTreeUpdate G → Prop)
    (forest : Forest G depths) : Prop :=
  ∀ parent index (inside : Fin (2 ^ depths)), inside.val = index.toNat →
    (forest (.child parent index)).dirty = false →
      ((forest parent).data inside).treeVersion ≠ 0 →
        attests ((forest parent).data inside).treePosition
          (.child parent index, ((forest parent).data inside).treeVersion,
            (forest (.child parent index)).commitment)

/-- The tree and all trees on its path have been listed. -/
def ListedUpTo (forest : Forest G depths) (name : TreeName) : Prop :=
  ∀ parent index (inside : Fin (2 ^ depths)), inside.val = index.toNat →
    TreeName.Below (.child parent index) name → ((forest parent).data inside).treeVersion ≠ 0

variable [Curve G] {pp : AMTParams G G₂ depths} {shardNode : Option (NodeIndex depths)}
  {forest next : Forest G depths} {attests attests' : EpochPosition → VersionTree.SubTreeUpdate G → Prop}

/-! ### Increments -/

section

variable {name : TreeName} {view : AMTView Node G depths}

omit [Curve G] in
theorem Attested.bumped (attested : forest.Attested attests) (bumped : Bumped (forest name) view) :
    Attested attests (Function.update forest name view) := by
  intro parent index inside sameIndex clean listed
  have childElsewhere : .child parent index ≠ name := by
    rintro rfl
    rw [Function.update_self, bumped.dirty] at clean
    cases clean
  rw [Function.update_of_ne childElsewhere] at clean ⊢
  by_cases isParent : parent = name
  · subst isParent
    rw [Function.update_self, bumped.treeVersion, bumped.treePosition] at *
    exact attested parent index inside sameIndex clean listed
  · rw [Function.update_of_ne isParent] at listed ⊢
    exact attested parent index inside sameIndex clean listed

omit [Curve G] in
theorem ListedUpTo.bumped {other : TreeName} (listed : forest.ListedUpTo other)
    (bumped : Bumped (forest name) view) :
    ListedUpTo (Function.update forest name view) other := by
  intro parent index inside sameIndex below
  by_cases isParent : parent = name
  · subst isParent
    rw [Function.update_self, bumped.treeVersion]
    exact listed parent index inside sameIndex below
  · rw [Function.update_of_ne isParent]
    exact listed parent index inside sameIndex below

end

/-! ### Commits -/

section

variable {epoch startPos : UInt64} {commitment : G} {updates : List (VersionTree.SubTreeUpdate G)}

/-- A version that was incremented is not zero. -/
theorem ne_zero_of_checkedAdd_one {version sum : UInt64} (done : checkedAdd version 1 = some sum) :
    sum ≠ 0 := by
  rintro rfl
  have counted := toNat_checkedAdd done
  rw [show (1 : UInt64).toNat = 1 from rfl, show (0 : UInt64).toNat = 0 from rfl] at counted
  omega

omit [Curve G] in
/-- The item of a tree that is listed, and the leaf of its parent. -/
theorem Reported.item {names : List TreeName} {parent : TreeName} {index : UInt32}
    {inside : Fin (2 ^ depths)} (reported : Reported epoch startPos names forest next [] updates)
    (sameIndex : inside.val = index.toNat) (listed : .child parent index ∈ updates.map Prod.fst) :
    ∃ number position, updates[number]? = some (.child parent index,
        ((next parent).data inside).treeVersion, (next (.child parent index)).commitment) ∧
      ((next parent).data inside).treeVersion ≠ 0 ∧
      checkedAdd startPos (UInt64.ofNat number) = some position ∧
      ((next parent).data inside).treePosition = ⟨epoch, position⟩ := by
  obtain ⟨⟨_, version, commitment⟩, member, rfl⟩ := List.mem_map.mp listed
  obtain ⟨number, found⟩ := List.getElem?_of_mem member
  obtain ⟨committed, inside', position, sameIndex', numbered, placed, recordedVersion,
    recordedPosition, -⟩ := reported.items number parent index version commitment found
  obtain rfl : inside = inside' := Fin.ext (sameIndex.trans sameIndex'.symm)
  rw [List.length_nil, Nat.zero_add] at placed
  rw [recordedVersion, committed]
  exact ⟨number, position, found, ne_zero_of_checkedAdd_one numbered, placed, recordedPosition⟩

omit [Curve G] in
/-- A tree that was dirty is listed, and so is every tree on its path. -/
theorem Reported.listed_of_dirty {parent name : TreeName} {index : UInt32}
    (reported : Reported epoch startPos (TreeName.allNames depths) forest next [] updates)
    (onlyProper : forest.OnlyProper) (dirty : (forest name).dirty = true)
    (below : TreeName.Below (.child parent index) name) :
    .child parent index ∈ updates.map Prod.fst :=
  (reported.listed _).mpr ⟨TreeName.mem_allNames ((onlyProper name dirty).above below) (by simp),
    by simp, name, dirty, below⟩

/-- The items of a commit attest the trees they list, and the others are as they were. -/
theorem Attested.commit (onlyProper : forest.OnlyProper) (attested : forest.Attested attests)
    (kept : ∀ position update, attests position update → attests' position update)
    (items : ∀ number update position, updates[number]? = some update →
      checkedAdd startPos (UInt64.ofNat number) = some position →
        attests' ⟨epoch, position⟩ update)
    (done : forest.commit pp shardNode epoch startPos = some ((commitment, updates), next)) :
    next.Attested attests' := by
  obtain ⟨-, reported⟩ := commit_reported onlyProper done
  intro parent index inside sameIndex clean listed
  by_cases isItem : .child parent index ∈ updates.map Prod.fst
  · obtain ⟨number, position, found, -, placed, recorded⟩ := reported.item sameIndex isItem
    rw [recorded]
    exact items number _ position found placed
  · obtain ⟨sameCommitment, sameData, -⟩ :=
      reported.unlisted parent index inside sameIndex isItem
    rw [sameData] at listed ⊢
    rw [sameCommitment]
    refine kept _ _ (attested parent index inside sameIndex ?_ listed)
    exact Bool.eq_false_iff.mpr fun dirty =>
      isItem (reported.listed_of_dirty onlyProper dirty (TreeName.Below.refl _))

/-- Versions of trees never go back to zero. -/
theorem ListedUpTo.commit {name : TreeName} (onlyProper : forest.OnlyProper)
    (listed : forest.ListedUpTo name)
    (done : forest.commit pp shardNode epoch startPos = some ((commitment, updates), next)) :
    next.ListedUpTo name := by
  obtain ⟨-, reported⟩ := commit_reported onlyProper done
  intro parent index inside sameIndex below
  by_cases isItem : .child parent index ∈ updates.map Prod.fst
  · obtain ⟨-, -, -, nonzero, -⟩ := reported.item sameIndex isItem
    exact nonzero
  · rw [(reported.unlisted parent index inside sameIndex isItem).2.1]
    exact listed parent index inside sameIndex below

/-- A commit lists the trees that were dirty, with all trees on their paths. -/
theorem listedUpTo_of_dirty {name : TreeName} (onlyProper : forest.OnlyProper)
    (dirty : (forest name).dirty = true)
    (done : forest.commit pp shardNode epoch startPos = some ((commitment, updates), next)) :
    next.ListedUpTo name := by
  obtain ⟨-, reported⟩ := commit_reported onlyProper done
  intro parent index inside sameIndex below
  obtain ⟨-, -, -, nonzero, -⟩ :=
    reported.item sameIndex (reported.listed_of_dirty onlyProper dirty below)
  exact nonzero

/-- A commit lists no more trees than those on the paths of the dirty ones. -/
theorem length_updates_le {touched : List TreeName} {height : Nat} (onlyProper : forest.OnlyProper)
    (within : forest.DirtyWithin touched) (shallow : ∀ name ∈ touched, name.length ≤ height)
    (done : forest.commit pp shardNode epoch startPos = some ((commitment, updates), next)) :
    updates.length ≤ height * touched.length := by
  obtain ⟨-, reported⟩ := commit_reported onlyProper done
  have once : (updates.map Prod.fst).Nodup :=
    (TreeName.postOrder_nodup (fun _ => TreeName.allIndices_nodup pp.depths_le) _ _).sublist
      reported.sublist
  have onPaths : updates.map Prod.fst ⊆ touched.flatMap TreeName.ancestors := by
    intro name member
    obtain ⟨-, notRoot, dirtied, dirty, below⟩ := (reported.listed name).mp member
    have dirtiedNotRoot : dirtied ≠ .root := by
      rintro rfl
      exact notRoot (show TreeName.root = name from below).symm
    exact List.mem_flatMap.mpr
      ⟨dirtied, within dirtied dirtiedNotRoot dirty, TreeName.mem_ancestors below notRoot⟩
  have few := (List.subperm_of_subset once onPaths).length_le
  rw [List.length_map] at few
  exact le_trans few (TreeName.length_flatMap_ancestors_le shallow)

/-- A commit that finds only the root dirty changes nothing. -/
theorem commit_of_clean (clean : ∀ name, name ≠ .root → (forest name).dirty = false)
    (done : forest.commit pp shardNode epoch startPos = some ((commitment, updates), next)) :
    next = forest ∧ updates = [] := by
  have unmoved : ∀ names : List TreeName, names.foldlM
      (commitOne pp shardNode epoch startPos) (forest, []) = some (forest, []) := by
    intro names
    induction names with
    | nil => rfl
    | cons name rest inductionHypothesis =>
      have stays : commitOne pp shardNode epoch startPos (forest, []) name = some (forest, []) := by
        by_cases isRoot : name = .root
        · rw [isRoot]
          rfl
        · exact commitOne_of_clean (clean name isRoot)
      rw [List.foldlM_cons, stays]
      exact inductionHypothesis
  rw [Forest.commit, commitAll, unmoved] at done
  obtain ⟨same, rfl⟩ := Prod.mk.inj (Option.some.inj done)
  exact ⟨rfl, (Prod.mk.inj same).2.symm⟩

end

end Forest

end AuthStorage.Lvmt
