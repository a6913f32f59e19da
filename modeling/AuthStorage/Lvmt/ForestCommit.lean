/-
This file proves that a commit along the marks is the commit of the forest. One
step of the recursion finishes a tree: its marks are cleared and its caches are
flushed. Whatever changed below it has been recorded in it before. The names the
marks lead to contain every changed tree, and its ancestors after it.
-/

import AuthStorage.Lvmt.ForestChanges
import AuthStorage.Lvmt.ForestRefinement

namespace AuthStorage.Lvmt

namespace VersionTree

variable {G G₂ : Type} {depths : Nat} {versionTree : VersionTree G depths}
  {forest : Forest G depths} {epoch startPos : UInt64} {updates : List (SubTreeUpdate G)}

/-- The marked children of a tree, in the order in which a commit visits them. -/
def marks (versionTree : VersionTree G depths) (name : TreeName) : List UInt32 :=
  match versionTree.forest name with
  | some info => info.childrenMarks.insertionSort (· ≤ ·)
  | none => []

theorem marks_eq {name : TreeName} {info : TreeWithInfo G depths}
    (inForest : versionTree.forest name = some info) :
    versionTree.marks name = info.childrenMarks.insertionSort (· ≤ ·) := by
  rw [marks, inForest]

variable [Curve G]

/-- The trees stand for the forest, the commitments in the parents aside. -/
abbrev Stands (versionTree : VersionTree G depths) (forest : Forest G depths) : Prop :=
  versionTree.RepresentsBut (fun _ => False) forest

/-! ### What the store holds -/

/-- The store alone holds every tree that is not dirty; only the root tree may be in memory. -/
def Stored (db : DBColumn) (shardNode : Option (NodeIndex depths)) (forest : Forest G depths) :
    Prop :=
  ∀ name, name.Proper depths → name ≠ .root → (forest name).dirty = false →
    ((AMTree.new name (Forest.shardRoot shardNode name)).setCommitment
      (forest name).commitment).Represents db name (Forest.shardRoot shardNode name) (forest name)

section

variable {db : DBColumn} {shardNode : Option (NodeIndex depths)}

/-- A dirty tree need not be in the store. -/
theorem Stored.update (stored : Stored db shardNode forest) {name : TreeName}
    {view : AMTView Node G depths} (dirty : name = .root ∨ view.dirty = true) :
    Stored db shardNode (Function.update forest name view) := by
  intro other proper notRoot clean
  by_cases same : other = name
  · subst same
    rw [Function.update_self, dirty.resolve_left notRoot] at clean
    cases clean
  · rw [Function.update_of_ne same] at clean ⊢
    exact stored other proper notRoot clean

/-- Incrementing the version of a key makes its tree dirty or leaves everything as it is. -/
theorem Stored.incKeyVer {pp : AMTParams G G₂ depths} (stored : Stored db shardNode forest)
    {key : Key} {version : Option VerInfo} {verInfo : VerInfo} {next : Forest G depths}
    (done : forest.incKeyVer pp shardNode key version = some (verInfo, next)) :
    Stored db shardNode next := by
  rcases Forest.incKeyVer_dirty done with rfl | ⟨name, view, -, dirty, rfl⟩
  · exact stored
  · exact stored.update (Or.inr dirty)

theorem Stored.commitOne {pp : AMTParams G G₂ depths}
    {state after : Forest G depths × List (SubTreeUpdate G)} {parent : TreeName} {index : UInt32}
    (stored : Stored db shardNode (Function.update state.1 (parent.child index)
      (state.1 (parent.child index)).clean))
    (changed : (state.1 (parent.child index)).dirty = true)
    (done : Forest.commitOne pp shardNode epoch startPos state (parent.child index) =
      some after) : Stored db shardNode after.1 := by
  have dirty := Forest.parent_dirty_of_commitOne changed done
  obtain ⟨inside, treeVersion, position, above, -, -, -, -, rfl⟩ :=
    Forest.commitOne_eq_some changed done
  dsimp only at dirty ⊢
  rw [Function.update_self] at dirty
  exact stored.update (Or.inr dirty)

end

/-! ### Recording a child -/

theorem recordChild_refines (pp : AMTParams G G₂ depths) {name : TreeName} {index : UInt32}
    {info : TreeWithInfo G depths}
    (stands : versionTree.Stands
      (Function.update forest (name.child index) (forest (name.child index)).clean))
    (inForest : versionTree.forest name = some info)
    (marked : name = .root ∨ info.markInParent = true) (inside : index.toNat < 2 ^ depths)
    (dirty : (forest (name.child index)).dirty = true) :
    Option.Rel (fun first second => first.2 = second.2 ∧ first.1.Stands second.1 ∧
        first.1.shardNode = versionTree.shardNode ∧ first.1.layers = versionTree.layers ∧
        first.1.db = versionTree.db ∧
        (∃ tree, first.1.forest name = some { info with tree := tree }) ∧
        ∀ other, other ≠ name → first.1.forest other = versionTree.forest other)
      (recordChild pp epoch startPos name index (forest (name.child index)).commitment
        (versionTree, updates))
      (Forest.commitOne pp versionTree.shardNode epoch startPos (forest, updates)
        (name.child index)) := by
  have kept : Function.update forest (name.child index) (forest (name.child index)).clean name =
      forest name := Function.update_of_ne (name.child_ne_self index).symm _ _
  have holds := stands.tree inForest
  rw [kept] at holds
  obtain ⟨rooted, setDone, rootedHolds⟩ :=
    holds.setSubtreeRoot ⟨_, inside⟩ (forest (name.child index)).commitment
  rw [recordChild, Forest.commitOne]
  dsimp only
  rw [if_pos dirty, kept, inForest]
  have checked : checkIndex depths index.toNat = some ⟨_, inside⟩ := dif_pos inside
  simp only [Option.bind_eq_bind, Option.bind_some, checked, setDone]
  set above := (forest name).setSubtreeRoot ⟨_, inside⟩ (forest (name.child index)).commitment
  rcases rootedHolds.writeVersions pp ⟨_, inside⟩ with
    ⟨undefined, failed⟩ | ⟨guard, taken, value, dropped⟩
  · rw [failed]
    simp only [AMTView.replace_of_undefined undefined]
    cases checkedAdd (above.data ⟨_, inside⟩).treeVersion 1 with
    | none => exact Option.Rel.none
    | some treeVersion =>
      cases checkedAdd startPos (UInt64.ofNat updates.length) <;> exact Option.Rel.none
  · rw [taken, Option.bind_some, value]
    cases checkedAdd (above.data ⟨_, inside⟩).treeVersion 1 with
    | none => exact Option.Rel.none
    | some treeVersion =>
      cases checkedAdd startPos (UInt64.ofNat updates.length) with
      | none => exact Option.Rel.none
      | some position =>
        simp only [Option.bind_some]
        refine Option.rel_bind (dropped _) fun tree view written => ?_
        refine Option.Rel.some ⟨rfl, ?_, rfl, rfl, rfl, ⟨tree, insert_forest_self _ _ _⟩,
          fun other different => insert_forest_of_ne different⟩
        have known : tree.commitment ≠ none := by
          rw [written.1.commitment]
          exact Option.some_ne_none _
        refine stands.insert name { info with tree := tree } view (fun _ => False)
          (stands.proper inForest) (stands.layered inForest)
          (by rw [AMTree.setCommitment_of_ne_none known]; exact written.1) (fun _ => known)
          (fun _ _ => id) ?_ (fun index member => stands.children inForest member)
          (stands.distinct inForest : info.childrenMarks.Nodup) ?_
          (fun notRoot _ => marked.resolve_left notRoot)
        · rintro parent index rfl isMarked -
          exact stands.marked inForest isMarked not_false
        · intro old oldInForest
          rw [inForest] at oldInForest
          obtain rfl := Option.some.inj oldInForest
          exact ⟨id, fun _ => id⟩

/-! ### Finishing a tree -/

/-- The forest once a tree is flushed; the root is not. -/
def finished (forest : Forest G depths) (name : TreeName) : Forest G depths :=
  if name = .root then forest else Function.update forest name (forest name).clean

/-- Put a finished tree in, over a store in which only its own keys have changed. -/
theorem RepresentsBut.finish (stands : versionTree.Stands forest) {name : TreeName}
    {info : TreeWithInfo G depths} (inForest : versionTree.forest name = some info)
    (done : ∀ index child, versionTree.forest (name.child index) = some child →
      child.markInParent = false)
    {db : DBColumn} (elsewhere : ∀ key, ¬ AMTree.OwnsKey depths name key → db key = versionTree.db key)
    {tree : AMTree TreeName Node G depths} {view : AMTView Node G depths}
    (holds : tree.Represents db name (Forest.shardRoot versionTree.shardNode name) view)
    (clean : name = .root ∨ view.dirty = false) :
    ({ versionTree with db }.insert name ⟨tree, false, []⟩).Stands
      (Function.update forest name view) := by
  have proper := stands.proper inForest
  have frame : ∀ other, other ≠ name → other.Proper depths →
      ∀ key, AMTree.OwnsKey depths other key → db key = versionTree.db key :=
    fun other different properOther key owns =>
      elsewhere key fun owns' => different (owns.name_eq properOther.short proper.short owns')
  have known : tree.commitment ≠ none := by
    rw [holds.commitment]
    exact Option.some_ne_none _
  refine stands.insertOver name ⟨tree, false, []⟩ view (fun _ => False) frame proper
    (stands.layered inForest) ?_ (fun _ => known) (fun _ _ _ => not_false)
    (fun _ _ _ isMarked => Bool.noConfusion isMarked) (fun index child childInForest isMarked => ?_)
    (fun _ member => absurd member List.not_mem_nil) List.nodup_nil fun notRoot isDirty => ?_
  · rw [AMTree.setCommitment_of_ne_none known]
    exact holds
  · rw [done index child childInForest] at isMarked
    cases isMarked
  · rw [clean.resolve_left notRoot] at isDirty
    cases isDirty

/-- A tree whose marked children are all done can be finished. -/
theorem finishTree_refines (pp : AMTParams G G₂ depths) {name : TreeName}
    {info : TreeWithInfo G depths} (updates : List (SubTreeUpdate G))
    (stands : versionTree.Stands forest) (inForest : versionTree.forest name = some info)
    (done : ∀ index child, versionTree.forest (name.child index) = some child →
      child.markInParent = false) :
    ∃ next tree, finishTree name (versionTree, updates) =
        some (((forest name).dirty, (forest name).commitment), (next, updates)) ∧
      next.Stands (finished forest name) ∧ next.shardNode = versionTree.shardNode ∧
      next.layers = versionTree.layers ∧
      (Stored versionTree.db versionTree.shardNode forest →
        Stored next.db versionTree.shardNode (finished forest name)) ∧
      next.forest = Function.update versionTree.forest name (some ⟨tree, false, []⟩) := by
  have lawfulArray := lawfulLayout_fin (le_trans pp.depths_le (by norm_num : 28 ≤ 32))
  have lawfulTree := lawfulLayout_nodeIndex (le_trans pp.depths_le (by norm_num : 28 ≤ 31))
  have holds := stands.tree inForest
  cases name with
  | root =>
    have kept := stands.finish inForest done (fun _ _ => rfl) holds (Or.inl rfl)
    rw [Function.update_eq_self] at kept
    refine ⟨_, info.tree, ?_, kept, rfl, rfl, id, rfl⟩
    rw [finishTree]
    simp only [inForest, Option.bind_eq_bind, Option.bind_some, TreeName.length, lt_irrefl,
      if_false, holds.commitment, holds.dirty]
  | child parent index =>
    obtain ⟨db, flushed, flushedHolds, elsewhere⟩ := holds.flush
    refine ⟨_, _, ?_, stands.finish inForest done elsewhere flushedHolds (Or.inr rfl), rfl, rfl,
      fun stored other proper notRoot clean => ?_, rfl⟩
    · rw [finishTree]
      simp only [inForest, Option.bind_eq_bind, Option.bind_some, flushed, holds.dirty]
      rw [if_pos (show (TreeName.child parent index).length > 0 from Nat.succ_pos _)]
    · show AMTree.Represents _ db _ _ _
      rw [finished, if_neg (by simp)] at clean ⊢
      by_cases same : other = .child parent index
      · subst same
        rw [Function.update_self]
        exact flushedHolds
      · rw [Function.update_of_ne same] at clean ⊢
        exact (stored other proper notRoot clean).frame fun key owns => elsewhere key fun owns' =>
          same (owns.name_eq proper.short (stands.proper inForest).short owns')

/-! ### The recursion -/

/-- What the commit of the subtree at `name` leaves behind. -/
structure Committed (versionTree : VersionTree G depths) (forest : Forest G depths)
    (name : TreeName) (first : (Bool × G) × (VersionTree G depths × List (SubTreeUpdate G)))
    (second : Forest G depths × List (SubTreeUpdate G)) : Prop where
  updates : first.2.2 = second.2
  result : first.1 = ((second.1 name).dirty, (second.1 name).commitment)
  stands : first.2.1.Stands (finished second.1 name)
  sameShard : first.2.1.shardNode = versionTree.shardNode
  sameLayers : first.2.1.layers = versionTree.layers
  stored : Stored versionTree.db versionTree.shardNode forest →
    Stored first.2.1.db versionTree.shardNode (finished second.1 name)
  unmarked : ∃ tree, first.2.1.forest name = some ⟨tree, false, []⟩
  elsewhere : ∀ other, ¬ TreeName.Below name other →
    first.2.1.forest other = versionTree.forest other
  upward : ∀ parent index, name = .child parent index → (second.1 name).dirty = true →
    ∃ above, versionTree.forest parent = some above ∧ index ∈ above.childrenMarks ∧
      (parent = .root ∨ above.markInParent = true)

/-- One iteration of the loop over the marked children. -/
def commitChild (pp : AMTParams G G₂ depths) (epoch startPos : UInt64) (layers : Nat)
    (name : TreeName) (state : VersionTree G depths × List (SubTreeUpdate G)) (index : UInt32) :
    Option (VersionTree G depths × List (SubTreeUpdate G)) := do
  let ((dirty, commitment), state) ← commitTree pp epoch startPos layers (name.child index) state
  if dirty then recordChild pp epoch startPos name index commitment state else some state

theorem commitTree_succ (pp : AMTParams G G₂ depths) (layers : Nat) (name : TreeName)
    (state : VersionTree G depths × List (SubTreeUpdate G)) :
    commitTree pp epoch startPos (layers + 1) name state =
      (state.1.forest name).bind fun info =>
        ((info.childrenMarks.insertionSort (· ≤ ·)).foldlM
          (commitChild pp epoch startPos layers name) state).bind (finishTree name) := rfl

/-- What the iterations for some indices leave behind. -/
structure ChildrenCommitted (versionTree : VersionTree G depths) (forest : Forest G depths)
    (name : TreeName) (info : TreeWithInfo G depths) (indices : List UInt32)
    (first : VersionTree G depths × List (SubTreeUpdate G))
    (second : Forest G depths × List (SubTreeUpdate G)) : Prop where
  updates : first.2 = second.2
  stands : first.1.Stands second.1
  sameShard : first.1.shardNode = versionTree.shardNode
  sameLayers : first.1.layers = versionTree.layers
  stored : Stored versionTree.db versionTree.shardNode forest →
    Stored first.1.db versionTree.shardNode second.1
  inForest : ∃ tree, first.1.forest name = some { info with tree := tree }
  unmarked : ∀ index ∈ indices, ∃ child,
    first.1.forest (name.child index) = some child ∧ child.markInParent = false
  elsewhere : ∀ other, other ≠ name →
    (∀ index ∈ indices, ¬ TreeName.Below (name.child index) other) →
      first.1.forest other = versionTree.forest other

/-- The commits of the subtrees one level down, as the induction on the layers provides them. -/
def Recursion (pp : AMTParams G G₂ depths) (epoch startPos : UInt64) (layers : Nat) : Prop :=
  ∀ {versionTree : VersionTree G depths} {forest : Forest G depths}
    {updates : List (SubTreeUpdate G)} {name : TreeName} {info : TreeWithInfo G depths},
    versionTree.Stands forest → versionTree.forest name = some info →
    versionTree.layers ≤ name.length + layers →
      Option.Rel (Committed versionTree forest name)
        (commitTree pp epoch startPos layers name (versionTree, updates))
        ((TreeName.postOrder versionTree.marks layers name).foldlM
          (Forest.commitOne pp versionTree.shardNode epoch startPos) (forest, updates))

theorem commitChild_refines {pp : AMTParams G G₂ depths} {layers : Nat}
    (recursion : Recursion pp epoch startPos layers) {name : TreeName}
    {info : TreeWithInfo G depths} {index : UInt32} (marked : index ∈ info.childrenMarks)
    (stands : versionTree.Stands forest) (inForest : versionTree.forest name = some info)
    (deep : versionTree.layers ≤ name.length + 1 + layers) :
    Option.Rel (ChildrenCommitted versionTree forest name info [index])
      (commitChild pp epoch startPos layers name (versionTree, updates) index)
      ((TreeName.postOrder versionTree.marks layers (name.child index) ++
          [name.child index]).foldlM
        (Forest.commitOne pp versionTree.shardNode epoch startPos) (forest, updates)) := by
  obtain ⟨child, childInForest⟩ := stands.children inForest marked
  have notName : name ≠ name.child index := (name.child_ne_self index).symm
  rw [commitChild, List.foldlM_append]
  refine Option.rel_bind (recursion stands childInForest deep) fun first second committed => ?_
  obtain ⟨⟨dirty, commitment⟩, middle, middleUpdates⟩ := first
  obtain ⟨forest', updates'⟩ := second
  obtain ⟨sameUpdates, result, middleStands, sameShard, sameLayers, middleStored, ⟨tree, unmarked⟩,
    elsewhere, upward⟩ := committed
  dsimp only at sameUpdates result middleStands sameShard sameLayers middleStored unmarked
  dsimp only at elsewhere upward
  obtain ⟨rfl, rfl⟩ := Prod.mk.inj result
  subst sameUpdates
  have nameInForest : middle.forest name = some info := by
    rw [elsewhere name (TreeName.not_below_child name index), inForest]
  have middleStands : middle.Stands (Function.update forest' (name.child index)
      (forest' (name.child index)).clean) := middleStands
  simp only [List.foldlM_cons, List.foldlM_nil, bind_pure]
  cases isDirty : (forest' (name.child index)).dirty with
  | true =>
    obtain ⟨above, aboveInForest, -, higher⟩ := upward name index rfl isDirty
    rw [inForest] at aboveInForest
    obtain rfl := Option.some.inj aboveInForest
    have inside := (stands.proper childInForest).valid.1
    rw [if_pos rfl, ← sameShard]
    refine (recordChild_refines pp middleStands nameInForest higher inside isDirty).imp_some ?_
    rintro ⟨next, nextUpdates⟩ ⟨forest'', _⟩ - moved
      ⟨rfl, nextStands, nextShard, nextLayers, sameDb, entry, others⟩
    refine ⟨rfl, nextStands, nextShard.trans sameShard, nextLayers.trans sameLayers,
      fun stored => ?_, entry, ?_, ?_⟩
    · dsimp only at sameDb ⊢
      rw [sameDb, ← sameShard]
      have kept := middleStored stored
      rw [← sameShard] at kept
      exact Stored.commitOne kept isDirty moved
    · intro other member
      obtain rfl := List.mem_singleton.mp member
      exact ⟨_, by rw [others _ notName.symm]; exact unmarked, rfl⟩
    · intro other different outside
      exact (others other different).trans
        (elsewhere other (outside index (List.mem_singleton_self _)))
  | false =>
    have settled : middle.Stands forest' := by
      rwa [AMTView.clean_of_not_dirty isDirty, Function.update_eq_self] at middleStands
    rw [if_neg (by decide), Forest.commitOne_of_clean isDirty]
    have settledStored : Stored versionTree.db versionTree.shardNode forest →
        Stored middle.db versionTree.shardNode forest' := by
      intro stored
      have kept := middleStored stored
      rwa [finished, if_neg (by simp), AMTView.clean_of_not_dirty isDirty,
        Function.update_eq_self] at kept
    refine Option.Rel.some ⟨rfl, settled, sameShard, sameLayers, settledStored,
      ⟨info.tree, nameInForest⟩, ?_, ?_⟩
    · intro other member
      obtain rfl := List.mem_singleton.mp member
      exact ⟨_, unmarked, rfl⟩
    · intro other _ outside
      exact elsewhere other (outside index (List.mem_singleton_self _))

theorem ChildrenCommitted.cons {name : TreeName} {info : TreeWithInfo G depths} {index : UInt32}
    {rest : List UInt32} {middle last : VersionTree G depths × List (SubTreeUpdate G)}
    {middle' last' : Forest G depths × List (SubTreeUpdate G)}
    {tree : AMTree TreeName Node G depths}
    (head : ChildrenCommitted versionTree forest name info [index] middle middle')
    (tail : ChildrenCommitted middle.1 middle'.1 name { info with tree := tree } rest last last')
    (fresh : index ∉ rest) :
    ChildrenCommitted versionTree forest name info (index :: rest) last last' where
  updates := tail.updates
  stands := tail.stands
  sameShard := tail.sameShard.trans head.sameShard
  sameLayers := tail.sameLayers.trans head.sameLayers
  stored stored := by
    have kept := tail.stored (by rw [head.sameShard]; exact head.stored stored)
    rwa [head.sameShard] at kept
  inForest := tail.inForest
  unmarked other member := by
    rcases List.mem_cons.mp member with rfl | later
    · obtain ⟨child, inForest, unmarked⟩ := head.unmarked _ (List.mem_singleton_self _)
      refine ⟨child, ?_, unmarked⟩
      rw [tail.elsewhere _ (name.child_ne_self _), inForest]
      intro next nextMember below
      exact fresh (below.index_eq (TreeName.Below.refl _) ▸ nextMember)
    · exact tail.unmarked other later
  elsewhere other different outside := by
    rw [tail.elsewhere other different fun next member =>
        outside next (List.mem_cons_of_mem _ member),
      head.elsewhere other different fun next member => by
        rw [List.mem_singleton.mp member]
        exact outside index List.mem_cons_self]

/-- Marks below different children do not interfere. -/
theorem postOrder_congr {marks marks' : TreeName → List UInt32} (layers : Nat) {name : TreeName}
    (same : ∀ other, TreeName.Below name other → marks other = marks' other) :
    TreeName.postOrder marks layers name = TreeName.postOrder marks' layers name := by
  induction layers generalizing name with
  | zero => rfl
  | succ layers inductionHypothesis =>
    rw [TreeName.postOrder, TreeName.postOrder, same name (TreeName.Below.refl _)]
    refine List.flatMap_congr fun index _ => ?_
    rw [inductionHypothesis fun other below => same other below.of_child]

theorem commitChildren_refines {pp : AMTParams G G₂ depths} {layers : Nat}
    (recursion : Recursion pp epoch startPos layers) {name : TreeName}
    (updates : List (SubTreeUpdate G)) (marks : TreeName → List UInt32) (indices : List UInt32)
    (distinct : indices.Nodup)
    {info : TreeWithInfo G depths} (marked : ∀ index ∈ indices, index ∈ info.childrenMarks)
    (stands : versionTree.Stands forest) (inForest : versionTree.forest name = some info)
    (deep : versionTree.layers ≤ name.length + 1 + layers)
    (sameMarks : ∀ index ∈ indices, ∀ other, TreeName.Below (name.child index) other →
      versionTree.marks other = marks other) :
    Option.Rel (ChildrenCommitted versionTree forest name info indices)
      (indices.foldlM (commitChild pp epoch startPos layers name) (versionTree, updates))
      ((indices.flatMap fun index =>
          TreeName.postOrder marks layers (name.child index) ++ [name.child index]).foldlM
        (Forest.commitOne pp versionTree.shardNode epoch startPos) (forest, updates)) := by
  induction indices generalizing versionTree forest updates info with
  | nil =>
    exact Option.Rel.some ⟨rfl, stands, rfl, rfl, id, ⟨info.tree, inForest⟩,
      fun index member => absurd member List.not_mem_nil, fun other _ _ => rfl⟩
  | cons index rest inductionHypothesis =>
    obtain ⟨fresh, distinct⟩ := List.nodup_cons.mp distinct
    rw [List.foldlM_cons, List.flatMap_cons, List.foldlM_append,
      ← postOrder_congr layers (sameMarks index List.mem_cons_self)]
    refine Option.rel_bind (commitChild_refines recursion (marked index List.mem_cons_self) stands
      inForest deep) fun middle middle' head => ?_
    obtain ⟨middle, middleUpdates⟩ := middle
    obtain ⟨forest', _⟩ := middle'
    obtain ⟨rfl, middleStands, sameShard, sameLayers, -, ⟨tree, nameInForest⟩, -, elsewhere⟩ :=
      id head
    dsimp only at middleStands sameShard sameLayers nameInForest elsewhere ⊢
    have markedRest : ∀ next ∈ rest,
        next ∈ ({ info with tree := tree } : TreeWithInfo G depths).childrenMarks :=
      fun next member => marked next (List.mem_cons_of_mem _ member)
    have tail := inductionHypothesis middleUpdates distinct markedRest middleStands nameInForest
      (by rw [sameLayers]; exact deep) fun next member other below => by
        rw [← sameMarks next (List.mem_cons_of_mem _ member) other below]
        have apart : middle.forest other = versionTree.forest other := by
          refine elsewhere other ?_ fun index' member' below' => ?_
          · rintro rfl
            exact TreeName.not_below_child _ _ below
          · rw [List.mem_singleton.mp member'] at below'
            exact fresh (below'.index_eq below ▸ member)
        rw [VersionTree.marks, VersionTree.marks, apart]
    rw [sameShard] at tail
    exact tail.imp fun last last' committed => head.cons committed fresh

/-- The commit of a subtree along its marks is the commit of the names the marks lead to. -/
theorem commitTree_refines (pp : AMTParams G G₂ depths) (layers : Nat) :
    Recursion pp epoch startPos layers := by
  induction layers with
  | zero =>
    intro versionTree forest updates name info stands inForest deep
    have shallow := stands.layered inForest
    omega
  | succ layers inductionHypothesis =>
    intro versionTree forest updates name info stands inForest deep
    have sorted : (info.childrenMarks.insertionSort (· ≤ ·)).Perm info.childrenMarks :=
      List.perm_insertionSort _ _
    have children := commitChildren_refines inductionHypothesis updates
      versionTree.marks (info.childrenMarks.insertionSort (· ≤ ·))
      (sorted.nodup_iff.mpr (stands.distinct inForest)) (fun index => sorted.mem_iff.mp) stands
      inForest (by omega) fun _ _ _ _ => rfl
    rw [commitTree_succ, inForest, Option.bind_some, TreeName.postOrder, marks_eq inForest]
    refine Option.rel_bind_left children fun middle middle' committed => ?_
    obtain ⟨middle, middleUpdates⟩ := middle
    obtain ⟨forest', _⟩ := middle'
    obtain ⟨rfl, middleStands, sameShard, sameLayers, middleStored, ⟨tree, nameInForest⟩, unmarked,
      elsewhere⟩ := committed
    dsimp only at middleStands sameShard sameLayers middleStored nameInForest unmarked elsewhere
    have done : ∀ index child, middle.forest (name.child index) = some child →
        child.markInParent = false := by
      intro index child childInForest
      by_contra isMarked
      obtain ⟨above, aboveInForest, member, -⟩ := middleStands.marked childInForest
        (Bool.eq_true_of_not_eq_false isMarked) not_false
      rw [nameInForest] at aboveInForest
      obtain rfl := Option.some.inj aboveInForest
      obtain ⟨found, foundInForest, foundUnmarked⟩ := unmarked index (sorted.mem_iff.mpr member)
      rw [childInForest] at foundInForest
      obtain rfl := Option.some.inj foundInForest
      exact isMarked foundUnmarked
    obtain ⟨next, flushed, finish, nextStands, nextShard, nextLayers, nextStored, nextForest⟩ :=
      finishTree_refines pp middleUpdates middleStands nameInForest done
    rw [sameShard] at nextStored
    refine ⟨_, finish, ⟨rfl, rfl, nextStands, nextShard.trans sameShard,
      nextLayers.trans sameLayers, fun stored => nextStored (middleStored stored),
      ⟨flushed, by rw [nextForest]; exact Function.update_self _ _ _⟩, ?_, ?_⟩⟩
    · intro other outside
      have different : other ≠ name := by
        rintro rfl
        exact outside (TreeName.Below.refl _)
      rw [nextForest, Function.update_of_ne different,
        elsewhere other different fun index _ below => outside below.of_child]
    · rintro parent index rfl isDirty
      obtain ⟨found, foundInForest, isMarked⟩ := middleStands.dirty isDirty
      obtain ⟨above, aboveInForest, member, higher⟩ :=
        middleStands.marked foundInForest isMarked not_false
      refine ⟨above, ?_, member, higher⟩
      rw [← aboveInForest, elsewhere parent (parent.child_ne_self index).symm]
      intro next _ below
      have le := below.length_le
      simp only [TreeName.length] at le
      omega

/-! ### The commit of the forest -/

theorem mem_postOrder_of_marked (stands : versionTree.Stands forest) {parent : TreeName}
    {index : UInt32} {info : TreeWithInfo G depths}
    (inForest : versionTree.forest (.child parent index) = some info)
    (isMarked : info.markInParent = true) :
    .child parent index ∈ TreeName.postOrder versionTree.marks versionTree.layers .root := by
  induction parent generalizing index info with
  | root =>
    obtain ⟨above, aboveInForest, member, -⟩ := stands.marked inForest isMarked not_false
    refine TreeName.child_mem_postOrder ?_ (lt_of_le_of_lt (Nat.zero_le _) (stands.layered inForest))
    rw [marks_eq aboveInForest]
    exact (List.perm_insertionSort _ _).mem_iff.mpr member
  | child parent' index' inductionHypothesis =>
    obtain ⟨above, aboveInForest, member, higher⟩ := stands.marked inForest isMarked not_false
    refine TreeName.child_mem_postOrder_of_mem ?_
      (inductionHypothesis aboveInForest (higher.resolve_left (by simp))) ?_
    · rw [marks_eq aboveInForest]
      exact (List.perm_insertionSort _ _).mem_iff.mpr member
    · rw [TreeName.length, Nat.zero_add]
      exact stands.layered aboveInForest

theorem marks_nodup (stands : versionTree.Stands forest) (name : TreeName) :
    (versionTree.marks name).Nodup := by
  rw [marks]
  cases inForest : versionTree.forest name with
  | none => exact List.nodup_nil
  | some info =>
    exact (List.perm_insertionSort _ _).nodup_iff.mpr (stands.distinct inForest)

theorem marks_sublist (pp : AMTParams G G₂ depths) (stands : versionTree.Stands forest)
    (name : TreeName) : (versionTree.marks name).Sublist (TreeName.allIndices depths) := by
  have bound : 2 ^ depths ≤ 2 ^ 28 := Nat.pow_le_pow_right (by norm_num) pp.depths_le
  have known : ∀ index ∈ versionTree.marks name, index ∈ TreeName.allIndices depths := by
    intro index member
    rw [marks] at member
    cases inForest : versionTree.forest name with
    | none =>
      rw [inForest] at member
      cases member
    | some info =>
      rw [inForest] at member
      obtain ⟨child, childInForest⟩ :=
        stands.children inForest ((List.perm_insertionSort _ _).mem_iff.mp member)
      refine List.mem_map.mpr ⟨index.toNat,
        List.mem_range.mpr (stands.proper childInForest).valid.1, UInt32.ofNat_toNat⟩
  have sorted : (versionTree.marks name).Pairwise (· ≤ ·) := by
    rw [marks]
    cases versionTree.forest name with
    | none => exact List.Pairwise.nil
    | some info => exact List.pairwise_insertionSort _ _
  have allSorted : (TreeName.allIndices depths).Pairwise (· ≤ ·) := by
    refine List.pairwise_map.mpr (List.pairwise_lt_range.imp_of_mem ?_)
    intro first second firstMember secondMember less
    rw [List.mem_range] at firstMember secondMember
    rw [UInt32.le_iff_toNat_le, UInt32.toNat_ofNat', UInt32.toNat_ofNat',
      Nat.mod_eq_of_lt (by omega), Nat.mod_eq_of_lt (by omega)]
    exact less.le
  exact List.sublist_of_subperm_of_pairwise
    (List.subperm_of_subset (marks_nodup stands name) known) sorted allSorted

/-- A commit along the marks is the commit of the forest. -/
theorem commit_refines (pp : AMTParams G G₂ depths) (represents : versionTree.Represents forest)
    (epoch startPos : UInt64) :
    Option.Rel (fun first second => first.1 = second.1 ∧ first.2.Represents second.2 ∧
        first.2.shardNode = versionTree.shardNode ∧
        (Stored versionTree.db versionTree.shardNode forest →
          Stored first.2.db versionTree.shardNode second.2))
      (versionTree.commit pp epoch startPos)
      (Forest.commit pp versionTree.shardNode forest epoch startPos) := by
  have stands := represents.toRepresentsBut
  obtain ⟨root, rootInForest, -⟩ := stands.root
  have recursion : Recursion pp epoch startPos versionTree.layers := commitTree_refines pp _
  have committed := @recursion versionTree forest [] .root root stands rootInForest
    (by rw [TreeName.length, Nat.zero_add])
  have distinct : ∀ name, ((fun _ => TreeName.allIndices depths : TreeName → List UInt32)
      name).Nodup := fun _ => TreeName.allIndices_nodup pp.depths_le
  have everything : (TreeName.postOrder versionTree.marks versionTree.layers .root).foldlM
      (Forest.commitOne pp versionTree.shardNode epoch startPos) (forest, []) =
      Forest.commitAll pp versionTree.shardNode epoch startPos (TreeName.allNames depths)
        forest := by
    refine Forest.commitAll_sublist
      (TreeName.postOrder_sublist (marks_sublist pp stands) stands.layers_le _)
      (TreeName.postOrder_nodup distinct _ _)
      (TreeName.postOrder_pairwise (marks_nodup stands) _ _)
      (fun parent index member => TreeName.parent_mem_postOrder member) fun name notRoot dirty => ?_
    cases name with
    | root => exact absurd rfl notRoot
    | child parent index =>
      obtain ⟨info, inForest, isMarked⟩ := stands.dirty dirty
      exact mem_postOrder_of_marked stands inForest isMarked
  rw [everything] at committed
  rw [commit, Forest.commit]
  refine Option.rel_bind_some committed fun first second _ done both => ?_
  obtain ⟨⟨dirty, commitment⟩, next, updates⟩ := first
  obtain ⟨forest', updates'⟩ := second
  obtain ⟨sameUpdates, result, nextStands, sameShard, -, stored, -, -, -⟩ := both
  dsimp only at sameUpdates result nextStands sameShard stored
  subst sameUpdates
  obtain ⟨-, rfl⟩ := Prod.mk.inj result
  exact Option.Rel.some ⟨rfl, ⟨nextStands, represents.linked.commitAll done⟩, sameShard, stored⟩

end VersionTree

end AuthStorage.Lvmt
