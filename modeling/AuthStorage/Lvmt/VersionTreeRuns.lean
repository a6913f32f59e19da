/-
This file is about whole runs of a version tree: increments of key versions,
visits and commits, in any order. Along a run the dirty trees are those in which
a version was incremented since the last commit, and the version a parent holds
for a tree is the number of commits that listed it. So a commit reports exactly
the trees that changed, each with its new version, position and commitment.
-/

import AuthStorage.Lvmt.ForestReopen

namespace AuthStorage.Lvmt

namespace VersionTree

variable {G G₂ : Type} {depths : Nat}

/-! ### Operations and histories -/

/-- The calls of the version tree, and a read of a leaf. -/
inductive Op
  | inc (key : Key) (version : Option VerInfo)
  | read (name : TreeName) (index : Nat)
  | commit (epoch startPos : UInt64)

/-- What a call returns. -/
inductive Output (G : Type)
  | inc (version : VerInfo)
  | read (node : Node)
  | commit (commitment : G) (updates : List (SubTreeUpdate G))

/-- A version that is handed back names one of the five slots, as every version handed out does;
the trees visited are those of keys. -/
def Op.Allowed (depths : Nat) : Op → Prop
  | inc _ version => ∀ given, version = some given → given.slotIndex.toNat < 5
  | read name _ => name.Proper depths
  | commit _ _ => True

/-- The operations done so far with what they returned. -/
abbrev History (G : Type) := List (Op × Output G)

/-- The tree in which an operation incremented a version. -/
def touchedBy (depths : Nat) : Op × Output G → Option TreeName
  | (.inc key _, .inc verInfo) => key.treeAtLevel depths verInfo.level.toNat
  | _ => none

/-- The touched trees after one more operation; a commit starts anew. -/
def afterEntry (depths : Nat) (touched : List TreeName) : Op × Output G → List TreeName
  | (.commit _ _, _) => []
  | entry => touched ++ (touchedBy depths entry).toList

/-- The trees in which a version was incremented since the last commit. -/
def touchedSinceCommit (depths : Nat) (history : History G) : List TreeName :=
  history.foldl (afterEntry depths) []

/-- The call reports a change of the tree. -/
def lists (name : TreeName) : Op × Output G → Bool
  | (_, .commit _ updates) => decide (name ∈ updates.map Prod.fst)
  | _ => false

/-- The number of commits that listed the tree. -/
def timesListed (history : History G) (name : TreeName) : Nat := history.countP (lists name)

theorem timesListed_append (history : History G) (entry : Op × Output G) (name : TreeName) :
    timesListed (history ++ [entry]) name =
      timesListed history name + if lists name entry then 1 else 0 := by
  rw [timesListed, List.countP_append, List.countP_singleton]
  rfl

theorem touchedSinceCommit_append (history : History G) (entry : Op × Output G) :
    touchedSinceCommit depths (history ++ [entry]) =
      afterEntry depths (touchedSinceCommit depths history) entry := by
  rw [touchedSinceCommit, List.foldl_append]
  rfl

variable [Curve G]

/-! ### Runs -/

/-- The version tree and the result after a call. -/
def step (pp : AMTParams G G₂ depths) (versionTree : VersionTree G depths) :
    Op → Option (VersionTree G depths × Output G)
  | .inc key version => do
    let (verInfo, versionTree) ← versionTree.incKeyVer pp key version
    some (versionTree, .inc verInfo)
  | .read name index => do
    let (info, versionTree) ← versionTree.visit name
    let (node, tree) ← info.tree.get versionTree.db index
    some (versionTree.setTree name info tree, .read node)
  | .commit epoch startPos => do
    let ((commitment, updates), versionTree) ← versionTree.commit pp epoch startPos
    some (versionTree, .commit commitment updates)

/-! ### What a caller can see -/

/-- The data of a leaf, as a call would read it. -/
def leafOf (versionTree : VersionTree G depths) (name : TreeName) (index : Nat) : Option Node := do
  let (info, versionTree) ← versionTree.visit name
  let (node, _) ← info.tree.get versionTree.db index
  some node

/-- The commitment below a leaf, as a call would read it. -/
def subtreeRootOf (versionTree : VersionTree G depths) (name : TreeName) (index : Nat) :
    Option G := do
  let (info, versionTree) ← versionTree.visit name
  let (root, _) ← info.tree.subtreeRoot versionTree.db index
  some root

/-- The commitment of a tree, as a call would read it. -/
def commitmentOf (versionTree : VersionTree G depths) (name : TreeName) : Option G := do
  let (info, _) ← versionTree.visit name
  info.tree.commitment

section

variable {versionTree : VersionTree G depths} {forest : Forest G depths} {name : TreeName}

theorem Represents.leafOf (represents : versionTree.Represents forest)
    (proper : name.Proper depths) (inside : Fin (2 ^ depths)) :
    versionTree.leafOf name inside.val = some ((forest name).data inside) := by
  obtain ⟨info, next, visited_eq, visited⟩ := represents.visit proper
  obtain ⟨tree, read, -⟩ := visited.stands.get inside
  simp [VersionTree.leafOf, visited_eq, read]

theorem Represents.subtreeRootOf (represents : versionTree.Represents forest)
    (proper : name.Proper depths) (inside : Fin (2 ^ depths)) :
    versionTree.subtreeRootOf name inside.val = some ((forest name).subtreeRoots inside) := by
  obtain ⟨info, next, visited_eq, visited⟩ := represents.visit proper
  obtain ⟨tree, read, -⟩ := visited.stands.subtreeRoot inside
  simp [VersionTree.subtreeRootOf, visited_eq, read]

theorem Represents.commitmentOf (represents : versionTree.Represents forest)
    (proper : name.Proper depths) :
    versionTree.commitmentOf name = some (forest name).commitment := by
  obtain ⟨info, next, visited_eq, visited⟩ := represents.visit proper
  simp [VersionTree.commitmentOf, visited_eq, visited.stands.commitment]

end

/-! ### The forest along a run -/

/-- What the history says about the forest. -/
structure Follows (history : History G) (forest : Forest G depths) : Prop where
  proper : ∀ name, (forest name).dirty = true → name.Proper depths
  dirty : ∀ name, name ≠ .root →
    ((forest name).dirty = true ↔ name ∈ touchedSinceCommit depths history)
  version : ∀ parent index (inside : Fin (2 ^ depths)), inside.val = index.toNat →
    ((forest parent).data inside).treeVersion.toNat = timesListed history (parent.child index)

theorem follows_empty : Follows [] (Forest.empty : Forest G depths) where
  proper name dirty := by cases dirty
  dirty name _ := ⟨nofun, nofun⟩
  version parent index inside _ := rfl

section

variable {pp : AMTParams G G₂ depths} {shardNode : Option (NodeIndex depths)}
  {history : History G} {forest next : Forest G depths}

theorem Follows.inc (follows : Follows history forest) {key : Key} {version : Option VerInfo}
    {verInfo : VerInfo} (allowed : (Op.inc key version).Allowed depths)
    (done : forest.incKeyVer pp shardNode key version = some (verInfo, next)) :
    Follows (history ++ [(.inc key version, .inc verInfo)]) next := by
  obtain ⟨-, name, view, named, bumped, rfl⟩ := Forest.incKeyVer_bumped allowed done
  have touched : touchedSinceCommit depths (history ++ [(.inc key version, .inc verInfo)]) =
      touchedSinceCommit depths history ++ [name] := by
    rw [touchedSinceCommit_append]
    show _ ++ (key.treeAtLevel depths verInfo.level.toNat).toList = _
    rw [named]
    rfl
  refine ⟨fun other dirty => ?_, fun other notRoot => ?_, fun parent index inside same => ?_⟩
  · by_cases same : other = name
    · subst same
      exact Key.proper_treeAtLevel pp.depths_le named (Nat.le_of_lt_succ verInfo.level.toNat_lt)
    · rw [Function.update_of_ne same] at dirty
      exact follows.proper other dirty
  · rw [touched, List.mem_append, List.mem_singleton]
    by_cases same : other = name
    · subst same
      rw [Function.update_self]
      exact ⟨fun _ => Or.inr rfl, fun _ => bumped.dirty⟩
    · rw [Function.update_of_ne same, follows.dirty other notRoot]
      exact ⟨Or.inl, fun found => found.resolve_right same⟩
  · rw [timesListed_append, if_neg (by simp [lists]), Nat.add_zero,
      ← follows.version parent index inside same]
    by_cases written : parent = name
    · rw [written, Function.update_self, bumped.treeVersion]
    · rw [Function.update_of_ne written]

theorem Follows.commit (follows : Follows history forest) {epoch startPos : UInt64}
    {commitment : G} {updates : List (SubTreeUpdate G)}
    (done : forest.commit pp shardNode epoch startPos = some ((commitment, updates), next)) :
    Follows (history ++ [(.commit epoch startPos, .commit commitment updates)]) next := by
  obtain ⟨-, reported⟩ := Forest.commit_reported follows.proper done
  refine ⟨fun name dirty => ?_, fun name notRoot => ?_, fun parent index inside same => ?_⟩
  · by_cases isRoot : name = .root
    · rw [isRoot]
      exact TreeName.proper_root depths
    · rw [reported.clean name isRoot] at dirty
      cases dirty
  · rw [touchedSinceCommit_append, afterEntry, reported.clean name notRoot]
    exact ⟨nofun, nofun⟩
  · rw [timesListed_append, ← follows.version parent index inside same]
    by_cases listed : parent.child index ∈ updates.map Prod.fst
    · obtain ⟨⟨_, version, commitment'⟩, member, rfl⟩ := List.mem_map.mp listed
      obtain ⟨number, found⟩ := List.getElem?_of_mem member
      obtain ⟨-, inside', position, sameInside, numbered, -, recorded, -⟩ :=
        reported.items number parent index version commitment' found
      obtain rfl : inside = inside' := Fin.ext (same.trans sameInside.symm)
      rw [recorded, toNat_checkedAdd numbered, if_pos (by simpa [lists] using listed)]
      rfl
    · rw [(reported.unlisted parent index inside same listed).2.1,
        if_neg (by simpa [lists] using listed), Nat.add_zero]

end

/-! ### The runs of the code -/

/-- The operations on the forest. -/
def forestStep (pp : AMTParams G G₂ depths) (shardNode : Option (NodeIndex depths))
    (forest : Forest G depths) : Op → Option (Forest G depths × Output G)
  | .inc key version => do
    let (verInfo, forest) ← forest.incKeyVer pp shardNode key version
    some (forest, .inc verInfo)
  | .read name index => do
    let index ← checkIndex depths index
    some (forest, .read ((forest name).data index))
  | .commit epoch startPos => do
    let ((commitment, updates), forest) ← forest.commit pp shardNode epoch startPos
    some (forest, .commit commitment updates)

theorem Follows.step {pp : AMTParams G G₂ depths} {shardNode : Option (NodeIndex depths)}
    {history : History G} {forest next : Forest G depths} {op : Op} {out : Output G}
    (follows : Follows history forest) (allowed : op.Allowed depths)
    (done : forestStep pp shardNode forest op = some (next, out)) :
    Follows (history ++ [(op, out)]) next := by
  cases op with
  | inc key version =>
    obtain ⟨⟨verInfo, after⟩, incremented, same⟩ := Option.bind_eq_some_iff.mp done
    obtain ⟨rfl, rfl⟩ := Prod.mk.inj (Option.some.inj same)
    exact follows.inc allowed incremented
  | read name index =>
    obtain ⟨inside, -, same⟩ := Option.bind_eq_some_iff.mp done
    obtain ⟨rfl, rfl⟩ := Prod.mk.inj (Option.some.inj same)
    refine ⟨follows.proper, fun other notRoot => ?_, fun parent index' inside' same => ?_⟩
    · rw [follows.dirty other notRoot, touchedSinceCommit_append]
      show _ ↔ other ∈ _ ++ []
      rw [List.append_nil]
    · rw [timesListed_append, if_neg (by simp [lists]), Nat.add_zero,
        follows.version parent index' inside' same]
  | commit epoch startPos =>
    obtain ⟨⟨⟨commitment, updates⟩, after⟩, committed, same⟩ := Option.bind_eq_some_iff.mp done
    obtain ⟨rfl, rfl⟩ := Prod.mk.inj (Option.some.inj same)
    exact follows.commit committed

section

variable {versionTree : VersionTree G depths} {forest : Forest G depths}

theorem Represents.step (represents : versionTree.Represents forest) (pp : AMTParams G G₂ depths)
    {op : Op} (allowed : op.Allowed depths) :
    Option.Rel (fun first second => (first.1.Represents second.1 ∧
        first.1.shardNode = versionTree.shardNode) ∧ first.2 = second.2)
      (versionTree.step pp op) (forestStep pp versionTree.shardNode forest op) := by
  cases op with
  | inc key version =>
    refine Option.rel_bind (incKeyVer_refines pp represents key version) ?_
    rintro ⟨verInfo, next⟩ ⟨_, after⟩ ⟨rfl, stands, -, sameShard⟩
    exact Option.Rel.some ⟨⟨stands, sameShard⟩, rfl⟩
  | read name index =>
    obtain ⟨info, next, visited_eq, visited⟩ := represents.visit allowed
    rw [VersionTree.step, forestStep, visited_eq]
    simp only [Option.bind_eq_bind, Option.bind_some]
    by_cases inside : index < 2 ^ depths
    · obtain ⟨index, rfl⟩ : ∃ bounded : Fin (2 ^ depths), bounded.val = index :=
        ⟨⟨index, inside⟩, rfl⟩
      obtain ⟨tree, read, stands⟩ := visited.stands.get index
      have kept := visited.setTree stands ⟨rfl, fun clean => ⟨clean, rfl⟩⟩
      rw [Function.update_eq_self] at kept
      rw [checkIndex_val, read]
      exact Option.Rel.some ⟨⟨kept, visited.sameShard⟩, rfl⟩
    · rw [AMTree.get, show checkIndex depths index = none from dif_neg inside]
      exact Option.Rel.none
  | commit epoch startPos =>
    refine Option.rel_bind (commit_refines pp represents epoch startPos) ?_
    rintro ⟨⟨commitment, updates⟩, next⟩ ⟨_, after⟩ ⟨rfl, stands, sameShard, -⟩
    exact Option.Rel.some ⟨⟨stands, sameShard⟩, rfl⟩

/-- A run that starts on an empty store stands for a forest that the history describes. -/
theorem run_follows (pp : AMTParams G G₂ depths) (shardNode : Option (NodeIndex depths))
    {ops : List Op} (allowed : ∀ op ∈ ops, op.Allowed depths) {opened : VersionTree G depths}
    (isOpened : new DBColumn.empty shardNode = some opened) {outputs : List (Output G)}
    (done : PartialRun.run (step pp) opened ops = some (versionTree, outputs)) :
    ∃ forest, versionTree.Represents forest ∧ versionTree.shardNode = shardNode ∧
      Follows (ops.zip outputs) forest := by
  obtain ⟨opened', isOpened', represents, -, sameShard⟩ := new_represents_empty (G := G) shardNode
  obtain rfl : opened' = opened := Option.some.inj (isOpened'.symm.trans isOpened)
  refine PartialRun.run_invariant_of_forall
    (fun history versionTree => ∃ forest, versionTree.Represents forest ∧
      versionTree.shardNode = shardNode ∧ Follows history forest)
    (Op.Allowed depths) (fun history versionTree op next out allowed invariant stepped => ?_)
    allowed ⟨_, represents, sameShard, follows_empty⟩ done
  obtain ⟨forest, represents, rfl, follows⟩ := invariant
  have simulated := represents.step pp allowed
  rw [stepped] at simulated
  obtain ⟨⟨after, _⟩, forestStepped, ⟨stands, sameShard⟩, rfl⟩ := simulated.of_some_left
  exact ⟨after, stands, sameShard, follows.step allowed forestStepped⟩

end

/-! ### What a commit reports -/

/-- A commit with the given result, after the given history, lists exactly the trees that
changed, descendants first; each item is what the parent holds for the tree afterwards. -/
structure CommitReport (history : History G) (before after : VersionTree G depths)
    (epoch startPos : UInt64) (updates : List (SubTreeUpdate G)) : Prop where
  listed : ∀ name, name ∈ updates.map Prod.fst ↔
    name ≠ .root ∧ ∃ touched ∈ touchedSinceCommit depths history, TreeName.Below name touched
  once : (updates.map Prod.fst).Nodup
  order : (updates.map Prod.fst).Pairwise fun earlier later => ¬ TreeName.Below earlier later
  items : ∀ number name version commitment, updates[number]? = some (name, version, commitment) →
    after.commitmentOf name = some commitment ∧
    version.toNat = 1 + timesListed history name ∧
    ∃ parent index node, name = .child parent index ∧
      after.leafOf parent index.toNat = some node ∧
      node.treeVersion = version ∧
      node.treePosition = ⟨epoch, startPos + UInt64.ofNat number⟩ ∧
      after.subtreeRootOf parent index.toNat = some commitment
  others : ∀ parent index, (TreeName.child parent index).Proper depths →
    .child parent index ∉ updates.map Prod.fst →
      after.commitmentOf (.child parent index) = before.commitmentOf (.child parent index) ∧
      after.leafOf parent index.toNat = before.leafOf parent index.toNat ∧
      after.subtreeRootOf parent index.toNat = before.subtreeRootOf parent index.toNat

omit [Curve G] in
theorem Follows.changed_iff {history : History G} {forest : Forest G depths}
    (follows : Follows history forest) {name : TreeName} (notRoot : name ≠ .root) :
    forest.Changed name ↔
      ∃ touched ∈ touchedSinceCommit depths history, TreeName.Below name touched := by
  have touchedNotRoot : ∀ touched, TreeName.Below name touched → touched ≠ .root := by
    rintro touched below rfl
    exact notRoot (show TreeName.root = name from below).symm
  constructor
  · rintro ⟨touched, dirty, below⟩
    exact ⟨touched, (follows.dirty touched (touchedNotRoot touched below)).mp dirty, below⟩
  · rintro ⟨touched, member, below⟩
    exact ⟨touched, (follows.dirty touched (touchedNotRoot touched below)).mpr member, below⟩

/-- A commit at any point of any run reports exactly the changed trees. -/
theorem commit_reports_changed (pp : AMTParams G G₂ depths) (shardNode : Option (NodeIndex depths))
    {ops : List Op} (allowed : ∀ op ∈ ops, op.Allowed depths)
    {opened before after : VersionTree G depths} {outputs : List (Output G)}
    (isOpened : new DBColumn.empty shardNode = some opened)
    (done : PartialRun.run (step pp) opened ops = some (before, outputs))
    {epoch startPos : UInt64} {commitment : G} {updates : List (SubTreeUpdate G)}
    (committed : before.commit pp epoch startPos = some ((commitment, updates), after)) :
    CommitReport (ops.zip outputs) before after epoch startPos updates := by
  obtain ⟨forest, represents, rfl, follows⟩ := run_follows pp shardNode allowed isOpened done
  have simulated := commit_refines pp represents epoch startPos
  rw [committed] at simulated
  obtain ⟨⟨_, next⟩, forestCommitted, rfl, stands, -⟩ := simulated.of_some_left
  obtain ⟨-, reported⟩ := Forest.commit_reported follows.proper forestCommitted
  have distinct : ∀ name, ((fun _ => TreeName.allIndices depths : TreeName → List UInt32)
      name).Nodup := fun _ => TreeName.allIndices_nodup pp.depths_le
  have proper : ∀ name ∈ updates.map Prod.fst, name.Proper depths := by
    intro name member
    obtain ⟨-, notRoot, touched, dirty, below⟩ := (reported.listed name).mp member
    exact (follows.proper touched dirty).above below
  refine ⟨fun name => ?_, ?_, ?_, fun number name version commitment' found => ?_,
    fun parent index properChild absent => ?_⟩
  · rw [reported.listed]
    constructor
    · rintro ⟨-, notRoot, changed⟩
      exact ⟨notRoot, (follows.changed_iff notRoot).mp changed⟩
    · rintro ⟨notRoot, found⟩
      have changed := (follows.changed_iff notRoot).mpr found
      obtain ⟨touched, dirty, below⟩ := id changed
      exact ⟨TreeName.mem_allNames ((follows.proper touched dirty).above below) notRoot, notRoot,
        changed⟩
  · exact (TreeName.postOrder_nodup distinct _ _).sublist reported.sublist
  · exact (TreeName.postOrder_pairwise distinct _ _).sublist reported.sublist
  · have member : name ∈ updates.map Prod.fst :=
      List.mem_map.mpr ⟨_, List.mem_of_getElem? found, rfl⟩
    cases name with
    | root => exact absurd rfl ((reported.listed _).mp member).2.1
    | child parent index =>
      have properChild := proper _ member
      obtain ⟨sameCommitment, inside, position, sameIndex, numbered, placed, version_eq, position_eq,
        root_eq⟩ := reported.items number parent index version commitment' found
      refine ⟨?_, ?_, parent, index, (next parent).data inside, rfl, ?_, version_eq, ?_, ?_⟩
      · rw [stands.commitmentOf properChild, sameCommitment]
      · rw [toNat_checkedAdd numbered, follows.version parent index inside sameIndex, Nat.add_comm]
        rfl
      · rw [← sameIndex, stands.leafOf properChild.parent]
      · rw [List.length_nil, Nat.zero_add] at placed
        rw [position_eq, eq_add_of_checkedAdd placed]
      · rw [← sameIndex, stands.subtreeRootOf properChild.parent, root_eq]
  · have inside := properChild.valid.1
    obtain ⟨sameCommitment, sameLeaf, sameRoot⟩ :=
      reported.unlisted parent index ⟨_, inside⟩ rfl absent
    refine ⟨?_, ?_, ?_⟩
    · rw [stands.commitmentOf properChild, represents.commitmentOf properChild, sameCommitment]
    · have later := stands.leafOf properChild.parent ⟨_, inside⟩
      have earlier := represents.leafOf properChild.parent ⟨_, inside⟩
      exact later.trans ((congrArg some sameLeaf).trans earlier.symm)
    · have later := stands.subtreeRootOf properChild.parent ⟨_, inside⟩
      have earlier := represents.subtreeRootOf properChild.parent ⟨_, inside⟩
      exact later.trans ((congrArg some sameRoot).trans earlier.symm)

/-- A key of two bytes. -/
def shortKey (first second : UInt8) : Key := ⟨.pair first second⟩

/-- Six keys that start with the same byte: the sixth goes to the second level. -/
def crowdedRun : List Op :=
  [.inc (shortKey 7 0) none, .inc (shortKey 7 1) none, .inc (shortKey 7 2) none,
    .inc (shortKey 7 3) none, .inc (shortKey 7 4) none, .inc (shortKey 7 5) none,
    .commit 0 6, .read (.child .root 7) 5, .inc (shortKey 7 5) (some ⟨1, 1, 0⟩)]

/-- The parameters of the run below. -/
def crowdedParams : AMTParams Fr Fr 8 := AMTParams.eightBits

theorem crowdedRun_allowed : ∀ op ∈ crowdedRun, op.Allowed 8 := by
  have unknown : ∀ key, (Op.inc key none).Allowed 8 := fun _ _ impossible => by cases impossible
  have deep : (TreeName.child .root 7).Proper 8 := ⟨⟨by decide, trivial⟩, by decide⟩
  have known : (Op.inc (shortKey 7 5) (some ⟨1, 1, 0⟩)).Allowed 8 := by
    rintro given ⟨⟩
    decide
  simp only [crowdedRun, List.forall_mem_cons, List.not_mem_nil, IsEmpty.forall_iff, implies_true,
    and_true]
  exact ⟨unknown _, unknown _, unknown _, unknown _, unknown _, unknown _, trivial, deep, known⟩

theorem commit_reports_changed_crowded :
    ∃ opened before after outputs commitment updates,
      new DBColumn.empty (some NodeIndex.root) = some opened ∧
      PartialRun.run (step crowdedParams) opened crowdedRun = some (before, outputs) ∧
      before.commit crowdedParams 1 1 = some ((commitment, updates), after) ∧
      CommitReport (crowdedRun.zip outputs) before after 1 1 updates := by
  obtain ⟨⟨opened, ⟨before, outputs⟩, ⟨commitment, updates⟩, after⟩, done⟩ : ∃ result,
      ((new DBColumn.empty (some NodeIndex.root)).bind fun opened =>
        (PartialRun.run (step crowdedParams) opened crowdedRun).bind fun ran =>
          (ran.1.commit crowdedParams 1 1).map fun committed => (opened, ran, committed)) =
        some result := Option.isSome_iff_exists.mp (by decide +kernel)
  obtain ⟨opened, isOpened, done⟩ := Option.bind_eq_some_iff.mp done
  obtain ⟨ran, isRan, done⟩ := Option.bind_eq_some_iff.mp done
  obtain ⟨committed, isCommitted, same⟩ := Option.map_eq_some_iff.mp done
  simp only [Prod.mk.injEq] at same
  obtain ⟨rfl, rfl, rfl⟩ := same
  exact ⟨_, _, _, _, _, _, isOpened, isRan, isCommitted,
    commit_reports_changed crowdedParams _ crowdedRun_allowed isOpened isRan isCommitted⟩

end VersionTree

end AuthStorage.Lvmt
