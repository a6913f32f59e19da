/-
This file is about the ends of a version tree's life: opening it over a store and
flushing it. Once nothing but the root tree is dirty, flushing the root puts
everything into the store, and a version tree opened there stands for the same
forest.
-/

import AuthStorage.Lvmt.ForestCommit

namespace AuthStorage.Lvmt

namespace VersionTree

variable {G G₂ : Type} {depths : Nat} [Curve G] {versionTree : VersionTree G depths}
  {forest : Forest G depths}

/-! ### Opening -/

/-- A store that holds every tree of a forest can be opened. -/
theorem new_represents {db : DBColumn} (shardNode : Option (NodeIndex depths))
    (root : rootCommitment db = some (forest .root).commitment)
    (holds : ((AMTree.new TreeName.root (Forest.shardRoot shardNode .root)).setCommitment
      (forest .root).commitment).Represents db .root (Forest.shardRoot shardNode .root)
        (forest .root))
    (stored : Stored db shardNode forest)
    (clean : ∀ name, name ≠ .root → (forest name).dirty = false) (linked : forest.Linked) :
    ∃ opened : VersionTree G depths, new db shardNode = some opened ∧
      opened.Represents forest ∧ opened.db = db ∧ opened.shardNode = shardNode := by
  have onlyRoot : ∀ {name : TreeName} {info root : TreeWithInfo G depths},
      Function.update (fun _ => none) TreeName.root (some root) name = some info →
        name = .root ∧ info = root := by
    intro name info root inForest
    by_cases isRoot : name = .root
    · subst isRoot
      rw [Function.update_self] at inForest
      exact ⟨rfl, (Option.some.inj inForest).symm⟩
    · rw [Function.update_of_ne isRoot] at inForest
      cases inForest
  let rootTree : TreeWithInfo G depths :=
    ⟨(AMTree.new TreeName.root (Forest.shardRoot shardNode .root)).setCommitment
      (forest .root).commitment, true, []⟩
  have done : new db shardNode = some (VersionTree.mk db
      (Function.update (fun _ => none) .root (some rootTree)) 1 shardNode) := by
    show (rootCommitment db).bind _ = _
    rw [root, newTree, shardRootOf_eq shardNode (TreeName.proper_root depths).valid]
    rfl
  refine ⟨_, done, ⟨⟨?_, ?_, ?_, ?_, ?_, ?_, ?_, ?_, ?_, ?_, ?_⟩, linked⟩, rfl, rfl⟩
  · intro name info inForest
    obtain ⟨rfl, -⟩ := onlyRoot inForest
    exact TreeName.proper_root depths
  · intro name info inForest
    obtain ⟨rfl, rfl⟩ := onlyRoot inForest
    exact holds
  · intro name info inForest _
    obtain ⟨-, rfl⟩ := onlyRoot inForest
    exact Option.some_ne_none _
  · intro name notInForest proper
    have notRoot : name ≠ .root := by
      rintro rfl
      dsimp only at notInForest
      rw [Function.update_self] at notInForest
      cases notInForest
    exact stored name proper notRoot (clean name notRoot)
  · refine ⟨rootTree, ?_, Option.some_ne_none _⟩
    dsimp only
    rw [Function.update_self]
  · intro parent index info inForest
    dsimp only at inForest
    obtain ⟨impossible, -⟩ := onlyRoot inForest
    cases impossible
  · intro name info index inForest member
    obtain ⟨-, rfl⟩ := onlyRoot inForest
    cases member
  · intro name info inForest
    obtain ⟨-, rfl⟩ := onlyRoot inForest
    exact List.nodup_nil
  · intro parent index dirty
    rw [clean _ (by simp)] at dirty
    cases dirty
  · intro name info inForest
    obtain ⟨rfl, -⟩ := onlyRoot inForest
    exact Nat.zero_lt_one
  · exact (by norm_num : 1 ≤ 256)

theorem stored_empty (shardNode : Option (NodeIndex depths)) :
    Stored DBColumn.empty shardNode (Forest.empty : Forest G depths) :=
  fun _ _ _ _ => AMTree.represents_new fun _ _ => rfl

theorem new_represents_empty (shardNode : Option (NodeIndex depths)) :
    ∃ opened : VersionTree G depths, new DBColumn.empty shardNode = some opened ∧
      opened.Represents Forest.empty ∧ opened.db = DBColumn.empty ∧
      opened.shardNode = shardNode :=
  new_represents shardNode rfl (AMTree.represents_new fun _ _ => rfl) (stored_empty shardNode)
    (fun _ _ => rfl) Forest.linked_empty

/-! ### Flushing -/

/-- The root tree may be replaced together with its part of the store. -/
theorem Represents.setRoot (represents : versionTree.Represents forest)
    {info : TreeWithInfo G depths} (inForest : versionTree.forest .root = some info)
    {db : DBColumn}
    (elsewhere : ∀ name, name ≠ TreeName.root → name.Proper depths →
      ∀ key, AMTree.OwnsKey depths name key → db key = versionTree.db key)
    {tree : AMTree TreeName Node G depths} {view : AMTView Node G depths}
    (holds : tree.Represents db .root (Forest.shardRoot versionTree.shardNode .root) view)
    (roots : view.subtreeRoots = (forest .root).subtreeRoots) :
    ({ versionTree with db }.setTree .root info tree).Represents
      (Function.update forest .root view) := by
  have known : tree.commitment ≠ none := by
    rw [holds.commitment]
    exact Option.some_ne_none _
  have linked : Forest.Linked (Function.update forest .root view) := by
    intro parent index inside proper clean
    rw [Function.update_of_ne (by simp)] at clean ⊢
    rw [represents.linked inside proper clean]
    by_cases isRoot : parent = .root
    · rw [isRoot, Function.update_self, roots]
    · rw [Function.update_of_ne isRoot]
  refine ⟨represents.insertOver .root { info with tree } view (fun _ => False) elsewhere
    (TreeName.proper_root depths) (represents.layered inForest) ?_ (fun _ => known)
    (fun _ _ _ => not_false) (fun _ _ same => by cases same)
    (fun index child childInForest isMarked _ => ?_)
    (fun _ member => represents.children inForest member)
    (represents.distinct inForest : info.childrenMarks.Nodup)
    (fun notRoot => absurd rfl notRoot), linked⟩
  · rw [AMTree.setCommitment_of_ne_none known]
    exact holds
  · obtain ⟨above, aboveInForest, member, -⟩ :=
      represents.marked childInForest isMarked not_false
    obtain rfl := Option.some.inj (inForest.symm.trans aboveInForest)
    exact ⟨member, Or.inl rfl⟩

/-- Flushing the root clears its dirty flag. A version tree opened over the store afterwards
stands for the same forest if no other tree was dirty. -/
theorem flushAll_refines (le : depths ≤ 28) (represents : versionTree.Represents forest)
    (stored : Stored versionTree.db versionTree.shardNode forest) :
    ∃ next, versionTree.flushAll = some next ∧
      next.Represents (Function.update forest .root (forest .root).clean) ∧
      next.shardNode = versionTree.shardNode ∧
      Stored next.db versionTree.shardNode
        (Function.update forest .root (forest .root).clean) ∧
      ((∀ name, name ≠ .root → (forest name).dirty = false) →
        ∃ reopened, new next.db versionTree.shardNode = some reopened ∧
          reopened.Represents (Function.update forest .root (forest .root).clean) ∧
          reopened.db = next.db ∧ reopened.shardNode = versionTree.shardNode) := by
  have lawfulArray := lawfulLayout_fin (le_trans le (by norm_num : 28 ≤ 32))
  have lawfulTree := lawfulLayout_nodeIndex (le_trans le (by norm_num : 28 ≤ 31))
  obtain ⟨info, next, visited_eq, visited⟩ := represents.visit (TreeName.proper_root depths)
  obtain ⟨db, flushed, flushedHolds, outside⟩ := visited.stands.flush
  set store := db.writeBuffered [.insert ROOT_KEY (toBytesLocal (forest .root).commitment)]
  have written : ∀ key, key ≠ ROOT_KEY → store key = db key := by
    intro key other
    refine DBColumn.writeBuffered_of_notMem _ _ fun op member => ?_
    rw [List.mem_singleton.mp member]
    exact other.symm
  have elsewhere : ∀ name, name ≠ TreeName.root → name.Proper depths →
      ∀ key, AMTree.OwnsKey depths name key → store key = next.db key := by
    intro name notRoot proper key owns
    rw [written key owns.ne_rootKey]
    exact outside key fun owns' =>
      notRoot (owns.name_eq proper.short (TreeName.proper_root depths).short owns')
  have rootHolds := flushedHolds.frame fun key owns => written key owns.ne_rootKey
  have rootHolds' := rootHolds
  rw [← visited.sameShard] at rootHolds'
  have nextStored : Stored store versionTree.shardNode
      (Function.update forest .root (forest .root).clean) := by
    intro name proper notRoot clean
    rw [Function.update_of_ne notRoot] at clean ⊢
    refine (stored name proper notRoot clean).frame fun key owns => ?_
    rw [elsewhere name notRoot proper key owns, visited.sameDb]
  have after := visited.represents.setRoot visited.inForest elsewhere rootHolds' rfl
  refine ⟨_, ?_, after, visited.sameShard, nextStored, fun clean => ?_⟩
  · simp only [flushAll, visited_eq, Option.bind_eq_bind, Option.bind_some, flushed]
    rw [visited.sameShard]
    rfl
  · refine new_represents versionTree.shardNode ?_ ?_ nextStored (fun name notRoot => ?_)
      after.linked
    · have root : store ROOT_KEY = some (toBytesLocal (forest .root).commitment) :=
        DBColumn.writeBuffered_of_mem db _ (List.nodup_singleton _) (List.mem_singleton_self _)
      show rootCommitment store = _
      rw [rootCommitment, root, Function.update_self]
      exact fromBytesLocal_toBytesLocal _
    · rw [Function.update_self]
      exact rootHolds
    · rw [Function.update_of_ne notRoot]
      exact clean name notRoot

end VersionTree

end AuthStorage.Lvmt
