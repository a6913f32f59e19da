/-
This file is about stores that keep a short history of competing blocks and settle
it era by era. A block inserts some keys and removes some; the store keeps every
key a journalled block inserts, and when an era is settled it keeps the insertions
of the chosen block, forgets the other blocks, and drops what the chosen block
removes unless a journalled block still inserts it. What is live along the settled
blocks is then never lost, and where no block was passed over nothing is left over.
-/

import Mathlib.Data.Set.Basic
import Mathlib.Tactic

/-- The net count of every key: inserted more often than removed, or the other way round. -/
structure Block (Key Name : Type) where
  name : Name
  net : Key → Int

namespace Block

variable {Key Name : Type}

/-- The block adds more references to the key than it takes away. -/
def Inserts (block : Block Key Name) (key : Key) : Prop := 0 < block.net key

/-- The block takes away more references to the key than it adds. -/
def Removes (block : Block Key Name) (key : Key) : Prop := block.net key < 0

theorem not_removes_of_inserts {block : Block Key Name} {key : Key} (inserts : block.Inserts key) :
    ¬ block.Removes key := not_lt_of_gt inserts

/-- The live keys after a block. -/
def apply (live : Set Key) (block : Block Key Name) : Set Key :=
  {key | block.Inserts key ∨ key ∈ live ∧ ¬ block.Removes key}

end Block

/-- What has been written since the last block, the blocks that are not settled, the keys that are
kept for good, and the latest era that ever had a block. -/
structure BlockHistory (Key Name Era : Type) where
  net : Key → Int
  blocks : Era → List (Block Key Name)
  stored : Set Key
  latest : Option Era

namespace BlockHistory

variable {Key Name Era : Type} {history : BlockHistory Key Name Era}

/-- No block, and nothing stored. -/
def empty : BlockHistory Key Name Era := ⟨fun _ => 0, fun _ => [], ∅, none⟩

/-- A journalled block inserts the key. -/
def Pending (history : BlockHistory Key Name Era) (key : Key) : Prop :=
  ∃ era, ∃ block ∈ history.blocks era, block.Inserts key

/-- A read of the key finds it: it is inserted and not yet in a block, in a block that is not
settled, or stored. -/
def Readable (history : BlockHistory Key Name Era) (key : Key) : Prop :=
  0 < history.net key ∨ history.Pending key ∨ key ∈ history.stored

/-- The blocks of an era that are settled as canonical. -/
def chosen [DecidableEq Name] (history : BlockHistory Key Name Era) (era : Era) (name : Name) :
    List (Block Key Name) :=
  (history.blocks era).filter fun block => block.name = name

/-- The later of two eras, if there is a first one. -/
def laterOf [LT Era] [DecidableLT Era] (latest : Option Era) (era : Era) : Option Era :=
  if ∀ old ∈ latest, old < era then some era else latest

/-- Eras with blocks are not after the latest era. -/
def Bounded [LE Era] (history : BlockHistory Key Name Era) : Prop :=
  ∀ era, history.blocks era ≠ [] → ∃ latest ∈ history.latest, era ≤ latest

/-- No era from one with blocks up to the latest era, which is included, is without blocks. -/
def Unbroken [LE Era] (history : BlockHistory Key Name Era) : Prop :=
  ∀ latest ∈ history.latest, ∀ era, history.blocks era ≠ [] →
    ∀ between, era ≤ between → between ≤ latest → history.blocks between ≠ []

variable [DecidableEq Era]

/-- Journal what has been written as a block. -/
def journal [LT Era] [DecidableLT Era] (history : BlockHistory Key Name Era) (era : Era)
    (name : Name) : BlockHistory Key Name Era where
  net _ := 0
  blocks := Function.update history.blocks era (history.blocks era ++ [⟨name, history.net⟩])
  stored := history.stored
  latest := laterOf history.latest era

/-- Forget the blocks of an era. -/
def release (history : BlockHistory Key Name Era) (era : Era) : BlockHistory Key Name Era :=
  { history with blocks := Function.update history.blocks era [] }

/-- Settle an era: of several blocks of one name, only the last one's removals count. -/
def settle [DecidableEq Name] (history : BlockHistory Key Name Era) (era : Era) (name : Name) :
    BlockHistory Key Name Era :=
  { history.release era with
    stored := {key |
      (key ∈ history.stored ∨ ∃ block ∈ history.chosen era name, block.Inserts key) ∧
        ¬ ((∃ block, (history.chosen era name).getLast? = some block ∧ block.Removes key) ∧
          ¬ (history.release era).Pending key)} }

/-- Lose what has not been journalled. -/
def reopen (history : BlockHistory Key Name Era) : BlockHistory Key Name Era :=
  { history with net := fun _ => 0 }

theorem blocks_release_self (era : Era) : (history.release era).blocks era = [] :=
  Function.update_self _ _ _

theorem blocks_release_ne {era other : Era} (apart : other ≠ era) :
    (history.release era).blocks other = history.blocks other :=
  Function.update_of_ne apart _ _

section Journal

variable [LT Era] [DecidableLT Era]

theorem blocks_journal_self (era : Era) (name : Name) :
    (history.journal era name).blocks era = history.blocks era ++ [⟨name, history.net⟩] :=
  Function.update_self _ _ _

theorem blocks_journal_ne {era other : Era} (name : Name) (apart : other ≠ era) :
    (history.journal era name).blocks other = history.blocks other :=
  Function.update_of_ne apart _ _

end Journal

/-! ### Pending keys -/

omit [DecidableEq Era] in
theorem pending_of_mem {era : Era} {block : Block Key Name} {key : Key}
    (member : block ∈ history.blocks era) (inserts : block.Inserts key) : history.Pending key :=
  ⟨era, block, member, inserts⟩

theorem pending_journal [LT Era] [DecidableLT Era] {era : Era} {name : Name} {key : Key} :
    (history.journal era name).Pending key ↔ 0 < history.net key ∨ history.Pending key := by
  constructor
  · rintro ⟨other, block, member, inserts⟩
    by_cases same : other = era
    · subst same
      rw [blocks_journal_self, List.mem_append, List.mem_singleton] at member
      rcases member with old | rfl
      · exact Or.inr (pending_of_mem old inserts)
      · exact Or.inl inserts
    · rw [blocks_journal_ne name same] at member
      exact Or.inr (pending_of_mem member inserts)
  · rintro (positive | ⟨other, block, member, inserts⟩)
    · refine ⟨era, ⟨name, history.net⟩, ?_, positive⟩
      rw [blocks_journal_self]
      exact List.mem_append_right _ (List.mem_singleton_self _)
    · refine ⟨other, block, ?_, inserts⟩
      by_cases same : other = era
      · subst same
        rw [blocks_journal_self]
        exact List.mem_append_left _ member
      · rw [blocks_journal_ne name same]
        exact member

/-- A pending key is inserted by a block of the era, or stays pending without the era. -/
theorem pending_cases (era : Era) {key : Key} (pending : history.Pending key) :
    (∃ block ∈ history.blocks era, block.Inserts key) ∨ (history.release era).Pending key := by
  obtain ⟨other, block, member, inserts⟩ := pending
  by_cases same : other = era
  · subst same
    exact Or.inl ⟨block, member, inserts⟩
  · refine Or.inr ⟨other, block, ?_, inserts⟩
    rw [blocks_release_ne same]
    exact member

/-! ### Eras -/

section Eras

variable [LE Era] [LT Era] [DecidableLT Era] [Std.IsLinearOrder Era] [Std.LawfulOrderLT Era]

omit [DecidableEq Era] in
theorem le_laterOf {latest : Option Era} {era other : Era}
    (below : other = era ∨ ∃ old ∈ latest, other ≤ old) :
    ∃ newest ∈ laterOf latest era, other ≤ newest := by
  rw [laterOf]
  split
  · next later =>
    refine ⟨era, rfl, ?_⟩
    rcases below with rfl | ⟨old, known, less⟩
    · exact Std.le_refl _
    · exact Std.le_trans less (Std.le_of_lt (later old known))
  · next earlier =>
    rcases below with rfl | found
    · obtain ⟨old, notLater⟩ := not_forall.mp earlier
      obtain ⟨known, notLess⟩ := Classical.not_imp.mp notLater
      exact ⟨old, known, Std.not_lt.mp notLess⟩
    · exact found

theorem Bounded.journal (bounded : history.Bounded) (era : Era) (name : Name) :
    (history.journal era name).Bounded := by
  intro other nonempty
  by_cases same : other = era
  · exact le_laterOf (Or.inl same)
  · rw [blocks_journal_ne name same] at nonempty
    exact le_laterOf (Or.inr (bounded other nonempty))

omit [LT Era] [DecidableLT Era] [Std.IsLinearOrder Era] [Std.LawfulOrderLT Era] in
theorem Bounded.settle [DecidableEq Name] (bounded : history.Bounded) (era : Era) (name : Name) :
    (history.settle era name).Bounded := by
  intro other nonempty
  by_cases same : other = era
  · rw [same] at nonempty
    exact absurd (blocks_release_self era) nonempty
  · have kept : (history.settle era name).blocks other = history.blocks other :=
      blocks_release_ne same
    rw [kept] at nonempty
    exact bounded other nonempty

end Eras

/-! ### Nothing live is lost -/

section Settle

variable [DecidableEq Name]

/-- The live keys once an era is settled, if at most one block of the era has the name. -/
def liveAfter (history : BlockHistory Key Name Era) (live : Set Key) (era : Era) (name : Name) :
    Set Key :=
  (history.chosen era name).foldl Block.apply live

omit [DecidableEq Era] in
theorem liveAfter_of_none {live : Set Key} {era : Era} {name : Name}
    (none : history.chosen era name = []) : history.liveAfter live era name = live := by
  rw [liveAfter, none, List.foldl_nil]

omit [DecidableEq Era] in
theorem liveAfter_of_one {live : Set Key} {era : Era} {name : Name} {block : Block Key Name}
    (one : history.chosen era name = [block]) :
    history.liveAfter live era name = block.apply live := by
  rw [liveAfter, one, List.foldl_cons, List.foldl_nil]

/-- What is live along the settled blocks is stored. -/
theorem live_subset_settle {live : Set Key} {era : Era} {name : Name}
    (single : (history.chosen era name).length ≤ 1) (kept : live ⊆ history.stored) :
    history.liveAfter live era name ⊆ (history.settle era name).stored := by
  intro key member
  cases found : history.chosen era name with
  | nil =>
    rw [liveAfter_of_none found] at member
    refine ⟨Or.inl (kept member), ?_⟩
    rw [found]
    rintro ⟨⟨block, last, -⟩, -⟩
    cases last
  | cons block rest =>
    rw [found, List.length_cons] at single
    obtain rfl := List.length_eq_zero_iff.mp (Nat.le_zero.mp (Nat.le_of_succ_le_succ single))
    rw [liveAfter_of_one found] at member
    refine ⟨?_, ?_⟩
    · rcases member with inserts | ⟨old, -⟩
      · exact Or.inr ⟨block, by rw [found]; exact List.mem_singleton_self _, inserts⟩
      · exact Or.inl (kept old)
    · rw [found]
      rintro ⟨⟨other, last, removes⟩, -⟩
      rw [List.getLast?_singleton, Option.some.injEq] at last
      subst last
      rcases member with inserts | ⟨-, stays⟩
      · exact Block.not_removes_of_inserts inserts removes
      · exact stays removes

omit [DecidableEq Era] [DecidableEq Name] in
/-- What is live after any selection of the journalled blocks can be read. -/
theorem readable_of_live {live : Set Key} (kept : live ⊆ history.stored)
    {chain : List (Block Key Name)} (journalled : ∀ block ∈ chain, ∃ era, block ∈ history.blocks era)
    {key : Key} (member : key ∈ chain.foldl Block.apply live) : history.Readable key := by
  induction chain using List.reverseRecOn with
  | nil => exact Or.inr (Or.inr (kept member))
  | append_singleton front block inductionHypothesis =>
    rw [List.foldl_append, List.foldl_cons, List.foldl_nil] at member
    rcases member with inserts | ⟨old, -⟩
    · obtain ⟨era, inside⟩ := journalled block (List.mem_append_right _ (List.mem_singleton_self _))
      exact Or.inr (Or.inl (pending_of_mem inside inserts))
    · exact inductionHypothesis
        (fun other inside => journalled other (List.mem_append_left _ inside)) old

/-! ### Nothing is left over -/

/-- What is stored is live, or is about to be inserted again. -/
def Tight (history : BlockHistory Key Name Era) (live : Set Key) : Prop :=
  ∀ key ∈ history.stored, key ∈ live ∨ history.Pending key

/-- An era that is settled as a whole leaves nothing over. -/
theorem Tight.settle {live : Set Key} {era : Era} {name : Name} (tight : history.Tight live)
    (whole : ∀ block ∈ history.blocks era, block.name = name)
    (single : (history.blocks era).length ≤ 1) :
    (history.settle era name).Tight (history.liveAfter live era name) := by
  have all : history.chosen era name = history.blocks era :=
    List.filter_eq_self.mpr fun block member => decide_eq_true (whole block member)
  have pendingAfter : ∀ key, (history.settle era name).Pending key ↔
      (history.release era).Pending key := fun key => Iff.rfl
  intro key member
  obtain ⟨entered, stays⟩ := member
  rw [pendingAfter]
  by_cases later : (history.release era).Pending key
  · exact Or.inr later
  refine Or.inl ?_
  have unremoved : ∀ block, (history.chosen era name).getLast? = some block →
      ¬ block.Removes key := fun block last removes => stays ⟨⟨block, last, removes⟩, later⟩
  have before : key ∈ live ∨ ∃ block ∈ history.blocks era, block.Inserts key := by
    rcases entered with old | inserted
    · rcases tight key old with isLive | pending
      · exact Or.inl isLive
      · exact Or.inr ((pending_cases era pending).resolve_right later)
    · rw [all] at inserted
      exact Or.inr inserted
  cases found : history.blocks era with
  | nil =>
    rw [liveAfter_of_none (all.trans found)]
    refine before.resolve_right ?_
    rintro ⟨block, inside, -⟩
    rw [found] at inside
    cases inside
  | cons block rest =>
    rw [found, List.length_cons] at single
    obtain rfl := List.length_eq_zero_iff.mp (Nat.le_zero.mp (Nat.le_of_succ_le_succ single))
    rw [liveAfter_of_one (all.trans found)]
    rcases before with isLive | ⟨other, inside, inserts⟩
    · refine Or.inr ⟨isLive, unremoved block ?_⟩
      rw [all, found, List.getLast?_singleton]
    · rw [found, List.mem_singleton] at inside
      subst inside
      exact Or.inl inserts

omit [DecidableEq Era] [DecidableEq Name] in
/-- With nothing journalled, exactly the live keys are stored. -/
theorem Tight.stored_eq {live : Set Key} (tight : history.Tight live) (kept : live ⊆ history.stored)
    (settled : ∀ era, history.blocks era = []) : history.stored = live := by
  refine Set.Subset.antisymm (fun key member => ?_) kept
  refine (tight key member).resolve_right ?_
  rintro ⟨era, block, inside, -⟩
  rw [settled era] at inside
  cases inside

end Settle

end BlockHistory
