/-
This file is about whole runs of an `OverlayRecentDB`: writes, reads, commits that
journal at most one block and settle any eras in any order, and openings. A commit
is one step, as the callers make it: the batch is written and the database flushed
before anything else is done, so nothing is read while nodes are pending. The
answers of a run are those of the block history. No node that is live along the
settled blocks, or after any unsettled blocks on top of them, is ever lost; and
where no block is passed over, what is on disk in the end is what is live.
-/

import AuthStorage.ParityJournaldb.RecentReopen

namespace AuthStorage.ParityJournaldb

open AuthStorage.Lvmt (Bytes DBColumn DBOp)

/-! ### Runs -/

/-- What a client does. A commit journals the block, marks the eras canonical, writes the batch and
flushes, all in one. -/
inductive JournalOp
  | write (op : HashOp)
  | get (key : H256)
  | commit (block : Option (UInt64 × H256)) (canonical : List (UInt64 × H256))
  | reopen

/-- The answers to reads, in order, and what is left. -/
structure Outcome (State : Type) where
  answers : List (Option DBValue)
  state : State

namespace OverlayRecentDB

/-- What the system answers to an operation and the system after it. It panics only on a journal
that cannot be read. -/
def step (hash : Bytes → H256) (walk : Walk H256 (DBValue × Int)) (fuel : Nat)
    (system : OverlayRecentDB × DBColumn) : JournalOp → Option (Outcome (OverlayRecentDB × DBColumn))
  | .write op => some ⟨[], system.1.write hash op, system.2⟩
  | .get key => some ⟨[(system.1.get system.2 key).1], (system.1.get system.2 key).2, system.2⟩
  | .commit block canonical => some ⟨[], system.1.commit walk system.2 block canonical⟩
  | .reopen => (new hash fuel system.2).map fun jdb => ⟨[], jdb, system.2⟩

/-- The answers of a run, and the system after it. -/
def run (hash : Bytes → H256) (walk : Walk H256 (DBValue × Int)) (fuel : Nat)
    (system : OverlayRecentDB × DBColumn) :
    List JournalOp → Option (Outcome (OverlayRecentDB × DBColumn))
  | [] => some ⟨[], system⟩
  | op :: ops =>
    (step hash walk fuel system op).bind fun first =>
      (run hash walk fuel first.state ops).map fun rest =>
        ⟨first.answers ++ rest.answers, rest.state⟩

/-- A new database over an empty column. -/
def start (hash : Bytes → H256) : OverlayRecentDB × DBColumn :=
  (⟨newMemoryDb hash, .new hash, ∅⟩, DBColumn.empty)

end OverlayRecentDB

/-! ### The histories of runs -/

/-- The blocks of the history period, by eras, with the hashes of blocks and of nodes. -/
abbrev History := BlockHistory H256 H256 UInt64

/-- The history once a commit has journalled its block. -/
def journalBlock (history : History) : Option (UInt64 × H256) → History
  | none => history
  | some (now, id) => history.journal now id

/-- Each of the blocks is settled in turn. -/
def settleAll (history : History) (canonical : List (UInt64 × H256)) : History :=
  canonical.foldl (fun history mark => history.settle mark.1 mark.2) history

/-- What the history answers to an operation, and the history after it. -/
noncomputable def historyStep (hash : Bytes → H256) (content : H256 → DBValue) (history : History) :
    JournalOp → Outcome History
  | .write op => ⟨[], { history with net := op.effect hash history.net }⟩
  | .get key => ⟨[answer hash content history key], history⟩
  | .commit block canonical => ⟨[], settleAll (journalBlock history block) canonical⟩
  | .reopen => ⟨[], history.reopen⟩

/-- The answers of the history over a run. -/
noncomputable def historyRun (hash : Bytes → H256) (content : H256 → DBValue) (history : History) :
    List JournalOp → Outcome History
  | [] => ⟨[], history⟩
  | op :: ops =>
    let first := historyStep hash content history op
    let rest := historyRun hash content first.state ops
    ⟨first.answers ++ rest.answers, rest.state⟩

/-- What the database relies on: values belong to their keys, keys are nodes in use, and a
database is opened only while no era is passed over. -/
def Meets (hash : Bytes → H256) (content : H256 → DBValue) (used : Set H256) (history : History) :
    JournalOp → Prop
  | .write op =>
    op.Addressed hash content ∧ (op.key hash ∈ used ∨ op.key hash = hash NULL_RLP)
  | .get key => key ∈ used ∨ key = hash NULL_RLP
  | .commit _ _ => True
  | .reopen => history.Unbroken

/-- A condition on every operation of a run, in the history before it. -/
def Along (hash : Bytes → H256) (content : H256 → DBValue) (condition : History → JournalOp → Prop)
    (history : History) : List JournalOp → Prop
  | [] => True
  | op :: ops =>
    condition history op ∧ Along hash content condition (historyStep hash content history op).state ops

variable {hash : Bytes → H256} {content : H256 → DBValue} {used : Set H256}
  {jdb : OverlayRecentDB} {db : DBColumn} {history : History}

/-! ### Commits -/

/-- What the read cache remembers is on disk. -/
def CacheAgrees (jdb : OverlayRecentDB) (db : DBColumn) : Prop :=
  ∀ key found, jdb.readCache.lookup key = some found → found = db key.asBytes

theorem cacheAgrees_journalUnder (walk : Walk H256 (DBValue × Int)) (now : UInt64) (id : H256)
    (bound : blockCount jdb.journalOverlay.journal + 1 < 2 ^ 31) (agrees : CacheAgrees jdb db) :
    CacheAgrees (jdb.journalUnder walk now id).1
      (db.writeBuffered (jdb.journalUnder walk now id).2.1) := by
  intro key found stored
  have few := length_records_le jdb.journalOverlay now
  have small : (jdb.journalOverlay.records now).length < 2 ^ 64 := by omega
  refine (agrees key found stored).trans ?_
  exact (writeBuffered_putEntry_node db _ _ _ small key).symm

theorem cacheAgrees_markCanonical (endEra : UInt64) (canonId : H256) (db : DBColumn) :
    CacheAgrees (jdb.markCanonical endEra canonId).1 db := by
  intro key found stored
  rw [(jdb.markCanonical_eq endEra canonId).1] at stored
  cases (AList.lookup_empty key).symm.trans stored

/-- Settling several eras in one batch is settling them one after the other. -/
theorem stands_markAll (keyed : Keyed hash content used) {batch : List DBOp}
    (stands : Stands hash content used jdb (db.writeBuffered batch) history)
    (agrees : CacheAgrees jdb (db.writeBuffered batch))
    (bound : blockCount jdb.journalOverlay.journal < 2 ^ 31) (canonical : List (UInt64 × H256)) :
    let marked := OverlayRecentDB.markAll (jdb, batch) canonical
    Stands hash content used marked.1 (db.writeBuffered marked.2) (settleAll history canonical) ∧
      CacheAgrees marked.1 (db.writeBuffered marked.2) ∧
      blockCount marked.1.journalOverlay.journal ≤ blockCount jdb.journalOverlay.journal := by
  induction canonical generalizing jdb batch history with
  | nil => exact ⟨stands, agrees, le_rfl⟩
  | cons mark canonical inductionHypothesis =>
    obtain ⟨settled, fewer⟩ := stands.markCanonical keyed mark.1 mark.2 bound
    rw [← writeBuffered_append] at settled
    obtain ⟨after, agreesAfter, less⟩ := inductionHypothesis settled
      (cacheAgrees_markCanonical mark.1 mark.2 _) (by omega)
    exact ⟨after, agreesAfter, less.trans fewer⟩

theorem Stands.commit (keyed : Keyed hash content used)
    (stands : Stands hash content used jdb db history) (coherent : Coherent jdb db)
    (walk : Walk H256 (DBValue × Int)) (block : Option (UInt64 × H256))
    (canonical : List (UInt64 × H256))
    (bound : blockCount jdb.journalOverlay.journal + 1 < 2 ^ 31) :
    let result := jdb.commit walk db block canonical
    Stands hash content used result.1 result.2 (settleAll (journalBlock history block) canonical) ∧
      Coherent result.1 result.2 ∧
      blockCount result.1.journalOverlay.journal ≤ blockCount jdb.journalOverlay.journal + 1 := by
  have flushed : ∀ {marked : OverlayRecentDB} {written : DBColumn} {after : History},
      Stands hash content used marked written after → CacheAgrees marked written →
        Stands hash content used marked.flush written after ∧ Coherent marked.flush written :=
    fun holds agrees => ⟨⟨holds.known, holds.written, holds.uses,
      holds.memory.congr rfl rfl rfl,
      ⟨holds.disk.node, holds.disk.noNode, holds.disk.entry, holds.disk.latest⟩, holds.latest,
      holds.bounded, holds.kept⟩, rfl, agrees⟩
  cases block with
  | none =>
    have unwritten : Stands hash content used jdb (db.writeBuffered []) history := stands
    obtain ⟨after, agrees, fewer⟩ := stands_markAll keyed unwritten coherent.cache (by omega)
      canonical
    exact ⟨(flushed after agrees).1, (flushed after agrees).2, fewer.trans (Nat.le_succ _)⟩
  | some block =>
    obtain ⟨journalled, more⟩ := stands.journalUnder keyed walk block.1 block.2 bound
    obtain ⟨after, agrees, fewer⟩ := stands_markAll keyed journalled
      (cacheAgrees_journalUnder walk block.1 block.2 bound coherent.cache) (by omega)
      canonical
    exact ⟨(flushed after agrees).1, (flushed after agrees).2, fewer.trans (le_of_eq more)⟩

/-! ### The answers of a run -/

/-- The invariant of runs, with what keeps the counts from overflowing. -/
structure Running (hash : Bytes → H256) (content : H256 → DBValue) (used : Set H256)
    (system : OverlayRecentDB × DBColumn) (history : History) (steps : Nat) : Prop where
  stands : Stands hash content used system.1 system.2 history
  coherent : Coherent system.1 system.2
  within : Within history.net steps
  few : blockCount system.1.journalOverlay.journal ≤ steps

theorem running_start (hash : Bytes → H256) (content : H256 → DBValue) (used : Set H256) :
    Running hash content used (OverlayRecentDB.start hash) .empty 0 where
  stands := stands_new hash content used
  coherent := ⟨rfl, fun key _ stored => by cases (AList.lookup_empty key).symm.trans stored⟩
  within _ := ⟨le_rfl, le_rfl⟩
  few := le_rfl

theorem within_settleAll {limit : Nat} (within : Within history.net limit)
    (canonical : List (UInt64 × H256)) : Within (settleAll history canonical).net limit := by
  induction canonical generalizing history with
  | nil => exact within
  | cons mark canonical inductionHypothesis =>
    have settled : Within (history.settle mark.1 mark.2).net limit := within
    exact inductionHypothesis settled

theorem Within.mono {net : H256 → Int} {limit more : Nat} (within : Within net limit)
    (less : limit ≤ more) : Within net more := fun key => by
  have both := within key
  constructor <;> omega

theorem within_zero (limit : Nat) : Within (fun _ => 0) limit :=
  fun _ => ⟨neg_nonpos.mpr (Int.natCast_nonneg limit), Int.natCast_nonneg limit⟩

theorem within_journalBlock {limit : Nat} (within : Within history.net limit)
    (block : Option (UInt64 × H256)) : Within (journalBlock history block).net limit := by
  cases block with
  | none => exact within
  | some block => exact within_zero limit

/-- One operation answers as the history does. -/
theorem Running.step (keyed : Keyed hash content used) (walk : Walk H256 (DBValue × Int))
    {fuel : Nat} (enough : 2 ^ 31 ≤ fuel) {system : OverlayRecentDB × DBColumn} {steps : Nat}
    (running : Running hash content used system history steps) (small : steps < 2 ^ 31 - 1)
    {op : JournalOp} (meets : Meets hash content used history op) :
    ∃ after, OverlayRecentDB.step hash walk fuel system op =
        some ⟨(historyStep hash content history op).answers, after⟩ ∧
      Running hash content used after (historyStep hash content history op).state (steps + 1) := by
  have few := running.few
  cases op with
  | write op =>
    obtain ⟨addressed, inUse⟩ := meets
    exact ⟨_, rfl, running.stands.write keyed addressed inUse running.within small,
      ⟨running.coherent.pending, running.coherent.cache⟩, running.within.effect op,
      few.trans (Nat.le_succ _)⟩
  | get key =>
    obtain ⟨answered, stands, coherent, memory⟩ :=
      running.stands.get keyed running.coherent meets
    refine ⟨((system.1.get system.2 key).2, system.2), ?_, stands, coherent,
      running.within.mono (Nat.le_succ _), ?_⟩
    · rw [OverlayRecentDB.step, answered]
      rfl
    · dsimp only
      rw [memory]
      exact few.trans (Nat.le_succ _)
  | commit block canonical =>
    obtain ⟨stands, coherent, fewer⟩ := running.stands.commit keyed running.coherent walk block
      canonical (by omega)
    exact ⟨_, rfl, stands, coherent, within_settleAll (within_journalBlock
      (running.within.mono (Nat.le_succ _)) block) canonical, fewer.trans (by omega)⟩
  | reopen =>
    obtain ⟨jdb, opened, stands, coherent, fewer, -⟩ :=
      running.stands.new keyed meets (by omega) enough
    refine ⟨(jdb, system.2), ?_, stands, coherent, within_zero _, fewer.trans (by omega)⟩
    rw [OverlayRecentDB.step, opened, Option.map_some]
    rfl

theorem Running.run (keyed : Keyed hash content used) (walk : Walk H256 (DBValue × Int))
    {fuel : Nat} (enough : 2 ^ 31 ≤ fuel) {system : OverlayRecentDB × DBColumn} {steps : Nat}
    (running : Running hash content used system history steps) {ops : List JournalOp}
    (small : steps + ops.length < 2 ^ 31)
    (meets : Along hash content (Meets hash content used) history ops) :
    ∃ after, OverlayRecentDB.run hash walk fuel system ops =
        some ⟨(historyRun hash content history ops).answers, after⟩ ∧
      Running hash content used after (historyRun hash content history ops).state
        (steps + ops.length) := by
  induction ops generalizing system history steps with
  | nil => exact ⟨system, rfl, running⟩
  | cons op ops inductionHypothesis =>
    rw [List.length_cons] at small
    obtain ⟨first, stepped, between⟩ := running.step keyed walk enough (by omega) meets.1
    obtain ⟨after, rest, done⟩ := inductionHypothesis between (by omega) meets.2
    refine ⟨after, ?_, ?_⟩
    · rw [OverlayRecentDB.run, stepped, Option.bind_some, rest, Option.map_some, historyRun]
    · rw [historyRun, List.length_cons, Nat.add_comm ops.length, ← Nat.add_assoc]
      exact done

/-- A hash that tells values of one byte apart. -/
def byteHash (value : Bytes) : H256 := Vector.replicate 32 (value.headD 0)

/-- The value of one byte that has the hash. -/
def byteContent (key : H256) : DBValue := [key[0]]

/-- The hashes of two nodes. -/
def twoNodes : Set H256 := {byteHash [1], byteHash [2]}

theorem keyed_byteHash : Keyed byteHash byteContent twoNodes where
  null := by decide
  injOn := by
    rintro first (rfl | rfl) second (rfl | rfl) same
    · rfl
    · exact absurd same (by decide)
    · exact absurd same (by decide)
    · rfl
  ne_null := by
    rintro key (rfl | rfl)
    · decide
    · decide

/-- A node is journalled, the database is opened again, and the next block replaces the node. -/
def replacedRun : List JournalOp :=
  [.write (.insert [1]), .commit (some (0, byteHash [10])) [], .reopen,
    .write (.remove (byteHash [1])), .write (.insert [2]),
    .commit (some (1, byteHash [11])) [(0, byteHash [10])], .get (byteHash [1]),
    .commit none [(1, byteHash [11])], .get (byteHash [1]), .get (byteHash [2])]

theorem meets_replacedRun :
    Along byteHash byteContent (Meets byteHash byteContent twoNodes) .empty replacedRun := by
  refine ⟨⟨rfl, Or.inl (Or.inl rfl)⟩, trivial, ?_, ⟨trivial, Or.inl (Or.inl rfl)⟩,
    ⟨rfl, Or.inl (Or.inr rfl)⟩, trivial, Or.inl (Or.inl rfl), trivial, Or.inl (Or.inl rfl),
    Or.inl (Or.inr rfl), trivial⟩
  rintro latest ⟨⟩ era _ between _ below
  obtain rfl : between = 0 := UInt64.le_zero_iff.mp below
  exact List.cons_ne_nil _ _

/-- A new database answers every run as the history does. -/
theorem overlayRecent_answers (keyed : Keyed hash content used)
    (walk : Walk H256 (DBValue × Int)) {fuel : Nat} (enough : 2 ^ 31 ≤ fuel)
    {ops : List JournalOp} (short : ops.length < 2 ^ 31)
    (meets : Along hash content (Meets hash content used) .empty ops) :
    (OverlayRecentDB.run hash walk fuel (OverlayRecentDB.start hash) ops).map Outcome.answers =
      some (historyRun hash content .empty ops).answers := by
  obtain ⟨after, result, -⟩ := (running_start hash content used).run keyed walk enough
    (by omega) meets
  rw [result, Option.map_some]

theorem overlayRecent_answers_replaced :
    (OverlayRecentDB.run byteHash FiniteMap.inOrder (2 ^ 31) (OverlayRecentDB.start byteHash)
      replacedRun).map Outcome.answers =
        some (historyRun byteHash byteContent .empty replacedRun).answers :=
  overlayRecent_answers keyed_byteHash FiniteMap.inOrder le_rfl (by decide) meets_replacedRun

/-- After any run, what is on disk rebuilds the memory exactly if no era is passed over. -/
theorem overlayRecent_reconstructs (keyed : Keyed hash content used)
    (walk : Walk H256 (DBValue × Int)) {fuel : Nat} (enough : 2 ^ 31 ≤ fuel)
    {ops : List JournalOp} (short : ops.length + 1 < 2 ^ 31)
    (meets : Along hash content (Meets hash content used) .empty ops) :
    ∃ answers jdb db, OverlayRecentDB.run hash walk fuel (OverlayRecentDB.start hash) ops =
        some ⟨answers, jdb, db⟩ ∧
      ((∃ overlay, OverlayRecentDB.readOverlay hash fuel db = some overlay ∧
        Reconstructs jdb.journalOverlay overlay) ↔
          (historyRun hash content .empty ops).state.Unbroken) := by
  obtain ⟨after, result, running⟩ := (running_start hash content used).run keyed walk enough
    (by omega) meets
  have few := running.few
  exact ⟨_, after.1, after.2, result, running.stands.reconstructs_iff keyed
    running.coherent.pending (by omega) enough⟩

theorem overlayRecent_reconstructs_replaced :
    ∃ answers jdb db, OverlayRecentDB.run byteHash FiniteMap.inOrder (2 ^ 31)
        (OverlayRecentDB.start byteHash) replacedRun = some ⟨answers, jdb, db⟩ ∧
      ((∃ overlay, OverlayRecentDB.readOverlay byteHash (2 ^ 31) db = some overlay ∧
        Reconstructs jdb.journalOverlay overlay) ↔
          (historyRun byteHash byteContent .empty replacedRun).state.Unbroken) :=
  overlayRecent_reconstructs keyed_byteHash FiniteMap.inOrder le_rfl (by decide) meets_replacedRun

/-! ### Nothing live is lost -/

/-- What is live once some eras have been settled. -/
def liveAfterAll (history : History) (live : Set H256) : List (UInt64 × H256) → Set H256
  | [] => live
  | mark :: canonical =>
    liveAfterAll (history.settle mark.1 mark.2) (history.liveAfter live mark.1 mark.2) canonical

/-- A condition on every settlement of a commit, in the history before it. -/
def EachSettled (condition : History → UInt64 → H256 → Prop) (history : History) :
    List (UInt64 × H256) → Prop
  | [] => True
  | mark :: canonical =>
    condition history mark.1 mark.2 ∧
      EachSettled condition (history.settle mark.1 mark.2) canonical

/-- Where blocks are settled, each satisfies the condition at its turn. -/
def Settling (condition : History → UInt64 → H256 → Prop) (history : History) : JournalOp → Prop
  | .commit block canonical => EachSettled condition (journalBlock history block) canonical
  | _ => True

/-- At most one block of the era has the name. -/
def OneChosen (history : History) (era : UInt64) (name : H256) : Prop :=
  (history.chosen era name).length ≤ 1

/-- The era has at most one block, and it is the canonical one. -/
def NoneLeftOut (history : History) (era : UInt64) (name : H256) : Prop :=
  (history.blocks era).length ≤ 1 ∧ ∀ block ∈ history.blocks era, block.name = name

theorem NoneLeftOut.oneChosen {era : UInt64} {name : H256} (whole : NoneLeftOut history era name) :
    OneChosen history era name :=
  (List.length_filter_le _ _).trans whole.1

theorem EachSettled.mono {first second : History → UInt64 → H256 → Prop}
    (implies : ∀ history era name, first history era name → second history era name)
    {canonical : List (UInt64 × H256)} (each : EachSettled first history canonical) :
    EachSettled second history canonical := by
  induction canonical generalizing history with
  | nil => trivial
  | cons mark canonical inductionHypothesis =>
    exact ⟨implies _ _ _ each.1, inductionHypothesis each.2⟩

theorem Along.mono {first second : History → JournalOp → Prop}
    (implies : ∀ history op, first history op → second history op) {ops : List JournalOp}
    (along : Along hash content first history ops) : Along hash content second history ops := by
  induction ops generalizing history with
  | nil => trivial
  | cons op ops inductionHypothesis =>
    exact ⟨implies _ _ along.1, inductionHypothesis along.2⟩

theorem Settling.oneChosen {op : JournalOp} (whole : Settling NoneLeftOut history op) :
    Settling OneChosen history op := by
  cases op with
  | commit block canonical => exact whole.mono fun _ _ _ => NoneLeftOut.oneChosen
  | write op => trivial
  | get key => trivial
  | reopen => trivial

/-- What is live after an operation. -/
def liveStep (history : History) (live : Set H256) : JournalOp → Set H256
  | .commit block canonical => liveAfterAll (journalBlock history block) live canonical
  | _ => live

/-- What is live after a run, along the settled blocks. -/
def liveRun (hash : Bytes → H256) (content : H256 → DBValue) (history : History)
    (live : Set H256) : List JournalOp → Set H256
  | [] => live
  | op :: ops =>
    liveRun hash content (historyStep hash content history op).state (liveStep history live op) ops

theorem noneLeftOut_replacedRun :
    Along byteHash byteContent (Settling NoneLeftOut) .empty replacedRun := by
  refine ⟨trivial, trivial, trivial, trivial, trivial, ⟨⟨by decide, ?_⟩, trivial⟩, trivial,
    ⟨⟨by decide, ?_⟩, trivial⟩, trivial, trivial, trivial⟩
  · rintro block (_ | ⟨_, ⟨⟩⟩)
    rfl
  · rintro block (_ | ⟨_, ⟨⟩⟩)
    rfl

theorem settled_replacedRun (era : UInt64) :
    (historyRun byteHash byteContent .empty replacedRun).state.blocks era = [] := by
  by_cases last : era = 1
  · rw [last]
    rfl
  · by_cases first : era = 0
    · rw [first]
      rfl
    · simp [historyRun, historyStep, replacedRun, settleAll, journalBlock, BlockHistory.settle,
        BlockHistory.release, BlockHistory.journal, BlockHistory.reopen, BlockHistory.empty,
        last, first]

variable {live : Set H256}

theorem live_subset_settleAll {canonical : List (UInt64 × H256)} (kept : live ⊆ history.stored)
    (single : EachSettled OneChosen history canonical) :
    liveAfterAll history live canonical ⊆ (settleAll history canonical).stored := by
  induction canonical generalizing history live with
  | nil => exact kept
  | cons mark canonical inductionHypothesis =>
    exact inductionHypothesis (BlockHistory.live_subset_settle single.1 kept) single.2

theorem live_subset_historyRun {ops : List JournalOp} (kept : live ⊆ history.stored)
    (single : Along hash content (Settling OneChosen) history ops) :
    liveRun hash content history live ops ⊆ (historyRun hash content history ops).state.stored := by
  induction ops generalizing history live with
  | nil => exact kept
  | cons op ops inductionHypothesis =>
    refine inductionHypothesis ?_ single.2
    cases op with
    | write op => exact kept
    | get key => exact kept
    | commit block canonical =>
      refine live_subset_settleAll ?_ single.1
      cases block with
      | none => exact kept
      | some block => exact kept
    | reopen => exact kept

/-- Readable nodes are in use. -/
theorem Stands.used_of_readable (stands : Stands hash content used jdb db history) {key : H256}
    (readable : history.Readable key) : key ∈ used ∧ content key ≠ NULL_RLP := by
  rcases readable with positive | ⟨era, block, member, inserts⟩ | stored
  · have both := stands.uses key (ne_of_gt positive)
    exact ⟨both.1, both.2 positive⟩
  · have both := stands.memory.writes era block member key (ne_of_gt inserts)
    exact ⟨both.1, both.2 inserts⟩
  · exact stands.kept key stored

theorem Stands.get_readable (keyed : Keyed hash content used)
    (stands : Stands hash content used jdb db history) (coherent : Coherent jdb db) {key : H256}
    (readable : history.Readable key) : (jdb.get db key).1 = some (content key) := by
  obtain ⟨inUse, proper⟩ := stands.used_of_readable readable
  rw [(stands.get keyed coherent (Or.inl inUse)).1, answer_of_readable _ readable]
  rintro rfl
  exact proper keyed.null

/-- Whatever was live along the settled blocks, or is live after any unsettled blocks on top of
them, can be read. -/
theorem overlayRecent_keeps_live (keyed : Keyed hash content used)
    (walk : Walk H256 (DBValue × Int)) {fuel : Nat} (enough : 2 ^ 31 ≤ fuel)
    {ops : List JournalOp} (short : ops.length < 2 ^ 31)
    (meets : Along hash content (Meets hash content used) .empty ops)
    (single : Along hash content (Settling OneChosen) .empty ops) :
    ∃ answers jdb db, OverlayRecentDB.run hash walk fuel (OverlayRecentDB.start hash) ops =
        some ⟨answers, jdb, db⟩ ∧
      ∀ chain : List (Block H256 H256), (∀ block ∈ chain, ∃ era,
          block ∈ (historyRun hash content .empty ops).state.blocks era) →
        ∀ key ∈ chain.foldl Block.apply (liveRun hash content .empty ∅ ops),
          (jdb.get db key).1 = some (content key) := by
  obtain ⟨after, result, running⟩ := (running_start hash content used).run keyed walk enough
    (by omega) meets
  have kept := live_subset_historyRun (Set.empty_subset _) single
  refine ⟨_, after.1, after.2, result, fun chain journalled key member => ?_⟩
  exact running.stands.get_readable keyed running.coherent
    (BlockHistory.readable_of_live kept journalled member)

theorem overlayRecent_keeps_live_replaced :
    ∃ answers jdb db, OverlayRecentDB.run byteHash FiniteMap.inOrder (2 ^ 31)
        (OverlayRecentDB.start byteHash) replacedRun = some ⟨answers, jdb, db⟩ ∧
      ∀ chain : List (Block H256 H256), (∀ block ∈ chain, ∃ era,
          block ∈ (historyRun byteHash byteContent .empty replacedRun).state.blocks era) →
        ∀ key ∈ chain.foldl Block.apply (liveRun byteHash byteContent .empty ∅ replacedRun),
          (jdb.get db key).1 = some (byteContent key) :=
  overlayRecent_keeps_live keyed_byteHash FiniteMap.inOrder le_rfl (by decide) meets_replacedRun
    (noneLeftOut_replacedRun.mono fun _ _ => Settling.oneChosen)

/-! ### Nothing is left over -/

theorem tight_settleAll {canonical : List (UInt64 × H256)} (tight : history.Tight live)
    (whole : EachSettled NoneLeftOut history canonical) :
    (settleAll history canonical).Tight (liveAfterAll history live canonical) := by
  induction canonical generalizing history live with
  | nil => exact tight
  | cons mark canonical inductionHypothesis =>
    exact inductionHypothesis (tight.settle whole.1.2 whole.1.1) whole.2

theorem tight_historyRun {ops : List JournalOp} (tight : history.Tight live)
    (whole : Along hash content (Settling NoneLeftOut) history ops) :
    (historyRun hash content history ops).state.Tight (liveRun hash content history live ops) := by
  induction ops generalizing history live with
  | nil => exact tight
  | cons op ops inductionHypothesis =>
    refine inductionHypothesis ?_ whole.2
    cases op with
    | write op => exact tight
    | get key => exact tight
    | commit block canonical =>
      refine tight_settleAll ?_ whole.1
      cases block with
      | none => exact tight
      | some block =>
        exact fun key stored => (tight key stored).imp id fun pending =>
          BlockHistory.pending_journal.mpr (Or.inr pending)
    | reopen => exact tight

/-- Without competing blocks, once everything is settled the nodes on disk are the live ones. -/
theorem overlayRecent_leaves_nothing (keyed : Keyed hash content used)
    (walk : Walk H256 (DBValue × Int)) {fuel : Nat} (enough : 2 ^ 31 ≤ fuel)
    {ops : List JournalOp} (short : ops.length < 2 ^ 31)
    (meets : Along hash content (Meets hash content used) .empty ops)
    (whole : Along hash content (Settling NoneLeftOut) .empty ops)
    (settled : ∀ era, (historyRun hash content .empty ops).state.blocks era = []) :
    ∃ answers jdb db, OverlayRecentDB.run hash walk fuel (OverlayRecentDB.start hash) ops =
        some ⟨answers, jdb, db⟩ ∧
      ∀ key : H256, (key ∈ liveRun hash content .empty ∅ ops → db key.asBytes = some (content key)) ∧
        (key ∉ liveRun hash content .empty ∅ ops → db key.asBytes = none) := by
  obtain ⟨after, result, running⟩ := (running_start hash content used).run keyed walk enough
    (by omega) meets
  have kept := live_subset_historyRun (Set.empty_subset _)
    (whole.mono fun _ _ => Settling.oneChosen)
  have fresh : (BlockHistory.empty : History).Tight ∅ :=
    fun key stored => absurd stored (Set.notMem_empty key)
  have tight := tight_historyRun fresh whole
  have same := tight.stored_eq kept settled
  refine ⟨_, after.1, after.2, result, fun key => ?_⟩
  rw [← same]
  exact ⟨running.stands.disk.node key, running.stands.disk.noNode key⟩

theorem overlayRecent_leaves_nothing_replaced :
    ∃ answers jdb db, OverlayRecentDB.run byteHash FiniteMap.inOrder (2 ^ 31)
        (OverlayRecentDB.start byteHash) replacedRun = some ⟨answers, jdb, db⟩ ∧
      ∀ key : H256, (key ∈ liveRun byteHash byteContent .empty ∅ replacedRun →
          db key.asBytes = some (byteContent key)) ∧
        (key ∉ liveRun byteHash byteContent .empty ∅ replacedRun → db key.asBytes = none) :=
  overlayRecent_leaves_nothing keyed_byteHash FiniteMap.inOrder le_rfl (by decide)
    meets_replacedRun noneLeftOut_replacedRun settled_replacedRun

end AuthStorage.ParityJournaldb
