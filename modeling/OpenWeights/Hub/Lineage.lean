import OpenWeights.Hub.Revisions
import OpenWeights.Lib.Chain
import OpenWeights.Lib.Liveness

/-!
# Lineage — commits that overlap

The transaction of `commit`, statement by statement, for any number of calls at a time.  Isolation is
`READ COMMITTED`: a statement sees what was committed before it started, so what a transaction writes
is seen when it commits.  A row that an open transaction has written is locked, and whoever writes it
next waits.

A commit names the head of `main` as its parent, and moves `main` later, by another statement.  The
commits of a repository are one chain as long as nobody committed in between.
-/

namespace OpenWeights
namespace Hub

open Lib Db

/-! ## Transactions -/

/-- What a call brings to its transaction. -/
structure TxCall where
  repoId : Int
  ctx : AuthContext
  message : Bytes
  now : Nat
  rows : List CommitFileRow
  deriving DecidableEq, Repr

/-- Where a transaction is, by its last statement. -/
inductive Phase
  | begun
  /-- `SELECT commit_id FROM repo_refs` -/
  | selected (parent : Option Int)
  /-- `INSERT INTO repo_commits`, and `INSERT INTO repo_files` for the rows that are done -/
  | filing (parent : Option Int) (commitId : Int) (done rest : List CommitFileRow)
  /-- `INSERT INTO repo_refs ... ON CONFLICT (repo_id, ref_name) DO UPDATE` -/
  | referred (parent : Option Int) (commitId : Int)
  /-- `UPDATE repos SET updated_at = NOW()` -/
  | touched (parent : Option Int) (commitId : Int)
  | committed (commitId : Int)
  | rolledBack
  deriving DecidableEq, Repr

/-- A call and where it is. -/
structure Tx where
  call : TxCall
  phase : Phase
  deriving DecidableEq, Repr

/-- What is committed, the transactions, and the commits that were answered with success, each with
its repository and its parent, the newest first. -/
structure Txs where
  db : HubDatabase
  txs : Table Nat Tx
  answered : List (Int × LogEntry Int)

inductive TxAction
  | begin (i : Nat) (call : TxCall)
  | statement (i : Nat)
  /-- An error, a lost connection or a dropped handler -/
  | rollback (i : Nat)
  deriving DecidableEq, Repr

/-- The row of `main` is written but not committed. -/
def Phase.locks : Phase → Bool
  | .referred _ _ => true
  | .touched _ _ => true
  | _ => false

/-- The transaction has not ended. -/
def Phase.isOpen : Phase → Bool
  | .committed _ => false
  | .rolledBack => false
  | _ => true

namespace Txs

def start (db : HubDatabase) : Txs := ⟨db, .empty, []⟩

def move (s : Txs) (i : Nat) (tx : Tx) (phase : Phase) : Txs :=
  { s with txs := s.txs.set i { tx with phase := phase } }

/-- A transaction holds the row of `main`. -/
def locked (s : Txs) (repoId : Int) : Bool :=
  s.txs.rows.any fun t => decide (t.2.call.repoId = repoId) && t.2.phase.locks

/-- What is committed once a transaction with this commit is. -/
def write (db : HubDatabase) (call : TxCall) (parent : Option Int) (commitId : Int) : HubDatabase :=
  let commit : CommitRow :=
    { repoId := call.repoId
      parentCommitId := parent
      authorUserId := call.ctx.userId
      authorApiKeyId := call.ctx.apiKeyId
      message := call.message
      committedAt := call.now }
  { db with
    repoCommits := db.repoCommits.insertNew commitId commit
    repoFiles := db.repoFiles.insertAll (fileRows commitId call.rows)
    repoRefs := db.repoRefs.set (call.repoId, mainRef) commitId }

/-- Paths are compared as lists of bytes. -/
theorem lawfulBEq_path : LawfulBEq Bytes := inferInstance

attribute [local instance] lawfulBEq_path

/-- The next statement of a transaction; `none` while it waits, and after its end. -/
def statement (s : Txs) (i : Nat) (tx : Tx) : Option Txs :=
  match tx.phase with
  | .begun => some (s.move i tx (.selected (s.db.repoRefs.find (tx.call.repoId, mainRef))))
  | .selected parent =>
      let commitId : Int := s.db.commitSeq + 1
      -- The sequence moves on whatever becomes of the transaction.
      let counted := { s with db := { s.db with commitSeq := s.db.commitSeq + 1 } }
      some (counted.move i tx (.filing parent commitId [] tx.call.rows))
  | .filing parent commitId done (row :: rest) =>
      if row.path ∈ done.map CommitFileRow.path then
        some (s.move i tx .rolledBack)
      else
        some (s.move i tx (.filing parent commitId (done ++ [row]) rest))
  | .filing parent commitId _ [] =>
      if s.locked tx.call.repoId then none
      else some (s.move i tx (.referred parent commitId))
  | .referred parent commitId => some (s.move i tx (.touched parent commitId))
  | .touched parent commitId =>
      let moved := s.move i tx (.committed commitId)
      some
        { moved with
          db := write s.db tx.call parent commitId
          answered := (tx.call.repoId, ⟨commitId, parent⟩) :: s.answered }
  | .committed _ => none
  | .rolledBack => none

def step (s : Txs) : TxAction → Option Txs
  | .begin i call =>
      match s.txs.find i with
      | some _ => none
      | none => some (s.move i ⟨call, .begun⟩ .begun)
  | .statement i =>
      match s.txs.find i with
      | some tx => s.statement i tx
      | none => none
  | .rollback i =>
      match s.txs.find i with
      | some tx => if tx.phase.isOpen then some (s.move i tx .rolledBack) else none
      | none => none

/-- The commits of a repository that were answered, the newest first. -/
def log (s : Txs) (repoId : Int) : List (LogEntry Int) :=
  (s.answered.filter fun a => a.1 = repoId).map Prod.snd

end Txs

/-! ## What should hold of them -/

def ParentOf (db : HubDatabase) (a b : Int) : Prop :=
  ∃ row, db.repoCommits.find a = some row ∧ row.parentCommitId = some b

/-- The commit is on the parent chain of the head of `main`. -/
def OnMain (db : HubDatabase) (repoId commitId : Int) : Prop :=
  ∃ head, db.repoRefs.find (repoId, mainRef) = some head ∧
    Relation.ReflTransGen (ParentOf db) head commitId

/-- A `COMMIT` after `main` has moved away from the parent that its transaction read. -/
def Stale (x : Txs × TxAction × Txs) : Prop :=
  ∃ i tx parent commitId, x.2.1 = .statement i ∧ x.1.txs.find i = some tx ∧
    tx.phase = .touched parent commitId ∧
    x.1.db.repoRefs.find (tx.call.repoId, mainRef) ≠ parent

/-! ## The invariant -/

def Phase.parent : Phase → Option Int
  | .selected parent => parent
  | .filing parent _ _ _ => parent
  | .referred parent _ => parent
  | .touched parent _ => parent
  | _ => none

def Phase.commitId : Phase → Option Int
  | .filing _ commitId _ _ => some commitId
  | .referred _ commitId => some commitId
  | .touched _ commitId => some commitId
  | _ => none

def Txs.ids (s : Txs) : List Int :=
  s.answered.map fun a => a.2.id

/-- How the tables, the answers and the open transactions agree. -/
structure Consistent (s : Txs) : Prop where
  commit : ∀ {repoId e}, (repoId, e) ∈ s.answered → ∃ row, s.db.repoCommits.find e.id = some row ∧
    row.repoId = repoId ∧ row.parentCommitId = e.parent
  answered : ∀ {id row}, s.db.repoCommits.find id = some row → id ∈ s.ids
  main : ∀ repoId, s.db.repoRefs.find (repoId, mainRef) = tip (s.log repoId)
  grown : ∀ repoId, WellGrown (s.log repoId)
  nodup : s.ids.Nodup
  id_le : ∀ id ∈ s.ids, id ≤ s.db.commitSeq
  parent : ∀ {i tx p}, s.txs.find i = some tx → tx.phase.parent = some p →
    p ∈ (s.log tx.call.repoId).map LogEntry.id
  fresh : ∀ {i tx id}, s.txs.find i = some tx → tx.phase.commitId = some id →
    id ≤ s.db.commitSeq ∧ id ∉ s.ids
  unique : ∀ {i j tx tx' id}, s.txs.find i = some tx → s.txs.find j = some tx' →
    tx.phase.commitId = some id → tx'.phase.commitId = some id → i = j

theorem Consistent.start {db : HubDatabase} (hcommits : db.repoCommits = .empty)
    (hrefs : db.repoRefs = .empty) : Consistent (.start db) where
  commit h := by cases h
  answered h := by
    simp [Txs.start, hcommits] at h
  main repoId := by
    simp [Txs.start, hrefs, Txs.log, tip]
  grown _ := .nil
  nodup := List.nodup_nil
  id_le _ h := by cases h
  parent h := by cases h
  fresh h := by cases h
  unique h := by cases h

theorem find_move {s : Txs} {i j : Nat} {tx tx' : Tx} {phase : Phase}
    (h : (s.move i tx phase).txs.find j = some tx') :
    (j = i ∧ tx' = ⟨tx.call, phase⟩) ∨ (j ≠ i ∧ s.txs.find j = some tx') := by
  by_cases hj : j = i
  · subst hj
    simp only [Txs.move, Table.find_set_self, Option.some.injEq] at h
    exact .inl ⟨rfl, h.symm⟩
  · rw [Txs.move, Table.find_set_of_ne _ _ hj] at h
    exact .inr ⟨hj, h⟩

/-- A transaction moves to a phase whose parent is committed and whose id is its own. -/
theorem Consistent.move {s : Txs} (h : Consistent s) {i : Nat} {tx : Tx} {phase : Phase}
    (hparent : ∀ p, phase.parent = some p → p ∈ (s.log tx.call.repoId).map LogEntry.id)
    (hid : ∀ id, phase.commitId = some id → (id ≤ s.db.commitSeq ∧ id ∉ s.ids) ∧
      ∀ j tx', j ≠ i → s.txs.find j = some tx' → tx'.phase.commitId ≠ some id) :
    Consistent (s.move i tx phase) where
  commit := h.commit
  answered := h.answered
  main := h.main
  grown := h.grown
  nodup := h.nodup
  id_le := h.id_le
  parent := by
    intro j tx' p hfind hp
    rcases find_move hfind with ⟨-, rfl⟩ | ⟨-, hold⟩
    · exact hparent p hp
    · exact h.parent hold hp
  fresh := by
    intro j tx' id hfind hc
    rcases find_move hfind with ⟨-, rfl⟩ | ⟨-, hold⟩
    · exact (hid id hc).1
    · exact h.fresh hold hc
  unique := by
    intro j k tx₁ tx₂ id hj hk hcj hck
    rcases find_move hj with ⟨rfl, rfl⟩ | ⟨hneJ, holdJ⟩
    · rcases find_move hk with ⟨rfl, -⟩ | ⟨hneK, holdK⟩
      · rfl
      · exact absurd hck ((hid id hcj).2 k tx₂ hneK holdK)
    · rcases find_move hk with ⟨rfl, rfl⟩ | ⟨hneK, holdK⟩
      · exact absurd hcj ((hid id hck).2 j tx₁ hneJ holdJ)
      · exact h.unique holdJ holdK hcj hck

/-- A transaction that keeps its parent and its id. -/
theorem Consistent.advance {s : Txs} (h : Consistent s) {i : Nat} {tx : Tx}
    (hfind : s.txs.find i = some tx) {phase : Phase}
    (hparent : ∀ p, phase.parent = some p → tx.phase.parent = some p)
    (hid : ∀ id, phase.commitId = some id → tx.phase.commitId = some id) :
    Consistent (s.move i tx phase) := by
  refine h.move (fun p hp => h.parent hfind (hparent p hp)) ?_
  intro id hc
  refine ⟨h.fresh hfind (hid id hc), ?_⟩
  intro j tx' hne hj hcj
  exact hne (h.unique hj hfind hcj (hid id hc))

/-- The sequence moves on. -/
theorem Consistent.count {s : Txs} (h : Consistent s) :
    Consistent { s with db := { s.db with commitSeq := s.db.commitSeq + 1 } } where
  commit := h.commit
  answered := h.answered
  main := h.main
  grown := h.grown
  nodup := h.nodup
  id_le := by
    intro id hmem
    have hle := h.id_le id hmem
    push_cast
    omega
  parent := h.parent
  fresh := by
    intro i tx id hfind hc
    obtain ⟨hle, hnot⟩ := h.fresh hfind hc
    refine ⟨?_, hnot⟩
    push_cast
    omega
  unique := h.unique

/-- The log after a `COMMIT`. -/
theorem log_commit (s : Txs) (repoId r : Int) (e : LogEntry Int) (db : HubDatabase)
    (txs : Table Nat Tx) :
    Txs.log ⟨db, txs, (repoId, e) :: s.answered⟩ r =
      if repoId = r then e :: s.log r else s.log r := by
  by_cases hr : repoId = r
  · simp [Txs.log, hr]
  · simp [Txs.log, hr]

theorem mem_ids_of_log {s : Txs} {repoId id : Int} (h : id ∈ (s.log repoId).map LogEntry.id) :
    id ∈ s.ids := by
  obtain ⟨e, he, rfl⟩ := List.mem_map.1 h
  obtain ⟨a, ha, rfl⟩ := List.mem_map.1 he
  exact List.mem_map.2 ⟨a, (List.mem_filter.1 ha).1, rfl⟩

theorem mem_log {s : Txs} {repoId : Int} {e : LogEntry Int} :
    e ∈ s.log repoId ↔ (repoId, e) ∈ s.answered := by
  rw [Txs.log, List.mem_map]
  constructor
  · rintro ⟨⟨r, e'⟩, hmem, rfl⟩
    obtain ⟨ha, hr⟩ := List.mem_filter.1 hmem
    have hr : r = repoId := of_decide_eq_true hr
    exact hr ▸ ha
  · intro ha
    exact ⟨(repoId, e), List.mem_filter.2 ⟨ha, decide_eq_true rfl⟩, rfl⟩

def Txs.commit (s : Txs) (i : Nat) (tx : Tx) (parent : Option Int) (commitId : Int) : Txs :=
  { s.move i tx (.committed commitId) with
    db := Txs.write s.db tx.call parent commitId
    answered := (tx.call.repoId, ⟨commitId, parent⟩) :: s.answered }

theorem Consistent.commit_step {s : Txs} (h : Consistent s) {i : Nat} {tx : Tx}
    (hfind : s.txs.find i = some tx) {parent : Option Int} {commitId : Int}
    (hphase : tx.phase = .touched parent commitId) : Consistent (s.commit i tx parent commitId) := by
  have hid : tx.phase.commitId = some commitId := by rw [hphase]; rfl
  have hparent : ∀ p, parent = some p → p ∈ (s.log tx.call.repoId).map LogEntry.id := by
    intro p hp
    exact h.parent hfind (by rw [hphase]; exact hp)
  obtain ⟨hle, hnot⟩ := h.fresh hfind hid
  have hnew : s.db.repoCommits.find commitId = none :=
    Option.eq_none_iff_forall_ne_some.2 fun row hrow => hnot (h.answered hrow)
  have hmoved : Consistent (s.move i tx (.committed commitId)) := h.advance hfind nofun nofun
  have hlog : ∀ r, (s.commit i tx parent commitId).log r =
      if tx.call.repoId = r then ⟨commitId, parent⟩ :: s.log r else s.log r :=
    fun r => log_commit s tx.call.repoId r ⟨commitId, parent⟩ _ _
  -- The log of a repository only grows.
  have hkeep : ∀ r id, id ∈ (s.log r).map LogEntry.id →
      id ∈ ((s.commit i tx parent commitId).log r).map LogEntry.id := by
    intro r id hmem
    rw [hlog]
    split
    · exact List.mem_cons_of_mem _ hmem
    · exact hmem
  refine ⟨?_, ?_, ?_, ?_, List.nodup_cons.2 ⟨hnot, h.nodup⟩, ?_, ?_, ?_, hmoved.unique⟩
  · intro repoId e he
    rcases List.mem_cons.1 he with hEq | hold
    · cases hEq
      exact ⟨_, Table.find_insertNew_self _ _ _, by rw [hnew]; rfl, by rw [hnew]; rfl⟩
    · obtain ⟨row, hrow, hfields⟩ := h.commit hold
      exact ⟨row, Table.find_insertNew_mono hrow, hfields⟩
  · intro id row hrow
    by_cases hEq : id = commitId
    · rw [hEq]
      exact List.mem_cons_self
    · have hold : (s.db.repoCommits.insertNew commitId _).find id = some row := hrow
      rw [Table.find_insertNew_of_ne _ _ hEq] at hold
      exact List.mem_cons_of_mem _ (h.answered hold)
  · intro repoId
    rw [hlog]
    split
    · rename_i hr
      subst hr
      exact Table.find_set_self _ _ _
    · rename_i hr
      have hkey : (repoId, mainRef) ≠ (tx.call.repoId, mainRef) :=
        fun hEq => hr (Prod.mk.inj hEq).1.symm
      exact (Table.find_set_of_ne _ _ hkey).trans (h.main repoId)
  · intro repoId
    rw [hlog]
    split
    · rename_i hr
      subst hr
      exact .cons (fun hmem => hnot (mem_ids_of_log hmem)) hparent (h.grown _)
    · exact h.grown repoId
  · intro id hmem
    rcases List.mem_cons.1 hmem with rfl | hold
    · exact hle
    · exact h.id_le id hold
  · intro j tx' p hj hp
    exact hkeep _ p (hmoved.parent hj hp)
  · intro j tx' id hj hc
    obtain ⟨hle', hnot'⟩ := hmoved.fresh hj hc
    refine ⟨hle', ?_⟩
    intro hmem
    rcases List.mem_cons.1 hmem with rfl | hold
    · -- Only `i` had this id, and it has none any more.
      rcases find_move hj with ⟨-, rfl⟩ | ⟨hne, hold⟩
      · cases hc
      · exact hne (h.unique hold hfind hc hid)
    · exact hnot' hold

/-- What a step may do to the tables: nothing, move the sequence, or commit. -/
theorem Txs.step_cases {s s' : Txs} {a : TxAction} (hs : s.step a = some s') :
    (∃ i tx phase, s' = s.move i tx phase ∧
      (∀ p, phase.parent = some p → (∃ tx₀, s.txs.find i = some tx₀ ∧ tx₀.call = tx.call ∧
        tx₀.phase.parent = some p) ∨ s.db.repoRefs.find (tx.call.repoId, mainRef) = some p) ∧
      ∀ id, phase.commitId = some id → ∃ tx₀, s.txs.find i = some tx₀ ∧
        tx₀.phase.commitId = some id) ∨
    (∃ i tx parent, s.txs.find i = some tx ∧ tx.phase = .selected parent ∧
      s' = Txs.move { s with db := { s.db with commitSeq := s.db.commitSeq + 1 } } i tx
        (.filing parent (s.db.commitSeq + 1) [] tx.call.rows)) ∨
    ∃ i tx parent commitId, a = .statement i ∧ s.txs.find i = some tx ∧
      tx.phase = .touched parent commitId ∧ s' = s.commit i tx parent commitId := by
  cases a with
  | «begin» i call =>
      simp only [Txs.step] at hs
      split at hs
      · cases hs
      · cases hs
        exact .inl ⟨i, ⟨call, .begun⟩, .begun, rfl, nofun, nofun⟩
  -- A rollback keeps nothing but the call.
  | rollback i =>
      simp only [Txs.step] at hs
      split at hs
      · rename_i tx hfind
        split at hs
        · cases hs
          exact .inl ⟨i, tx, .rolledBack, rfl, nofun, nofun⟩
        · cases hs
      · cases hs
  | statement i =>
      simp only [Txs.step] at hs
      split at hs
      · rename_i tx hfind
        unfold Txs.statement at hs
        split at hs
        · cases hs
          exact .inl ⟨i, tx, _, rfl, fun p hp => .inr hp, nofun⟩
        -- The sequence moves on when the row of the commit is inserted.
        · rename_i parent hphase
          cases hs
          exact .inr (.inl ⟨i, tx, parent, hfind, hphase, rfl⟩)
        -- A manifest row is inserted, or its path is taken and the transaction is gone.
        · rename_i parent commitId done row rest hphase
          split at hs
          · cases hs
            exact .inl ⟨i, tx, .rolledBack, rfl, nofun, nofun⟩
          · cases hs
            exact .inl ⟨i, tx, _, rfl, fun p hp => .inl ⟨tx, hfind, rfl, by rw [hphase]; exact hp⟩,
              fun id hc => ⟨tx, hfind, by rw [hphase]; exact hc⟩⟩
        · rename_i parent commitId done hphase
          split at hs
          · cases hs
          · cases hs
            exact .inl ⟨i, tx, _, rfl, fun p hp => .inl ⟨tx, hfind, rfl, by rw [hphase]; exact hp⟩,
              fun id hc => ⟨tx, hfind, by rw [hphase]; exact hc⟩⟩
        · rename_i parent commitId hphase
          cases hs
          exact .inl ⟨i, tx, _, rfl, fun p hp => .inl ⟨tx, hfind, rfl, by rw [hphase]; exact hp⟩,
            fun id hc => ⟨tx, hfind, by rw [hphase]; exact hc⟩⟩
        · rename_i parent commitId hphase
          cases hs
          exact .inr (.inr ⟨i, tx, parent, commitId, rfl, hfind, hphase, rfl⟩)
        · cases hs
        · cases hs
      · cases hs

theorem Consistent.step {s s' : Txs} (h : Consistent s) {a : TxAction} (hs : s.step a = some s') :
    Consistent s' := by
  rcases Txs.step_cases hs with ⟨i, tx, phase, rfl, hparent, hid⟩ |
    ⟨i, tx, parent, hfind, hphase, rfl⟩ | ⟨i, tx, parent, commitId, -, hfind, hphase, rfl⟩
  · refine h.move ?_ ?_
    · intro p hp
      rcases hparent p hp with ⟨tx₀, hfind, hcall, hp₀⟩ | hmain
      · rw [← hcall]
        exact h.parent hfind hp₀
      · -- The head of `main` is the newest commit.
        rw [h.main] at hmain
        obtain ⟨e, he, rfl⟩ := Option.map_eq_some_iff.1 hmain
        exact List.mem_map_of_mem (List.mem_of_mem_head? he)
    · intro id hc
      obtain ⟨tx₀, hfind, hc₀⟩ := hid id hc
      exact ⟨h.fresh hfind hc₀, fun j tx' hne hj hcj => hne (h.unique hj hfind hcj hc₀)⟩
  · refine h.count.move ?_ ?_
    · intro p hp
      exact h.parent hfind (by rw [hphase]; exact hp)
    · intro id hc
      cases hc
      refine ⟨⟨by push_cast; omega, fun hmem => ?_⟩, fun j tx' _ hj hcj => ?_⟩
      · have hle := h.id_le _ hmem
        omega
      · have hle := (h.fresh hj hcj).1
        omega
  · exact h.commit_step hfind hphase

/-! ## One chain -/

/-- The parent chain in the tables is that of the log. -/
theorem Consistent.ancestor_iff {s : Txs} (h : Consistent s) {repoId a b : Int}
    (ha : a ∈ (s.log repoId).map LogEntry.id) :
    Relation.ReflTransGen (ParentOf s.db) a b ↔ Ancestor (s.log repoId) a b := by
  have hlink : ∀ {a b}, a ∈ (s.log repoId).map LogEntry.id →
      (ParentOf s.db a b ↔ Link (s.log repoId) a b) := by
    intro a b ha
    constructor
    · rintro ⟨row, hrow, hp⟩
      obtain ⟨e, he, rfl⟩ := List.mem_map.1 ha
      obtain ⟨row', hrow', -, hparent⟩ := h.commit (mem_log.1 he)
      rw [hrow] at hrow'
      cases hrow'
      exact ⟨e, he, rfl, hparent.symm.trans hp⟩
    · rintro ⟨e, he, rfl, hp⟩
      obtain ⟨row, hrow, -, hparent⟩ := h.commit (mem_log.1 he)
      exact ⟨row, hrow, hparent.trans hp⟩
  constructor
  · intro hab
    have hboth : Ancestor (s.log repoId) a b ∧ b ∈ (s.log repoId).map LogEntry.id := by
      induction hab with
      | refl => exact ⟨.refl, ha⟩
      | tail _ hstep ih =>
          have hnext := (hlink ih.2).1 hstep
          exact ⟨ih.1.tail hnext, (h.grown repoId).mem_of_link hnext⟩
    exact hboth.1
  · intro hab
    induction hab with
    | refl => exact .refl
    | tail _ hnext ih =>
        obtain ⟨e, he, hid, hp⟩ := hnext
        exact ih.tail ((hlink (List.mem_map.2 ⟨e, he, hid⟩)).2 ⟨e, he, hid, hp⟩)

/-- No commit is lost if and only if every log grew at its tip. -/
theorem Consistent.onMain_iff {s : Txs} (h : Consistent s) :
    (∀ repoId e, (repoId, e) ∈ s.answered → OnMain s.db repoId e.id) ↔
      ∀ repoId, Linear (s.log repoId) := by
  have honMain : ∀ repoId, (∀ e ∈ s.log repoId, OnMain s.db repoId e.id) ↔
      OneChain (s.log repoId) := by
    intro repoId
    refine forall₂_congr fun e _ => ?_
    simp only [OnMain, h.main]
    refine exists_congr fun t => and_congr_right fun ht => ?_
    obtain ⟨e', he', rfl⟩ := Option.map_eq_some_iff.1 ht
    exact h.ancestor_iff (List.mem_map_of_mem (List.mem_of_mem_head? he'))
  constructor
  · intro hall repoId
    exact (h.grown repoId).oneChain_iff.1 ((honMain repoId).1 fun e he =>
      hall repoId e (mem_log.1 he))
  · intro hall repoId e he
    exact (honMain repoId).2 ((h.grown repoId).oneChain_iff.2 (hall repoId)) e (mem_log.2 he)

/-- A log grows at its tip unless a `COMMIT` is stale. -/
theorem Consistent.linear_step_iff {s s' : Txs} (h : Consistent s) {a : TxAction}
    (hs : s.step a = some s') :
    (∀ repoId, Linear (s'.log repoId)) ↔
      (∀ repoId, Linear (s.log repoId)) ∧ ¬Stale (s, a, s') := by
  by_cases hcommits : ∃ i tx parent commitId, a = .statement i ∧ s.txs.find i = some tx ∧
      tx.phase = .touched parent commitId
  · obtain ⟨i, tx, parent, commitId, rfl, hfind, hphase⟩ := hcommits
    have hcommit : s' = s.commit i tx parent commitId := by
      simp only [Txs.step, hfind, Txs.statement, hphase] at hs
      exact (Option.some.inj hs).symm
    have hlog : ∀ r, s'.log r =
        if tx.call.repoId = r then ⟨commitId, parent⟩ :: s.log r else s.log r := by
      rw [hcommit]
      exact fun r => log_commit s tx.call.repoId r ⟨commitId, parent⟩ _ _
    have hstale : Stale (s, .statement i, s') ↔ tip (s.log tx.call.repoId) ≠ parent := by
      rw [← h.main]
      constructor
      · rintro ⟨i', tx', parent', commitId', hi, hfind', hphase', hne⟩
        cases hi
        cases hfind.symm.trans hfind'
        cases hphase.symm.trans hphase'
        exact hne
      · exact fun hne => ⟨i, tx, parent, commitId, rfl, hfind, hphase, hne⟩
    rw [hstale, not_not]
    constructor
    · intro hall
      have hhere := hall tx.call.repoId
      rw [hlog, if_pos rfl] at hhere
      refine ⟨fun r => ?_, hhere.1.symm⟩
      by_cases hr : tx.call.repoId = r
      · exact hr ▸ hhere.2
      · have hthere := hall r
        rwa [hlog, if_neg hr] at hthere
    · rintro ⟨hall, hparent⟩ r
      rw [hlog]
      split
      · rename_i hr
        subst hr
        exact ⟨hparent.symm, hall _⟩
      · exact hall r
  · -- Without a `COMMIT` the log stays.
    have hlog : ∀ r, s'.log r = s.log r := by
      rcases Txs.step_cases hs with ⟨i, tx, phase, rfl, -, -⟩ | ⟨i, tx, parent, -, -, rfl⟩ |
        ⟨i, tx, parent, commitId, ha, hfind, hphase, -⟩
      · exact fun r => rfl
      · exact fun r => rfl
      · exact absurd ⟨i, tx, parent, commitId, ha, hfind, hphase⟩ hcommits
    have hnot : ¬Stale (s, a, s') := by
      rintro ⟨i, tx, parent, commitId, ha, hfind, hphase, -⟩
      exact hcommits ⟨i, tx, parent, commitId, ha, hfind, hphase⟩
    simp only [hlog, hnot, not_false_eq_true, and_true]

/-- **When no commit is lost.**  Every answered commit is on the parent chain of `main` if and only if
no `COMMIT` of the run took effect after `main` had moved away from the parent its transaction read. -/
theorem onMain_iff_not_stale {db : HubDatabase} (hcommits : db.repoCommits = .empty)
    (hrefs : db.repoRefs = .empty) {tr : List (Txs × TxAction × Txs)} {s : Txs}
    (hrun : Trace Txs.step (.start db) tr s) :
    (∀ repoId e, (repoId, e) ∈ s.answered → OnMain s.db repoId e.id) ↔ ∀ x ∈ tr, ¬Stale x := by
  have hboth : Consistent s ∧ ((∀ repoId, Linear (s.log repoId)) ↔ ∀ x ∈ tr, ¬Stale x) := by
    induction hrun with
    | nil =>
        refine ⟨.start hcommits hrefs, iff_of_true (fun _ => trivial) nofun⟩
    | snoc _ hs ih =>
        refine ⟨ih.1.step hs, ?_⟩
        rw [ih.1.linear_step_iff hs, ih.2, List.forall_mem_append, List.forall_mem_singleton]
  rw [hboth.1.onMain_iff, hboth.2]

/-! ## A transaction by itself -/

/-- The statements of transaction `i`, one after another. -/
def Alone (i : Nat) : Txs → Txs → Prop :=
  Relation.ReflTransGen fun s s' => s.step (.statement i) = some s'

theorem locked_eq_false_iff {s : Txs} {repoId : Int} :
    s.locked repoId = false ↔ ∀ j tx, s.txs.find j = some tx → tx.call.repoId = repoId →
      tx.phase.locks = false := by
  simp only [Txs.locked, List.any_eq_false, Bool.and_eq_true, decide_eq_true_eq, not_and,
    Bool.not_eq_true]
  constructor
  · intro h j tx hfind hrepo
    exact h (j, tx) (Table.find_eq_some_iff.1 hfind) hrepo
  · rintro h ⟨j, tx⟩ hmem hrepo
    exact h j tx (Table.find_eq_some_iff.2 hmem) hrepo

/-- A move to a phase that locks nothing. -/
theorem locked_move {s : Txs} {repoId : Int} (h : s.locked repoId = false) (i : Nat) (tx : Tx)
    {phase : Phase} (hphase : phase.locks = false) : (s.move i tx phase).locked repoId = false := by
  rw [locked_eq_false_iff] at h ⊢
  intro j tx' hfind hrepo
  rcases find_move hfind with ⟨-, rfl⟩ | ⟨-, hold⟩
  · exact hphase
  · exact h j tx' hold hrepo

/-- The inserts into `repo_files`: they all succeed, or the first repeated path ends it. -/
theorem alone_filing {s : Txs} {i : Nat} {call : TxCall} {parent : Option Int} {commitId : Int}
    {done rest : List CommitFileRow}
    (hfind : s.txs.find i = some ⟨call, .filing parent commitId done rest⟩)
    (hlocked : s.locked call.repoId = false) (hdone : (done.map CommitFileRow.path).Nodup) :
    ∃ s', Alone i s s' ∧ s'.db = s.db ∧ s'.locked call.repoId = false ∧
      s'.txs.find i = some ⟨call,
        if ((done ++ rest).map CommitFileRow.path).Nodup then
          .filing parent commitId (done ++ rest) []
        else
          .rolledBack⟩ := by
  induction rest generalizing s done with
  | nil =>
      refine ⟨s, .refl, rfl, hlocked, ?_⟩
      simpa [hdone] using hfind
  | cons row rest ih =>
      by_cases hmem : row.path ∈ done.map CommitFileRow.path
      · have hstep : s.step (.statement i) = some (s.move i ⟨call, .filing parent commitId done
            (row :: rest)⟩ .rolledBack) := by
          simp [Txs.step, hfind, Txs.statement, hmem]
        -- The path is in the manifest already, so the whole list repeats it.
        have hrepeated : ¬((done ++ row :: rest).map CommitFileRow.path).Nodup := by
          rw [List.map_append, List.nodup_append]
          rintro ⟨-, -, hdisjoint⟩
          exact hdisjoint _ hmem _ List.mem_cons_self rfl
        refine ⟨_, .single hstep, rfl, locked_move hlocked i _ rfl, ?_⟩
        rw [if_neg hrepeated]
        exact Table.find_set_self _ _ _
      · have hstep : s.step (.statement i) = some (s.move i ⟨call, .filing parent commitId done
            (row :: rest)⟩ (.filing parent commitId (done ++ [row]) rest)) := by
          simp [Txs.step, hfind, Txs.statement, hmem]
        have hdone' : ((done ++ [row]).map CommitFileRow.path).Nodup := by
          rw [List.map_append, List.nodup_append]
          refine ⟨hdone, List.nodup_singleton _, ?_⟩
          rintro a ha b hb rfl
          exact hmem (List.mem_singleton.1 hb ▸ ha)
        have hlocked₁ : (s.move i ⟨call, .filing parent commitId done (row :: rest)⟩
            (.filing parent commitId (done ++ [row]) rest)).locked call.repoId = false :=
          locked_move hlocked i _ rfl
        obtain ⟨s', halone, hdb, hlocked', hfind'⟩ :=
          ih (Table.find_set_self _ _ _) hlocked₁ hdone'
        refine ⟨s', .head hstep halone, hdb, hlocked', ?_⟩
        rw [hfind', List.append_assoc]
        rfl

/-- The select and the insert of the commit. -/
theorem alone_insert {s : Txs} {i : Nat} {call : TxCall}
    (hfind : s.txs.find i = some ⟨call, .begun⟩) (hlocked : s.locked call.repoId = false) :
    ∃ s', Alone i s s' ∧ s'.db = { s.db with commitSeq := s.db.commitSeq + 1 } ∧
      s'.locked call.repoId = false ∧
      s'.txs.find i = some ⟨call, .filing (s.db.repoRefs.find (call.repoId, mainRef))
        (s.db.commitSeq + 1) [] call.rows⟩ := by
  obtain ⟨parent, hparent⟩ : ∃ parent, s.db.repoRefs.find (call.repoId, mainRef) = parent :=
    ⟨_, rfl⟩
  have hselect : s.step (.statement i) =
      some (s.move i ⟨call, .begun⟩ (.selected parent)) := by
    simp [Txs.step, hfind, Txs.statement, hparent]
  have hlocked₁ : (s.move i ⟨call, .begun⟩ (.selected parent)).locked call.repoId = false :=
    locked_move hlocked i _ rfl
  have hinsert : (s.move i ⟨call, .begun⟩ (.selected parent)).step (.statement i) =
      some (Txs.move { s.move i ⟨call, .begun⟩ (.selected parent) with
        db := { s.db with commitSeq := s.db.commitSeq + 1 } } i ⟨call, .selected parent⟩
          (.filing parent (s.db.commitSeq + 1) [] call.rows)) := by
    simp [Txs.step, Txs.move, Txs.statement]
  refine ⟨_, .tail (.single hselect) hinsert, rfl, ?_, ?_⟩
  · exact locked_move hlocked₁ i _ rfl
  · rw [hparent]
    exact Table.find_set_self _ _ _

/-- The statements after the last file. -/
theorem alone_finish {s : Txs} {i : Nat} {call : TxCall} {parent : Option Int} {commitId : Int}
    {done : List CommitFileRow}
    (hfind : s.txs.find i = some ⟨call, .filing parent commitId done []⟩)
    (hlocked : s.locked call.repoId = false) :
    ∃ s', Alone i s s' ∧ s'.db = Txs.write s.db call parent commitId ∧
      s'.txs.find i = some ⟨call, .committed commitId⟩ := by
  have hrefer : s.step (.statement i) = some (s.move i ⟨call, .filing parent commitId done []⟩
      (.referred parent commitId)) := by
    simp [Txs.step, hfind, Txs.statement, hlocked]
  obtain ⟨s₁, hs₁⟩ : ∃ s₁, s.move i ⟨call, .filing parent commitId done []⟩
      (.referred parent commitId) = s₁ := ⟨_, rfl⟩
  have hfind₁ : s₁.txs.find i = some ⟨call, .referred parent commitId⟩ := by
    rw [← hs₁]
    exact Table.find_set_self _ _ _
  have htouch : s₁.step (.statement i) = some (s₁.move i ⟨call, .referred parent commitId⟩
      (.touched parent commitId)) := by
    simp [Txs.step, hfind₁, Txs.statement]
  obtain ⟨s₂, hs₂⟩ : ∃ s₂, s₁.move i ⟨call, .referred parent commitId⟩
      (.touched parent commitId) = s₂ := ⟨_, rfl⟩
  have hfind₂ : s₂.txs.find i = some ⟨call, .touched parent commitId⟩ := by
    rw [← hs₂]
    exact Table.find_set_self _ _ _
  have hcommit : s₂.step (.statement i) =
      some (s₂.commit i ⟨call, .touched parent commitId⟩ parent commitId) := by
    simp [Txs.step, hfind₂, Txs.statement, Txs.commit]
  have hdb : s₂.db = s.db := by
    rw [← hs₂, ← hs₁]
    rfl
  refine ⟨_, .tail (.tail (.single (hrefer.trans (congrArg some hs₁)))
    (htouch.trans (congrArg some hs₂))) hcommit, ?_, ?_⟩
  · exact congrArg (fun db => Txs.write db call parent commitId) hdb
  · exact Table.find_set_self _ _ _

/-- **A transaction by itself is `commitTx`.**  Run without others, statement by statement, it leaves
the database that the transaction of `commit` leaves. -/
theorem alone_commitTx (s : Txs) (i : Nat) (call : TxCall) (hfree : s.txs.find i = none)
    (hlocked : s.locked call.repoId = false) :
    ∃ s₁ s', s.step (.begin i call) = some s₁ ∧ Alone i s₁ s' ∧
      s'.db = (commitTx s.db call.repoId call.ctx call.message call.now call.rows).2 ∧
      s'.txs.find i = some ⟨call,
        match (commitTx s.db call.repoId call.ctx call.message call.now call.rows).1 with
        | .ok commitId => .committed commitId
        | .error _ => .rolledBack⟩ := by
  have hbegin : s.step (.begin i call) = some (s.move i ⟨call, .begun⟩ .begun) := by
    simp [Txs.step, hfree]
  have hlocked₁ : (s.move i ⟨call, .begun⟩ .begun).locked call.repoId = false :=
    locked_move hlocked i _ rfl
  obtain ⟨s₂, hinsert, hdb₂, hlocked₂, hfind₂⟩ :=
    alone_insert (Table.find_set_self _ _ _) hlocked₁
  obtain ⟨s₃, hfiling, hdb₃, hlocked₃, hfind₃⟩ := alone_filing hfind₂ hlocked₂ List.nodup_nil
  rw [List.nil_append] at hfind₃
  have hdb : s₃.db = { s.db with commitSeq := s.db.commitSeq + 1 } := hdb₃.trans hdb₂
  by_cases hnodup : (call.rows.map CommitFileRow.path).Nodup
  · rw [if_pos hnodup] at hfind₃
    obtain ⟨s₄, hfinish, hdb₄, hfind₄⟩ := alone_finish hfind₃ hlocked₃
    refine ⟨_, s₄, hbegin, (hinsert.trans hfiling).trans hfinish, ?_, ?_⟩
    · rw [hdb₄, hdb]
      simp [commitTx, hnodup, Txs.write, Txs.move]
    · rw [hfind₄]
      simp [commitTx, hnodup, Txs.move]
  · rw [if_neg hnodup] at hfind₃
    refine ⟨_, s₃, hbegin, hinsert.trans hfiling, ?_, ?_⟩
    · rw [hdb]
      simp [commitTx, hnodup]
    · rw [hfind₃]
      simp [commitTx, hnodup]

/-! ### Two calls at once -/

def emptyCall : TxCall := ⟨1, alice, lit "upload", 0, []⟩

/-- Both calls look at `main` before either moves it. -/
def overlappingCalls : List TxAction :=
  [.begin 0 emptyCall, .begin 1 emptyCall, .statement 0, .statement 1] ++
    List.replicate 4 (.statement 0) ++ List.replicate 4 (.statement 1)

/-- The first of the two commits is not on the chain of `main`. -/
theorem exists_overlapping :
    ∃ tr s, Trace Txs.step (.start aliceDb) tr s ∧ (1, ⟨1, none⟩) ∈ s.answered ∧
      ¬OnMain s.db 1 1 := by
  have heval : (execute Txs.step (.start aliceDb) overlappingCalls).map (fun s =>
      decide ((s.answered.map fun a => (a.1, a.2.id, a.2.parent)) = [(1, 2, none), (1, 1, none)] ∧
        s.db.repoRefs.find (1, mainRef) = some 2 ∧
        (s.db.repoCommits.find 2).map CommitRow.parentCommitId = some none)) = some true := by
    decide +kernel
  obtain ⟨s, hs, hcheck⟩ := Option.map_eq_some_iff.1 heval
  obtain ⟨tr, htr⟩ := exists_trace_of_execute hs
  obtain ⟨hanswered, hmain, hparent⟩ := of_decide_eq_true hcheck
  refine ⟨tr, s, htr, ?_, ?_⟩
  · have hmem : (1, 1, none) ∈ s.answered.map fun a => (a.1, a.2.id, a.2.parent) := by
      rw [hanswered]
      exact .tail _ (.head _)
    obtain ⟨⟨repoId, ⟨id, parent⟩⟩, ha, hEq⟩ := List.mem_map.1 hmem
    cases hEq
    exact ha
  · rintro ⟨head, hhead, hchain⟩
    rw [hmain] at hhead
    cases hhead
    -- The second commit has no parent.
    rcases Relation.ReflTransGen.cases_head hchain with hEq | ⟨p, ⟨row, hrow, hp⟩, -⟩
    · exact absurd hEq (by decide)
    · rw [hrow] at hparent
      have hnone := Option.some.inj hparent
      rw [hp] at hnone
      cases hnone

theorem onMain_iff_not_stale_overlapping :
    ∃ tr s, Trace Txs.step (.start aliceDb) tr s ∧ ∃ x ∈ tr, Stale x := by
  obtain ⟨tr, s, hrun, hanswered, hlost⟩ := exists_overlapping
  have hiff := onMain_iff_not_stale (by rfl) (by rfl) hrun
  refine ⟨tr, s, hrun, ?_⟩
  by_contra hnone
  have hall : ∀ x ∈ tr, ¬Stale x := fun x hx hstale => hnone ⟨x, hx, hstale⟩
  exact hlost (hiff.2 hall 1 _ hanswered)

theorem not_onMain :
    ¬∀ (db : HubDatabase) (tr : List (Txs × TxAction × Txs)) (s : Txs), db.repoCommits = .empty →
      db.repoRefs = .empty → Trace Txs.step (.start db) tr s →
      ∀ repoId e, (repoId, e) ∈ s.answered → OnMain s.db repoId e.id := by
  intro hclaim
  obtain ⟨tr, s, hrun, hanswered, hlost⟩ := exists_overlapping
  exact hlost (hclaim aliceDb tr s (by rfl) (by rfl) hrun 1 _ hanswered)

end Hub
end OpenWeights
