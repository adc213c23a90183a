import OpenWeights.Lib.Prog
import OpenWeights.Db.Queries

/-!
# Ops — the atomic operations of the CAS service

Handlers and the reconciler act on the outside world only through

* SQL statements (`Stmt`), each of which runs atomically or fails without effect;
* calls of the Sia adapter, which may succeed, fail as `Unavailable`, fail as `Other`, or exceed
  their time budget;
* the rate-limit check.

`exec` gives each operation its effect on the database.  What the environment decides (the clock,
the scan order of a `SELECT`, a failure, what Sia answers) is the `Env` argument.  `pin_exec` and
its companions say once, for all statements, what can happen to a row; every invariant of the
service is derived from them.
-/

namespace OpenWeights
namespace Service

open Lib Db Db.Database

/-! ## Errors -/

inductive SiaAdapterError
  | unavailable
  | other
  deriving DecidableEq, Repr

/-- A Sia call under a timeout: the outer error is the elapsed budget. -/
abbrev SiaCall (α : Type) := Except Unit (Except SiaAdapterError α)

/-- `AppError`, the variants the upload handlers return. -/
inductive AppError
  | badRequest (message : String)
  | hashMismatch (expected actual : Hash)
  | shardMissingXorbs (missing : List Hash)
  | shardVersionUnsupported
  | rateLimited (retryAfter : Nat)
  | db (e : DbError)
  | other
  deriving DecidableEq, Repr

/-! ## Statements -/

/-- The SQL statements; `commitShard` is the whole upload transaction of a shard. -/
inductive Stmt
  | insertPending (xorbHash : Hash) (sizeBytes : Nat) (chunkBoundaries : List Int)
  | insertXorbBody (xorbHash : Hash) (content : Bytes)
  | getChunkBoundaries (hashes : List Hash)
  | setPinState (k : Kind) (h : Hash) (state : XorbPinState) (siaObjectId : Option Bytes)
  | setPinned (k : Kind) (h : Hash) (siaId : Bytes)
  | touchAttempt (k : Kind) (h : Hash)
  | bumpAttempt (k : Kind) (h : Hash)
  | orphan (k : Kind) (h : Hash)
  | reviveOrphanedXorbs (xorbHashes : List Hash)
  | whichXorbsArePinned (xorbHashes : List Hash)
  | commitShard (shardHash : Hash) (sizeBytes : Nat) (files : List ParsedFile)
      (terms : List ParsedTerm)
  | loadXorbBody (h : Hash)
  | fetchStuck (k : Kind)
  | recordUsage (row : UsageRow)

@[reducible] def Stmt.Reply : Stmt → Type
  | .insertPending _ _ _ => Bool
  | .insertXorbBody _ _ => Unit
  | .getChunkBoundaries _ => List (Hash × List Int)
  | .setPinState _ _ _ _ => Unit
  | .setPinned _ _ _ => Unit
  | .touchAttempt _ _ => Unit
  | .bumpAttempt _ _ => Unit
  | .orphan _ _ => Unit
  | .reviveOrphanedXorbs _ => Nat
  | .whichXorbsArePinned _ => List Hash
  | .commitShard _ _ _ _ => Bool
  | .loadXorbBody _ => Option Bytes
  | .fetchStuck _ => List StuckRow
  | .recordUsage _ => Unit

/-- Run a statement at database time `now`.  `none` means that `scan` is not an order of the rows
of the scanned table. -/
def Stmt.exec (now : Nat) (scan : List (Hash × PinRow)) :
    (s : Stmt) → Database → Option (Database × Except DbError s.Reply)
  | .insertPending h size bounds, db =>
      some ((db.insertPending h size bounds).1, .ok (db.insertPending h size bounds).2)
  | .insertXorbBody h content, db =>
      match db.insertXorbBody h content with
      | .ok db' => some (db', .ok ())
      | .error e => some (db, .error e)
  | .getChunkBoundaries hs, db => some (db, .ok (db.getChunkBoundaries hs))
  | .setPinState k h state id, db => some (db.setPinState k h state id now, .ok ())
  | .setPinned k h id, db => some (db.setPinned k h id now, .ok ())
  | .touchAttempt k h, db => some (db.touchAttempt k h now, .ok ())
  | .bumpAttempt k h, db => some (db.bumpAttempt k h now, .ok ())
  | .orphan k h, db => some (db.orphan k h now, .ok ())
  | .reviveOrphanedXorbs hs, db =>
      some ((db.reviveOrphanedXorbs hs).1, .ok (db.reviveOrphanedXorbs hs).2)
  | .whichXorbsArePinned hs, db => some (db, .ok (db.whichXorbsArePinned hs))
  | .commitShard h size files terms, db =>
      match db.insertShardWithReconstruction h size files terms with
      | .ok (db', true) =>
          -- `record_shard_upload_tx` commits with the rows it accounts for
          some ({ db' with usageLog := db'.usageLog ++ [.shardUpload h size] }, .ok true)
      | .ok (db', false) => some (db', .ok false)
      | .error e => some (db, .error e)
  | .loadXorbBody h, db => some (db, .ok (db.loadXorbBody h))
  | .fetchStuck k, db =>
      if scan.Perm (db.pinRows k) then
        some (db, .ok (Database.fetchStuck scan now))
      else
        none
  | .recordUsage row, db => some ({ db with usageLog := db.usageLog ++ [row] }, .ok ())

/-! ## Operations -/

/-- An atomic operation.  A Sia call carries the row on whose behalf it is made. -/
inductive Op
  | sql (s : Stmt)
  | uploadAndPin (k : Kind) (h : Hash) (bytes : Bytes)
  | pinOnly (k : Kind) (h : Hash) (siaObjectId : Bytes)
  | rateLimit

@[reducible] def Res : Op → Type
  | .sql s => Except DbError s.Reply
  | .uploadAndPin _ _ _ => SiaCall Bytes
  | .pinOnly _ _ _ => SiaCall Unit
  | .rateLimit => Except AppError Unit

/-- What the environment decides about one operation. -/
inductive Env
  | sql (now : Nat) (scan : List (Hash × PinRow))
  | dbError
  | upload (answer : SiaCall Bytes)
  | pin (answer : SiaCall Unit)
  | rateLimit (answer : Except AppError Unit)

/-- The effect of an operation; `none` when the environment's part does not fit it. -/
def exec : (o : Op) → Env → Database → Option (Database × Res o)
  | .sql s, .sql now scan, db => s.exec now scan db
  | .sql _, .dbError, db => some (db, .error .connection)
  | .uploadAndPin _ _ _, .upload answer, db => some (db, answer)
  | .pinOnly _ _ _, .pin answer, db => some (db, answer)
  | .rateLimit, .rateLimit answer, db => some (db, answer)
  | _, _, _ => none

abbrev Code (α : Type) := Prog Op Res α

/-! ## The operations as programs -/

def sql (s : Stmt) : Code (Except DbError s.Reply) :=
  Prog.perform (Op.sql s)

def uploadAndPin (k : Kind) (h : Hash) (bytes : Bytes) : Code (SiaCall Bytes) :=
  Prog.perform (Op.uploadAndPin k h bytes)

def pinOnly (k : Kind) (h : Hash) (siaObjectId : Bytes) : Code (SiaCall Unit) :=
  Prog.perform (Op.pinOnly k h siaObjectId)

def rateLimitCheck : Code (Except AppError Unit) :=
  Prog.perform Op.rateLimit

/-! ## What a statement can do to a pinned row -/

namespace Stmt

/-- The effect of a statement on an existing `xorbs` or `shards` row. -/
def pinEffect (now : Nat) : Stmt → Kind → Hash → PinRow → PinRow
  | .setPinState k' h' state id, k, h, r =>
      if k = k' ∧ h = h' then r.setPinState state id now else r
  | .setPinned k' h' id, k, h, r => if k = k' ∧ h = h' then r.setPinned id now else r
  | .touchAttempt k' h', k, h, r => if k = k' ∧ h = h' then r.touchAttempt now else r
  | .bumpAttempt k' h', k, h, r => if k = k' ∧ h = h' then r.bumpAttempt now else r
  | .orphan k' h', k, h, r => if k = k' ∧ h = h' then r.orphan now else r
  | .reviveOrphanedXorbs hs, .xorb, h, r =>
      if h ∈ hs ∧ r.pinState = .orphaned then r.revive else r
  | _, _, _, r => r

/-- The statement, run on `db`, creates the row. -/
def Creates (db : Database) : Stmt → Kind → Hash → Nat → Prop
  | .insertPending h' size _, .xorb, h, n => h = h' ∧ n = size ∧ db.pin .xorb h = none
  | .commitShard h' size files terms, .shard, h, n =>
      h = h' ∧ n = size ∧ db.pin .shard h = none ∧
        ∃ db', db.insertShardWithReconstruction h' size files terms = .ok (db', true)
  | _, _, _, _ => False

end Stmt

/-- The row updates a statement can amount to, with the statement each belongs to. -/
inductive RowUpdate (now : Nat) (s : Stmt) (k : Kind) (h : Hash) (r : PinRow) : PinRow → Prop
  | keep : RowUpdate now s k h r r
  | setPinState (state : XorbPinState) (id : Option Bytes) (hs : s = .setPinState k h state id) :
      RowUpdate now s k h r (r.setPinState state id now)
  | setPinned (id : Bytes) (hs : s = .setPinned k h id) :
      RowUpdate now s k h r (r.setPinned id now)
  | touchAttempt (hs : s = .touchAttempt k h) : RowUpdate now s k h r (r.touchAttempt now)
  | bumpAttempt (hs : s = .bumpAttempt k h) : RowUpdate now s k h r (r.bumpAttempt now)
  | orphan (hs : s = .orphan k h) : RowUpdate now s k h r (r.orphan now)
  | revive (hashes : List Hash) (hs : s = .reviveOrphanedXorbs hashes) (hk : k = .xorb)
      (horphaned : r.pinState = .orphaned) : RowUpdate now s k h r r.revive

theorem Stmt.rowUpdate (now : Nat) (s : Stmt) (k : Kind) (h : Hash) (r : PinRow) :
    RowUpdate now s k h r (s.pinEffect now k h r) := by
  cases s with
  | setPinState k' h' state id =>
      by_cases hk : k = k' ∧ h = h'
      · obtain ⟨rfl, rfl⟩ := hk
        simpa [Stmt.pinEffect] using RowUpdate.setPinState state id rfl
      · simpa [Stmt.pinEffect, hk] using RowUpdate.keep
  | setPinned k' h' id =>
      by_cases hk : k = k' ∧ h = h'
      · obtain ⟨rfl, rfl⟩ := hk
        simpa [Stmt.pinEffect] using RowUpdate.setPinned id rfl
      · simpa [Stmt.pinEffect, hk] using RowUpdate.keep
  | touchAttempt k' h' =>
      by_cases hk : k = k' ∧ h = h'
      · obtain ⟨rfl, rfl⟩ := hk
        simpa [Stmt.pinEffect] using RowUpdate.touchAttempt rfl
      · simpa [Stmt.pinEffect, hk] using RowUpdate.keep
  | bumpAttempt k' h' =>
      by_cases hk : k = k' ∧ h = h'
      · obtain ⟨rfl, rfl⟩ := hk
        simpa [Stmt.pinEffect] using RowUpdate.bumpAttempt rfl
      · simpa [Stmt.pinEffect, hk] using RowUpdate.keep
  | orphan k' h' =>
      by_cases hk : k = k' ∧ h = h'
      · obtain ⟨rfl, rfl⟩ := hk
        simpa [Stmt.pinEffect] using RowUpdate.orphan rfl
      · simpa [Stmt.pinEffect, hk] using RowUpdate.keep
  | reviveOrphanedXorbs hashes =>
      cases k with
      | shard => exact .keep
      | xorb =>
          by_cases hhit : h ∈ hashes ∧ r.pinState = .orphaned
          · simpa [Stmt.pinEffect, hhit] using RowUpdate.revive hashes rfl rfl hhit.2
          · simpa [Stmt.pinEffect, hhit] using RowUpdate.keep
  | _ => exact .keep

theorem pin_insertPending (db : Database) (h : Hash) (size : Nat) (bounds : List Int) (k : Kind)
    (h' : Hash) :
    (db.insertPending h size bounds).1.pin k h' =
      if k = .xorb ∧ h' = h ∧ db.pin .xorb h = none then some (PinRow.fresh size)
      else db.pin k h' := by
  cases k with
  | shard => simp [Database.insertPending, Database.pin]
  | xorb =>
      by_cases hh : h' = h
      · subst hh
        cases hf : db.xorbs.find h' <;>
          simp [Database.insertPending, Database.pin, hf]
      · simp [Database.insertPending, Database.pin, Table.find_insertNew_of_ne _ _ hh, hh]

theorem pin_reviveOrphanedXorbs (db : Database) (hs : List Hash) (now : Nat) (k : Kind)
    (h : Hash) :
    (db.reviveOrphanedXorbs hs).1.pin k h =
      (db.pin k h).map (Stmt.pinEffect now (.reviveOrphanedXorbs hs) k h) := by
  cases k with
  | shard =>
      cases hf : db.shards.find h <;>
        simp [Database.reviveOrphanedXorbs, Database.pin, hf, Stmt.pinEffect]
  | xorb =>
      simp only [Database.reviveOrphanedXorbs, Database.pin, Table.find_updateWhere,
        Option.map_map]
      congr 1
      funext r
      by_cases hr : h ∈ hs ∧ r.pinState = .orphaned
      · simp [Stmt.pinEffect, hr]
      · simp only [Function.comp_apply, Stmt.pinEffect, hr, if_false]
        rw [if_neg]
        simpa using hr

/-- What a committed shard transaction did, table by table. -/
theorem insertShardWithReconstruction_ok {db db' : Database} {h : Hash} {size : Nat}
    {files : List ParsedFile} {terms : List ParsedTerm}
    (hok : db.insertShardWithReconstruction h size files terms = .ok (db', true)) :
    db.shards.find h = none ∧ (files.map ParsedFile.fileId).Nodup ∧
      db' =
        { db with
          shards := db.shards.insertNew h (PinRow.fresh size)
          reconstructionFiles :=
            files.foldl (fun t f => upsertFile t h f) db.reconstructionFiles
          reconstructionTerms := db.reconstructionTerms.insertAll
            (terms.map fun t => ((t.fileId, t.termIndex), t.term)) } := by
  unfold Database.insertShardWithReconstruction at hok
  split at hok
  · cases hok
  · rename_i hnone
    split at hok
    · rename_i hnodup
      dsimp only at hok
      split at hok
      · have hdb := (Prod.mk.inj (Except.ok.inj hok)).1
        exact ⟨hnone, hnodup, hdb.symm⟩
      · cases hok
    · cases hok

/-- A shard whose hash is already present changes nothing. -/
theorem insertShardWithReconstruction_dedup {db db' : Database} {h : Hash} {size : Nat}
    {files : List ParsedFile} {terms : List ParsedTerm}
    (hok : db.insertShardWithReconstruction h size files terms = .ok (db', false)) :
    db' = db := by
  unfold Database.insertShardWithReconstruction at hok
  split at hok
  · exact (Prod.mk.inj (Except.ok.inj hok)).1.symm
  · split at hok
    · dsimp only at hok
      split at hok
      · cases hok
      · cases hok
    · cases hok

/-- Everything a statement can do to the pin columns: rows are updated by `Stmt.pinEffect`, are
created fresh, and never disappear. -/
theorem pin_exec {s : Stmt} {now : Nat} {scan : List (Hash × PinRow)} {db db' : Database}
    {r : Except DbError s.Reply} (he : s.exec now scan db = some (db', r)) (k : Kind) (h : Hash) :
    db'.pin k h = (db.pin k h).map (s.pinEffect now k h) ∨
      (db.pin k h = none ∧ ∃ n, s.Creates db k h n ∧ db'.pin k h = some (PinRow.fresh n)) := by
  -- A statement that keeps the pin columns falls under the first case.
  have hkeep : (∀ row, s.pinEffect now k h row = row) → db'.pin k h = db.pin k h →
      db'.pin k h = (db.pin k h).map (s.pinEffect now k h) := by
    intro hid hEq
    rw [hEq]
    cases db.pin k h with
    | none => rfl
    | some row => simp [hid]
  cases s with
  | insertPending h' size bounds =>
      obtain ⟨rfl, -⟩ := Prod.mk.inj (Option.some.inj he)
      by_cases hnew : k = .xorb ∧ h = h' ∧ db.pin .xorb h' = none
      · obtain ⟨rfl, rfl, hnone⟩ := hnew
        refine .inr ⟨hnone, size, ⟨rfl, rfl, hnone⟩, ?_⟩
        simp [pin_insertPending, hnone]
      · refine .inl (hkeep (fun _ => rfl) ?_)
        simp [pin_insertPending, hnew]
  | insertXorbBody h' content =>
      refine .inl (hkeep (fun _ => rfl) ?_)
      simp only [Stmt.exec] at he
      split at he
      · rename_i db₁ hdb
        obtain ⟨rfl, -⟩ := Prod.mk.inj (Option.some.inj he)
        unfold Database.insertXorbBody at hdb
        split at hdb
        · cases hdb
        · cases hdb
          cases k <;> rfl
      · obtain ⟨rfl, -⟩ := Prod.mk.inj (Option.some.inj he)
        rfl
  | setPinState k' h' state id =>
      obtain ⟨rfl, -⟩ := Prod.mk.inj (Option.some.inj he)
      exact .inl (Database.pin_updatePin db k' k h' h _)
  | setPinned k' h' id =>
      obtain ⟨rfl, -⟩ := Prod.mk.inj (Option.some.inj he)
      exact .inl (Database.pin_updatePin db k' k h' h _)
  | touchAttempt k' h' =>
      obtain ⟨rfl, -⟩ := Prod.mk.inj (Option.some.inj he)
      exact .inl (Database.pin_updatePin db k' k h' h _)
  | bumpAttempt k' h' =>
      obtain ⟨rfl, -⟩ := Prod.mk.inj (Option.some.inj he)
      exact .inl (Database.pin_updatePin db k' k h' h _)
  | orphan k' h' =>
      obtain ⟨rfl, -⟩ := Prod.mk.inj (Option.some.inj he)
      exact .inl (Database.pin_updatePin db k' k h' h _)
  | reviveOrphanedXorbs hs =>
      obtain ⟨rfl, -⟩ := Prod.mk.inj (Option.some.inj he)
      exact .inl (pin_reviveOrphanedXorbs db hs now k h)
  | commitShard h' size files terms =>
      simp only [Stmt.exec] at he
      split at he
      · rename_i db₁ hok
        obtain ⟨rfl, -⟩ := Prod.mk.inj (Option.some.inj he)
        obtain ⟨hnone, -, rfl⟩ := insertShardWithReconstruction_ok hok
        cases k with
        | xorb => exact .inl (hkeep (fun _ => rfl) rfl)
        | shard =>
            by_cases hh : h = h'
            · subst hh
              refine .inr ⟨hnone, size, ⟨rfl, rfl, hnone, _, hok⟩, ?_⟩
              simp [Database.pin, hnone]
            · refine .inl (hkeep (fun _ => rfl) ?_)
              simp [Database.pin, Table.find_insertNew_of_ne _ _ hh]
      · rename_i db₁ hok
        obtain ⟨rfl, -⟩ := Prod.mk.inj (Option.some.inj he)
        have hdb := insertShardWithReconstruction_dedup hok
        subst hdb
        exact .inl (hkeep (fun _ => rfl) rfl)
      · obtain ⟨rfl, -⟩ := Prod.mk.inj (Option.some.inj he)
        exact .inl (hkeep (fun _ => rfl) rfl)
  | fetchStuck k' =>
      simp only [Stmt.exec] at he
      split at he
      · obtain ⟨rfl, -⟩ := Prod.mk.inj (Option.some.inj he)
        exact .inl (hkeep (fun _ => rfl) rfl)
      · cases he
  | getChunkBoundaries hs =>
      obtain ⟨rfl, -⟩ := Prod.mk.inj (Option.some.inj he)
      exact .inl (hkeep (fun _ => rfl) rfl)
  | whichXorbsArePinned hs =>
      obtain ⟨rfl, -⟩ := Prod.mk.inj (Option.some.inj he)
      exact .inl (hkeep (fun _ => rfl) rfl)
  | loadXorbBody h' =>
      obtain ⟨rfl, -⟩ := Prod.mk.inj (Option.some.inj he)
      exact .inl (hkeep (fun _ => rfl) rfl)
  | recordUsage row =>
      obtain ⟨rfl, -⟩ := Prod.mk.inj (Option.some.inj he)
      refine .inl (hkeep (fun _ => rfl) ?_)
      cases k <;> rfl

/-- Everything a statement can do to `xorb_bodies`. -/
theorem xorbBodies_exec {s : Stmt} {now : Nat} {scan : List (Hash × PinRow)} {db db' : Database}
    {r : Except DbError s.Reply} (he : s.exec now scan db = some (db', r)) :
    db'.xorbBodies = db.xorbBodies ∨
      ∃ h content, s = .insertXorbBody h content ∧
        db'.xorbBodies = db.xorbBodies.insertNew h content := by
  cases s with
  | insertXorbBody h content =>
      simp only [Stmt.exec] at he
      split at he
      · rename_i db₁ hdb
        obtain ⟨rfl, -⟩ := Prod.mk.inj (Option.some.inj he)
        -- The foreign key refuses a body without a row.
        unfold Database.insertXorbBody at hdb
        split at hdb
        · cases hdb
        · cases hdb
          exact .inr ⟨h, content, rfl, rfl⟩
      · obtain ⟨rfl, -⟩ := Prod.mk.inj (Option.some.inj he)
        exact .inl rfl
  | commitShard h size files terms =>
      left
      simp only [Stmt.exec] at he
      split at he
      · rename_i db₁ hok
        obtain ⟨rfl, -⟩ := Prod.mk.inj (Option.some.inj he)
        obtain ⟨-, -, rfl⟩ := insertShardWithReconstruction_ok hok
        rfl
      · rename_i db₁ hok
        obtain ⟨rfl, -⟩ := Prod.mk.inj (Option.some.inj he)
        rw [insertShardWithReconstruction_dedup hok]
      · obtain ⟨rfl, -⟩ := Prod.mk.inj (Option.some.inj he)
        rfl
  | fetchStuck k =>
      simp only [Stmt.exec] at he
      split at he
      · obtain ⟨rfl, -⟩ := Prod.mk.inj (Option.some.inj he)
        exact .inl rfl
      · cases he
  | _ =>
      obtain ⟨rfl, -⟩ := Prod.mk.inj (Option.some.inj he)
      left
      first
        | rfl
        | exact Database.xorbBodies_updatePin _ _ _ _

/-- Only a committed shard transaction writes the reconstruction tables. -/
theorem reconstruction_exec {s : Stmt} {now : Nat} {scan : List (Hash × PinRow)}
    {db db' : Database} {r : Except DbError s.Reply} (he : s.exec now scan db = some (db', r)) :
    (db'.reconstructionFiles = db.reconstructionFiles ∧
      db'.reconstructionTerms = db.reconstructionTerms) ∨
      ∃ h size files terms db₁,
        (⟨.sql s, r⟩ : Call Op Res) = ⟨.sql (.commitShard h size files terms), .ok true⟩ ∧
        db.insertShardWithReconstruction h size files terms = .ok (db₁, true) ∧
        db'.reconstructionFiles = db₁.reconstructionFiles ∧
        db'.reconstructionTerms = db₁.reconstructionTerms := by
  cases s with
  | insertXorbBody h content =>
      left
      simp only [Stmt.exec] at he
      split at he
      · rename_i db₁ hdb
        obtain ⟨rfl, -⟩ := Prod.mk.inj (Option.some.inj he)
        unfold Database.insertXorbBody at hdb
        split at hdb
        · cases hdb
        · cases hdb
          exact ⟨rfl, rfl⟩
      · obtain ⟨rfl, -⟩ := Prod.mk.inj (Option.some.inj he)
        exact ⟨rfl, rfl⟩
  | commitShard h size files terms =>
      simp only [Stmt.exec] at he
      split at he
      -- The shard is new: its files and terms are inserted in one transaction.
      · rename_i db₁ hok
        obtain ⟨rfl, rfl⟩ := Prod.mk.inj (Option.some.inj he)
        exact .inr ⟨h, size, files, terms, db₁, rfl, hok, rfl, rfl⟩
      · rename_i db₁ hok
        obtain ⟨rfl, -⟩ := Prod.mk.inj (Option.some.inj he)
        rw [insertShardWithReconstruction_dedup hok]
        exact .inl ⟨rfl, rfl⟩
      · obtain ⟨rfl, -⟩ := Prod.mk.inj (Option.some.inj he)
        exact .inl ⟨rfl, rfl⟩
  | fetchStuck k =>
      simp only [Stmt.exec] at he
      split at he
      · obtain ⟨rfl, -⟩ := Prod.mk.inj (Option.some.inj he)
        exact .inl ⟨rfl, rfl⟩
      · cases he
  | _ =>
      obtain ⟨rfl, -⟩ := Prod.mk.inj (Option.some.inj he)
      left
      first
        | exact ⟨rfl, rfl⟩
        | exact ⟨Database.reconstructionFiles_updatePin _ _ _ _,
            Database.reconstructionTerms_updatePin _ _ _ _⟩

/-- An operation changes the database only as a statement. -/
theorem exec_cases {o : Op} {e : Env} {db db' : Database} {r : Res o}
    (he : exec o e db = some (db', r)) :
    db' = db ∧ (∀ s, o = .sql s → e = .dbError) ∨
      ∃ now scan s rs, e = .sql now scan ∧ (⟨o, r⟩ : Call Op Res) = ⟨.sql s, rs⟩ ∧
        s.exec now scan db = some (db', rs) := by
  cases o with
  | sql s =>
      cases e with
      | sql now scan => exact .inr ⟨now, scan, s, r, rfl, rfl, he⟩
      | dbError =>
          cases he
          exact .inl ⟨rfl, fun _ _ => rfl⟩
      | _ => cases he
  | uploadAndPin k h bytes =>
      cases e with
      | upload answer =>
          cases he
          exact .inl ⟨rfl, fun s hs => by cases hs⟩
      | _ => cases he
  | pinOnly k h id =>
      cases e with
      | pin answer =>
          cases he
          exact .inl ⟨rfl, fun s hs => by cases hs⟩
      | _ => cases he
  | rateLimit =>
      cases e with
      | rateLimit answer =>
          cases he
          exact .inl ⟨rfl, fun s hs => by cases hs⟩
      | _ => cases he

/-- What a sweep remembers of a row. -/
def StuckRow.of (h : Hash) (r : PinRow) : StuckRow :=
  { hash := h
    siaObjectId := r.siaObjectId
    pinState := r.pinState
    pinAttempts := r.pinAttempts }

theorem mem_fetchStuck {scan : List (Hash × PinRow)} {now : Nat} {row : StuckRow}
    (hrow : row ∈ Database.fetchStuck scan now) :
    ∃ h r, (h, r) ∈ scan ∧ r.stuck now = true ∧ row = StuckRow.of h r := by
  rcases List.mem_map.1 hrow with ⟨⟨h, r⟩, hmem, rfl⟩
  have hsorted := List.mem_of_mem_take hmem
  have hfilter := (List.mem_insertionSort _).1 hsorted
  rcases List.mem_filter.1 hfilter with ⟨hscan, hstuck⟩
  exact ⟨h, r, hscan, hstuck, rfl⟩

/-- The rows a sweep selects are stuck rows of the table, as they are when the `SELECT` runs. -/
theorem fetchStuck_exec {k : Kind} {e : Env} {db db' : Database} {rows : List StuckRow}
    (he : exec (.sql (.fetchStuck k)) e db = some (db', .ok rows)) :
    db' = db ∧ ∃ now scan, e = .sql now scan ∧ scan.Perm (db.pinRows k) ∧
      rows = Database.fetchStuck scan now := by
  rcases exec_cases he with ⟨-, hnot⟩ | ⟨now, scan, s, rs, rfl, hcall, hs⟩
  · have herr := hnot _ rfl
    subst herr
    cases he
  · cases hcall
    simp only [Stmt.exec] at hs
    split at hs
    · rename_i hperm
      have hpair := Prod.mk.inj (Option.some.inj hs)
      exact ⟨hpair.1.symm, now, scan, rfl, hperm, (Except.ok.inj hpair.2).symm⟩
    · cases hs

/-- No row is selected twice. -/
theorem nodup_fetchStuck {k : Kind} {db : Database} {scan : List (Hash × PinRow)}
    (hperm : scan.Perm (db.pinRows k)) (now : Nat) :
    ((Database.fetchStuck scan now).map StuckRow.hash).Nodup := by
  have hscan : (scan.map Prod.fst).Nodup :=
    (hperm.map Prod.fst).nodup_iff.2 (db.nodup_pinRows k)
  have hsorted : (((scan.filter fun r => r.2.stuck now).insertionSort byLastAttempt).map
      Prod.fst).Nodup := by
    have hfilter : ((scan.filter fun r => r.2.stuck now).map Prod.fst).Nodup :=
      hscan.sublist (List.filter_sublist.map _)
    exact ((List.perm_insertionSort _ _).map Prod.fst).nodup_iff.2 hfilter
  have htake := hsorted.sublist ((List.take_sublist reconcilerBatch _).map Prod.fst)
  simpa [Database.fetchStuck, List.map_map, Function.comp_def] using htake

theorem pin_of_fetchStuck {k : Kind} {db : Database} {scan : List (Hash × PinRow)} {now : Nat}
    (hperm : scan.Perm (db.pinRows k)) {row : StuckRow}
    (hrow : row ∈ Database.fetchStuck scan now) :
    ∃ r, db.pin k row.hash = some r ∧ r.stuck now = true ∧ row = StuckRow.of row.hash r := by
  rcases mem_fetchStuck hrow with ⟨h, r, hscan, hstuck, rfl⟩
  exact ⟨r, mem_pinRows_iff.1 (hperm.mem_iff.1 hscan), hstuck, rfl⟩

end Service
end OpenWeights
