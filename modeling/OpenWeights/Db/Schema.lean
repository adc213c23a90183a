import OpenWeights.Lib.Table

/-!
# Schema — the tables of the CAS database

The tables of `cas/migrations/0002_xorbs_shards.sql` as later migrations leave them (`0004` makes
`xorbs.sia_object_id` nullable, `0009` adds `xorb_bodies`, `0012` adds
`reconstruction_files.sha256`, `0014` adds `xorbs.chunk_boundaries`).

`xorbs` and `shards` share their pin columns, and every statement that moves a row through the pin
state machine exists once per table.  `PinRow` holds those columns and `Database.updatePin` is the
one update both families are instances of.

Range columns are END-EXCLUSIVE, as in the migration comment.  Timestamps are microseconds of the
database clock.
-/

namespace OpenWeights
namespace Db

open Lib

/-! ## Values -/

abbrev Bytes := List UInt8

/-- A 32-byte hash (`[u8; 32]`, `BYTEA`). -/
abbrev Hash := { b : Bytes // b.length = 32 }

instance : LawfulBEq Hash := inferInstance

def Hash.fill (b : UInt8) : Hash :=
  ⟨List.replicate 32 b, List.length_replicate⟩

inductive XorbPinState
  | uploading
  | pinning
  | pinned
  | orphaned
  deriving DecidableEq, Repr

/-- Which of the two pinned tables a statement works on. -/
inductive Kind
  | xorb
  | shard
  deriving DecidableEq, Repr

/-! ## Rows -/

/-- The columns `xorbs` and `shards` share. -/
structure PinRow where
  siaObjectId : Option Bytes
  sizeBytes : Nat
  pinState : XorbPinState
  pinAttempts : Nat
  lastPinAttemptAt : Option Nat
  deriving DecidableEq, Repr

structure XorbRow extends PinRow where
  chunkBoundaries : Option (List Int)
  deriving DecidableEq, Repr

abbrev ShardRow := PinRow

/-- The column defaults of a fresh `xorbs` or `shards` row. -/
def PinRow.fresh (sizeBytes : Nat) : PinRow :=
  { siaObjectId := none
    sizeBytes := sizeBytes
    pinState := .pinning
    pinAttempts := 0
    lastPinAttemptAt := none }

structure FileRow where
  shardHash : Hash
  totalSize : Int
  sha256 : Option Hash
  deriving DecidableEq, Repr

/-- The non-key columns of `reconstruction_terms`, also what a reconstruction returns per term. -/
structure Term where
  xorbHash : Hash
  xorbStart : Int
  xorbEnd : Int
  xorbByteStart : Int
  xorbByteEnd : Int
  unpackedStart : Int
  unpackedEnd : Int
  deriving DecidableEq, Repr

/-- A row of `usage_log`, for the events the upload handlers record. -/
inductive UsageRow
  | xorbUpload (xorbHash : Hash) (bytes : Nat)
  | shardUpload (shardHash : Hash) (bytes : Nat)
  deriving DecidableEq, Repr

/-- The tables the upload, reconciliation and reconstruction paths touch. -/
structure Database where
  xorbs : Table Hash XorbRow
  xorbBodies : Table Hash Bytes
  shards : Table Hash ShardRow
  reconstructionFiles : Table Hash FileRow
  reconstructionTerms : Table (Hash × Int) Term
  usageLog : List UsageRow

namespace Database

def empty : Database :=
  { xorbs := .empty
    xorbBodies := .empty
    shards := .empty
    reconstructionFiles := .empty
    reconstructionTerms := .empty
    usageLog := [] }

/-! ## The pin columns of both tables -/

def pin (db : Database) : Kind → Hash → Option PinRow
  | .xorb, h => (db.xorbs.find h).map XorbRow.toPinRow
  | .shard, h => db.shards.find h

def pinRows (db : Database) : Kind → List (Hash × PinRow)
  | .xorb => db.xorbs.rows.map fun r => (r.1, r.2.toPinRow)
  | .shard => db.shards.rows

/-- `UPDATE xorbs` / `UPDATE shards` of the pin columns, `WHERE` the key is `h`. -/
def updatePin (db : Database) (k : Kind) (h : Hash) (f : PinRow → PinRow) : Database :=
  match k with
  | .xorb => { db with xorbs := db.xorbs.update h fun r => { r with toPinRow := f r.toPinRow } }
  | .shard => { db with shards := db.shards.update h f }

theorem mem_pinRows_iff {db : Database} {k : Kind} {h : Hash} {r : PinRow} :
    (h, r) ∈ db.pinRows k ↔ db.pin k h = some r := by
  cases k with
  | xorb =>
      simp only [pinRows, pin, List.mem_map, Option.map_eq_some_iff, Table.find_eq_some_iff]
      constructor
      · rintro ⟨⟨h', r'⟩, hmem, hEq⟩
        cases hEq
        exact ⟨r', hmem, rfl⟩
      · rintro ⟨r', hmem, rfl⟩
        exact ⟨(h, r'), hmem, rfl⟩
  | shard =>
      simp [pinRows, pin, Table.find_eq_some_iff]

theorem nodup_pinRows (db : Database) (k : Kind) : ((db.pinRows k).map Prod.fst).Nodup := by
  cases k with
  | xorb =>
      have hkeys : (db.pinRows .xorb).map Prod.fst = db.xorbs.rows.map Prod.fst := by
        simp [pinRows, List.map_map, Function.comp_def]
      rw [hkeys]
      exact db.xorbs.nodupKeys
  | shard => exact db.shards.nodupKeys

theorem pin_updatePin (db : Database) (k k' : Kind) (h h' : Hash) (f : PinRow → PinRow) :
    (db.updatePin k h f).pin k' h' =
      (db.pin k' h').map fun r => if k' = k ∧ h' = h then f r else r := by
  cases k <;> cases k'
  · -- Both sides are about `xorbs`: the update commutes with taking the pin columns.
    simp only [updatePin, pin, Table.find_update, true_and, Option.map_map]
    congr 1
    funext r
    by_cases hh : h' = h <;> simp [hh]
  · simp [updatePin, pin]
  · simp [updatePin, pin, Function.comp_def]
  · simp [updatePin, pin, Table.find_update]

@[simp] theorem pin_updatePin_self (db : Database) (k : Kind) (h : Hash) (f : PinRow → PinRow) :
    (db.updatePin k h f).pin k h = (db.pin k h).map f := by
  simp [pin_updatePin]

theorem pin_updatePin_of_ne {db : Database} {k k' : Kind} {h h' : Hash} {f : PinRow → PinRow}
    (hne : ¬(k' = k ∧ h' = h)) : (db.updatePin k h f).pin k' h' = db.pin k' h' := by
  simp [pin_updatePin, hne]

@[simp] theorem xorbBodies_updatePin (db : Database) (k : Kind) (h : Hash) (f : PinRow → PinRow) :
    (db.updatePin k h f).xorbBodies = db.xorbBodies := by
  cases k <;> rfl

@[simp] theorem reconstructionFiles_updatePin (db : Database) (k : Kind) (h : Hash)
    (f : PinRow → PinRow) :
    (db.updatePin k h f).reconstructionFiles = db.reconstructionFiles := by
  cases k <;> rfl

@[simp] theorem reconstructionTerms_updatePin (db : Database) (k : Kind) (h : Hash)
    (f : PinRow → PinRow) :
    (db.updatePin k h f).reconstructionTerms = db.reconstructionTerms := by
  cases k <;> rfl

end Database

end Db
end OpenWeights
