import OpenWeights.Db.Schema

/-!
# Queries — the SQL statements of the CAS, as functions on the database

One definition per statement of `openweights-cas-db/src/queries/{xorbs,shards,reconstruction}.rs`,
of the inline `xorb_bodies` insert in `handlers/xorbs.rs`, and of the statements private to
`openweights-cas-storage/src/reconciler.rs`.  Each statement is atomic; how the handlers and the
reconciler sequence them is in `Core.Handlers` and `Storage.Reconciler`.

`now` is the value of `NOW()` when the statement runs.
-/

namespace OpenWeights
namespace Db

open Lib

/-- The database errors the model distinguishes: a statement that failed without effect, and the
two constraint violations an accepted request can run into. -/
inductive DbError
  | connection
  | cardinalityViolation
  | foreignKeyViolation
  deriving DecidableEq, Repr

/-! ## Constants of the reconciler -/

def reconcilerBatch : Nat := 20

def maxPinAttempts : Nat := 5

/-- `STUCK_THRESHOLD`, five minutes in microseconds. -/
def stuckThreshold : Nat := 5 * 60 * 1000000

/-! ## Row updates of the pin state machine -/

namespace PinRow

/-- `SET pin_state = $1, sia_object_id = COALESCE($2, sia_object_id),
pin_attempts = pin_attempts + 1, last_pin_attempt_at = NOW()`. -/
def setPinState (state : XorbPinState) (siaObjectId : Option Bytes) (now : Nat) (r : PinRow) :
    PinRow :=
  { r with
    pinState := state
    siaObjectId := siaObjectId <|> r.siaObjectId
    pinAttempts := r.pinAttempts + 1
    lastPinAttemptAt := some now }

/-- `SET pin_state = 'pinned', sia_object_id = COALESCE(sia_object_id, $1),
last_pin_attempt_at = NOW() WHERE ... AND pin_state <> 'pinned'`. -/
def setPinned (siaId : Bytes) (now : Nat) (r : PinRow) : PinRow :=
  if r.pinState = .pinned then
    r
  else
    { r with
      pinState := .pinned
      siaObjectId := r.siaObjectId <|> some siaId
      lastPinAttemptAt := some now }

/-- `SET last_pin_attempt_at = NOW()`. -/
def touchAttempt (now : Nat) (r : PinRow) : PinRow :=
  { r with lastPinAttemptAt := some now }

/-- `SET pin_attempts = pin_attempts + 1, last_pin_attempt_at = NOW()`. -/
def bumpAttempt (now : Nat) (r : PinRow) : PinRow :=
  { r with
    pinAttempts := r.pinAttempts + 1
    lastPinAttemptAt := some now }

/-- `SET pin_state = 'orphaned', pin_attempts = pin_attempts + 1, last_pin_attempt_at = NOW()`. -/
def orphan (now : Nat) (r : PinRow) : PinRow :=
  { r with
    pinState := .orphaned
    pinAttempts := r.pinAttempts + 1
    lastPinAttemptAt := some now }

/-- `SET pin_state = 'pinning', pin_attempts = 0, last_pin_attempt_at = NULL`. -/
def revive (r : PinRow) : PinRow :=
  { r with
    pinState := .pinning
    pinAttempts := 0
    lastPinAttemptAt := none }

/-- `last_pin_attempt_at IS NULL OR last_pin_attempt_at < NOW() - INTERVAL '5 minutes'`. -/
def attemptIsOld (now : Nat) : Option Nat → Bool
  | none => true
  | some t => t + stuckThreshold < now

def stuck (now : Nat) (r : PinRow) : Bool :=
  decide (r.pinState = .uploading ∨ r.pinState = .pinning) &&
    attemptIsOld now r.lastPinAttemptAt &&
    decide (r.pinAttempts < maxPinAttempts)

end PinRow

namespace Database

/-! ## `queries/xorbs.rs` and the `xorb_bodies` insert -/

/-- `xorbs::insert_pending`: `INSERT INTO xorbs ... ON CONFLICT DO NOTHING RETURNING`.  An empty
boundary list is stored as `NULL`. -/
def insertPending (db : Database) (xorbHash : Hash) (sizeBytes : Nat)
    (chunkBoundaries : List Int) : Database × Bool :=
  let boundaries := if chunkBoundaries.isEmpty then none else some chunkBoundaries
  let row : XorbRow := { PinRow.fresh sizeBytes with chunkBoundaries := boundaries }
  ({ db with xorbs := db.xorbs.insertNew xorbHash row }, (db.xorbs.find xorbHash).isNone)

/-- `INSERT INTO xorb_bodies (xorb_hash, content) ... ON CONFLICT DO NOTHING`; the key references
`xorbs`. -/
def insertXorbBody (db : Database) (xorbHash : Hash) (content : Bytes) :
    Except DbError Database :=
  match db.xorbs.find xorbHash with
  | none => .error .foreignKeyViolation
  | some _ => .ok { db with xorbBodies := db.xorbBodies.insertNew xorbHash content }

/-- `xorbs::get_chunk_boundaries`: rows with `NULL` or empty boundaries are absent. -/
def getChunkBoundaries (db : Database) (hashes : List Hash) : List (Hash × List Int) :=
  db.xorbs.rows.filterMap fun r =>
    if r.1 ∈ hashes then
      match r.2.chunkBoundaries with
      | some bounds => if bounds.isEmpty then none else some (r.1, bounds)
      | none => none
    else
      none

def setPinState (db : Database) (k : Kind) (h : Hash) (state : XorbPinState)
    (siaObjectId : Option Bytes) (now : Nat) : Database :=
  db.updatePin k h (PinRow.setPinState state siaObjectId now)

/-! ## `queries/shards.rs` -/

/-- `shards::revive_orphaned_xorbs`, with the number of rows affected. -/
def reviveOrphanedXorbs (db : Database) (xorbHashes : List Hash) : Database × Nat :=
  let hit := fun (h : Hash) (r : XorbRow) =>
    decide (h ∈ xorbHashes) && decide (r.pinState = .orphaned)
  ({ db with
      xorbs := db.xorbs.updateWhere hit fun r => { r with toPinRow := r.toPinRow.revive } },
    (db.xorbs.rows.filter fun r => hit r.1 r.2).length)

/-- `shards::which_xorbs_are_pinned`: despite its name the subset that has a body and is in state
`pinning`, `pinned` or `orphaned`. -/
def whichXorbsArePinned (db : Database) (xorbHashes : List Hash) : List Hash :=
  (db.xorbs.rows.filter fun r =>
    decide (r.1 ∈ xorbHashes) && (db.xorbBodies.find r.1).isSome &&
      decide (r.2.pinState = .pinning ∨ r.2.pinState = .pinned ∨ r.2.pinState = .orphaned)).map
    Prod.fst

/-! ## `queries/reconstruction.rs` -/

structure ParsedFile where
  fileId : Hash
  totalSize : Int
  sha256 : Option Hash
  deriving DecidableEq, Repr

/-- `ParsedTerm`: the key and the columns of one `reconstruction_terms` row. -/
structure ParsedTerm where
  fileId : Hash
  termIndex : Int
  term : Term
  deriving DecidableEq, Repr

structure ReconstructionFile where
  fileId : Hash
  totalSize : Int
  deriving DecidableEq, Repr

structure ReconstructionRow where
  file : ReconstructionFile
  terms : List Term
  deriving DecidableEq, Repr

/-- `ON CONFLICT (file_id) DO UPDATE SET sha256 = COALESCE(EXCLUDED.sha256, ...)`: of an existing
row only `sha256` can change. -/
def upsertFile (files : Table Hash FileRow) (shardHash : Hash) (f : ParsedFile) :
    Table Hash FileRow :=
  (files.update f.fileId fun r => { r with sha256 := f.sha256 <|> r.sha256 }).insertNew f.fileId
    { shardHash := shardHash
      totalSize := f.totalSize
      sha256 := f.sha256 }

/-- `shards::insert_shard_with_reconstruction`.  An error aborts the enclosing transaction, so it
comes without a database.  `DO UPDATE` may not touch one row twice in a command, so a shard that
lists a file id twice is an error. -/
def insertShardWithReconstruction (db : Database) (shardHash : Hash) (sizeBytes : Nat)
    (files : List ParsedFile) (terms : List ParsedTerm) : Except DbError (Database × Bool) :=
  match db.shards.find shardHash with
  | some _ => .ok (db, false)
  | none =>
      if (files.map ParsedFile.fileId).Nodup then
        let files' :=
          files.foldl (fun t f => upsertFile t shardHash f) db.reconstructionFiles
        -- the two foreign keys of `reconstruction_terms`
        if terms.all fun t =>
            (files'.find t.fileId).isSome && (db.xorbs.find t.term.xorbHash).isSome then
          .ok
            ({ db with
                shards := db.shards.insertNew shardHash (PinRow.fresh sizeBytes)
                reconstructionFiles := files'
                reconstructionTerms := db.reconstructionTerms.insertAll
                  (terms.map fun t => ((t.fileId, t.termIndex), t.term)) },
              true)
        else
          .error .foreignKeyViolation
      else
        .error .cardinalityViolation

def byTermIndex (a b : Int × Term) : Prop := a.1 ≤ b.1

instance : DecidableRel byTermIndex := fun a b => inferInstanceAs (Decidable (a.1 ≤ b.1))

def storedTerms (db : Database) (fileId : Hash) : List (Int × Term) :=
  ((db.reconstructionTerms.rows.filter fun r => r.1.1 = fileId).map fun r =>
    (r.1.2, r.2)).insertionSort byTermIndex

/-- The join condition `x.xorb_merkle_hash = t.xorb_hash AND x.pin_state = 'pinned'`. -/
def xorbPinned (db : Database) (xorbHash : Hash) : Bool :=
  match db.xorbs.find xorbHash with
  | some x => x.pinState = .pinned
  | none => false

/-- `reconstruction::get_reconstruction`: join the file with its terms and their *pinned* xorbs,
order by term index, and answer `None` for an empty result. -/
def getReconstruction (db : Database) (fileId : Hash) : Option ReconstructionRow :=
  match db.reconstructionFiles.find fileId with
  | none => none
  | some f =>
      match (db.storedTerms fileId).filter fun t => db.xorbPinned t.2.xorbHash with
      | [] => none
      | t :: ts =>
          some
            { file := { fileId := fileId, totalSize := f.totalSize }
              terms := (t :: ts).map Prod.snd }

/-! ## Statements private to `reconciler.rs` -/

/-- `StuckRow`: the columns a sweep remembers about a row it selected. -/
structure StuckRow where
  hash : Hash
  siaObjectId : Option Bytes
  pinState : XorbPinState
  pinAttempts : Nat
  deriving DecidableEq, Repr

def nullsFirst : Option Nat → Option Nat → Bool
  | none, _ => true
  | some _, none => false
  | some s, some t => s ≤ t

def byLastAttempt (a b : Hash × PinRow) : Prop :=
  nullsFirst a.2.lastPinAttemptAt b.2.lastPinAttemptAt = true

instance : DecidableRel byLastAttempt := fun a b =>
  inferInstanceAs (Decidable (nullsFirst a.2.lastPinAttemptAt b.2.lastPinAttemptAt = true))

/-- `fetch_stuck_xorbs` and `fetch_stuck_shards`.  `scan` is the order in which the database
happens to visit the rows; it decides between rows with equal `last_pin_attempt_at`. -/
def fetchStuck (scan : List (Hash × PinRow)) (now : Nat) : List StuckRow :=
  (((scan.filter fun r => r.2.stuck now).insertionSort byLastAttempt).take reconcilerBatch).map
    fun r =>
      { hash := r.1
        siaObjectId := r.2.siaObjectId
        pinState := r.2.pinState
        pinAttempts := r.2.pinAttempts }

def setPinned (db : Database) (k : Kind) (h : Hash) (siaId : Bytes) (now : Nat) : Database :=
  db.updatePin k h (PinRow.setPinned siaId now)

/-- The `UPDATE` of `bump_xorb_attempt` / `bump_shard_attempt` after a transient failure. -/
def touchAttempt (db : Database) (k : Kind) (h : Hash) (now : Nat) : Database :=
  db.updatePin k h (PinRow.touchAttempt now)

/-- The `UPDATE` of `bump_xorb_attempt` / `bump_shard_attempt` below the attempt cap. -/
def bumpAttempt (db : Database) (k : Kind) (h : Hash) (now : Nat) : Database :=
  db.updatePin k h (PinRow.bumpAttempt now)

def orphan (db : Database) (k : Kind) (h : Hash) (now : Nat) : Database :=
  db.updatePin k h (PinRow.orphan now)

def loadXorbBody (db : Database) (h : Hash) : Option Bytes :=
  db.xorbBodies.find h

end Database

end Db
end OpenWeights
