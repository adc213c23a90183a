import OpenWeights.Service.Ops

/-!
# Reconciler — the background pin reconciler

Model of `openweights-cas-storage/src/reconciler.rs`: one pass (`reconcileOnce`) selects stuck rows
of each table and retries the Sia call that would advance them.  Every statement and every Sia call
is a separate step; the row a pass works on is the copy it selected.

The xorb and the shard path are not mirror images: only the xorb path can upload again, and the two
classify an exceeded time budget differently.
-/

namespace OpenWeights
namespace Storage

open Lib Db Db.Database Service

def isTransient : SiaAdapterError → Bool
  | .unavailable => true
  | .other => false

/-- `bump_xorb_attempt` and `bump_shard_attempt`.  The choice between bump and orphan uses the
attempt count read at select time. -/
def bumpAttempt (k : Kind) (h : Hash) (priorAttempts : Nat) (err : SiaAdapterError) :
    Code (Except DbError Bool) := do
  let written ←
    if isTransient err then
      sql (.touchAttempt k h)
    else if priorAttempts + 1 ≥ maxPinAttempts then
      sql (.orphan k h)
    else
      sql (.bumpAttempt k h)
  pure (written.map fun _ => true)

def bumpXorbAttempt (h : Hash) (priorAttempts : Nat) (err : SiaAdapterError) :
    Code (Except DbError Bool) :=
  bumpAttempt .xorb h priorAttempts err

def bumpShardAttempt (h : Hash) (priorAttempts : Nat) (err : SiaAdapterError) :
    Code (Except DbError Bool) :=
  bumpAttempt .shard h priorAttempts err

/-- `orphan_xorb` / `orphan_shard` and the answer of their callers. -/
def orphanRow (k : Kind) (h : Hash) : Code (Except DbError Bool) := do
  let written ← sql (.orphan k h)
  pure (written.map fun _ => true)

/-- `set_pinned_xorb` / `set_pinned_shard` and the answer of their callers. -/
def setPinnedRow (k : Kind) (h : Hash) (siaId : Bytes) : Code (Except DbError Bool) := do
  let written ← sql (.setPinned k h siaId)
  pure (written.map fun _ => true)

/-- `reconcile_xorb_row`.  An exceeded budget counts as `SiaAdapterError::Other`. -/
def reconcileXorbRow (row : StuckRow) : Code (Except DbError Bool) :=
  if row.pinState = .uploading then
    orphanRow .xorb row.hash
  else
    match row.siaObjectId with
    | some oid => do
        match ← pinOnly .xorb row.hash oid with
        | .ok (.ok ()) => setPinnedRow .xorb row.hash oid
        | .ok (.error e) => bumpXorbAttempt row.hash row.pinAttempts e
        | .error () => bumpXorbAttempt row.hash row.pinAttempts .other
    | none => do
        match ← sql (.loadXorbBody row.hash) with
        | .error e => pure (.error e)
        | .ok (some bytes) =>
            match ← uploadAndPin .xorb row.hash bytes with
            | .ok (.ok siaId) => setPinnedRow .xorb row.hash siaId
            | .ok (.error e) => bumpXorbAttempt row.hash row.pinAttempts e
            | .error () => bumpXorbAttempt row.hash row.pinAttempts .other
        | .ok none => bumpXorbAttempt row.hash row.pinAttempts .other

/-- `reconcile_shard_row`.  An exceeded budget counts as `SiaAdapterError::Unavailable`, and a row
without object id cannot be retried. -/
def reconcileShardRow (row : StuckRow) : Code (Except DbError Bool) :=
  if row.pinState = .uploading then
    orphanRow .shard row.hash
  else
    match row.siaObjectId with
    | some oid => do
        match ← pinOnly .shard row.hash oid with
        | .ok (.ok ()) => setPinnedRow .shard row.hash oid
        | .ok (.error e) => bumpShardAttempt row.hash row.pinAttempts e
        | .error () => bumpShardAttempt row.hash row.pinAttempts .unavailable
    | none => bumpShardAttempt row.hash row.pinAttempts .other

/-- The row loop of a sweep, with the number of rows handled.  A failing row is logged and
skipped. -/
def sweepRows (reconcileRow : StuckRow → Code (Except DbError Bool)) : List StuckRow → Code Nat
  | [] => pure 0
  | row :: rows => do
      let handled ← reconcileRow row
      let rest ← sweepRows reconcileRow rows
      pure ((if handled = .ok true then 1 else 0) + rest)

def reconcileOnce : Code (Except DbError Nat) := do
  match ← sql (.fetchStuck .xorb) with
  | .error e => pure (.error e)
  | .ok xorbRows =>
  let handledXorbs ← sweepRows reconcileXorbRow xorbRows
  match ← sql (.fetchStuck .shard) with
  | .error e => pure (.error e)
  | .ok shardRows =>
  let handledShards ← sweepRows reconcileShardRow shardRows
  pure (.ok (handledXorbs + handledShards))

end Storage
end OpenWeights
