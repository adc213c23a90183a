import OpenWeights.Core.ShardParse
import OpenWeights.Service.Ops

/-!
# Xorbs — the xorb upload handler

Model of `openweights-cas-core/src/handlers/xorbs.rs`: the footer check, the recovery walk over the
chunk headers, and `upload_xorb` as a program over the atomic operations of `Service.Ops`.  Between
two operations of the program other requests and the reconciler may run, and the request may be
dropped.

The functions of `xet_core_structures` and `sha2` the handlers call are collected in `Crates`.
-/

namespace OpenWeights
namespace Core

open Lib Db Service

/-! ## Third-party functions -/

/-- `XorbObject::info`, the fields of the footer the handler reads. -/
structure XorbObjectInfo where
  chunkHashes : List Hash
  unpackedChunkOffsets : List UInt32
  chunkBoundaryOffsets : List UInt32
  deriving DecidableEq, Repr

structure Crates extends ShardCodec where
  /-- `MerkleHash::from_hex`. -/
  fromHex : String → Option Hash
  /-- `XorbObject::deserialize`. -/
  deserialize : Bytes → Option XorbObjectInfo
  /-- `parse_chunk_header` of eight bytes, then `get_compressed_length`. -/
  parseChunkHeader : Bytes → Option Nat
  /-- `xorb_hash`. -/
  xorbHash : List (Hash × Nat) → Hash
  /-- `Sha256::digest`. -/
  sha256 : Bytes → Hash

/-! ## Verification -/

def maxXorbBytes : Nat := 64 * 1024 * 1024 + 4096

def xorbChunkHeaderLength : Nat := 8

/-- The loop of `walk_chunk_boundaries` from `offset` on; `none` stands for the early returns.  A
turn advances by at least a chunk header, so `bytes.length + 1` turns are enough. -/
def walkFrom (x : Crates) (bytes : Bytes) : Nat → Nat → Option (List Int)
  | 0, _ => none
  | fuel + 1, offset =>
      if offset < bytes.length then
        if offset + xorbChunkHeaderLength > bytes.length then
          none
        else
          match x.parseChunkHeader ((bytes.drop offset).take xorbChunkHeaderLength) with
          | none => none
          | some compressedLength =>
              let offset' := offset + (xorbChunkHeaderLength + compressedLength)
              if offset' > bytes.length then
                none
              else
                (walkFrom x bytes fuel offset').map fun boundaries => (offset' : Int) :: boundaries
      else
        some []

/-- `walk_chunk_boundaries`: the physical end offset of each chunk, empty when the chunks do not
tile the body. -/
def walkChunkBoundaries (x : Crates) (bytes : Bytes) : List Int :=
  (walkFrom x bytes (bytes.length + 1) 0).getD []

/-- The loop that turns end offsets into lengths, refusing offsets that go backwards. -/
def hashesAndLens : UInt32 → List (Hash × UInt32) → Except Service.AppError (List (Hash × Nat))
  | _, [] => .ok []
  | prevOff, (h, off) :: rest =>
      if off < prevOff then
        .error (.badRequest "malformed_xorb")
      else do
        let tail ← hashesAndLens off rest
        .ok ((h, (off - prevOff).toNat) :: tail)

def computeXorbHashAndBoundaries (x : Crates) (bytes : Bytes) :
    Except Service.AppError (Hash × List Int) :=
  match x.deserialize bytes with
  | none => .error (.badRequest "malformed_xorb")
  | some info =>
      let numChunks := info.chunkHashes.length
      if numChunks = 0 then
        .ok (x.xorbHash [], [])
      else if info.unpackedChunkOffsets.length ≠ numChunks ∨
          info.chunkBoundaryOffsets.length ≠ numChunks then
        .error (.badRequest "malformed_xorb")
      else do
        let pairs ← hashesAndLens 0 (info.chunkHashes.zip info.unpackedChunkOffsets)
        .ok (x.xorbHash pairs, info.chunkBoundaryOffsets.map fun o => (o.toNat : Int))

/-- Steps (3) and (4) of `upload_xorb`: compare the footer hash with the path hash, fall back to
trusting the path hash when there is none, and recover the chunk boundaries. -/
def verifyXorb (x : Crates) (expected : Hash) (body : Bytes) :
    Except Service.AppError (List Int) := do
  let chunkBoundaries ←
    match computeXorbHashAndBoundaries x body with
    | .ok (actual, boundaries) =>
        if actual ≠ expected then
          .error (.hashMismatch expected actual)
        else
          .ok boundaries
    | .error _ => .ok []
  if chunkBoundaries.isEmpty then
    .ok (walkChunkBoundaries x body)
  else
    .ok chunkBoundaries

/-- Step (1): the hash of the path, in the suffix alone or split over both segments. -/
def pathHash (x : Crates) (pathPrefix hashSuffix : String) : Option Hash :=
  (x.fromHex hashSuffix).or (x.fromHex (pathPrefix ++ hashSuffix))

/-- Steps (1) to (4): everything `upload_xorb` decides before its first operation. -/
def admitXorb (x : Crates) (pathPrefix hashSuffix : String) (body : Bytes) :
    Except Service.AppError (Hash × List Int) :=
  match pathHash x pathPrefix hashSuffix with
  | none => .error (.badRequest "invalid_xorb_hash")
  | some expected =>
      if body.length > maxXorbBytes then
        .error (.badRequest "xorb_too_large")
      else do
        let chunkBoundaries ← verifyXorb x expected body
        .ok (expected, chunkBoundaries)

theorem admitXorb_eq_ok_iff {x : Crates} {pathPrefix hashSuffix : String} {body : Bytes}
    {h : Hash} {boundaries : List Int} :
    admitXorb x pathPrefix hashSuffix body = .ok (h, boundaries) ↔
      pathHash x pathPrefix hashSuffix = some h ∧ body.length ≤ maxXorbBytes ∧
        verifyXorb x h body = .ok boundaries := by
  unfold admitXorb
  cases hpath : pathHash x pathPrefix hashSuffix with
  | none => simp
  | some expected =>
      by_cases hlen : body.length > maxXorbBytes
      · simp [hlen]
      · have hle : body.length ≤ maxXorbBytes := Nat.le_of_not_lt hlen
        simp only [hlen, if_false, hle, true_and, Option.some.injEq]
        constructor
        · intro hok
          rcases except_bind_eq_ok.1 hok with ⟨bounds, hverify, hEq⟩
          cases hEq
          exact ⟨rfl, hverify⟩
        · rintro ⟨rfl, hverify⟩
          exact except_bind_eq_ok.2 ⟨boundaries, hverify, rfl⟩

/-! ## The handler -/

/-- `UploadXorbResponse`: the value of `was_inserted`. -/
abbrev UploadXorbResponse := Bool

/-- `record_xorb_upload` under `log_on_err`: a failure is logged and forgotten. -/
def recordXorbUpload (h : Hash) (sizeBytes : Nat) : Code Unit := do
  let _ ← sql (.recordUsage (.xorbUpload h sizeBytes))
  pure ()

/-- The branches of `upload_xorb` that leave the row `'pinning'`; the result of the state write is
discarded. -/
def leavePinning (k : Kind) (h : Hash) : Code Unit := do
  let _ ← sql (.setPinState k h .pinning none)
  pure ()

/-- Step (7) and what follows it: the Sia call and the final state write. -/
def pushXorb (h : Hash) (body : Bytes) : Code (Except Service.AppError UploadXorbResponse) := do
  match ← uploadAndPin .xorb h body with
  | .ok (.ok siaObjectId) =>
      match ← sql (.setPinState .xorb h .pinned (some siaObjectId)) with
      | .error e => pure (.error (.db e))
      | .ok () =>
          recordXorbUpload h body.length
          pure (.ok true)
  | .ok (.error .unavailable) =>
      leavePinning .xorb h
      recordXorbUpload h body.length
      pure (.ok true)
  | .ok (.error .other) =>
      leavePinning .xorb h
      pure (.error .other)
  | .error () =>
      leavePinning .xorb h
      recordXorbUpload h body.length
      pure (.ok true)

/-- Steps (6) to (9): claim the hash, store the body, push it to Sia. -/
def storeXorb (h : Hash) (chunkBoundaries : List Int) (body : Bytes) :
    Code (Except Service.AppError UploadXorbResponse) := do
  match ← sql (.insertPending h body.length chunkBoundaries) with
  | .error e => pure (.error (.db e))
  | .ok false =>
      recordXorbUpload h body.length
      pure (.ok false)
  | .ok true =>
      -- (6a) the result of the body insert is discarded
      let _ ← sql (.insertXorbBody h body)
      pushXorb h body

def uploadXorb (x : Crates) (pathPrefix hashSuffix : String) (body : Bytes) :
    Code (Except Service.AppError UploadXorbResponse) :=
  match admitXorb x pathPrefix hashSuffix body with
  | .error e => pure (.error e)
  | .ok (expected, chunkBoundaries) => do
      match ← rateLimitCheck with
      | .error e => pure (.error e)
      | .ok () => storeXorb expected chunkBoundaries body

end Core
end OpenWeights
