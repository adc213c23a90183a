import OpenWeights.Core.Xorbs

/-!
# Shards — the shard upload handler

Model of `openweights-cas-core/src/handlers/shards.rs`.  The transaction of step (7) is one atomic
operation (`Stmt.commitShard`); everything around it is a separate step.
-/

namespace OpenWeights
namespace Core

open Lib Db Db.Database Service

def maxShardBytes : Nat := 16 * 1024 * 1024

inductive UploadShardResponse
  | exists
  | syncPerformed
  deriving DecidableEq, Repr

/-- `map_parse_err_with_metrics`, without the counters. -/
def mapParseErr : ShardParseError → Service.AppError
  | .headerVersion _ => .shardVersionUnsupported
  | .footerVersion _ => .shardVersionUnsupported
  | _ => .badRequest "malformed_shard"

/-- Step (4) with its tolerance carve-out: a shard of another version is stored as opaque bytes
without reconstruction. -/
def parseShard (x : Crates) (bytes : Bytes) : Except Service.AppError ParsedShard :=
  match parseAndValidate x.toShardCodec bytes with
  | .ok parsed => .ok parsed
  | .error (.headerVersion _) | .error (.footerVersion _) =>
      .ok
        { headerVersion := 0
          footerVersion := 0
          referencedXorbHashes := []
          files := []
          terms := [] }
  | .error e => .error (mapParseErr e)

/-- Step (6a) for one term: rewrite its xorb byte range from the recorded physical boundaries. -/
def correctTerm (boundaries : List (Hash × List Int)) (t : ParsedTerm) : ParsedTerm :=
  match boundaries.lookup t.term.xorbHash with
  | none => t
  | some bounds =>
      let startIdx := t.term.xorbStart
      let endIdx := t.term.xorbEnd
      if startIdx < 0 ∨ endIdx ≤ startIdx ∨ endIdx.toNat > bounds.length then
        t
      else
        let physStart := if startIdx = 0 then 0 else bounds.getD (startIdx - 1).toNat 0
        let physEnd := bounds.getD (endIdx - 1).toNat 0
        if physStart < physEnd then
          { t with
            term :=
              { t.term with
                xorbByteStart := physStart
                xorbByteEnd := physEnd } }
        else
          t

/-- Step (9): the Sia call and the final state write of a fresh shard. -/
def pushShard (shardHash : Hash) (body : Bytes) :
    Code (Except Service.AppError UploadShardResponse) := do
  match ← uploadAndPin .shard shardHash body with
  | .ok (.ok siaObjectId) =>
      match ← sql (.setPinState .shard shardHash .pinned (some siaObjectId)) with
      | .error e => pure (.error (.db e))
      | .ok () => pure (.ok .syncPerformed)
  | .ok (.error .unavailable) =>
      leavePinning .shard shardHash
      pure (.ok .syncPerformed)
  | .ok (.error .other) =>
      leavePinning .shard shardHash
      pure (.error .other)
  | .error () =>
      leavePinning .shard shardHash
      pure (.ok .syncPerformed)

/-- Steps (7) to (11): commit the shard with its reconstruction rows, then push it to Sia. -/
def commitShard (shardHash : Hash) (body : Bytes) (files : List ParsedFile)
    (terms : List ParsedTerm) : Code (Except Service.AppError UploadShardResponse) := do
  match ← sql (.commitShard shardHash body.length files terms) with
  | .error e => pure (.error (.db e))
  | .ok false =>
      let _ ← sql (.recordUsage (.shardUpload shardHash body.length))
      pure (.ok .exists)
  | .ok true => pushShard shardHash body

/-- Steps (5) to (11), from a parsed shard on. -/
def storeShard (shardHash : Hash) (body : Bytes) (parsed : ParsedShard) :
    Code (Except Service.AppError UploadShardResponse) := do
  match ← sql (.reviveOrphanedXorbs parsed.referencedXorbHashes) with
  | .error e => pure (.error (.db e))
  | .ok _ =>
  match ← sql (.whichXorbsArePinned parsed.referencedXorbHashes) with
  | .error e => pure (.error (.db e))
  | .ok present =>
  match parsed.referencedXorbHashes.filter fun h => h ∉ present with
  | h :: missing => pure (.error (.shardMissingXorbs (h :: missing)))
  | [] =>
  match ← sql (.getChunkBoundaries parsed.referencedXorbHashes) with
  | .error e => pure (.error (.db e))
  | .ok boundaries =>
  match ← rateLimitCheck with
  | .error e => pure (.error e)
  | .ok () => commitShard shardHash body parsed.files (parsed.terms.map (correctTerm boundaries))

def uploadShard (x : Crates) (body : Bytes) : Code (Except Service.AppError UploadShardResponse) :=
  if body.length > maxShardBytes then
    pure (.error (.badRequest "shard_too_large"))
  else
    match parseShard x body with
    | .error e => pure (.error e)
    | .ok parsed => storeShard (x.sha256 body) body parsed

/-! ## Boundary correction keeps the cut -/

/-- Boundary correction changes at most the xorb byte range of a term. -/
theorem correctTerm_eq (boundaries : List (Hash × List Int)) (t : ParsedTerm) :
    ∃ byteStart byteEnd, correctTerm boundaries t =
      { t with
        term :=
          { t.term with
            xorbByteStart := byteStart
            xorbByteEnd := byteEnd } } := by
  unfold correctTerm
  split
  · exact ⟨_, _, rfl⟩
  · dsimp only
    split_ifs <;> exact ⟨_, _, rfl⟩

@[simp] theorem correctTerm_fileId (boundaries : List (Hash × List Int)) (t : ParsedTerm) :
    (correctTerm boundaries t).fileId = t.fileId := by
  rcases correctTerm_eq boundaries t with ⟨_, _, hEq⟩
  rw [hEq]

@[simp] theorem correctTerm_termIndex (boundaries : List (Hash × List Int)) (t : ParsedTerm) :
    (correctTerm boundaries t).termIndex = t.termIndex := by
  rcases correctTerm_eq boundaries t with ⟨_, _, hEq⟩
  rw [hEq]

@[simp] theorem unpackedRange_correctTerm (boundaries : List (Hash × List Int)) (t : ParsedTerm) :
    unpackedRange (correctTerm boundaries t).term = unpackedRange t.term := by
  rcases correctTerm_eq boundaries t with ⟨_, _, hEq⟩
  rw [hEq]
  rfl

theorem WellCut.map_correctTerm {files : List ParsedFile} {terms : List ParsedTerm}
    (h : WellCut files terms) (boundaries : List (Hash × List Int)) :
    WellCut files (terms.map (correctTerm boundaries)) := by
  refine ⟨?_, ?_⟩
  · intro f hf
    have hcuts := h.cuts f hf
    refine ⟨?_, ?_⟩
    · simpa [Indexed, termsOf, List.filter_map, Function.comp_def] using hcuts.indices
    · simpa [termsOf, List.filter_map, Function.comp_def] using hcuts.tiles
  · intro t ht
    rcases List.mem_map.1 ht with ⟨t', ht', rfl⟩
    simpa using h.owned t' ht'

/-- What `parse_and_validate` and the carve-out let through is well cut. -/
theorem parseShard_wellCut {x : Crates} {bytes : Bytes} {parsed : ParsedShard}
    (h : parseShard x bytes = .ok parsed) (hlen : bytes.length ≤ maxShardBytes)
    (hnodup : (parsed.files.map ParsedFile.fileId).Nodup) :
    WellCut parsed.files parsed.terms := by
  unfold parseShard at h
  split at h
  · rename_i p hparse
    cases h
    refine parseAndValidate_wellCut hparse ?_ hnodup
    simp only [maxShardBytes] at hlen
    omega
  · cases h
    exact WellCut.nil
  · cases h
    exact WellCut.nil
  · cases h

/-- The terms of a shard that is let through are made of segments of xorbs it references. -/
theorem parseShard_shape {x : Crates} {bytes : Bytes} {parsed : ParsedShard}
    (h : parseShard x bytes = .ok parsed) :
    ∀ t ∈ parsed.terms, SegmentShape (shardXorbInfos x.toShardCodec bytes) t.term ∧
      t.term.xorbHash ∈ parsed.referencedXorbHashes := by
  unfold parseShard at h
  split at h
  · rename_i p hparse
    cases h
    exact parseAndValidate_shape hparse
  · cases h
    simp
  · cases h
    simp
  · cases h

/-! ## The physical range of a term -/

/-- The bytes the recorded boundaries give to the chunks of a term, if they reach that far and the
range is not empty. -/
def physicalRange (t : Term) (bounds : List Int) : Option (Int × Int) :=
  if t.xorbStart < 0 ∨ t.xorbEnd ≤ t.xorbStart ∨ t.xorbEnd.toNat > bounds.length then
    none
  else
    let physStart := if t.xorbStart = 0 then 0 else bounds.getD (t.xorbStart - 1).toNat 0
    let physEnd := bounds.getD (t.xorbEnd - 1).toNat 0
    if physStart < physEnd then some (physStart, physEnd) else none

def storedTerm (bounds : Option (List Int)) (t : Term) : Term :=
  match bounds.bind (physicalRange t) with
  | none => t
  | some range => { t with xorbByteStart := range.1, xorbByteEnd := range.2 }

theorem term_correctTerm (boundaries : List (Hash × List Int)) (t : ParsedTerm) :
    (correctTerm boundaries t).term = storedTerm (boundaries.lookup t.term.xorbHash) t.term := by
  unfold correctTerm storedTerm
  split
  · rename_i hnone
    rw [hnone]
    rfl
  · rename_i bounds hbounds
    rw [hbounds, Option.bind_some, physicalRange]
    dsimp only
    split_ifs <;> rfl

/-- A physical range is not empty, and starts at a boundary or at zero. -/
theorem physicalRange_eq_some {t : Term} {bounds : List Int} {range : Int × Int}
    (h : physicalRange t bounds = some range) :
    range.1 < range.2 ∧ ((∀ b ∈ bounds, 0 ≤ b) → 0 ≤ range.1) := by
  unfold physicalRange at h
  split at h
  · cases h
  · simp only [Option.ite_none_right_eq_some, Option.some.injEq] at h
    obtain ⟨hlt, rfl⟩ := h
    refine ⟨hlt, ?_⟩
    intro hnonneg
    dsimp only
    split
    · exact le_rfl
    · -- `getD` is an entry of the list or zero.
      rw [List.getD_eq_getElem?_getD]
      cases hget : bounds[(t.xorbStart - 1).toNat]? with
      | none => exact le_rfl
      | some b => exact hnonneg b (List.mem_of_getElem? hget)

/-- No boundaries are as good as an empty list of them. -/
theorem physicalRange_nil (t : Term) : physicalRange t [] = none := by
  unfold physicalRange
  split
  · rfl
  · rename_i hnot
    simp only [List.length_nil] at hnot
    omega

@[simp] theorem xorbHash_storedTerm (bounds : Option (List Int)) (t : Term) :
    (storedTerm bounds t).xorbHash = t.xorbHash := by
  unfold storedTerm
  split <;> rfl

@[simp] theorem xorbStart_storedTerm (bounds : Option (List Int)) (t : Term) :
    (storedTerm bounds t).xorbStart = t.xorbStart := by
  unfold storedTerm
  split <;> rfl

@[simp] theorem xorbEnd_storedTerm (bounds : Option (List Int)) (t : Term) :
    (storedTerm bounds t).xorbEnd = t.xorbEnd := by
  unfold storedTerm
  split <;> rfl

end Core
end OpenWeights
