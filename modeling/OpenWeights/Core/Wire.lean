import OpenWeights.Core.Xorbs

/-!
# Wire — the xet wire formats

The handlers are stated over arbitrary third-party functions (`Crates`).  This module gives the
documented ones, so that the handlers can be run on concrete bodies: the hex form of a
`MerkleHash`, the 48-byte records of an uploaded shard, and the chunk header of a xorb.  Hash
functions and footers stay parameters of `wireCrates`.
-/

namespace OpenWeights
namespace Core

open Db

/-! ## Fields -/

def leNat (b : Bytes) : Nat :=
  b.foldr (fun x acc => x.toNat + 256 * acc) 0

def u32At (b : Bytes) (i : Nat) : UInt32 :=
  UInt32.ofNat (leNat ((b.drop i).take 4))

def hashAtFront (b : Bytes) : Hash :=
  if h : (b.take 32).length = 32 then ⟨b.take 32, h⟩ else Hash.fill 0

/-! ## `MerkleHash` as hex: each group of eight bytes reversed -/

def reverseGroups (b : Bytes) : Bytes :=
  (b.take 8).reverse ++ ((b.drop 8).take 8).reverse ++ ((b.drop 16).take 8).reverse ++
    (b.drop 24).reverse

theorem length_reverseGroups {b : Bytes} (h : b.length = 32) : (reverseGroups b).length = 32 := by
  simp [reverseGroups, h]

def reverseHash (h : Hash) : Hash :=
  ⟨reverseGroups h.1, length_reverseGroups h.2⟩

def merkleHex (h : Hash) : String :=
  hexOf (reverseHash h)

def merkleFromHex (s : String) : Option Hash :=
  (decodeHex32 s).map reverseHash

/-! ## Shard records -/

def recordSize : Nat := 48

def shardHeaderTag : Bytes :=
  [72, 70, 82, 101, 112, 111, 77, 101, 116, 97, 68, 97, 116, 97, 0, 85,
    105, 103, 69, 106, 123, 129, 87, 131, 165, 189, 217, 92, 205, 209, 74, 169]

def bookendHash : Bytes :=
  List.replicate 32 255

def eofError : String := "failed to fill whole buffer"

def wireHeader (cur : Bytes) : Except String (UInt64 × Bytes) :=
  if cur.length < recordSize then
    .error eofError
  else if cur.take 32 ≠ shardHeaderTag then
    .error "wrong magic number"
  else
    .ok (UInt64.ofNat (leNat ((cur.drop 32).take 8)), cur.drop recordSize)

def wireSegment (r : Bytes) : MDBSegment :=
  { xorbHash := hashAtFront r
    chunkIndexStart := u32At r 40
    chunkIndexEnd := u32At r 44
    unpackedSegmentBytes := u32At r 36 }

def wireChunk (r : Bytes) : MDBChunk :=
  { chunkByteRangeStart := u32At r 32
    unpackedSegmentBytes := u32At r 36 }

def records (cur : Bytes) (n : Nat) : List Bytes :=
  (List.range n).map fun i => (cur.drop (recordSize * (i + 1))).take recordSize

def flagAt (cur : Bytes) (bit : Nat) : Nat :=
  (u32At cur 32).toNat / 2 ^ bit % 2

/-- The optional metadata record at offset `i`. -/
def wireMetadataExt (cur : Bytes) (i : Nat) : Option Hash :=
  if flagAt cur 30 = 1 then some (hashAtFront (cur.drop i)) else none

/-- A file info: a header record, the segments, optional verification records (bit 31) and the
optional metadata record (bit 30). -/
def wireFileInfo (cur : Bytes) : Except String (Option MDBFileInfo × Bytes) :=
  if cur.length < recordSize then
    .error eofError
  else if cur.take 32 = bookendHash then
    .ok (none, cur.drop recordSize)
  else
    let n := (u32At cur 36).toNat
    let extOffset := recordSize * (1 + n + flagAt cur 31 * n)
    let size := extOffset + recordSize * flagAt cur 30
    if cur.length < size then
      .error eofError
    else
      .ok
        (some
          { fileHash := hashAtFront cur
            segments := (records cur n).map wireSegment
            sha256 := wireMetadataExt cur extOffset },
          cur.drop size)

def wireXorbInfo (cur : Bytes) : Except String (Option MDBXorbInfo × Bytes) :=
  if cur.length < recordSize then
    .error eofError
  else if cur.take 32 = bookendHash then
    .ok (none, cur.drop recordSize)
  else
    let n := (u32At cur 36).toNat
    let size := recordSize * (1 + n)
    if cur.length < size then
      .error eofError
    else
      .ok
        (some
          { xorbHash := hashAtFront cur
            chunks := (records cur n).map wireChunk },
          cur.drop size)

theorem wireHeader_rest {cur rest : Bytes} {v : UInt64} (h : wireHeader cur = .ok (v, rest)) :
    rest.length ≤ cur.length := by
  unfold wireHeader at h
  split at h
  · cases h
  · split at h
    · cases h
    · cases h
      simp

theorem wireFileInfo_rest {cur rest : Bytes} {fi : MDBFileInfo}
    (h : wireFileInfo cur = .ok (some fi, rest)) :
    rest.length + fi.segments.length < cur.length := by
  unfold wireFileInfo at h
  split at h
  · cases h
  · split at h
    · cases h
    · dsimp only at h
      split at h
      · cases h
      · rename_i hshort _ hsize
        cases h
        simp only [records, List.length_map, List.length_range, List.length_drop]
        simp only [recordSize] at hshort hsize ⊢
        have hgrow : (u32At cur 36).toNat ≤
            48 * (1 + (u32At cur 36).toNat + flagAt cur 31 * (u32At cur 36).toNat) := by
          omega
        omega

theorem wireXorbInfo_rest {cur rest : Bytes} {xi : MDBXorbInfo}
    (h : wireXorbInfo cur = .ok (some xi, rest)) : rest.length < cur.length := by
  unfold wireXorbInfo at h
  split at h
  · cases h
  · split at h
    · cases h
    · dsimp only at h
      split at h
      · cases h
      · rename_i hsize
        cases h
        simp only [List.length_drop]
        simp only [recordSize] at *
        omega

def wireCodec : ShardCodec :=
  { header := wireHeader
    fileInfo := wireFileInfo
    xorbInfo := wireXorbInfo
    hex := merkleHex
    header_rest := wireHeader_rest
    fileInfo_rest := wireFileInfo_rest
    xorbInfo_rest := wireXorbInfo_rest }

/-! ## Chunk headers -/

/-- `parse_chunk_header`: version byte, three bytes of compressed length, scheme byte, three bytes
of uncompressed length. -/
def wireChunkHeader (b : Bytes) : Option Nat :=
  match b with
  | version :: l₀ :: l₁ :: l₂ :: _ :: _ :: _ :: _ :: [] =>
      if version = 0 then some (leNat [l₀, l₁, l₂]) else none
  | _ => none

/-- The crates with given hash functions and a given footer deserializer. -/
def wireCrates (deserialize : Bytes → Option XorbObjectInfo) (xorbHash : List (Hash × Nat) → Hash)
    (sha256 : Bytes → Hash) : Crates :=
  { wireCodec with
    fromHex := merkleFromHex
    deserialize := deserialize
    parseChunkHeader := wireChunkHeader
    xorbHash := xorbHash
    sha256 := sha256 }

/-- The crates on bodies without a footer, which `XorbObject::deserialize` refuses. -/
def bareCrates (sha256 : Bytes → Hash) : Crates :=
  wireCrates (fun _ => none) (fun _ => Hash.fill 0) sha256

/-! ## Writing shards -/

/-- The `w` low bytes of `n`, least significant first. -/
def leBytes (w n : Nat) : Bytes :=
  (List.range w).map fun i => UInt8.ofNat (n / 256 ^ i)

def writeSegment (s : MDBSegment) : Bytes :=
  s.xorbHash.1 ++ leBytes 4 0 ++ leBytes 4 s.unpackedSegmentBytes.toNat ++
    leBytes 4 s.chunkIndexStart.toNat ++ leBytes 4 s.chunkIndexEnd.toNat

def bookend : Bytes :=
  bookendHash ++ List.replicate 16 0

/-- A shard that registers one file and lists no xorb of its own. -/
def writeShard (fileId : Hash) (segments : List MDBSegment) : Bytes :=
  shardHeaderTag ++ leBytes 8 expectedHeaderVersion.toNat ++ leBytes 8 0 ++
    (fileId.1 ++ leBytes 4 0 ++ leBytes 4 segments.length ++ leBytes 8 0) ++
    segments.flatMap writeSegment ++ bookend ++ bookend

/-! ## Sample bodies -/

/-- A bare chunk stream: one uncompressed chunk of three bytes. -/
def sampleBody : Bytes := [0, 3, 0, 0, 0, 3, 0, 0, 1, 2, 3]

def sampleHex : String :=
  "aaaaaaaaaaaaaaaaaaaaaaaaaaaaaaaaaaaaaaaaaaaaaaaaaaaaaaaaaaaaaaaa"

def sampleHash : Hash := Hash.fill 170

end Core
end OpenWeights
