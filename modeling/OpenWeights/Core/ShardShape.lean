import OpenWeights.Core.Wire

/-!
# ShardShape — what `parse_and_validate` establishes

The nested loop of the parser over the file infos and their segments, with its two running cursors,
is described from outside: which entries it accepts (`SegmentOk`, one condition for every segment),
what the rows of an accepted shard look like (`ShardShape`), and that none of its `i64` additions
overflows (`NoOverflow`), which is why the rows can be read as integers.
-/

namespace OpenWeights
namespace Core

open Lib Db Db.Database

/-! ## One segment -/

/-- What the parser asks of a segment: chunks in order, and if the shard describes the xorb, chunks
that exist and a byte range that is not empty. -/
structure SegmentOk (xorbInfos : List MDBXorbInfo) (seg : MDBSegment) : Prop where
  chunks : seg.chunkIndexStart < seg.chunkIndexEnd
  described : ∀ chunks, xorbChunks xorbInfos seg.xorbHash = some chunks →
    seg.chunkIndexEnd.toNat ≤ chunks.length ∧
      ∀ first last, chunks[seg.chunkIndexStart.toNat]? = some first →
        chunks[seg.chunkIndexEnd.toNat - 1]? = some last →
          first.chunkByteRangeStart.toNat <
            last.chunkByteRangeStart.toNat + last.unpackedSegmentBytes.toNat

/-- The byte range of a row: not empty for a described xorb, the placeholder `(0, 0)` for any
other. -/
structure ByteRangeOk (xorbInfos : List MDBXorbInfo) (t : Term) : Prop where
  described : ∀ chunks, xorbChunks xorbInfos t.xorbHash = some chunks →
    t.xorbEnd ≤ chunks.length ∧ t.xorbByteStart < t.xorbByteEnd
  external : t.xorbByteStart = 0 ∧ t.xorbByteEnd = 0 ↔ xorbChunks xorbInfos t.xorbHash = none

section Segment

variable {xorbInfos : List MDBXorbInfo} {fileId : Hash} {idx : Nat} {seg : MDBSegment}

theorem segmentOk_of_range {range : Int × Int}
    (h : segmentByteRange xorbInfos fileId idx seg = .ok range) : SegmentOk xorbInfos seg := by
  unfold segmentByteRange at h
  split at h
  · cases h
  rename_i hge
  have hlt : seg.chunkIndexStart < seg.chunkIndexEnd := UInt32.not_le.1 hge
  refine ⟨hlt, ?_⟩
  intro chunks hchunks
  simp only [hchunks] at h
  split at h
  · rename_i first last hfirst hlast
    split at h
    · cases h
    · rename_i hbytes
      have hbound := (List.getElem?_eq_some_iff.1 hlast).1
      have hpos := UInt32.lt_iff_toNat_lt.1 hlt
      refine ⟨by omega, ?_⟩
      intro first' last' hfirst' hlast'
      rw [hfirst, Option.some_inj] at hfirst'
      rw [hlast, Option.some_inj] at hlast'
      subst hfirst'
      subst hlast'
      omega
  · cases h

theorem exists_range_of_segmentOk (h : SegmentOk xorbInfos seg) :
    ∃ range, segmentByteRange xorbInfos fileId idx seg = .ok range := by
  have hge : ¬seg.chunkIndexStart ≥ seg.chunkIndexEnd := UInt32.not_le.2 h.chunks
  unfold segmentByteRange
  rw [if_neg hge]
  cases hchunks : xorbChunks xorbInfos seg.xorbHash with
  | none => exact ⟨_, rfl⟩
  | some chunks =>
      obtain ⟨hbound, hbytes⟩ := h.described chunks hchunks
      have hlt := UInt32.lt_iff_toNat_lt.1 h.chunks
      have hfirst : chunks[seg.chunkIndexStart.toNat]? = some chunks[seg.chunkIndexStart.toNat] :=
        List.getElem?_eq_getElem (by omega)
      have hlast : chunks[seg.chunkIndexEnd.toNat - 1]? =
          some chunks[seg.chunkIndexEnd.toNat - 1] :=
        List.getElem?_eq_getElem (by omega)
      have hlt := hbytes _ _ hfirst hlast
      simp only [hfirst, hlast]
      rw [if_neg (by omega)]
      exact ⟨_, rfl⟩

theorem exists_range_iff :
    (∃ range, segmentByteRange xorbInfos fileId idx seg = .ok range) ↔ SegmentOk xorbInfos seg :=
  ⟨fun ⟨_, h⟩ => segmentOk_of_range h, exists_range_of_segmentOk⟩

/-- The row of an accepted segment. -/
theorem byteRangeOk_of_range {range : Int × Int} {t : Term}
    (h : segmentByteRange xorbInfos fileId idx seg = .ok range) (hhash : t.xorbHash = seg.xorbHash)
    (hend : t.xorbEnd = seg.chunkIndexEnd.toNat)
    (hbytes : (t.xorbByteStart, t.xorbByteEnd) = range) : ByteRangeOk xorbInfos t := by
  have hok := segmentOk_of_range h
  obtain ⟨-, hrange⟩ := segmentByteRange_ok h
  subst hbytes
  rw [← hhash] at hrange
  constructor
  · intro chunks hchunks
    have hbound := (hok.described chunks (hhash ▸ hchunks)).1
    rcases hrange with ⟨hnone, -⟩ | ⟨-, hlt, -⟩
    · rw [hchunks] at hnone
      cases hnone
    · exact ⟨by omega, hlt⟩
  · constructor
    · rintro ⟨hstart, hstop⟩
      rcases hrange with ⟨hnone, -⟩ | ⟨-, hlt, -⟩
      · exact hnone
      · dsimp only at hlt
        omega
    · intro hnone
      rcases hrange with ⟨-, hzero⟩ | ⟨-, -, hlisted⟩
      · exact hzero
      · rw [listedEnd, hnone] at hlisted
        cases hlisted

end Segment

/-! ## The segments of a file -/

structure TermOf (xorbInfos : List MDBXorbInfo) (fi : MDBFileInfo) (seg : MDBSegment)
    (t : ParsedTerm) : Prop where
  file : t.fileId = fi.fileHash
  xorb : t.term.xorbHash = seg.xorbHash
  start : t.term.xorbStart = seg.chunkIndexStart.toNat
  stop : t.term.xorbEnd = seg.chunkIndexEnd.toNat
  chunks : 0 ≤ t.term.xorbStart ∧ t.term.xorbStart < t.term.xorbEnd
  bytes : ByteRangeOk xorbInfos t.term

/-- The rows of a file info: one for each segment, numbered in order, and together covering the
file. -/
structure FileTerms (xorbInfos : List MDBXorbInfo) (fi : MDBFileInfo) (terms : List ParsedTerm) :
    Prop where
  segments : List.Forall₂ (TermOf xorbInfos fi) fi.segments terms
  cuts : Cuts (terms.map fun t => (t.termIndex, t.term)) (totalSize fi.segments)
  cursor : ∀ i t, terms[i]? = some t → t.term.unpackedStart = totalSize (fi.segments.take i) ∧
    t.term.unpackedEnd = totalSize (fi.segments.take (i + 1))

section Segments

variable {xorbInfos : List MDBXorbInfo} {fileId : Hash} {idx : Nat} {cursor : Int}
  {segs : List MDBSegment}

@[simp] theorem totalSize_nil : totalSize [] = 0 := rfl

@[simp] theorem totalSize_cons (seg : MDBSegment) (segs : List MDBSegment) :
    totalSize (seg :: segs) = seg.unpackedSegmentBytes.toNat + totalSize segs := by
  simp [totalSize]

theorem exists_parseSegments_iff :
    (∃ terms, parseSegments xorbInfos fileId idx cursor segs = .ok terms) ↔
      ∀ seg ∈ segs, SegmentOk xorbInfos seg := by
  induction segs generalizing idx cursor with
  | nil => exact iff_of_true ⟨[], rfl⟩ nofun
  | cons seg segs ih =>
      rw [List.forall_mem_cons, ← exists_range_iff, ← ih]
      simp only [parseSegments, except_bind_eq_ok]
      constructor
      · rintro ⟨-, range, hrange, terms, hterms, -⟩
        exact ⟨⟨range, hrange⟩, ⟨terms, hterms⟩⟩
      · rintro ⟨⟨range, hrange⟩, ⟨terms, hterms⟩⟩
        exact ⟨_, range, hrange, terms, hterms, rfl⟩

theorem parseSegments_termOf {fi : MDBFileInfo} {terms : List ParsedTerm}
    (h : parseSegments xorbInfos fi.fileHash idx cursor segs = .ok terms) :
    List.Forall₂ (TermOf xorbInfos fi) segs terms := by
  induction segs generalizing idx cursor terms with
  | nil =>
      cases h
      exact .nil
  | cons seg segs ih =>
      simp only [parseSegments] at h
      obtain ⟨range, hrange, h⟩ := except_bind_eq_ok.1 h
      obtain ⟨rest, hrest, h⟩ := except_bind_eq_ok.1 h
      cases h
      have hlt := UInt32.lt_iff_toNat_lt.1 (segmentOk_of_range hrange).chunks
      refine .cons ?_ (ih hrest)
      exact
        { file := rfl
          xorb := rfl
          start := rfl
          stop := rfl
          chunks := ⟨Int.natCast_nonneg _, Int.ofNat_lt.2 hlt⟩
          bytes := byteRangeOk_of_range hrange rfl rfl rfl }

theorem parseSegments_cursor {terms : List ParsedTerm}
    (h : parseSegments xorbInfos fileId idx cursor segs = .ok terms) (i : Nat) (t : ParsedTerm)
    (ht : terms[i]? = some t) :
    t.term.unpackedStart = cursor + totalSize (segs.take i) ∧
      t.term.unpackedEnd = cursor + totalSize (segs.take (i + 1)) := by
  induction segs generalizing idx cursor terms i with
  | nil =>
      cases h
      cases ht
  | cons seg segs ih =>
      simp only [parseSegments] at h
      obtain ⟨range, -, h⟩ := except_bind_eq_ok.1 h
      obtain ⟨rest, hrest, h⟩ := except_bind_eq_ok.1 h
      cases h
      cases i with
      | zero =>
          cases ht
          simp
      | succ i =>
          obtain ⟨hstart, hstop⟩ := ih hrest i ht
          rw [List.take_succ_cons, List.take_succ_cons, totalSize_cons, totalSize_cons]
          omega

theorem parseSegments_fileTerms {fi : MDBFileInfo} {terms : List ParsedTerm}
    (h : parseSegments xorbInfos fi.fileHash 0 0 fi.segments = .ok terms)
    (hcount : fi.segments.length < 2 ^ 31) : FileTerms xorbInfos fi terms := by
  have hfile := (parseSegments_ok h).2.1
  have hcuts := parseSegments_cuts h hcount
  rw [termsOf_eq_map hfile] at hcuts
  refine ⟨parseSegments_termOf h, hcuts, ?_⟩
  intro i t ht
  simpa using parseSegments_cursor h i t ht

end Segments

/-! ## The files of a shard -/

theorem exists_parseFiles_iff {codec : ShardCodec} {xorbInfos : List MDBXorbInfo}
    {fileInfos : List MDBFileInfo} :
    (∃ parsed, parseFiles codec xorbInfos fileInfos = .ok parsed) ↔
      ∀ fi ∈ fileInfos, ∀ seg ∈ fi.segments, SegmentOk xorbInfos seg := by
  induction fileInfos with
  | nil => exact iff_of_true ⟨_, rfl⟩ nofun
  | cons fi fis ih =>
      rw [List.forall_mem_cons, ← ih, ← exists_parseSegments_iff]
      simp only [parseFiles, except_bind_eq_ok]
      constructor
      · rintro ⟨-, terms, hterms, rest, hrest, -⟩
        exact ⟨⟨terms, hterms⟩, ⟨rest, hrest⟩⟩
      · rintro ⟨⟨terms, hterms⟩, ⟨rest, hrest⟩⟩
        exact ⟨_, terms, hterms, rest, hrest, rfl⟩

/-- The file rows in order, and the term rows as one block for each file. -/
theorem parseFiles_blocks {codec : ShardCodec} {xorbInfos : List MDBXorbInfo}
    {fileInfos : List MDBFileInfo} {files : List ParsedFile} {terms : List ParsedTerm}
    (h : parseFiles codec xorbInfos fileInfos = .ok (files, terms))
    (hcount : ∀ fi ∈ fileInfos, fi.segments.length < 2 ^ 31) :
    files = fileInfos.map (parsedFile codec) ∧
      ∃ blocks, terms = blocks.flatten ∧
        List.Forall₂ (FileTerms xorbInfos) fileInfos blocks := by
  induction fileInfos generalizing files terms with
  | nil =>
      cases h
      exact ⟨rfl, [], rfl, .nil⟩
  | cons fi fis ih =>
      obtain ⟨hfirst, hrest⟩ := List.forall_mem_cons.1 hcount
      simp only [parseFiles] at h
      obtain ⟨block, hblock, h⟩ := except_bind_eq_ok.1 h
      obtain ⟨⟨files', terms'⟩, htail, h⟩ := except_bind_eq_ok.1 h
      cases h
      obtain ⟨rfl, blocks, rfl, hblocks⟩ := ih htail hrest
      exact ⟨rfl, block :: blocks, rfl, .cons (parseSegments_fileTerms hblock hfirst) hblocks⟩

theorem forall₂_xorbHash {xorbInfos : List MDBXorbInfo} {fi : MDBFileInfo}
    {segs : List MDBSegment} {terms : List ParsedTerm}
    (h : List.Forall₂ (TermOf xorbInfos fi) segs terms) :
    (terms.map fun t => t.term.xorbHash) = segs.map MDBSegment.xorbHash := by
  induction h with
  | nil => rfl
  | cons hrow _ ih => rw [List.map_cons, List.map_cons, hrow.xorb, ih]

/-- Every row belongs to a segment, and every segment has a row. -/
theorem blocks_xorbHash {xorbInfos : List MDBXorbInfo} {fileInfos : List MDBFileInfo}
    {blocks : List (List ParsedTerm)} (h : List.Forall₂ (FileTerms xorbInfos) fileInfos blocks) :
    (blocks.flatten.map fun t => t.term.xorbHash) =
      fileInfos.flatMap fun fi => fi.segments.map MDBSegment.xorbHash := by
  induction h with
  | nil => rfl
  | cons hblock _ ih =>
      rw [List.flatten_cons, List.map_append, List.flatMap_cons, forall₂_xorbHash hblock.segments,
        ih]

/-! ## Arithmetic -/

def InI64 (n : Int) : Prop :=
  -2 ^ 63 ≤ n ∧ n < 2 ^ 63

/-- The `i64` additions of the parser: the running totals of the segment lengths, which are also the
values of the cursor, and the end of a chunk. -/
structure NoOverflow (fileInfos : List MDBFileInfo) (xorbInfos : List MDBXorbInfo) : Prop where
  totals : ∀ fi ∈ fileInfos, ∀ n, InI64 (totalSize (fi.segments.take n))
  ends : ∀ xi ∈ xorbInfos, ∀ chunk ∈ xi.chunks,
    InI64 (chunk.chunkByteRangeStart.toNat + chunk.unpackedSegmentBytes.toNat)

theorem totalSize_bounds (segs : List MDBSegment) :
    0 ≤ totalSize segs ∧ totalSize segs ≤ segs.length * (2 ^ 32 - 1) := by
  induction segs with
  | nil => decide
  | cons seg segs ih =>
      have hlt := seg.unpackedSegmentBytes.toNat_lt
      rw [totalSize_cons, List.length_cons]
      omega

theorem noOverflow {fileInfos : List MDBFileInfo} (xorbInfos : List MDBXorbInfo)
    (hcount : ∀ fi ∈ fileInfos, fi.segments.length < 2 ^ 31) : NoOverflow fileInfos xorbInfos := by
  constructor
  · intro fi hfi n
    have hlt := hcount fi hfi
    have hle := List.length_take_le' n fi.segments
    obtain ⟨hnonneg, hbound⟩ := totalSize_bounds (fi.segments.take n)
    unfold InI64
    omega
  · intro xi _ chunk _
    have hstart := chunk.chunkByteRangeStart.toNat_lt
    have hlength := chunk.unpackedSegmentBytes.toNat_lt
    unfold InI64
    omega

/-! ## The whole parser -/

/-- The deserializers read these entries from the body: a header of the expected version, then the
two sections. -/
structure Deserialized (codec : ShardCodec) (bytes : Bytes) (fileInfos : List MDBFileInfo)
    (xorbInfos : List MDBXorbInfo) : Prop where
  size : headerSize ≤ bytes.length
  sections : ∃ files xorbs rest, codec.header bytes = .ok (expectedHeaderVersion, files) ∧
    readEntries codec.fileInfo (files.length + 1) files = .ok (fileInfos, xorbs) ∧
    readEntries codec.xorbInfo (xorbs.length + 1) xorbs = .ok (xorbInfos, rest)

structure ShardShape (codec : ShardCodec) (fileInfos : List MDBFileInfo)
    (xorbInfos : List MDBXorbInfo) (parsed : ParsedShard) : Prop where
  files : parsed.files = fileInfos.map (parsedFile codec)
  blocks : ∃ blocks, parsed.terms = blocks.flatten ∧
    List.Forall₂ (FileTerms xorbInfos) fileInfos blocks
  sorted : parsed.referencedXorbHashes.Pairwise fun a b => hashLe a b ∧ a ≠ b
  referenced : ∀ xorbHash, xorbHash ∈ parsed.referencedXorbHashes ↔
    ∃ t ∈ parsed.terms, t.term.xorbHash = xorbHash

theorem sorted_referencedXorbHashes (fileInfos : List MDBFileInfo) :
    (referencedXorbHashes fileInfos).Pairwise fun a b => hashLe a b ∧ a ≠ b := by
  unfold referencedXorbHashes
  generalize fileInfos.flatMap (fun fi => fi.segments.map MDBSegment.xorbHash) = hashes
  have hsorted := List.pairwise_insertionSort hashLe hashes.dedup
  have hdistinct : (hashes.dedup.insertionSort hashLe).Nodup :=
    (List.perm_insertionSort hashLe hashes.dedup).nodup_iff.2 hashes.nodup_dedup
  exact hsorted.and hdistinct

/-- The parser on a body whose entries have been read. -/
theorem Deserialized.parseAndValidate_eq {codec : ShardCodec} {bytes : Bytes}
    {fileInfos : List MDBFileInfo} {xorbInfos : List MDBXorbInfo}
    (hread : Deserialized codec bytes fileInfos xorbInfos) :
    parseAndValidate codec bytes =
      if fileInfos.isEmpty then
        .error .emptyFileList
      else
        (parseFiles codec xorbInfos fileInfos).map fun parsed =>
          { headerVersion := expectedHeaderVersion
            footerVersion := 0
            referencedXorbHashes := referencedXorbHashes fileInfos
            files := parsed.1
            terms := parsed.2 } := by
  obtain ⟨hsize, files, xorbs, rest, hheader, hfiles, hxorbs⟩ := hread
  unfold parseAndValidate
  simp only [if_neg (Nat.not_lt.2 hsize), hheader, ne_eq, not_true_eq_false, if_false, hfiles,
    hxorbs]
  split
  · rfl
  · cases parseFiles codec xorbInfos fileInfos <;> rfl

/-- Of entries that have been read a shard is made if and only if there is a file and every segment
is in order; its rows are as described, and no addition overflows on the way. -/
theorem parseAndValidate_exact {codec : ShardCodec} {bytes : Bytes}
    {fileInfos : List MDBFileInfo} {xorbInfos : List MDBXorbInfo}
    (hread : Deserialized codec bytes fileInfos xorbInfos)
    (hcount : ∀ fi ∈ fileInfos, fi.segments.length < 2 ^ 31) :
    (∀ parsed, parseAndValidate codec bytes = .ok parsed →
        ShardShape codec fileInfos xorbInfos parsed) ∧
      ((∃ e, parseAndValidate codec bytes = .error e) ↔
        fileInfos = [] ∨ ∃ fi ∈ fileInfos, ∃ seg ∈ fi.segments, ¬SegmentOk xorbInfos seg) ∧
      NoOverflow fileInfos xorbInfos := by
  rw [hread.parseAndValidate_eq]
  cases fileInfos with
  | nil => exact ⟨nofun, iff_of_true ⟨_, rfl⟩ (.inl rfl), noOverflow xorbInfos hcount⟩
  | cons fi fis =>
      have hviolated : (∃ fi' ∈ fi :: fis, ∃ seg ∈ fi'.segments, ¬SegmentOk xorbInfos seg) ↔
          ¬∃ parsed, parseFiles codec xorbInfos (fi :: fis) = .ok parsed := by
        rw [exists_parseFiles_iff]
        push Not
        rfl
      have hne : fi :: fis ≠ [] := List.cons_ne_nil _ _
      simp only [List.isEmpty_cons, Bool.false_eq_true, if_false, hviolated, hne, false_or]
      cases hparse : parseFiles codec xorbInfos (fi :: fis) with
      | error e => exact ⟨nofun, iff_of_true ⟨e, rfl⟩ nofun, noOverflow xorbInfos hcount⟩
      | ok parsed =>
          obtain ⟨hfiles, blocks, hterms, hblocks⟩ := parseFiles_blocks hparse hcount
          refine ⟨?_, iff_of_false nofun fun h => h ⟨parsed, rfl⟩, noOverflow xorbInfos hcount⟩
          intro shard hshard
          cases hshard
          refine ⟨hfiles, ⟨blocks, hterms, hblocks⟩, sorted_referencedXorbHashes _, ?_⟩
          intro xorbHash
          show xorbHash ∈ referencedXorbHashes (fi :: fis) ↔
            ∃ t ∈ parsed.2, t.term.xorbHash = xorbHash
          rw [referencedXorbHashes, List.mem_insertionSort, List.mem_dedup,
            ← blocks_xorbHash hblocks, hterms, List.mem_map]

/-! ## A sample -/

/-- A file of one segment over both chunks of a xorb that the shard describes, and of one segment of
a xorb that it does not describe. -/
def mixedInfo : MDBFileInfo :=
  { fileHash := Hash.fill 241
    segments := [⟨sampleHash, 0, 2, 6⟩, ⟨Hash.fill 187, 4, 5, 3⟩]
    sha256 := none }

def mixedXorb : MDBXorbInfo :=
  { xorbHash := sampleHash
    chunks := [⟨0, 3⟩, ⟨11, 3⟩] }

def writeRecord (hash : Hash) (a b : UInt32) : Bytes :=
  hash.1 ++ leBytes 4 a.toNat ++ leBytes 4 b.toNat ++ leBytes 8 0

def mixedShard : Bytes :=
  (writeShard mixedInfo.fileHash mixedInfo.segments).take 240 ++
    writeRecord sampleHash 0 2 ++
    (mixedXorb.chunks.flatMap fun c =>
      writeRecord (Hash.fill 1) c.chunkByteRangeStart c.unpackedSegmentBytes) ++ bookend

theorem deserialized_mixedShard :
    Deserialized wireCodec mixedShard [mixedInfo] [mixedXorb] := by
  refine ⟨by decide +kernel, mixedShard.drop 48, mixedShard.drop 240, [], ?_, ?_, ?_⟩
  · decide +kernel
  · decide +kernel
  · decide +kernel

theorem parseAndValidate_exact_mixed :
    ∃ parsed, parseAndValidate wireCodec mixedShard = .ok parsed ∧
      ShardShape wireCodec [mixedInfo] [mixedXorb] parsed := by
  have hexact := parseAndValidate_exact deserialized_mixedShard (by decide)
  have hparsed : ∃ parsed, parseAndValidate wireCodec mixedShard = .ok parsed := by
    rw [deserialized_mixedShard.parseAndValidate_eq]
    exact ⟨_, rfl⟩
  obtain ⟨parsed, hparsed⟩ := hparsed
  exact ⟨parsed, hparsed, hexact.1 parsed hparsed⟩

end Core
end OpenWeights
