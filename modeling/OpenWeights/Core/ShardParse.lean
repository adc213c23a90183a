import OpenWeights.Lib.Cut
import OpenWeights.Db.Queries

/-!
# ShardParse — shard binary parsing

Model of `openweights-cas-core/src/shard_parse.rs`.  The three deserializers of
`xet_core_structures` (header, file info, xorb info) are third-party and come in as a `ShardCodec`:
functions from the unread bytes to an entry and the bytes after it.  What the parser relies on, that
every entry is paid for in bytes, is a field of the structure.

Offsets and lengths are `u32` on the wire and `i64` in the rows; no sum of at most `2 ^ 31` of them
leaves the range of `i64`, so the rows use `Int`.  `idx as i32` does wrap and is modelled as it is.
-/

namespace OpenWeights
namespace Core

open Lib Db Db.Database

/-! ## The wire structures -/

/-- `FileDataSequenceEntry`. -/
structure MDBSegment where
  xorbHash : Hash
  chunkIndexStart : UInt32
  chunkIndexEnd : UInt32
  unpackedSegmentBytes : UInt32
  deriving DecidableEq, Repr

/-- `MDBFileInfo`; `sha256` is the one of `metadata_ext`. -/
structure MDBFileInfo where
  fileHash : Hash
  segments : List MDBSegment
  sha256 : Option Hash
  deriving DecidableEq, Repr

/-- `XorbChunkSequenceEntry`, the two fields the parser reads. -/
structure MDBChunk where
  chunkByteRangeStart : UInt32
  unpackedSegmentBytes : UInt32
  deriving DecidableEq, Repr

structure MDBXorbInfo where
  xorbHash : Hash
  chunks : List MDBChunk
  deriving DecidableEq, Repr

/-- The third-party deserializers, reading from the front of the unread bytes.  `none` is the
bookend that ends a section. -/
structure ShardCodec where
  header : Bytes → Except String (UInt64 × Bytes)
  fileInfo : Bytes → Except String (Option MDBFileInfo × Bytes)
  xorbInfo : Bytes → Except String (Option MDBXorbInfo × Bytes)
  /-- `MerkleHash::hex`. -/
  hex : Hash → String
  header_rest : ∀ {cur v rest}, header cur = .ok (v, rest) → rest.length ≤ cur.length
  fileInfo_rest : ∀ {cur fi rest}, fileInfo cur = .ok (some fi, rest) →
    rest.length + fi.segments.length < cur.length
  xorbInfo_rest : ∀ {cur xi rest}, xorbInfo cur = .ok (some xi, rest) → rest.length < cur.length

/-! ## Results -/

inductive ShardParseError
  | malformed (message : String)
  | headerVersion (version : UInt64)
  | footerVersion (version : UInt64)
  | emptyFileList
  | inconsistentTermRange (fileIdHex : String) (termIndex : Int) (reason : String)
  deriving DecidableEq, Repr

structure ParsedShard where
  headerVersion : UInt64
  footerVersion : UInt64
  referencedXorbHashes : List Hash
  files : List ParsedFile
  terms : List ParsedTerm
  deriving DecidableEq, Repr

def expectedHeaderVersion : UInt64 := 2

def headerSize : Nat := 48

/-! ## Hex strings -/

/-- `char::to_digit(16)` of a byte read as a character. -/
def toDigit16 (c : UInt8) : Option UInt8 :=
  if 48 ≤ c ∧ c ≤ 57 then some (c - 48)
  else if 97 ≤ c ∧ c ≤ 102 then some (c - 87)
  else if 65 ≤ c ∧ c ≤ 70 then some (c - 55)
  else none

/-- The loop of `decode_hex32` over `chunks_exact(2)`. -/
def decodePairs : Bytes → Option Bytes
  | hi :: lo :: rest => do
      let h ← toDigit16 hi
      let l ← toDigit16 lo
      let out ← decodePairs rest
      return ((h <<< 4) ||| l) :: out
  | _ => some []

def decodeHex32 (s : String) : Option Hash :=
  let bytes := s.toUTF8.data.toList
  if bytes.length ≠ 64 then
    none
  else
    match decodePairs bytes with
    | some out => if h : out.length = 32 then some ⟨out, h⟩ else none
    | none => none

def hexDigit (n : UInt8) : Char :=
  if n < 10 then Char.ofNat (48 + n.toNat) else Char.ofNat (87 + n.toNat)

def hexOf (h : Hash) : String :=
  String.ofList (h.1.flatMap fun b => [hexDigit (b / 16), hexDigit (b % 16)])

/-! ## Sections -/

/-- The section loop: read entries until the bookend.  `fuel` bounds the number of turns; see
`readEntries_fuel`. -/
def readEntries {α : Type} (deserialize : Bytes → Except String (Option α × Bytes)) :
    Nat → Bytes → Except String (List α × Bytes)
  | 0, _ => .error "failed to fill whole buffer"
  | fuel + 1, cur =>
      match deserialize cur with
      | .error e => .error e
      | .ok (none, rest) => .ok ([], rest)
      | .ok (some entry, rest) =>
          match readEntries deserialize fuel rest with
          | .error e => .error e
          | .ok (entries, rest') => .ok (entry :: entries, rest')

/-- Every entry consumes a byte, so a turn per byte is enough: more fuel changes nothing. -/
theorem readEntries_fuel {α : Type} {deserialize : Bytes → Except String (Option α × Bytes)}
    (hrest : ∀ {cur entry rest}, deserialize cur = .ok (some entry, rest) →
      rest.length < cur.length)
    {fuel fuel' : Nat} {cur : Bytes} (hf : cur.length < fuel) (hf' : cur.length < fuel') :
    readEntries deserialize fuel cur = readEntries deserialize fuel' cur := by
  induction fuel generalizing fuel' cur with
  | zero => omega
  | succ fuel ih =>
      cases fuel' with
      | zero => omega
      | succ fuel' =>
          simp only [readEntries]
          split
          · rfl
          · rfl
          · rename_i entry rest hd
            have hlt := hrest hd
            have hEq : readEntries deserialize fuel rest = readEntries deserialize fuel' rest :=
              ih (by omega) (by omega)
            rw [hEq]

/-- Where an entry of a section was read. -/
theorem readEntries_mem {α : Type} {deserialize : Bytes → Except String (Option α × Bytes)}
    (hrest : ∀ {cur entry rest}, deserialize cur = .ok (some entry, rest) →
      rest.length < cur.length)
    {fuel : Nat} {cur rest' : Bytes} {entries : List α}
    (h : readEntries deserialize fuel cur = .ok (entries, rest')) :
    ∀ entry ∈ entries, ∃ cur' rest, deserialize cur' = .ok (some entry, rest) ∧
      cur'.length ≤ cur.length := by
  induction fuel generalizing cur entries rest' with
  | zero => cases h
  | succ fuel ih =>
      simp only [readEntries] at h
      split at h
      · cases h
      · cases h
        simp
      · rename_i first rest hd
        split at h
        · cases h
        · rename_i entries₁ rest₁ htail
          cases h
          intro entry hmem
          rcases List.mem_cons.1 hmem with rfl | hmem
          · exact ⟨cur, rest, hd, Nat.le_refl _⟩
          · rcases ih htail entry hmem with ⟨cur', rest'', hd', hle⟩
            have hlt := hrest hd
            exact ⟨cur', rest'', hd', by omega⟩

/-! ## Files and terms -/

def toI32 (n : Nat) : Int :=
  if n % 2 ^ 32 < 2 ^ 31 then (n % 2 ^ 32 : Nat) else (n % 2 ^ 32 : Nat) - 2 ^ 32

theorem toI32_of_lt {n : Nat} (h : n < 2 ^ 31) : toI32 n = n := by
  have hmod : n % 2 ^ 32 = n := Nat.mod_eq_of_lt (by omega)
  rw [toI32, hmod, if_pos h]

/-- `xorb_index.get`: of several entries for one xorb the first counts. -/
def xorbChunks (xorbInfos : List MDBXorbInfo) (xorbHash : Hash) : Option (List MDBChunk) :=
  (xorbInfos.find? fun xi => xi.xorbHash = xorbHash).map MDBXorbInfo.chunks

/-- The byte range of one segment, or why it is refused.  A xorb the shard does not list is
external and gets the range `(0, 0)`. -/
def segmentByteRange (xorbInfos : List MDBXorbInfo) (fileId : Hash) (idx : Nat)
    (seg : MDBSegment) : Except ShardParseError (Int × Int) :=
  if seg.chunkIndexStart ≥ seg.chunkIndexEnd then
    .error (.inconsistentTermRange (hexOf fileId) (toI32 idx)
      "xorb_start must be strictly less than xorb_end")
  else
    match xorbChunks xorbInfos seg.xorbHash with
    | none => .ok (0, 0)
    | some chunks =>
        match chunks[seg.chunkIndexStart.toNat]?, chunks[seg.chunkIndexEnd.toNat - 1]? with
        | some first, some last =>
            let bs : Int := first.chunkByteRangeStart.toNat
            let be : Int := last.chunkByteRangeStart.toNat + last.unpackedSegmentBytes.toNat
            if bs ≥ be then
              .error (.inconsistentTermRange (hexOf fileId) (toI32 idx)
                "xorb_byte_start must be strictly less than xorb_byte_end")
            else
              .ok (bs, be)
        | _, _ =>
            .error (.inconsistentTermRange (hexOf fileId) (toI32 idx)
              "xorb_end exceeds chunk count in XorbInfo")

/-- The inner loop over the segments of a file, from index `idx` and file offset
`unpackedCursor`. -/
def parseSegments (xorbInfos : List MDBXorbInfo) (fileId : Hash) :
    Nat → Int → List MDBSegment → Except ShardParseError (List ParsedTerm)
  | _, _, [] => .ok []
  | idx, unpackedCursor, seg :: segs => do
      let range ← segmentByteRange xorbInfos fileId idx seg
      let unpackedEnd := unpackedCursor + seg.unpackedSegmentBytes.toNat
      let terms ← parseSegments xorbInfos fileId (idx + 1) unpackedEnd segs
      let term : Term :=
        { xorbHash := seg.xorbHash
          xorbStart := seg.chunkIndexStart.toNat
          xorbEnd := seg.chunkIndexEnd.toNat
          xorbByteStart := range.1
          xorbByteEnd := range.2
          unpackedStart := unpackedCursor
          unpackedEnd := unpackedEnd }
      .ok ({ fileId := fileId, termIndex := toI32 idx, term := term } :: terms)

/-- `total_size`: the sum of the segment lengths. -/
def totalSize (segments : List MDBSegment) : Int :=
  (segments.map fun s => (s.unpackedSegmentBytes.toNat : Int)).sum

def parsedFile (codec : ShardCodec) (fi : MDBFileInfo) : ParsedFile :=
  { fileId := fi.fileHash
    totalSize := totalSize fi.segments
    sha256 := fi.sha256.bind fun h => decodeHex32 (codec.hex h) }

/-- The outer loop over the file infos. -/
def parseFiles (codec : ShardCodec) (xorbInfos : List MDBXorbInfo) :
    List MDBFileInfo → Except ShardParseError (List ParsedFile × List ParsedTerm)
  | [] => .ok ([], [])
  | fi :: fis => do
      let terms ← parseSegments xorbInfos fi.fileHash 0 0 fi.segments
      let rest ← parseFiles codec xorbInfos fis
      .ok (parsedFile codec fi :: rest.1, terms ++ rest.2)

/-- The lexicographic order of `[u8; 32]`. -/
def hashLe (a b : Hash) : Prop := a.1 ≤ b.1

instance : DecidableRel hashLe := fun a b => inferInstanceAs (Decidable (a.1 ≤ b.1))

instance : Std.Total hashLe := ⟨fun a b => List.le_total a.1 b.1⟩

instance : Std.Antisymm hashLe := ⟨fun _ _ hab hba => Subtype.ext (List.le_antisymm hab hba)⟩

instance : IsTrans Hash hashLe := ⟨fun _ _ _ hab hbc => List.le_trans hab hbc⟩

/-- `referenced_xorb_hashes`: the distinct xorbs of all segments, sorted. -/
def referencedXorbHashes (fileInfos : List MDBFileInfo) : List Hash :=
  ((fileInfos.flatMap fun fi => fi.segments.map MDBSegment.xorbHash).dedup).insertionSort hashLe

def parseAndValidate (codec : ShardCodec) (bytes : Bytes) : Except ShardParseError ParsedShard :=
  if bytes.length < headerSize then
    .error (.malformed s!"shard too small: {bytes.length} bytes (min {headerSize})")
  else
    match codec.header bytes with
    | .error e => .error (.malformed ("header: " ++ e))
    | .ok (version, cur) =>
        if version ≠ expectedHeaderVersion then
          .error (.headerVersion version)
        else
          match readEntries codec.fileInfo (cur.length + 1) cur with
          | .error e => .error (.malformed ("file info: " ++ e))
          | .ok (fileInfos, cur) =>
              if fileInfos.isEmpty then
                .error .emptyFileList
              else
                match readEntries codec.xorbInfo (cur.length + 1) cur with
                | .error e => .error (.malformed ("xorb info: " ++ e))
                | .ok (xorbInfos, _) => do
                    let parsed ← parseFiles codec xorbInfos fileInfos
                    .ok
                      { headerVersion := version
                        footerVersion := 0
                        referencedXorbHashes := referencedXorbHashes fileInfos
                        files := parsed.1
                        terms := parsed.2 }

/-! ## What an accepted shard carries -/

def unpackedRange (t : Term) : Int × Int := (t.unpackedStart, t.unpackedEnd)

/-- A term list that cuts a file of `total` bytes: indices `0 .. n - 1` in order, and unpacked
intervals that tile `[0, total)`. -/
structure Cuts (terms : List (Int × Term)) (total : Int) : Prop where
  indices : Indexed terms
  tiles : Tiles 0 total (terms.map fun t => unpackedRange t.2)

def termsOf (terms : List ParsedTerm) (fileId : Hash) : List (Int × Term) :=
  (terms.filter fun t => t.fileId = fileId).map fun t => (t.termIndex, t.term)

/-- Every file of a shard is cut by the terms the shard carries for it, and no term is for another
file. -/
structure WellCut (files : List ParsedFile) (terms : List ParsedTerm) : Prop where
  cuts : ∀ f ∈ files, Cuts (termsOf terms f.fileId) f.totalSize
  owned : ∀ t ∈ terms, t.fileId ∈ files.map ParsedFile.fileId

theorem WellCut.nil : WellCut [] [] :=
  { cuts := by simp
    owned := by simp }

@[simp] theorem termsOf_append (ts us : List ParsedTerm) (fileId : Hash) :
    termsOf (ts ++ us) fileId = termsOf ts fileId ++ termsOf us fileId := by
  simp [termsOf]

theorem termsOf_eq_nil {terms : List ParsedTerm} {fileId : Hash}
    (h : ∀ t ∈ terms, t.fileId ≠ fileId) : termsOf terms fileId = [] := by
  have hfilter : terms.filter (fun t => t.fileId = fileId) = [] := by
    simpa [List.filter_eq_nil_iff] using h
  simp [termsOf, hfilter]

theorem termsOf_eq_map {terms : List ParsedTerm} {fileId : Hash}
    (h : ∀ t ∈ terms, t.fileId = fileId) :
    termsOf terms fileId = terms.map fun t => (t.termIndex, t.term) := by
  have hfilter : terms.filter (fun t => t.fileId = fileId) = terms := by
    simpa [List.filter_eq_self] using h
  simp [termsOf, hfilter]

theorem except_bind_eq_ok {ε α β : Type} {x : Except ε α} {f : α → Except ε β} {b : β} :
    (x >>= f) = .ok b ↔ ∃ a, x = .ok a ∧ f a = .ok b := by
  cases x with
  | error e => simp [bind, Except.bind]
  | ok a => simp [bind, Except.bind]

/-- What the segment loop produces: terms of this file only, numbered from `idx`, tiling the file
from the cursor on. -/
theorem parseSegments_ok {xorbInfos : List MDBXorbInfo} {fileId : Hash} {idx : Nat} {cursor : Int}
    {segs : List MDBSegment} {terms : List ParsedTerm}
    (h : parseSegments xorbInfos fileId idx cursor segs = .ok terms) :
    terms.length = segs.length ∧ (∀ t ∈ terms, t.fileId = fileId) ∧
      terms.map ParsedTerm.termIndex = (List.range' idx segs.length).map toI32 ∧
      Tiles cursor (cursor + totalSize segs) (terms.map fun t => unpackedRange t.term) := by
  induction segs generalizing idx cursor terms with
  | nil =>
      cases h
      simp [Tiles, totalSize]
  | cons seg segs ih =>
      simp only [parseSegments] at h
      rcases except_bind_eq_ok.1 h with ⟨range, -, h⟩
      rcases except_bind_eq_ok.1 h with ⟨rest, hrest, h⟩
      cases h
      rcases ih hrest with ⟨hlen, hfile, hidx, htiles⟩
      refine ⟨by simp [hlen], ?_, ?_, ?_⟩
      · intro t ht
        rcases List.mem_cons.1 ht with rfl | ht
        · rfl
        · exact hfile t ht
      · simp [hidx, List.range'_succ]
      · have hsum : cursor + seg.unpackedSegmentBytes.toNat + totalSize segs =
            cursor + totalSize (seg :: segs) := by
          simp [totalSize, Int.add_assoc]
        refine ⟨rfl, ?_, ?_⟩
        · change cursor ≤ cursor + seg.unpackedSegmentBytes.toNat
          omega
        · rw [← hsum]
          exact htiles

/-- The terms of one file, below the wrap-around of `idx as i32`, cut it. -/
theorem parseSegments_cuts {xorbInfos : List MDBXorbInfo} {fileId : Hash}
    {segs : List MDBSegment} {terms : List ParsedTerm}
    (h : parseSegments xorbInfos fileId 0 0 segs = .ok terms) (hlt : segs.length < 2 ^ 31) :
    Cuts (termsOf terms fileId) (totalSize segs) := by
  rcases parseSegments_ok h with ⟨hlen, hfile, hidx, htiles⟩
  rw [termsOf_eq_map hfile]
  refine ⟨?_, ?_⟩
  · have hrange : (List.range' 0 segs.length).map toI32 =
        (List.range segs.length).map Int.ofNat := by
      rw [List.range_eq_range']
      refine List.map_congr_left ?_
      intro n hn
      have hn' : n < segs.length := by simpa using (List.mem_range'_1.1 hn).2
      simpa using toI32_of_lt (Nat.lt_trans hn' hlt)
    simpa [Indexed, List.map_map, Function.comp_def, hlen, hrange] using hidx
  · simpa [List.map_map, Function.comp_def] using htiles

/-- What the file loop produces. -/
theorem parseFiles_ok {codec : ShardCodec} {xorbInfos : List MDBXorbInfo}
    {fis : List MDBFileInfo} {files : List ParsedFile} {terms : List ParsedTerm}
    (h : parseFiles codec xorbInfos fis = .ok (files, terms))
    (hlt : ∀ fi ∈ fis, fi.segments.length < 2 ^ 31)
    (hnodup : (files.map ParsedFile.fileId).Nodup) : WellCut files terms := by
  induction fis generalizing files terms with
  | nil =>
      cases h
      exact WellCut.nil
  | cons fi fis ih =>
      simp only [parseFiles] at h
      rcases except_bind_eq_ok.1 h with ⟨terms₁, h₁, h⟩
      rcases except_bind_eq_ok.1 h with ⟨⟨files₂, terms₂⟩, h₂, h⟩
      cases h
      simp only [List.map_cons, List.nodup_cons] at hnodup
      have hwell := ih h₂ (fun fi' h' => hlt fi' (List.mem_cons_of_mem _ h')) hnodup.2
      have hfile := (parseSegments_ok h₁).2.1
      have hcuts := parseSegments_cuts h₁ (hlt fi List.mem_cons_self)
      refine ⟨?_, ?_⟩
      · intro f hf
        rcases List.mem_cons.1 hf with rfl | hf
        · -- No later file has this id, so the later terms are not its terms.
          have hnil : termsOf terms₂ fi.fileHash = [] := by
            refine termsOf_eq_nil fun t ht hEq => hnodup.1 ?_
            have := hwell.owned t ht
            rwa [hEq] at this
          simpa [parsedFile, hnil] using hcuts
        · have hne : fi.fileHash ≠ f.fileId := by
            intro hEq
            exact hnodup.1 (List.mem_map.2 ⟨f, hf, hEq.symm⟩)
          have hnil : termsOf terms₁ f.fileId = [] :=
            termsOf_eq_nil fun t ht hEq => hne (by rw [← hEq, hfile t ht])
          simpa [hnil] using hwell.cuts f hf
      · intro t ht
        rcases List.mem_append.1 ht with ht | ht
        · simp [hfile t ht, parsedFile]
        · exact List.mem_cons_of_mem _ (hwell.owned t ht)

/-- An accepted shard that names no file twice cuts each of its files. -/
theorem parseAndValidate_wellCut {codec : ShardCodec} {bytes : Bytes} {parsed : ParsedShard}
    (h : parseAndValidate codec bytes = .ok parsed) (hlen : bytes.length < 2 ^ 31)
    (hnodup : (parsed.files.map ParsedFile.fileId).Nodup) :
    WellCut parsed.files parsed.terms := by
  unfold parseAndValidate at h
  split at h
  · cases h
  split at h
  · cases h
  rename_i version cur hheader
  split at h
  · cases h
  split at h
  · cases h
  rename_i fileInfos cur₁ hfiles
  split at h
  · cases h
  split at h
  · cases h
  rename_i xorbInfos cur₂ hxorbs
  rcases except_bind_eq_ok.1 h with ⟨⟨files, terms⟩, hparse, h⟩
  cases h
  refine parseFiles_ok hparse ?_ hnodup
  intro fi hfi
  have hcur := codec.header_rest hheader
  have hprogress : ∀ {cur entry rest}, codec.fileInfo cur = .ok (some entry, rest) →
      rest.length < cur.length := by
    intro cur entry rest hd
    have := codec.fileInfo_rest hd
    omega
  rcases readEntries_mem hprogress hfiles fi hfi with ⟨cur', rest, hd, hle⟩
  have hseg := codec.fileInfo_rest hd
  omega

/-- The end of chunk `endIdx - 1` of a xorb in the chunk table of the shard. -/
def listedEnd (xorbInfos : List MDBXorbInfo) (xorbHash : Hash) (endIdx : Nat) : Option Int :=
  (xorbChunks xorbInfos xorbHash).bind fun chunks =>
    (chunks[endIdx - 1]?).map fun last =>
      (last.chunkByteRangeStart.toNat : Int) + last.unpackedSegmentBytes.toNat

/-- What a row made of a segment looks like: `u32` chunk indices in order, and a byte range that is
the placeholder of an external xorb or comes from the chunk table. -/
structure SegmentShape (xorbInfos : List MDBXorbInfo) (t : Term) : Prop where
  indices : ∃ s e : UInt32, s < e ∧ t.xorbStart = s.toNat ∧ t.xorbEnd = e.toNat
  bytes : (xorbChunks xorbInfos t.xorbHash = none ∧ t.xorbByteStart = 0 ∧ t.xorbByteEnd = 0) ∨
    (0 ≤ t.xorbByteStart ∧ t.xorbByteStart < t.xorbByteEnd ∧
      listedEnd xorbInfos t.xorbHash t.xorbEnd.toNat = some t.xorbByteEnd)

theorem segmentByteRange_ok {xorbInfos : List MDBXorbInfo} {fileId : Hash} {idx : Nat}
    {seg : MDBSegment} {range : Int × Int}
    (h : segmentByteRange xorbInfos fileId idx seg = .ok range) :
    seg.chunkIndexStart < seg.chunkIndexEnd ∧
      ((xorbChunks xorbInfos seg.xorbHash = none ∧ range.1 = 0 ∧ range.2 = 0) ∨
        (0 ≤ range.1 ∧ range.1 < range.2 ∧
          listedEnd xorbInfos seg.xorbHash seg.chunkIndexEnd.toNat = some range.2)) := by
  unfold segmentByteRange at h
  split at h
  · cases h
  rename_i hlt
  refine ⟨UInt32.not_le.1 hlt, ?_⟩
  split at h
  · rename_i hnone
    cases h
    exact .inl ⟨hnone, rfl, rfl⟩
  · rename_i chunks hchunks
    split at h
    · rename_i first last _ hlast
      dsimp only at h
      split at h
      · cases h
      · rename_i hbytes
        cases h
        refine .inr ⟨Int.natCast_nonneg _, not_le.1 hbytes, ?_⟩
        rw [listedEnd, hchunks, Option.bind_some, hlast, Option.map_some]
    · cases h

theorem parseSegments_shape {xorbInfos : List MDBXorbInfo} {fileId : Hash} {idx : Nat}
    {cursor : Int} {segs : List MDBSegment} {terms : List ParsedTerm}
    (h : parseSegments xorbInfos fileId idx cursor segs = .ok terms) :
    ∀ t ∈ terms, SegmentShape xorbInfos t.term ∧
      t.term.xorbHash ∈ segs.map MDBSegment.xorbHash := by
  induction segs generalizing idx cursor terms with
  | nil =>
      cases h
      simp
  | cons seg segs ih =>
      simp only [parseSegments] at h
      rcases except_bind_eq_ok.1 h with ⟨range, hrange, h⟩
      rcases except_bind_eq_ok.1 h with ⟨rest, hrest, h⟩
      cases h
      obtain ⟨hlt, hbytes⟩ := segmentByteRange_ok hrange
      intro t ht
      rcases List.mem_cons.1 ht with rfl | ht
      · exact ⟨⟨⟨_, _, hlt, rfl, rfl⟩, hbytes⟩, List.mem_cons_self⟩
      · obtain ⟨hshape, hmem⟩ := ih hrest t ht
        exact ⟨hshape, List.mem_cons_of_mem _ hmem⟩

theorem parseFiles_shape {codec : ShardCodec} {xorbInfos : List MDBXorbInfo}
    {fis : List MDBFileInfo} {files : List ParsedFile} {terms : List ParsedTerm}
    (h : parseFiles codec xorbInfos fis = .ok (files, terms)) :
    ∀ t ∈ terms, SegmentShape xorbInfos t.term ∧
      t.term.xorbHash ∈ fis.flatMap fun fi => fi.segments.map MDBSegment.xorbHash := by
  induction fis generalizing files terms with
  | nil =>
      cases h
      simp
  | cons fi fis ih =>
      simp only [parseFiles] at h
      rcases except_bind_eq_ok.1 h with ⟨terms₁, h₁, h⟩
      rcases except_bind_eq_ok.1 h with ⟨⟨files₂, terms₂⟩, h₂, h⟩
      cases h
      intro t ht
      rw [List.flatMap_cons, List.mem_append]
      rcases List.mem_append.1 ht with ht | ht
      · obtain ⟨hshape, hmem⟩ := parseSegments_shape h₁ t ht
        exact ⟨hshape, .inl hmem⟩
      · obtain ⟨hshape, hmem⟩ := ih h₂ t ht
        exact ⟨hshape, .inr hmem⟩

/-- The chunk table of a shard: its xorb section, empty when the shard cannot be read that far. -/
def shardXorbInfos (codec : ShardCodec) (bytes : Bytes) : List MDBXorbInfo :=
  match codec.header bytes with
  | .error _ => []
  | .ok (_, cur) =>
      match readEntries codec.fileInfo (cur.length + 1) cur with
      | .error _ => []
      | .ok (_, cur) =>
          match readEntries codec.xorbInfo (cur.length + 1) cur with
          | .error _ => []
          | .ok (xorbInfos, _) => xorbInfos

/-- The terms of an accepted shard are made of segments of xorbs it references. -/
theorem parseAndValidate_shape {codec : ShardCodec} {bytes : Bytes} {parsed : ParsedShard}
    (h : parseAndValidate codec bytes = .ok parsed) :
    ∀ t ∈ parsed.terms, SegmentShape (shardXorbInfos codec bytes) t.term ∧
      t.term.xorbHash ∈ parsed.referencedXorbHashes := by
  unfold parseAndValidate at h
  split at h
  · cases h
  split at h
  · cases h
  rename_i hheader
  split at h
  · cases h
  split at h
  · cases h
  rename_i fileInfos _ hfiles
  split at h
  · cases h
  split at h
  · cases h
  rename_i xorbInfos _ hxorbs
  rcases except_bind_eq_ok.1 h with ⟨⟨files, terms⟩, hparse, h⟩
  cases h
  have hinfos : shardXorbInfos codec bytes = xorbInfos := by
    simp only [shardXorbInfos, hheader, hfiles, hxorbs]
  intro t ht
  obtain ⟨hshape, hmem⟩ := parseFiles_shape hparse t ht
  rw [hinfos]
  refine ⟨hshape, ?_⟩
  rw [referencedXorbHashes, List.mem_insertionSort, List.mem_dedup]
  exact hmem

/-- The keys of a well-cut shard's term rows are distinct. -/
theorem WellCut.nodupKeys {files : List ParsedFile} {terms : List ParsedTerm}
    (h : WellCut files terms) :
    (terms.map fun t => (t.fileId, t.termIndex)).Nodup := by
  rw [List.nodup_iff_count_le_one]
  rintro ⟨fileId, i⟩
  by_cases hmem : fileId ∈ files.map ParsedFile.fileId
  · rcases List.mem_map.1 hmem with ⟨f, hf, rfl⟩
    -- Counting the key among all rows is counting the index among the rows of its file.
    have hcount : (terms.map fun t => (t.fileId, t.termIndex)).count (f.fileId, i) =
        ((termsOf terms f.fileId).map Prod.fst).count i := by
      simp only [termsOf, List.map_map, List.count, List.countP_map, List.countP_filter]
      refine List.countP_congr ?_
      intro t _
      simp [and_comm]
    have hnodup : ((termsOf terms f.fileId).map Prod.fst).Nodup := (h.cuts f hf).indices.nodup
    rw [hcount]
    exact List.nodup_iff_count_le_one.1 hnodup i
  · have hnot : (fileId, i) ∉ terms.map fun t => (t.fileId, t.termIndex) := by
      intro hin
      rcases List.mem_map.1 hin with ⟨t, ht, hEq⟩
      cases hEq
      exact hmem (h.owned t ht)
    rw [List.count_eq_zero.2 hnot]
    exact Nat.zero_le 1

end Core
end OpenWeights
