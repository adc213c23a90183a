import OpenWeights.Core.Coalesce
import OpenWeights.Core.SignedUrl

/-!
# Reconstruction — the answers of the reconstruction endpoints

Model of `openweights-cas-core/src/handlers/reconstruction.rs` and `reconstruction_v2.rs`: the two
response builders, and the part of the handlers that decides about the `Range` header.  The signer
is the `UrlSigner` of the service.

`ChunkRange` is END-EXCLUSIVE and counts chunks, `UrlRange` is END-INCLUSIVE and counts bytes.
-/

namespace OpenWeights
namespace Core

open Lib Db Db.Database Gateway

/-! ## Wire types -/

structure ChunkRange where
  start : UInt32
  endExclusive : UInt32
  deriving DecidableEq, Repr

structure UrlRange where
  start : UInt64
  endInclusive : UInt64
  deriving DecidableEq, Repr

structure ReconstructionTerm where
  hash : Bytes
  unpackedLength : UInt64
  range : ChunkRange
  deriving DecidableEq, Repr

structure FetchInfoEntry where
  range : ChunkRange
  url : SignedUrl
  urlRange : UrlRange
  deriving DecidableEq, Repr

structure QueryReconstructionResponse where
  offsetIntoFirstRange : UInt64
  terms : List ReconstructionTerm
  fetchInfo : Table Bytes (List FetchInfoEntry)

structure RangeSegment where
  chunkRange : ChunkRange
  urlRange : UrlRange
  deriving DecidableEq, Repr

structure XorbFetchInfoV2 where
  url : SignedUrl
  ranges : List RangeSegment
  deriving DecidableEq, Repr

structure QueryReconstructionResponseV2 where
  offsetIntoFirstRange : UInt64
  terms : List ReconstructionTerm
  fetchInfo : Table Bytes (List XorbFetchInfoV2)

/-! ## The builders -/

structure TermSpan where
  byteStart : UInt64
  byteEnd : UInt64
  chunkStart : UInt32
  chunkEnd : UInt32
  deriving DecidableEq, Repr

def reconstructionTerm (t : Term) : ReconstructionTerm :=
  { hash := digestToHex t.xorbHash
    unpackedLength := u64 (t.unpackedEnd - t.unpackedStart)
    range :=
      { start := u32 t.xorbStart
        endExclusive := u32 t.xorbEnd } }

def termSpan (t : Term) : TermSpan :=
  { byteStart := u64 t.xorbByteStart
    byteEnd := u64 t.xorbByteEnd
    chunkStart := u32 t.xorbStart
    chunkEnd := u32 t.xorbEnd }

/-- The term lies in the merged range; `end_inclusive + 1` wraps. -/
def TermSpan.inside (br : ByteRange) (ts : TermSpan) : Bool :=
  ts.byteStart ≥ br.start && ts.byteEnd ≤ br.endInclusive + 1

/-- One turn of the loop that recovers the chunk range of a merged range. -/
def widen (br : ByteRange) (acc : Option UInt32 × Option UInt32) (ts : TermSpan) :
    Option UInt32 × Option UInt32 :=
  if ts.inside br then
    (some (acc.1.elim ts.chunkStart fun x => min x ts.chunkStart),
      some (acc.2.elim ts.chunkEnd fun x => max x ts.chunkEnd))
  else
    acc

def chunkUnion (spans : List TermSpan) (br : ByteRange) : ChunkRange :=
  let acc := spans.foldl (widen br) (none, none)
  { start := acc.1.getD 0
    endExclusive := acc.2.getD 0 }

def buildResponse (order : UnstableSort) (hmac : Hmac) (row : ReconstructionRow)
    (signer : UrlSigner) (kid : Uuid) (nowUnix : UInt64) : QueryReconstructionResponse :=
  let entries := fun (xorbHash : Hash) (byteRanges : List ByteRange) =>
    let termSpans := (termsOn row.terms xorbHash).map termSpan
    byteRanges.map fun br =>
      { range := chunkUnion termSpans br
        url := signer.mintV1 hmac xorbHash (some (br.start, br.endInclusive)) kid nowUnix
        urlRange :=
          { start := br.start
            endInclusive := br.endInclusive } }
  { -- whole-file reconstructions only
    offsetIntoFirstRange := 0
    terms := row.terms.map reconstructionTerm
    fetchInfo := Table.empty.setAll
      ((coalesceTermsByXorb order row.terms).map fun p =>
        (digestToHex p.1, entries p.1 p.2)) }

/-- The loop of `build_v2_response` over the merged ranges of a xorb: the descriptors, and the
segments the URL will be signed for. -/
def collectSegments (termSpans : List TermSpan) :
    List ByteRange → List RangeSegment × List Segment
  | [] => ([], [])
  | br :: rest =>
      let acc := collectSegments termSpans rest
      ({ chunkRange := chunkUnion termSpans br
         urlRange :=
          { start := br.start
            endInclusive := br.endInclusive } } :: acc.1,
        (br.start, br.endInclusive) :: acc.2)

/-- `build_v2_response`; `none` is the panic of the minter. -/
def buildV2Response (order : UnstableSort) (hmac : Hmac) (row : ReconstructionRow)
    (signer : UrlSigner) (kid : Uuid) (nowUnix : UInt64) :
    Option QueryReconstructionResponseV2 := do
  let fetchInfo ← (coalesceTermsByXorb order row.terms).mapM fun p =>
    let termSpans := (termsOn row.terms p.1).map termSpan
    let segments := collectSegments termSpans p.2
    (signer.mintV1MultiRange hmac p.1 segments.2 kid nowUnix).map fun url =>
      -- a list with exactly one entry, which covers all merged ranges
      (digestToHex p.1, [{ url := url, ranges := segments.1 : XorbFetchInfoV2 }])
  some
    { offsetIntoFirstRange := 0
      terms := row.terms.map reconstructionTerm
      fetchInfo := Table.empty.setAll fetchInfo }

/-! ## The fetch entries of a xorb -/

section FetchInfo

variable {order : UnstableSort} {hmac : Hmac} {row : ReconstructionRow} {signer : UrlSigner}
  {kid : Uuid} {nowUnix : UInt64} {xorbHash : Hash}

/-- The merged ranges of a xorb, as `build_response` sees them. -/
def rangesOn (order : UnstableSort) (row : ReconstructionRow) (xorbHash : Hash) :
    List ByteRange :=
  coalesceSpans order ((termsOn row.terms xorbHash).map byteSpan)

def fetchEntry (hmac : Hmac) (row : ReconstructionRow) (signer : UrlSigner) (kid : Uuid)
    (nowUnix : UInt64) (xorbHash : Hash) (br : ByteRange) : FetchInfoEntry :=
  { range := chunkUnion ((termsOn row.terms xorbHash).map termSpan) br
    url := signer.mintV1 hmac xorbHash (some (br.start, br.endInclusive)) kid nowUnix
    urlRange :=
      { start := br.start
        endInclusive := br.endInclusive } }

theorem nodup_fetchKeys {ρ : Type} (f : Hash → ρ) (terms : List Term) :
    (((xorbKeys terms).map fun h => (digestToHex h, f h)).map Prod.fst).Nodup := by
  rw [List.map_map]
  exact (nodup_xorbKeys terms).map digestToHex_injective

/-- `fetch_info` has an entry for the referenced xorbs and for nothing else. -/
theorem find_fetchInfo_iff {key : Bytes} {entries : List FetchInfoEntry} :
    (buildResponse order hmac row signer kid nowUnix).fetchInfo.find key = some entries ↔
      ∃ h ∈ xorbKeys row.terms, key = digestToHex h ∧
        entries = (rangesOn order row h).map (fetchEntry hmac row signer kid nowUnix h) := by
  have hrows : (coalesceTermsByXorb order row.terms).map (fun p =>
      (digestToHex p.1, p.2.map (fetchEntry hmac row signer kid nowUnix p.1))) =
      (xorbKeys row.terms).map fun h =>
        (digestToHex h, (rangesOn order row h).map (fetchEntry hmac row signer kid nowUnix h)) := by
    rw [coalesceTermsByXorb, List.map_map]
    rfl
  have hfetch : (buildResponse order hmac row signer kid nowUnix).fetchInfo =
      Table.empty.setAll ((coalesceTermsByXorb order row.terms).map fun p =>
        (digestToHex p.1, p.2.map (fetchEntry hmac row signer kid nowUnix p.1))) := rfl
  rw [hfetch, hrows, Table.find_setAll_eq_some_iff (nodup_fetchKeys _ row.terms)]
  simp only [Table.find_empty, reduceCtorEq, and_false, or_false, List.mem_map, Prod.mk.injEq]
  constructor
  · rintro ⟨h, hh, hkey, hentries⟩
    exact ⟨h, hh, hkey.symm, hentries.symm⟩
  · rintro ⟨h, hh, hkey, hentries⟩
    exact ⟨h, hh, hkey.symm, hentries.symm⟩

theorem find_fetchInfo {entries : List FetchInfoEntry} :
    (buildResponse order hmac row signer kid nowUnix).fetchInfo.find (digestToHex xorbHash) =
        some entries ↔
      xorbHash ∈ xorbKeys row.terms ∧
        entries = (rangesOn order row xorbHash).map
          (fetchEntry hmac row signer kid nowUnix xorbHash) := by
  rw [find_fetchInfo_iff]
  constructor
  · rintro ⟨h, hh, hkey, hentries⟩
    have hEq := digestToHex_injective hkey
    subst hEq
    exact ⟨hh, hentries⟩
  · rintro ⟨hh, hentries⟩
    exact ⟨xorbHash, hh, rfl, hentries⟩

def rangeSegment (row : ReconstructionRow) (xorbHash : Hash) (br : ByteRange) : RangeSegment :=
  { chunkRange := chunkUnion ((termsOn row.terms xorbHash).map termSpan) br
    urlRange :=
      { start := br.start
        endInclusive := br.endInclusive } }

/-- The segment a merged range is signed as. -/
def ByteRange.segment (br : ByteRange) : Segment := (br.start, br.endInclusive)

theorem collectSegments_eq (termSpans : List TermSpan) (brs : List ByteRange) :
    collectSegments termSpans brs =
      (brs.map fun br => { chunkRange := chunkUnion termSpans br
                           urlRange := { start := br.start, endInclusive := br.endInclusive } },
        brs.map ByteRange.segment) := by
  induction brs with
  | nil => rfl
  | cons br rest ih =>
      rw [collectSegments, ih]
      rfl

/-- The minter panics on an empty list only, and no group is empty. -/
theorem exists_mintV1MultiRange (order : UnstableSort) (hmac : Hmac) (signer : UrlSigner)
    (kid : Uuid) (nowUnix : UInt64) (hkey : xorbHash ∈ xorbKeys row.terms) :
    ∃ url, signer.mintV1MultiRange hmac xorbHash
      ((rangesOn order row xorbHash).map ByteRange.segment) kid nowUnix = some url := by
  have hne : rangesOn order row xorbHash ≠ [] := coalesceSpans_ne_nil order hkey
  have hempty : ¬((rangesOn order row xorbHash).map ByteRange.segment).isEmpty = true := by
    simpa using hne
  exact ⟨_, if_neg hempty⟩

/-- `build_v2_response` does not panic, and has one entry for each referenced xorb. -/
theorem exists_buildV2Response (order : UnstableSort) (hmac : Hmac) (row : ReconstructionRow)
    (signer : UrlSigner) (kid : Uuid) (nowUnix : UInt64) :
    ∃ v2, buildV2Response order hmac row signer kid nowUnix = some v2 ∧
      v2.offsetIntoFirstRange = 0 ∧ v2.terms = row.terms.map reconstructionTerm ∧
      ∀ key infos, v2.fetchInfo.find key = some infos ↔
        ∃ h ∈ xorbKeys row.terms, key = digestToHex h ∧
          ∃ url, signer.mintV1MultiRange hmac h ((rangesOn order row h).map ByteRange.segment) kid
              nowUnix = some url ∧
            infos = [{ url := url, ranges := (rangesOn order row h).map (rangeSegment row h) }] := by
  have hmint : ∀ h ∈ xorbKeys row.terms, ∃ url, signer.mintV1MultiRange hmac h
      ((rangesOn order row h).map ByteRange.segment) kid nowUnix = some url :=
    fun h hh => exists_mintV1MultiRange order hmac signer kid nowUnix hh
  have : Nonempty SignedUrl := ⟨signer.gatewayUrl [] []⟩
  -- Name the URL of each group once; everything else is a map over the groups.
  choose! urlOf hurl using hmint
  let entry : Hash → Bytes × List XorbFetchInfoV2 := fun h =>
    (digestToHex h, [{ url := urlOf h, ranges := (rangesOn order row h).map (rangeSegment row h) }])
  have hfetch : (coalesceTermsByXorb order row.terms).mapM (fun p =>
      let termSpans := (termsOn row.terms p.1).map termSpan
      let segments := collectSegments termSpans p.2
      (signer.mintV1MultiRange hmac p.1 segments.2 kid nowUnix).map fun url =>
        (digestToHex p.1, [{ url := url, ranges := segments.1 : XorbFetchInfoV2 }])) =
      some ((xorbKeys row.terms).map entry) := by
    rw [coalesceTermsByXorb, List.mapM_map]
    refine mapM_eq_some_map fun h hh => ?_
    have hsegments := hurl h hh
    simp only [Function.comp, collectSegments_eq]
    rw [rangesOn] at hsegments
    rw [hsegments]
    rfl
  refine ⟨_, by rw [buildV2Response, hfetch]; rfl, rfl, rfl, ?_⟩
  intro key infos
  rw [Table.find_setAll_eq_some_iff (nodup_fetchKeys _ row.terms)]
  simp only [Table.find_empty, reduceCtorEq, and_false, or_false, List.mem_map]
  constructor
  · rintro ⟨h, hh, hEq⟩
    cases hEq
    exact ⟨h, hh, rfl, urlOf h, hurl h hh, rfl⟩
  · rintro ⟨h, hh, rfl, url, hmint, rfl⟩
    rw [hurl h hh] at hmint
    cases hmint
    exact ⟨h, hh, rfl⟩

end FetchInfo

/-! ## The chunk range of a merged range

The loop keeps a running minimum and maximum over the terms inside the merged range. -/

section ChunkUnion

variable {spans : List TermSpan} {br : ByteRange}

theorem inside_iff {t : Term} : (termSpan t).inside br ↔ Within (byteSpan t) br.span := by
  rw [TermSpan.inside, Bool.and_eq_true, decide_eq_true_iff, decide_eq_true_iff]
  rfl

theorem foldl_widen_some (spans : List TermSpan) (br : ByteRange) (lo hi : UInt32) :
    spans.foldl (widen br) (some lo, some hi) =
      (some (((spans.filter (TermSpan.inside br)).map TermSpan.chunkStart).foldl min lo),
        some (((spans.filter (TermSpan.inside br)).map TermSpan.chunkEnd).foldl max hi)) := by
  induction spans generalizing lo hi with
  | nil => rfl
  | cons ts rest ih =>
      by_cases hts : ts.inside br
      · simp [widen, hts, ih]
      · simp [widen, hts, ih]

theorem foldl_widen (spans : List TermSpan) (br : ByteRange) :
    spans.foldl (widen br) (none, none) =
      (((spans.filter (TermSpan.inside br)).map TermSpan.chunkStart).min?,
        ((spans.filter (TermSpan.inside br)).map TermSpan.chunkEnd).max?) := by
  induction spans with
  | nil => rfl
  | cons ts rest ih =>
      by_cases hts : ts.inside br
      · -- The first term inside sets both bounds.
        simp only [List.foldl_cons, widen, if_pos hts, Option.elim_none, foldl_widen_some,
          List.filter_cons_of_pos hts, List.map_cons, List.min?_cons', List.max?_cons']
      · simp [widen, hts, ih]

/-- The lower bound is attained and holds of every term inside. -/
theorem chunkUnion_start (h : ∃ ts ∈ spans, ts.inside br) :
    (∃ ts ∈ spans, ts.inside br ∧ ts.chunkStart = (chunkUnion spans br).start) ∧
      ∀ ts ∈ spans, ts.inside br → (chunkUnion spans br).start ≤ ts.chunkStart := by
  obtain ⟨ts₀, hmem₀, hin₀⟩ := h
  have hne : (spans.filter (TermSpan.inside br)).map TermSpan.chunkStart ≠ [] := by
    simpa using ⟨ts₀, hmem₀, hin₀⟩
  obtain ⟨lo, hlo⟩ := Option.isSome_iff_exists.1 (List.isSome_min?_of_ne_nil hne)
  have hstart : (chunkUnion spans br).start = lo := by
    simp [chunkUnion, foldl_widen, hlo]
  rw [hstart]
  obtain ⟨hmem, hle⟩ := List.min?_eq_some_iff.1 hlo
  obtain ⟨ts, hts, rfl⟩ := List.mem_map.1 hmem
  refine ⟨⟨ts, (List.mem_filter.1 hts).1, (List.mem_filter.1 hts).2, rfl⟩, ?_⟩
  intro ts' hts' hin'
  exact hle _ (List.mem_map_of_mem (List.mem_filter.2 ⟨hts', hin'⟩))

/-- The upper bound is attained and holds of every term inside. -/
theorem chunkUnion_end (h : ∃ ts ∈ spans, ts.inside br) :
    (∃ ts ∈ spans, ts.inside br ∧ ts.chunkEnd = (chunkUnion spans br).endExclusive) ∧
      ∀ ts ∈ spans, ts.inside br → ts.chunkEnd ≤ (chunkUnion spans br).endExclusive := by
  obtain ⟨ts₀, hmem₀, hin₀⟩ := h
  have hne : (spans.filter (TermSpan.inside br)).map TermSpan.chunkEnd ≠ [] := by
    simpa using ⟨ts₀, hmem₀, hin₀⟩
  obtain ⟨hi, hhi⟩ := Option.isSome_iff_exists.1 (List.isSome_max?_of_ne_nil hne)
  have hend : (chunkUnion spans br).endExclusive = hi := by
    simp [chunkUnion, foldl_widen, hhi]
  rw [hend]
  obtain ⟨hmem, hle⟩ := List.max?_eq_some_iff.1 hhi
  obtain ⟨ts, hts, rfl⟩ := List.mem_map.1 hmem
  refine ⟨⟨ts, (List.mem_filter.1 hts).1, (List.mem_filter.1 hts).2, rfl⟩, ?_⟩
  intro ts' hts' hin'
  exact hle _ (List.mem_map_of_mem (List.mem_filter.2 ⟨hts', hin'⟩))

end ChunkUnion

/-! ## Coverage

Chunk `i` of a xorb occupies the bytes from `bounds i` up to `bounds (i + 1)`.  If the terms of a row
name chunks and bytes that agree on that, so do the fetch entries. -/

/-- The row of a term whose chunk range and byte range describe the same chunks.  The parser writes
`u32` chunk indices, and the byte columns are `i64`. -/
def TermAt (bounds : Nat → Nat) (t : Term) : Prop :=
  ∃ s e : UInt32, s < e ∧ t.xorbStart = s.toNat ∧ t.xorbEnd = e.toNat ∧
    t.xorbByteStart = bounds s.toNat ∧ t.xorbByteEnd = bounds e.toNat ∧
    bounds e.toNat < 2 ^ 63

/-- The terms follow the chunk boundaries of their xorbs. -/
structure ChunkAligned (bounds : Hash → Nat → Nat) (terms : List Term) : Prop where
  strictMono : ∀ h, StrictMono (bounds h)
  zero : ∀ h, bounds h 0 = 0
  term : ∀ t ∈ terms, TermAt (bounds t.xorbHash) t

def FetchInfoEntry.Describes (bounds : Nat → Nat) (entry : FetchInfoEntry) : Prop :=
  entry.urlRange.start.toNat = bounds entry.range.start.toNat ∧
    entry.urlRange.endInclusive.toNat + 1 = bounds entry.range.endExclusive.toNat

def FetchInfoEntry.coversChunks (t : Term) (entry : FetchInfoEntry) : Bool :=
  decide ((entry.range.start.toNat : Int) ≤ t.xorbStart ∧
    t.xorbEnd ≤ (entry.range.endExclusive.toNat : Int))

def FetchInfoEntry.coversBytes (t : Term) (entry : FetchInfoEntry) : Bool :=
  decide ((entry.urlRange.start.toNat : Int) ≤ t.xorbByteStart ∧
    t.xorbByteEnd ≤ (entry.urlRange.endInclusive.toNat : Int) + 1)

section Coverage

variable {bounds : Hash → Nat → Nat} {terms : List Term} {t : Term}

/-- What the casts of the builder make of an aligned term: nothing is cut off. -/
structure TermWords (bounds : Nat → Nat) (t : Term) : Prop where
  chunk_lt : (termSpan t).chunkStart < (termSpan t).chunkEnd
  xorbStart : t.xorbStart = (termSpan t).chunkStart.toNat
  xorbEnd : t.xorbEnd = (termSpan t).chunkEnd.toNat
  xorbByteStart : t.xorbByteStart = (byteSpan t).1.toNat
  xorbByteEnd : t.xorbByteEnd = (byteSpan t).2.toNat
  byteStart : (byteSpan t).1.toNat = bounds (termSpan t).chunkStart.toNat
  byteEnd : (byteSpan t).2.toNat = bounds (termSpan t).chunkEnd.toNat

theorem TermAt.words {bounds : Nat → Nat} (hmono : StrictMono bounds) (ht : TermAt bounds t) :
    TermWords bounds t := by
  obtain ⟨s, e, hlt, hstart, hend, hbyteStart, hbyteEnd, hbound⟩ := ht
  have hle : bounds s.toNat < bounds e.toNat := hmono (UInt32.lt_iff_toNat_lt.1 hlt)
  have hchunkStart : (termSpan t).chunkStart = s := by
    rw [termSpan, hstart]
    exact u32_toNat s
  have hchunkEnd : (termSpan t).chunkEnd = e := by
    rw [termSpan, hend]
    exact u32_toNat e
  have hfirst : (byteSpan t).1.toNat = bounds s.toNat := by
    rw [byteSpan, hbyteStart]
    exact toNat_u64 (by omega)
  have hsecond : (byteSpan t).2.toNat = bounds e.toNat := by
    rw [byteSpan, hbyteEnd]
    exact toNat_u64 (by omega)
  constructor
  · rwa [hchunkStart, hchunkEnd]
  · rw [hchunkStart, hstart]
  · rw [hchunkEnd, hend]
  · rw [hfirst, hbyteStart]
  · rw [hsecond, hbyteEnd]
  · rw [hchunkStart, hfirst]
  · rw [hchunkEnd, hsecond]

theorem TermWords.byteSpan_lt {bounds : Nat → Nat} (hmono : StrictMono bounds)
    (ht : TermWords bounds t) : (byteSpan t).1 < (byteSpan t).2 := by
  rw [UInt64.lt_iff_toNat_lt, ht.byteStart, ht.byteEnd]
  exact hmono (UInt32.lt_iff_toNat_lt.1 ht.chunk_lt)

variable {order : UnstableSort} {hmac : Hmac} {row : ReconstructionRow} {signer : UrlSigner}
  {kid : Uuid} {nowUnix : UInt64} {xorbHash : Hash}

theorem ChunkAligned.termOn (halign : ChunkAligned bounds row.terms)
    (ht : t ∈ termsOn row.terms xorbHash) : TermWords (bounds xorbHash) t := by
  obtain ⟨hmem, rfl⟩ := mem_termsOn.1 ht
  exact (halign.term t hmem).words (halign.strictMono t.xorbHash)

theorem ChunkAligned.spans_lt (halign : ChunkAligned bounds row.terms) :
    ∀ span ∈ (termsOn row.terms xorbHash).map byteSpan, span.1 < span.2 := by
  intro span hspan
  obtain ⟨t, ht, rfl⟩ := List.mem_map.1 hspan
  exact (halign.termOn ht).byteSpan_lt (halign.strictMono xorbHash)

/-- The bytes of a merged range are those of the chunks recovered for it. -/
theorem ChunkAligned.chunkUnion_span (halign : ChunkAligned bounds row.terms) {br : ByteRange}
    (hbr : br ∈ rangesOn order row xorbHash) :
    br.span.1.toNat = bounds xorbHash
        (chunkUnion ((termsOn row.terms xorbHash).map termSpan) br).start.toNat ∧
      br.span.2.toNat = bounds xorbHash
        (chunkUnion ((termsOn row.terms xorbHash).map termSpan) br).endExclusive.toNat ∧
      0 < br.span.2.toNat := by
  have hmono := halign.strictMono xorbHash
  obtain ⟨⟨a, ha, hastart, hawithin⟩, ⟨b, hb, hbend, hbwithin⟩⟩ :=
    coalesceSpans_ends halign.spans_lt hbr
  obtain ⟨first, hfirst, rfl⟩ := List.mem_map.1 ha
  obtain ⟨last, hlast, rfl⟩ := List.mem_map.1 hb
  have hinside : ∃ ts ∈ (termsOn row.terms xorbHash).map termSpan, ts.inside br :=
    ⟨termSpan first, List.mem_map_of_mem hfirst, inside_iff.2 hawithin⟩
  obtain ⟨⟨lo, hlo, hloIn, hloEq⟩, hloLe⟩ := chunkUnion_start hinside
  obtain ⟨⟨hi, hhi, hhiIn, hhiEq⟩, hhiLe⟩ := chunkUnion_end hinside
  obtain ⟨lowest, hlowest, rfl⟩ := List.mem_map.1 hlo
  obtain ⟨highest, hhighest, rfl⟩ := List.mem_map.1 hhi
  rw [← hloEq, ← hhiEq]
  -- `first` starts at the first byte and `lowest` at the smallest chunk: their starts agree.
  have hstart : (termSpan lowest).chunkStart = (termSpan first).chunkStart := by
    refine le_antisymm ?_ ?_
    · rw [hloEq]
      exact hloLe _ (List.mem_map_of_mem hfirst) (inside_iff.2 hawithin)
    · have hle : (byteSpan first).1 ≤ (byteSpan lowest).1 :=
        hastart ▸ (inside_iff.1 hloIn).1
      rw [UInt64.le_iff_toNat_le, (halign.termOn hfirst).byteStart, (halign.termOn hlowest).byteStart,
        hmono.le_iff_le] at hle
      exact UInt32.le_iff_toNat_le.2 hle
  have hend : (termSpan highest).chunkEnd = (termSpan last).chunkEnd := by
    refine le_antisymm ?_ ?_
    · have hle : (byteSpan highest).2 ≤ (byteSpan last).2 :=
        hbend ▸ (inside_iff.1 hhiIn).2
      rw [UInt64.le_iff_toNat_le, (halign.termOn hlast).byteEnd, (halign.termOn hhighest).byteEnd,
        hmono.le_iff_le] at hle
      exact UInt32.le_iff_toNat_le.2 hle
    · rw [hhiEq]
      exact hhiLe _ (List.mem_map_of_mem hlast) (inside_iff.2 hbwithin)
  rw [hstart, hend, ← hastart, ← hbend]
  refine ⟨(halign.termOn hfirst).byteStart, (halign.termOn hlast).byteEnd, ?_⟩
  have hlt := UInt64.lt_iff_toNat_lt.1 ((halign.termOn hlast).byteSpan_lt hmono)
  omega

theorem ChunkAligned.describes (halign : ChunkAligned bounds row.terms) {br : ByteRange}
    (hbr : br ∈ rangesOn order row xorbHash) :
    (fetchEntry hmac row signer kid nowUnix xorbHash br).Describes (bounds xorbHash) := by
  obtain ⟨hstart, hend, hpos⟩ := halign.chunkUnion_span hbr
  exact ⟨hstart, (ByteRange.toNat_span_end hpos).trans hend⟩

/-- A term lies in an entry by its bytes exactly if its span lies in the merged one. -/
theorem ChunkAligned.coversBytes_iff (halign : ChunkAligned bounds row.terms)
    (ht : t ∈ termsOn row.terms xorbHash) {br : ByteRange}
    (hbr : br ∈ rangesOn order row xorbHash) :
    (fetchEntry hmac row signer kid nowUnix xorbHash br).coversBytes t ↔
      Within (byteSpan t) br.span := by
  obtain ⟨-, -, hpos⟩ := halign.chunkUnion_span hbr
  have hend := ByteRange.toNat_span_end hpos
  have hstart : br.start = br.span.1 := rfl
  rw [FetchInfoEntry.coversBytes, decide_eq_true_iff, (halign.termOn ht).xorbByteStart,
    (halign.termOn ht).xorbByteEnd, Within, UInt64.le_iff_toNat_le, UInt64.le_iff_toNat_le, ← hend,
    ← hstart]
  simp only [fetchEntry]
  omega

/-- Along the boundaries it makes no difference whether bytes or chunks are compared. -/
theorem ChunkAligned.coversChunks_iff (halign : ChunkAligned bounds row.terms)
    (ht : t ∈ termsOn row.terms xorbHash) {entry : FetchInfoEntry}
    (hentry : entry.Describes (bounds xorbHash)) :
    entry.coversChunks t ↔ entry.coversBytes t := by
  have hmono := halign.strictMono xorbHash
  have hwords := halign.termOn ht
  have hstart : entry.range.start.toNat ≤ (termSpan t).chunkStart.toNat ↔
      entry.urlRange.start.toNat ≤ (byteSpan t).1.toNat := by
    rw [hentry.1, hwords.byteStart, hmono.le_iff_le]
  have hend : (termSpan t).chunkEnd.toNat ≤ entry.range.endExclusive.toNat ↔
      (byteSpan t).2.toNat ≤ entry.urlRange.endInclusive.toNat + 1 := by
    rw [hentry.2, hwords.byteEnd, hmono.le_iff_le]
  rw [FetchInfoEntry.coversChunks, FetchInfoEntry.coversBytes, decide_eq_true_iff,
    decide_eq_true_iff, hwords.xorbStart, hwords.xorbEnd, hwords.xorbByteStart,
    hwords.xorbByteEnd]
  omega

/-- Exactly one entry of its xorb contains a term, by its bytes and by its chunks. -/
theorem ChunkAligned.filter_covers (halign : ChunkAligned bounds row.terms) (order : UnstableSort)
    (ht : t ∈ termsOn row.terms xorbHash) :
    ∃ br ∈ rangesOn order row xorbHash, Within (byteSpan t) br.span ∧
      ((rangesOn order row xorbHash).map (fetchEntry hmac row signer kid nowUnix xorbHash)).filter
          (FetchInfoEntry.coversBytes t) = [fetchEntry hmac row signer kid nowUnix xorbHash br] ∧
      ((rangesOn order row xorbHash).map (fetchEntry hmac row signer kid nowUnix xorbHash)).filter
          (FetchInfoEntry.coversChunks t) =
        [fetchEntry hmac row signer kid nowUnix xorbHash br] := by
  obtain ⟨br, hbr, hwithin, hfilter⟩ := filter_within_coalesceSpans halign.spans_lt
    order (List.mem_map_of_mem ht)
  have hbytes : ((rangesOn order row xorbHash).map
      (fetchEntry hmac row signer kid nowUnix xorbHash)).filter
        (FetchInfoEntry.coversBytes t) = [fetchEntry hmac row signer kid nowUnix xorbHash br] := by
    rw [List.filter_map, List.map_eq_singleton_iff]
    refine ⟨br, ?_, rfl⟩
    rw [← hfilter]
    refine List.filter_congr fun br' hbr' => ?_
    rw [Bool.eq_iff_iff, decide_eq_true_iff]
    exact halign.coversBytes_iff ht hbr'
  refine ⟨br, hbr, hwithin, hbytes, ?_⟩
  rw [← hbytes]
  refine List.filter_congr fun entry hentry => ?_
  obtain ⟨br', hbr', rfl⟩ := List.mem_map.1 hentry
  rw [Bool.eq_iff_iff]
  exact halign.coversChunks_iff ht (halign.describes hbr')

/-- The fetch entries cover every term at the right bytes: an entry describes the same chunks by its
chunk range and by its byte range, a term lies in exactly one entry of its xorb, and there are
entries for referenced xorbs only. -/
theorem buildResponse_covers (order : UnstableSort) (hmac : Hmac) (row : ReconstructionRow)
    (signer : UrlSigner) (kid : Uuid) (nowUnix : UInt64) (bounds : Hash → Nat → Nat)
    (halign : ChunkAligned bounds row.terms) :
    (∀ key entries,
        (buildResponse order hmac row signer kid nowUnix).fetchInfo.find key = some entries →
        ∃ t ∈ row.terms, key = digestToHex t.xorbHash) ∧
      ∀ t ∈ row.terms, ∃ entries,
        (buildResponse order hmac row signer kid nowUnix).fetchInfo.find
            (digestToHex t.xorbHash) = some entries ∧
          (∀ entry ∈ entries, entry.Describes (bounds t.xorbHash)) ∧
          ∃ entry, entries.filter (FetchInfoEntry.coversBytes t) = [entry] ∧
            entries.filter (FetchInfoEntry.coversChunks t) = [entry] := by
  constructor
  · intro key entries hfind
    obtain ⟨h, hkey, hEq, -⟩ := find_fetchInfo_iff.1 hfind
    obtain ⟨t, ht, rfl⟩ := mem_xorbKeys.1 hkey
    exact ⟨t, ht, hEq⟩
  · intro t ht
    have hkey : t.xorbHash ∈ xorbKeys row.terms := mem_xorbKeys.2 ⟨t, ht, rfl⟩
    refine ⟨_, find_fetchInfo.2 ⟨hkey, rfl⟩, ?_, ?_⟩
    · intro entry hentry
      obtain ⟨br, hbr, rfl⟩ := List.mem_map.1 hentry
      exact halign.describes hbr
    · obtain ⟨br, -, -, hbytes, hchunks⟩ :=
        halign.filter_covers order (mem_termsOn.2 ⟨ht, rfl⟩)
      exact ⟨_, hbytes, hchunks⟩

def vectorTerm (xorbStart xorbEnd unpackedStart unpackedEnd : Nat) : Term :=
  { xorbHash := vectorHash
    xorbStart := xorbStart
    xorbEnd := xorbEnd
    xorbByteStart := (1024 * xorbStart : Nat)
    xorbByteEnd := (1024 * xorbEnd : Nat)
    unpackedStart := unpackedStart
    unpackedEnd := unpackedEnd }

/-- Two terms that overlap, out of order, and one that touches them. -/
def vectorRow : ReconstructionRow :=
  { file := { fileId := Hash.fill 1, totalSize := 8192 }
    terms := [vectorTerm 5 7 0 3000, vectorTerm 4 6 3000 6000, vectorTerm 7 8 6000 8192] }

theorem buildResponse_covers_vector :
    ∃ entries, (buildResponse sortByStart rangeHmac vectorRow vectorSigner vectorKid
        1999992800).fetchInfo.find (digestToHex vectorHash) = some entries ∧
      (∀ entry ∈ entries, entry.Describes fun i => 1024 * i) ∧
      entries.map FetchInfoEntry.urlRange = [⟨4096, 8191⟩] := by
  have halign : ChunkAligned (fun _ i => 1024 * i) vectorRow.terms := by
    refine ⟨fun h a b hlt => ?_, fun h => rfl, ?_⟩
    · show 1024 * a < 1024 * b
      omega
    · intro t ht
      simp only [vectorRow, List.mem_cons, List.not_mem_nil, or_false] at ht
      rcases ht with rfl | rfl | rfl
      · exact ⟨5, 7, by decide, rfl, rfl, rfl, rfl, by decide⟩
      · exact ⟨4, 6, by decide, rfl, rfl, rfl, rfl, by decide⟩
      · exact ⟨7, 8, by decide, rfl, rfl, rfl, rfl, by decide⟩
  obtain ⟨-, hcovers⟩ := buildResponse_covers sortByStart rangeHmac vectorRow vectorSigner
    vectorKid 1999992800 _ halign
  obtain ⟨entries, hfind, hdescribes, -⟩ := hcovers (vectorTerm 5 7 0 3000) List.mem_cons_self
  refine ⟨entries, hfind, hdescribes, ?_⟩
  obtain ⟨-, rfl⟩ := find_fetchInfo.1 hfind
  decide +kernel

end Coverage

end Core
end OpenWeights
