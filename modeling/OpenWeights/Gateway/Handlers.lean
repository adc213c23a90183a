import OpenWeights.Gateway.SignedUrl
import OpenWeights.Gateway.Ranges

/-!
# Handlers — what `ServeXorb` decides and writes

Model of `gateway/handlers.go`: the checks of `ServeXorb` up to the ranges it will serve, and its
last step, the response.  How it gets at the bytes in between is the subject of `Serving`.

The database is the interface `XorbLookup`, as it is for the handler.
-/

namespace OpenWeights
namespace Gateway

open Lib Db OpenWeights.Core

/-! ## Errors -/

def respondError (w : ResponseWriter) (status : Nat) (publicMsg : Bytes) : ResponseWriter :=
  let w := w.setHeader (lit "Content-Type") (lit "text/plain; charset=utf-8")
  let w := w.setHeader (lit "X-Content-Type-Options") (lit "nosniff")
  let w := w.writeHeader status
  w.write (publicMsg ++ lit "\n")

def respondVerifyErr (w : ResponseWriter) (verr : VerifyErr) : ResponseWriter :=
  respondError w verr.status (if verr.status = 403 then lit "forbidden" else lit "bad request")

/-- The errors of `LookupXorb`: `ErrXorbNotFound`, and all others. -/
inductive LookupErr
  | notFound
  | other (text : Bytes)
  deriving DecidableEq, Repr

/-- `XorbLookup`: the Sia object and the size of a pinned xorb. -/
abbrev XorbLookup := Bytes → Except LookupErr (Hash × Int64)

/-! ## Admission -/

/-- What `ServeXorb` reads of a request; an absent `Range` header is the empty string. -/
structure XorbRequest where
  hash : Bytes
  query : Values
  range : Bytes
  deriving DecidableEq, Repr

structure Admitted where
  vok : VerifyOk
  siaId : Hash
  size : Int64
  ranges : List Range
  deriving DecidableEq, Repr

/-- Step 3: the `Range` header, if there is one. -/
def readRanges (w : ResponseWriter) (range : Bytes) (size : Int64) :
    Except ResponseWriter (List Range) :=
  if range = [] then
    .ok []
  else
    match parseRange range size with
    | .ok ranges => .ok ranges
    | .error .unsatisfiable =>
        let w := w.setHeader (lit "Content-Range") (lit "bytes */" ++ formatInt size.toInt)
        .error (respondError w 416 (lit "range not satisfiable"))
    | .error _ => .error (respondError w 400 (lit "bad range"))

/-- Step 4: a bounded URL is never served beyond its segments. -/
def boundRanges (w : ResponseWriter) (granted : List Segment) (ranges : List Range) :
    Except ResponseWriter (List Range) :=
  if granted = [] then
    .ok ranges
  else
    let grants := granted.map Range.ofSegment
    if ranges = [] then
      -- no `Range` header: the granted segments are the object
      .ok grants
    else if allRangesWithinAny ranges grants then
      .ok ranges
    else
      .error (respondError w 403 (lit "forbidden"))

/-- Steps 1 to 4 of `ServeXorb`: the ranges to serve, or the refusal that was written. -/
def admission (uuid : UuidParser) (hmac : Hmac) (verifier : UrlVerifier) (lookup : XorbLookup)
    (w : ResponseWriter) (r : XorbRequest) (now : UInt64) : Except ResponseWriter Admitted :=
  match verifier.verify uuid hmac r.hash r.query now with
  | .error verr => .error (respondVerifyErr w verr)
  | .ok vok =>
  match lookup r.hash with
  | .error .notFound => .error (respondError w 404 (lit "not found"))
  | .error (.other _) => .error (respondError w 500 (lit "internal"))
  | .ok (siaId, size) =>
  match readRanges w r.range size with
  | .error w => .error w
  | .ok ranges =>
  match boundRanges w vok.ranges ranges with
  | .error w => .error w
  | .ok ranges =>
      .ok
        { vok := vok
          siaId := siaId
          size := size
          ranges := ranges }

/-! ## The response -/

/-- `xorbSource`: the bytes of the opened file, and where they came from. -/
structure XorbSource where
  bytes : Bytes
  cacheHit : Bool
  siaFetchMs : Int64
  deriving DecidableEq, Repr

/-- The writer step 6 picks, with the ranges it passes on. -/
inductive BodyWriter
  | full
  | single (r : Range)
  | multipart (ranges : List Range)
  deriving DecidableEq, Repr

def BodyWriter.pick : List Range → BodyWriter
  | [] => .full
  | [r] => .single r
  | ranges => .multipart ranges

/-- The ranges passed to a writer of a `206`. -/
def BodyWriter.ranges : BodyWriter → List Range
  | full => []
  | single r => [r]
  | multipart ranges => ranges

def writeFull (w : ResponseWriter) (size : Int64) (src : Bytes) : ResponseWriter :=
  let w := w.setHeader (lit "Content-Type") (lit "application/octet-stream")
  let w := w.setHeader (lit "Content-Length") (formatInt size.toInt)
  let w := w.setHeader (lit "Accept-Ranges") (lit "bytes")
  let w := w.writeHeader 200
  w.write (sectionReader src 0 size)

/-- Step 6 of `ServeXorb`. -/
def respond (w : ResponseWriter) (src : XorbSource) (size : Int64) (ranges : List Range) :
    ResponseWriter :=
  let w := w.setHeader (lit "X-Cache") (if src.cacheHit then lit "HIT" else lit "MISS")
  let w := w.setHeader (lit "X-Sia-Fetch-Ms") (formatInt src.siaFetchMs.toInt)
  match BodyWriter.pick ranges with
  | .full => writeFull w size src.bytes
  | .single r => writeSingleRange w r size src.bytes
  | .multipart ranges => writeMultipartRanges w ranges size src.bytes

theorem BodyWriter.ranges_pick (ranges : List Range) :
    (BodyWriter.pick ranges).ranges = ranges := by
  match ranges with
  | [] => rfl
  | [_] => rfl
  | _ :: _ :: _ => rfl

theorem BodyWriter.pick_ne_full {ranges : List Range} (h : ranges ≠ []) :
    BodyWriter.pick ranges ≠ .full := by
  intro hfull
  have hranges := BodyWriter.ranges_pick ranges
  rw [hfull] at hranges
  exact h hranges.symm

/-! ## A header that lists the grant -/

def rangeHeader (segs : List Segment) : Bytes :=
  lit "bytes=" ++ UrlSigner.segmentsText segs

theorem trimSpace_segmentText (seg : Segment) :
    trimSpace (UrlSigner.segmentText seg) = UrlSigner.segmentText seg := by
  refine trimSpace_of_solid fun c hc => ?_
  rcases List.mem_append.1 hc with hc | hc
  · exact solid_of_digit (isDigit_decimal _ c hc)
  · rcases List.mem_cons.1 hc with rfl | hc
    · decide
    · exact solid_of_digit (isDigit_decimal _ c hc)

/-- A range inside the object parses to itself. -/
theorem parseSpec_segmentText {size : Int64} {seg : Segment} (hle : seg.1 ≤ seg.2)
    (hsize : seg.2 < size.toUInt64) :
    parseSpec size (UrlSigner.segmentText seg) = .ok (Range.ofSegment seg) := by
  have hne : UrlSigner.segmentText seg ≠ [] := by simp [UrlSigner.segmentText]
  have hcut : cutAt 45 (UrlSigner.segmentText seg) =
      some (decimal seg.1.toNat, decimal seg.2.toNat) :=
    cutAt_append (not_mem_decimal (by decide) _) _
  have hpos : size ≠ 0 := by
    rintro rfl
    exact absurd hsize (UInt64.not_lt.2 (UInt64.zero_le))
  have hinside : ¬seg.2 ≥ size.toUInt64 := UInt64.not_le.2 hsize
  have horder : ¬seg.1 > seg.2 := UInt64.not_lt.2 hle
  simp [parseSpec, trimSpace_segmentText, hne, hcut, decimal_ne_nil, fullRange,
    parseUint64_decimal, horder, hpos, hinside, Range.ofSegment]

theorem parseSpecs_map_segmentText {size : Int64} {segs : List Segment}
    (h : ∀ seg ∈ segs, seg.1 ≤ seg.2 ∧ seg.2 < size.toUInt64) :
    parseSpecs size (segs.map UrlSigner.segmentText) = .ok (segs.map Range.ofSegment) := by
  induction segs with
  | nil => rfl
  | cons seg rest ih =>
      obtain ⟨hle, hsize⟩ := h seg List.mem_cons_self
      have hrest := ih fun s hs => h s (List.mem_cons_of_mem seg hs)
      simp only [List.map_cons, parseSpecs, parseSpec_segmentText hle hsize, hrest]

theorem parseRange_rangeHeader {size : Int64} {segs : List Segment} (hnonneg : 0 ≤ size)
    (hne : segs ≠ []) (h : ∀ seg ∈ segs, seg.1 ≤ seg.2 ∧ seg.2 < size.toUInt64) :
    parseRange (rangeHeader segs) size = .ok (segs.map Range.ofSegment) := by
  have hsize : ¬size < 0 := Int64.not_lt.2 hnonneg
  have hstarts : (lit "bytes=").isPrefixOf (rangeHeader segs) = true :=
    List.isPrefixOf_iff_prefix.2 (List.prefix_append _ _)
  have hbody : (rangeHeader segs).drop (lit "bytes=").length = UrlSigner.segmentsText segs :=
    List.drop_left
  have hspecs := parseSpecs_map_segmentText h
  rw [← splitOn_segmentsText hne] at hspecs
  rw [parseRange, if_neg hsize, if_neg (by simp [hstarts])]
  simp only [hbody, if_neg (segmentsText_ne_nil hne), hspecs]
  cases segs with
  | nil => exact absurd rfl hne
  | cons seg rest => rfl

/-- Every range lies within itself. -/
theorem allRangesWithinAny_self (ranges : List Range) : allRangesWithinAny ranges ranges = true := by
  rw [allRangesWithinAny, List.all_eq_true]
  intro r hr
  rw [List.any_eq_true]
  exact ⟨r, hr, by simp⟩

end Gateway
end OpenWeights
