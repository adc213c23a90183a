import OpenWeights.Core.SignedUrl

/-!
# Ranges — the `Range` header and the partial responses

Model of `gateway/ranges.go`: the header parser, the grant check and the two writers of a
`206 Partial Content`.  An HTTP range is END-INCLUSIVE; the section reader below it takes an offset
and a length, both `int64`, and the conversions wrap as they do in Go.
-/

namespace OpenWeights
namespace Gateway

open Lib Db OpenWeights.Core

/-! ## Parsing -/

/-- `Range`; `stop` is the field `End`, the last byte. -/
structure Range where
  start : UInt64
  stop : UInt64
  deriving DecidableEq, Repr

inductive RangeErr
  | negativeSize (size : Int64)
  | badRange
  | unsatisfiable
  deriving DecidableEq, Repr

def RangeErr.text : RangeErr → Bytes
  | negativeSize size => lit "ParseRange: negative size " ++ formatInt size.toInt
  | badRange => lit "malformed Range header"
  | unsatisfiable => lit "range not satisfiable"

/-- `-N`: the last `N` bytes. -/
def suffixRange (size : Int64) (endStr : Bytes) : Except RangeErr Range :=
  match parseUint64 endStr with
  | none => .error .badRange
  | some suffix =>
      if suffix = 0 then
        .error .badRange
      else if size = 0 then
        .error .unsatisfiable
      else
        let usize := size.toUInt64
        let suffix := if suffix > usize then usize else suffix
        .ok { start := usize - suffix, stop := usize - 1 }

/-- `N-`: from byte `N` on. -/
def openRange (size : Int64) (startStr : Bytes) : Except RangeErr Range :=
  match parseUint64 startStr with
  | none => .error .badRange
  | some v =>
      if size = 0 ∨ v ≥ size.toUInt64 then
        .error .unsatisfiable
      else
        .ok { start := v, stop := size.toUInt64 - 1 }

/-- `S-E`: both bounds given. -/
def fullRange (size : Int64) (startStr endStr : Bytes) : Except RangeErr Range :=
  match parseUint64 startStr, parseUint64 endStr with
  | some s1, some s2 =>
      if s1 > s2 then
        .error .badRange
      else if size = 0 ∨ s2 ≥ size.toUInt64 then
        .error .unsatisfiable
      else
        .ok { start := s1, stop := s2 }
  | _, _ => .error .badRange

/-- One turn of the loop of `ParseRange`. -/
def parseSpec (size : Int64) (raw : Bytes) : Except RangeErr Range :=
  let s := trimSpace raw
  if s = [] then
    .error .badRange
  else
    match cutAt 45 s with
    | none => .error .badRange
    | some (startStr, endStr) =>
        if startStr = [] ∧ endStr = [] then
          .error .badRange
        else if startStr = [] then
          suffixRange size endStr
        else if endStr = [] then
          openRange size startStr
        else
          fullRange size startStr endStr

/-- The loop of `ParseRange`: the first error ends it. -/
def parseSpecs (size : Int64) : List Bytes → Except RangeErr (List Range)
  | [] => .ok []
  | raw :: rest =>
      match parseSpec size raw with
      | .error e => .error e
      | .ok r =>
          match parseSpecs size rest with
          | .error e => .error e
          | .ok out => .ok (r :: out)

def parseRange (header : Bytes) (size : Int64) : Except RangeErr (List Range) :=
  if size < 0 then
    .error (.negativeSize size)
  else if ¬(lit "bytes=").isPrefixOf header then
    .error .badRange
  else
    let body := header.drop (lit "bytes=").length
    if body = [] then
      .error .badRange
    else
      match parseSpecs size (body.splitOn 44) with
      | .error e => .error e
      | .ok [] => .error .badRange
      | .ok (r :: out) => .ok (r :: out)

/-- The grant of a verified URL, as the handler lists it. -/
def Range.ofSegment (g : Segment) : Range :=
  { start := g.1, stop := g.2 }

def allRangesWithinAny (ranges grants : List Range) : Bool :=
  ranges.all fun r => grants.any fun g => r.start ≥ g.start && r.stop ≤ g.stop

/-! ## Writing -/

/-- What a handler did to its `http.ResponseWriter`: the header map, the status lines it wrote
itself, and the body. -/
structure ResponseWriter where
  header : List (Bytes × Bytes)
  statusLines : List Nat
  body : Bytes
  deriving DecidableEq, Repr

namespace ResponseWriter

def new : ResponseWriter :=
  { header := []
    statusLines := []
    body := [] }

def setHeader (w : ResponseWriter) (key value : Bytes) : ResponseWriter :=
  { w with header := (w.header.filter fun p => p.1 ≠ key) ++ [(key, value)] }

def writeHeader (w : ResponseWriter) (status : Nat) : ResponseWriter :=
  { w with statusLines := w.statusLines ++ [status] }

/-- `w.Write` to a client that is still there. -/
def write (w : ResponseWriter) (bytes : Bytes) : ResponseWriter :=
  { w with body := w.body ++ bytes }

@[simp] theorem statusLines_setHeader (w : ResponseWriter) (key value : Bytes) :
    (w.setHeader key value).statusLines = w.statusLines := rfl

@[simp] theorem body_setHeader (w : ResponseWriter) (key value : Bytes) :
    (w.setHeader key value).body = w.body := rfl

@[simp] theorem statusLines_writeHeader (w : ResponseWriter) (status : Nat) :
    (w.writeHeader status).statusLines = w.statusLines ++ [status] := rfl

@[simp] theorem body_writeHeader (w : ResponseWriter) (status : Nat) :
    (w.writeHeader status).body = w.body := rfl

@[simp] theorem statusLines_write (w : ResponseWriter) (bytes : Bytes) :
    (w.write bytes).statusLines = w.statusLines := rfl

@[simp] theorem body_write (w : ResponseWriter) (bytes : Bytes) :
    (w.write bytes).body = w.body ++ bytes := rfl

end ResponseWriter

/-- All that `io.NewSectionReader(src, off, n)` yields, `src` being a file with these bytes.  A
negative offset is refused by the file, a negative length leaves nothing to read. -/
def sectionReader (src : Bytes) (off n : Int64) : Bytes :=
  let limit := if off ≤ Int64.maxValue - n then n + off else Int64.maxValue
  if off < 0 ∨ limit ≤ off then
    []
  else
    (src.drop off.toInt.toNat).take (limit - off).toInt.toNat

/-- `End - Start + 1` as an `int64`. -/
def Range.length (r : Range) : Int64 := (r.stop - r.start).toInt64 + 1

def Range.contentRange (r : Range) (totalSize : Int64) : Bytes :=
  lit "bytes " ++ decimal r.start.toNat ++ 45 :: decimal r.stop.toNat ++
    47 :: formatInt totalSize.toInt

def writeSingleRange (w : ResponseWriter) (r : Range) (totalSize : Int64) (src : Bytes) :
    ResponseWriter :=
  let length := r.length
  let w := w.setHeader (lit "Content-Type") (lit "application/octet-stream")
  let w := w.setHeader (lit "Content-Range") (r.contentRange totalSize)
  let w := w.setHeader (lit "Content-Length") (formatInt length.toInt)
  let w := w.setHeader (lit "Accept-Ranges") (lit "bytes")
  let w := w.writeHeader 206
  w.write (sectionReader src r.start.toInt64 length)

def multipartBoundary : Bytes := lit "xet_multipart_boundary"

def crlf : Bytes := [13, 10]

/-- The framing `mime/multipart` puts before the bytes of a part; the header keys are sorted. -/
def partHeader (r : Range) (totalSize : Int64) (first : Bool) : Bytes :=
  (if first then [] else crlf) ++ lit "--" ++ multipartBoundary ++ crlf ++
    lit "Content-Range: " ++ r.contentRange totalSize ++ crlf ++
    lit "Content-Type: application/octet-stream" ++ crlf ++ crlf

def closeDelim : Bytes := crlf ++ lit "--" ++ multipartBoundary ++ lit "--" ++ crlf

/-- One turn of the loop that adds up the content length. -/
def partLength (r : Range) (totalSize : Int64) (first : Bool) : Int64 :=
  let openDelim := lit "--" ++ multipartBoundary ++ crlf
  let ctLine := lit "Content-Type: application/octet-stream" ++ crlf
  let crLine := lit "Content-Range: " ++ r.contentRange totalSize ++ crlf
  (if first then 0 else 2) + Int64.ofNat openDelim.length + Int64.ofNat ctLine.length +
    Int64.ofNat crLine.length + 2 + r.length

/-- The content length `writeMultipartRanges` announces. -/
def multipartLength (totalSize : Int64) : Bool → List Range → Int64
  | _, [] => Int64.ofNat closeDelim.length
  | first, r :: rest => partLength r totalSize first + multipartLength totalSize false rest

/-- The parts in order, then the closing delimiter. -/
def multipartBody (totalSize : Int64) (src : Bytes) : Bool → List Range → Bytes
  | _, [] => closeDelim
  | first, r :: rest =>
      partHeader r totalSize first ++ sectionReader src r.start.toInt64 r.length ++
        multipartBody totalSize src false rest

def writeMultipartRanges (w : ResponseWriter) (ranges : List Range) (totalSize : Int64)
    (src : Bytes) : ResponseWriter :=
  let w := w.setHeader (lit "Content-Type")
    (lit "multipart/byteranges; boundary=" ++ multipartBoundary)
  let w := w.setHeader (lit "Content-Length")
    (formatInt (multipartLength totalSize true ranges).toInt)
  let w := w.setHeader (lit "Accept-Ranges") (lit "bytes")
  let w := w.writeHeader 206
  w.write (multipartBody totalSize src true ranges)

/-! ## What a single range sends -/

theorem toInt_toInt64 {v : UInt64} (h : v.toNat < 2 ^ 63) : v.toInt64.toInt = v.toNat := by
  have hlt : 2 * v.toBitVec.toNat < 2 ^ 64 := by
    rw [UInt64.toNat_toBitVec]
    omega
  exact BitVec.toInt_eq_toNat_of_lt hlt

theorem toNat_toUInt64 {size : Int64} (h : 0 ≤ size.toInt) :
    (size.toUInt64.toNat : Int) = size.toInt := by
  have hcond : size.toInt =
      if 2 * size.toUInt64.toNat < 2 ^ 64 then (size.toUInt64.toNat : Int)
      else (size.toUInt64.toNat : Int) - (2 ^ 64 : Nat) :=
    BitVec.toInt_eq_toNat_cond size.toBitVec
  have hlt := size.toUInt64.toNat_lt
  split at hcond <;> omega

/-- Sums and differences of `int64` that stay in the range of the type. -/
theorem toInt_add {a b : Int64} (hlow : -2 ^ 63 ≤ a.toInt + b.toInt)
    (hhigh : a.toInt + b.toInt < 2 ^ 63) : (a + b).toInt = a.toInt + b.toInt := by
  rw [Int64.toInt_add]
  exact Int.bmod_eq_of_le (by omega) (by omega)

theorem toInt_sub {a b : Int64} (hlow : -2 ^ 63 ≤ a.toInt - b.toInt)
    (hhigh : a.toInt - b.toInt < 2 ^ 63) : (a - b).toInt = a.toInt - b.toInt := by
  rw [Int64.toInt_sub]
  exact Int.bmod_eq_of_le (by omega) (by omega)

theorem Range.toInt_length {r : Range} (hle : r.start ≤ r.stop)
    (hstop : r.stop.toNat + 1 < 2 ^ 63) :
    r.length.toInt = r.stop.toNat + 1 - r.start.toNat := by
  have hsub : (r.stop - r.start).toNat = r.stop.toNat - r.start.toNat :=
    UInt64.toNat_sub_of_le _ _ hle
  have hle := UInt64.le_iff_toNat_le.1 hle
  have hdiff : (r.stop - r.start).toInt64.toInt = r.stop.toNat - r.start.toNat := by
    rw [toInt_toInt64 (by omega), hsub]
    omega
  have hone : (1 : Int64).toInt = 1 := by decide
  rw [Range.length, toInt_add (by omega) (by omega), hdiff, hone]
  omega

/-- A section that lies in the range of `int64` is cut out of the file. -/
theorem sectionReader_eq {src : Bytes} {off n : Int64} (hoff : 0 ≤ off.toInt) (hn : 0 < n.toInt)
    (hsum : off.toInt + n.toInt < 2 ^ 63) :
    sectionReader src off n = (src.drop off.toInt.toNat).take n.toInt.toNat := by
  have hmax : Int64.maxValue.toInt = 2 ^ 63 - 1 := Int64.toInt_maxValue
  have hroom : off ≤ Int64.maxValue - n := by
    rw [Int64.le_iff_toInt_le, toInt_sub (by omega) (by omega), hmax]
    omega
  have hlimit : (n + off).toInt = n.toInt + off.toInt := toInt_add (by omega) (by omega)
  have hread : ¬(off < 0 ∨ n + off ≤ off) := by
    rw [Int64.lt_iff_toInt_lt, Int64.le_iff_toInt_le, hlimit, Int64.toInt_zero]
    omega
  have hlen : (n + off - off).toInt = n.toInt := by
    rw [toInt_sub (by omega) (by omega), hlimit]
    omega
  unfold sectionReader
  simp only [if_pos hroom, if_neg hread, hlen]

/-- What is read for a range: the bytes from `start` to `stop`, both included. -/
theorem sectionReader_range {r : Range} (src : Bytes) (hle : r.start ≤ r.stop)
    (hstop : r.stop.toNat + 1 < 2 ^ 63) :
    sectionReader src r.start.toInt64 r.length =
      (src.drop r.start.toNat).take (r.stop.toNat + 1 - r.start.toNat) := by
  have hlength := Range.toInt_length hle hstop
  have hle := UInt64.le_iff_toNat_le.1 hle
  have hstart : r.start.toInt64.toInt = r.start.toNat := toInt_toInt64 (by omega)
  have hsection : sectionReader src r.start.toInt64 r.length =
      (src.drop r.start.toInt64.toInt.toNat).take r.length.toInt.toNat :=
    sectionReader_eq (by omega) (by omega) (by omega)
  have hcount : r.length.toInt.toNat = r.stop.toNat + 1 - r.start.toNat := by omega
  rwa [hcount, hstart, Int.toNat_natCast] at hsection

/-- `writeSingleRange` sends the bytes from `start` to `stop`, both included. -/
theorem body_writeSingleRange (w : ResponseWriter) {r : Range} (totalSize : Int64) (src : Bytes)
    (hle : r.start ≤ r.stop) (hstop : r.stop.toNat + 1 < 2 ^ 63) :
    (writeSingleRange w r totalSize src).body =
      w.body ++ (src.drop r.start.toNat).take (r.stop.toNat + 1 - r.start.toNat) := by
  simp only [writeSingleRange, ResponseWriter.body_write, ResponseWriter.body_writeHeader,
    ResponseWriter.body_setHeader, sectionReader_range src hle hstop]

end Gateway
end OpenWeights
