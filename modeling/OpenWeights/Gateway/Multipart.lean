import OpenWeights.Core.Xorbs
import OpenWeights.Gateway.Bounds

/-!
# Multipart — reading a `multipart/byteranges` body back

`writeMultipartRanges` announces a length it has counted by hand, and leaves the framing to
`mime/multipart`.  A client reads the body part by part: the boundary line, the header lines, and
then exactly as many bytes as `Content-Range` says, so that nothing inside a part can be taken for a
boundary.  It gets back the ranges in order with their bytes (`decodeMultipart_multipartBody`).

The announced length is right as long as an `int64` can hold it (`multipartExact_iff`), which it does
for every object and every request the gateway can meet (`multipartExact_of_limits`).
-/

namespace OpenWeights
namespace Gateway

open Lib Db OpenWeights.Core

/-! ## The client's side -/

structure BodyPart where
  range : Range
  totalSize : Int
  content : Bytes
  deriving DecidableEq, Repr

def readContentRange (value : Bytes) : Option (Range × Int) :=
  (cutAt 32 value).bind fun unit =>
    if unit.1 ≠ lit "bytes" then
      none
    else
      (cutAt 45 unit.2).bind fun start =>
        (cutAt 47 start.2).bind fun stop =>
          match parseUint64 start.1, parseUint64 stop.1, parseInt64 stop.2 with
          | some s, some e, some total => some (⟨s, e⟩, total)
          | _, _, _ => none

/-- The header lines up to the empty one, as names and values. -/
def readHeaders : Nat → Bytes → Option (List (Bytes × Bytes) × Bytes)
  | 0, _ => none
  | fuel + 1, s =>
      (cutLine s).bind fun line =>
        if line.1 = [] then
          some ([], line.2)
        else
          (cutAt 58 line.1).bind fun field =>
            (readHeaders fuel line.2).map fun headers =>
              ((field.1, field.2.dropWhile fun c => c = 32) :: headers.1, headers.2)

/-- A part after its boundary line: the headers, and as many bytes as its `Content-Range` says. -/
def readPart (s : Bytes) : Option (BodyPart × Bytes) :=
  (readHeaders s.length s).bind fun headers =>
    (headers.1.lookup (lit "Content-Range")).bind fun value =>
      (readContentRange value).bind fun contentRange =>
        let count := contentRange.1.stop.toNat + 1 - contentRange.1.start.toNat
        if headers.2.length < count then
          none
        else
          some (⟨contentRange.1, contentRange.2, headers.2.take count⟩, headers.2.drop count)

/-- The parts up to the closing delimiter, and what follows it.  Every part takes a byte, so a turn
for each is enough. -/
def readParts : Nat → Bytes → Option (List BodyPart × Bytes)
  | 0, _ => none
  | fuel + 1, s =>
      (cutLine s).bind fun line =>
        if line.1 = lit "--" ++ multipartBoundary ++ lit "--" then
          some ([], line.2)
        else if line.1 = lit "--" ++ multipartBoundary then
          (readPart line.2).bind fun part =>
            -- the line end before a delimiter belongs to the delimiter
            (cutLine part.2).bind fun delimiter =>
              if delimiter.1 ≠ [] then
                none
              else
                (readParts fuel delimiter.2).map fun parts => (part.1 :: parts.1, parts.2)
        else
          none

/-- All parts of a body that ends with its closing delimiter. -/
def decodeMultipart (body : Bytes) : Option (List BodyPart) :=
  (readParts body.length body).bind fun parts => if parts.2 = [] then some parts.1 else none

/-! ## One part -/

theorem readContentRange_contentRange (r : Range) (totalSize : Int64) :
    readContentRange (r.contentRange totalSize) = some (r, totalSize.toInt) := by
  have hunit : cutAt 32 (r.contentRange totalSize) = some (lit "bytes",
      decimal r.start.toNat ++ 45 :: (decimal r.stop.toNat ++ 47 :: formatInt totalSize.toInt)) := by
    have hbytes : lit "bytes " = lit "bytes" ++ [32] := by decide
    have hcut := cutAt_append (show (32 : UInt8) ∉ lit "bytes" by decide)
      (decimal r.start.toNat ++ 45 :: (decimal r.stop.toNat ++ 47 :: formatInt totalSize.toInt))
    rw [← hcut, Range.contentRange, hbytes]
    simp
  have hhyphen : (45 : UInt8) ∉ decimal r.start.toNat := not_mem_decimal (by decide) _
  have hslash : (47 : UInt8) ∉ decimal r.stop.toNat := not_mem_decimal (by decide) _
  have hstart := cutAt_append hhyphen (decimal r.stop.toNat ++ 47 :: formatInt totalSize.toInt)
  have hstop := cutAt_append hslash (formatInt totalSize.toInt)
  have htotal := parseInt64_formatInt totalSize.le_toInt totalSize.toInt_lt
  simp only [readContentRange, hunit, hstart, hstop, Option.bind_some, ne_eq, not_true_eq_false,
    if_false, parseUint64_decimal, htotal]

theorem not_mem_formatInt {c : UInt8} (hc : ¬(48 ≤ c ∧ c ≤ 57)) (hminus : c ≠ 45) (n : Int) :
    c ∉ formatInt n := by
  unfold formatInt
  split
  · rw [List.mem_cons, not_or]
    exact ⟨hminus, not_mem_decimal hc _⟩
  · exact not_mem_decimal hc _

theorem not_cr_mem_contentRange (r : Range) (totalSize : Int64) :
    13 ∉ r.contentRange totalSize := by
  have hstart : (13 : UInt8) ∉ decimal r.start.toNat := not_mem_decimal (by decide) _
  have hstop : (13 : UInt8) ∉ decimal r.stop.toNat := not_mem_decimal (by decide) _
  have htotal : (13 : UInt8) ∉ formatInt totalSize.toInt :=
    not_mem_formatInt (by decide) (by decide) _
  have hunit : (13 : UInt8) ∉ lit "bytes " := by decide
  simp [Range.contentRange, hstart, hstop, htotal, hunit]

def partFields (r : Range) (totalSize : Int64) : Bytes :=
  lit "Content-Range: " ++ r.contentRange totalSize ++ crlf ++
    (lit "Content-Type: application/octet-stream" ++ crlf ++ crlf)

theorem readHeaders_partFields (fuel : Nat) (r : Range) (totalSize : Int64) (rest : Bytes) :
    readHeaders (fuel + 3) (partFields r totalSize ++ rest) =
      some ([(lit "Content-Range", r.contentRange totalSize),
        (lit "Content-Type", lit "application/octet-stream")], rest) := by
  -- Two header lines and the empty line after them, then the colon of each.
  have hrangeLine : cutLine (partFields r totalSize ++ rest) =
      some (lit "Content-Range: " ++ r.contentRange totalSize,
        lit "Content-Type: application/octet-stream" ++ crlf ++ crlf ++ rest) := by
    have hnot : (13 : UInt8) ∉ lit "Content-Range: " ++ r.contentRange totalSize := by
      rw [List.mem_append, not_or]
      exact ⟨by decide, not_cr_mem_contentRange r totalSize⟩
    rw [← cutLine_append hnot]
    simp [partFields, crlf]
  have htypeLine : cutLine (lit "Content-Type: application/octet-stream" ++ crlf ++ crlf ++ rest) =
      some (lit "Content-Type: application/octet-stream", crlf ++ rest) := by
    rw [← cutLine_append (by decide)]
    simp [crlf]
  have hempty : cutLine (crlf ++ rest) = some ([], rest) := rfl
  have hrangeField : cutAt 58 (lit "Content-Range: " ++ r.contentRange totalSize) =
      some (lit "Content-Range", 32 :: r.contentRange totalSize) := by
    rw [← cutAt_append (show (58 : UInt8) ∉ lit "Content-Range" by decide)]
    rfl
  have htypeField : cutAt 58 (lit "Content-Type: application/octet-stream") =
      some (lit "Content-Type", lit " application/octet-stream") := by
    decide
  have hvalue : (32 :: r.contentRange totalSize).dropWhile (fun c => c = 32) =
      r.contentRange totalSize := rfl
  have hrangeNe : lit "Content-Range: " ++ r.contentRange totalSize ≠ [] := by
    intro hnil
    exact absurd (List.append_eq_nil_iff.1 hnil).1 (by decide)
  have htypeNe : lit "Content-Type: application/octet-stream" ≠ [] := by decide
  have htypeValue : (lit " application/octet-stream").dropWhile (fun c => c = 32) =
      lit "application/octet-stream" := by
    decide
  simp only [readHeaders, hrangeLine, htypeLine, hempty, Option.bind_some, if_neg hrangeNe,
    if_neg htypeNe, if_true, hrangeField, htypeField, Option.map_some, hvalue, htypeValue]

theorem readPart_partFields {size : Int64} {src : Bytes} (hsrc : (src.length : Int) = size.toInt)
    {r : Range} (h : r.InObject size) (rest : Bytes) :
    readPart (partFields r size ++ (sectionReader src r.start.toInt64 r.length ++ rest)) =
      some (⟨r, size.toInt, sectionReader src r.start.toInt64 r.length⟩, rest) := by
  have hlength := h.length_sectionReader hsrc
  generalize sectionReader src r.start.toInt64 r.length = content at hlength ⊢
  obtain ⟨fuel, hfuel⟩ : ∃ fuel, (partFields r size ++ (content ++ rest)).length = fuel + 3 := by
    apply Nat.exists_eq_add_of_le'
    simp only [partFields, crlf, List.length_append, List.length_cons, List.length_nil]
    omega
  have hheaders := readHeaders_partFields fuel r size (content ++ rest)
  have hfield : ([(lit "Content-Range", r.contentRange size),
      (lit "Content-Type", lit "application/octet-stream")]).lookup (lit "Content-Range") =
      some (r.contentRange size) := List.lookup_cons_self
  have henough : ¬(content ++ rest).length < r.stop.toNat + 1 - r.start.toNat := by
    rw [List.length_append, hlength]
    omega
  have htake : (content ++ rest).take (r.stop.toNat + 1 - r.start.toNat) = content := by
    rw [← hlength]
    exact List.take_left
  have hdrop : (content ++ rest).drop (r.stop.toNat + 1 - r.start.toNat) = rest := by
    rw [← hlength]
    exact List.drop_left
  simp only [readPart, hfuel, hheaders, Option.bind_some, hfield, readContentRange_contentRange,
    if_neg henough, htake, hdrop]

/-! ## The whole body -/

/-- The body without the line end that belongs to its first delimiter. -/
def delimited (totalSize : Int64) (src : Bytes) : List Range → Bytes
  | [] => lit "--" ++ multipartBoundary ++ lit "--" ++ crlf
  | r :: rest =>
      lit "--" ++ multipartBoundary ++ crlf ++ (partFields r totalSize ++
        (sectionReader src r.start.toInt64 r.length ++ multipartBody totalSize src false rest))

theorem multipartBody_false (totalSize : Int64) (src : Bytes) (ranges : List Range) :
    multipartBody totalSize src false ranges = crlf ++ delimited totalSize src ranges := by
  cases ranges with
  | nil => rfl
  | cons r rest => simp [multipartBody, delimited, partHeader, partFields]

theorem multipartBody_true (totalSize : Int64) (src : Bytes) {ranges : List Range}
    (hne : ranges ≠ []) :
    multipartBody totalSize src true ranges = delimited totalSize src ranges := by
  cases ranges with
  | nil => exact absurd rfl hne
  | cons r rest => simp [multipartBody, delimited, partHeader, partFields]

theorem length_lt_multipartSize (totalSize : Int64) (first : Bool) (ranges : List Range) :
    ranges.length < multipartSize totalSize first ranges := by
  induction ranges generalizing first with
  | nil =>
      show 0 < closeDelim.length
      decide
  | cons r rest ih =>
      have hrest := ih false
      have hheader : 0 < (partHeader r totalSize first).length := by
        simp only [partHeader, crlf, List.length_append, List.length_cons]
        omega
      rw [multipartSize, partSize, List.length_cons]
      omega

theorem closeDelim_suffix (totalSize : Int64) (src : Bytes) (first : Bool) (ranges : List Range) :
    closeDelim <:+ multipartBody totalSize src first ranges := by
  induction ranges generalizing first with
  | nil => exact List.suffix_refl _
  | cons r rest ih => exact (ih false).trans (List.suffix_append _ _)

def bodyPart (totalSize : Int64) (src : Bytes) (r : Range) : BodyPart :=
  { range := r
    totalSize := totalSize.toInt
    content := (src.drop r.start.toNat).take (r.stop.toNat + 1 - r.start.toNat) }

theorem readParts_delimited {size : Int64} {src : Bytes} (hsrc : (src.length : Int) = size.toInt)
    {fuel : Nat} {ranges : List Range} (h : ∀ r ∈ ranges, r.InObject size)
    (hfuel : ranges.length < fuel) :
    readParts fuel (delimited size src ranges) =
      some (ranges.map (bodyPart size src), []) := by
  induction ranges generalizing fuel with
  | nil =>
      obtain ⟨fuel, rfl⟩ := Nat.exists_eq_add_of_lt hfuel
      have hline : cutLine (delimited size src []) =
          some (lit "--" ++ multipartBoundary ++ lit "--", []) := by
        show cutLine (lit "--" ++ multipartBoundary ++ lit "--" ++ crlf) = _
        decide +kernel
      simp only [readParts, hline, Option.bind_some, if_true, List.map_nil]
  | cons r rest ih =>
      obtain ⟨hr, hrest⟩ := List.forall_mem_cons.1 h
      cases fuel with
      | zero => exact absurd hfuel (Nat.not_lt_zero _)
      | succ fuel =>
          have htail := ih hrest (Nat.lt_of_succ_lt_succ hfuel)
          have hline : cutLine (delimited size src (r :: rest)) =
              some (lit "--" ++ multipartBoundary, partFields r size ++
                (sectionReader src r.start.toInt64 r.length ++
                  multipartBody size src false rest)) := by
            rw [← cutLine_append (show (13 : UInt8) ∉ lit "--" ++ multipartBoundary by decide)]
            simp [delimited, crlf]
          have hopen : lit "--" ++ multipartBoundary ≠
              lit "--" ++ multipartBoundary ++ lit "--" := by
            decide
          -- The announced length decides where the part ends, whatever its bytes are.
          have hpart : readPart (partFields r size ++ (sectionReader src r.start.toInt64 r.length ++
              multipartBody size src false rest)) =
              some (bodyPart size src r, multipartBody size src false rest) := by
            rw [readPart_partFields hsrc hr, sectionReader_range src hr.1 hr.noWrap]
            rfl
          -- What follows is the line break before the next delimiter.
          have hdelimiter : cutLine (multipartBody size src false rest) =
              some ([], delimited size src rest) := by
            rw [multipartBody_false]
            rfl
          simp only [readParts, hline, Option.bind_some, if_neg hopen, if_true, hpart, hdelimiter,
            ne_eq, not_true_eq_false, if_false, htail, Option.map_some, List.map_cons]

/-- The client gets back the ranges in order, each with its bytes. -/
theorem decodeMultipart_multipartBody {size : Int64} {src : Bytes}
    (hsrc : (src.length : Int) = size.toInt) {ranges : List Range} (hne : ranges ≠ [])
    (h : ∀ r ∈ ranges, r.InObject size) :
    decodeMultipart (multipartBody size src true ranges) =
      some (ranges.map (bodyPart size src)) := by
  have hfuel : ranges.length < (multipartBody size src true ranges).length := by
    rw [length_multipartBody hsrc true h]
    exact length_lt_multipartSize size true ranges
  have hparts := readParts_delimited hsrc h hfuel
  rw [← multipartBody_true size src hne] at hparts
  simp only [decodeMultipart, hparts, Option.bind_some, if_true]

/-! ## The response -/

theorem body_writeMultipartRanges (ranges : List Range) (size : Int64) (src : Bytes) :
    (writeMultipartRanges .new ranges size src).body = multipartBody size src true ranges :=
  List.nil_append _

/-- The announced length is counted in an `int64`. -/
theorem announced_writeMultipartRanges {size : Int64} {src : Bytes}
    (hsrc : (src.length : Int) = size.toInt) {ranges : List Range}
    (h : ∀ r ∈ ranges, r.InObject size) :
    (writeMultipartRanges .new ranges size src).getHeader (lit "Content-Length") =
        some (decimal (writeMultipartRanges .new ranges size src).body.length) ↔
      multipartSize size true ranges < 2 ^ 63 := by
  have hne : lit "Accept-Ranges" ≠ lit "Content-Length" := by decide
  have hannounced : (writeMultipartRanges .new ranges size src).getHeader (lit "Content-Length") =
      some (formatInt (multipartLength size true ranges).toInt) := by
    simp [writeMultipartRanges, ResponseWriter.getHeader_setHeader_of_ne _ hne]
  rw [hannounced, body_writeMultipartRanges, length_multipartBody hsrc true h,
    multipartLength_eq size true fun r hr => (h r hr).1, Option.some_inj, ← formatInt_natCast,
    formatInt_injective.eq_iff, toInt_ofNat_eq_iff]

/-- The response announces the length of its body, and a client gets every range back. -/
structure MultipartExact (ranges : List Range) (size : Int64) (src : Bytes) : Prop where
  announced : (writeMultipartRanges .new ranges size src).getHeader (lit "Content-Length") =
    some (decimal (writeMultipartRanges .new ranges size src).body.length)
  decoded : decodeMultipart (writeMultipartRanges .new ranges size src).body =
    some (ranges.map (bodyPart size src))
  closed : closeDelim <:+ (writeMultipartRanges .new ranges size src).body

/-- The framing is right on every input, and the announced length as long as an `int64` holds it. -/
theorem multipartExact_iff {size : Int64} {src : Bytes} (hsrc : (src.length : Int) = size.toInt)
    {ranges : List Range} (hne : ranges ≠ []) (h : ∀ r ∈ ranges, r.InObject size) :
    MultipartExact ranges size src ↔ multipartSize size true ranges < 2 ^ 63 := by
  constructor
  · intro hexact
    exact (announced_writeMultipartRanges hsrc h).1 hexact.announced
  · intro hlt
    refine ⟨(announced_writeMultipartRanges hsrc h).2 hlt, ?_, ?_⟩
    · rw [body_writeMultipartRanges]
      exact decodeMultipart_multipartBody hsrc hne h
    · rw [body_writeMultipartRanges]
      exact closeDelim_suffix size src true ranges

/-! ## The limits of the program -/

/-- The request line and the header lines `net/http` reads: `main.go` leaves `MaxHeaderBytes` at its
default of `1 << 20`, to which 4096 bytes of slop are added. -/
def maxHeaderBytes : Nat := 2 ^ 20 + 4096

/-- What the ranges of a request are read from came in its request line or in a header line. -/
def XorbRequest.WithinLimit (r : XorbRequest) : Prop :=
  (r.query.get (lit "r")).length + r.range.length < maxHeaderBytes

/-- Every range takes a byte of the header. -/
theorem length_parseRange_le {header : Bytes} {size : Int64} {ranges : List Range}
    (h : parseRange header size = .ok ranges) : ranges.length ≤ header.length := by
  obtain ⟨elements, hlist, hall⟩ := (parseRange_eq_ok_iff (nonneg_of_parseRange h)).1 h
  have hsplit : ([44].intercalate elements).splitOn 44 = elements :=
    List.splitOn_intercalate 44 hlist.no_comma hlist.ne_nil
  have hlength := length_splitOn_le 44 ([44].intercalate elements)
  have hunit : (lit "bytes=").length = 6 := rfl
  rw [hsplit, hall.length_eq] at hlength
  rw [hlist.header_eq, List.length_append, hunit]
  omega

theorem length_parseRangeSegments_le {s : Bytes} {segs : List Segment}
    (h : parseRangeSegments s = some segs) : segs.length ≤ s.length + 1 := by
  rw [parseRangeSegments] at h
  split at h
  · cases h
  · rw [← (mapM_eq_some_iff.1 h).length_eq]
    exact length_splitOn_le 44 s

/-- The ranges asked for are as many as the bytes they were read from, at most. -/
theorem length_ranges_admission {uuid : UuidParser} {hmac : Hmac} {verifier : UrlVerifier}
    {lookup : XorbLookup} {r : XorbRequest} {now : UInt64} {vok : VerifyOk} {a : Admitted}
    (hverify : verifier.verify uuid hmac r.hash r.query now = .ok vok)
    (hadmission : admission uuid hmac verifier lookup .new r now = .ok a) (h : r.WithinLimit) :
    a.ranges.length ≤ maxHeaderBytes := by
  rw [XorbRequest.WithinLimit] at h
  rw [ranges_admission hverify hadmission, XorbRequest.asked]
  split
  · -- The segments of the URL are those of its `r` parameter.
    rw [List.length_map]
    obtain ⟨req, hread⟩ := exists_readQuery hverify
    obtain ⟨⟨-, -, -, hranges⟩, -⟩ := UrlVerifier.verify_eq_ok hread hverify
    have hshape := UrlVerifier.wellShaped_of_readQuery hread
    rw [hranges]
    cases hhas : r.query.has (lit "r") with
    | false =>
        rw [(hshape.absent hhas).1]
        exact Nat.zero_le _
    | true =>
        have hlength := length_parseRangeSegments_le (hshape.present hhas).2
        rw [hshape.rField] at hlength
        omega
  · cases hparse : parseRange r.range a.size with
    | error e => exact Nat.zero_le _
    | ok ranges =>
        have hlength : ranges.length ≤ r.range.length := length_parseRange_le hparse
        show ranges.length ≤ maxHeaderBytes
        omega

theorem length_contentRange_le {size : Int64} {r : Range} (h : r.InObject size) :
    (r.contentRange size).length ≤ 68 := by
  have hdecimal : ∀ n : UInt64, (decimal n.toNat).length ≤ 20 := fun n =>
    length_decimal_le (by decide) (n.toNat_lt.trans (by decide))
  have hstart := hdecimal r.start
  have hstop := hdecimal r.stop
  have hunit : (lit "bytes ").length = 6 := rfl
  have hsize := h.2
  have htotal : (formatInt size.toInt).length ≤ 20 := by
    have hlt := size.toInt_lt
    rw [formatInt, if_neg (by omega)]
    exact length_decimal_le (by decide) (lt_of_lt_of_le (show size.toInt.toNat < 2 ^ 63 by omega)
      (by decide))
  simp only [Range.contentRange, List.length_append, List.length_cons, hunit]
  omega

/-- A part is its bytes and less than 200 bytes of framing. -/
theorem partSize_le {size : Int64} {r : Range} (h : r.InObject size) (first : Bool) :
    partSize size first r ≤ size.toInt.toNat + 200 := by
  have hcontentRange := length_contentRange_le h
  have hboundary : (lit "--" ++ multipartBoundary ++ crlf).length = 26 := rfl
  have hname : (lit "Content-Range: ").length = 15 := rfl
  have htype : (lit "Content-Type: application/octet-stream").length = 38 := rfl
  have hcrlf : crlf.length = 2 := rfl
  have hlead : (if first then [] else crlf).length ≤ 2 := by
    cases first <;> decide
  have hle := UInt64.le_iff_toNat_le.1 h.1
  have hstop := h.2
  simp only [partSize, partHeader, List.length_append, hcrlf, hname, htype] at hboundary hlead ⊢
  omega

theorem multipartSize_le {size : Int64} (first : Bool) {ranges : List Range}
    (h : ∀ r ∈ ranges, r.InObject size) :
    multipartSize size first ranges ≤
      ranges.length * (size.toInt.toNat + 200) + closeDelim.length := by
  induction ranges generalizing first with
  | nil => exact Nat.le_add_left _ _
  | cons r rest ih =>
      obtain ⟨hr, hrest⟩ := List.forall_mem_cons.1 h
      have hpart := partSize_le hr first
      have htail := ih false hrest
      rw [multipartSize, List.length_cons, Nat.succ_mul]
      omega

/-- `insert_pending` records the size of a body of at most `MAX_XORB_BYTES`, and a header has room
for so many ranges only.  So nothing wraps when the announced length is counted. -/
theorem multipartExact_of_limits {size : Int64} {src : Bytes}
    (hsrc : (src.length : Int) = size.toInt) {ranges : List Range} (hne : ranges ≠ [])
    (h : ∀ r ∈ ranges, r.InObject size) (hsize : size.toInt ≤ maxXorbBytes)
    (hcount : ranges.length ≤ maxHeaderBytes) : MultipartExact ranges size src := by
  refine (multipartExact_iff hsrc hne h).2 ?_
  have hparts : ranges.length * (size.toInt.toNat + 200) ≤
      maxHeaderBytes * (maxXorbBytes + 200) := by
    apply Nat.mul_le_mul hcount
    omega
  calc multipartSize size true ranges
      ≤ ranges.length * (size.toInt.toNat + 200) + closeDelim.length := multipartSize_le true h
    _ ≤ maxHeaderBytes * (maxXorbBytes + 200) + closeDelim.length :=
      Nat.add_le_add_right hparts _
    _ < 2 ^ 63 := by decide

/-- The bytes served may themselves look like a delimiter. -/
theorem multipartExact_boundaryText :
    decodeMultipart (writeMultipartRanges .new [⟨0, 3⟩, ⟨2, 33⟩] 34
      (lit "ab" ++ closeDelim ++ lit "cd")).body =
      some [⟨⟨0, 3⟩, 34, lit "ab\r\n"⟩, ⟨⟨2, 33⟩, 34, closeDelim ++ lit "cd"⟩] := by
  have hinside : ∀ r ∈ [(⟨0, 3⟩ : Range), ⟨2, 33⟩], r.InObject 34 := by
    unfold Range.InObject
    decide
  have hsrc : ((lit "ab" ++ closeDelim ++ lit "cd").length : Int) = (34 : Int64).toInt := by decide
  have hexact := multipartExact_of_limits hsrc (List.cons_ne_nil _ _) hinside (by decide)
    (by decide)
  rw [hexact.decoded]
  decide +kernel

end Gateway
end OpenWeights
