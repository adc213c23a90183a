import OpenWeights.Gateway.Confinement

/-!
# Bounds — the ranges that reach the writers

The writers of `ranges.go` take for granted that every range is inside the object: then the offset
and the length are what they are written as, and the announced `Content-Length` is the length of the
body.  `ServeXorb` checks this for the ranges of a `Range` header.  The segments of the URL it serves
as they are when there is no header, and nobody has compared these with the object
(`inBounds_iff`).
-/

namespace OpenWeights
namespace Gateway

open Lib Db OpenWeights.Core

/-! ## Headers -/

namespace ResponseWriter

def getHeader (w : ResponseWriter) (key : Bytes) : Option Bytes :=
  (w.header.find? fun p => p.1 = key).map Prod.snd

@[simp] theorem getHeader_writeHeader (w : ResponseWriter) (status : Nat) (key : Bytes) :
    (w.writeHeader status).getHeader key = w.getHeader key := rfl

@[simp] theorem getHeader_write (w : ResponseWriter) (bytes key : Bytes) :
    (w.write bytes).getHeader key = w.getHeader key := rfl

@[simp] theorem getHeader_setHeader_self (w : ResponseWriter) (key value : Bytes) :
    (w.setHeader key value).getHeader key = some value := by
  have hnone : (w.header.filter fun p => p.1 ≠ key).find? (fun p => p.1 = key) = none := by
    rw [List.find?_eq_none]
    intro p hp
    simpa using (List.mem_filter.1 hp).2
  simp only [getHeader, setHeader, List.find?_append, hnone, Option.none_or]
  simp

theorem getHeader_setHeader_of_ne (w : ResponseWriter) {key key' : Bytes} (hne : key' ≠ key)
    (value : Bytes) : (w.setHeader key' value).getHeader key = w.getHeader key := by
  have hpred : (fun p : Bytes × Bytes => !decide (p.1 = key') && decide (p.1 = key)) =
      fun p => decide (p.1 = key) := by
    funext p
    by_cases hp : p.1 = key
    · simp [hp, Ne.symm hne]
    · simp [hp]
  simp [getHeader, setHeader, List.find?_append, hne, hpred]

end ResponseWriter

/-- The length each writer announces. -/
theorem getHeader_respond (src : XorbSource) (size : Int64) (ranges : List Range) :
    (respond .new src size ranges).getHeader (lit "Content-Length") =
      some (match BodyWriter.pick ranges with
        | .full => formatInt size.toInt
        | .single r => formatInt r.length.toInt
        | .multipart ranges => formatInt (multipartLength size true ranges).toInt) := by
  have hne : lit "Accept-Ranges" ≠ lit "Content-Length" := by decide
  unfold respond
  cases BodyWriter.pick ranges with
  | full => simp [writeFull, ResponseWriter.getHeader_setHeader_of_ne _ hne]
  | single r => simp [writeSingleRange, ResponseWriter.getHeader_setHeader_of_ne _ hne]
  | multipart ranges => simp [writeMultipartRanges, ResponseWriter.getHeader_setHeader_of_ne _ hne]

/-! ## The length of a multipart body -/

def partSize (totalSize : Int64) (first : Bool) (r : Range) : Nat :=
  (partHeader r totalSize first).length + (r.stop.toNat + 1 - r.start.toNat)

/-- The length of the body, counted without wrapping. -/
def multipartSize (totalSize : Int64) : Bool → List Range → Nat
  | _, [] => closeDelim.length
  | first, r :: rest => partSize totalSize first r + multipartSize totalSize false rest

theorem toInt64_eq_ofNat (v : UInt64) : v.toInt64 = Int64.ofNat v.toNat := by
  rw [← UInt64.toInt64_ofNat', UInt64.ofNat_toNat]

theorem Range.length_eq_ofNat {r : Range} (hle : r.start ≤ r.stop) :
    r.length = Int64.ofNat (r.stop.toNat + 1 - r.start.toNat) := by
  have hle' := UInt64.le_iff_toNat_le.1 hle
  have hcount : r.stop.toNat + 1 - r.start.toNat = (r.stop.toNat - r.start.toNat) + 1 := by omega
  rw [hcount, Int64.ofNat_add, ← UInt64.toNat_sub_of_le _ _ hle, ← toInt64_eq_ofNat]
  rfl

/-- The announced length of a part is its length, as far as an `int64` holds it. -/
theorem partLength_eq {r : Range} (totalSize : Int64) (first : Bool) (hle : r.start ≤ r.stop) :
    partLength r totalSize first = Int64.ofNat (partSize totalSize first r) := by
  have hframe : (partHeader r totalSize first).length =
      (if first then 0 else 2) + (lit "--" ++ multipartBoundary ++ crlf).length +
        (lit "Content-Type: application/octet-stream" ++ crlf).length +
        (lit "Content-Range: " ++ r.contentRange totalSize ++ crlf).length + 2 := by
    have hcrlf : crlf.length = 2 := rfl
    have hlead : (if first then [] else crlf).length = if first then 0 else 2 := by
      cases first <;> rfl
    simp only [partHeader, List.length_append, hlead, hcrlf]
    omega
  have hlead : (if first then 0 else 2 : Int64) = Int64.ofNat (if first then 0 else 2) := by
    cases first <;> rfl
  rw [partSize, hframe]
  simp only [partLength, Range.length_eq_ofNat hle, hlead, Int64.ofNat_add]
  rfl

theorem multipartLength_eq (totalSize : Int64) (first : Bool) {ranges : List Range}
    (hle : ∀ r ∈ ranges, r.start ≤ r.stop) :
    multipartLength totalSize first ranges = Int64.ofNat (multipartSize totalSize first ranges) := by
  induction ranges generalizing first with
  | nil => rfl
  | cons r rest ih =>
      obtain ⟨hr, hrest⟩ := List.forall_mem_cons.1 hle
      rw [multipartLength, multipartSize, Int64.ofNat_add, partLength_eq totalSize first hr,
        ih false hrest]

def Range.InObject (size : Int64) (r : Range) : Prop :=
  r.start ≤ r.stop ∧ (r.stop.toNat : Int) < size.toInt

section InObject

variable {size : Int64}

theorem Range.InObject.toInt_offset {r : Range} (h : r.InObject size) :
    r.start.toInt64.toInt = r.start.toNat := by
  have hle := UInt64.le_iff_toNat_le.1 h.1
  have hlt := size.toInt_lt
  have hstop := h.2
  exact toInt_toInt64 (by omega)

theorem Range.InObject.noWrap {r : Range} (h : r.InObject size) : r.stop.toNat + 1 < 2 ^ 63 := by
  have hlt := size.toInt_lt
  have hstop := h.2
  omega

variable {src : Bytes} (hsrc : (src.length : Int) = size.toInt)

include hsrc

theorem Range.InObject.length_sectionReader {r : Range} (h : r.InObject size) :
    (sectionReader src r.start.toInt64 r.length).length = r.stop.toNat + 1 - r.start.toNat := by
  have hle := UInt64.le_iff_toNat_le.1 h.1
  have hstop := h.2
  rw [sectionReader_range src h.1 h.noWrap, List.length_take, List.length_drop]
  omega

theorem length_multipartBody (first : Bool) {ranges : List Range}
    (h : ∀ r ∈ ranges, r.InObject size) :
    (multipartBody size src first ranges).length = multipartSize size first ranges := by
  induction ranges generalizing first with
  | nil => rfl
  | cons r rest ih =>
      obtain ⟨hr, hrest⟩ := List.forall_mem_cons.1 h
      rw [multipartBody, multipartSize, partSize, List.length_append, List.length_append,
        hr.length_sectionReader hsrc, ih false hrest]

end InObject

/-! ## What is announced -/

theorem toInt_ofNat_eq_iff {n : Nat} : (Int64.ofNat n).toInt = n ↔ n < 2 ^ 63 := by
  constructor
  · intro hEq
    have hlt := (Int64.ofNat n).toInt_lt
    omega
  · intro hlt
    exact Int64.toInt_ofNat_of_lt hlt

/-- From a source of exactly `size` bytes as many bytes are written as are announced. -/
def Announced (size : Int64) (ranges : List Range) : Prop :=
  ∀ src : XorbSource, (src.bytes.length : Int) = size.toInt →
    (respond .new src size ranges).getHeader (lit "Content-Length") =
      some (decimal (respond .new src size ranges).body.length)

theorem announced_full (size : Int64) : Announced size [] := by
  intro src hsrc
  have hbody : (respond .new src size []).body = src.bytes := by
    rw [← sectionReader_whole hsrc]
    exact List.nil_append _
  rw [getHeader_respond, hbody, ← formatInt_natCast, hsrc]
  rfl

theorem announced_single {size : Int64} {r : Range} (h : r.InObject size) :
    Announced size [r] := by
  intro src hsrc
  have hbody : (respond .new src size [r]).body =
      sectionReader src.bytes r.start.toInt64 r.length := List.nil_append _
  have hlength : r.length.toInt = (r.stop.toNat + 1 - r.start.toNat : Nat) := by
    have hle := UInt64.le_iff_toNat_le.1 h.1
    rw [Range.toInt_length h.1 h.noWrap]
    omega
  rw [getHeader_respond, hbody, h.length_sectionReader hsrc, ← formatInt_natCast, ← hlength]
  rfl

/-- Of several ranges the length is announced rightly if it fits in an `int64`. -/
theorem announced_multipart {size : Int64} {r₁ r₂ : Range} {rest : List Range}
    (h : ∀ r ∈ r₁ :: r₂ :: rest, r.InObject size) :
    Announced size (r₁ :: r₂ :: rest) ↔ multipartSize size true (r₁ :: r₂ :: rest) < 2 ^ 63 := by
  have hannounced : ∀ src : XorbSource, (src.bytes.length : Int) = size.toInt →
      ((respond .new src size (r₁ :: r₂ :: rest)).getHeader (lit "Content-Length") =
          some (decimal (respond .new src size (r₁ :: r₂ :: rest)).body.length) ↔
        multipartSize size true (r₁ :: r₂ :: rest) < 2 ^ 63) := by
    intro src hsrc
    have hbody : (respond .new src size (r₁ :: r₂ :: rest)).body =
        multipartBody size src.bytes true (r₁ :: r₂ :: rest) := List.nil_append _
    have hpick : BodyWriter.pick (r₁ :: r₂ :: rest) = .multipart (r₁ :: r₂ :: rest) := rfl
    rw [getHeader_respond, hbody, length_multipartBody hsrc true h, hpick]
    dsimp only
    rw [multipartLength_eq size true fun r hr => (h r hr).1, Option.some_inj, ← formatInt_natCast,
      formatInt_injective.eq_iff, toInt_ofNat_eq_iff]
  constructor
  · intro hall
    -- The object has a first range, so its size is not negative.
    have hsize : 0 ≤ size.toInt := by
      have hstop := (h r₁ List.mem_cons_self).2
      omega
    let src : XorbSource := ⟨List.replicate size.toInt.toNat 0, false, 0⟩
    have hsrc : (src.bytes.length : Int) = size.toInt := by
      show ((List.replicate size.toInt.toNat (0 : UInt8)).length : Int) = size.toInt
      rw [List.length_replicate, Int.toNat_of_nonneg hsize]
    exact (hannounced src hsrc).1 (hall src hsrc)
  · exact fun hlt src hsrc => (hannounced src hsrc).2 hlt

theorem announced_iff {size : Int64} {ranges : List Range} (h : ∀ r ∈ ranges, r.InObject size) :
    Announced size ranges ↔ (2 ≤ ranges.length → multipartSize size true ranges < 2 ^ 63) := by
  match ranges with
  | [] => exact iff_of_true (announced_full size) (fun hmany => absurd hmany (by decide))
  | [r] =>
      exact iff_of_true (announced_single (h r List.mem_cons_self))
        (fun hmany => absurd hmany (by simp))
  | r₁ :: r₂ :: rest =>
      rw [announced_multipart h]
      exact ⟨fun hlt _ => hlt, fun himp => himp (by simp)⟩

/-! ## What is asked for -/

/-- The ranges of the header, or the segments of the URL if there is none. -/
def XorbRequest.asked (r : XorbRequest) (segs : List Segment) (size : Int64) : List Range :=
  if r.range = [] then
    segs.map Range.ofSegment
  else
    (parseRange r.range size).toOption.getD []

/-- Without a header the segments are served as they are, so these have to be inside the object. -/
def XorbRequest.SegmentsInside (r : XorbRequest) (segs : List Segment) (size : Int64) : Prop :=
  r.range = [] → ∀ seg ∈ segs, (seg.2.toNat : Int) < size.toInt

/-- The several ranges asked for make a body whose length an `int64` holds. -/
def XorbRequest.Countable (r : XorbRequest) (segs : List Segment) (size : Int64) : Prop :=
  2 ≤ (r.asked segs size).length → multipartSize size true (r.asked segs size) < 2 ^ 63

/-- The parser compares with the size of the object; nothing does so for the segments. -/
theorem XorbRequest.inObject_iff (r : XorbRequest) {segs : List Segment}
    (hsegs : ∀ seg ∈ segs, seg.1 ≤ seg.2) (size : Int64) :
    (∀ rg ∈ r.asked segs size, rg.InObject size) ↔ r.SegmentsInside segs size := by
  unfold XorbRequest.asked XorbRequest.SegmentsInside
  by_cases hrange : r.range = []
  · rw [if_pos hrange]
    constructor
    · intro hall _ seg hseg
      exact (hall _ (List.mem_map_of_mem hseg)).2
    · intro hinside rg hrg
      obtain ⟨seg, hseg, rfl⟩ := List.mem_map.1 hrg
      exact ⟨hsegs seg hseg, hinside hrange seg hseg⟩
  · rw [if_neg hrange]
    refine iff_of_true ?_ (fun hnil => absurd hnil hrange)
    cases hparse : parseRange r.range size with
    | error e => exact nofun
    | ok parsed =>
        intro rg hrg
        obtain ⟨hle, hlt⟩ := parseRange_inside hparse rg hrg
        exact ⟨hle, by omega⟩

section Admission

variable {uuid : UuidParser} {hmac : Hmac} {verifier : UrlVerifier} {lookup : XorbLookup}
  {r : XorbRequest} {now : UInt64} {vok : VerifyOk} {a : Admitted}
  (hverify : verifier.verify uuid hmac r.hash r.query now = .ok vok)
  (hadmission : admission uuid hmac verifier lookup .new r now = .ok a)

include hverify hadmission

theorem ranges_admission : a.ranges = r.asked vok.ranges a.size := by
  obtain ⟨asked, hread, hbound⟩ := exists_readRanges hverify hadmission
  unfold readRanges at hread
  unfold boundRanges at hbound
  unfold XorbRequest.asked
  by_cases hrange : r.range = []
  · rw [if_pos hrange, Except.ok.injEq] at hread
    rw [if_pos hrange]
    subst hread
    by_cases hsegs : vok.ranges = []
    · rw [if_pos hsegs, Except.ok.injEq] at hbound
      rw [← hbound, hsegs]
      rfl
    · rw [if_neg hsegs] at hbound
      exact (Except.ok.inj hbound).symm
  · rw [if_neg hrange] at hread
    rw [if_neg hrange]
    cases hparse : parseRange r.range a.size with
    | error e => cases e <;> simp [hparse] at hread
    | ok parsed =>
        simp only [hparse, Except.ok.injEq] at hread
        subst hread
        have hne := ne_nil_of_parseRange hparse
        by_cases hsegs : vok.ranges = []
        · rw [if_pos hsegs, Except.ok.injEq] at hbound
          exact hbound.symm
        · simp only [if_neg hsegs, if_neg hne] at hbound
          split at hbound
          · exact (Except.ok.inj hbound).symm
          · cases hbound

end Admission

/-- What the writers take for granted, and what it gives them. -/
structure InBounds (a : Admitted) : Prop where
  inside : ∀ rg ∈ (BodyWriter.pick a.ranges).ranges,
    rg.start ≤ rg.stop ∧ (rg.stop.toNat : Int) < a.size.toInt
  offset : ∀ rg ∈ (BodyWriter.pick a.ranges).ranges, rg.start.toInt64.toInt = rg.start.toNat
  length : ∀ rg ∈ (BodyWriter.pick a.ranges).ranges,
    rg.length.toInt = rg.stop.toNat + 1 - rg.start.toNat
  announced : Announced a.size a.ranges

/-- Only ranges of the object reach the writers, and the announced length is the length of the body,
if and only if the request has a `Range` header or the segments of its URL are inside the object, and
several ranges are not longer than an `int64` counts. -/
theorem inBounds_iff {uuid : UuidParser} {hmac : Hmac} {verifier : UrlVerifier}
    {lookup : XorbLookup} {r : XorbRequest} {now : UInt64} {vok : VerifyOk} {a : Admitted}
    (hverify : verifier.verify uuid hmac r.hash r.query now = .ok vok)
    (hadmission : admission uuid hmac verifier lookup .new r now = .ok a) :
    InBounds a ↔ r.SegmentsInside vok.ranges a.size ∧ r.Countable vok.ranges a.size := by
  have hranges := ranges_admission hverify hadmission
  have hpick := BodyWriter.ranges_pick a.ranges
  rw [XorbRequest.Countable, ← hranges, ← r.inObject_iff (verify_ordered hverify), ← hranges]
  constructor
  · intro h
    have hinside : ∀ rg ∈ a.ranges, rg.InObject a.size := hpick ▸ h.inside
    exact ⟨hinside, (announced_iff hinside).1 h.announced⟩
  · rintro ⟨hinside, hcount⟩
    refine ⟨?_, ?_, ?_, (announced_iff hinside).2 hcount⟩
    · rwa [hpick]
    · rw [hpick]
      exact fun rg hrg => (hinside rg hrg).toInt_offset
    · rw [hpick]
      exact fun rg hrg => Range.toInt_length (hinside rg hrg).1 (hinside rg hrg).noWrap

theorem admission_eq_ok {uuid : UuidParser} {hmac : Hmac} {verifier : UrlVerifier}
    {lookup : XorbLookup} {r : XorbRequest} {now : UInt64} {vok : VerifyOk} {siaId : Hash}
    {size : Int64} {w : ResponseWriter} {asked ranges : List Range}
    (hverify : verifier.verify uuid hmac r.hash r.query now = .ok vok)
    (hlookup : lookup r.hash = .ok (siaId, size)) (hread : readRanges w r.range size = .ok asked)
    (hbound : boundRanges w vok.ranges asked = .ok ranges) :
    admission uuid hmac verifier lookup w r now = .ok ⟨vok, siaId, size, ranges⟩ := by
  simp only [admission, hverify, hlookup, hread, hbound]

def vectorRequest (url : SignedUrl) (range : Bytes) : XorbRequest :=
  { hash := digestToHex vectorHash
    query := formParse url.query
    range := range }

/-- The request is admitted under that URL, whatever the size of the object. -/
theorem exists_vectorAdmitted {size : Int64} {range : Bytes} {asked ranges : List Range}
    (hread : readRanges .new range size = .ok asked)
    (hbound : boundRanges .new vectorSegments asked = .ok ranges) :
    ∃ url vok a, UrlVerifier.verify canonicalUuid vectorHmac ⟨vectorKey, none⟩
        (vectorRequest url range).hash (vectorRequest url range).query 1999999999 = .ok vok ∧
      vok.ranges = vectorSegments ∧
      admission canonicalUuid vectorHmac ⟨vectorKey, none⟩ (fun _ => .ok (Hash.fill 2, size)) .new
        (vectorRequest url range) 1999999999 = .ok a ∧
      a.size = size ∧ a.ranges = ranges := by
  obtain ⟨url, hmint⟩ : ∃ url, vectorSigner.mintV1MultiRange vectorHmac vectorHash vectorSegments
      vectorKid 1999992800 = some url := ⟨_, rfl⟩
  obtain ⟨-, byPrev, hverify⟩ := Minted.verify_eq (.multiRange hmint) vectorSegments_le
    canonicalUuid (v := ⟨vectorKey, none⟩) (.inl rfl)
  have hvalid := hverify 1999999999
  rw [if_neg (by decide)] at hvalid
  exact ⟨url, _, _, hvalid, rfl, admission_eq_ok hvalid rfl hread hbound, rfl, rfl⟩

/-- Two ranges of the first segment. -/
theorem inBounds_iff_vector :
    ∃ a : Admitted, a.ranges = [⟨1024, 2047⟩, ⟨4096, 4096⟩] ∧ a.size = 10240 ∧ InBounds a := by
  have hread : readRanges .new (lit "bytes=1024-2047,4096-4096") 10240 =
      .ok [⟨1024, 2047⟩, ⟨4096, 4096⟩] := by decide +kernel
  obtain ⟨url, vok, a, hverify, hsegs, hadmission, hsize, hranges⟩ :=
    exists_vectorAdmitted hread (show boundRanges .new vectorSegments _ = .ok _ from rfl)
  refine ⟨a, hranges, hsize, (inBounds_iff hverify hadmission).2 ⟨?_, ?_⟩⟩
  · intro hnil
    exact absurd hnil (show lit "bytes=1024-2047,4096-4096" ≠ [] by decide)
  · have hasked : (vectorRequest url (lit "bytes=1024-2047,4096-4096")).asked vok.ranges a.size =
        [⟨1024, 2047⟩, ⟨4096, 4096⟩] :=
      (ranges_admission hverify hadmission).symm.trans hranges
    rw [XorbRequest.Countable, hasked, hsize]
    decide +kernel

/-- Without a header the second segment is served, although it begins after the end of the object. -/
theorem not_inBounds :
    ¬∀ (uuid : UuidParser) (hmac : Hmac) (verifier : UrlVerifier) (lookup : XorbLookup)
      (r : XorbRequest) (now : UInt64) (vok : VerifyOk) (a : Admitted),
      verifier.verify uuid hmac r.hash r.query now = .ok vok →
        admission uuid hmac verifier lookup .new r now = .ok a → InBounds a := by
  intro hclaim
  obtain ⟨url, vok, a, hverify, hsegs, hadmission, hsize, hranges⟩ :=
    exists_vectorAdmitted (show readRanges .new [] 10240 = .ok [] from rfl)
      (show boundRanges .new vectorSegments [] = .ok [⟨1024, 8191⟩, ⟨12288, 16383⟩] from rfl)
  have hinside := (hclaim _ _ _ _ _ _ _ _ hverify hadmission).inside
  rw [BodyWriter.ranges_pick, hranges, hsize] at hinside
  have hlast := (hinside ⟨12288, 16383⟩ (by decide)).2
  exact absurd hlast (by decide)

end Gateway
end OpenWeights
