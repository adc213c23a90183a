import OpenWeights.Gateway.Delivery
import OpenWeights.Gateway.RangeGrammar

/-!
# Confinement — no byte outside the grant

A URL that grants segments opens these and nothing else: whatever the `Range` header asks for, a
response is made of fixed text and of slices of the object, and every slice lies inside one granted
segment (`serveXorb_confined`).  Which slices they are is settled before the object is read.

The conversions of `ranges.go` wrap, so a range near the end of `uint64` is not cut out of the
object as it is written; `readSlice` is what the section reader makes of it.
-/

namespace OpenWeights
namespace Gateway

open Lib Db OpenWeights.Core

/-! ## What a section reader reads -/

/-- A part of a response: fixed text, or `len` bytes of the object from `off` on. -/
inductive Piece
  | text (bytes : Bytes)
  | slice (off len : Nat)
  deriving DecidableEq, Repr

def Piece.render (src : Bytes) : Piece → Bytes
  | text bytes => bytes
  | slice off len => (src.drop off).take len

def assemble (src : Bytes) (pieces : List Piece) : Bytes :=
  pieces.flatMap (Piece.render src)

def Piece.Inside (segs : List Segment) : Piece → Prop
  | text _ => True
  | slice off len => ∃ seg ∈ segs, seg.1.toNat ≤ off ∧ off + len ≤ seg.2.toNat + 1

def Range.Inside (segs : List Segment) (r : Range) : Prop :=
  ∃ seg ∈ segs, seg.1 ≤ r.start ∧ r.stop ≤ seg.2

/-- What `io.NewSectionReader(src, off, n)` yields, before `src` is known. -/
def sectionSlice (off n : Int64) : Piece :=
  let limit := if off ≤ Int64.maxValue - n then n + off else Int64.maxValue
  if off < 0 ∨ limit ≤ off then
    .text []
  else
    .slice off.toInt.toNat (limit - off).toInt.toNat

theorem sectionReader_slice (src : Bytes) (off n : Int64) :
    sectionReader src off n = (sectionSlice off n).render src := by
  unfold sectionReader sectionSlice
  extract_lets limit
  clear_value limit
  split <;> rfl

def Range.slice (r : Range) : Piece :=
  sectionSlice r.start.toInt64 r.length

/-- A bound that is given in `int64` is no bound beyond it. -/
theorem toInt_limit_le {off n limit : Int64} (hlow : 0 ≤ off.toInt)
    (hlimit : limit = if off ≤ Int64.maxValue - n then n + off else Int64.maxValue)
    {d : Nat} (hn : d + 1 < 2 ^ 63 → n.toInt = d + 1) : limit.toInt ≤ off.toInt + d + 1 := by
  have hmax : Int64.maxValue.toInt = 2 ^ 63 - 1 := Int64.toInt_maxValue
  have hbound := limit.toInt_lt
  have hoff := off.toInt_lt
  by_cases hd : d + 1 < 2 ^ 63
  · have hn := hn hd
    have hroom : (Int64.maxValue - n).toInt = 2 ^ 63 - 1 - n.toInt := by
      rw [toInt_sub (by omega) (by omega), hmax]
    split at hlimit
    · rename_i hle
      rw [Int64.le_iff_toInt_le, hroom] at hle
      rw [hlimit, toInt_add (by omega) (by omega)]
      omega
    · rename_i hgt
      rw [Int64.le_iff_toInt_le, hroom] at hgt
      rw [hlimit, hmax]
      omega
  · omega

theorem toInt_toInt64_of_nonneg {v : UInt64} (h : 0 ≤ v.toInt64.toInt) :
    v.toInt64.toInt = v.toNat := by
  refine toInt_toInt64 ?_
  have hcond : v.toInt64.toInt = if 2 * v.toNat < 2 ^ 64 then (v.toNat : Int)
      else (v.toNat : Int) - (2 ^ 64 : Nat) := BitVec.toInt_eq_toNat_cond v.toBitVec
  have hlt := v.toNat_lt
  split at hcond <;> omega

/-- What is read for a range lies in the range. -/
theorem Range.slice_inside {r : Range} {segs : List Segment} (hle : r.start ≤ r.stop)
    (hinside : r.Inside segs) : r.slice.Inside segs := by
  obtain ⟨seg, hseg, hstart, hstop⟩ := hinside
  have hstart := UInt64.le_iff_toNat_le.1 hstart
  have hstop := UInt64.le_iff_toNat_le.1 hstop
  have hlength : (r.stop.toNat - r.start.toNat) + 1 < 2 ^ 63 →
      r.length.toInt = (r.stop.toNat - r.start.toNat : Nat) + 1 := by
    intro hsmall
    have hdiff : (r.stop - r.start).toNat = r.stop.toNat - r.start.toNat :=
      UInt64.toNat_sub_of_le _ _ hle
    have hone : (1 : Int64).toInt = 1 := by decide
    have hsub : (r.stop - r.start).toInt64.toInt = (r.stop.toNat - r.start.toNat : Nat) := by
      rw [toInt_toInt64 (by omega), hdiff]
    rw [Range.length, toInt_add (by omega) (by omega), hsub, hone]
  have hle := UInt64.le_iff_toNat_le.1 hle
  unfold Range.slice sectionSlice
  extract_lets limit
  have hlimit : limit = if r.start.toInt64 ≤ Int64.maxValue - r.length
    then r.length + r.start.toInt64 else Int64.maxValue := rfl
  clear_value limit
  split
  · trivial
  · rename_i hread
    -- a start from `2 ^ 63` on is a negative offset, for which nothing is read
    rw [not_or, Int64.lt_iff_toInt_lt, Int64.le_iff_toInt_le, Int64.toInt_zero] at hread
    obtain ⟨hlow, hnonempty⟩ := hread
    have hoff := toInt_toInt64_of_nonneg (Int.not_lt.1 hlow)
    have hend := toInt_limit_le (Int.not_lt.1 hlow) hlimit hlength
    have hoffBound := r.start.toInt64.toInt_lt
    have hlimitBound := limit.toInt_lt
    have hlen : (limit - r.start.toInt64).toInt = limit.toInt - r.start.toInt64.toInt :=
      toInt_sub (by omega) (by omega)
    refine ⟨seg, hseg, ?_, ?_⟩
    · omega
    · rw [hlen]
      omega

/-! ## What a response is made of -/

def partPieces (totalSize : Int64) : Bool → List Range → List Piece
  | _, [] => [.text closeDelim]
  | first, r :: rest => .text (partHeader r totalSize first) :: r.slice :: partPieces totalSize false rest

def responsePieces (totalSize : Int64) : List Range → List Piece
  | [r] => [r.slice]
  | ranges => partPieces totalSize true ranges

theorem multipartBody_eq (totalSize : Int64) (src : Bytes) (first : Bool) (ranges : List Range) :
    multipartBody totalSize src first ranges = assemble src (partPieces totalSize first ranges) := by
  induction ranges generalizing first with
  | nil => simp [multipartBody, partPieces, assemble, Piece.render]
  | cons r rest ih =>
      simp only [multipartBody, partPieces, assemble, List.flatMap_cons, Piece.render,
        sectionReader_slice, ih false]
      rw [List.append_assoc]
      rfl

/-- With ranges to serve, the object enters the body through their slices only. -/
theorem body_respond (src : XorbSource) (size : Int64) {ranges : List Range} (hne : ranges ≠ []) :
    (respond .new src size ranges).body = assemble src.bytes (responsePieces size ranges) := by
  match ranges with
  | [] => exact absurd rfl hne
  | [r] =>
      change [] ++ sectionReader src.bytes r.start.toInt64 r.length = _
      rw [List.nil_append, sectionReader_slice]
      simp [responsePieces, assemble, Range.slice]
  | r₁ :: r₂ :: rest =>
      change [] ++ multipartBody size src.bytes true (r₁ :: r₂ :: rest) = _
      rw [List.nil_append, multipartBody_eq]
      rfl

/-- The ranges are in order, and each lies inside one segment. -/
def Granted (segs : List Segment) (ranges : List Range) : Prop :=
  ∀ r ∈ ranges, r.start ≤ r.stop ∧ r.Inside segs

theorem partPieces_inside {segs : List Segment} (totalSize : Int64) (first : Bool)
    {ranges : List Range} (h : Granted segs ranges) :
    ∀ p ∈ partPieces totalSize first ranges, p.Inside segs := by
  induction ranges generalizing first with
  | nil =>
      intro p hp
      obtain rfl := List.mem_singleton.1 hp
      trivial
  | cons r rest ih =>
      obtain ⟨hle, hinside⟩ := h r List.mem_cons_self
      intro p hp
      rcases List.mem_cons.1 hp with rfl | hp
      · trivial
      · rcases List.mem_cons.1 hp with rfl | hp
        · exact Range.slice_inside hle hinside
        · exact ih false (fun r hr => h r (List.mem_cons_of_mem _ hr)) p hp

theorem responsePieces_inside {segs : List Segment} (totalSize : Int64) {ranges : List Range}
    (h : Granted segs ranges) : ∀ p ∈ responsePieces totalSize ranges, p.Inside segs := by
  match ranges with
  | [] => exact partPieces_inside totalSize true h
  | [r] =>
      intro p hp
      obtain rfl := List.mem_singleton.1 hp
      obtain ⟨hle, hinside⟩ := h r List.mem_cons_self
      exact Range.slice_inside hle hinside
  | r₁ :: r₂ :: rest => exact partPieces_inside totalSize true h

/-! ## The ranges of an admitted request -/

/-- The ranges of the header are inside the object. -/
theorem readRanges_inside {w : ResponseWriter} {range : Bytes} {size : Int64}
    {ranges : List Range} (h : readRanges w range size = .ok ranges) :
    ∀ r ∈ ranges, r.start ≤ r.stop ∧ r.stop.toNat < size.toInt.toNat := by
  unfold readRanges at h
  by_cases hrange : range = []
  · rw [if_pos hrange] at h
    cases h
    exact nofun
  · rw [if_neg hrange] at h
    cases hparse : parseRange range size with
    | ok parsed =>
        simp only [hparse, Except.ok.injEq] at h
        exact h ▸ parseRange_inside hparse
    | error e => cases e <;> simp [hparse] at h

theorem parseRangeSegment_ordered {p : Bytes} {seg : Segment}
    (h : parseRangeSegment p = some seg) : seg.1 ≤ seg.2 := by
  unfold parseRangeSegment at h
  split at h
  · cases h
  · split at h
    · cases h
    · obtain ⟨first, -, h⟩ := Option.bind_eq_some_iff.1 h
      obtain ⟨last, -, h⟩ := Option.bind_eq_some_iff.1 h
      split at h
      · cases h
      · rename_i hle
        cases h
        exact UInt64.not_lt.1 hle

/-- The segments of a verified URL are in order. -/
theorem exists_readQuery {uuid : UuidParser} {hmac : Hmac} {verifier : UrlVerifier} {hash : Bytes}
    {q : Values} {now : UInt64} {vok : VerifyOk}
    (h : verifier.verify uuid hmac hash q now = .ok vok) :
    ∃ req, UrlVerifier.readQuery uuid hash q = .ok req := by
  unfold UrlVerifier.verify at h
  split at h
  · cases h
  · rename_i req hread
    exact ⟨req, hread⟩

theorem verify_ordered {uuid : UuidParser} {hmac : Hmac} {verifier : UrlVerifier} {hash : Bytes}
    {q : Values} {now : UInt64} {vok : VerifyOk}
    (h : verifier.verify uuid hmac hash q now = .ok vok) : ∀ seg ∈ vok.ranges, seg.1 ≤ seg.2 := by
  obtain ⟨req, hread⟩ := exists_readQuery h
  obtain ⟨⟨-, -, -, hranges⟩, -⟩ := UrlVerifier.verify_eq_ok hread h
  have hshape := UrlVerifier.wellShaped_of_readQuery hread
  rw [hranges]
  cases hhas : q.has (lit "r") with
  | false =>
      rw [(hshape.absent hhas).1]
      exact nofun
  | true =>
      have hparse := (hshape.present hhas).2
      unfold parseRangeSegments at hparse
      split at hparse
      · cases hparse
      · intro seg hseg
        obtain ⟨part, -, hpart⟩ := exists_source_of_mapM_eq_some hparse seg hseg
        exact parseRangeSegment_ordered hpart

/-- What is served under a bounded URL is granted by it, whether the client asked for it or not. -/
theorem granted_of_boundRanges {w : ResponseWriter} {segs : List Segment}
    {asked ranges : List Range} (hne : segs ≠ []) (hsegs : ∀ seg ∈ segs, seg.1 ≤ seg.2)
    (hasked : ∀ r ∈ asked, r.start ≤ r.stop) (h : boundRanges w segs asked = .ok ranges) :
    ranges ≠ [] ∧ Granted segs ranges := by
  unfold boundRanges at h
  rw [if_neg hne] at h
  dsimp only at h
  split at h
  · -- no `Range` header: the segments themselves
    cases h
    refine ⟨by simpa using hne, ?_⟩
    intro r hr
    obtain ⟨seg, hseg, rfl⟩ := List.mem_map.1 hr
    exact ⟨hsegs seg hseg, seg, hseg, UInt64.le_refl _, UInt64.le_refl _⟩
  · rename_i hsome
    split at h
    · rename_i hwithin
      cases h
      refine ⟨hsome, ?_⟩
      intro r hr
      obtain ⟨g, hg, hinside⟩ := List.any_eq_true.1 (List.all_eq_true.1 hwithin r hr)
      obtain ⟨seg, hseg, rfl⟩ := List.mem_map.1 hg
      simp only [Bool.and_eq_true, decide_eq_true_eq] at hinside
      exact ⟨hasked r hr, seg, hseg, hinside.1, hinside.2⟩
    · cases h

/-- The ranges of an admitted request are those of the header, bounded by the segments. -/
theorem exists_readRanges {uuid : UuidParser} {hmac : Hmac} {verifier : UrlVerifier}
    {lookup : XorbLookup} {r : XorbRequest} {now : UInt64} {w : ResponseWriter} {a : Admitted}
    {vok : VerifyOk} (hverify : verifier.verify uuid hmac r.hash r.query now = .ok vok)
    (h : admission uuid hmac verifier lookup w r now = .ok a) :
    ∃ asked, readRanges w r.range a.size = .ok asked ∧
      boundRanges w vok.ranges asked = .ok a.ranges := by
  simp only [admission, hverify] at h
  split at h
  · cases h
  · cases h
  · split at h
    · cases h
    · rename_i asked hread
      split at h
      · cases h
      · rename_i hbound
        cases h
        exact ⟨asked, hread, hbound⟩

theorem admission_granted {uuid : UuidParser} {hmac : Hmac} {verifier : UrlVerifier}
    {lookup : XorbLookup} {r : XorbRequest} {now : UInt64} {w : ResponseWriter} {a : Admitted}
    {vok : VerifyOk} (hverify : verifier.verify uuid hmac r.hash r.query now = .ok vok)
    (hne : vok.ranges ≠ []) (h : admission uuid hmac verifier lookup w r now = .ok a) :
    a.ranges ≠ [] ∧ Granted vok.ranges a.ranges := by
  obtain ⟨asked, hread, hbound⟩ := exists_readRanges hverify h
  exact granted_of_boundRanges hne (verify_ordered hverify)
    (fun r hr => (readRanges_inside hread r hr).1) hbound

/-! ## The handler -/

namespace Serving

/-- Once the program reads an object, it ends with slices of it that lie inside the segments, and
which these are does not depend on what was read. -/
def Confined (segs : List Segment) : Code ResponseWriter → Prop
  | .done _ => True
  | .call (.readAll _) k =>
      ∃ pieces, (∀ p ∈ pieces, p.Inside segs) ∧
        ∀ bytes, (k bytes).Ends fun w => w.body = assemble bytes pieces
  | .call _ k => ∀ r, Confined segs (k r)

theorem Confined.bind {α : Type} {segs : List Segment} {p : Code α} {f : α → Code ResponseWriter}
    (hp : p.Uses Op.ofSource) (hf : ∀ a, Confined segs (f a)) : Confined segs (p >>= f) := by
  induction p with
  | done a => exact hf a
  | call o k ih =>
      cases o with
      | readAll fd => exact hp.1.elim
      | _ => exact fun r => ih r (hp.2 r)

theorem serveAdmitted_confined {h : Handlers} {ctx : Nat} {hash : Bytes} {a : Admitted}
    {segs : List Segment} (hne : a.ranges ≠ []) (hgranted : Granted segs a.ranges) :
    Confined segs (h.serveAdmitted ctx hash a) := by
  refine .bind (uses_getXorbSource hash a.siaId a.size) ?_
  rintro (err | src)
  · intro gone
    cases gone with
    | true => trivial
    | false => trivial
  · refine ⟨responsePieces a.size a.ranges, responsePieces_inside a.size hgranted, ?_⟩
    intro bytes
    refine (Prog.ends_true (onDisk (close src.fd))).bind ?_
    intro _ _
    exact body_respond ⟨bytes, src.cacheHit, src.siaFetchMs⟩ a.size hne

/-- Under a URL with segments, `ServeXorb` serves ranges that each lie inside one of them, and sends
no byte of an object that lies outside of all. -/
theorem serveXorb_confined (h : Handlers) (ctx : Nat) (r : XorbRequest) (now : UInt64)
    {vok : VerifyOk} (hverify : h.verifier.verify h.uuid h.hmac r.hash r.query now = .ok vok)
    (hne : vok.ranges ≠ []) :
    Confined vok.ranges (h.serveXorb ctx r now) ∧
      ∀ lookup a, admission h.uuid h.hmac h.verifier lookup .new r now = .ok a →
        a.ranges ≠ [] ∧ ∀ rg ∈ a.ranges, rg.Inside vok.ranges := by
  refine ⟨?_, ?_⟩
  · simp only [Handlers.serveXorb, hverify]
    intro row
    simp only [Prog.bind]
    split
    · trivial
    · rename_i a hadmit
      obtain ⟨hranges, hgranted⟩ := admission_granted hverify hne hadmit
      exact serveAdmitted_confined hranges hgranted
  · intro lookup a hadmit
    obtain ⟨hranges, hgranted⟩ := admission_granted hverify hne hadmit
    exact ⟨hranges, fun rg hrg => (hgranted rg hrg).2⟩

/-- A gateway that checks the signatures of `vectorSigner`. -/
def vectorHandlers : Handlers :=
  { sampleHandlers with hmac := vectorHmac }

theorem serveXorb_confined_vector :
    ∃ url, ∃ vok : VerifyOk, vectorSigner.mintV1MultiRange vectorHmac vectorHash vectorSegments vectorKid
        1999992800 = some url ∧ vok.ranges = vectorSegments ∧
      ∀ ctx range, Confined vok.ranges
        (vectorHandlers.serveXorb ctx ⟨digestToHex vectorHash, formParse url.query, range⟩
          1999999999) := by
  obtain ⟨url, hmint⟩ : ∃ url, vectorSigner.mintV1MultiRange vectorHmac vectorHash vectorSegments
      vectorKid 1999992800 = some url := ⟨_, rfl⟩
  obtain ⟨-, byPrev, hverify⟩ := Minted.verify_eq (.multiRange hmint) vectorSegments_le
    canonicalUuid (v := ⟨vectorKey, none⟩) (.inl rfl)
  have hvalid := hverify 1999999999
  rw [if_neg (by decide)] at hvalid
  have hconfined := fun ctx range =>
    (serveXorb_confined vectorHandlers ctx ⟨digestToHex vectorHash, formParse url.query, range⟩
      1999999999 hvalid (List.cons_ne_nil _ _)).1
  exact ⟨url, _, hmint, rfl, hconfined⟩

end Serving

end Gateway
end OpenWeights
