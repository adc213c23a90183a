import OpenWeights.Core.Reconstruction
import OpenWeights.Gateway.Handlers

/-!
# Fetch — the URLs of a reconstruction, at the gateway

What the CAS hands out and what the gateway makes of it.  The V1 and the V2 response list the same
ranges and grant the same segments (`buildV2Response_agrees`), and a client that asks for what is
listed gets exactly that (`admit_listed`).
-/

namespace OpenWeights
namespace Gateway

open Lib Db Db.Database OpenWeights.Core

/-! ## V1 and V2 -/

/-- The URL was minted for this grant and for no other. -/
def Grants (hmac : Hmac) (signer : UrlSigner) (xorbHash : Hash) (kid : Uuid) (nowUnix : UInt64)
    (url : SignedUrl) (segs : List Segment) : Prop :=
  ∀ segs', Minted hmac signer xorbHash kid nowUnix segs' url ↔ segs' = segs

/-- What a V1 entry says about its range, without the URL. -/
def rangeSegmentOf (entry : FetchInfoEntry) : RangeSegment :=
  { chunkRange := entry.range
    urlRange := entry.urlRange }

section Responses

variable {hmac : Hmac} {signer : UrlSigner} {xorbHash : Hash} {kid : Uuid} {nowUnix : UInt64}

theorem Grants.of_minted {segs : List Segment} {url : SignedUrl}
    (h : Minted hmac signer xorbHash kid nowUnix segs url) :
    Grants hmac signer xorbHash kid nowUnix url segs := by
  intro segs'
  constructor
  · exact fun h' => h'.unique h
  · rintro rfl
    exact h

/-- `build_response` and `build_v2_response` say the same thing. -/
theorem buildV2Response_agrees (order : UnstableSort) (hmac : Hmac) (row : ReconstructionRow)
    (signer : UrlSigner) (kid : Uuid) (nowUnix : UInt64) :
    ∃ v2, buildV2Response order hmac row signer kid nowUnix = some v2 ∧
      v2.terms = (buildResponse order hmac row signer kid nowUnix).terms ∧
      (∀ key, (v2.fetchInfo.find key).isSome ↔
        ((buildResponse order hmac row signer kid nowUnix).fetchInfo.find key).isSome) ∧
      ∀ h entries, (buildResponse order hmac row signer kid nowUnix).fetchInfo.find
          (digestToHex h) = some entries →
        ∃ info segs, v2.fetchInfo.find (digestToHex h) = some [info] ∧
          info.ranges = entries.map rangeSegmentOf ∧
          Grants hmac signer h kid nowUnix info.url segs ∧
          List.Forall₂ (fun (entry : FetchInfoEntry) seg =>
            Grants hmac signer h kid nowUnix entry.url [seg]) entries segs := by
  obtain ⟨v2, hv2, -, hterms, hfind⟩ := exists_buildV2Response order hmac row signer kid nowUnix
  refine ⟨v2, hv2, hterms, ?_, ?_⟩
  · intro key
    rw [Option.isSome_iff_exists, Option.isSome_iff_exists]
    constructor
    · rintro ⟨infos, hinfos⟩
      obtain ⟨h, hkey, hEq, -⟩ := (hfind key infos).1 hinfos
      exact ⟨_, find_fetchInfo_iff.2 ⟨h, hkey, hEq, rfl⟩⟩
    · rintro ⟨entries, hentries⟩
      obtain ⟨h, hkey, hEq, -⟩ := find_fetchInfo_iff.1 hentries
      obtain ⟨url, hurl⟩ := exists_mintV1MultiRange order hmac signer kid nowUnix hkey
      exact ⟨_, (hfind key _).2 ⟨h, hkey, hEq, url, hurl, rfl⟩⟩
  · intro h entries hentries
    obtain ⟨hkey, rfl⟩ := find_fetchInfo.1 hentries
    obtain ⟨url, hurl⟩ := exists_mintV1MultiRange order hmac signer kid nowUnix hkey
    refine ⟨_, _, (hfind _ _).2 ⟨h, hkey, rfl, url, hurl, rfl⟩, ?_, .of_minted (.multiRange hurl), ?_⟩
    · rw [List.map_map]
      rfl
    · -- The `i`-th V1 URL is for the `i`-th segment of the V2 URL.
      rw [List.forall₂_map_left_iff, List.forall₂_map_right_iff, List.forall₂_same]
      intro br _
      exact .of_minted (.range br.segment)

end Responses

/-! ## A client that asks for what is listed -/

def Fetchable (lookup : XorbLookup) (t : Term) : Prop :=
  ∃ siaId size, lookup (digestToHex t.xorbHash) = .ok (siaId, size) ∧
    0 ≤ t.xorbByteStart ∧ t.xorbByteStart < t.xorbByteEnd ∧ t.xorbByteEnd ≤ size.toInt

/-- The gateway answers a request for exactly these ranges with exactly these ranges, at any time
before `exp`. -/
def ServedAsListed (uuid : UuidParser) (hmac : Hmac) (verifier : UrlVerifier) (lookup : XorbLookup)
    (url : SignedUrl) (exp : UInt64) (listed : List UrlRange) : Prop :=
  ∀ now < exp, ∃ hash a, routeHash url.path = some hash ∧
    admission uuid hmac verifier lookup ResponseWriter.new
        { hash := hash
          query := formParse url.query
          range := lit "bytes=" ++ UrlSigner.segmentsText
            (listed.map fun r => (r.start, r.endInclusive)) } now = .ok a ∧
      BodyWriter.pick a.ranges ≠ .full ∧
      (BodyWriter.pick a.ranges).ranges =
        listed.map fun r => { start := r.start, stop := r.endInclusive }

section Listed

variable (uuid : UuidParser) {hmac : Hmac} {verifier : UrlVerifier} {lookup : XorbLookup}
  {signer : UrlSigner} {xorbHash : Hash} {kid : Uuid} {nowUnix : UInt64} {url : SignedUrl}
  {segs : List Segment}

/-- All checks of the handler let the listed grant through. -/
theorem admit_minted (hminted : Minted hmac signer xorbHash kid nowUnix segs url)
    (hkey : verifier.keyCurrent = signer.keyCurrent ∨ verifier.keyPrev = some signer.keyCurrent)
    {siaId : Hash} {size : Int64} (hlookup : lookup (digestToHex xorbHash) = .ok (siaId, size))
    (hnonneg : 0 ≤ size) (hne : segs ≠ [])
    (hsegs : ∀ seg ∈ segs, seg.1 ≤ seg.2 ∧ seg.2 < size.toUInt64) {now : UInt64}
    (hnow : now < saturatingAdd nowUnix signer.defaultTtlSecs) :
    routeHash url.path = some (digestToHex xorbHash) ∧
      ∃ a, admission uuid hmac verifier lookup ResponseWriter.new
          { hash := digestToHex xorbHash
            query := formParse url.query
            range := rangeHeader segs } now = .ok a ∧
        a.ranges = segs.map Range.ofSegment := by
  obtain ⟨hroute, byPrev, hverify⟩ :=
    hminted.verify_eq (fun seg hseg => (hsegs seg hseg).1) uuid hkey
  refine ⟨hroute, ?_⟩
  obtain ⟨vok, hvalid, hgranted⟩ : ∃ vok,
      verifier.verify uuid hmac (digestToHex xorbHash) (formParse url.query) now = .ok vok ∧
        vok.ranges = segs := by
    have hvalid := hverify now
    rw [if_neg (UInt64.not_le.2 hnow)] at hvalid
    exact ⟨_, hvalid, rfl⟩
  have hread : readRanges ResponseWriter.new (rangeHeader segs) size =
      .ok (segs.map Range.ofSegment) := by
    have hheader : rangeHeader segs ≠ [] :=
      List.append_ne_nil_of_right_ne_nil _ (segmentsText_ne_nil hne)
    rw [readRanges, if_neg hheader, parseRange_rangeHeader hnonneg hne hsegs]
  have hbound : boundRanges ResponseWriter.new segs (segs.map Range.ofSegment) =
      .ok (segs.map Range.ofSegment) := by
    have hranges : segs.map Range.ofSegment ≠ [] := by simpa using hne
    simp only [boundRanges, if_neg hne, if_neg hranges, if_pos (allRangesWithinAny_self _)]
  refine ⟨{ vok := vok, siaId := siaId, size := size, ranges := segs.map Range.ofSegment }, ?_, rfl⟩
  simp only [admission, hvalid, hlookup, hread, hgranted, hbound]

theorem Fetchable.byteSpan {t : Term} (ht : Fetchable lookup t) :
    ((byteSpan t).1.toNat : Int) = t.xorbByteStart ∧
      ((byteSpan t).2.toNat : Int) = t.xorbByteEnd := by
  obtain ⟨siaId, size, -, hstart, hlt, hend⟩ := ht
  have hmax := size.toInt_lt
  obtain ⟨bs, hbs⟩ := Int.eq_ofNat_of_zero_le hstart
  obtain ⟨be, hbe⟩ := Int.eq_ofNat_of_zero_le (show 0 ≤ t.xorbByteEnd by omega)
  simp only [Core.byteSpan, hbs, hbe]
  constructor
  · rw [toNat_u64 (by omega)]
  · rw [toNat_u64 (by omega)]

theorem Fetchable.byteSpan_lt {t : Term} (ht : Fetchable lookup t) :
    (Core.byteSpan t).1 < (Core.byteSpan t).2 := by
  obtain ⟨hfirst, hsecond⟩ := ht.byteSpan
  obtain ⟨-, -, -, -, hlt, -⟩ := ht
  rw [UInt64.lt_iff_toNat_lt]
  omega

/-- The merged ranges of fetchable terms lie in the object. -/
theorem segment_of_rangesOn {order : UnstableSort} {row : ReconstructionRow}
    (hrow : ∀ t ∈ row.terms, Fetchable lookup t) {br : ByteRange}
    (hbr : br ∈ rangesOn order row xorbHash) {siaId : Hash} {size : Int64}
    (hlookup : lookup (digestToHex xorbHash) = .ok (siaId, size)) :
    br.start ≤ br.endInclusive ∧ br.endInclusive < size.toUInt64 := by
  have hspans : ∀ span ∈ (termsOn row.terms xorbHash).map Core.byteSpan, span.1 < span.2 := by
    intro span hspan
    obtain ⟨t, ht, rfl⟩ := List.mem_map.1 hspan
    exact (hrow t (mem_termsOn.1 ht).1).byteSpan_lt
  have hbound : ∀ span ∈ (termsOn row.terms xorbHash).map Core.byteSpan,
      span.2.toNat ≤ size.toUInt64.toNat := by
    intro span hspan
    obtain ⟨t, ht, rfl⟩ := List.mem_map.1 hspan
    obtain ⟨hmem, hxorb⟩ := mem_termsOn.1 ht
    obtain ⟨-, hbytes⟩ := (hrow t hmem).byteSpan
    obtain ⟨siaId', size', hlookup', hnonneg, hpos, hle⟩ := hrow t hmem
    rw [hxorb, hlookup] at hlookup'
    cases hlookup'
    have hsize : (size.toUInt64.toNat : Int) = size.toInt := toNat_toUInt64 (by omega)
    omega
  have hsat := coalesceSpans_satisfiable hspans hbound hbr
  exact ⟨hsat.nonempty, UInt64.lt_iff_toNat_lt.2 hsat.bounded⟩

theorem servedAsListed_of_minted
    (hkey : verifier.keyCurrent = signer.keyCurrent ∨ verifier.keyPrev = some signer.keyCurrent)
    (order : UnstableSort) {row : ReconstructionRow}
    (hrow : ∀ t ∈ row.terms, Fetchable lookup t) (hreferenced : xorbHash ∈ xorbKeys row.terms)
    (brs : List ByteRange) (hne : brs ≠ []) (hbrs : ∀ br ∈ brs, br ∈ rangesOn order row xorbHash)
    (hminted : Minted hmac signer xorbHash kid nowUnix (brs.map ByteRange.segment) url) :
    ServedAsListed uuid hmac verifier lookup url (saturatingAdd nowUnix signer.defaultTtlSecs)
      (brs.map fun br => { start := br.start, endInclusive := br.endInclusive }) := by
  intro now hnow
  obtain ⟨t, ht, rfl⟩ := mem_xorbKeys.1 hreferenced
  obtain ⟨siaId, size, hlookup, hstart, hlt, hend⟩ := hrow t ht
  have hnonneg : 0 ≤ size := by
    rw [Int64.le_iff_toInt_le, Int64.toInt_zero]
    omega
  have hsegs : ∀ seg ∈ brs.map ByteRange.segment, seg.1 ≤ seg.2 ∧ seg.2 < size.toUInt64 := by
    intro seg hseg
    obtain ⟨br, hbr, rfl⟩ := List.mem_map.1 hseg
    exact segment_of_rangesOn hrow (hbrs br hbr) hlookup
  obtain ⟨hroute, a, hadmit, hranges⟩ :=
    admit_minted uuid hminted hkey hlookup hnonneg (by simpa using hne) hsegs hnow
  have hlisted : brs.map ByteRange.segment =
      (brs.map fun br => ({ start := br.start, endInclusive := br.endInclusive } : UrlRange)).map
        fun r => (r.start, r.endInclusive) := by
    rw [List.map_map]
    rfl
  refine ⟨_, a, hroute, ?_, ?_, ?_⟩
  · rw [← hlisted]
    exact hadmit
  · refine BodyWriter.pick_ne_full ?_
    rw [hranges]
    simpa using hne
  · rw [BodyWriter.ranges_pick, hranges, List.map_map, List.map_map]
    rfl

/-- Every URL the CAS hands out is honoured by the gateway, for exactly the ranges listed with
it. -/
theorem admit_listed (order : UnstableSort) (uuid : UuidParser) (hmac : Hmac)
    (verifier : UrlVerifier) (lookup : XorbLookup) (row : ReconstructionRow) (signer : UrlSigner)
    (kid : Uuid) (nowUnix : UInt64)
    (hkey : verifier.keyCurrent = signer.keyCurrent ∨ verifier.keyPrev = some signer.keyCurrent)
    (hrow : ∀ t ∈ row.terms, Fetchable lookup t) :
    (∀ key entries,
        (buildResponse order hmac row signer kid nowUnix).fetchInfo.find key = some entries →
        ∀ entry ∈ entries, ServedAsListed uuid hmac verifier lookup entry.url
          (saturatingAdd nowUnix signer.defaultTtlSecs) [entry.urlRange]) ∧
      ∃ v2, buildV2Response order hmac row signer kid nowUnix = some v2 ∧
        ∀ key infos, v2.fetchInfo.find key = some infos →
          ∀ info ∈ infos, ServedAsListed uuid hmac verifier lookup info.url
            (saturatingAdd nowUnix signer.defaultTtlSecs)
            (info.ranges.map RangeSegment.urlRange) := by
  constructor
  · intro key entries hfind entry hentry
    obtain ⟨h, hreferenced, -, rfl⟩ := find_fetchInfo_iff.1 hfind
    obtain ⟨br, hbr, rfl⟩ := List.mem_map.1 hentry
    refine servedAsListed_of_minted uuid hkey order hrow hreferenced [br]
      (List.cons_ne_nil _ _) ?_ (.range br.segment)
    intro br' hbr'
    rwa [List.mem_singleton.1 hbr']
  · obtain ⟨v2, hv2, -, -, hfind⟩ := exists_buildV2Response order hmac row signer kid nowUnix
    refine ⟨v2, hv2, ?_⟩
    intro key infos hinfos info hinfo
    obtain ⟨h, hreferenced, -, url, hurl, rfl⟩ := (hfind key infos).1 hinfos
    have hEq := List.mem_singleton.1 hinfo
    subst hEq
    have hserved := servedAsListed_of_minted uuid hkey order hrow hreferenced _
      (coalesceSpans_ne_nil order hreferenced) (fun _ hbr => hbr) (.multiRange hurl)
    rw [List.map_map]
    exact hserved

end Listed

/-- One pinned xorb of ten chunks. -/
def vectorLookup : XorbLookup := fun hash =>
  if hash = digestToHex vectorHash then .ok (Hash.fill 2, 10240) else .error .notFound

theorem admit_listed_vector :
    ∃ v2 infos, buildV2Response sortByStart rangeHmac vectorRow vectorSigner vectorKid
        1999992800 = some v2 ∧
      v2.fetchInfo.find (digestToHex vectorHash) = some infos ∧ infos ≠ [] ∧
      ∀ info ∈ infos, ServedAsListed canonicalUuid rangeHmac ⟨vectorKey, none⟩ vectorLookup
        info.url 2000000000 (info.ranges.map RangeSegment.urlRange) := by
  have hrow : ∀ t ∈ vectorRow.terms, Fetchable vectorLookup t := by
    intro t ht
    simp only [vectorRow, List.mem_cons, List.not_mem_nil, or_false] at ht
    have hlookup : vectorLookup (digestToHex vectorHash) = .ok (Hash.fill 2, 10240) := if_pos rfl
    rcases ht with rfl | rfl | rfl
    · exact ⟨_, _, hlookup, by decide, by decide, by decide⟩
    · exact ⟨_, _, hlookup, by decide, by decide, by decide⟩
    · exact ⟨_, _, hlookup, by decide, by decide, by decide⟩
  obtain ⟨-, v2, hv2, hserved⟩ := admit_listed sortByStart canonicalUuid rangeHmac
    ⟨vectorKey, none⟩ vectorLookup vectorRow vectorSigner vectorKid 1999992800 (.inl rfl) hrow
  obtain ⟨v2', hv2', -, -, hfind⟩ := exists_buildV2Response sortByStart rangeHmac vectorRow
    vectorSigner vectorKid 1999992800
  rw [hv2] at hv2'
  cases hv2'
  have hkey : vectorHash ∈ xorbKeys vectorRow.terms :=
    mem_xorbKeys.2 ⟨vectorTerm 5 7 0 3000, List.mem_cons_self, rfl⟩
  obtain ⟨url, hurl⟩ := exists_mintV1MultiRange sortByStart rangeHmac vectorSigner vectorKid
    1999992800 hkey
  have hinfos := (hfind _ _).2 ⟨vectorHash, hkey, rfl, url, hurl, rfl⟩
  exact ⟨v2, _, hv2, hinfos, List.cons_ne_nil _ _, hserved _ _ hinfos⟩

end Gateway
end OpenWeights
