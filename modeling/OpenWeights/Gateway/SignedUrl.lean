import OpenWeights.Core.SignedUrl

/-!
# SignedUrl — the gateway's check of a signed URL

Model of `gateway/signed_url.go`.  `url.ParseQuery`, `strconv.ParseUint` and
`base64.RawURLEncoding` are those of `Lib.Text`; `uuid.Parse` is third-party and comes in as a
`UuidParser`.

* `verify_minted_iff`            : what the CAS mints, the gateway accepts until it expires, with the
  same grant;
* `canonicalStringRaw_injective` : a canonical string belongs to one grant only.
-/

namespace OpenWeights
namespace Gateway

open Lib Db OpenWeights.Core

/-! ## The query -/

/-- `url.Values`, in the order of the query. -/
abbrev Values := List (Bytes × Bytes)

namespace Values

def has (q : Values) (key : Bytes) : Bool :=
  (q.lookup key).isSome

/-- `Values.Get`: the first value, or the empty string. -/
def get (q : Values) (key : Bytes) : Bytes :=
  (q.lookup key).getD []

end Values

/-- `uuid.Parse`, which reads the form `String` prints. -/
structure UuidParser where
  parse : Bytes → Option Uuid
  parse_text : ∀ k, parse k.text = some k

/-- The parameter of the route `/xorb/{hash}`. -/
def routeHash (path : Bytes) : Option Bytes :=
  if (lit "/xorb/").isPrefixOf path then
    let hash := path.drop (lit "/xorb/").length
    if 47 ∈ hash then none else some hash
  else
    none

/-! ## Verification -/

structure VerifyErr where
  kind : Bytes
  deriving DecidableEq, Repr

/-- The status `respondVerifyErr` answers with. -/
def VerifyErr.status (e : VerifyErr) : Nat :=
  if e.kind = lit "expired" then 403
  else if e.kind = lit "bad_signature" then 403
  else if (lit "malformed").isPrefixOf e.kind then 400
  -- a kind nobody classified yet
  else 400

structure UrlVerifier where
  keyCurrent : SigningKey
  keyPrev : Option SigningKey
  deriving DecidableEq, Repr

def isHexLower (b : UInt8) : Bool :=
  (48 ≤ b && b ≤ 57) || (97 ≤ b && b ≤ 102)

def parseRangeSegment (p : Bytes) : Option Segment :=
  match cutAt 45 p with
  | none => none
  | some (start, stop) =>
      -- `dash <= 0 || dash == len(p)-1`
      if start = [] ∨ stop = [] then
        none
      else do
        let start ← parseUint64 start
        let stop ← parseUint64 stop
        if start > stop then none else some (start, stop)

def parseRangeSegments (s : Bytes) : Option (List Segment) :=
  if s = [] then none else (s.splitOn 44).mapM parseRangeSegment

namespace UrlVerifier

def canonicalStringRaw (version hashHex : Bytes) (exp : UInt64) (rField : Bytes) (kid : Uuid) :
    Bytes :=
  version ++ lit "\n" ++ hashHex ++ lit "\n" ++ decimal exp.toNat ++ lit "\n" ++ rField ++
    lit "\n" ++ kid.text

/-- `Verify` up to the range: the path segment, then the fields of the query. -/
def readQuery (uuid : UuidParser) (xorbHashHex : Bytes) (q : Values) :
    Except VerifyErr UrlRequest :=
  if xorbHashHex.length ≠ 64 ∨ ¬xorbHashHex.all isHexLower then
    .error ⟨lit "malformed:xorb_hash_hex"⟩
  else if q.get (lit "exp") = [] then
    .error ⟨lit "malformed:exp"⟩
  else if q.get (lit "kid") = [] then
    .error ⟨lit "malformed:kid"⟩
  else if q.get (lit "sig") = [] then
    .error ⟨lit "malformed:sig"⟩
  else
    match parseUint64 (q.get (lit "exp")) with
    | none => .error ⟨lit "malformed:exp"⟩
    | some exp =>
    match uuid.parse (q.get (lit "kid")) with
    | none => .error ⟨lit "malformed:kid"⟩
    | some kid =>
        let sig := q.get (lit "sig")
        -- An empty `r=` is present and has to parse.
        if q.has (lit "r") then
          match parseRangeSegments (q.get (lit "r")) with
          | none => .error ⟨lit "malformed:range"⟩
          | some segs =>
              .ok { exp := exp, kid := kid, sig := sig, ranges := segs, rField := q.get (lit "r") }
        else
          .ok { exp := exp, kid := kid, sig := sig, ranges := [], rField := [] }

/-- The string a request is signed with. -/
def canonical (xorbHashHex : Bytes) (req : UrlRequest) : Bytes :=
  canonicalStringRaw canonicalVersion xorbHashHex req.exp req.rField req.kid

/-- The comparison with the tags of both keys; the flag is `AcceptedByPrevKey`. -/
def acceptedBy (hmac : Hmac) (v : UrlVerifier) (canonical provided : Bytes) : Option Bool :=
  if (hmac v.keyCurrent canonical).1 = provided then
    some false
  else
    match v.keyPrev with
    | none => none
    | some prev => if (hmac prev canonical).1 = provided then some true else none

/-- `Verify`; `now` is `uint64(now.Unix())`. -/
def verify (uuid : UuidParser) (hmac : Hmac) (v : UrlVerifier) (xorbHashHex : Bytes) (q : Values)
    (now : UInt64) : Except VerifyErr VerifyOk :=
  match readQuery uuid xorbHashHex q with
  | .error e => .error e
  | .ok req =>
      if now ≥ req.exp then
        .error ⟨lit "expired"⟩
      else
        match base64UrlDecode req.sig with
        | none => .error ⟨lit "malformed:sig_b64"⟩
        | some provided =>
            match v.acceptedBy hmac (canonical xorbHashHex req) provided with
            | none => .error ⟨lit "bad_signature"⟩
            | some byPrev =>
                .ok
                  { xorbHashHex := xorbHashHex
                    exp := req.exp
                    ranges := req.ranges
                    kid := req.kid
                    acceptedByPrevKey := byPrev }

end UrlVerifier

/-! ## Reading back what was written -/

theorem not_mem_decimal {c : UInt8} (hc : ¬(48 ≤ c ∧ c ≤ 57)) (n : Nat) : c ∉ decimal n :=
  fun hmem => hc (isDigit_decimal n c hmem)

theorem parseRangeSegment_segmentText {seg : Segment} (hle : seg.1 ≤ seg.2) :
    parseRangeSegment (UrlSigner.segmentText seg) = some seg := by
  have hcut := cutAt_append (not_mem_decimal (c := 45) (by decide) seg.1.toNat)
    (decimal seg.2.toNat)
  have hnot : ¬seg.1 > seg.2 := by
    simpa [UInt64.lt_iff_toNat_lt, UInt64.le_iff_toNat_le] using hle
  simp [parseRangeSegment, UrlSigner.segmentText, hcut, decimal_ne_nil, hnot]

theorem not_comma_mem_segmentText (seg : Segment) : 44 ∉ UrlSigner.segmentText seg := by
  have hdigits := fun n => not_mem_decimal (c := 44) (by decide) n
  simp [UrlSigner.segmentText, hdigits]

@[simp] theorem segmentsText_singleton (seg : Segment) :
    UrlSigner.segmentsText [seg] = UrlSigner.segmentText seg := by
  simp [UrlSigner.segmentsText]

theorem segmentsText_ne_nil {segs : List Segment} (hne : segs ≠ []) :
    UrlSigner.segmentsText segs ≠ [] := by
  cases segs with
  | nil => exact absurd rfl hne
  | cons seg rest =>
      cases rest with
      | nil => simp [UrlSigner.segmentsText, UrlSigner.segmentText]
      | cons seg' rest => simp [UrlSigner.segmentsText, UrlSigner.segmentText]

theorem splitOn_segmentsText {segs : List Segment} (hne : segs ≠ []) :
    (UrlSigner.segmentsText segs).splitOn 44 = segs.map UrlSigner.segmentText := by
  refine List.splitOn_intercalate 44 ?_ (by simpa using hne)
  intro part hpart
  rcases List.mem_map.1 hpart with ⟨seg, -, rfl⟩
  exact not_comma_mem_segmentText seg

/-- The minted `r` field reads back as the segments it was made of, in order. -/
theorem parseRangeSegments_segmentsText {segs : List Segment} (hne : segs ≠ [])
    (hle : ∀ seg ∈ segs, seg.1 ≤ seg.2) :
    parseRangeSegments (UrlSigner.segmentsText segs) = some segs := by
  rw [parseRangeSegments, if_neg (segmentsText_ne_nil hne), splitOn_segmentsText hne]
  exact mapM_map_eq_some fun seg hseg => parseRangeSegment_segmentText (hle seg hseg)

theorem segmentText_injective : Function.Injective UrlSigner.segmentText := by
  intro a b hEq
  obtain ⟨hstart, hend⟩ := eq_of_append_sep (not_mem_decimal (by decide) _)
    (not_mem_decimal (by decide) _) hEq
  exact Prod.ext (UInt64.toNat_inj.1 (decimal_injective hstart))
    (UInt64.toNat_inj.1 (decimal_injective hend))

theorem segmentsText_inj {segs segs' : List Segment} (hne : segs ≠ []) (hne' : segs' ≠ [])
    (h : UrlSigner.segmentsText segs = UrlSigner.segmentsText segs') : segs = segs' := by
  have hparts := congrArg (List.splitOn 44) h
  rw [splitOn_segmentsText hne, splitOn_segmentsText hne'] at hparts
  exact List.map_injective_iff.2 segmentText_injective hparts

/-- The text of a digest is what the path check asks for. -/
theorem digestToHex_lower (d : Hash) : (digestToHex d).all isHexLower = true := by
  rw [List.all_eq_true]
  intro c hc
  have hgroup : ∀ group, c ∈ digestGroupHex d.1 group → isHexLower c = true := by
    intro group hmem
    rcases mem_hexEncode hmem with ⟨hlow, hhigh⟩ | ⟨hlow, hhigh⟩ <;>
      simp [isHexLower, hlow, hhigh]
  simp only [digestToHex, List.mem_append] at hc
  rcases hc with ((hc | hc) | hc) | hc
  · exact hgroup 0 hc
  · exact hgroup 1 hc
  · exact hgroup 2 hc
  · exact hgroup 3 hc

theorem routeHash_digestToHex (d : Hash) :
    routeHash (lit "/xorb/" ++ digestToHex d) = some (digestToHex d) := by
  have hslash : 47 ∉ digestToHex d := by
    intro hmem
    have hlower := List.all_eq_true.1 (digestToHex_lower d) 47 hmem
    exact absurd hlower (by decide)
  have hstarts : (lit "/xorb/").isPrefixOf (lit "/xorb/" ++ digestToHex d) = true :=
    List.isPrefixOf_iff_prefix.2 (List.prefix_append _ _)
  simp [routeHash, hstarts, hslash]

/-! ## Minted URLs -/

/-- The URL was minted for the grant `segs`; the empty grant is the whole xorb. -/
inductive Minted (hmac : Hmac) (signer : UrlSigner) (xorbHash : Hash) (kid : Uuid)
    (nowUnix : UInt64) : List Segment → SignedUrl → Prop
  | whole : Minted hmac signer xorbHash kid nowUnix []
      (signer.mintV1 hmac xorbHash none kid nowUnix)
  | range (seg : Segment) : Minted hmac signer xorbHash kid nowUnix [seg]
      (signer.mintV1 hmac xorbHash (some seg) kid nowUnix)
  | multiRange {segs : List Segment} {url : SignedUrl}
      (hmint : signer.mintV1MultiRange hmac xorbHash segs kid nowUnix = some url) :
      Minted hmac signer xorbHash kid nowUnix segs url

def mintedRequest (hmac : Hmac) (signer : UrlSigner) (xorbHash : Hash) (kid : Uuid)
    (nowUnix : UInt64) (segs : List Segment) : UrlRequest :=
  let exp := saturatingAdd nowUnix signer.defaultTtlSecs
  let rField := UrlSigner.segmentsText segs
  { exp := exp
    kid := kid
    sig := UrlSigner.signWith hmac signer.keyCurrent
      (UrlSigner.canonicalStringRaw canonicalVersion (digestToHex xorbHash) exp rField kid)
    ranges := segs
    rField := rField }

def requestPairs (req : UrlRequest) : List (Bytes × Bytes) :=
  [(lit "exp", decimal req.exp.toNat), (lit "kid", req.kid.text), (lit "sig", req.sig)] ++
    if req.ranges = [] then [] else [(lit "r", req.rField)]

section MintedUrls

variable {hmac : Hmac} {signer : UrlSigner} {xorbHash : Hash} {kid : Uuid} {nowUnix : UInt64}
  {segs : List Segment} {url : SignedUrl}

/-- All three minters write the same URL for the same grant. -/
theorem Minted.eq (h : Minted hmac signer xorbHash kid nowUnix segs url) :
    url = signer.gatewayUrl (digestToHex xorbHash)
      (requestPairs (mintedRequest hmac signer xorbHash kid nowUnix segs)) := by
  cases h with
  | whole => rfl
  | range seg =>
      simp [UrlSigner.mintV1, UrlSigner.canonicalString, requestPairs, mintedRequest]
  | multiRange hmint =>
      unfold UrlSigner.mintV1MultiRange at hmint
      split at hmint
      · cases hmint
      · rename_i hne
        have hne : segs ≠ [] := by simpa using hne
        rw [← Option.some.inj hmint]
        simp [requestPairs, mintedRequest, hne]

/-- The fields of a written query, looked up one by one. -/
theorem lookup_requestPairs (req : UrlRequest) :
    (requestPairs req).lookup (lit "exp") = some (decimal req.exp.toNat) ∧
      (requestPairs req).lookup (lit "kid") = some req.kid.text ∧
      (requestPairs req).lookup (lit "sig") = some req.sig ∧
      (requestPairs req).lookup (lit "r") = if req.ranges = [] then none else some req.rField := by
  have hkid : (lit "kid" == lit "exp") = false := by decide
  have hsig : (lit "sig" == lit "exp") = false ∧ (lit "sig" == lit "kid") = false := by decide
  have hr : (lit "r" == lit "exp") = false ∧ (lit "r" == lit "kid") = false ∧
      (lit "r" == lit "sig") = false := by
    decide
  refine ⟨?_, ?_, ?_, ?_⟩
  · simp [requestPairs]
  · simp [requestPairs, List.lookup_cons, hkid]
  · simp [requestPairs, List.lookup_cons, hsig]
  · by_cases hranges : req.ranges = []
    · simp [requestPairs, List.lookup_cons, hr, hranges]
    · simp [requestPairs, List.lookup_cons, hr, hranges]

/-- A minted URL has one grant. -/
theorem Minted.unique {segs' : List Segment}
    (h : Minted hmac signer xorbHash kid nowUnix segs url)
    (h' : Minted hmac signer xorbHash kid nowUnix segs' url) : segs = segs' := by
  have hquery := congrArg SignedUrl.query (h.eq.symm.trans h'.eq)
  have hpairs := congrArg formParse hquery
  simp only [UrlSigner.gatewayUrl] at hpairs
  rw [formParse_formSerialize (by simp [requestPairs]),
    formParse_formSerialize (by simp [requestPairs])] at hpairs
  have hfield := congrArg (List.lookup (lit "r")) hpairs
  rw [(lookup_requestPairs _).2.2.2, (lookup_requestPairs _).2.2.2] at hfield
  simp only [mintedRequest] at hfield
  -- Only the empty grant is written without an `r` field.
  by_cases hnil : segs = []
  · by_cases hnil' : segs' = []
    · rw [hnil, hnil']
    · simp [hnil, hnil'] at hfield
  · by_cases hnil' : segs' = []
    · simp [hnil, hnil'] at hfield
    · simp only [hnil, hnil', if_false, Option.some.injEq] at hfield
      exact segmentsText_inj hnil hnil' hfield

/-- The gateway reads the request of a minted URL. -/
theorem readQuery_requestPairs (uuid : UuidParser) (hle : ∀ seg ∈ segs, seg.1 ≤ seg.2) :
    UrlVerifier.readQuery uuid (digestToHex xorbHash)
        (requestPairs (mintedRequest hmac signer xorbHash kid nowUnix segs)) =
      .ok (mintedRequest hmac signer xorbHash kid nowUnix segs) := by
  obtain ⟨hexp, hkid, hsig, hr⟩ :=
    lookup_requestPairs (mintedRequest hmac signer xorbHash kid nowUnix segs)
  have hsigned : (mintedRequest hmac signer xorbHash kid nowUnix segs).sig ≠ [] := by
    refine base64UrlEncode_ne_nil ?_
    intro hnil
    have hlen := (hmac signer.keyCurrent (UrlSigner.canonicalStringRaw canonicalVersion
      (digestToHex xorbHash) (saturatingAdd nowUnix signer.defaultTtlSecs)
      (UrlSigner.segmentsText segs) kid)).2
    rw [hnil] at hlen
    cases hlen
  have hhash : ¬((digestToHex xorbHash).length ≠ 64 ∨
      ¬(digestToHex xorbHash).all isHexLower = true) := by
    simp [length_digestToHex, digestToHex_lower]
  simp only [UrlVerifier.readQuery, Values.get, Values.has, hexp, hkid, hsig, hr, hhash, if_false,
    Option.getD_some, decimal_ne_nil, Uuid.text_ne_nil, hsigned, parseUint64_decimal,
    uuid.parse_text]
  by_cases hsegs : segs = []
  · -- No grant: the `r` field is absent and the canonical string has it empty.
    subst hsegs
    rfl
  · have hranges : (mintedRequest hmac signer xorbHash kid nowUnix segs).ranges ≠ [] := hsegs
    have hparse := parseRangeSegments_segmentsText hsegs hle
    have hfield : (mintedRequest hmac signer xorbHash kid nowUnix segs).rField =
        UrlSigner.segmentsText segs := rfl
    simp only [hranges, if_false, Option.isSome_some, if_true, Option.getD_some, hfield, hparse]
    rfl

/-- Both languages lay the canonical string out alike. -/
theorem canonicalStringRaw_eq (version hex : Bytes) (exp : UInt64) (rField : Bytes) (kid : Uuid) :
    UrlVerifier.canonicalStringRaw version hex exp rField kid =
      UrlSigner.canonicalStringRaw version hex exp rField kid := by
  have hlf : lit "\n" = [10] := by decide
  simp [UrlVerifier.canonicalStringRaw, UrlSigner.canonicalStringRaw, hlf]

theorem UrlVerifier.acceptedBy_of_key (hmac : Hmac) {v : UrlVerifier} {key : SigningKey}
    (hkey : v.keyCurrent = key ∨ v.keyPrev = some key) (canonical : Bytes) :
    ∃ byPrev, v.acceptedBy hmac canonical (hmac key canonical).1 = some byPrev := by
  unfold UrlVerifier.acceptedBy
  by_cases hcurrent : (hmac v.keyCurrent canonical).1 = (hmac key canonical).1
  · exact ⟨false, by rw [if_pos hcurrent]⟩
  · rcases hkey with rfl | hprev
    · exact absurd rfl hcurrent
    · exact ⟨true, by simp [hcurrent, hprev]⟩

/-- What the gateway makes of a minted URL, up to the clock. -/
theorem Minted.verify_eq (hminted : Minted hmac signer xorbHash kid nowUnix segs url)
    (hle : ∀ seg ∈ segs, seg.1 ≤ seg.2) (uuid : UuidParser) {v : UrlVerifier}
    (hkey : v.keyCurrent = signer.keyCurrent ∨ v.keyPrev = some signer.keyCurrent) :
    routeHash url.path = some (digestToHex xorbHash) ∧
      ∃ byPrev, ∀ t, v.verify uuid hmac (digestToHex xorbHash) (formParse url.query) t =
        if t ≥ saturatingAdd nowUnix signer.defaultTtlSecs then .error ⟨lit "expired"⟩
        else .ok
          { xorbHashHex := digestToHex xorbHash
            exp := saturatingAdd nowUnix signer.defaultTtlSecs
            ranges := segs
            kid := kid
            acceptedByPrevKey := byPrev } := by
  have hurl := hminted.eq
  let req := mintedRequest hmac signer xorbHash kid nowUnix segs
  have hquery : formParse url.query = requestPairs req := by
    rw [hurl]
    exact formParse_formSerialize (by simp [requestPairs])
  have hread : UrlVerifier.readQuery uuid (digestToHex xorbHash) (requestPairs req) = .ok req :=
    readQuery_requestPairs uuid hle
  -- The signature decodes to the tag of the string the gateway rebuilds.
  have hdecode : base64UrlDecode req.sig =
      some (hmac signer.keyCurrent (UrlVerifier.canonical (digestToHex xorbHash) req)).1 := by
    rw [UrlVerifier.canonical, canonicalStringRaw_eq]
    exact base64UrlDecode_base64UrlEncode _
  obtain ⟨byPrev, haccept⟩ := UrlVerifier.acceptedBy_of_key hmac hkey
    (UrlVerifier.canonical (digestToHex xorbHash) req)
  refine ⟨?_, byPrev, ?_⟩
  · rw [hurl]
    exact routeHash_digestToHex xorbHash
  · intro t
    simp only [UrlVerifier.verify, hquery, hread, hdecode, haccept]
    rfl

/-- What the CAS mints, a gateway that holds the key accepts as long as it has not expired, and
reads the grant out of it again. -/
theorem verify_minted_iff (hminted : Minted hmac signer xorbHash kid nowUnix segs url)
    (hle : ∀ seg ∈ segs, seg.1 ≤ seg.2)
    (httl : nowUnix.toNat + signer.defaultTtlSecs.toNat < 2 ^ 64) (uuid : UuidParser)
    {v : UrlVerifier}
    (hkey : v.keyCurrent = signer.keyCurrent ∨ v.keyPrev = some signer.keyCurrent) (t : UInt64) :
    ∃ hash, routeHash url.path = some hash ∧
      ((∃ ok, v.verify uuid hmac hash (formParse url.query) t = .ok ok) ↔
        t < nowUnix + signer.defaultTtlSecs) ∧
      ∀ ok, v.verify uuid hmac hash (formParse url.query) t = .ok ok →
        ok.xorbHashHex = digestToHex xorbHash ∧ ok.exp = nowUnix + signer.defaultTtlSecs ∧
          ok.kid = kid ∧ ok.ranges = segs := by
  have hexp : saturatingAdd nowUnix signer.defaultTtlSecs = nowUnix + signer.defaultTtlSecs :=
    if_pos httl
  obtain ⟨hroute, byPrev, hverify⟩ := hminted.verify_eq hle uuid hkey
  refine ⟨digestToHex xorbHash, hroute, ?_, ?_⟩
  · rw [hverify, hexp]
    by_cases hlt : t < nowUnix + signer.defaultTtlSecs
    · have hnot : ¬t ≥ nowUnix + signer.defaultTtlSecs := UInt64.not_le.2 hlt
      simp [hlt, hnot]
    · have hge : t ≥ nowUnix + signer.defaultTtlSecs := UInt64.not_lt.1 hlt
      simp [hlt, hge]
  · intro ok hok
    rw [hverify] at hok
    split at hok
    · cases hok
    · cases hok
      exact ⟨rfl, hexp, rfl, rfl⟩

end MintedUrls

/-! ## A conformance vector -/

/-- A parser that knows the canonical form only. -/
def canonicalUuid : UuidParser :=
  { parse := Uuid.read
    parse_text := Uuid.read_text }

def vectorTag : Hash :=
  ⟨[17, 36, 239, 188, 243, 159, 216, 29, 164, 67, 114, 98, 65, 2, 138, 71,
    117, 228, 202, 160, 131, 53, 252, 125, 20, 162, 28, 79, 178, 22, 124, 247], by decide⟩

def vectorCanonical : Bytes :=
  lit "v1\neea25d6ee393ccae385820daed127b96ef0ea034dfb7cf6da3a950ce334b7632\n2000000000\n" ++
    lit "1024-8191,12288-16383\n01945edc-5f0a-71a3-9c82-3a0000000001"

def vectorHmac : Hmac := fun key message =>
  if key = vectorKey ∧ message = vectorCanonical then vectorTag else Hash.fill 0

def vectorSegments : List Segment := [(1024, 8191), (12288, 16383)]

theorem vectorSegments_le : ∀ seg ∈ vectorSegments, seg.1 ≤ seg.2 := by
  simp [vectorSegments]

theorem verify_minted_iff_vector :
    ∃ url hash ok, vectorSigner.mintV1MultiRange vectorHmac vectorHash vectorSegments vectorKid
        1999992800 = some url ∧
      routeHash url.path = some hash ∧
      UrlVerifier.verify canonicalUuid vectorHmac ⟨vectorKey, none⟩ hash (formParse url.query)
        1999999999 = .ok ok ∧ ok.ranges = vectorSegments := by
  have hmint : ∃ url, vectorSigner.mintV1MultiRange vectorHmac vectorHash vectorSegments vectorKid
      1999992800 = some url := by
    exact ⟨_, rfl⟩
  rcases hmint with ⟨url, hmint⟩
  obtain ⟨hash, hroute, hiff, hgrant⟩ := verify_minted_iff (.multiRange hmint) vectorSegments_le
    (by decide) canonicalUuid (v := ⟨vectorKey, none⟩) (.inl rfl) 1999999999
  obtain ⟨ok, hok⟩ := hiff.2 (by decide)
  exact ⟨url, hash, ok, hmint, hroute, hok, (hgrant ok hok).2.2.2⟩

/-! ## One grant for each canonical string -/

/-- What the checks before the signature establish about a request. -/
structure WellShaped (xorbHashHex : Bytes) (q : Values) (req : UrlRequest) : Prop where
  hash : xorbHashHex.all isHexLower = true
  rField : req.rField = q.get (lit "r")
  absent : q.has (lit "r") = false → req.ranges = [] ∧ req.rField = []
  present : q.has (lit "r") = true →
    req.rField ≠ [] ∧ parseRangeSegments req.rField = some req.ranges

theorem UrlVerifier.wellShaped_of_readQuery {uuid : UuidParser} {xorbHashHex : Bytes} {q : Values}
    {req : UrlRequest} (h : UrlVerifier.readQuery uuid xorbHashHex q = .ok req) :
    WellShaped xorbHashHex q req := by
  unfold UrlVerifier.readQuery at h
  split at h
  · cases h
  rename_i hhash
  split at h
  · cases h
  split at h
  · cases h
  split at h
  · cases h
  split at h
  · cases h
  split at h
  · cases h
  -- Only the test on the hash and the two branches of `r` matter here.
  have hlower : xorbHashHex.all isHexLower = true := by
    by_contra hnot
    exact hhash (.inr hnot)
  dsimp only at h
  split at h
  · rename_i hhas
    split at h
    · cases h
    · rename_i segs hsegs
      cases h
      refine ⟨hlower, rfl, fun habsent => ?_, fun _ => ⟨?_, hsegs⟩⟩
      · rw [hhas] at habsent
        cases habsent
      · intro hnil
        have hempty : q.get (lit "r") = [] := hnil
        rw [hempty] at hsegs
        cases hsegs
  · rename_i hhas
    cases h
    have hnone : q.lookup (lit "r") = none := Option.not_isSome_iff_eq_none.1 hhas
    have hempty : q.get (lit "r") = [] := by
      rw [Values.get, hnone]
      rfl
    exact ⟨hlower, hempty.symm, fun _ => ⟨rfl, rfl⟩, fun hpresent => absurd hpresent hhas⟩

/-- The bytes a list of segments is written with: digits, hyphens and commas. -/
def segmentByte (c : UInt8) : Prop :=
  (48 ≤ c ∧ c ≤ 57) ∨ c = 45 ∨ c = 44

theorem segmentByte_of_parseRangeSegment {p : Bytes} {seg : Segment}
    (h : parseRangeSegment p = some seg) : ∀ c ∈ p, segmentByte c := by
  unfold parseRangeSegment at h
  split at h
  · cases h
  · rename_i start stop hcut
    split at h
    · cases h
    · rcases Option.bind_eq_some_iff.1 h with ⟨first, hfirst, h⟩
      rcases Option.bind_eq_some_iff.1 h with ⟨last, hlast, -⟩
      intro c hc
      rw [(cutAt_eq_some hcut).1] at hc
      rcases List.mem_append.1 hc with hc | hc
      · exact .inl ((isDigit_of_parseUint64 hfirst).2 c hc)
      · rcases List.mem_cons.1 hc with hc | hc
        · exact .inr (.inl hc)
        · exact .inl ((isDigit_of_parseUint64 hlast).2 c hc)

theorem segmentByte_of_parseRangeSegments {s : Bytes} {segs : List Segment}
    (h : parseRangeSegments s = some segs) : ∀ c ∈ s, segmentByte c := by
  unfold parseRangeSegments at h
  split at h
  · cases h
  · intro c hc
    have hjoin : [44].intercalate (s.splitOn 44) = s := List.intercalate_splitOn 44
    rw [← hjoin] at hc
    rcases mem_intercalate hc with rfl | ⟨part, hpart, hc⟩
    · exact .inr (.inr rfl)
    · obtain ⟨seg, hseg⟩ := exists_of_mapM_eq_some h part hpart
      exact segmentByte_of_parseRangeSegment hseg c hc

/-- No field of a canonical string holds a line feed, so each one ends where the next line begins. -/
theorem WellShaped.fields_eq {hex hex' : Bytes} {q q' : Values} {req req' : UrlRequest}
    (h : WellShaped hex q req) (h' : WellShaped hex' q' req')
    (hEq : UrlVerifier.canonical hex req = UrlVerifier.canonical hex' req') :
    hex = hex' ∧ req.exp = req'.exp ∧ req.rField = req'.rField ∧ req.kid = req'.kid := by
  have hhash : ∀ {hex q req}, WellShaped hex q req → 10 ∉ hex := by
    intro hex q req hshape hmem
    have hlower := List.all_eq_true.1 hshape.hash 10 hmem
    exact absurd hlower (by decide)
  have hfield : ∀ {hex q req}, WellShaped hex q req → 10 ∉ req.rField := by
    intro hex q req hshape hmem
    cases hhas : q.has (lit "r") with
    | false =>
        rw [(hshape.absent hhas).2] at hmem
        cases hmem
    | true =>
        have hbyte := segmentByte_of_parseRangeSegments (hshape.present hhas).2 10 hmem
        exact absurd hbyte (by unfold segmentByte; decide)
  have hexp : ∀ n, 10 ∉ decimal n := not_mem_decimal (by decide)
  simp only [UrlVerifier.canonical, canonicalStringRaw_eq, UrlSigner.canonicalStringRaw,
    List.append_assoc, List.cons_append] at hEq
  have hlines := List.append_cancel_left hEq
  obtain ⟨hhex, hlines⟩ := eq_of_append_sep (hhash h) (hhash h') (List.cons.inj hlines).2
  obtain ⟨hdigits, hlines⟩ := eq_of_append_sep (hexp _) (hexp _) hlines
  obtain ⟨hr, hkid⟩ := eq_of_append_sep (hfield h) (hfield h') hlines
  exact ⟨hhex, UInt64.toNat_inj.1 (decimal_injective hdigits), hr, Uuid.text_injective hkid⟩

theorem WellShaped.has_eq {hex hex' : Bytes} {q q' : Values} {req req' : UrlRequest}
    (h : WellShaped hex q req) (h' : WellShaped hex' q' req') (hr : req.rField = req'.rField) :
    q.has (lit "r") = q'.has (lit "r") ∧ req.ranges = req'.ranges := by
  cases hhas : q.has (lit "r") with
  | false =>
      cases hhas' : q'.has (lit "r") with
      | false => exact ⟨rfl, by rw [(h.absent hhas).1, (h'.absent hhas').1]⟩
      | true =>
          rw [(h.absent hhas).2] at hr
          exact absurd hr.symm (h'.present hhas').1
  | true =>
      cases hhas' : q'.has (lit "r") with
      | false =>
          rw [(h'.absent hhas').2] at hr
          exact absurd hr (h.present hhas).1
      | true =>
          have hsegs := (h.present hhas).2
          rw [hr, (h'.present hhas').2] at hsegs
          exact ⟨rfl, (Option.some.inj hsegs).symm⟩

/-- No two of the messages that are compared have the same tag: the tag of `canonical` under `key`,
and those the verifier computes for `canonical'`. -/
def Unforgeable (hmac : Hmac) (key : SigningKey) (canonical : Bytes) (v : UrlVerifier)
    (canonical' : Bytes) : Prop :=
  Set.InjOn (fun input : SigningKey × Bytes => hmac input.1 input.2)
    { input | input = (key, canonical) ∨
      ((input.1 = v.keyCurrent ∨ v.keyPrev = some input.1) ∧ input.2 = canonical') }

theorem UrlVerifier.verify_eq_ok {uuid : UuidParser} {hmac : Hmac} {v : UrlVerifier} {hex : Bytes}
    {q : Values} {now : UInt64} {req : UrlRequest} {ok : VerifyOk}
    (hread : UrlVerifier.readQuery uuid hex q = .ok req)
    (h : v.verify uuid hmac hex q now = .ok ok) :
    (ok.xorbHashHex = hex ∧ ok.exp = req.exp ∧ ok.kid = req.kid ∧ ok.ranges = req.ranges) ∧
      ∃ key provided, (key = v.keyCurrent ∨ v.keyPrev = some key) ∧
        base64UrlDecode req.sig = some provided ∧
        (hmac key (UrlVerifier.canonical hex req)).1 = provided := by
  simp only [UrlVerifier.verify, hread] at h
  split at h
  · cases h
  split at h
  · cases h
  rename_i provided hdecode
  split at h
  · cases h
  rename_i byPrev haccept
  cases h
  refine ⟨⟨rfl, rfl, rfl, rfl⟩, ?_⟩
  unfold UrlVerifier.acceptedBy at haccept
  split at haccept
  · rename_i htag
    exact ⟨v.keyCurrent, provided, .inl rfl, hdecode, htag⟩
  · split at haccept
    · cases haccept
    · rename_i prev hprev
      split at haccept
      · rename_i htag
        exact ⟨prev, provided, .inr hprev, hdecode, htag⟩
      · cases haccept

/-- Inputs that pass the checks before the signature have the same canonical string only if they
carry the same grant, so a tag made for one grant is good for that grant only. -/
theorem canonicalStringRaw_injective {uuid : UuidParser} {hex hex' : Bytes} {q q' : Values}
    {req req' : UrlRequest} (hread : UrlVerifier.readQuery uuid hex q = .ok req)
    (hread' : UrlVerifier.readQuery uuid hex' q' = .ok req') :
    (UrlVerifier.canonical hex req = UrlVerifier.canonical hex' req' →
      hex = hex' ∧ req.exp = req'.exp ∧ req.kid = req'.kid ∧ req.ranges = req'.ranges ∧
        q.has (lit "r") = q'.has (lit "r")) ∧
    ∀ (hmac : Hmac) (key : SigningKey) (v : UrlVerifier) (now : UInt64) (ok : VerifyOk),
      Unforgeable hmac key (UrlVerifier.canonical hex req) v (UrlVerifier.canonical hex' req') →
      base64UrlDecode req'.sig = some (hmac key (UrlVerifier.canonical hex req)).1 →
      v.verify uuid hmac hex' q' now = .ok ok →
        ok.xorbHashHex = hex ∧ ok.exp = req.exp ∧ ok.kid = req.kid ∧ ok.ranges = req.ranges := by
  have hshape := UrlVerifier.wellShaped_of_readQuery hread
  have hshape' := UrlVerifier.wellShaped_of_readQuery hread'
  have hsame : UrlVerifier.canonical hex req = UrlVerifier.canonical hex' req' →
      hex = hex' ∧ req.exp = req'.exp ∧ req.kid = req'.kid ∧ req.ranges = req'.ranges ∧
        q.has (lit "r") = q'.has (lit "r") := by
    intro hEq
    obtain ⟨hhex, hexp, hr, hkid⟩ := hshape.fields_eq hshape' hEq
    obtain ⟨hhas, hranges⟩ := hshape.has_eq hshape' hr
    exact ⟨hhex, hexp, hkid, hranges, hhas⟩
  refine ⟨hsame, ?_⟩
  intro hmac key v now ok hfree hsig hverify
  obtain ⟨⟨hhex, hexp, hkid, hranges⟩, key', provided, hkey', hdecode, htag⟩ :=
    UrlVerifier.verify_eq_ok hread' hverify
  -- The tag that was accepted is the tag that was made, so the messages agree.
  have htags : hmac key (UrlVerifier.canonical hex req) =
      hmac key' (UrlVerifier.canonical hex' req') := by
    rw [hsig] at hdecode
    apply Subtype.ext
    rw [htag]
    exact Option.some.inj hdecode
  have hinput : (key, UrlVerifier.canonical hex req) = (key', UrlVerifier.canonical hex' req') :=
    hfree (.inl rfl) (.inr ⟨hkey', rfl⟩) htags
  obtain ⟨rfl, hexp', hkid', hranges', -⟩ := hsame (Prod.mk.inj hinput).2
  exact ⟨hhex, hexp.trans hexp'.symm, hkid.trans hkid'.symm, hranges.trans hranges'.symm⟩

/-- The query of a vector with the expiry as it is given. -/
def vectorValues (exp : Bytes) : Values :=
  [(lit "exp", exp), (lit "kid", vectorKid.text),
    (lit "sig", lit "ESTvvPOf2B2kQ3JiQQKKR3XkyqCDNfx9FKIcT7IWfPc"),
    (lit "r", lit "1024-8191,12288-16383")]

/-- A leading zero changes the query but neither the canonical string nor the grant. -/
theorem canonicalStringRaw_injective_vector :
    ∃ req ok, UrlVerifier.readQuery canonicalUuid (digestToHex vectorHash)
        (vectorValues (lit "2000000000")) = .ok req ∧
      UrlVerifier.verify canonicalUuid vectorHmac ⟨vectorKey, none⟩ (digestToHex vectorHash)
        (vectorValues (lit "02000000000")) 1999999999 = .ok ok ∧
      ok.exp = req.exp ∧ ok.ranges = req.ranges := by
  let req : UrlRequest :=
    { exp := 2000000000
      kid := vectorKid
      sig := lit "ESTvvPOf2B2kQ3JiQQKKR3XkyqCDNfx9FKIcT7IWfPc"
      ranges := vectorSegments
      rField := lit "1024-8191,12288-16383" }
  have hread : ∀ exp, exp = lit "2000000000" ∨ exp = lit "02000000000" →
      UrlVerifier.readQuery canonicalUuid (digestToHex vectorHash) (vectorValues exp) =
        .ok req := by
    rintro exp (rfl | rfl) <;> decide +kernel
  have hverify : ∃ ok, UrlVerifier.verify canonicalUuid vectorHmac ⟨vectorKey, none⟩
      (digestToHex vectorHash) (vectorValues (lit "02000000000")) 1999999999 = .ok ok := by
    refine ⟨⟨digestToHex vectorHash, 2000000000, vectorSegments, vectorKid, false⟩, ?_⟩
    decide +kernel
  have hsig : base64UrlDecode req.sig =
      some (vectorHmac vectorKey (UrlVerifier.canonical (digestToHex vectorHash) req)).1 := by
    decide +kernel
  -- The two messages are one, under the only key.
  have hfree : Unforgeable vectorHmac vectorKey
      (UrlVerifier.canonical (digestToHex vectorHash) req) ⟨vectorKey, none⟩
      (UrlVerifier.canonical (digestToHex vectorHash) req) := by
    have hone : ∀ input : SigningKey × Bytes,
        input = (vectorKey, UrlVerifier.canonical (digestToHex vectorHash) req) ∨
          ((input.1 = vectorKey ∨ none = some input.1) ∧
            input.2 = UrlVerifier.canonical (digestToHex vectorHash) req) →
        input = (vectorKey, UrlVerifier.canonical (digestToHex vectorHash) req) := by
      rintro ⟨key, message⟩ (hEq | ⟨rfl | hnone, rfl⟩)
      · exact hEq
      · rfl
      · cases hnone
    intro a ha b hb _
    rw [hone a ha, hone b hb]
  obtain ⟨ok, hok⟩ := hverify
  obtain ⟨-, htag⟩ := canonicalStringRaw_injective (hread _ (.inl rfl)) (hread _ (.inr rfl))
  obtain ⟨-, hexp, -, hranges⟩ := htag vectorHmac vectorKey ⟨vectorKey, none⟩ 1999999999 ok hfree
    hsig hok
  exact ⟨req, ok, hread _ (.inl rfl), hok, hexp, hranges⟩

end Gateway
end OpenWeights
