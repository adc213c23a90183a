import OpenWeights.Lib.Hex
import OpenWeights.Gateway.SignedUrl

/-!
# Dialects — the texts of a signed URL, and what they spell on either side

The two verifiers read the parameters of a query with different libraries.  A `Dialect` collects what
is documented about one side: which of several values of a name counts, and which texts stand for a
number, a UUID and a signature.  `Dialect.Spells` says what a query spells in it.

* `goReading_eq_some_iff`, `rustReading_eq_some_iff` : each verifier reads what the query spells in
  its dialect;
* `documented`                                       : there are readers that behave as documented;
* `PlainQuery`                                       : the queries on which the dialects do not differ.
-/

namespace OpenWeights
namespace Gateway

open Lib Db OpenWeights.Core

/-! ## Spellings -/

/-- The forms of a UUID, hexadecimal digits in either case.  `fold` is how the prefix of a URN is
compared, and `brackets` are those that may stand around the text. -/
inductive UuidSpelling (fold : UInt8 → UInt8) (brackets : UInt8 → UInt8 → Bool) :
    Bytes → Uuid → Prop where
  | hyphenated {t : Bytes} {k : Uuid} : t.map lower = k.text → UuidSpelling fold brackets t k
  | simple {t : Bytes} {k : Uuid} : t.map lower = hexEncode k.1 → UuidSpelling fold brackets t k
  | urn {p t : Bytes} {k : Uuid} : p.map fold = lit "urn:uuid:" → t.map lower = k.text →
      UuidSpelling fold brackets (p ++ t) k
  | bracketed {a b : UInt8} {t : Bytes} {k : Uuid} : brackets a b = true → t.map lower = k.text →
      UuidSpelling fold brackets (a :: (t ++ [b])) k

/-- A decimal with an optional plus sign. -/
def SignedDecimal64 (s : Bytes) (n : Nat) : Prop :=
  Decimal64 s n ∨ ∃ rest, s = 43 :: rest ∧ Decimal64 rest n

/-- The bounds of a segment with a hyphen between them. -/
def SegmentText (number : Bytes → Nat → Prop) (p : Bytes) (seg : Segment) : Prop :=
  ∃ start stop, p = start ++ 45 :: stop ∧ 45 ∉ start ∧ number start seg.1.toNat ∧
    number stop seg.2.toNat ∧ seg.1 ≤ seg.2

/-- One segment or more with commas between them. -/
def SegmentsText (number : Bytes → Nat → Prop) (s : Bytes) (segs : List Segment) : Prop :=
  s ≠ [] ∧ List.Forall₂ (SegmentText number) (s.splitOn 44) segs

/-- How the parameters of a query are spelled on one side. -/
structure Dialect where
  /-- Which value of a name counts. -/
  value : List (Bytes × Bytes) → Bytes → Option Bytes
  number : Bytes → Nat → Prop
  kid : Bytes → Uuid → Prop
  /-- The texts taken for a signature, whether they decode or not. -/
  sig : Bytes → Prop
  tag : Bytes → Bytes → Prop

def firstValue (pairs : List (Bytes × Bytes)) (name : Bytes) : Option Bytes :=
  pairs.lookup name

def lastValue (pairs : List (Bytes × Bytes)) (name : Bytes) : Option Bytes :=
  pairs.reverse.lookup name

/-- `url.Values`, `strconv.ParseUint`, `google/uuid` and `base64.RawURLEncoding`. -/
def goDialect : Dialect :=
  { value := firstValue
    number := Decimal64
    kid := UuidSpelling lower fun _ _ => true
    sig := fun t => t ≠ []
    tag := fun t tag => base64UrlDecode t = some tag }

/-- The loop over `query_pairs`, `u64::from_str`, the crate `uuid` and `URL_SAFE_NO_PAD`. -/
def rustDialect : Dialect :=
  { value := lastValue
    number := SignedDecimal64
    kid := UuidSpelling id fun a b => a = 123 && b = 125
    sig := fun _ => True
    tag := fun t tag => t = base64UrlEncode tag }

/-! ## What a query spells -/

/-- Everything of a query that bears on its verdict; `tag` is the decoded signature, `none` when it
does not decode. -/
structure Reading where
  exp : UInt64
  kid : Uuid
  ranges : List Segment
  rField : Bytes
  tag : Option Bytes
  deriving DecidableEq, Repr

/-- The pairs of a query spell the reading in the dialect. -/
structure Dialect.Spells (d : Dialect) (pairs : List (Bytes × Bytes)) (a : Reading) : Prop where
  exp : ∃ t, d.value pairs (lit "exp") = some t ∧ d.number t a.exp.toNat
  kid : ∃ t, d.value pairs (lit "kid") = some t ∧ d.kid t a.kid
  sig : ∃ t, d.value pairs (lit "sig") = some t ∧ d.sig t ∧ ∀ tag, a.tag = some tag ↔ d.tag t tag
  r : d.value pairs (lit "r") = none ∧ a.rField = [] ∧ a.ranges = [] ∨
    d.value pairs (lit "r") = some a.rField ∧ SegmentsText d.number a.rField a.ranges

def parameterNames : List Bytes := [lit "exp", lit "kid", lit "sig", lit "r"]

/-- A query that `Url::parse` leaves alone and whose names and values are UTF-8: no space, no control
character, no number sign, nothing outside of ASCII. -/
def UrlText (query : Bytes) : Prop :=
  (∀ c ∈ query, 33 ≤ c ∧ c ≤ 126 ∧ c ≠ 35) ∧
    ∀ field ∈ query.splitOn 38, ∀ part ∈ [(formField field).1, (formField field).2],
      ∃ s : String, formUnescapeLenient part = lit s

/-- A query that both sides split into the same pairs: it has no semicolon and its escapes are good. -/
structure PlainText (query : Bytes) : Prop where
  url : UrlText query
  semicolon : 59 ∉ query
  escapes : ∀ field ∈ query.splitOn 38, (formUnescape (formField field).1).isSome ∧
    (formUnescape (formField field).2).isSome

/-- A query on which the dialects do not differ: every parameter is given once, without a plus sign in
a number, the signature is there and in its canonical form, and a UUID with a prefix or brackets has
the standard ones. -/
structure PlainQuery (query : Bytes) : Prop where
  text : PlainText query
  once : ∀ name ∈ parameterNames, ((formParse query).filter fun p => p.1 = name).length ≤ 1
  exp : ∀ t, (lit "exp", t) ∈ formParse query → t.head? ≠ some 43
  kid : ∀ t, (lit "kid", t) ∈ formParse query →
    (t.length = 38 → t.head? = some 123 ∧ t.getLast? = some 125) ∧
      (t.length = 45 → lit "urn:uuid:" <+: t)
  sig : ∀ t, (lit "sig", t) ∈ formParse query →
    t ≠ [] ∧ ∀ tag, base64UrlDecode t = some tag → base64UrlEncode tag = t
  r : ∀ t, (lit "r", t) ∈ formParse query → 43 ∉ t

/-! ## The readers -/

/-- What is documented about the readers that are third-party: `google/uuid`, and the crates `url`,
`base64` and `uuid`. -/
structure Documented (uuid : UuidParser) (crates : UrlCrates) : Prop where
  parse : ∀ t k, uuid.parse t = some k ↔ goDialect.kid t k
  queryPairs : ∀ query, UrlText query → crates.queryPairs query = formPairs query
  base64Decode : ∀ t tag, crates.base64Decode t = some tag ↔ rustDialect.tag t tag
  uuidParse : ∀ t k, crates.uuidParse t = some k ↔ rustDialect.kid t k

/-- A request with its signature decoded. -/
def readingOf (decode : Bytes → Option Bytes) (req : UrlRequest) : Reading :=
  { exp := req.exp
    kid := req.kid
    ranges := req.ranges
    rField := req.rField
    tag := decode req.sig }

/-- What the gateway reads; `none` for a malformed query. -/
def goReading (uuid : UuidParser) (segment query : Bytes) : Option Reading :=
  ((UrlVerifier.readQuery uuid segment (formParse query)).toOption).map
    (readingOf base64UrlDecode)

def rustReading (crates : UrlCrates) (query : Bytes) : Option Reading :=
  ((UrlSigner.readQuery crates query).toOption).map (readingOf crates.base64Decode)

def HexSegment (segment : Bytes) : Prop :=
  segment.length = 64 ∧ segment.all isHexLower = true

instance (segment : Bytes) : Decidable (HexSegment segment) :=
  inferInstanceAs (Decidable (_ ∧ _))

theorem parseU64_eq_some_iff {s : Bytes} {v : UInt64} :
    parseU64 s = some v ↔ SignedDecimal64 s v.toNat := by
  have hsign : ∀ {rest : Bytes} {n : Nat}, ¬Decimal64 (43 :: rest) n := by
    intro rest n h
    exact absurd (h.digits 43 List.mem_cons_self).1 (by decide)
  unfold parseU64 SignedDecimal64
  split
  · rename_i rest
    rw [parseUint64_eq_some_iff]
    constructor
    · intro h
      exact .inr ⟨rest, rfl, h⟩
    · rintro (h | ⟨rest', hEq, h⟩)
      · exact absurd h hsign
      · cases hEq
        exact h
  · rename_i hplus
    rw [parseUint64_eq_some_iff]
    constructor
    · exact .inl
    · rintro (h | ⟨rest, rfl, -⟩)
      · exact h
      · exact absurd rfl (hplus rest)

section Segments

variable {p s : Bytes} {seg : Segment} {segs : List Segment}

/-- The two readers of a segment differ in the numbers they take. -/
theorem segmentText_iff {number : Bytes → Nat → Prop} {parse : Bytes → Option UInt64}
    (hparse : ∀ t v, parse t = some v ↔ number t v.toNat) :
    SegmentText number p seg ↔ ∃ start stop, cutAt 45 p = some (start, stop) ∧
      parse start = some seg.1 ∧ parse stop = some seg.2 ∧ seg.1 ≤ seg.2 := by
  constructor
  · rintro ⟨start, stop, rfl, hhyphen, hstart, hstop, hle⟩
    exact ⟨start, stop, cutAt_append hhyphen stop, (hparse _ _).2 hstart, (hparse _ _).2 hstop, hle⟩
  · rintro ⟨start, stop, hcut, hstart, hstop, hle⟩
    obtain ⟨rfl, hhyphen⟩ := cutAt_eq_some hcut
    exact ⟨start, stop, rfl, hhyphen, (hparse _ _).1 hstart, (hparse _ _).1 hstop, hle⟩

theorem parseRangeSegment_eq_some_iff :
    parseRangeSegment p = some seg ↔ SegmentText Decimal64 p seg := by
  rw [segmentText_iff fun t v => parseUint64_eq_some_iff]
  unfold parseRangeSegment
  cases hcut : cutAt 45 p with
  | none => simp
  | some cut =>
      obtain ⟨start, stop⟩ := cut
      have hempty : parseUint64 [] = none := rfl
      by_cases hside : start = [] ∨ stop = []
      · simp only [if_pos hside, Option.some.injEq, Prod.mk.injEq, reduceCtorEq, false_iff]
        rintro ⟨_, _, ⟨rfl, rfl⟩, hstart, hstop, -⟩
        rcases hside with rfl | rfl
        · rw [hempty] at hstart
          cases hstart
        · rw [hempty] at hstop
          cases hstop
      · obtain ⟨a, b⟩ := seg
        cases hstart : parseUint64 start <;> cases hstop : parseUint64 stop <;>
          simp [hside, hstart, hstop]
        grind

theorem rustRangeSegment_eq_some_iff :
    Core.parseRangeSegment p = some seg ↔ SegmentText SignedDecimal64 p seg := by
  rw [segmentText_iff fun t v => parseU64_eq_some_iff]
  unfold Core.parseRangeSegment
  cases hcut : cutAt 45 p with
  | none => simp
  | some cut =>
      obtain ⟨start, stop⟩ := cut
      obtain ⟨a, b⟩ := seg
      cases hstart : parseU64 start <;> cases hstop : parseU64 stop <;>
        simp [hstart, hstop]
      grind

theorem parseRangeSegments_eq_some_iff :
    parseRangeSegments s = some segs ↔ SegmentsText Decimal64 s segs := by
  unfold parseRangeSegments SegmentsText
  by_cases hne : s = []
  · simp [hne]
  · rw [if_neg hne, mapM_eq_some_iff]
    simp only [parseRangeSegment_eq_some_iff, ne_eq, hne, not_false_eq_true, true_and]

theorem rustRangeSegments_eq_some_iff :
    Core.parseRangeSegments s = some segs ↔ SegmentsText SignedDecimal64 s segs := by
  unfold Core.parseRangeSegments SegmentsText
  by_cases hne : s = []
  · simp [hne]
  · have hfull : ¬s.isEmpty = true := by simpa using hne
    rw [if_neg hfull, mapM_eq_some_iff]
    simp only [rustRangeSegment_eq_some_iff, ne_eq, hne, not_false_eq_true, true_and]

end Segments

section Readings

variable {uuid : UuidParser} {crates : UrlCrates} {segment query : Bytes} {a : Reading}

theorem Values.get_eq {q : Values} {key t : Bytes} (h : q.lookup key = some t) : q.get key = t := by
  rw [Values.get, h]
  rfl

theorem lookup_of_get_ne {q : Values} {key : Bytes} (h : q.get key ≠ []) :
    q.lookup key = some (q.get key) := by
  cases hvalue : q.lookup key with
  | none =>
      rw [Values.get, hvalue] at h
      exact absurd rfl h
  | some t => rw [Values.get_eq hvalue]

theorem ne_nil_of_uuidSpelling {fold : UInt8 → UInt8} {brackets : UInt8 → UInt8 → Bool} {t : Bytes}
    {k : Uuid} (h : UuidSpelling fold brackets t k) : t ≠ [] := by
  rintro rfl
  generalize hnil : ([] : Bytes) = t at h
  cases h with
  | hyphenated htext =>
      have hlength := congrArg List.length htext
      rw [← hnil, k.length_text] at hlength
      cases hlength
  | simple htext =>
      have hlength := congrArg List.length htext
      rw [← hnil, length_hexEncode, k.2] at hlength
      cases hlength
  | urn hp htext =>
      obtain ⟨rfl, rfl⟩ := List.append_eq_nil_iff.1 hnil.symm
      cases hp
  | bracketed hbrackets htext => cases hnil

theorem hexSegment_iff :
    HexSegment segment ↔ ¬(segment.length ≠ 64 ∨ ¬segment.all isHexLower = true) := by
  rw [HexSegment, not_or, not_not, not_not]

/-- What passes the checks of the gateway is spelled in its dialect. -/
theorem spells_of_readQuery {pairs : Values} {req : UrlRequest}
    (hparse : ∀ t k, uuid.parse t = some k ↔ goDialect.kid t k)
    (hread : UrlVerifier.readQuery uuid segment pairs = .ok req) :
    HexSegment segment ∧ goDialect.Spells pairs (readingOf base64UrlDecode req) := by
  unfold UrlVerifier.readQuery at hread
  split at hread
  · cases hread
  rename_i hshape
  split at hread
  · cases hread
  rename_i hexpNe
  split at hread
  · cases hread
  rename_i hkidNe
  split at hread
  · cases hread
  rename_i hsigNe
  split at hread
  · cases hread
  rename_i exp hexp
  split at hread
  · cases hread
  rename_i kid hkid
  refine ⟨hexSegment_iff.2 hshape, ?_⟩
  -- a field that is not empty is there, with the value that was read
  have hexpText : ∃ t, firstValue pairs (lit "exp") = some t ∧ Decimal64 t exp.toNat :=
    ⟨_, lookup_of_get_ne hexpNe, parseUint64_eq_some_iff.1 hexp⟩
  have hkidText : ∃ t, firstValue pairs (lit "kid") = some t ∧ goDialect.kid t kid :=
    ⟨_, lookup_of_get_ne hkidNe, (hparse _ _).1 hkid⟩
  have hsigText : ∃ t, firstValue pairs (lit "sig") = some t ∧ t ≠ [] ∧
      ∀ tag, base64UrlDecode (Values.get pairs (lit "sig")) = some tag ↔
        base64UrlDecode t = some tag :=
    ⟨_, lookup_of_get_ne hsigNe, hsigNe, fun _ => Iff.rfl⟩
  dsimp only at hread
  split at hread
  · rename_i hhas
    obtain ⟨r, hr⟩ := Option.isSome_iff_exists.1 hhas
    split at hread
    · cases hread
    · rename_i segs hsegs
      cases hread
      refine ⟨hexpText, hkidText, hsigText, .inr ?_⟩
      rw [Values.get_eq hr] at hsegs
      exact ⟨hr.trans (congrArg some (Values.get_eq hr).symm),
        (Values.get_eq hr).symm ▸ parseRangeSegments_eq_some_iff.1 hsegs⟩
  · -- without `r` the URL grants the whole xorb
    rename_i hhas
    cases hread
    exact ⟨hexpText, hkidText, hsigText, .inl ⟨Option.not_isSome_iff_eq_none.1 hhas, rfl, rfl⟩⟩

/-- What is spelled in the dialect of the gateway passes its checks. -/
theorem readQuery_of_spells {pairs : Values}
    (hparse : ∀ t k, uuid.parse t = some k ↔ goDialect.kid t k) (hsegment : HexSegment segment)
    (hspells : goDialect.Spells pairs a) :
    ∃ req, UrlVerifier.readQuery uuid segment pairs = .ok req ∧
      readingOf base64UrlDecode req = a := by
  obtain ⟨⟨expText, hexpValue, hexp⟩, ⟨kidText, hkidValue, hkid⟩, ⟨sigText, hsigValue, hsigNe, htag⟩,
    hr⟩ := hspells
  -- `Get` cannot tell an absent value from an empty one; these are not empty.
  have hexpGet : pairs.get (lit "exp") = expText := Values.get_eq hexpValue
  have hkidGet : pairs.get (lit "kid") = kidText := Values.get_eq hkidValue
  have hsigGet : pairs.get (lit "sig") = sigText := Values.get_eq hsigValue
  have hexpNe : expText ≠ [] := Decimal64.ne_nil hexp
  have hkidNe : kidText ≠ [] := ne_nil_of_uuidSpelling hkid
  have hsigNe : sigText ≠ [] := hsigNe
  have hexpRead : parseUint64 expText = some a.exp := parseUint64_eq_some_iff.2 hexp
  have hkidRead : uuid.parse kidText = some a.kid := (hparse _ _).2 hkid
  have hdecode : base64UrlDecode sigText = a.tag := by
    apply Option.ext
    intro tag
    exact (htag tag).symm
  refine ⟨⟨a.exp, a.kid, sigText, a.ranges, a.rField⟩, ?_, ?_⟩
  · unfold UrlVerifier.readQuery
    rw [if_neg (hexSegment_iff.1 hsegment)]
    simp only [hexpGet, hkidGet, hsigGet, hexpNe, hkidNe, hsigNe, if_false, hexpRead, hkidRead]
    rcases hr with ⟨hnone, hfield, hranges⟩ | ⟨hvalue, hsegs⟩
    -- Here it matters whether `r` is present: an empty `r` is malformed.
    · have hhas : pairs.has (lit "r") = false := by
        rw [Values.has, show List.lookup (lit "r") pairs = none from hnone]
        rfl
      simp only [hhas, hfield, hranges, Bool.false_eq_true, if_false]
    · have hhas : pairs.has (lit "r") = true := by
        rw [Values.has, show List.lookup (lit "r") pairs = some a.rField from hvalue]
        rfl
      have hget : pairs.get (lit "r") = a.rField := Values.get_eq hvalue
      simp only [hhas, if_true, hget, parseRangeSegments_eq_some_iff.2 hsegs]
  · rw [readingOf, hdecode]

/-- The gateway reads what the query spells in its dialect. -/
theorem goReading_eq_some_iff (hparse : ∀ t k, uuid.parse t = some k ↔ goDialect.kid t k) :
    goReading uuid segment query = some a ↔
      HexSegment segment ∧ goDialect.Spells (formParse query) a := by
  unfold goReading
  constructor
  · intro h
    obtain ⟨req, hreq, rfl⟩ := Option.map_eq_some_iff.1 h
    cases hread : UrlVerifier.readQuery uuid segment (formParse query) with
    | error e =>
        rw [hread] at hreq
        cases hreq
    | ok req' =>
        rw [hread] at hreq
        cases hreq
        exact spells_of_readQuery hparse hread
  · rintro ⟨hsegment, hspells⟩
    obtain ⟨req, hread, rfl⟩ := readQuery_of_spells hparse hsegment hspells
    rw [hread]
    rfl

theorem lastValue_append (pairs : List (Bytes × Bytes)) (p : Bytes × Bytes) (name : Bytes) :
    lastValue (pairs ++ [p]) name = if p.1 = name then some p.2 else lastValue pairs name := by
  have hreverse : (pairs ++ [p]).reverse = p :: pairs.reverse := by simp
  rw [lastValue, hreverse]
  by_cases hname : p.1 = name
  · subst hname
    rw [if_pos rfl]
    exact List.lookup_cons_self
  · have hbeq : (name == p.1) = false := beq_eq_false_iff_ne.2 (Ne.symm hname)
    rw [if_neg hname]
    show List.lookup name ((p.1, p.2) :: pairs.reverse) = _
    rw [List.lookup_cons, hbeq]
    rfl

/-- The slots the loop of `verify` ends with. -/
theorem foldl_collect (crates : UrlCrates) (pairs : List (Bytes × Bytes)) :
    pairs.foldl (UrlSigner.collect crates) ⟨none, none, none, none⟩ =
      { exp := (lastValue pairs (lit "exp")).bind parseU64
        kid := (lastValue pairs (lit "kid")).bind crates.uuidParse
        sig := lastValue pairs (lit "sig")
        rRaw := lastValue pairs (lit "r") } := by
  induction pairs using List.reverseRecOn with
  | nil => rfl
  | append_singleton pairs p ih =>
      -- The four names differ, so a pair overwrites one slot at most.
      have hexp : lit "exp" ≠ lit "kid" ∧ lit "exp" ≠ lit "sig" ∧ lit "exp" ≠ lit "r" := by decide
      have hkid : lit "kid" ≠ lit "sig" ∧ lit "kid" ≠ lit "r" := by decide
      have hsig : lit "sig" ≠ lit "r" := by decide
      rw [List.foldl_append, List.foldl_cons, List.foldl_nil, ih]
      simp only [lastValue_append, UrlSigner.collect]
      split
      · rename_i hname
        simp only [hname, hexp, if_false, Option.bind_some]
      split
      · rename_i hname
        simp only [hname, hkid, if_false, Option.bind_some]
      split
      · rename_i hname
        simp only [hname, hsig, if_false]
      split
      · rfl
      · rfl

/-- The CAS reads what the query spells in its dialect. -/
theorem rustReading_eq_some_iff (hdoc : Documented uuid crates) :
    rustReading crates query = some a ↔ rustDialect.Spells (crates.queryPairs query) a := by
  unfold rustReading UrlSigner.readQuery
  rw [foldl_collect]
  generalize crates.queryPairs query = pairs
  have htags : ∀ {t : Bytes}, crates.base64Decode t = a.tag ↔
      ∀ tag, a.tag = some tag ↔ rustDialect.tag t tag := by
    intro t
    constructor
    · intro hEq tag
      rw [← hEq, hdoc.base64Decode]
    · intro h
      apply Option.ext
      intro tag
      rw [hdoc.base64Decode, h]
  constructor
  · intro h
    obtain ⟨req, hreq, rfl⟩ := Option.map_eq_some_iff.1 h
    dsimp only at hreq
    split at hreq
    · cases hreq
    rename_i exp hexp
    split at hreq
    · cases hreq
    rename_i kid hkid
    split at hreq
    · cases hreq
    rename_i sig hsig
    -- the slots hold what the last value of each name was read as
    obtain ⟨expText, hexpValue, hexp⟩ := Option.bind_eq_some_iff.1 hexp
    obtain ⟨kidText, hkidValue, hkid⟩ := Option.bind_eq_some_iff.1 hkid
    have hexpText : ∃ t, lastValue pairs (lit "exp") = some t ∧ SignedDecimal64 t exp.toNat :=
      ⟨expText, hexpValue, parseU64_eq_some_iff.1 hexp⟩
    have hkidText : ∃ t, lastValue pairs (lit "kid") = some t ∧ rustDialect.kid t kid :=
      ⟨kidText, hkidValue, (hdoc.uuidParse _ _).1 hkid⟩
    have hsigText : ∃ t, lastValue pairs (lit "sig") = some t ∧ True ∧
        ∀ tag, crates.base64Decode sig = some tag ↔ rustDialect.tag t tag :=
      ⟨sig, hsig, trivial, hdoc.base64Decode sig⟩
    split at hreq
    · rename_i hnone
      cases hreq
      exact ⟨hexpText, hkidText, hsigText, .inl ⟨hnone, rfl, rfl⟩⟩
    · rename_i r hr
      split at hreq
      · cases hreq
      · rename_i segs hsegs
        cases hreq
        exact ⟨hexpText, hkidText, hsigText, .inr ⟨hr, rustRangeSegments_eq_some_iff.1 hsegs⟩⟩
  · rintro ⟨⟨expText, hexpValue, hexp⟩, ⟨kidText, hkidValue, hkid⟩, ⟨sigText, hsigValue, -, htag⟩, hr⟩
    have hexpValue : lastValue pairs (lit "exp") = some expText := hexpValue
    have hkidValue : lastValue pairs (lit "kid") = some kidText := hkidValue
    have hsigValue : lastValue pairs (lit "sig") = some sigText := hsigValue
    have hexpRead : parseU64 expText = some a.exp := parseU64_eq_some_iff.2 hexp
    have hkidRead : crates.uuidParse kidText = some a.kid := (hdoc.uuidParse _ _).2 hkid
    have hdecode : crates.base64Decode sigText = a.tag := htags.2 htag
    simp only [hexpValue, hkidValue, hsigValue, Option.bind_some, hexpRead, hkidRead]
    rcases hr with ⟨hnone, hfield, hranges⟩ | ⟨hvalue, hsegs⟩
    · have hnone : lastValue pairs (lit "r") = none := hnone
      simp only [hnone, Except.toOption, Option.map_some, readingOf, hdecode, ← hfield, ← hranges]
    · have hvalue : lastValue pairs (lit "r") = some a.rField := hvalue
      simp only [hvalue, rustRangeSegments_eq_some_iff.2 hsegs, Except.toOption, Option.map_some,
        readingOf, hdecode]

end Readings

/-! ## Readers that behave as documented -/

/-- The text between two brackets. -/
def unbracket (brackets : UInt8 → UInt8 → Bool) : Bytes → Option Bytes
  | [] => none
  | a :: rest => if brackets a (rest.getLastD 0) then some rest.dropLast else none

/-- A reader of the forms of a UUID, told apart by their lengths. -/
def readUuid (fold : UInt8 → UInt8) (brackets : UInt8 → UInt8 → Bool) (t : Bytes) : Option Uuid :=
  if t.length = 36 then
    Uuid.read (t.map lower)
  else if t.length = 32 then
    match hexDecode t with
    | none => none
    | some b => if hlen : b.length = 16 then some ⟨b, hlen⟩ else none
  else if t.length = 45 then
    if (t.take 9).map fold = lit "urn:uuid:" then Uuid.read ((t.drop 9).map lower) else none
  else if t.length = 38 then
    (unbracket brackets t).bind fun u => Uuid.read (u.map lower)
  else
    none

section Readers

variable {fold : UInt8 → UInt8} {brackets : UInt8 → UInt8 → Bool} {t : Bytes} {k : Uuid}

theorem length_of_map_lower {u : Bytes} (h : u.map lower = k.text) : u.length = 36 := by
  rw [← k.length_text, ← h, List.length_map]

theorem unbracket_eq_some {u : Bytes} (hlength : t.length = 38) (h : unbracket brackets t = some u) :
    ∃ a b, t = a :: (u ++ [b]) ∧ brackets a b = true := by
  cases t with
  | nil => cases h
  | cons a rest =>
      rw [unbracket] at h
      split at h
      · rename_i hbrackets
        cases h
        have hne : rest ≠ [] := by
          rintro rfl
          cases hlength
        refine ⟨a, rest.getLastD 0, ?_, hbrackets⟩
        rw [List.getLastD_eq_getLast?, List.getLast?_eq_getLast_of_ne_nil hne, Option.getD_some,
          List.dropLast_append_getLast hne]
      · cases h

theorem uuidSpelling_of_readUuid (h : readUuid fold brackets t = some k) :
    UuidSpelling fold brackets t k := by
  -- By length: 36, 32, 45 and 38 characters.
  unfold readUuid at h
  split at h
  · exact .hyphenated (Uuid.read_eq_some_iff.1 h)
  split at h
  · split at h
    · cases h
    · rename_i b hb
      split at h
      · cases h
        exact .simple (hexEncode_of_hexDecode hb).symm
      · cases h
  split at h
  · split at h
    · rename_i hurn
      rw [← List.take_append_drop 9 t]
      exact .urn hurn (Uuid.read_eq_some_iff.1 h)
    · cases h
  split at h
  · rename_i hlength
    obtain ⟨u, hu, htext⟩ := Option.bind_eq_some_iff.1 h
    obtain ⟨a, b, rfl, hbrackets⟩ := unbracket_eq_some hlength hu
    exact .bracketed hbrackets (Uuid.read_eq_some_iff.1 htext)
  · cases h

theorem readUuid_eq_some_iff :
    readUuid fold brackets t = some k ↔ UuidSpelling fold brackets t k := by
  refine ⟨uuidSpelling_of_readUuid, fun h => ?_⟩
  -- The length of the text tells the four spellings apart.
  cases h with
  | hyphenated htext =>
      rw [readUuid, if_pos (length_of_map_lower htext), Uuid.read_eq_some_iff]
      exact htext
  | simple htext =>
      have hlength : t.length = 32 := by
        have hencode := congrArg List.length htext
        rwa [List.length_map, length_hexEncode, k.2] at hencode
      have hdecode : hexDecode t = some k.1 := by
        rw [← hexDecode_map_lower, htext, hexDecode_hexEncode]
      simp [readUuid, hlength, hdecode, k.2]
  | @urn p u _ hp htext =>
      have hp9 : p.length = 9 := by
        have hurn := congrArg List.length hp
        rwa [List.length_map] at hurn
      have hlength : (p ++ u).length = 45 := by
        rw [List.length_append, hp9, length_of_map_lower htext]
      rw [readUuid, if_neg (by omega), if_neg (by omega), if_pos hlength,
        List.take_left' hp9, List.drop_left' hp9, if_pos hp, Uuid.read_eq_some_iff]
      exact htext
  | @bracketed a b u _ hbrackets htext =>
      have hlength : (a :: (u ++ [b])).length = 38 := by
        simp [length_of_map_lower htext]
      have hinner : unbracket brackets (a :: (u ++ [b])) = some u := by
        simp [unbracket, hbrackets]
      rw [readUuid, if_neg (by omega), if_neg (by omega), if_neg (by omega), if_pos hlength, hinner,
        Option.bind_some, Uuid.read_eq_some_iff]
      exact htext

end Readers

theorem map_lower_text (k : Uuid) : k.text.map lower = k.text := by
  have hlower : ∀ c : UInt8, (48 ≤ c ∧ c ≤ 57) ∨ (97 ≤ c ∧ c ≤ 102) → lower c = c := by
    refine forall_byte ?_
    decide +kernel
  have hhex : ∀ bytes, (hexEncode bytes).map lower = hexEncode bytes := fun bytes =>
    (List.map_congr_left fun c hc => hlower c (mem_hexEncode hc)).trans (List.map_id _)
  simp only [Uuid.text, List.map_append, List.map_cons, hhex, show lower 45 = 45 from rfl]

def documentedUuid : UuidParser :=
  { parse := readUuid lower fun _ _ => true
    parse_text := fun k => readUuid_eq_some_iff.2 (.hyphenated (map_lower_text k)) }

def documentedCrates : UrlCrates :=
  { queryPairs := formPairs
    base64Decode := fun t => (base64UrlDecode t).filter fun tag => base64UrlEncode tag = t
    uuidParse := readUuid id fun a b => a = 123 && b = 125 }

theorem documented : Documented documentedUuid documentedCrates where
  parse _ _ := readUuid_eq_some_iff
  queryPairs _ _ := rfl
  base64Decode t tag := by
    show (base64UrlDecode t).filter (fun tag => decide (base64UrlEncode tag = t)) = some tag ↔
      t = base64UrlEncode tag
    rw [Option.filter_eq_some_iff, decide_eq_true_eq]
    constructor
    · rintro ⟨-, hencode⟩
      exact hencode.symm
    · rintro rfl
      exact ⟨base64UrlDecode_base64UrlEncode tag, rfl⟩
  uuidParse _ _ := readUuid_eq_some_iff

/-! ## Plain queries -/

section Plain

variable {pairs : List (Bytes × Bytes)} {name t : Bytes}

theorem lookup_eq_head? (pairs : List (Bytes × Bytes)) (name : Bytes) :
    pairs.lookup name = ((pairs.filter fun p => p.1 = name).head?).map Prod.snd := by
  induction pairs with
  | nil => rfl
  | cons p rest ih =>
      by_cases hname : p.1 = name
      · subst hname
        have hhere : List.lookup p.1 ((p.1, p.2) :: rest) = some p.2 := List.lookup_cons_self
        rw [List.filter_cons_of_pos (by simp)]
        exact hhere
      · have hbeq : (name == p.1) = false := beq_eq_false_iff_ne.2 (Ne.symm hname)
        rw [List.filter_cons_of_neg (by simpa using hname), ← ih]
        show List.lookup name ((p.1, p.2) :: rest) = _
        rw [List.lookup_cons, hbeq]

theorem mem_of_lookup (h : pairs.lookup name = some t) : (name, t) ∈ pairs := by
  rw [lookup_eq_head?] at h
  obtain ⟨p, hp, rfl⟩ := Option.map_eq_some_iff.1 h
  obtain ⟨hmem, hname⟩ := List.mem_filter.1 (List.mem_of_mem_head? hp)
  have hname : p.1 = name := by simpa using hname
  exact hname ▸ hmem

/-- Of a name that is given once, the first value is the last one. -/
theorem lastValue_eq_firstValue (h : (pairs.filter fun p => p.1 = name).length ≤ 1) :
    lastValue pairs name = firstValue pairs name := by
  rw [lastValue, firstValue, lookup_eq_head?, lookup_eq_head?, List.filter_reverse,
    List.head?_reverse]
  generalize pairs.filter (fun p => p.1 = name) = l at h
  rcases l with - | ⟨p, - | ⟨q, rest⟩⟩
  · rfl
  · rfl
  · simp only [List.length_cons] at h
    omega

theorem signedDecimal64_iff (h : t.head? ≠ some 43) (n : Nat) :
    SignedDecimal64 t n ↔ Decimal64 t n := by
  refine ⟨?_, .inl⟩
  rintro (hn | ⟨rest, rfl, -⟩)
  · exact hn
  · exact absurd rfl h

/-- Without plus signs the segments of one side are those of the other. -/
theorem segmentsText_signed_iff (h : 43 ∉ t) (segs : List Segment) :
    SegmentsText SignedDecimal64 t segs ↔ SegmentsText Decimal64 t segs := by
  -- No number of the text has a sign, so an optional sign makes no difference.
  have hnumber : ∀ {s : Bytes} {n : Nat}, (∀ c ∈ s, c ∈ t) →
      (SignedDecimal64 s n ↔ Decimal64 s n) := by
    intro s n hs
    refine signedDecimal64_iff ?_ n
    intro hhead
    exact h (hs 43 (List.mem_of_mem_head? hhead))
  have hsegment : ∀ p ∈ t.splitOn 44, ∀ seg,
      SegmentText SignedDecimal64 p seg ↔ SegmentText Decimal64 p seg := by
    intro p hp seg
    have hmem : ∀ {start stop : Bytes}, p = start ++ 45 :: stop →
        (∀ c ∈ start, c ∈ t) ∧ ∀ c ∈ stop, c ∈ t := by
      rintro start stop rfl
      exact ⟨fun c hc => mem_of_mem_splitOn hp (by simp [hc]),
        fun c hc => mem_of_mem_splitOn hp (by simp [hc])⟩
    constructor
    · rintro ⟨start, stop, hEq, hhyphen, hstart, hstop, hle⟩
      obtain ⟨hs, he⟩ := hmem hEq
      exact ⟨start, stop, hEq, hhyphen, (hnumber hs).1 hstart, (hnumber he).1 hstop, hle⟩
    · rintro ⟨start, stop, hEq, hhyphen, hstart, hstop, hle⟩
      exact ⟨start, stop, hEq, hhyphen, .inl hstart, .inl hstop, hle⟩
  refine and_congr_right fun _ => ?_
  generalize t.splitOn 44 = parts at hsegment
  induction parts generalizing segs with
  | nil => rw [List.forall₂_nil_left_iff, List.forall₂_nil_left_iff]
  | cons p parts ih =>
      obtain ⟨hp, hparts⟩ := List.forall_mem_cons.1 hsegment
      simp only [List.forall₂_cons_left_iff, hp, ih _ hparts]

/-- A UUID with the standard prefix and brackets. -/
theorem uuidSpelling_iff
    (hbrackets : t.length = 38 → t.head? = some 123 ∧ t.getLast? = some 125)
    (hurn : t.length = 45 → lit "urn:uuid:" <+: t) (k : Uuid) :
    rustDialect.kid t k ↔ goDialect.kid t k := by
  have hlength : ∀ {u : Bytes}, u.map lower = k.text → u.length = 36 := by
    intro u hu
    rw [← k.length_text, ← hu, List.length_map]
  constructor
  -- the CAS takes no other prefix and no other brackets than the standard ones
  · intro h
    cases h with
    | hyphenated htext => exact .hyphenated htext
    | simple htext => exact .simple htext
    | urn hp htext =>
        rw [List.map_id] at hp
        subst hp
        exact .urn (by decide) htext
    | bracketed _ htext => exact .bracketed rfl htext
  -- of what the gateway takes, the lengths tell which hypothesis applies
  · intro h
    cases h with
    | hyphenated htext => exact .hyphenated htext
    | simple htext => exact .simple htext
    | @urn p u _ hp htext =>
        have hp9 : p.length = (lit "urn:uuid:").length := by
          rw [← hp, List.length_map]
        have htotal : (p ++ u).length = 45 := by
          rw [List.length_append, hp9, hlength htext]
          rfl
        have hprefix : p = lit "urn:uuid:" :=
          (List.prefix_of_prefix_length_le (List.prefix_append p u) (hurn htotal) hp9.le).eq_of_length
            hp9
        exact .urn (by rw [List.map_id]; exact hprefix) htext
    | @bracketed a b u _ _ htext =>
        have htotal : (a :: (u ++ [b])).length = 38 := by
          simp [hlength htext]
        obtain ⟨ha, hb⟩ := hbrackets htotal
        obtain rfl : a = 123 := by simpa using ha
        rw [← List.cons_append, List.getLast?_concat] at hb
        obtain rfl : b = 125 := Option.some.inj hb
        exact .bracketed rfl htext

/-- On a plain query the dialects do not differ. -/
theorem PlainQuery.spells_iff {uuid : UuidParser} {crates : UrlCrates} {query : Bytes}
    (hdoc : Documented uuid crates) (h : PlainQuery query) (a : Reading) :
    rustDialect.Spells (crates.queryPairs query) a ↔ goDialect.Spells (formParse query) a := by
  rw [hdoc.queryPairs query h.text.url, formPairs_eq_formParse h.text.semicolon h.text.escapes]
  -- Each parameter stands once, so the first value read is the last one.
  have hvalue : ∀ name ∈ parameterNames,
      rustDialect.value (formParse query) name = goDialect.value (formParse query) name :=
    fun name hname => lastValue_eq_firstValue (h.once name hname)
  have hexpValue := hvalue (lit "exp") (by decide)
  have hkidValue := hvalue (lit "kid") (by decide)
  have hsigValue := hvalue (lit "sig") (by decide)
  have hrValue := hvalue (lit "r") (by decide)
  -- In a plain query the two grammars agree on the text of each parameter.
  have hexp : ∀ t, goDialect.value (formParse query) (lit "exp") = some t → ∀ n,
      rustDialect.number t n ↔ goDialect.number t n :=
    fun t ht => signedDecimal64_iff (h.exp t (mem_of_lookup ht))
  have hkid : ∀ t, goDialect.value (formParse query) (lit "kid") = some t → ∀ k,
      rustDialect.kid t k ↔ goDialect.kid t k := by
    intro t ht
    obtain ⟨hbrackets, hurn⟩ := h.kid t (mem_of_lookup ht)
    exact uuidSpelling_iff hbrackets hurn
  have hsig : ∀ t, goDialect.value (formParse query) (lit "sig") = some t → t ≠ [] ∧ ∀ tag,
      rustDialect.tag t tag ↔ goDialect.tag t tag := by
    intro t ht
    obtain ⟨hne, hcanonical⟩ := h.sig t (mem_of_lookup ht)
    refine ⟨hne, fun tag => ⟨?_, fun hdecode => (hcanonical tag hdecode).symm⟩⟩
    intro hencode
    rw [show t = base64UrlEncode tag from hencode]
    exact base64UrlDecode_base64UrlEncode tag
  have hr : ∀ t, goDialect.value (formParse query) (lit "r") = some t → ∀ segs,
      SegmentsText rustDialect.number t segs ↔ SegmentsText goDialect.number t segs :=
    fun t ht => segmentsText_signed_iff (h.r t (mem_of_lookup ht))
  constructor
  · rintro ⟨⟨t, ht, hn⟩, ⟨u, hu, hk⟩, ⟨s, hs, -, htag⟩, hfield⟩
    rw [hexpValue] at ht
    rw [hkidValue] at hu
    rw [hsigValue] at hs
    rw [hrValue] at hfield
    refine ⟨⟨t, ht, (hexp t ht _).1 hn⟩, ⟨u, hu, (hkid u hu _).1 hk⟩,
      ⟨s, hs, (hsig s hs).1, fun tag => (htag tag).trans ((hsig s hs).2 tag)⟩, ?_⟩
    exact hfield.imp_right fun hpresent => ⟨hpresent.1, (hr _ hpresent.1 _).1 hpresent.2⟩
  · rintro ⟨⟨t, ht, hn⟩, ⟨u, hu, hk⟩, ⟨s, hs, -, htag⟩, hfield⟩
    refine ⟨⟨t, hexpValue.trans ht, (hexp t ht _).2 hn⟩, ⟨u, hkidValue.trans hu, (hkid u hu _).2 hk⟩,
      ⟨s, hsigValue.trans hs, trivial, fun tag => (htag tag).trans ((hsig s hs).2 tag).symm⟩, ?_⟩
    rw [hrValue]
    exact hfield.imp_right fun hpresent => ⟨hpresent.1, (hr _ hpresent.1 _).2 hpresent.2⟩

end Plain

end Gateway
end OpenWeights
