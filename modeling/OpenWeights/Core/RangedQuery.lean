import OpenWeights.Core.Reconstruction

/-!
# RangedQuery — the `Range` header of a reconstruction request

Model of `reconstruction_range_start` and of the last steps of `query_reconstruction_v1` and
`query_reconstruction_v2`.  A client fetches a large file in blocks and asks for the blocks with
increasing start offsets; a `416` tells it that there is no more.

The start is parsed and compared with the size, but it does not reach the builders: they describe
the whole file with offset 0.  `ranged_iff` says when that answers the request.
-/

namespace OpenWeights
namespace Core

open Lib Db Db.Database Gateway

/-! ## The header -/

/-- The bytes `HeaderValue::to_str` accepts. -/
def isVisibleAscii (b : UInt8) : Bool :=
  (32 ≤ b && b < 127) || b == 9

def toStr (value : Bytes) : Option Bytes :=
  if value.all isVisibleAscii then some value else none

def stripPrefix (front s : Bytes) : Option Bytes :=
  if front.isPrefixOf s then some (s.drop front.length) else none

def beforeDash (spec : Bytes) : Bytes :=
  match cutAt 45 spec with
  | some (before, _) => before
  | none => spec

/-- `reconstruction_range_start`; the argument is the value of the `Range` header. -/
def reconstructionRangeStart (range : Option Bytes) : Option UInt64 := do
  let raw ← toStr (← range)
  let spec ← stripPrefix (lit "bytes=") (trimSpace raw)
  parseU64 (trimSpace (beforeDash spec))

/-! ## The handlers, from the row on -/

/-- `AppError`, as far as a request with a row can end in it. -/
inductive AppError
  | rangeNotSatisfiable
  deriving DecidableEq, Repr

def startsPastEnd (range : Option Bytes) (row : ReconstructionRow) : Bool :=
  match reconstructionRangeStart range with
  | some start => start ≥ u64 (max row.file.totalSize 0)
  | none => false

/-- `query_reconstruction_v1`, from step (3a) on. -/
def respondV1 (order : UnstableSort) (hmac : Hmac) (signer : UrlSigner) (kid : Uuid)
    (nowUnix : UInt64) (range : Option Bytes) (row : ReconstructionRow) :
    Except AppError QueryReconstructionResponse :=
  if startsPastEnd range row then
    .error .rangeNotSatisfiable
  else
    .ok (buildResponse order hmac row signer kid nowUnix)

/-- `query_reconstruction_v2`, from step (4a) on; `none` is the panic of the minter. -/
def respondV2 (order : UnstableSort) (hmac : Hmac) (signer : UrlSigner) (kid : Uuid)
    (nowUnix : UInt64) (range : Option Bytes) (row : ReconstructionRow) :
    Option (Except AppError QueryReconstructionResponseV2) :=
  if startsPastEnd range row then
    some (.error .rangeNotSatisfiable)
  else
    (buildV2Response order hmac row signer kid nowUnix).map .ok

/-! ## What the header says -/

theorem parseUint64_decimal_eq (n : Nat) :
    parseUint64 (decimal n) = if n < 2 ^ 64 then some (UInt64.ofNat n) else none := by
  simp [parseUint64, decimal_ne_nil, digitsValue_decimal]

theorem parseU64_decimal (n : Nat) :
    parseU64 (decimal n) = if n < 2 ^ 64 then some (UInt64.ofNat n) else none := by
  rw [← parseUint64_decimal_eq]
  -- No number starts with a plus sign.
  have hplus : 43 ∉ decimal n := by
    intro hmem
    exact absurd (isDigit_decimal n 43 hmem) (by decide)
  unfold parseU64
  split
  · rename_i rest hEq
    exact absurd (hEq ▸ List.mem_cons_self) hplus
  · rfl

def startHeader (start : Nat) (rest : Bytes) : Bytes :=
  lit "bytes=" ++ decimal start ++ 45 :: rest

theorem all_isVisibleAscii_startHeader (start : Nat) (rest : Bytes) :
    (startHeader start rest).all isVisibleAscii = rest.all isVisibleAscii := by
  have hfront : (lit "bytes=").all isVisibleAscii = true := by decide
  have hdash : isVisibleAscii 45 = true := by decide
  have hdigits : (decimal start).all isVisibleAscii = true := by
    rw [List.all_eq_true]
    intro c hc
    obtain ⟨hlow, hhigh⟩ := isDigit_decimal start c hc
    have hle : 32 ≤ c := UInt8.le_trans (by decide) hlow
    have hlt : c < 127 := UInt8.lt_of_le_of_lt hhigh (by decide)
    simp [isVisibleAscii, hle, hlt]
  rw [startHeader, List.all_append, List.all_append, hfront, hdigits, List.all_cons, hdash]
  simp

/-- The start is read if the header is text and the number fits. -/
theorem reconstructionRangeStart_startHeader (start : Nat) (rest : Bytes) :
    reconstructionRangeStart (some (startHeader start rest)) =
      if rest.all isVisibleAscii ∧ start < 2 ^ 64 then some (UInt64.ofNat start) else none := by
  by_cases hvisible : rest.all isVisibleAscii = true
  · have hstr : toStr (startHeader start rest) = some (startHeader start rest) := by
      rw [toStr, all_isVisibleAscii_startHeader, if_pos hvisible]
    have hspaces : ∀ s ∈ spaces, (45 : UInt8) ∉ s := by decide
    have hb : lit "bytes=" = 98 :: lit "ytes=" := by decide
    have htrim := trimSpace_append (show solid 98 = true by decide) hspaces
      (lit "ytes=" ++ decimal start) rest
    have htrimmed : trimSpace (startHeader start rest) =
        lit "bytes=" ++ (decimal start ++ 45 :: trimBack rest) := by
      rw [startHeader, hb]
      simpa using htrim
    have hstrip : stripPrefix (lit "bytes=")
        (lit "bytes=" ++ (decimal start ++ 45 :: trimBack rest)) =
          some (decimal start ++ 45 :: trimBack rest) := by
      rw [stripPrefix, if_pos (List.isPrefixOf_iff_prefix.2 (List.prefix_append _ _)),
        List.drop_left]
    have hdash : (45 : UInt8) ∉ decimal start := by
      intro hmem
      exact absurd (isDigit_decimal start 45 hmem) (by decide)
    have hbefore : beforeDash (decimal start ++ 45 :: trimBack rest) = decimal start := by
      rw [beforeDash, cutAt_append hdash]
    simp only [reconstructionRangeStart, Option.bind_eq_bind, Option.bind_some, hstr, htrimmed,
      hstrip, hbefore, trimSpace_decimal, parseU64_decimal, hvisible, true_and]
  · have hstr : toStr (startHeader start rest) = none := by
      rw [toStr, all_isVisibleAscii_startHeader, if_neg hvisible]
    rw [if_neg fun h => hvisible h.1]
    simp only [reconstructionRangeStart, Option.bind_eq_bind, Option.bind_some, hstr,
      Option.bind_none]

/-! ## Ranged requests -/

/-- `content` is the file the row describes, each term standing for the bytes `unpack` gives; the
row has all terms of the file.  `total_size` is an `i64`. -/
structure Complete (unpack : ReconstructionTerm → Bytes) (row : ReconstructionRow)
    (content : Bytes) : Prop where
  content_eq : (row.terms.map fun t => unpack (reconstructionTerm t)).flatten = content
  totalSize : row.file.totalSize = content.length
  bounded : content.length < 2 ^ 63

/-- Without its first `offset` bytes, what the terms stand for begins with the file from `start`
on. -/
def DescribesFrom (unpack : ReconstructionTerm → Bytes) (content : Bytes) (start : Nat)
    (terms : List ReconstructionTerm) (offset : UInt64) : Prop :=
  content.drop start <+: (terms.map unpack).flatten.drop offset.toNat

section Ranged

variable (unpack : ReconstructionTerm → Bytes) (order : UnstableSort) (hmac : Hmac)
  (signer : UrlSigner) (kid : Uuid) (nowUnix : UInt64) (row : ReconstructionRow)
  (content : Bytes)

/-- The answer to a request from `start` on is right: it describes the file from there, or it is a
`416` if there is nothing there. -/
def RangedCorrect (range : Bytes) (start : Nat) : Prop :=
  if start < content.length then
    (∃ v1, respondV1 order hmac signer kid nowUnix (some range) row = .ok v1 ∧
      DescribesFrom unpack content start v1.terms v1.offsetIntoFirstRange) ∧
    ∃ v2, respondV2 order hmac signer kid nowUnix (some range) row = some (.ok v2) ∧
      DescribesFrom unpack content start v2.terms v2.offsetIntoFirstRange
  else
    respondV1 order hmac signer kid nowUnix (some range) row = .error .rangeNotSatisfiable ∧
      respondV2 order hmac signer kid nowUnix (some range) row =
        some (.error .rangeNotSatisfiable)

/-- The answer to a request without the header is right: it describes the whole file. -/
def WholeCorrect : Prop :=
  (∃ v1, respondV1 order hmac signer kid nowUnix none row = .ok v1 ∧
    v1.offsetIntoFirstRange = 0 ∧ (v1.terms.map unpack).flatten = content) ∧
  ∃ v2, respondV2 order hmac signer kid nowUnix none row = some (.ok v2) ∧
    v2.offsetIntoFirstRange = 0 ∧ (v2.terms.map unpack).flatten = content

variable {unpack order hmac signer kid nowUnix row content}

/-- Unless the request starts past the end, both endpoints describe the whole file. -/
theorem respond_of_not_startsPastEnd (order : UnstableSort) (hmac : Hmac) (signer : UrlSigner)
    (kid : Uuid) (nowUnix : UInt64) {range : Option Bytes}
    (h : startsPastEnd range row = false) :
    (∃ v1, respondV1 order hmac signer kid nowUnix range row = .ok v1 ∧
      v1.offsetIntoFirstRange = 0 ∧ v1.terms = row.terms.map reconstructionTerm) ∧
    ∃ v2, respondV2 order hmac signer kid nowUnix range row = some (.ok v2) ∧
      v2.offsetIntoFirstRange = 0 ∧ v2.terms = row.terms.map reconstructionTerm := by
  obtain ⟨v2, hv2, hoffset, hterms, -⟩ :=
    exists_buildV2Response order hmac row signer kid nowUnix
  constructor
  · exact ⟨_, by rw [respondV1, h]; rfl, rfl, rfl⟩
  · exact ⟨v2, by rw [respondV2, h, hv2]; rfl, hoffset, hterms⟩

theorem Complete.flatten_eq (hcomplete : Complete unpack row content) :
    ((row.terms.map reconstructionTerm).map unpack).flatten = content := by
  rw [List.map_map]
  exact hcomplete.content_eq

/-- The whole file answers a request from `start` on if the file repeats itself from there. -/
theorem Complete.describesFrom_iff (hcomplete : Complete unpack row content) {start : Nat}
    {terms : List ReconstructionTerm} {offset : UInt64}
    (hterms : terms = row.terms.map reconstructionTerm) (hoffset : offset = 0) :
    DescribesFrom unpack content start terms offset ↔ content.drop start <+: content := by
  rw [DescribesFrom, hterms, hoffset, hcomplete.flatten_eq]
  rfl

/-- The check compares the start with the size of the file. -/
theorem Complete.startsPastEnd_iff (hcomplete : Complete unpack row content) (start : Nat)
    (rest : Bytes) :
    startsPastEnd (some (startHeader start rest)) row ↔
      content.length ≤ start ∧ start < 2 ^ 64 ∧ rest.all isVisibleAscii := by
  have htotal : (u64 (max row.file.totalSize 0)).toNat = content.length := by
    have hbound := hcomplete.bounded
    rw [hcomplete.totalSize, max_eq_left (by omega)]
    exact toNat_u64 (by omega)
  rw [startsPastEnd, reconstructionRangeStart_startHeader]
  by_cases hread : rest.all isVisibleAscii = true ∧ start < 2 ^ 64
  · have hstart : (UInt64.ofNat start).toNat = start := by
      rw [UInt64.toNat_ofNat', Nat.mod_eq_of_lt hread.2]
    rw [if_pos hread]
    simp only [ge_iff_le, decide_eq_true_eq, UInt64.le_iff_toNat_le, htotal, hstart, hread,
      and_true]
  · rw [if_neg hread]
    constructor
    · intro h
      cases h
    · rintro ⟨-, hlt, hvisible⟩
      exact absurd ⟨hvisible, hlt⟩ hread

/-- A request that starts inside the file is answered rightly if and only if the file from there on
is also how it begins, which for `start = 0` it is; one that starts past the end is answered
rightly if the number fits in 64 bits and the rest of the header is text.  A request without the
header always is. -/
theorem ranged_iff (order : UnstableSort) (hmac : Hmac) (signer : UrlSigner) (kid : Uuid)
    (nowUnix : UInt64) (hcomplete : Complete unpack row content) :
    (∀ start rest, RangedCorrect unpack order hmac signer kid nowUnix row content
        (startHeader start rest) start ↔
      (start < content.length ∧ content.drop start <+: content) ∨
        (content.length ≤ start ∧ start < 2 ^ 64 ∧ rest.all isVisibleAscii)) ∧
      WholeCorrect unpack order hmac signer kid nowUnix row content := by
  constructor
  · intro start rest
    by_cases hinside : start < content.length
    · have hserved : startsPastEnd (some (startHeader start rest)) row = false := by
        rw [Bool.eq_false_iff, ne_eq, hcomplete.startsPastEnd_iff]
        omega
      obtain ⟨⟨v1, hv1, hoffset1, hterms1⟩, ⟨v2, hv2, hoffset2, hterms2⟩⟩ :=
        respond_of_not_startsPastEnd order hmac signer kid nowUnix hserved
      rw [RangedCorrect, if_pos hinside, hv1, hv2]
      have hnot : ¬content.length ≤ start := by omega
      constructor
      · rintro ⟨⟨v, hv, hdescribes⟩, -⟩
        cases hv
        exact .inl ⟨hinside, (hcomplete.describesFrom_iff hterms1 hoffset1).1 hdescribes⟩
      · rintro (⟨-, hstarts⟩ | ⟨hpast, -⟩)
        · exact ⟨⟨v1, rfl, (hcomplete.describesFrom_iff hterms1 hoffset1).2 hstarts⟩,
            ⟨v2, rfl, (hcomplete.describesFrom_iff hterms2 hoffset2).2 hstarts⟩⟩
        · exact absurd hpast hnot
    · rw [RangedCorrect, if_neg hinside]
      have hpast : content.length ≤ start := by omega
      simp only [hinside, false_and, false_or, hpast, true_and]
      have hiff := hcomplete.startsPastEnd_iff start rest
      simp only [hpast, true_and] at hiff
      rw [← hiff]
      by_cases hrefused : startsPastEnd (some (startHeader start rest)) row = true
      · simp [respondV1, respondV2, hrefused]
      · simp [respondV1, hrefused]
  · obtain ⟨⟨v1, hv1, hoffset1, hterms1⟩, ⟨v2, hv2, hoffset2, hterms2⟩⟩ :=
      respond_of_not_startsPastEnd order hmac signer kid nowUnix
        (show startsPastEnd none row = false from rfl)
    exact ⟨⟨v1, hv1, hoffset1, by rw [hterms1, hcomplete.flatten_eq]⟩,
      ⟨v2, hv2, hoffset2, by rw [hterms2, hcomplete.flatten_eq]⟩⟩

end Ranged

/-! ## A file of four bytes -/

/-- Two terms of two bytes each, on adjacent chunks. -/
def blocksRow : ReconstructionRow :=
  { file := { fileId := Hash.fill 1, totalSize := 4 }
    terms := [vectorTerm 4 6 0 2, vectorTerm 6 8 2 4] }

/-- The chunks before 6 unpack to `ab`, those from there on to `cd`. -/
def blocksUnpack (t : ReconstructionTerm) : Bytes :=
  if t.range.start < 6 then lit "ab" else lit "cd"

theorem complete_blocks : Complete blocksUnpack blocksRow (lit "abcd") :=
  ⟨by decide, by decide, by decide⟩

theorem ranged_iff_blocks :
    RangedCorrect blocksUnpack sortByStart rangeHmac vectorSigner vectorKid 1999992800 blocksRow
        (lit "abcd") (startHeader 4 (lit "7")) 4 ∧
      WholeCorrect blocksUnpack sortByStart rangeHmac vectorSigner vectorKid 1999992800 blocksRow
        (lit "abcd") := by
  obtain ⟨hiff, hwhole⟩ := ranged_iff sortByStart rangeHmac vectorSigner vectorKid 1999992800
    complete_blocks
  exact ⟨(hiff 4 (lit "7")).2 (.inr (by decide)), hwhole⟩

/-- The second block, `bytes=2-`, is answered with the whole file. -/
theorem not_rangedCorrect_blocks :
    ¬RangedCorrect blocksUnpack sortByStart rangeHmac vectorSigner vectorKid 1999992800 blocksRow
      (lit "abcd") (startHeader 2 []) 2 := by
  have hserved : startsPastEnd (some (startHeader 2 [])) blocksRow = false := by decide
  obtain ⟨⟨v1, hv1, hoffset, hterms⟩, -⟩ := respond_of_not_startsPastEnd sortByStart rangeHmac
    vectorSigner vectorKid 1999992800 hserved
  intro h
  rw [RangedCorrect, if_pos (by decide), hv1] at h
  obtain ⟨⟨v, hv, hdescribes⟩, -⟩ := h
  cases hv
  rw [complete_blocks.describesFrom_iff hterms hoffset] at hdescribes
  exact absurd hdescribes (by decide)

end Core
end OpenWeights
