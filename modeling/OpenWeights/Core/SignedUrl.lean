import OpenWeights.Lib.Text
import OpenWeights.Gateway.MerkleHash

/-!
# SignedUrl — the URLs the CAS signs for the gateway

Model of `openweights-cas-core/src/signed_url.rs`: the canonical string, the two minters and
`UrlSigner::verify`.  A Rust string is its UTF-8 bytes.

HMAC-SHA256 comes in as a function of the key and the message.  What `verify` takes from the crates
`url`, `base64` and `uuid` is collected in `UrlCrates`.  The writers among them follow a standard
and are those of `Lib.Text`; `MerkleHash::hex` is `digestToHex`.
-/

namespace OpenWeights
namespace Core

open Lib Db Gateway

/-! ## Values -/

/-- A decoded signing key (`SIGNING_KEY_LEN` bytes). -/
abbrev SigningKey := { b : Bytes // b.length = 32 }

/-- HMAC-SHA256; a tag has 32 bytes. -/
abbrev Hmac := SigningKey → Bytes → Hash

/-- A closed range of bytes, `(start, end_inclusive)`. -/
abbrev Segment := UInt64 × UInt64

/-- The configured base URL; it carries no query. -/
structure GatewayBase where
  origin : Bytes
  path : Bytes
  deriving DecidableEq, Repr

/-- A minted URL, in the parts `to_string` joins. -/
structure SignedUrl where
  origin : Bytes
  path : Bytes
  query : Bytes
  deriving DecidableEq, Repr

inductive VerifyErr
  | malformed (what : String)
  | expired
  | badSignature
  deriving DecidableEq, Repr

/-- The status of the consumer contract: `Expired` and `BadSignature` are 403, `Malformed` is 400. -/
def VerifyErr.status : VerifyErr → Nat
  | .malformed _ => 400
  | .expired => 403
  | .badSignature => 403

/-- `VerifyOk`; an empty `ranges` grants the whole xorb. -/
structure VerifyOk where
  xorbHashHex : Bytes
  exp : UInt64
  ranges : List Segment
  kid : Uuid
  acceptedByPrevKey : Bool
  deriving DecidableEq, Repr

/-- A query as a verifier understands it before it looks at the clock and the signature. -/
structure UrlRequest where
  exp : UInt64
  kid : Uuid
  sig : Bytes
  ranges : List Segment
  rField : Bytes
  deriving DecidableEq, Repr

structure UrlSigner where
  keyCurrent : SigningKey
  keyPrev : Option SigningKey
  gatewayBase : GatewayBase
  defaultTtlSecs : UInt64
  deriving DecidableEq, Repr

def saturatingAdd (a b : UInt64) : UInt64 :=
  if a.toNat + b.toNat < 2 ^ 64 then a + b else UInt64.ofNat (2 ^ 64 - 1)

def canonicalVersion : Bytes := lit "v1"

namespace UrlSigner

/-! ## Minting -/

def segmentText (seg : Segment) : Bytes :=
  decimal seg.1.toNat ++ 45 :: decimal seg.2.toNat

def segmentsText (segments : List Segment) : Bytes :=
  [44].intercalate (segments.map segmentText)

/-- `canonical_string_raw`: five fields, four line feeds. -/
def canonicalStringRaw (version xorbHashHex : Bytes) (exp : UInt64) (rField : Bytes) (kid : Uuid) :
    Bytes :=
  version ++ 10 :: xorbHashHex ++ 10 :: decimal exp.toNat ++ 10 :: rField ++ 10 :: kid.text

def canonicalString (version xorbHashHex : Bytes) (exp : UInt64) (range : Option Segment)
    (kid : Uuid) : Bytes :=
  let r :=
    match range with
    | some seg => segmentText seg
    | none => []
  canonicalStringRaw version xorbHashHex exp r kid

def signWith (hmac : Hmac) (key : SigningKey) (canonical : Bytes) : Bytes :=
  base64UrlEncode (hmac key canonical).1

/-- `set_path` on a copy of the base, then `append_pair` for each pair. -/
def gatewayUrl (signer : UrlSigner) (hex : Bytes) (pairs : List (Bytes × Bytes)) : SignedUrl :=
  { origin := signer.gatewayBase.origin
    path := lit "/xorb/" ++ hex
    query := formSerialize pairs }

def mintV1 (hmac : Hmac) (signer : UrlSigner) (xorbHash : Hash) (range : Option Segment)
    (kid : Uuid) (nowUnix : UInt64) : SignedUrl :=
  let exp := saturatingAdd nowUnix signer.defaultTtlSecs
  let hex := digestToHex xorbHash
  let sig := signWith hmac signer.keyCurrent (canonicalString canonicalVersion hex exp range kid)
  let pairs := [(lit "exp", decimal exp.toNat), (lit "kid", kid.text), (lit "sig", sig)]
  match range with
  | some seg => signer.gatewayUrl hex (pairs ++ [(lit "r", segmentText seg)])
  | none => signer.gatewayUrl hex pairs

/-- `mint_v1_multi_range`; `none` is the panic on an empty list. -/
def mintV1MultiRange (hmac : Hmac) (signer : UrlSigner) (xorbHash : Hash)
    (segments : List Segment) (kid : Uuid) (nowUnix : UInt64) : Option SignedUrl :=
  if segments.isEmpty then
    none
  else
    let exp := saturatingAdd nowUnix signer.defaultTtlSecs
    let hex := digestToHex xorbHash
    let rStr := segmentsText segments
    let sig := signWith hmac signer.keyCurrent
      (canonicalStringRaw canonicalVersion hex exp rStr kid)
    some (signer.gatewayUrl hex
      [(lit "exp", decimal exp.toNat), (lit "kid", kid.text), (lit "sig", sig), (lit "r", rStr)])

end UrlSigner

/-! ## Verifying -/

/-- The readers of the crates `url`, `base64` and `uuid`. -/
structure UrlCrates where
  /-- `Url::query_pairs` of a query. -/
  queryPairs : Bytes → List (Bytes × Bytes)
  /-- `URL_SAFE_NO_PAD.decode`. -/
  base64Decode : Bytes → Option Bytes
  /-- `Uuid::parse_str`. -/
  uuidParse : Bytes → Option Uuid

/-- `str::parse::<u64>`: a leading plus sign is allowed. -/
def parseU64 (s : Bytes) : Option UInt64 :=
  match s with
  | 43 :: rest => parseUint64 rest
  | s => parseUint64 s

def parseRangeSegment (part : Bytes) : Option Segment :=
  match cutAt 45 part with
  | none => none
  | some (start, stop) => do
      let start ← parseU64 start
      let stop ← parseU64 stop
      if start > stop then none else some (start, stop)

def parseRangeSegments (s : Bytes) : Option (List Segment) :=
  if s.isEmpty then none else (s.splitOn 44).mapM parseRangeSegment

namespace UrlSigner

/-- The option slots the query parameters are collected in. -/
structure Slots where
  exp : Option UInt64
  kid : Option Uuid
  sig : Option Bytes
  rRaw : Option Bytes
  deriving DecidableEq, Repr

/-- The `match` on one query pair: a later pair overwrites an earlier one. -/
def collect (crates : UrlCrates) (slots : Slots) (pair : Bytes × Bytes) : Slots :=
  if pair.1 = lit "exp" then { slots with exp := parseU64 pair.2 }
  else if pair.1 = lit "kid" then { slots with kid := crates.uuidParse pair.2 }
  else if pair.1 = lit "sig" then { slots with sig := some pair.2 }
  else if pair.1 = lit "r" then { slots with rRaw := some pair.2 }
  else slots

def readQuery (crates : UrlCrates) (query : Bytes) : Except VerifyErr UrlRequest :=
  let slots := (crates.queryPairs query).foldl (collect crates) ⟨none, none, none, none⟩
  match slots.exp with
  | none => .error (.malformed "exp")
  | some exp =>
  match slots.kid with
  | none => .error (.malformed "kid")
  | some kid =>
  match slots.sig with
  | none => .error (.malformed "sig")
  | some sig =>
  match slots.rRaw with
  | none => .ok { exp := exp, kid := kid, sig := sig, ranges := [], rField := [] }
  | some s =>
      match parseRangeSegments s with
      | none => .error (.malformed "range")
      | some ranges => .ok { exp := exp, kid := kid, sig := sig, ranges := ranges, rField := s }

def isAsciiHexdigit (b : UInt8) : Bool :=
  (48 ≤ b && b ≤ 57) || (97 ≤ b && b ≤ 102) || (65 ≤ b && b ≤ 70)

def isAsciiUppercase (b : UInt8) : Bool :=
  65 ≤ b && b ≤ 90

def readPath (path : Bytes) : Except VerifyErr Bytes :=
  if (lit "/xorb/").isPrefixOf path then
    let hex := path.drop (lit "/xorb/").length
    if hex.length ≠ 64 ∨ ¬hex.all isAsciiHexdigit then
      .error (.malformed "xorb_hash_hex")
    else if hex.any isAsciiUppercase then
      .error (.malformed "xorb_hash_hex_case")
    else
      .ok hex
  else
    .error (.malformed "path_prefix")

def acceptedBy (hmac : Hmac) (signer : UrlSigner) (canonical provided : Bytes) : Option Bool :=
  if (hmac signer.keyCurrent canonical).1 = provided then
    some false
  else
    match signer.keyPrev with
    | none => none
    | some prev => if (hmac prev canonical).1 = provided then some true else none

/-- `verify` of a URL that parses to a path and a query. -/
def verify (crates : UrlCrates) (hmac : Hmac) (signer : UrlSigner) (path query : Bytes)
    (nowUnix : UInt64) : Except VerifyErr VerifyOk :=
  match readPath path with
  | .error e => .error e
  | .ok hex =>
  match readQuery crates query with
  | .error e => .error e
  | .ok req =>
      if nowUnix ≥ req.exp then
        .error .expired
      else
        let canonical := canonicalStringRaw canonicalVersion hex req.exp req.rField req.kid
        match crates.base64Decode req.sig with
        | none => .error (.malformed "sig_b64")
        | some provided =>
            match signer.acceptedBy hmac canonical provided with
            | none => .error .badSignature
            | some byPrev =>
                .ok
                  { xorbHashHex := hex
                    exp := req.exp
                    ranges := req.ranges
                    kid := req.kid
                    acceptedByPrevKey := byPrev }

end UrlSigner

/-! ## Conformance vectors -/

/-- The key of the vectors in `conformance/fixtures/signed_url_vectors.json`. -/
def vectorKey : SigningKey :=
  ⟨(List.range 32).map UInt8.ofNat, by decide⟩

def vectorKid : Uuid :=
  ⟨[1, 148, 94, 220, 95, 10, 113, 163, 156, 130, 58, 0, 0, 0, 0, 1], by decide⟩

/-- The hash whose text is `eea25d6ee393ccae385820daed127b96ef0ea034dfb7cf6da3a950ce334b7632`. -/
def vectorHash : Hash :=
  ⟨[174, 204, 147, 227, 110, 93, 162, 238, 150, 123, 18, 237, 218, 32, 88, 56,
    109, 207, 183, 223, 52, 160, 14, 239, 50, 118, 75, 51, 206, 80, 169, 163], by decide⟩

def vectorSigner : UrlSigner :=
  { keyCurrent := vectorKey
    keyPrev := none
    gatewayBase := { origin := lit "http://127.0.0.1:9090", path := [] }
    defaultTtlSecs := 7200 }

def rangeTag : Hash :=
  ⟨[16, 250, 89, 156, 114, 4, 77, 126, 155, 254, 244, 77, 178, 32, 76, 10,
    72, 60, 214, 101, 57, 252, 170, 95, 134, 227, 245, 7, 96, 50, 100, 247], by decide⟩

def rangeCanonical : Bytes :=
  lit "v1\neea25d6ee393ccae385820daed127b96ef0ea034dfb7cf6da3a950ce334b7632\n2000000000\n" ++
    lit "4096-8191\n01945edc-5f0a-71a3-9c82-3a0000000001"

/-- HMAC-SHA256 on the message of the vector `v1_with_range`. -/
def rangeHmac : Hmac := fun key message =>
  if key = vectorKey ∧ message = rangeCanonical then rangeTag else Hash.fill 0

end Core
end OpenWeights
