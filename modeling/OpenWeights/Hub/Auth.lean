import OpenWeights.Hub.Commits

/-!
# Auth — who a request comes from

Model of `openweights-cas-core/src/auth.rs`, `xet_jwt.rs` and `scopes.rs`, of `create_key` and
`revoke_key` in `handlers/admin/keys.rs`, and of the token exchange and `optional_viewer_id` in
`handlers/hfapi.rs`.

A request carries an opaque key or a token.  A key is looked up by its digest, first in a cache of
this process and then in `api_keys`; a token is read, and what else is asked of it depends on who
issued it.  Time is counted in microseconds.  HMAC-SHA256, SHA-256 and `serde_json` are third-party
and come in as `AuthCrates`.
-/

namespace OpenWeights
namespace Hub

open Lib Db

/-! ## Scopes -/

def scopeUpload : UInt8 := 0

def scopeDownload : UInt8 := 1

def scopeAdmin : UInt8 := 2

def scopeAny : UInt8 := 255

def ApiKeyScope.fromU8 (v : UInt8) : Option ApiKeyScope :=
  if v = scopeUpload then some .upload
  else if v = scopeDownload then some .download
  else if v = scopeAdmin then some .admin
  else none

/-- The scope check, the same for keys and for tokens. -/
def checkScope (scope : UInt8) (granted : List ApiKeyScope) : Except AppError Unit :=
  if scope = scopeAny then
    .ok ()
  else
    match ApiKeyScope.fromU8 scope with
    | none => .error .forbidden
    | some required => if required ∈ granted then .ok () else .error .forbidden

/-! ## Tokens -/

structure XetJwtClaims where
  repoId : Bytes
  userId : Bytes
  access : Bytes
  iat : Int
  exp : Int
  iss : Bytes
  deriving DecidableEq, Repr

def XetJwtClaims.scopes (c : XetJwtClaims) : List ApiKeyScope :=
  if c.access = lit "WRITE" then [.upload, .download]
  else if c.access = lit "READ" then [.download]
  else []

inductive XetJwtError
  | malformed
  | payloadNotBase64
  | payloadNotJson
  | wrongIssuer
  | expired
  | issuedInFuture
  | badSignature
  deriving DecidableEq, Repr

structure AuthCrates where
  sha256 : Bytes → Hash
  /-- HMAC-SHA256 with a key of any length. -/
  hmacSha256 : Bytes → Bytes → Hash
  /-- `serde_json::from_slice`. -/
  claimsFromSlice : Bytes → Option XetJwtClaims
  /-- `serde_json::to_vec`. -/
  claimsToVec : XetJwtClaims → Bytes
  /-- `str::parse::<HeaderValue>`. -/
  headerValue : Bytes → Option Bytes

/-- `B64URL.decode`: only what `B64URL.encode` writes, without padding and stray bits. -/
def b64UrlDecode (s : Bytes) : Option Bytes :=
  (base64UrlDecode s).filter fun bytes => base64UrlEncode bytes = s

def openweightsIssuer : Bytes := lit "https://hf.example.com"

def expectedIssuers : List Bytes := [lit "https://huggingface.co", openweightsIssuer]

def maxClockSkewSecs : Int := 60

/-- A second of the clock. -/
def second : Nat := 1000000

def asSecs (now : Nat) : Int := (now / second : Nat)

def decodeAndValidate (x : AuthCrates) (now : Nat) (token : Bytes) :
    Except XetJwtError XetJwtClaims :=
  match token.splitOn 46 with
  | [_, payload, _] =>
      match b64UrlDecode payload with
      | none => .error .payloadNotBase64
      | some payloadBytes =>
          match x.claimsFromSlice payloadBytes with
          | none => .error .payloadNotJson
          | some claims =>
              if claims.iss ∉ expectedIssuers then .error .wrongIssuer
              else if claims.exp < asSecs now then .error .expired
              else if asSecs now + maxClockSkewSecs < claims.iat then .error .issuedInFuture
              else .ok claims
  | _ => .error .malformed

def verifyOpenweightsSignature (x : AuthCrates) (token signingKey : Bytes) :
    Except XetJwtError Unit :=
  if signingKey = [] then
    .error .badSignature
  else
    match token.splitOn 46 with
    | [header, payload, sig] =>
        match b64UrlDecode sig with
        | none => .error .badSignature
        | some expectedSig =>
            if expectedSig = (x.hmacSha256 signingKey (header ++ lit "." ++ payload)).1 then .ok ()
            else .error .badSignature
    | _ => .error .malformed

inductive OpenWeightsAccess
  | write
  | read
  deriving DecidableEq, Repr

def OpenWeightsAccess.text : OpenWeightsAccess → Bytes
  | .write => lit "WRITE"
  | .read => lit "READ"

def mintedClaims (repoId userIdStr : Bytes) (access : OpenWeightsAccess) (ttlSecs now : Nat) :
    XetJwtClaims :=
  { repoId := repoId
    userId := userIdStr
    access := access.text
    iat := asSecs now
    exp := asSecs now + ttlSecs
    iss := openweightsIssuer }

def mintOpenweightsToken (x : AuthCrates) (signingKey : Bytes) (claims : XetJwtClaims) : Bytes :=
  let header := base64UrlEncode (lit "\x7b\"alg\":\"HS256\"\x7d")
  let signingInput := header ++ lit "." ++ base64UrlEncode (x.claimsToVec claims)
  signingInput ++ lit "." ++ base64UrlEncode (x.hmacSha256 signingKey signingInput).1

/-- What the model relies on in `serde_json`: claims that are written are read back. -/
structure AuthCrates.Lawful (x : AuthCrates) : Prop where
  claimsFromSlice_toVec : ∀ c, x.claimsFromSlice (x.claimsToVec c) = some c

section Minted

variable {x : AuthCrates} {signingKey token : Bytes} {claims claims' : XetJwtClaims} {now : Nat}

@[simp] theorem b64UrlDecode_base64UrlEncode (bytes : Bytes) :
    b64UrlDecode (base64UrlEncode bytes) = some bytes := by
  simp [b64UrlDecode, Option.filter]

/-- What is true of the claims that pass. -/
theorem of_decodeAndValidate (h : decodeAndValidate x now token = .ok claims) :
    claims.iss ∈ expectedIssuers ∧ asSecs now ≤ claims.exp := by
  unfold decodeAndValidate at h
  split at h
  · split at h
    · cases h
    · split at h
      · cases h
      · split at h
        · cases h
        · rename_i hiss
          split at h
          · cases h
          · rename_i hexp
            split at h
            · cases h
            · cases h
              exact ⟨not_not.1 hiss, not_lt.1 hexp⟩
  · cases h

/-- A minted token falls into the segments it was made of. -/
theorem splitOn_mintOpenweightsToken (x : AuthCrates) (signingKey : Bytes) (claims : XetJwtClaims) :
    ∃ header : Bytes, (mintOpenweightsToken x signingKey claims).splitOn 46 =
      [header, base64UrlEncode (x.claimsToVec claims),
        base64UrlEncode (x.hmacSha256 signingKey
          (header ++ lit "." ++ base64UrlEncode (x.claimsToVec claims))).1] := by
  refine ⟨base64UrlEncode (lit "\x7b\"alg\":\"HS256\"\x7d"), ?_⟩
  have hdot : lit "." = [46] := by decide
  have hjoin (a b c : Bytes) : a ++ [46] ++ b ++ [46] ++ c = [46].intercalate [a, b, c] := by
    simp [List.intercalate]
  rw [mintOpenweightsToken, hdot, hjoin]
  refine List.splitOn_intercalate 46 ?_ (by simp)
  simp only [List.mem_cons, List.not_mem_nil, or_false, forall_eq_or_imp, forall_eq]
  exact ⟨dot_not_mem_base64UrlEncode _, dot_not_mem_base64UrlEncode _,
    dot_not_mem_base64UrlEncode _⟩

/-- The claims of a minted token are those it was minted with. -/
theorem decodeAndValidate_mint (hx : x.Lawful) :
    decodeAndValidate x now (mintOpenweightsToken x signingKey claims) =
      if claims.iss ∉ expectedIssuers then .error .wrongIssuer
      else if claims.exp < asSecs now then .error .expired
      else if asSecs now + maxClockSkewSecs < claims.iat then .error .issuedInFuture
      else .ok claims := by
  obtain ⟨header, hsplit⟩ := splitOn_mintOpenweightsToken x signingKey claims
  simp only [decodeAndValidate, hsplit, b64UrlDecode_base64UrlEncode, hx.claimsFromSlice_toVec]

theorem eq_of_decodeAndValidate_mint (hx : x.Lawful)
    (h : decodeAndValidate x now (mintOpenweightsToken x signingKey claims) = .ok claims') :
    claims' = claims := by
  rw [decodeAndValidate_mint hx] at h
  split at h
  · cases h
  · split at h
    · cases h
    · split at h
      · cases h
      · exact (Except.ok.inj h).symm

/-- A minted token carries the server's signature. -/
theorem verifyOpenweightsSignature_mint (hkey : signingKey ≠ []) :
    verifyOpenweightsSignature x (mintOpenweightsToken x signingKey claims) signingKey = .ok () := by
  obtain ⟨header, hsplit⟩ := splitOn_mintOpenweightsToken x signingKey claims
  simp only [verifyOpenweightsSignature, if_neg hkey, hsplit, b64UrlDecode_base64UrlEncode, if_true]

end Minted

/-! ## Statements -/

namespace HubDatabase

/-- `SELECT ... FROM api_keys WHERE key_hash = $1 AND revoked_at IS NULL`. -/
def activeKey (db : HubDatabase) (hash : Hash) : Option (Uuid × ApiKeyRow) :=
  db.apiKeys.rows.find? fun r => decide (r.2.keyHash = hash) && decide (r.2.revokedAt = none)

def keyOfHash (db : HubDatabase) (hash : Hash) : Option (Uuid × ApiKeyRow) :=
  db.apiKeys.rows.find? fun r => decide (r.2.keyHash = hash)

def insertKey (db : HubDatabase) (id : Uuid) (row : ApiKeyRow) : Option HubDatabase :=
  if db.keyOfHash row.keyHash = none ∧ db.apiKeys.find id = none ∧
      db.users.find row.userId ≠ none then
    some { db with apiKeys := db.apiKeys.insertNew id row }
  else
    none

def touchLastUsed (db : HubDatabase) (keyId : Uuid) (now : Nat) : HubDatabase :=
  { db with apiKeys := db.apiKeys.update keyId fun r => { r with lastUsedAt := some now } }

def loginTaken (db : HubDatabase) (id : Int) (login : Bytes) : Bool :=
  db.users.rows.any fun r => decide (r.1 ≠ id) && decide (r.2.githubLogin = login)

def hfUser (db : HubDatabase) (hfUserId : Bytes) : Option Int :=
  (db.users.rows.find? fun r => decide (r.2.hfUserId = some hfUserId)).map Prod.fst

def syntheticLabel : Bytes := lit "hf-jwt-synthetic"

/-- What the keys of a user are ordered by: how many scopes, then how recently used, `NULL` last. -/
def keyRank (row : ApiKeyRow) : Nat × Nat :=
  (row.scopes.length, match row.lastUsedAt with | none => 0 | some t => t + 1)

/-- The active keys of a user that no other goes before.  A key without a label is none of them,
since `label != 'hf-jwt-synthetic'` is `NULL` of it. -/
def widestKeys (db : HubDatabase) (userId : Int) : List Uuid :=
  let keys := db.apiKeys.rows.filter fun r =>
    decide (r.2.userId = userId) && decide (r.2.revokedAt = none) &&
      r.2.label.any fun l => decide (l ≠ syntheticLabel)
  let precedes := fun a b : Nat × Nat => decide (b.1 < a.1 ∨ b.1 = a.1 ∧ b.2 < a.2)
  (keys.filter fun r => keys.all fun r' => !precedes (keyRank r'.2) (keyRank r.2)).map Prod.fst

end HubDatabase

def hfUserIdToI64 (x : AuthCrates) (hfUserId : Bytes) : Int :=
  (beUint64 ((x.sha256 hfUserId).1.take 8) &&& 0x7FFFFFFFFFFFFFFF).toNat

/-- `upsert_hf_user`; `none` where a constraint is violated. -/
def upsertHfUser (x : AuthCrates) (db : HubDatabase) (hfUserId : Bytes) :
    Option (Int × HubDatabase) :=
  let login := lit "hf:" ++ hfUserId
  match db.hfUser hfUserId with
  | some id =>
      if db.loginTaken id login then
        none
      else
        let users := db.users.update id fun r => { r with githubLogin := login }
        some (id, { db with users := users })
  | none =>
      let id := hfUserIdToI64 x hfUserId
      if db.users.find id = none ∧ db.loginTaken id login = false then
        some (id, { db with users := db.users.insertNew id ⟨login, some hfUserId⟩ })
      else
        none

/-- `upsert_synthetic_api_key`; `fresh` is what `gen_random_uuid` answers with. -/
def upsertSyntheticApiKey (x : AuthCrates) (db : HubDatabase) (now : Nat) (fresh : Uuid)
    (userId : Int) (hfUserId : Bytes) : Option (Uuid × HubDatabase) :=
  let hash := x.sha256 (lit "hf-jwt:" ++ hfUserId)
  match db.keyOfHash hash with
  | some (id, _) => some (id, db.touchLastUsed id now)
  | none =>
      let row : ApiKeyRow :=
        { userId := userId
          keyHash := hash
          scopes := [.upload, .download]
          label := some HubDatabase.syntheticLabel
          revokedAt := none
          lastUsedAt := none }
      (db.insertKey fresh row).map fun db => (fresh, db)

/-! ## Keys -/

inductive ConsoleScope
  | read
  | write
  | readWrite
  | admin
  deriving DecidableEq, Repr

def ConsoleScope.toDbScopes : ConsoleScope → List ApiKeyScope
  | .read => [.download]
  | .write => [.upload]
  | .readWrite => [.download, .upload]
  | .admin => [.admin]

structure CreateKeyResponse where
  id : Uuid
  name : Bytes
  scope : ConsoleScope
  maskedPrefix : Bytes
  plaintextKey : Bytes
  createdAt : Nat
  deriving DecidableEq, Repr

/-- `create_key`; `raw` are the 32 random bytes. -/
def createKey (x : AuthCrates) (db : HubDatabase) (userId : Int) (name : Bytes)
    (scope : ConsoleScope) (raw : Hash) (fresh : Uuid) (now : Nat) :
    Except AppError CreateKeyResponse × HubDatabase :=
  let name := trimSpace name
  if name = [] then
    (.error (.badRequest "name must not be empty"), db)
  else if 80 < name.length then
    (.error (.badRequest "name must be <= 80 chars"), db)
  else
    let plaintext := base64UrlEncode raw.1
    let row : ApiKeyRow :=
      { userId := userId
        keyHash := x.sha256 plaintext
        scopes := scope.toDbScopes
        label := some name
        revokedAt := none
        lastUsedAt := none }
    match db.insertKey fresh row with
    | none => (.error .db, db)
    | some db =>
        (.ok
          { id := fresh
            name := name
            scope := scope
            maskedPrefix := plaintext.take 8 ++ lit "..."
            plaintextKey := plaintext
            createdAt := now }, db)

def revokeKey (db : HubDatabase) (userId : Int) (id : Uuid) (now : Nat) :
    Except AppError Unit × HubDatabase :=
  match db.apiKeys.find id with
  | none => (.error .notFound, db)
  | some row =>
      if row.userId = userId ∧ row.revokedAt = none then
        let apiKeys := db.apiKeys.update id fun r => { r with revokedAt := some now }
        (.ok (), { db with apiKeys := apiKeys })
      else
        (.error .notFound, db)

/-! ## The key cache -/

def keyCacheTtl : Nat := 5 * second

def keyCacheCapacity : Nat := 10000

structure ActiveKey where
  id : Uuid
  userId : Int
  scopes : List ApiKeyScope
  loadedAt : Nat
  deriving DecidableEq, Repr

def ActiveKey.ofRow (row : Uuid × ApiKeyRow) (now : Nat) : ActiveKey :=
  { id := row.1
    userId := row.2.userId
    scopes := row.2.scopes
    loadedAt := now }

/-- `KeyCache`: the entries, the most recently used first. -/
abbrev KeyCache := List (Hash × ActiveKey)

namespace KeyCache

def others (c : KeyCache) (hash : Hash) : KeyCache :=
  c.filter fun e => e.1 ≠ hash

/-- `KeyCache::get`.  An entry that is found moves to the front; an old one is dropped. -/
def get (c : KeyCache) (now : Nat) (hash : Hash) : Option ActiveKey × KeyCache :=
  match c.lookup hash with
  | none => (none, c)
  | some key =>
      if keyCacheTtl < now - key.loadedAt then (none, c.others hash)
      else (some key, (hash, key) :: c.others hash)

def put (c : KeyCache) (hash : Hash) (key : ActiveKey) : KeyCache :=
  ((hash, key) :: c.others hash).take keyCacheCapacity

end KeyCache

/-! ## The extractor -/

/-- Which key `LIMIT 1` keeps of those that come first. -/
structure KeyPick where
  pick : List Uuid → Option Uuid
  mem : ∀ {l k}, pick l = some k → k ∈ l
  isSome : ∀ {l}, l ≠ [] → (pick l).isSome

def KeyPick.head : KeyPick where
  pick := List.head?
  mem := List.mem_of_mem_head?
  isSome h := List.isSome_head?.2 h

/-- What the handlers know of the server: its signing key, its address, its database. -/
structure AuthConfig where
  xetJwtSigningKey : Bytes
  casPublicUrl : Bytes
  keyPick : KeyPick

section Extractor

variable (x : AuthCrates) (cfg : AuthConfig)

def ownAccount (db : HubDatabase) (now : Nat) (fresh : Uuid) (token : Bytes)
    (claims : XetJwtClaims) : Except AppError (Int × Uuid) × HubDatabase :=
  match verifyOpenweightsSignature x token cfg.xetJwtSigningKey with
  | .error _ => (.error .unauthenticated, db)
  | .ok () =>
      match parseInt64 claims.userId with
      | none => (.error .unauthenticated, db)
      | some uid =>
          if db.users.find uid = none then
            (.error .unauthenticated, db)
          else
            match cfg.keyPick.pick (db.widestKeys uid) with
            | some keyId => (.ok (uid, keyId), db)
            | none =>
                match upsertSyntheticApiKey x db now fresh uid
                    (lit "openweights:" ++ formatInt uid) with
                | none => (.error (.other "synthetic api_key upsert"), db)
                | some (keyId, db) => (.ok (uid, keyId), db)

def hfAccount (db : HubDatabase) (now : Nat) (fresh : Uuid) (claims : XetJwtClaims) :
    Except AppError (Int × Uuid) × HubDatabase :=
  match upsertHfUser x db claims.userId with
  | none => (.error (.other "xet jwt user upsert"), db)
  | some (uid, db) =>
      match upsertSyntheticApiKey x db now fresh uid claims.userId with
      | none => (.error (.other "xet jwt synthetic api_key upsert"), db)
      | some (keyId, db) => (.ok (uid, keyId), db)

def accountOf (db : HubDatabase) (now : Nat) (fresh : Uuid) (token : Bytes)
    (claims : XetJwtClaims) : Except AppError (Int × Uuid) × HubDatabase :=
  if claims.iss = openweightsIssuer then ownAccount x cfg db now fresh token claims
  else hfAccount x db now fresh claims

/-- `authenticate_xet_jwt`.  What the database says of an error is left out of the texts. -/
def authenticateXetJwt (db : HubDatabase) (now : Nat) (fresh : Uuid) (scope : UInt8)
    (token : Bytes) : Except AppError AuthContext × HubDatabase :=
  match decodeAndValidate x now token with
  | .error _ => (.error .unauthenticated, db)
  | .ok claims =>
      match checkScope scope claims.scopes with
      | .error e => (.error e, db)
      | .ok () =>
          match accountOf x cfg db now fresh token claims with
          | (.error e, db) => (.error e, db)
          -- The scopes are those of the token, not those of the key.
          | (.ok (userId, apiKeyId), db) => (.ok ⟨apiKeyId, userId, claims.scopes⟩, db)

def looksLikeJwt (token : Bytes) : Bool :=
  match token.splitOn 46 with
  | [header, payload, _] => decide (lit "eyJ" <+: header) && decide (payload ≠ [])
  | _ => false

/-- The headers that carry a credential, as far as they are text. -/
structure AuthHeaders where
  authorization : Option Bytes
  xetAccessToken : Option Bytes
  deriving DecidableEq, Repr

/-- What follows `Bearer `. -/
def AuthHeaders.bearer (h : AuthHeaders) : Option Bytes :=
  h.authorization.bind fun s => if lit "Bearer " <+: s then some (s.drop 7) else none

/-- What a request is authenticated by: a key, known by its digest, or a token. -/
inductive Credential
  | key (hash : Hash)
  | token (text : Bytes)
  deriving DecidableEq, Repr

def credentialOf (h : AuthHeaders) : Option Credential :=
  match h.bearer with
  | none => h.xetAccessToken.map .token
  | some plaintext =>
      if looksLikeJwt plaintext then some (.token plaintext) else some (.key (x.sha256 plaintext))

/-- The end of the extractor for a key. -/
def admitKey (scope : UInt8) (key : ActiveKey) : Except AppError AuthContext :=
  match checkScope scope key.scopes with
  | .error e => .error e
  | .ok () => .ok ⟨key.id, key.userId, key.scopes⟩

/-- How far the extractor gets without the statement that looks for a key. -/
inductive Begun
  | done (answer : Except AppError AuthContext) (db : HubDatabase) (cache : KeyCache)
  | lookUp (hash : Hash) (cache : KeyCache)

/-- `from_request_parts` up to that statement. -/
def beginAuth (db : HubDatabase) (cache : KeyCache) (now : Nat) (fresh : Uuid) (scope : UInt8)
    (headers : AuthHeaders) : Begun :=
  match credentialOf x headers with
  | none => .done (.error .unauthenticated) db cache
  | some (.token token) =>
      let answer := authenticateXetJwt x cfg db now fresh scope token
      .done answer.1 answer.2 cache
  | some (.key hash) =>
      match cache.get now hash with
      | (some key, cache) => .done (admitKey scope key) db cache
      | (none, cache) => .lookUp hash cache

/-- The extractor `AuthScoped`, at one moment. -/
def authScoped (db : HubDatabase) (cache : KeyCache) (now : Nat) (fresh : Uuid) (scope : UInt8)
    (headers : AuthHeaders) : Except AppError AuthContext × HubDatabase × KeyCache :=
  match beginAuth x cfg db cache now fresh scope headers with
  | .done answer db cache => (answer, db, cache)
  | .lookUp hash cache =>
      match db.activeKey hash with
      | none => (.error .unauthenticated, db, cache)
      | some row =>
          (admitKey scope (.ofRow row now), db, cache.put hash (.ofRow row now))

def optionalViewerId (db : HubDatabase) (now : Nat) (headers : AuthHeaders) : Option Int := do
  let plaintext ← headers.bearer
  if looksLikeJwt plaintext then
    let claims ← (decodeAndValidate x now plaintext).toOption
    parseInt64 claims.userId
  else
    let row ← db.activeKey (x.sha256 plaintext)
    return row.2.userId

/-! ## Token exchange -/

def writeTokenTtlSecs : Nat := 900

def readTokenTtlSecs : Nat := 3600

/-- The answer of `xet_token`: the body, and the headers that say the same. -/
structure XetTokenResponse where
  casUrl : Bytes
  accessToken : Bytes
  exp : Int
  xCasUrl : Bytes
  xAccessToken : Bytes
  xTokenExpiration : Bytes
  deriving DecidableEq, Repr

def xetToken (db : HubDatabase) (now : Nat) (ctx : AuthContext) (owner repo : Bytes)
    (access : OpenWeightsAccess) (ttl : Nat) : Except AppError XetTokenResponse :=
  if cfg.xetJwtSigningKey = [] then
    .error (.other "xet_jwt_signing_key not configured")
  else do
    let repoId ← findRepoId db owner repo
    match access with
    | .write => requireOwnership db repoId ctx.userId
    | .read => requireReadable db repoId (some ctx.userId)
    let claims := mintedClaims (owner ++ lit "/" ++ repo) (formatInt ctx.userId) access ttl now
    let token := mintOpenweightsToken x cfg.xetJwtSigningKey claims
    .ok
      { casUrl := cfg.casPublicUrl
        accessToken := token
        exp := claims.exp
        xCasUrl := (x.headerValue cfg.casPublicUrl).getD []
        xAccessToken := (x.headerValue token).getD []
        xTokenExpiration := formatInt claims.exp }

def OpenWeightsAccess.scope : OpenWeightsAccess → UInt8
  | .write => scopeUpload
  | .read => scopeDownload

def OpenWeightsAccess.ttl : OpenWeightsAccess → Nat
  | .write => writeTokenTtlSecs
  | .read => readTokenTtlSecs

/-- `xet_write_token`, after the extractor. -/
def xetWriteToken (db : HubDatabase) (now : Nat) (ctx : AuthContext) (owner repo : Bytes) :
    Except AppError XetTokenResponse :=
  xetToken x cfg db now ctx owner repo .write writeTokenTtlSecs

/-- `xet_read_token`, after the extractor. -/
def xetReadToken (db : HubDatabase) (now : Nat) (ctx : AuthContext) (owner repo : Bytes) :
    Except AppError XetTokenResponse :=
  xetToken x cfg db now ctx owner repo .read readTokenTtlSecs

end Extractor

end Hub
end OpenWeights
