import OpenWeights.Hub.Schema
import OpenWeights.Core.ShardParse

/-!
# Commits — `POST /api/models/{owner}/{repo}/commit/{ref}`

Model of `commit` in `openweights-cas-core/src/handlers/hfapi.rs`, with `create_repo` and the object
upload beside it.
A handler is a function of the database that answers and leaves a database; what it wrote before it
failed stays.  The statements of the transaction at its end take effect together.  The module
`Lineage` runs them one by one.

`serde_json`, `base64` and SHA-256 are third-party and come in as `HubCrates`.  A statement fails only
by a constraint here.
-/

namespace OpenWeights
namespace Hub

open Lib Db

/-! ## Request bodies -/

structure CommitHeader where
  summary : Option Bytes
  description : Option Bytes
  deriving DecidableEq, Repr

instance : Inhabited CommitHeader := ⟨⟨none, none⟩⟩

/-- `CommitFile`, the fields the handler reads. -/
structure CommitFile where
  path : Bytes
  content : Option Bytes
  oid : Option Bytes
  size : Option Int
  xetHash : Option Bytes
  deriving DecidableEq, Repr

structure HubCrates where
  sha256 : Bytes → Hash
  /-- `STANDARD.decode`. -/
  base64Decode : Bytes → Option Bytes
  /-- `serde_json::Value`. -/
  Json : Type
  fromSlice : Bytes → Option Json
  /-- The text under `key`, empty where there is none. -/
  key : Json → Bytes
  /-- What is under `value`, `Null` where there is nothing. -/
  value : Json → Json
  toHeader : Json → Option CommitHeader
  toFile : Json → Option CommitFile
  /-- `format("%Y-%m-%dT%H:%M:%S%.6fZ")`. -/
  formatTime : Nat → Bytes
  /-- `HeaderValue::from_str`. -/
  headerValue : Bytes → Option Bytes

def maxLfsInlineBytes : Nat := 500 * 1024 * 1024

def maxCommitBytes : Nat := maxLfsInlineBytes + maxLfsInlineBytes / 2 + 65536

/-- `u8::from_str_radix(_, 16)` of two characters: the first may be a plus sign. -/
def fromStrRadix16 (hi lo : UInt8) : Option UInt8 := do
  let l ← Core.toDigit16 lo
  if hi = 43 then
    return l
  else
    let h ← Core.toDigit16 hi
    return (h <<< 4) ||| l

def hexPairs : Bytes → Option Bytes
  | [] => some []
  | [_] => none
  | hi :: lo :: rest => do
      let byte ← fromStrRadix16 hi lo
      let out ← hexPairs rest
      return byte :: out

/-- `hex_decode`.  Where the slices of the loop would cut a character, it panics; the model answers
`none` there as it does for any other text outside of ASCII. -/
def hexDecode (s : Bytes) : Option Bytes :=
  hexPairs (if lit "sha256:" <+: s then s.drop 7 else s)

def digest (hex : String) : Hash :=
  ((hexDecode (lit hex)).bind HubDatabase.asHash).getD (Hash.fill 0)

/-- What the lines read so far amount to. -/
abbrev Parsed := CommitHeader × List CommitFile

def parseLine (x : HubCrates) (acc : Parsed) (line : Bytes) : Except AppError Parsed :=
  match x.fromSlice line with
  | none => .error (.badRequest "malformed_ndjson")
  | some v =>
      let key := x.key v
      if key = lit "header" then
        .ok ((x.toHeader (x.value v)).getD default, acc.2)
      else if key = lit "file" ∨ key = lit "lfsFile" ∨ key = lit "xetFile" then
        match x.toFile (x.value v) with
        | none => .error (.badRequest "malformed_file_entry")
        | some f => .ok (acc.1, acc.2 ++ [f])
      else
        -- `copyFile`, `deletedFile` and `deletedFolder` are skipped like any other key.
        .ok acc

def parseLines (x : HubCrates) : Parsed → List Bytes → Except AppError Parsed
  | acc, [] => .ok acc
  | acc, line :: rest =>
      match parseLine x acc line with
      | .error e => .error e
      | .ok acc => parseLines x acc rest

def parseBody (x : HubCrates) (raw : Bytes) : Except AppError Parsed :=
  parseLines x (default, []) ((raw.splitOn 10).filter fun l => l ≠ [])

/-! ## The file entries -/

structure CommitFileRow where
  path : Bytes
  xetHash : Option Bytes
  lfsOid : Option Bytes
  size : Int
  deriving DecidableEq, Repr

/-- Which row `LIMIT 1` keeps of those that come first. -/
structure LimitOne where
  pick : List Hash → Option Hash
  mem : ∀ {l h}, pick l = some h → h ∈ l
  isSome : ∀ {l}, l ≠ [] → (pick l).isSome

def LimitOne.head : LimitOne where
  pick := List.head?
  mem := List.mem_of_mem_head?
  isSome h := List.isSome_head?.2 h

section Stage

variable (x : HubCrates) (limit : LimitOne)

/-- Inline content: check its length, and store it under its digest. -/
def ingest (db : HubDatabase) (path decoded : Bytes) : CommitFileRow × HubDatabase :=
  (⟨path, none, some (x.sha256 decoded).1, decoded.length⟩,
    db.insertLfsObject (x.sha256 decoded).1 decoded)

/-- The body of the loop over the file entries.  An entry that is refused has written nothing. -/
def stageFile (db : HubDatabase) (f : CommitFile) : Except AppError (CommitFileRow × HubDatabase) :=
  match f.xetHash, f.oid, f.content with
  | some xh, _, _ =>
      match hexDecode xh with
      | none => .error (.badRequest "bad_xet_hash")
      | some bytes =>
          -- The declared size stands in for a xorb that is not there.
          match (db.xorbSize bytes).or f.size with
          | none => .error (.badRequest "xet_hash_not_uploaded")
          | some size => .ok (⟨f.path, some bytes, none, size⟩, db)
  | none, some oid, some inline =>
      match hexDecode oid with
      | none => .error (.badRequest "bad_oid")
      | some oidBytes =>
          match x.base64Decode inline with
          | none => .error (.badRequest "bad_inline_content")
          | some decoded =>
              if decoded.length > maxLfsInlineBytes then
                .error (.badRequest "lfs_object_too_large")
              else if oidBytes ≠ (x.sha256 decoded).1 then
                .error (.badRequest "inline_oid_mismatch")
              else
                .ok (ingest x db f.path decoded)
  | none, some oid, none =>
      match hexDecode oid with
      | none => .error (.badRequest "bad_oid")
      | some oidBytes =>
          match db.lfsSize oidBytes with
          | some size => .ok (⟨f.path, none, some oidBytes, size⟩, db)
          | none =>
              match f.size with
              | none => .error (.badRequest "missing_size")
              | some size =>
                  match limit.pick (db.newestFile oidBytes size) with
                  | some fileId => .ok (⟨f.path, some fileId.1, none, size⟩, db)
                  | none => .error (.badRequest "lfs_oid_not_uploaded")
  | none, none, some inline =>
      match x.base64Decode inline with
      | none => .error (.badRequest "bad_inline_content")
      | some decoded =>
          if decoded.length > maxLfsInlineBytes then
            .error (.badRequest "lfs_object_too_large")
          else
            .ok (ingest x db f.path decoded)
  | none, none, none => .error (.badRequest "file_entry_missing_backend")

def stageFiles : HubDatabase → List CommitFile → Except AppError (List CommitFileRow) × HubDatabase
  | db, [] => (.ok [], db)
  | db, f :: fs =>
      match stageFile x limit db f with
      | .error e => (.error e, db)
      | .ok (row, db) =>
          match stageFiles db fs with
          | (.error e, db) => (.error e, db)
          | (.ok rows, db) => (.ok (row :: rows), db)

end Stage

/-! ## Who may do what -/

def findRepoId (db : HubDatabase) (owner repo : Bytes) : Except AppError Int :=
  match db.repoOf owner repo with
  | none => .error .notFound
  | some repoId => .ok repoId

def requireOwnership (db : HubDatabase) (repoId userId : Int) : Except AppError Unit :=
  match db.repos.find repoId with
  | none => .error .notFound
  | some r => if r.ownerUserId = userId then .ok () else .error .forbidden

def requireReadable (db : HubDatabase) (repoId : Int) (viewerUserId : Option Int) :
    Except AppError Unit :=
  match db.repos.find repoId with
  | none => .error .notFound
  | some r =>
      if some r.ownerUserId = viewerUserId then .ok ()
      else if r.visibility = .public ∨ r.visibility = .unlisted then .ok ()
      else .error .notFound

/-! ## The transaction -/

def mainRef : Bytes := lit "main"

def commitMessage (header : CommitHeader) : Bytes :=
  (header.summary.or header.description).getD (lit "Upload via hf CLI")

def fileRows (commitId : Int) (rows : List CommitFileRow) : List ((Int × Bytes) × RepoFileRow) :=
  rows.map fun r => ((commitId, r.path), ⟨r.size, r.xetHash, r.lfsOid⟩)

/-- The transaction of `commit`.  A path that is listed twice violates the primary key of
`repo_files`, and the transaction is rolled back; the sequence has moved on. -/
def commitTx (db : HubDatabase) (repoId : Int) (ctx : AuthContext) (message : Bytes) (now : Nat)
    (rows : List CommitFileRow) : Except AppError Int × HubDatabase :=
  let parentId := db.repoRefs.find (repoId, mainRef)
  let commitId : Int := db.commitSeq + 1
  let db := { db with commitSeq := db.commitSeq + 1 }
  if (rows.map CommitFileRow.path).Nodup then
    let commit : CommitRow :=
      { repoId := repoId
        parentCommitId := parentId
        authorUserId := ctx.userId
        authorApiKeyId := ctx.apiKeyId
        message := message
        committedAt := now }
    (.ok commitId,
      { db with
        repoCommits := db.repoCommits.insertNew commitId commit
        repoFiles := db.repoFiles.insertAll (fileRows commitId rows)
        repoRefs := db.repoRefs.set (repoId, mainRef) commitId })
  else
    (.error .db, db)

/-! ## The handler -/

def commitOidFor (x : HubCrates) (commitId : Int) : Bytes :=
  hexEncode ((x.sha256 (lit "openweights:commit:" ++ putBeUint64 (UInt64.ofInt commitId))).1.take 20)

structure CommitCall where
  refName : Bytes
  owner : Bytes
  repo : Bytes
  ctx : AuthContext
  /-- The header `Host`, as far as it is text. -/
  host : Option Bytes
  /-- The header `X-Forwarded-Proto`, as far as it is text. -/
  forwardedProto : Option Bytes
  body : Bytes
  now : Nat
  deriving DecidableEq, Repr

structure CommitResp where
  success : Bool
  commitUrl : Bytes
  commitOid : Bytes
  deriving DecidableEq, Repr

def commitResp (x : HubCrates) (c : CommitCall) (commitId : Int) : CommitResp :=
  let oidStr := commitOidFor x commitId
  let host := c.host.getD (lit "localhost")
  let scheme := c.forwardedProto.getD
    (if lit "localhost" <+: host ∨ lit "127." <+: host then lit "http" else lit "https")
  { success := true
    commitUrl := scheme ++ lit "://" ++ host ++ lit "/" ++ c.owner ++ lit "/" ++ c.repo ++
      lit "/commit/" ++ oidStr
    commitOid := oidStr }

/-- The steps of `commit` before it looks at the file entries. -/
def admitCommit (x : HubCrates) (db : HubDatabase) (c : CommitCall) :
    Except AppError (Int × Parsed) :=
  if c.refName ≠ mainRef then
    .error (.badRequest "only_main_ref_in_v1")
  else do
    let repoId ← findRepoId db c.owner c.repo
    requireOwnership db repoId c.ctx.userId
    if c.body.length > maxCommitBytes then
      .error (.badRequest "commit_too_large")
    else
      let parsed ← parseBody x c.body
      .ok (repoId, parsed)

def commit (x : HubCrates) (limit : LimitOne) (db : HubDatabase) (c : CommitCall) :
    Except AppError CommitResp × HubDatabase :=
  match admitCommit x db c with
  | .error e => (.error e, db)
  | .ok (repoId, header, files) =>
      match stageFiles x limit db files with
      | (.error e, db) => (.error e, db)
      | (.ok rows, db) =>
          match commitTx db repoId c.ctx (commitMessage header) c.now rows with
          | (.error e, db) => (.error e, db)
          | (.ok commitId, db) => (.ok (commitResp x c commitId), db)

/-! ## Repositories -/

def isValidRepoName (name : Bytes) : Bool :=
  decide (name ≠ []) && decide (name.length ≤ 96) &&
    (name.all fun c =>
      decide (48 ≤ c ∧ c ≤ 57 ∨ 65 ≤ c ∧ c ≤ 90 ∨ 97 ≤ c ∧ c ≤ 122) ||
        decide (c = 45 ∨ c = 95 ∨ c = 46)) &&
    !decide (name.head? = some 46)

structure CreateRepoReq where
  name : Bytes
  organization : Option Bytes
  isPrivate : Bool
  deriving DecidableEq, Repr

structure CreateRepoResp where
  url : Bytes
  endpointUrl : Bytes
  name : Bytes
  deriving DecidableEq, Repr

/-- `create_repo`.  The organization is a label in the answer; the repository is the caller's. -/
def createRepo (db : HubDatabase) (ctx : AuthContext) (req : CreateRepoReq) (now : Nat) :
    Except AppError CreateRepoResp × HubDatabase :=
  match db.users.find ctx.userId with
  | none => (.error .db, db)
  | some caller =>
      let ownerLogin :=
        (req.organization.filter fun s => isValidRepoName s).getD caller.githubLogin
      if isValidRepoName req.name then
        let fullName := ownerLogin ++ lit "/" ++ req.name
        let answer : CreateRepoResp :=
          { url := fullName
            endpointUrl := lit "/api/models/" ++ fullName
            name := fullName }
        if db.repos.rows.any fun r =>
            decide (r.2.ownerUserId = ctx.userId) && decide (r.2.name = req.name) then
          (.ok answer, db)
        else
          let row : RepoRow :=
            { ownerUserId := ctx.userId
              name := req.name
              visibility := if req.isPrivate then .private else .public
              createdAt := now }
          (.ok answer,
            { db with
              repos := db.repos.insertNew (db.repoSeq + 1) row
              repoSeq := db.repoSeq + 1 })
      else
        (.error (.badRequest "invalid_repo_name"), db)

/-! ## Objects -/

def lfsUpload (x : HubCrates) (db : HubDatabase) (oidHex body : Bytes) :
    Except AppError Unit × HubDatabase :=
  if body.length > maxLfsInlineBytes then
    (.error (.badRequest "lfs_object_too_large"), db)
  else
    match hexDecode oidHex with
    | none => (.error (.badRequest "bad_oid"), db)
    | some expected =>
        if expected ≠ (x.sha256 body).1 then
          (.error (.badRequest "oid_mismatch"), db)
        else
          (.ok (), db.insertLfsObject expected body)

/-- `lfs_download`, up to the content it serves. -/
def lfsDownload (db : HubDatabase) (oidHex : Bytes) : Except AppError Bytes :=
  match hexDecode oidHex with
  | none => .error (.badRequest "bad_oid")
  | some oid =>
      match db.lfsObjects.find oid with
      | none => .error .notFound
      | some row => .ok row.content

end Hub
end OpenWeights
