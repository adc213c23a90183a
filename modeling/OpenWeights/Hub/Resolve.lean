import OpenWeights.Hub.Commits

/-!
# Resolve — what the hub tells about a revision

Model of `build_model_info`, `model_info`, `model_info_rev`, `resolve_lookup`, `resolve_head` and
`resolve_get` in `openweights-cas-core/src/handlers/hfapi.rs`.  They only read, so each is a function
of the database.  `viewer` is what `optional_viewer_id` made of the request.  The download counters of
`ModelInfo` are left out.

A revision is `main` or the id that `commit_oid_for` makes of a commit; the latter is found by making
the ids of all commits again.
-/

namespace OpenWeights
namespace Hub

open Lib Db

/-! ## Revisions -/

/-- `to_lowercase`; other letters do not turn into hexadecimal digits. -/
def toLowercase (s : Bytes) : Bytes :=
  s.map fun c => if 65 ≤ c ∧ c ≤ 90 then c + 32 else c

def findCommit (x : HubCrates) (db : HubDatabase) (repoId : Int) (revision : Bytes) : Option Int :=
  (db.commitIds repoId).find? fun id => commitOidFor x id = toLowercase revision

/-! ## Model info -/

structure LfsSibling where
  size : Int
  sha256 : Bytes
  pointerSize : Int
  deriving DecidableEq, Repr

structure ModelSibling where
  rfilename : Bytes
  size : Int
  blobId : Option Bytes
  lfs : Option LfsSibling
  deriving DecidableEq, Repr

structure ModelInfo where
  id : Bytes
  author : Bytes
  sha : Bytes
  lastModified : Bytes
  isPrivate : Bool
  siblings : List ModelSibling
  createdAt : Bytes
  deriving DecidableEq, Repr

def fileOid (row : RepoFileRow) : Bytes :=
  match row.xetHash, row.lfsOid with
  | some h, _ => hexEncode h
  | none, some o => hexEncode o
  | none, none => []

def sibling (path : Bytes) (row : RepoFileRow) : ModelSibling :=
  { rfilename := path
    size := row.sizeBytes
    blobId := some (fileOid row)
    lfs := some
      { size := row.sizeBytes
        sha256 := fileOid row
        pointerSize := 0 } }

/-- The join of `repo_refs`, `repo_commits` and `repos` in `build_model_info`. -/
def headCommit (db : HubDatabase) (repoId : Int) (revision : Bytes) :
    Option (Int × CommitRow × RepoRow) := do
  let commitId ← db.repoRefs.find (repoId, revision)
  let c ← db.repoCommits.find commitId
  let r ← db.repos.find repoId
  return (commitId, c, r)

def buildModelInfo (x : HubCrates) (db : HubDatabase) (owner repo : Bytes) (repoId : Int)
    (revision : Bytes) : Except AppError ModelInfo :=
  match headCommit db repoId revision with
  | none => .error .notFound
  | some (commitId, c, r) =>
      .ok
        { id := owner ++ lit "/" ++ repo
          author := owner
          sha := commitOidFor x commitId
          lastModified := x.formatTime c.committedAt
          isPrivate := r.visibility ≠ .public
          siblings := (db.manifest commitId).map fun f => sibling f.1 f.2
          createdAt := x.formatTime r.createdAt }

/-- The start of every reader: the repository, if the viewer may read it. -/
def readableRepo (db : HubDatabase) (owner repo : Bytes) (viewer : Option Int) :
    Except AppError Int := do
  let repoId ← findRepoId db owner repo
  requireReadable db repoId viewer
  return repoId

def modelInfo (x : HubCrates) (db : HubDatabase) (viewer : Option Int) (owner repo : Bytes) :
    Except AppError ModelInfo := do
  let repoId ← readableRepo db owner repo viewer
  buildModelInfo x db owner repo repoId mainRef

def modelInfoRev (x : HubCrates) (db : HubDatabase) (viewer : Option Int)
    (owner repo revision : Bytes) : Except AppError ModelInfo := do
  let repoId ← readableRepo db owner repo viewer
  if revision = mainRef then
    buildModelInfo x db owner repo repoId revision
  else
    match findCommit x db repoId revision with
    | none => .error .notFound
    -- The commit is found, and then the revision is looked up as the name of a branch.
    | some _ => buildModelInfo x db owner repo repoId revision

/-! ## Resolving a path -/

inductive ResolvedBackend
  | lfs (oid : Bytes)
  | xet (xetHash : Bytes)
  deriving DecidableEq, Repr

structure ResolvedInfo where
  size : Int
  oidHex : Bytes
  commitSha : Bytes
  backend : ResolvedBackend
  repoId : Int
  deriving DecidableEq, Repr

/-- `format!("{:040x}", _)` of an `i64`. -/
def paddedHex (n : Int) : Bytes :=
  hexEncode (List.replicate 12 0 ++ putBeUint64 (UInt64.ofInt n))

def revisionFile (x : HubCrates) (db : HubDatabase) (repoId : Int) (revision filePath : Bytes) :
    Except AppError (Option RepoFileRow) :=
  if revision = mainRef then
    .ok ((db.repoRefs.find (repoId, mainRef)).bind fun commitId =>
      db.repoFiles.find (commitId, filePath))
  else
    match findCommit x db repoId revision with
    | none => .error .notFound
    | some commitId => .ok (db.repoFiles.find (commitId, filePath))

def backendOf (row : RepoFileRow) : Option ResolvedBackend :=
  match row.xetHash, row.lfsOid with
  | some h, _ => some (.xet h)
  | none, some o => some (.lfs o)
  | none, none => none

def resolveLookup (x : HubCrates) (db : HubDatabase) (viewer : Option Int)
    (owner repo revision filePath : Bytes) : Except AppError ResolvedInfo := do
  let repoId ← readableRepo db owner repo viewer
  let row ← revisionFile x db repoId revision filePath
  let headCommitId := (db.repoRefs.find (repoId, mainRef)).getD 0
  match row with
  | none => .error .notFound
  | some row =>
      match backendOf row with
      | none => .error .notFound
      | some backend =>
          .ok
            { size := row.sizeBytes
              oidHex := fileOid row
              -- The head of `main`, whatever the revision is, and not as `commit_oid_for` has it.
              commitSha := paddedHex headCommitId
              backend := backend
              repoId := repoId }

structure HubConfig where
  casPublicUrl : Bytes
  /-- `OPENWEIGHTS_GATEWAY_READS=true`. -/
  gatewayReads : Bool

/-- `cas_public_url` without the slashes at its end. -/
def HubConfig.base (cfg : HubConfig) : Bytes :=
  (cfg.casPublicUrl.reverse.dropWhile fun c => c = 47).reverse

structure XetHeaders where
  xetHash : Option Bytes
  refreshRoute : Option Bytes
  deriving DecidableEq, Repr

def xetResolveHeaders (x : HubCrates) (cfg : HubConfig) (owner repo revision : Bytes)
    (info : ResolvedInfo) : XetHeaders :=
  match info.backend with
  | .lfs _ => ⟨none, none⟩
  | .xet _ =>
      if cfg.gatewayReads then
        { xetHash := x.headerValue info.oidHex
          refreshRoute := x.headerValue (cfg.base ++ lit "/api/models/" ++ owner ++ lit "/" ++ repo ++
            lit "/xet-read-token/" ++ revision) }
      else
        ⟨none, none⟩

/-- The answer of `resolve_head`. -/
structure HeadResponse where
  contentLength : Bytes
  linkedSize : Bytes
  etag : Bytes
  repoCommit : Bytes
  linkedEtag : Bytes
  xet : XetHeaders
  deriving DecidableEq, Repr

def resolveHead (x : HubCrates) (cfg : HubConfig) (db : HubDatabase) (viewer : Option Int)
    (owner repo revision filePath : Bytes) : Except AppError HeadResponse := do
  let info ← resolveLookup x db viewer owner repo revision filePath
  return {
    contentLength := formatInt info.size
    linkedSize := formatInt info.size
    etag := lit "\"" ++ info.oidHex ++ lit "\""
    repoCommit := info.commitSha
    linkedEtag := lit "sha256:" ++ info.oidHex
    xet := xetResolveHeaders x cfg owner repo revision info }

/-- The answer of `resolve_get`, a redirect. -/
structure GetResponse where
  location : Bytes
  linkedSize : Bytes
  linkedEtag : Bytes
  xet : XetHeaders
  deriving DecidableEq, Repr

def redirectTo (cfg : HubConfig) (info : ResolvedInfo) : Bytes :=
  match info.backend with
  | .lfs oid =>
      cfg.base ++ lit "/lfs/objects/" ++ hexEncode oid ++ lit "?r=" ++ formatInt info.repoId
  | .xet xetHash =>
      cfg.base ++ lit "/xet/files/" ++ hexEncode xetHash ++ lit "?r=" ++ formatInt info.repoId

def resolveGet (x : HubCrates) (cfg : HubConfig) (db : HubDatabase) (viewer : Option Int)
    (owner repo revision filePath : Bytes) : Except AppError GetResponse := do
  let info ← resolveLookup x db viewer owner repo revision filePath
  return {
    location := redirectTo cfg info
    linkedSize := formatInt info.size
    linkedEtag := lit "sha256:" ++ info.oidHex
    xet := xetResolveHeaders x cfg owner repo revision info }

end Hub
end OpenWeights
