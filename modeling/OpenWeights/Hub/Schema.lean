import OpenWeights.Db.Queries
import OpenWeights.Lib.Text

/-!
# Schema — the tables of the model hub

The tables of `cas/migrations/0008_model_repos.sql` as later migrations leave them (`0011` raises the
size of an inline object, `0013` drops the foreign key of `repo_files.xet_hash`), with `users` and
`api_keys` of `0001` and `0007`.  The tables of the CAS are those of `Db.Database`; the column
`registered_at` of `reconstruction_files`, which only the hub reads, stands beside them.

Text is a list of bytes, a timestamp is a number of microseconds.
-/

namespace OpenWeights
namespace Hub

open Lib Db

/-! ## Accounts -/

structure UserRow where
  githubLogin : Bytes
  hfUserId : Option Bytes
  deriving DecidableEq, Repr

inductive ApiKeyScope
  | upload
  | download
  | admin
  deriving DecidableEq, Repr

structure ApiKeyRow where
  userId : Int
  keyHash : Hash
  scopes : List ApiKeyScope
  label : Option Bytes
  revokedAt : Option Nat
  lastUsedAt : Option Nat
  deriving DecidableEq, Repr

/-! ## Repositories -/

inductive RepoVisibility
  | «public»
  | «private»
  | unlisted
  deriving DecidableEq, Repr

structure RepoRow where
  ownerUserId : Int
  name : Bytes
  visibility : RepoVisibility
  createdAt : Nat
  deriving DecidableEq, Repr

structure CommitRow where
  repoId : Int
  parentCommitId : Option Int
  authorUserId : Int
  authorApiKeyId : Uuid
  message : Bytes
  committedAt : Nat
  deriving DecidableEq, Repr

/-- The columns of `repo_files` beside its key, the commit and the path. -/
structure RepoFileRow where
  sizeBytes : Int
  xetHash : Option Bytes
  lfsOid : Option Bytes
  deriving DecidableEq, Repr

structure LfsRow where
  sizeBytes : Int
  content : Bytes
  deriving DecidableEq, Repr

structure HubDatabase where
  users : Table Int UserRow
  apiKeys : Table Uuid ApiKeyRow
  repos : Table Int RepoRow
  /-- The last value of the sequence behind `repos.id`. -/
  repoSeq : Nat
  repoCommits : Table Int CommitRow
  /-- The last value of the sequence behind `repo_commits.id`. -/
  commitSeq : Nat
  repoRefs : Table (Int × Bytes) Int
  repoFiles : Table (Int × Bytes) RepoFileRow
  lfsObjects : Table Bytes LfsRow
  cas : Database
  /-- `reconstruction_files.registered_at`. -/
  registeredAt : Table Hash Nat

/-- `AuthContext`: what a handler knows about its caller. -/
structure AuthContext where
  apiKeyId : Uuid
  userId : Int
  scopes : List ApiKeyScope
  deriving DecidableEq, Repr

/-- `AppError`, the variants the hub answers with. -/
inductive AppError
  | unauthenticated
  | forbidden
  | notFound
  | badRequest (message : String)
  | db
  | other (message : String)
  deriving DecidableEq, Repr

namespace HubDatabase

def empty : HubDatabase :=
  { users := .empty
    apiKeys := .empty
    repos := .empty
    repoSeq := 0
    repoCommits := .empty
    commitSeq := 0
    repoRefs := .empty
    repoFiles := .empty
    lfsObjects := .empty
    cas := .empty
    registeredAt := .empty }

/-! ## Statements -/

/-- A `BYTEA` parameter as a key of 32 bytes. -/
def asHash (bytes : Bytes) : Option Hash :=
  if h : bytes.length = 32 then some ⟨bytes, h⟩ else none

def repoOf (db : HubDatabase) (owner repo : Bytes) : Option Int :=
  (db.repos.rows.find? fun r =>
    decide ((db.users.find r.2.ownerUserId).map UserRow.githubLogin = some owner) &&
      decide (r.2.name = repo)).map Prod.fst

def xorbSize (db : HubDatabase) (xorbHash : Bytes) : Option Int :=
  (asHash xorbHash).bind fun h => (db.cas.xorbs.find h).map fun r => (r.sizeBytes : Int)

/-- `INSERT INTO lfs_objects ... ON CONFLICT (oid) DO NOTHING`. -/
def insertLfsObject (db : HubDatabase) (oid content : Bytes) : HubDatabase :=
  { db with lfsObjects := db.lfsObjects.insertNew oid ⟨content.length, content⟩ }

def lfsSize (db : HubDatabase) (oid : Bytes) : Option Int :=
  (db.lfsObjects.find oid).map LfsRow.sizeBytes

/-- The files registered with a sha256 and a size, each with the time of its registration. -/
def claimants (db : HubDatabase) (sha256 : Bytes) (size : Int) : List (Hash × Nat) :=
  db.cas.reconstructionFiles.rows.filterMap fun r =>
    if r.2.sha256.map Subtype.val = some sha256 ∧ r.2.totalSize = size then
      (db.registeredAt.find r.1).map fun t => (r.1, t)
    else
      none

/-- The rows `ORDER BY registered_at DESC LIMIT 1` may answer with: none is newer. -/
def newestFile (db : HubDatabase) (sha256 : Bytes) (size : Int) : List Hash :=
  ((db.claimants sha256 size).filter fun r =>
    (db.claimants sha256 size).all fun r' => decide (r'.2 ≤ r.2)).map Prod.fst

/-- The manifest of a commit: `repo_files WHERE commit_id = $1`. -/
def manifest (db : HubDatabase) (commitId : Int) : List (Bytes × RepoFileRow) :=
  (db.repoFiles.rows.filter fun r => r.1.1 = commitId).map fun r => (r.1.2, r.2)

def commitIds (db : HubDatabase) (repoId : Int) : List Int :=
  (db.repoCommits.rows.filter fun r => r.2.repoId = repoId).map Prod.fst

theorem mem_manifest {db : HubDatabase} {commitId : Int} {path : Bytes} {row : RepoFileRow} :
    (path, row) ∈ db.manifest commitId ↔ db.repoFiles.find (commitId, path) = some row := by
  rw [Table.find_eq_some_iff, manifest, List.mem_map]
  constructor
  · rintro ⟨⟨⟨c, p⟩, r⟩, hmem, hEq⟩
    obtain ⟨hrow, hc⟩ := List.mem_filter.1 hmem
    have hc : c = commitId := of_decide_eq_true hc
    cases hEq
    rw [← hc]
    exact hrow
  · intro hmem
    exact ⟨_, List.mem_filter.2 ⟨hmem, decide_eq_true rfl⟩, rfl⟩

/-- A manifest lists a path once. -/
theorem nodup_manifest (db : HubDatabase) (commitId : Int) :
    ((db.manifest commitId).map Prod.fst).Nodup := by
  have hkeys : ((db.repoFiles.rows.filter fun r => r.1.1 = commitId).map Prod.fst).Nodup :=
    db.repoFiles.nodupKeys.sublist (List.filter_sublist.map _)
  have hpaths : (db.manifest commitId).map Prod.fst =
      ((db.repoFiles.rows.filter fun r => r.1.1 = commitId).map Prod.fst).map Prod.snd := by
    simp [manifest, List.map_map, Function.comp_def]
  rw [hpaths]
  refine List.Nodup.map_on ?_ hkeys
  intro a ha b hb hEq
  obtain ⟨r, hr, rfl⟩ := List.mem_map.1 ha
  obtain ⟨r', hr', rfl⟩ := List.mem_map.1 hb
  have hc : r.1.1 = commitId := of_decide_eq_true (List.mem_filter.1 hr).2
  have hc' : r'.1.1 = commitId := of_decide_eq_true (List.mem_filter.1 hr').2
  exact Prod.ext (hc.trans hc'.symm) hEq

theorem mem_commitIds {db : HubDatabase} {repoId commitId : Int} :
    commitId ∈ db.commitIds repoId ↔
      ∃ c, db.repoCommits.find commitId = some c ∧ c.repoId = repoId := by
  rw [commitIds, List.mem_map]
  constructor
  · rintro ⟨⟨id, c⟩, hmem, rfl⟩
    obtain ⟨hrow, hrepo⟩ := List.mem_filter.1 hmem
    exact ⟨c, Table.find_eq_some_iff.2 hrow, of_decide_eq_true hrepo⟩
  · rintro ⟨c, hfind, hrepo⟩
    have hrow := Table.find_eq_some_iff.1 hfind
    exact ⟨(commitId, c), List.mem_filter.2 ⟨hrow, decide_eq_true hrepo⟩, rfl⟩

end HubDatabase

end Hub
end OpenWeights
