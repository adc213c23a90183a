import OpenWeights.Hub.History

/-!
# Revisions — what `main` and the id of a commit name

A commit brings a manifest of its own, and `main` moves to it.  What the hub serves for `main` is the
manifest of the last commit, path by path.  The id of a commit resolves to the manifest of that commit,
except in `model_info_rev`, which finds the commit and then looks for a branch of that name.
-/

namespace OpenWeights
namespace Hub

open Lib Db

/-! ## The entries of a request -/

def lineEntry (x : HubCrates) (line : Bytes) : Option CommitFile := do
  let v ← x.fromSlice line
  if x.key v = lit "file" ∨ x.key v = lit "lfsFile" ∨ x.key v = lit "xetFile" then
    x.toFile (x.value v)
  else
    none

/-- A line adds its entry, if it has one. -/
theorem parseLine_ok {x : HubCrates} {acc acc' : Parsed} {line : Bytes}
    (hok : parseLine x acc line = .ok acc') : acc'.2 = acc.2 ++ (lineEntry x line).toList := by
  unfold parseLine at hok
  split at hok
  · cases hok
  · rename_i v hv
    dsimp only at hok
    split at hok
    · -- A header is not an entry.
      rename_i hkey
      cases hok
      have hother : ¬(lit "header" = lit "file" ∨ lit "header" = lit "lfsFile" ∨
          lit "header" = lit "xetFile") := by
        decide
      have hnone : lineEntry x line = none := by
        simp only [lineEntry, hv, hkey, Option.bind_eq_bind, Option.bind_some, hother, if_false]
      simp [hnone]
    · split at hok
      · rename_i hentry
        split at hok
        · cases hok
        · rename_i f hf
          cases hok
          simp [lineEntry, hv, hentry, hf]
      · rename_i hentry
        cases hok
        simp [lineEntry, hv, hentry]

theorem parseLines_ok {x : HubCrates} {acc acc' : Parsed} {lines : List Bytes}
    (hok : parseLines x acc lines = .ok acc') :
    acc'.2 = acc.2 ++ lines.filterMap (lineEntry x) := by
  induction lines generalizing acc with
  | nil =>
      cases hok
      simp
  | cons line rest ih =>
      simp only [parseLines] at hok
      split at hok
      · cases hok
      · rename_i acc₁ hline
        rw [ih hok, parseLine_ok hline, List.append_assoc]
        cases hentry : lineEntry x line with
        | none => simp [hentry]
        | some f => simp [hentry]

/-- The entries of a body, in the order of its lines.  Lines with any other key add nothing, those
that ask for a deletion or a copy among them. -/
def bodyEntries (x : HubCrates) (raw : Bytes) : List CommitFile :=
  ((raw.splitOn 10).filter fun l => l ≠ []).filterMap (lineEntry x)

theorem parseBody_ok {x : HubCrates} {raw : Bytes} {parsed : Parsed}
    (hok : parseBody x raw = .ok parsed) : parsed.2 = bodyEntries x raw := by
  simpa [bodyEntries] using parseLines_ok hok

/-! ## The manifest of `main` -/

def CommitsTo (x : HubCrates) (repoId : Int) (db : HubDatabase) : Request → Prop
  | .commit limit c =>
      (∃ parsed, admitCommit x db c = .ok (repoId, parsed)) ∧
        ∃ resp, (commit x limit db c).1 = .ok resp
  | _ => False

/-- No request of the list commits to the repository. -/
def NoCommit (x : HubCrates) (repoId : Int) : HubDatabase → List Request → Prop
  | _, [] => True
  | db, r :: rs => ¬CommitsTo x repoId db r ∧ NoCommit x repoId (serve x db r) rs

/-- A row as `resolve_lookup` shows it. -/
def CommitFileRow.toRow (r : CommitFileRow) : RepoFileRow :=
  ⟨r.size, r.xetHash, r.lfsOid⟩

/-- `main` is at a commit whose manifest is the rows. -/
structure Head (db : HubDatabase) (repoId commitId : Int) (rows : List CommitFileRow) : Prop where
  main : db.repoRefs.find (repoId, mainRef) = some commitId
  commit : commitId ∈ db.commitIds repoId
  repo : (db.repos.find repoId).isSome
  file : ∀ {path row}, db.repoFiles.find (commitId, path) = some row ↔
    ∃ r ∈ rows, r.path = path ∧ row = r.toRow

theorem Committed.head {x : HubCrates} {limit : LimitOne} {db db' : HubDatabase} {c : CommitCall}
    {repoId : Int} {header : CommitHeader} {files : List CommitFile} {rows : List CommitFileRow}
    (h : Committed x limit db c repoId header files rows db') (hdb : Sound x db) :
    Head db' repoId (db.commitSeq + 1) rows where
  main := by simp [h.find_ref]
  commit := (h.mem_commitIds hdb).2 (.inr ⟨rfl, rfl⟩)
  repo := by
    obtain ⟨⟨row, hrow, -⟩, -⟩ := admitCommit_ok h.admitted
    obtain ⟨ds, -, hEq⟩ := h.db_eq
    have hrepos : db'.repos = db.repos := by rw [hEq]; rfl
    simp [hrepos, hrow]
  file := h.find_file_new hdb

/-- The head stays until the next commit to the repository. -/
theorem Head.serve {x : HubCrates} {db : HubDatabase} {repoId commitId : Int}
    {rows : List CommitFileRow} (h : Head db repoId commitId rows) (hdb : Sound x db) {r : Request}
    (hr : ¬CommitsTo x repoId db r) : Head (serve x db r) repoId commitId rows := by
  obtain ⟨repoRow, hrow⟩ := Option.isSome_iff_exists.1 h.repo
  have hrepo : ((Hub.serve x db r).repos.find repoId).isSome := by
    rw [find_repos_serve hrow]
    rfl
  rcases serve_history x db r with hsame | ⟨limit, c, repo, header, files, rows', rfl, hcommitted⟩
  · refine ⟨by rw [hsame.repoRefs, h.main], by rw [hsame.commitIds]; exact h.commit, hrepo, ?_⟩
    intro path row
    rw [hsame.repoFiles]
    exact h.file
  · -- The commit went to another repository, and so its id is another one.
    have hother : repo ≠ repoId := by
      rintro rfl
      exact hr ⟨⟨_, hcommitted.admitted⟩, _, by rw [hcommitted.answer]⟩
    obtain ⟨row, hrow, -⟩ := HubDatabase.mem_commitIds.1 h.commit
    have hid : commitId ≠ db.commitSeq + 1 := by
      rintro rfl
      rw [hdb.fresh.1] at hrow
      cases hrow
    refine ⟨?_, (hcommitted.mem_commitIds hdb).2 (.inl h.commit), hrepo, ?_⟩
    · rw [hcommitted.find_ref, if_neg (fun hEq => hother (Prod.mk.inj hEq).1.symm)]
      exact h.main
    · intro path row
      rw [hcommitted.find_file_old hid]
      exact h.file

theorem Head.serveAll {x : HubCrates} {db : HubDatabase} {repoId commitId : Int}
    {rows : List CommitFileRow} (h : Head db repoId commitId rows) (hdb : Sound x db)
    {rs : List Request} (hrs : NoCommit x repoId db rs) :
    Head (serveAll x db rs) repoId commitId rows := by
  induction rs generalizing db with
  | nil => exact h
  | cons r rs ih => exact ih (h.serve hdb hrs.1) (hdb.serve r) hrs.2

/-- The manifest of the head lists the rows, in whatever order. -/
theorem Head.manifest {db : HubDatabase} {repoId commitId : Int} {rows : List CommitFileRow}
    (h : Head db repoId commitId rows) (hnodup : (rows.map CommitFileRow.path).Nodup) :
    (db.manifest commitId).Perm (rows.map fun r => (r.path, r.toRow)) := by
  have hkeys : (rows.map fun r => (r.path, r.toRow)).map Prod.fst =
      rows.map CommitFileRow.path := by
    simp [List.map_map, Function.comp_def]
  refine (List.perm_ext_iff_of_nodup (db.nodup_manifest commitId).of_map ?_).2 ?_
  · exact (hkeys ▸ hnodup : ((rows.map fun r => (r.path, r.toRow)).map Prod.fst).Nodup).of_map
  · rintro ⟨path, row⟩
    rw [HubDatabase.mem_manifest, h.file, List.mem_map]
    constructor
    · rintro ⟨r, hr, rfl, rfl⟩
      exact ⟨r, hr, rfl⟩
    · rintro ⟨r, hr, hEq⟩
      cases hEq
      exact ⟨r, hr, rfl, rfl⟩

/-- The hub serves the rows for `main`, and nothing else. -/
structure ServesRows (x : HubCrates) (db : HubDatabase) (viewer : Option Int) (owner repo sha : Bytes)
    (rows : List CommitFileRow) : Prop where
  listed : ∃ info, modelInfo x db viewer owner repo = .ok info ∧ info.sha = sha ∧
    info.siblings.Perm (rows.map fun r => sibling r.path r.toRow)
  resolved : ∀ r ∈ rows, ∃ info,
    resolveLookup x db viewer owner repo mainRef r.path = .ok info ∧ info.size = r.size ∧
      info.oidHex = fileOid r.toRow ∧ some info.backend = backendOf r.toRow
  absent : ∀ path, path ∉ rows.map CommitFileRow.path →
    resolveLookup x db viewer owner repo mainRef path = .error .notFound

/-- A reader that may read the repository goes on with its id. -/
theorem modelInfo_of_readable {x : HubCrates} {db : HubDatabase} {viewer : Option Int}
    {owner repo : Bytes} {repoId : Int} (hread : readableRepo db owner repo viewer = .ok repoId) :
    modelInfo x db viewer owner repo = buildModelInfo x db owner repo repoId mainRef := by
  simp [modelInfo, hread, bind, Except.bind]

def resolvedInfo (db : HubDatabase) (repoId : Int) (row : RepoFileRow) (backend : ResolvedBackend) :
    ResolvedInfo :=
  { size := row.sizeBytes
    oidHex := fileOid row
    commitSha := paddedHex ((db.repoRefs.find (repoId, mainRef)).getD 0)
    backend := backend
    repoId := repoId }

theorem resolveLookup_of_readable {x : HubCrates} {db : HubDatabase} {viewer : Option Int}
    {owner repo : Bytes} {repoId : Int} (hread : readableRepo db owner repo viewer = .ok repoId)
    (revision path : Bytes) :
    resolveLookup x db viewer owner repo revision path =
      match revisionFile x db repoId revision path with
      | .error e => .error e
      | .ok none => .error .notFound
      | .ok (some row) =>
          match backendOf row with
          | none => .error .notFound
          | some backend => .ok (resolvedInfo db repoId row backend) := by
  simp only [resolveLookup, hread, bind, Except.bind]
  cases revisionFile x db repoId revision path with
  | error e => rfl
  | ok row => cases row <;> rfl

/-- A row with one backend resolves to it. -/
theorem CommitFileRow.OneBackend.backend {r : CommitFileRow} (h : r.OneBackend) :
    ∃ backend, backendOf r.toRow = some backend := by
  unfold CommitFileRow.OneBackend at h
  cases hx : r.xetHash with
  | some xetHash => exact ⟨.xet xetHash, by simp [backendOf, CommitFileRow.toRow, hx]⟩
  | none =>
      cases ho : r.lfsOid with
      | some oid => exact ⟨.lfs oid, by simp [backendOf, CommitFileRow.toRow, hx, ho]⟩
      | none => simp [hx, ho] at h

theorem Head.servesRows {x : HubCrates} {db : HubDatabase} {repoId commitId : Int}
    {rows : List CommitFileRow} (h : Head db repoId commitId rows)
    (hnodup : (rows.map CommitFileRow.path).Nodup) (hone : ∀ r ∈ rows, r.OneBackend)
    {viewer : Option Int} {owner repo : Bytes}
    (hread : readableRepo db owner repo viewer = .ok repoId) :
    ServesRows x db viewer owner repo (commitOidFor x commitId) rows where
  listed := by
    obtain ⟨c, hcommit, -⟩ := HubDatabase.mem_commitIds.1 h.commit
    obtain ⟨r, hrepo⟩ := Option.isSome_iff_exists.1 h.repo
    have hhead : headCommit db repoId mainRef = some (commitId, c, r) := by
      simp [headCommit, h.main, hcommit, hrepo]
    rw [modelInfo_of_readable hread]
    simp only [buildModelInfo, hhead]
    refine ⟨_, rfl, rfl, ?_⟩
    simpa [List.map_map, Function.comp_def] using
      (h.manifest hnodup).map fun f => sibling f.1 f.2
  resolved := by
    intro r hr
    obtain ⟨backend, hbackend⟩ := (hone r hr).backend
    have hfile : db.repoFiles.find (commitId, r.path) = some r.toRow :=
      h.file.2 ⟨r, hr, rfl, rfl⟩
    have hrow : revisionFile x db repoId mainRef r.path = .ok (some r.toRow) := by
      simp [revisionFile, h.main, hfile]
    rw [resolveLookup_of_readable hread, hrow]
    simp only [hbackend]
    exact ⟨_, rfl, rfl, rfl, rfl⟩
  absent := by
    intro path hpath
    have hfile : db.repoFiles.find (commitId, path) = none := by
      refine Option.eq_none_iff_forall_ne_some.2 ?_
      intro row hrow
      obtain ⟨r, hr, hEq, -⟩ := h.file.1 hrow
      exact hpath (hEq ▸ List.mem_map_of_mem hr)
    have hrow : revisionFile x db repoId mainRef path = .ok none := by
      simp [revisionFile, h.main, hfile]
    rw [resolveLookup_of_readable hread, hrow]

/-- **The manifest of `main` is that of the last commit.**  After a commit, and whatever other
requests follow it, the entries of its body are listed, each resolves to what it was staged as, and
no other path resolves: not one that an earlier commit uploaded, and none because a line of the body
asked for it in another way. -/
theorem servesRows_last {x : HubCrates} {db : HubDatabase} (hreach : Reachable x db)
    {limit : LimitOne} {c : CommitCall} {repoId : Int} {header : CommitHeader}
    {files : List CommitFile} (hadmitted : admitCommit x db c = .ok (repoId, header, files))
    {resp : CommitResp} {db' : HubDatabase} (hok : commit x limit db c = (.ok resp, db'))
    (rs : List Request) (hrs : NoCommit x repoId db' rs) (viewer : Option Int) (owner repo : Bytes)
    (hread : readableRepo (serveAll x db' rs) owner repo viewer = .ok repoId) :
    files = bodyEntries x c.body ∧ ∃ rows, (stageFiles x limit db files).1 = .ok rows ∧
      rows.map CommitFileRow.path = files.map CommitFile.path ∧
      (rows.map CommitFileRow.path).Nodup ∧
      ServesRows x (serveAll x db' rs) viewer owner repo resp.commitOid rows := by
  obtain ⟨repoId', header', files', rows, hcommitted, rfl⟩ := commit_ok hok
  have hsame := hcommitted.admitted
  rw [hadmitted] at hsame
  cases hsame
  have hdb' : Sound x db' := by
    have hserve := hreach.sound.serve (.commit limit c)
    rwa [show serve x db (.commit limit c) = db' by simp [serve, hok]] at hserve
  have hhead := (hcommitted.head hreach.sound).serveAll hdb' hrs
  exact ⟨parseBody_ok (admitCommit_ok hadmitted).2, rows, hcommitted.staged, hcommitted.paths,
    hcommitted.nodup, hhead.servesRows hcommitted.nodup hcommitted.oneBackend hread⟩

/-! ## The ids of commits as revisions -/

theorem length_commitOidFor (x : HubCrates) (commitId : Int) :
    (commitOidFor x commitId).length = 40 := by
  rw [commitOidFor, length_hexEncode, List.length_take, (x.sha256 _).2]
  rfl

/-- The id of a commit is not the name of the branch. -/
theorem commitOidFor_ne_mainRef (x : HubCrates) (commitId : Int) :
    commitOidFor x commitId ≠ mainRef := by
  intro hEq
  have hlength := length_commitOidFor x commitId
  rw [hEq] at hlength
  exact absurd hlength (by decide)

/-- Hexadecimal text is in lower case. -/
theorem toLowercase_hexEncode (bytes : Bytes) :
    toLowercase (hexEncode bytes) = hexEncode bytes := by
  have hlower : ∀ d ∈ hexEncode bytes, (if 65 ≤ d ∧ d ≤ 90 then d + 32 else d) = d := by
    intro d hd
    refine if_neg ?_
    -- A digit is below the capital letters, and a letter is above them.
    rintro ⟨hlow, hhigh⟩
    rcases mem_hexEncode hd with ⟨-, hdigit⟩ | ⟨hletter, -⟩
    · exact absurd (UInt8.le_trans hlow hdigit) (by decide)
    · exact absurd (UInt8.le_trans hletter hhigh) (by decide)
  calc toLowercase (hexEncode bytes) = (hexEncode bytes).map id := List.map_congr_left hlower
    _ = hexEncode bytes := List.map_id _

/-- The ids are made again, and the commit is found by its own. -/
theorem findCommit_commitOidFor {x : HubCrates} {db : HubDatabase} {repoId id : Int}
    (hinj : Set.InjOn (commitOidFor x) {id | id ∈ db.commitIds repoId})
    (hid : id ∈ db.commitIds repoId) : findCommit x db repoId (commitOidFor x id) = some id := by
  have hlower : toLowercase (commitOidFor x id) = commitOidFor x id := toLowercase_hexEncode _
  cases hfound : findCommit x db repoId (commitOidFor x id) with
  | none =>
      have hnot := List.find?_eq_none.1 hfound id hid
      simp [hlower] at hnot
  | some id' =>
      have hmem : id' ∈ db.commitIds repoId := List.mem_of_find?_eq_some hfound
      have hoid : commitOidFor x id' = commitOidFor x id := by
        have hsome := List.find?_some hfound
        simpa [hlower] using hsome
      rw [hinj hmem hid hoid]

/-- What the ids of commits should be good for: the commit's own manifest is listed and resolved
under its id, and the revision that `resolve_head` names resolves to the same entry. -/
structure RevisionsResolve (x : HubCrates) (cfg : HubConfig) (db : HubDatabase)
    (viewer : Option Int) (owner repo : Bytes) (repoId : Int) : Prop where
  listed : ∀ id ∈ db.commitIds repoId, ∃ info,
    modelInfoRev x db viewer owner repo (commitOidFor x id) = .ok info ∧
      info.sha = commitOidFor x id ∧
      info.siblings.Perm ((db.manifest id).map fun f => sibling f.1 f.2)
  resolved : ∀ id ∈ db.commitIds repoId, ∀ path row, (path, row) ∈ db.manifest id →
    ∃ info, resolveLookup x db viewer owner repo (commitOidFor x id) path = .ok info ∧
      info.size = row.sizeBytes ∧ info.oidHex = fileOid row ∧ some info.backend = backendOf row
  named : ∀ revision path head,
    resolveHead x cfg db viewer owner repo revision path = .ok head →
      ∃ head', resolveHead x cfg db viewer owner repo head.repoCommit path = .ok head' ∧
        head'.etag = head.etag ∧ head'.contentLength = head.contentLength

section Readable

variable {x : HubCrates} {db : HubDatabase} {viewer : Option Int} {owner repo : Bytes}
  {repoId : Int}

/-- No branch is called like a commit, so `model_info_rev` answers that there is no such revision. -/
theorem modelInfoRev_commitOidFor (hdb : Sound x db)
    (hinj : Set.InjOn (commitOidFor x) {id | id ∈ db.commitIds repoId})
    (hread : readableRepo db owner repo viewer = .ok repoId) {id : Int}
    (hid : id ∈ db.commitIds repoId) :
    modelInfoRev x db viewer owner repo (commitOidFor x id) = .error .notFound := by
  have hne := commitOidFor_ne_mainRef x id
  have hbranch : db.repoRefs.find (repoId, commitOidFor x id) = none := by
    refine Option.eq_none_iff_forall_ne_some.2 ?_
    intro head hhead
    exact hne (hdb.ref hhead).1
  have hhead : headCommit db repoId (commitOidFor x id) = none := by
    simp [headCommit, hbranch]
  simp [modelInfoRev, hread, bind, Except.bind, hne, findCommit_commitOidFor hinj hid,
    buildModelInfo, hhead]

/-- A path of a commit resolves under the commit's id. -/
theorem resolveLookup_commitOidFor (hdb : Sound x db)
    (hinj : Set.InjOn (commitOidFor x) {id | id ∈ db.commitIds repoId})
    (hread : readableRepo db owner repo viewer = .ok repoId) {id : Int}
    (hid : id ∈ db.commitIds repoId) {path : Bytes} {row : RepoFileRow}
    (hrow : (path, row) ∈ db.manifest id) :
    ∃ info, resolveLookup x db viewer owner repo (commitOidFor x id) path = .ok info ∧
      info.size = row.sizeBytes ∧ info.oidHex = fileOid row ∧ some info.backend = backendOf row := by
  have hfile := HubDatabase.mem_manifest.1 hrow
  have hrevision : revisionFile x db repoId (commitOidFor x id) path = .ok (some row) := by
    simp [revisionFile, commitOidFor_ne_mainRef, findCommit_commitOidFor hinj hid, hfile]
  have hone : (CommitFileRow.mk path row.xetHash row.lfsOid row.sizeBytes).OneBackend :=
    (hdb.file hfile).2
  obtain ⟨backend, hbackend⟩ := hone.backend
  have hbackend : backendOf row = some backend := hbackend
  rw [resolveLookup_of_readable hread, hrevision]
  simp only [hbackend]
  exact ⟨_, rfl, rfl, rfl, rfl⟩

/-- Without a commit nothing resolves. -/
theorem resolveHead_of_no_commit {cfg : HubConfig} (hdb : Sound x db)
    (hread : readableRepo db owner repo viewer = .ok repoId) (hnone : db.commitIds repoId = [])
    (revision path : Bytes) :
    resolveHead x cfg db viewer owner repo revision path = .error .notFound := by
  have hfind : findCommit x db repoId revision = none := by
    simp [findCommit, hnone]
  have hbranch : db.repoRefs.find (repoId, mainRef) = none := by
    refine Option.eq_none_iff_forall_ne_some.2 ?_
    intro head hhead
    have hmem := (hdb.ref hhead).2
    rw [hnone] at hmem
    cases hmem
  have hlookup : resolveLookup x db viewer owner repo revision path = .error .notFound := by
    rw [resolveLookup_of_readable hread]
    by_cases hmain : revision = mainRef
    · simp [revisionFile, hmain, hbranch]
    · simp [revisionFile, hmain, hfind]
  simp [resolveHead, hlookup, bind, Except.bind]

end Readable

/-- **When the ids of commits resolve.**  Exactly in a repository without commits.  A commit's paths
do resolve under its id; `model_info_rev` finds no commit under its id. -/
theorem revisionsResolve_iff {x : HubCrates} {db : HubDatabase} (hreach : Reachable x db)
    (cfg : HubConfig) (viewer : Option Int) (owner repo : Bytes) {repoId : Int}
    (hinj : Set.InjOn (commitOidFor x) {id | id ∈ db.commitIds repoId})
    (hread : readableRepo db owner repo viewer = .ok repoId) :
    (RevisionsResolve x cfg db viewer owner repo repoId ↔ db.commitIds repoId = []) ∧
      (∀ id ∈ db.commitIds repoId,
        modelInfoRev x db viewer owner repo (commitOidFor x id) = .error .notFound) ∧
      ∀ id ∈ db.commitIds repoId, ∀ path row, (path, row) ∈ db.manifest id →
        ∃ info, resolveLookup x db viewer owner repo (commitOidFor x id) path = .ok info ∧
          info.size = row.sizeBytes ∧ info.oidHex = fileOid row ∧
          some info.backend = backendOf row := by
  have hinfo : ∀ id ∈ db.commitIds repoId,
      modelInfoRev x db viewer owner repo (commitOidFor x id) = .error .notFound :=
    fun id hid => modelInfoRev_commitOidFor hreach.sound hinj hread hid
  refine ⟨⟨?_, ?_⟩, hinfo, fun id hid path row hrow =>
    resolveLookup_commitOidFor hreach.sound hinj hread hid hrow⟩
  · intro hall
    refine List.eq_nil_iff_forall_not_mem.2 ?_
    intro id hid
    obtain ⟨info, hok, -⟩ := hall.listed id hid
    rw [hinfo id hid] at hok
    cases hok
  · intro hnone
    refine ⟨fun id hid => ?_, fun id hid => ?_, fun revision path head hok => ?_⟩
    · rw [hnone] at hid
      cases hid
    · rw [hnone] at hid
      cases hid
    · rw [resolveHead_of_no_commit hreach.sound hread hnone] at hok
      cases hok

/-! ### Two commits -/

/-- A line of a body, read. -/
structure ReadLine where
  key : Bytes
  header : Option CommitHeader
  file : Option CommitFile
  deriving DecidableEq, Repr

/-- The third-party functions where they are called, as tables. -/
def HubCrates.ofTables (digests : List (Bytes × Hash)) (base64 : List (Bytes × Bytes))
    (lines : List (Bytes × ReadLine)) : HubCrates :=
  { sha256 := fun d => (digests.lookup d).getD (Hash.fill 0)
    base64Decode := fun s => base64.lookup s
    Json := ReadLine
    fromSlice := fun line => lines.lookup line
    key := ReadLine.key
    value := id
    toHeader := ReadLine.header
    toFile := ReadLine.file
    formatTime := fun _ => lit "1970-01-01T00:00:00.000000Z"
    headerValue := some }

/-- The input of `commit_oid_for`. -/
def commitSalt (commitId : Int) : Bytes :=
  lit "openweights:commit:" ++ putBeUint64 (UInt64.ofInt commitId)

/-- The digests of one letter and of the first two commits. -/
def sampleDigests : List (Bytes × Hash) :=
  [(lit "a", digest "ca978112ca1bbdcafac231b39a23dc4da786eff8147c4e72b9807785afee48bb"),
    (lit "b", digest "3e23e8160039594a33894f6564e1b1348bbd7a0088d42c4acb73eeaed59c009d"),
    (commitSalt 1, digest "84455f729e4308d4375a030d5a952c932991fc0293110737a8645d4f10b41827"),
    (commitSalt 2, digest "4e47b702ecc50199e84df276662a921d056a543f51eb566f94a661039f058f08")]

def headerLine : Bytes :=
  lit "\x7b\"key\":\"header\",\"value\":\x7b\"summary\":\"upload\"\x7d\x7d"

def fileLineA : Bytes :=
  lit "\x7b\"key\":\"file\",\"value\":\x7b\"path\":\"a.txt\",\"content\":\"YQ==\"\x7d\x7d"

def fileLineB : Bytes :=
  lit "\x7b\"key\":\"file\",\"value\":\x7b\"path\":\"b.txt\",\"content\":\"Yg==\"\x7d\x7d"

def sampleLines : List (Bytes × ReadLine) :=
  [(headerLine, ⟨lit "header", some ⟨some (lit "upload"), none⟩, none⟩),
    (fileLineA, ⟨lit "file", none, some ⟨lit "a.txt", some (lit "YQ=="), none, none, none⟩⟩),
    (fileLineB, ⟨lit "file", none, some ⟨lit "b.txt", some (lit "Yg=="), none, none, none⟩⟩)]

def sampleCrates : HubCrates :=
  .ofTables sampleDigests [(lit "YQ==", lit "a"), (lit "Yg==", lit "b")] sampleLines

def alice : AuthContext :=
  { apiKeyId := ⟨List.replicate 16 0, List.length_replicate⟩
    userId := 1
    scopes := [.upload, .download] }

def aliceRepo : List Request :=
  [.accounts (Table.empty.insertNew 1 ⟨lit "alice", none⟩) .empty,
    .createRepo alice ⟨lit "model", none, true⟩ 0]

def commitLines (lines : List Bytes) : CommitCall :=
  { refName := mainRef
    owner := lit "alice"
    repo := lit "model"
    ctx := alice
    host := none
    forwardedProto := none
    body := [10].intercalate lines
    now := 0 }

/-- The first commit uploads `a.txt`. -/
def commitA : CommitCall := commitLines [headerLine, fileLineA]

/-- The second one uploads `b.txt` and does not speak of `a.txt`. -/
def commitB : CommitCall := commitLines [headerLine, fileLineB]

def aliceDb : HubDatabase := serveAll sampleCrates .empty aliceRepo

def dbA : HubDatabase := (commit sampleCrates .head aliceDb commitA).2

def dbB : HubDatabase := (commit sampleCrates .head dbA commitB).2

theorem reachable_aliceDb : Reachable sampleCrates aliceDb := ⟨aliceRepo, rfl⟩

def entryA : CommitFile := ⟨lit "a.txt", some (lit "YQ=="), none, none, none⟩

def entryB : CommitFile := ⟨lit "b.txt", some (lit "Yg=="), none, none, none⟩

def uploadHeader : CommitHeader := ⟨some (lit "upload"), none⟩

theorem admitCommit_commitA :
    admitCommit sampleCrates aliceDb commitA = .ok (1, uploadHeader, [entryA]) := by
  decide +kernel

theorem admitCommit_commitB :
    admitCommit sampleCrates dbA commitB = .ok (1, uploadHeader, [entryB]) := by
  decide +kernel

theorem commit_commitA :
    commit sampleCrates .head aliceDb commitA = (.ok (commitResp sampleCrates commitA 1), dbA) :=
  Prod.ext (by decide +kernel) rfl

theorem commit_commitB :
    commit sampleCrates .head dbA commitB = (.ok (commitResp sampleCrates commitB 2), dbB) :=
  Prod.ext (by decide +kernel) rfl

theorem reachable_dbA : Reachable sampleCrates dbA :=
  reachable_aliceDb.serveAll [.commit .head commitA]

theorem servesRows_last_commitB :
    ∃ rows, rows.map CommitFileRow.path = [lit "b.txt"] ∧
      ServesRows sampleCrates dbB (some 1) (lit "alice") (lit "model")
        (commitOidFor sampleCrates 2) rows := by
  obtain ⟨-, rows, -, hpaths, -, hserves⟩ :=
    servesRows_last reachable_dbA admitCommit_commitB commit_commitB [] trivial (some 1)
      (lit "alice") (lit "model") (by decide +kernel)
  exact ⟨rows, hpaths, hserves⟩

/-- A commit does not build on its parent: what only the commit before it uploaded is gone. -/
theorem not_overlay :
    ¬∀ (x : HubCrates) (limit : LimitOne) (db db₁ db₂ : HubDatabase) (c₁ c₂ : CommitCall)
      (resp₁ resp₂ : CommitResp) (repoId : Int) (parsed₁ parsed₂ : Parsed), Reachable x db →
      admitCommit x db c₁ = .ok (repoId, parsed₁) → commit x limit db c₁ = (.ok resp₁, db₁) →
      admitCommit x db₁ c₂ = .ok (repoId, parsed₂) → commit x limit db₁ c₂ = (.ok resp₂, db₂) →
      ∀ f ∈ parsed₁.2, f.path ∉ parsed₂.2.map CommitFile.path →
        ∀ viewer owner repo, readableRepo db₂ owner repo viewer = .ok repoId →
          ∃ info, resolveLookup x db₂ viewer owner repo mainRef f.path = .ok info := by
  intro hclaim
  obtain ⟨info, hinfo⟩ := hclaim _ _ _ _ _ _ _ _ _ _ _ _ reachable_aliceDb admitCommit_commitA
    commit_commitA admitCommit_commitB commit_commitB entryA List.mem_cons_self (by decide +kernel)
    (some 1) (lit "alice") (lit "model") (by decide +kernel)
  have hgone : resolveLookup sampleCrates dbB (some 1) (lit "alice") (lit "model") mainRef
      entryA.path = .error .notFound := by
    decide +kernel
  rw [hgone] at hinfo
  cases hinfo

/-- The ids of the first two commits differ. -/
theorem injOn_sampleCrates :
    Set.InjOn (commitOidFor sampleCrates) {id | id ∈ dbB.commitIds 1} := by
  have hids : dbB.commitIds 1 = [1, 2] := by decide +kernel
  have hdiffer : ∀ a ∈ [1, 2], ∀ b ∈ [1, 2], commitOidFor sampleCrates a =
      commitOidFor sampleCrates b → a = b := by
    decide +kernel
  intro a ha b hb hEq
  rw [hids] at ha hb
  exact hdiffer a ha b hb hEq

def sampleConfig : HubConfig := ⟨lit "http://localhost:8080", false⟩

theorem revisionsResolve_iff_dbB :
    (RevisionsResolve sampleCrates sampleConfig dbB (some 1) (lit "alice") (lit "model") 1 ↔
      dbB.commitIds 1 = []) ∧
      modelInfoRev sampleCrates dbB (some 1) (lit "alice") (lit "model")
        (commitOidFor sampleCrates 1) = .error .notFound := by
  have hreach : Reachable sampleCrates dbB := reachable_dbA.serveAll [.commit .head commitB]
  obtain ⟨hiff, hinfo, -⟩ := revisionsResolve_iff hreach sampleConfig (some 1) (lit "alice")
    (lit "model") injOn_sampleCrates (by decide +kernel)
  exact ⟨hiff, hinfo 1 (by decide +kernel)⟩

theorem not_revisionsResolve :
    ¬∀ (x : HubCrates) (cfg : HubConfig) (db : HubDatabase) (viewer : Option Int)
      (owner repo : Bytes) (repoId : Int), Reachable x db →
      Set.InjOn (commitOidFor x) {id | id ∈ db.commitIds repoId} →
      readableRepo db owner repo viewer = .ok repoId →
      RevisionsResolve x cfg db viewer owner repo repoId := by
  intro hclaim
  have hall := hclaim sampleCrates sampleConfig dbB (some 1) (lit "alice") (lit "model") 1
    (reachable_dbA.serveAll [.commit .head commitB]) injOn_sampleCrates (by decide +kernel)
  obtain ⟨info, hinfo, -⟩ := hall.listed 1 (by decide +kernel)
  have hgone : modelInfoRev sampleCrates dbB (some 1) (lit "alice") (lit "model")
      (commitOidFor sampleCrates 1) = .error .notFound := by
    decide +kernel
  rw [hgone] at hinfo
  cases hinfo

-- The revision that `resolve_head` names is the counter of the head, and no commit is found under it.
example :
    ((resolveHead sampleCrates sampleConfig dbB (some 1) (lit "alice") (lit "model") mainRef
      (lit "b.txt")).toOption.map HeadResponse.repoCommit =
        some (lit "0000000000000000000000000000000000000002")) ∧
      resolveHead sampleCrates sampleConfig dbB (some 1) (lit "alice") (lit "model")
        (lit "0000000000000000000000000000000000000002") (lit "b.txt") = .error .notFound := by
  decide +kernel

end Hub
end OpenWeights
