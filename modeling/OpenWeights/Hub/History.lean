import OpenWeights.Hub.Resolve
import OpenWeights.Service.Segmentation

/-!
# History — what the requests make of the hub's tables

The requests that write are served one after the other, the statements of the CAS among them, and a
database is reachable if some list of requests leads to it.  Each request is summed up once for every
table it may write, and the invariants of the tables follow from the summaries.
-/

namespace OpenWeights
namespace Hub

open Lib Db

/-! ## Requests -/

/-- What may change the database. -/
inductive Request
  | commit (limit : LimitOne) (c : CommitCall)
  | lfsUpload (oidHex body : Bytes)
  | createRepo (ctx : AuthContext) (req : CreateRepoReq) (now : Nat)
  /-- Logins and the administration of keys leave other tables of their own. -/
  | accounts (users : Table Int UserRow) (apiKeys : Table Uuid ApiKeyRow)
  | cas (s : Service.Stmt) (now : Nat) (scan : List (Hash × PinRow))

/-- A statement of the CAS.  Rows it adds to `reconstruction_files` are registered `now`. -/
def casStmt (db : HubDatabase) (s : Service.Stmt) (now : Nat) (scan : List (Hash × PinRow)) :
    HubDatabase :=
  match s.exec now scan db.cas with
  | none => db
  | some (cas, _) =>
      { db with
        cas := cas
        registeredAt :=
          db.registeredAt.insertAll (cas.reconstructionFiles.rows.map fun r => (r.1, now)) }

def serve (x : HubCrates) (db : HubDatabase) : Request → HubDatabase
  | .commit limit c => (commit x limit db c).2
  | .lfsUpload oidHex body => (lfsUpload x db oidHex body).2
  | .createRepo ctx req now => (createRepo db ctx req now).2
  | .accounts users apiKeys => { db with users := users, apiKeys := apiKeys }
  | .cas s now scan => casStmt db s now scan

def serveAll (x : HubCrates) (db : HubDatabase) (rs : List Request) : HubDatabase :=
  rs.foldl (serve x) db

def Reachable (x : HubCrates) (db : HubDatabase) : Prop :=
  ∃ rs, serveAll x .empty rs = db

theorem serveAll_append (x : HubCrates) (db : HubDatabase) (rs rs' : List Request) :
    serveAll x db (rs ++ rs') = serveAll x (serveAll x db rs) rs' :=
  List.foldl_append

/-- What holds of the empty database and is kept by every request holds of every reachable one. -/
theorem Reachable.induction {x : HubCrates} {P : HubDatabase → Prop} (hempty : P .empty)
    (hserve : ∀ db r, P db → P (serve x db r)) {db : HubDatabase} (h : Reachable x db) : P db := by
  obtain ⟨rs, rfl⟩ := h
  have hall : ∀ (rs : List Request) (db : HubDatabase), P db → P (serveAll x db rs) := by
    intro rs
    induction rs with
    | nil => exact fun _ hdb => hdb
    | cons r rs ih => exact fun db hdb => ih _ (hserve db r hdb)
  exact hall rs .empty hempty

theorem Reachable.serveAll {x : HubCrates} {db : HubDatabase} (h : Reachable x db)
    (rs : List Request) : Reachable x (serveAll x db rs) := by
  obtain ⟨rs₀, rfl⟩ := h
  exact ⟨rs₀ ++ rs, serveAll_append x .empty rs₀ rs⟩

/-- The databases reached by requests that meet `allow`, each in the database it meets. -/
inductive ReachedBy (x : HubCrates) (allow : HubDatabase → Request → Prop) : HubDatabase → Prop
  | empty : ReachedBy x allow .empty
  | serve {db : HubDatabase} (h : ReachedBy x allow db) (r : Request) (hr : allow db r) :
      ReachedBy x allow (serve x db r)

theorem ReachedBy.reachable {x : HubCrates} {allow : HubDatabase → Request → Prop}
    {db : HubDatabase} (h : ReachedBy x allow db) : Reachable x db := by
  induction h with
  | empty => exact ⟨[], rfl⟩
  | serve h r hr ih => exact ih.serveAll [r]

theorem ReachedBy.mono {x : HubCrates} {allow allow' : HubDatabase → Request → Prop}
    (hallow : ∀ db r, allow db r → allow' db r) {db : HubDatabase} (h : ReachedBy x allow db) :
    ReachedBy x allow' db := by
  induction h with
  | empty => exact .empty
  | serve h r hr ih => exact ih.serve r (hallow _ r hr)

/-! ## Objects -/

/-- Contents as rows of `lfs_objects`, each under its digest. -/
def objects (x : HubCrates) (contents : List Bytes) : List (Bytes × LfsRow) :=
  contents.map fun d => ((x.sha256 d).1, ⟨d.length, d⟩)

def inlineContents (x : HubCrates) (files : List CommitFile) : List Bytes :=
  files.filterMap fun f => f.content.bind x.base64Decode

/-- The contents staging stores for the entries: those in entries that declare no xet hash. -/
def ingested (x : HubCrates) (files : List CommitFile) : List Bytes :=
  files.filterMap fun f => if f.xetHash = none then f.content.bind x.base64Decode else none

theorem ingested_subset (x : HubCrates) {files files' : List CommitFile} (h : files ⊆ files') :
    ingested x files ⊆ inlineContents x files' := by
  intro d hd
  obtain ⟨f, hf, hcontent⟩ := List.mem_filterMap.1 hd
  split at hcontent
  · exact List.mem_filterMap.2 ⟨f, h hf, hcontent⟩
  · cases hcontent

def Request.contents (x : HubCrates) : Request → List Bytes
  | .commit _ c =>
      match parseBody x c.body with
      | .ok parsed => inlineContents x parsed.2
      | .error _ => []
  | .lfsUpload _ body => [body]
  | _ => []

/-- The database with contents added to `lfs_objects`. -/
def HubDatabase.store (x : HubCrates) (db : HubDatabase) (contents : List Bytes) : HubDatabase :=
  { db with lfsObjects := db.lfsObjects.insertAll (objects x contents) }

theorem HubDatabase.store_nil (x : HubCrates) (db : HubDatabase) : db.store x [] = db := rfl

theorem HubDatabase.store_cons (x : HubCrates) (db : HubDatabase) (d : Bytes) (ds : List Bytes) :
    db.store x (d :: ds) = (db.insertLfsObject (x.sha256 d).1 d).store x ds := rfl

/-! ## What a commit stages -/

def CommitFileRow.OneBackend (r : CommitFileRow) : Prop :=
  r.xetHash.isSome ≠ r.lfsOid.isSome

/-- What an accepted entry leads to: a row for its path, and its own content stored. -/
theorem stageFile_ok {x : HubCrates} {limit : LimitOne} {db db' : HubDatabase} {f : CommitFile}
    {row : CommitFileRow} (hok : stageFile x limit db f = .ok (row, db')) :
    row.path = f.path ∧ row.OneBackend ∧ db' = db.store x (ingested x [f]) := by
  unfold stageFile at hok
  split at hok
  -- An entry that names a Xet hash ingests nothing.
  · rename_i xh hxet
    split at hok
    · cases hok
    · split at hok
      · cases hok
      · cases hok
        exact ⟨rfl, by simp [CommitFileRow.OneBackend],
          by simp [ingested, hxet, HubDatabase.store_nil]⟩
  -- An LFS entry with its content inline is decoded and stored.
  · rename_i oid inline hxet hoid hcontent
    split at hok
    · cases hok
    · split at hok
      · cases hok
      · rename_i decoded hdecoded
        split at hok
        · cases hok
        · split at hok
          · cases hok
          · cases hok
            exact ⟨rfl, by simp [CommitFileRow.OneBackend],
              by simp [ingested, hxet, hcontent, hdecoded, HubDatabase.store_cons,
                HubDatabase.store_nil]⟩
  -- An LFS entry without content refers to what is there already.
  · rename_i oid hxet hoid hcontent
    have hnothing : db = db.store x (ingested x [f]) := by
      simp [ingested, hcontent, HubDatabase.store_nil]
    split at hok
    · cases hok
    · split at hok
      · cases hok
        exact ⟨rfl, by simp [CommitFileRow.OneBackend], hnothing⟩
      · split at hok
        · cases hok
        · split at hok
          · cases hok
            exact ⟨rfl, by simp [CommitFileRow.OneBackend], hnothing⟩
          · cases hok
  -- A plain file is stored under the digest of its content.
  · rename_i inline hxet hoid hcontent
    split at hok
    · cases hok
    · rename_i decoded hdecoded
      split at hok
      · cases hok
      · cases hok
        exact ⟨rfl, by simp [CommitFileRow.OneBackend],
          by simp [ingested, hxet, hcontent, hdecoded, HubDatabase.store_cons,
            HubDatabase.store_nil]⟩
  · cases hok

theorem HubDatabase.store_append (x : HubCrates) (db : HubDatabase) (ds ds' : List Bytes) :
    db.store x (ds ++ ds') = (db.store x ds).store x ds' := by
  simp only [HubDatabase.store, objects, List.map_append, Table.insertAll, List.foldl_append]

/-- Entries that were staged one after the other, each against what the ones before it stored. -/
theorem stageFiles_cons {x : HubCrates} {limit : LimitOne} {db db' : HubDatabase} {f : CommitFile}
    {fs : List CommitFile} {rows : List CommitFileRow}
    (hok : stageFiles x limit db (f :: fs) = (.ok rows, db')) :
    ∃ row db₁ rest, stageFile x limit db f = .ok (row, db₁) ∧
      stageFiles x limit db₁ fs = (.ok rest, db') ∧ rows = row :: rest := by
  simp only [stageFiles] at hok
  split at hok
  · cases hok
  · rename_i row db₁ hrow
    split at hok
    · cases hok
    · rename_i rest db₂ hrest
      cases hok
      exact ⟨row, db₁, rest, hrow, hrest, rfl⟩

theorem ingested_cons (x : HubCrates) (f : CommitFile) (fs : List CommitFile) :
    ingested x (f :: fs) = ingested x [f] ++ ingested x fs := by
  rw [← List.singleton_append]
  exact List.filterMap_append

/-- The loop accepts the entries one after the other, each against what those before it stored. -/
inductive Accepts (x : HubCrates) (limit : LimitOne) :
    HubDatabase → List CommitFile → HubDatabase → Prop where
  | nil (db : HubDatabase) : Accepts x limit db [] db
  | cons {db db₁ db' : HubDatabase} {f : CommitFile} {fs : List CommitFile} {row : CommitFileRow} :
      stageFile x limit db f = .ok (row, db₁) → Accepts x limit db₁ fs db' →
      Accepts x limit db (f :: fs) db'

/-- What is stored by then are the inline contents of the accepted entries. -/
theorem Accepts.db_eq {x : HubCrates} {limit : LimitOne} {db db' : HubDatabase}
    {files : List CommitFile} (h : Accepts x limit db files db') :
    db' = db.store x (ingested x files) := by
  induction h with
  | nil db => rfl
  | @cons db db₁ db' f fs row hf _ ih =>
      obtain ⟨-, -, hdb₁⟩ := stageFile_ok hf
      rw [ih, hdb₁, ingested_cons x f fs, HubDatabase.store_append]

/-- Staging accepts every entry, or stops at the first one it refuses. -/
theorem stageFiles_accepted (x : HubCrates) (limit : LimitOne) (db : HubDatabase)
    (files : List CommitFile) :
    (∃ rows db', Accepts x limit db files db' ∧ stageFiles x limit db files = (.ok rows, db')) ∨
    ∃ accepted f rest e db', files = accepted ++ f :: rest ∧ Accepts x limit db accepted db' ∧
      stageFile x limit db' f = .error e ∧ stageFiles x limit db files = (.error e, db') := by
  induction files generalizing db with
  | nil => exact .inl ⟨[], db, .nil db, rfl⟩
  | cons f fs ih =>
      cases hf : stageFile x limit db f with
      | error e => exact .inr ⟨[], f, fs, e, db, rfl, .nil db, hf, by simp only [stageFiles, hf]⟩
      | ok staged =>
          obtain ⟨row, db₁⟩ := staged
          rcases ih db₁ with ⟨rows, db', haccepts, hstage⟩ |
            ⟨accepted, f', rest, e, db', rfl, haccepts, hrefused, hstage⟩
          · refine .inl ⟨row :: rows, db', .cons hf haccepts, ?_⟩
            simp only [stageFiles, hf, hstage]
          · refine .inr ⟨f :: accepted, f', rest, e, db', rfl, .cons hf haccepts, hrefused, ?_⟩
            simp only [stageFiles, hf, hstage]

/-- Staging stores contents of the entries, whether it succeeds or not. -/
theorem stageFiles_db (x : HubCrates) (limit : LimitOne) (db : HubDatabase)
    (files : List CommitFile) :
    ∃ ds, ds ⊆ inlineContents x files ∧ (stageFiles x limit db files).2 = db.store x ds := by
  rcases stageFiles_accepted x limit db files with ⟨rows, db', haccepts, hstage⟩ |
    ⟨accepted, f, rest, e, db', rfl, haccepts, -, hstage⟩
  · rw [hstage]
    exact ⟨ingested x files, ingested_subset x (List.Subset.refl _), haccepts.db_eq⟩
  · rw [hstage]
    exact ⟨ingested x accepted, ingested_subset x (List.subset_append_left _ _), haccepts.db_eq⟩

/-- The rows of a successful staging are those of the entries, in their order. -/
theorem stageFiles_rows {x : HubCrates} {limit : LimitOne} {db db' : HubDatabase}
    {files : List CommitFile} {rows : List CommitFileRow}
    (hok : stageFiles x limit db files = (.ok rows, db')) :
    rows.map CommitFileRow.path = files.map CommitFile.path ∧ ∀ r ∈ rows, r.OneBackend := by
  induction files generalizing db rows with
  | nil =>
      cases hok
      exact ⟨rfl, by simp⟩
  | cons f fs ih =>
      obtain ⟨row, db₁, rest, hrow, hrest, rfl⟩ := stageFiles_cons hok
      obtain ⟨hpath, hone, -⟩ := stageFile_ok hrow
      obtain ⟨hpaths, hall⟩ := ih hrest
      exact ⟨by simp [hpath, hpaths], List.forall_mem_cons.2 ⟨hone, hall⟩⟩

/-! ## What a commit does -/

/-- A commit that succeeded: who was admitted, what was staged, and what the transaction wrote. -/
structure Committed (x : HubCrates) (limit : LimitOne) (db : HubDatabase) (c : CommitCall)
    (repoId : Int) (header : CommitHeader) (files : List CommitFile) (rows : List CommitFileRow)
    (db' : HubDatabase) : Prop where
  admitted : admitCommit x db c = .ok (repoId, header, files)
  staged : (stageFiles x limit db files).1 = .ok rows
  nodup : (rows.map CommitFileRow.path).Nodup
  written : commitTx (stageFiles x limit db files).2 repoId c.ctx (commitMessage header) c.now rows =
    (.ok (db.commitSeq + 1), db')

/-- What the transaction does: it fails and counts, or it writes the commit. -/
theorem commitTx_cases (db : HubDatabase) (repoId : Int) (ctx : AuthContext) (message : Bytes)
    (now : Nat) (rows : List CommitFileRow) :
    (commitTx db repoId ctx message now rows = (.error .db, { db with commitSeq := db.commitSeq + 1 })
      ∧ ¬(rows.map CommitFileRow.path).Nodup) ∨
    ((commitTx db repoId ctx message now rows).1 = .ok (db.commitSeq + 1) ∧
      (rows.map CommitFileRow.path).Nodup) := by
  by_cases hnodup : (rows.map CommitFileRow.path).Nodup
  · exact .inr ⟨by simp [commitTx, hnodup], hnodup⟩
  · exact .inl ⟨by simp [commitTx, hnodup], hnodup⟩

theorem commitSeq_stageFiles (x : HubCrates) (limit : LimitOne) (db : HubDatabase)
    (files : List CommitFile) : (stageFiles x limit db files).2.commitSeq = db.commitSeq := by
  obtain ⟨ds, -, hdb⟩ := stageFiles_db x limit db files
  rw [hdb]
  rfl

/-- Everything a call of `commit` may do. -/
theorem commit_cases (x : HubCrates) (limit : LimitOne) (db : HubDatabase) (c : CommitCall) :
    (∃ e, admitCommit x db c = .error e ∧ commit x limit db c = (.error e, db)) ∨
    (∃ e repoId header files, admitCommit x db c = .ok (repoId, header, files) ∧
      ((stageFiles x limit db files).1 = .error e ∧
          commit x limit db c = (.error e, (stageFiles x limit db files).2) ∨
        e = .db ∧ (∃ rows, (stageFiles x limit db files).1 = .ok rows ∧
            ¬(rows.map CommitFileRow.path).Nodup) ∧
          commit x limit db c = (.error e,
            { (stageFiles x limit db files).2 with commitSeq := db.commitSeq + 1 }))) ∨
    ∃ repoId header files rows db', Committed x limit db c repoId header files rows db' ∧
      commit x limit db c = (.ok (commitResp x c (db.commitSeq + 1)), db') := by
  cases hparsed : admitCommit x db c with
  | error e => exact .inl ⟨e, rfl, by simp [commit, hparsed]⟩
  | ok admitted =>
      obtain ⟨repoId, header, files⟩ := admitted
      have hseq := commitSeq_stageFiles x limit db files
      right
      cases hstage : stageFiles x limit db files with
      | mk res db₁ =>
          replace hseq : db₁.commitSeq = db.commitSeq := by rw [← hseq, hstage]
          cases res with
          | error e =>
              refine .inl ⟨e, repoId, header, files, rfl, .inl ⟨?_, ?_⟩⟩
              · rw [hstage]
              · simp [commit, hparsed, hstage]
          | ok rows =>
              -- The inserts of the manifest fail only at a path that occurs twice.
              rcases commitTx_cases db₁ repoId c.ctx (commitMessage header) c.now rows with
                ⟨htx, hdouble⟩ | ⟨htx, hnodup⟩
              · refine .inl ⟨.db, repoId, header, files, rfl, .inr ⟨rfl, ⟨rows, ?_, hdouble⟩, ?_⟩⟩
                · rw [hstage]
                · simp only [commit, hparsed, hstage, htx, hseq]
              · right
                cases hres : commitTx db₁ repoId c.ctx (commitMessage header) c.now rows with
                | mk res db' =>
                    rw [hres] at htx
                    cases htx
                    rw [hseq] at hres
                    refine ⟨repoId, header, files, rows, db', ⟨hparsed, ?_, hnodup, ?_⟩, ?_⟩
                    · rw [hstage]
                    · rw [hstage]
                      exact hres
                    · simp only [commit, hparsed, hstage, hres]

/-- A commit that answered was committed. -/
theorem commit_ok {x : HubCrates} {limit : LimitOne} {db db' : HubDatabase} {c : CommitCall}
    {resp : CommitResp} (hok : commit x limit db c = (.ok resp, db')) :
    ∃ repoId header files rows, Committed x limit db c repoId header files rows db' ∧
      resp = commitResp x c (db.commitSeq + 1) := by
  rcases commit_cases x limit db c with ⟨e, -, he⟩ |
    ⟨e, repoId, header, files, -, ⟨-, he⟩ | ⟨-, -, he⟩⟩ |
    ⟨repoId, header, files, rows, db₁, hcommitted, he⟩
  · rw [he] at hok
    cases hok
  · rw [he] at hok
    cases hok
  · rw [he] at hok
    cases hok
  · rw [he] at hok
    cases hok
    exact ⟨repoId, header, files, rows, hcommitted, rfl⟩

/-- What admission has checked. -/
theorem admitCommit_ok {x : HubCrates} {db : HubDatabase} {c : CommitCall} {repoId : Int}
    {header : CommitHeader} {files : List CommitFile}
    (hok : admitCommit x db c = .ok (repoId, header, files)) :
    (∃ r, db.repos.find repoId = some r ∧ r.ownerUserId = c.ctx.userId) ∧
      parseBody x c.body = .ok (header, files) := by
  unfold admitCommit at hok
  split at hok
  · cases hok
  · cases hrepo : findRepoId db c.owner c.repo with
    | error e => simp [hrepo, bind, Except.bind] at hok
    | ok id =>
        cases howner : requireOwnership db id c.ctx.userId with
        | error e => simp [hrepo, howner, bind, Except.bind] at hok
        | ok u =>
            simp only [hrepo, howner, bind, Except.bind] at hok
            split at hok
            · cases hok
            · cases hparse : parseBody x c.body with
              | error e => simp [hparse] at hok
              | ok parsed =>
                  simp only [hparse] at hok
                  cases hok
                  refine ⟨?_, rfl⟩
                  unfold requireOwnership at howner
                  split at howner
                  · cases howner
                  · rename_i row hrow
                    split at howner
                    · rename_i hcaller
                      exact ⟨row, hrow, hcaller⟩
                    · cases howner

namespace Committed

variable {x : HubCrates} {limit : LimitOne} {db db' : HubDatabase} {c : CommitCall} {repoId : Int}
  {header : CommitHeader} {files : List CommitFile} {rows : List CommitFileRow}

def commitRow (db : HubDatabase) (c : CommitCall) (repoId : Int) (header : CommitHeader) :
    CommitRow :=
  { repoId := repoId
    parentCommitId := db.repoRefs.find (repoId, mainRef)
    authorUserId := c.ctx.userId
    authorApiKeyId := c.ctx.apiKeyId
    message := commitMessage header
    committedAt := c.now }

/-- The database after a commit, table by table. -/
theorem db_eq (h : Committed x limit db c repoId header files rows db') :
    ∃ ds, ds ⊆ inlineContents x files ∧
      db' =
        { db.store x ds with
          commitSeq := db.commitSeq + 1
          repoCommits := db.repoCommits.insertNew (db.commitSeq + 1) (commitRow db c repoId header)
          repoFiles := db.repoFiles.insertAll (fileRows (db.commitSeq + 1) rows)
          repoRefs := db.repoRefs.set (repoId, mainRef) (db.commitSeq + 1) } := by
  obtain ⟨ds, hds, hdb⟩ := stageFiles_db x limit db files
  have hwritten := h.written
  rw [hdb] at hwritten
  simp only [commitTx, h.nodup, if_true] at hwritten
  exact ⟨ds, hds, (Prod.mk.inj hwritten).2.symm⟩

/-- A call that went this way answered. -/
theorem answer (h : Committed x limit db c repoId header files rows db') :
    commit x limit db c = (.ok (commitResp x c (db.commitSeq + 1)), db') := by
  have hstage : stageFiles x limit db files = (.ok rows, (stageFiles x limit db files).2) :=
    Prod.ext h.staged rfl
  simp only [commit, h.admitted]
  rw [hstage]
  simp only [h.written]

theorem paths (h : Committed x limit db c repoId header files rows db') :
    rows.map CommitFileRow.path = files.map CommitFile.path :=
  (stageFiles_rows (Prod.ext h.staged rfl)).1

theorem oneBackend (h : Committed x limit db c repoId header files rows db') :
    ∀ r ∈ rows, r.OneBackend :=
  (stageFiles_rows (Prod.ext h.staged rfl)).2

/-- A path occurs once among the new rows, so its row can be found. -/
theorem nodup_fileRows (h : Committed x limit db c repoId header files rows db') (commitId : Int) :
    ((fileRows commitId rows).map Prod.fst).Nodup := by
  have hkeys : (fileRows commitId rows).map Prod.fst =
      (rows.map CommitFileRow.path).map fun path => (commitId, path) := by
    simp [fileRows, List.map_map, Function.comp_def]
  rw [hkeys]
  exact h.nodup.map (fun a b hEq => (Prod.mk.inj hEq).2)

end Committed

/-! ## Every request, table by table -/

/-- The commits, the branches and the manifests are as they were; an id may have been spent. -/
structure SameHistory (db db' : HubDatabase) : Prop where
  repoCommits : db'.repoCommits = db.repoCommits
  repoRefs : db'.repoRefs = db.repoRefs
  repoFiles : db'.repoFiles = db.repoFiles
  commitSeq : db.commitSeq ≤ db'.commitSeq

theorem SameHistory.refl (db : HubDatabase) : SameHistory db db := ⟨rfl, rfl, rfl, le_rfl⟩

theorem SameHistory.store (x : HubCrates) (db : HubDatabase) (ds : List Bytes) :
    SameHistory db (db.store x ds) := ⟨rfl, rfl, rfl, le_rfl⟩

/-- What `lfs_upload` does. -/
theorem lfsUpload_db (x : HubCrates) (db : HubDatabase) (oidHex body : Bytes) :
    ∃ ds, ds ⊆ [body] ∧ (lfsUpload x db oidHex body).2 = db.store x ds := by
  unfold lfsUpload
  split
  · exact ⟨[], List.nil_subset _, rfl⟩
  · split
    · exact ⟨[], List.nil_subset _, rfl⟩
    · split
      · exact ⟨[], List.nil_subset _, rfl⟩
      · rename_i expected _ hdigest
        have hEq : expected = (x.sha256 body).1 := Decidable.not_not.1 hdigest
        exact ⟨[body], List.Subset.refl _, by rw [hEq]; rfl⟩

/-- What `create_repo` does. -/
theorem createRepo_db (db : HubDatabase) (ctx : AuthContext) (req : CreateRepoReq) (now : Nat) :
    (createRepo db ctx req now).2 = db ∨ ∃ row,
      (createRepo db ctx req now).2 =
        { db with
          repos := db.repos.insertNew (db.repoSeq + 1) row
          repoSeq := db.repoSeq + 1 } := by
  unfold createRepo
  split
  · exact .inl rfl
  · dsimp only
    split
    · split
      · exact .inl rfl
      · exact .inr ⟨_, rfl⟩
    · exact .inl rfl

/-- Only a commit that succeeds writes history. -/
theorem serve_history (x : HubCrates) (db : HubDatabase) (r : Request) :
    SameHistory db (serve x db r) ∨
      ∃ limit c repoId header files rows, r = .commit limit c ∧
        Committed x limit db c repoId header files rows (serve x db r) := by
  cases r with
  | commit limit c =>
      have hstage : ∀ files, SameHistory db (stageFiles x limit db files).2 := by
        intro files
        obtain ⟨ds, -, hdb⟩ := stageFiles_db x limit db files
        exact hdb ▸ SameHistory.store x db ds
      -- Refused at admission, at an entry or by the transaction, or committed.
      rcases commit_cases x limit db c with ⟨e, -, he⟩ |
        ⟨e, repoId, header, files, -, ⟨-, he⟩ | ⟨-, -, he⟩⟩ |
        ⟨repoId, header, files, rows, db', hcommitted, he⟩
      · exact .inl (by simpa [serve, he] using SameHistory.refl db)
      · exact .inl (by simpa [serve, he] using hstage files)
      · have hsame := hstage files
        refine .inl ?_
        simp only [serve, he]
        exact ⟨hsame.repoCommits, hsame.repoRefs, hsame.repoFiles, Nat.le_succ _⟩
      · have hdb : serve x db (.commit limit c) = db' := by simp [serve, he]
        exact .inr ⟨limit, c, repoId, header, files, rows, rfl, hdb ▸ hcommitted⟩
  | lfsUpload oidHex body =>
      obtain ⟨ds, -, hdb⟩ := lfsUpload_db x db oidHex body
      exact .inl (by simpa only [serve, hdb] using SameHistory.store x db ds)
  | createRepo ctx req now =>
      rcases createRepo_db db ctx req now with hdb | ⟨row, hdb⟩
      · exact .inl (by simpa only [serve, hdb] using SameHistory.refl db)
      · exact .inl (by simpa only [serve, hdb] using ⟨rfl, rfl, rfl, le_rfl⟩)
  | accounts users apiKeys => exact .inl ⟨rfl, rfl, rfl, le_rfl⟩
  | cas s now scan =>
      left
      simp only [serve, casStmt]
      split
      · exact SameHistory.refl db
      · exact ⟨rfl, rfl, rfl, le_rfl⟩

/-- What a request leaves of `lfs_objects`: contents of its own are added, each under its digest. -/
theorem serve_objects (x : HubCrates) (db : HubDatabase) (r : Request) :
    ∃ ds, ds ⊆ r.contents x ∧
      (serve x db r).lfsObjects = db.lfsObjects.insertAll (objects x ds) := by
  have hkeep : ∃ ds, ds ⊆ r.contents x ∧
      db.lfsObjects = db.lfsObjects.insertAll (objects x ds) :=
    ⟨[], List.nil_subset _, rfl⟩
  cases r with
  | commit limit c =>
      have hstage : ∀ {repoId header files}, admitCommit x db c = .ok (repoId, header, files) →
          ∃ ds, ds ⊆ (Request.commit limit c).contents x ∧
            (stageFiles x limit db files).2.lfsObjects =
              db.lfsObjects.insertAll (objects x ds) := by
        intro repoId header files hparsed
        obtain ⟨ds, hds, hdb⟩ := stageFiles_db x limit db files
        refine ⟨ds, ?_, by rw [hdb]; rfl⟩
        simpa [Request.contents, (admitCommit_ok hparsed).2] using hds
      -- What an entry stored stays, however the commit ends.
      rcases commit_cases x limit db c with ⟨e, -, he⟩ |
        ⟨e, repoId, header, files, hparsed, ⟨-, he⟩ | ⟨-, -, he⟩⟩ |
        ⟨repoId, header, files, rows, db', hcommitted, he⟩
      · simpa only [serve, he] using hkeep
      · simpa only [serve, he] using hstage hparsed
      · simpa only [serve, he] using hstage hparsed
      · obtain ⟨ds, hds, hdb⟩ := hcommitted.db_eq
        refine ⟨ds, ?_, by simp [serve, he, hdb, HubDatabase.store]⟩
        simpa [Request.contents, (admitCommit_ok hcommitted.admitted).2] using hds
  | lfsUpload oidHex body =>
      obtain ⟨ds, hds, hdb⟩ := lfsUpload_db x db oidHex body
      exact ⟨ds, hds, by simp only [serve, hdb]; rfl⟩
  | createRepo ctx req now =>
      rcases createRepo_db db ctx req now with hdb | ⟨row, hdb⟩
      · simpa only [serve, hdb] using hkeep
      · simpa only [serve, hdb] using hkeep
  | accounts users apiKeys => exact hkeep
  | cas s now scan =>
      simp only [serve, casStmt]
      split
      · exact hkeep
      · exact hkeep

/-- The tables a commit may write, whether it succeeds or not. -/
theorem commit_frame (x : HubCrates) (limit : LimitOne) (db : HubDatabase) (c : CommitCall) :
    ∃ ds seq commits files refs, (commit x limit db c).2 =
      { db.store x ds with
        commitSeq := seq
        repoCommits := commits
        repoFiles := files
        repoRefs := refs } := by
  rcases commit_cases x limit db c with ⟨e, -, he⟩ |
    ⟨e, repoId, header, files, -, ⟨-, he⟩ | ⟨-, -, he⟩⟩ |
    ⟨repoId, header, files, rows, db', hcommitted, he⟩
  · exact ⟨[], _, _, _, _, by rw [he]; rfl⟩
  · obtain ⟨ds, -, hdb⟩ := stageFiles_db x limit db files
    exact ⟨ds, _, _, _, _, by rw [he, hdb]⟩
  · obtain ⟨ds, -, hdb⟩ := stageFiles_db x limit db files
    exact ⟨ds, _, _, _, _, by rw [he, hdb]⟩
  · obtain ⟨ds, -, hdb⟩ := hcommitted.db_eq
    exact ⟨ds, _, _, _, _, by rw [he, hdb]⟩

/-- Repositories are created one by one, under the next number of their sequence. -/
theorem serve_repos (x : HubCrates) (db : HubDatabase) (r : Request) :
    ((serve x db r).repos = db.repos ∧ (serve x db r).repoSeq = db.repoSeq) ∨
      ∃ row, (serve x db r).repos = db.repos.insertNew (db.repoSeq + 1) row ∧
        (serve x db r).repoSeq = db.repoSeq + 1 := by
  cases r with
  | commit limit c =>
      obtain ⟨ds, seq, commits, files, refs, hdb⟩ := commit_frame x limit db c
      exact .inl (by simp only [serve, hdb]; exact ⟨rfl, rfl⟩)
  | lfsUpload oidHex body =>
      obtain ⟨ds, -, hdb⟩ := lfsUpload_db x db oidHex body
      exact .inl (by simp only [serve, hdb]; exact ⟨rfl, rfl⟩)
  | createRepo ctx req now =>
      rcases createRepo_db db ctx req now with hdb | ⟨row, hdb⟩
      · exact .inl (by simp [serve, hdb])
      · exact .inr ⟨row, by simp [serve, hdb]⟩
  | accounts users apiKeys => exact .inl ⟨rfl, rfl⟩
  | cas s now scan =>
      left
      simp only [serve, casStmt]
      split
      · exact ⟨rfl, rfl⟩
      · exact ⟨rfl, rfl⟩

/-- A repository stays as it was created. -/
theorem find_repos_serve {x : HubCrates} {db : HubDatabase} {id : Int} {row : RepoRow}
    (h : db.repos.find id = some row) (r : Request) :
    (serve x db r).repos.find id = some row := by
  rcases serve_repos x db r with ⟨hrepos, -⟩ | ⟨new, hrepos, -⟩
  · rw [hrepos]
    exact h
  · rw [hrepos]
    exact Table.find_insertNew_mono h

theorem isSome_repos_serve {x : HubCrates} {db : HubDatabase} {id : Int} (r : Request)
    (h : (db.repos.find id).isSome) : ((serve x db r).repos.find id).isSome := by
  obtain ⟨row, hrow⟩ := Option.isSome_iff_exists.1 h
  rw [find_repos_serve hrow]
  rfl

/-- The tables of the CAS change through its statements only. -/
theorem serve_cas (x : HubCrates) (db : HubDatabase) (r : Request) :
    ((serve x db r).cas = db.cas ∧ (serve x db r).registeredAt = db.registeredAt) ∨
      ∃ s now scan, r = .cas s now scan := by
  cases r with
  | commit limit c =>
      obtain ⟨ds, seq, commits, files, refs, hdb⟩ := commit_frame x limit db c
      exact .inl (by simp only [serve, hdb]; exact ⟨rfl, rfl⟩)
  | lfsUpload oidHex body =>
      obtain ⟨ds, -, hdb⟩ := lfsUpload_db x db oidHex body
      exact .inl (by simp only [serve, hdb]; exact ⟨rfl, rfl⟩)
  | createRepo ctx req now =>
      left
      rcases createRepo_db db ctx req now with hdb | ⟨new, hdb⟩
      · simp [serve, hdb]
      · simp [serve, hdb]
  | accounts users apiKeys => exact .inl ⟨rfl, rfl⟩
  | cas s now scan => exact .inr ⟨s, now, scan, rfl⟩

/-! ## Invariants -/

/-- What holds of the tables of the hub between two requests. -/
structure Sound (x : HubCrates) (db : HubDatabase) : Prop where
  /-- The only branch is `main`, and its head is a commit of its repository. -/
  ref : ∀ {repoId name id}, db.repoRefs.find (repoId, name) = some id →
    name = mainRef ∧ id ∈ db.commitIds repoId
  main : ∀ {repoId id}, id ∈ db.commitIds repoId →
    (db.repoRefs.find (repoId, mainRef)).isSome
  commitId : ∀ {id row}, db.repoCommits.find id = some row →
    1 ≤ id ∧ id ≤ db.commitSeq ∧ (db.repos.find row.repoId).isSome
  file : ∀ {id path row}, db.repoFiles.find (id, path) = some row →
    (db.repoCommits.find id).isSome ∧ row.xetHash.isSome ≠ row.lfsOid.isSome
  object : ∀ {oid row}, db.lfsObjects.find oid = some row →
    oid = (x.sha256 row.content).1 ∧ row.sizeBytes = row.content.length
  registered : ∀ fileId, (db.registeredAt.find fileId).isSome =
    (db.cas.reconstructionFiles.find fileId).isSome

theorem Sound.empty (x : HubCrates) : Sound x .empty where
  ref h := by cases h
  main h := by cases h
  commitId h := by cases h
  file h := by cases h
  object h := by cases h
  registered _ := rfl

/-- Contents stored under their digests keep the table sound. -/
theorem object_insertAll {x : HubCrates} {t : Table Bytes LfsRow} {ds : List Bytes}
    (ht : ∀ {oid row}, t.find oid = some row →
      oid = (x.sha256 row.content).1 ∧ row.sizeBytes = row.content.length)
    {oid : Bytes} {row : LfsRow} (h : (t.insertAll (objects x ds)).find oid = some row) :
    oid = (x.sha256 row.content).1 ∧ row.sizeBytes = row.content.length := by
  rcases Table.find_insertAll_cases h with hold | ⟨-, hnew⟩
  · exact ht hold
  · obtain ⟨d, -, hd⟩ := List.mem_map.1 hnew
    cases hd
    exact ⟨rfl, rfl⟩

/-- Rows of the CAS stay, whatever statement runs. -/
theorem isSome_casStmt {db : HubDatabase} (s : Service.Stmt) (now : Nat)
    (scan : List (Hash × PinRow)) {fileId : Hash}
    (h : (db.cas.reconstructionFiles.find fileId).isSome) :
    ((casStmt db s now scan).cas.reconstructionFiles.find fileId).isSome := by
  unfold casStmt
  split
  · exact h
  · rename_i cas r hexec
    rcases Service.reconstruction_exec hexec with ⟨hsame, -⟩ |
      ⟨shardHash, n, files, terms, db₁, -, hok, hfiles, -⟩
    · rw [hsame]
      exact h
    · obtain ⟨-, -, rfl⟩ := Service.insertShardWithReconstruction_ok hok
      rw [hfiles]
      exact Service.isSome_upsertFiles shardHash files (.inl h)

/-- The times of registration after a statement: those there were, and `now` for new files. -/
theorem find_registeredAt_casStmt {db : HubDatabase}
    (hdb : ∀ fileId, (db.registeredAt.find fileId).isSome =
      (db.cas.reconstructionFiles.find fileId).isSome)
    (s : Service.Stmt) (now : Nat) (scan : List (Hash × PinRow)) (fileId : Hash) :
    (casStmt db s now scan).registeredAt.find fileId =
      (db.registeredAt.find fileId).or
        (((casStmt db s now scan).cas.reconstructionFiles.find fileId).map fun _ => now) := by
  cases hold : db.registeredAt.find fileId with
  | some t =>
      unfold casStmt
      split
      · exact hold
      · exact Table.find_insertAll_mono hold
  | none =>
      -- A file without a time is not in the table, by `hdb`.
      have hnone : db.cas.reconstructionFiles.find fileId = none := by
        have hsame := hdb fileId
        rw [hold] at hsame
        exact Option.not_isSome_iff_eq_none.1 (by rw [← hsame]; exact nofun)
      unfold casStmt
      split
      · simp [hold, hnone]
      · rename_i cas r hexec
        have hkeys : ((cas.reconstructionFiles.rows.map fun r => (r.1, now)).map Prod.fst).Nodup := by
          simpa [List.map_map, Function.comp_def] using cas.reconstructionFiles.nodupKeys
        dsimp only
        cases hnew : cas.reconstructionFiles.find fileId with
        | some row =>
            have hmem := Table.find_eq_some_iff.1 hnew
            exact Table.find_insertAll_of_mem hkeys (List.mem_map.2 ⟨(fileId, row), hmem, rfl⟩) hold
        | none =>
            refine Option.eq_none_iff_forall_ne_some.2 ?_
            intro t ht
            rcases Table.find_insertAll_cases ht with hfind | ⟨-, hmem⟩
            · rw [hold] at hfind
              cases hfind
            · obtain ⟨row, hrow, hEq⟩ := List.mem_map.1 hmem
              cases hEq
              rw [Table.find_eq_some_iff.2 hrow] at hnew
              cases hnew

/-- A statement of the CAS registers what it adds. -/
theorem registered_casStmt {db : HubDatabase}
    (hdb : ∀ fileId, (db.registeredAt.find fileId).isSome =
      (db.cas.reconstructionFiles.find fileId).isSome)
    (s : Service.Stmt) (now : Nat) (scan : List (Hash × PinRow)) (fileId : Hash) :
    ((casStmt db s now scan).registeredAt.find fileId).isSome =
      ((casStmt db s now scan).cas.reconstructionFiles.find fileId).isSome := by
  rw [find_registeredAt_casStmt hdb]
  cases hold : db.registeredAt.find fileId with
  | some t =>
      have hsome := hdb fileId
      rw [hold] at hsome
      rw [isSome_casStmt s now scan hsome.symm]
      rfl
  | none => simp

/-- A new commit has no manifest yet, and its id is new. -/
theorem Sound.fresh {x : HubCrates} {db : HubDatabase} (h : Sound x db) :
    db.repoCommits.find (db.commitSeq + 1) = none ∧
      ∀ path, db.repoFiles.find (db.commitSeq + 1, path) = none := by
  have hcommit : db.repoCommits.find (db.commitSeq + 1) = none := by
    refine Option.eq_none_iff_forall_ne_some.2 ?_
    intro row hrow
    have hle := (h.commitId hrow).2.1
    omega
  refine ⟨hcommit, fun path => Option.eq_none_iff_forall_ne_some.2 ?_⟩
  intro row hrow
  have hsome := (h.file hrow).1
  rw [hcommit] at hsome
  cases hsome

namespace Committed

variable {x : HubCrates} {limit : LimitOne} {db db' : HubDatabase} {c : CommitCall} {repoId : Int}
  {header : CommitHeader} {files : List CommitFile} {rows : List CommitFileRow}

/-- The row of the commit is new, the others stay. -/
theorem find_commit (h : Committed x limit db c repoId header files rows db')
    (hdb : Sound x db) (id : Int) :
    db'.repoCommits.find id =
      if id = db.commitSeq + 1 then some (commitRow db c repoId header)
      else db.repoCommits.find id := by
  obtain ⟨ds, -, hEq⟩ := h.db_eq
  simp [hEq, HubDatabase.store, Table.find_insertNew, hdb.fresh.1]

theorem commitSeq_eq (h : Committed x limit db c repoId header files rows db') :
    db'.commitSeq = db.commitSeq + 1 := by
  obtain ⟨ds, -, hEq⟩ := h.db_eq
  rw [hEq]

/-- After a commit the repository has one commit more. -/
theorem mem_commitIds (h : Committed x limit db c repoId header files rows db')
    (hdb : Sound x db) {r id : Int} :
    id ∈ db'.commitIds r ↔ id ∈ db.commitIds r ∨ id = db.commitSeq + 1 ∧ r = repoId := by
  simp only [HubDatabase.mem_commitIds, h.find_commit hdb]
  by_cases hid : id = db.commitSeq + 1
  · -- No older commit has this id.
    subst hid
    simp [hdb.fresh.1, commitRow, eq_comm]
  · simp [hid]

/-- The head of `main` is the new commit, the other heads stay. -/
theorem find_ref (h : Committed x limit db c repoId header files rows db') (r : Int)
    (name : Bytes) :
    db'.repoRefs.find (r, name) =
      if (r, name) = (repoId, mainRef) then some ((db.commitSeq : Int) + 1)
      else db.repoRefs.find (r, name) := by
  obtain ⟨ds, -, hEq⟩ := h.db_eq
  by_cases hkey : (r, name) = (repoId, mainRef)
  · simp [hEq, hkey]
  · simp only [hEq, HubDatabase.store, hkey, if_false]
    exact Table.find_set_of_ne _ _ hkey

/-- The manifest of the new commit is what it staged. -/
theorem find_file_new (h : Committed x limit db c repoId header files rows db')
    (hdb : Sound x db) {path : Bytes} {row : RepoFileRow} :
    db'.repoFiles.find (db.commitSeq + 1, path) = some row ↔
      ∃ r ∈ rows, r.path = path ∧ row = ⟨r.size, r.xetHash, r.lfsOid⟩ := by
  obtain ⟨ds, -, hEq⟩ := h.db_eq
  have hfiles : db'.repoFiles = db.repoFiles.insertAll (fileRows (db.commitSeq + 1) rows) := by
    rw [hEq]
  have hfree := hdb.fresh.2 path
  rw [hfiles]
  constructor
  · intro hfind
    rcases Table.find_insertAll_cases hfind with hold | ⟨-, hnew⟩
    · rw [hfree] at hold
      cases hold
    · obtain ⟨r, hr, hkey⟩ := List.mem_map.1 hnew
      cases hkey
      exact ⟨r, hr, rfl, rfl⟩
  · rintro ⟨r, hr, rfl, rfl⟩
    exact Table.find_insertAll_of_mem (h.nodup_fileRows _) (List.mem_map.2 ⟨r, hr, rfl⟩) hfree

/-- The manifests of other commits stay. -/
theorem find_file_old (h : Committed x limit db c repoId header files rows db') {id : Int}
    (hid : id ≠ db.commitSeq + 1) (path : Bytes) :
    db'.repoFiles.find (id, path) = db.repoFiles.find (id, path) := by
  obtain ⟨ds, -, hEq⟩ := h.db_eq
  have hfiles : db'.repoFiles = db.repoFiles.insertAll (fileRows (db.commitSeq + 1) rows) := by
    rw [hEq]
  rw [hfiles]
  cases hold : db.repoFiles.find (id, path) with
  | some row => exact Table.find_insertAll_mono hold
  | none =>
      refine Option.eq_none_iff_forall_ne_some.2 ?_
      intro row hrow
      rcases Table.find_insertAll_cases hrow with hfind | ⟨-, hnew⟩
      · rw [hold] at hfind
        cases hfind
      · obtain ⟨r, -, hkey⟩ := List.mem_map.1 hnew
        exact hid (congrArg (fun k => k.1.1) hkey).symm

end Committed

/-- The facts about the history are kept by what leaves the history. -/
theorem SameHistory.commitIds {db db' : HubDatabase} (h : SameHistory db db') (repoId : Int) :
    db'.commitIds repoId = db.commitIds repoId := by
  simp [HubDatabase.commitIds, h.repoCommits]

/-- Every request keeps the tables sound. -/
theorem Sound.serve {x : HubCrates} {db : HubDatabase} (h : Sound x db) (r : Request) :
    Sound x (serve x db r) where
  ref := by
    intro repoId name id hfind
    rcases serve_history x db r with hsame | ⟨limit, c, repo, header, files, rows, -, hcommitted⟩
    · rw [hsame.repoRefs] at hfind
      rw [hsame.commitIds]
      exact h.ref hfind
    · rw [hcommitted.find_ref] at hfind
      rw [hcommitted.mem_commitIds h]
      split at hfind
      · rename_i hkey
        cases hkey
        cases hfind
        exact ⟨rfl, .inr ⟨rfl, rfl⟩⟩
      · exact ⟨(h.ref hfind).1, .inl (h.ref hfind).2⟩
  main := by
    intro repoId id hmem
    rcases serve_history x db r with hsame | ⟨limit, c, repo, header, files, rows, -, hcommitted⟩
    · rw [hsame.commitIds] at hmem
      rw [hsame.repoRefs]
      exact h.main hmem
    · rw [hcommitted.mem_commitIds h] at hmem
      rw [hcommitted.find_ref]
      split
      · rfl
      · rename_i hkey
        rcases hmem with hold | ⟨-, hrepo⟩
        · exact h.main hold
        · exact absurd (by rw [hrepo]) hkey
  commitId := by
    intro id row hfind
    rcases serve_history x db r with hsame | ⟨limit, c, repo, header, files, rows, -, hcommitted⟩
    · rw [hsame.repoCommits] at hfind
      obtain ⟨hlow, hhigh, hrepo⟩ := h.commitId hfind
      exact ⟨hlow, hhigh.trans (by exact_mod_cast hsame.commitSeq), isSome_repos_serve r hrepo⟩
    · rw [hcommitted.find_commit h] at hfind
      rw [hcommitted.commitSeq_eq]
      split at hfind
      · -- The commit itself: its repository was found when it was admitted.
        cases hfind
        obtain ⟨⟨repoRow, hrow, -⟩, -⟩ := admitCommit_ok hcommitted.admitted
        exact ⟨by omega, by omega, isSome_repos_serve r (Option.isSome_iff_exists.2 ⟨_, hrow⟩)⟩
      · obtain ⟨hlow, hhigh, hrepo⟩ := h.commitId hfind
        exact ⟨hlow, by omega, isSome_repos_serve r hrepo⟩
  file := by
    intro id path row hfind
    rcases serve_history x db r with hsame | ⟨limit, c, repo, header, files, rows, -, hcommitted⟩
    · rw [hsame.repoFiles] at hfind
      rw [hsame.repoCommits]
      exact h.file hfind
    · rw [hcommitted.find_commit h]
      split
      · -- The manifest of the commit is what it staged, one backend an entry.
        rename_i hid
        subst hid
        obtain ⟨staged, hstaged, -, rfl⟩ := (hcommitted.find_file_new h).1 hfind
        exact ⟨rfl, hcommitted.oneBackend staged hstaged⟩
      · rename_i hid
        rw [hcommitted.find_file_old hid] at hfind
        exact h.file hfind
  object := by
    obtain ⟨ds, -, hobjects⟩ := serve_objects x db r
    rw [hobjects]
    exact fun hfind => object_insertAll h.object hfind
  registered := by
    intro fileId
    rcases serve_cas x db r with ⟨hcas, hreg⟩ | ⟨s, now, scan, rfl⟩
    · rw [hcas, hreg]
      exact h.registered fileId
    · exact registered_casStmt h.registered s now scan fileId

theorem Reachable.sound {x : HubCrates} {db : HubDatabase} (h : Reachable x db) : Sound x db :=
  h.induction (Sound.empty x) fun _ r hdb => hdb.serve r

end Hub
end OpenWeights
