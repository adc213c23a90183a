import OpenWeights.Core.XetFiles
import OpenWeights.Hub.Revisions

/-!
# Backing — the storage behind the files of a commit

A row of `repo_files` is backed if the object or the registered file it names exists and has the size
of the row.  Four of the five ways to stage an entry see to that.  An entry that declares a `xet_hash`
is compared with the xorbs, or not at all where it brings a size of its own, and is then served from
the registered files.
-/

namespace OpenWeights
namespace Hub

open Lib Db

/-! ## What is behind a row -/

/-- The first query of `xet_file_serve`: the size of the file, unless it was never uploaded.  The rest
of the handler is `Core.xetFileServe`. -/
def xetFileSize (db : HubDatabase) (xetHashHex : Bytes) : Except AppError Int :=
  match hexDecode xetHashHex with
  | none => .error (.badRequest "bad_xet_hash")
  | some fileId =>
      match (HubDatabase.asHash fileId).bind fun h => db.cas.reconstructionFiles.find h with
      | none => .error .notFound
      | some f => .ok f.totalSize

section Serve

variable {db : HubDatabase} {xetHashHex : Bytes} {x : Core.Crates} (d : Core.ChunkDecoder x)
  (downloadRange : Core.DownloadRange)

/-- A file that was never uploaded is a 404, whatever Sia has. -/
theorem xetFileServe_of_notFound {bytes : Bytes} {fileId : Hash}
    (hbytes : hexDecode xetHashHex = some bytes) (hid : HubDatabase.asHash bytes = some fileId)
    (h : xetFileSize db xetHashHex = .error .notFound) :
    Core.xetFileServe d downloadRange db.cas fileId = .error .notFound := by
  have hnone : db.cas.reconstructionFiles.find fileId = none := by
    cases hfind : db.cas.reconstructionFiles.find fileId with
    | none => rfl
    | some f => simp [xetFileSize, hbytes, hid, hfind] at h
  simp only [Core.xetFileServe, hnone]

/-- Of a file that was uploaded the handler serves as many bytes as the first query says, or fails at
a xorb behind it. -/
theorem length_xetFileServe {size : Int} (h : xetFileSize db xetHashHex = .ok size) :
    ∃ bytes fileId, hexDecode xetHashHex = some bytes ∧ HubDatabase.asHash bytes = some fileId ∧
      ∀ out, Core.xetFileServe d downloadRange db.cas fileId = .ok out →
        (out.length : Int) = size := by
  cases hbytes : hexDecode xetHashHex with
  | none => simp [xetFileSize, hbytes] at h
  | some bytes =>
      cases hid : HubDatabase.asHash bytes with
      | none => simp [xetFileSize, hbytes, hid] at h
      | some fileId =>
          cases hfind : db.cas.reconstructionFiles.find fileId with
          | none => simp [xetFileSize, hbytes, hid, hfind] at h
          | some f =>
              have hsize : f.totalSize = size := by
                simpa [xetFileSize, hbytes, hid, hfind] using h
              refine ⟨bytes, fileId, rfl, hid, fun out hout => ?_⟩
              rw [Core.length_of_xetFileServe_ok hfind hout, hsize]

end Serve

/-- The bytes name a registered file of this size. -/
def RegisteredFile (db : HubDatabase) (xetHash : Bytes) (size : Int) : Prop :=
  ∃ fileId f, HubDatabase.asHash xetHash = some fileId ∧
    db.cas.reconstructionFiles.find fileId = some f ∧ f.totalSize = size

/-- What the row refers to exists and has the size of the row. -/
structure Backed (db : HubDatabase) (row : RepoFileRow) : Prop where
  lfs : ∀ oid, row.lfsOid = some oid →
    ∃ o, db.lfsObjects.find oid = some o ∧ o.sizeBytes = row.sizeBytes
  xet : ∀ xetHash, row.xetHash = some xetHash → RegisteredFile db xetHash row.sizeBytes

/-- An entry that declares a xet hash names a registered file of the size that is recorded. -/
def NamesFile (db : HubDatabase) (f : CommitFile) : Prop :=
  ∀ xh, f.xetHash = some xh → ∀ bytes, hexDecode xh = some bytes →
    ∀ size, (db.xorbSize bytes).or f.size = some size → RegisteredFile db bytes size

def HubDatabase.storedContents (db : HubDatabase) : Set Bytes :=
  {d | ∃ oid row, db.lfsObjects.find oid = some row ∧ row.content = d}

/-! ## What storing keeps -/

theorem Backed.store {x : HubCrates} {db : HubDatabase} {row : RepoFileRow} (h : Backed db row)
    (ds : List Bytes) : Backed (db.store x ds) row where
  lfs := by
    intro oid hoid
    obtain ⟨o, ho, hsize⟩ := h.lfs oid hoid
    exact ⟨o, Table.find_insertAll_mono ho, hsize⟩
  xet := h.xet

/-- The object of a content is there after it was stored, and has its length. -/
theorem lfsObjects_store_self {x : HubCrates} {db : HubDatabase} (hdb : Sound x db) {S : Set Bytes}
    (hsha : Set.InjOn x.sha256 S) (hstored : db.storedContents ⊆ S) {d : Bytes} (hd : d ∈ S) :
    ∃ o, (db.insertLfsObject (x.sha256 d).1 d).lfsObjects.find (x.sha256 d).1 = some o ∧
      o.sizeBytes = d.length := by
  refine ⟨_, Table.find_insertNew_self _ _ _, ?_⟩
  cases hold : db.lfsObjects.find (x.sha256 d).1 with
  | none => rfl
  | some o =>
      -- The object that is there has the same digest, so it has the same content.
      obtain ⟨hoid, hsize⟩ := hdb.object hold
      have hcontent : d = o.content := hsha hd (hstored ⟨_, o, hold, rfl⟩) (Subtype.ext hoid)
      rw [hcontent]
      exact hsize

/-- A registered file stays registered, with its size. -/
theorem RegisteredFile.serve {x : HubCrates} {db : HubDatabase} {xetHash : Bytes} {size : Int}
    (h : RegisteredFile db xetHash size) (r : Request) :
    RegisteredFile (serve x db r) xetHash size := by
  obtain ⟨fileId, f, hid, hf, hsize⟩ := h
  rcases serve_cas x db r with ⟨hcas, -⟩ | ⟨s, now, scan, rfl⟩
  · exact ⟨fileId, f, hid, by rw [hcas]; exact hf, hsize⟩
  · have hcas : (Hub.serve x db (.cas s now scan)).cas = db.cas ∨
        ∃ r, s.exec now scan db.cas = some ((Hub.serve x db (.cas s now scan)).cas, r) := by
      simp only [Hub.serve, casStmt]
      split
      · exact .inl rfl
      · rename_i cas r hexec
        exact .inr ⟨r, hexec⟩
    rcases hcas with hcas | ⟨r, hexec⟩
    · exact ⟨fileId, f, hid, by rw [hcas]; exact hf, hsize⟩
    · rcases Service.reconstruction_exec hexec with ⟨hsame, -⟩ |
        ⟨h, n, files, terms, db₁, -, hok, hfiles, -⟩
      · exact ⟨fileId, f, hid, by rw [hsame]; exact hf, hsize⟩
      · obtain ⟨-, -, rfl⟩ := Service.insertShardWithReconstruction_ok hok
        obtain ⟨f', hf', hsize'⟩ := Service.totalSize_upsertFiles h files hf
        exact ⟨fileId, f', hid, by rw [hfiles]; exact hf', hsize'.trans hsize⟩

/-- A row stays backed. -/
theorem Backed.serve {x : HubCrates} {db : HubDatabase} {row : RepoFileRow} (h : Backed db row)
    (r : Request) : Backed (serve x db r) row where
  lfs := by
    intro oid hoid
    obtain ⟨o, ho, hsize⟩ := h.lfs oid hoid
    obtain ⟨ds, -, hobjects⟩ := serve_objects x db r
    exact ⟨o, by rw [hobjects]; exact Table.find_insertAll_mono ho, hsize⟩
  xet := fun xetHash hx => (h.xet xetHash hx).serve r

/-! ## What staging backs -/

/-- A file with a sha256 and a size is a registered file of that size. -/
theorem registeredFile_of_newest {db : HubDatabase} {sha256 : Bytes} {size : Int} {fileId : Hash}
    (h : fileId ∈ db.newestFile sha256 size) : RegisteredFile db fileId.1 size := by
  obtain ⟨claimant, hmem, rfl⟩ := List.mem_map.1 h
  obtain ⟨⟨fileId, row⟩, hrow, hEq⟩ := List.mem_filterMap.1 (List.mem_filter.1 hmem).1
  split at hEq
  · rename_i hclaim
    obtain ⟨t, -, rfl⟩ := Option.map_eq_some_iff.1 hEq
    have hid : HubDatabase.asHash fileId.1 = some fileId := by
      simp [HubDatabase.asHash, fileId.2]
    exact ⟨fileId, row, hid, Table.find_eq_some_iff.2 hrow, hclaim.2⟩
  · cases hEq

section Stage

variable {x : HubCrates} {limit : LimitOne} {S : Set Bytes}

/-- An entry is staged with something behind it, whatever is stored later, unless it declares a xet
hash; then it depends on whether that names a file. -/
theorem backed_stageFile_iff (hsha : Set.InjOn x.sha256 S) {db db' : HubDatabase} (hdb : Sound x db)
    (hstored : db.storedContents ⊆ S) {f : CommitFile} (hf : ∀ d ∈ inlineContents x [f], d ∈ S)
    {row : CommitFileRow} (hok : stageFile x limit db f = .ok (row, db')) (later : List Bytes) :
    Backed (db'.store x later) row.toRow ↔ NamesFile db f := by
  have hingest : ∀ {inline decoded : Bytes}, f.xetHash = none → f.content = some inline →
      x.base64Decode inline = some decoded →
      (Backed ((ingest x db f.path decoded).2.store x later) (ingest x db f.path decoded).1.toRow ↔
        NamesFile db f) := by
    intro inline decoded hxet hcontent hdecoded
    have hmem : decoded ∈ S := hf decoded (by simp [inlineContents, hcontent, hdecoded])
    have hbacked : Backed (ingest x db f.path decoded).2
        (ingest x db f.path decoded).1.toRow := by
      refine ⟨fun oid hoid => ?_, nofun⟩
      cases hoid
      exact lfsObjects_store_self hdb hsha hstored hmem
    refine iff_of_true (hbacked.store later) ?_
    intro xh hx
    rw [hxet] at hx
    cases hx
  unfold stageFile at hok
  split at hok
  · -- A declared xet hash: the row is what was declared.
    rename_i xh hxet
    split at hok
    · cases hok
    · rename_i bytes hbytes
      split at hok
      · cases hok
      · rename_i size hsize
        cases hok
        constructor
        · intro hbacked xh' hxh' bytes' hbytes' size' hsize'
          rw [hxet] at hxh'
          cases hxh'
          rw [hbytes] at hbytes'
          cases hbytes'
          rw [hsize] at hsize'
          cases hsize'
          exact hbacked.xet bytes rfl
        · intro hnames
          refine ⟨nofun, fun xetHash hx => ?_⟩
          cases hx
          exact hnames xh hxet bytes hbytes size hsize
  · rename_i oid inline hxet hoid hcontent
    split at hok
    · cases hok
    · split at hok
      · cases hok
      · rename_i decoded hdecoded
        split at hok
        · cases hok
        · split at hok
          · cases hok
          · cases hok
            exact hingest hxet hcontent hdecoded
  · rename_i oid hxet hoid hcontent
    have hnames : NamesFile db f := by
      intro xh hx
      rw [hxet] at hx
      cases hx
    split at hok
    · cases hok
    · rename_i oidBytes hbytes
      split at hok
      · -- The object is there already.
        rename_i size hsize
        cases hok
        obtain ⟨o, ho, hEq⟩ := Option.map_eq_some_iff.1 hsize
        refine iff_of_true ⟨fun oid' hoid' => ?_, nofun⟩ hnames
        cases hoid'
        exact ⟨o, Table.find_insertAll_mono ho, hEq⟩
      · split at hok
        · cases hok
        · rename_i size hsize
          split at hok
          · -- The file was found by its sha256 and the size.
            rename_i fileId hpick
            cases hok
            refine iff_of_true ⟨nofun, fun xetHash hx => ?_⟩ hnames
            cases hx
            exact registeredFile_of_newest (limit.mem hpick)
          · cases hok
  · rename_i inline hxet hoid hcontent
    split at hok
    · cases hok
    · rename_i decoded hdecoded
      split at hok
      · cases hok
      · cases hok
        exact hingest hxet hcontent hdecoded
  · cases hok

/-- Storing keeps the tables sound. -/
theorem Sound.store {db : HubDatabase} (h : Sound x db) (ds : List Bytes) : Sound x (db.store x ds) where
  ref := h.ref
  main := h.main
  commitId := h.commitId
  file := h.file
  object := fun hfind => object_insertAll h.object hfind
  registered := h.registered

theorem storedContents_store {db : HubDatabase} (hstored : db.storedContents ⊆ S) {ds : List Bytes}
    (hds : ∀ d ∈ ds, d ∈ S) : (db.store x ds).storedContents ⊆ S := by
  rintro d ⟨oid, row, hrow, rfl⟩
  rcases Table.find_insertAll_cases hrow with hold | ⟨-, hnew⟩
  · exact hstored ⟨oid, row, hold, rfl⟩
  · obtain ⟨d, hd, hEq⟩ := List.mem_map.1 hnew
    cases hEq
    exact hds d hd

/-- All entries of a commit are backed if and only if those that declare a xet hash name files. -/
theorem backed_stageFiles_iff (hsha : Set.InjOn x.sha256 S) {db db' : HubDatabase} (hdb : Sound x db)
    (hstored : db.storedContents ⊆ S) {files : List CommitFile}
    (hf : ∀ d ∈ inlineContents x files, d ∈ S) {rows : List CommitFileRow}
    (hok : stageFiles x limit db files = (.ok rows, db')) :
    (∀ r ∈ rows, Backed db' r.toRow) ↔ ∀ f ∈ files, NamesFile db f := by
  induction files generalizing db rows with
  | nil =>
      cases hok
      simp
  | cons f fs ih =>
      obtain ⟨row, db₁, rest, hrow, hrest, rfl⟩ := stageFiles_cons hok
      obtain ⟨hpath, -, rfl⟩ := stageFile_ok hrow
      have hsplit : inlineContents x ([f] ++ fs) = inlineContents x [f] ++ inlineContents x fs :=
        List.filterMap_append
      have hhere : ∀ d ∈ inlineContents x [f], d ∈ S := fun d hd =>
        hf d (by rw [← List.singleton_append, hsplit]; exact List.mem_append_left _ hd)
      have hthere : ∀ d ∈ inlineContents x fs, d ∈ S := fun d hd =>
        hf d (by rw [← List.singleton_append, hsplit]; exact List.mem_append_right _ hd)
      have hstage : ∀ d ∈ ingested x [f], d ∈ S := fun d hd =>
        hhere d (ingested_subset x (List.Subset.refl _) hd)
      -- What comes after the first entry only adds objects.
      obtain ⟨later, -, hdb'⟩ := stageFiles_db x limit (db.store x (ingested x [f])) fs
      rw [hrest] at hdb'
      have hdb' : db' = (db.store x (ingested x [f])).store x later := hdb'
      have hfirst : Backed db' row.toRow ↔ NamesFile db f := by
        rw [hdb']
        exact backed_stageFile_iff hsha hdb hstored hhere hrow later
      have hothers := ih (hdb.store _) (storedContents_store hstored hstage) hthere hrest
      have hnames : (∀ f' ∈ fs, NamesFile (db.store x (ingested x [f])) f') ↔
          ∀ f' ∈ fs, NamesFile db f' := Iff.rfl
      rw [List.forall_mem_cons, List.forall_mem_cons, hfirst, hothers, hnames]

end Stage

/-! ## Following a redirect -/

theorem fromStrRadix16_hexDigits (b : UInt8) :
    fromStrRadix16 (hexDigit (b.toNat / 16)) (hexDigit (b.toNat % 16)) = some b := by
  have hall : ∀ n < 256,
      fromStrRadix16 (hexDigit (n / 16)) (hexDigit (n % 16)) = some (UInt8.ofNat n) := by
    decide +kernel
  rw [hall b.toNat b.toNat_lt, UInt8.ofNat_toNat]

theorem hexPairs_hexEncode (bytes : Bytes) : hexPairs (hexEncode bytes) = some bytes := by
  induction bytes with
  | nil => rfl
  | cons b rest ih =>
      have hcons : hexEncode (b :: rest) =
          hexDigit (b.toNat / 16) :: hexDigit (b.toNat % 16) :: hexEncode rest := rfl
      rw [hcons, hexPairs, fromStrRadix16_hexDigits, ih]
      rfl

/-- The path of a redirect is read back as the bytes it was made of. -/
theorem hexDecode_redirect (bytes : Bytes) : hexDecode (hexEncode bytes) = some bytes := by
  have hprefix : ¬lit "sha256:" <+: hexEncode bytes := by
    rintro ⟨rest, hEq⟩
    -- The prefix has a letter that is no digit.
    have hmem : (115 : UInt8) ∈ hexEncode bytes := by
      rw [← hEq]
      exact List.mem_append_left _ (by decide)
    rcases mem_hexEncode hmem with ⟨-, hdigit⟩ | ⟨-, hletter⟩
    · exact absurd hdigit (by decide)
    · exact absurd hletter (by decide)
  rw [hexDecode, if_neg hprefix, hexPairs_hexEncode]

/-- The handler behind the redirect finds what was uploaded, with the announced size. -/
def Followed (db : HubDatabase) (info : ResolvedInfo) : Prop :=
  match info.backend with
  | .lfs oid => ∃ content, lfsDownload db (hexEncode oid) = .ok content ∧
      (content.length : Int) = info.size
  | .xet xetHash => xetFileSize db (hexEncode xetHash) = .ok info.size

theorem Backed.followed {x : HubCrates} {db : HubDatabase} (hdb : Sound x db) {row : RepoFileRow}
    (h : Backed db row) {repoId : Int} {backend : ResolvedBackend}
    (hbackend : backendOf row = some backend) :
    Followed db (resolvedInfo db repoId row backend) := by
  unfold backendOf at hbackend
  split at hbackend
  · rename_i xetHash hx
    cases hbackend
    obtain ⟨fileId, f, hid, hf, hsize⟩ := h.xet xetHash hx
    simp [Followed, resolvedInfo, xetFileSize, hexDecode_redirect, hid, hf, hsize]
  · rename_i oid hx ho
    cases hbackend
    obtain ⟨o, hfind, hsize⟩ := h.lfs oid ho
    refine ⟨o.content, by simp [lfsDownload, hexDecode_redirect, hfind], ?_⟩
    exact (hdb.object hfind).2.symm.trans hsize
  · cases hbackend

/-- What a successful lookup stands for: a row of a manifest. -/
theorem resolveLookup_ok {x : HubCrates} {db : HubDatabase} {viewer : Option Int}
    {owner repo revision path : Bytes} {info : ResolvedInfo}
    (hok : resolveLookup x db viewer owner repo revision path = .ok info) :
    ∃ repoId id row backend, db.repoFiles.find (id, path) = some row ∧
      backendOf row = some backend ∧ info = resolvedInfo db repoId row backend := by
  cases hread : readableRepo db owner repo viewer with
  | error e => simp [resolveLookup, hread, bind, Except.bind] at hok
  | ok repoId =>
      rw [resolveLookup_of_readable hread] at hok
      split at hok
      · cases hok
      · cases hok
      · rename_i row hrevision
        split at hok
        · cases hok
        · rename_i backend hbackend
          cases hok
          refine ⟨repoId, ?_⟩
          -- Either way the row was looked up under the id of a commit.
          unfold revisionFile at hrevision
          split at hrevision
          · obtain ⟨id, -, hfile⟩ := Option.bind_eq_some_iff.1 (Except.ok.inj hrevision)
            exact ⟨id, row, backend, hfile, hbackend, rfl⟩
          · split at hrevision
            · cases hrevision
            · rename_i id hfound
              exact ⟨id, row, backend, Except.ok.inj hrevision, hbackend, rfl⟩

/-! ## Over whole runs -/

section Runs

variable {x : HubCrates} {S : Set Bytes}

/-- The contents a request brings are among `S`. -/
def BringsInto (x : HubCrates) (S : Set Bytes) (r : Request) : Prop :=
  ∀ d ∈ r.contents x, d ∈ S

/-- A commit that succeeds names registered files where it declares a xet hash. -/
def NamesFiles (x : HubCrates) (db : HubDatabase) : Request → Prop
  | .commit limit c => (∃ resp, (commit x limit db c).1 = .ok resp) →
      ∀ f ∈ bodyEntries x c.body, NamesFile db f
  | _ => True

theorem storedContents_of_reached {db : HubDatabase}
    (h : ReachedBy x (fun _ r => BringsInto x S r) db) : db.storedContents ⊆ S := by
  induction h with
  | empty =>
      rintro d ⟨oid, row, hrow, -⟩
      cases hrow
  | serve h r hr ih =>
      rename_i db
      obtain ⟨ds, hds, hobjects⟩ := serve_objects x db r
      have hstore := storedContents_store (x := x) ih fun d hd => hr d (hds hd)
      rintro d ⟨oid, row, hrow, rfl⟩
      rw [hobjects] at hrow
      exact hstore ⟨oid, row, hrow, rfl⟩

/-- What one commit inserts is backed if and only if it names files. -/
theorem backed_commit_iff (hsha : Set.InjOn x.sha256 S) {db db' : HubDatabase}
    (hreach : ReachedBy x (fun _ r => BringsInto x S r) db) {limit : LimitOne} {c : CommitCall}
    {repoId : Int} {header : CommitHeader} {files : List CommitFile} {rows : List CommitFileRow}
    (hcommitted : Committed x limit db c repoId header files rows db')
    (hc : BringsInto x S (.commit limit c)) :
    (∀ path row, db'.repoFiles.find (db.commitSeq + 1, path) = some row → Backed db' row) ↔
      ∀ f ∈ bodyEntries x c.body, NamesFile db f := by
  have hdb := hreach.reachable.sound
  have hparsed := (admitCommit_ok hcommitted.admitted).2
  have hfiles : files = bodyEntries x c.body := parseBody_ok hparsed
  have hcontents : ∀ d ∈ inlineContents x files, d ∈ S := by
    simpa [BringsInto, Request.contents, hparsed] using hc
  have hstage := backed_stageFiles_iff hsha hdb (storedContents_of_reached hreach) hcontents
    (Prod.ext hcommitted.staged rfl)
  -- The transaction leaves the objects and the registered files.
  have hsame : ∀ row, Backed db' row ↔ Backed (stageFiles x limit db files).2 row := by
    obtain ⟨ds, -, hds⟩ := stageFiles_db x limit db files
    have hwritten := hcommitted.written
    simp only [commitTx, hcommitted.nodup, if_true] at hwritten
    intro row
    rw [← (Prod.mk.inj hwritten).2]
    exact ⟨fun h => ⟨h.lfs, h.xet⟩, fun h => ⟨h.lfs, h.xet⟩⟩
  rw [← hfiles, ← hstage]
  constructor
  · intro h r hr
    exact (hsame _).1 (h r.path r.toRow ((hcommitted.find_file_new hdb).2 ⟨r, hr, rfl, rfl⟩))
  · intro h path row hrow
    obtain ⟨r, hr, -, rfl⟩ := (hcommitted.find_file_new hdb).1 hrow
    exact (hsame _).2 (h r hr)

/-- In a run whose commits name files, every row is backed. -/
theorem backed_of_reached (hsha : Set.InjOn x.sha256 S) {db : HubDatabase}
    (h : ReachedBy x (fun db r => BringsInto x S r ∧ NamesFiles x db r) db) :
    ∀ id path row, db.repoFiles.find (id, path) = some row → Backed db row := by
  induction h with
  | empty =>
      intro id path row hrow
      cases hrow
  | serve h r hr ih =>
      rename_i db
      intro id path row hrow
      rcases serve_history x db r with hsame | ⟨limit, c, repoId, header, files, rows, rfl, hcommitted⟩
      · rw [hsame.repoFiles] at hrow
        exact (ih id path row hrow).serve r
      · by_cases hid : id = db.commitSeq + 1
        · subst hid
          have hnames := hr.2 ⟨_, by rw [hcommitted.answer]⟩
          exact (backed_commit_iff hsha (h.mono fun _ _ hboth => hboth.1) hcommitted hr.1).2 hnames
            path row hrow
        · rw [hcommitted.find_file_old hid] at hrow
          exact (ih id path row hrow).serve _

/-- **Every file is backed if the declared hashes name files.**  A commit inserts backed rows alone if
and only if each declared xet hash is that of a registered file of the recorded size; and if all the
commits of a run keep to that, every row stays backed and every redirect leads to what was uploaded. -/
theorem backedRows_iff (hsha : Set.InjOn x.sha256 S) :
    (∀ db, ReachedBy x (fun _ r => BringsInto x S r) db →
      ∀ limit c resp db', commit x limit db c = (.ok resp, db') → BringsInto x S (.commit limit c) →
        ((∀ path row, db'.repoFiles.find (db.commitSeq + 1, path) = some row → Backed db' row) ↔
          ∀ f ∈ bodyEntries x c.body, NamesFile db f)) ∧
    ∀ db, ReachedBy x (fun db r => BringsInto x S r ∧ NamesFiles x db r) db →
      (∀ id path row, db.repoFiles.find (id, path) = some row → Backed db row) ∧
        ∀ cfg viewer owner repo revision path resp,
          resolveGet x cfg db viewer owner repo revision path = .ok resp →
            ∃ info, resolveLookup x db viewer owner repo revision path = .ok info ∧
              resp.location = redirectTo cfg info ∧ Followed db info := by
  refine ⟨?_, ?_⟩
  · intro db hreach limit c resp db' hok hc
    obtain ⟨repoId, header, files, rows, hcommitted, -⟩ := commit_ok hok
    exact backed_commit_iff hsha hreach hcommitted hc
  · intro db hreach
    have hall := backed_of_reached hsha hreach
    refine ⟨hall, ?_⟩
    intro cfg viewer owner repo revision path resp hok
    cases hlookup : resolveLookup x db viewer owner repo revision path with
    | error e => simp [resolveGet, hlookup, bind, Except.bind] at hok
    | ok info =>
        have hresp : resp.location = redirectTo cfg info := by
          simp only [resolveGet, hlookup, bind, Except.bind] at hok
          cases hok
          rfl
        obtain ⟨repoId, id, row, backend, hrow, hbackend, rfl⟩ := resolveLookup_ok hlookup
        exact ⟨_, rfl, hresp, (hall id path row hrow).followed hreach.reachable.sound hbackend⟩

end Runs

/-! ### Two commits -/

def sampleContents : Set Bytes := {lit "a", lit "b"}

theorem injOn_sampleContents : Set.InjOn sampleCrates.sha256 sampleContents := by
  have hne : sampleCrates.sha256 (lit "a") ≠ sampleCrates.sha256 (lit "b") := by decide +kernel
  rintro d (rfl | rfl) d' (rfl | rfl) hEq
  · rfl
  · exact absurd hEq hne
  · exact absurd hEq.symm hne
  · rfl

theorem bodyEntries_commitA : bodyEntries sampleCrates commitA.body = [entryA] := by
  decide +kernel

theorem bodyEntries_commitB : bodyEntries sampleCrates commitB.body = [entryB] := by
  decide +kernel

/-- The sample requests keep to the conditions. -/
theorem reachedBy_dbB : ReachedBy sampleCrates
    (fun db r => BringsInto sampleCrates sampleContents r ∧ NamesFiles sampleCrates db r) dbA ∧
    BringsInto sampleCrates sampleContents (.commit .head commitB) ∧
    NamesFiles sampleCrates dbA (.commit .head commitB) := by
  have hnoXet : ∀ db f, f.xetHash = none → NamesFile db f := by
    intro db f hnone xh hx
    rw [hnone] at hx
    cases hx
  have hA : (Request.commit .head commitA).contents sampleCrates = [lit "a"] := by
    decide +kernel
  have hB : (Request.commit .head commitB).contents sampleCrates = [lit "b"] := by
    decide +kernel
  have hstart : ReachedBy sampleCrates
      (fun db r => BringsInto sampleCrates sampleContents r ∧ NamesFiles sampleCrates db r)
      aliceDb :=
    (ReachedBy.empty.serve (.accounts (Table.empty.insertNew 1 ⟨lit "alice", none⟩) .empty)
      ⟨nofun, trivial⟩).serve (.createRepo alice ⟨lit "model", none, true⟩ 0) ⟨nofun, trivial⟩
  refine ⟨hstart.serve (.commit .head commitA) ⟨?_, fun _ => ?_⟩, ?_, fun _ => ?_⟩
  · intro d hd
    rw [hA] at hd
    exact .inl (List.mem_singleton.1 hd)
  · rw [bodyEntries_commitA, List.forall_mem_singleton]
    exact hnoXet _ _ rfl
  · intro d hd
    rw [hB] at hd
    exact .inr (List.mem_singleton.1 hd)
  · rw [bodyEntries_commitB, List.forall_mem_singleton]
    exact hnoXet _ _ rfl

theorem backedRows_iff_dbB :
    (∀ id path row, dbB.repoFiles.find (id, path) = some row → Backed dbB row) ∧
      ((∀ path row, dbB.repoFiles.find (dbA.commitSeq + 1, path) = some row → Backed dbB row) ↔
        ∀ f ∈ bodyEntries sampleCrates commitB.body, NamesFile dbA f) := by
  obtain ⟨hdbA, hbrings, hnames⟩ := reachedBy_dbB
  have hdbB := hdbA.serve (.commit .head commitB) ⟨hbrings, hnames⟩
  obtain ⟨honce, hruns⟩ := backedRows_iff injOn_sampleContents
  exact ⟨(hruns dbB hdbB).1, honce dbA (hdbA.mono fun _ _ hboth => hboth.1) .head commitB _ dbB
    commit_commitB hbrings⟩

/-- The declared hash of a file that nobody uploaded. -/
def unknownHex : Bytes := hexEncode (List.replicate 32 0xcc)

def xetLine : Bytes :=
  lit "\x7b\"key\":\"xetFile\",\"value\":\x7b\"path\":\"c.bin\",\"size\":5,\"xet_hash\":\"" ++
    unknownHex ++ lit "\"\x7d\x7d"

/-- The tables of the samples with the line above. -/
def xetCrates : HubCrates :=
  .ofTables sampleDigests []
    [(headerLine, ⟨lit "header", some ⟨some (lit "upload"), none⟩, none⟩),
      (xetLine, ⟨lit "xetFile", none, some ⟨lit "c.bin", none, none, some 5, some unknownHex⟩⟩)]

def commitXet : CommitCall := commitLines [headerLine, xetLine]

def dbXet : HubDatabase := (commit xetCrates .head aliceDb commitXet).2

theorem commit_commitXet :
    commit xetCrates .head aliceDb commitXet = (.ok (commitResp xetCrates commitXet 1), dbXet) := by
  have hanswer : (commit xetCrates .head aliceDb commitXet).1 =
      .ok (commitResp xetCrates commitXet 1) := by
    decide +kernel
  rw [← hanswer, dbXet]

/-- A commit of a file that was never uploaded is accepted. -/
theorem not_backed :
    ¬∀ (x : HubCrates) (S : Set Bytes), Set.InjOn x.sha256 S →
      ∀ db, ReachedBy x (fun _ r => BringsInto x S r) db →
        ∀ limit c resp db', commit x limit db c = (.ok resp, db') →
          BringsInto x S (.commit limit c) →
            ∀ path row, db'.repoFiles.find (db.commitSeq + 1, path) = some row →
              Backed db' row := by
  intro hclaim
  have hstart : ReachedBy xetCrates (fun _ r => BringsInto xetCrates ∅ r) aliceDb :=
    (ReachedBy.empty.serve (.accounts (Table.empty.insertNew 1 ⟨lit "alice", none⟩) .empty)
      nofun).serve (.createRepo alice ⟨lit "model", none, true⟩ 0) nofun
  have hcontents : (Request.commit .head commitXet).contents xetCrates = [] := by
    decide +kernel
  have hbrings : BringsInto xetCrates ∅ (.commit .head commitXet) := by
    intro d hd
    rw [hcontents] at hd
    cases hd
  have hrow : dbXet.repoFiles.find (aliceDb.commitSeq + 1, lit "c.bin") =
      some ⟨5, some (List.replicate 32 0xcc), none⟩ := by
    decide +kernel
  have hbacked := hclaim xetCrates ∅ (Set.injOn_empty _) aliceDb hstart .head commitXet _ dbXet
    commit_commitXet hbrings _ _ hrow
  obtain ⟨fileId, f, -, hf, -⟩ := hbacked.xet _ rfl
  -- No file is registered at all.
  have hnone : dbXet.cas.reconstructionFiles.rows = [] := by decide +kernel
  have hmem := Table.find_eq_some_iff.1 hf
  rw [hnone] at hmem
  cases hmem

-- The redirect for that file leads to a handler that does not find it.
example :
    (resolveGet xetCrates sampleConfig dbXet (some 1) (lit "alice") (lit "model") mainRef
      (lit "c.bin")).isOk = true ∧ xetFileSize dbXet unknownHex = .error .notFound := by
  decide +kernel

end Hub
end OpenWeights
