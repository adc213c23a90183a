import OpenWeights.Hub.Backing

/-!
# Claimants — which file a sha256 stands for

A shard says of each of its files which sha256 it has, and nobody checks.  `commit` looks a file up by
sha256 and size and takes the newest.  An upload leaves the registered files and these answers alone
unless it claims a sha256 for a file that has another one, or makes a file answer for a sha256 and a
size that no older file should answer for any more.
-/

namespace OpenWeights
namespace Hub

open Lib Db Database

/-! ## Answers -/

/-- The file is registered with the sha256 and the size, since `t`. -/
def Claims (db : HubDatabase) (sha256 : Bytes) (size : Int) (fileId : Hash) (t : Nat) : Prop :=
  ∃ row, db.cas.reconstructionFiles.find fileId = some row ∧
    row.sha256.map Subtype.val = some sha256 ∧ row.totalSize = size ∧
    db.registeredAt.find fileId = some t

theorem mem_claimants {db : HubDatabase} {sha256 : Bytes} {size : Int} {fileId : Hash} {t : Nat} :
    (fileId, t) ∈ db.claimants sha256 size ↔ Claims db sha256 size fileId t := by
  rw [HubDatabase.claimants, List.mem_filterMap]
  constructor
  · rintro ⟨⟨id, row⟩, hrow, hEq⟩
    split at hEq
    · rename_i hclaim
      obtain ⟨t', ht', hpair⟩ := Option.map_eq_some_iff.1 hEq
      cases hpair
      exact ⟨row, Table.find_eq_some_iff.2 hrow, hclaim.1, hclaim.2, ht'⟩
    · cases hEq
  · rintro ⟨row, hrow, hsha, hsize, ht⟩
    refine ⟨(fileId, row), Table.find_eq_some_iff.1 hrow, ?_⟩
    rw [if_pos ⟨hsha, hsize⟩, ht]
    rfl

/-- The answers are the claimants that no other one is newer than. -/
theorem mem_newestFile {db : HubDatabase} {sha256 : Bytes} {size : Int} {fileId : Hash} :
    fileId ∈ db.newestFile sha256 size ↔ ∃ t, Claims db sha256 size fileId t ∧
      ∀ fileId' t', Claims db sha256 size fileId' t' → t' ≤ t := by
  rw [HubDatabase.newestFile, List.mem_map]
  constructor
  · rintro ⟨⟨id, t⟩, hmem, rfl⟩
    obtain ⟨hclaims, hnewest⟩ := List.mem_filter.1 hmem
    refine ⟨t, mem_claimants.1 hclaims, fun id' t' h' => ?_⟩
    exact of_decide_eq_true (List.all_eq_true.1 hnewest (id', t') (mem_claimants.2 h'))
  · rintro ⟨t, hclaims, hnewest⟩
    refine ⟨(fileId, t), List.mem_filter.2 ⟨mem_claimants.2 hclaims, ?_⟩, rfl⟩
    refine List.all_eq_true.2 ?_
    rintro ⟨id', t'⟩ hmem
    exact decide_eq_true (hnewest id' t' (mem_claimants.1 hmem))

/-- A file has one time of registration. -/
theorem Claims.time {db : HubDatabase} {sha256 sha256' : Bytes} {size size' : Int} {fileId : Hash}
    {t t' : Nat} (h : Claims db sha256 size fileId t) (h' : Claims db sha256' size' fileId t') :
    t = t' := by
  obtain ⟨-, -, -, -, ht⟩ := h
  obtain ⟨-, -, -, -, ht'⟩ := h'
  exact Option.some.inj (ht.symm.trans ht')

/-! ## What an upload should leave alone -/

/-- The registered files are what they were, and a lookup that had an answer has the same ones. -/
structure Kept (db db' : HubDatabase) : Prop where
  file : ∀ fileId row, db.cas.reconstructionFiles.find fileId = some row →
    ∃ row', db'.cas.reconstructionFiles.find fileId = some row' ∧
      row'.shardHash = row.shardHash ∧ row'.totalSize = row.totalSize ∧
      ∀ s, row.sha256 = some s → row'.sha256 = some s
  answers : ∀ sha256 size, db.newestFile sha256 size ≠ [] →
    ∀ fileId, fileId ∈ db'.newestFile sha256 size ↔ fileId ∈ db.newestFile sha256 size

/-- Nothing answers for the sha256 and the size yet, or something newer than `t` does. -/
def Outdated (db : HubDatabase) (sha256 : Bytes) (size : Int) (t : Nat) : Prop :=
  db.claimants sha256 size = [] ∨ ∃ c ∈ db.claimants sha256 size, t < c.2

/-- The claims of an upload that change nothing: of a file with a sha256 its own one, and otherwise
one that is outdated already. -/
def Harmless (db : HubDatabase) (now : Nat) (f : ParsedFile) : Prop :=
  ∀ s, f.sha256 = some s →
    match db.cas.reconstructionFiles.find f.fileId with
    | none => Outdated db s.1 f.totalSize now
    | some row =>
        match row.sha256 with
        | some s₀ => s = s₀
        | none => Outdated db s.1 row.totalSize ((db.registeredAt.find f.fileId).getD 0)

/-! ## What an upload does -/

def uploadedRow (shardHash : Hash) (f : ParsedFile) : Option FileRow → FileRow
  | some row => { row with sha256 := f.sha256 <|> row.sha256 }
  | none => ⟨shardHash, f.totalSize, f.sha256⟩

theorem find_upsertFiles_of_not_mem {shardHash : Hash} {files : List ParsedFile}
    {t : Table Hash FileRow} {fileId : Hash} (h : fileId ∉ files.map ParsedFile.fileId) :
    (files.foldl (fun t f => upsertFile t shardHash f) t).find fileId = t.find fileId := by
  induction files generalizing t with
  | nil => rfl
  | cons f files ih =>
      simp only [List.map_cons, List.mem_cons, not_or] at h
      rw [List.foldl_cons, ih h.2, Service.find_upsertFile, if_neg h.1]

theorem find_upsertFiles_of_mem {shardHash : Hash} {files : List ParsedFile}
    (hnodup : (files.map ParsedFile.fileId).Nodup) {t : Table Hash FileRow} {f : ParsedFile}
    (hf : f ∈ files) :
    (files.foldl (fun t f => upsertFile t shardHash f) t).find f.fileId =
      some (uploadedRow shardHash f (t.find f.fileId)) := by
  induction files generalizing t with
  | nil => cases hf
  | cons g files ih =>
      simp only [List.map_cons, List.nodup_cons] at hnodup
      rcases List.mem_cons.1 hf with rfl | hrest
      · -- The later files have other ids.
        rw [List.foldl_cons, find_upsertFiles_of_not_mem hnodup.1, Service.find_upsertFile,
          if_pos rfl]
        cases t.find f.fileId <;> rfl
      · have hne : f.fileId ≠ g.fileId := fun hEq =>
          hnodup.1 (hEq ▸ List.mem_map_of_mem hrest)
        rw [List.foldl_cons, ih hnodup.2 hrest, Service.find_upsertFile, if_neg hne]

theorem newestFile_ne_nil {db : HubDatabase} {sha256 : Bytes} {size : Int}
    (h : db.claimants sha256 size ≠ []) : ∃ fileId, fileId ∈ db.newestFile sha256 size := by
  obtain ⟨c, hc⟩ := List.exists_mem_of_ne_nil _ h
  obtain ⟨newest, hmem, hmax⟩ := (db.claimants sha256 size).toFinset.exists_max_image Prod.snd
    ⟨c, List.mem_toFinset.2 hc⟩
  refine ⟨newest.1, mem_newestFile.2 ⟨newest.2, mem_claimants.1 (List.mem_toFinset.1 hmem), ?_⟩⟩
  intro fileId t hclaims
  exact hmax (fileId, t) (List.mem_toFinset.2 (mem_claimants.2 hclaims))

section Upload

variable {x : HubCrates} {db : HubDatabase} {shardHash : Hash} {sizeBytes now : Nat}
  {files : List ParsedFile} {terms : List ParsedTerm} {scan : List (Hash × PinRow)} {cas : Database}

/-- The files after an upload that was not there before. -/
theorem find_files_upload
    (hok : db.cas.insertShardWithReconstruction shardHash sizeBytes files terms = .ok (cas, true)) :
    (casStmt db (.commitShard shardHash sizeBytes files terms) now scan).cas.reconstructionFiles =
      files.foldl (fun t f => upsertFile t shardHash f) db.cas.reconstructionFiles := by
  obtain ⟨-, -, hcas⟩ := Service.insertShardWithReconstruction_ok hok
  simp [casStmt, Service.Stmt.exec, hok, hcas]

/-- A time of registration stays. -/
theorem registeredAt_upload (hdb : Sound x db) {fileId : Hash} {t : Nat}
    (ht : db.registeredAt.find fileId = some t) (s : Service.Stmt) :
    (casStmt db s now scan).registeredAt.find fileId = some t := by
  rw [find_registeredAt_casStmt hdb.registered, ht]
  rfl

/-- What answers only since the upload must be outdated, if the upload leaves the answers alone. -/
theorem outdated_of_kept (hdb : Sound x db) {s : Service.Stmt}
    (hkept : Kept db (casStmt db s now scan)) {sha256 : Bytes} {size : Int} {fileId : Hash} {t : Nat}
    (hclaims : Claims (casStmt db s now scan) sha256 size fileId t)
    (hnew : ∀ t, ¬Claims db sha256 size fileId t) : Outdated db sha256 size t := by
  by_contra hnot
  simp only [Outdated, not_or, not_exists, not_and, Nat.not_lt] at hnot
  obtain ⟨hsome, hall⟩ := hnot
  obtain ⟨answer, hanswer⟩ := newestFile_ne_nil hsome
  have hsame := hkept.answers sha256 size (List.ne_nil_of_mem hanswer)
  obtain ⟨t₀, hclaims₀, -⟩ := mem_newestFile.1 hanswer
  obtain ⟨t', hclaims', hnewest'⟩ := mem_newestFile.1 ((hsame answer).2 hanswer)
  -- The old answer is still one, so it is as new as the file; and it is not newer.
  have hEq : t' = t₀ := by
    obtain ⟨-, -, -, -, ht'⟩ := hclaims'
    obtain ⟨-, -, -, -, ht₀⟩ := hclaims₀
    rw [registeredAt_upload hdb ht₀] at ht'
    exact (Option.some.inj ht').symm
  have hle : t₀ ≤ t := hall (answer, t₀) (mem_claimants.2 hclaims₀)
  have hfile : fileId ∈ (casStmt db s now scan).newestFile sha256 size := by
    refine mem_newestFile.2 ⟨t, hclaims, fun id' t'' h'' => ?_⟩
    calc t'' ≤ t' := hnewest' id' t'' h''
      _ = t₀ := hEq
      _ ≤ t := hle
  obtain ⟨t'', hclaims'', -⟩ := mem_newestFile.1 ((hsame fileId).1 hfile)
  exact hnew t'' hclaims''

/-- Harmless claims add outdated answers only. -/
theorem claims_upload (hdb : Sound x db)
    (hok : db.cas.insertShardWithReconstruction shardHash sizeBytes files terms = .ok (cas, true))
    (hharmless : ∀ f ∈ files, Harmless db now f) {sha256 : Bytes} {size : Int} {fileId : Hash}
    {t : Nat} (hclaims : Claims
      (casStmt db (.commitShard shardHash sizeBytes files terms) now scan) sha256 size fileId t) :
    Claims db sha256 size fileId t ∨ Outdated db sha256 size t := by
  obtain ⟨row', hrow', hsha, hsize, ht⟩ := hclaims
  have hnodup := (Service.insertShardWithReconstruction_ok hok).2.1
  rw [find_registeredAt_casStmt hdb.registered, hrow'] at ht
  rw [find_files_upload hok] at hrow'
  by_cases hmem : fileId ∈ files.map ParsedFile.fileId
  · obtain ⟨f, hf, rfl⟩ := List.mem_map.1 hmem
    rw [find_upsertFiles_of_mem hnodup hf] at hrow'
    cases hrow'
    have hclaim := hharmless f hf
    have hregistered := hdb.registered f.fileId
    cases hrow : db.cas.reconstructionFiles.find f.fileId with
    | none =>
        -- A new file, registered now.
        rw [hrow] at hsha hsize hregistered
        obtain ⟨s, hs, rfl⟩ := Option.map_eq_some_iff.1 hsha
        have houtdated := hclaim s hs
        simp only [hrow] at houtdated
        have hunstamped : db.registeredAt.find f.fileId = none :=
          Option.not_isSome_iff_eq_none.1 (by rw [hregistered]; exact nofun)
        rw [hunstamped] at ht
        cases ht
        exact .inr (hsize ▸ houtdated)
    | some row =>
        rw [hrow] at hsha hsize hregistered
        obtain ⟨t₀, ht₀⟩ := Option.isSome_iff_exists.1 hregistered
        rw [ht₀] at ht
        cases ht
        have hsame : ∀ s, row.sha256 = some s → s.1 = sha256 →
            Claims db sha256 size f.fileId t := fun s hs hEq =>
          ⟨row, hrow, by rw [hs, ← hEq]; rfl, hsize, ht₀⟩
        cases hs : f.sha256 with
        | none =>
            simp only [uploadedRow, hs] at hsha
            obtain ⟨s₀, hs₀, hEq⟩ := Option.map_eq_some_iff.1 hsha
            exact .inl (hsame s₀ hs₀ hEq)
        | some s =>
            have houtdated := hclaim s hs
            simp only [uploadedRow, hs] at hsha
            have hEq : s.1 = sha256 := Option.some.inj hsha
            simp only [hrow] at houtdated
            cases hs₀ : row.sha256 with
            | some s₀ =>
                simp only [hs₀] at houtdated
                exact .inl (hsame s₀ hs₀ (houtdated ▸ hEq))
            | none =>
                simp only [hs₀, ht₀] at houtdated
                have hsize' : row.totalSize = size := hsize
                exact .inr (hEq ▸ hsize' ▸ houtdated)
  · rw [find_upsertFiles_of_not_mem hmem] at hrow'
    have hregistered := hdb.registered fileId
    rw [hrow'] at hregistered
    obtain ⟨t₀, ht₀⟩ := Option.isSome_iff_exists.1 hregistered
    rw [ht₀] at ht
    cases ht
    exact .inl ⟨row', hrow', hsha, hsize, ht₀⟩

end Upload

/-! ## Which uploads leave the files alone -/

theorem Kept.refl (db : HubDatabase) : Kept db db where
  file := fun _ row hrow => ⟨row, hrow, rfl, rfl, fun _ hs => hs⟩
  answers := fun _ _ _ _ => Iff.rfl

theorem Kept.trans {db db' db'' : HubDatabase} (h : Kept db db') (h' : Kept db' db'') :
    Kept db db'' where
  file := by
    intro fileId row hrow
    obtain ⟨row', hrow', hshard, hsize, hsha⟩ := h.file fileId row hrow
    obtain ⟨row'', hrow'', hshard', hsize', hsha'⟩ := h'.file fileId row' hrow'
    exact ⟨row'', hrow'', hshard'.trans hshard, hsize'.trans hsize,
      fun s hs => hsha' s (hsha s hs)⟩
  answers := by
    intro sha256 size hne fileId
    have hfirst := h.answers sha256 size hne
    obtain ⟨answer, hanswer⟩ := List.exists_mem_of_ne_nil _ hne
    have hne' := List.ne_nil_of_mem ((hfirst answer).2 hanswer)
    exact (h'.answers sha256 size hne' fileId).trans (hfirst fileId)

/-- The same files since the same times: the same answers. -/
theorem kept_of_same {db db' : HubDatabase}
    (hfiles : db'.cas.reconstructionFiles = db.cas.reconstructionFiles)
    (htimes : ∀ fileId, db'.registeredAt.find fileId = db.registeredAt.find fileId) :
    Kept db db' where
  file := fun fileId row hrow => ⟨row, by rw [hfiles]; exact hrow, rfl, rfl, fun _ hs => hs⟩
  answers := by
    have hclaims : ∀ sha256 size fileId t,
        Claims db' sha256 size fileId t ↔ Claims db sha256 size fileId t := by
      intro sha256 size fileId t
      simp only [Claims, hfiles, htimes]
    intro sha256 size _ fileId
    simp only [mem_newestFile, hclaims]

/-- A statement that leaves the files leaves their times. -/
theorem kept_of_same_files {x : HubCrates} {db : HubDatabase} (hdb : Sound x db)
    {s : Service.Stmt} {now : Nat} {scan : List (Hash × PinRow)}
    (hfiles : (casStmt db s now scan).cas.reconstructionFiles = db.cas.reconstructionFiles) :
    Kept db (casStmt db s now scan) := by
  refine kept_of_same hfiles ?_
  intro fileId
  rw [find_registeredAt_casStmt hdb.registered, hfiles]
  have hregistered := hdb.registered fileId
  cases ht : db.registeredAt.find fileId with
  | some t => rfl
  | none =>
      rw [ht] at hregistered
      have hnone : db.cas.reconstructionFiles.find fileId = none :=
        Option.not_isSome_iff_eq_none.1 (by rw [← hregistered]; exact nofun)
      rw [hnone]
      rfl

section Uploads

variable {x : HubCrates} {db : HubDatabase} {shardHash : Hash} {sizeBytes now : Nat}
  {files : List ParsedFile} {terms : List ParsedTerm} {scan : List (Hash × PinRow)} {cas : Database}

theorem kept_of_harmless (hdb : Sound x db)
    (hok : db.cas.insertShardWithReconstruction shardHash sizeBytes files terms = .ok (cas, true))
    (hharmless : ∀ f ∈ files, Harmless db now f) :
    Kept db (casStmt db (.commitShard shardHash sizeBytes files terms) now scan) := by
  have hnodup := (Service.insertShardWithReconstruction_ok hok).2.1
  have hfile : ∀ fileId row, db.cas.reconstructionFiles.find fileId = some row →
      ∃ row', (casStmt db (.commitShard shardHash sizeBytes files terms) now
          scan).cas.reconstructionFiles.find fileId = some row' ∧
        row'.shardHash = row.shardHash ∧ row'.totalSize = row.totalSize ∧
        ∀ s, row.sha256 = some s → row'.sha256 = some s := by
    intro fileId row hrow
    rw [find_files_upload hok]
    by_cases hmem : fileId ∈ files.map ParsedFile.fileId
    · obtain ⟨f, hf, rfl⟩ := List.mem_map.1 hmem
      rw [find_upsertFiles_of_mem hnodup hf, hrow]
      refine ⟨_, rfl, rfl, rfl, ?_⟩
      intro s₀ hs₀
      cases hs : f.sha256 with
      | none => simp [uploadedRow, hs, hs₀]
      | some s =>
          have hsame := hharmless f hf s hs
          simp only [hrow, hs₀] at hsame
          simp [uploadedRow, hs, hsame]
    · rw [find_upsertFiles_of_not_mem hmem]
      exact ⟨row, hrow, rfl, rfl, fun _ hs => hs⟩
  -- What claimed before the upload claims after it.
  have hold : ∀ {sha256 size fileId t}, Claims db sha256 size fileId t →
      Claims (casStmt db (.commitShard shardHash sizeBytes files terms) now scan) sha256 size
        fileId t := by
    rintro sha256 size fileId t ⟨row, hrow, hsha, hsize, ht⟩
    obtain ⟨row', hrow', -, hsize', hsha'⟩ := hfile fileId row hrow
    obtain ⟨s, hs, hEq⟩ := Option.map_eq_some_iff.1 hsha
    exact ⟨row', hrow', by rw [hsha' s hs, ← hEq]; rfl, hsize'.trans hsize,
      registeredAt_upload hdb ht _⟩
  refine ⟨hfile, ?_⟩
  intro sha256 size hne fileId
  obtain ⟨answer, hanswer⟩ := List.exists_mem_of_ne_nil _ hne
  obtain ⟨t₀, hclaims₀, -⟩ := mem_newestFile.1 hanswer
  have hsome : db.claimants sha256 size ≠ [] := List.ne_nil_of_mem (mem_claimants.2 hclaims₀)
  rw [mem_newestFile, mem_newestFile]
  constructor
  · rintro ⟨t, hclaims, hnewest⟩
    refine ⟨t, ?_, fun id' t' h' => hnewest id' t' (hold h')⟩
    rcases claims_upload hdb hok hharmless hclaims with h | hnone | ⟨c, hc, hlt⟩
    · exact h
    · exact absurd hnone hsome
    · have hle := hnewest c.1 c.2 (hold (mem_claimants.1 hc))
      exact absurd hlt (Nat.not_lt.2 hle)
  · rintro ⟨t, hclaims, hnewest⟩
    refine ⟨t, hold hclaims, fun id' t' h' => ?_⟩
    rcases claims_upload hdb hok hharmless h' with h | hnone | ⟨c, hc, hlt⟩
    · exact hnewest id' t' h
    · exact absurd hnone hsome
    · exact (Nat.le_of_lt hlt).trans (hnewest c.1 c.2 (mem_claimants.1 hc))

theorem harmless_of_kept (hdb : Sound x db)
    (hok : db.cas.insertShardWithReconstruction shardHash sizeBytes files terms = .ok (cas, true))
    (hkept : Kept db (casStmt db (.commitShard shardHash sizeBytes files terms) now scan)) :
    ∀ f ∈ files, Harmless db now f := by
  have hnodup := (Service.insertShardWithReconstruction_ok hok).2.1
  intro f hf s hs
  have hrow' : (casStmt db (.commitShard shardHash sizeBytes files terms) now
      scan).cas.reconstructionFiles.find f.fileId =
        some (uploadedRow shardHash f (db.cas.reconstructionFiles.find f.fileId)) := by
    rw [find_files_upload hok, find_upsertFiles_of_mem hnodup hf]
  have htime := find_registeredAt_casStmt hdb.registered
    (.commitShard shardHash sizeBytes files terms) now scan f.fileId
  have hregistered := hdb.registered f.fileId
  cases hrow : db.cas.reconstructionFiles.find f.fileId with
  -- A new file: had its digest answered before, the answer would be a newer row now.
  | none =>
      rw [hrow] at hrow' hregistered
      have hunstamped : db.registeredAt.find f.fileId = none :=
        Option.not_isSome_iff_eq_none.1 (by rw [hregistered]; exact nofun)
      rw [hunstamped, hrow'] at htime
      refine outdated_of_kept hdb hkept ⟨_, hrow', ?_, rfl, htime⟩ ?_
      · simp [uploadedRow, hs]
      · rintro t ⟨row, hfind, -⟩
        rw [hrow] at hfind
        cases hfind
  | some row =>
      rw [hrow] at hrow' hregistered
      obtain ⟨t, ht⟩ := Option.isSome_iff_exists.1 hregistered
      rw [ht] at htime
      -- An old row keeps the digest it has; without one it would gain one with its old time.
      cases hs₀ : row.sha256 with
      | some s₀ =>
          obtain ⟨row'', hrow'', -, -, hsha⟩ := hkept.file f.fileId row hrow
          rw [hrow'] at hrow''
          cases hrow''
          have hEq := hsha s₀ hs₀
          simp only [uploadedRow, hs] at hEq
          simp only [hs₀]
          exact Option.some.inj hEq
      | none =>
          simp only [hs₀, ht, Option.getD_some]
          refine outdated_of_kept hdb hkept ⟨_, hrow', ?_, rfl, htime⟩ ?_
          · simp [uploadedRow, hs]
          · rintro t' ⟨row'', hfind, hsha, -⟩
            rw [hrow] at hfind
            cases hfind
            rw [hs₀] at hsha
            cases hsha

end Uploads

/-- An upload, if it is new and consistent, makes harmless claims. -/
def HarmlessUpload (db : HubDatabase) : Request → Prop
  | .cas (.commitShard shardHash sizeBytes files terms) now _ =>
      (∃ cas, db.cas.insertShardWithReconstruction shardHash sizeBytes files terms =
        .ok (cas, true)) → ∀ f ∈ files, Harmless db now f
  | _ => True

/-- Every upload in a list of requests makes harmless claims. -/
def HarmlessUploads (x : HubCrates) : HubDatabase → List Request → Prop
  | _, [] => True
  | db, r :: rs => HarmlessUpload db r ∧ HarmlessUploads x (serve x db r) rs

theorem kept_upload_iff {x : HubCrates} {db : HubDatabase} (hdb : Sound x db) (shardHash : Hash)
    (sizeBytes : Nat) (files : List ParsedFile) (terms : List ParsedTerm) (now : Nat)
    (scan : List (Hash × PinRow)) :
    Kept db (casStmt db (.commitShard shardHash sizeBytes files terms) now scan) ↔
      HarmlessUpload db (.cas (.commitShard shardHash sizeBytes files terms) now scan) := by
  cases hok : db.cas.insertShardWithReconstruction shardHash sizeBytes files terms with
  | error e =>
      refine iff_of_true (kept_of_same_files hdb ?_) ?_
      · simp [casStmt, Service.Stmt.exec, hok]
      · rintro ⟨cas, hfresh⟩
        rw [hok] at hfresh
        cases hfresh
  | ok result =>
      obtain ⟨cas, fresh⟩ := result
      cases fresh with
      | false =>
          -- The shard was there already.
          have hsame := Service.insertShardWithReconstruction_dedup hok
          refine iff_of_true (kept_of_same_files hdb ?_) ?_
          · simp [casStmt, Service.Stmt.exec, hok, hsame]
          · rintro ⟨cas', hfresh⟩
            rw [hok] at hfresh
            cases hfresh
      | true =>
          constructor
          · intro hkept _
            exact harmless_of_kept hdb hok hkept
          · intro hharmless
            exact kept_of_harmless hdb hok (hharmless ⟨cas, hok⟩)

/-- A statement that is not the upload of a shard leaves the files. -/
theorem files_casStmt (db : HubDatabase) (s : Service.Stmt) (now : Nat)
    (scan : List (Hash × PinRow)) :
    (casStmt db s now scan).cas.reconstructionFiles = db.cas.reconstructionFiles ∨
      ∃ shardHash sizeBytes files terms, s = .commitShard shardHash sizeBytes files terms := by
  unfold casStmt
  split
  · exact .inl rfl
  · rename_i hexec
    rcases Service.reconstruction_exec hexec with ⟨hsame, -⟩ | ⟨h, n, files, terms, _, hcall, -⟩
    · exact .inl hsame
    · cases hcall
      exact .inr ⟨h, n, files, terms, rfl⟩

/-- A request that is no harmful upload leaves the files alone. -/
theorem kept_serve {x : HubCrates} {db : HubDatabase} (hdb : Sound x db) {r : Request}
    (hr : HarmlessUpload db r) : Kept db (serve x db r) := by
  rcases serve_cas x db r with ⟨hcas, htimes⟩ | ⟨s, now, scan, rfl⟩
  · exact kept_of_same (by rw [hcas]) fun fileId => by rw [htimes]
  · rcases files_casStmt db s now scan with hfiles | ⟨shardHash, sizeBytes, files, terms, rfl⟩
    · exact kept_of_same_files hdb hfiles
    · exact (kept_upload_iff hdb shardHash sizeBytes files terms now scan).2 hr

/-- **Which uploads leave the registered files and the answers alone.**  In every reachable state
exactly those whose claims are harmless; and a run in which all are keeps every file and every answer
it started with. -/
theorem kept_iff (x : HubCrates) :
    (∀ db, Reachable x db → ∀ shardHash sizeBytes files terms now scan,
      (Kept db (casStmt db (.commitShard shardHash sizeBytes files terms) now scan) ↔
        HarmlessUpload db (.cas (.commitShard shardHash sizeBytes files terms) now scan))) ∧
    ∀ db, Reachable x db → ∀ rs, HarmlessUploads x db rs → Kept db (serveAll x db rs) := by
  refine ⟨fun db hreach shardHash sizeBytes files terms now scan =>
    kept_upload_iff hreach.sound shardHash sizeBytes files terms now scan, ?_⟩
  intro db hreach rs
  induction rs generalizing db with
  | nil => exact fun _ => Kept.refl db
  | cons r rs ih =>
      intro hrs
      exact (kept_serve hreach.sound hrs.1).trans (ih _ (hreach.serveAll [r]) hrs.2)

/-! ### A file claimed again -/

/-- A shard that registers one file with a sha256. -/
def writeClaim (fileId : Hash) (segments : List Core.MDBSegment) (sha256 : Hash) : Bytes :=
  Core.shardHeaderTag ++ Core.leBytes 8 Core.expectedHeaderVersion.toNat ++ Core.leBytes 8 0 ++
    (fileId.1 ++ Core.leBytes 4 (2 ^ 30) ++ Core.leBytes 4 segments.length ++ Core.leBytes 8 0) ++
    segments.flatMap Core.writeSegment ++ (sha256.1 ++ List.replicate 16 0) ++ Core.bookend ++
    Core.bookend

/-- A shard for the sample file of two chunks that claims a sha256 for it. -/
def claimBody (claim : UInt8) : Bytes :=
  writeClaim Service.State.sampleFile [Service.State.chunksOf Core.sampleHash 0 2]
    (Hash.fill claim)

def claimSha256 (b : Bytes) : Hash :=
  if b = claimBody 0x11 then
    digest "c9ffa75e5d7f80e86aa1ec8b8e0f0373b086060954a21fb29a165085083b1f04"
  else
    digest "cb35b3154fd9f7f179df08c2236dc9de905e549957af06bc0209130b7e302644"

def claimCrates : Core.Crates := Core.bareCrates claimSha256

def parsedClaim (claim : UInt8) : Core.ParsedShard :=
  { headerVersion := 2
    footerVersion := 0
    referencedXorbHashes := [Core.sampleHash]
    files := [⟨Service.State.sampleFile, 6, some (Hash.fill claim)⟩]
    terms := [⟨Service.State.sampleFile, 0, ⟨Core.sampleHash, 0, 2, 0, 0, 0, 6⟩⟩] }

theorem parseShard_claimBody (claim : UInt8) (h : claim ∈ [0x11, 0x22]) :
    Core.parseShard claimCrates (claimBody claim) = .ok (parsedClaim claim) := by
  revert claim
  decide +kernel

def claimUpload (claim : UInt8) : Service.Stmt :=
  .commitShard (claimCrates.sha256 (claimBody claim)) (claimBody claim).length (parsedClaim claim).files
    (parsedClaim claim).terms

/-- A xorb, and the file registered by its first uploader. -/
def claimDb : HubDatabase :=
  serveAll sampleCrates .empty
    [.cas (.insertPending Core.sampleHash 22 []) 0 [], .cas (claimUpload 0x11) 1 []]

theorem reachable_claimDb : Reachable sampleCrates claimDb := ⟨_, rfl⟩

theorem kept_iff_claimDb :
    (Kept claimDb (casStmt claimDb (claimUpload 0x22) 2 []) ↔
      HarmlessUpload claimDb (.cas (claimUpload 0x22) 2 [])) ∧
      Kept claimDb (serveAll sampleCrates claimDb aliceRepo) := by
  obtain ⟨hone, hruns⟩ := kept_iff sampleCrates
  exact ⟨hone claimDb reachable_claimDb _ _ _ _ 2 [],
    hruns claimDb reachable_claimDb aliceRepo ⟨trivial, trivial, trivial⟩⟩

/-- Another uploader's shard takes the file's sha256 away. -/
theorem not_kept :
    ¬∀ (x : HubCrates) (y : Core.Crates) (db : HubDatabase) (body : Bytes)
      (files : List ParsedFile) (terms : List ParsedTerm) (now : Nat)
      (scan : List (Hash × PinRow)), Reachable x db → Service.ParsesTo y body files terms →
      Kept db (casStmt db (.commitShard (y.sha256 body) body.length files terms) now scan) := by
  intro hclaim
  have hparses : Service.ParsesTo claimCrates (claimBody 0x22) (parsedClaim 0x22).files
      (parsedClaim 0x22).terms :=
    ⟨by decide +kernel, parsedClaim 0x22, [], parseShard_claimBody 0x22 (by decide), rfl, rfl⟩
  have hkept := hclaim sampleCrates claimCrates claimDb _ _ _ 2 [] reachable_claimDb hparses
  rw [← claimUpload.eq_def] at hkept
  have hbefore : claimDb.cas.reconstructionFiles.find Service.State.sampleFile =
      some ⟨claimSha256 (claimBody 0x11), 6, some (Hash.fill 0x11)⟩ := by
    decide +kernel
  obtain ⟨row', hafter, -, -, hsha⟩ := hkept.file _ _ hbefore
  have htaken : ((casStmt claimDb (claimUpload 0x22) 2 []).cas.reconstructionFiles.find
      Service.State.sampleFile).map FileRow.sha256 = some (some (Hash.fill 0x22)) := by
    decide +kernel
  have hrow : ((casStmt claimDb (claimUpload 0x22) 2 []).cas.reconstructionFiles.find
      Service.State.sampleFile).map FileRow.sha256 = some (some (Hash.fill 0x11)) := by
    rw [hafter, Option.map_some, hsha _ rfl]
  rw [htaken] at hrow
  exact absurd hrow (by decide)

-- A new file with the same claim and size answers in its place.
example :
    claimDb.newestFile (Hash.fill 0x11).1 6 = [Service.State.sampleFile] ∧
      (casStmt claimDb (.commitShard (Hash.fill 3) 0 [⟨Hash.fill 9, 6, some (Hash.fill 0x11)⟩] [])
        2 []).newestFile (Hash.fill 0x11).1 6 = [Hash.fill 9] := by
  decide +kernel

end Hub
end OpenWeights
