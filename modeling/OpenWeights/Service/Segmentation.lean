import OpenWeights.Service.PinStates

/-!
# Segmentation — one cut per file, and complete reconstructions

`reconstruction_terms` resolves conflicts per row `(file_id, term_index)`, while a cut only makes
sense as a whole list.  A second shard that lists a registered file keeps the first terms that are
stored and adds the indices beyond them.  The stored rows stay one shard's list as long as no
accepted shard brings a longer list for a registered file (`Recut`).

`get_reconstruction` joins the terms with the *pinned* xorbs only, so it answers with the stored list
or not at all exactly when the xorbs of the file are pinned all or none.
-/

namespace OpenWeights
namespace Service

open Lib Db Db.Database OpenWeights.Core

/-! ## The stored terms of a file -/

/-- The stored rows of a file, before sorting. -/
def fileRows (t : Table (Hash × Int) Term) (fileId : Hash) : List (Int × Term) :=
  (t.rows.filter fun r => r.1.1 = fileId).map fun r => (r.1.2, r.2)

theorem storedTerms_perm (db : Database) (fileId : Hash) :
    (db.storedTerms fileId).Perm (fileRows db.reconstructionTerms fileId) :=
  List.perm_insertionSort byTermIndex _

theorem storedTerms_sorted (db : Database) (fileId : Hash) :
    (db.storedTerms fileId).Pairwise fun a b => a.1 ≤ b.1 := by
  have : Std.Total byTermIndex := ⟨fun a b => Int.le_total a.1 b.1⟩
  have : IsTrans (Int × Term) byTermIndex := ⟨fun a b c hab hbc => Int.le_trans hab hbc⟩
  exact List.pairwise_insertionSort byTermIndex _

theorem mem_fst_storedTerms (db : Database) (fileId : Hash) (i : Int) :
    i ∈ (db.storedTerms fileId).map Prod.fst ↔
      (db.reconstructionTerms.find (fileId, i)).isNone = false := by
  have hperm := (storedTerms_perm db fileId).map Prod.fst
  rw [hperm.mem_iff]
  have hkeys : i ∈ (fileRows db.reconstructionTerms fileId).map Prod.fst ↔
      (fileId, i) ∈ db.reconstructionTerms.rows.map Prod.fst := by
    simp only [fileRows, List.map_map, List.mem_map, List.mem_filter, Function.comp_apply,
      decide_eq_true_eq]
    constructor
    · rintro ⟨⟨⟨f, j⟩, t⟩, ⟨hmem, rfl⟩, rfl⟩
      exact ⟨_, hmem, rfl⟩
    · rintro ⟨⟨⟨f, j⟩, t⟩, hmem, hEq⟩
      cases hEq
      exact ⟨_, ⟨hmem, rfl⟩, rfl⟩
  rw [hkeys]
  cases hf : db.reconstructionTerms.find (fileId, i) with
  | none => simpa using Table.find_eq_none_iff.1 hf
  | some t => simpa using ⟨t, Table.find_eq_some_iff.1 hf⟩

def termRows (terms : List ParsedTerm) : List ((Hash × Int) × Term) :=
  terms.map fun t => ((t.fileId, t.termIndex), t.term)

/-- What a commit adds to a file: the terms whose index is not stored yet. -/
theorem storedTerms_insertAll {db db' : Database} {files : List ParsedFile}
    {terms : List ParsedTerm} (hwell : WellCut files terms)
    (hterms : db'.reconstructionTerms = db.reconstructionTerms.insertAll (termRows terms))
    (fileId : Hash) :
    (db'.storedTerms fileId).Perm (db.storedTerms fileId ++
      (termsOf terms fileId).filter fun t =>
        t.1 ∉ (db.storedTerms fileId).map Prod.fst) := by
  have hnodup : ((termRows terms).map Prod.fst).Nodup := by
    simpa [termRows, List.map_map, Function.comp_def] using hwell.nodupKeys
  have hrows := Table.rows_insertAll db.reconstructionTerms (termRows terms) hnodup
  -- Of the appended rows, those of this file are its terms with a free index.
  have hnew : fileRows db'.reconstructionTerms fileId =
      fileRows db.reconstructionTerms fileId ++
        (termsOf terms fileId).filter fun t => t.1 ∉ (db.storedTerms fileId).map Prod.fst := by
    have htail : (((termRows terms).filter fun r =>
          (db.reconstructionTerms.find r.1).isNone).filter fun r => r.1.1 = fileId).map
            (fun r => (r.1.2, r.2)) =
        (termsOf terms fileId).filter fun t =>
          t.1 ∉ (db.storedTerms fileId).map Prod.fst := by
      simp only [termRows, termsOf, List.filter_map, List.map_map, List.filter_filter]
      refine congrArg₂ List.map ?_ ?_
      · rfl
      · refine List.filter_congr ?_
        intro t _
        by_cases hf : t.fileId = fileId
        · subst hf
          have hiff := mem_fst_storedTerms db t.fileId t.termIndex
          simp only [Function.comp_apply, decide_true, Bool.true_and, Bool.and_true]
          cases hn : (db.reconstructionTerms.find (t.fileId, t.termIndex)).isNone with
          | true => simpa [hn] using hiff
          | false => simpa [hn] using hiff
        · simp [hf]
    rw [fileRows, hterms, hrows, List.filter_append, List.map_append, htail]
    rfl
  calc
    (db'.storedTerms fileId).Perm (fileRows db'.reconstructionTerms fileId) :=
      storedTerms_perm db' fileId
    _ = fileRows db.reconstructionTerms fileId ++
          (termsOf terms fileId).filter fun t =>
            t.1 ∉ (db.storedTerms fileId).map Prod.fst := hnew
    List.Perm _ (db.storedTerms fileId ++
          (termsOf terms fileId).filter fun t =>
            t.1 ∉ (db.storedTerms fileId).map Prod.fst) :=
      (storedTerms_perm db fileId).symm.append_right _

/-! ## The file rows of a commit -/

theorem find_upsertFile (t : Table Hash FileRow) (shardHash : Hash) (f : ParsedFile)
    (fileId : Hash) :
    (upsertFile t shardHash f).find fileId =
      if fileId = f.fileId then
        some (((t.find f.fileId).map fun r => { r with sha256 := f.sha256 <|> r.sha256 }).getD
          { shardHash := shardHash, totalSize := f.totalSize, sha256 := f.sha256 })
      else
        t.find fileId := by
  by_cases hf : fileId = f.fileId
  · subst hf
    simp [upsertFile]
  · simp [upsertFile, hf, Table.find_insertNew_of_ne, Table.find_update_of_ne]

/-- A file row that exists keeps its size. -/
theorem totalSize_upsertFiles (shardHash : Hash) (files : List ParsedFile)
    {t : Table Hash FileRow} {fileId : Hash} {row : FileRow} (hrow : t.find fileId = some row) :
    ∃ row', (files.foldl (fun t f => upsertFile t shardHash f) t).find fileId = some row' ∧
      row'.totalSize = row.totalSize := by
  induction files generalizing t row with
  | nil => exact ⟨row, hrow, rfl⟩
  | cons f files ih =>
      have hone : ∃ row₁, (upsertFile t shardHash f).find fileId = some row₁ ∧
          row₁.totalSize = row.totalSize := by
        rw [find_upsertFile]
        by_cases hf : fileId = f.fileId
        · subst hf
          exact ⟨_, if_pos rfl, by simp [hrow]⟩
        · exact ⟨row, by rw [if_neg hf, hrow], rfl⟩
      rcases hone with ⟨row₁, hrow₁, hsize₁⟩
      rcases ih hrow₁ with ⟨row', hrow', hsize'⟩
      exact ⟨row', hrow', hsize'.trans hsize₁⟩

/-- Where a file row of the table after a commit comes from. -/
theorem find_upsertFiles {t : Table Hash FileRow} {shardHash : Hash} {files : List ParsedFile}
    {fileId : Hash} {row' : FileRow}
    (hrow' : (files.foldl (fun t f => upsertFile t shardHash f) t).find fileId = some row') :
    (∃ row, t.find fileId = some row ∧ row'.totalSize = row.totalSize) ∨
      (t.find fileId = none ∧ ∃ f ∈ files, f.fileId = fileId ∧ row'.totalSize = f.totalSize) := by
  cases hrow : t.find fileId with
  | some row =>
      rcases totalSize_upsertFiles shardHash files hrow with
        ⟨row₁, hrow₁, hsize⟩
      rw [hrow'] at hrow₁
      cases hrow₁
      exact .inl ⟨row, rfl, hsize⟩
  | none =>
      refine .inr ⟨rfl, ?_⟩
      induction files generalizing t with
      | nil =>
          rw [List.foldl_nil, hrow] at hrow'
          cases hrow'
      | cons f files ih =>
          by_cases hf : fileId = f.fileId
          · -- The first file with this id creates the row; later ones keep its size.
            have hnew : (upsertFile t shardHash f).find fileId =
                some { shardHash := shardHash, totalSize := f.totalSize, sha256 := f.sha256 } := by
              rw [find_upsertFile, if_pos hf, ← hf, hrow]
              rfl
            rcases totalSize_upsertFiles shardHash files hnew with
              ⟨row₁, hrow₁, hsize⟩
            have hEq : row' = row₁ := by
              rw [List.foldl_cons, hrow₁] at hrow'
              exact (Option.some.inj hrow').symm
            exact ⟨f, List.mem_cons_self, hf.symm, by rw [hEq, hsize]⟩
          · have hnone : (upsertFile t shardHash f).find fileId = none := by
              rw [find_upsertFile, if_neg hf, hrow]
            rcases ih hrow' hnone with ⟨f', hf', hid, hsize⟩
            exact ⟨f', List.mem_cons_of_mem _ hf', hid, hsize⟩

theorem isSome_upsertFiles (shardHash : Hash) (files : List ParsedFile) {t : Table Hash FileRow}
    {fileId : Hash} (h : (t.find fileId).isSome = true ∨ fileId ∈ files.map ParsedFile.fileId) :
    ((files.foldl (fun t f => upsertFile t shardHash f) t).find fileId).isSome = true := by
  induction files generalizing t with
  | nil => simpa using h
  | cons f files ih =>
      refine ih ?_
      rw [find_upsertFile]
      by_cases hf : fileId = f.fileId
      · exact .inl (by simp [hf])
      · rcases h with h | h
        · exact .inl (by simpa [hf] using h)
        · refine .inr ?_
          simpa [hf] using h

/-! ## The invariant -/

/-- A shard with these files and terms was accepted: its upload committed them. -/
def AcceptedShard (x : Crates) (w : Shared) (files : List ParsedFile) (terms : List ParsedTerm) :
    Prop :=
  ∃ e ∈ w.log, ∃ h n body, e.call = ⟨.sql (.commitShard h n files terms), .ok true⟩ ∧
    e.request = .uploadShard body ∧ ParsesTo x body files terms

/-- The stored terms of every registered file are the term list that one accepted shard carried for
it, and they cut the file at its registered size. -/
def OneSegmentation (x : Crates) (w : Shared) : Prop :=
  ∀ fileId row, w.store.reconstructionFiles.find fileId = some row →
    ∃ files terms, AcceptedShard x w files terms ∧ fileId ∈ files.map ParsedFile.fileId ∧
      w.store.storedTerms fileId = termsOf terms fileId ∧
      Cuts (w.store.storedTerms fileId) row.totalSize

/-- The second foreign key of `reconstruction_terms`: terms belong to registered files. -/
def TermsOwned (db : Database) : Prop :=
  ∀ fileId, db.reconstructionFiles.find fileId = none → db.storedTerms fileId = []

theorem AcceptedShard.mono {x : Crates} {w w' : Shared} {files : List ParsedFile}
    {terms : List ParsedTerm} (hsub : ∀ e ∈ w.log, e ∈ w'.log)
    (h : AcceptedShard x w files terms) : AcceptedShard x w' files terms := by
  rcases h with ⟨e, he, rest⟩
  exact ⟨e, hsub e he, rest⟩

theorem OneSegmentation.mono {x : Crates} {w w' : Shared} (hsub : ∀ e ∈ w.log, e ∈ w'.log)
    (hfiles : w'.store.reconstructionFiles = w.store.reconstructionFiles)
    (hterms : w'.store.reconstructionTerms = w.store.reconstructionTerms)
    (h : OneSegmentation x w) : OneSegmentation x w' := by
  have hstored : ∀ fileId, w'.store.storedTerms fileId = w.store.storedTerms fileId := by
    intro fileId
    simp only [Database.storedTerms, hterms]
  intro fileId row hrow
  rw [hfiles] at hrow
  rcases h fileId row hrow with ⟨files, terms, hacc, hmem, hEq, hcuts⟩
  refine ⟨files, terms, hacc.mono hsub, hmem, ?_, ?_⟩
  · rw [hstored, hEq]
  · rw [hstored]
    exact hcuts

/-- Adding a shard's terms to a file: what is stored stays, and only a longer list adds anything. -/
theorem storedTerms_commit {db db' : Database} {files : List ParsedFile}
    {terms : List ParsedTerm} (hwell : WellCut files terms)
    (hterms : db'.reconstructionTerms = db.reconstructionTerms.insertAll (termRows terms))
    {fileId : Hash} {total : Int} (hstored : Cuts (db.storedTerms fileId) total)
    (hnew : Indexed (termsOf terms fileId))
    (hcond : (termsOf terms fileId).length ≤ (db.storedTerms fileId).length) :
    db'.storedTerms fileId = db.storedTerms fileId := by
  have hperm := storedTerms_insertAll hwell hterms fileId
  rw [hstored.indices.filter_eq_drop hnew, List.drop_eq_nil_of_le hcond,
    List.append_nil] at hperm
  exact hstored.indices.eq_of_perm hperm (storedTerms_sorted db' fileId)

theorem storedTerms_commit_extend {db db' : Database} {files : List ParsedFile}
    {terms : List ParsedTerm} (hwell : WellCut files terms)
    (hterms : db'.reconstructionTerms = db.reconstructionTerms.insertAll (termRows terms))
    {fileId : Hash} (hold : Indexed (db.storedTerms fileId))
    (hnew : Indexed (termsOf terms fileId))
    (htake : db.storedTerms fileId =
      (termsOf terms fileId).take (db.storedTerms fileId).length) :
    db'.storedTerms fileId = termsOf terms fileId := by
  have hperm := storedTerms_insertAll hwell hterms fileId
  have hwhole : db.storedTerms fileId ++
      (termsOf terms fileId).drop (db.storedTerms fileId).length = termsOf terms fileId := by
    calc
      db.storedTerms fileId ++ (termsOf terms fileId).drop (db.storedTerms fileId).length
          = (termsOf terms fileId).take (db.storedTerms fileId).length ++
              (termsOf terms fileId).drop (db.storedTerms fileId).length := by
            rw [← htake]
      _ = termsOf terms fileId := List.take_append_drop _ _
  rw [hold.filter_eq_drop hnew, hwhole] at hperm
  exact hnew.eq_of_perm hperm (storedTerms_sorted db' fileId)

/-- A committed shard brings, for a registered file, a longer term list than the stored one; only a
list that continues the stored one and has the registered size is harmless. -/
def RecutsFile (db : Database) (terms : List ParsedTerm) (f : ParsedFile) (row : FileRow) : Prop :=
  (db.storedTerms f.fileId).length < (termsOf terms f.fileId).length ∧
    ¬(db.storedTerms f.fileId =
        (termsOf terms f.fileId).take (db.storedTerms f.fileId).length ∧
      row.totalSize = f.totalSize)

/-- The invariant through one commit, file by file. -/
theorem oneSegmentation_commit {x : Crates} {w w' : Shared} {h : Hash}
    {files : List ParsedFile} {terms : List ParsedTerm} (hinv : OneSegmentation x w)
    (howned : TermsOwned w.store) (hwell : WellCut files terms)
    (hfiles : w'.store.reconstructionFiles =
      files.foldl (fun t f => upsertFile t h f) w.store.reconstructionFiles)
    (hterms : w'.store.reconstructionTerms =
      w.store.reconstructionTerms.insertAll (termRows terms))
    (hsub : ∀ e ∈ w.log, e ∈ w'.log) (hacc : AcceptedShard x w' files terms)
    (hcond : ∀ f ∈ files, ∀ row, w.store.reconstructionFiles.find f.fileId = some row →
      ¬RecutsFile w.store terms f row) : OneSegmentation x w' := by
  intro fileId row' hrow'
  rw [hfiles] at hrow'
  rcases find_upsertFiles hrow' with ⟨row, hrow, hsize⟩ | ⟨hnone, f, hf, rfl, hsize⟩
  · rcases hinv fileId row hrow with ⟨files₀, terms₀, hacc₀, hmem₀, hEq₀, hcuts₀⟩
    by_cases hmem : fileId ∈ files.map ParsedFile.fileId
    · rcases List.mem_map.1 hmem with ⟨f, hf, rfl⟩
      have hnew := (hwell.cuts f hf).indices
      by_cases hlen : (termsOf terms f.fileId).length ≤ (w.store.storedTerms f.fileId).length
      · -- The new list is not longer: nothing is added.
        have hkeep := storedTerms_commit hwell hterms hcuts₀ hnew hlen
        refine ⟨files₀, terms₀, hacc₀.mono hsub, hmem₀, hkeep.trans hEq₀, ?_⟩
        rw [hkeep, hsize]
        exact hcuts₀
      · -- It is longer, so it continues the stored list and replaces it as a whole.
        have hlt : (w.store.storedTerms f.fileId).length < (termsOf terms f.fileId).length := by
          omega
        have hext : w.store.storedTerms f.fileId =
            (termsOf terms f.fileId).take (w.store.storedTerms f.fileId).length ∧
              row.totalSize = f.totalSize := by
          by_contra hbad
          exact hcond f hf row hrow ⟨hlt, hbad⟩
        have hall := storedTerms_commit_extend hwell hterms hcuts₀.indices hnew hext.1
        refine ⟨files, terms, hacc, hmem, hall, ?_⟩
        rw [hall, hsize, hext.2]
        exact hwell.cuts f hf
    · -- The shard does not list this file.
      have hnil : termsOf terms fileId = [] := by
        refine termsOf_eq_nil ?_
        rintro t ht rfl
        exact hmem (hwell.owned t ht)
      have hkeep := storedTerms_commit hwell hterms hcuts₀ (by rw [hnil]; rfl) (by simp [hnil])
      refine ⟨files₀, terms₀, hacc₀.mono hsub, hmem₀, hkeep.trans hEq₀, ?_⟩
      rw [hkeep, hsize]
      exact hcuts₀
  · -- A file registered by this shard had no terms before.
    have hold : w.store.storedTerms f.fileId = [] := howned f.fileId hnone
    have hnew := (hwell.cuts f hf).indices
    have hall := storedTerms_commit_extend hwell hterms (by rw [hold]; rfl) hnew (by simp [hold])
    refine ⟨files, terms, hacc, List.mem_map_of_mem hf, hall, ?_⟩
    rw [hall, hsize]
    exact hwell.cuts f hf

theorem termsOwned_commit {db db' : Database} {h : Hash} {files : List ParsedFile}
    {terms : List ParsedTerm} (howned : TermsOwned db) (hwell : WellCut files terms)
    (hfiles : db'.reconstructionFiles =
      files.foldl (fun t f => upsertFile t h f) db.reconstructionFiles)
    (hterms : db'.reconstructionTerms = db.reconstructionTerms.insertAll (termRows terms)) :
    TermsOwned db' := by
  intro fileId hnone
  have hfree : db.reconstructionFiles.find fileId = none ∧
      fileId ∉ files.map ParsedFile.fileId := by
    constructor
    · cases hf : db.reconstructionFiles.find fileId with
      | none => rfl
      | some row =>
          have hsome := isSome_upsertFiles h files
            (.inl (Option.isSome_iff_exists.2 ⟨row, hf⟩))
          rw [← hfiles, hnone] at hsome
          cases hsome
    · intro hmem
      have hsome := isSome_upsertFiles h files (t := db.reconstructionFiles) (.inr hmem)
      rw [← hfiles, hnone] at hsome
      cases hsome
  have hnil : termsOf terms fileId = [] := by
    refine termsOf_eq_nil ?_
    rintro t ht rfl
    exact hfree.2 (hwell.owned t ht)
  have hperm := storedTerms_insertAll hwell hterms fileId
  rw [hnil, howned fileId hfree.1] at hperm
  simpa using hperm

namespace State

variable {x : Crates} {c c' : State} {a : Step}

/-- The step commits a shard that cuts a registered file anew. -/
def Recut (c : State) (a : Step) : Prop :=
  ∃ i now scan h n files terms, a = .call i (.sql now scan) ∧
    c.pending i = some (.sql (.commitShard h n files terms)) ∧ c.store.shards.find h = none ∧
      ∃ f ∈ files, ∃ row, c.store.reconstructionFiles.find f.fileId = some row ∧
        RecutsFile c.store terms f row

/-- One step keeps the invariant. -/
theorem oneSegmentation_next {allow : State → Step → Prop} (hreach : Reachable x allow c)
    (hs : c.next x a = some c') (ha : ¬Recut c a)
    (hinv : OneSegmentation x c.toWorld ∧ TermsOwned c.store) :
    OneSegmentation x c'.toWorld ∧ TermsOwned c'.store := by
  rcases next_cases hs with hEq | ⟨i, e, req, o, k, r, rfl, ht, he, hlog⟩
  · rw [hEq]
    exact hinv
  · have hsub : ∀ e ∈ c.log, e ∈ c'.log := by
      intro e' he'
      rw [hlog]
      exact List.mem_cons_of_mem _ he'
    rcases exec_cases he with ⟨hEq, -⟩ | ⟨now, scan, s, rs, rfl, hcall, hexec⟩
    · refine ⟨hinv.1.mono hsub ?_ ?_, ?_⟩
      · rw [hEq]
      · rw [hEq]
      · rw [hEq]
        exact hinv.2
    · cases hcall
      rcases reconstruction_exec hexec with ⟨hf, hterms⟩ |
        ⟨h, n, files, terms, db₁, hcall, hok, hf, hterms⟩
      · refine ⟨hinv.1.mono hsub hf hterms, ?_⟩
        intro fileId hnone
        rw [hf] at hnone
        simpa only [Database.storedTerms, hterms] using hinv.2 fileId hnone
      · -- A commit: its request is a shard upload, and what it commits is well cut.
        cases hcall
        obtain ⟨hshard, hnodup, hdb⟩ := insertShardWithReconstruction_ok hok
        rw [hdb] at hf hterms
        have hserves := (hreach.serves ht).1
        cases req with
        | uploadXorb pathPrefix hashSuffix body =>
            rcases hserves with ⟨_, _, _, hfalse⟩
            exact hfalse.elim
        | sweep => exact hserves.elim
        | uploadShard body =>
            have hparses : ParsesTo x body files terms := hserves.2.2
            have hwell := hparses.wellCut hnodup
            have hacc : AcceptedShard x c'.toWorld files terms := by
              refine ⟨⟨i, .uploadShard body, ⟨.sql (.commitShard h n files terms), .ok true⟩⟩, ?_,
                h, n, body, rfl, rfl, hparses⟩
              rw [hlog]
              exact List.mem_cons_self
            refine ⟨oneSegmentation_commit hinv.1 hinv.2 hwell hf hterms hsub hacc ?_,
              termsOwned_commit hinv.2 hwell hf hterms⟩
            intro f hfmem row hrow hrecut
            exact ha ⟨i, now, scan, h, n, files, terms, rfl, pending_of_task ht, hshard, f, hfmem,
              row, hrow, hrecut⟩

theorem segmented_initial : OneSegmentation x initial.toWorld ∧ TermsOwned initial.store := by
  refine ⟨?_, ?_⟩
  · intro fileId row hrow
    cases hrow
  · intro fileId _
    rfl

theorem Reachable.segmented (h : Reachable x (fun c a => ¬Recut c a) c) :
    OneSegmentation x c.toWorld ∧ TermsOwned c.store := by
  have hboth : Reachable x (fun c a => ¬Recut c a) c ∧
      OneSegmentation x c.toWorld ∧ TermsOwned c.store := by
    apply h.invariant (I := fun c : State => Reachable x (fun c a => ¬Recut c a) c ∧
      OneSegmentation x c.toWorld ∧ TermsOwned c.store)
    · exact ⟨.refl _, segmented_initial⟩
    · intro c₁ a c₂ hinv ha hs
      exact ⟨hinv.1.tail ha hs, oneSegmentation_next hinv.1 hs ha hinv.2⟩
  exact hboth.2

/-- In every run in which no accepted shard cuts a registered file anew, the stored terms of every
registered file are one accepted shard's list for it. -/
theorem oneSegmentation_of_no_recut (h : Reachable x (fun c a => ¬Recut c a) c) :
    OneSegmentation x c.toWorld :=
  h.segmented.1

/-! ### A file cut twice -/

def twoChunks : Bytes := sampleBody ++ [0, 3, 0, 0, 0, 3, 0, 0, 4, 5, 6]

def sampleFile : Hash := Hash.fill 241

/-- Chunks `[first, last)` of a xorb, three bytes each. -/
def chunksOf (xorbHash : Hash) (first last : UInt32) : MDBSegment :=
  { xorbHash := xorbHash
    chunkIndexStart := first
    chunkIndexEnd := last
    unpackedSegmentBytes := 3 * (last - first) }

def wholeShard : Bytes := writeShard sampleFile [chunksOf sampleHash 0 2]

def splitShard : Bytes :=
  writeShard sampleFile [chunksOf sampleHash 0 1, chunksOf sampleHash 1 2]

def shardSha256 (b : Bytes) : Hash :=
  if b = wholeShard then
    ⟨[7, 250, 137, 140, 123, 49, 74, 100, 97, 67, 76, 82, 83, 226, 67, 48,
      61, 149, 114, 180, 255, 35, 36, 211, 255, 240, 85, 129, 75, 67, 116, 252], rfl⟩
  else
    ⟨[161, 38, 95, 201, 103, 238, 176, 91, 147, 121, 203, 166, 202, 250, 240, 139,
      43, 99, 101, 45, 201, 207, 187, 197, 245, 43, 137, 69, 184, 127, 249, 221], rfl⟩

def pinnedUpload (i : Nat) (hashSuffix : String) (body : Bytes) : List Step :=
  [.spawn i (.uploadXorb "default" hashSuffix body), .call i (.rateLimit (.ok ())),
    .call i (.sql 0 []), .call i (.sql 0 []), .call i (.upload (.ok (.ok [1]))),
    .call i (.sql 0 []), .call i (.sql 0 [])]

/-- An upload of a shard by task `i`, up to its commit. -/
def committedShard (i : Nat) (body : Bytes) : List Step :=
  [.spawn i (.uploadShard body), .call i (.sql 0 []), .call i (.sql 0 []), .call i (.sql 0 []),
    .call i (.rateLimit (.ok ())), .call i (.sql 0 [])]

def wholeFile : List Step :=
  pinnedUpload 0 sampleHex twoChunks ++ committedShard 1 wholeShard

/-- The pending commit lists no registered file. -/
def freshFilesCheck (c : State) : Step → Bool
  | .call i _ =>
      match c.pending i with
      | some (.sql (.commitShard _ _ files _)) =>
          files.all fun f => (c.store.reconstructionFiles.find f.fileId).isNone
      | _ => true
  | _ => true

theorem not_recut_of_check (h : freshFilesCheck c a = true) : ¬Recut c a := by
  rintro ⟨i, now, scan, hash, n, files, terms, rfl, hp, -, f, hf, row, hrow, -⟩
  have hall : ∀ f ∈ files, c.store.reconstructionFiles.find f.fileId = none := by
    simpa [freshFilesCheck, hp] using h
  rw [hall f hf] at hrow
  cases hrow

def storedCut (c : State) : List (Int × Int) × Option Int :=
  ((c.store.storedTerms sampleFile).map fun t => unpackedRange t.2,
    (c.store.reconstructionFiles.find sampleFile).map FileRow.totalSize)

theorem exists_wholeFile :
    ∃ c, Reachable (bareCrates shardSha256) (fun c a => ¬Recut c a) c ∧
      storedCut c = ([(0, 6)], some 6) ∧ (c.store.getReconstruction sampleFile).isSome = true := by
  have heval : (Pool.runChecked (code (bareCrates shardSha256)) exec freshFilesCheck initial
      wholeFile).map (fun c => decide (storedCut c = ([(0, 6)], some 6) ∧
        (c.store.getReconstruction sampleFile).isSome = true)) = some true := by
    decide +kernel
  rcases Option.map_eq_some_iff.1 heval with ⟨c, hrun, hcut⟩
  exact ⟨c, Reaches.of_runChecked hrun fun _ _ => not_recut_of_check, of_decide_eq_true hcut⟩

theorem oneSegmentation_of_no_recut_wholeFile :
    ∃ c, Reachable (bareCrates shardSha256) (fun c a => ¬Recut c a) c ∧
      storedCut c = ([(0, 6)], some 6) ∧ OneSegmentation (bareCrates shardSha256) c.toWorld := by
  rcases exists_wholeFile with ⟨c, hreach, hcut, -⟩
  exact ⟨c, hreach, hcut, oneSegmentation_of_no_recut hreach⟩

/-- The second shard keeps the first one's term for the whole file and adds its own second half. -/
theorem not_oneSegmentation :
    ¬∀ (x : Crates) (c : State), Reachable x anyStep c → OneSegmentation x c.toWorld := by
  intro hclaim
  have heval : (initial.runAll (bareCrates shardSha256)
      (wholeFile ++ committedShard 2 splitShard)).map
        (fun c => decide (storedCut c = ([(0, 6), (3, 6)], some 6))) = some true := by
    decide +kernel
  rcases exists_run heval with ⟨tr, c, hrun, hcut⟩
  have hcut : storedCut c = ([(0, 6), (3, 6)], some 6) := of_decide_eq_true hcut
  simp only [storedCut, Prod.mk.injEq] at hcut
  rcases Option.map_eq_some_iff.1 hcut.2 with ⟨row, hrow, hsize⟩
  rcases hclaim _ c ⟨tr, hrun, fun _ _ => trivial⟩ sampleFile row hrow with
    ⟨files, terms, -, -, -, hcuts⟩
  have htiles := hcuts.tiles
  rw [hcut.1, hsize] at htiles
  simp [Tiles] at htiles

end State

/-! ## Reconstruction -/

/-- A reconstruction answer is complete or absent: it is the file's whole stored list in term order,
tiling the file, and a term on a xorb that is not pinned means no answer. -/
def CompleteOrAbsent (db : Database) (fileId : Hash) : Prop :=
  (∀ row, db.getReconstruction fileId = some row →
    row.terms = (db.storedTerms fileId).map Prod.snd ∧
      Tiles 0 row.file.totalSize (row.terms.map unpackedRange)) ∧
  ((∃ t ∈ db.storedTerms fileId, db.xorbPinned t.2.xorbHash ≠ true) →
    db.getReconstruction fileId = none)

/-- The xorbs of the file's stored terms are pinned all or none. -/
def PinnedAlike (db : Database) (fileId : Hash) : Prop :=
  (∀ t ∈ db.storedTerms fileId, db.xorbPinned t.2.xorbHash = true) ∨
    ∀ t ∈ db.storedTerms fileId, db.xorbPinned t.2.xorbHash ≠ true

/-- The terms `get_reconstruction` returns. -/
def pinnedTerms (db : Database) (fileId : Hash) : List (Int × Term) :=
  (db.storedTerms fileId).filter fun t => db.xorbPinned t.2.xorbHash

/-- What `get_reconstruction` answers for a registered file. -/
theorem getReconstruction_eq {db : Database} {fileId : Hash} {f : FileRow}
    (hf : db.reconstructionFiles.find fileId = some f) :
    db.getReconstruction fileId =
      if pinnedTerms db fileId = [] then none
      else some
        { file := { fileId := fileId, totalSize := f.totalSize }
          terms := (pinnedTerms db fileId).map Prod.snd } := by
  unfold getReconstruction pinnedTerms
  rw [hf]
  cases hl : (db.storedTerms fileId).filter fun t => db.xorbPinned t.2.xorbHash with
  | nil => simp
  | cons t ts => simp

theorem completeOrAbsent_iff {db : Database} {fileId : Hash} (howned : TermsOwned db)
    (htiles : ∀ f, db.reconstructionFiles.find fileId = some f →
      Tiles 0 f.totalSize ((db.storedTerms fileId).map fun t => unpackedRange t.2)) :
    CompleteOrAbsent db fileId ↔ PinnedAlike db fileId := by
  cases hf : db.reconstructionFiles.find fileId with
  | none =>
      have hnil := howned fileId hf
      have habsent : db.getReconstruction fileId = none := by simp [getReconstruction, hf]
      simp [CompleteOrAbsent, PinnedAlike, hnil, habsent]
  | some f =>
      have hans := getReconstruction_eq hf
      constructor
      · intro hcomplete
        by_contra hmixed
        -- Some term is pinned and some is not: the answer must be absent, yet a term is left.
        simp only [PinnedAlike, not_or, not_forall, not_not] at hmixed
        rcases hmixed with ⟨⟨t, ht, hno⟩, t', ht', hyes⟩
        have habsent := hcomplete.2 ⟨t, ht, hno⟩
        have hmem : t' ∈ pinnedTerms db fileId := List.mem_filter.2 ⟨ht', hyes⟩
        have hne : pinnedTerms db fileId ≠ [] := List.ne_nil_of_mem hmem
        rw [hans, if_neg hne] at habsent
        cases habsent
      · rintro (hall | hnone)
        · have hwhole : pinnedTerms db fileId = db.storedTerms fileId :=
            List.filter_eq_self.2 hall
          refine ⟨?_, ?_⟩
          · intro row hrow
            rw [hans, hwhole] at hrow
            split at hrow
            · cases hrow
            · cases hrow
              refine ⟨rfl, ?_⟩
              simpa [List.map_map, Function.comp_def] using htiles f hf
          · rintro ⟨t, ht, hno⟩
            exact absurd (hall t ht) hno
        · have hempty : pinnedTerms db fileId = [] := by
            refine List.filter_eq_nil_iff.2 ?_
            intro t ht
            exact hnone t ht
          have habsent : db.getReconstruction fileId = none := by rw [hans, if_pos hempty]
          refine ⟨?_, fun _ => habsent⟩
          intro row hrow
          rw [habsent] at hrow
          cases hrow

namespace State

variable {x : Crates} {c : State}

/-- In every run in which no accepted shard cuts a registered file anew, the answer for a file is
complete or absent exactly when its xorbs are pinned all or none. -/
theorem completeOrAbsent_iff_pinnedAlike (h : Reachable x (fun c a => ¬Recut c a) c)
    (fileId : Hash) : CompleteOrAbsent c.store fileId ↔ PinnedAlike c.store fileId := by
  have hseg := h.segmented
  refine completeOrAbsent_iff hseg.2 ?_
  intro f hf
  rcases hseg.1 fileId f hf with ⟨_, _, _, _, _, hcuts⟩
  exact hcuts.tiles

theorem completeOrAbsent_iff_pinnedAlike_wholeFile :
    ∃ c, Reachable (bareCrates shardSha256) (fun c a => ¬Recut c a) c ∧
      (c.store.getReconstruction sampleFile).isSome = true ∧
      (CompleteOrAbsent c.store sampleFile ↔ PinnedAlike c.store sampleFile) := by
  rcases exists_wholeFile with ⟨c, hreach, -, hsome⟩
  exact ⟨c, hreach, hsome, completeOrAbsent_iff_pinnedAlike hreach sampleFile⟩

/-! ### A file that is pinned in part -/

def otherHash : Hash := Hash.fill 187

def otherHex : String :=
  "bbbbbbbbbbbbbbbbbbbbbbbbbbbbbbbbbbbbbbbbbbbbbbbbbbbbbbbbbbbbbbbb"

def mixedShard : Bytes :=
  writeShard sampleFile [chunksOf sampleHash 0 1, chunksOf otherHash 0 1]

def mixedSha256 (_ : Bytes) : Hash :=
  ⟨[30, 212, 204, 8, 34, 25, 182, 104, 106, 222, 95, 216, 218, 138, 42, 102,
    164, 100, 17, 78, 112, 57, 38, 173, 212, 81, 135, 206, 254, 60, 16, 158], rfl⟩

/-- The first xorb is pinned, the upload of the second one exceeds its budget. -/
def mixedFile : List Step :=
  pinnedUpload 0 sampleHex sampleBody ++
  [.spawn 1 (.uploadXorb "default" otherHex sampleBody), .call 1 (.rateLimit (.ok ())),
    .call 1 (.sql 0 []), .call 1 (.sql 0 []), .call 1 (.upload (.error ())),
    .call 1 (.sql 0 []), .call 1 (.sql 0 [])] ++
  committedShard 2 mixedShard

/-- The intervals of the answer for the sample file. -/
def answeredRanges (c : State) : Option (List (Int × Int)) :=
  (c.store.getReconstruction sampleFile).map fun row => row.terms.map unpackedRange

/-- The answer for a file that is pinned in part is its pinned part. -/
theorem not_completeOrAbsent :
    ¬∀ (x : Crates) (c : State), Reachable x anyStep c →
      ∀ fileId, CompleteOrAbsent c.store fileId := by
  intro hclaim
  have heval : (initial.runAll (bareCrates mixedSha256) mixedFile).map
      (fun c => decide (answeredRanges c = some [(0, 3)] ∧
        storedCut c = ([(0, 3), (3, 6)], some 6))) = some true := by
    decide +kernel
  rcases exists_run heval with ⟨tr, c, hrun, hobs⟩
  rcases of_decide_eq_true hobs with ⟨hanswer, hcut⟩
  rcases Option.map_eq_some_iff.1 hanswer with ⟨row, hrow, hranges⟩
  have hwhole := ((hclaim _ c ⟨tr, hrun, fun _ _ => trivial⟩ sampleFile).1 row hrow).1
  have hlen : (row.terms.map unpackedRange).length = (storedCut c).1.length := by
    simp [storedCut, hwhole]
  rw [hranges, hcut] at hlen
  cases hlen

end State

end Service
end OpenWeights
