import OpenWeights.Core.HexText
import OpenWeights.Core.RangedQuery

/-!
# BatchQuery — several reconstructions in one request

Model of `query_reconstructions_batch_v1`: the hand-written parser of the repeated `file_id` keys,
the one `SELECT` for all files with its bucketing loop, and the map from ids back to the strings of
the request.

The `SELECT` answers every id as the single query does (`find_getReconstructionsBatch`).  The way
back to the strings keeps one string for each id, so a file asked for in two spellings is answered
under the last one only (`batchMatches_iff`).
-/

namespace OpenWeights
namespace Db

open Lib

namespace Database

/-! ## The statement -/

/-- A row of the join of `get_reconstructions_batch`. -/
structure JoinedRow where
  fileId : Hash
  totalSize : Int
  termIndex : Int
  term : Term
  deriving DecidableEq, Repr

/-- `ORDER BY f.file_id, t.term_index ASC`. -/
def byFileAndIndex (a b : JoinedRow) : Prop :=
  if a.fileId = b.fileId then a.termIndex ≤ b.termIndex else Core.hashLe a.fileId b.fileId

instance : DecidableRel byFileAndIndex := fun a b =>
  inferInstanceAs (Decidable (if a.fileId = b.fileId then a.termIndex ≤ b.termIndex
    else Core.hashLe a.fileId b.fileId))

/-- What a term row contributes to the join, `WHERE f.file_id = ANY($1)`. -/
def joinTerm (db : Database) (fileIds : List Hash) (r : (Hash × Int) × Term) : Option JoinedRow :=
  if r.1.1 ∈ fileIds ∧ db.xorbPinned r.2.xorbHash then
    (db.reconstructionFiles.find r.1.1).map fun f =>
      { fileId := r.1.1
        totalSize := f.totalSize
        termIndex := r.1.2
        term := r.2 }
  else
    none

def joinedRows (db : Database) (fileIds : List Hash) : List JoinedRow :=
  (db.reconstructionTerms.rows.filterMap (db.joinTerm fileIds)).insertionSort byFileAndIndex

/-- One turn of the bucketing loop. -/
def bucket (out : Table Hash ReconstructionRow) (r : JoinedRow) : Table Hash ReconstructionRow :=
  let entry := (out.find r.fileId).getD
    { file := { fileId := r.fileId, totalSize := r.totalSize }
      terms := [] }
  out.set r.fileId { entry with terms := entry.terms ++ [r.term] }

def getReconstructionsBatch (db : Database) (fileIds : List Hash) :
    Table Hash ReconstructionRow :=
  if fileIds = [] then
    .empty
  else
    (db.joinedRows fileIds).foldl bucket .empty

/-! ## One bucket for each file -/

theorem find_bucket_self (out : Table Hash ReconstructionRow) (r : JoinedRow) :
    (bucket out r).find r.fileId =
      some { (out.find r.fileId).getD { file := { fileId := r.fileId, totalSize := r.totalSize }
                                        terms := [] } with
        terms := ((out.find r.fileId).elim [] ReconstructionRow.terms) ++ [r.term] } := by
  rw [bucket, Table.find_set_self]
  cases out.find r.fileId <;> rfl

theorem find_bucket_of_ne (out : Table Hash ReconstructionRow) {r : JoinedRow} {fileId : Hash}
    (hne : fileId ≠ r.fileId) : (bucket out r).find fileId = out.find fileId :=
  Table.find_set_of_ne out _ hne

/-- An entry that exists gets the terms of its rows, in their order. -/
theorem find_foldl_bucket_some {rows : List JoinedRow} {out : Table Hash ReconstructionRow}
    {fileId : Hash} {row : ReconstructionRow} (hrow : out.find fileId = some row) :
    (rows.foldl bucket out).find fileId =
      some { row with
        terms := row.terms ++
          (rows.filter fun r => r.fileId = fileId).map JoinedRow.term } := by
  induction rows generalizing out row with
  | nil => simpa using hrow
  | cons r rest ih =>
      rw [List.foldl_cons]
      by_cases hfile : r.fileId = fileId
      · subst hfile
        have hself := find_bucket_self out r
        rw [hrow] at hself
        rw [ih hself]
        simp
      · have hother : (bucket out r).find fileId = some row := by
          rw [find_bucket_of_ne out (Ne.symm hfile), hrow]
        rw [ih hother]
        simp [hfile]

/-- An entry is made by the first row of its file. -/
theorem find_foldl_bucket_none {rows : List JoinedRow} {out : Table Hash ReconstructionRow}
    {fileId : Hash} (hnone : out.find fileId = none) :
    (rows.foldl bucket out).find fileId =
      ((rows.filter fun r => r.fileId = fileId).head?).map fun r =>
        { file := { fileId := fileId, totalSize := r.totalSize }
          terms := (rows.filter fun r => r.fileId = fileId).map JoinedRow.term } := by
  induction rows generalizing out with
  | nil => simpa using hnone
  | cons r rest ih =>
      rw [List.foldl_cons]
      by_cases hfile : r.fileId = fileId
      · subst hfile
        have hself := find_bucket_self out r
        rw [hnone] at hself
        rw [find_foldl_bucket_some hself]
        simp
      · have hother : (bucket out r).find fileId = none := by
          rw [find_bucket_of_ne out (Ne.symm hfile), hnone]
        rw [ih hother]
        simp [hfile]

/-! ## The rows of one file -/

instance : Std.Total byFileAndIndex where
  total a b := by
    unfold byFileAndIndex
    by_cases hfile : a.fileId = b.fileId
    · rw [if_pos hfile, if_pos hfile.symm]
      exact Int.le_total _ _
    · rw [if_neg hfile, if_neg (Ne.symm hfile)]
      exact Std.Total.total _ _

instance : IsTrans JoinedRow byFileAndIndex where
  trans a b c hab hbc := by
    unfold byFileAndIndex at hab hbc ⊢
    by_cases hfirst : a.fileId = b.fileId
    · rw [if_pos hfirst] at hab
      rw [hfirst]
      by_cases hsecond : b.fileId = c.fileId
      · rw [if_pos hsecond] at hbc ⊢
        exact Int.le_trans hab hbc
      · rwa [if_neg hsecond] at hbc ⊢
    · rw [if_neg hfirst] at hab
      by_cases hsecond : b.fileId = c.fileId
      · rw [← hsecond, if_neg hfirst]
        exact hab
      · rw [if_neg hsecond] at hbc
        by_cases hboth : a.fileId = c.fileId
        · -- The ids would be ordered both ways.
          rw [hboth] at hab
          exact absurd (antisymm hbc hab) hsecond
        · rw [if_neg hboth]
          exact IsTrans.trans _ _ _ hab hbc

def joinedRow (fileId : Hash) (totalSize : Int) (t : Int × Term) : JoinedRow :=
  { fileId := fileId
    totalSize := totalSize
    termIndex := t.1
    term := t.2 }

theorem filter_filterMap_joinTerm (db : Database) {fileIds : List Hash} {fileId : Hash}
    (hmem : fileId ∈ fileIds) {f : FileRow} (hf : db.reconstructionFiles.find fileId = some f)
    (rows : List ((Hash × Int) × Term)) :
    ((rows.filterMap (db.joinTerm fileIds)).filter fun r => r.fileId = fileId) =
      (((rows.filter fun r => r.1.1 = fileId).map fun r => (r.1.2, r.2)).filter fun t =>
        db.xorbPinned t.2.xorbHash).map (joinedRow fileId f.totalSize) := by
  induction rows with
  | nil => rfl
  | cons r rest ih =>
      obtain ⟨⟨file, index⟩, term⟩ := r
      by_cases hfile : file = fileId
      · subst hfile
        by_cases hpinned : db.xorbPinned term.xorbHash
        · simp [joinTerm, hmem, hpinned, hf, joinedRow, ih]
        · simp [joinTerm, hpinned, ih]
      · have hskip : (((((file, index), term) :: rest).filterMap (db.joinTerm fileIds)).filter
            fun r => r.fileId = fileId) =
            ((rest.filterMap (db.joinTerm fileIds)).filter fun r => r.fileId = fileId) := by
          rw [List.filterMap_cons]
          cases hjoin : db.joinTerm fileIds ((file, index), term) with
          | none => rfl
          | some joined =>
              have hjoined : joined.fileId = file := by
                unfold joinTerm at hjoin
                split at hjoin
                · obtain ⟨f', -, rfl⟩ := Option.map_eq_some_iff.1 hjoin
                  rfl
                · cases hjoin
              simp [hjoined, hfile]
        rw [hskip, ih]
        simp [hfile]

theorem pairwise_storedTerms (db : Database) (fileId : Hash) :
    (db.storedTerms fileId).Pairwise byTermIndex := by
  have : Std.Total byTermIndex := ⟨fun a b => Int.le_total a.1 b.1⟩
  have : IsTrans (Int × Term) byTermIndex := ⟨fun _ _ _ hab hbc => Int.le_trans hab hbc⟩
  exact List.pairwise_insertionSort _ _

/-- The term index determines the row of a file. -/
theorem storedTerms_inj {db : Database} {fileId : Hash} {t u : Int × Term}
    (ht : t ∈ db.storedTerms fileId) (hu : u ∈ db.storedTerms fileId) (hindex : t.1 = u.1) :
    t = u := by
  have hrow : ∀ v ∈ db.storedTerms fileId,
      db.reconstructionTerms.find (fileId, v.1) = some v.2 := by
    intro v hv
    rw [storedTerms, List.mem_insertionSort] at hv
    obtain ⟨r, hr, rfl⟩ := List.mem_map.1 hv
    obtain ⟨hmem, hfile⟩ := List.mem_filter.1 hr
    rw [decide_eq_true_eq] at hfile
    rw [← hfile]
    exact Table.find_eq_some_iff.2 hmem
  have hEq := hrow u hu
  rw [← hindex, hrow t ht, Option.some_inj] at hEq
  exact Prod.ext hindex hEq

/-- The rows of a file come out of the join as its stored terms do. -/
theorem filter_joinedRows (db : Database) {fileIds : List Hash} {fileId : Hash}
    (hmem : fileId ∈ fileIds) {f : FileRow} (hf : db.reconstructionFiles.find fileId = some f) :
    ((db.joinedRows fileIds).filter fun r => r.fileId = fileId) =
      ((db.storedTerms fileId).filter fun t => db.xorbPinned t.2.xorbHash).map
        (joinedRow fileId f.totalSize) := by
  have hsorted : ((db.joinedRows fileIds).filter fun r => r.fileId = fileId).Pairwise
      byFileAndIndex :=
    (List.pairwise_insertionSort byFileAndIndex _).filter _
  have hsorted' : (((db.storedTerms fileId).filter fun t => db.xorbPinned t.2.xorbHash).map
      (joinedRow fileId f.totalSize)).Pairwise byFileAndIndex := by
    rw [List.pairwise_map]
    refine ((db.pairwise_storedTerms fileId).filter _).imp ?_
    intro a b hab
    exact (if_pos rfl).mpr hab
  have hperm : ((db.joinedRows fileIds).filter fun r => r.fileId = fileId).Perm
      (((db.storedTerms fileId).filter fun t => db.xorbPinned t.2.xorbHash).map
        (joinedRow fileId f.totalSize)) := by
    have hleft := (List.perm_insertionSort byFileAndIndex
      (db.reconstructionTerms.rows.filterMap (db.joinTerm fileIds))).filter
        fun r => r.fileId = fileId
    rw [filter_filterMap_joinTerm db hmem hf] at hleft
    have hstored := List.perm_insertionSort byTermIndex
      ((db.reconstructionTerms.rows.filter fun r => r.1.1 = fileId).map fun r => (r.1.2, r.2))
    have hright := hstored.filter fun t => db.xorbPinned t.2.xorbHash
    exact hleft.trans (hright.map _).symm
  refine List.Perm.eq_of_pairwise ?_ hsorted hsorted' hperm
  intro a b ha hb hab hba
  obtain ⟨t, ht, rfl⟩ := List.mem_map.1 (hperm.mem_iff.1 ha)
  obtain ⟨u, hu, rfl⟩ := List.mem_map.1 hb
  have hle : t.1 ≤ u.1 := by simpa [byFileAndIndex, joinedRow] using hab
  have hge : u.1 ≤ t.1 := by simpa [byFileAndIndex, joinedRow] using hba
  rw [storedTerms_inj (List.mem_filter.1 ht).1 (List.mem_filter.1 hu).1 (Int.le_antisymm hle hge)]

/-- Every joined row is of a file that was asked for and exists. -/
theorem of_mem_joinedRows {db : Database} {fileIds : List Hash} {r : JoinedRow}
    (h : r ∈ db.joinedRows fileIds) :
    r.fileId ∈ fileIds ∧ ∃ f, db.reconstructionFiles.find r.fileId = some f := by
  rw [joinedRows, List.mem_insertionSort, List.mem_filterMap] at h
  obtain ⟨row, -, hjoin⟩ := h
  unfold joinTerm at hjoin
  split at hjoin
  · rename_i hcond
    obtain ⟨f, hf, rfl⟩ := Option.map_eq_some_iff.1 hjoin
    exact ⟨hcond.1, f, hf⟩
  · cases hjoin

/-- The batch query answers each id as the single query does, and no other id. -/
theorem find_getReconstructionsBatch (db : Database) (fileIds : List Hash) (fileId : Hash) :
    (db.getReconstructionsBatch fileIds).find fileId =
      if fileId ∈ fileIds then db.getReconstruction fileId else none := by
  unfold getReconstructionsBatch
  by_cases hnil : fileIds = []
  · subst hnil
    simp
  rw [if_neg hnil, find_foldl_bucket_none (Table.find_empty fileId)]
  have hnone : (fileId ∈ fileIds → db.reconstructionFiles.find fileId = none) →
      ((db.joinedRows fileIds).filter fun r => r.fileId = fileId) = [] := by
    intro hmissing
    refine List.filter_eq_nil_iff.2 ?_
    intro r hr hfile
    rw [decide_eq_true_eq] at hfile
    subst hfile
    obtain ⟨hmem, f, hf⟩ := of_mem_joinedRows hr
    rw [hmissing hmem] at hf
    cases hf
  by_cases hmem : fileId ∈ fileIds
  · rw [if_pos hmem, getReconstruction]
    cases hf : db.reconstructionFiles.find fileId with
    | none =>
        rw [hnone fun _ => hf]
        rfl
    | some f =>
        rw [filter_joinedRows db hmem hf]
        cases (db.storedTerms fileId).filter fun t => db.xorbPinned t.2.xorbHash with
        | nil => rfl
        | cons t ts =>
            simp only [List.map_cons, List.head?_cons, Option.map_some, List.map_map]
            rfl
  · rw [if_neg hmem, hnone fun h => absurd h hmem]
    rfl

end Database
end Db

namespace Core

open Lib Db Db.Database Gateway

/-! ## The request -/

def parseFileIdQuery (raw : Bytes) : List Bytes :=
  (((raw.splitOn 38).filterMap (stripPrefix (lit "file_id="))).flatMap fun v =>
    v.splitOn 44).filter fun s => s ≠ []

/-- `AppError`, as far as the handlers of this module return it. -/
inductive QueryError
  | badRequest (reason : Bytes)
  | rateLimited
  | notFound
  | rangeNotSatisfiable
  deriving DecidableEq, Repr

/-- The loop of step (1), from what it has collected: the ids in order, and for each id the last
string that named it. -/
def collectFileIds (acc : List Hash × Table Hash Bytes) :
    List Bytes → Except QueryError (List Hash × Table Hash Bytes)
  | [] => .ok acc
  | hex :: rest =>
      match decodeFileIdHex hex with
      | none => .error (.badRequest (lit "invalid_file_id"))
      | some fileId => collectFileIds (acc.1 ++ [fileId], acc.2.set fileId hex) rest

/-- The order in which a `HashMap` is walked. -/
structure MapOrder where
  iterate : Table Hash ReconstructionRow → List (Hash × ReconstructionRow)
  perm : ∀ t, (iterate t).Perm t.rows

/-- What both handlers answer with: the sort of the standard library, the signer with its key, the
caller's key id and the time. -/
structure Responder where
  order : UnstableSort
  hmac : Hmac
  signer : UrlSigner
  kid : Uuid
  nowUnix : UInt64

def Responder.response (a : Responder) (row : ReconstructionRow) : QueryReconstructionResponse :=
  buildResponse a.order a.hmac row a.signer a.kid a.nowUnix

/-- `query_reconstruction_v1`; `limit` is the answer of the rate limiter. -/
def queryReconstructionV1 (a : Responder) (limit : Except QueryError Unit) (db : Database)
    (fileIdHex : Bytes) (range : Option Bytes) : Except QueryError QueryReconstructionResponse :=
  match decodeFileIdHex fileIdHex with
  | none => .error (.badRequest (lit "invalid_file_id"))
  | some fileId =>
      match limit with
      | .error e => .error e
      | .ok () =>
          match db.getReconstruction fileId with
          | none => .error .notFound
          | some row =>
              match respondV1 a.order a.hmac a.signer a.kid a.nowUnix range row with
              | .error .rangeNotSatisfiable => .error .rangeNotSatisfiable
              | .ok response => .ok response

/-- `query_reconstructions_batch_v1`; `raw` is the query string. -/
def queryReconstructionsBatchV1 (a : Responder) (mapOrder : MapOrder)
    (limit : Except QueryError Unit) (db : Database) (raw : Option Bytes) :
    Except QueryError (Table Bytes QueryReconstructionResponse) :=
  match collectFileIds ([], .empty) (parseFileIdQuery (raw.getD [])) with
  | .error e => .error e
  | .ok (fileIds, hexForId) =>
      match limit with
      | .error e => .error e
      | .ok () =>
          .ok (Table.empty.setAll
            ((mapOrder.iterate (db.getReconstructionsBatch fileIds)).map fun p =>
              ((hexForId.find p.1).getD (digestToHex p.1), a.response p.2)))

/-! ## The query string of a list -/

def batchQuery (params : List Bytes) : Bytes :=
  [38].intercalate (params.map fun s => lit "file_id=" ++ s)

/-- What the parser makes of the query of a list of ids is the list. -/
theorem parseFileIdQuery_batchQuery {params : List Bytes}
    (h : ∀ s ∈ params, (decodeFileIdHex s).isSome) :
    parseFileIdQuery (batchQuery params) = params := by
  -- Neither separator is a hex digit, so each of them is cut where the query was joined.
  have hsplit : ((batchQuery params).splitOn 38).filterMap (stripPrefix (lit "file_id=")) =
      params := by
    cases params with
    | nil => decide
    | cons s rest =>
        have hsep : ∀ part ∈ (s :: rest).map fun s => lit "file_id=" ++ s, (38 : UInt8) ∉ part := by
          intro part hpart hmem
          obtain ⟨s', hs', rfl⟩ := List.mem_map.1 hpart
          rcases List.mem_append.1 hmem with hfront | hback
          · exact absurd hfront (by decide)
          · exact absurd ((isSome_decodeFileIdHex_iff.1 (h s' hs')).2 38 hback) (by decide)
        rw [batchQuery, List.splitOn_intercalate _ hsep (by simp), List.filterMap_map]
        have hstrip : (stripPrefix (lit "file_id=") ∘ fun s => lit "file_id=" ++ s) = some := by
          funext s'
          rw [Function.comp, stripPrefix,
            if_pos (List.isPrefixOf_iff_prefix.2 (List.prefix_append _ _)), List.drop_left]
        rw [hstrip, List.filterMap_some]
  have hcomma : ∀ s ∈ params, s.splitOn 44 = [s] := by
    intro s hs
    have hnot : (44 : UInt8) ∉ s := by
      intro hmem
      exact absurd ((isSome_decodeFileIdHex_iff.1 (h s hs)).2 44 hmem) (by decide)
    have hsingle : ([44].intercalate [s]).splitOn 44 = [s] :=
      List.splitOn_intercalate 44 (by simpa using hnot) (by simp)
    simpa using hsingle
  have hflat : (params.flatMap fun v => v.splitOn 44) = params := by
    calc
      (params.flatMap fun v => v.splitOn 44) = params.flatMap fun v => [v] :=
          List.flatMap_congr hcomma
      _ = params := by simp
  rw [parseFileIdQuery, hsplit, hflat]
  refine List.filter_eq_self.2 ?_
  intro s hs
  have hlen := (isSome_decodeFileIdHex_iff.1 (h s hs)).1
  rw [decide_eq_true_eq]
  rintro rfl
  cases hlen

/-! ## From ids back to strings -/

def lastSpelling (params : List Bytes) (fileId : Hash) : Option Bytes :=
  params.reverse.find? fun s => decodeFileIdHex s = some fileId

theorem lastSpelling_cons (s : Bytes) (rest : List Bytes) (fileId : Hash) :
    lastSpelling (s :: rest) fileId = (lastSpelling rest fileId).or
      (if decodeFileIdHex s = some fileId then some s else none) := by
  rw [lastSpelling, List.reverse_cons, List.find?_append, lastSpelling]
  congr 1
  by_cases hs : decodeFileIdHex s = some fileId <;> simp [hs]

/-- A string that names an id is returned, and it is one of the list. -/
theorem exists_lastSpelling {params : List Bytes} {s : Bytes} {fileId : Hash} (hs : s ∈ params)
    (hdecode : decodeFileIdHex s = some fileId) :
    ∃ last ∈ params, lastSpelling params fileId = some last ∧
      decodeFileIdHex last = some fileId := by
  have hfound : (lastSpelling params fileId).isSome := by
    rw [lastSpelling, List.find?_isSome]
    exact ⟨s, List.mem_reverse.2 hs, by simpa using hdecode⟩
  obtain ⟨last, hlast⟩ := Option.isSome_iff_exists.1 hfound
  have hmem := List.mem_of_find?_eq_some hlast
  have hdec := List.find?_some hlast
  exact ⟨last, List.mem_reverse.1 hmem, hlast, by simpa using hdec⟩

theorem collectFileIds_ok {params : List Bytes} (h : ∀ s ∈ params, (decodeFileIdHex s).isSome)
    (acc : List Hash × Table Hash Bytes) :
    ∃ fileIds hexForId, collectFileIds acc params = .ok (fileIds, hexForId) ∧
      (∀ fileId, fileId ∈ fileIds ↔
        fileId ∈ acc.1 ∨ ∃ s ∈ params, decodeFileIdHex s = some fileId) ∧
      ∀ fileId, hexForId.find fileId = (lastSpelling params fileId).or (acc.2.find fileId) := by
  induction params generalizing acc with
  | nil => exact ⟨acc.1, acc.2, rfl, by simp, fun _ => rfl⟩
  | cons s rest ih =>
      obtain ⟨hs, hrest⟩ := List.forall_mem_cons.1 h
      obtain ⟨named, hnamed⟩ := Option.isSome_iff_exists.1 hs
      obtain ⟨fileIds, hexForId, hcollect, hids, hhex⟩ :=
        ih hrest (acc.1 ++ [named], acc.2.set named s)
      refine ⟨fileIds, hexForId, ?_, ?_, ?_⟩
      · rw [collectFileIds, hnamed]
        exact hcollect
      · intro fileId
        rw [hids]
        simp only [List.mem_append, List.mem_cons, List.not_mem_nil, false_or, exists_eq_or_imp,
          hnamed, Option.some_inj, eq_comm (a := named), or_assoc]
      · intro fileId
        rw [hhex, lastSpelling_cons, Option.or_assoc, hnamed]
        congr 1
        by_cases hEq : named = fileId
        · subst hEq
          rw [Table.find_set_self, if_pos rfl]
          rfl
        · rw [Table.find_set_of_ne acc.2 s (Ne.symm hEq), if_neg (by simpa using hEq)]
          rfl

/-! ## Batch and single -/

section Batch

variable {a : Responder} {db : Database} {params : List Bytes}

/-- What the batch handler answers: each file under the last string that names it. -/
theorem queryReconstructionsBatchV1_ok (a : Responder) (mapOrder : MapOrder) (db : Database)
    {raw : Option Bytes}
    (hparams : parseFileIdQuery (raw.getD []) = params)
    (hvalid : ∀ s ∈ params, (decodeFileIdHex s).isSome) :
    ∃ out, queryReconstructionsBatchV1 a mapOrder (.ok ()) db raw = .ok out ∧
      ∀ s response, out.find s = some response ↔
        ∃ fileId row, lastSpelling params fileId = some s ∧
          db.getReconstruction fileId = some row ∧ response = a.response row := by
  obtain ⟨fileIds, hexForId, hcollect, hids, hhex⟩ := collectFileIds_ok hvalid ([], .empty)
  simp only [List.not_mem_nil, false_or] at hids
  simp only [Table.find_empty, Option.or_none] at hhex
  -- A row of the batch is a file that was asked for, and its string decodes to it.
  have hrow : ∀ p ∈ mapOrder.iterate (db.getReconstructionsBatch fileIds),
      db.getReconstruction p.1 = some p.2 ∧
        ∃ s, hexForId.find p.1 = some s ∧ decodeFileIdHex s = some p.1 := by
    intro p hp
    have hfind := Table.find_eq_some_iff.2 ((mapOrder.perm _).mem_iff.1 hp)
    rw [find_getReconstructionsBatch] at hfind
    split at hfind
    · rename_i hmem
      obtain ⟨s, hs, hdecode⟩ := (hids p.1).1 hmem
      obtain ⟨last, -, hlast, hdecodeLast⟩ := exists_lastSpelling hs hdecode
      exact ⟨hfind, last, (hhex p.1).trans hlast, hdecodeLast⟩
    · cases hfind
  have hnodup : (((mapOrder.iterate (db.getReconstructionsBatch fileIds)).map fun p =>
      ((hexForId.find p.1).getD (digestToHex p.1), a.response p.2)).map Prod.fst).Nodup := by
    rw [List.map_map]
    have hkeys := ((mapOrder.perm (db.getReconstructionsBatch fileIds)).map Prod.fst).nodup_iff.2
      (db.getReconstructionsBatch fileIds).nodupKeys
    refine List.Nodup.map_on ?_ (List.Nodup.of_map _ hkeys)
    intro p hp q hq hEq
    obtain ⟨-, s, hs, hdecode⟩ := hrow p hp
    obtain ⟨-, s', hs', hdecode'⟩ := hrow q hq
    simp only [Function.comp, hs, hs', Option.getD_some] at hEq
    subst hEq
    have hfst : p.1 = q.1 := Option.some_inj.1 (hdecode.symm.trans hdecode')
    exact List.inj_on_of_nodup_map hkeys hp hq hfst
  refine ⟨_, by rw [queryReconstructionsBatchV1, hparams, hcollect], ?_⟩
  intro s response
  rw [Table.find_setAll_eq_some_iff hnodup]
  simp only [Table.find_empty, reduceCtorEq, and_false, or_false, List.mem_map, Prod.mk.injEq]
  constructor
  · rintro ⟨p, hp, hkey, hresponse⟩
    obtain ⟨hfile, s', hs', -⟩ := hrow p hp
    rw [hs', Option.getD_some] at hkey
    subst hkey
    exact ⟨p.1, p.2, (hhex p.1).symm.trans hs', hfile, hresponse.symm⟩
  · rintro ⟨fileId, row, hlast, hfile, rfl⟩
    have hmem : fileId ∈ fileIds := by
      have hdecode := List.find?_some hlast
      exact (hids fileId).2 ⟨s, List.mem_reverse.1 (List.mem_of_find?_eq_some hlast),
        by simpa using hdecode⟩
    have hfind : (db.getReconstructionsBatch fileIds).find fileId = some row := by
      rw [find_getReconstructionsBatch, if_pos hmem, hfile]
    refine ⟨(fileId, row), (mapOrder.perm _).mem_iff.2 (Table.find_eq_some_iff.1 hfind), ?_, rfl⟩
    rw [hhex, hlast, Option.getD_some]

/-- What the single query without a `Range` header answers. -/
theorem queryReconstructionV1_ok_iff {s : Bytes} {response : QueryReconstructionResponse} :
    queryReconstructionV1 a (.ok ()) db s none = .ok response ↔
      ∃ fileId row, decodeFileIdHex s = some fileId ∧ db.getReconstruction fileId = some row ∧
        response = a.response row := by
  unfold queryReconstructionV1
  cases decodeFileIdHex s with
  | none => simp
  | some fileId =>
      cases hfile : db.getReconstruction fileId with
      | none => simp [hfile]
      | some row =>
          have hrespond : respondV1 a.order a.hmac a.signer a.kid a.nowUnix none row =
              .ok (a.response row) := rfl
          simp only [hfile, hrespond, Except.ok.injEq, Option.some_inj]
          constructor
          · rintro rfl
            exact ⟨fileId, row, rfl, hfile, rfl⟩
          · rintro ⟨_, row', rfl, hfile', rfl⟩
            rw [hfile, Option.some_inj] at hfile'
            rw [hfile']

end Batch

/-- The batch request answers exactly the strings it was asked for and found, each with the answer of
the single request. -/
def BatchMatches (a : Responder) (mapOrder : MapOrder) (db : Database) (params : List Bytes)
    (raw : Option Bytes) : Prop :=
  ∃ out, queryReconstructionsBatchV1 a mapOrder (.ok ()) db raw = .ok out ∧
    ∀ s response, out.find s = some response ↔
      s ∈ params ∧ queryReconstructionV1 a (.ok ()) db s none = .ok response

/-- No file that is found was asked for in two spellings. -/
def OneSpelling (db : Database) (params : List Bytes) : Prop :=
  ∀ s ∈ params, ∀ s' ∈ params, ∀ fileId, decodeFileIdHex s = some fileId →
    decodeFileIdHex s' = some fileId → (db.getReconstruction fileId).isSome → s = s'

/-- Batch and single agree if and only if no file that is found was asked for in two spellings. -/
theorem batchMatches_iff (a : Responder) (mapOrder : MapOrder) (db : Database)
    {params : List Bytes} {raw : Option Bytes} (hparams : parseFileIdQuery (raw.getD []) = params)
    (hvalid : ∀ s ∈ params, (decodeFileIdHex s).isSome) :
    BatchMatches a mapOrder db params raw ↔ OneSpelling db params := by
  obtain ⟨out, hout, hfind⟩ := queryReconstructionsBatchV1_ok a mapOrder db hparams hvalid
  constructor
  · rintro ⟨out', hout', hmatch⟩
    obtain rfl : out = out' := Except.ok.inj (hout.symm.trans hout')
    have hlast : ∀ s ∈ params, ∀ fileId, decodeFileIdHex s = some fileId →
        (db.getReconstruction fileId).isSome → lastSpelling params fileId = some s := by
      intro s hs fileId hdecode hsome
      obtain ⟨row, hrow⟩ := Option.isSome_iff_exists.1 hsome
      have hsingle : queryReconstructionV1 a (.ok ()) db s none = .ok (a.response row) :=
        queryReconstructionV1_ok_iff.2 ⟨fileId, row, hdecode, hrow, rfl⟩
      obtain ⟨fileId', _, hspelling, -⟩ := (hfind s _).1 ((hmatch s _).2 ⟨hs, hsingle⟩)
      have hdecode' := List.find?_some hspelling
      rw [decide_eq_true_eq, hdecode, Option.some_inj] at hdecode'
      rw [hdecode']
      exact hspelling
    intro s hs s' hs' fileId hdecode hdecode' hsome
    exact Option.some_inj.1
      ((hlast s hs fileId hdecode hsome).symm.trans (hlast s' hs' fileId hdecode' hsome))
  · intro hone
    refine ⟨out, hout, ?_⟩
    intro s response
    rw [hfind, queryReconstructionV1_ok_iff]
    constructor
    · rintro ⟨fileId, row, hspelling, hrow, rfl⟩
      have hdecode := List.find?_some hspelling
      exact ⟨List.mem_reverse.1 (List.mem_of_find?_eq_some hspelling), fileId, row,
        by simpa using hdecode, hrow, rfl⟩
    · rintro ⟨hs, fileId, row, hdecode, hrow, rfl⟩
      obtain ⟨last, hlast, hspelling, hdecodeLast⟩ := exists_lastSpelling hs hdecode
      have hEq : last = s := hone last hlast s hs fileId hdecodeLast hdecode (by rw [hrow]; rfl)
      subst hEq
      exact ⟨fileId, row, hspelling, hrow, rfl⟩

/-! ## A sample -/

/-- A database with one file of three bytes on a pinned xorb. -/
def batchDb : Database :=
  let file : FileRow := { shardHash := Hash.fill 5, totalSize := 3, sha256 := none }
  let xorb : XorbRow := { PinRow.fresh 11 with pinState := .pinned, chunkBoundaries := none }
  let term : Term := ⟨vectorHash, 0, 1, 0, 11, 0, 3⟩
  { Database.empty with
    xorbs := Table.empty.insertNew vectorHash xorb
    reconstructionFiles := Table.empty.insertNew (Hash.fill 241) file
    reconstructionTerms := Table.empty.insertNew (Hash.fill 241, 0) term }

def batchResponder : Responder := ⟨sortByStart, rangeHmac, vectorSigner, vectorKid, 1999992800⟩

/-- The id of the file, and the same in capitals. -/
def batchSpelling : Bytes := (List.replicate 32 (lit "f1")).flatten

def batchCapitals : Bytes := (List.replicate 32 (lit "F1")).flatten

def walkInOrder : MapOrder where
  iterate t := t.rows
  perm _ := List.Perm.refl _

theorem batchMatches_iff_repeated :
    BatchMatches batchResponder walkInOrder batchDb [batchSpelling, batchSpelling]
      (some (batchQuery [batchSpelling, batchSpelling])) := by
  have hvalid : ∀ s ∈ [batchSpelling, batchSpelling], (decodeFileIdHex s).isSome := by
    decide +kernel
  have hparams : parseFileIdQuery ((some (batchQuery [batchSpelling, batchSpelling])).getD []) =
      [batchSpelling, batchSpelling] := parseFileIdQuery_batchQuery hvalid
  refine (batchMatches_iff _ _ _ hparams hvalid).2 ?_
  intro s hs s' hs' _ _ _ _
  have hfirst : s = batchSpelling := by simpa using hs
  have hsecond : s' = batchSpelling := by simpa using hs'
  rw [hfirst, hsecond]

/-- The same file in two spellings: the answer has the second one only. -/
theorem not_batchMatches :
    ¬∀ (a : Responder) (mapOrder : MapOrder) (db : Database) (params : List Bytes),
      (∀ s ∈ params, (decodeFileIdHex s).isSome) →
        BatchMatches a mapOrder db params (some (batchQuery params)) := by
  intro hclaim
  have hvalid : ∀ s ∈ [batchSpelling, batchCapitals], (decodeFileIdHex s).isSome := by
    decide +kernel
  obtain ⟨out, hout, hmatch⟩ := hclaim batchResponder walkInOrder batchDb _ hvalid
  have hparams : parseFileIdQuery ((some (batchQuery [batchSpelling, batchCapitals])).getD []) =
      [batchSpelling, batchCapitals] := parseFileIdQuery_batchQuery hvalid
  obtain ⟨out', hout', hfind⟩ :=
    queryReconstructionsBatchV1_ok batchResponder walkInOrder batchDb hparams hvalid
  obtain rfl : out = out' := Except.ok.inj (hout.symm.trans hout')
  have hdecode : decodeFileIdHex batchSpelling = some (Hash.fill 241) := by decide +kernel
  obtain ⟨row, hrow⟩ : ∃ row, batchDb.getReconstruction (Hash.fill 241) = some row := by
    rw [← Option.isSome_iff_exists]
    decide +kernel
  have hsingle : queryReconstructionV1 batchResponder (.ok ()) batchDb batchSpelling none =
      .ok (batchResponder.response row) :=
    queryReconstructionV1_ok_iff.2 ⟨_, row, hdecode, hrow, rfl⟩
  obtain ⟨fileId, _, hspelling, -⟩ :=
    (hfind batchSpelling _).1 ((hmatch _ _).2 ⟨List.mem_cons_self, hsingle⟩)
  have hfile := List.find?_some hspelling
  rw [decide_eq_true_eq, hdecode, Option.some_inj] at hfile
  subst hfile
  exact absurd hspelling (by decide +kernel)

end Core
end OpenWeights
