import OpenWeights.Service.Segmentation

/-!
# Refusal — what a refused shard leaves behind

`upload_shard` writes the shard, its reconstruction rows and the usage row in one transaction.  What
comes before it reads, but for one statement: orphans the shard references go back to `pinning` before
the cross-check.  They stay there when the shard is refused later.
-/

namespace OpenWeights
namespace Service

open Lib Db Db.Database OpenWeights.Core

/-! ## Refused uploads -/

def TxCommitted (calls : List (Call Op Res)) : Prop :=
  ∃ h n files terms inserted, ⟨.sql (.commitShard h n files terms), .ok inserted⟩ ∈ calls

/-- A run of `upload_shard` alone that answers with an error before its transaction commits. -/
structure Refused (x : Crates) (body : Bytes) (db : Database) (calls : List (Call Op Res))
    (db' : Database) (e : AppError) : Prop where
  run : Runs exec (uploadShard x body) db calls db' (.error e)
  before : ¬TxCommitted calls

structure SameTables (db db' : Database) : Prop where
  xorbs : db'.xorbs = db.xorbs
  shards : db'.shards = db.shards
  reconstructionFiles : db'.reconstructionFiles = db.reconstructionFiles
  reconstructionTerms : db'.reconstructionTerms = db.reconstructionTerms
  usageLog : db'.usageLog = db.usageLog

/-- The tables are the same but for orphans among the hashes, which are back in `pinning` with no
attempt counted. -/
structure OnlyRevived (hashes : List Hash) (db db' : Database) : Prop where
  xorbs : ∀ h, db'.xorbs.find h = (db.xorbs.find h).map fun r =>
    if h ∈ hashes ∧ r.pinState = .orphaned then { r with toPinRow := r.toPinRow.revive } else r
  shards : db'.shards = db.shards
  reconstructionFiles : db'.reconstructionFiles = db.reconstructionFiles
  reconstructionTerms : db'.reconstructionTerms = db.reconstructionTerms
  usageLog : db'.usageLog = db.usageLog

theorem onlyRevived_reviveOrphanedXorbs (db : Database) (hashes : List Hash) :
    OnlyRevived hashes db (db.reviveOrphanedXorbs hashes).1 where
  xorbs h := by simp [reviveOrphanedXorbs]
  shards := rfl
  reconstructionFiles := rfl
  reconstructionTerms := rfl
  usageLog := rfl

/-- Reviving changes the table if and only if there is an orphan among the hashes. -/
theorem reviveOrphanedXorbs_keeps_iff (db : Database) (hashes : List Hash) :
    (db.reviveOrphanedXorbs hashes).1.xorbs = db.xorbs ↔
      ∀ h ∈ hashes, ∀ r, db.xorbs.find h = some r → r.pinState ≠ .orphaned := by
  have hrows := (onlyRevived_reviveOrphanedXorbs db hashes).xorbs
  constructor
  · intro hsame h hmem r hr horphaned
    have hrow := hrows h
    rw [hsame, hr, Option.map_some, if_pos ⟨hmem, horphaned⟩] at hrow
    have hstate := congrArg (fun r => r.toPinRow.pinState) (Option.some.inj hrow)
    rw [horphaned] at hstate
    cases hstate
  · intro hnone
    have hmap : db.xorbs.rows.map (fun x => (x.1,
        if decide (x.1 ∈ hashes) && decide (x.2.pinState = .orphaned)
        then { x.2 with toPinRow := x.2.toPinRow.revive } else x.2)) = db.xorbs.rows.map id := by
      refine List.map_congr_left fun x hx => ?_
      have hstate : ¬(x.1 ∈ hashes ∧ x.2.pinState = .orphaned) := fun hhit =>
        hnone x.1 hhit.1 x.2 (Table.find_eq_some_iff.2 hx) hhit.2
      simp [hstate]
    have hrows' : (db.reviveOrphanedXorbs hashes).1.xorbs.rows = db.xorbs.rows := by
      rw [List.map_id] at hmap
      exact hmap
    cases hxorbs : db.xorbs with
    | mk rows hnodup =>
        cases hxorbs' : (db.reviveOrphanedXorbs hashes).1.xorbs with
        | mk rows' hnodup' =>
            rw [hxorbs, hxorbs'] at hrows'
            cases hrows'
            rfl

/-! ## The steps before the commit -/

/-- The statements that read, and the rate limit, leave the database as it is. -/
theorem exec_reads {o : Op} {e : Env} {db db' : Database} {r : Res o}
    (ho : o = .rateLimit ∨ (∃ hashes, o = .sql (.whichXorbsArePinned hashes)) ∨
      ∃ hashes, o = .sql (.getChunkBoundaries hashes))
    (he : exec o e db = some (db', r)) : db' = db := by
  rcases ho with rfl | ⟨hashes, rfl⟩ | ⟨hashes, rfl⟩
  · cases e <;> cases he
    rfl
  · cases e <;> cases he <;> rfl
  · cases e <;> cases he <;> rfl

/-- A transaction that fails leaves the database as it is. -/
theorem exec_commitShard_error {e : Env} {db db' : Database} {h : Hash} {n : Nat}
    {files : List ParsedFile} {terms : List ParsedTerm} {err : DbError}
    (he : exec (.sql (.commitShard h n files terms)) e db = some (db', .error err)) : db' = db := by
  cases e with
  | sql now scan =>
      simp only [exec, Stmt.exec] at he
      split at he
      · cases he
      · cases he
      · cases he
        rfl
  | dbError =>
      cases he
      rfl
  | upload answer => cases he
  | pin answer => cases he
  | rateLimit answer => cases he

theorem exec_reviveOrphanedXorbs {e : Env} {db db' : Database} {hashes : List Hash}
    {r : Except DbError Nat}
    (he : exec (.sql (.reviveOrphanedXorbs hashes)) e db = some (db', r)) :
    db' = db ∨ db' = (db.reviveOrphanedXorbs hashes).1 := by
  cases e with
  | sql now scan =>
      cases he
      exact .inr rfl
  | dbError =>
      cases he
      exact .inl rfl
  | upload answer => cases he
  | pin answer => cases he
  | rateLimit answer => cases he

/-- A commit that ends in an error before the transaction took effect changed nothing. -/
theorem commitShard_refused {shardHash : Hash} {body : Bytes} {files : List ParsedFile}
    {terms : List ParsedTerm} {db db' : Database} {calls : List (Call Op Res)} {e : AppError}
    (hrun : Runs exec (commitShard shardHash body files terms) db calls db' (.error e))
    (hbefore : ¬TxCommitted calls) : db' = db := by
  obtain ⟨env, db₁, r, calls₁, he, rfl, hrest⟩ := hrun.perform_bind_inv
  cases r with
  | error err =>
      obtain ⟨-, rfl, -⟩ := hrest.done_inv
      exact exec_commitShard_error he
  | ok inserted => exact absurd ⟨_, _, _, _, inserted, List.mem_cons_self⟩ hbefore

/-- From the parsed shard on: nothing changes, or the orphans are revived and nothing else. -/
theorem storeShard_refused {shardHash : Hash} {body : Bytes} {parsed : ParsedShard}
    {db db' : Database} {calls : List (Call Op Res)} {e : AppError}
    (hrun : Runs exec (storeShard shardHash body parsed) db calls db' (.error e))
    (hbefore : ¬TxCommitted calls) :
    db' = db ∨ db' = (db.reviveOrphanedXorbs parsed.referencedXorbHashes).1 := by
  obtain ⟨env, db₁, revived, calls₁, he, rfl, hrest⟩ := hrun.perform_bind_inv
  suffices hafter : db' = db₁ by
    rw [hafter]
    exact exec_reviveOrphanedXorbs he
  replace hbefore : ¬TxCommitted calls₁ := fun ⟨h, n, files, terms, inserted, hmem⟩ =>
    hbefore ⟨h, n, files, terms, inserted, List.mem_cons_of_mem _ hmem⟩
  clear he
  cases revived with
  | error err => exact hrest.done_inv.2.1
  | ok count =>
      -- The cross-check.
      obtain ⟨env₂, db₂, present, calls₂, he, rfl, hcheck⟩ := hrest.perform_bind_inv
      obtain rfl := exec_reads (.inr (.inl ⟨_, rfl⟩)) he
      cases present with
      | error err => exact hcheck.done_inv.2.1
      | ok present =>
          dsimp only at hcheck
          split at hcheck
          · exact hcheck.done_inv.2.1
          · -- The boundaries.
            obtain ⟨env₃, db₃, boundaries, calls₃, he, rfl, hbounds⟩ := hcheck.perform_bind_inv
            obtain rfl := exec_reads (.inr (.inr ⟨_, rfl⟩)) he
            cases boundaries with
            | error err => exact hbounds.done_inv.2.1
            | ok boundaries =>
                -- The rate limit, and the transaction.
                obtain ⟨env₄, db₄, limit, calls₄, he, rfl, hlimit⟩ := hbounds.perform_bind_inv
                obtain rfl := exec_reads (.inl rfl) he
                cases limit with
                | error err => exact hlimit.done_inv.2.1
                | ok u =>
                    refine commitShard_refused hlimit ?_
                    rintro ⟨h, n, files, terms, inserted, hmem⟩
                    refine hbefore ⟨h, n, files, terms, inserted, ?_⟩
                    exact List.mem_cons_of_mem _ (List.mem_cons_of_mem _
                      (List.mem_cons_of_mem _ hmem))

/-! ## A refused upload -/

/-- A refused shard changes nothing, or puts the orphans it references back in `pinning`. -/
theorem Refused.cases {x : Crates} {body : Bytes} {db db' : Database} {calls : List (Call Op Res)}
    {e : AppError} (h : Refused x body db calls db' e) :
    db' = db ∨ ∃ parsed, parseShard x body = .ok parsed ∧
      db' = (db.reviveOrphanedXorbs parsed.referencedXorbHashes).1 := by
  have hrun := h.run
  unfold uploadShard at hrun
  split at hrun
  · exact .inl hrun.done_inv.2.1
  · split at hrun
    · exact .inl hrun.done_inv.2.1
    · rename_i parsed hparsed
      rcases storeShard_refused hrun h.before with hsame | hrevived
      · exact .inl hsame
      · exact .inr ⟨parsed, hparsed, hrevived⟩

/-- Where no xorb the shard references is an orphan, a refused upload changes nothing. -/
theorem Refused.sameTables {x : Crates} {body : Bytes} {db db' : Database}
    {calls : List (Call Op Res)} {e : AppError} (h : Refused x body db calls db' e)
    (hnone : ∀ {parsed}, parseShard x body = .ok parsed → ∀ h ∈ parsed.referencedXorbHashes,
      ∀ r, db.xorbs.find h = some r → r.pinState ≠ .orphaned) : SameTables db db' := by
  rcases h.cases with rfl | ⟨parsed, hparsed, rfl⟩
  · exact ⟨rfl, rfl, rfl, rfl, rfl⟩
  · exact ⟨(reviveOrphanedXorbs_keeps_iff db _).2 (hnone hparsed), rfl, rfl, rfl, rfl⟩

/-- A shard upload that is refused before its transaction commits leaves `shards`, the reconstruction
tables and the usage log as they were, and `xorbs` too, but for orphans it references. -/
theorem refused_onlyRevived (x : Crates) (body : Bytes) (db db' : Database)
    (calls : List (Call Op Res)) (e : AppError) (h : Refused x body db calls db' e) :
    SameTables db db' ∨ ∃ parsed, parseShard x body = .ok parsed ∧
      OnlyRevived parsed.referencedXorbHashes db db' := by
  rcases h.cases with rfl | ⟨parsed, hparsed, rfl⟩
  · exact .inl ⟨rfl, rfl, rfl, rfl, rfl⟩
  · exact .inr ⟨parsed, hparsed, onlyRevived_reviveOrphanedXorbs db _⟩

/-! ### An orphan and a rate limit -/

open State (twoChunks wholeShard shardSha256)

/-- The xorb of the sample shard after a sweep has given it up. -/
def orphanDb : Database :=
  { Database.empty with
    xorbs := Table.empty.insertNew sampleHash
      { siaObjectId := none
        sizeBytes := twoChunks.length
        pinState := .orphaned
        pinAttempts := maxPinAttempts
        lastPinAttemptAt := some 0
        chunkBoundaries := none }
    xorbBodies := Table.empty.insertNew sampleHash twoChunks }

/-- The call is not a transaction that committed. -/
def beforeCommit (c : Call Op Res) : Bool :=
  match c.op with
  | .sql (.commitShard _ _ _ _) => false
  | _ => true

theorem not_txCommitted {calls : List (Call Op Res)} (h : calls.all beforeCommit = true) :
    ¬TxCommitted calls := by
  rintro ⟨hash, n, files, terms, inserted, hmem⟩
  cases List.all_eq_true.1 h _ hmem

/-- The upload of the sample shard by a caller who has no token left. -/
def limitedUpload : Option (List (Call Op Res) × Database × Except AppError UploadShardResponse) :=
  (uploadShard (bareCrates shardSha256) wholeShard).eval exec
    [.sql 0 [], .sql 0 [], .sql 0 [], .rateLimit (.error (.rateLimited 1))] orphanDb

theorem exists_limitedUpload :
    ∃ calls db', Refused (bareCrates shardSha256) wholeShard orphanDb calls db' (.rateLimited 1) ∧
      (db'.xorbs.find sampleHash).map (fun r => r.pinState) = some .pinning := by
  have heval : limitedUpload.map (fun u => decide (u.1.all beforeCommit = true ∧
      u.2.2 = .error (.rateLimited 1) ∧
      (u.2.1.xorbs.find sampleHash).map (fun r => r.pinState) = some .pinning)) = some true := by
    decide +kernel
  obtain ⟨⟨calls, db', answer⟩, hrun, hfacts⟩ := Option.map_eq_some_iff.1 heval
  obtain ⟨hcalls, hanswer, hstate⟩ := of_decide_eq_true hfacts
  dsimp only at hcalls hanswer hstate
  subst hanswer
  rw [limitedUpload] at hrun
  exact ⟨calls, db', ⟨Runs.of_eval hrun, not_txCommitted hcalls⟩, hstate⟩

theorem refused_onlyRevived_limitedUpload :
    ∃ calls db', Refused (bareCrates shardSha256) wholeShard orphanDb calls db' (.rateLimited 1) ∧
      (SameTables orphanDb db' ∨ ∃ parsed,
        parseShard (bareCrates shardSha256) wholeShard = .ok parsed ∧
          OnlyRevived parsed.referencedXorbHashes orphanDb db') := by
  obtain ⟨calls, db', hrefused, -⟩ := exists_limitedUpload
  exact ⟨calls, db', hrefused, refused_onlyRevived _ wholeShard orphanDb db' calls _ hrefused⟩

/-- The orphan is back in `pinning`, though its shard was refused. -/
theorem not_sameTables :
    ¬∀ (x : Crates) (body : Bytes) (db db' : Database) (calls : List (Call Op Res)) (e : AppError),
      Refused x body db calls db' e → SameTables db db' := by
  intro hclaim
  obtain ⟨calls, db', hrefused, hstate⟩ := exists_limitedUpload
  rw [(hclaim _ _ _ _ _ _ hrefused).xorbs] at hstate
  revert hstate
  decide

end Service
end OpenWeights
