import OpenWeights.Core.Reconstruction
import OpenWeights.Service.Admission
import OpenWeights.Service.Durability
import OpenWeights.Service.Segmentation

/-!
# ByteRanges — where the byte range of a stored term comes from

The byte range of a `reconstruction_terms` row takes one of three ways into the database: from the
chunk boundaries recorded for the xorb, from the chunk table of the shard, or as the placeholder
`(0, 0)` of a xorb the shard does not list.  `upload_shard` reads the boundaries in one statement and
commits in another, but boundaries and size of a `xorbs` row never change, so every stored term is
`storedTerm` of a parsed one and of the row *as it is now* (`Derived`).

Whether such a range is a range of the xorb is another matter: nothing checks the placeholder, the
table or a footer against the size.
-/

namespace OpenWeights
namespace Service

open Lib Db OpenWeights.Core Storage Db.Database

/-! ## Size and boundaries of a row never change -/

/-- The row has the size and the boundaries of `r`. -/
def XorbRow.Same (r r' : XorbRow) : Prop :=
  r'.sizeBytes = r.sizeBytes ∧ r'.chunkBoundaries = r.chunkBoundaries

/-- All rows of `xorbs` are kept with their size and boundaries. -/
def RowsKept (db db' : Database) : Prop :=
  ∀ h r, db.xorbs.find h = some r → ∃ r', db'.xorbs.find h = some r' ∧ XorbRow.Same r r'

theorem RowsKept.refl (db : Database) : RowsKept db db :=
  fun _ r hr => ⟨r, hr, rfl, rfl⟩

theorem RowsKept.trans {db₁ db₂ db₃ : Database} (h₁ : RowsKept db₁ db₂) (h₂ : RowsKept db₂ db₃) :
    RowsKept db₁ db₃ := by
  intro h r hr
  obtain ⟨r₂, hr₂, hsame₂⟩ := h₁ h r hr
  obtain ⟨r₃, hr₃, hsame₃⟩ := h₂ h r₂ hr₂
  exact ⟨r₃, hr₃, hsame₃.1.trans hsame₂.1, hsame₃.2.trans hsame₂.2⟩

theorem RowsKept.of_eq {db db' : Database} (h : db'.xorbs = db.xorbs) : RowsKept db db' := by
  intro hash r hr
  exact ⟨r, h ▸ hr, rfl, rfl⟩

/-- An update of the pin columns that keeps the size. -/
theorem RowsKept.updatePin (db : Database) (k : Kind) (h : Hash) {f : PinRow → PinRow}
    (hf : ∀ r, (f r).sizeBytes = r.sizeBytes) : RowsKept db (db.updatePin k h f) := by
  cases k with
  | shard => exact .of_eq rfl
  | xorb =>
      intro hash r hr
      by_cases hh : hash = h
      · subst hh
        refine ⟨{ r with toPinRow := f r.toPinRow }, ?_, hf r.toPinRow, rfl⟩
        simp [Database.updatePin, hr]
      · refine ⟨r, ?_, rfl, rfl⟩
        simp [Database.updatePin, Table.find_update_of_ne _ _ hh, hr]

theorem RowsKept.reviveOrphanedXorbs (db : Database) (hashes : List Hash) :
    RowsKept db (db.reviveOrphanedXorbs hashes).1 := by
  intro h r hr
  simp only [Database.reviveOrphanedXorbs, Table.find_updateWhere, hr, Option.map_some,
    Option.some.injEq, exists_eq_left']
  split <;> exact ⟨rfl, rfl⟩

/-- No statement changes the size or the boundaries of a row. -/
theorem rowsKept_exec {s : Stmt} {now : Nat} {scan : List (Hash × PinRow)} {db db' : Database}
    {r : Except DbError s.Reply} (he : s.exec now scan db = some (db', r)) : RowsKept db db' := by
  cases s with
  | insertPending h size bounds =>
      obtain ⟨rfl, -⟩ := Prod.mk.inj (Option.some.inj he)
      exact fun hash r hr => ⟨r, Table.find_insertNew_mono hr, rfl, rfl⟩
  | insertXorbBody h content =>
      simp only [Stmt.exec] at he
      split at he
      -- The body goes into its own table.
      · rename_i db₁ hdb
        obtain ⟨rfl, -⟩ := Prod.mk.inj (Option.some.inj he)
        unfold Database.insertXorbBody at hdb
        split at hdb
        · cases hdb
        · cases hdb
          exact .of_eq rfl
      · obtain ⟨rfl, -⟩ := Prod.mk.inj (Option.some.inj he)
        exact .refl db
  | setPinState k h state id =>
      obtain ⟨rfl, -⟩ := Prod.mk.inj (Option.some.inj he)
      exact .updatePin db k h fun _ => rfl
  | setPinned k h id =>
      obtain ⟨rfl, -⟩ := Prod.mk.inj (Option.some.inj he)
      refine .updatePin db k h fun row => ?_
      unfold PinRow.setPinned
      split <;> rfl
  | touchAttempt k h =>
      obtain ⟨rfl, -⟩ := Prod.mk.inj (Option.some.inj he)
      exact .updatePin db k h fun _ => rfl
  | bumpAttempt k h =>
      obtain ⟨rfl, -⟩ := Prod.mk.inj (Option.some.inj he)
      exact .updatePin db k h fun _ => rfl
  | orphan k h =>
      obtain ⟨rfl, -⟩ := Prod.mk.inj (Option.some.inj he)
      exact .updatePin db k h fun _ => rfl
  | reviveOrphanedXorbs hashes =>
      obtain ⟨rfl, -⟩ := Prod.mk.inj (Option.some.inj he)
      exact .reviveOrphanedXorbs db hashes
  -- A shard writes the reconstruction tables, whether it is new or known.
  | commitShard h size files terms =>
      simp only [Stmt.exec] at he
      split at he
      · rename_i db₁ hok
        obtain ⟨rfl, -⟩ := Prod.mk.inj (Option.some.inj he)
        obtain ⟨-, -, rfl⟩ := insertShardWithReconstruction_ok hok
        exact .of_eq rfl
      · rename_i db₁ hok
        obtain ⟨rfl, -⟩ := Prod.mk.inj (Option.some.inj he)
        rw [insertShardWithReconstruction_dedup hok]
        exact .refl db
      · obtain ⟨rfl, -⟩ := Prod.mk.inj (Option.some.inj he)
        exact .refl db
  | fetchStuck k =>
      simp only [Stmt.exec] at he
      split at he
      · obtain ⟨rfl, -⟩ := Prod.mk.inj (Option.some.inj he)
        exact .refl db
      · cases he
  | _ =>
      obtain ⟨rfl, -⟩ := Prod.mk.inj (Option.some.inj he)
      exact .of_eq rfl

theorem rowsKept_exec_op {o : Op} {e : Env} {db db' : Database} {r : Res o}
    (he : exec o e db = some (db', r)) : RowsKept db db' := by
  rcases exec_cases he with ⟨rfl, -⟩ | ⟨now, scan, s, rs, -, -, hs⟩
  · exact .refl db'
  · exact rowsKept_exec hs

/-! ## What a shard upload knows about the boundaries -/

def recorded (r : XorbRow) : Option (List Int) :=
  r.chunkBoundaries.filter fun bounds => !bounds.isEmpty

/-- The list has what the row of `h` has. -/
def Knows (db : Database) (boundaries : List (Hash × List Int)) (h : Hash) : Prop :=
  ∃ r, db.xorbs.find h = some r ∧ boundaries.lookup h = recorded r

theorem Knows.mono {db db' : Database} (hkept : RowsKept db db')
    {boundaries : List (Hash × List Int)} {h : Hash} (hknows : Knows db boundaries h) :
    Knows db' boundaries h := by
  obtain ⟨r, hr, hEq⟩ := hknows
  obtain ⟨r', hr', -, hbounds⟩ := hkept h r hr
  exact ⟨r', hr', by rw [hEq, recorded, recorded, hbounds]⟩

theorem lookup_getChunkBoundaries {db : Database} {hashes : List Hash} {h : Hash} {r : XorbRow}
    (hr : db.xorbs.find h = some r) (hmem : h ∈ hashes) :
    (db.getChunkBoundaries hashes).lookup h = recorded r := by
  have hselect : db.getChunkBoundaries hashes = db.xorbs.rows.filterMap fun row =>
      ((fun h r => if h ∈ hashes then recorded r else none) row.1 row.2).map
        fun bounds => (row.1, bounds) := by
    unfold Database.getChunkBoundaries
    congr 1
    funext row
    by_cases hrow : row.1 ∈ hashes
    · cases hb : row.2.chunkBoundaries with
      | none => simp [hrow, recorded, hb]
      | some bounds => cases bounds <;> simp [hrow, recorded, hb]
    · simp [hrow]
  have hlookup := Table.lookup_filterMap_rows db.xorbs
    (fun h r => if h ∈ hashes then recorded r else none) h
  rw [hr, Option.bind_some, if_pos hmem, ← hselect] at hlookup
  -- The two lookups compare hashes through different, equal instances.
  rw [← hlookup, lawful_beq_subsingleton (Subtype.instBEq : BEq Hash) instBEqOfDecidableEq]

theorem find_of_mem_whichXorbsArePinned {db : Database} {hashes : List Hash} {h : Hash}
    (hmem : h ∈ db.whichXorbsArePinned hashes) : ∃ r, db.xorbs.find h = some r := by
  obtain ⟨⟨h', r⟩, hrow, rfl⟩ := List.mem_map.1 hmem
  exact ⟨r, Table.find_eq_some_iff.2 (List.mem_filter.1 hrow).1⟩

/-- What a task must know when it commits a shard: the terms are those of its body, corrected with
what the rows of their xorbs have. -/
def CommitPre (x : Crates) (req : Request) (db : Database) : Op → Prop
  | .sql (.commitShard _ _ _ terms) =>
      ∃ body parsed boundaries, req = .uploadShard body ∧ parseShard x body = .ok parsed ∧
        terms = parsed.terms.map (correctTerm boundaries) ∧
        ∀ p ∈ parsed.terms, Knows db boundaries p.term.xorbHash
  | _ => True

/-- The discipline: rows of `xorbs` are kept, so what was read of them stays true. -/
def boundaryDiscipline (x : Crates) : Discipline Request exec where
  inv _ := True
  rely _ w w' := RowsKept w.store w'.store
  pre _ req w o := CommitPre x req w.store o
  allow _ _ _ _ _ := True
  rely_refl _ w := .refl w.store
  rely_trans _ _ _ _ := .trans
  guarantee := by
    intro i req w o e db r _ _ _ he
    exact ⟨trivial, fun _ _ => rowsKept_exec_op he⟩

/-- A `SELECT` of the upload path: what it returns, when it returns. -/
def readReply (db : Database) : (s : Stmt) → Option s.Reply
  | .whichXorbsArePinned hashes => some (db.whichXorbsArePinned hashes)
  | .getChunkBoundaries hashes => some (db.getChunkBoundaries hashes)
  | _ => none

theorem read_exec {s : Stmt} {e : Env} {db db' : Database} {reply expected : s.Reply}
    (he : exec (.sql s) e db = some (db', .ok reply)) (hread : readReply db s = some expected) :
    db' = db ∧ reply = expected := by
  rcases exec_cases he with ⟨-, hnot⟩ | ⟨now, scan, s', rs, -, hcall, hs⟩
  · have herr := hnot _ rfl
    subst herr
    cases he
  · cases hcall
    cases s with
    | whichXorbsArePinned hashes =>
        cases hread
        cases hs
        exact ⟨rfl, rfl⟩
    | getChunkBoundaries hashes =>
        cases hread
        cases hs
        exact ⟨rfl, rfl⟩
    | _ => cases hread

section Programs

variable {x : Crates} {i : Nat} {req : Request} {w : Shared}

/-- A program that commits nothing has no obligations. -/
theorem satNow_of_not_commit {α : Type} {p : Code α}
    (hp : p.Uses fun o => ∀ h n files terms, o ≠ .sql (.commitShard h n files terms)) :
    p.SatNow (boundaryDiscipline x) i req (fun _ _ => True) w := by
  refine Prog.SatNow.of_uses (D := boundaryDiscipline x) hp ?_ (fun _ _ _ => trivial) trivial
  intro w o _ ho
  cases o with
  | sql s =>
      cases s with
      | commitShard h n files terms => exact absurd rfl (ho h n files terms)
      | _ => trivial
  | _ => trivial

theorem satNow_commitShard {shardHash : Hash} {body : Bytes} {files : List ParsedFile}
    {terms : List ParsedTerm}
    (hpre : CommitPre x req w.store (.sql (.commitShard shardHash body.length files terms))) :
    (commitShard shardHash body files terms).SatNow (boundaryDiscipline x) i req
      (fun _ _ => True) w := by
  refine ⟨hpre, ?_⟩
  rintro e db (_ | (_ | _)) - - w' - -
  · trivial
  · exact satNow_of_not_commit (Prog.Uses.perform_bind nofun fun _ => trivial)
  · refine satNow_of_not_commit (Prog.Uses.perform_bind nofun ?_)
    have hleave := uses_leavePinning (k := .shard) (h := shardHash)
      (P := fun o => ∀ h n files terms, o ≠ .sql (.commitShard h n files terms)) nofun
    rintro (_ | (_ | _) | id)
    · exact hleave.bind fun _ => trivial
    · exact hleave.bind fun _ => trivial
    · exact hleave.bind fun _ => trivial
    · refine Prog.Uses.perform_bind nofun ?_
      rintro (_ | _) <;> trivial

theorem satNow_storeShard {shardHash : Hash} {body : Bytes} {parsed : ParsedShard}
    (hparse : parseShard x body = .ok parsed) :
    (storeShard shardHash body parsed).SatNow (boundaryDiscipline x) i (.uploadShard body)
      (fun _ _ => True) w := by
  refine ⟨trivial, ?_⟩
  rintro _ _ (_ | _) - - w₁ - -
  · trivial
  refine ⟨trivial, ?_⟩
  rintro _ db₁ (_ | present) - he₁ w₂ hkept₁ -
  · trivial
  simp only [Prog.bind]
  split
  · trivial
  rename_i hmissing
  -- No hash is missing, so every referenced xorb has a row, and keeps it.
  have hrows : ∀ h ∈ parsed.referencedXorbHashes, ∃ r, w₂.store.xorbs.find h = some r := by
    intro h hh
    have hpresent : h ∈ present := by
      by_contra hnot
      have hmem : h ∈ parsed.referencedXorbHashes.filter fun h => h ∉ present :=
        List.mem_filter.2 ⟨hh, by simpa using hnot⟩
      rw [hmissing] at hmem
      cases hmem
    obtain ⟨rfl, hread⟩ := read_exec he₁ rfl
    cases hread
    obtain ⟨r, hr⟩ := find_of_mem_whichXorbsArePinned hpresent
    obtain ⟨r', hr', -⟩ := hkept₁ h r hr
    exact ⟨r', hr'⟩
  refine ⟨trivial, ?_⟩
  rintro _ db₂ (_ | boundaries) - he₂ w₃ hkept₂ -
  · trivial
  have hknows : ∀ p ∈ parsed.terms, Knows w₃.store boundaries p.term.xorbHash := by
    intro p hp
    obtain ⟨-, href⟩ := parseShard_shape hparse p hp
    obtain ⟨r, hr⟩ := hrows _ href
    obtain ⟨rfl, hread⟩ := read_exec he₂ rfl
    cases hread
    exact Knows.mono hkept₂ ⟨r, hr, lookup_getChunkBoundaries hr href⟩
  refine ⟨trivial, ?_⟩
  rintro _ _ (_ | _) - he₃ w₄ hkept₃ -
  · trivial
  have hkept := (rowsKept_exec_op he₃).trans hkept₃
  exact satNow_commitShard ⟨body, parsed, boundaries, rfl, hparse, rfl,
    fun p hp => (hknows p hp).mono hkept⟩

theorem satNow_code_boundaries :
    (code x req).SatNow (boundaryDiscipline x) i req (fun _ _ => True) w := by
  cases req with
  | uploadXorb pathPrefix hashSuffix body =>
      refine satNow_of_not_commit ((uses_code x _).mono ?_)
      rintro o ⟨h, boundaries, -, ho⟩ h' n files terms rfl
      exact ho
  | uploadShard body =>
      have hshard : (uploadShard x body).SatNow (boundaryDiscipline x) i (.uploadShard body)
          (fun _ _ => True) w := by
        unfold uploadShard
        split
        · trivial
        · split
          · trivial
          · rename_i parsed hparse
            exact satNow_storeShard hparse
      exact hshard.bind trivial fun _ _ _ _ => trivial
  | sweep =>
      refine satNow_of_not_commit ((uses_code x _).mono ?_)
      rintro o ho h n files terms rfl
      exact ho

end Programs

namespace State

variable {x : Crates} {c : State} {allow : State → Step → Prop}

/-- Whatever a task is about to commit is corrected with what the rows have at that moment. -/
theorem Reachable.commitPre (h : Reachable x allow c) {i : Nat} {req : Request} {o : Op}
    {k : Res o → Code Outcome} (ht : c.tasks i = some ⟨req, some (.call o k)⟩) :
    CommitPre x req c.store o := by
  have hsecure : Secure (boundaryDiscipline x) (fun _ _ _ _ => True) c := by
    apply h.invariant (I := Secure (boundaryDiscipline x) fun _ _ _ _ => True)
    · refine ⟨trivial, ?_⟩
      intro i req p ht
      cases ht
    · intro c₁ a c₂ hsec _ hs
      apply hsec.step hs
      · intro i req w _
        exact satNow_code_boundaries
      · intros
        trivial
  exact (hsecure.2 i req _ ht c.toWorld (.refl c.store) trivial).1

/-! ### Rows -/

def RowAdmitted (x : Crates) (h : Hash) (r : XorbRow) : Prop :=
  ∃ body boundaries, body.length ≤ maxXorbBytes ∧ Admitted x h body boundaries ∧
    r.sizeBytes = body.length ∧
      r.chunkBoundaries = if boundaries.isEmpty then none else some boundaries

/-- Boundaries that are recorded are those of the admitted body, and are not empty. -/
theorem RowAdmitted.boundaries {h : Hash} {r : XorbRow} (hr : RowAdmitted x h r)
    {bounds : List Int} (hbounds : r.chunkBoundaries = some bounds) :
    bounds ≠ [] ∧ ∃ body, Admitted x h body bounds := by
  obtain ⟨body, boundaries, -, hadm, -, hstored⟩ := hr
  rw [hbounds] at hstored
  cases boundaries with
  | nil => cases hstored
  | cons b bs =>
      cases hstored
      exact ⟨List.cons_ne_nil b bs, body, hadm⟩

theorem RowAdmitted.same {h : Hash} {r r' : XorbRow} (hr : RowAdmitted x h r)
    (hsame : XorbRow.Same r r') : RowAdmitted x h r' := by
  obtain ⟨body, boundaries, hlen, hadm, hsize, hbounds⟩ := hr
  exact ⟨body, boundaries, hlen, hadm, hsame.1.trans hsize, hsame.2 ▸ hbounds⟩

theorem rowsKept_next {a : Step} {c' : State} (hs : c.next x a = some c') :
    RowsKept c.store c'.store := by
  rcases next_store hs with hEq | ⟨i, now, scan, s, r, -, -, he⟩
  · rw [hEq]
    exact .refl c.store
  · exact rowsKept_exec he

/-- A row that was not there before is what `insert_pending` writes for an admitted body. -/
theorem rowAdmitted_of_new {a : Step} {c' : State} (h : Reachable x allow c)
    (hs : c.next x a = some c') {hash : Hash} (hnone : c.store.xorbs.find hash = none)
    {r : XorbRow} (hr : c'.store.xorbs.find hash = some r) : RowAdmitted x hash r := by
  rcases next_cases hs with hEq | ⟨i, e, req, o, k, res, rfl, ht, he, -⟩
  · rw [congrArg World.store hEq, hnone] at hr
    cases hr
  · rcases exec_cases he with ⟨hEq, -⟩ | ⟨now, scan, s, rs, rfl, hcall, hexec⟩
    · rw [hEq, hnone] at hr
      cases hr
    · cases hcall
      have hold : ¬HasRow c.store hash := by simp [HasRow, Database.pin, hnone]
      have hnew : HasRow c'.store hash := by simp [HasRow, Database.pin, hr]
      obtain ⟨n, bounds, hwin⟩ := eq_insertPending_of_new hexec hold hnew
      cases hwin
      have hserves := (h.serves ht).1
      obtain ⟨hstore, -⟩ := Prod.mk.inj (Option.some.inj hexec)
      rw [← hstore] at hr
      have hrow : r = { PinRow.fresh n with
          chunkBoundaries := if bounds.isEmpty then none else some bounds } := by
        simp only [Database.insertPending, Table.find_insertNew_self, hnone, Option.getD_none,
          Option.some.injEq] at hr
        exact hr.symm
      cases req with
      | uploadXorb pathPrefix hashSuffix body =>
          obtain ⟨h', boundaries, hok, rfl, rfl, rfl⟩ := hserves
          obtain ⟨-, hlen, hverify⟩ := admitXorb_eq_ok_iff.1 hok
          refine ⟨body, bounds, hlen, verifyXorb_eq_ok_iff.1 hverify, ?_, ?_⟩
          · rw [hrow]
            rfl
          · rw [hrow]
      | uploadShard body => exact hserves.elim
      | sweep => exact hserves.elim

/-- Every row of `xorbs` describes a body that was admitted under its hash. -/
theorem Reachable.rowAdmitted (h : Reachable x allow c) {hash : Hash} {r : XorbRow}
    (hr : c.store.xorbs.find hash = some r) : RowAdmitted x hash r := by
  have hall : Reachable x allow c ∧
      ∀ hash r, c.store.xorbs.find hash = some r → RowAdmitted x hash r := by
    apply h.invariant (I := fun c : State => Reachable x allow c ∧
      ∀ hash r, c.store.xorbs.find hash = some r → RowAdmitted x hash r)
    · refine ⟨.refl _, ?_⟩
      intro hash r hr
      cases hr
    · intro c₁ a c₂ hinv ha hs
      refine ⟨hinv.1.tail ha hs, ?_⟩
      intro hash r hr
      cases hold : c₁.store.xorbs.find hash with
      | none => exact rowAdmitted_of_new hinv.1 hs hold hr
      | some r₀ =>
          obtain ⟨r', hr', hsame⟩ := rowsKept_next hs hash r₀ hold
          rw [hr] at hr'
          cases hr'
          exact (hinv.2 hash r₀ hold).same hsame
  exact hall.2 hash r hr

/-! ### Terms -/

def rowBoundaries (db : Database) (h : Hash) : Option (List Int) :=
  (db.xorbs.find h).bind XorbRow.chunkBoundaries

/-- The rows a parsed shard brings for `reconstruction_terms`. -/
def rowsOf (db : Database) (parsed : ParsedShard) : List ((Hash × Int) × Term) :=
  parsed.terms.map fun p =>
    ((p.fileId, p.termIndex), storedTerm (rowBoundaries db p.term.xorbHash) p.term)

/-- The step commits the shard `body` for the first time. -/
def Commits (x : Crates) (c : State) (a : Step) (body : Bytes) (parsed : ParsedShard) : Prop :=
  ∃ i now scan h n files terms k db, a = .call i (.sql now scan) ∧
    c.tasks i = some ⟨.uploadShard body, some (.call (.sql (.commitShard h n files terms)) k)⟩ ∧
    parseShard x body = .ok parsed ∧
    c.store.insertShardWithReconstruction h n files terms = .ok (db, true)

theorem storedTerm_recorded (r : XorbRow) (t : Term) :
    storedTerm (recorded r) t = storedTerm r.chunkBoundaries t := by
  have hrange : (recorded r).bind (physicalRange t) = r.chunkBoundaries.bind (physicalRange t) := by
    unfold recorded
    cases hb : r.chunkBoundaries with
    | none => rfl
    | some bounds =>
        cases bounds with
        | nil => exact (physicalRange_nil t).symm
        | cons b bs => rfl
  rw [storedTerm, hrange, storedTerm]

/-- What a commit writes is determined by the shard and the rows of its xorbs. -/
theorem termRows_eq_rowsOf {db : Database} {boundaries : List (Hash × List Int)}
    {parsed : ParsedShard}
    (hknows : ∀ p ∈ parsed.terms, Knows db boundaries p.term.xorbHash) :
    termRows (parsed.terms.map (correctTerm boundaries)) = rowsOf db parsed := by
  rw [termRows, rowsOf, List.map_map]
  refine List.map_congr_left ?_
  intro p hp
  obtain ⟨r, hr, hlookup⟩ := hknows p hp
  simp only [Function.comp_apply, correctTerm_fileId, correctTerm_termIndex, term_correctTerm,
    hlookup, storedTerm_recorded, rowBoundaries, hr, Option.bind_some]

variable {a : Step} {c' : State} {body : Bytes} {parsed : ParsedShard}

/-- The effect of a commit on `reconstruction_terms`, and what is known of the shard. -/
theorem Commits.next (hcommit : Commits x c a body parsed) (h : Reachable x allow c)
    (hs : c.next x a = some c') :
    c'.store.reconstructionTerms =
        c.store.reconstructionTerms.insertAll (rowsOf c.store parsed) ∧
      ((rowsOf c.store parsed).map Prod.fst).Nodup ∧
      ∀ p ∈ parsed.terms, ∃ r, c.store.xorbs.find p.term.xorbHash = some r := by
  obtain ⟨i, now, scan, hash, n, files, terms, k, db, rfl, ht, hparse, hok⟩ := hcommit
  obtain ⟨body', parsed', boundaries, hreq, hparse', rfl, hknows⟩ := h.commitPre ht
  -- The request and its parse are the ones of the step.
  cases hreq
  rw [hparse] at hparse'
  cases hparse'
  obtain ⟨-, hnodup, rfl⟩ := insertShardWithReconstruction_ok hok
  have hrows := termRows_eq_rowsOf hknows
  refine ⟨?_, ?_, ?_⟩
  · obtain ⟨r, hexec⟩ := next_sql hs (pending_of_task ht)
    simp only [Stmt.exec, hok] at hexec
    obtain ⟨hstore, -⟩ := Prod.mk.inj (Option.some.inj hexec)
    rw [← hstore, ← hrows]
    rfl
  · have hparses : ParsesTo x body files (parsed.terms.map (correctTerm boundaries)) :=
      ((h.serves ht).1).2.2
    have hkeys := (hparses.wellCut hnodup).nodupKeys
    rw [← hrows, termRows, List.map_map]
    exact hkeys
  · intro p hp
    obtain ⟨r, hr, -⟩ := hknows p hp
    exact ⟨r, hr⟩

/-- Only a first commit of a shard changes `reconstruction_terms`. -/
theorem terms_next (h : Reachable x allow c) (hs : c.next x a = some c') :
    c'.store.reconstructionTerms = c.store.reconstructionTerms ∨
      ∃ body parsed, Commits x c a body parsed := by
  rcases next_cases hs with hEq | ⟨i, e, req, o, k, res, rfl, ht, he, -⟩
  · exact .inl (by rw [congrArg World.store hEq])
  · rcases exec_cases he with ⟨hEq, -⟩ | ⟨now, scan, s, rs, rfl, hcall, hexec⟩
    · exact .inl (by rw [hEq])
    · cases hcall
      rcases reconstruction_exec hexec with ⟨-, hterms⟩ |
        ⟨hash, n, files, terms, db, hcall, hok, -, -⟩
      · exact .inl hterms
      · cases hcall
        obtain ⟨body, parsed, boundaries, rfl, hparse, rfl, -⟩ := h.commitPre ht
        exact .inr ⟨body, parsed, i, now, scan, hash, n, files, _, k, db, rfl, ht, hparse, hok⟩

/-- A row of a shard is made of one of its segments, and of the row of the segment's xorb. -/
theorem mem_rowsOf (hcommit : Commits x c a body parsed) (h : Reachable x allow c)
    (hs : c.next x a = some c') {key : Hash × Int} {t : Term}
    (hmem : (key, t) ∈ rowsOf c.store parsed) :
    ∃ p ∈ parsed.terms, ∃ r, key = (p.fileId, p.termIndex) ∧
      c.store.xorbs.find p.term.xorbHash = some r ∧ t = storedTerm r.chunkBoundaries p.term ∧
      SegmentShape (shardXorbInfos x.toShardCodec body) p.term := by
  obtain ⟨-, -, hrows⟩ := hcommit.next h hs
  obtain ⟨_, _, _, _, _, _, _, _, _, -, -, hparse, -⟩ := hcommit
  obtain ⟨p, hp, hEq⟩ := List.mem_map.1 hmem
  obtain ⟨r, hr⟩ := hrows p hp
  cases hEq
  refine ⟨p, hp, r, rfl, hr, ?_, (parseShard_shape hparse p hp).1⟩
  rw [rowBoundaries, hr, Option.bind_some]

/-- The stored row is a segment of some shard, with the range the row of its xorb gives it. -/
def Derived (x : Crates) (db : Database) (t : Term) : Prop :=
  ∃ body r p, db.xorbs.find t.xorbHash = some r ∧ t = storedTerm r.chunkBoundaries p ∧
    SegmentShape (shardXorbInfos x.toShardCodec body) p

theorem Derived.mono {db db' : Database} (hkept : RowsKept db db') {t : Term}
    (ht : Derived x db t) : Derived x db' t := by
  obtain ⟨body, r, p, hr, hEq, hshape⟩ := ht
  obtain ⟨r', hr', -, hbounds⟩ := hkept _ r hr
  exact ⟨body, r', p, hr', hbounds ▸ hEq, hshape⟩

/-- In every reachable state, every stored term is derived from the row its xorb has *now*. -/
theorem Reachable.derived (h : Reachable x allow c) {key : Hash × Int} {t : Term}
    (ht : c.store.reconstructionTerms.find key = some t) : Derived x c.store t := by
  have hall : Reachable x allow c ∧
      ∀ key t, c.store.reconstructionTerms.find key = some t → Derived x c.store t := by
    apply h.invariant (I := fun c : State => Reachable x allow c ∧
      ∀ key t, c.store.reconstructionTerms.find key = some t → Derived x c.store t)
    · refine ⟨.refl _, ?_⟩
      intro key t ht
      cases ht
    · intro c₁ a c₂ hinv ha hs
      refine ⟨hinv.1.tail ha hs, ?_⟩
      intro key t ht
      have hkept := rowsKept_next hs
      rcases terms_next hinv.1 hs with hEq | ⟨body, parsed, hcommit⟩
      · exact (hinv.2 key t (hEq ▸ ht)).mono hkept
      · rw [(hcommit.next hinv.1 hs).1] at ht
        rcases Table.find_insertAll_cases ht with hold | ⟨-, hmem⟩
        · exact (hinv.2 key t hold).mono hkept
        · obtain ⟨p, -, r, -, hr, rfl, hshape⟩ := mem_rowsOf hcommit hinv.1 hs hmem
          refine Derived.mono hkept ⟨body, r, p.term, ?_, rfl, hshape⟩
          rw [xorbHash_storedTerm]
          exact hr
  exact hall.2 key t ht

/-! ### Real ranges -/

/-- The byte range of the term is a range of its xorb. -/
def RealRange (db : Database) (t : Term) : Prop :=
  ∃ r, db.xorbs.find t.xorbHash = some r ∧ 0 ≤ t.xorbByteStart ∧
    t.xorbByteStart < t.xorbByteEnd ∧ t.xorbByteEnd ≤ r.sizeBytes

def RealRanges (db : Database) : Prop :=
  ∀ key t, db.reconstructionTerms.find key = some t → RealRange db t

/-- The xorb has the bytes of a segment: boundaries that give the chunks of the segment a range end
it within the size; without such boundaries the chunk table of the shard lists the xorb, and ends
the last chunk within the size. -/
def Backed (xorbInfos : List MDBXorbInfo) (r : XorbRow) (t : Term) : Prop :=
  match r.chunkBoundaries.bind (physicalRange t) with
  | some range => range.2 ≤ r.sizeBytes
  | none => ∃ listed, listedEnd xorbInfos t.xorbHash t.xorbEnd.toNat = some listed ∧
      listed ≤ r.sizeBytes

/-- Backed segments, and only these, are stored with a range of the xorb. -/
theorem backed_iff {h : Hash} {r : XorbRow} {xorbInfos : List MDBXorbInfo} {t : Term}
    (hrow : RowAdmitted x h r) (hshape : SegmentShape xorbInfos t) :
    Backed xorbInfos r t ↔
      0 ≤ (storedTerm r.chunkBoundaries t).xorbByteStart ∧
        (storedTerm r.chunkBoundaries t).xorbByteStart <
          (storedTerm r.chunkBoundaries t).xorbByteEnd ∧
        (storedTerm r.chunkBoundaries t).xorbByteEnd ≤ r.sizeBytes := by
  unfold Backed storedTerm
  cases hrange : r.chunkBoundaries.bind (physicalRange t) with
  | some range =>
      -- A physical range is never empty; only its end can be wrong.
      obtain ⟨bounds, hb, hphys⟩ := Option.bind_eq_some_iff.1 hrange
      obtain ⟨-, body, hadm⟩ := hrow.boundaries hb
      obtain ⟨hlt, hnonneg⟩ := physicalRange_eq_some hphys
      have hstart := hnonneg hadm.nonneg
      exact ⟨fun hle => ⟨hstart, hlt, hle⟩, fun hreal => hreal.2.2⟩
  | none =>
      rcases hshape.bytes with ⟨hexternal, hs, he⟩ | ⟨hs, hlt, hlisted⟩
      · -- The placeholder is no range at all.
        simp [listedEnd, hexternal, hs, he]
      · simp only [hlisted, Option.some.injEq, exists_eq_left']
        exact ⟨fun hle => ⟨hs, hlt, hle⟩, fun hreal => hreal.2.2⟩

/-- The step stores a new term on a xorb that does not have its bytes. -/
def CommitsUnbacked (x : Crates) (c : State) (a : Step) : Prop :=
  ∃ body parsed, Commits x c a body parsed ∧ ∃ p ∈ parsed.terms,
    c.store.reconstructionTerms.find (p.fileId, p.termIndex) = none ∧
      ∃ r, c.store.xorbs.find p.term.xorbHash = some r ∧
        ¬Backed (shardXorbInfos x.toShardCodec body) r p.term

theorem RealRange.mono {db db' : Database} (hkept : RowsKept db db') {t : Term}
    (ht : RealRange db t) : RealRange db' t := by
  obtain ⟨r, hr, hs, hlt, hle⟩ := ht
  obtain ⟨r', hr', hsize, -⟩ := hkept _ r hr
  exact ⟨r', hr', hs, hlt, hsize ▸ hle⟩

/-- Sizes do not change, so a range that is real later was real before. -/
theorem RealRange.anti {db db' : Database} (hkept : RowsKept db db') {t : Term} {r : XorbRow}
    (hr : db.xorbs.find t.xorbHash = some r) (ht : RealRange db' t) : RealRange db t := by
  obtain ⟨r', hr', hs, hlt, hle⟩ := ht
  obtain ⟨r'', hr'', hsize, -⟩ := hkept _ r hr
  rw [hr'] at hr''
  cases hr''
  exact ⟨r, hr, hs, hlt, hsize ▸ hle⟩

/-- Stored terms stay. -/
theorem find_terms_next (h : Reachable x allow c) (hs : c.next x a = some c') {key : Hash × Int}
    {t : Term} (ht : c.store.reconstructionTerms.find key = some t) :
    c'.store.reconstructionTerms.find key = some t := by
  rcases terms_next h hs with hterms | ⟨body, parsed, hcommit⟩
  · rw [hterms]
    exact ht
  · rw [(hcommit.next h hs).1]
    exact Table.find_insertAll_mono ht

/-- A segment is stored with a real range exactly when it is backed. -/
theorem realRange_storedTerm_iff (h : Reachable x allow c) {xorbInfos : List MDBXorbInfo}
    {t : Term} {r : XorbRow} (hr : c.store.xorbs.find t.xorbHash = some r)
    (hshape : SegmentShape xorbInfos t) :
    RealRange c.store (storedTerm r.chunkBoundaries t) ↔ Backed xorbInfos r t := by
  rw [backed_iff (h.rowAdmitted hr) hshape, RealRange, xorbHash_storedTerm]
  simp only [hr, Option.some.injEq, exists_eq_left']

/-- After the commit of an unbacked term, its range is stored and is not real. -/
theorem not_commitsUnbacked (h : Reachable x allow c) (hs : c.next x a = some c')
    (hreal : RealRanges c'.store) : ¬CommitsUnbacked x c a := by
  rintro ⟨body, parsed, hcommit, p, hp, hfree, r, hr, hnot⟩
  obtain ⟨hinsert, hnodup, -⟩ := hcommit.next h hs
  have hmem : ((p.fileId, p.termIndex),
      storedTerm (rowBoundaries c.store p.term.xorbHash) p.term) ∈ rowsOf c.store parsed :=
    List.mem_map_of_mem hp
  have hfound := Table.find_insertAll_of_mem hnodup hmem hfree
  rw [← hinsert, rowBoundaries, hr, Option.bind_some] at hfound
  have hshape : SegmentShape (shardXorbInfos x.toShardCodec body) p.term := by
    obtain ⟨_, _, _, _, _, _, _, _, _, -, -, hparse, -⟩ := hcommit
    exact (parseShard_shape hparse p hp).1
  have hbefore := (hreal _ _ hfound).anti (rowsKept_next hs) (r := r) (by simpa using hr)
  exact hnot ((realRange_storedTerm_iff h hr hshape).1 hbefore)

/-- One step: all ranges are real after it exactly when they were before and it stores no unbacked
term. -/
theorem realRanges_next_iff (h : Reachable x allow c) (hs : c.next x a = some c') :
    RealRanges c'.store ↔ RealRanges c.store ∧ ¬CommitsUnbacked x c a := by
  have hkept := rowsKept_next hs
  constructor
  · intro hreal
    refine ⟨?_, not_commitsUnbacked h hs hreal⟩
    intro key t ht
    obtain ⟨-, r, -, hr, -⟩ := h.derived ht
    exact (hreal key t (find_terms_next h hs ht)).anti hkept hr
  · rintro ⟨hreal, hbacked⟩ key t ht
    rcases terms_next h hs with hterms | ⟨body, parsed, hcommit⟩
    · -- No commit: the same rows, judged by the same sizes.
      exact (hreal key t (hterms ▸ ht)).mono hkept
    · rw [(hcommit.next h hs).1] at ht
      rcases Table.find_insertAll_cases ht with hold | ⟨hfree, hmem⟩
      · exact (hreal key t hold).mono hkept
      · -- A new row: its segment is backed, or the step would be an exception.
        obtain ⟨p, hp, r, rfl, hr, rfl, hshape⟩ := mem_rowsOf hcommit h hs hmem
        refine RealRange.mono hkept ((realRange_storedTerm_iff h hr hshape).2 ?_)
        by_contra hnot
        exact hbacked ⟨body, parsed, hcommit, p, hp, hfree, r, hr, hnot⟩

/-- Over a whole run: all ranges are real at its end exactly when no step stored an unbacked
term. -/
theorem realRanges_iff {tr : List Transition} (hrun : Run x tr c) :
    RealRanges c.store ↔ ∀ st ∈ tr, ¬CommitsUnbacked x st.1 st.2.1 := by
  induction hrun with
  | nil =>
      refine ⟨by simp, ?_⟩
      intro _ key t ht
      cases ht
  | @snoc tr c₁ c₂ a hpath hs ih =>
      have hreach : Reachable x anyStep c₁ := ⟨tr, hpath, fun _ _ => trivial⟩
      rw [realRanges_next_iff hreach hs, ih, List.forall_mem_append, List.forall_mem_singleton]

/-! ### What is minted for real ranges -/

/-- The term is a row of `reconstruction_terms`. -/
def Stored (db : Database) (t : Term) : Prop :=
  ∃ key, db.reconstructionTerms.find key = some t

/-- Whatever stored terms a response is built of, the ranges it grants are ranges of their xorbs and
nothing wraps in them. -/
def GrantsSatisfiable (db : Database) : Prop :=
  ∀ (order : UnstableSort) (terms : List Term), (∀ t ∈ terms, Stored db t) →
    ∀ h ranges, (h, ranges) ∈ coalesceTermsByXorb order terms → ∀ br ∈ ranges,
      ∃ r, db.xorbs.find h = some r ∧ br.Satisfiable r.sizeBytes

/-- The two offsets of a real range survive `as u64`. -/
theorem RealRange.byteSpan (h : Reachable x allow c) {t : Term} (ht : RealRange c.store t)
    {r : XorbRow} (hr : c.store.xorbs.find t.xorbHash = some r) :
    (byteSpan t).1 < (byteSpan t).2 ∧ (byteSpan t).2.toNat ≤ r.sizeBytes := by
  obtain ⟨r', hr', hs, hlt, hle⟩ := ht
  rw [hr] at hr'
  cases hr'
  obtain ⟨body, -, hlen, -, hsize, -⟩ := h.rowAdmitted hr
  -- The offsets are at most the size, and that is at most `MAX_XORB_BYTES`.
  simp only [maxXorbBytes] at hlen
  obtain ⟨s, hsEq⟩ := Int.eq_ofNat_of_zero_le hs
  obtain ⟨e, heEq⟩ := Int.eq_ofNat_of_zero_le (hs.trans hlt.le)
  have hstart : (u64 t.xorbByteStart).toNat = s := by
    rw [hsEq]
    exact toNat_u64 (by omega)
  have hend : (u64 t.xorbByteEnd).toNat = e := by
    rw [heEq]
    exact toNat_u64 (by omega)
  simp only [Core.byteSpan, UInt64.lt_iff_toNat_lt, hstart, hend]
  omega

theorem grantsSatisfiable_of_real (h : Reachable x allow c) (hreal : RealRanges c.store) :
    GrantsSatisfiable c.store := by
  intro order terms hstored hash ranges hmem br hbr
  obtain ⟨hash', hkey, hEq⟩ := List.mem_map.1 hmem
  cases hEq
  obtain ⟨t₀, ht₀, rfl⟩ := mem_xorbKeys.1 hkey
  obtain ⟨key, hfind⟩ := hstored t₀ ht₀
  obtain ⟨r, hr, -⟩ := hreal key t₀ hfind
  -- All terms of the group are on this row.
  have hspans : ∀ span ∈ (termsOn terms t₀.xorbHash).map Core.byteSpan,
      span.1 < span.2 ∧ span.2.toNat ≤ r.sizeBytes := by
    intro span hspan
    obtain ⟨t, ht, rfl⟩ := List.mem_map.1 hspan
    obtain ⟨hin, hxorb⟩ := mem_termsOn.1 ht
    obtain ⟨key', hfind'⟩ := hstored t hin
    exact (hreal key' t hfind').byteSpan h (hxorb ▸ hr)
  exact ⟨r, hr, coalesceSpans_satisfiable (fun span hspan => (hspans span hspan).1)
    (fun span hspan => (hspans span hspan).2) hbr⟩

/-- At the end of a run all stored byte ranges are ranges of their xorbs, and all grants over them
satisfiable, exactly when no step of the run stored an unbacked term. -/
theorem realRanges_iff_backed {tr : List Transition} (hrun : Run x tr c) :
    (RealRanges c.store ∧ GrantsSatisfiable c.store) ↔
      ∀ st ∈ tr, ¬CommitsUnbacked x st.1 st.2.1 := by
  have hreach : Reachable x anyStep c := ⟨tr, hrun, fun _ _ => trivial⟩
  rw [← realRanges_iff hrun]
  exact ⟨fun hboth => hboth.1, fun hreal => ⟨hreal, grantsSatisfiable_of_real hreach hreal⟩⟩

def realRangesCheck (c : State) : Bool :=
  c.store.reconstructionTerms.rows.all fun row =>
    match c.store.xorbs.find row.2.xorbHash with
    | some r => 0 ≤ row.2.xorbByteStart ∧ row.2.xorbByteStart < row.2.xorbByteEnd ∧
        row.2.xorbByteEnd ≤ r.sizeBytes
    | none => false

theorem realRanges_of_check (h : realRangesCheck c = true) : RealRanges c.store := by
  intro key t ht
  have hrow := List.all_eq_true.1 h (key, t) (Table.find_eq_some_iff.1 ht)
  cases hr : c.store.xorbs.find t.xorbHash with
  | none => simp [hr] at hrow
  | some r =>
      simp only [hr, decide_eq_true_eq] at hrow
      exact ⟨r, hr, hrow⟩

def storedBytes (c : State) : List (Int × Int) :=
  (c.store.storedTerms sampleFile).map fun t => (t.2.xorbByteStart, t.2.xorbByteEnd)

/-- The shard of `wholeFile` does not list its xorb, but the boundaries of the two chunks were
recovered. -/
theorem realRanges_iff_backed_wholeFile :
    ∃ tr c, Run (bareCrates shardSha256) tr c ∧ storedBytes c = [(0, 22)] ∧
      ∀ st ∈ tr, ¬CommitsUnbacked (bareCrates shardSha256) st.1 st.2.1 := by
  have heval : (initial.runAll (bareCrates shardSha256) wholeFile).map
      (fun c => realRangesCheck c && decide (storedBytes c = [(0, 22)])) = some true := by
    decide +kernel
  obtain ⟨tr, c, hrun, hcheck⟩ := exists_run heval
  obtain ⟨hcheck, hbytes⟩ := Bool.and_eq_true_iff.1 hcheck
  have hreach : Reachable (bareCrates shardSha256) anyStep c := ⟨tr, hrun, fun _ _ => trivial⟩
  have hreal := realRanges_of_check hcheck
  exact ⟨tr, c, hrun, of_decide_eq_true hbytes,
    (realRanges_iff_backed hrun).1 ⟨hreal, grantsSatisfiable_of_real hreach hreal⟩⟩

/-- A xorb without boundaries, and the same shard over it. -/
def blindFile : List Step :=
  pinnedUpload 0 sampleHex [255] ++ committedShard 1 wholeShard

/-- The placeholder stays. -/
theorem not_realRanges_blindFile :
    ¬∀ (x : Crates) (c : State), Reachable x anyStep c →
      RealRanges c.store ∧ GrantsSatisfiable c.store := by
  intro hclaim
  have heval : (initial.runAll (bareCrates shardSha256) blindFile).map
      (fun c => decide (storedBytes c = [(0, 0)])) = some true := by
    decide +kernel
  obtain ⟨tr, c, hrun, hbytes⟩ := exists_run heval
  have hbytes : storedBytes c = [(0, 0)] := of_decide_eq_true hbytes
  obtain ⟨⟨idx, t⟩, hterms, hEq⟩ := List.map_eq_singleton_iff.1 hbytes
  have hmem : (idx, t) ∈ fileRows c.store.reconstructionTerms sampleFile :=
    (storedTerms_perm c.store sampleFile).mem_iff.1 (hterms ▸ List.mem_singleton_self _)
  obtain ⟨⟨key, t'⟩, hrow, hpair⟩ := List.mem_map.1 hmem
  cases hpair
  have hfind := Table.find_eq_some_iff.2 (List.mem_filter.1 hrow).1
  obtain ⟨-, -, -, hlt, -⟩ := (hclaim _ c ⟨tr, hrun, fun _ _ => trivial⟩).1 key t' hfind
  obtain ⟨hs, he⟩ := Prod.mk.inj hEq
  simp only at hs he
  omega

end State

end Service
end OpenWeights
