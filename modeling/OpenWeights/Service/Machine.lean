import OpenWeights.Core.Shards
import OpenWeights.Storage.Reconciler

/-!
# Machine — the running CAS service

Any number of upload requests and reconciler passes over one database, interleaved one atomic
operation at a time.  A request can be dropped between two operations (client gone, process
crashed).  The runs of this machine are what the claims about the service quantify over.
-/

namespace OpenWeights
namespace Service

open Lib Db OpenWeights.Core Storage

/-- What starts a task: an upload request, or a tick of the reconciler. -/
inductive Request
  | uploadXorb (pathPrefix hashSuffix : String) (body : Bytes)
  | uploadShard (body : Bytes)
  | sweep
  deriving DecidableEq, Repr

inductive Outcome
  | uploadXorb (answer : Except AppError UploadXorbResponse)
  | uploadShard (answer : Except AppError UploadShardResponse)
  | sweep (answer : Except DbError Nat)

def code (x : Crates) : Request → Code Outcome
  | .uploadXorb pathPrefix hashSuffix body =>
      Outcome.uploadXorb <$> uploadXorb x pathPrefix hashSuffix body
  | .uploadShard body => Outcome.uploadShard <$> uploadShard x body
  | .sweep => Outcome.sweep <$> reconcileOnce

/-- A state of the service: the database, the log of operations and the tasks. -/
abbrev State := Pool Database Request Op Res Outcome

/-- What all tasks see of a state. -/
abbrev Shared := World Database Request Op Res

abbrev Step := Action Request Env

namespace State

/-- The service after its first start. -/
def initial : State := Pool.init Database.empty

def next (x : Crates) (c : State) (a : Step) : Option State :=
  Pool.step (code x) exec c a

def runAll (x : Crates) (c : State) (as : List Step) : Option State :=
  Pool.run (code x) exec c as

/-- The states reached from the first start by steps that meet `allow`. -/
def Reachable (x : Crates) (allow : State → Step → Prop) (c : State) : Prop :=
  Reaches (code x) exec allow initial c

/-- No condition on the steps. -/
def anyStep (_ : State) (_ : Step) : Prop := True

/-- A step of a run: the state before it, what happened, and the state after it. -/
abbrev Transition := State × Step × State

/-- `tr` is a run of the service from its first start to `c`. -/
abbrev Run (x : Crates) (tr : List Transition) (c : State) : Prop :=
  Path (code x) exec initial tr c

/-- The request of task `i` was answered with `out`. -/
def Answered (c : State) (i : Nat) (out : Outcome) : Prop :=
  ∃ req, c.tasks i = some ⟨req, some (.done out)⟩

/-- The operation task `i` is about to perform. -/
def pending (c : State) (i : Nat) : Option Op :=
  match c.tasks i with
  | some ⟨_, some p⟩ => p.next
  | _ => none

end State

/-! ## Operations the programs perform -/

/-- A state write is either `'pinned'` with an object id or `'pinning'` without one. -/
def RegularWrite (state : XorbPinState) (id : Option Bytes) : Prop :=
  (state = .pinned ∧ id.isSome) ∨ (state = .pinning ∧ id = none)

def Op.ofXorb (h : Hash) (boundaries : List Int) (body : Bytes) : Op → Prop
  | .rateLimit => True
  | .sql (.insertPending h' n bounds) => h' = h ∧ n = body.length ∧ bounds = boundaries
  | .sql (.insertXorbBody h' content) => h' = h ∧ content = body
  | .uploadAndPin k h' bytes => k = .xorb ∧ h' = h ∧ bytes = body
  | .sql (.setPinState k h' state id) => k = .xorb ∧ h' = h ∧ RegularWrite state id
  | .sql (.recordUsage _) => True
  | _ => False

/-- The rows a shard body is parsed to, with the byte ranges of its terms corrected. -/
def ParsesTo (x : Crates) (body : Bytes) (files : List Database.ParsedFile)
    (terms : List Database.ParsedTerm) : Prop :=
  body.length ≤ maxShardBytes ∧ ∃ parsed boundaries, parseShard x body = .ok parsed ∧
    files = parsed.files ∧ terms = parsed.terms.map (correctTerm boundaries)

/-- The operations of `upload_shard` for a body: it commits what the body parses to. -/
def Op.ofShard (x : Crates) (body : Bytes) : Op → Prop
  | .rateLimit => True
  | .sql (.reviveOrphanedXorbs _) => True
  | .sql (.whichXorbsArePinned _) => True
  | .sql (.getChunkBoundaries _) => True
  | .sql (.commitShard h' n files terms) =>
      h' = x.sha256 body ∧ n = body.length ∧ ParsesTo x body files terms
  | .uploadAndPin k h' bytes => k = .shard ∧ h' = x.sha256 body ∧ bytes = body
  | .sql (.setPinState k h' state id) => k = .shard ∧ h' = x.sha256 body ∧ RegularWrite state id
  | .sql (.recordUsage _) => True
  | _ => False

def Op.ofSweep : Op → Prop
  | .sql (.fetchStuck _) => True
  | .sql (.loadXorbBody _) => True
  | .sql (.setPinned _ _ _) => True
  | .sql (.touchAttempt _ _) => True
  | .sql (.bumpAttempt _ _) => True
  | .sql (.orphan _ _) => True
  | .uploadAndPin k _ _ => k = .xorb
  | .pinOnly _ _ _ => True
  | _ => False

/-- The operations of a sweep on one row it selected. -/
inductive Op.OfRow (k : Kind) (row : Database.StuckRow) : Op → Prop
  | pinOnly (id : Bytes) (hid : row.siaObjectId = some id) : OfRow k row (.pinOnly k row.hash id)
  | loadXorbBody (hk : k = .xorb) : OfRow k row (.sql (.loadXorbBody row.hash))
  | uploadAndPin (bytes : Bytes) (hk : k = .xorb) :
      OfRow k row (.uploadAndPin k row.hash bytes)
  | setPinned (id : Bytes) (hid : k = .shard → row.siaObjectId = some id) :
      OfRow k row (.sql (.setPinned k row.hash id))
  | touchAttempt : OfRow k row (.sql (.touchAttempt k row.hash))
  | bumpAttempt : OfRow k row (.sql (.bumpAttempt k row.hash))
  | orphan : OfRow k row (.sql (.orphan k row.hash))

theorem Op.OfRow.ofSweep {k : Kind} {row : Database.StuckRow} {o : Op} (ho : o.OfRow k row) :
    o.ofSweep := by
  cases ho with
  | uploadAndPin bytes hk => exact hk
  | _ => trivial

/-- The operations a request can lead to. -/
def Op.serves (x : Crates) : Request → Op → Prop
  | .uploadXorb pathPrefix hashSuffix body, o =>
      ∃ h boundaries, admitXorb x pathPrefix hashSuffix body = .ok (h, boundaries) ∧
        o.ofXorb h boundaries body
  | .uploadShard body, o => o.ofShard x body
  | .sweep, o => o.ofSweep

theorem uses_leavePinning {P : Op → Prop} {k : Kind} {h : Hash}
    (hP : P (.sql (.setPinState k h .pinning none))) : (leavePinning k h).Uses P :=
  Prog.Uses.perform_bind hP fun _ => trivial

theorem uses_recordXorbUpload {P : Op → Prop} {h : Hash} {n : Nat}
    (hP : P (.sql (.recordUsage (.xorbUpload h n)))) : (recordXorbUpload h n).Uses P :=
  Prog.Uses.perform_bind hP fun _ => trivial

theorem uses_pushXorb (h : Hash) (boundaries : List Int) (body : Bytes) :
    (pushXorb h body).Uses (Op.ofXorb h boundaries body) := by
  have hleave : (leavePinning .xorb h).Uses (Op.ofXorb h boundaries body) :=
    uses_leavePinning ⟨rfl, rfl, .inr ⟨rfl, rfl⟩⟩
  have hrecord : (recordXorbUpload h body.length).Uses (Op.ofXorb h boundaries body) :=
    uses_recordXorbUpload trivial
  apply Prog.Uses.perform_bind ⟨rfl, rfl, rfl⟩
  rintro (_ | (_ | _) | id)
  · exact hleave.bind fun _ => hrecord.bind fun _ => trivial
  · exact hleave.bind fun _ => hrecord.bind fun _ => trivial
  · exact hleave.bind fun _ => trivial
  · apply Prog.Uses.perform_bind ⟨rfl, rfl, .inl ⟨rfl, rfl⟩⟩
    rintro (_ | _)
    · trivial
    · exact hrecord.bind fun _ => trivial

theorem uses_storeXorb (h : Hash) (boundaries : List Int) (body : Bytes) :
    (storeXorb h boundaries body).Uses (Op.ofXorb h boundaries body) := by
  apply Prog.Uses.perform_bind ⟨rfl, rfl, rfl⟩
  rintro (_ | (_ | _))
  · trivial
  · exact (uses_recordXorbUpload trivial).bind fun _ => trivial
  · exact Prog.Uses.perform_bind ⟨rfl, rfl⟩ fun _ => uses_pushXorb h boundaries body

theorem uses_uploadXorb (x : Crates) (pathPrefix hashSuffix : String) (body : Bytes) :
    (uploadXorb x pathPrefix hashSuffix body).Uses
      (Op.serves x (.uploadXorb pathPrefix hashSuffix body)) := by
  unfold uploadXorb
  split
  · trivial
  · rename_i expected boundaries hok
    refine Prog.Uses.perform_bind ⟨expected, boundaries, hok, trivial⟩ ?_
    rintro (_ | _)
    · trivial
    · exact (uses_storeXorb expected boundaries body).mono fun o ho =>
        ⟨expected, boundaries, hok, ho⟩

theorem uses_pushShard (x : Crates) (body : Bytes) :
    (pushShard (x.sha256 body) body).Uses (Op.ofShard x body) := by
  have hleave : (leavePinning .shard (x.sha256 body)).Uses (Op.ofShard x body) :=
    uses_leavePinning ⟨rfl, rfl, .inr ⟨rfl, rfl⟩⟩
  apply Prog.Uses.perform_bind ⟨rfl, rfl, rfl⟩
  rintro (_ | (_ | _) | id)
  · exact hleave.bind fun _ => trivial
  · exact hleave.bind fun _ => trivial
  · exact hleave.bind fun _ => trivial
  · apply Prog.Uses.perform_bind ⟨rfl, rfl, .inl ⟨rfl, rfl⟩⟩
    rintro (_ | _)
    · trivial
    · trivial

theorem uses_uploadShard (x : Crates) (body : Bytes) :
    (uploadShard x body).Uses (Op.ofShard x body) := by
  unfold uploadShard
  split
  · trivial
  · rename_i hlen
    split
    · trivial
    · rename_i parsed hparse
      apply Prog.Uses.perform_bind trivial
      rintro (_ | _)
      · trivial
      apply Prog.Uses.perform_bind trivial
      rintro (_ | present)
      · trivial
      dsimp only
      split
      · trivial
      apply Prog.Uses.perform_bind trivial
      rintro (_ | boundaries)
      · trivial
      apply Prog.Uses.perform_bind trivial
      rintro (_ | _)
      · trivial
      have hparses : ParsesTo x body parsed.files (parsed.terms.map (correctTerm boundaries)) :=
        ⟨by omega, parsed, boundaries, hparse, rfl, rfl⟩
      apply Prog.Uses.perform_bind ⟨rfl, rfl, hparses⟩
      rintro (_ | (_ | _))
      · trivial
      · exact Prog.Uses.perform_bind trivial fun _ => trivial
      · exact uses_pushShard x body

theorem uses_bumpAttempt (k : Kind) (row : Database.StuckRow) (n : Nat) (err : SiaAdapterError) :
    (bumpAttempt k row.hash n err).Uses (Op.OfRow k row) := by
  unfold bumpAttempt
  split_ifs
  · exact ⟨.touchAttempt, fun _ => trivial⟩
  · exact ⟨.orphan, fun _ => trivial⟩
  · exact ⟨.bumpAttempt, fun _ => trivial⟩

theorem uses_reconcileXorbRow (row : Database.StuckRow) :
    (reconcileXorbRow row).Uses (Op.OfRow .xorb row) := by
  have hbump := uses_bumpAttempt .xorb row row.pinAttempts
  have hpinned : ∀ id, (setPinnedRow .xorb row.hash id).Uses (Op.OfRow .xorb row) :=
    fun id => ⟨.setPinned id nofun, fun _ => trivial⟩
  unfold reconcileXorbRow
  split
  · exact ⟨.orphan, fun _ => trivial⟩
  · split
    · rename_i oid hoid
      apply Prog.Uses.perform_bind (.pinOnly oid hoid)
      rintro (_ | err | _)
      · exact hbump .other
      · exact hbump err
      · exact hpinned oid
    · apply Prog.Uses.perform_bind (.loadXorbBody rfl)
      rintro (_ | (_ | bytes))
      · trivial
      · exact hbump .other
      · apply Prog.Uses.perform_bind (.uploadAndPin bytes rfl)
        rintro (_ | err | id)
        · exact hbump .other
        · exact hbump err
        · exact hpinned id

theorem uses_reconcileShardRow (row : Database.StuckRow) :
    (reconcileShardRow row).Uses (Op.OfRow .shard row) := by
  have hbump := uses_bumpAttempt .shard row row.pinAttempts
  unfold reconcileShardRow
  split
  · exact ⟨.orphan, fun _ => trivial⟩
  · split
    · rename_i oid hoid
      apply Prog.Uses.perform_bind (.pinOnly oid hoid)
      rintro (_ | err | _)
      · exact hbump .unavailable
      · exact hbump err
      · exact ⟨.setPinned oid fun _ => hoid, fun _ => trivial⟩
    · exact hbump .other

theorem uses_sweepRows {P : Op → Prop}
    {reconcileRow : Database.StuckRow → Code (Except DbError Bool)}
    {rows : List Database.StuckRow} (hrow : ∀ row ∈ rows, (reconcileRow row).Uses P) :
    (sweepRows reconcileRow rows).Uses P := by
  induction rows with
  | nil => trivial
  | cons row rows ih =>
      have hrest := ih fun row' hrow' => hrow row' (List.mem_cons_of_mem _ hrow')
      exact (hrow row List.mem_cons_self).bind fun _ => hrest.bind fun _ => trivial

theorem uses_reconcileOnce : reconcileOnce.Uses Op.ofSweep := by
  have hxorb : ∀ row, (reconcileXorbRow row).Uses Op.ofSweep :=
    fun row => (uses_reconcileXorbRow row).mono fun _ ho => ho.ofSweep
  have hshard : ∀ row, (reconcileShardRow row).Uses Op.ofSweep :=
    fun row => (uses_reconcileShardRow row).mono fun _ ho => ho.ofSweep
  apply Prog.Uses.perform_bind trivial
  rintro (_ | xorbRows)
  · trivial
  · apply (uses_sweepRows fun row _ => hxorb row).bind
    intro handled
    apply Prog.Uses.perform_bind trivial
    rintro (_ | shardRows)
    · trivial
    · exact (uses_sweepRows fun row _ => hshard row).bind fun _ => trivial

theorem uses_code (x : Crates) (req : Request) : (code x req).Uses (Op.serves x req) := by
  cases req with
  | uploadXorb pathPrefix hashSuffix body =>
      exact (uses_uploadXorb x pathPrefix hashSuffix body).bind fun _ => trivial
  | uploadShard body => exact Prog.Uses.bind (uses_uploadShard x body) fun _ => trivial
  | sweep => exact Prog.Uses.bind uses_reconcileOnce fun _ => trivial

/-- Parsing and boundary correction keep the cut. -/
theorem ParsesTo.wellCut {x : Crates} {body : Bytes} {files : List Database.ParsedFile}
    {terms : List Database.ParsedTerm} (h : ParsesTo x body files terms)
    (hnodup : (files.map Database.ParsedFile.fileId).Nodup) : WellCut files terms := by
  rcases h with ⟨hlen, parsed, boundaries, hparse, rfl, rfl⟩
  exact (parseShard_wellCut hparse hlen hnodup).map_correctTerm boundaries

/-- What holds of every operation of every program, whatever its results were. -/
def Op.Regular : Op → Prop
  | .sql (.setPinState _ _ state id) => RegularWrite state id
  | _ => True

theorem Op.serves.regular {x : Crates} {req : Request} {o : Op} (ho : o.serves x req) :
    o.Regular := by
  cases o with
  | sql s =>
      cases s with
      | setPinState k h state id =>
          cases req with
          | uploadXorb pathPrefix hashSuffix body =>
              rcases ho with ⟨_, _, _, _, _, hwrite⟩
              exact hwrite
          | uploadShard body => exact ho.2.2
          | sweep => exact ho.elim
      | _ => trivial
  | _ => trivial

/-! ## Steps and runs -/

namespace State

variable {x : Crates} {c c' : State} {a : Step} {allow : State → Step → Prop}

theorem pending_of_task {i : Nat} {req : Request} {p : Code Outcome}
    (ht : c.tasks i = some ⟨req, some p⟩) : c.pending i = p.next := by
  simp [pending, ht]

theorem pending_eq_some {i : Nat} {o : Op} (h : c.pending i = some o) :
    ∃ req k, c.tasks i = some ⟨req, some (.call o k)⟩ := by
  unfold pending at h
  split at h
  · rename_i req p ht
    cases p with
    | done out => cases h
    | call o' k =>
        cases h
        exact ⟨req, k, ht⟩
  · cases h

/-- A step changes what the tasks share only by performing the next operation of a task. -/
theorem next_cases (h : c.next x a = some c') :
    c'.toWorld = c.toWorld ∨ ∃ i e req o k r, a = .call i e ∧
      c.tasks i = some ⟨req, some (.call o k)⟩ ∧ exec o e c.store = some (c'.store, r) ∧
        c'.log = ⟨i, req, ⟨o, r⟩⟩ :: c.log := by
  rcases Pool.step_cases h with ⟨i, req, rfl, ht, rfl⟩ |
    ⟨i, e, req, o, k, db, r, rfl, ht, he, rfl⟩ | ⟨i, req, p, rfl, ht, rfl⟩
  · exact .inl rfl
  · exact .inr ⟨i, e, req, o, k, r, rfl, ht, he, rfl⟩
  · exact .inl rfl

/-- A step changes the database only by running the pending statement of a task. -/
theorem next_store (h : c.next x a = some c') :
    c'.store = c.store ∨ ∃ i now scan s r, a = .call i (.sql now scan) ∧
      c.pending i = some (.sql s) ∧ s.exec now scan c.store = some (c'.store, r) := by
  rcases next_cases h with hEq | ⟨i, e, req, o, k, r, rfl, ht, he, -⟩
  · exact .inl (congrArg World.store hEq)
  · have hpending : c.pending i = some o := pending_of_task ht
    rcases exec_cases he with ⟨hEq, -⟩ | ⟨now, scan, s, rs, rfl, hcall, hs⟩
    · exact .inl hEq
    · cases hcall
      exact .inr ⟨i, now, scan, s, rs, rfl, hpending, hs⟩

/-- The statement a step runs, seen from the step. -/
theorem next_sql {i now : Nat} {scan : List (Hash × PinRow)} {s : Stmt}
    (h : c.next x (.call i (.sql now scan)) = some c') (hp : c.pending i = some (.sql s)) :
    ∃ r, s.exec now scan c.store = some (c'.store, r) := by
  rcases pending_eq_some hp with ⟨req, k, ht⟩
  rcases Pool.step_cases h with ⟨j, req', ha, _⟩ |
    ⟨j, e, req', o, k', db, r, ha, ht', he, rfl⟩ | ⟨j, req', p, ha, _⟩
  · cases ha
  · cases ha
    rw [ht] at ht'
    cases ht'
    exact ⟨r, he⟩
  · cases ha

/-- A step either keeps an existing row or applies a pending statement to it. -/
theorem pin_next (h : c.next x a = some c') {k : Kind} {hash : Hash} {r : PinRow}
    (hr : c.store.pin k hash = some r) :
    c'.store.pin k hash = some r ∨ ∃ i now scan s, a = .call i (.sql now scan) ∧
      c.pending i = some (.sql s) ∧ c'.store.pin k hash = some (s.pinEffect now k hash r) := by
  rcases next_store h with hEq | ⟨i, now, scan, s, res, ha, hp, he⟩
  · exact .inl (by rw [hEq, hr])
  · rcases pin_exec he k hash with hmap | ⟨hnone, _⟩
    · exact .inr ⟨i, now, scan, s, ha, hp, by rw [hmap, hr]; rfl⟩
    · rw [hr] at hnone
      cases hnone

/-- A step that runs the statement `s` applies it to every existing row. -/
theorem pin_next_sql {i now : Nat} {scan : List (Hash × PinRow)} {s : Stmt}
    (h : c.next x (.call i (.sql now scan)) = some c') (hp : c.pending i = some (.sql s))
    {k : Kind} {hash : Hash} {r : PinRow} (hr : c.store.pin k hash = some r) :
    c'.store.pin k hash = some (s.pinEffect now k hash r) := by
  rcases next_sql h hp with ⟨res, he⟩
  rcases pin_exec he k hash with hmap | ⟨hnone, _⟩
  · rw [hmap, hr]
    rfl
  · rw [hr] at hnone
    cases hnone

/-- A list of steps that can be executed is a run. -/
theorem exists_run {as : List Step} {P : State → Bool}
    (h : (initial.runAll x as).map P = some true) : ∃ tr c, Run x tr c ∧ P c = true := by
  rcases Option.map_eq_some_iff.1 h with ⟨c, hrun, hP⟩
  have hreach : Reachable x anyStep c := Reaches.of_run hrun fun _ _ => trivial
  rcases hreach with ⟨tr, hpath, -⟩
  exact ⟨tr, c, hpath, hP⟩

/-- The same with the last step and the state before it in view. -/
theorem exists_run_step {as : List Step} {P Q : State → Bool}
    (h : (initial.runAll x as).bind (fun c => (c.next x a).map fun c' => P c && Q c') =
      some true) :
    ∃ tr c c', Run x tr c ∧ c.next x a = some c' ∧ P c = true ∧ Q c' = true := by
  rcases Option.bind_eq_some_iff.1 h with ⟨c, hrun, hstep⟩
  rcases Option.map_eq_some_iff.1 hstep with ⟨c', hnext, hPQ⟩
  have hreach : Reachable x anyStep c := Reaches.of_run hrun fun _ _ => trivial
  rcases hreach with ⟨tr, hpath, -⟩
  have hand : P c = true ∧ Q c' = true := by simpa using hPQ
  exact ⟨tr, c, c', hpath, hnext, hand.1, hand.2⟩

/-- A list of steps with the transitions it makes, after those of `tr`. -/
def traceAll (x : Crates) (tr : List Transition) (c : State) :
    List Step → Option (List Transition × State)
  | [] => some (tr, c)
  | a :: as => (c.next x a).bind fun c' => traceAll x (tr ++ [(c, a, c')]) c' as

theorem run_of_traceAll {tr tr' : List Transition} {as : List Step} (hrun : Run x tr c)
    (h : traceAll x tr c as = some (tr', c')) : Run x tr' c' := by
  induction as generalizing tr c with
  | nil =>
      cases h
      exact hrun
  | cons a as ih =>
      rcases Option.bind_eq_some_iff.1 h with ⟨c₁, hs, hrest⟩
      exact ih (.snoc hrun hs) hrest

/-- A list of steps that can be executed is a run, whose transitions can be observed too. -/
theorem exists_trace {as : List Step} {P : List Transition → State → Bool}
    (h : (traceAll x [] initial as).map (fun t => P t.1 t.2) = some true) :
    ∃ tr c, Run x tr c ∧ P tr c = true := by
  rcases Option.map_eq_some_iff.1 h with ⟨⟨tr, c⟩, htrace, hP⟩
  exact ⟨tr, c, run_of_traceAll .nil htrace, hP⟩

/-- Every task of a reachable state performs operations that serve its request. -/
theorem Reachable.serves (h : Reachable x allow c) {i : Nat} {req : Request} {p : Code Outcome}
    (ht : c.tasks i = some ⟨req, some p⟩) : p.Uses (Op.serves x req) := by
  have hall : ∀ i req p, c.tasks i = some ⟨req, some p⟩ → p.Uses (Op.serves x req) := by
    apply h.invariant (I := fun c : State =>
      ∀ i req p, c.tasks i = some ⟨req, some p⟩ → p.Uses (Op.serves x req))
    · intro i req p ht
      cases ht
    · intro c₁ a c₂ hall _ hs
      exact always_step (P := fun req o _ => Op.serves x req o) hs (uses_code x) hall
  exact hall i req p ht

/-- Every logged operation served its request. -/
theorem Reachable.log_serves (h : Reachable x allow c) {e : Entry Request Op Res}
    (he : e ∈ c.log) : e.call.op.serves x e.request := by
  have hall : Reachable x allow c ∧ ∀ e ∈ c.log, e.call.op.serves x e.request := by
    apply h.invariant (I := fun c : State =>
      Reachable x allow c ∧ ∀ e ∈ c.log, e.call.op.serves x e.request)
    · exact ⟨.refl _, by simp [initial, Pool.init]⟩
    · intro c₁ a c₂ hinv ha hs
      refine ⟨hinv.1.tail ha hs, ?_⟩
      rcases next_cases hs with hEq | ⟨i, env, req, o, k, r, rfl, ht, -, hlog⟩
      · have hsame : c₂.log = c₁.log := congrArg World.log hEq
        rw [hsame]
        exact hinv.2
      · intro e he
        rw [hlog] at he
        rcases List.mem_cons.1 he with rfl | he
        · exact (hinv.1.serves ht).1
        · exact hinv.2 e he
  exact hall.2 e he

theorem Reachable.pending_regular (h : Reachable x allow c) {i : Nat} {o : Op}
    (hp : c.pending i = some o) : o.Regular := by
  rcases pending_eq_some hp with ⟨req, k, ht⟩
  exact Op.serves.regular (h.serves ht).1

end State

end Service
end OpenWeights
