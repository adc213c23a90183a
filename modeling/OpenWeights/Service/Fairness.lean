import OpenWeights.Lib.Rotation
import OpenWeights.Service.Machine

/-!
# Fairness — no stuck row is passed over

Passes of the reconciler run one after another over the same database, without failing statements and
with whatever answers Sia gives.  A pass takes at most `RECONCILER_BATCH` rows, the longest waiting
first, and every way a row can go restamps it, so the passes are the rounds of a rotation
(`Pass.round`): if a row is attempted twice, every row that was eligible the first time has been
attempted by then (`sweeps_fair`).
-/

namespace OpenWeights
namespace Service

open Lib Db Storage

/-! ## Operations on a row -/

def Op.target : Op → Option (Kind × Hash)
  | .pinOnly k h _ => some (k, h)
  | .uploadAndPin k h _ => some (k, h)
  | .sql (.loadXorbBody h) => some (.xorb, h)
  | .sql (.setPinned k h _) => some (k, h)
  | .sql (.touchAttempt k h) => some (k, h)
  | .sql (.bumpAttempt k h) => some (k, h)
  | .sql (.orphan k h) => some (k, h)
  | _ => none

theorem Op.OfRow.target {k : Kind} {row : Database.StuckRow} {o : Op} (ho : o.OfRow k row) :
    o.target = some (k, row.hash) := by
  cases ho with
  | loadXorbBody hk =>
      subst hk
      rfl
  | _ => rfl

/-- All other rows stay as they are. -/
theorem Op.OfRow.pin_eq {k k' : Kind} {row : Database.StuckRow} {o : Op} {e : Env} {db db' : Database}
    {r : Res o} {h : Hash} (ho : o.OfRow k row) (he : exec o e db = some (db', r))
    (hne : ¬(k' = k ∧ h = row.hash)) : db'.pin k' h = db.pin k' h := by
  rcases exec_cases he with ⟨rfl, -⟩ | ⟨now, scan, s, rs, rfl, hcall, hs⟩
  · rfl
  · cases hcall
    cases ho with
    | loadXorbBody hk =>
        cases hs
        rfl
    | setPinned id hid =>
        cases hs
        exact Database.pin_updatePin_of_ne hne
    | touchAttempt =>
        cases hs
        exact Database.pin_updatePin_of_ne hne
    | bumpAttempt =>
        cases hs
        exact Database.pin_updatePin_of_ne hne
    | orphan =>
        cases hs
        exact Database.pin_updatePin_of_ne hne

/-! ## The clock -/

def Env.time : Env → Option Nat
  | .sql now _ => some now
  | _ => none

/-- The statement runs at time `t` or later, and it does not fail. -/
def Env.since (t : Nat) : Env → Bool
  | .sql now _ => t ≤ now
  | .dbError => false
  | _ => true

/-- The operations from time `t` on. -/
def execSince (t : Nat) (o : Op) (e : Env) (db : Database) : Option (Database × Res o) :=
  if e.since t then exec o e db else none

theorem execSince_eq_some {t : Nat} {o : Op} {e : Env} {db : Database} {out : Database × Res o}
    (h : execSince t o e db = some out) : e.since t = true ∧ exec o e db = some out := by
  unfold execSince at h
  by_cases hsince : e.since t = true
  · rw [if_pos hsince] at h
    exact ⟨hsince, h⟩
  · rw [if_neg hsince] at h
    cases h

/-! ## One row -/

/-- The row was attempted at time `t` or later. -/
def Stamped (t : Nat) (h : Hash) (db : Database) : Prop :=
  ∃ r now, db.pin .xorb h = some r ∧ r.lastPinAttemptAt = some now ∧ t ≤ now

def Unpinned (h : Hash) (db : Database) : Prop :=
  ∃ r, db.pin .xorb h = some r ∧ r.pinState ≠ .pinned

section Row

variable {t : Nat} {h : Hash} {db : Database}

/-- A statement that writes `NOW()` to the row stamps it. -/
theorem stamped_exec {s : Stmt} {f : Nat → PinRow → PinRow} {e : Env} {db' : Database}
    {r : Res (.sql s)} (he : execSince t (.sql s) e db = some (db', r))
    (hs : ∀ now scan, (s.exec now scan db).map Prod.fst = some (db.updatePin .xorb h (f now)))
    (hf : ∀ now row, row.pinState ≠ .pinned → (f now row).lastPinAttemptAt = some now)
    (hrow : Unpinned h db) : Stamped t h db' := by
  obtain ⟨row, hpin, hstate⟩ := hrow
  obtain ⟨hsince, he⟩ := execSince_eq_some he
  cases e with
  | sql now scan =>
      have hdb : db' = db.updatePin .xorb h (f now) := by
        have hmap := hs now scan
        have he : s.exec now scan db = some (db', r) := he
        rw [he] at hmap
        exact Option.some.inj hmap
      refine ⟨f now row, now, ?_, hf now row hstate, of_decide_eq_true hsince⟩
      rw [hdb, Database.pin_updatePin_self, hpin]
      rfl
  | dbError => cases hsince
  | _ => cases he

/-- Whatever the failure, the row is stamped. -/
theorem yields_bumpAttempt (hrow : Unpinned h db) (attempts : Nat) (err : SiaAdapterError) :
    (bumpAttempt .xorb h attempts err).Yields (execSince t) (fun db' _ => Stamped t h db') db := by
  unfold bumpAttempt
  split_ifs
  · exact fun e db' r he => stamped_exec he (fun _ _ => rfl) (fun _ _ _ => rfl) hrow
  · exact fun e db' r he => stamped_exec he (fun _ _ => rfl) (fun _ _ _ => rfl) hrow
  · exact fun e db' r he => stamped_exec he (fun _ _ => rfl) (fun _ _ _ => rfl) hrow

theorem yields_setPinnedRow (hrow : Unpinned h db) (siaId : Bytes) :
    (setPinnedRow .xorb h siaId).Yields (execSince t) (fun db' _ => Stamped t h db') db := by
  intro e db' r he
  refine stamped_exec he (fun _ _ => rfl) ?_ hrow
  intro now row hstate
  rw [PinRow.setPinned, if_neg hstate]

/-- A call of Sia leaves the database as it is. -/
theorem eq_of_exec {o : Op} {e : Env} {db' : Database} {r : Res o}
    (he : execSince t o e db = some (db', r)) (ho : ∀ s, o ≠ .sql s) : db' = db := by
  obtain ⟨-, he⟩ := execSince_eq_some he
  rcases exec_cases he with ⟨hEq, -⟩ | ⟨now, scan, s, rs, -, hcall, -⟩
  · exact hEq
  · exact absurd (congrArg Call.op hcall) (ho s)

/-- Every branch of `reconcile_xorb_row` stamps the row. -/
theorem yields_reconcileXorbRow {row : Database.StuckRow} (hrow : Unpinned row.hash db) :
    (reconcileXorbRow row).Yields (execSince t) (fun db' _ => Stamped t row.hash db') db := by
  have hbump := yields_bumpAttempt (t := t) hrow row.pinAttempts
  have hpinned := yields_setPinnedRow (t := t) hrow
  unfold reconcileXorbRow
  by_cases hstate : row.pinState = .uploading
  · rw [if_pos hstate]
    exact fun e db' r he => stamped_exec he (fun _ _ => rfl) (fun _ _ _ => rfl) hrow
  · rw [if_neg hstate]
    cases row.siaObjectId with
    | some oid =>
        intro e db' r he
        obtain rfl := eq_of_exec he nofun
        rcases r with _ | err | _
        · exact hbump .other
        · exact hbump err
        · exact hpinned oid
    | none =>
        intro e db' r he
        obtain ⟨hsince, he'⟩ := execSince_eq_some he
        cases e with
        | sql now scan =>
            cases he'
            cases db.loadXorbBody row.hash with
            | none => exact hbump .other
            | some bytes =>
                intro e' db'' r' he''
                obtain rfl := eq_of_exec he'' nofun
                rcases r' with _ | err | siaId
                · exact hbump .other
                · exact hbump err
                · exact hpinned siaId
        | dbError => cases hsince
        | _ => cases he'

/-- No row is passed without a call. -/
theorem not_runs_nil_reconcileXorbRow {row : Database.StuckRow} {db' : Database}
    {a : Except DbError Bool} :
    ¬Runs (execSince t) (reconcileXorbRow row) db [] db' a := by
  intro hrun
  unfold reconcileXorbRow at hrun
  split at hrun
  · cases hrun
  · split at hrun
    · cases hrun
    · cases hrun

end Row

/-! ## One pass -/

/-- The loop stamps every row it was given and leaves all others as they are. -/
theorem yields_sweepRows {t : Nat} {rows : List Database.StuckRow} {db : Database}
    (hnodup : (rows.map Database.StuckRow.hash).Nodup)
    (hrows : ∀ row ∈ rows, Unpinned row.hash db) :
    (sweepRows reconcileXorbRow rows).Yields (execSince t)
      (fun db' _ => (∀ row ∈ rows, Stamped t row.hash db') ∧
        ∀ h, h ∉ rows.map Database.StuckRow.hash → db'.pin .xorb h = db.pin .xorb h) db := by
  induction rows generalizing db with
  | nil => exact ⟨nofun, fun _ _ => rfl⟩
  | cons row rows ih =>
      obtain ⟨hfresh, hnodup⟩ := List.nodup_cons.1 hnodup
      obtain ⟨hfirst, hrest⟩ := List.forall_mem_cons.1 hrows
      have hframe : (reconcileXorbRow row).Yields (execSince t)
          (fun db' _ => ∀ h, h ≠ row.hash → db'.pin .xorb h = db.pin .xorb h) db := by
        refine Prog.Yields.of_uses (uses_reconcileXorbRow row) ?_ fun _ _ => rfl
        intro o e s s' r ho he hs h hne
        rw [ho.pin_eq (execSince_eq_some he).2 fun hEq => hne hEq.2]
        exact hs h hne
      refine ((yields_reconcileXorbRow hfirst).and hframe).bind ?_
      rintro db₁ - ⟨hstamped, hkept⟩
      -- The later rows are still as they were selected, for no row is selected twice.
      have hne : ∀ row' ∈ rows, row'.hash ≠ row.hash := by
        intro row' hrow' hEq
        exact hfresh (hEq ▸ List.mem_map_of_mem hrow')
      have hrest₁ : ∀ row' ∈ rows, Unpinned row'.hash db₁ := by
        intro row' hrow'
        obtain ⟨r, hpin, hstate⟩ := hrest row' hrow'
        exact ⟨r, (hkept _ (hne row' hrow')).trans hpin, hstate⟩
      refine (ih hnodup hrest₁).bind ?_
      rintro db₂ - ⟨hall, hkept₂⟩
      constructor
      · refine List.forall_mem_cons.2 ⟨?_, hall⟩
        obtain ⟨r, now, hpin, hlast, hle⟩ := hstamped
        exact ⟨r, now, (hkept₂ _ hfresh).trans hpin, hlast, hle⟩
      · intro h hout
        rw [List.map_cons, List.mem_cons, not_or] at hout
        rw [hkept₂ h hout.2, hkept h hout.1]

/-- Every row the loop was given is worked on. -/
theorem exists_call_sweepRows {t : Nat} {rows : List Database.StuckRow} {db db' : Database}
    {cs : List (Call Op Res)} {n : Nat}
    (hrun : Runs (execSince t) (sweepRows reconcileXorbRow rows) db cs db' n) :
    ∀ row ∈ rows, ∃ call ∈ cs, call.op.target = some (.xorb, row.hash) := by
  induction rows generalizing db db' cs n with
  | nil => exact nofun
  | cons row rows ih =>
      obtain ⟨db₁, a, cs₁, cs₂, rfl, hfirst, hrest⟩ := Runs.bind_inv hrun
      obtain ⟨db₂, m, cs₃, cs₄, rfl, hloop, -⟩ := Runs.bind_inv hrest
      have hcalls := hfirst.calls (uses_reconcileXorbRow row)
      obtain ⟨call, hcall⟩ : ∃ call, call ∈ cs₁ := by
        refine List.exists_mem_of_ne_nil cs₁ ?_
        rintro rfl
        exact not_runs_nil_reconcileXorbRow hfirst
      refine List.forall_mem_cons.2 ⟨?_, ?_⟩
      · exact ⟨call, List.mem_append_left _ hcall, (hcalls call hcall).target⟩
      · intro row' hrow'
        obtain ⟨call', hcall', htarget⟩ := ih hloop row' hrow'
        exact ⟨call', List.mem_append_right _ (List.mem_append_left _ hcall'), htarget⟩

/-- A pass run alone: what the environment decided, the calls that were made and the answer.  No
statement fails, and the database clock does not go back. -/
structure Pass where
  before : Database
  envs : List Env
  calls : List (Call Op Res)
  after : Database
  answer : Except DbError Nat
  runs : RunsWith exec reconcileOnce before envs calls after answer
  noDbError : ∀ e ∈ envs, e ≠ .dbError
  clock : (envs.filterMap Env.time).Pairwise (· ≤ ·)

namespace Pass

def times (p : Pass) : List Nat := p.envs.filterMap Env.time

/-- The time of the first statement, which selects the xorb rows. -/
def time (p : Pass) : Nat := p.times.headD 0

def Attempts (p : Pass) (h : Hash) : Prop :=
  ∃ call ∈ p.calls, call.op.target = some (.xorb, h)

/-- The row meets the `WHERE` clause of the `SELECT`. -/
def Eligible (p : Pass) (h : Hash) : Prop :=
  ∃ r, p.before.pin .xorb h = some r ∧ r.stuck p.time = true

/-- One pass after the other, with nothing in between. -/
structure Then (p q : Pass) : Prop where
  before : q.before = p.after
  clock : ∀ t ∈ p.times, ∀ t' ∈ q.times, t ≤ t'

/-- What the pass does after it selected `rows`. -/
def remaining (rows : List Database.StuckRow) : Code (Except DbError Nat) := do
  let handledXorbs ← sweepRows reconcileXorbRow rows
  match ← sql (.fetchStuck .shard) with
  | .error e => pure (.error e)
  | .ok shardRows =>
  let handledShards ← sweepRows reconcileShardRow shardRows
  pure (.ok (handledXorbs + handledShards))

/-- The pass selects rows, and goes on at the same time or later. -/
theorem exists_select (p : Pass) :
    ∃ scan cs, scan.Perm (p.before.pinRows .xorb) ∧ p.time ∈ p.times ∧
      p.calls =
        ⟨.sql (.fetchStuck .xorb), .ok (Database.fetchStuck scan p.time)⟩ :: cs ∧
      Runs (execSince p.time) (remaining (Database.fetchStuck scan p.time)) p.before cs p.after
        p.answer := by
  obtain ⟨before, envs, calls, after, answer, hruns, hfail, hclock⟩ := p
  obtain ⟨e, es, db, r, cs, rfl, he, rfl, hrest⟩ := hruns.call_inv
  cases e with
  | sql now scan =>
      have hscan : scan.Perm (before.pinRows .xorb) ∧ db = before ∧
          r = .ok (Database.fetchStuck scan now) := by
        simp only [exec, Stmt.exec] at he
        split at he
        · rename_i hperm
          cases he
          exact ⟨hperm, rfl, rfl⟩
        · cases he
      obtain ⟨hperm, rfl, rfl⟩ := hscan
      refine ⟨scan, cs, hperm, List.mem_cons_self, rfl, ?_⟩
      -- The later statements run at the time of the `SELECT` or later.
      refine RunsWith.runs hrest ?_
      intro e he o s s' r hexec
      have hsince : e.since now = true := by
        cases e with
        | sql later scan' =>
            refine decide_eq_true ((List.pairwise_cons.1 hclock).1 later ?_)
            exact List.mem_filterMap.2 ⟨_, he, rfl⟩
        | dbError => exact absurd rfl (hfail _ (List.mem_cons_of_mem _ he))
        | _ => rfl
      exact (if_pos hsince).trans hexec
  | dbError => exact absurd rfl (hfail _ List.mem_cons_self)
  | _ => cases he

def OfShards (o : Op) : Prop :=
  o = .sql (.fetchStuck .shard) ∨ ∃ row, o.OfRow .shard row

theorem OfShards.pin_eq {o : Op} (ho : OfShards o) {e : Env} {db db' : Database} {r : Res o}
    (he : exec o e db = some (db', r)) (h : Hash) : db'.pin .xorb h = db.pin .xorb h := by
  rcases ho with rfl | ⟨row, hrow⟩
  · rcases exec_cases he with ⟨rfl, -⟩ | ⟨now, scan, s, rs, -, hcall, hs⟩
    · rfl
    · cases hcall
      simp only [Stmt.exec] at hs
      split at hs
      · cases hs
        rfl
      · cases hs
  · apply hrow.pin_eq he
    rintro ⟨hkind, -⟩
    cases hkind

theorem OfShards.target_ne {o : Op} (ho : OfShards o) (h : Hash) : o.target ≠ some (.xorb, h) := by
  rcases ho with rfl | ⟨row, hrow⟩
  · exact nofun
  · rw [hrow.target]
    exact fun hEq => nomatch congrArg Prod.fst (Option.some.inj hEq)

/-- What the remaining pass does to the xorb rows: exactly the selected ones are worked on, and they
are stamped. -/
theorem remaining_spec {t : Nat} {rows : List Database.StuckRow} {db db' : Database}
    {cs : List (Call Op Res)} {a : Except DbError Nat}
    (hrun : Runs (execSince t) (remaining rows) db cs db' a)
    (hnodup : (rows.map Database.StuckRow.hash).Nodup)
    (hrows : ∀ row ∈ rows, Unpinned row.hash db) :
    (∀ h ∈ rows.map Database.StuckRow.hash, Stamped t h db') ∧
      (∀ h, h ∉ rows.map Database.StuckRow.hash → db'.pin .xorb h = db.pin .xorb h) ∧
      ∀ h, (∃ call ∈ cs, call.op.target = some (.xorb, h)) ↔
        h ∈ rows.map Database.StuckRow.hash := by
  obtain ⟨db₁, n, cs₁, cs₂, rfl, hloop, hshards⟩ := Runs.bind_inv hrun
  obtain ⟨hstamped, hkept⟩ := (yields_sweepRows hnodup hrows).post_of_runs hloop
  -- After the xorbs come the shards, whose calls touch no row of a xorb.
  have huses : ∀ n : Nat, (do
      match ← sql (.fetchStuck .shard) with
      | .error e => pure (.error e)
      | .ok shardRows =>
      let handledShards ← sweepRows reconcileShardRow shardRows
      pure (.ok (n + handledShards)) : Code (Except DbError Nat)).Uses OfShards := by
    intro n
    apply Prog.Uses.perform_bind (.inl rfl)
    rintro (_ | shardRows)
    · trivial
    · refine (uses_sweepRows fun row _ => ?_).bind fun _ => trivial
      exact (uses_reconcileShardRow row).mono fun o ho => .inr ⟨row, ho⟩
  have hpin : ∀ h, db'.pin .xorb h = db₁.pin .xorb h := by
    refine Runs.invariant (I := fun s => ∀ h, s.pin .xorb h = db₁.pin .xorb h) hshards (huses n)
      ?_ fun _ => rfl
    intro o e s s' r ho he hs h
    rw [ho.pin_eq (execSince_eq_some he).2 h]
    exact hs h
  refine ⟨?_, fun h hout => (hpin h).trans (hkept h hout), ?_⟩
  · intro h hh
    obtain ⟨row, hrow, rfl⟩ := List.mem_map.1 hh
    obtain ⟨r, now, hrowPin, hlast, hle⟩ := hstamped row hrow
    exact ⟨r, now, (hpin _).trans hrowPin, hlast, hle⟩
  · intro h
    constructor
    · rintro ⟨call, hcall, htarget⟩
      rcases List.mem_append.1 hcall with hcall | hcall
      · have hrowUses : ∀ row ∈ rows, (reconcileXorbRow row).Uses
            fun o => ∃ row ∈ rows, o.OfRow .xorb row :=
          fun row hrow => (uses_reconcileXorbRow row).mono fun o ho => ⟨row, hrow, ho⟩
        obtain ⟨row, hrow, hof⟩ := hloop.calls (uses_sweepRows hrowUses) call hcall
        rw [hof.target] at htarget
        cases htarget
        exact List.mem_map_of_mem hrow
      · exact absurd htarget ((hshards.calls (huses n) call hcall).target_ne h)
    · intro hh
      obtain ⟨row, hrow, rfl⟩ := List.mem_map.1 hh
      obtain ⟨call, hcall, htarget⟩ := exists_call_sweepRows hloop row hrow
      exact ⟨call, List.mem_append_left _ hcall, htarget⟩

/-! ## A pass as a round -/

/-- The rows a pass works on are those it selects; it stamps them and keeps the others. -/
theorem spec (p : Pass) :
    ∃ scan, scan.Perm (p.before.pinRows .xorb) ∧ p.time ∈ p.times ∧
      (∀ h, p.Attempts h ↔
        h ∈ (Database.fetchStuck scan p.time).map Database.StuckRow.hash) ∧
      (∀ h, p.Attempts h → Stamped p.time h p.after) ∧
      ∀ h, ¬p.Attempts h → p.after.pin .xorb h = p.before.pin .xorb h := by
  obtain ⟨scan, cs, hperm, htime, hcalls, hrun⟩ := p.exists_select
  have hrows : ∀ row ∈ Database.fetchStuck scan p.time, Unpinned row.hash p.before := by
    intro row hrow
    obtain ⟨r, hpin, hstuck, -⟩ := pin_of_fetchStuck hperm hrow
    refine ⟨r, hpin, ?_⟩
    rintro hpinned
    simp [PinRow.stuck, hpinned] at hstuck
  obtain ⟨hstamped, hkept, hiff⟩ := remaining_spec hrun (nodup_fetchStuck hperm p.time) hrows
  have hattempts : ∀ h, p.Attempts h ↔
      h ∈ (Database.fetchStuck scan p.time).map Database.StuckRow.hash := by
    intro h
    rw [← hiff h, Attempts, hcalls]
    simp [Op.target]
  refine ⟨scan, hperm, htime, hattempts, ?_, ?_⟩
  · exact fun h hh => hstamped h ((hattempts h).1 hh)
  · exact fun h hh => hkept h fun hmem => hh ((hattempts h).2 hmem)

/-- A timestamp in the order of `ASC NULLS FIRST`. -/
def age : Option Nat → WithBot Nat
  | none => ⊥
  | some t => t

theorem age_le_age_iff {a b : Option Nat} : age a ≤ age b ↔ Database.nullsFirst a b = true := by
  cases a with
  | none => exact iff_of_true bot_le rfl
  | some s =>
      cases b with
      | none => exact iff_of_false (WithBot.not_coe_le_bot s) nofun
      | some t => exact WithBot.coe_le_coe.trans decide_eq_true_iff.symm

instance : Std.Total Database.byLastAttempt where
  total a b := (le_total (age a.2.lastPinAttemptAt) (age b.2.lastPinAttemptAt)).imp
    age_le_age_iff.1 age_le_age_iff.1

instance : IsTrans (Hash × PinRow) Database.byLastAttempt where
  trans _ _ _ hab hbc :=
    age_le_age_iff.1 (le_trans (age_le_age_iff.2 hab) (age_le_age_iff.2 hbc))

/-- When the row was attempted last. -/
def stamp (db : Database) (h : Hash) : WithBot Nat :=
  age ((db.pin .xorb h).bind PinRow.lastPinAttemptAt)

theorem waited {p : Pass} {h : Hash} (hh : p.Eligible h) : stamp p.before h < p.time := by
  obtain ⟨r, hpin, hstuck⟩ := hh
  simp only [PinRow.stuck, Bool.and_eq_true] at hstuck
  have hold := hstuck.1.2
  rw [stamp, hpin, Option.bind_some]
  cases hlast : r.lastPinAttemptAt with
  | none => exact WithBot.bot_lt_coe p.time
  | some t =>
      rw [hlast] at hold
      have hlt : t + stuckThreshold < p.time := of_decide_eq_true hold
      exact WithBot.coe_lt_coe.2 (lt_of_le_of_lt (Nat.le_add_right t stuckThreshold) hlt)

theorem oldest {p : Pass} {x y : Hash} (hx : p.Attempts x) (hy : p.Eligible y)
    (hnot : ¬p.Attempts y) : stamp p.before x ≤ stamp p.before y := by
  obtain ⟨scan, hperm, -, hattempts, -, -⟩ := p.spec
  obtain ⟨r, hpin, hstuck⟩ := hy
  obtain ⟨row, hrow, rfl⟩ := List.mem_map.1 ((hattempts x).1 hx)
  obtain ⟨⟨x, rx⟩, htake, rfl⟩ := List.mem_map.1 hrow
  have hxscan : (x, rx) ∈ scan :=
    (List.mem_filter.1 ((List.mem_insertionSort _).1 (List.mem_of_mem_take htake))).1
  have hxpin : p.before.pin .xorb x = some rx :=
    Database.mem_pinRows_iff.1 (hperm.mem_iff.1 hxscan)
  have hymem : (y, r) ∈ (scan.filter fun r => r.2.stuck p.time).insertionSort
      Database.byLastAttempt := by
    refine (List.mem_insertionSort _).2 (List.mem_filter.2 ⟨?_, hstuck⟩)
    exact hperm.mem_iff.2 (Database.mem_pinRows_iff.2 hpin)
  -- Otherwise `y` stands before `x`, and a limit that lets `x` through lets `y` through too.
  have hrel : Database.byLastAttempt (x, rx) (y, r) := by
    by_contra hrel
    have hytake := mem_take_of_not_rel (List.pairwise_insertionSort Database.byLastAttempt _) htake
      hymem hrel
    exact hnot ((hattempts y).2 (List.mem_map.2 ⟨_, List.mem_map_of_mem hytake, rfl⟩))
  show age ((p.before.pin .xorb x).bind _) ≤ age ((p.before.pin .xorb y).bind _)
  rw [hxpin, hpin]
  exact age_le_age_iff.2 hrel

theorem stamped {p : Pass} {h : Hash} (hh : p.Attempts h) :
    (p.time : WithBot Nat) ≤ stamp p.after h := by
  obtain ⟨scan, -, -, -, hstamped, -⟩ := p.spec
  obtain ⟨r, now, hpin, hlast, hle⟩ := hstamped h hh
  rw [stamp, hpin, Option.bind_some, hlast]
  exact WithBot.coe_le_coe.2 hle

theorem kept {p : Pass} {h : Hash} (hh : ¬p.Attempts h) :
    p.after.pin .xorb h = p.before.pin .xorb h := by
  obtain ⟨scan, -, -, -, -, hkept⟩ := p.spec
  exact hkept h hh

/-- A pass is a round of a rotation. -/
def round (p : Pass) : Round Hash (WithBot Nat) where
  time := p.time
  before := stamp p.before
  after := stamp p.after
  eligible := p.Eligible
  taken := p.Attempts
  waited _ hh := waited hh
  oldest _ _ hx hy hnot := oldest hx hy hnot
  stamped _ hh := stamped hh
  kept h hh := by rw [stamp, stamp, kept hh]

/-- A row that was passed over is eligible later, too. -/
theorem Then.next {p q : Pass} (h : p.Then q) : p.round.Next q.round := by
  obtain ⟨_, -, hp, -⟩ := p.spec
  obtain ⟨_, -, hq, -⟩ := q.spec
  have htime : p.time ≤ q.time := h.clock _ hp _ hq
  refine ⟨WithBot.coe_le_coe.2 htime, congrArg stamp h.before, ?_⟩
  rintro x ⟨r, hpin, hstuck⟩ hnot
  refine ⟨r, ?_, ?_⟩
  · rw [h.before, kept hnot]
    exact hpin
  · simp only [PinRow.stuck, Bool.and_eq_true] at hstuck ⊢
    refine ⟨⟨hstuck.1.1, ?_⟩, hstuck.2⟩
    cases hlast : r.lastPinAttemptAt with
    | none => rfl
    | some t =>
        have hold := hstuck.1.2
        rw [hlast] at hold
        have hlt : t + stuckThreshold < p.time := of_decide_eq_true hold
        exact decide_eq_true (by omega)

end Pass

/-- If a row is attempted in a pass and again in a later one, every row that was eligible in the
first of the two has been attempted by the end of the second. -/
theorem sweeps_fair {earlier mid later : List Pass} {p q : Pass} {x y : Hash}
    (hruns : (earlier ++ p :: (mid ++ q :: later)).IsChain Pass.Then) (hx : p.Attempts x)
    (hx' : q.Attempts x) (hy : p.Eligible y) : ∃ r ∈ p :: (mid ++ [q]), r.Attempts y := by
  have hbetween : (p :: (mid ++ [q])).IsChain Pass.Then := by
    refine hruns.infix ⟨earlier, later, ?_⟩
    simp
  have hrounds : (p.round :: (mid.map Pass.round ++ [q.round])).IsChain Round.Next := by
    have hmap := (List.isChain_map Pass.round).2 (hbetween.imp fun _ _ h => h.next)
    simpa using hmap
  obtain ⟨r, hr, hry⟩ := Round.fair hrounds hx hx' hy
  have hr : r ∈ (p :: (mid ++ [q])).map Pass.round := by simpa using hr
  obtain ⟨pass, hpass, rfl⟩ := List.mem_map.1 hr
  exact ⟨pass, hpass, hry⟩

/-- Two xorbs without a body. -/
def sampleRows : Database :=
  ((Database.empty.insertPending (Hash.fill 1) 10 []).1.insertPending (Hash.fill 2) 10 []).1

/-- A pass over them from time `t` on: the `SELECT`, two statements for each row, and the shards. -/
def sampleEnvs (t : Nat) (db : Database) : List Env :=
  [.sql t (db.pinRows .xorb), .sql (t + 1) [], .sql (t + 2) [], .sql (t + 3) [], .sql (t + 4) [],
    .sql (t + 5) (db.pinRows .shard)]

def sampleOut (t : Nat) (db : Database) :
    Option (List (Call Op Res) × Database × Except DbError Nat) :=
  reconcileOnce.eval exec (sampleEnvs t db) db

/-- The pass runs to its end and attempts both rows. -/
def sampleCheck (t : Nat) (db : Database) : Bool :=
  (sampleOut t db).any fun out =>
    decide (out.1.length = 6) &&
      (out.1.any fun call => decide (call.op.target = some (.xorb, Hash.fill 1))) &&
      decide ((db.pin .xorb (Hash.fill 2)).map (PinRow.stuck t) = some true)

theorem exists_samplePass {t : Nat} {db : Database} (hcheck : sampleCheck t db = true) :
    ∃ p : Pass, p.before = db ∧ p.envs = sampleEnvs t db ∧
      (sampleOut t db).map (fun out => out.2.1) = some p.after ∧
      p.Attempts (Hash.fill 1) ∧ p.Eligible (Hash.fill 2) := by
  obtain ⟨⟨cs, after, a⟩, hout, hcheck⟩ := (Option.any_eq_true _ _).1 hcheck
  simp only [Bool.and_eq_true, decide_eq_true_eq, List.any_eq_true] at hcheck
  obtain ⟨⟨hlength, hattempts⟩, hstuck⟩ := hcheck
  have hruns := RunsWith.of_eval hout
  rw [hlength] at hruns
  have hclock : ((sampleEnvs t db).filterMap Env.time).Pairwise (· ≤ ·) := by
    show [t, t + 1, t + 2, t + 3, t + 4, t + 5].Pairwise (· ≤ ·)
    simp
  have hfail : ∀ e ∈ sampleEnvs t db, e ≠ .dbError := by
    simp [sampleEnvs]
  refine ⟨⟨db, sampleEnvs t db, cs, after, a, hruns, hfail, hclock⟩, rfl, rfl, ?_, hattempts, ?_⟩
  · rw [hout]
    rfl
  · exact Option.map_eq_some_iff.1 hstuck

def sampleRows₁ : Database :=
  ((sampleOut 0 sampleRows).map fun out => out.2.1).getD sampleRows

/-- Two passes ten minutes apart. -/
theorem sweeps_fair_twice :
    ∃ p q : Pass, p.Then q ∧ p.Attempts (Hash.fill 1) ∧ q.Attempts (Hash.fill 1) ∧
      p.Eligible (Hash.fill 2) ∧ ∃ r ∈ [p, q], r.Attempts (Hash.fill 2) := by
  obtain ⟨p, hp, henvs, hafter, hx, hy⟩ :=
    exists_samplePass (show sampleCheck 0 sampleRows = true by decide +kernel)
  obtain ⟨q, hq, henvs', -, hx', -⟩ :=
    exists_samplePass (show sampleCheck 600000000 sampleRows₁ = true by decide +kernel)
  have hthen : p.Then q := by
    refine ⟨?_, ?_⟩
    · rw [hq, sampleRows₁, hafter]
      rfl
    · rw [Pass.times, Pass.times, henvs, henvs']
      show ∀ t ∈ [0, 1, 2, 3, 4, 5], ∀ t' ∈ [600000000, 600000001, 600000002, 600000003, 600000004,
        600000005], t ≤ t'
      decide
  have hruns : ([] ++ p :: ([] ++ q :: [])).IsChain Pass.Then :=
    List.isChain_cons_cons.2 ⟨hthen, List.isChain_singleton q⟩
  exact ⟨p, q, hthen, hx, hx', hy, sweeps_fair hruns hx hx' hy⟩

end Service
end OpenWeights
