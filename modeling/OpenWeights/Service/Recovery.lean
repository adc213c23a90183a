import OpenWeights.Lib.Typestate
import OpenWeights.Service.Durability
import OpenWeights.Service.Segmentation

/-!
# Recovery — what a successful reconciler pass recovers

A pass that selects a `'pinning'` row and whose Sia calls succeed pins the row if it can find
something to pin: an object id on the row, or the bytes.  For a xorb the bytes are kept in
`xorb_bodies`.  For a shard they are not, and its object id is written together with `'pinned'`, so a
shard that is still `'pinning'` has neither (`shardId_none`).

Only the request that committed a shard ever writes its object id, and it writes its state once; the
automaton `shardRole h` keeps track of that.
-/

namespace OpenWeights
namespace Service

open Lib Db Db.Database OpenWeights.Core Storage

/-! ## Who writes the object id of a shard -/

/-- What a task has to do with the object id of a shard. -/
inductive ShardRole
  | bystander
  /-- The task committed the shard and has not written its state yet. -/
  | committer
  /-- A sweep selected the shard together with an object id. -/
  | holder
  deriving DecidableEq, Repr

namespace ShardRole

def after (h : Hash) (φ : ShardRole) : (o : Op) → Res o → ShardRole
  | .sql (.commitShard h' _ _ _), .ok true => if h' = h then .committer else φ
  | .sql (.setPinState .shard h' _ _), _ => if h' = h then .bystander else φ
  | .sql (.fetchStuck .shard), .ok rows =>
      if rows.any fun row => row.hash = h && row.siaObjectId.isSome then .holder else φ
  | _, _ => φ

def ok (h : Hash) (_ : Request) (φ : ShardRole) : Op → Prop
  | .sql (.setPinState .shard h' state id) => h' = h → φ = .committer ∧ RegularWrite state id
  | .sql (.setPinned .shard h' _) => h' = h → φ = .holder
  | _ => True

end ShardRole

def shardRole (h : Hash) : Typestate ShardRole Request Op Res where
  start := .bystander
  after := ShardRole.after h
  ok := ShardRole.ok h

section Programs

variable {h : Hash} {req : Request} {φ : ShardRole}

/-- An operation that does not change anybody's role. -/
def Op.SkipsShard (h : Hash) : Op → Prop
  | .sql (.commitShard h' _ _ _) => h' ≠ h
  | .sql (.setPinState k h' _ _) => k = .shard → h' ≠ h
  | .sql (.setPinned k h' _) => k = .shard → h' ≠ h
  | .sql (.fetchStuck k) => k ≠ .shard
  | _ => True

theorem Op.SkipsShard.ok {o : Op} (ho : o.SkipsShard h) (req : Request) :
    ShardRole.ok h req φ o := by
  cases o with
  | sql s =>
      cases s with
      | setPinState k h' state id => cases k <;> simp_all [Op.SkipsShard, ShardRole.ok]
      | setPinned k h' id => cases k <;> simp_all [Op.SkipsShard, ShardRole.ok]
      | _ => trivial
  | _ => trivial

theorem Op.SkipsShard.after {o : Op} (ho : o.SkipsShard h) (r : Res o) :
    ShardRole.after h φ o r = φ := by
  unfold ShardRole.after
  split <;> simp_all [Op.SkipsShard]

theorem follows_of_skipsShard {α : Type} {p : Code α} (hp : p.Uses (Op.SkipsShard h)) :
    p.Follows (shardRole h) req (fun φ' _ => φ' = φ) φ :=
  Prog.Follows.of_uses hp (fun _ ho => ho.ok req) (fun _ r ho => ho.after r)

theorem Op.ofXorb.skipsShard {h' : Hash} {boundaries : List Int} {body : Bytes} {o : Op}
    (ho : o.ofXorb h' boundaries body) : o.SkipsShard h := by
  cases o with
  | sql s =>
      cases s with
      | setPinState k h₁ state id =>
          obtain ⟨rfl, -⟩ := ho
          exact fun hk => nomatch hk
      | commitShard h₁ n files terms => exact ho.elim
      | setPinned k h₁ id => exact ho.elim
      | fetchStuck k => exact ho.elim
      | _ => trivial
  | _ => trivial

theorem Op.ofShard.skipsShard {x : Crates} {body : Bytes} {o : Op} (ho : o.ofShard x body)
    (hne : x.sha256 body ≠ h) : o.SkipsShard h := by
  cases o with
  | sql s =>
      cases s with
      | setPinState k h₁ state id =>
          obtain ⟨-, rfl, -⟩ := ho
          exact fun _ => hne
      | commitShard h₁ n files terms =>
          obtain ⟨rfl, -⟩ := ho
          exact hne
      | setPinned k h₁ id => exact ho.elim
      | fetchStuck k => exact ho.elim
      | _ => trivial
  | _ => trivial

theorem follows_leavePinning_shard :
    (leavePinning .shard h).Follows (shardRole h) req (fun φ' _ => φ' = .bystander)
      .committer :=
  ⟨fun _ => ⟨rfl, .inr ⟨rfl, rfl⟩⟩, fun _ => if_pos rfl⟩

theorem follows_pushShard {body : Bytes} :
    (pushShard h body).Follows (shardRole h) req (fun φ' _ => φ' = .bystander) .committer := by
  have hleave : ∀ answer : Except AppError UploadShardResponse,
      (leavePinning .shard h >>= fun _ => pure answer).Follows (shardRole h) req
        (fun φ' _ => φ' = .bystander) .committer := by
    intro answer
    exact follows_leavePinning_shard.bind fun _ _ hφ => hφ
  refine ⟨trivial, ?_⟩
  rintro (_ | (_ | _) | id)
  · exact hleave _
  · exact hleave _
  · exact hleave _
  · refine ⟨fun _ => ⟨rfl, .inl ⟨rfl, rfl⟩⟩, ?_⟩
    rintro (_ | _)
    · exact if_pos rfl
    · exact if_pos rfl

theorem follows_commitShard {body : Bytes} {files : List ParsedFile} {terms : List ParsedTerm} :
    (Core.commitShard h body files terms).Follows (shardRole h) req
      (fun φ' _ => φ' = .bystander) .bystander := by
  refine ⟨trivial, ?_⟩
  rintro (_ | (_ | _))
  · rfl
  · exact ⟨trivial, fun _ => rfl⟩
  · have hcommitter : (shardRole h).after .bystander
        (.sql (.commitShard h body.length files terms)) (.ok true) = .committer := if_pos rfl
    rw [hcommitter]
    exact follows_pushShard

theorem follows_uploadShard_role (x : Crates) (body : Bytes) :
    (uploadShard x body).Follows (shardRole h) req (fun φ' _ => φ' = .bystander) .bystander := by
  by_cases hne : x.sha256 body = h
  · unfold uploadShard
    split
    · rfl
    · split
      · rfl
      · rw [hne]
        -- Nothing before the commit has to do with the object id.
        apply Prog.Follows.perform_bind trivial
        rintro (_ | _)
        · rfl
        apply Prog.Follows.perform_bind trivial
        rintro (_ | present)
        · rfl
        dsimp only
        split
        · rfl
        apply Prog.Follows.perform_bind trivial
        rintro (_ | boundaries)
        · rfl
        apply Prog.Follows.perform_bind trivial
        rintro (_ | _)
        · rfl
        exact follows_commitShard
  · exact follows_of_skipsShard ((uses_uploadShard x body).mono fun _ ho =>
      Op.ofShard.skipsShard ho hne)

/-! ### Sweeps -/

/-- Without an object id there is nothing to pin. -/
theorem Op.OfRow.skipsShard {k : Kind} {row : StuckRow} {o : Op} (ho : o.OfRow k row)
    (hrow : k = .shard → row.hash = h → row.siaObjectId = none) : o.SkipsShard h := by
  cases ho with
  | setPinned id hid =>
      intro hk hh
      have hnone := hrow hk hh
      rw [hid hk] at hnone
      cases hnone
  | _ => trivial

/-- A sweep that holds an object id of the shard may do what a sweep does. -/
theorem follows_of_holder {α : Type} {p : Code α} (hp : p.Uses Op.ofSweep) :
    p.Follows (shardRole h) req (fun φ' _ => φ' = .holder) .holder := by
  refine Prog.Follows.of_uses hp ?_ ?_
  · intro o ho
    cases o with
    | sql s =>
        cases s with
        | setPinState k h' state id => exact ho.elim
        | setPinned k h' id => cases k <;> simp [shardRole, ShardRole.ok]
        | _ => trivial
    | _ => trivial
  · intro o r ho
    change ShardRole.after h .holder o r = .holder
    unfold ShardRole.after
    split
    · exact ho.elim
    · exact ho.elim
    · exact ite_self _
    · rfl

theorem follows_reconcileOnce_role :
    reconcileOnce.Follows (shardRole h) req (fun _ _ => True) .bystander := by
  apply Prog.Follows.perform_bind trivial
  rintro (_ | xorbRows)
  · trivial
  · have hxorbs : (sweepRows reconcileXorbRow xorbRows).Uses (Op.SkipsShard h) :=
      uses_sweepRows fun row _ => (uses_reconcileXorbRow row).mono fun _ ho => ho.skipsShard nofun
    have hstart : (shardRole h).after .bystander (.sql (.fetchStuck .xorb)) (.ok xorbRows) =
        .bystander := rfl
    rw [hstart]
    refine (follows_of_skipsShard hxorbs).bind ?_
    rintro φ' handled rfl
    apply Prog.Follows.perform_bind trivial
    rintro (_ | shardRows)
    · trivial
    · by_cases hid : shardRows.any fun row => row.hash = h && row.siaObjectId.isSome
      · have hholder : (shardRole h).after .bystander (.sql (.fetchStuck .shard))
            (.ok shardRows) = .holder := if_pos hid
        rw [hholder]
        have hsweep : (sweepRows reconcileShardRow shardRows).Uses Op.ofSweep :=
          uses_sweepRows fun row _ => (uses_reconcileShardRow row).mono fun _ ho => ho.ofSweep
        refine (follows_of_holder hsweep).bind ?_
        exact fun _ _ _ => trivial
      · have hkeep : (shardRole h).after .bystander (.sql (.fetchStuck .shard))
            (.ok shardRows) = .bystander := if_neg hid
        have hnone : ∀ row ∈ shardRows, row.hash = h → row.siaObjectId = none := by
          intro row hrow hh
          by_contra hsome
          refine hid (List.any_eq_true.2 ⟨row, hrow, ?_⟩)
          simpa [hh, Option.isSome_iff_ne_none] using hsome
        rw [hkeep]
        have hrows : (sweepRows reconcileShardRow shardRows).Uses (Op.SkipsShard h) :=
          uses_sweepRows fun row hrow =>
            (uses_reconcileShardRow row).mono fun _ ho => ho.skipsShard fun _ => hnone row hrow
        exact (follows_of_skipsShard hrows).bind fun _ _ _ => trivial

theorem follows_code_role (x : Crates) (req : Request) :
    (code x req).Follows (shardRole h) req (fun _ _ => True) .bystander := by
  cases req with
  | uploadXorb pathPrefix hashSuffix body =>
      have huses : (uploadXorb x pathPrefix hashSuffix body).Uses (Op.SkipsShard h) := by
        refine (uses_uploadXorb x pathPrefix hashSuffix body).mono ?_
        rintro o ⟨_, _, -, ho⟩
        exact ho.skipsShard
      exact (follows_of_skipsShard huses).bind fun _ _ _ => trivial
  | uploadShard body => exact (follows_uploadShard_role x body).bind fun _ _ _ => trivial
  | sweep => exact follows_reconcileOnce_role.bind fun _ _ _ => trivial

end Programs

/-! ## A shard that is still `'pinning'` has no object id -/

/-- The shard `h` and the roles of the tasks that are not dropped. -/
structure ShardLedger (h : Hash) (db : Database) (roles : Nat → Option ShardRole) : Prop where
  committer : ∀ i, roles i = some .committer →
    ∃ r, db.pin .shard h = some r ∧ r.siaObjectId = none
  once : ∀ i j, roles i = some .committer → roles j = some .committer → i = j
  holder : ∀ i, roles i ≠ some .holder
  pinning : ∀ r, db.pin .shard h = some r → r.pinState = .pinning → r.siaObjectId = none

section ShardLedgerRules

variable {h : Hash} {db db' : Database} {i : Nat} {req : Request} {φ φ' : ShardRole}
  {roles : Nat → Option ShardRole} {e : Env}

/-- The new role of a task is its old one, or it stands by. -/
theorem ShardLedger.update (hinv : ShardLedger h db roles) (hi : roles i = some φ)
    (hφ : φ' = φ ∨ φ' = .bystander)
    (hid : ∀ r, db.pin .shard h = some r → r.siaObjectId = none →
      (∃ j, Function.update roles i (some φ') j = some .committer) →
      ∃ r', db'.pin .shard h = some r' ∧ r'.siaObjectId = none)
    (hpinning : ∀ r, db'.pin .shard h = some r → r.pinState = .pinning → r.siaObjectId = none) :
    ShardLedger h db' (Function.update roles i (some φ')) := by
  -- A committer after the step was one before it.
  have hold : ∀ j ψ, ψ ≠ .bystander → Function.update roles i (some φ') j = some ψ →
      roles j = some ψ := by
    intro j ψ hψ hj
    by_cases hji : j = i
    · subst hji
      have hEq : φ' = ψ := by simpa using hj
      rcases hφ with hφ | hφ
      · rw [hi, ← hφ, hEq]
      · exact absurd (hEq.symm.trans hφ) hψ
    · simpa [hji] using hj
  refine ⟨?_, ?_, ?_, hpinning⟩
  · intro j hj
    rcases hinv.committer j (hold j _ (by simp) hj) with ⟨r, hr, hnone⟩
    exact hid r hr hnone ⟨j, hj⟩
  · intro j k hj hk
    exact hinv.once j k (hold j _ (by simp) hj) (hold k _ (by simp) hk)
  · intro j hj
    exact hinv.holder j (hold j _ (by simp) hj)

/-- The pin columns of the shard are the same. -/
theorem ShardLedger.frame (hinv : ShardLedger h db roles) (hi : roles i = some φ)
    (hφ : φ' = φ ∨ φ' = .bystander) (hrow : db'.pin .shard h = db.pin .shard h) :
    ShardLedger h db' (Function.update roles i (some φ')) := by
  refine hinv.update hi hφ ?_ ?_
  · intro r hr hnone _
    exact ⟨r, hrow.trans hr, hnone⟩
  · intro r hr
    rw [hrow] at hr
    exact hinv.pinning r hr

theorem ShardLedger.op_commit {n : Nat} {files : List ParsedFile} {terms : List ParsedTerm}
    {r : Res (.sql (.commitShard h n files terms))} (hinv : ShardLedger h db roles)
    (hi : roles i = some φ) (he : exec (.sql (.commitShard h n files terms)) e db = some (db', r)) :
    ShardLedger h db' (Function.update roles i
      (some (ShardRole.after h φ (.sql (.commitShard h n files terms)) r))) := by
  rcases exec_cases he with ⟨rfl, herr⟩ | ⟨now, scan, s, rs, -, hcall, hs⟩
  · have hEq := herr _ rfl
    subst hEq
    cases he
    exact hinv.frame hi (.inl rfl) rfl
  · cases hcall
    simp only [Stmt.exec] at hs
    split at hs
    · -- The row is new, so nobody else has committed it.
      rename_i db₁ hok
      obtain ⟨hdb, rfl⟩ := Prod.mk.inj (Option.some.inj hs)
      obtain ⟨hnone, -, rfl⟩ := insertShardWithReconstruction_ok hok
      have hrow : db'.pin .shard h = some (PinRow.fresh n) := by
        rw [← hdb]
        simp [Database.pin, hnone]
      have hnocommitter : ∀ j, roles j ≠ some .committer := by
        intro j hj
        rcases hinv.committer j hj with ⟨r, hr, -⟩
        rw [Database.pin, hnone] at hr
        cases hr
      have hafter : ShardRole.after h φ (.sql (.commitShard h n files terms)) (.ok true) =
          .committer := if_pos rfl
      rw [hafter]
      refine ⟨?_, ?_, ?_, ?_⟩
      · intro j _
        exact ⟨_, hrow, rfl⟩
      · have hself : ∀ j, Function.update roles i (some .committer) j = some .committer →
            j = i := by
          intro j hj
          by_contra hji
          exact hnocommitter j (by simpa [hji] using hj)
        intro j k hj hk
        rw [hself j hj, hself k hk]
      · intro j hj
        by_cases hji : j = i
        · subst hji
          simp at hj
        · exact hinv.holder j (by simpa [hji] using hj)
      · intro r hr _
        rw [hrow] at hr
        cases hr
        rfl
    · rename_i db₁ hok
      obtain ⟨rfl, rfl⟩ := Prod.mk.inj (Option.some.inj hs)
      rw [insertShardWithReconstruction_dedup hok]
      exact hinv.frame hi (.inl rfl) rfl
    · obtain ⟨rfl, rfl⟩ := Prod.mk.inj (Option.some.inj hs)
      exact hinv.frame hi (.inl rfl) rfl

/-- The one state write of the committer. -/
theorem ShardLedger.op_setPinState {state : XorbPinState} {id : Option Bytes}
    {r : Res (.sql (.setPinState .shard h state id))} (hinv : ShardLedger h db roles)
    (hi : roles i = some .committer) (hwrite : RegularWrite state id)
    (he : exec (.sql (.setPinState .shard h state id)) e db = some (db', r)) :
    ShardLedger h db' (Function.update roles i (some .bystander)) := by
  rcases exec_cases he with ⟨rfl, -⟩ | ⟨now, scan, s, rs, -, hcall, hs⟩
  · exact hinv.frame hi (.inr rfl) rfl
  · cases hcall
    rcases hinv.committer i hi with ⟨row, hrow, hnone⟩
    have hrow' : db'.pin .shard h = some (row.setPinState state id now) := by
      obtain ⟨rfl, -⟩ := Prod.mk.inj (Option.some.inj hs)
      simp [Database.setPinState, hrow]
    refine hinv.update hi (.inr rfl) ?_ ?_
    · -- There is no other committer.
      rintro _ _ _ ⟨j, hj⟩
      have hji : j ≠ i := by
        rintro rfl
        simp at hj
      exact absurd (hinv.once j i (by simpa [hji] using hj) hi) hji
    · intro r' hr' hpinning
      rw [hrow'] at hr'
      cases hr'
      rcases hwrite with ⟨rfl, -⟩ | ⟨rfl, rfl⟩
      · cases hpinning
      · simpa [PinRow.setPinState] using hnone

/-- What a sweep selects has no object id. -/
theorem ShardLedger.op_fetchStuck {r : Res (.sql (.fetchStuck .shard))}
    (hinv : ShardLedger h db roles) (hi : roles i = some φ)
    (hstate : ∀ row, db.pin .shard h = some row → row.pinState ≠ .uploading)
    (he : exec (.sql (.fetchStuck .shard)) e db = some (db', r)) :
    ShardLedger h db' (Function.update roles i
      (some (ShardRole.after h φ (.sql (.fetchStuck .shard)) r))) := by
  have hdb : db' = db := by
    rcases exec_cases he with ⟨hEq, -⟩ | ⟨now, scan, s, rs, -, hcall, hs⟩
    · exact hEq
    · cases hcall
      simp only [Stmt.exec] at hs
      split at hs
      · exact (Prod.mk.inj (Option.some.inj hs)).1.symm
      · cases hs
  subst hdb
  refine hinv.frame hi (.inl ?_) rfl
  cases r with
  | error err => rfl
  | ok rows =>
      refine if_neg ?_
      intro hany
      rcases List.any_eq_true.1 hany with ⟨row, hmem, hid⟩
      obtain ⟨-, now, scan, -, hperm, rfl⟩ := fetchStuck_exec he
      rcases pin_of_fetchStuck hperm hmem with ⟨r, hr, hstuck, hrow⟩
      have hid : row.hash = h ∧ row.siaObjectId.isSome = true := by simpa using hid
      rw [hid.1] at hr
      have hpinning : r.pinState = .pinning := by
        simp only [PinRow.stuck, Bool.and_eq_true, decide_eq_true_eq] at hstuck
        exact hstuck.1.1.resolve_left (hstate r hr)
      have hnone : row.siaObjectId = none := by
        rw [hrow]
        exact hinv.pinning r hr hpinning
      simp [hnone] at hid

/-- An operation that leaves the roles alone writes no object id. -/
theorem ShardLedger.op_skips {o : Op} {r : Res o} (hinv : ShardLedger h db roles)
    (hi : roles i = some φ) (hskip : o.SkipsShard h) (he : exec o e db = some (db', r)) :
    ShardLedger h db' (Function.update roles i (some (ShardRole.after h φ o r))) := by
  have hafter : ShardRole.after h φ o r = φ ∨ ShardRole.after h φ o r = .bystander :=
    .inl (hskip.after r)
  rcases exec_cases he with ⟨rfl, -⟩ | ⟨now, scan, s, rs, -, hcall, hs⟩
  · exact hinv.frame hi hafter rfl
  · cases hcall
    rcases pin_exec hs .shard h with hmap | ⟨-, n, hcreates, -⟩
    · cases hrow : db.pin .shard h with
      | none =>
          rw [hrow] at hmap
          exact hinv.frame hi hafter (hmap.trans hrow.symm)
      | some row =>
          rw [hrow, Option.map_some] at hmap
          -- The remaining updates keep the object id and never lead to `'pinning'`.
          have hkeep : ∀ row', db'.pin .shard h = some row' →
              row'.siaObjectId = row.siaObjectId → (row'.pinState = .pinning →
                row.pinState = .pinning) →
              ShardLedger h db' (Function.update roles i
                (some (ShardRole.after h φ (.sql s) rs))) := by
            intro row' hrow' hid hstate
            refine hinv.update hi hafter ?_ ?_
            · intro r₀ hr₀ hnone _
              rw [hrow] at hr₀
              cases hr₀
              exact ⟨row', hrow', hid.trans hnone⟩
            · intro r₀ hr₀ hpinning
              rw [hrow'] at hr₀
              cases hr₀
              rw [hid]
              exact hinv.pinning row hrow (hstate hpinning)
          have hupdate := s.rowUpdate now .shard h row
          generalize s.pinEffect now .shard h row = row' at hupdate hmap
          cases hupdate with
          | keep => exact hkeep row hmap rfl id
          | setPinState state id hEq =>
              subst hEq
              exact absurd rfl (hskip rfl)
          | setPinned id hEq =>
              subst hEq
              exact absurd rfl (hskip rfl)
          | touchAttempt hEq => exact hkeep _ hmap rfl id
          | bumpAttempt hEq => exact hkeep _ hmap rfl id
          | orphan hEq => exact hkeep _ hmap rfl fun hp => nomatch hp
          | revive hashes hEq hk _ => cases hk
    · cases s with
      | commitShard h' n' files terms =>
          obtain ⟨rfl, -⟩ := hcreates
          exact absurd rfl hskip
      | _ => exact hcreates.elim

theorem ShardLedger.op (req : Request) {o : Op} {r : Res o} (hinv : ShardLedger h db roles)
    (hi : roles i = some φ) (hok : ShardRole.ok h req φ o)
    (hstate : ∀ row, db.pin .shard h = some row → row.pinState ≠ .uploading)
    (he : exec o e db = some (db', r)) :
    ShardLedger h db' (Function.update roles i (some (ShardRole.after h φ o r))) := by
  by_cases hskip : o.SkipsShard h
  · exact hinv.op_skips hi hskip he
  cases o with
  | sql s =>
      cases s with
      | commitShard h' n files terms =>
          obtain rfl : h' = h := by simpa [Op.SkipsShard] using hskip
          exact hinv.op_commit hi he
      | setPinState k h' state id =>
          obtain ⟨rfl, rfl⟩ : k = .shard ∧ h' = h := by simpa [Op.SkipsShard] using hskip
          obtain ⟨rfl, hwrite⟩ := hok rfl
          have hafter : ShardRole.after h' .committer (.sql (.setPinState .shard h' state id)) r =
              .bystander := if_pos rfl
          rw [hafter]
          exact hinv.op_setPinState hi hwrite he
      | setPinned k h' id =>
          obtain ⟨rfl, rfl⟩ : k = .shard ∧ h' = h := by simpa [Op.SkipsShard] using hskip
          have hholder := hok rfl
          subst hholder
          exact absurd hi (hinv.holder i)
      | fetchStuck k =>
          obtain rfl : k = .shard := by simpa [Op.SkipsShard] using hskip
          exact hinv.op_fetchStuck hi hstate he
      | _ => exact absurd trivial hskip
  | _ => exact absurd trivial hskip

end ShardLedgerRules

namespace State

variable {x : Crates} {h : Hash} {c c' : State} {a : Step} {allow : State → Step → Prop}

def roles (h : Hash) (c : State) (i : Nat) : Option ShardRole :=
  match c.tasks i with
  | some ⟨_, some _⟩ => some ((shardRole h).phaseOf i c.log)
  | _ => none

theorem shardLedger_next (hreach : Reachable x allow c) (hconf : Conforms (shardRole h) c)
    (hs : c.next x a = some c') (hinv : ShardLedger h c.store (c.roles h)) :
    ShardLedger h c'.store (c'.roles h) := by
  rcases Pool.step_cases hs with ⟨i, req, rfl, ht, rfl⟩ |
    ⟨i, e, req, o, k, db, r, rfl, ht, he, hc'⟩ | ⟨i, req, p, rfl, ht, rfl⟩
  · -- A new task stands by.
    have hphase : (shardRole h).phaseOf i c.log = .bystander :=
      Typestate.phaseOf_eq_start (hconf.unused i ht)
    have hold : ∀ j φ, φ ≠ .bystander →
        roles h (c.setTask i ⟨req, some (code x req)⟩) j = some φ → c.roles h j = some φ := by
      intro j φ hφ hj
      by_cases hji : j = i
      · subst hji
        have hEq : (shardRole h).phaseOf j c.log = φ := by
          simpa [roles, Pool.setTask] using hj
        exact absurd (hEq.symm.trans hphase) hφ
      · simpa [roles, Pool.setTask, hji] using hj
    exact
      { committer := fun j hj => hinv.committer j (hold j _ (by simp) hj)
        once := fun j k hj hk =>
          hinv.once j k (hold j _ (by simp) hj) (hold k _ (by simp) hk)
        holder := fun j hj => hinv.holder j (hold j _ (by simp) hj)
        pinning := hinv.pinning }
  · have hi : c.roles h i = some ((shardRole h).phaseOf i c.log) := by simp [roles, ht]
    have hok := (hconf.follows i req _ ht).1
    have hop := hinv.op req hi hok (fun row hrow => hreach.not_uploading hrow) he
    have hroles : c'.roles h = Function.update (c.roles h) i
        (some (ShardRole.after h ((shardRole h).phaseOf i c.log) o r)) := by
      funext j
      rw [hc']
      by_cases hji : j = i
      · subst hji
        simp [roles, shardRole]
      · simp [roles, hji, Typestate.phaseOf_cons_of_ne hji]
    have hstore : c'.store = db := by rw [hc']
    rw [hroles, hstore]
    exact hop
  · -- Dropping a task removes its role.
    have hold : ∀ j φ, roles h (c.setTask i ⟨req, none⟩) j = some φ →
        c.roles h j = some φ := by
      intro j φ hj
      by_cases hji : j = i
      · subst hji
        simp [roles, Pool.setTask] at hj
      · simpa [roles, Pool.setTask, hji] using hj
    exact
      { committer := fun j hj => hinv.committer j (hold j _ hj)
        once := fun j k hj hk => hinv.once j k (hold j _ hj) (hold k _ hk)
        holder := fun j hj => hinv.holder j (hold j _ hj)
        pinning := hinv.pinning }

theorem Reachable.shardLedger (hreach : Reachable x allow c) :
    ShardLedger h c.store (c.roles h) := by
  have hall : Reachable x allow c ∧ ShardLedger h c.store (c.roles h) := by
    apply hreach.invariant (I := fun c : State =>
      Reachable x allow c ∧ ShardLedger h c.store (c.roles h))
    · refine ⟨.refl _, ?_, ?_, ?_, ?_⟩
      · intro i hi
        cases hi
      · intro i j hi
        cases hi
      · intro i hi
        cases hi
      · intro r hr
        cases hr
    · intro c₁ a c₂ hinv ha hs
      have hconf : Conforms (shardRole h) c₁ :=
        hinv.1.conforms (Conforms.init _ _) (follows_code_role x)
      exact ⟨hinv.1.tail ha hs, shardLedger_next hinv.1 hconf hs hinv.2⟩
  exact hall.2

/-- A shard that is still `'pinning'` has no object id. -/
theorem Reachable.shardId_none (hreach : Reachable x allow c) {r : PinRow}
    (hr : c.store.pin .shard h = some r) (hpinning : r.pinState = .pinning) :
    r.siaObjectId = none :=
  hreach.shardLedger.pinning r hr hpinning

/-- The shard is there but not pinned, and the request that committed it has written its state. -/
def Abandoned (h : Hash) (c : State) : Prop :=
  (∀ i, c.roles h i ≠ some .committer) ∧
    ∃ r, c.store.pin .shard h = some r ∧ r.pinState ≠ .pinned

/-- Only the committer, or a sweep with an object id, could still pin the shard. -/
theorem abandoned_next (hreach : Reachable x allow c) (hs : c.next x a = some c')
    (hab : Abandoned h c) : Abandoned h c' := by
  have hconf : Conforms (shardRole h) c :=
    hreach.conforms (Conforms.init _ _) (follows_code_role x)
  have hholder := hreach.shardLedger (h := h).holder
  rcases hab with ⟨hleft, r, hr, hunpinned⟩
  have hrow : ∃ r', c'.store.pin .shard h = some r' ∧ r'.pinState ≠ .pinned := by
    rcases pin_next hs hr with hkeep | ⟨i, now, scan, s, rfl, hp, heffect⟩
    · exact ⟨r, hkeep, hunpinned⟩
    · refine ⟨_, heffect, ?_⟩
      rcases pending_eq_some hp with ⟨req, k, ht⟩
      have hok : ShardRole.ok h req ((shardRole h).phaseOf i c.log) (.sql s) :=
        (hconf.follows i req _ ht).1
      have hrole : c.roles h i = some ((shardRole h).phaseOf i c.log) := by simp [roles, ht]
      have hupdate := s.rowUpdate now .shard h r
      generalize s.pinEffect now .shard h r = r' at hupdate
      cases hupdate with
      | keep => exact hunpinned
      | setPinState state id hEq =>
          subst hEq
          exact absurd (hrole.trans (congrArg some (hok rfl).1)) (hleft i)
      | setPinned id hEq =>
          subst hEq
          exact absurd (hrole.trans (congrArg some (hok rfl))) (hholder i)
      | touchAttempt _ => exact hunpinned
      | bumpAttempt _ => exact hunpinned
      | orphan _ => simp [PinRow.orphan]
      | revive hashes _ hk _ => cases hk
  refine ⟨?_, hrow⟩
  intro j hj
  -- A committer after the step would have committed just now, but the row was there already.
  rcases Pool.step_cases hs with ⟨i, req, rfl, ht, rfl⟩ |
    ⟨i, e, req, o, k, db, res, rfl, ht, he, hc'⟩ | ⟨i, req, p, rfl, ht, rfl⟩
  · by_cases hji : j = i
    · subst hji
      have hphase : (shardRole h).phaseOf j c.log = .bystander :=
        Typestate.phaseOf_eq_start (hconf.unused j ht)
      simp [roles, Pool.setTask, hphase] at hj
    · exact hleft j (by simpa [roles, Pool.setTask, hji] using hj)
  · by_cases hji : j = i
    · subst hji
      have hrole : c.roles h j = some ((shardRole h).phaseOf j c.log) := by simp [roles, ht]
      have hafter : ShardRole.after h ((shardRole h).phaseOf j c.log) o res = .committer := by
        simpa [hc', roles, shardRole] using hj
      unfold ShardRole.after at hafter
      split at hafter
      · rename_i h' n files terms
        by_cases hh : h' = h
        · subst hh
          rcases exec_cases he with ⟨-, herr⟩ | ⟨now, scan, s, rs, -, hcall, hexec⟩
          · have hEq := herr _ rfl
            subst hEq
            cases he
          · cases hcall
            simp only [Stmt.exec] at hexec
            split at hexec
            · rename_i db₁ hok
              have hnone := (insertShardWithReconstruction_ok hok).1
              rw [Database.pin, hnone] at hr
              cases hr
            · cases hexec
            · cases hexec
        · rw [if_neg hh] at hafter
          exact hleft j (hrole.trans (congrArg some hafter))
      · split at hafter
        · cases hafter
        · exact hleft j (hrole.trans (congrArg some hafter))
      · split at hafter
        · cases hafter
        · exact hleft j (hrole.trans (congrArg some hafter))
      · exact hleft j (hrole.trans (congrArg some hafter))
    · refine hleft j ?_
      simpa [hc', roles, hji, Typestate.phaseOf_cons_of_ne hji] using hj
  · by_cases hji : j = i
    · subst hji
      simp [roles, Pool.setTask] at hj
    · exact hleft j (by simpa [roles, Pool.setTask, hji] using hj)

/-- A shard whose upload gave up is never pinned, whatever happens later. -/
theorem abandoned_forever (hreach : Reachable x allow c) (hab : Abandoned h c)
    (hlater : Reaches (code x) exec anyStep c c') : Abandoned h c' := by
  have hany : Reachable x anyStep c := hreach.mono fun _ _ _ => trivial
  have hboth : Reachable x anyStep c' ∧ Abandoned h c' := by
    apply hlater.invariant (I := fun c : State => Reachable x anyStep c ∧ Abandoned h c)
    · exact ⟨hany, hab⟩
    · intro c₁ a c₂ hinv ha hs
      exact ⟨hinv.1.tail ha hs, abandoned_next hinv.1 hs hinv.2⟩
  exact hboth.2

end State

/-! ## One pass, run alone -/

/-- The row is `'pinned'` and names its object. -/
def Recovered (db : Database) (k : Kind) (h : Hash) : Prop :=
  ∃ r id, db.pin k h = some r ∧ r.pinState = .pinned ∧ r.siaObjectId = some id

def SelectedBy (cs : List (Call Op Res)) (k : Kind) (h : Hash) : Prop :=
  ∃ rows, (⟨.sql (.fetchStuck k), .ok rows⟩ : Call Op Res) ∈ cs ∧ h ∈ rows.map StuckRow.hash

/-- The call succeeded, if it was a Sia call for the row, a load of its body or its final state
write. -/
def SucceedsFor (k : Kind) (h : Hash) : Call Op Res → Prop
  | ⟨.uploadAndPin k' h' _, answer⟩ => k' = k → h' = h → ∃ id, answer = .ok (.ok id)
  | ⟨.pinOnly k' h' _, answer⟩ => k' = k → h' = h → answer = .ok (.ok ())
  | ⟨.sql (.loadXorbBody h'), reply⟩ => h' = h → ∃ body, reply = .ok body
  | ⟨.sql (.setPinned k' h' _), reply⟩ => k' = k → h' = h → reply = .ok ()
  | _ => True

/-- The operation does not write the row, and selects nothing. -/
def Op.KeepsRow (k : Kind) (h : Hash) : Op → Prop
  | .sql (.fetchStuck _) => False
  | .sql s => ∀ now r, s.pinEffect now k h r = r
  | _ => True

section Pass

variable {k : Kind} {h : Hash} {db db' : Database} {r : PinRow} {cs : List (Call Op Res)}

theorem Op.KeepsRow.exec {o : Op} {e : Env} {res : Res o} (ho : o.KeepsRow k h)
    (he : exec o e db = some (db', res)) (hr : db.pin k h = some r) : db'.pin k h = some r := by
  rcases exec_cases he with ⟨rfl, -⟩ | ⟨now, scan, s, rs, -, hcall, hs⟩
  · exact hr
  · cases hcall
    have hkeep : s.pinEffect now k h r = r := by
      cases s with
      | fetchStuck k' => exact ho.elim
      | _ => exact ho now r
    rcases pin_exec hs k h with hmap | ⟨hnone, -⟩
    · rw [hmap, hr, Option.map_some, hkeep]
    · rw [hr] at hnone
      cases hnone

/-- A program that does not write the row. -/
theorem pin_of_runs {α : Type} {p : Code α} {a : α} (hrun : Runs exec p db cs db' a)
    (hp : p.Uses (Op.KeepsRow k h)) (hr : db.pin k h = some r) : db'.pin k h = some r :=
  hrun.invariant (I := fun db : Database => db.pin k h = some r) hp
    (fun _ _ _ _ _ ho he hr => ho.exec he hr) hr

theorem hasBody_of_runs {α : Type} {p : Code α} {a : α} (hrun : Runs exec p db cs db' a)
    (hbody : HasBody db h) : HasBody db' h :=
  hrun.invariant (I := fun db : Database => HasBody db h) p.uses_true
    (fun _ _ _ _ _ _ he hbody => hasBody_exec_op he hbody) hbody

/-- The work on another row. -/
theorem Op.OfRow.keepsRow {k' : Kind} {row : StuckRow} {o : Op} (ho : o.OfRow k' row)
    (hne : ¬(k = k' ∧ h = row.hash)) : o.KeepsRow k h := by
  cases ho with
  | pinOnly id hid => trivial
  | loadXorbBody hk => exact fun _ _ => rfl
  | uploadAndPin bytes hk => trivial
  | setPinned id hid => exact fun _ _ => if_neg hne
  | touchAttempt => exact fun _ _ => if_neg hne
  | bumpAttempt => exact fun _ _ => if_neg hne
  | orphan => exact fun _ _ => if_neg hne

theorem keepsRow_reconcileXorbRow {row : StuckRow} (hne : ¬(k = .xorb ∧ h = row.hash)) :
    (reconcileXorbRow row).Uses (Op.KeepsRow k h) :=
  (uses_reconcileXorbRow row).mono fun _ ho => ho.keepsRow hne

theorem keepsRow_reconcileShardRow {row : StuckRow} (hne : ¬(k = .shard ∧ h = row.hash)) :
    (reconcileShardRow row).Uses (Op.KeepsRow k h) :=
  (uses_reconcileShardRow row).mono fun _ ho => ho.keepsRow hne

/-- The final state write pins the row. -/
theorem recovered_of_setPinnedRow {id : Bytes} {ans : Except DbError Bool}
    (hrun : Runs exec (setPinnedRow k h id) db cs db' ans) (hr : db.pin k h = some r)
    (hpinning : r.pinState = .pinning) (hsucceeds : ∀ call ∈ cs, SucceedsFor k h call) :
    Recovered db' k h := by
  rcases hrun.call_inv with ⟨e, db₁, reply, cs', he, rfl, hrest⟩
  have hok : reply = .ok () := hsucceeds _ List.mem_cons_self rfl rfl
  subst hok
  obtain ⟨-, rfl, -⟩ := hrest.done_inv
  rcases exec_cases he with ⟨-, herr⟩ | ⟨now, scan, s, rs, -, hcall, hs⟩
  · have hEq := herr _ rfl
    subst hEq
    cases he
  · cases hcall
    have hrow' : db'.pin k h = some (r.setPinned id now) := by
      obtain ⟨rfl, -⟩ := Prod.mk.inj (Option.some.inj hs)
      simp [Database.setPinned, hr]
    cases hid : r.siaObjectId with
    | none => exact ⟨_, id, hrow', by simp [PinRow.setPinned, hpinning, hid]⟩
    | some old => exact ⟨_, old, hrow', by simp [PinRow.setPinned, hpinning, hid]⟩

theorem store_of_sia {o : Op} {e : Env} {res : Res o} (ho : ∀ s, o ≠ .sql s)
    (he : exec o e db = some (db', res)) : db' = db := by
  rcases exec_cases he with ⟨hEq, -⟩ | ⟨now, scan, s, rs, -, hcall, -⟩
  · exact hEq
  · cases hcall
    exact absurd rfl (ho s)

/-- A selected xorb with its body is recovered. -/
theorem recovered_of_reconcileXorbRow {ans : Except DbError Bool}
    (hrun : Runs exec (reconcileXorbRow (StuckRow.of h r)) db cs db' ans)
    (hr : db.pin .xorb h = some r) (hpinning : r.pinState = .pinning) (hbody : HasBody db h)
    (hsucceeds : ∀ call ∈ cs, SucceedsFor .xorb h call) : Recovered db' .xorb h := by
  have hstate : (StuckRow.of h r).pinState ≠ .uploading := by simp [StuckRow.of, hpinning]
  unfold reconcileXorbRow at hrun
  rw [if_neg hstate] at hrun
  cases hid : r.siaObjectId with
  -- The row has an id: it is pinned under it.
  | some oid =>
      simp only [StuckRow.of, hid] at hrun
      rcases hrun.call_inv with ⟨e, db₁, answer, cs', he, rfl, hrest⟩
      have hok : answer = .ok (.ok ()) := hsucceeds _ List.mem_cons_self rfl rfl
      subst hok
      have hdb := store_of_sia (by simp) he
      subst hdb
      exact recovered_of_setPinnedRow hrest hr hpinning fun call hcall =>
        hsucceeds call (List.mem_cons_of_mem _ hcall)
  -- No id yet: the body is uploaded again, and the row pinned under the new one.
  | none =>
      simp only [StuckRow.of, hid] at hrun
      rcases hrun.call_inv with ⟨e, db₁, reply, cs', he, rfl, hrest⟩
      -- The body is loaded: `hbody` says there is one, and the statement did not fail.
      have hload : db₁ = db ∧ ∃ bytes, reply = .ok (some bytes) := by
        rcases hsucceeds _ List.mem_cons_self rfl with ⟨body, hreply⟩
        rcases exec_cases he with ⟨-, herr⟩ | ⟨now, scan, s, rs, -, hcall, hs⟩
        · have hEq := herr _ rfl
          subst hEq
          cases he
          cases hreply
        · cases hcall
          rcases Option.isSome_iff_exists.1 hbody with ⟨bytes, hbytes⟩
          obtain ⟨rfl, rfl⟩ := Prod.mk.inj (Option.some.inj hs)
          exact ⟨rfl, bytes, by rw [Database.loadXorbBody, hbytes]⟩
      obtain ⟨rfl, bytes, rfl⟩ := hload
      rcases Runs.call_inv hrest with ⟨e', db₂, answer, cs'', he', rfl, hrest'⟩
      have hmem : ∀ call ∈ cs'', SucceedsFor .xorb h call := by
        intro call hcall
        exact hsucceeds call (List.mem_cons_of_mem _ (List.mem_cons_of_mem _ hcall))
      have huploaded : ∃ id, answer = .ok (.ok id) :=
        hsucceeds _ (List.mem_cons_of_mem _ List.mem_cons_self) rfl rfl
      obtain ⟨id, rfl⟩ := huploaded
      have hdb := store_of_sia (by simp) he'
      subst hdb
      exact recovered_of_setPinnedRow hrest' hr hpinning hmem

/-- A selected shard without object id is counted down, whatever Sia does. -/
theorem not_pinned_of_reconcileShardRow {ans : Except DbError Bool}
    (hrun : Runs exec (reconcileShardRow (StuckRow.of h r)) db cs db' ans)
    (hr : db.pin .shard h = some r) (hpinning : r.pinState = .pinning)
    (hid : r.siaObjectId = none) :
    ∃ r', db'.pin .shard h = some r' ∧ r'.pinState ≠ .pinned := by
  have hstate : (StuckRow.of h r).pinState ≠ .uploading := by simp [StuckRow.of, hpinning]
  unfold reconcileShardRow at hrun
  rw [if_neg hstate] at hrun
  simp only [StuckRow.of, hid] at hrun
  -- Both writes of `bump_shard_attempt` for a permanent error keep the row unpinned.
  have hwrite : ∀ s : Stmt, (∀ now r', r'.pinState = .pinning →
      (s.pinEffect now .shard h r').pinState ≠ .pinned) →
      ∀ e db₁ reply, exec (.sql s) e db = some (db₁, reply) →
        ∃ r', db₁.pin .shard h = some r' ∧ r'.pinState ≠ .pinned := by
    intro s heffect e db₁ reply he
    rcases exec_cases he with ⟨rfl, -⟩ | ⟨now, scan, s', rs, -, hcall, hs⟩
    · exact ⟨r, hr, by simp [hpinning]⟩
    · cases hcall
      rcases pin_exec hs .shard h with hmap | ⟨hnone, -⟩
      · exact ⟨_, by rw [hmap, hr, Option.map_some], heffect now r hpinning⟩
      · rw [hr] at hnone
        cases hnone
  have hbump : ∀ now r', r'.pinState = .pinning →
      ((Stmt.bumpAttempt .shard h).pinEffect now .shard h r').pinState ≠ .pinned := by
    intro now r' hp
    simp [Stmt.pinEffect, PinRow.bumpAttempt, hp]
  have horphan : ∀ now r', r'.pinState = .pinning →
      ((Stmt.orphan .shard h).pinEffect now .shard h r').pinState ≠ .pinned := by
    intro now r' hp
    simp [Stmt.pinEffect, PinRow.orphan]
  unfold bumpShardAttempt Storage.bumpAttempt at hrun
  simp only [isTransient] at hrun
  by_cases hcap : r.pinAttempts + 1 ≥ maxPinAttempts
  · simp only [hcap, if_true] at hrun
    rcases Runs.call_inv hrun with ⟨e, db₁, reply, cs', he, rfl, hrest⟩
    obtain ⟨-, rfl, -⟩ := Runs.done_inv hrest
    exact hwrite _ horphan e _ reply he
  · simp only [hcap, if_false] at hrun
    rcases Runs.call_inv hrun with ⟨e, db₁, reply, cs', he, rfl, hrest⟩
    obtain ⟨-, rfl, -⟩ := Runs.done_inv hrest
    exact hwrite _ hbump e _ reply he

/-! ### The row loop and the whole pass -/

/-- The turn of the loop that handles a given row: it finds the row as the loop found it, and no
other turn writes the row. -/
theorem sweepRows_turn {reconcileRow : StuckRow → Code (Except DbError Bool)}
    {rows : List StuckRow} {row : StuckRow} {n : Nat}
    (hrun : Runs exec (sweepRows reconcileRow rows) db cs db' n) (hmem : row ∈ rows)
    (hnodup : (rows.map StuckRow.hash).Nodup)
    (hkeep : ∀ row', row'.hash ≠ row.hash →
      (reconcileRow row').Uses (Op.KeepsRow k row.hash))
    (hr : db.pin k row.hash = some r) :
    ∃ db₁ cs₁ db₂ ans, Runs exec (reconcileRow row) db₁ cs₁ db₂ ans ∧
      (∀ call ∈ cs₁, call ∈ cs) ∧ db₁.pin k row.hash = some r ∧
      (HasBody db row.hash → HasBody db₁ row.hash) ∧
      ∀ r', db₂.pin k row.hash = some r' → db'.pin k row.hash = some r' := by
  induction rows generalizing db cs n with
  | nil => cases hmem
  | cons first rows ih =>
      rcases Runs.bind_inv hrun with ⟨db₁, handled, cs₁, cs₂, rfl, hfirst, hrest⟩
      rcases Runs.bind_inv hrest with ⟨db₂, m, cs₃, cs₄, rfl, hrows, hdone⟩
      obtain ⟨rfl, rfl, -⟩ := Runs.done_inv hdone
      have hnodup' := List.nodup_cons.1 hnodup
      rcases List.mem_cons.1 hmem with rfl | hmem
      · -- This turn; the later ones are for other rows.
        refine ⟨db, cs₁, db₁, handled, hfirst, ?_, hr, id, ?_⟩
        · intro call hcall
          exact List.mem_append_left _ hcall
        · intro r' hr'
          refine pin_of_runs hrows (uses_sweepRows ?_) hr'
          intro row' hrow'
          refine hkeep row' ?_
          intro hEq
          exact hnodup'.1 (hEq ▸ List.mem_map_of_mem hrow')
      · have hne : first.hash ≠ row.hash := by
          intro hEq
          exact hnodup'.1 (hEq ▸ List.mem_map_of_mem hmem)
        have hr₁ := pin_of_runs hfirst (hkeep first hne) hr
        rcases ih hrows hmem hnodup'.2 hr₁ with
          ⟨db₃, cs₅, db₄, ans, hturn, hsub, hr₃, hbody, hlater⟩
        refine ⟨db₃, cs₅, db₄, ans, hturn, ?_, hr₃, ?_, hlater⟩
        · intro call hcall
          exact List.mem_append_right _ (List.mem_append_left _ (hsub call hcall))
        · intro hb
          exact hbody (hasBody_of_runs hfirst hb)

/-- The two halves of a pass that got as far as its second `SELECT`. -/
theorem reconcileOnce_inv {ans : Except DbError Nat}
    (hrun : Runs exec reconcileOnce db cs db' ans) :
    (∃ err, ∀ call ∈ cs, call = ⟨.sql (.fetchStuck .xorb), .error err⟩) ∨
    ∃ e xorbRows db₁ cs₁ n, exec (.sql (.fetchStuck .xorb)) e db = some (db, .ok xorbRows) ∧
      Runs exec (sweepRows reconcileXorbRow xorbRows) db cs₁ db₁ n ∧
      ((∃ err, db' = db₁ ∧ cs = ⟨.sql (.fetchStuck .xorb), .ok xorbRows⟩ :: cs₁ ++
          [⟨.sql (.fetchStuck .shard), .error err⟩]) ∨
        ∃ e' shardRows cs₂ m,
          exec (.sql (.fetchStuck .shard)) e' db₁ = some (db₁, .ok shardRows) ∧
          Runs exec (sweepRows reconcileShardRow shardRows) db₁ cs₂ db' m ∧
          cs = ⟨.sql (.fetchStuck .xorb), .ok xorbRows⟩ :: cs₁ ++
            ⟨.sql (.fetchStuck .shard), .ok shardRows⟩ :: cs₂) := by
  rcases Runs.perform_bind_inv hrun with ⟨e, db₀, reply, cs₀, he, rfl, hrest⟩
  cases reply with
  | error err =>
      obtain ⟨rfl, -, -⟩ := Runs.done_inv hrest
      exact .inl ⟨err, by simp⟩
  | ok xorbRows =>
      have hdb := (fetchStuck_exec he).1
      subst hdb
      rcases Runs.bind_inv hrest with ⟨db₁, n, cs₁, cs₂, rfl, hxorbs, hshards⟩
      refine .inr ⟨e, xorbRows, db₁, cs₁, n, he, hxorbs, ?_⟩
      rcases Runs.perform_bind_inv hshards with ⟨e', db₂, reply', cs₃, he', rfl, hrest'⟩
      cases reply' with
      | error err =>
          obtain ⟨rfl, rfl, -⟩ := Runs.done_inv hrest'
          have hstore : db' = db₁ := by
            rcases exec_cases he' with ⟨hEq, -⟩ | ⟨now, scan, s, rs, -, hcall, hs⟩
            · exact hEq
            · cases hcall
              simp only [Stmt.exec] at hs
              split at hs <;> cases hs
          exact .inl ⟨err, hstore, by simp⟩
      | ok shardRows =>
          have hdb' := (fetchStuck_exec he').1
          subst hdb'
          rcases Runs.bind_inv hrest' with ⟨db₃, m, cs₄, cs₅, rfl, hrows, hdone⟩
          obtain ⟨rfl, rfl, -⟩ := Runs.done_inv hdone
          exact .inr ⟨e', shardRows, cs₄, m, he', hrows, by simp⟩

/-- A row loop selects nothing. -/
theorem not_fetchStuck_of_keeps {α : Type} {p : Code α} {a : α} (hrun : Runs exec p db cs db' a)
    (hp : p.Uses (Op.KeepsRow k h)) {k' : Kind} {reply : Res (.sql (.fetchStuck k'))} :
    (⟨.sql (.fetchStuck k'), reply⟩ : Call Op Res) ∉ cs :=
  fun hmem => hrun.calls hp _ hmem

/-- A row among the selected ones, as the `SELECT` saw it. -/
theorem row_of_selected {e : Env} {rows : List StuckRow}
    (he : exec (.sql (.fetchStuck k)) e db = some (db, .ok rows))
    (hsel : h ∈ rows.map StuckRow.hash) (hr : db.pin k h = some r) :
    StuckRow.of h r ∈ rows ∧ (rows.map StuckRow.hash).Nodup := by
  obtain ⟨-, now, scan, -, hperm, rfl⟩ := fetchStuck_exec he
  refine ⟨?_, nodup_fetchStuck hperm now⟩
  rcases List.mem_map.1 hsel with ⟨row, hmem, rfl⟩
  rcases pin_of_fetchStuck hperm hmem with ⟨r', hr', -, hrow⟩
  rw [hr] at hr'
  cases hr'
  exact hrow ▸ hmem

theorem keepsRow_xorbRows (rows : List StuckRow) :
    (sweepRows reconcileXorbRow rows).Uses (Op.KeepsRow .shard h) :=
  uses_sweepRows fun _ _ => keepsRow_reconcileXorbRow (by simp)

theorem keepsRow_shardRows (rows : List StuckRow) :
    (sweepRows reconcileShardRow rows).Uses (Op.KeepsRow .xorb h) :=
  uses_sweepRows fun _ _ => keepsRow_reconcileShardRow (by simp)

/-- A xorb with its body. -/
theorem recovered_of_pass {ans : Except DbError Nat}
    (hpass : Runs exec reconcileOnce db cs db' ans) (hr : db.pin .xorb h = some r)
    (hpinning : r.pinState = .pinning) (hbody : HasBody db h) (hsel : SelectedBy cs .xorb h)
    (hsucceeds : ∀ call ∈ cs, SucceedsFor .xorb h call) : Recovered db' .xorb h := by
  rcases reconcileOnce_inv hpass with ⟨err, hfailed⟩ |
    ⟨e, xorbRows, db₁, cs₁, n, he, hxorbs, hshards⟩
  · rcases hsel with ⟨rows, hmem, -⟩
    cases hfailed _ hmem
  · -- The first half pins the row, the second one has nothing to do with it.
    have hnot : ∀ rows : List StuckRow,
        (⟨.sql (.fetchStuck .xorb), .ok rows⟩ : Call Op Res) ∉ cs₁ :=
      fun rows => not_fetchStuck_of_keeps (h := h) hxorbs (keepsRow_xorbRows _)
    have hhalf : h ∈ xorbRows.map StuckRow.hash ∧ (∀ call ∈ cs₁, call ∈ cs) ∧
        ∀ r', db₁.pin .xorb h = some r' → db'.pin .xorb h = some r' := by
      rcases hsel with ⟨rows, hmem, hh⟩
      rcases hshards with ⟨err, rfl, rfl⟩ | ⟨e', shardRows, cs₂, m, he', hrows, rfl⟩
      · have hEq : rows = xorbRows := by simpa [hnot] using hmem
        exact ⟨hEq ▸ hh, by simp +contextual, fun _ => id⟩
      · have hnot₂ : (⟨.sql (.fetchStuck .xorb), .ok rows⟩ : Call Op Res) ∉ cs₂ :=
          not_fetchStuck_of_keeps (h := h) hrows (keepsRow_shardRows _)
        have hEq : rows = xorbRows := by simpa [hnot, hnot₂] using hmem
        exact ⟨hEq ▸ hh, by simp +contextual,
          fun r' hr' => pin_of_runs hrows (keepsRow_shardRows _) hr'⟩
    rcases row_of_selected he hhalf.1 hr with ⟨hmem, hnodup⟩
    rcases sweepRows_turn hxorbs hmem hnodup
      (fun row' hne => keepsRow_reconcileXorbRow fun hEq => hne hEq.2.symm) hr with
        ⟨db₃, cs₃, db₄, ans', hturn, hsub, hr₃, hbody₃, hlater⟩
    have hrec : Recovered db₄ .xorb h :=
      recovered_of_reconcileXorbRow hturn hr₃ hpinning (hbody₃ hbody)
        fun call hcall => hsucceeds call (hhalf.2.1 call (hsub call hcall))
    rcases hrec with ⟨r', id, hr', hpinned, hid⟩
    exact ⟨r', id, hhalf.2.2 r' (hlater r' hr'), hpinned, hid⟩

/-- A shard without object id. -/
theorem not_recovered_of_pass {ans : Except DbError Nat}
    (hpass : Runs exec reconcileOnce db cs db' ans) (hr : db.pin .shard h = some r)
    (hpinning : r.pinState = .pinning) (hid : r.siaObjectId = none)
    (hsel : SelectedBy cs .shard h) : ¬Recovered db' .shard h := by
  rcases hsel with ⟨rows, hmem, hh⟩
  rcases reconcileOnce_inv hpass with ⟨err, hfailed⟩ |
    ⟨e, xorbRows, db₁, cs₁, n, he, hxorbs, hshards⟩
  · cases hfailed _ hmem
  · have hnot : (⟨.sql (.fetchStuck .shard), .ok rows⟩ : Call Op Res) ∉ cs₁ :=
      not_fetchStuck_of_keeps (h := h) hxorbs (keepsRow_xorbRows _)
    have hr₁ := pin_of_runs hxorbs (keepsRow_xorbRows _) hr
    rcases hshards with ⟨err, rfl, rfl⟩ | ⟨e', shardRows, cs₂, m, he', hrows, rfl⟩
    · simp [hnot] at hmem
    · have hnot₂ : (⟨.sql (.fetchStuck .shard), .ok rows⟩ : Call Op Res) ∉ cs₂ :=
        not_fetchStuck_of_keeps (h := h) hrows (keepsRow_shardRows _)
      have hEq : rows = shardRows := by simpa [hnot, hnot₂] using hmem
      subst hEq
      rcases row_of_selected he' hh hr₁ with ⟨hmem, hnodup⟩
      rcases sweepRows_turn hrows hmem hnodup
        (fun row' hne => keepsRow_reconcileShardRow fun hEq => hne hEq.2.symm) hr₁ with
          ⟨db₃, cs₃, db₄, ans', hturn, hsub, hr₃, hbody₃, hlater⟩
      rcases not_pinned_of_reconcileShardRow hturn hr₃ hpinning hid with ⟨r', hr', hnotpinned⟩
      rintro ⟨r'', id, hr'', hpinned, -⟩
      have hfinal : db'.pin .shard h = some r' := hlater r' hr'
      rw [hr''] at hfinal
      cases hfinal
      exact hnotpinned hpinned

end Pass

namespace State

variable {x : Crates} {c : State} {k : Kind} {h : Hash} {r : PinRow} {db : Database}
  {cs : List (Call Op Res)} {ans : Except DbError Nat}

/-- From every reachable state, a pass that selects a `'pinning'` row (a xorb with its body) and
whose work on it succeeds leaves the row `'pinned'` with an object id exactly if it is a xorb. -/
theorem recovered_iff_xorb (hreach : Reachable x anyStep c)
    (hpass : Runs exec reconcileOnce c.store cs db ans) (hr : c.store.pin k h = some r)
    (hpinning : r.pinState = .pinning) (hbody : k = .xorb → HasBody c.store h)
    (hsel : SelectedBy cs k h) (hsucceeds : ∀ call ∈ cs, SucceedsFor k h call) :
    Recovered db k h ↔ k = .xorb := by
  cases k with
  | xorb =>
      have hrec := recovered_of_pass hpass hr hpinning (hbody rfl) hsel hsucceeds
      exact ⟨fun _ => rfl, fun _ => hrec⟩
  | shard =>
      have hid := hreach.shardId_none hr hpinning
      have hnot := not_recovered_of_pass hpass hr hpinning hid hsel
      exact ⟨fun hrec => absurd hrec hnot, fun hk => nomatch hk⟩

/-! ### Two passes -/

/-- Every statement ran and every Sia call succeeded. -/
def succeededCheck : Call Op Res → Bool
  | ⟨.sql _, .ok _⟩ => true
  | ⟨.uploadAndPin _ _ _, .ok (.ok _)⟩ => true
  | ⟨.pinOnly _ _ _, .ok (.ok _)⟩ => true
  | _ => false

theorem succeedsFor_of_check {call : Call Op Res} (hcheck : succeededCheck call = true) :
    SucceedsFor k h call := by
  unfold succeededCheck at hcheck
  split at hcheck
  · rename_i s reply
    cases s with
    | loadXorbBody h' => exact fun _ => ⟨reply, rfl⟩
    | setPinned k' h' id => exact fun _ _ => rfl
    | _ => trivial
  · exact fun _ _ => ⟨_, rfl⟩
  · exact fun _ _ => rfl
  · cases hcheck

def selectedCheck (cs : List (Call Op Res)) (k : Kind) (h : Hash) : Bool :=
  cs.any fun
    | ⟨.sql (.fetchStuck k'), .ok rows⟩ => k' = k && rows.any fun row => row.hash = h
    | _ => false

theorem selectedBy_of_check (hcheck : selectedCheck cs k h = true) : SelectedBy cs k h := by
  rcases List.any_eq_true.1 hcheck with ⟨call, hmem, hcall⟩
  split at hcall
  · rename_i k' rows
    have hboth : k' = k ∧ ∃ row ∈ rows, row.hash = h := by simpa using hcall
    obtain ⟨rfl, row, hrow, rfl⟩ := hboth
    exact ⟨rows, hmem, List.mem_map_of_mem hrow⟩
  · cases hcall

/-- The pass selected the `'pinning'` row and succeeded; `after` is the state it left. -/
def passCheck (k : Kind) (h : Hash) (after : XorbPinState) (c : State)
    (pass : List (Call Op Res) × Database × Except DbError Nat) : Bool :=
  pass.1.all succeededCheck && selectedCheck pass.1 k h &&
    decide ((c.store.pin k h).map PinRow.pinState = some .pinning) &&
    decide ((pass.2.1.pin k h).map PinRow.pinState = some after) &&
    (decide (k = .shard) || (c.store.xorbBodies.find h).isSome)

theorem exists_pass {as : List Step} {es : List Env} {after : XorbPinState}
    (heval : (initial.runAll x as).bind (fun c =>
      (reconcileOnce.eval exec es c.store).map (passCheck k h after c)) = some true) :
    ∃ c cs db ans r r', Reachable x anyStep c ∧ Runs exec reconcileOnce c.store cs db ans ∧
      c.store.pin k h = some r ∧ r.pinState = .pinning ∧ (k = .xorb → HasBody c.store h) ∧
      SelectedBy cs k h ∧ (∀ call ∈ cs, SucceedsFor k h call) ∧ db.pin k h = some r' ∧
      r'.pinState = after := by
  rcases Option.bind_eq_some_iff.1 heval with ⟨c, hrun, hmap⟩
  rcases Option.map_eq_some_iff.1 hmap with ⟨⟨cs, db, ans⟩, hpass, hcheck⟩
  simp only [passCheck, Bool.and_eq_true, List.all_eq_true, decide_eq_true_eq,
    Option.map_eq_some_iff, Bool.or_eq_true] at hcheck
  obtain ⟨⟨⟨⟨hall, hsel⟩, r, hr, hpinning⟩, r', hr', hafter⟩, hbody⟩ := hcheck
  refine ⟨c, cs, db, ans, r, r', Reaches.of_run hrun fun _ _ => trivial, .of_eval hpass, hr,
    hpinning, ?_, selectedBy_of_check hsel, ?_, hr', hafter⟩
  · rintro rfl
    exact hbody.resolve_left (by simp)
  · intro call hcall
    exact succeedsFor_of_check (hall call hcall)

/-- The xorb of an upload that found Sia unavailable. -/
theorem recovered_iff_xorb_pendingUpload :
    ∃ c cs db ans, Reachable (bareCrates fun _ => Hash.fill 0) anyStep c ∧
      Runs exec reconcileOnce c.store cs db ans ∧ SelectedBy cs .xorb sampleHash ∧
      (Recovered db .xorb sampleHash ↔ Kind.xorb = .xorb) := by
  have heval : (initial.runAll (bareCrates fun _ => Hash.fill 0) pendingUpload).bind (fun c =>
      (reconcileOnce.eval exec
        [.sql (10 ^ 9) [(sampleHash, pinningRow 1 3)], .sql (10 ^ 9) [], .upload (.ok (.ok [1])),
          .sql (10 ^ 9) [], .sql (10 ^ 9) []] c.store).map
        (passCheck .xorb sampleHash .pinned c)) = some true := by
    decide +kernel
  rcases exists_pass heval with
    ⟨c, cs, db, ans, r, r', hreach, hpass, hr, hpinning, hbody, hsel, hsucceeds, -, -⟩
  exact ⟨c, cs, db, ans, hreach, hpass, hsel,
    recovered_iff_xorb hreach hpass hr hpinning hbody hsel hsucceeds⟩

/-- The shard of an upload whose Sia call exceeded its budget. -/
def pendingShard : List Step :=
  wholeFile ++ [.call 1 (.upload (.error ())), .call 1 (.sql 0 [])]

def pendingShardRow : PinRow :=
  { PinRow.fresh 240 with
    pinAttempts := 1
    lastPinAttemptAt := some 0 }

/-- A pass in which everything succeeds leaves an accepted shard where it was. -/
theorem not_recovered :
    ¬∀ (x : Crates) (c : State) (k : Kind) (h : Hash) (r : PinRow) (cs : List (Call Op Res))
      (db : Database) (ans : Except DbError Nat), Reachable x anyStep c →
      Runs exec reconcileOnce c.store cs db ans → c.store.pin k h = some r →
      r.pinState = .pinning → (k = .xorb → HasBody c.store h) → SelectedBy cs k h →
      (∀ call ∈ cs, SucceedsFor k h call) → Recovered db k h := by
  intro hclaim
  have heval : (initial.runAll (bareCrates shardSha256) pendingShard).bind (fun c =>
      (reconcileOnce.eval exec
        [.sql (10 ^ 9) [(sampleHash, { PinRow.fresh 22 with
            siaObjectId := some [1]
            pinState := .pinned
            pinAttempts := 1
            lastPinAttemptAt := some 0 })],
          .sql (10 ^ 9) [(shardSha256 wholeShard, pendingShardRow)], .sql (10 ^ 9) []]
        c.store).map (passCheck .shard (shardSha256 wholeShard) .pinning c)) = some true := by
    decide +kernel
  rcases exists_pass heval with
    ⟨c, cs, db, ans, r, r', hreach, hpass, hr, hpinning, hbody, hsel, hsucceeds, hr', hafter⟩
  rcases hclaim _ c _ _ r cs db ans hreach hpass hr hpinning hbody hsel hsucceeds with
    ⟨r'', id, hr'', hpinned, -⟩
  rw [hr'] at hr''
  cases hr''
  rw [hafter] at hpinned
  cases hpinned

end State

end Service
end OpenWeights
