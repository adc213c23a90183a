import Mathlib.Data.List.Induction
import OpenWeights.Lib.Typestate
import OpenWeights.Service.Durability

/-!
# Orphaning — which failures lead to `'orphaned'`

`pin_attempts` is meant to count permanent Sia failures.  It also counts transient ones: every state
write of an upload handler adds one, and a sweep classifies an exceeded budget on a xorb as
permanent.  A sweep that finds no body for the row adds one, too, without a Sia call.  So what a row
needs to be orphaned is `MAX_PIN_ATTEMPTS` failures of these kinds since it was inserted or revived.

The argument follows one row `h`.  The automaton `gripOn h` says what a task has to do with the row
(`Grip`), and the invariant `Ledger` relates the row, the grips of the running tasks and the number
of counted failures.  It needs that only one running task at a time has the row in hand.
-/

namespace OpenWeights
namespace Service

open Lib Db Db.Database OpenWeights.Core Storage

/-! ## What a task has to do with a row -/

/-- The grip of a task on a row of `xorbs`. -/
inductive Grip
  /-- The task has nothing to do with the row. -/
  | free
  /-- An upload handler inserted the row; its Sia call is not answered yet. -/
  | owner
  /-- A sweep selected the row with this count; its Sia call is not answered yet. -/
  | selected (attempts : Nat)
  /-- The Sia call failed, and the task is going to count it. -/
  | failed (attempts : Nat)
  /-- The Sia call was answered, and the task is not going to count a failure. -/
  | settled
  /-- A sweep selected the row twice, or in state `'uploading'`; no run gets here. -/
  | lost
  deriving DecidableEq, Repr

namespace Grip

/-- The grip of a sweep that selected the given rows. -/
def pick (h : Hash) (rows : List StuckRow) : Grip :=
  match rows.filter fun row => row.hash = h with
  | [] => .free
  | [row] => if row.pinState = .uploading then .lost else .selected row.pinAttempts
  | _ => .lost

/-- The grip after the Sia call for the row was answered. -/
def answered {α : Type} : Grip → SiaCall α → Grip
  | .owner, .ok (.ok _) => .settled
  | .owner, _ => .failed 0
  | .selected _, .ok (.ok _) => .settled
  | .selected _, .ok (.error .unavailable) => .settled
  | .selected n, _ => .failed n
  | g, _ => g

/-- The grip of a sweep that found no bytes for the row. -/
def unloaded : Grip → Grip
  | .selected n => .failed n
  | g => g

/-- The grip after the row was written. -/
def released : Grip → Grip
  | .lost => .lost
  | _ => .free

def after (h : Hash) (g : Grip) : (o : Op) → Res o → Grip
  | .sql (.insertPending h' _ _), .ok true => if h' = h ∧ g = .free then .owner else g
  | .sql (.fetchStuck .xorb), .ok rows => if g = .free then pick h rows else g
  | .sql (.loadXorbBody h'), .ok none => if h' = h then g.unloaded else g
  | .sql (.loadXorbBody h'), .error _ => if h' = h then g.released else g
  | .uploadAndPin .xorb h' _, answer => if h' = h then g.answered answer else g
  | .pinOnly .xorb h' _, answer => if h' = h then g.answered answer else g
  | .sql (.setPinState .xorb h' _ _), _ => if h' = h then g.released else g
  | .sql (.setPinned .xorb h' _), _ => if h' = h then g.released else g
  | .sql (.touchAttempt .xorb h'), _ => if h' = h then g.released else g
  | .sql (.bumpAttempt .xorb h'), _ => if h' = h then g.released else g
  | .sql (.orphan .xorb h'), _ => if h' = h then g.released else g
  | _, _ => g

/-- The operations on the row `h` a task may perform with the grip. -/
def ok (h : Hash) (req : Request) (g : Grip) : Op → Prop
  | .sql (.insertPending h' _ _) => h' = h → g = .free
  | .sql (.insertXorbBody h' _) => h' = h → g = .owner
  | .sql (.loadXorbBody h') => h' = h → (∃ n, g = .selected n) ∨ g = .lost
  | .uploadAndPin .xorb h' _ => h' = h →
      (g = .owner ∧ req ≠ .sweep) ∨ (∃ n, g = .selected n) ∨ g = .lost
  | .pinOnly .xorb h' _ => h' = h → (∃ n, g = .selected n) ∨ g = .lost
  | .sql (.setPinState .xorb h' state _) => h' = h →
      (g = .settled ∧ state = .pinned) ∨ (g = .failed 0 ∧ state = .pinning)
  | .sql (.setPinned .xorb h' _) => h' = h → g = .settled ∨ g = .lost
  | .sql (.touchAttempt .xorb h') => h' = h → g = .settled ∨ g = .lost
  | .sql (.bumpAttempt .xorb h') => h' = h → (∃ n, g = .failed n) ∨ g = .lost
  | .sql (.orphan .xorb h') => h' = h → (∃ n, g = .failed n ∧ maxPinAttempts ≤ n + 1) ∨ g = .lost
  | _ => True

end Grip

def gripOn (h : Hash) : Typestate Grip Request Op Res where
  start := .free
  after := Grip.after h
  ok := Grip.ok h

/-! ## The programs follow the automaton -/

section Programs

variable {h : Hash} {req : Request} {g : Grip}

/-- An operation that has nothing to do with the row `h`. -/
def Op.SkipsRow (h : Hash) : Op → Prop
  | .sql (.insertPending h' _ _) => h' ≠ h
  | .sql (.insertXorbBody h' _) => h' ≠ h
  | .sql (.fetchStuck k) => k ≠ .xorb
  | .sql (.loadXorbBody h') => h' ≠ h
  | .uploadAndPin k h' _ => k = .xorb → h' ≠ h
  | .pinOnly k h' _ => k = .xorb → h' ≠ h
  | .sql (.setPinState k h' _ _) => k = .xorb → h' ≠ h
  | .sql (.setPinned k h' _) => k = .xorb → h' ≠ h
  | .sql (.touchAttempt k h') => k = .xorb → h' ≠ h
  | .sql (.bumpAttempt k h') => k = .xorb → h' ≠ h
  | .sql (.orphan k h') => k = .xorb → h' ≠ h
  | _ => True

theorem Op.SkipsRow.ok {o : Op} (ho : o.SkipsRow h) : Grip.ok h req g o := by
  cases o with
  | sql s =>
      cases s with
      | setPinState k h' state id => cases k <;> simp_all [Op.SkipsRow, Grip.ok]
      | setPinned k h' id => cases k <;> simp_all [Op.SkipsRow, Grip.ok]
      | touchAttempt k h' => cases k <;> simp_all [Op.SkipsRow, Grip.ok]
      | bumpAttempt k h' => cases k <;> simp_all [Op.SkipsRow, Grip.ok]
      | orphan k h' => cases k <;> simp_all [Op.SkipsRow, Grip.ok]
      | _ => simp_all [Op.SkipsRow, Grip.ok]
  | uploadAndPin k h' bytes => cases k <;> simp_all [Op.SkipsRow, Grip.ok]
  | pinOnly k h' id => cases k <;> simp_all [Op.SkipsRow, Grip.ok]
  | rateLimit => trivial

theorem Op.SkipsRow.after {o : Op} (ho : o.SkipsRow h) (r : Res o) : Grip.after h g o r = g := by
  unfold Grip.after
  split <;> simp_all [Op.SkipsRow]

theorem follows_of_skips {α : Type} {p : Code α} (hp : p.Uses (Op.SkipsRow h)) :
    p.Follows (gripOn h) req (fun g' _ => g' = g) g :=
  Prog.Follows.of_uses hp (fun _ ho => ho.ok) (fun _ r ho => ho.after r)

/-- `upload_xorb` for another hash. -/
theorem Op.ofXorb.skips {h' : Hash} {boundaries : List Int} {body : Bytes} {o : Op}
    (ho : o.ofXorb h' boundaries body) (hne : h' ≠ h) : o.SkipsRow h := by
  cases o with
  | sql s =>
      cases s with
      | insertPending h₁ n bounds =>
          obtain ⟨rfl, -⟩ := ho
          exact hne
      | insertXorbBody h₁ content =>
          obtain ⟨rfl, -⟩ := ho
          exact hne
      | setPinState k h₁ state id =>
          obtain ⟨-, rfl, -⟩ := ho
          exact fun _ => hne
      | recordUsage row => trivial
      | _ => exact ho.elim
  | uploadAndPin k h₁ bytes =>
      obtain ⟨-, rfl, -⟩ := ho
      exact fun _ => hne
  | pinOnly k h₁ id => exact ho.elim
  | rateLimit => trivial

/-- `upload_shard` writes no `xorbs` row but by reviving it. -/
theorem Op.ofShard.skips {x : Crates} {body : Bytes} {o : Op} (ho : o.ofShard x body) :
    o.SkipsRow h := by
  cases o with
  | sql s =>
      cases s with
      | setPinState k h₁ state id =>
          obtain ⟨rfl, -⟩ := ho
          exact fun hk => by cases hk
      | reviveOrphanedXorbs hashes => trivial
      | whichXorbsArePinned hashes => trivial
      | getChunkBoundaries hashes => trivial
      | commitShard h₁ n files terms => trivial
      | recordUsage row => trivial
      | _ => exact ho.elim
  | uploadAndPin k h₁ bytes =>
      obtain ⟨rfl, -⟩ := ho
      exact fun hk => by cases hk
  | pinOnly k h₁ id => exact ho.elim
  | rateLimit => trivial

theorem skips_recordXorbUpload (h' : Hash) (n : Nat) :
    (recordXorbUpload h' n).Uses (Op.SkipsRow h) :=
  uses_recordXorbUpload trivial

def Grip.over (g : Grip) : Prop := g = .free ∨ g = .lost

@[simp] theorem Grip.after_lost (o : Op) (r : Res o) : Grip.after h .lost o r = .lost := by
  unfold Grip.after
  split <;> simp [Grip.released, Grip.answered, Grip.unloaded]

theorem follows_leavePinning :
    (leavePinning .xorb h).Follows (gripOn h) req (fun g' _ => g' = .free) (.failed 0) := by
  refine ⟨fun _ => .inr ⟨rfl, rfl⟩, ?_⟩
  intro r
  exact if_pos rfl

theorem follows_pushXorb {body : Bytes} (hreq : req ≠ .sweep) :
    (pushXorb h body).Follows (gripOn h) req (fun g' _ => g' = .free) .owner := by
  have hrecord : ∀ answer : Except AppError UploadXorbResponse,
      (recordXorbUpload h body.length >>= fun _ => pure answer).Follows (gripOn h) req
        (fun g' _ => g' = .free) .free := by
    intro answer
    exact follows_of_skips ((skips_recordXorbUpload h _).bind fun _ => trivial)
  refine ⟨fun _ => .inl ⟨rfl, hreq⟩, ?_⟩
  rintro (_ | (_ | _) | id)
  -- the budget is exceeded: writing 'pinning' again adds one to the attempts
  · have hfailed : (gripOn h).after .owner (.uploadAndPin .xorb h body) (.error ()) =
        .failed 0 := if_pos rfl
    rw [hfailed]
    refine follows_leavePinning.bind ?_
    rintro g' _ rfl
    exact hrecord _
  -- so does an unavailable adapter
  · have hfailed : (gripOn h).after .owner (.uploadAndPin .xorb h body)
        (.ok (.error .unavailable)) = .failed 0 := if_pos rfl
    rw [hfailed]
    refine follows_leavePinning.bind ?_
    rintro g' _ rfl
    exact hrecord _
  -- any other failure is counted in the same way, and the handler answers with it
  · have hfailed : (gripOn h).after .owner (.uploadAndPin .xorb h body)
        (.ok (.error .other)) = .failed 0 := if_pos rfl
    rw [hfailed]
    refine follows_leavePinning.bind ?_
    rintro g' _ rfl
    rfl
  · have hsettled : (gripOn h).after .owner (.uploadAndPin .xorb h body) (.ok (.ok id)) =
        .settled := if_pos rfl
    rw [hsettled]
    refine ⟨fun _ => .inl ⟨rfl, rfl⟩, ?_⟩
    intro r
    have hfree : (gripOn h).after .settled (.sql (.setPinState .xorb h .pinned (some id))) r =
        .free := if_pos rfl
    rw [hfree]
    rcases r with _ | _
    · rfl
    · exact hrecord _

theorem follows_storeXorb {boundaries : List Int} {body : Bytes} (hreq : req ≠ .sweep) :
    (storeXorb h boundaries body).Follows (gripOn h) req (fun g' _ => g' = .free) .free := by
  refine ⟨fun _ => rfl, ?_⟩
  rintro (_ | (_ | _))
  · rfl
  · exact follows_of_skips ((skips_recordXorbUpload h _).bind fun _ => trivial)
  · have howner : (gripOn h).after .free (.sql (.insertPending h body.length boundaries))
        (.ok true) = .owner := if_pos ⟨rfl, rfl⟩
    rw [howner]
    exact ⟨fun _ => rfl, fun _ => follows_pushXorb hreq⟩

theorem follows_uploadXorb (x : Crates) (pathPrefix hashSuffix : String) (body : Bytes) :
    (uploadXorb x pathPrefix hashSuffix body).Follows (gripOn h)
      (.uploadXorb pathPrefix hashSuffix body) (fun g' _ => g' = .free) .free := by
  unfold uploadXorb
  split
  · rfl
  · rename_i expected boundaries hok
    refine ⟨trivial, ?_⟩
    rintro (_ | _)
    · rfl
    · by_cases hh : expected = h
      · subst hh
        exact follows_storeXorb (by simp)
      · exact follows_of_skips
          ((uses_storeXorb expected boundaries body).mono fun o ho => ho.skips hh)

theorem follows_uploadShard (x : Crates) (body : Bytes) :
    (uploadShard x body).Follows (gripOn h) req (fun g' _ => g' = .free) .free :=
  follows_of_skips ((uses_uploadShard x body).mono fun _ ho => Op.ofShard.skips ho)

/-! ### Sweeps -/

theorem follows_of_lost {α : Type} {p : Code α} (hp : p.Uses Op.ofSweep) :
    p.Follows (gripOn h) req (fun g' _ => g' = .lost) .lost := by
  refine Prog.Follows.of_uses hp ?_ (fun o r _ => Grip.after_lost o r)
  intro o ho
  cases o with
  | sql s =>
      cases s with
      | setPinned k h' id => cases k <;> simp [gripOn, Grip.ok]
      | touchAttempt k h' => cases k <;> simp [gripOn, Grip.ok]
      | bumpAttempt k h' => cases k <;> simp [gripOn, Grip.ok]
      | orphan k h' => cases k <;> simp [gripOn, Grip.ok]
      | fetchStuck k => trivial
      | loadXorbBody h' => simp [gripOn, Grip.ok]
      | _ => exact ho.elim
  | uploadAndPin k h' bytes => cases k <;> simp [gripOn, Grip.ok]
  | pinOnly k h' id => cases k <;> simp [gripOn, Grip.ok]
  | rateLimit => trivial

/-- The failure of a Sia call is counted unless it is transient. -/
def Grip.afterFailure (n : Nat) (err : SiaAdapterError) : Grip :=
  if isTransient err then .settled else .failed n

theorem follows_bumpXorbAttempt (n : Nat) (err : SiaAdapterError) :
    (bumpXorbAttempt h n err).Follows (gripOn h) req (fun g' _ => g' = .free)
      (Grip.afterFailure n err) := by
  unfold bumpXorbAttempt Storage.bumpAttempt Grip.afterFailure
  split_ifs with htransient hcap
  · exact ⟨fun _ => .inl rfl, fun _ => if_pos rfl⟩
  · exact ⟨fun _ => .inl ⟨n, rfl, hcap⟩, fun _ => if_pos rfl⟩
  · exact ⟨fun _ => .inl ⟨n, rfl⟩, fun _ => if_pos rfl⟩

theorem follows_setPinnedRow (id : Bytes) :
    (setPinnedRow .xorb h id).Follows (gripOn h) req (fun g' _ => g' = .free) .settled :=
  ⟨fun _ => .inl rfl, fun _ => if_pos rfl⟩

/-- The answers of a Sia call for a selected row lead on as the program does. -/
theorem after_uploadAndPin (n : Nat) (bytes : Bytes) (answer : SiaCall Bytes) :
    (gripOn h).after (.selected n) (.uploadAndPin .xorb h bytes) answer =
      Grip.answered (.selected n) answer := if_pos rfl

theorem after_pinOnly (n : Nat) (id : Bytes) (answer : SiaCall Unit) :
    (gripOn h).after (.selected n) (.pinOnly .xorb h id) answer =
      Grip.answered (.selected n) answer := if_pos rfl

theorem answered_error {α : Type} (n : Nat) (err : SiaAdapterError) :
    Grip.answered (.selected n) (.ok (.error err) : SiaCall α) = Grip.afterFailure n err := by
  cases err <;> rfl

/-- A selected row is given back, whether its bytes are there or not. -/
theorem follows_reconcileXorbRow {row : StuckRow} (hstate : row.pinState ≠ .uploading) :
    (reconcileXorbRow row).Follows (gripOn row.hash) req (fun g' _ => g' = .free)
      (.selected row.pinAttempts) := by
  have hbump : ∀ err, (bumpXorbAttempt row.hash row.pinAttempts err).Follows (gripOn row.hash) req
      (fun g' _ => g' = .free) (Grip.afterFailure row.pinAttempts err) :=
    follows_bumpXorbAttempt row.pinAttempts
  unfold reconcileXorbRow
  rw [if_neg hstate]
  split
  · rename_i oid _
    refine ⟨fun _ => .inl ⟨_, rfl⟩, ?_⟩
    rintro (_ | err | _) <;> rw [after_pinOnly]
    · exact hbump .other
    · rw [answered_error]
      exact hbump err
    · exact follows_setPinnedRow oid
  · refine ⟨fun _ => .inl ⟨_, rfl⟩, ?_⟩
    rintro (_ | (_ | bytes))
    · exact if_pos rfl
    · -- No bytes: the failure is counted without a Sia call.
      have hfailed : (gripOn row.hash).after (.selected row.pinAttempts)
          (.sql (.loadXorbBody row.hash)) (.ok none) = .failed row.pinAttempts := if_pos rfl
      rw [hfailed]
      exact hbump .other
    · have hkeep : (gripOn row.hash).after (.selected row.pinAttempts)
          (.sql (.loadXorbBody row.hash)) (.ok (some bytes)) = .selected row.pinAttempts := rfl
      rw [hkeep]
      refine ⟨fun _ => .inr (.inl ⟨_, rfl⟩), ?_⟩
      rintro (_ | err | id) <;> rw [after_uploadAndPin]
      · exact hbump .other
      · rw [answered_error]
        exact hbump err
      · exact follows_setPinnedRow id

/-- The work on another row. -/
theorem Op.OfRow.skips {k : Kind} {row : StuckRow} {o : Op} (ho : o.OfRow k row)
    (hne : k = .xorb → row.hash ≠ h) : o.SkipsRow h := by
  cases ho with
  | loadXorbBody hk => exact hne hk
  | _ => exact hne

/-- The row loop, from the grip of the rows still to be handled. -/
theorem follows_sweepRows (rows : List StuckRow) {g : Grip}
    (hg : g = Grip.pick h rows ∨ g = .lost) :
    (sweepRows reconcileXorbRow rows).Follows (gripOn h) req (fun g' _ => g'.over) g := by
  induction rows generalizing g with
  | nil => exact hg
  | cons row rows ih =>
      have hrest : ∀ g', g' = Grip.pick h rows ∨ g' = .lost → ∀ handled : Except DbError Bool,
          (sweepRows reconcileXorbRow rows >>= fun rest =>
            pure ((if handled = .ok true then 1 else 0) + rest)).Follows (gripOn h) req
              (fun g' _ => g'.over) g' := by
        intro g' hg' handled
        exact (ih hg').bind fun _ _ hover => hover
      by_cases hlost : g = .lost
      · subst hlost
        have hsweep := (uses_reconcileXorbRow row).mono fun _ ho => ho.ofSweep
        refine (follows_of_lost hsweep).bind ?_
        rintro g' handled rfl
        exact hrest .lost (.inr rfl) handled
      · have hpick : g = Grip.pick h (row :: rows) := hg.resolve_right hlost
        by_cases hh : row.hash = h
        · -- The only row of this hash: afterwards there is none.
          subst hh
          have hnone : rows.filter (fun r => r.hash = row.hash) = [] := by
            cases hf : rows.filter (fun r => r.hash = row.hash) with
            | nil => rfl
            | cons r rs => simp [Grip.pick, hf, hlost] at hpick
          have hstate : row.pinState ≠ .uploading := by
            intro hup
            simp [Grip.pick, hnone, hup, hlost] at hpick
          have hselected : g = .selected row.pinAttempts := by
            simpa [Grip.pick, hnone, hstate] using hpick
          rw [hselected]
          refine (follows_reconcileXorbRow hstate).bind ?_
          rintro g' handled rfl
          refine hrest _ (.inl ?_) handled
          simp [Grip.pick, hnone]
        · have hskip := (uses_reconcileXorbRow row).mono fun _ ho => ho.skips fun _ => hh
          refine (follows_of_skips hskip).bind ?_
          rintro g' handled rfl
          refine hrest _ (.inl ?_) handled
          simpa [Grip.pick, hh] using hpick

theorem follows_reconcileOnce :
    reconcileOnce.Follows (gripOn h) req (fun g' _ => g'.over) .free := by
  refine ⟨trivial, ?_⟩
  rintro (_ | xorbRows)
  · exact .inl rfl
  · have hpick : (gripOn h).after .free (.sql (.fetchStuck .xorb)) (.ok xorbRows) =
        Grip.pick h xorbRows := by
      simp [gripOn, Grip.after]
    rw [hpick]
    refine (follows_sweepRows xorbRows (.inl rfl)).bind ?_
    intro g' handled hover
    -- The shard half of the pass leaves the grip as it is.
    refine ⟨trivial, ?_⟩
    rintro (_ | shardRows)
    · exact hover
    · have hshards : (sweepRows reconcileShardRow shardRows).Uses (Op.SkipsRow h) :=
        uses_sweepRows fun row _ => (uses_reconcileShardRow row).mono fun _ ho => ho.skips nofun
      refine (follows_of_skips hshards).bind ?_
      rintro g'' _ rfl
      exact hover

theorem follows_code (x : Crates) (req : Request) :
    (code x req).Follows (gripOn h) req (fun _ _ => True) .free := by
  cases req with
  | uploadXorb pathPrefix hashSuffix body =>
      exact (follows_uploadXorb x pathPrefix hashSuffix body).bind fun _ _ _ => trivial
  | uploadShard body => exact (follows_uploadShard x body).bind fun _ _ _ => trivial
  | sweep => exact follows_reconcileOnce.bind fun _ _ _ => trivial

end Programs

/-! ## Failures and their count -/

inductive Failure
  | other
  | unavailable
  | timeout
  deriving DecidableEq, Repr

def failureOf {α : Type} : SiaCall α → Option Failure
  | .ok (.ok _) => none
  | .ok (.error .other) => some .other
  | .ok (.error .unavailable) => some .unavailable
  | .error () => some .timeout

/-- The failure of a Sia call for the row `h`. -/
def siaFailure (h : Hash) : Call Op Res → Option Failure
  | ⟨.uploadAndPin .xorb h' _, answer⟩ => if h' = h then failureOf answer else none
  | ⟨.pinOnly .xorb h' _, answer⟩ => if h' = h then failureOf answer else none
  | _ => none

/-- The Sia adapter itself returned `SiaAdapterError::Other`. -/
def isOther (h : Hash) (e : Entry Request Op Res) : Bool :=
  siaFailure h e.call = some .other

/-- A transient failure that is counted as if it were permanent: an exceeded budget, or
unavailability in an upload handler. -/
def isMiscounted (h : Hash) (e : Entry Request Op Res) : Bool :=
  siaFailure h e.call = some .timeout ||
    (siaFailure h e.call = some .unavailable && e.request ≠ .sweep)

/-- A sweep found no bytes for the row, and makes a failure of that itself. -/
def isMissing (h : Hash) (e : Entry Request Op Res) : Bool :=
  match e.call with
  | ⟨.sql (.loadXorbBody h'), .ok none⟩ => h' = h
  | _ => false

/-- The row was inserted or revived. -/
def begins : Option PinRow → Option PinRow → Bool
  | none, some _ => true
  | some r, some r' => r.pinState = .orphaned && r'.pinState ≠ .orphaned
  | _, none => false

@[simp] theorem begins_self (r : Option PinRow) : begins r r = false := by
  cases r <;> simp [begins]

theorem begins_of_pinning {r : PinRow} (hr : r.pinState = .pinning) (r' : Option PinRow) :
    begins (some r) r' = false := by
  cases r' <;> simp [begins, hr]

def weight (h : Hash) (e : Entry Request Op Res) : Nat :=
  (isOther h e).toNat + (isMiscounted h e).toNat + (isMissing h e).toNat

/-! ## The ledger of a row -/

/-- The row `h` is `'pinning'` with `n` attempts. -/
def RowIs (h : Hash) (db : Database) (n : Nat) : Prop :=
  ∃ r, db.pin .xorb h = some r ∧ r.pinState = .pinning ∧ r.pinAttempts = n

/-- What the grip of a running task says about the row. -/
def Grip.Fits (h : Hash) (db : Database) (count : Nat) : Grip → Prop
  | .free => True
  | .owner => RowIs h db 0
  | .selected n => RowIs h db n
  | .failed n => RowIs h db n ∧ n + 1 ≤ count
  | .settled => ∃ n, RowIs h db n
  | .lost => False

/-- A row has no more attempts than failures were counted, and is orphaned only at the cap. -/
def RowCounted (h : Hash) (db : Database) (count : Nat) : Prop :=
  ∀ r, db.pin .xorb h = some r →
    (r.pinState = .pinning → r.pinAttempts ≤ count) ∧
      (r.pinState = .orphaned → maxPinAttempts ≤ count)

/-- The row, the grips of the running tasks on it, and the failures counted. -/
structure Ledger (h : Hash) (db : Database) (count : Nat) (grips : Nat → Option Grip) : Prop where
  once : ∀ i j g g', grips i = some g → grips j = some g' → g ≠ .free → g' ≠ .free → i = j
  fits : ∀ i g, grips i = some g → g.Fits h db count
  counted : RowCounted h db count

section LedgerRules

variable {h : Hash} {db db' : Database} {n n' i : Nat} {g g' : Grip} {grips : Nat → Option Grip}

/-- Who has the row in hand is alone with it. -/
theorem Ledger.alone (hinv : Ledger h db n grips) (hi : grips i = some g) (hg : g ≠ .free) :
    ∀ j, j ≠ i → ∀ g', grips j = some g' → g' = .free := by
  intro j hji g' hj
  by_contra hg'
  exact hji (hinv.once j i g' g hj hi hg' hg)

theorem Ledger.of_alone (halone : ∀ j, j ≠ i → ∀ g', grips j = some g' → g' = .free)
    (hfits : g.Fits h db n) (hcounted : RowCounted h db n) :
    Ledger h db n (Function.update grips i (some g)) := by
  have hother : ∀ j g', j ≠ i → Function.update grips i (some g) j = some g' → g' = .free := by
    intro j g' hji hj
    exact halone j hji g' (by simpa [hji] using hj)
  refine ⟨?_, ?_, hcounted⟩
  · intro j k gj gk hj hk hgj hgk
    by_cases hji : j = i
    · by_cases hki : k = i
      · rw [hji, hki]
      · exact absurd (hother k gk hki hk) hgk
    · exact absurd (hother j gj hji hj) hgj
  · intro j gj hj
    by_cases hji : j = i
    · subst hji
      have hEq : g = gj := by simpa using hj
      exact hEq ▸ hfits
    · have hfree := hother j gj hji hj
      subst hfree
      trivial

/-- The same row, and at least the same count. -/
theorem Grip.Fits.frame (hrow : db'.pin .xorb h = db.pin .xorb h) (hn : n ≤ n')
    (hg : g.Fits h db n) : g.Fits h db' n' := by
  have hrowIs : ∀ m, RowIs h db m → RowIs h db' m := by
    intro m hm
    simpa only [RowIs, hrow] using hm
  cases g with
  | free => trivial
  | owner => exact hrowIs _ hg
  | selected m => exact hrowIs _ hg
  | failed m => exact ⟨hrowIs _ hg.1, Nat.le_trans hg.2 hn⟩
  | settled =>
      rcases hg with ⟨m, hm⟩
      exact ⟨m, hrowIs m hm⟩
  | lost => exact hg

theorem RowCounted.frame (hrow : db'.pin .xorb h = db.pin .xorb h) (hn : n ≤ n')
    (hc : RowCounted h db n) : RowCounted h db' n' := by
  intro r hr
  rw [hrow] at hr
  have hold := hc r hr
  exact ⟨fun hp => Nat.le_trans (hold.1 hp) hn, fun ho => Nat.le_trans (hold.2 ho) hn⟩

/-- An operation that has nothing to do with the row. -/
theorem Ledger.frame (hinv : Ledger h db n grips) (hi : grips i = some g)
    (hrow : db'.pin .xorb h = db.pin .xorb h) (hn : n ≤ n') :
    Ledger h db' n' (Function.update grips i (some g)) := by
  rw [← hi, Function.update_eq_self]
  refine ⟨hinv.once, ?_, hinv.counted.frame hrow hn⟩
  intro j gj hj
  exact (hinv.fits j gj hj).frame hrow hn

/-- Fewer tasks are running. -/
theorem Ledger.shrink {grips' : Nat → Option Grip} (hinv : Ledger h db n grips)
    (hsub : ∀ j g', grips' j = some g' → grips j = some g') : Ledger h db n grips' :=
  { once := fun j k gj gk hj hk => hinv.once j k gj gk (hsub j gj hj) (hsub k gk hk)
    fits := fun j gj hj => hinv.fits j gj (hsub j gj hj)
    counted := hinv.counted }

/-- A new task has nothing to do with the row. -/
theorem Ledger.start (hinv : Ledger h db n grips) (hi : grips i = none) :
    Ledger h db n (Function.update grips i (some .free)) := by
  have hold : ∀ j g', g' ≠ .free → Function.update grips i (some .free) j = some g' →
      grips j = some g' := by
    intro j g' hg' hj
    by_cases hji : j = i
    · subst hji
      have hEq : Grip.free = g' := by simpa using hj
      exact absurd hEq.symm hg'
    · simpa [hji] using hj
  refine ⟨?_, ?_, hinv.counted⟩
  · intro j k gj gk hj hk hgj hgk
    exact hinv.once j k gj gk (hold j gj hgj hj) (hold k gk hgk hk) hgj hgk
  · intro j gj hj
    by_cases hgj : gj = .free
    · subst hgj
      trivial
    · exact hinv.fits j gj (hold j gj hgj hj)

end LedgerRules

/-! ## One operation -/

/-- The operations that have to do with the row `h`. -/
inductive Op.OnRow (h : Hash) : Op → Prop
  | insertPending (n : Nat) (bounds : List Int) : OnRow h (.sql (.insertPending h n bounds))
  | insertXorbBody (content : Bytes) : OnRow h (.sql (.insertXorbBody h content))
  | fetchStuck : OnRow h (.sql (.fetchStuck .xorb))
  | loadXorbBody : OnRow h (.sql (.loadXorbBody h))
  | uploadAndPin (bytes : Bytes) : OnRow h (.uploadAndPin .xorb h bytes)
  | pinOnly (id : Bytes) : OnRow h (.pinOnly .xorb h id)
  | setPinState (state : XorbPinState) (id : Option Bytes) :
      OnRow h (.sql (.setPinState .xorb h state id))
  | setPinned (id : Bytes) : OnRow h (.sql (.setPinned .xorb h id))
  | touchAttempt : OnRow h (.sql (.touchAttempt .xorb h))
  | bumpAttempt : OnRow h (.sql (.bumpAttempt .xorb h))
  | orphan : OnRow h (.sql (.orphan .xorb h))

theorem Op.skipsRow_or_onRow (h : Hash) (o : Op) : o.SkipsRow h ∨ o.OnRow h := by
  by_cases hskip : o.SkipsRow h
  · exact .inl hskip
  · refine .inr ?_
    -- Every statement that names a row names one; it is `h` or it is skipped.
    cases o with
    | sql s =>
        cases s with
        | insertPending h' n bounds =>
            obtain rfl : h' = h := by simpa [Op.SkipsRow] using hskip
            exact .insertPending n bounds
        | insertXorbBody h' content =>
            obtain rfl : h' = h := by simpa [Op.SkipsRow] using hskip
            exact .insertXorbBody content
        | fetchStuck k =>
            obtain rfl : k = .xorb := by simpa [Op.SkipsRow] using hskip
            exact .fetchStuck
        | loadXorbBody h' =>
            obtain rfl : h' = h := by simpa [Op.SkipsRow] using hskip
            exact .loadXorbBody
        | setPinState k h' state id =>
            obtain ⟨rfl, rfl⟩ : k = .xorb ∧ h' = h := by simpa [Op.SkipsRow] using hskip
            exact .setPinState state id
        | setPinned k h' id =>
            obtain ⟨rfl, rfl⟩ : k = .xorb ∧ h' = h := by simpa [Op.SkipsRow] using hskip
            exact .setPinned id
        | touchAttempt k h' =>
            obtain ⟨rfl, rfl⟩ : k = .xorb ∧ h' = h := by simpa [Op.SkipsRow] using hskip
            exact .touchAttempt
        | bumpAttempt k h' =>
            obtain ⟨rfl, rfl⟩ : k = .xorb ∧ h' = h := by simpa [Op.SkipsRow] using hskip
            exact .bumpAttempt
        | orphan k h' =>
            obtain ⟨rfl, rfl⟩ : k = .xorb ∧ h' = h := by simpa [Op.SkipsRow] using hskip
            exact .orphan
        | _ => exact absurd trivial hskip
    | uploadAndPin k h' bytes =>
        obtain ⟨rfl, rfl⟩ : k = .xorb ∧ h' = h := by simpa [Op.SkipsRow] using hskip
        exact .uploadAndPin bytes
    | pinOnly k h' id =>
        obtain ⟨rfl, rfl⟩ : k = .xorb ∧ h' = h := by simpa [Op.SkipsRow] using hskip
        exact .pinOnly id
    | rateLimit => exact absurd trivial hskip

section OneOperation

variable {h : Hash} {db db' : Database} {n i : Nat} {req : Request} {g : Grip}
  {grips : Nat → Option Grip} {e : Env}

def countAfter (h : Hash) (db db' : Database) (n : Nat) (entry : Entry Request Op Res) : Nat :=
  if begins (db.pin .xorb h) (db'.pin .xorb h) then 0 else n + weight h entry

/-- The ledger after task `i`, with grip `g`, performed an operation. -/
abbrev LedgerAfter (h : Hash) (db db' : Database) (n i : Nat) (req : Request) (g : Grip)
    (grips : Nat → Option Grip) (o : Op) (r : Res o) : Prop :=
  Ledger h db' (countAfter h db db' n ⟨i, req, ⟨o, r⟩⟩)
    (Function.update grips i (some (Grip.after h g o r)))

/-- An operation that leaves the row alone and is no Sia call for it. -/
theorem Ledger.op_frame {o : Op} {r : Res o} (hinv : Ledger h db n grips) (hi : grips i = some g)
    (hafter : Grip.after h g o r = g) (hrow : db'.pin .xorb h = db.pin .xorb h) :
    LedgerAfter h db db' n i req g grips o r := by
  rw [LedgerAfter, hafter]
  refine hinv.frame hi hrow ?_
  simp [countAfter, hrow]

/-- Every grip but `free` is on a row that is pinning. -/
theorem Ledger.free_of_not (hinv : Ledger h db n grips) (hnot : ∀ m, ¬RowIs h db m) :
    ∀ j g', grips j = some g' → g' = .free := by
  intro j g' hj
  have hfits := hinv.fits j g' hj
  cases g' with
  | free => rfl
  | owner => exact absurd hfits (hnot _)
  | selected m => exact absurd hfits (hnot _)
  | failed m => exact absurd hfits.1 (hnot _)
  | settled =>
      rcases hfits with ⟨m, hm⟩
      exact absurd hm (hnot m)
  | lost => exact hfits.elim

/-- A revived row starts again at zero; no task that minds has it in hand. -/
theorem Ledger.op_revive {o : Op} {r : Res o} {row : PinRow} (hinv : Ledger h db n grips)
    (hi : grips i = some g) (hafter : Grip.after h g o r = g)
    (hrow : db.pin .xorb h = some row) (horphaned : row.pinState = .orphaned)
    (hrow' : db'.pin .xorb h = some row.revive) :
    LedgerAfter h db db' n i req g grips o r := by
  have hnot : ∀ m, ¬RowIs h db m := by
    rintro m ⟨row₁, hrow₁, hpinning, -⟩
    rw [hrow] at hrow₁
    cases hrow₁
    rw [horphaned] at hpinning
    cases hpinning
  rw [LedgerAfter, hafter, ← hi, Function.update_eq_self]
  refine ⟨hinv.once, ?_, ?_⟩
  · intro j gj hj
    obtain rfl := hinv.free_of_not hnot j gj hj
    trivial
  · intro row₁ hrow₁
    rw [hrow'] at hrow₁
    cases hrow₁
    simp [PinRow.revive]

/-- An operation on other rows. -/
theorem Ledger.op_skips {o : Op} {r : Res o} (hinv : Ledger h db n grips) (hi : grips i = some g)
    (hskip : o.SkipsRow h) (he : exec o e db = some (db', r)) :
    LedgerAfter h db db' n i req g grips o r := by
  have hafter : Grip.after h g o r = g := hskip.after r
  rcases exec_cases he with ⟨rfl, -⟩ | ⟨now, scan, s, rs, -, hcall, hs⟩
  · exact hinv.op_frame hi hafter rfl
  · cases hcall
    rcases pin_exec hs .xorb h with hmap | ⟨-, m, hcreates, -⟩
    · cases hrow : db.pin .xorb h with
      | none =>
          rw [hrow] at hmap
          exact hinv.op_frame hi hafter (hmap.trans hrow.symm)
      | some row =>
          rw [hrow, Option.map_some] at hmap
          have hupdate := s.rowUpdate now .xorb h row
          -- of the statements that change the row only a revival is not one of its own
          generalize s.pinEffect now .xorb h row = row' at hupdate hmap
          cases hupdate with
          | keep => exact hinv.op_frame hi hafter (hmap.trans hrow.symm)
          | setPinState state id hEq =>
              subst hEq
              exact absurd rfl (hskip rfl)
          | setPinned id hEq =>
              subst hEq
              exact absurd rfl (hskip rfl)
          | touchAttempt hEq =>
              subst hEq
              exact absurd rfl (hskip rfl)
          | bumpAttempt hEq =>
              subst hEq
              exact absurd rfl (hskip rfl)
          | orphan hEq =>
              subst hEq
              exact absurd rfl (hskip rfl)
          | revive hashes hEq _ horphaned =>
              exact hinv.op_revive hi hafter hrow horphaned hmap
    · cases s with
      | insertPending h' n' bounds =>
          obtain ⟨rfl, -⟩ := hcreates
          exact absurd rfl hskip
      | _ => exact hcreates.elim

/-- Without a row nobody has it in hand. -/
theorem Ledger.free_of_none (hinv : Ledger h db n grips) (hnone : db.pin .xorb h = none) :
    ∀ j g', grips j = some g' → g' = .free := by
  refine hinv.free_of_not ?_
  rintro m ⟨row, hrow, -⟩
  rw [hnone] at hrow
  cases hrow

theorem Ledger.op_insertPending {m : Nat} {bounds : List Int}
    {r : Res (.sql (.insertPending h m bounds))} (hinv : Ledger h db n grips)
    (hi : grips i = some .free) (he : exec (.sql (.insertPending h m bounds)) e db = some (db', r)) :
    LedgerAfter h db db' n i req .free grips (.sql (.insertPending h m bounds)) r := by
  rcases exec_cases he with ⟨rfl, herr⟩ | ⟨now, scan, s, rs, -, hcall, hs⟩
  · have hEq := herr _ rfl
    subst hEq
    cases he
    exact hinv.op_frame hi rfl rfl
  · cases hcall
    have hpin := pin_insertPending db h m bounds .xorb h
    obtain ⟨rfl, rfl⟩ := Prod.mk.inj (Option.some.inj hs)
    cases hrow : db.pin .xorb h with
    -- the row is there: nothing is inserted and nothing is gripped
    | some row =>
        have hfind : (db.xorbs.find h).isNone = false := by
          cases hf : db.xorbs.find h with
          | none => simp [Database.pin, hf] at hrow
          | some _ => rfl
        refine hinv.op_frame hi ?_ ?_
        · simp [Grip.after, Database.insertPending, hfind]
        · simpa [hrow] using hpin
    -- the caller owns the new row, and the count starts over
    | none =>
        have hfind : (db.xorbs.find h).isNone = true := by
          cases hf : db.xorbs.find h with
          | none => rfl
          | some _ => simp [Database.pin, hf] at hrow
        have hnew : (db.insertPending h m bounds).1.pin .xorb h = some (PinRow.fresh m) := by
          simpa [hrow] using hpin
        have howner : Grip.after h .free (.sql (.insertPending h m bounds))
            (.ok (db.insertPending h m bounds).2) = .owner := by
          simp [Grip.after, Database.insertPending, hfind]
        rw [LedgerAfter, howner]
        refine Ledger.of_alone (fun j _ => hinv.free_of_none hrow j) ⟨_, hnew, rfl, rfl⟩ ?_
        intro row hrow'
        rw [hnew] at hrow'
        cases hrow'
        simp [PinRow.fresh]

theorem Ledger.op_insertXorbBody {content : Bytes} {r : Res (.sql (.insertXorbBody h content))}
    (hinv : Ledger h db n grips) (hi : grips i = some g)
    (he : exec (.sql (.insertXorbBody h content)) e db = some (db', r)) :
    LedgerAfter h db db' n i req g grips (.sql (.insertXorbBody h content)) r := by
  refine hinv.op_frame hi rfl ?_
  rcases exec_cases he with ⟨rfl, -⟩ | ⟨now, scan, s, rs, -, hcall, hs⟩
  · rfl
  · cases hcall
    rcases pin_exec hs .xorb h with hmap | ⟨-, _, hfalse, -⟩
    · rw [hmap]
      cases db.pin .xorb h <;> rfl
    · exact hfalse.elim

/-! ### Selecting and loading -/

/-- What a sweep takes in hand: the row as it is, or nothing. -/
theorem pick_fetchStuck {scan : List (Hash × PinRow)} (now : Nat)
    (hperm : scan.Perm (db.pinRows .xorb))
    (hstate : ∀ row, db.pin .xorb h = some row → row.pinState ≠ .uploading) :
    Grip.pick h (Database.fetchStuck scan now) = .free ∨
      ∃ m, Grip.pick h (Database.fetchStuck scan now) = .selected m ∧ RowIs h db m := by
  have hnodup := nodup_fetchStuck hperm now
  unfold Grip.pick
  match hl : (Database.fetchStuck scan now).filter fun row => row.hash = h with
  | [] =>
      rw [hl]
      exact .inl rfl
  | [row] =>
      have hmem : row ∈ Database.fetchStuck scan now ∧ row.hash = h := by
        have hin : row ∈ (Database.fetchStuck scan now).filter fun row => row.hash = h := by
          rw [hl]
          exact List.mem_singleton.2 rfl
        simpa using hin
      rcases pin_of_fetchStuck hperm hmem.1 with ⟨r, hr, hstuck, hrow⟩
      rw [hmem.2] at hr
      have hnot := hstate r hr
      have hpinning : r.pinState = .pinning := by
        have hor : r.pinState = .uploading ∨ r.pinState = .pinning := by
          simp only [PinRow.stuck, Bool.and_eq_true, decide_eq_true_eq] at hstuck
          exact hstuck.1.1
        exact hor.resolve_left hnot
      have hrowState : row.pinState ≠ .uploading := by
        rw [hrow]
        exact hnot
      refine .inr ⟨row.pinAttempts, ?_, r, hr, hpinning, ?_⟩
      · rw [hl]
        exact if_neg hrowState
      · rw [hrow]
        rfl
  | row :: row' :: rest =>
      -- Two selected rows of one key: the table has none.
      have hsub : ((row :: row' :: rest).map StuckRow.hash).Nodup := by
        rw [← hl]
        exact hnodup.sublist (List.filter_sublist.map _)
      have hhash : ∀ r ∈ row :: row' :: rest, r.hash = h := by
        intro r hr
        rw [← hl] at hr
        simpa using (List.mem_filter.1 hr).2
      have h₁ := hhash row (by simp)
      have h₂ := hhash row' (by simp)
      simp [h₁, h₂] at hsub

theorem Ledger.op_fetchStuck {r : Res (.sql (.fetchStuck .xorb))} (hinv : Ledger h db n grips)
    (hi : grips i = some g)
    (hstate : ∀ row, db.pin .xorb h = some row → row.pinState ≠ .uploading)
    (hexcl : Grip.after h g (.sql (.fetchStuck .xorb)) r ≠ g →
      ∀ j, j ≠ i → ∀ g', grips j = some g' → g' = .free)
    (he : exec (.sql (.fetchStuck .xorb)) e db = some (db', r)) :
    LedgerAfter h db db' n i req g grips (.sql (.fetchStuck .xorb)) r := by
  have hkeep : db' = db → Grip.after h g (.sql (.fetchStuck .xorb)) r = g →
      LedgerAfter h db db' n i req g grips (.sql (.fetchStuck .xorb)) r := by
    rintro rfl hafter
    exact hinv.op_frame hi hafter rfl
  cases r with
  | error err =>
      refine hkeep ?_ rfl
      rcases exec_cases he with ⟨hEq, -⟩ | ⟨now, scan, s, rs, -, hcall, hs⟩
      · exact hEq
      · cases hcall
        simp only [Stmt.exec] at hs
        split at hs <;> cases hs
  | ok rows =>
      obtain ⟨hdb, now, scan, -, hperm, hrows⟩ := fetchStuck_exec he
      by_cases hg : g = .free
      -- the row is selected only while nobody else has it in hand
      · subst hg
        rcases pick_fetchStuck now hperm hstate with hfree | ⟨m, hsel, hrowIs⟩
        · refine hkeep hdb ?_
          simp [Grip.after, hrows, hfree]
        · have hafter : Grip.after h .free (.sql (.fetchStuck .xorb)) (.ok rows) =
              .selected m := by
            simp [Grip.after, hrows, hsel]
          have halone := hexcl (by simp [hafter])
          subst hdb
          rw [LedgerAfter, hafter]
          refine Ledger.of_alone halone hrowIs ?_
          exact hinv.counted.frame rfl (by simp [countAfter])
      · refine hkeep hdb ?_
        simp [Grip.after, hg]

/-- The bytes are there, or a failure is counted. -/
theorem Ledger.op_loadXorbBody {m : Nat} {r : Res (.sql (.loadXorbBody h))}
    (hinv : Ledger h db n grips) (hi : grips i = some (.selected m))
    (he : exec (.sql (.loadXorbBody h)) e db = some (db', r)) :
    LedgerAfter h db db' n i req (.selected m) grips (.sql (.loadXorbBody h)) r := by
  have halone := hinv.alone hi (by simp)
  have hrowIs : RowIs h db m := hinv.fits i _ hi
  rcases exec_cases he with ⟨rfl, herr⟩ | ⟨now, scan, s, rs, -, hcall, hs⟩
  · have hEq := herr _ rfl
    subst hEq
    cases he
    have hafter : Grip.after h (.selected m) (.sql (.loadXorbBody h)) (.error .connection) =
        .free := if_pos rfl
    rw [LedgerAfter, hafter]
    exact Ledger.of_alone halone trivial (hinv.counted.frame rfl (by simp [countAfter]))
  · cases hcall
    obtain ⟨rfl, rfl⟩ := Prod.mk.inj (Option.some.inj hs)
    cases hbody : db.loadXorbBody h with
    | some bytes => exact hinv.op_frame hi rfl rfl
    -- no body: the sweep makes a failure of its own of it
    | none =>
        have hafter : Grip.after h (.selected m) (.sql (.loadXorbBody h)) (.ok none) =
            .failed m := if_pos rfl
        have hweight : weight h ⟨i, req, ⟨.sql (.loadXorbBody h), .ok none⟩⟩ = 1 := by
          simp [weight, isOther, isMiscounted, isMissing, siaFailure]
        rw [LedgerAfter, hafter]
        refine Ledger.of_alone halone ⟨hrowIs, ?_⟩ (hinv.counted.frame rfl (by simp [countAfter]))
        rcases hrowIs with ⟨row, hrow, hpinning, rfl⟩
        have hle := (hinv.counted row hrow).1 hpinning
        simp only [countAfter, begins_self, hweight]
        exact Nat.succ_le_succ hle

/-! ### Sia calls -/

/-- A failure of a Sia call for the row that its task is going to count is counted. -/
theorem weight_of_failed {α : Type} {m : Nat} {answer : SiaCall α}
    {entry : Entry Request Op Res} (hfail : siaFailure h entry.call = failureOf answer)
    (hgrip : (g = .owner ∧ entry.request ≠ .sweep) ∨ ∃ m', g = .selected m')
    (hfailed : g.answered answer = .failed m) : 1 ≤ weight h entry := by
  have hone : (isOther h entry).toNat + (isMiscounted h entry).toNat = 1 := by
    rcases hgrip with ⟨rfl, hreq⟩ | ⟨m', rfl⟩
    · rcases answer with _ | (_ | _) | _
      · simp [isOther, isMiscounted, hfail, failureOf]
      · simp [isOther, isMiscounted, hfail, failureOf, hreq]
      · simp [isOther, isMiscounted, hfail, failureOf]
      · cases hfailed
    · rcases answer with _ | (_ | _) | _
      · simp [isOther, isMiscounted, hfail, failureOf]
      · cases hfailed
      · simp [isOther, isMiscounted, hfail, failureOf]
      · cases hfailed
  rw [weight, hone]
  exact Nat.le_add_right _ _

/-- The count the grip remembers is the count of the row. -/
theorem answered_cases {α : Type} {m : Nat} (answer : SiaCall α)
    (hgrip : (g = .owner ∧ m = 0) ∨ g = .selected m) :
    g.answered answer = .settled ∨ g.answered answer = .failed m := by
  rcases hgrip with ⟨rfl, rfl⟩ | rfl <;> rcases answer with _ | (_ | _) | _ <;>
    simp [Grip.answered]

theorem Ledger.op_sia {α : Type} {m : Nat} {answer : SiaCall α} {entry : Entry Request Op Res}
    (hinv : Ledger h db n grips) (hi : grips i = some g)
    (hfail : siaFailure h entry.call = failureOf answer)
    (hgrip : (g = .owner ∧ m = 0 ∧ entry.request ≠ .sweep) ∨ g = .selected m) :
    Ledger h db (countAfter h db db n entry)
      (Function.update grips i (some (g.answered answer))) := by
  have hcount : countAfter h db db n entry = n + weight h entry := by simp [countAfter]
  have hrowIs : RowIs h db m := by
    rcases hgrip with ⟨rfl, rfl, -⟩ | rfl
    · exact hinv.fits i _ hi
    · exact hinv.fits i _ hi
  have hne : g ≠ .free := by
    rcases hgrip with ⟨rfl, -⟩ | rfl <;> simp
  have hcounted : RowCounted h db (countAfter h db db n entry) :=
    hinv.counted.frame rfl (by omega)
  refine Ledger.of_alone (hinv.alone hi hne) ?_ hcounted
  have hcases := answered_cases (g := g) (m := m) answer
    (hgrip.imp (fun hg => ⟨hg.1, hg.2.1⟩) id)
  rcases hcases with hsettled | hfailed
  · rw [hsettled]
    exact ⟨m, hrowIs⟩
  · -- The failure was counted just now, on top of what the row already had.
    have hweight := weight_of_failed hfail (hgrip.imp (fun hg => ⟨hg.1, hg.2.2⟩) fun hg => ⟨m, hg⟩)
      hfailed
    rw [hfailed]
    refine ⟨hrowIs, ?_⟩
    rcases hrowIs with ⟨row, hrow, hpinning, rfl⟩
    have hle := (hinv.counted row hrow).1 hpinning
    omega

/-! ### Writing the row -/

/-- A write gives the row back. -/
theorem Ledger.op_write {s : Stmt} {r : Res (.sql s)} (hinv : Ledger h db n grips)
    (hi : grips i = some g) (hne : g ≠ .free) (hlost : g ≠ .lost)
    (hafter : Grip.after h g (.sql s) r = g.released)
    (hweight : weight h ⟨i, req, ⟨.sql s, r⟩⟩ = 0)
    (he : exec (.sql s) e db = some (db', r))
    (hrow : ∃ row, db.pin .xorb h = some row ∧ row.pinState = .pinning ∧
      ∀ now, (row.pinState = .pinning → row.pinAttempts ≤ n) →
        ((s.pinEffect now .xorb h row).pinState = .pinning →
          (s.pinEffect now .xorb h row).pinAttempts ≤ n) ∧
        ((s.pinEffect now .xorb h row).pinState = .orphaned → maxPinAttempts ≤ n)) :
    LedgerAfter h db db' n i req g grips (.sql s) r := by
  rcases hrow with ⟨row, hold, hpinning, heffect⟩
  have hfree : Grip.after h g (.sql s) r = .free := by
    rw [hafter]
    cases g <;> first | rfl | exact absurd rfl hlost
  have hcount : countAfter h db db' n ⟨i, req, ⟨.sql s, r⟩⟩ = n := by
    simp [countAfter, hold, begins_of_pinning hpinning, hweight]
  rw [LedgerAfter, hfree, hcount]
  refine Ledger.of_alone (hinv.alone hi hne) trivial ?_
  rcases exec_cases he with ⟨rfl, -⟩ | ⟨now, scan, s', rs, -, hcall, hexec⟩
  · exact hinv.counted
  · cases hcall
    intro row' hrow'
    rcases pin_exec hexec .xorb h with hmap | ⟨hnone, -⟩
    -- the statement ran: the row is what its effect makes of it
    · rw [hmap, hold] at hrow'
      cases hrow'
      exact heffect now (hinv.counted row hold).1
    · rw [hold] at hnone
      cases hnone

/-- The row a task with an answered call has in hand. -/
theorem Ledger.row_of_settled (hinv : Ledger h db n grips) (hi : grips i = some .settled) :
    ∃ row, db.pin .xorb h = some row ∧ row.pinState = .pinning := by
  rcases hinv.fits i _ hi with ⟨m, row, hrow, hpinning, -⟩
  exact ⟨row, hrow, hpinning⟩

/-- Every operation a task may perform with its grip keeps the ledger. -/
theorem Ledger.op {o : Op} {r : Res o} (hinv : Ledger h db n grips) (hi : grips i = some g)
    (hok : Grip.ok h req g o)
    (hstate : ∀ row, db.pin .xorb h = some row → row.pinState ≠ .uploading)
    (hexcl : o = .sql (.fetchStuck .xorb) → Grip.after h g o r ≠ g →
      ∀ j, j ≠ i → ∀ g', grips j = some g' → g' = .free)
    (he : exec o e db = some (db', r)) : LedgerAfter h db db' n i req g grips o r := by
  by_cases hlost : g = .lost
  · subst hlost
    exact (hinv.fits i .lost hi).elim
  -- operations on other rows change neither the row nor the grips on it
  rcases Op.skipsRow_or_onRow h o with hskip | hon
  · exact hinv.op_skips hi hskip he
  cases hon with
  | insertPending m bounds =>
      have hg := hok rfl
      subst hg
      exact hinv.op_insertPending hi he
  | insertXorbBody content =>
      exact hinv.op_insertXorbBody hi he
  | fetchStuck => exact hinv.op_fetchStuck hi hstate (hexcl rfl) he
  | loadXorbBody =>
      rcases hok rfl with ⟨m, rfl⟩ | hg
      · exact hinv.op_loadXorbBody hi he
      · exact absurd hg hlost
  -- a Sia call writes nothing; only its answer moves the grip
  | uploadAndPin bytes =>
      have hdb : db' = db := by
        rcases exec_cases he with ⟨hEq, -⟩ | ⟨now, scan, s, rs, -, hcall, -⟩
        · exact hEq
        · cases hcall
      subst hdb
      have hafter : Grip.after h g (.uploadAndPin .xorb h bytes) r = g.answered r := if_pos rfl
      rw [LedgerAfter, hafter]
      rcases hok rfl with ⟨hg, hreq⟩ | ⟨m, hg⟩ | hg
      · exact hinv.op_sia hi (by simp [siaFailure]) (.inl ⟨hg, rfl, hreq⟩)
      · exact hinv.op_sia hi (by simp [siaFailure]) (.inr hg)
      · exact absurd hg hlost
  | pinOnly id =>
      have hdb : db' = db := by
        rcases exec_cases he with ⟨hEq, -⟩ | ⟨now, scan, s, rs, -, hcall, -⟩
        · exact hEq
        · cases hcall
      subst hdb
      have hafter : Grip.after h g (.pinOnly .xorb h id) r = g.answered r := if_pos rfl
      rw [LedgerAfter, hafter]
      rcases hok rfl with ⟨m, hg⟩ | hg
      · exact hinv.op_sia hi (by simp [siaFailure]) (.inr hg)
      · exact absurd hg hlost
  -- the two state writes of an upload: pinned with an id, or left as it was
  | setPinState state id =>
      rcases hok rfl with ⟨rfl, rfl⟩ | ⟨rfl, rfl⟩
      · rcases hinv.row_of_settled hi with ⟨row, hrow, hpinning⟩
        refine hinv.op_write hi (by simp) hlost (if_pos rfl) rfl he
          ⟨row, hrow, hpinning, ?_⟩
        intro now _
        simp [Stmt.pinEffect, PinRow.setPinState]
      · rcases hinv.fits i _ hi with ⟨⟨row, hrow, hpinning, hzero⟩, hcount⟩
        refine hinv.op_write hi (by simp) hlost (if_pos rfl) rfl he
          ⟨row, hrow, hpinning, ?_⟩
        intro now _
        simp [Stmt.pinEffect, PinRow.setPinState, hzero]
        omega
  | setPinned id =>
      rcases hok rfl with rfl | hg
      · rcases hinv.row_of_settled hi with ⟨row, hrow, hpinning⟩
        refine hinv.op_write hi (by simp) hlost (if_pos rfl) rfl he
          ⟨row, hrow, hpinning, ?_⟩
        intro now _
        simp [Stmt.pinEffect, PinRow.setPinned, hpinning]
      · exact absurd hg hlost
  | touchAttempt =>
      rcases hok rfl with rfl | hg
      · rcases hinv.row_of_settled hi with ⟨row, hrow, hpinning⟩
        refine hinv.op_write hi (by simp) hlost (if_pos rfl) rfl he
          ⟨row, hrow, hpinning, ?_⟩
        intro now hle
        simpa [Stmt.pinEffect, PinRow.touchAttempt, hpinning] using hle hpinning
      · exact absurd hg hlost
  -- the failure at hand becomes an attempt in the row
  | bumpAttempt =>
      rcases hok rfl with ⟨m, rfl⟩ | hg
      · rcases hinv.fits i _ hi with ⟨⟨row, hrow, hpinning, hm⟩, hcount⟩
        refine hinv.op_write hi (by simp) hlost (if_pos rfl) rfl he
          ⟨row, hrow, hpinning, ?_⟩
        intro now _
        simp [Stmt.pinEffect, PinRow.bumpAttempt, hpinning, hm]
        omega
      · exact absurd hg hlost
  -- the last failure: the row is at the cap and leaves the ledger
  | orphan =>
      rcases hok rfl with ⟨m, rfl, hcap⟩ | hg
      · rcases hinv.fits i _ hi with ⟨⟨row, hrow, hpinning, hm⟩, hcount⟩
        refine hinv.op_write hi (by simp) hlost (if_pos rfl) rfl he
          ⟨row, hrow, hpinning, ?_⟩
        intro now _
        simp [Stmt.pinEffect, PinRow.orphan]
        omega
      · exact absurd hg hlost

end OneOperation

/-! ## Whole runs -/

namespace State

variable {x : Crates} {h : Hash} {c c' : State} {a : Step} {tr : List Transition}

def grips (h : Hash) (c : State) (i : Nat) : Option Grip :=
  (c.pending i).map fun _ => (gripOn h).phaseOf i c.log

/-- The operation a step performed: the newest entry of the log. -/
def performed (st : Transition) : Option (Entry Request Op Res) :=
  match st.2.1 with
  | .call _ _ => st.2.2.log.head?
  | _ => none

/-- The performed operations that meet `p`, since the row `h` was inserted or last revived. -/
def tally (h : Hash) (p : Entry Request Op Res → Bool) (tr : List Transition) : Nat :=
  tr.foldl
    (fun n st =>
      if begins (st.1.store.pin .xorb h) (st.2.2.store.pin .xorb h) then 0
      else n + (performed st).elim 0 fun e => (p e).toNat)
    0

/-- The failures the Sia adapter returned as `Other`. -/
def otherFailures (h : Hash) (tr : List Transition) : Nat :=
  tally h (isOther h) tr

/-- The transient failures counted as permanent. -/
def miscountedFailures (h : Hash) (tr : List Transition) : Nat :=
  tally h (isMiscounted h) tr

/-- The sweeps that found no body for the row. -/
def missingBodies (h : Hash) (tr : List Transition) : Nat :=
  tally h (isMissing h) tr

def countedFailures (h : Hash) (tr : List Transition) : Nat :=
  otherFailures h tr + miscountedFailures h tr + missingBodies h tr

/-- A sweep selects the row while another running task has it in hand. -/
def Overlap (h : Hash) (c : State) (a : Step) : Prop :=
  ∃ i now scan, a = .call i (.sql now scan) ∧ c.pending i = some (.sql (.fetchStuck .xorb)) ∧
    h ∈ (Database.fetchStuck scan now).map StuckRow.hash ∧
    ∃ j g, j ≠ i ∧ c.grips h j = some g ∧ g ≠ .free

/-- No transient failure orphans a row that has its body, and no row is orphaned before the adapter
returned `MAX_PIN_ATTEMPTS` failures as `Other`. -/
structure OrphanedJustly (h : Hash) (tr : List Transition) (c : State) : Prop where
  spared : HasBody c.store h → (∀ st ∈ tr, ∀ e, performed st = some e → isOther h e = false) →
    ∀ r, c.store.pin .xorb h = some r → r.pinState ≠ .orphaned
  earned : ∀ r, c.store.pin .xorb h = some r → r.pinState = .orphaned →
    maxPinAttempts ≤ otherFailures h tr

theorem tally_snoc (p : Entry Request Op Res → Bool) (tr : List Transition) (st : Transition) :
    tally h p (tr ++ [st]) =
      if begins (st.1.store.pin .xorb h) (st.2.2.store.pin .xorb h) then 0
      else tally h p tr + (performed st).elim 0 fun e => (p e).toNat := by
  simp [tally, List.foldl_append]

theorem tally_eq_zero {p : Entry Request Op Res → Bool}
    (hp : ∀ st ∈ tr, ∀ e, performed st = some e → p e = false) : tally h p tr = 0 := by
  induction tr using List.reverseRecOn with
  | nil => rfl
  | append_singleton tr st ih =>
      have hinit := ih fun st' hst' => hp st' (List.mem_append_left _ hst')
      rw [tally_snoc, hinit]
      cases he : performed st with
      | none => simp
      | some e =>
          have hnot := hp st (List.mem_append_right _ (List.mem_singleton.2 rfl)) e he
          simp [hnot]

/-- The count after a step that performed nothing on the row's behalf. -/
theorem countedFailures_snoc_silent {st : Transition} (hstore : st.2.2.store = st.1.store)
    (hsilent : performed st = none) :
    countedFailures h (tr ++ [st]) = countedFailures h tr := by
  simp [countedFailures, otherFailures, miscountedFailures, missingBodies, tally_snoc, hstore,
    hsilent]

/-- The count after an operation. -/
theorem countedFailures_snoc_call {i : Nat} {e : Env} {entry : Entry Request Op Res}
    {log : List (Entry Request Op Res)} (hlog : c'.log = entry :: log) :
    countedFailures h (tr ++ [(c, .call i e, c')]) =
      countAfter h c.store c'.store (countedFailures h tr) entry := by
  have hperformed : performed (c, .call i e, c') = some entry := by simp [performed, hlog]
  simp only [countedFailures, otherFailures, miscountedFailures, missingBodies, tally_snoc,
    hperformed, countAfter, weight, Option.elim_some]
  split
  · rfl
  · omega

theorem grips_of_task {i : Nat} {req : Request} {o : Op} {k : Res o → Code Outcome}
    (ht : c.tasks i = some ⟨req, some (.call o k)⟩) :
    c.grips h i = some ((gripOn h).phaseOf i c.log) := by
  simp [grips, pending_of_task ht, Prog.next]

theorem mem_of_pick {rows : List StuckRow} (hpick : Grip.pick h rows ≠ .free) :
    h ∈ rows.map StuckRow.hash := by
  by_contra hmem
  have hnil : rows.filter (fun row => row.hash = h) = [] := by
    refine List.filter_eq_nil_iff.2 ?_
    intro row hrow hhash
    exact hmem (List.mem_map.2 ⟨row, hrow, by simpa using hhash⟩)
  exact hpick (by simp [Grip.pick, hnil])

/-- One step of the service keeps the ledger, with the count of the longer run. -/
theorem ledger_next (hreach : Reachable x anyStep c) (hconf : Conforms (gripOn h) c)
    (hs : c.next x a = some c') (ha : ¬Overlap h c a)
    (hinv : Ledger h c.store (countedFailures h tr) (c.grips h)) :
    Ledger h c'.store (countedFailures h (tr ++ [(c, a, c')])) (c'.grips h) := by
  rcases Pool.step_cases hs with ⟨i, req, rfl, ht, rfl⟩ |
    ⟨i, e, req, o, k, db, r, rfl, ht, he, hc'⟩ | ⟨i, req, p, rfl, ht, rfl⟩
  · -- A new task has an empty log, so it has nothing to do with the row.
    rw [countedFailures_snoc_silent rfl rfl]
    have hnone : c.grips h i = none := by simp [grips, pending, ht]
    have hphase : (gripOn h).phaseOf i c.log = .free :=
      Typestate.phaseOf_eq_start (hconf.unused i ht)
    refine (hinv.start hnone).shrink ?_
    intro j g hj
    by_cases hji : j = i
    · subst hji
      rcases Option.map_eq_some_iff.1 hj with ⟨_, -, hg⟩
      have hfree : Grip.free = g := hphase.symm.trans hg
      simp [hfree]
    · simpa [grips, pending, Pool.setTask, hji] using hj
  · -- Task `i` performs an operation with its grip.
    have hlog : c'.log = ⟨i, req, ⟨o, r⟩⟩ :: c.log := by rw [hc']
    have hstore : c'.store = db := by rw [hc']
    have htasks : ∀ j, j ≠ i → c'.tasks j = c.tasks j := by
      intro j hji
      rw [hc']
      simp [hji]
    have hok := (hconf.follows i req _ ht).1
    rw [countedFailures_snoc_call hlog, hstore]
    have hop := hinv.op (grips_of_task ht) hok
      (fun row hrow => hreach.not_uploading hrow) ?_ he
    · refine hop.shrink ?_
      intro j g hj
      by_cases hji : j = i
      · subst hji
        rcases Option.map_eq_some_iff.1 hj with ⟨_, -, hg⟩
        rw [hlog, Typestate.phaseOf_cons_self] at hg
        rw [Function.update_self]
        exact congrArg some hg
      · have hphase : (gripOn h).phaseOf j c'.log = (gripOn h).phaseOf j c.log := by
          rw [hlog]
          exact Typestate.phaseOf_cons_of_ne hji _ _ _
        simpa [grips, pending, htasks j hji, hphase, hji] using hj
    · -- The row is selected only while nobody else has it in hand.
      rintro rfl hchange j hji g' hj
      by_contra hg'
      cases r with
      | error err => exact hchange rfl
      | ok rows =>
          obtain ⟨-, now, scan, rfl, -, hrows⟩ := fetchStuck_exec he
          have hpick : Grip.pick h rows ≠ .free := by
            intro hfree
            refine hchange ?_
            by_cases hg : (gripOn h).phaseOf i c.log = .free
            · simp [Grip.after, hg, hfree]
            · simp [Grip.after, hg]
          refine ha ⟨i, now, scan, rfl, pending_of_task ht, ?_, j, g', hji, hj, hg'⟩
          rw [← hrows]
          exact mem_of_pick hpick
  · rw [countedFailures_snoc_silent rfl rfl]
    refine hinv.shrink ?_
    intro j g hj
    by_cases hji : j = i
    · subst hji
      simp [grips, pending, Pool.setTask] at hj
    · simpa [grips, pending, Pool.setTask, hji] using hj

theorem ledger_of_run (hrun : Run x tr c) (hexcl : ∀ st ∈ tr, ¬Overlap h st.1 st.2.1) :
    Ledger h c.store (countedFailures h tr) (c.grips h) := by
  induction hrun with
  | nil =>
      refine ⟨?_, ?_, ?_⟩
      · intro i j g g' hi
        cases hi
      · intro i g hi
        cases hi
      · intro r hr
        cases hr
  | @snoc tr c₁ c₂ a hp hs ih =>
      have hreach : Reachable x anyStep c₁ := ⟨tr, hp, fun _ _ => trivial⟩
      have hconf : Conforms (gripOn h) c₁ :=
        hreach.conforms (Conforms.init _ _) (follows_code x)
      have hlast : ¬Overlap h c₁ a :=
        hexcl (c₁, a, c₂) (List.mem_append_right _ (List.mem_singleton.2 rfl))
      exact ledger_next hreach hconf hs hlast
        (ih fun st hst => hexcl st (List.mem_append_left _ hst))

/-- In every run in which only one running task at a time has the row in hand: as long as the only
failures counted are the adapter's own, or those counted are below the cap, the row is orphaned only
by permanent failures. -/
theorem orphanedJustly_of_count (hrun : Run x tr c) (hexcl : ∀ st ∈ tr, ¬Overlap h st.1 st.2.1)
    (hcount : miscountedFailures h tr + missingBodies h tr = 0 ∨
      countedFailures h tr < maxPinAttempts) :
    OrphanedJustly h tr c := by
  have hledger := ledger_of_run hrun hexcl
  have hcap : ∀ r, c.store.pin .xorb h = some r → r.pinState = .orphaned →
      maxPinAttempts ≤ otherFailures h tr := by
    intro r hr horphaned
    have hle := (hledger.counted r hr).2 horphaned
    rw [countedFailures] at hcount hle
    omega
  refine ⟨?_, hcap⟩
  intro _ htransient r hr horphaned
  have hzero : otherFailures h tr = 0 := tally_eq_zero htransient
  have hle := hcap r hr horphaned
  simp [hzero, maxPinAttempts] at hle

/-- Nobody else has the row in hand when a sweep selects.  Only tasks of the log can have it. -/
def exclusiveCheck (h : Hash) (c : State) : Step → Bool
  | .call i (.sql _ _) =>
      match c.pending i with
      | some (.sql (.fetchStuck .xorb)) =>
          c.log.all fun e => e.task = i || (c.grips h e.task).all fun g => g = .free
      | _ => true
  | _ => true

theorem not_overlap_of_check (hcheck : exclusiveCheck h c a = true) : ¬Overlap h c a := by
  rintro ⟨i, now, scan, rfl, hp, -, j, g, hji, hj, hg⟩
  have hall : ∀ e ∈ c.log, e.task = i ∨ ∀ g', c.grips h e.task = some g' → g' = .free := by
    simpa [exclusiveCheck, hp, Option.all_eq_true] using hcheck
  have hlogged : ∃ e ∈ c.log, e.task = j := by
    by_contra hno
    have hstart : (gripOn h).phaseOf j c.log = .free :=
      Typestate.phaseOf_eq_start fun e he hEq => hno ⟨e, he, hEq⟩
    rcases Option.map_eq_some_iff.1 hj with ⟨_, -, hEq⟩
    exact hg (hEq.symm.trans hstart)
  rcases hlogged with ⟨e, he, rfl⟩
  rcases hall e he with hEq | hfree
  · exact hji hEq
  · exact hg (hfree g hj)

/-- A complete sweep over the sample row as given, with the answer of its Sia call. -/
def sweepWith (answer : SiaCall Bytes) (i now : Nat) (row : PinRow) : List Step :=
  [.spawn i .sweep, .call i (.sql now [(sampleHash, row)]), .call i (.sql now []),
    .call i (.upload answer), .call i (.sql now []), .call i (.sql now [])]

/-- An upload whose Sia call gets the answer, up to its state write. -/
def uploadWith (answer : SiaCall Bytes) : List Step :=
  [.spawn 0 (.uploadXorb "default" sampleHex sampleBody), .call 0 (.rateLimit (.ok ())),
    .call 0 (.sql 0 []), .call 0 (.sql 0 []), .call 0 (.upload answer), .call 0 (.sql 0 [])]

def fourSweeps (answer : SiaCall Bytes) : List Step :=
  sweepWith answer 1 (10 ^ 9) (pinningRow 1 0) ++
  sweepWith answer 2 (2 * 10 ^ 9) (pinningRow 2 (10 ^ 9)) ++
  sweepWith answer 3 (3 * 10 ^ 9) (pinningRow 3 (2 * 10 ^ 9)) ++
  sweepWith answer 4 (4 * 10 ^ 9) (pinningRow 4 (3 * 10 ^ 9))

/-- An upload that is dropped before it has stored the body. -/
def droppedUpload : List Step :=
  [.spawn 0 (.uploadXorb "default" sampleHex sampleBody), .call 0 (.rateLimit (.ok ())),
    .call 0 (.sql 0 []), .drop 0]

/-- A complete sweep over the sample row as given, which finds no body. -/
def sweepWithout (i now : Nat) (row : PinRow) : List Step :=
  [.spawn i .sweep, .call i (.sql now [(sampleHash, row)]), .call i (.sql now []),
    .call i (.sql now []), .call i (.sql now [])]

def fiveSweepsWithout : List Step :=
  sweepWithout 1 (10 ^ 9) (PinRow.fresh 11) ++
  sweepWithout 2 (2 * 10 ^ 9) (pinningRow 1 (10 ^ 9)) ++
  sweepWithout 3 (3 * 10 ^ 9) (pinningRow 2 (2 * 10 ^ 9)) ++
  sweepWithout 4 (4 * 10 ^ 9) (pinningRow 3 (3 * 10 ^ 9)) ++
  sweepWithout 5 (5 * 10 ^ 9) (pinningRow 4 (4 * 10 ^ 9))

/-- The run is exclusive, orphans the sample row, with its body or without, and has these tallies. -/
def orphanedAfter (bodied : Bool) (others miscounted missing : Nat) (tr : List Transition)
    (c : State) : Bool :=
  tr.all (fun st => exclusiveCheck sampleHash st.1 st.2.1) &&
    decide ((c.store.xorbBodies.find sampleHash).isSome = bodied) &&
    ((c.store.pin .xorb sampleHash).any fun r => r.pinState = .orphaned) &&
    decide (otherFailures sampleHash tr = others) &&
    decide (miscountedFailures sampleHash tr = miscounted) &&
    decide (missingBodies sampleHash tr = missing)

theorem orphanedAfter_iff {bodied : Bool} {others miscounted missing : Nat}
    (hP : orphanedAfter bodied others miscounted missing tr c = true) :
    (∀ st ∈ tr, ¬Overlap sampleHash st.1 st.2.1) ∧
      (∃ r, c.store.pin .xorb sampleHash = some r ∧ r.pinState = .orphaned) ∧
      otherFailures sampleHash tr = others ∧ miscountedFailures sampleHash tr = miscounted ∧
      missingBodies sampleHash tr = missing := by
  simp only [orphanedAfter, Bool.and_eq_true, List.all_eq_true, decide_eq_true_eq,
    Option.any_eq_true] at hP
  obtain ⟨⟨⟨⟨⟨hcheck, -⟩, r, hr, horphaned⟩, hothers⟩, hmiscounted⟩, hmissing⟩ := hP
  refine ⟨?_, ⟨r, hr, by simpa using horphaned⟩, hothers, hmiscounted, hmissing⟩
  intro st hst
  exact not_overlap_of_check (hcheck st hst)

theorem orphanedJustly_of_count_fourSweeps :
    ∃ tr c, Run (bareCrates fun _ => Hash.fill 0) tr c ∧ orphanedAfter true 5 0 0 tr c = true ∧
      OrphanedJustly sampleHash tr c := by
  have heval : (traceAll (bareCrates fun _ => Hash.fill 0) [] initial
      (uploadWith (.ok (.error .other)) ++ fourSweeps (.ok (.error .other)))).map
        (fun t => orphanedAfter true 5 0 0 t.1 t.2) = some true := by
    decide +kernel
  rcases exists_trace heval with ⟨tr, c, hrun, hP⟩
  obtain ⟨hexcl, -, -, hmiscounted, hmissing⟩ := orphanedAfter_iff hP
  refine ⟨tr, c, hrun, hP, orphanedJustly_of_count hrun hexcl (.inl ?_)⟩
  rw [hmiscounted, hmissing]

/-- Five exceeded budgets orphan a row whose body is there. -/
theorem not_orphanedJustly :
    ¬∀ (x : Crates) (h : Hash) (tr : List Transition) (c : State), Run x tr c →
      (∀ st ∈ tr, ¬Overlap h st.1 st.2.1) → OrphanedJustly h tr c := by
  intro hclaim
  have heval : (traceAll (bareCrates fun _ => Hash.fill 0) [] initial
      (uploadWith (.error ()) ++ [.call 0 (.sql 0 [])] ++ fourSweeps (.error ()))).map
        (fun t => orphanedAfter true 0 5 0 t.1 t.2) = some true := by
    decide +kernel
  rcases exists_trace heval with ⟨tr, c, hrun, hP⟩
  obtain ⟨hexcl, ⟨r, hr, horphaned⟩, hothers, -⟩ := orphanedAfter_iff hP
  have hle := (hclaim _ sampleHash tr c hrun hexcl).earned r hr horphaned
  simp [hothers, maxPinAttempts] at hle

/-- A row whose body was never stored is orphaned without a single Sia call. -/
example : (traceAll (bareCrates fun _ => Hash.fill 0) [] initial
    (droppedUpload ++ fiveSweepsWithout)).map (fun t => orphanedAfter false 0 0 5 t.1 t.2) =
      some true := by
  decide +kernel

end State

end Service
end OpenWeights
