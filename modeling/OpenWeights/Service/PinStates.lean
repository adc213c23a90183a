import OpenWeights.Core.Wire
import OpenWeights.Service.Machine

/-!
# PinStates — the pin state machine along whole runs

Which runs keep a pinned row pinned, and which keep a row that is still `'pinning'` below the
attempt cap.  The statements that write `pin_state` and `pin_attempts` are not guarded by the
current row (only `set_pinned_*` is), and a sweep decides between bump and orphan from the row it
selected.  So both properties depend on what a late write finds; the theorems say exactly on what.
-/

namespace OpenWeights
namespace Service

open Lib Db OpenWeights.Core

/-! ## Pinned rows -/

theorem xorbPinned_iff {db : Database} {h : Hash} :
    db.xorbPinned h = true ↔ ∃ r, db.pin .xorb h = some r ∧ r.pinState = .pinned := by
  unfold Database.xorbPinned Database.pin
  cases hf : db.xorbs.find h with
  | none => simp [hf]
  | some row => simp [hf]

namespace State

/-- No step of the run changes the `pin_state` of a pinned xorb row. -/
def PinnedAbsorbing (tr : List Transition) : Prop :=
  ∀ st ∈ tr, ∀ h, st.1.store.xorbPinned h = true → st.2.2.store.xorbPinned h = true

/-- A late write: an upload handler whose Sia call failed writes `'pinning'`, or a sweep orphans,
and the row it writes was pinned in the meantime. -/
def LateUnpin (c : State) (a : Step) : Prop :=
  ∃ i now scan h, a = .call i (.sql now scan) ∧ c.store.xorbPinned h = true ∧
    (c.pending i = some (.sql (.setPinState .xorb h .pinning none)) ∨
      c.pending i = some (.sql (.orphan .xorb h)))

variable {x : Crates} {c c' : State} {a : Step}

/-- Every statement of the service other than the two late writes keeps a pinned row pinned. -/
theorem pinned_pinEffect {s : Stmt} (hs : (Op.sql s).Regular) {now : Nat} {h : Hash} {r : PinRow}
    (hr : r.pinState = .pinned) (hpinning : s ≠ .setPinState .xorb h .pinning none)
    (horphan : s ≠ .orphan .xorb h) : (s.pinEffect now .xorb h r).pinState = .pinned := by
  have hupdate := s.rowUpdate now .xorb h r
  generalize s.pinEffect now .xorb h r = r' at hupdate ⊢
  cases hupdate with
  | keep => exact hr
  | setPinState state id hEq =>
      subst hEq
      rcases hs with ⟨rfl, _⟩ | ⟨rfl, rfl⟩
      · rfl
      · exact absurd rfl hpinning
  | setPinned id _ => simp [PinRow.setPinned, hr]
  | touchAttempt _ => exact hr
  | bumpAttempt _ => exact hr
  | orphan hEq => exact absurd hEq horphan
  | revive hashes _ _ horphaned =>
      rw [hr] at horphaned
      cases horphaned

/-- One step: a pinned row stays pinned unless the step is a late write. -/
theorem xorbPinned_next (hreach : Reachable x anyStep c) (hs : c.next x a = some c')
    (ha : ¬LateUnpin c a) {h : Hash} (hpinned : c.store.xorbPinned h = true) :
    c'.store.xorbPinned h = true := by
  rcases xorbPinned_iff.1 hpinned with ⟨r, hr, hstate⟩
  refine xorbPinned_iff.2 ?_
  rcases pin_next hs hr with hkeep | ⟨i, now, scan, s, rfl, hp, hr'⟩
  · exact ⟨r, hkeep, hstate⟩
  · refine ⟨_, hr', pinned_pinEffect (hreach.pending_regular hp) hstate ?_ ?_⟩
    · rintro rfl
      exact ha ⟨i, now, scan, h, rfl, hpinned, .inl hp⟩
    · rintro rfl
      exact ha ⟨i, now, scan, h, rfl, hpinned, .inr hp⟩

/-- One step: a late write unpins the row. -/
theorem not_xorbPinned_of_lateUnpin (hs : c.next x a = some c') (ha : LateUnpin c a) :
    ∃ h, c.store.xorbPinned h = true ∧ c'.store.xorbPinned h ≠ true := by
  rcases ha with ⟨i, now, scan, h, rfl, hpinned, hp⟩
  rcases xorbPinned_iff.1 hpinned with ⟨r, hr, -⟩
  refine ⟨h, hpinned, ?_⟩
  intro hafter
  rcases xorbPinned_iff.1 hafter with ⟨r', hr', hstate'⟩
  rcases hp with hp | hp
  · have hEq := pin_next_sql hs hp hr
    rw [hr'] at hEq
    cases hEq
    simp [Stmt.pinEffect, PinRow.setPinState] at hstate'
  · have hEq := pin_next_sql hs hp hr
    rw [hr'] at hEq
    cases hEq
    simp [Stmt.pinEffect, PinRow.orphan] at hstate'

/-- A run keeps every pinned xorb row pinned exactly when none of its steps is a late write. -/
theorem pinnedAbsorbing_iff {tr : List Transition} (hrun : Run x tr c) :
    PinnedAbsorbing tr ↔ ∀ st ∈ tr, ¬LateUnpin st.1 st.2.1 := by
  constructor
  · intro habs st hst hlate
    rcases not_xorbPinned_of_lateUnpin (hrun.step_eq st hst) hlate with ⟨h, hbefore, hafter⟩
    exact hafter (habs st hst h hbefore)
  · intro hcond st hst h hpinned
    have hreach : Reachable x anyStep st.1 := hrun.source_reaches (fun _ _ => trivial) st hst
    exact xorbPinned_next hreach (hrun.step_eq st hst) (hcond st hst) hpinned

/-- An upload up to its Sia call, and a sweep that selects the fresh row, uploads the stored body
and pins it.  The handler's own Sia call then exceeds its budget. -/
def racingSteps : List Step :=
  [.spawn 0 (.uploadXorb "default" sampleHex sampleBody), .call 0 (.rateLimit (.ok ())),
    .call 0 (.sql 1 []), .call 0 (.sql 2 []),
    .spawn 1 .sweep, .call 1 (.sql 3 [(sampleHash, PinRow.fresh 11)]), .call 1 (.sql 3 []),
    .call 1 (.upload (.ok (.ok [7]))), .call 1 (.sql 4 []),
    .call 0 (.upload (.error ()))]

/-- Up to the timeout the run is one in which the pinned row stays pinned. -/
theorem pinnedAbsorbing_iff_racingSteps :
    ∃ tr c, Run (bareCrates fun _ => Hash.fill 0) tr c ∧ c.store.xorbPinned sampleHash = true ∧
      (PinnedAbsorbing tr ↔ ∀ st ∈ tr, ¬LateUnpin st.1 st.2.1) := by
  have heval : (initial.runAll (bareCrates fun _ => Hash.fill 0) racingSteps).map
      (fun c => c.store.xorbPinned sampleHash) = some true := by
    decide +kernel
  rcases exists_run heval with ⟨tr, c, hrun, hpinned⟩
  exact ⟨tr, c, hrun, hpinned, pinnedAbsorbing_iff hrun⟩

/-- The handler's write after the timeout takes the pin away again. -/
theorem not_pinnedAbsorbing :
    ¬∀ (x : Crates) (tr : List Transition) (c : State), Run x tr c → PinnedAbsorbing tr := by
  intro hclaim
  have heval : (initial.runAll (bareCrates fun _ => Hash.fill 0) racingSteps).bind
      (fun c => (c.next (bareCrates fun _ => Hash.fill 0) (.call 0 (.sql 5 []))).map fun c' =>
        c.store.xorbPinned sampleHash && !c'.store.xorbPinned sampleHash) = some true := by
    decide +kernel
  rcases exists_run_step heval with ⟨tr, c, c', hrun, hstep, hbefore, hafter⟩
  have hlong : Run (bareCrates fun _ => Hash.fill 0) (tr ++ [(c, .call 0 (.sql 5 []), c')]) c' :=
    .snoc hrun hstep
  have hkeep := hclaim _ _ _ hlong (c, .call 0 (.sql 5 []), c') (by simp) sampleHash hbefore
  simp [hkeep] at hafter

/-! ## The attempt cap -/

/-- Every row in `'pinning'` is below the attempt cap, so it is selected again once its last
attempt is old enough. -/
def NoZombies (db : Database) : Prop :=
  ∀ k h r, db.pin k h = some r → r.pinState = .pinning →
    r.pinAttempts < maxPinAttempts ∧
      ∀ now, PinRow.attemptIsOld now r.lastPinAttemptAt = true → r.stuck now = true

/-- A write past the cap: a handler leaves a row `'pinning'`, or a sweep bumps a row that is
`'pinning'`, when the row has no attempt left. -/
def OverCount (c : State) (a : Step) : Prop :=
  ∃ i now scan k h r, a = .call i (.sql now scan) ∧ c.store.pin k h = some r ∧
    maxPinAttempts ≤ r.pinAttempts + 1 ∧
      (c.pending i = some (.sql (.setPinState k h .pinning none)) ∨
        (c.pending i = some (.sql (.bumpAttempt k h)) ∧ r.pinState = .pinning))

theorem stuck_of_lt {r : PinRow} (hstate : r.pinState = .pinning)
    (hlt : r.pinAttempts < maxPinAttempts) {now : Nat}
    (hold : PinRow.attemptIsOld now r.lastPinAttemptAt = true) : r.stuck now = true := by
  simp [PinRow.stuck, hstate, hlt, hold]

/-- A statement that leaves a row `'pinning'` at or above the cap found it there, or is one of the
two writes that count without looking. -/
theorem lt_of_pinEffect {s : Stmt} (hs : (Op.sql s).Regular) {now : Nat} {k : Kind} {h : Hash}
    {r : PinRow} (hr : r.pinState = .pinning → r.pinAttempts < maxPinAttempts)
    (hset : s = .setPinState k h .pinning none → r.pinAttempts + 1 < maxPinAttempts)
    (hbump : s = .bumpAttempt k h → r.pinState = .pinning → r.pinAttempts + 1 < maxPinAttempts)
    (hafter : (s.pinEffect now k h r).pinState = .pinning) :
    (s.pinEffect now k h r).pinAttempts < maxPinAttempts := by
  have hupdate := s.rowUpdate now k h r
  generalize s.pinEffect now k h r = r' at hupdate hafter ⊢
  cases hupdate with
  | keep => exact hr hafter
  | setPinState state id hEq =>
      subst hEq
      rcases hs with ⟨rfl, _⟩ | ⟨rfl, rfl⟩
      · cases hafter
      · exact hset rfl
  | setPinned id _ =>
      by_cases hp : r.pinState = .pinned
      · simp [PinRow.setPinned, hp] at hafter
      · simp [PinRow.setPinned, hp] at hafter
  | touchAttempt _ => exact hr hafter
  | bumpAttempt hEq => exact hbump hEq hafter
  | orphan _ => cases hafter
  | revive hashes _ _ _ => simp [PinRow.revive, maxPinAttempts]

theorem noZombies_initial : NoZombies initial.store := by
  intro k h r hr
  cases k <;> cases hr

/-- One step: without a write past the cap no zombie appears. -/
theorem noZombies_next (hreach : Reachable x anyStep c) (hs : c.next x a = some c')
    (ha : ¬OverCount c a) (hz : NoZombies c.store) : NoZombies c'.store := by
  intro k h r' hr' hstate'
  have hlt : r'.pinAttempts < maxPinAttempts := by
    cases hr : c.store.pin k h with
    | none =>
        -- A row that did not exist before was inserted by this step, with no attempt counted.
        rcases next_store hs with hEq | ⟨i, now, scan, s, res, -, -, he⟩
        · rw [hEq, hr] at hr'
          cases hr'
        · rcases pin_exec he k h with hmap | ⟨-, n, -, hfresh⟩
          · rw [hmap, hr] at hr'
            cases hr'
          · rw [hfresh] at hr'
            cases hr'
            simp [PinRow.fresh, maxPinAttempts]
    | some r =>
        have hold : r.pinState = .pinning → r.pinAttempts < maxPinAttempts :=
          fun hstate => (hz k h r hr hstate).1
        rcases pin_next hs hr with hkeep | ⟨i, now, scan, s, rfl, hp, heff⟩
        · rw [hkeep] at hr'
          cases hr'
          exact hold hstate'
        · rw [heff] at hr'
          cases hr'
          refine lt_of_pinEffect (hreach.pending_regular hp) hold ?_ ?_ hstate'
          · rintro rfl
            by_contra hge
            exact ha ⟨i, now, scan, k, h, r, rfl, hr, by omega, .inl hp⟩
          · rintro rfl hstate
            by_contra hge
            exact ha ⟨i, now, scan, k, h, r, rfl, hr, by omega, .inr ⟨hp, hstate⟩⟩
  exact ⟨hlt, fun now hold => stuck_of_lt hstate' hlt hold⟩

/-- One step: a write past the cap makes a zombie. -/
theorem not_noZombies_of_overCount (hs : c.next x a = some c') (ha : OverCount c a) :
    ¬NoZombies c'.store := by
  rcases ha with ⟨i, now, scan, k, h, r, rfl, hr, hge, hp | ⟨hp, hstate⟩⟩
  · intro hz
    have hr' := pin_next_sql hs hp hr
    have hlt := (hz k h _ hr' (by simp [Stmt.pinEffect, PinRow.setPinState])).1
    simp only [Stmt.pinEffect, PinRow.setPinState, and_self, if_true] at hlt
    omega
  · intro hz
    have hr' := pin_next_sql hs hp hr
    have hlt := (hz k h _ hr' (by simp [Stmt.pinEffect, PinRow.bumpAttempt, hstate])).1
    simp only [Stmt.pinEffect, PinRow.bumpAttempt, and_self, if_true] at hlt
    omega

/-- A run passes through no zombie exactly when none of its steps is a write past the cap. -/
theorem noZombies_iff {tr : List Transition} (hrun : Run x tr c) :
    (∀ st ∈ tr, NoZombies st.2.2.store) ↔ ∀ st ∈ tr, ¬OverCount st.1 st.2.1 := by
  constructor
  · intro hz st hst hover
    exact not_noZombies_of_overCount (hrun.step_eq st hst) hover (hz st hst)
  · intro hcond
    -- The state reached is part of the induction, so that the next step starts from it.
    suffices hboth : NoZombies c.store ∧ ∀ st ∈ tr, NoZombies st.2.2.store from hboth.2
    induction hrun with
    | nil => exact ⟨noZombies_initial, by simp⟩
    | @snoc tr c₁ c₂ a hp hs ih =>
        have hfirst := ih fun st hst => hcond st (List.mem_append_left _ hst)
        have hlast : ¬OverCount c₁ a :=
          hcond (c₁, a, c₂) (List.mem_append_right _ (List.mem_singleton.2 rfl))
        have hreach : Reachable x anyStep c₁ := ⟨tr, hp, fun _ _ => trivial⟩
        have hnext := noZombies_next hreach hs hlast hfirst.1
        refine ⟨hnext, ?_⟩
        intro st hst
        rcases List.mem_append.1 hst with hst | hst
        · exact hfirst.2 st hst
        · have hEq : st = (c₁, a, c₂) := List.mem_singleton.1 hst
          subst hEq
          exact hnext

/-- The row of the sample body with `n` attempts, last tried at `t`. -/
def pinningRow (n t : Nat) : PinRow :=
  { PinRow.fresh 11 with
    pinAttempts := n
    lastPinAttemptAt := some t }

/-- Sweep `i`, over the row as given, up to its Sia call that fails for good. -/
def failingSweep (i now : Nat) (row : PinRow) : List Step :=
  [.spawn i .sweep, .call i (.sql now [(sampleHash, row)]), .call i (.sql now []),
    .call i (.upload (.ok (.error .other)))]

/-- One counted handler attempt and two failing sweeps; then two sweeps select the row with three
attempts before either of them writes. -/
def overlappingSweeps : List Step :=
  ([.spawn 0 (.uploadXorb "default" sampleHex sampleBody), .call 0 (.rateLimit (.ok ())),
    .call 0 (.sql 0 []), .call 0 (.sql 0 []), .call 0 (.upload (.ok (.error .other))),
    .call 0 (.sql 0 [])] : List Step) ++
  failingSweep 1 (10 ^ 9) (pinningRow 1 0) ++ ([.call 1 (.sql (10 ^ 9) [])] : List Step) ++
  failingSweep 2 (2 * 10 ^ 9) (pinningRow 2 (10 ^ 9)) ++
  ([.call 2 (.sql (2 * 10 ^ 9) [])] : List Step) ++
  failingSweep 3 (3 * 10 ^ 9) (pinningRow 3 (2 * 10 ^ 9)) ++
  failingSweep 4 (3 * 10 ^ 9) (pinningRow 3 (2 * 10 ^ 9)) ++
  ([.call 3 (.sql (3 * 10 ^ 9) [])] : List Step)

/-- The sample row after the given steps is `'pinning'` and has `n` attempts. -/
def pinningWith (n : Nat) (c : State) : Bool :=
  match c.store.pin .xorb sampleHash with
  | some r => r.pinState = .pinning && r.pinAttempts = n
  | none => false

theorem noZombies_iff_overlappingSweeps :
    ∃ tr c, Run (bareCrates fun _ => Hash.fill 0) tr c ∧ pinningWith 4 c = true ∧
      ((∀ st ∈ tr, NoZombies st.2.2.store) ↔ ∀ st ∈ tr, ¬OverCount st.1 st.2.1) := by
  have heval : (initial.runAll (bareCrates fun _ => Hash.fill 0) overlappingSweeps).map
      (pinningWith 4) = some true := by
    decide +kernel
  rcases exists_run heval with ⟨tr, c, hrun, hrow⟩
  exact ⟨tr, c, hrun, hrow, noZombies_iff hrun⟩

/-- The write of the second sweep leaves the row `'pinning'` with five attempts. -/
theorem not_noZombies :
    ¬∀ (x : Crates) (c : State), Reachable x anyStep c → NoZombies c.store := by
  intro hclaim
  have heval : (initial.runAll (bareCrates fun _ => Hash.fill 0)
      (overlappingSweeps ++ [.call 4 (.sql (3 * 10 ^ 9) [])])).map (pinningWith 5) =
        some true := by
    decide +kernel
  rcases exists_run heval with ⟨tr, c, hrun, hrow⟩
  have hz := hclaim _ c ⟨tr, hrun, fun _ _ => trivial⟩
  unfold pinningWith at hrow
  cases hr : c.store.pin .xorb sampleHash with
  | none => simp [hr] at hrow
  | some r =>
      have hfive : r.pinState = .pinning ∧ r.pinAttempts = 5 := by simpa [hr] using hrow
      have hlt := (hz .xorb sampleHash r hr hfive.1).1
      simp [hfive.2, maxPinAttempts] at hlt

/-! ## `'uploading'` is never written -/

theorem not_uploading_pinEffect {s : Stmt} (hs : (Op.sql s).Regular) {now : Nat} {k : Kind}
    {h : Hash} {r : PinRow} (hr : r.pinState ≠ .uploading) :
    (s.pinEffect now k h r).pinState ≠ .uploading := by
  have hupdate := s.rowUpdate now k h r
  generalize s.pinEffect now k h r = r' at hupdate ⊢
  cases hupdate with
  | keep => exact hr
  | setPinState state id hEq =>
      subst hEq
      rcases hs with ⟨rfl, _⟩ | ⟨rfl, rfl⟩ <;> simp [PinRow.setPinState]
  | setPinned id _ => by_cases hp : r.pinState = .pinned <;> simp [PinRow.setPinned, hp]
  | touchAttempt _ => exact hr
  | bumpAttempt _ => exact hr
  | orphan _ => simp [PinRow.orphan]
  | revive hashes _ _ _ => simp [PinRow.revive]

/-- No reachable row is `'uploading'`: the schema default is `'pinning'` and nothing writes it. -/
theorem Reachable.not_uploading {allow : State → Step → Prop} (hreach : Reachable x allow c)
    {k : Kind} {h : Hash} {r : PinRow} (hr : c.store.pin k h = some r) :
    r.pinState ≠ .uploading := by
  have hall : Reachable x allow c ∧
      ∀ k h r, c.store.pin k h = some r → r.pinState ≠ .uploading := by
    apply hreach.invariant (I := fun c : State => Reachable x allow c ∧
      ∀ k h r, c.store.pin k h = some r → r.pinState ≠ .uploading)
    · refine ⟨.refl _, ?_⟩
      intro k h r hr
      cases k <;> cases hr
    · intro c₁ a c₂ hinv ha hs
      refine ⟨hinv.1.tail ha hs, ?_⟩
      intro k h r' hr'
      rcases next_store hs with hEq | ⟨i, now, scan, s, res, rfl, hp, he⟩
      · rw [hEq] at hr'
        exact hinv.2 k h r' hr'
      · rcases pin_exec he k h with hmap | ⟨-, n, -, hfresh⟩
        · rw [hmap] at hr'
          rcases Option.map_eq_some_iff.1 hr' with ⟨r, hr, rfl⟩
          exact not_uploading_pinEffect (hinv.1.pending_regular hp) (hinv.2 k h r hr)
        · rw [hfresh] at hr'
          cases hr'
          simp [PinRow.fresh]
  exact hall.2 k h r hr

end State

end Service
end OpenWeights
