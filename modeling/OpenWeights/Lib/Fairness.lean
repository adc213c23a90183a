import OpenWeights.Lib.Prog

/-!
# Fairness — endless runs of a pool, and what must happen in them

That a task *ends* is a property of runs that go on for ever and pass no task over that can go on.
This module has

* `Endless`          : the endless runs of a pool in which no task is dropped; at some times nothing
  happens, so that a run that is over is one of them;
* `Endless.Fair`     : weak fairness;
* `Endless.moves`    : a task moves on if it can from some time on;
* `Endless.performs` : a program that is free up to one of some operations performs one of them;
* `Endless.ends`     : a task that is never stuck ends.
-/

namespace OpenWeights
namespace Lib

variable {Op : Type} {Res : Op → Type} {σ ε ρ α : Type}

/-- Every way through the program comes to an operation in `goal`, with operations in `free` before
it. -/
def Prog.Until (free goal : Op → Prop) : Prog Op Res α → Prop
  | .done _ => False
  | .call o k => goal o ∨ (free o ∧ ∀ r, (k r).Until free goal)

section Pools

variable (code : ρ → Prog Op Res α) (exec : (o : Op) → ε → σ → Option (σ × Res o))

/-- Task `i` can perform its next operation. -/
def Pool.CanMove (c : Pool σ ρ Op Res α) (i : Nat) : Prop :=
  ∃ e c', c.step code exec (.call i e) = some c'

def Pool.HasEnded (c : Pool σ ρ Op Res α) (i : Nat) : Prop :=
  ∃ req a, c.tasks i = some ⟨req, some (.done a)⟩

/-- A run from `c` without end. -/
structure Endless (c : Pool σ ρ Op Res α) where
  pools : Nat → Pool σ ρ Op Res α
  acts : Nat → Option (Action ρ ε)
  start : pools 0 = c
  idle : ∀ t, acts t = none → pools (t + 1) = pools t
  step : ∀ t a, acts t = some a → (pools t).step code exec a = some (pools (t + 1))
  keeps : ∀ t i, acts t ≠ some (.drop i)

end Pools

variable {code : ρ → Prog Op Res α} {exec : (o : Op) → ε → σ → Option (σ × Res o)}

theorem Pool.canMove_of_exec {c : Pool σ ρ Op Res α} {i : Nat} {req : ρ} {o : Op}
    {k : Res o → Prog Op Res α} (ht : c.tasks i = some ⟨req, some (.call o k)⟩)
    (h : ∃ e s r, exec o e c.store = some (s, r)) : c.CanMove code exec i := by
  obtain ⟨e, s, r, he⟩ := h
  exact ⟨e, _, by simp only [Pool.step, ht, he]; rfl⟩

/-- The steps of the other tasks leave a task alone. -/
theorem Pool.tasks_of_step {c c' : Pool σ ρ Op Res α} {a : Action ρ ε} {i : Nat}
    {t : Task ρ Op Res α} (h : c.step code exec a = some c') (ht : c.tasks i = some t)
    (hcall : ∀ e, a ≠ .call i e) (hdrop : a ≠ .drop i) : c'.tasks i = some t := by
  rcases step_cases h with ⟨j, req, rfl, hj, rfl⟩ | ⟨j, e, req, o, k, s, r, rfl, -, -, rfl⟩ |
    ⟨j, req, p, rfl, -, rfl⟩
  · have hij : i ≠ j := by
      rintro rfl
      rw [hj] at ht
      cases ht
    exact (Function.update_of_ne hij _ _).trans ht
  · have hij : i ≠ j := by
      rintro rfl
      exact hcall e rfl
    exact (Function.update_of_ne hij _ _).trans ht
  · have hij : i ≠ j := by
      rintro rfl
      exact hdrop rfl
    exact (Function.update_of_ne hij _ _).trans ht

namespace Endless

variable {c c' : Pool σ ρ Op Res α}

/-- A task that can go on from some time on does so. -/
def Fair (ω : Endless code exec c) : Prop :=
  ∀ i t, (∀ t', t ≤ t' → (ω.pools t').CanMove code exec i) →
    ∃ t' e, t ≤ t' ∧ ω.acts t' = some (.call i e)

section Prefixes

variable (ω : Endless code exec c)

/-- What holds at the start and is kept by the steps of the run holds all along it. -/
theorem invariant {I : Pool σ ρ Op Res α → Prop} (h₀ : I c)
    (hstep : ∀ t a, ω.acts t = some a → I (ω.pools t) → I (ω.pools (t + 1))) (t : Nat) :
    I (ω.pools t) := by
  induction t with
  | zero =>
      rw [ω.start]
      exact h₀
  | succ t ih =>
      cases hact : ω.acts t with
      | none =>
          rw [ω.idle t hact]
          exact ih
      | some a => exact hstep t a hact ih

/-- What the steps keep stays. -/
theorem stays {I : Pool σ ρ Op Res α → Prop} {t t' : Nat} (h : I (ω.pools t))
    (hstep : ∀ t₁ a, ω.acts t₁ = some a → I (ω.pools t₁) → I (ω.pools (t₁ + 1))) (hle : t ≤ t') :
    I (ω.pools t') := by
  induction t', hle using Nat.le_induction with
  | base => exact h
  | succ t₁ _ ih =>
      cases hact : ω.acts t₁ with
      | none =>
          rw [ω.idle t₁ hact]
          exact ih
      | some a => exact hstep t₁ a hact ih

/-- Nobody is dropped. -/
theorem running (h₀ : ∀ i, c.tasks i = none) {t i : Nat} {task : Task ρ Op Res α}
    (ht : (ω.pools t).tasks i = some task) : ∃ p, task.prog = some p := by
  refine ω.invariant (I := fun c => ∀ i task, c.tasks i = some task → ∃ p, task.prog = some p)
    ?_ ?_ t i task ht
  · intro i task hi
    cases (h₀ i).symm.trans hi
  · intro t a hact hall j task hj
    have hother : ∀ i new, (∃ p, new.prog = some p) →
        Function.update (ω.pools t).tasks i (some new) j = some task → ∃ p, task.prog = some p := by
      intro i new hnew hj
      by_cases hji : j = i
      · subst hji
        rw [Function.update_self] at hj
        cases hj
        exact hnew
      · rw [Function.update_of_ne hji] at hj
        exact hall j task hj
    rcases Pool.step_cases (ω.step t a hact) with ⟨i, req, rfl, -, hc⟩ |
      ⟨i, e, req, o, k, s, r, rfl, -, -, hc⟩ | ⟨i, req, p, rfl, -, -⟩
    · rw [hc] at hj
      exact hother i _ ⟨_, rfl⟩ hj
    · rw [hc] at hj
      exact hother i _ ⟨_, rfl⟩ hj
    · exact absurd hact (ω.keeps t i)

/-- Every pool of an endless run is reached. -/
theorem reaches {allow : Pool σ ρ Op Res α → Action ρ ε → Prop}
    (hall : ∀ t a, ω.acts t = some a → allow (ω.pools t) a) (t : Nat) :
    Reaches code exec allow c (ω.pools t) :=
  ω.invariant (I := Reaches code exec allow c) (.refl c)
    (fun t a hact h => h.tail (hall t a hact) (ω.step t a hact)) t

end Prefixes

section Moves

variable {ω : Endless code exec c} {i t : Nat} {req : ρ} {o : Op} {k : Res o → Prog Op Res α}

/-- Task `i` performs the operation at time `t`. -/
structure PerformsAt (ω : Endless code exec c) (i : Nat) (req : ρ) (o : Op)
    (k : Res o → Prog Op Res α) (t : Nat) (r : Res o) : Prop where
  before : (ω.pools t).tasks i = some ⟨req, some (.call o k)⟩
  exec : ∃ e, exec o e (ω.pools t).store = some ((ω.pools (t + 1)).store, r)
  after : (ω.pools (t + 1)).tasks i = some ⟨req, some (k r)⟩

theorem performsAt_of_call {e : ε} (ht : (ω.pools t).tasks i = some ⟨req, some (.call o k)⟩)
    (hact : ω.acts t = some (.call i e)) : ∃ r, ω.PerformsAt i req o k t r := by
  have hstep := ω.step t _ hact
  rcases Pool.step_cases hstep with ⟨_, _, hEq, -⟩ | ⟨j, e', req', o', k', s, r, hEq, ht', he, hc⟩ |
    ⟨_, _, _, hEq, -⟩
  · cases hEq
  · cases hEq
    cases ht.symm.trans ht'
    exact ⟨r, ht, ⟨e, by rw [hc]; exact he⟩, by rw [hc]; exact Function.update_self _ _ _⟩
  · cases hEq

/-- As long as a task does not perform its operation it is where it was. -/
theorem tasks_of_not_performs (ht : (ω.pools t).tasks i = some ⟨req, some (.call o k)⟩)
    (hnot : ∀ t' r, t ≤ t' → ¬ω.PerformsAt i req o k t' r) {t' : Nat} (hle : t ≤ t') :
    (ω.pools t').tasks i = some ⟨req, some (.call o k)⟩ := by
  induction t', hle using Nat.le_induction with
  | base => exact ht
  | succ t₁ hle ih =>
      cases hact : ω.acts t₁ with
      | none =>
          rw [ω.idle t₁ hact]
          exact ih
      | some a =>
          refine Pool.tasks_of_step (ω.step t₁ a hact) ih ?_ ?_
          · rintro e rfl
            obtain ⟨r, hperforms⟩ := performsAt_of_call ih hact
            exact hnot t₁ r hle hperforms
          · rintro rfl
            exact ω.keeps t₁ i hact

/-- A task performs its operation if it can from some time on. -/
theorem moves (hfair : ω.Fair) (ht : (ω.pools t).tasks i = some ⟨req, some (.call o k)⟩)
    (hcan : ∃ t₁, ∀ t', t₁ ≤ t' → (ω.pools t').tasks i = some ⟨req, some (.call o k)⟩ →
      ∃ e s r, exec o e (ω.pools t').store = some (s, r)) :
    ∃ t' r, t ≤ t' ∧ ω.PerformsAt i req o k t' r := by
  by_contra hnot
  push Not at hnot
  obtain ⟨t₁, hcan⟩ := hcan
  have hsame : ∀ t', t ≤ t' → (ω.pools t').tasks i = some ⟨req, some (.call o k)⟩ :=
    fun t' hle => tasks_of_not_performs ht hnot hle
  obtain ⟨t', e, hle, hact⟩ := hfair i (max t t₁) fun t' hle =>
    Pool.canMove_of_exec (hsame t' (le_of_max_le_left hle))
      (hcan t' (le_of_max_le_right hle) (hsame t' (le_of_max_le_left hle)))
  have hle' := le_of_max_le_left hle
  obtain ⟨r, hperforms⟩ := performsAt_of_call (hsame t' hle') hact
  exact hnot t' r hle' hperforms

/-- A program that is free until it comes to a goal comes to one, if operations that are free or
goals never have to wait. -/
theorem performs (hfair : ω.Fair) {free goal : Op → Prop}
    (hcan : ∀ t o k, (ω.pools t).tasks i = some ⟨req, some (.call o k)⟩ → free o ∨ goal o →
      ∃ e s r, exec o e (ω.pools t).store = some (s, r))
    {p : Prog Op Res α} (hp : p.Until free goal) (ht : (ω.pools t).tasks i = some ⟨req, some p⟩) :
    ∃ t' o k r, t ≤ t' ∧ goal o ∧ ω.PerformsAt i req o k t' r := by
  induction p generalizing t with
  | done a => exact hp.elim
  | call o k ih =>
      have hnow : free o ∨ goal o := hp.symm.imp_left And.left
      obtain ⟨t', r, hle, hperforms⟩ := moves hfair ht ⟨0, fun t' _ h => hcan t' o k h hnow⟩
      rcases hp with hgoal | ⟨-, hrest⟩
      · exact ⟨t', o, k, r, hle, hgoal, hperforms⟩
      · obtain ⟨t₂, o₂, k₂, r₂, hle₂, hgoal, hperforms₂⟩ := ih r (hrest r) hperforms.after
        exact ⟨t₂, o₂, k₂, r₂, by omega, hgoal, hperforms₂⟩

/-- A task that at every operation can go on from some time on ends. -/
theorem ends (hfair : ω.Fair)
    (hcan : ∀ t o k, (ω.pools t).tasks i = some ⟨req, some (.call o k)⟩ →
      ∃ t₁, ∀ t', t₁ ≤ t' → (ω.pools t').tasks i = some ⟨req, some (.call o k)⟩ →
        ∃ e s r, exec o e (ω.pools t').store = some (s, r))
    {p : Prog Op Res α} (ht : (ω.pools t).tasks i = some ⟨req, some p⟩) :
    ∃ t', t ≤ t' ∧ (ω.pools t').HasEnded i := by
  induction p generalizing t with
  | done a => exact ⟨t, le_rfl, req, a, ht⟩
  | call o k ih =>
      obtain ⟨t', r, hle, hperforms⟩ := moves hfair ht (hcan t o k ht)
      obtain ⟨t₂, hle₂, hended⟩ := ih r hperforms.after
      exact ⟨t₂, by omega, hended⟩

end Moves

/-! ## Runs that are over -/

/-- Nothing happens any more. -/
def rest (code : ρ → Prog Op Res α) (exec : (o : Op) → ε → σ → Option (σ × Res o))
    (c : Pool σ ρ Op Res α) : Endless code exec c where
  pools := fun _ => c
  acts := fun _ => none
  start := rfl
  idle := fun _ _ => rfl
  step := nofun
  keeps := nofun

/-- One step before all others. -/
def cons {a : Action ρ ε} (hs : c.step code exec a = some c') (hdrop : ∀ i, a ≠ .drop i)
    (ω : Endless code exec c') : Endless code exec c where
  pools
    | 0 => c
    | t + 1 => ω.pools t
  acts
    | 0 => some a
    | t + 1 => ω.acts t
  start := rfl
  idle
    | 0, hact => by cases hact
    | t + 1, hact => ω.idle t hact
  step
    | 0, b, hact => by
        cases hact
        exact hs.trans (congrArg some ω.start.symm)
    | t + 1, b, hact => ω.step t b hact
  keeps
    | 0, i => fun hEq => hdrop i (Option.some.inj hEq)
    | t + 1, i => ω.keeps t i

/-- A list of steps that pass a check, and nothing after them. -/
theorem exists_of_runChecked {check : Pool σ ρ Op Res α → Action ρ ε → Bool}
    {as : List (Action ρ ε)} (h : c.runChecked code exec check as = some c')
    (hdrop : ∀ i, .drop i ∉ as) :
    ∃ ω : Endless code exec c, (∃ n, ∀ t, n ≤ t → ω.pools t = c') ∧
      ∀ t a, ω.acts t = some a → check (ω.pools t) a = true := by
  induction as generalizing c with
  | nil =>
      cases h
      refine ⟨rest code exec _, ⟨0, fun _ _ => rfl⟩, ?_⟩
      intro t a hact
      cases hact
  | cons a as ih =>
      simp only [Pool.runChecked] at h
      split at h
      · rename_i hcheck
        obtain ⟨c₁, hs, hr⟩ := Option.bind_eq_some_iff.1 h
        obtain ⟨ω, ⟨n, hend⟩, hall⟩ := ih hr fun i hmem => hdrop i (List.mem_cons_of_mem a hmem)
        have hhere : ∀ i, a ≠ .drop i := by
          rintro i rfl
          exact hdrop i List.mem_cons_self
        -- the first step goes before the run of the others
        refine ⟨cons hs hhere ω, ⟨n + 1, ?_⟩, ?_⟩
        · intro t hle
          cases t with
          | zero => omega
          | succ t => exact hend t (by omega)
        · intro t b hact
          cases t with
          | zero =>
              cases hact
              exact hcheck
          | succ t => exact hall t b hact
      · cases h

/-- A run after which nobody can go on is fair. -/
theorem fair_of_finished {ω : Endless code exec c} {n : Nat} (hend : ∀ t, n ≤ t → ω.pools t = c')
    (hfinished : c'.Finished) : ω.Fair := by
  intro i t hcan
  obtain ⟨e, c'', hstep⟩ := hcan (max t n) (le_max_left _ _)
  rw [hend _ (le_max_right _ _)] at hstep
  rcases Pool.step_cases hstep with ⟨_, _, hEq, -⟩ | ⟨j, e', req, o, k, s, r, hEq, ht, -, -⟩ |
    ⟨_, _, _, hEq, -⟩
  · cases hEq
  · obtain ⟨a, ha⟩ := hfinished j _ ht
    cases ha
  · cases hEq

/-- A list of steps that pass a check, after which all tasks have ended, is a fair run. -/
theorem exists_fair {check : Pool σ ρ Op Res α → Action ρ ε → Bool}
    {allow : Pool σ ρ Op Res α → Action ρ ε → Prop} {as : List (Action ρ ε)} {n : Nat}
    {P : Pool σ ρ Op Res α → Bool}
    (heval : (c.runChecked code exec check as).map (fun c' => c'.allEnded n && P c') = some true)
    (hnone : ∀ i, c.tasks i = none) (hspawns : Action.spawnsBelow n as = true)
    (hdrop : ∀ i, .drop i ∉ as) (hcheck : ∀ c₁ a, check c₁ a = true → allow c₁ a) :
    ∃ ω : Endless code exec c, ω.Fair ∧ (∀ t a, ω.acts t = some a → allow (ω.pools t) a) ∧
      ∃ t, P (ω.pools t) = true := by
  obtain ⟨c', hrun, hP⟩ := Option.map_eq_some_iff.1 heval
  rw [Bool.and_eq_true] at hP
  obtain ⟨ω, ⟨m, hend⟩, hall⟩ := exists_of_runChecked hrun hdrop
  have hfinished := Pool.finished_of_allEnded hrun hnone (Action.lt_of_spawnsBelow hspawns) hP.1
  refine ⟨ω, fair_of_finished hend hfinished, fun t a hact => hcheck _ _ (hall t a hact), m, ?_⟩
  rw [hend m le_rfl]
  exact hP.2

end Endless

end Lib
end OpenWeights
