import Mathlib.Tactic

/-!
# Liveness — runs of a machine, and what must happen in them

A machine is a partial step function: `step s a` is the state after the action `a`, and `none` while
`a` cannot happen.  This module has

* `Trace`      : the runs of a machine, with the invariant rule `Trace.invariant`;
* `Deadlocked` : the goal is not reached, and nothing can happen any more;
* `Inevitable` : whatever happens, the goal is reached, with a rule for proving it (a rank that
  every step lowers) and one for refuting it (a trap that no step leaves).
-/

namespace OpenWeights
namespace Lib

variable {σ ι : Type}

section Machine

variable (step : σ → ι → Option σ)

/-- `Trace step s tr s'`: the steps `tr`, each recorded with the state before it, the action and the
state after it, lead from `s` to `s'`. -/
inductive Trace (s : σ) : List (σ × ι × σ) → σ → Prop where
  | nil : Trace s [] s
  | snoc {tr : List (σ × ι × σ)} {s₁ s₂ : σ} {a : ι} :
      Trace s tr s₁ → step s₁ a = some s₂ → Trace s (tr ++ [(s₁, a, s₂)]) s₂

def Enabled (s : σ) : Prop :=
  ∃ a s', step s a = some s'

/-- The goal is not reached, and nothing can happen any more. -/
def Deadlocked (goal : σ → Prop) (s : σ) : Prop :=
  ¬goal s ∧ ¬Enabled step s

/-- Whatever happens from `s` on, the goal is reached. -/
inductive Inevitable (goal : σ → Prop) : σ → Prop where
  | reached {s : σ} : goal s → Inevitable goal s
  | step {s : σ} : Enabled step s → (∀ a s', step s a = some s' → Inevitable goal s') →
      Inevitable goal s

def execute (s : σ) : List ι → Option σ
  | [] => some s
  | a :: as => (step s a).bind fun s' => execute s' as

end Machine

section Rules

variable {step : σ → ι → Option σ} {goal : σ → Prop} {s s' : σ} {tr : List (σ × ι × σ)}

theorem Enabled.of_isSome (a : ι) (h : (step s a).isSome) : Enabled step s := by
  obtain ⟨s', hs'⟩ := Option.isSome_iff_exists.1 h
  exact ⟨a, s', hs'⟩

/-- What holds at the start and is kept by the steps taken holds at the end. -/
theorem Trace.invariant {I : σ → Prop} (h : Trace step s tr s') (h₀ : I s)
    (hstep : ∀ x ∈ tr, step x.1 x.2.1 = some x.2.2 → I x.1 → I x.2.2) : I s' := by
  induction h with
  | nil => exact h₀
  | snoc _ hs ih =>
      refine hstep _ (List.mem_append_right _ List.mem_cons_self) hs (ih ?_)
      intro x hx
      exact hstep x (List.mem_append_left _ hx)

/-- What some step brings about and every step keeps holds at the end. -/
theorem Trace.since {I J : σ → Prop} (h : Trace step s tr s') (h₀ : I s)
    (hI : ∀ s₁ a s₂, step s₁ a = some s₂ → I s₁ → I s₂)
    (hJ : ∀ s₁ a s₂, step s₁ a = some s₂ → I s₁ → J s₁ → J s₂) {x : σ × ι × σ} (hx : x ∈ tr)
    (hbrings : step x.1 x.2.1 = some x.2.2 → I x.1 → J x.2.2) : J s' := by
  induction h with
  | nil => cases hx
  | snoc hpath hs ih =>
      have hbefore := hpath.invariant h₀ fun y _ hy => hI _ _ _ hy
      rcases List.mem_append.1 hx with hx | hx
      · exact hJ _ _ _ hs hbefore (ih hx)
      · obtain rfl := List.mem_singleton.1 hx
        exact hbrings hs hbefore

/-- A list of actions that can be executed is a run. -/
theorem exists_trace_of_execute {as : List ι} (h : execute step s as = some s') :
    ∃ tr, Trace step s tr s' := by
  suffices hfrom : ∀ s₀ tr, Trace step s₀ tr s → ∃ tr', Trace step s₀ tr' s' from
    hfrom s [] .nil
  induction as generalizing s with
  | nil =>
      cases h
      exact fun s₀ tr htr => ⟨tr, htr⟩
  | cons a as ih =>
      intro s₀ tr htr
      rcases Option.bind_eq_some_iff.1 h with ⟨s₁, hs, hrest⟩
      exact ih hrest s₀ _ (htr.snoc hs)

/-- The goal is inevitable where something can happen until it is reached, and every step lowers a
rank. -/
theorem Inevitable.of_rank {I : σ → Prop} (rank : σ → Nat)
    (henabled : ∀ s, I s → goal s ∨ Enabled step s)
    (hstep : ∀ s a s', I s → step s a = some s' → I s' ∧ rank s' < rank s) (hs : I s) :
    Inevitable step goal s := by
  induction hrank : rank s using Nat.strongRecOn generalizing s with
  | ind n ih =>
      rcases henabled s hs with hgoal | hcan
      · exact .reached hgoal
      · refine .step hcan ?_
        intro a s' hs'
        obtain ⟨hnext, hlt⟩ := hstep s a s' hs hs'
        exact ih _ (hrank ▸ hlt) hnext rfl

/-- What no step leaves and excludes the goal keeps the goal from being inevitable. -/
theorem not_inevitable_of_trap {J : σ → Prop} (hgoal : ∀ s, J s → ¬goal s)
    (hstep : ∀ s a s', J s → step s a = some s' → J s') (hs : J s) :
    ¬Inevitable step goal s := by
  intro h
  induction h with
  | reached hreached => exact hgoal _ hs hreached
  | step hcan _ ih =>
      obtain ⟨a, s', hs'⟩ := hcan
      exact ih a s' hs' (hstep _ a s' hs hs')

end Rules

end Lib
end OpenWeights
