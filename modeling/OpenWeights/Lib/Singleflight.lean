import Mathlib.Logic.Function.Basic
import Mathlib.Tactic

/-!
# Singleflight — one execution per key

Duplicate call suppression by its documentation: of the calls for one key that overlap, the first
executes its function, and the others wait for it and receive the same result.

`Singleflight` is a group with these laws, whatever it is made of.  `Singleflight.table` is the
group that keeps every call and its result.
-/

namespace OpenWeights
namespace Lib

/-- The part a caller gets: to execute the function, as call `n`, or to wait for call `n`. -/
inductive Role
  | lead (n : Nat)
  | join (n : Nat)
  deriving DecidableEq, Repr

/-- Groups for keys of type `κ` and results of type `ν`. -/
structure Singleflight (κ ν : Type) [DecidableEq κ] where
  Group : Type
  new : Group
  /-- A caller arrives with a key. -/
  enter : Group → κ → Group × Role
  /-- The function of call `n` returned. -/
  finish : Group → Nat → ν → Group
  /-- The result of call `n`, once it is there. -/
  result : Group → Nat → Option ν
  /-- The execution in flight for a key. -/
  inFlight : Group → κ → Option Nat
  /-- The number of executions so far; it names the next one. -/
  started : Group → Nat
  inFlight_new : ∀ k, inFlight new k = none
  enter_lead : ∀ g k, inFlight g k = none → (enter g k).2 = .lead (started g)
  inFlight_lead : ∀ g k, inFlight g k = none →
    inFlight (enter g k).1 = Function.update (inFlight g) k (some (started g))
  started_lead : ∀ g k, inFlight g k = none → started (enter g k).1 = started g + 1
  enter_join : ∀ g k n, inFlight g k = some n → (enter g k).2 = .join n
  inFlight_join : ∀ g k n, inFlight g k = some n → inFlight (enter g k).1 = inFlight g
  started_join : ∀ g k n, inFlight g k = some n → started (enter g k).1 = started g
  inFlight_finish : ∀ g n v k,
    inFlight (finish g n v) k = if inFlight g k = some n then none else inFlight g k
  started_finish : ∀ g n v, started (finish g n v) = started g
  result_new : ∀ n, result new n = none
  result_enter : ∀ g k, result (enter g k).1 = result g
  result_finish : ∀ g n v m, result (finish g n v) m = if m = n then some v else result g m

namespace Singleflight

variable {κ ν : Type} [DecidableEq κ]

/-- A group as a map of what is in flight, and the results so far. -/
structure Calls (κ ν : Type) where
  flights : κ → Option Nat
  results : List (Nat × ν)
  started : Nat

/-- The group that keeps all its calls. -/
def table : Singleflight κ ν where
  Group := Calls κ ν
  new := ⟨fun _ => none, [], 0⟩
  enter := fun g k =>
    match g.flights k with
    | some n => (g, .join n)
    | none =>
        ({ g with
            flights := Function.update g.flights k (some g.started)
            started := g.started + 1 }, .lead g.started)
  finish := fun g n v =>
    { g with
      flights := fun k => if g.flights k = some n then none else g.flights k
      results := (n, v) :: g.results }
  result := fun g n => g.results.lookup n
  inFlight := Calls.flights
  started := Calls.started
  inFlight_new := fun _ => rfl
  enter_lead := by
    intro g k h
    simp only [h]
  inFlight_lead := by
    intro g k h
    simp only [h]
  started_lead := by
    intro g k h
    simp only [h]
  enter_join := by
    intro g k n h
    simp only [h]
  inFlight_join := by
    intro g k n h
    simp only [h]
  started_join := by
    intro g k n h
    simp only [h]
  inFlight_finish := fun _ _ _ _ => rfl
  started_finish := fun _ _ _ => rfl
  result_new := fun _ => rfl
  result_enter := by
    intro g k
    cases hflight : g.flights k with
    | none => rfl
    | some n => rfl
  result_finish := by
    intro g n v m
    by_cases hm : m = n
    · subst hm
      simp
    · simp [List.lookup_cons, hm, beq_eq_false_iff_ne.2 hm]

/-! ## Runs of a group -/

section Wf

variable {S : Singleflight κ ν} {g : S.Group}

/-- What holds of a group that only its own operations have changed. -/
structure Wf (S : Singleflight κ ν) (g : S.Group) : Prop where
  lt : ∀ k n, S.inFlight g k = some n → n < S.started g
  inj : ∀ k k' n, S.inFlight g k = some n → S.inFlight g k' = some n → k = k'
  result_lt : ∀ n v, S.result g n = some v → n < S.started g
  /-- A call with a result is no longer in flight. -/
  landed : ∀ n v k, S.result g n = some v → S.inFlight g k ≠ some n

theorem Wf.init (S : Singleflight κ ν) : S.Wf S.new where
  lt := fun k n hk => by simp [S.inFlight_new] at hk
  inj := fun k k' n hk => by simp [S.inFlight_new] at hk
  result_lt := fun n v hv => by simp [S.result_new] at hv
  landed := fun n v k hv => by simp [S.result_new] at hv

theorem Wf.enter (h : S.Wf g) (k : κ) : S.Wf (S.enter g k).1 := by
  cases hflight : S.inFlight g k with
  | some m =>
      have hin := S.inFlight_join g k m hflight
      have hstarted := S.started_join g k m hflight
      have hresult := S.result_enter g k
      exact ⟨by rw [hin, hstarted]; exact h.lt, by rw [hin]; exact h.inj,
        by rw [hresult, hstarted]; exact h.result_lt, by rw [hresult, hin]; exact h.landed⟩
  | none =>
      have hin := S.inFlight_lead g k hflight
      have hstarted := S.started_lead g k hflight
      have hresult := S.result_enter g k
      -- the new call has a number that no other call has
      have hcases : ∀ k' n, S.inFlight (S.enter g k).1 k' = some n →
          (k' = k ∧ n = S.started g) ∨ (k' ≠ k ∧ S.inFlight g k' = some n) := by
        intro k' n hk'
        rw [hin] at hk'
        by_cases hEq : k' = k
        · subst hEq
          rw [Function.update_self] at hk'
          exact .inl ⟨rfl, (Option.some.inj hk').symm⟩
        · rw [Function.update_of_ne hEq] at hk'
          exact .inr ⟨hEq, hk'⟩
      refine ⟨?_, ?_, ?_, ?_⟩
      · intro k' n hk'
        rw [hstarted]
        rcases hcases k' n hk' with ⟨-, rfl⟩ | ⟨-, hold⟩
        · exact Nat.lt_succ_self _
        · exact Nat.lt_succ_of_lt (h.lt k' n hold)
      · intro k₁ k₂ n h₁ h₂
        rcases hcases k₁ n h₁ with ⟨rfl, rfl⟩ | ⟨-, hold₁⟩ <;>
          rcases hcases k₂ _ h₂ with ⟨rfl, hn⟩ | ⟨-, hold₂⟩
        · rfl
        · exact absurd (h.lt k₂ _ hold₂) (Nat.lt_irrefl _)
        · exact absurd (hn ▸ h.lt k₁ _ hold₁) (Nat.lt_irrefl _)
        · exact h.inj k₁ k₂ n hold₁ hold₂
      · intro n v hv
        rw [hresult] at hv
        rw [hstarted]
        exact Nat.lt_succ_of_lt (h.result_lt n v hv)
      · intro n v k' hv hk'
        rw [hresult] at hv
        rcases hcases k' n hk' with ⟨-, rfl⟩ | ⟨-, hold⟩
        · exact Nat.lt_irrefl _ (h.result_lt _ v hv)
        · exact h.landed n v k' hv hold

theorem Wf.finish (h : S.Wf g) {n : Nat} (v : ν) (hn : n < S.started g) :
    S.Wf (S.finish g n v) := by
  have hin : ∀ k m, S.inFlight (S.finish g n v) k = some m → S.inFlight g k = some m ∧ m ≠ n := by
    intro k m hk
    rw [S.inFlight_finish] at hk
    split at hk
    · cases hk
    · rename_i hne
      refine ⟨hk, ?_⟩
      rintro rfl
      exact hne hk
  refine ⟨?_, ?_, ?_, ?_⟩
  · intro k m hk
    rw [S.started_finish]
    exact h.lt k m (hin k m hk).1
  · intro k k' m hk hk'
    exact h.inj k k' m (hin k m hk).1 (hin k' m hk').1
  · intro m v' hv
    rw [S.started_finish]
    rw [S.result_finish] at hv
    split at hv
    · rename_i hEq
      rwa [hEq]
    · exact h.result_lt m v' hv
  · intro m v' k hv hk
    obtain ⟨hold, hne⟩ := hin k m hk
    rw [S.result_finish, if_neg hne] at hv
    exact h.landed m v' k hv hold

end Wf

end Singleflight
end Lib
end OpenWeights
