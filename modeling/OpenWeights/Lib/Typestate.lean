import OpenWeights.Lib.Prog

/-!
# Typestate — automata that follow the tasks of a pool

A `Typestate` reads the operations of one task, with their results, and keeps a phase; in each phase
only some operations are permitted.  Two views of the same thing are connected here:

* `Prog.Follows` : a program respects the automaton from a phase on, whatever results it gets;
* `phaseOf`      : the phase of a task, read off the log of a pool.

`ConformsTo.step` says that a pool whose programs follow the automaton keeps doing so, so in every
reached pool the phase in the log says what each task can do next.
-/

namespace OpenWeights
namespace Lib

variable {Op : Type} {Res : Op → Type} {Φ σ ε ρ α β : Type}

/-- An automaton with phases `Φ` over the operations of one task. -/
structure Typestate (Φ : Type) (ρ : Type) (Op : Type) (Res : Op → Type) where
  start : Φ
  after : Φ → (o : Op) → Res o → Φ
  ok : ρ → Φ → Op → Prop

namespace Prog

variable (T : Typestate Φ ρ Op Res) (req : ρ)

/-- The program performs only permitted operations from the phase on, and ends in a phase that
meets `post`. -/
def Follows (post : Φ → α → Prop) : Prog Op Res α → Φ → Prop
  | .done a, φ => post φ a
  | .call o k, φ => T.ok req φ o ∧ ∀ r, (k r).Follows post (T.after φ o r)

variable {T req}

theorem Follows.bind {post : Φ → α → Prop} {post' : Φ → β → Prop}
    {p : Prog Op Res α} {f : α → Prog Op Res β} {φ : Φ} (hp : p.Follows T req post φ)
    (hf : ∀ φ' a, post φ' a → (f a).Follows T req post' φ') :
    (p >>= f).Follows T req post' φ := by
  induction p generalizing φ with
  | done a => exact hf φ a hp
  | call o k ih => exact ⟨hp.1, fun r => ih r (hp.2 r)⟩

theorem Follows.perform_bind {post : Φ → β → Prop} {o : Op} {f : Res o → Prog Op Res β} {φ : Φ}
    (ho : T.ok req φ o) (hf : ∀ r, (f r).Follows T req post (T.after φ o r)) :
    (perform o >>= f).Follows T req post φ :=
  ⟨ho, hf⟩

theorem Follows.mono {post post' : Φ → α → Prop} {p : Prog Op Res α} {φ : Φ}
    (hp : p.Follows T req post φ) (hpost : ∀ φ' a, post φ' a → post' φ' a) :
    p.Follows T req post' φ := by
  induction p generalizing φ with
  | done a => exact hpost φ a hp
  | call o k ih => exact ⟨hp.1, fun r => ih r (hp.2 r)⟩

theorem Follows.of_map {post : Φ → β → Prop} {f : α → β} {p : Prog Op Res α} {φ : Φ}
    (h : (f <$> p).Follows T req post φ) : p.Follows T req (fun φ' a => post φ' (f a)) φ := by
  induction p generalizing φ with
  | done a => exact h
  | call o k ih => exact ⟨h.1, fun r => ih r (h.2 r)⟩

/-- A program whose operations are permitted in the phase and do not change it. -/
theorem Follows.of_uses {P : Op → Prop} {p : Prog Op Res α} {φ : Φ} (hp : p.Uses P)
    (hok : ∀ o, P o → T.ok req φ o) (hafter : ∀ o r, P o → T.after φ o r = φ) :
    p.Follows T req (fun φ' _ => φ' = φ) φ := by
  induction p with
  | done a => rfl
  | call o k ih =>
      refine ⟨hok o hp.1, ?_⟩
      intro r
      rw [hafter o r hp.1]
      exact ih r (hp.2 r)

end Prog

namespace Typestate

variable (T : Typestate Φ ρ Op Res)

/-- The phase of task `i` after the logged calls. -/
def phaseOf (i : Nat) : List (Entry ρ Op Res) → Φ
  | [] => T.start
  | e :: log =>
      if e.task = i then T.after (phaseOf i log) e.call.op e.call.result else phaseOf i log

variable {T}

@[simp] theorem phaseOf_cons_self (i : Nat) (req : ρ) (o : Op) (r : Res o)
    (log : List (Entry ρ Op Res)) :
    T.phaseOf i (⟨i, req, ⟨o, r⟩⟩ :: log) = T.after (T.phaseOf i log) o r := by
  simp [phaseOf]

theorem phaseOf_cons_of_ne {i j : Nat} (hne : j ≠ i) (req : ρ) (call : Call Op Res)
    (log : List (Entry ρ Op Res)) :
    T.phaseOf j (⟨i, req, call⟩ :: log) = T.phaseOf j log := by
  simp [phaseOf, hne.symm]

/-- A task without logged calls is in the start phase. -/
theorem phaseOf_eq_start {i : Nat} {log : List (Entry ρ Op Res)}
    (h : ∀ e ∈ log, e.task ≠ i) : T.phaseOf i log = T.start := by
  induction log with
  | nil => rfl
  | cons e log ih =>
      have htail := ih fun e' he' => h e' (List.mem_cons_of_mem _ he')
      simp [phaseOf, h e List.mem_cons_self, htail]

end Typestate

variable {code : ρ → Prog Op Res α} {exec : (o : Op) → ε → σ → Option (σ × Res o)}

/-- Every task of the pool follows the automaton from its phase in the log on; identifiers without
task are not in the log. -/
structure Conforms (T : Typestate Φ ρ Op Res) (c : Pool σ ρ Op Res α) : Prop where
  unused : ∀ i, c.tasks i = none → ∀ e ∈ c.log, e.task ≠ i
  follows : ∀ i req p, c.tasks i = some ⟨req, some p⟩ →
    p.Follows T req (fun _ _ => True) (T.phaseOf i c.log)

/-- The same, where every program also ends in a phase that meets `post`. -/
structure ConformsTo (T : Typestate Φ ρ Op Res) (post : Φ → α → Prop) (c : Pool σ ρ Op Res α) :
    Prop where
  unused : ∀ i, c.tasks i = none → ∀ e ∈ c.log, e.task ≠ i
  follows : ∀ i req p, c.tasks i = some ⟨req, some p⟩ →
    p.Follows T req post (T.phaseOf i c.log)

theorem ConformsTo.init (T : Typestate Φ ρ Op Res) (post : Φ → α → Prop) (s : σ) :
    ConformsTo T post (Pool.init s : Pool σ ρ Op Res α) := by
  refine ⟨?_, ?_⟩
  · intro i _ e he
    cases he
  · intro i req p ht
    cases ht

/-- One scheduler step. -/
theorem ConformsTo.step {T : Typestate Φ ρ Op Res} {post : Φ → α → Prop}
    {c c' : Pool σ ρ Op Res α} {a : Action ρ ε} (h : ConformsTo T post c)
    (hs : c.step code exec a = some c')
    (hcode : ∀ req, (code req).Follows T req post T.start) : ConformsTo T post c' := by
  rcases Pool.step_cases hs with ⟨i, req, rfl, ht, rfl⟩ |
    ⟨i, e, req, o, k, s, r, rfl, ht, he, rfl⟩ | ⟨i, req, p, rfl, ht, rfl⟩
  · refine ⟨?_, ?_⟩
    · intro j hj
      by_cases hji : j = i
      · subst hji
        exact h.unused j ht
      · exact h.unused j (by simpa [Pool.setTask, hji] using hj)
    · intro j req' p hj
      by_cases hji : j = i
      · -- The identifier is fresh, so the new task starts in the start phase.
        subst hji
        have hp : (⟨req, some (code req)⟩ : Task ρ Op Res α) = ⟨req', some p⟩ := by
          simpa [Pool.setTask] using hj
        cases hp
        have hstart : T.phaseOf j c.log = T.start := Typestate.phaseOf_eq_start (h.unused j ht)
        simpa [Pool.setTask, hstart] using hcode req
      · exact h.follows j req' p (by simpa [Pool.setTask, hji] using hj)
  · have hnow := h.follows i req _ ht
    refine ⟨?_, ?_⟩
    · intro j hj e' he'
      have hji : j ≠ i := by
        rintro rfl
        simp at hj
      have hold : c.tasks j = none := by simpa [hji] using hj
      rcases List.mem_cons.1 he' with rfl | hmem
      · exact hji.symm
      · exact h.unused j hold e' hmem
    · intro j req' p hj
      by_cases hji : j = i
      · subst hji
        have hp : (⟨req, some (k r)⟩ : Task ρ Op Res α) = ⟨req', some p⟩ := by simpa using hj
        cases hp
        simpa using hnow.2 r
      · have hold : c.tasks j = some ⟨req', some p⟩ := by simpa [hji] using hj
        have hphase : T.phaseOf j (⟨i, req, ⟨o, r⟩⟩ :: c.log) = T.phaseOf j c.log :=
          Typestate.phaseOf_cons_of_ne hji req _ _
        simpa [hphase] using h.follows j req' p hold
  · refine ⟨?_, ?_⟩
    · intro j hj
      by_cases hji : j = i
      · subst hji
        simp [Pool.setTask] at hj
      · exact h.unused j (by simpa [Pool.setTask, hji] using hj)
    · intro j req' q hj
      by_cases hji : j = i
      · subst hji
        simp [Pool.setTask] at hj
      · exact h.follows j req' q (by simpa [Pool.setTask, hji] using hj)

theorem Reaches.conformsTo {T : Typestate Φ ρ Op Res} {post : Φ → α → Prop}
    {allow : Pool σ ρ Op Res α → Action ρ ε → Prop} {c c' : Pool σ ρ Op Res α}
    (h : Reaches code exec allow c c') (h₀ : ConformsTo T post c)
    (hcode : ∀ req, (code req).Follows T req post T.start) : ConformsTo T post c' :=
  h.invariant h₀ fun _ _ _ hc _ hs => hc.step hs hcode

theorem Conforms.init (T : Typestate Φ ρ Op Res) (s : σ) :
    Conforms T (Pool.init s : Pool σ ρ Op Res α) := by
  have hinit := ConformsTo.init (α := α) T (fun _ _ => True) s
  exact ⟨hinit.unused, hinit.follows⟩

theorem Conforms.step {T : Typestate Φ ρ Op Res} {c c' : Pool σ ρ Op Res α} {a : Action ρ ε}
    (h : Conforms T c) (hs : c.step code exec a = some c')
    (hcode : ∀ req, (code req).Follows T req (fun _ _ => True) T.start) : Conforms T c' := by
  have hnext := ConformsTo.step ⟨h.unused, h.follows⟩ hs hcode
  exact ⟨hnext.unused, hnext.follows⟩

theorem Reaches.conforms {T : Typestate Φ ρ Op Res} {allow : Pool σ ρ Op Res α → Action ρ ε → Prop}
    {c c' : Pool σ ρ Op Res α} (h : Reaches code exec allow c c') (h₀ : Conforms T c)
    (hcode : ∀ req, (code req).Follows T req (fun _ _ => True) T.start) : Conforms T c' :=
  h.invariant h₀ fun _ _ _ hc _ hs => hc.step hs hcode

end Lib
end OpenWeights
