import Mathlib.Logic.Function.Basic
import Mathlib.Tactic

/-!
# Prog — programs over atomic operations, run alone or interleaved

A concurrent service is a set of sequential programs that share a store and touch it only through
*atomic operations*.  This module is the general theory of such programs:

* `Prog Op Res α`   : a program that calls operations `o : Op`, branches on their results
  `Res o`, and ends with a value of `α`;
* `Runs`            : a program run alone, with the list of calls it made, and `RunsWith`, with what
  the environment decided as well;
* `Prog.Always`     : a property of every call node of a program;
* `Prog.Ends`       : a property of every value a program can end with;
* `Prog.Ensures`    : total correctness of a program run alone, with calls that meet a condition;
* `Prog.Strict`     : a program that fails as soon as one of its calls does;
* `Prog.Yields`     : partial correctness of a program run alone;
* `Pool`            : any number of programs interleaved, one operation at a time, each of which
  may be dropped between two operations;
* `Reaches`         : the runs of a pool whose steps all meet a side condition, with the
  invariant rule `Reaches.invariant`;
* `Prog.Sat`        : a rely–guarantee judgement for one program, with the composition rules
  `Prog.Sat.bind`, `Prog.Sat.of_always` and the soundness theorem `Secure.step`.
-/

namespace OpenWeights
namespace Lib

/-- A program that calls atomic operations and branches on their results. -/
inductive Prog (Op : Type) (Res : Op → Type) (α : Type) where
  | done (a : α)
  | call (o : Op) (k : Res o → Prog Op Res α)

/-- One executed operation together with its result. -/
structure Call (Op : Type) (Res : Op → Type) where
  op : Op
  result : Res op

variable {Op : Type} {Res : Op → Type} {σ ε ρ α β : Type}

namespace Prog

def bind : Prog Op Res α → (α → Prog Op Res β) → Prog Op Res β
  | .done a, f => f a
  | .call o k, f => .call o fun r => (k r).bind f

instance : Monad (Prog Op Res) where
  pure := .done
  bind := bind

def perform (o : Op) : Prog Op Res (Res o) :=
  .call o .done

@[simp] theorem pure_eq (a : α) : (pure a : Prog Op Res α) = .done a := rfl

@[simp] theorem done_bind (a : α) (f : α → Prog Op Res β) : (Prog.done a >>= f) = f a := rfl

@[simp] theorem call_bind (o : Op) (k : Res o → Prog Op Res α) (f : α → Prog Op Res β) :
    (Prog.call o k >>= f) = .call o fun r => k r >>= f := rfl

@[simp] theorem perform_bind (o : Op) (f : Res o → Prog Op Res β) :
    (perform o >>= f) = .call o f := rfl

theorem bind_assoc {γ : Type} (p : Prog Op Res α) (f : α → Prog Op Res β)
    (g : β → Prog Op Res γ) : (p >>= f) >>= g = p >>= fun a => f a >>= g := by
  induction p with
  | done a => rfl
  | call o k ih => exact congrArg (Prog.call o) (funext ih)

theorem bind_done (p : Prog Op Res α) : (p >>= fun a => .done a) = p := by
  induction p with
  | done a => rfl
  | call o k ih => exact congrArg (Prog.call o) (funext ih)

theorem map_eq_bind (f : α → β) (p : Prog Op Res α) : f <$> p = p >>= fun a => .done (f a) := rfl

/-- A program as one over more operations. -/
def embed {Op' : Type} {Res' : Op' → Type} (f : Op → Op') (res : ∀ o, Res' (f o) → Res o) :
    Prog Op Res α → Prog Op' Res' α
  | .done a => .done a
  | .call o k => .call (f o) fun r => (k (res o r)).embed f res

theorem embed_bind {Op' : Type} {Res' : Op' → Type} (f : Op → Op')
    (res : ∀ o, Res' (f o) → Res o) (p : Prog Op Res α) (g : α → Prog Op Res β) :
    (p >>= g).embed f res = p.embed f res >>= fun a => (g a).embed f res := by
  induction p with
  | done a => rfl
  | call o k ih =>
      change Prog.call (f o) _ = Prog.call (f o) _
      exact congrArg (Prog.call (f o)) (funext fun r => ih (res o r))

def next : Prog Op Res α → Option Op
  | .done _ => none
  | .call o _ => some o

/-- `P` holds at every call node of the program, whatever the earlier results were. -/
def Always (P : (o : Op) → (Res o → Prog Op Res α) → Prop) : Prog Op Res α → Prop
  | .done _ => True
  | .call o k => P o k ∧ ∀ r, (k r).Always P

/-- Every operation the program can perform satisfies `P`. -/
def Uses (P : Op → Prop) (p : Prog Op Res α) : Prop :=
  p.Always fun o _ => P o

@[simp] theorem uses_done (P : Op → Prop) (a : α) :
    (Prog.done a : Prog Op Res α).Uses P ↔ True := Iff.rfl

@[simp] theorem uses_call (P : Op → Prop) (o : Op) (k : Res o → Prog Op Res α) :
    (Prog.call o k).Uses P ↔ P o ∧ ∀ r, (k r).Uses P := Iff.rfl

theorem uses_true (p : Prog Op Res α) : p.Uses fun _ => True := by
  induction p with
  | done a => trivial
  | call o k ih => exact ⟨trivial, ih⟩

theorem Uses.bind {P : Op → Prop} {p : Prog Op Res α} {f : α → Prog Op Res β}
    (hp : p.Uses P) (hf : ∀ a, (f a).Uses P) : (p >>= f).Uses P := by
  induction p with
  | done a => exact hf a
  | call o k ih => exact ⟨hp.1, fun r => ih r (hp.2 r)⟩

theorem Uses.perform_bind {P : Op → Prop} {o : Op} {f : Res o → Prog Op Res β} (ho : P o)
    (hf : ∀ r, (f r).Uses P) : (perform o >>= f).Uses P :=
  ⟨ho, hf⟩

theorem Uses.of_map {P : Op → Prop} {f : α → β} {p : Prog Op Res α} (h : (f <$> p).Uses P) :
    p.Uses P := by
  induction p with
  | done a => trivial
  | call o k ih => exact ⟨h.1, fun r => ih r (h.2 r)⟩

theorem uses_embed {Op' : Type} {Res' : Op' → Type} {P : Op' → Prop} {f : Op → Op'}
    (res : ∀ o, Res' (f o) → Res o) (hf : ∀ o, P (f o)) (p : Prog Op Res α) :
    (p.embed f res).Uses P := by
  induction p with
  | done a => trivial
  | call o k ih => exact ⟨hf o, fun r => ih (res o r)⟩

theorem Uses.embed {Op' : Type} {Res' : Op' → Type} {P : Op → Prop} {Q : Op' → Prop} {f : Op → Op'}
    {p : Prog Op Res α} (hp : p.Uses P) (res : ∀ o, Res' (f o) → Res o) (hf : ∀ o, P o → Q (f o)) :
    (p.embed f res).Uses Q := by
  induction p with
  | done a => trivial
  | call o k ih => exact ⟨hf o hp.1, fun r => ih (res o r) (hp.2 (res o r))⟩

/-- A property of call nodes that only some operations can violate. -/
theorem Uses.always_bind {Q : Op → Prop} {P : (o : Op) → (Res o → Prog Op Res β) → Prop}
    {p : Prog Op Res α} {f : α → Prog Op Res β} (hp : p.Uses Q) (hQ : ∀ o k, Q o → P o k)
    (hf : ∀ a, (f a).Always P) : (p >>= f).Always P := by
  induction p with
  | done a => exact hf a
  | call o k ih => exact ⟨hQ _ _ hp.1, fun r => ih r (hp.2 r)⟩

theorem Uses.mono {P Q : Op → Prop} {p : Prog Op Res α} (hp : p.Uses P)
    (hPQ : ∀ o, P o → Q o) : p.Uses Q := by
  induction p with
  | done a => trivial
  | call o k ih => exact ⟨hPQ o hp.1, fun r => ih r (hp.2 r)⟩

/-- `P` holds at every call node of the operation and of what would be performed next after each
result. -/
def AlwaysNext (P : (o : Op) → (Res o → Option Op) → Prop) (p : Prog Op Res α) : Prop :=
  p.Always fun o k => P o fun r => (k r).next

@[simp] theorem next_map (f : α → β) (p : Prog Op Res α) : (f <$> p).next = p.next := by
  cases p with
  | done a => rfl
  | call o k => rfl

theorem AlwaysNext.map {P : (o : Op) → (Res o → Option Op) → Prop} {p : Prog Op Res α}
    (hp : p.AlwaysNext P) (f : α → β) : (f <$> p).AlwaysNext P := by
  induction p with
  | done a => trivial
  | call o k ih =>
      refine ⟨?_, fun r => ih r (hp.2 r)⟩
      have hnext : (fun r => (f <$> k r).next) = fun r => (k r).next :=
        funext fun r => next_map f (k r)
      change P o fun r => (f <$> k r).next
      rw [hnext]
      exact hp.1

theorem Uses.next {P : Op → Prop} {p : Prog Op Res α} (hp : p.Uses P) {o : Op}
    (hn : p.next = some o) : P o := by
  cases p with
  | done a => cases hn
  | call o' k =>
      cases hn
      exact hp.1

/-- A property of pairs of operations that every pair of permitted operations has. -/
theorem AlwaysNext.of_uses {Q : Op → Prop} {P : (o : Op) → (Res o → Option Op) → Prop}
    {p : Prog Op Res α} (hp : p.Uses Q)
    (h : ∀ o nx, Q o → (∀ r o', nx r = some o' → Q o') → P o nx) : p.AlwaysNext P := by
  induction p with
  | done a => trivial
  | call o k ih =>
      refine ⟨h o _ hp.1 ?_, fun r => ih r (hp.2 r)⟩
      intro r o' hn
      exact Uses.next (hp.2 r) hn

/-- Whatever the operations return, the program ends with a value that meets `P`. -/
def Ends (P : α → Prop) : Prog Op Res α → Prop
  | .done a => P a
  | .call _ k => ∀ r, (k r).Ends P

theorem Ends.bind {P : α → Prop} {Q : β → Prop} {p : Prog Op Res α} {f : α → Prog Op Res β}
    (hp : p.Ends P) (hf : ∀ a, P a → (f a).Ends Q) : (p >>= f).Ends Q := by
  induction p with
  | done a => exact hf a hp
  | call o k ih => exact fun r => ih r (hp r)

theorem Ends.mono {P Q : α → Prop} {p : Prog Op Res α} (hp : p.Ends P) (hPQ : ∀ a, P a → Q a) :
    p.Ends Q := by
  induction p with
  | done a => exact hPQ a hp
  | call o k ih => exact fun r => ih r (hp r)

theorem ends_true (p : Prog Op Res α) : p.Ends fun _ => True := by
  induction p with
  | done a => trivial
  | call o k ih => exact ih

end Prog

/-! ## A program run alone -/

/-- `Runs exec p s cs s' a`: run alone from the store `s`, the program performs the calls `cs`,
leaves the store `s'` and ends with `a`. -/
inductive Runs (exec : (o : Op) → ε → σ → Option (σ × Res o)) :
    Prog Op Res α → σ → List (Call Op Res) → σ → α → Prop where
  | done (s : σ) (a : α) :
      Runs exec (.done a) s [] s a
  | call {o : Op} {k : Res o → Prog Op Res α} {s s' s'' : σ} {e : ε} {r : Res o}
      {cs : List (Call Op Res)} {a : α} :
      exec o e s = some (s', r) → Runs exec (k r) s' cs s'' a →
        Runs exec (.call o k) s (⟨o, r⟩ :: cs) s'' a

/-- Run a program alone, with the environment's part of each operation given. -/
def Prog.eval (exec : (o : Op) → ε → σ → Option (σ × Res o)) :
    Prog Op Res α → List ε → σ → Option (List (Call Op Res) × σ × α)
  | .done a, _, s => some ([], s, a)
  | .call _ _, [], _ => none
  | .call o k, e :: es, s =>
      (exec o e s).bind fun t => ((k t.2).eval exec es t.1).map fun u => (⟨o, t.2⟩ :: u.1, u.2)

namespace Runs

variable {exec : (o : Op) → ε → σ → Option (σ × Res o)}

theorem done_inv {s s' : σ} {a b : α} {cs : List (Call Op Res)}
    (h : Runs exec (.done a) s cs s' b) : cs = [] ∧ s' = s ∧ b = a := by
  cases h
  exact ⟨rfl, rfl, rfl⟩

theorem call_inv {o : Op} {k : Res o → Prog Op Res α} {s s'' : σ} {a : α}
    {cs : List (Call Op Res)} (h : Runs exec (.call o k) s cs s'' a) :
    ∃ (e : ε) (s' : σ) (r : Res o) (cs' : List (Call Op Res)),
      exec o e s = some (s', r) ∧ cs = ⟨o, r⟩ :: cs' ∧ Runs exec (k r) s' cs' s'' a := by
  cases h with
  | call he hk => exact ⟨_, _, _, _, he, rfl, hk⟩

theorem perform_bind_inv {o : Op} {f : Res o → Prog Op Res α} {s s'' : σ} {a : α}
    {cs : List (Call Op Res)} (h : Runs exec (Prog.perform o >>= f) s cs s'' a) :
    ∃ (e : ε) (s' : σ) (r : Res o) (cs' : List (Call Op Res)),
      exec o e s = some (s', r) ∧ cs = ⟨o, r⟩ :: cs' ∧ Runs exec (f r) s' cs' s'' a :=
  call_inv h

theorem bind_inv {p : Prog Op Res α} {f : α → Prog Op Res β} {s s'' : σ} {b : β}
    {cs : List (Call Op Res)} (h : Runs exec (p >>= f) s cs s'' b) :
    ∃ (s' : σ) (a : α) (cs₁ cs₂ : List (Call Op Res)),
      cs = cs₁ ++ cs₂ ∧ Runs exec p s cs₁ s' a ∧ Runs exec (f a) s' cs₂ s'' b := by
  induction p generalizing s cs with
  | done a => exact ⟨s, a, [], cs, rfl, .done s a, h⟩
  | call o k ih =>
      rcases call_inv h with ⟨e, s₁, r, cs', he, rfl, hk⟩
      rcases ih r hk with ⟨s', a, cs₁, cs₂, rfl, h₁, h₂⟩
      exact ⟨s', a, ⟨o, r⟩ :: cs₁, cs₂, rfl, .call he h₁, h₂⟩

theorem of_eval {p : Prog Op Res α} {es : List ε} {s s' : σ} {cs : List (Call Op Res)} {a : α}
    (h : p.eval exec es s = some (cs, s', a)) : Runs exec p s cs s' a := by
  induction p generalizing es s cs with
  | done b =>
      cases h
      exact .done _ _
  | call o k ih =>
      cases es with
      | nil => cases h
      | cons e es =>
          rcases Option.bind_eq_some_iff.1 h with ⟨⟨s₁, r⟩, he, hmap⟩
          rcases Option.map_eq_some_iff.1 hmap with ⟨⟨cs₁, s₂, b⟩, hrest, hEq⟩
          cases hEq
          exact .call he (ih r hrest)

/-- A run performs only what its program may perform. -/
theorem calls {P : Op → Prop} {p : Prog Op Res α} {s s' : σ} {cs : List (Call Op Res)} {a : α}
    (h : Runs exec p s cs s' a) (hp : p.Uses P) : ∀ call ∈ cs, P call.op := by
  induction h with
  | done s a => simp
  | call _ _ ih =>
      intro call hmem
      rcases List.mem_cons.1 hmem with rfl | hmem
      · exact hp.1
      · exact ih (hp.2 _) call hmem

/-- What every permitted operation keeps, a run keeps. -/
theorem invariant {P : Op → Prop} {I : σ → Prop} {p : Prog Op Res α} {s s' : σ}
    {cs : List (Call Op Res)} {a : α} (h : Runs exec p s cs s' a) (hp : p.Uses P)
    (hop : ∀ o e s s' r, P o → exec o e s = some (s', r) → I s → I s') (hs : I s) : I s' := by
  induction h with
  | done s a => exact hs
  | call he _ ih => exact ih (hp.2 _) (hop _ _ _ _ _ hp.1 he hs)

end Runs

/-- The same, with what the environment decided. -/
inductive RunsWith (exec : (o : Op) → ε → σ → Option (σ × Res o)) :
    Prog Op Res α → σ → List ε → List (Call Op Res) → σ → α → Prop where
  | done (s : σ) (a : α) :
      RunsWith exec (.done a) s [] [] s a
  | call {o : Op} {k : Res o → Prog Op Res α} {s s' s'' : σ} {e : ε} {es : List ε} {r : Res o}
      {cs : List (Call Op Res)} {a : α} :
      exec o e s = some (s', r) → RunsWith exec (k r) s' es cs s'' a →
        RunsWith exec (.call o k) s (e :: es) (⟨o, r⟩ :: cs) s'' a

namespace RunsWith

variable {exec exec' : (o : Op) → ε → σ → Option (σ × Res o)}

theorem call_inv {o : Op} {k : Res o → Prog Op Res α} {s s'' : σ} {a : α} {es : List ε}
    {cs : List (Call Op Res)} (h : RunsWith exec (.call o k) s es cs s'' a) :
    ∃ (e : ε) (es' : List ε) (s' : σ) (r : Res o) (cs' : List (Call Op Res)),
      es = e :: es' ∧ exec o e s = some (s', r) ∧ cs = ⟨o, r⟩ :: cs' ∧
        RunsWith exec (k r) s' es' cs' s'' a := by
  cases h with
  | call he hk => exact ⟨_, _, _, _, _, rfl, he, rfl, hk⟩

/-- A run under decisions that another execution permits too. -/
theorem runs {p : Prog Op Res α} {s s' : σ} {a : α} {es : List ε} {cs : List (Call Op Res)}
    (h : RunsWith exec p s es cs s' a)
    (hexec : ∀ e ∈ es, ∀ o s s' r, exec o e s = some (s', r) → exec' o e s = some (s', r)) :
    Runs exec' p s cs s' a := by
  induction h with
  | done s a => exact .done s a
  | call he _ ih =>
      obtain ⟨hfirst, hrest⟩ := List.forall_mem_cons.1 hexec
      exact .call (hfirst _ _ _ _ he) (ih hrest)

/-- The decisions an evaluation used. -/
theorem of_eval {p : Prog Op Res α} {es : List ε} {s s' : σ} {cs : List (Call Op Res)} {a : α}
    (h : p.eval exec es s = some (cs, s', a)) :
    RunsWith exec p s (es.take cs.length) cs s' a := by
  induction p generalizing es s cs with
  | done b =>
      cases h
      exact .done _ _
  | call o k ih =>
      cases es with
      | nil => cases h
      | cons e es =>
          obtain ⟨⟨s₁, r⟩, he, hmap⟩ := Option.bind_eq_some_iff.1 h
          obtain ⟨⟨cs₁, s₂, b⟩, hrest, hEq⟩ := Option.map_eq_some_iff.1 hmap
          cases hEq
          exact .call he (ih r hrest)

end RunsWith

/-! ## Total correctness of a program run alone -/

namespace Prog

variable {exec : (o : Op) → ε → σ → Option (σ × Res o)} {ok : Call Op Res → Prop}

/-- Run alone from the store `s` with calls that all meet `ok`, the program ends, and every such
run ends with `post`. -/
def Ensures (exec : (o : Op) → ε → σ → Option (σ × Res o)) (ok : Call Op Res → Prop)
    (post : σ → α → Prop) : Prog Op Res α → σ → Prop
  | .done a, s => post s a
  | .call o k, s =>
      (∃ e s' r, exec o e s = some (s', r) ∧ ok ⟨o, r⟩) ∧
        ∀ e s' r, exec o e s = some (s', r) → ok ⟨o, r⟩ → (k r).Ensures exec ok post s'

theorem Ensures.mono {post post' : σ → α → Prop} {p : Prog Op Res α} {s : σ}
    (h : p.Ensures exec ok post s) (hpost : ∀ s a, post s a → post' s a) :
    p.Ensures exec ok post' s := by
  induction p generalizing s with
  | done a => exact hpost s a h
  | call o k ih => exact ⟨h.1, fun e s' r he hok => ih r (h.2 e s' r he hok)⟩

theorem Ensures.bind {post : σ → α → Prop} {post' : σ → β → Prop} {p : Prog Op Res α}
    {f : α → Prog Op Res β} {s : σ} (h : p.Ensures exec ok post s)
    (hf : ∀ s a, post s a → (f a).Ensures exec ok post' s) :
    (p >>= f).Ensures exec ok post' s := by
  induction p generalizing s with
  | done a => exact hf s a h
  | call o k ih => exact ⟨h.1, fun e s' r he hok => ih r (h.2 e s' r he hok)⟩

theorem Ensures.of_map {post : σ → β → Prop} {f : α → β} {p : Prog Op Res α} {s : σ}
    (h : (f <$> p).Ensures exec ok post s) : p.Ensures exec ok (fun s a => post s (f a)) s := by
  induction p generalizing s with
  | done a => exact h
  | call o k ih => exact ⟨h.1, fun e s' r he hok => ih r (h.2 e s' r he hok)⟩

theorem Ensures.and_ends {post : σ → α → Prop} {P : α → Prop} {p : Prog Op Res α} {s : σ}
    (h : p.Ensures exec ok post s) (hp : p.Ends P) :
    p.Ensures exec ok (fun s a => post s a ∧ P a) s := by
  induction p generalizing s with
  | done a => exact ⟨h, hp⟩
  | call o k ih => exact ⟨h.1, fun e s' r he hok => ih r (h.2 e s' r he hok) (hp r)⟩

theorem Ensures.exists_run {post : σ → α → Prop} {p : Prog Op Res α} {s : σ}
    (h : p.Ensures exec ok post s) :
    ∃ cs s' a, Runs exec p s cs s' a ∧ ∀ call ∈ cs, ok call := by
  induction p generalizing s with
  | done a => exact ⟨[], s, a, .done s a, by simp⟩
  | call o k ih =>
      obtain ⟨⟨e, s₁, r, he, hok⟩, hnext⟩ := h
      rcases ih r (hnext e s₁ r he hok) with ⟨cs, s', a, hrun, hcs⟩
      refine ⟨⟨o, r⟩ :: cs, s', a, .call he hrun, ?_⟩
      intro call hmem
      rcases List.mem_cons.1 hmem with rfl | hmem
      · exact hok
      · exact hcs call hmem

theorem Ensures.post_of_runs {post : σ → α → Prop} {p : Prog Op Res α} {s s' : σ}
    {cs : List (Call Op Res)} {a : α} (h : p.Ensures exec ok post s)
    (hrun : Runs exec p s cs s' a) (hcs : ∀ call ∈ cs, ok call) : post s' a := by
  induction hrun with
  | done s a => exact h
  | call he _ ih =>
      have hok := hcs _ List.mem_cons_self
      exact ih (h.2 _ _ _ he hok) fun call hmem => hcs call (List.mem_cons_of_mem _ hmem)

/-- A program over more operations, on a store of which the smaller one is a view; the rest of it
stays. -/
theorem Ensures.embed {Op' : Type} {Res' : Op' → Type} {σ' ε' τ : Type}
    {exec' : (o : Op') → ε' → σ' → Option (σ' × Res' o)} {ok' : Call Op' Res' → Prop}
    {view : σ' → σ} {rest : σ' → τ} {f : Op → Op'} {res : ∀ o, Res' (f o) → Res o}
    {post : σ → α → Prop} {p : Prog Op Res α} {s : σ'} (h : p.Ensures exec ok post (view s))
    (hlive : ∀ o e s d r, exec o e (view s) = some (d, r) → ok ⟨o, r⟩ →
      ∃ e' s' r', exec' (f o) e' s = some (s', r') ∧ ok' ⟨f o, r'⟩)
    (hstep : ∀ o e' s s' r', exec' (f o) e' s = some (s', r') → ok' ⟨f o, r'⟩ → rest s' = rest s ∧
      ∃ e, exec o e (view s) = some (view s', res o r') ∧ ok ⟨o, res o r'⟩) :
    (p.embed f res).Ensures exec' ok' (fun s' a => post (view s') a ∧ rest s' = rest s) s := by
  induction p generalizing s with
  | done a => exact ⟨h, rfl⟩
  | call o k ih =>
      obtain ⟨⟨e, d, r, he, hok⟩, hnext⟩ := h
      refine ⟨hlive o e s d r he hok, ?_⟩
      intro e' s' r' he' hok'
      obtain ⟨hrest, e, he, hok⟩ := hstep o e' s s' r' he' hok'
      refine (ih (res o r') (hnext e (view s') (res o r') he hok)).mono ?_
      rintro s'' a ⟨hpost, hsame⟩
      exact ⟨hpost, hsame.trans hrest⟩

/-- Once a call does not meet `ok`, the program ends with a value that does not meet `P`. -/
def Strict (ok : Call Op Res → Prop) (P : α → Prop) (p : Prog Op Res α) : Prop :=
  p.Always fun o k => ∀ r, ¬ok ⟨o, r⟩ → (k r).Ends fun a => ¬P a

theorem Strict.bind {P : α → Prop} {Q : β → Prop} {p : Prog Op Res α} {f : α → Prog Op Res β}
    (hp : p.Strict ok P) (hfail : ∀ a, ¬P a → (f a).Ends fun b => ¬Q b)
    (hf : ∀ a, (f a).Strict ok Q) : (p >>= f).Strict ok Q := by
  induction p with
  | done a => exact hf a
  | call o k ih =>
      refine ⟨?_, fun r => ih r (hp.2 r)⟩
      intro r hr
      exact (hp.1 r hr).bind hfail

theorem Strict.perform_bind {Q : β → Prop} {o : Op} {f : Res o → Prog Op Res β}
    (hfail : ∀ r, ¬ok ⟨o, r⟩ → (f r).Ends fun b => ¬Q b) (hf : ∀ r, (f r).Strict ok Q) :
    (perform o >>= f).Strict ok Q :=
  ⟨hfail, hf⟩

end Prog

theorem Runs.post_of_ends {exec : (o : Op) → ε → σ → Option (σ × Res o)} {P : α → Prop}
    {p : Prog Op Res α} {s s' : σ} {cs : List (Call Op Res)} {a : α}
    (h : Runs exec p s cs s' a) (hp : p.Ends P) : P a := by
  induction h with
  | done s a => exact hp
  | call _ _ ih => exact ih (hp _)

/-- A run that ends with `P` has made `ok` calls only. -/
theorem Runs.calls_ok {exec : (o : Op) → ε → σ → Option (σ × Res o)} {ok : Call Op Res → Prop}
    {P : α → Prop} {p : Prog Op Res α} {s s' : σ} {cs : List (Call Op Res)} {a : α}
    (h : Runs exec p s cs s' a) (hp : p.Strict ok P) (ha : P a) : ∀ call ∈ cs, ok call := by
  induction h with
  | done s a => exact nofun
  | call _ hrun ih =>
      refine List.forall_mem_cons.2 ⟨?_, ih (hp.2 _) ha⟩
      by_contra hnot
      exact hrun.post_of_ends (hp.1 _ hnot) ha

/-! ## Partial correctness of a program run alone -/

namespace Prog

variable {exec : (o : Op) → ε → σ → Option (σ × Res o)}

/-- Run alone from the store `s`, the program ends with `post`, if it ends. -/
def Yields (exec : (o : Op) → ε → σ → Option (σ × Res o)) (post : σ → α → Prop) :
    Prog Op Res α → σ → Prop
  | .done a, s => post s a
  | .call o k, s => ∀ e s' r, exec o e s = some (s', r) → (k r).Yields exec post s'

theorem Yields.mono {post post' : σ → α → Prop} {p : Prog Op Res α} {s : σ}
    (h : p.Yields exec post s) (hpost : ∀ s a, post s a → post' s a) :
    p.Yields exec post' s := by
  induction p generalizing s with
  | done a => exact hpost s a h
  | call o k ih => exact fun e s' r he => ih r (h e s' r he)

theorem Yields.bind {post : σ → α → Prop} {post' : σ → β → Prop} {p : Prog Op Res α}
    {f : α → Prog Op Res β} {s : σ} (h : p.Yields exec post s)
    (hf : ∀ s a, post s a → (f a).Yields exec post' s) : (p >>= f).Yields exec post' s := by
  induction p generalizing s with
  | done a => exact hf s a h
  | call o k ih => exact fun e s' r he => ih r (h e s' r he)

theorem Yields.of_map {post : σ → β → Prop} {f : α → β} {p : Prog Op Res α} {s : σ}
    (h : (f <$> p).Yields exec post s) : p.Yields exec (fun s a => post s (f a)) s := by
  induction p generalizing s with
  | done a => exact h
  | call o k ih => exact fun e s' r he => ih r (h e s' r he)

theorem Yields.map {post : σ → β → Prop} {f : α → β} {p : Prog Op Res α} {s : σ}
    (h : p.Yields exec (fun s a => post s (f a)) s) : (f <$> p).Yields exec post s := by
  rw [map_eq_bind]
  exact h.bind fun _ _ hpost => hpost

/-- What every permitted operation keeps, the program keeps. -/
theorem Yields.of_uses {P : Op → Prop} {I : σ → Prop} {p : Prog Op Res α} {s : σ}
    (hp : p.Uses P) (hop : ∀ o e s s' r, P o → exec o e s = some (s', r) → I s → I s')
    (hs : I s) : p.Yields exec (fun s' _ => I s') s := by
  induction p generalizing s with
  | done a => exact hs
  | call o k ih => exact fun e s' r he => ih r (hp.2 r) (hop _ _ _ _ _ hp.1 he hs)

theorem Yields.and {post post' : σ → α → Prop} {p : Prog Op Res α} {s : σ}
    (h : p.Yields exec post s) (h' : p.Yields exec post' s) :
    p.Yields exec (fun s a => post s a ∧ post' s a) s := by
  induction p generalizing s with
  | done a => exact ⟨h, h'⟩
  | call o k ih => exact fun e s' r he => ih r (h e s' r he) (h' e s' r he)

/-- The calls that meet no condition. -/
theorem Ensures.yields {post : σ → α → Prop} {p : Prog Op Res α} {s : σ}
    (h : p.Ensures exec (fun _ => True) post s) : p.Yields exec post s := by
  induction p generalizing s with
  | done a => exact h
  | call o k ih => exact fun e s' r he => ih r (h.2 e s' r he trivial)

theorem Yields.of_runs {post : σ → α → Prop} {p : Prog Op Res α} {s : σ}
    (h : ∀ cs s' a, Runs exec p s cs s' a → post s' a) : p.Yields exec post s := by
  induction p generalizing s with
  | done a => exact h [] s a (.done s a)
  | call o k ih =>
      intro e s' r he
      apply ih
      intro cs s'' a hrun
      exact h _ s'' a (.call he hrun)

/-- Partial correctness in an environment that can do less. -/
theorem Yields.of_le {exec' : (o : Op) → ε → σ → Option (σ × Res o)} {post : σ → α → Prop}
    {p : Prog Op Res α} {s : σ} (h : p.Yields exec post s)
    (hexec : ∀ o e s t, exec' o e s = some t → exec o e s = some t) : p.Yields exec' post s := by
  induction p generalizing s with
  | done a => exact h
  | call o k ih => exact fun e s' r he => ih r (h e s' r (hexec o e s _ he))

theorem Yields.post_of_runs {post : σ → α → Prop} {p : Prog Op Res α} {s s' : σ}
    {cs : List (Call Op Res)} {a : α} (h : p.Yields exec post s)
    (hrun : Runs exec p s cs s' a) : post s' a := by
  induction hrun with
  | done s a => exact h
  | call he _ ih => exact ih (h _ _ _ he)

end Prog

/-! ## Programs interleaved -/

/-- A logged call: which task made it, for which request. -/
structure Entry (ρ : Type) (Op : Type) (Res : Op → Type) where
  task : Nat
  request : ρ
  call : Call Op Res

/-- What all tasks see: the shared store and the history of calls, newest first. -/
structure World (σ ρ : Type) (Op : Type) (Res : Op → Type) where
  store : σ
  log : List (Entry ρ Op Res)

/-- A task: the request it serves and the rest of its program, `none` once it was dropped. -/
structure Task (ρ : Type) (Op : Type) (Res : Op → Type) (α : Type) where
  request : ρ
  prog : Option (Prog Op Res α)

/-- A shared world and the tasks working on it. -/
structure Pool (σ ρ : Type) (Op : Type) (Res : Op → Type) (α : Type) extends
    World σ ρ Op Res where
  tasks : Nat → Option (Task ρ Op Res α)

/-- One scheduler step: start a task, let a task perform its next operation, or drop a task. -/
inductive Action (ρ ε : Type) where
  | spawn (i : Nat) (req : ρ)
  | call (i : Nat) (e : ε)
  | drop (i : Nat)

namespace Pool

/-- The pool before any request: an initial store and no tasks. -/
def init (s : σ) : Pool σ ρ Op Res α :=
  { store := s
    log := []
    tasks := fun _ => none }

def setTask (c : Pool σ ρ Op Res α) (i : Nat) (t : Task ρ Op Res α) : Pool σ ρ Op Res α :=
  { c with tasks := Function.update c.tasks i (some t) }

variable (code : ρ → Prog Op Res α) (exec : (o : Op) → ε → σ → Option (σ × Res o))

/-- The scheduler.  A task identifier is used once; a step that is not enabled is `none`. -/
def step (c : Pool σ ρ Op Res α) : Action ρ ε → Option (Pool σ ρ Op Res α)
  | .spawn i req =>
      match c.tasks i with
      | none => some (c.setTask i ⟨req, some (code req)⟩)
      | some _ => none
  | .call i e =>
      match c.tasks i with
      | some ⟨req, some (.call o k)⟩ =>
          match exec o e c.store with
          | some (s, r) =>
              some
                { store := s
                  log := ⟨i, req, ⟨o, r⟩⟩ :: c.log
                  tasks := Function.update c.tasks i (some ⟨req, some (k r)⟩) }
          | none => none
      | _ => none
  | .drop i =>
      match c.tasks i with
      | some ⟨req, some _⟩ => some (c.setTask i ⟨req, none⟩)
      | _ => none

def run (c : Pool σ ρ Op Res α) : List (Action ρ ε) → Option (Pool σ ρ Op Res α)
  | [] => some c
  | a :: as => (c.step code exec a).bind fun c' => c'.run as

/-- Run a list of scheduler steps, each only if it passes the check. -/
def runChecked (check : Pool σ ρ Op Res α → Action ρ ε → Bool) (c : Pool σ ρ Op Res α) :
    List (Action ρ ε) → Option (Pool σ ρ Op Res α)
  | [] => some c
  | a :: as =>
      if check c a then (c.step code exec a).bind fun c' => c'.runChecked check as else none

variable {code exec}

/-- Everything a scheduler step can do. -/
theorem step_cases {c c' : Pool σ ρ Op Res α} {a : Action ρ ε}
    (h : c.step code exec a = some c') :
    (∃ i req, a = .spawn i req ∧ c.tasks i = none ∧
      c' = c.setTask i ⟨req, some (code req)⟩) ∨
    (∃ i e req o k s r, a = .call i e ∧ c.tasks i = some ⟨req, some (.call o k)⟩ ∧
      exec o e c.store = some (s, r) ∧
      c' = { store := s
             log := ⟨i, req, ⟨o, r⟩⟩ :: c.log
             tasks := Function.update c.tasks i (some ⟨req, some (k r)⟩) }) ∨
    (∃ i req p, a = .drop i ∧ c.tasks i = some ⟨req, some p⟩ ∧
      c' = c.setTask i ⟨req, none⟩) := by
  cases a with
  | spawn i req =>
      simp only [step] at h
      split at h
      · rename_i ht
        exact .inl ⟨i, req, rfl, ht, by simpa using h.symm⟩
      · cases h
  | call i e =>
      simp only [step] at h
      split at h
      · rename_i req o k ht
        split at h
        · rename_i s r he
          exact .inr (.inl ⟨i, e, req, o, k, s, r, rfl, ht, he, by simpa using h.symm⟩)
        · cases h
      · cases h
  | drop i =>
      simp only [step] at h
      split at h
      · rename_i req p ht
        exact .inr (.inr ⟨i, req, p, rfl, ht, by simpa using h.symm⟩)
      · cases h

theorem mem_log_of_step {c c' : Pool σ ρ Op Res α} {a : Action ρ ε}
    (h : c.step code exec a = some c') : ∀ e ∈ c.log, e ∈ c'.log := by
  intro e he
  rcases step_cases h with ⟨i, req, rfl, -, rfl⟩ | ⟨i, env, req, o, k, s, r, rfl, -, -, rfl⟩ |
    ⟨i, req, p, rfl, -, rfl⟩
  · exact he
  · exact List.mem_cons_of_mem _ he
  · exact he

/-- A task stays, with its request. -/
theorem request_of_step {c c' : Pool σ ρ Op Res α} {a : Action ρ ε} {i : Nat}
    {t : Task ρ Op Res α} (h : c.step code exec a = some c') (ht : c.tasks i = some t) :
    ∃ t', c'.tasks i = some t' ∧ t'.request = t.request := by
  rcases step_cases h with ⟨j, req, rfl, hj, rfl⟩ | ⟨j, env, req, o, k, s, r, rfl, hj, -, rfl⟩ |
    ⟨j, req, p, rfl, hj, rfl⟩
  · have hij : i ≠ j := by
      rintro rfl
      rw [hj] at ht
      cases ht
    exact ⟨t, (Function.update_of_ne hij _ _).trans ht, rfl⟩
  all_goals
    by_cases hij : i = j
    · subst hij
      cases hj.symm.trans ht
      exact ⟨_, Function.update_self _ _ _, rfl⟩
    · exact ⟨t, (Function.update_of_ne hij _ _).trans ht, rfl⟩

def Finished (c : Pool σ ρ Op Res α) : Prop :=
  ∀ i t, c.tasks i = some t → ∃ a, t.prog = some (.done a)

/-- The result of task `i`, once it has ended. -/
def result (c : Pool σ ρ Op Res α) (i : Nat) : Option α :=
  match c.tasks i with
  | some ⟨_, some (.done a)⟩ => some a
  | _ => none

/-- The tasks `0` to `n - 1` have ended. -/
def allEnded (c : Pool σ ρ Op Res α) (n : Nat) : Bool :=
  (List.range n).all fun i => (c.result i).isSome

/-- A run that does not start task `i` leaves it unstarted. -/
theorem tasks_runChecked {check : Pool σ ρ Op Res α → Action ρ ε → Bool} {as : List (Action ρ ε)}
    {c c' : Pool σ ρ Op Res α} {i : Nat} (h : c.runChecked code exec check as = some c')
    (hnone : c.tasks i = none) (hspawn : ∀ req, .spawn i req ∉ as) : c'.tasks i = none := by
  induction as generalizing c with
  | nil =>
      cases h
      exact hnone
  | cons a as ih =>
      simp only [runChecked] at h
      split at h
      · rcases Option.bind_eq_some_iff.1 h with ⟨c₁, hs, hr⟩
        refine ih hr ?_ fun req hmem => hspawn req (List.mem_cons_of_mem a hmem)
        rcases step_cases hs with ⟨j, req, rfl, -, rfl⟩ | ⟨j, e, req, o, k, s, r, rfl, ht, -, rfl⟩ |
          ⟨j, req, p, rfl, ht, rfl⟩
        · have hij : i ≠ j := by
            rintro rfl
            exact hspawn req List.mem_cons_self
          simpa [setTask, hij] using hnone
        · have hij : i ≠ j := by
            rintro rfl
            rw [hnone] at ht
            cases ht
          simpa [hij] using hnone
        · have hij : i ≠ j := by
            rintro rfl
            rw [hnone] at ht
            cases ht
          simpa [setTask, hij] using hnone
      · cases h

/-- A run that starts the tasks `0` to `n - 1`, and in which they have ended. -/
theorem finished_of_allEnded {check : Pool σ ρ Op Res α → Action ρ ε → Bool}
    {as : List (Action ρ ε)} {c c' : Pool σ ρ Op Res α} {n : Nat}
    (h : c.runChecked code exec check as = some c') (hnone : ∀ i, c.tasks i = none)
    (hspawn : ∀ i req, .spawn i req ∈ as → i < n) (hended : c'.allEnded n = true) :
    c'.Finished := by
  intro i t ht
  have hlt : i < n := by
    by_contra hge
    have htask := tasks_runChecked h (hnone i) fun req hmem => hge (hspawn i req hmem)
    rw [htask] at ht
    cases ht
  have hsome := List.all_eq_true.1 hended i (List.mem_range.2 hlt)
  unfold result at hsome
  split at hsome
  · rename_i a hdone
    cases ht.symm.trans hdone
    exact ⟨a, rfl⟩
  · cases hsome

end Pool

/-- The list starts only the tasks `0` to `n - 1`. -/
def Action.spawnsBelow (n : Nat) (as : List (Action ρ ε)) : Bool :=
  as.all fun a =>
    match a with
    | .spawn i _ => i < n
    | _ => true

theorem Action.lt_of_spawnsBelow {n : Nat} {as : List (Action ρ ε)}
    (h : spawnsBelow n as = true) : ∀ i req, Action.spawn i req ∈ as → i < n := by
  intro i req hmem
  simpa using List.all_eq_true.1 h _ hmem

/-! ## Runs of a pool under a side condition -/

/-- `Path code exec c tr c'`: the steps `tr`, each recorded with the pool before it, the action and
the pool after it, lead from `c` to `c'`. -/
inductive Path (code : ρ → Prog Op Res α) (exec : (o : Op) → ε → σ → Option (σ × Res o))
    (c : Pool σ ρ Op Res α) :
    List (Pool σ ρ Op Res α × Action ρ ε × Pool σ ρ Op Res α) → Pool σ ρ Op Res α → Prop where
  | nil : Path code exec c [] c
  | snoc {tr : List (Pool σ ρ Op Res α × Action ρ ε × Pool σ ρ Op Res α)}
      {c₁ c₂ : Pool σ ρ Op Res α} {a : Action ρ ε} :
      Path code exec c tr c₁ → c₁.step code exec a = some c₂ →
        Path code exec c (tr ++ [(c₁, a, c₂)]) c₂

/-- `c'` is reached from `c` by a run all of whose steps meet `allow`. -/
def Reaches (code : ρ → Prog Op Res α) (exec : (o : Op) → ε → σ → Option (σ × Res o))
    (allow : Pool σ ρ Op Res α → Action ρ ε → Prop) (c c' : Pool σ ρ Op Res α) : Prop :=
  ∃ tr, Path code exec c tr c' ∧ ∀ x ∈ tr, allow x.1 x.2.1

section Reachability

variable {code : ρ → Prog Op Res α} {exec : (o : Op) → ε → σ → Option (σ × Res o)}
  {allow : Pool σ ρ Op Res α → Action ρ ε → Prop} {c c' c'' : Pool σ ρ Op Res α}

theorem Path.step_eq {tr : List (Pool σ ρ Op Res α × Action ρ ε × Pool σ ρ Op Res α)}
    (h : Path code exec c tr c') : ∀ x ∈ tr, x.1.step code exec x.2.1 = some x.2.2 := by
  induction h with
  | nil => simp
  | snoc _ hs ih =>
      intro x hx
      rcases List.mem_append.1 hx with hx | hx
      · exact ih x hx
      · have : x = _ := List.mem_singleton.1 hx
        subst this
        exact hs

/-- What was logged stays logged. -/
theorem Path.mem_log {tr : List (Pool σ ρ Op Res α × Action ρ ε × Pool σ ρ Op Res α)}
    (h : Path code exec c tr c') : ∀ st ∈ tr, ∀ e ∈ st.2.2.log, e ∈ c'.log := by
  induction h with
  | nil => simp
  | snoc _ hs ih =>
      intro st hst e he
      rcases List.mem_append.1 hst with hst | hst
      · exact Pool.mem_log_of_step hs e (ih st hst e he)
      · have hEq : st = _ := List.mem_singleton.1 hst
        subst hEq
        exact he

/-- A task serves one request all along a run. -/
theorem Path.exists_task {tr : List (Pool σ ρ Op Res α × Action ρ ε × Pool σ ρ Op Res α)}
    (h : Path code exec c tr c') : ∀ st ∈ tr, ∀ i t, st.2.2.tasks i = some t →
      ∃ t', c'.tasks i = some t' ∧ t'.request = t.request := by
  induction h with
  | nil => simp
  | snoc _ hs ih =>
      intro st hst i t ht
      rcases List.mem_append.1 hst with hst | hst
      · obtain ⟨t₁, ht₁, hreq₁⟩ := ih st hst i t ht
        obtain ⟨t₂, ht₂, hreq₂⟩ := Pool.request_of_step hs ht₁
        exact ⟨t₂, ht₂, hreq₂.trans hreq₁⟩
      · have hEq : st = _ := List.mem_singleton.1 hst
        subst hEq
        exact ⟨t, ht, rfl⟩

/-- Every pool a run passes through is reached, under the side condition the run meets. -/
theorem Path.source_reaches
    {tr : List (Pool σ ρ Op Res α × Action ρ ε × Pool σ ρ Op Res α)}
    (h : Path code exec c tr c') (hall : ∀ x ∈ tr, allow x.1 x.2.1) :
    ∀ st ∈ tr, Reaches code exec allow c st.1 := by
  induction h with
  | nil => simp
  | snoc hp hs ih =>
      have hinit := fun x hx => hall x (List.mem_append_left _ hx)
      intro st hst
      rcases List.mem_append.1 hst with hst | hst
      · exact ih hinit st hst
      · have hEq : st = _ := List.mem_singleton.1 hst
        subst hEq
        exact ⟨_, hp, hinit⟩

/-- The same for the pools after its steps. -/
theorem Path.target_reaches
    {tr : List (Pool σ ρ Op Res α × Action ρ ε × Pool σ ρ Op Res α)}
    (h : Path code exec c tr c') (hall : ∀ x ∈ tr, allow x.1 x.2.1) :
    ∀ st ∈ tr, Reaches code exec allow c st.2.2 := by
  induction h with
  | nil => simp
  | snoc hp hs ih =>
      intro st hst
      rcases List.mem_append.1 hst with hst | hst
      · exact ih (fun x hx => hall x (List.mem_append_left _ hx)) st hst
      · have hEq : st = _ := List.mem_singleton.1 hst
        subst hEq
        exact ⟨_, .snoc hp hs, hall⟩

namespace Reaches

theorem refl (c : Pool σ ρ Op Res α) : Reaches code exec allow c c :=
  ⟨[], .nil, by simp⟩

theorem tail {a : Action ρ ε} (h : Reaches code exec allow c c') (ha : allow c' a)
    (hs : c'.step code exec a = some c'') : Reaches code exec allow c c'' := by
  rcases h with ⟨tr, hp, hall⟩
  refine ⟨tr ++ [(c', a, c'')], .snoc hp hs, ?_⟩
  intro x hx
  rcases List.mem_append.1 hx with hx | hx
  · exact hall x hx
  · have : x = _ := List.mem_singleton.1 hx
    subst this
    exact ha

/-- The invariant rule: what holds at the start and is kept by every allowed step holds in every
pool reached. -/
theorem invariant {I : Pool σ ρ Op Res α → Prop} (h : Reaches code exec allow c c') (h₀ : I c)
    (hstep : ∀ c₁ a c₂, I c₁ → allow c₁ a → c₁.step code exec a = some c₂ → I c₂) : I c' := by
  rcases h with ⟨tr, hp, hall⟩
  induction hp with
  | nil => exact h₀
  | snoc hp hs ih =>
      refine hstep _ _ _ (ih ?_) ?_ hs
      · intro x hx
        exact hall x (List.mem_append_left _ hx)
      · exact hall _ (List.mem_append_right _ (List.mem_singleton.2 rfl))

theorem trans (h : Reaches code exec allow c c') (h' : Reaches code exec allow c' c'') :
    Reaches code exec allow c c'' :=
  h'.invariant (I := Reaches code exec allow c) h fun _ _ _ hr ha hs => hr.tail ha hs

theorem mono {allow' : Pool σ ρ Op Res α → Action ρ ε → Prop} (h : Reaches code exec allow c c')
    (hmono : ∀ c₁ a, allow c₁ a → allow' c₁ a) : Reaches code exec allow' c c' := by
  rcases h with ⟨tr, hp, hall⟩
  exact ⟨tr, hp, fun x hx => hmono _ _ (hall x hx)⟩

/-- A concrete run whose steps pass a check is a witness of reachability. -/
theorem of_runChecked {check : Pool σ ρ Op Res α → Action ρ ε → Bool} {as : List (Action ρ ε)}
    (h : c.runChecked code exec check as = some c')
    (hcheck : ∀ c₁ a, check c₁ a = true → allow c₁ a) : Reaches code exec allow c c' := by
  induction as generalizing c with
  | nil =>
      have hc : c = c' := by simpa [Pool.runChecked] using h
      subst hc
      exact refl c
  | cons a as ih =>
      simp only [Pool.runChecked] at h
      split at h
      · rename_i hok
        rcases Option.bind_eq_some_iff.1 h with ⟨c₁, hs, hr⟩
        exact ((refl c).tail (hcheck c a hok) hs).trans (ih hr)
      · cases h

/-- A concrete run is a witness of reachability when every step is allowed. -/
theorem of_run {as : List (Action ρ ε)} (h : c.run code exec as = some c')
    (hall : ∀ c₁ a, allow c₁ a) : Reaches code exec allow c c' := by
  induction as generalizing c with
  | nil =>
      have hc : c = c' := by simpa [Pool.run] using h
      subst hc
      exact refl c
  | cons a as ih =>
      rcases Option.bind_eq_some_iff.1 h with ⟨c₁, hs, hr⟩
      exact ((refl c).tail (hall c a) hs).trans (ih hr)

end Reaches

/-- A list of steps after which all tasks have ended is a run to such a pool. -/
theorem exists_finished_path {check : Pool σ ρ Op Res α → Action ρ ε → Bool}
    {as : List (Action ρ ε)} {n : Nat} {P : Pool σ ρ Op Res α → Bool}
    (heval : (c.runChecked code exec check as).map (fun c' => c'.allEnded n && P c') = some true)
    (hnone : ∀ i, c.tasks i = none) (hspawns : Action.spawnsBelow n as = true)
    (hcheck : ∀ c₁ a, check c₁ a = true → allow c₁ a) :
    ∃ tr c', Path code exec c tr c' ∧ (∀ st ∈ tr, allow st.1 st.2.1) ∧ c'.Finished ∧
      P c' = true := by
  rcases Option.map_eq_some_iff.1 heval with ⟨c', hrun, hP⟩
  rw [Bool.and_eq_true] at hP
  obtain ⟨tr, hpath, hall⟩ := Reaches.of_runChecked hrun hcheck
  exact ⟨tr, c', hpath, hall,
    Pool.finished_of_allEnded hrun hnone (Action.lt_of_spawnsBelow hspawns) hP.1, hP.2⟩

/-- A program run alone is a run of the pool in which only its task takes steps. -/
theorem Runs.reaches {p : Prog Op Res α} {s s' : σ} {cs : List (Call Op Res)} {a : α}
    (h : Runs exec p s cs s' a) {c : Pool σ ρ Op Res α} {i : Nat} {req : ρ}
    (hs : c.store = s) (ht : c.tasks i = some ⟨req, some p⟩)
    (hallow : ∀ c₁ e, allow c₁ (.call i e)) :
    ∃ c', Reaches code exec allow c c' ∧ c'.store = s' ∧
      c'.tasks i = some ⟨req, some (.done a)⟩ := by
  induction h generalizing c with
  | done s a => exact ⟨c, .refl c, hs, ht⟩
  | @call o k s₀ s₁ s₂ e r cs a he _ ih =>
      have hstep : c.step code exec (.call i e) =
          some { store := s₁
                 log := ⟨i, req, ⟨o, r⟩⟩ :: c.log
                 tasks := Function.update c.tasks i (some ⟨req, some (k r)⟩) } := by
        simp [Pool.step, ht, hs, he]
      rcases ih (c := { store := s₁
                        log := ⟨i, req, ⟨o, r⟩⟩ :: c.log
                        tasks := Function.update c.tasks i (some ⟨req, some (k r)⟩) })
        rfl (Function.update_self _ _ _) with ⟨c', hr, hs', ht'⟩
      exact ⟨c', ((Reaches.refl c).tail (hallow c e) hstep).trans hr, hs', ht'⟩

end Reachability

/-! ## Rely–guarantee -/

/-- A discipline for the tasks of a pool over `exec`: a shared invariant, what task `i` may rely on
while others run, and what must hold when a task performs an operation.  `allow` restricts the
steps considered; the last field says that a step taken within the discipline keeps the invariant
and is something every *other* task may rely on. -/
structure Discipline (ρ : Type) (exec : (o : Op) → ε → σ → Option (σ × Res o)) where
  inv : World σ ρ Op Res → Prop
  rely : Nat → World σ ρ Op Res → World σ ρ Op Res → Prop
  pre : Nat → ρ → World σ ρ Op Res → Op → Prop
  allow : Nat → ρ → World σ ρ Op Res → (o : Op) → Res o → Prop
  rely_refl : ∀ i w, rely i w w
  rely_trans : ∀ i w₁ w₂ w₃, rely i w₁ w₂ → rely i w₂ w₃ → rely i w₁ w₃
  guarantee : ∀ i req w o e s r, inv w → pre i req w o → allow i req w o r →
    exec o e w.store = some (s, r) →
      inv ⟨s, ⟨i, req, ⟨o, r⟩⟩ :: w.log⟩ ∧
        ∀ j, j ≠ i → rely j w ⟨s, ⟨i, req, ⟨o, r⟩⟩ :: w.log⟩

namespace Prog

variable {exec : (o : Op) → ε → σ → Option (σ × Res o)} (D : Discipline ρ exec)
  (i : Nat) (req : ρ)

/-- The rest of the program is correct from the world `w`, with interference only *between* its
operations. -/
def SatNow (post : World σ ρ Op Res → α → Prop) : Prog Op Res α → World σ ρ Op Res → Prop
  | .done a, w => post w a
  | .call o k, w =>
      D.pre i req w o ∧
        ∀ e s r, D.allow i req w o r → exec o e w.store = some (s, r) →
          ∀ w', D.rely i ⟨s, ⟨i, req, ⟨o, r⟩⟩ :: w.log⟩ w' → D.inv w' → (k r).SatNow post w'

/-- The rest of the program is correct from `w`, also after interference. -/
def Sat (post : World σ ρ Op Res → α → Prop) (p : Prog Op Res α) (w : World σ ρ Op Res) : Prop :=
  ∀ w', D.rely i w w' → D.inv w' → p.SatNow D i req post w'

variable {D i req}

theorem Sat.stable {post : World σ ρ Op Res → α → Prop} {p : Prog Op Res α}
    {w w' : World σ ρ Op Res} (h : p.Sat D i req post w) (hr : D.rely i w w') :
    p.Sat D i req post w' :=
  fun w'' hr' hinv => h w'' (D.rely_trans i w w' w'' hr hr') hinv

theorem SatNow.bind {post : World σ ρ Op Res → α → Prop} {post' : World σ ρ Op Res → β → Prop}
    {p : Prog Op Res α} {f : α → Prog Op Res β} {w : World σ ρ Op Res}
    (hp : p.SatNow D i req post w) (hinv : D.inv w)
    (hf : ∀ w' a, D.inv w' → post w' a → (f a).SatNow D i req post' w') :
    (p >>= f).SatNow D i req post' w := by
  induction p generalizing w with
  | done a => exact hf w a hinv hp
  | call o k ih =>
      refine ⟨hp.1, ?_⟩
      intro e s r ha he w' hr hinv'
      exact ih r (hp.2 e s r ha he w' hr hinv') hinv'

theorem SatNow.of_map {post : World σ ρ Op Res → β → Prop} {f : α → β} {p : Prog Op Res α}
    {w : World σ ρ Op Res} (h : (f <$> p).SatNow D i req post w) :
    p.SatNow D i req (fun w a => post w (f a)) w := by
  induction p generalizing w with
  | done a => exact h
  | call o k ih => exact ⟨h.1, fun e s r ha he w' hr hinv => ih r (h.2 e s r ha he w' hr hinv)⟩

theorem SatNow.mono {post post' : World σ ρ Op Res → α → Prop} {p : Prog Op Res α}
    {w : World σ ρ Op Res} (hp : p.SatNow D i req post w)
    (hpost : ∀ w' a, post w' a → post' w' a) : p.SatNow D i req post' w := by
  induction p generalizing w with
  | done a => exact hpost w a hp
  | call o k ih =>
      refine ⟨hp.1, ?_⟩
      intro e s r ha he w' hr hinv'
      exact ih r (hp.2 e s r ha he w' hr hinv')

theorem Sat.bind {post : World σ ρ Op Res → α → Prop} {post' : World σ ρ Op Res → β → Prop}
    {p : Prog Op Res α} {f : α → Prog Op Res β} {w : World σ ρ Op Res}
    (hp : p.Sat D i req post w)
    (hf : ∀ w' a, D.inv w' → post w' a → (f a).SatNow D i req post' w') :
    (p >>= f).Sat D i req post' w :=
  fun w' hr hinv => (hp w' hr hinv).bind hinv hf

/-- A program all of whose operations are permitted in every world is correct for a trivial
postcondition. -/
theorem SatNow.of_uses {P : Op → Prop} {post : World σ ρ Op Res → α → Prop} {p : Prog Op Res α}
    (hp : p.Uses P) (hpre : ∀ w o, D.inv w → P o → D.pre i req w o)
    (hpost : ∀ w a, D.inv w → post w a) {w : World σ ρ Op Res} (hinv : D.inv w) :
    p.SatNow D i req post w := by
  induction p generalizing w with
  | done a => exact hpost w a hinv
  | call o k ih =>
      refine ⟨hpre w o hinv hp.1, ?_⟩
      intro e s r _ _ w' _ hinv'
      exact ih r (hp.2 r) hinv'

/-- The frame rule: a program keeps what every other task and its own operations keep. -/
theorem SatNow.frame {I : World σ ρ Op Res → Prop} {post : World σ ρ Op Res → α → Prop}
    {p : Prog Op Res α} {w : World σ ρ Op Res} (hp : p.SatNow D i req post w)
    (hrely : ∀ w w', I w → D.rely i w w' → I w')
    (hstep : ∀ w o e s r, I w → exec o e w.store = some (s, r) →
      I ⟨s, ⟨i, req, ⟨o, r⟩⟩ :: w.log⟩)
    (hw : I w) : p.SatNow D i req (fun w a => post w a ∧ I w) w := by
  induction p generalizing w with
  | done a => exact ⟨hp, hw⟩
  | call o k ih =>
      refine ⟨hp.1, ?_⟩
      intro e s r ha he w' hr hinv
      have hI := hstep w o e s r hw he
      exact ih r (hp.2 e s r ha he w' hr hinv) (hrely _ w' hI hr)

end Prog

section Soundness

variable {code : ρ → Prog Op Res α} {exec : (o : Op) → ε → σ → Option (σ × Res o)}

/-- Every task of the pool is correct with respect to the discipline. -/
def Secure (D : Discipline ρ exec) (post : Nat → ρ → World σ ρ Op Res → α → Prop)
    (c : Pool σ ρ Op Res α) : Prop :=
  D.inv c.toWorld ∧
    ∀ i req p, c.tasks i = some ⟨req, some p⟩ → p.Sat D i req (post i req) c.toWorld

/-- Soundness of the rely–guarantee rules, one step at a time. -/
theorem Secure.step {D : Discipline ρ exec} {post : Nat → ρ → World σ ρ Op Res → α → Prop}
    {c c' : Pool σ ρ Op Res α} {a : Action ρ ε} (h : Secure D post c)
    (hs : c.step code exec a = some c')
    (hcode : ∀ i req w, D.inv w → (code req).SatNow D i req (post i req) w)
    (hallow : ∀ i e req o k s r, a = .call i e → c.tasks i = some ⟨req, some (.call o k)⟩ →
      exec o e c.store = some (s, r) → D.allow i req c.toWorld o r) :
    Secure D post c' := by
  rcases h with ⟨hinv, htasks⟩
  rcases Pool.step_cases hs with ⟨i, req, rfl, ht, rfl⟩ |
    ⟨i, e, req, o, k, s, r, rfl, ht, he, rfl⟩ | ⟨i, req, p, rfl, ht, rfl⟩
  · -- A fresh task starts at the beginning of its program.
    refine ⟨hinv, ?_⟩
    intro j req' p hj
    by_cases hji : j = i
    · subst hji
      have hp : (⟨req, some (code req)⟩ : Task ρ Op Res α) = ⟨req', some p⟩ := by
        simpa [Pool.setTask] using hj
      cases hp
      exact fun w _ hw => hcode j req w hw
    · exact htasks j req' p (by simpa [Pool.setTask, hji] using hj)
  · -- Task `i` moves on; every other task only sees interference it may rely on.
    have hnow := htasks i req _ ht c.toWorld (D.rely_refl i _) hinv
    have hal := hallow i e req o k s r rfl ht he
    have hg := D.guarantee i req c.toWorld o e s r hinv hnow.1 hal he
    refine ⟨hg.1, ?_⟩
    intro j req' p hj
    by_cases hji : j = i
    · subst hji
      have hp : (⟨req, some (k r)⟩ : Task ρ Op Res α) = ⟨req', some p⟩ := by
        simpa using hj
      cases hp
      exact fun w hr hw => hnow.2 e s r hal he w hr hw
    · have hj' : c.tasks j = some ⟨req', some p⟩ := by simpa [hji] using hj
      exact (htasks j req' p hj').stable (hg.2 j hji)
  · refine ⟨hinv, ?_⟩
    intro j req' q hj
    by_cases hji : j = i
    · subst hji
      simp [Pool.setTask] at hj
    · exact htasks j req' q (by simpa [Pool.setTask, hji] using hj)

/-- A structural property of the programs, which may depend on the request, survives every
scheduler step. -/
theorem always_step {P : ρ → (o : Op) → (Res o → Prog Op Res α) → Prop}
    {c c' : Pool σ ρ Op Res α} {a : Action ρ ε} (hs : c.step code exec a = some c')
    (hcode : ∀ req, (code req).Always (P req))
    (h : ∀ i req p, c.tasks i = some ⟨req, some p⟩ → p.Always (P req)) :
    ∀ i req p, c'.tasks i = some ⟨req, some p⟩ → p.Always (P req) := by
  intro j req' q hj
  rcases Pool.step_cases hs with ⟨i, req, rfl, ht, rfl⟩ |
    ⟨i, e, req, o, k, s, r, rfl, ht, he, rfl⟩ | ⟨i, req, p, rfl, ht, rfl⟩
  · by_cases hji : j = i
    · subst hji
      have hq : (⟨req, some (code req)⟩ : Task ρ Op Res α) = ⟨req', some q⟩ := by
        simpa [Pool.setTask] using hj
      cases hq
      exact hcode _
    · exact h j req' q (by simpa [Pool.setTask, hji] using hj)
  · by_cases hji : j = i
    · subst hji
      have hq : (⟨req, some (k r)⟩ : Task ρ Op Res α) = ⟨req', some q⟩ := by
        simpa using hj
      cases hq
      exact (h j _ _ ht).2 r
    · exact h j req' q (by simpa [hji] using hj)
  · by_cases hji : j = i
    · subst hji
      simp [Pool.setTask] at hj
    · exact h j req' q (by simpa [Pool.setTask, hji] using hj)

end Soundness

end Lib
end OpenWeights
