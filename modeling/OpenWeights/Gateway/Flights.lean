import OpenWeights.Lib.Typestate
import OpenWeights.Gateway.Serving

/-!
# Flights — one leader for each hash

A program that calls the coalescer is between `enter` and `finish` of the call it leads, or it
leads none.  An automaton that keeps track of this is a `Flies`; for the programs that follow it,
two of them never lead a call for the same hash at the same time (`Flights.unique`).
-/

namespace OpenWeights
namespace Gateway

open Lib Db OpenWeights.Core

namespace Serving

variable {h : Handlers} {ρ Φ α : Type}

/-- The automaton knows which call of the coalescer is led, and for which key. -/
structure Flies (T : Typestate Φ ρ Op Res) (lead : Φ → Option Nat) (key : ρ → Bytes) : Prop where
  start : lead T.start = none
  enter_ok : ∀ req φ hash, T.ok req φ (.enter hash) → lead φ = none ∧ hash = key req
  finish_ok : ∀ req φ n v, T.ok req φ (.finish n v) → lead φ = some n
  after_lead : ∀ φ hash n, lead (T.after φ (.enter hash) (.lead n)) = some n
  after_join : ∀ φ hash n, lead φ = none → lead (T.after φ (.enter hash) (.join n)) = none
  after_finish : ∀ φ n v, lead (T.after φ (.finish n v) ()) = none
  after_other : ∀ φ o r, (∀ hash, o ≠ .enter hash) → (∀ n v, o ≠ .finish n v) →
    lead (T.after φ o r) = lead φ

/-- Who leads what: the call is in flight, under the key of the request, and nobody else's. -/
structure Flights (T : Typestate Φ ρ Op Res) (lead : Φ → Option Nat) (key : ρ → Bytes)
    (c : Pool (State h) ρ Op Res α) : Prop where
  inFlight : ∀ i t n, c.tasks i = some t → lead (T.phaseOf i c.log) = some n →
    h.miss.inFlight c.store.group (key t.request) = some n
  lt : ∀ i n, lead (T.phaseOf i c.log) = some n → n < h.miss.started c.store.group
  inj : ∀ i j n, lead (T.phaseOf i c.log) = some n → lead (T.phaseOf j c.log) = some n → i = j

section Flights

variable {T : Typestate Φ ρ Op Res} {lead : Φ → Option Nat} {key : ρ → Bytes}
  {c c' : Pool (State h) ρ Op Res α} {code : ρ → Code α} {post : Φ → α → Prop}

theorem Flights.init (hflies : Flies T lead key) (s : State h) :
    Flights T lead key (Pool.init s : Pool (State h) ρ Op Res α) := by
  have hnone : ∀ i n, lead (T.phaseOf i []) ≠ some n := by
    intro i n hlead
    rw [show T.phaseOf i [] = T.start from rfl, hflies.start] at hlead
    cases hlead
  exact ⟨nofun, fun i n hlead => absurd hlead (hnone i n),
    fun i j n hlead => absurd hlead (hnone i n)⟩

/-- Two requests with one key do not both lead. -/
theorem Flights.unique (hf : Flights T lead key c) {i j n m : Nat} {t t' : Task ρ Op Res α}
    (hi : c.tasks i = some t) (hj : c.tasks j = some t') (hkey : key t.request = key t'.request)
    (hlead : lead (T.phaseOf i c.log) = some n) (hlead' : lead (T.phaseOf j c.log) = some m) :
    i = j := by
  have hn := hf.inFlight i t n hi hlead
  have hm := hf.inFlight j t' m hj hlead'
  rw [hkey, hm] at hn
  cases hn
  exact hf.inj i j n hlead hlead'

theorem group_of_exec {o : Op} {e : Env} {s s' : State h} {r : Res o}
    (he : exec h o e s = some (s', r)) (henter : ∀ hash, o ≠ .enter hash)
    (hfinish : ∀ n v, o ≠ .finish n v) : s'.group = s.group := by
  cases o with
  | enter hash => exact absurd rfl (henter hash)
  | finish n v => exact absurd rfl (hfinish n v)
  | openFile path =>
      cases e with
      | quiet =>
          have hs' := congrArg Prod.fst (Option.some.inj he)
          rw [← show _ = s' from hs', State.openFile]
          split <;> rfl
      | fault e =>
          cases he
          rfl
      | _ => cases he
  | disk o =>
      cases e with
      | disk e =>
          rcases Option.map_eq_some_iff.1 he with ⟨t, -, hEq⟩
          cases hEq
          rfl
      | _ => cases he
  | wait n =>
      cases e with
      | quiet =>
          rcases Option.map_eq_some_iff.1 he with ⟨v, -, hEq⟩
          cases hEq
          rfl
      | _ => cases he
  | receive left =>
      obtain ⟨-, rfl⟩ := exec_receive he
      rfl
  | _ => cases e <;> cases he <;> rfl

theorem result_of_finish {s s' : State h} {n : Nat} {v : Except SourceError Bytes} {e : Env}
    {r : Res (.finish n v)} (he : exec h (.finish n v) e s = some (s', r)) :
    h.miss.result s'.group n ≠ none := by
  cases e with
  | quiet =>
      cases he
      rw [h.miss.result_finish, if_pos rfl]
      exact Option.some_ne_none v
  | _ => cases he

/-- A call that has its result keeps one. -/
theorem result_of_exec {s s' : State h} {o : Op} {e : Env} {r : Res o} {n : Nat}
    (he : exec h o e s = some (s', r)) (hres : h.miss.result s.group n ≠ none) :
    h.miss.result s'.group n ≠ none := by
  by_cases henter : ∃ k, o = .enter k
  · obtain ⟨k, rfl⟩ := henter
    cases e with
    | quiet =>
        cases he
        rwa [h.miss.result_enter]
    | _ => cases he
  · by_cases hfinish : ∃ m v, o = .finish m v
    · obtain ⟨m, v, rfl⟩ := hfinish
      cases e with
      | quiet =>
          cases he
          rw [h.miss.result_finish]
          split
          · exact Option.some_ne_none v
          · exact hres
      | _ => cases he
    · rwa [group_of_exec he (fun k hEq => henter ⟨k, hEq⟩) fun m v hEq => hfinish ⟨m, v, hEq⟩]

/-- The requests of a pool stay what they are while one of them moves. -/
theorem request_of_update {i j : Nat} {req : ρ} {p p' : Option (Code α)} {t : Task ρ Op Res α}
    (ht : c.tasks i = some ⟨req, p⟩) (hj : Function.update c.tasks i (some ⟨req, p'⟩) j = some t) :
    ∃ t', c.tasks j = some t' ∧ t'.request = t.request := by
  by_cases hji : j = i
  · subst hji
    rw [Function.update_self] at hj
    cases hj
    exact ⟨_, ht, rfl⟩
  · rw [Function.update_of_ne hji] at hj
    exact ⟨t, hj, rfl⟩

/-- Whoever leads a call leads it until he hands in its result. -/
theorem Flies.lead_cons (hflies : Flies T lead key) {i j n : Nat} {req : ρ} {o : Op} {r : Res o}
    {log : List (Entry ρ Op Res)} (hok : T.ok req (T.phaseOf i log) o)
    (hlead : lead (T.phaseOf j log) = some n) :
    lead (T.phaseOf j (⟨i, req, ⟨o, r⟩⟩ :: log)) = some n ∨ ∃ v, o = .finish n v := by
  by_cases hji : j = i
  · subst hji
    by_cases hfinish : ∃ m v, o = .finish m v
    · obtain ⟨m, v, rfl⟩ := hfinish
      cases hlead.symm.trans (hflies.finish_ok _ _ _ _ hok)
      exact .inr ⟨v, rfl⟩
    · have henter : ∀ hash, o ≠ .enter hash := by
        rintro hash rfl
        cases hlead.symm.trans (hflies.enter_ok _ _ _ hok).1
      rw [Typestate.phaseOf_cons_self, hflies.after_other _ o r henter
        fun m v hEq => hfinish ⟨m, v, hEq⟩]
      exact .inl hlead
  · rw [Typestate.phaseOf_cons_of_ne hji]
    exact .inl hlead

/-- An operation after which everybody leads what he led. -/
theorem Flights.of_same {i : Nat} {req : ρ} {call : Call Op Res} {s : State h}
    {tasks : Nat → Option (Task ρ Op Res α)} (hf : Flights T lead key c)
    (htasks : ∀ j t, tasks j = some t → ∃ t', c.tasks j = some t' ∧ t'.request = t.request)
    (hlead : ∀ j n, lead (T.phaseOf j (⟨i, req, call⟩ :: c.log)) = some n →
      lead (T.phaseOf j c.log) = some n)
    (hgroup : ∀ k, h.miss.inFlight s.group k = h.miss.inFlight c.store.group k)
    (hstarted : h.miss.started s.group = h.miss.started c.store.group) :
    Flights T lead key ⟨⟨s, ⟨i, req, call⟩ :: c.log⟩, tasks⟩ where
  inFlight := by
    intro j t n hj hl
    obtain ⟨t', ht', hreq⟩ := htasks j t hj
    rw [← hreq]
    exact (hgroup _).trans (hf.inFlight j t' n ht' (hlead j n hl))
  lt := by
    intro j n hl
    have hlt := hf.lt j n (hlead j n hl)
    change n < h.miss.started s.group
    rwa [hstarted]
  inj := fun j k n hl hl' => hf.inj j k n (hlead j n hl) (hlead k n hl')

theorem Flights.enter (hflies : Flies T lead key) (hf : Flights T lead key c) {i : Nat} {req : ρ}
    {hash : Bytes} {p p' : Option (Code α)} (ht : c.tasks i = some ⟨req, p⟩)
    (hok : T.ok req (T.phaseOf i c.log) (.enter hash)) :
    Flights T lead key
      ⟨⟨{ c.store with group := (h.miss.enter c.store.group hash).1 },
        ⟨i, req, ⟨.enter hash, (h.miss.enter c.store.group hash).2⟩⟩ :: c.log⟩,
        Function.update c.tasks i (some ⟨req, p'⟩)⟩ := by
  obtain ⟨hidle, rfl⟩ := hflies.enter_ok req _ hash hok
  cases hflight : h.miss.inFlight c.store.group (key req) with
  | some m =>
      -- somebody leads already
      have hrole := h.miss.enter_join c.store.group (key req) m hflight
      have hgroup := h.miss.inFlight_join c.store.group (key req) m hflight
      refine hf.of_same (fun j t hj => request_of_update ht hj) ?_ (fun k => by rw [hgroup])
        (h.miss.started_join c.store.group (key req) m hflight)
      intro j n hl
      by_cases hji : j = i
      · subst hji
        rw [Typestate.phaseOf_cons_self, hrole, hflies.after_join _ _ _ hidle] at hl
        cases hl
      · rwa [Typestate.phaseOf_cons_of_ne hji] at hl
  | none =>
      have hrole := h.miss.enter_lead c.store.group (key req) hflight
      have hgroup := h.miss.inFlight_lead c.store.group (key req) hflight
      have hstarted := h.miss.started_lead c.store.group (key req) hflight
      have hself : ∀ n, lead (T.phaseOf i (⟨i, req, ⟨.enter (key req),
          (h.miss.enter c.store.group (key req)).2⟩⟩ :: c.log)) = some n →
            n = h.miss.started c.store.group := by
        intro n hl
        rw [Typestate.phaseOf_cons_self, hrole, hflies.after_lead] at hl
        exact (Option.some.inj hl).symm
      -- the others lead calls with smaller numbers
      have hothers : ∀ j n, j ≠ i → lead (T.phaseOf j (⟨i, req, ⟨.enter (key req),
          (h.miss.enter c.store.group (key req)).2⟩⟩ :: c.log)) = some n →
            lead (T.phaseOf j c.log) = some n ∧ n < h.miss.started c.store.group := by
        intro j n hji hl
        rw [Typestate.phaseOf_cons_of_ne hji] at hl
        exact ⟨hl, hf.lt j n hl⟩
      refine ⟨?_, ?_, ?_⟩
      · intro j t n hj hl
        change h.miss.inFlight (h.miss.enter c.store.group (key req)).1 (key t.request) = some n
        rw [hgroup]
        by_cases hji : j = i
        · subst hji
          rw [hself n hl]
          have ht' : (⟨req, p'⟩ : Task ρ Op Res α) = t := by simpa using hj
          rw [← ht', Function.update_self]
        · obtain ⟨hold, -⟩ := hothers j n hji hl
          have hj' : c.tasks j = some t := by simpa [hji] using hj
          have hin := hf.inFlight j t n hj' hold
          rw [Function.update_of_ne, hin]
          intro hEq
          rw [hEq, hflight] at hin
          cases hin
      · intro j n hl
        change n < h.miss.started (h.miss.enter c.store.group (key req)).1
        rw [hstarted]
        by_cases hji : j = i
        · subst hji
          rw [hself n hl]
          exact Nat.lt_succ_self _
        · exact Nat.lt_succ_of_lt (hothers j n hji hl).2
      · intro j k n hl hl'
        by_cases hji : j = i <;> by_cases hki : k = i
        · exact hji.trans hki.symm
        · subst hji
          exact absurd (hself n hl) (Nat.ne_of_lt (hothers k n hki hl').2)
        · subst hki
          exact absurd (hself n hl') (Nat.ne_of_lt (hothers j n hji hl).2)
        · exact hf.inj j k n (hothers j n hji hl).1 (hothers k n hki hl').1

theorem Flights.finish (hflies : Flies T lead key) (hf : Flights T lead key c) {i n : Nat} {req : ρ}
    {v : Except SourceError Bytes} {p p' : Option (Code α)} (ht : c.tasks i = some ⟨req, p⟩)
    (hok : T.ok req (T.phaseOf i c.log) (.finish n v)) :
    Flights T lead key
      ⟨⟨{ c.store with group := h.miss.finish c.store.group n v },
        ⟨i, req, ⟨.finish n v, ()⟩⟩ :: c.log⟩, Function.update c.tasks i (some ⟨req, p'⟩)⟩ := by
  have hn := hflies.finish_ok req _ n v hok
  have hkeep : ∀ j m, lead (T.phaseOf j (⟨i, req, ⟨.finish n v, ()⟩⟩ :: c.log)) = some m →
      lead (T.phaseOf j c.log) = some m ∧ m ≠ n := by
    intro j m hl
    by_cases hji : j = i
    · subst hji
      rw [Typestate.phaseOf_cons_self, hflies.after_finish] at hl
      cases hl
    · rw [Typestate.phaseOf_cons_of_ne hji] at hl
      refine ⟨hl, ?_⟩
      rintro rfl
      exact hji (hf.inj j i m hl hn)
  refine ⟨?_, ?_, ?_⟩
  · intro j t m hj hl
    obtain ⟨hold, hne⟩ := hkeep j m hl
    obtain ⟨t', ht', hreq⟩ := request_of_update ht hj
    have hin := hf.inFlight j t' m ht' hold
    change h.miss.inFlight (h.miss.finish c.store.group n v) (key t.request) = some m
    rw [← hreq, h.miss.inFlight_finish, hin, if_neg]
    intro hEq
    exact hne (Option.some.inj hEq)
  · intro j m hl
    change m < h.miss.started (h.miss.finish c.store.group n v)
    rw [h.miss.started_finish]
    exact hf.lt j m (hkeep j m hl).1
  · exact fun j k m hl hl' => hf.inj j k m (hkeep j m hl).1 (hkeep k m hl').1

/-- One scheduler step. -/
theorem Flights.step {a : Action ρ Env} (hflies : Flies T lead key) (hf : Flights T lead key c)
    (hconf : ConformsTo T post c) (hstep : c.step code (exec h) a = some c') :
    Flights T lead key c' := by
  rcases Pool.step_cases hstep with ⟨i, req, rfl, ht, rfl⟩ |
    ⟨i, e, req, o, k, s, r, rfl, ht, he, rfl⟩ | ⟨i, req, p, rfl, ht, rfl⟩
  -- A task that starts leads nothing.
  · refine ⟨?_, hf.lt, hf.inj⟩
    intro j t n hj hl
    by_cases hji : j = i
    · subst hji
      rw [show (c.setTask j ⟨req, some (code req)⟩).log = c.log from rfl,
        Typestate.phaseOf_eq_start (hconf.unused j ht), hflies.start] at hl
      cases hl
    · exact hf.inFlight j t n (by simpa [Pool.setTask, hji] using hj) hl
  -- Entering and finishing touch the group; any other call leaves it alone.
  · have hok := (hconf.follows i req _ ht).1
    by_cases henter : ∃ hash, o = .enter hash
    · obtain ⟨hash, rfl⟩ := henter
      cases e with
      | quiet =>
          cases he
          exact hf.enter hflies ht hok
      | _ => cases he
    · by_cases hfinish : ∃ n v, o = .finish n v
      · obtain ⟨n, v, rfl⟩ := hfinish
        cases e with
        | quiet =>
            cases he
            exact hf.finish hflies ht hok
        | _ => cases he
      · have henter' : ∀ hash, o ≠ .enter hash := fun hash hEq => henter ⟨hash, hEq⟩
        have hfinish' : ∀ n v, o ≠ .finish n v := fun n v hEq => hfinish ⟨n, v, hEq⟩
        have hgroup := group_of_exec he henter' hfinish'
        refine hf.of_same (fun j t hj => request_of_update ht hj) ?_ (fun k => by rw [hgroup])
          (by rw [hgroup])
        intro j n hl
        by_cases hji : j = i
        · subst hji
          rwa [Typestate.phaseOf_cons_self, hflies.after_other _ o r henter' hfinish'] at hl
        · rwa [Typestate.phaseOf_cons_of_ne hji] at hl
  · refine ⟨?_, hf.lt, hf.inj⟩
    intro j t n hj hl
    obtain ⟨t', ht', hreq⟩ := request_of_update ht hj
    rw [← hreq]
    exact hf.inFlight j t' n ht' hl

/-- In every reached pool. -/
theorem flights_of_reaches {allow : Pool (State h) ρ Op Res α → Action ρ Env → Prop} {s : State h}
    (hreach : Reaches code (exec h) allow (Pool.init s) c) (hflies : Flies T lead key)
    (hcode : ∀ req, (code req).Follows T req post T.start) : Flights T lead key c := by
  have hboth : ConformsTo T post c ∧ Flights T lead key c := by
    apply hreach.invariant (I := fun c => ConformsTo T post c ∧ Flights T lead key c)
    · exact ⟨.init T post s, .init hflies s⟩
    · intro c₁ a c₂ hc _ hstep
      exact ⟨hc.1.step hstep hcode, hc.2.step hflies hc.1 hstep⟩
  exact hboth.2

end Flights

end Serving

end Gateway
end OpenWeights
