import OpenWeights.Core.RateLimit
import Mathlib.Data.Rat.Floor

/-!
# Throttling — what a denied caller can rely on

A denied call stores the refilled count and its own time.  The refill is rounded down to thousandths
of a token, and what is rounded off is lost with the old timestamp.  Two promises depend on it:

* **polling** costs nothing: a run with denied calls put in between (`Turn`) is compared with the run
  without them;
* **Retry-After** is long enough: the wait is computed from the rate as configured, the refill from
  the rate in whole thousandths.
-/

namespace OpenWeights
namespace Core

open Lib

/-! ## Polls -/

/-- A call of a run, and whether it is a poll put in between. -/
structure Turn where
  call : Call
  poll : Bool
  deriving DecidableEq, Repr

def own (turns : List Turn) : List Call :=
  (turns.filter fun t => !t.poll).map Turn.call

/-- The part of a trace that belongs to polls, or to the caller's own calls. -/
def traceOf (poll : Bool) (turns : List Turn) (trace : List (Call × Int × Int)) :
    List (Call × Int × Int) :=
  ((turns.zip trace).filter fun e => e.1.poll = poll).map Prod.snd

section Polls

variable (c : RateLimitClass) (apiKeyId : Uuid) (capacity : UInt32) (refill : Int)

def evalTurns (redis : Redis) (turns : List Turn) : List (Call × Int × Int) :=
  (evalCalls c apiKeyId capacity refill redis (turns.map Turn.call)).1

def PollsDenied (redis : Redis) (turns : List Turn) : Prop :=
  ∀ e ∈ traceOf true turns (evalTurns c apiKeyId capacity refill redis turns), e.2.1 = 0

/-- A call that is allowed without the polls is allowed with them. -/
def Harmless (redis : Redis) (turns : List Turn) : Prop :=
  List.Forall₂ (fun alone polled => alone.2.1 = 1 → polled.2.1 = 1)
    (evalCalls c apiKeyId capacity refill redis (own turns)).1
    (traceOf false turns (evalTurns c apiKeyId capacity refill redis turns))

/-- What a bucket may hold before a run: nothing, or a count of its range. -/
inductive BucketState (redis : Redis) (clock last : Int) : Prop
  | gone (h : ∀ later, redis.get later (bucketKey c apiKeyId) = none ∧
      redis.get later (tsKey c apiKeyId) = none)
  | held (count : Int) (h : Stored c apiKeyId redis clock count last) (hlow : 0 ≤ count)
      (hhigh : count ≤ burst capacity)

/-- The clocks of a run do not go back, and no key expires between two of its own calls. -/
structure Timely (clock last : Int) (turns : List Turn) : Prop where
  clocks : (clock :: turns.map fun t => t.call.clock).Pairwise (· ≤ ·)
  readings : (last :: turns.map fun t => t.call.nowMs).Pairwise (· ≤ ·)
  unexpired : (clock :: (own turns).map Call.clock).IsChain fun clock later => later < clock + keyTtl

variable {c apiKeyId capacity}

/-- Every poll comes when the refill since the call before it is a whole number of thousandths. -/
def ExactPolls (refill : Int) : Int → List Turn → Prop
  | _, [] => True
  | last, t :: turns =>
      (t.poll = true → 1000 ∣ (t.call.nowMs - last) * refill) ∧ ExactPolls refill t.call.nowMs turns

variable {refill} {redis redis' : Redis}

theorem own_cons_poll (call : Call) (turns : List Turn) :
    own (⟨call, true⟩ :: turns) = own turns := by
  simp [own]

theorem own_cons_own (call : Call) (turns : List Turn) :
    own (⟨call, false⟩ :: turns) = call :: own turns := by
  simp [own]

theorem traceOf_cons (poll : Bool) (t : Turn) (turns : List Turn) (e : Call × Int × Int)
    (trace : List (Call × Int × Int)) :
    traceOf poll (t :: turns) (e :: trace) =
      (if t.poll = poll then [e] else []) ++ traceOf poll turns trace := by
  by_cases h : t.poll = poll
  · simp [traceOf, h]
  · simp [traceOf, h]

theorem evalTurns_cons (redis : Redis) (t : Turn) (turns : List Turn) :
    evalTurns c apiKeyId capacity refill redis (t :: turns) =
      (t.call, (evalBucket redis t.call.clock c apiKeyId capacity refill t.call.nowMs).1) ::
        evalTurns c apiKeyId capacity refill
          (evalBucket redis t.call.clock c apiKeyId capacity refill t.call.nowMs).2 turns :=
  rfl

theorem PollsDenied.tail {t : Turn} {turns : List Turn}
    (h : PollsDenied c apiKeyId capacity refill redis (t :: turns)) :
    PollsDenied c apiKeyId capacity refill
      (evalBucket redis t.call.clock c apiKeyId capacity refill t.call.nowMs).2 turns := by
  intro e he
  refine h e ?_
  rw [evalTurns_cons, traceOf_cons]
  exact List.mem_append_right _ he

theorem PollsDenied.head {call : Call} {turns : List Turn}
    (h : PollsDenied c apiKeyId capacity refill redis (⟨call, true⟩ :: turns)) :
    (evalBucket redis call.clock c apiKeyId capacity refill call.nowMs).1.1 = 0 := by
  refine h (call, _) ?_
  rw [evalTurns_cons, traceOf_cons]
  simp

theorem Timely.tail_own {clock last : Int} {call : Call} {turns : List Turn}
    (h : Timely clock last (⟨call, false⟩ :: turns)) : Timely call.clock call.nowMs turns where
  clocks := (List.pairwise_cons.1 h.clocks).2
  readings := (List.pairwise_cons.1 h.readings).2
  unexpired := by
    have hchain := h.unexpired
    rw [own_cons_own] at hchain
    exact (List.isChain_cons_cons.1 hchain).2

/-! ### One call -/

/-- Refills add up where the first of them is a whole number of thousandths. -/
theorem credit_add {elapsed elapsed' : Int} (h : 1000 ∣ elapsed * refill) :
    credit refill (elapsed + elapsed') = credit refill elapsed + credit refill elapsed' := by
  rw [credit, credit, credit, add_mul, Int.add_ediv_of_dvd_left h]

theorem credit_nonneg (hrefill : 0 ≤ refill) {elapsed : Int} (h : 0 ≤ elapsed) :
    0 ≤ credit refill elapsed :=
  Int.ediv_nonneg (mul_nonneg h hrefill) (by decide)

/-- A call that is denied finds less than a token, and leaves what it finds. -/
theorem draw_denied {level credit : Int} (hcapacity : 1 ≤ capacity.toNat)
    (h : ((draw (burst capacity) 1000 level credit).1.toNat : Int) = 0) :
    level + credit < 1000 ∧ (draw (burst capacity) 1000 level credit).2 = level + credit := by
  have hburst : (1000 : Int) ≤ burst capacity := by
    rw [burst]
    omega
  rcases lt_or_ge (min (level + credit) (burst capacity)) 1000 with hlt | hge
  · have hlow : level + credit < 1000 := by
      rcases min_lt_iff.1 hlt with hlevel | hfull
      · exact hlevel
      · exact absurd hfull (not_lt.2 hburst)
    rw [draw_of_lt hlt]
    exact ⟨hlow, min_eq_left (hlow.le.trans hburst)⟩
  · rw [draw_of_ge hge] at h
    cases h

/-- Without keys the bucket is full, and no call is denied. -/
theorem allowed_of_gone (hcapacity : 1 ≤ capacity.toNat) {clock nowMs : Int}
    (hcount : redis.get clock (bucketKey c apiKeyId) = none)
    (hlast : redis.get clock (tsKey c apiKeyId) = none) :
    (evalBucket redis clock c apiKeyId capacity refill nowMs).1.1 = 1 := by
  have hfull : (1000 : Int) ≤ min (burst capacity + credit refill (forward nowMs nowMs))
      (burst capacity) := by
    have hnone : credit refill (forward nowMs nowMs) = 0 := by
      rw [forward_of_le le_rfl, sub_self, credit, zero_mul]
      rfl
    rw [hnone, add_zero, min_self, burst]
    omega
  have hfound : (redis.get clock (bucketKey c apiKeyId)).getD (burst capacity) = burst capacity := by
    rw [hcount]
    rfl
  have hsince : (redis.get clock (tsKey c apiKeyId)).getD nowMs = nowMs := by
    rw [hlast]
    rfl
  rw [evalBucket_eq redis clock nowMs hfound hsince, draw_of_ge hfull]
  rfl

/-! ### Polls that are exact -/

theorem map_fst_traceOf (c : RateLimitClass) (apiKeyId : Uuid) (capacity : UInt32) (refill : Int)
    (redis : Redis) (turns : List Turn) :
    (traceOf false turns (evalTurns c apiKeyId capacity refill redis turns)).map Prod.fst =
      own turns := by
  induction turns generalizing redis with
  | nil => rfl
  | cons t turns ih =>
      obtain ⟨call, poll⟩ := t
      rw [evalTurns_cons, traceOf_cons, List.map_append, ih]
      cases poll with
      | false => simp [own_cons_own]
      | true => simp [own_cons_poll]

/-- The polls are exact, or the rate is a token a millisecond: then only a poll in the millisecond of
the call before it can be denied. -/
def Lossless (refill last count : Int) (turns : List Turn) : Prop :=
  ExactPolls refill last turns ∨ 10 ^ 6 ≤ refill ∧ 0 ≤ count

theorem Lossless.poll {last count : Int} {call : Call} {turns : List Turn}
    (h : Lossless refill last count (⟨call, true⟩ :: turns)) (hnow : last ≤ call.nowMs)
    (hlow : count + credit refill (call.nowMs - last) < 1000) :
    1000 ∣ (call.nowMs - last) * refill ∧
      Lossless refill call.nowMs (count + credit refill (call.nowMs - last)) turns := by
  rcases h with hpolls | ⟨hrefill, hcount⟩
  · exact ⟨hpolls.1 rfl, .inl hpolls.2⟩
  · have helapsed : 0 ≤ call.nowMs - last := sub_nonneg.2 hnow
    have hcredit := credit_nonneg ((by decide : (0 : Int) ≤ 10 ^ 6).trans hrefill) helapsed
    have hzero : call.nowMs - last = 0 := by
      by_contra hne
      have hone : 1 ≤ call.nowMs - last := by omega
      have hmany : (1000 : Int) ≤ credit refill (call.nowMs - last) := by
        rw [credit, Int.le_ediv_iff_mul_le (by decide)]
        nlinarith
      linarith
    exact ⟨by simp [hzero], .inr ⟨hrefill, add_nonneg hcount hcredit⟩⟩

theorem Lossless.own {last count count' : Int} {call : Call} {turns : List Turn}
    (h : Lossless refill last count (⟨call, false⟩ :: turns)) (hcount : 0 ≤ count → 0 ≤ refill →
      0 ≤ count') : Lossless refill call.nowMs count' turns := by
  rcases h with hpolls | ⟨hrefill, hlow⟩
  · exact .inl hpolls.2
  · exact .inr ⟨hrefill, hcount hlow ((by decide : (0 : Int) ≤ 10 ^ 6).trans hrefill)⟩

/-- The two runs side by side.  The run with polls was refilled later, by exactly what the run
without them has not been credited yet; then the caller's calls get the same replies. -/
theorem traceOf_own_eq (hcapacity : 1 ≤ capacity.toNat) {turns : List Turn}
    {clock clock' count count' last last' : Int} (h : Stored c apiKeyId redis clock count last)
    (h' : Stored c apiKeyId redis' clock' count' last')
    (hcount : count' = count + credit refill (last' - last))
    (hclock : clock ≤ clock') (hlast : last ≤ last') (hexact : 1000 ∣ (last' - last) * refill)
    (hclocks : (clock' :: turns.map fun t => t.call.clock).Pairwise (· ≤ ·))
    (hreadings : (last' :: turns.map fun t => t.call.nowMs).Pairwise (· ≤ ·))
    (hclose : (clock :: (own turns).map Call.clock).IsChain
      fun clock later => later < clock + keyTtl)
    (hpolls : Lossless refill last' count' turns)
    (hdenied : PollsDenied c apiKeyId capacity refill redis' turns) :
    traceOf false turns (evalTurns c apiKeyId capacity refill redis' turns) =
      (evalCalls c apiKeyId capacity refill redis (own turns)).1 := by
  induction turns generalizing redis redis' clock clock' count count' last last' with
  | nil => rfl
  | cons t turns ih =>
      obtain ⟨call, poll⟩ := t
      obtain ⟨hle, hclocks'⟩ := List.pairwise_cons.1 hclocks
      obtain ⟨hle', hreadings'⟩ := List.pairwise_cons.1 hreadings
      have hclock' : clock' ≤ call.clock := hle _ List.mem_cons_self
      have hnow : last' ≤ call.nowMs := hle' _ List.mem_cons_self
      have hforward : forward last' call.nowMs = call.nowMs - last' := forward_of_le hnow
      -- What has not been credited yet, in two parts.
      have helapsed : call.nowMs - last = (last' - last) + (call.nowMs - last') := by ring
      cases poll with
      | false =>
          -- A call of the caller's own: both runs find the same level.
          rw [own_cons_own] at hclose ⊢
          obtain ⟨hlater, hrest⟩ := List.isChain_cons_cons.1 hclose
          have hlater' : call.clock < clock' + keyTtl := by linarith
          have hdraw : draw (burst capacity) 1000 count' (credit refill (forward last' call.nowMs)) =
              draw (burst capacity) 1000 count (credit refill (forward last call.nowMs)) := by
            rw [hforward, forward_of_le (hlast.trans hnow), helapsed, credit_add hexact, hcount]
            simp only [draw, add_assoc]
          have hleft : 0 ≤ count' → 0 ≤ refill → 0 ≤ (draw (burst capacity) 1000 count'
              (credit refill (forward last' call.nowMs))).2 := fun hlow hrefill =>
            draw_nonneg (burst_nonneg capacity)
              (add_nonneg hlow (credit_nonneg hrefill (forward_nonneg last' call.nowMs)))
          have hnext := hpolls.own hleft
          have htail := hdenied.tail
          rw [h'.evalBucket_eq hlater', hdraw] at htail
          rw [hdraw] at hnext
          rw [evalTurns_cons, traceOf_cons, evalCalls_cons, h.evalBucket_eq hlater,
            h'.evalBucket_eq hlater', hdraw]
          simp only [if_true, List.singleton_append]
          exact congrArg _ (ih (redis.stored_store call.clock _ call.nowMs)
            (redis'.stored_store call.clock _ call.nowMs) (by simp [credit]) le_rfl le_rfl (by simp)
            hclocks' hreadings' hrest hnext htail)
      | true =>
          rw [own_cons_poll] at hclose ⊢
          rw [evalTurns_cons, traceOf_cons]
          simp only [Bool.true_eq_false, if_false, List.nil_append]
          cases hown : own turns with
          | nil =>
              -- No call of the caller's own is left.
              have hnone : traceOf false turns (evalTurns c apiKeyId capacity refill
                  (evalBucket redis' call.clock c apiKeyId capacity refill call.nowMs).2 turns) =
                  [] := by
                have hcalls := map_fst_traceOf c apiKeyId capacity refill
                  (evalBucket redis' call.clock c apiKeyId capacity refill call.nowMs).2 turns
                rw [hown] at hcalls
                exact List.map_eq_nil_iff.1 hcalls
              rw [hnone]
              rfl
          | cons next rest =>
              -- The keys are there until the caller's next call, so the poll finds them too.
              have hlater : call.clock < clock' + keyTtl := by
                have hmem : next ∈ own turns := by
                  rw [hown]
                  exact List.mem_cons_self
                rw [hown] at hclose
                have hnext := (List.isChain_cons_cons.1 hclose).1
                obtain ⟨t, ht, rfl⟩ := List.mem_map.1 hmem
                have hbefore := (List.pairwise_cons.1 hclocks').1 t.call.clock
                  (List.mem_map.2 ⟨t, (List.mem_filter.1 ht).1, rfl⟩)
                linarith
              have hzero := hdenied.head
              have htail := hdenied.tail
              simp only [h'.evalBucket_eq hlater] at hzero htail ⊢
              obtain ⟨hlow, hleft⟩ := draw_denied hcapacity hzero
              rw [hforward] at hlow hleft htail ⊢
              obtain ⟨hpoll, hnext⟩ := hpolls.poll hnow hlow
              rw [← hown]
              refine ih h (redis'.stored_store call.clock _ call.nowMs) ?_ (hclock.trans hclock')
                (hlast.trans hnow) ?_ hclocks' hreadings' hclose (hleft ▸ hnext) htail
              · rw [hleft, hcount, helapsed, credit_add hexact, add_assoc]
              · rw [helapsed, add_mul]
                exact dvd_add hexact hpoll

/-- Polls that lose nothing change no reply to the caller. -/
theorem traceOf_own_of_lossless (hcapacity : 1 ≤ capacity.toNat) {clock last : Int}
    {turns : List Turn} (hstate : BucketState c apiKeyId capacity redis clock last)
    (htimely : Timely clock last turns)
    (hpolls : ExactPolls refill last turns ∨ 10 ^ 6 ≤ refill)
    (hdenied : PollsDenied c apiKeyId capacity refill redis turns) :
    traceOf false turns (evalTurns c apiKeyId capacity refill redis turns) =
      (evalCalls c apiKeyId capacity refill redis (own turns)).1 := by
  cases hstate with
  | held count h hlow hhigh =>
      refine traceOf_own_eq hcapacity h h (by simp [credit]) le_rfl le_rfl (by simp) htimely.clocks
        htimely.readings htimely.unexpired ?_ hdenied
      exact hpolls.imp_right fun hrefill => ⟨hrefill, hlow⟩
  | gone hgone =>
      cases turns with
      | nil => rfl
      | cons t turns =>
          obtain ⟨call, poll⟩ := t
          obtain ⟨hcount, hlast⟩ := hgone call.clock
          have hallowed :
              (evalBucket redis call.clock c apiKeyId capacity refill call.nowMs).1.1 = 1 :=
            allowed_of_gone hcapacity hcount hlast
          cases poll with
          | true =>
              rw [hdenied.head] at hallowed
              cases hallowed
          | false =>
              -- Both runs begin with the same call, which writes the keys.
              have hfound : (redis.get call.clock (bucketKey c apiKeyId)).getD (burst capacity) =
                  burst capacity := by
                rw [hcount]
                rfl
              have hfirst : evalBucket redis call.clock c apiKeyId capacity refill call.nowMs = _ :=
                evalBucket_eq redis call.clock call.nowMs hfound rfl
              have hleft : 0 ≤ refill → 0 ≤ (draw (burst capacity) 1000 (burst capacity)
                  (credit refill (forward ((redis.get call.clock (tsKey c apiKeyId)).getD call.nowMs)
                    call.nowMs))).2 := fun hrefill =>
                draw_nonneg (burst_nonneg capacity) (add_nonneg (burst_nonneg capacity)
                  (credit_nonneg hrefill (forward_nonneg _ _)))
              have htail := hdenied.tail
              have hafter := htimely.tail_own
              rw [hfirst] at htail
              rw [own_cons_own, evalTurns_cons, traceOf_cons, evalCalls_cons, hfirst]
              simp only [if_true, List.singleton_append]
              refine congrArg _ (traceOf_own_eq hcapacity
                (redis.stored_store call.clock _ call.nowMs)
                (redis.stored_store call.clock _ call.nowMs) (by simp [credit]) le_rfl le_rfl
                (by simp) hafter.clocks hafter.readings hafter.unexpired ?_ htail)
              rcases hpolls with hexact | hrefill
              · exact .inl hexact.2
              · exact .inr ⟨hrefill, hleft ((by decide : (0 : Int) ≤ 10 ^ 6).trans hrefill)⟩

/-! ### A poll that loses a thousandth -/

def onePoll (n : Nat) : List Turn :=
  ⟨⟨1, 1⟩, true⟩ :: List.replicate n ⟨⟨10 ^ 6, 10 ^ 6⟩, false⟩

theorem own_replicate (n : Nat) (call : Call) :
    own (List.replicate n ⟨call, false⟩) = List.replicate n call := by
  induction n with
  | zero => rfl
  | succ n ih => rw [List.replicate_succ, own_cons_own, ih, List.replicate_succ]

theorem traceOf_replicate {n : Nat} {call : Call} {trace : List (Call × Int × Int)}
    (h : trace.length = n) : traceOf false (List.replicate n ⟨call, false⟩) trace = trace := by
  induction n generalizing trace with
  | zero =>
      rw [List.length_eq_zero_iff.1 h]
      rfl
  | succ n ih =>
      cases trace with
      | nil => cases h
      | cons e trace =>
          rw [List.replicate_succ, traceOf_cons, ih (Nat.succ.inj h)]
          simp

theorem traceOf_poll_replicate (n : Nat) (call : Call) (trace : List (Call × Int × Int)) :
    traceOf true (List.replicate n ⟨call, false⟩) trace = [] := by
  refine List.map_eq_nil_iff.2 (List.filter_eq_nil_iff.2 fun e he => ?_)
  rw [List.eq_of_mem_replicate (List.of_mem_zip he).1]
  simp

theorem own_onePoll (n : Nat) : own (onePoll n) = List.replicate n ⟨10 ^ 6, 10 ^ 6⟩ := by
  rw [onePoll, own_cons_poll, own_replicate]

theorem timely_onePoll (n : Nat) : Timely 0 0 (onePoll n) := by
  refine ⟨by simp [onePoll], by simp [onePoll], ?_⟩
  rw [own_onePoll, List.map_replicate]
  cases n with
  | zero => simp
  | succ n =>
      refine List.isChain_cons_cons.2 ⟨by decide, List.Pairwise.isChain ?_⟩
      rw [← List.replicate_succ]
      exact List.pairwise_replicate.2 (.inr (by decide))

/-- Calls at one time, of a bucket with a level and the credit until then. -/
theorem allowed_stored_replicate {clock count last : Int}
    (h : Stored c apiKeyId redis clock count last) (n : Nat) {call : Call}
    (hlater : call.clock < clock + keyTtl) :
    (allowed (evalCalls c apiKeyId capacity refill redis (List.replicate n call)).1).length =
      (drain (burst capacity) 1000 (count + credit refill (forward last call.nowMs))
        (List.replicate n 0)).1 := by
  cases n with
  | zero => rfl
  | succ n =>
      have hclose : (clock :: (List.replicate (n + 1) call).map Call.clock).IsChain
          fun clock later => later < clock + keyTtl := by
        rw [List.map_replicate, List.replicate_succ]
        refine List.isChain_cons_cons.2 ⟨hlater, List.Pairwise.isChain ?_⟩
        rw [← List.replicate_succ]
        exact List.pairwise_replicate.2 (.inr (lt_add_of_pos_right _ (by decide)))
      have hcredits : credits refill last (List.replicate (n + 1) call.nowMs) =
          credit refill (forward last call.nowMs) :: List.replicate n 0 := by
        have hrest : credits refill call.nowMs (List.replicate n call.nowMs) = List.replicate n 0 :=
          credits_replicate call.nowMs n
        rw [← hrest]
        rfl
      rw [(h.evalCalls hclose).1, List.map_replicate, hcredits, drain_cons_eq_level]
      rfl

/-- The rounded-off parts of a refill make up a thousandth when it is credited in two. -/
theorem credit_lost (hfrac : ¬1000 ∣ refill) :
    credit refill 1 + credit refill (10 ^ 6 - 1) < 1000 * refill := by
  rw [credit, credit, one_mul]
  omega

theorem length_allowed_le {trace trace' : List (Call × Int × Int)}
    (h : List.Forall₂ (fun alone polled => alone.2.1 = 1 → polled.2.1 = 1) trace trace') :
    (allowed trace).length ≤ (allowed trace').length := by
  induction h with
  | nil => exact le_rfl
  | @cons e e' trace trace' hhead _ ih =>
      by_cases he : e.2.1 = 1
      · simpa [allowed, he, hhead he] using ih
      · have hskip : (allowed (e :: trace)).length = (allowed trace).length := by simp [allowed, he]
        rw [hskip]
        refine ih.trans ?_
        simp only [allowed, List.filter_cons]
        split
        · exact Nat.le_succ _
        · exact le_rfl

/-- The rate is not a whole number of tokens a second, and below a token a millisecond: a poll after
a millisecond costs a thousandth, and after a thousand seconds the last of `refill` calls is
denied. -/
theorem onePoll_harmful (c : RateLimitClass) (apiKeyId : Uuid) (hpos : 0 < refill)
    (hlt : refill < 10 ^ 6) (hfrac : ¬1000 ∣ refill) (hcapacity : (capacity.toNat : Int) = refill) :
    PollsDenied c apiKeyId capacity refill (Redis.store .empty 0 c apiKeyId 0 0)
        (onePoll refill.toNat) ∧
      ¬Harmless c apiKeyId capacity refill (Redis.store .empty 0 c apiKeyId 0 0)
        (onePoll refill.toNat) := by
  have hburst : burst capacity = 1000 * refill := by
    rw [burst, hcapacity, mul_comm]
  have hstored : Stored c apiKeyId (Redis.store .empty 0 c apiKeyId 0 0) 0 0 0 :=
    Redis.stored_store .empty 0 0 0
  have hone : credit refill (forward 0 1) = credit refill 1 := rfl
  -- The poll finds less than a token.
  have hpoll : evalBucket (Redis.store .empty 0 c apiKeyId 0 0) 1 c apiKeyId capacity refill 1 =
      ((0, credit refill 1), Redis.store (Redis.store .empty 0 c apiKeyId 0 0) 1 c apiKeyId
        (credit refill 1) 1) := by
    have hlow : credit refill 1 < 1000 := by
      rw [credit]
      omega
    have hmin : min (0 + credit refill (forward 0 1)) (burst capacity) = credit refill 1 := by
      rw [hone, zero_add, hburst, credit]
      omega
    rw [hstored.evalBucket_eq (by decide), draw_of_lt (hmin.trans_lt hlow), hmin]
    rfl
  have hafter : Stored c apiKeyId (Redis.store (Redis.store .empty 0 c apiKeyId 0 0) 1 c apiKeyId
      (credit refill 1) 1) 1 (credit refill 1) 1 := Redis.stored_store _ 1 _ 1
  have hnat : (refill.toNat : Int) = refill := Int.toNat_of_nonneg hpos.le
  have hlength : ∀ redis : Redis, (evalTurns c apiKeyId capacity refill redis
      (List.replicate refill.toNat ⟨⟨10 ^ 6, 10 ^ 6⟩, false⟩)).length = refill.toNat := by
    intro redis
    have hcalls := congrArg List.length (map_fst_evalCalls c apiKeyId capacity refill redis
      ((List.replicate refill.toNat ⟨⟨10 ^ 6, 10 ^ 6⟩, false⟩).map Turn.call))
    simpa [evalTurns] using hcalls
  refine ⟨?_, ?_⟩
  · intro e he
    rw [onePoll, evalTurns_cons, traceOf_cons, hpoll, traceOf_poll_replicate] at he
    rcases List.mem_singleton.1 he with rfl
    rfl
  · intro hharmless
    have hle := length_allowed_le hharmless
    rw [own_onePoll, onePoll, evalTurns_cons, traceOf_cons, hpoll] at hle
    simp only [Bool.true_eq_false, if_false, List.nil_append] at hle
    rw [traceOf_replicate (hlength _)] at hle
    simp only [evalTurns, List.map_replicate] at hle
    rw [allowed_stored_replicate hstored refill.toNat (by decide),
      allowed_stored_replicate hafter refill.toNat (by decide)] at hle
    -- Without the poll the bucket is full, with it a thousandth is missing.
    have hfull : 0 + credit refill (forward 0 (10 ^ 6)) = 1000 * (refill.toNat : Int) := by
      rw [hnat, zero_add, forward_of_le (by decide), credit]
      omega
    have halone : (drain (burst capacity) 1000 (0 + credit refill (forward 0 (10 ^ 6)))
        (List.replicate refill.toNat 0)).1 = refill.toNat := by
      rw [hfull]
      exact drain_replicate_zero (by decide) (by rw [hburst, hnat])
    have hless : credit refill 1 + credit refill (forward 1 (10 ^ 6)) < 1000 * refill := by
      rw [forward_of_le (by decide)]
      exact credit_lost hfrac
    have hmissing := drain_le (burst capacity) 1000
      (credit refill 1 + credit refill (forward 1 (10 ^ 6))) (List.replicate refill.toNat 0)
    have hlevel : max (credit refill 1 + credit refill (forward 1 (10 ^ 6))) 0 < 1000 * refill :=
      max_lt hless (by linarith)
    rw [halone] at hle
    simp only [List.map_replicate, max_self, List.sum_replicate, smul_zero, add_zero] at hmissing
    have hcast : (refill.toNat : Int) ≤ _ := Int.ofNat_le.2 hle
    linarith

end Polls

/-! ### When polling is harmless -/

/-- At this rate denied polls never turn an allowed call into a denied one. -/
def PollingHarmless (refill : Int) : Prop :=
  ∀ c apiKeyId capacity redis clock last turns, 1 ≤ capacity.toNat →
    BucketState c apiKeyId capacity redis clock last → Timely clock last turns →
    PollsDenied c apiKeyId capacity refill redis turns →
    Harmless c apiKeyId capacity refill redis turns

/-- A poll that comes when the refill since the call before it is a whole number of thousandths does
not harm; and the rates at which no poll ever harms are the whole numbers of tokens a second, and
those from a token a millisecond on. -/
theorem polls_harmless_iff (refill : Int) (hrefill : 0 < refill) :
    (∀ c apiKeyId capacity redis clock last turns, 1 ≤ capacity.toNat →
        BucketState c apiKeyId capacity redis clock last → Timely clock last turns →
        PollsDenied c apiKeyId capacity refill redis turns → ExactPolls refill last turns →
        Harmless c apiKeyId capacity refill redis turns) ∧
      (PollingHarmless refill ↔ 1000 ∣ refill ∨ 10 ^ 6 ≤ refill) := by
  have hsame : ∀ {trace trace' : List (Call × Int × Int)}, trace' = trace →
      List.Forall₂ (fun alone polled : Call × Int × Int => alone.2.1 = 1 → polled.2.1 = 1) trace
        trace' := by
    rintro trace _ rfl
    exact List.forall₂_same.2 fun _ _ hone => hone
  refine ⟨?_, ?_, ?_⟩
  · intro c apiKeyId capacity redis clock last turns hcapacity hstate htimely hdenied hpolls
    exact hsame (traceOf_own_of_lossless hcapacity hstate htimely (.inl hpolls) hdenied)
  · intro hharmless
    by_contra! hnot
    obtain ⟨hfrac, hlt⟩ := hnot
    have hcapacity : ((UInt32.ofNat refill.toNat).toNat : Int) = refill := by
      rw [UInt32.toNat_ofNat']
      omega
    obtain ⟨hdenied, hharm⟩ := onePoll_harmful .upload nilUuid hrefill hlt hfrac hcapacity
    refine hharm (hharmless .upload nilUuid _ _ 0 0 _ (by omega) ?_ (timely_onePoll _) hdenied)
    exact .held 0 (Redis.stored_store .empty 0 0 0) le_rfl (burst_nonneg _)
  · intro hrate c apiKeyId capacity redis clock last turns hcapacity hstate htimely hdenied
    refine hsame (traceOf_own_of_lossless hcapacity hstate htimely ?_ hdenied)
    rcases hrate with hwhole | hfast
    · left
      -- Every refill of a whole number of milliseconds is a whole number of thousandths.
      clear htimely hdenied hstate
      induction turns generalizing last with
      | nil => trivial
      | cons t turns ih => exact ⟨fun _ => hwhole.mul_left _, ih t.call.nowMs⟩
    · exact .inr hfast

/-- Four calls of an upload bucket that is refilled with two tokens a second, and a poll. -/
theorem polls_harmless_iff_two :
    Harmless .upload nilUuid 1 2000 .empty
      [⟨⟨0, 0⟩, false⟩, ⟨⟨3, 3⟩, true⟩, ⟨⟨600, 600⟩, false⟩, ⟨⟨700, 700⟩, false⟩] := by
  have hall := (polls_harmless_iff 2000 (by decide)).2.2 (.inl (by decide))
  refine hall .upload nilUuid 1 .empty 0 0 _ (by decide) (.gone fun later => ⟨rfl, rfl⟩)
    ⟨by simp, by simp, by simp [own, keyTtl]⟩ ?_
  have hpolls : ∀ e ∈ traceOf true
      [⟨⟨0, 0⟩, false⟩, ⟨⟨3, 3⟩, true⟩, ⟨⟨600, 600⟩, false⟩, ⟨⟨700, 700⟩, false⟩]
      (evalTurns .upload nilUuid 1 2000 .empty
        [⟨⟨0, 0⟩, false⟩, ⟨⟨3, 3⟩, true⟩, ⟨⟨600, 600⟩, false⟩, ⟨⟨700, 700⟩, false⟩]), e.2.1 = 0 := by
    decide +kernel
  exact hpolls

def hastyPoll : List Turn :=
  [⟨⟨1, 1⟩, true⟩, ⟨⟨2, 2⟩, false⟩]

/-- The default upload bucket, three thousandths short of a token: without the poll the call after
two milliseconds is allowed, with it the call is denied. -/
theorem not_pollingHarmless : ¬PollingHarmless 1666 := by
  intro hclaim
  have hdenied : PollsDenied .upload nilUuid 100 1666 (Redis.store .empty 0 .upload nilUuid 997 0)
      hastyPoll := by
    have hpolls : ∀ e ∈ traceOf true hastyPoll (evalTurns .upload nilUuid 100 1666
        (Redis.store .empty 0 .upload nilUuid 997 0) hastyPoll), e.2.1 = 0 := by
      decide +kernel
    exact hpolls
  have hharmless := hclaim .upload nilUuid 100 (Redis.store .empty 0 .upload nilUuid 997 0) 0 0
    hastyPoll (by decide) (.held 997 (Redis.stored_store .empty 0 997 0) (by decide) (by decide))
    ⟨by simp [hastyPoll], by simp [hastyPoll], by simp [hastyPoll, own, keyTtl]⟩ hdenied
  have halone : (evalCalls .upload nilUuid 100 1666 (Redis.store .empty 0 .upload nilUuid 997 0)
      (own hastyPoll)).1 = [(⟨2, 2⟩, 1, 0)] := by
    decide +kernel
  have hpolled : traceOf false hastyPoll (evalTurns .upload nilUuid 100 1666
      (Redis.store .empty 0 .upload nilUuid 997 0) hastyPoll) = [(⟨2, 2⟩, 0, 999)] := by
    decide +kernel
  rw [Harmless, halone, hpolled] at hharmless
  cases hharmless with
  | cons hreply _ => cases hreply rfl

/-! ## Retry-After -/

/-- `RateLimitDefaults` as it is configured: the rates in tokens a second, and exact. -/
structure RateLimitRates where
  uploadCapacity : UInt32
  uploadRefillPerSec : ℚ
  downloadCapacity : UInt32
  downloadRefillPerSec : ℚ
  adminCapacity : UInt32
  adminRefillPerSec : ℚ

/-- `RateLimitDefaults::default()`: 100 requests a minute, and 600 for the administration. -/
instance : Inhabited RateLimitRates :=
  ⟨{ uploadCapacity := 100
     uploadRefillPerSec := 100 / 60
     downloadCapacity := 100
     downloadRefillPerSec := 100 / 60
     adminCapacity := 600
     adminRefillPerSec := 600 / 60 }⟩

namespace RateLimitRates

def forClass (d : RateLimitRates) : RateLimitClass → UInt32 × ℚ
  | .upload => (d.uploadCapacity, d.uploadRefillPerSec)
  | .download => (d.downloadCapacity, d.downloadRefillPerSec)
  | .admin => (d.adminCapacity, d.adminRefillPerSec)

def refillMilliPerSec (refillPerSec : ℚ) : Int :=
  if 0 ≤ refillPerSec then ⌊refillPerSec * 1000⌋ else ⌈refillPerSec * 1000⌉

/-- The rates as `eval_bucket` passes them on. -/
def truncated (d : RateLimitRates) : RateLimitDefaults :=
  { uploadCapacity := d.uploadCapacity
    uploadRefillMt := refillMilliPerSec d.uploadRefillPerSec
    downloadCapacity := d.downloadCapacity
    downloadRefillMt := refillMilliPerSec d.downloadRefillPerSec
    adminCapacity := d.adminCapacity
    adminRefillMt := refillMilliPerSec d.adminRefillPerSec }

theorem forClass_truncated (d : RateLimitRates) (c : RateLimitClass) :
    d.truncated.forClass c = ((d.forClass c).1, refillMilliPerSec (d.forClass c).2) := by
  cases c <;> rfl

end RateLimitRates

def retryAfterSecs (remainingMt : Int) (refillPerSec : ℚ) : UInt64 :=
  if refillPerSec ≤ 0 then
    60
  else
    let deficitMt := max (1000 - remainingMt) 0
    let secs := ⌈(deficitMt : ℚ) / (refillPerSec * 1000)⌉
    -- `as u64` saturates.
    UInt64.ofNat (max (min secs.toNat (2 ^ 64 - 1)) 1)

def checkRated (rates : RateLimitRates) (redis : Redis) (clock : Int) (c : RateLimitClass)
    (apiKeyId : Uuid) (nowMs : Int) : Except RateLimited Unit × Redis :=
  check (fun remainingMt _ => retryAfterSecs remainingMt (rates.forClass c).2) redis clock c apiKeyId
    rates.truncated nowMs

/-- Whoever is denied and waits as long as they are told is allowed, at that time or later. -/
def RetrySufficient (rates : RateLimitRates) (c : RateLimitClass) : Prop :=
  ∀ (redis : Redis) (clock nowMs : Int) (apiKeyId : Uuid) (retryAfter : UInt64) (redis' : Redis),
    (∀ count, redis.get clock (bucketKey c apiKeyId) = some count → 0 ≤ count) →
    checkRated rates redis clock c apiKeyId nowMs = (.error ⟨retryAfter⟩, redis') →
    ∀ elapsed : Int, 1000 * (retryAfter.toNat : Int) ≤ elapsed →
      (checkRated rates redis' (clock + elapsed) c apiKeyId (nowMs + elapsed)).1 = .ok ()

/-- The seconds in which the part of the rate that is cut off makes up a thousandth. -/
def secondsLost (refillPerSec : ℚ) : Int :=
  ⌈1 / Int.fract (refillPerSec * 1000)⌉

/-- Nothing is cut off, or by the time a thousandth is missing the rest has made up a token, or the
keys have expired. -/
def TruncationHarmless (refillPerSec : ℚ) : Prop :=
  Int.fract (refillPerSec * 1000) = 0 ∨
    1000 ≤ secondsLost refillPerSec * ⌊refillPerSec * 1000⌋ ∨ 3600 ≤ secondsLost refillPerSec

/-! ### The two roundings -/

section Rounding

variable {rate : ℚ}

/-- If the seconds of the whole rate are not enough at the truncated rate, a thousandth was lost. -/
theorem le_ceil_mul_floor (hrate : 0 < rate) {deficit : Int}
    (hfrac : Int.fract rate = 0 ∨ ⌈(deficit : ℚ) / rate⌉ < ⌈1 / Int.fract rate⌉) :
    deficit ≤ ⌈(deficit : ℚ) / rate⌉ * ⌊rate⌋ := by
  have hwait : (deficit : ℚ) ≤ ⌈(deficit : ℚ) / rate⌉ * rate :=
    (div_le_iff₀ hrate).1 (Int.le_ceil _)
  have hsplit : (⌈(deficit : ℚ) / rate⌉ : ℚ) * rate =
      ⌈(deficit : ℚ) / rate⌉ * ⌊rate⌋ + ⌈(deficit : ℚ) / rate⌉ * Int.fract rate := by
    rw [← mul_add, Int.floor_add_fract]
  rcases hfrac with hzero | hshort
  · rw [hsplit, hzero, mul_zero, add_zero] at hwait
    exact_mod_cast hwait
  · rcases (Int.fract_nonneg rate).eq_or_lt with hzero | hpos
    · rw [hsplit, ← hzero, mul_zero, add_zero] at hwait
      exact_mod_cast hwait
    · -- The part cut off stays below one, and the numbers are whole.
      have hlost : (⌈(deficit : ℚ) / rate⌉ : ℚ) * Int.fract rate < 1 :=
        (lt_div_iff₀ hpos).1 (Int.lt_ceil.1 hshort)
      have hlt : (deficit : ℚ) < ⌈(deficit : ℚ) / rate⌉ * ⌊rate⌋ + 1 := by linarith
      have hlt' : deficit < ⌈(deficit : ℚ) / rate⌉ * ⌊rate⌋ + 1 := by exact_mod_cast hlt
      exact Int.lt_add_one_iff.1 hlt'

/-- By the time a thousandth is lost, the truncated rate is one short of what was owed. -/
theorem ceil_le_secondsLost (hrate : 0 < rate) (hfrac : Int.fract rate ≠ 0) :
    ⌈((⌈1 / Int.fract rate⌉ * ⌊rate⌋ + 1 : Int) : ℚ) / rate⌉ ≤ ⌈1 / Int.fract rate⌉ := by
  have hpos : 0 < Int.fract rate := (Int.fract_nonneg rate).lt_of_ne' hfrac
  have hlost : 1 ≤ (⌈1 / Int.fract rate⌉ : ℚ) * Int.fract rate :=
    (div_le_iff₀ hpos).1 (Int.le_ceil _)
  rw [Int.ceil_le, div_le_iff₀ hrate]
  calc ((⌈1 / Int.fract rate⌉ * ⌊rate⌋ + 1 : Int) : ℚ)
      = ⌈1 / Int.fract rate⌉ * ⌊rate⌋ + 1 := by push_cast; ring
    _ ≤ ⌈1 / Int.fract rate⌉ * ⌊rate⌋ + ⌈1 / Int.fract rate⌉ * Int.fract rate := by linarith
    _ = ⌈1 / Int.fract rate⌉ * rate := by rw [← mul_add, Int.floor_add_fract]

/-- The roundings agree on every deficit below a token, if and only if the truncation is harmless. -/
theorem roundings_agree_iff (hrate : 0 < rate) :
    (∀ deficit : Int, 1 ≤ deficit → deficit ≤ 1000 →
        deficit ≤ ⌈(deficit : ℚ) / rate⌉ * ⌊rate⌋ ∨ 3600 ≤ ⌈(deficit : ℚ) / rate⌉) ↔
      Int.fract rate = 0 ∨ 1000 ≤ ⌈1 / Int.fract rate⌉ * ⌊rate⌋ ∨ 3600 ≤ ⌈1 / Int.fract rate⌉ := by
  have hfloor : 0 ≤ ⌊rate⌋ := Int.floor_nonneg.2 hrate.le
  constructor
  · intro hall
    by_contra! hnot
    obtain ⟨hfrac, hrest, hlive⟩ := hnot
    have hpos : 0 < Int.fract rate := (Int.fract_nonneg rate).lt_of_ne' hfrac
    have hseconds : 0 ≤ ⌈1 / Int.fract rate⌉ := Int.ceil_nonneg (by positivity)
    have hle := ceil_le_secondsLost hrate hfrac
    rcases hall (⌈1 / Int.fract rate⌉ * ⌊rate⌋ + 1)
        (le_add_of_nonneg_left (mul_nonneg hseconds hfloor)) (by linarith) with hagree | hexpired
    · have hmul := mul_le_mul_of_nonneg_right hle hfloor
      linarith
    · linarith
  · intro hharmless deficit hone htoken
    rcases lt_or_ge ⌈(deficit : ℚ) / rate⌉ ⌈1 / Int.fract rate⌉ with hshort | hlong
    · exact .inl (le_ceil_mul_floor hrate (.inr hshort))
    · rcases hharmless with hzero | hrest | hlive
      · exact .inl (le_ceil_mul_floor hrate (.inl hzero))
      · exact .inl (htoken.trans (hrest.trans (mul_le_mul_of_nonneg_right hlong hfloor)))
      · exact .inr (hlive.trans hlong)

end Rounding

/-! ### A denied call and the next one -/

section RetryAfter

variable {rates : RateLimitRates} {c : RateLimitClass} {apiKeyId : Uuid} {redis redis' : Redis}
  {clock nowMs : Int}

theorem refillMilliPerSec_of_pos {refillPerSec : ℚ} (h : 0 < refillPerSec) :
    RateLimitRates.refillMilliPerSec refillPerSec = ⌊refillPerSec * 1000⌋ :=
  if_pos h.le

theorem floor_nonneg_of_pos {refillPerSec : ℚ} (h : 0 < refillPerSec) :
    0 ≤ ⌊refillPerSec * 1000⌋ :=
  Int.floor_nonneg.2 (by positivity)

/-- The hint of a denied call: the wait rounded up, which is at least a second. -/
theorem toNat_retryAfterSecs {remaining : Int} {refillPerSec : ℚ} (hrate : 0 < refillPerSec)
    (hlow : remaining < 1000) :
    1 ≤ ⌈((1000 - remaining : Int) : ℚ) / (refillPerSec * 1000)⌉ ∧
      ((retryAfterSecs remaining refillPerSec).toNat : Int) =
        min ⌈((1000 - remaining : Int) : ℚ) / (refillPerSec * 1000)⌉ (2 ^ 64 - 1) := by
  have hdeficit : (0 : ℚ) < ((1000 - remaining : Int) : ℚ) := by
    exact_mod_cast (by linarith : (0 : Int) < 1000 - remaining)
  have hsecs : 1 ≤ ⌈((1000 - remaining : Int) : ℚ) / (refillPerSec * 1000)⌉ :=
    Int.one_le_ceil_iff.2 (by positivity)
  refine ⟨hsecs, ?_⟩
  have hmax : max (1000 - remaining) 0 = 1000 - remaining := max_eq_left (by linarith)
  rw [retryAfterSecs, if_neg (not_le.2 hrate)]
  simp only [hmax]
  generalize ⌈((1000 - remaining : Int) : ℚ) / (refillPerSec * 1000)⌉ = secs at hsecs ⊢
  rw [UInt64.toNat_ofNat']
  omega

/-- A call is allowed if and only if the bucket says so. -/
theorem checkRated_fst_eq_ok :
    (checkRated rates redis clock c apiKeyId nowMs).1 = .ok () ↔
      (evalBucket redis clock c apiKeyId (rates.forClass c).1
        (RateLimitRates.refillMilliPerSec (rates.forClass c).2) nowMs).1.1 = 1 := by
  have hcheck : (check (fun remainingMt _ => retryAfterSecs remainingMt (rates.forClass c).2) redis
      clock c apiKeyId rates.truncated nowMs).1 = .ok () ↔
      (evalBucket redis clock c apiKeyId (rates.truncated.forClass c).1
        (rates.truncated.forClass c).2 nowMs).1.1 = 1 :=
    check_fst_eq_ok (r := ⟨c, apiKeyId, ⟨clock, nowMs⟩⟩)
  rw [rates.forClass_truncated] at hcheck
  exact hcheck

/-- What a denied call leaves and says. -/
theorem checkRated_denied (hcapacity : 1 ≤ (rates.forClass c).1.toNat)
    (hrate : 0 < (rates.forClass c).2)
    (hcount : ∀ count, redis.get clock (bucketKey c apiKeyId) = some count → 0 ≤ count)
    {retryAfter : UInt64}
    (h : checkRated rates redis clock c apiKeyId nowMs = (.error ⟨retryAfter⟩, redis')) :
    ∃ remaining, 0 ≤ remaining ∧ remaining < 1000 ∧
      retryAfter = retryAfterSecs remaining (rates.forClass c).2 ∧
      redis' = redis.store clock c apiKeyId remaining nowMs := by
  obtain ⟨level, hfound⟩ : ∃ level,
      (redis.get clock (bucketKey c apiKeyId)).getD (burst (rates.forClass c).1) = level := ⟨_, rfl⟩
  obtain ⟨since, hsince⟩ : ∃ since, (redis.get clock (tsKey c apiKeyId)).getD nowMs = since :=
    ⟨_, rfl⟩
  have hlevel : 0 ≤ level := by
    rw [← hfound]
    cases hkey : redis.get clock (bucketKey c apiKeyId) with
    | none => exact burst_nonneg _
    | some count => exact hcount count hkey
  have hcredit : 0 ≤ credit (RateLimitRates.refillMilliPerSec (rates.forClass c).2)
      (forward since nowMs) := by
    refine credit_nonneg ?_ (forward_nonneg _ _)
    rw [refillMilliPerSec_of_pos hrate]
    exact floor_nonneg_of_pos hrate
  simp only [checkRated, check, rates.forClass_truncated,
    evalBucket_eq redis clock nowMs hfound hsince] at h
  generalize credit (RateLimitRates.refillMilliPerSec (rates.forClass c).2) (forward since nowMs) =
    amount at h hcredit
  split at h
  · cases h
  · rename_i hdenied
    have hzero : ((draw (burst (rates.forClass c).1) 1000 level amount).1.toNat : Int) = 0 := by
      revert hdenied
      generalize (draw (burst (rates.forClass c).1) 1000 level amount).1 = granted
      cases granted with
      | false => simp
      | true => simp
    obtain ⟨hlow, hleft⟩ := draw_denied hcapacity hzero
    cases h
    exact ⟨_, hleft ▸ add_nonneg hlevel hcredit, hleft ▸ hlow, rfl, rfl⟩

/-- After a denied call, the next one is allowed when the keys have expired or the refill has made up
a token. -/
theorem checkRated_later (hcapacity : 1 ≤ (rates.forClass c).1.toNat)
    {remaining elapsed : Int} (helapsed : 0 ≤ elapsed) :
    (checkRated rates (redis.store clock c apiKeyId remaining nowMs) (clock + elapsed) c apiKeyId
        (nowMs + elapsed)).1 = .ok () ↔
      keyTtl ≤ elapsed ∨ 1000 ≤ remaining +
        credit (RateLimitRates.refillMilliPerSec (rates.forClass c).2) elapsed := by
  rw [checkRated_fst_eq_ok]
  have hburst : (1000 : Int) ≤ burst (rates.forClass c).1 := by
    rw [burst]
    omega
  rcases lt_or_ge elapsed keyTtl with hlive | hexpired
  · have hstored : Stored c apiKeyId (redis.store clock c apiKeyId remaining nowMs) clock remaining
        nowMs := redis.stored_store clock remaining nowMs
    rw [hstored.evalBucket_eq (by linarith), forward_of_le (by linarith), add_sub_cancel_left]
    simp only [not_le.2 hlive, false_or]
    rcases lt_or_ge (min (remaining + credit (RateLimitRates.refillMilliPerSec (rates.forClass c).2)
      elapsed) (burst (rates.forClass c).1)) 1000 with hlow | hfull
    · rw [draw_of_lt hlow]
      have hless : remaining + credit (RateLimitRates.refillMilliPerSec (rates.forClass c).2)
          elapsed < 1000 := (min_lt_iff.1 hlow).resolve_right (not_lt.2 hburst)
      simp [hless]
    · rw [draw_of_ge hfull]
      have hmore := hfull.trans (min_le_left _ _)
      simp [hmore]
  · have hpast : clock + keyTtl ≤ clock + elapsed := by linarith
    have hcount : (redis.store clock c apiKeyId remaining nowMs).get (clock + elapsed)
        (bucketKey c apiKeyId) = none := by
      rw [Redis.store, Expiring.get_setEx_of_ne tsKey_ne_bucketKey.symm]
      exact Expiring.get_setEx_of_expired hpast
    have hlast : (redis.store clock c apiKeyId remaining nowMs).get (clock + elapsed)
        (tsKey c apiKeyId) = none :=
      Expiring.get_setEx_of_expired hpast
    rw [allowed_of_gone hcapacity hcount hlast]
    simp [hexpired]

/-- A bucket with less than a token, at the time of its last call. -/
theorem checkRated_low (hcapacity : 1 ≤ (rates.forClass c).1.toNat) {remaining : Int}
    (hlow : remaining < 1000) (h : Stored c apiKeyId redis clock remaining nowMs) :
    checkRated rates redis clock c apiKeyId nowMs =
      (.error ⟨retryAfterSecs remaining (rates.forClass c).2⟩,
        redis.store clock c apiKeyId remaining nowMs) := by
  have hburst : (1000 : Int) ≤ burst (rates.forClass c).1 := by
    rw [burst]
    omega
  have hnone : credit (RateLimitRates.refillMilliPerSec (rates.forClass c).2)
      (forward nowMs nowMs) = 0 := by
    rw [forward_of_le le_rfl, sub_self, credit, zero_mul]
    rfl
  have hlevel : min (remaining + 0) (burst (rates.forClass c).1) = remaining := by
    rw [add_zero, min_eq_left (hlow.le.trans hburst)]
  have hlive : clock < clock + keyTtl := lt_add_of_pos_right _ (by decide)
  simp only [checkRated, check, rates.forClass_truncated, h.evalBucket_eq hlive, hnone,
    draw_of_lt (hlevel.trans_lt hlow), hlevel]
  rfl

theorem credit_seconds (refill secs : Int) : credit refill (1000 * secs) = secs * refill := by
  rw [credit, mul_assoc, Int.mul_ediv_cancel_left _ (by decide)]

/-- The hint is sufficient for every denied call, if and only if the truncation of the rate is
harmless. -/
theorem retrySufficient_iff (rates : RateLimitRates) (c : RateLimitClass)
    (hcapacity : 1 ≤ (rates.forClass c).1.toNat) (hrate : 0 < (rates.forClass c).2) :
    RetrySufficient rates c ↔ TruncationHarmless (rates.forClass c).2 := by
  have hmilli : 0 < (rates.forClass c).2 * 1000 := by positivity
  have hrefill := refillMilliPerSec_of_pos hrate
  rw [TruncationHarmless, secondsLost, ← roundings_agree_iff hmilli]
  constructor
  · intro hsufficient deficit hone htoken
    by_contra! hnot
    obtain ⟨hshort, hlive⟩ := hnot
    have hlow : 1000 - deficit < 1000 := by linarith
    obtain ⟨-, hhint⟩ := toNat_retryAfterSecs hrate hlow
    rw [sub_sub_cancel, min_eq_left (by linarith)] at hhint
    -- A bucket that is short of the deficit is denied, and again after the wait.
    have hstored : Stored c nilUuid (Redis.store .empty 0 c nilUuid (1000 - deficit) 0) 0
        (1000 - deficit) 0 := Redis.stored_store .empty 0 _ 0
    have hagain := hsufficient _ 0 0 nilUuid _ _ ?_ (checkRated_low hcapacity hlow hstored) _ le_rfl
    · rw [checkRated_later hcapacity (by positivity), hrefill, hhint, credit_seconds,
        keyTtl] at hagain
      rcases hagain with hexpired | hrest
      · linarith
      · linarith
    · intro count hcount
      rw [hstored.count 0 (by decide)] at hcount
      cases hcount
      linarith
  · intro hagree redis clock nowMs apiKeyId retryAfter redis' hcount hdenied elapsed helapsed
    obtain ⟨remaining, hlow, htoken, rfl, rfl⟩ :=
      checkRated_denied hcapacity hrate hcount hdenied
    obtain ⟨-, hhint⟩ := toNat_retryAfterSecs hrate htoken
    rw [checkRated_later hcapacity (by omega), hrefill, keyTtl]
    rw [hhint] at helapsed
    have hagree := hagree (1000 - remaining) (by linarith) (by linarith)
    generalize ⌈((1000 - remaining : Int) : ℚ) / ((rates.forClass c).2 * 1000)⌉ = secs
      at hagree helapsed
    rcases lt_or_ge secs 3600 with hlive | hexpired
    · right
      rw [min_eq_left (by linarith)] at helapsed
      have hmore : secs * ⌊(rates.forClass c).2 * 1000⌋ ≤
          credit ⌊(rates.forClass c).2 * 1000⌋ elapsed := by
        rw [← credit_seconds]
        exact Int.ediv_le_ediv (by decide)
          (mul_le_mul_of_nonneg_right helapsed (floor_nonneg_of_pos hrate))
      linarith [hagree.resolve_right (not_le.2 hlive)]
    · left
      have hmin : 3600 ≤ min secs (2 ^ 64 - 1) := le_min hexpired (by decide)
      linarith

end RetryAfter

/-- At the default rate two seconds lose a thousandth, and earn three tokens. -/
theorem retrySufficient_default : RetrySufficient default .upload := by
  have hfrac : Int.fract ((100 : ℚ) / 60 * 1000) = 2 / 3 :=
    Int.fract_eq_iff.2 ⟨by norm_num, by norm_num, 1666, by norm_num⟩
  refine (retrySufficient_iff default .upload (by decide)
    (by norm_num [RateLimitRates.forClass, default])).2 (.inr (.inl ?_))
  have hseconds : secondsLost (100 / 60) = 2 := by
    rw [secondsLost, hfrac, Int.ceil_eq_iff]
    norm_num
  have hrefill : ⌊(100 : ℚ) / 60 * 1000⌋ = 1666 := by
    rw [Int.floor_eq_iff]
    norm_num
  have hearned : (1000 : Int) ≤ secondsLost (100 / 60) * ⌊(100 : ℚ) / 60 * 1000⌋ := by
    rw [hseconds, hrefill]
    decide
  exact hearned

def slowRates : RateLimitRates :=
  { uploadCapacity := 1
    uploadRefillPerSec := 1 / 60
    downloadCapacity := 1
    downloadRefillPerSec := 1 / 60
    adminCapacity := 1
    adminRefillPerSec := 1 / 60 }

/-- An empty bucket is told to wait for 60 seconds, in which it gets 960 thousandths. -/
theorem not_retrySufficient : ¬RetrySufficient slowRates .upload := by
  intro hclaim
  have hrate : (0 : ℚ) < (slowRates.forClass .upload).2 := by
    norm_num [RateLimitRates.forClass, slowRates]
  have hrefill : RateLimitRates.refillMilliPerSec (slowRates.forClass .upload).2 = 16 := by
    rw [refillMilliPerSec_of_pos hrate, Int.floor_eq_iff]
    norm_num [RateLimitRates.forClass, slowRates]
  have hhint : ((retryAfterSecs 0 (slowRates.forClass .upload).2).toNat : Int) = 60 := by
    have hsecs : ⌈((1000 - 0 : Int) : ℚ) / ((slowRates.forClass .upload).2 * 1000)⌉ = 60 := by
      rw [Int.ceil_eq_iff]
      norm_num [RateLimitRates.forClass, slowRates]
    rw [(toNat_retryAfterSecs hrate (by decide)).2, hsecs]
    rfl
  have hstored : Stored .upload nilUuid (Redis.store .empty 0 .upload nilUuid 0 0) 0 0 0 :=
    Redis.stored_store .empty 0 0 0
  have hagain := hclaim _ 0 0 nilUuid _ _ ?_ (checkRated_low (by decide) (by decide) hstored) 60000
    (by rw [hhint]; decide)
  · rw [checkRated_later (by decide) (by decide), hrefill] at hagain
    revert hagain
    decide
  · intro count hcount
    rw [hstored.count 0 (by decide)] at hcount
    cases hcount
    exact le_rfl

end Core
end OpenWeights
