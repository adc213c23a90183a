import Mathlib.Algebra.BigOperators.Group.List.Basic
import Mathlib.Tactic

/-!
# TokenBucket — levels, credits and grants

A bucket has a level.  A call first adds a credit, of which the part above `burst` is lost, and is
then granted if `cost` is there to be taken.  This module has

* `draw`    : one call;
* `drain`   : a list of calls, by their credits, with the number of grants;
* `forward` : the part of a clock's movement that goes forward, and the credit of that time.

A run is bounded from both sides: what is granted was there or was credited (`drain_le`), and what is
credited is granted sooner or later (`le_drain`).
-/

namespace OpenWeights
namespace Lib

/-- One call: is it granted, and what is left. -/
def draw (burst cost level credit : Int) : Bool × Int :=
  let filled := min (level + credit) burst
  if filled < cost then (false, filled) else (true, filled - cost)

/-- Calls with the given credits, one after another: the number of grants, and what is left. -/
def drain (burst cost : Int) : Int → List Int → Nat × Int
  | level, [] => (0, level)
  | level, credit :: credits =>
      let out := draw burst cost level credit
      let rest := drain burst cost out.2 credits
      (out.1.toNat + rest.1, rest.2)

section Draw

variable {burst cost level credit : Int}

theorem draw_of_lt (h : min (level + credit) burst < cost) :
    draw burst cost level credit = (false, min (level + credit) burst) :=
  if_pos h

theorem draw_of_ge (h : cost ≤ min (level + credit) burst) :
    draw burst cost level credit = (true, min (level + credit) burst - cost) :=
  if_neg (not_lt.2 h)

theorem draw_le_burst (level credit : Int) (hcost : 0 ≤ cost) :
    (draw burst cost level credit).2 ≤ burst := by
  have hfilled : min (level + credit) burst ≤ burst := min_le_right _ _
  simp only [draw]
  split
  · exact hfilled
  · exact (sub_le_self _ hcost).trans hfilled

/-- A grant leaves no debt. -/
theorem draw_overdrawn (burst cost level credit : Int) :
    cost * (draw burst cost level credit).1.toNat + max (draw burst cost level credit).2 0 ≤
      max (min (level + credit) burst) 0 := by
  simp only [draw]
  split
  · simp
  · rename_i hge
    have hleft : 0 ≤ min (level + credit) burst - cost := sub_nonneg.2 (not_lt.1 hge)
    simp [max_eq_left hleft]

theorem draw_nonneg (hburst : 0 ≤ burst) (hlevel : 0 ≤ level + credit) :
    0 ≤ (draw burst cost level credit).2 := by
  have hfilled : 0 ≤ min (level + credit) burst := le_min hlevel hburst
  simp only [draw]
  split
  · exact hfilled
  · linarith

/-- A credit is kept as level, or the bucket is full and the call is granted. -/
theorem le_draw (hburst : cost ≤ burst) (hlevel : level ≤ burst)
    (hcredit : 0 ≤ credit) :
    level + (if 0 < credit then 1 else 0) ≤
      (cost + 1) * (draw burst cost level credit).1.toNat + (draw burst cost level credit).2 := by
  simp only [draw]
  rcases le_total (level + credit) burst with hroom | hfull
  · -- Nothing is lost, and the level rises by the credit.
    rw [min_eq_left hroom]
    split <;> split <;> simp <;> omega
  · -- The bucket is full, so the call is granted.
    rw [min_eq_right hfull, if_neg (not_lt.2 hburst)]
    split <;> simp <;> omega

end Draw

section Drain

variable {burst cost : Int}

@[simp] theorem drain_nil (level : Int) : drain burst cost level [] = (0, level) := rfl

theorem drain_cons (level credit : Int) (credits : List Int) :
    drain burst cost level (credit :: credits) =
      ((draw burst cost level credit).1.toNat +
          (drain burst cost (draw burst cost level credit).2 credits).1,
        (drain burst cost (draw burst cost level credit).2 credits).2) :=
  rfl

/-- What is granted was there at the start, or was credited since. -/
theorem drain_le (burst cost level : Int) (credits : List Int) :
    cost * (drain burst cost level credits).1 ≤
      max level 0 + (credits.map fun credit => max credit 0).sum := by
  induction credits generalizing level with
  | nil => simp
  | cons credit credits ih =>
      have hrest := ih (draw burst cost level credit).2
      have hlevel : level + credit ≤ max level 0 + max credit 0 :=
        add_le_add (le_max_left _ _) (le_max_left _ _)
      have hpos : 0 ≤ max level 0 + max credit 0 :=
        add_nonneg (le_max_right _ _) (le_max_right _ _)
      have hfilled : max (min (level + credit) burst) 0 ≤ max level 0 + max credit 0 :=
        max_le ((min_le_left _ _).trans hlevel) hpos
      have hleft := draw_overdrawn burst cost level credit
      simp only [drain_cons, List.map_cons, List.sum_cons]
      push_cast
      linarith

/-- However much there was, the first call finds at most a full bucket. -/
theorem drain_cons_le (hburst : 0 ≤ burst) (level credit : Int)
    (credits : List Int) :
    cost * (drain burst cost level (credit :: credits)).1 ≤
      burst + (credits.map fun credit => max credit 0).sum := by
  have hrest := drain_le burst cost (draw burst cost level credit).2 credits
  have hfull : min (level + credit) burst ≤ burst := min_le_right _ _
  have hleft := draw_overdrawn burst cost level credit
  have hlevel : max (min (level + credit) burst) 0 ≤ burst := max_le hfull hburst
  simp only [drain_cons]
  push_cast
  linarith

/-- A bucket smaller than the cost grants nothing. -/
theorem drain_of_burst_lt (hburst : burst < cost) (level : Int) (credits : List Int) :
    (drain burst cost level credits).1 = 0 := by
  induction credits generalizing level with
  | nil => rfl
  | cons credit credits ih =>
      have hfilled : min (level + credit) burst < cost := (min_le_right _ _).trans_lt hburst
      simp [drain_cons, draw, hfilled, ih]

/-- A credit is as good as a higher level. -/
theorem drain_cons_eq_level (level credit : Int) (credits : List Int) :
    drain burst cost level (credit :: credits) = drain burst cost (level + credit) (0 :: credits) := by
  simp only [drain_cons, draw, add_zero]

/-- Without credits, a level of `n` costs is `n` grants. -/
theorem drain_replicate_zero (hcost : 0 < cost) {n : Nat} (hn : cost * n ≤ burst) :
    (drain burst cost (cost * n) (List.replicate n 0)).1 = n := by
  induction n with
  | zero => rfl
  | succ n ih =>
      have hle : cost ≤ cost * ((n + 1 : Nat) : Int) := by
        push_cast
        nlinarith
      have hdraw : draw burst cost (cost * ((n + 1 : Nat) : Int)) 0 = (true, cost * n) := by
        rw [draw, add_zero, min_eq_left hn, if_neg (not_lt.2 hle)]
        push_cast
        simp [mul_add]
      rw [List.replicate_succ, drain_cons, hdraw, ih ((by push_cast; linarith : _ ≤ _).trans hn)]
      simp [add_comm]

theorem drain_bounds (hcost : 0 ≤ cost) (hburst : 0 ≤ burst) {level : Int} {credits : List Int}
    (hcredits : ∀ credit ∈ credits, 0 ≤ credit) (hlevel : 0 ≤ level ∧ level ≤ burst) :
    0 ≤ (drain burst cost level credits).2 ∧ (drain burst cost level credits).2 ≤ burst := by
  induction credits generalizing level with
  | nil => exact hlevel
  | cons credit credits ih =>
      have hcredit : 0 ≤ credit := hcredits credit List.mem_cons_self
      refine ih (fun c hc => hcredits c (List.mem_cons_of_mem _ hc)) ⟨?_, ?_⟩
      · exact draw_nonneg hburst (add_nonneg hlevel.1 hcredit)
      · exact draw_le_burst level credit hcost

/-- Every call with a credit brings a grant closer: a bucket that is credited again and again grants
again and again. -/
theorem le_drain (hcost : 0 ≤ cost) (hburst : cost ≤ burst) {level : Int} {credits : List Int}
    (hcredits : ∀ credit ∈ credits, 0 ≤ credit) (hlevel : level ≤ burst) :
    level + credits.countP (fun credit => decide (0 < credit)) ≤
      (cost + 1) * (drain burst cost level credits).1 + (drain burst cost level credits).2 := by
  induction credits generalizing level with
  | nil => simp
  | cons credit credits ih =>
      have hfirst := le_draw hburst hlevel (hcredits credit List.mem_cons_self)
      have hrest := ih (fun c hc => hcredits c (List.mem_cons_of_mem _ hc))
        (draw_le_burst level credit hcost)
      simp only [drain_cons, List.countP_cons, decide_eq_true_eq]
      push_cast
      linarith

end Drain

/-! ## Credits of a clock -/

/-- The time a clock has moved forward; moving back counts as standing still. -/
def forward (last now : Int) : Int :=
  if now - last < 0 then 0 else now - last

/-- The time each reading is ahead of the one before it. -/
def gaps : Int → List Int → List Int
  | _, [] => []
  | last, now :: rest => forward last now :: gaps now rest

theorem forward_nonneg (last now : Int) : 0 ≤ forward last now := by
  simp only [forward]
  split
  · exact le_rfl
  · linarith

theorem forward_of_le {last now : Int} (h : last ≤ now) : forward last now = now - last :=
  if_neg (not_lt.2 (sub_nonneg.2 h))

theorem forward_of_ge {last now : Int} (h : now ≤ last) : forward last now = 0 := by
  simp only [forward]
  split
  · rfl
  · linarith

theorem gaps_nonneg {last : Int} {readings : List Int} :
    ∀ gap ∈ gaps last readings, 0 ≤ gap := by
  induction readings generalizing last with
  | nil => simp [gaps]
  | cons now rest ih =>
      intro gap hgap
      rcases List.mem_cons.1 hgap with rfl | hgap
      · exact forward_nonneg last now
      · exact ih gap hgap

/-- A clock that does not go back moves forward by no more than the time from start to end. -/
theorem sum_gaps_le {last bound : Int} {readings : List Int}
    (hmono : (last :: readings).Pairwise (· ≤ ·)) (hbound : ∀ now ∈ last :: readings, now ≤ bound) :
    (gaps last readings).sum ≤ bound - last := by
  induction readings generalizing last with
  | nil => simpa [gaps] using hbound last List.mem_cons_self
  | cons now rest ih =>
      obtain ⟨hle, hrest⟩ := List.pairwise_cons.1 hmono
      have hsum := ih hrest fun t ht => hbound t (List.mem_cons_of_mem _ ht)
      simp only [gaps, List.sum_cons, forward_of_le (hle now List.mem_cons_self)]
      linarith

/-- A clock inside an interval never moves forward by more than its length. -/
theorem gaps_le {lo hi last : Int} {readings : List Int}
    (h : ∀ now ∈ last :: readings, lo ≤ now ∧ now ≤ hi) :
    ∀ gap ∈ gaps last readings, gap ≤ hi - lo := by
  induction readings generalizing last with
  | nil => simp [gaps]
  | cons now rest ih =>
      intro gap hgap
      have hlast := h last List.mem_cons_self
      have hnow := h now (List.mem_cons_of_mem _ List.mem_cons_self)
      rcases List.mem_cons.1 hgap with rfl | hgap
      · rcases le_total last now with hle | hge
        · rw [forward_of_le hle]
          linarith
        · rw [forward_of_ge hge]
          linarith
      · exact ih (fun t ht => h t (List.mem_cons_of_mem _ ht)) gap hgap

/-- A sorted list is cut by a threshold. -/
theorem filter_append_filter {α : Type} {f : α → Int} {l : List α}
    (hsorted : l.Pairwise fun a b => f a ≤ f b) (t : Int) :
    l = l.filter (fun a => decide (f a < t)) ++ l.filter (fun a => decide (t ≤ f a)) := by
  induction l with
  | nil => rfl
  | cons a l ih =>
      obtain ⟨hle, hrest⟩ := List.pairwise_cons.1 hsorted
      rcases lt_or_ge (f a) t with hlt | hge
      · simpa [hlt, not_le.2 hlt] using ih hrest
      · -- Everything after `a` is above the threshold too.
        have hall : ∀ b ∈ l, t ≤ f b := fun b hb => hge.trans (hle b hb)
        have hbelow : l.filter (fun b => decide (f b < t)) = [] := by
          simpa [List.filter_eq_nil_iff] using hall
        have habove : l.filter (fun b => decide (t ≤ f b)) = l := by
          simpa [List.filter_eq_self] using hall
        simp [hge, not_lt.2 hge, hbelow, habove]

/-- Rounding down gap by gap credits no more than rounding down once. -/
theorem sum_map_ediv_le (rate : Int) {unit : Int} (hunit : 0 < unit) (times : List Int) :
    (times.map fun t => t * rate / unit).sum ≤ times.sum * rate / unit := by
  induction times with
  | nil => simp
  | cons t rest ih =>
      have hadd : t * rate / unit + rest.sum * rate / unit ≤
          (t * rate + rest.sum * rate) / unit := by
        rw [Int.le_ediv_iff_mul_le hunit, add_mul]
        exact add_le_add (Int.ediv_mul_le _ hunit.ne') (Int.ediv_mul_le _ hunit.ne')
      simp only [List.map_cons, List.sum_cons, add_mul]
      linarith

end Lib
end OpenWeights
