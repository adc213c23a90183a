import Mathlib.Order.WithBot
import Mathlib.Data.List.Chain
import Mathlib.Tactic

/-!
# Rotation — batches taken from the oldest stamp on

Items carry stamps.  A round takes some of the eligible items, none of them before an older one that
is eligible too, and stamps what it took with its own time or a later one.  However small the batches
are, no item is passed over twice: between two rounds that take the same item every item that was
eligible in the first of them is taken (`fair`).
-/

namespace OpenWeights
namespace Lib

/-- A beginning of a sorted list holds whatever need not come after one of its members. -/
theorem mem_take_of_not_rel {α : Type} {r : α → α → Prop} {l : List α} (hsorted : l.Pairwise r)
    {n : Nat} {a b : α} (ha : a ∈ l.take n) (hb : b ∈ l) (hnot : ¬r a b) : b ∈ l.take n := by
  have hsplit : l.take n ++ l.drop n = l := List.take_append_drop n l
  have hcross : ∀ c ∈ l.drop n, r a c := (List.pairwise_append.1 (hsplit.symm ▸ hsorted)).2.2 a ha
  by_contra hout
  have hdrop : b ∈ l.drop n := by
    have hmem : b ∈ l.take n ++ l.drop n := hsplit.symm ▸ hb
    exact (List.mem_append.1 hmem).resolve_left hout
  exact hnot (hcross b hdrop)

variable {ι τ : Type} [LinearOrder τ]

/-- A round at `time`, with the stamps before and after it. -/
structure Round (ι τ : Type) [LinearOrder τ] where
  time : τ
  before : ι → τ
  after : ι → τ
  eligible : ι → Prop
  taken : ι → Prop
  /-- What is eligible has waited. -/
  waited : ∀ x, eligible x → before x < time
  /-- Nothing is taken before an older item. -/
  oldest : ∀ x y, taken x → eligible y → ¬taken y → before x ≤ before y
  stamped : ∀ x, taken x → time ≤ after x
  kept : ∀ x, ¬taken x → after x = before x

namespace Round

/-- One round after another: the time does not go back, and what was passed over stays eligible. -/
structure Next (p q : Round ι τ) : Prop where
  time : p.time ≤ q.time
  before : q.before = p.after
  eligible : ∀ x, p.eligible x → ¬p.taken x → q.eligible x

/-- While `y` waits, `x` taken at `time` or later lies behind it. -/
structure Behind (time : τ) (x y : ι) (p : Round ι τ) : Prop where
  time_le : time ≤ p.time
  eligible : p.eligible y
  before_lt : p.before y < time
  le_before : time ≤ p.before x

theorem Behind.of_taken {p q : Round ι τ} {x y : ι} (hnext : p.Next q) (hx : p.taken x)
    (hy : p.eligible y) (hnot : ¬p.taken y) : Behind p.time x y q where
  time_le := hnext.time
  eligible := hnext.eligible y hy hnot
  before_lt := by
    rw [hnext.before, p.kept y hnot]
    exact p.waited y hy
  le_before := by
    rw [hnext.before]
    exact p.stamped x hx

/-- A round that passes `y` over once more leaves `x` behind it. -/
theorem Behind.next {time : τ} {x y : ι} {p q : Round ι τ} (h : Behind time x y p)
    (hnext : p.Next q) (hnot : ¬p.taken y) : Behind time x y q where
  time_le := le_trans h.time_le hnext.time
  eligible := hnext.eligible y h.eligible hnot
  before_lt := by
    rw [hnext.before, p.kept y hnot]
    exact h.before_lt
  le_before := by
    rw [hnext.before]
    by_cases hx : p.taken x
    · exact le_trans h.time_le (p.stamped x hx)
    · rw [p.kept x hx]
      exact h.le_before

/-- What lies behind is not taken first. -/
theorem Behind.taken {time : τ} {x y : ι} {p : Round ι τ} (h : Behind time x y p)
    (hx : p.taken x) : p.taken y := by
  by_contra hnot
  have hle : time ≤ p.before y := le_trans h.le_before (p.oldest x y hx h.eligible hnot)
  exact absurd h.before_lt (not_lt.2 hle)

/-- Until `x` is taken again, `y` is taken. -/
theorem Behind.exists_taken {time : τ} {x y : ι} {p q : Round ι τ} {mid : List (Round ι τ)}
    (h : Behind time x y p) (hchain : (p :: (mid ++ [q])).IsChain Next) (hx : q.taken x) :
    ∃ r ∈ p :: (mid ++ [q]), r.taken y := by
  by_cases hy : p.taken y
  · exact ⟨p, List.mem_cons_self, hy⟩
  · induction mid generalizing p with
    | nil =>
        have hnext : p.Next q := (List.isChain_cons_cons.1 hchain).1
        exact ⟨q, by simp, (h.next hnext hy).taken hx⟩
    | cons r mid ih =>
        obtain ⟨hnext, hrest⟩ := List.isChain_cons_cons.1 hchain
        have hbehind := h.next hnext hy
        by_cases hr : r.taken y
        · exact ⟨r, by simp, hr⟩
        · obtain ⟨s, hs, hsy⟩ := ih hbehind hrest hr
          exact ⟨s, List.mem_cons_of_mem p hs, hsy⟩

/-- If `x` is taken in a round and again in a later one, whatever was eligible in the first is taken
in one of them or in between. -/
theorem fair {x y : ι} {p q : Round ι τ} {mid : List (Round ι τ)}
    (hchain : (p :: (mid ++ [q])).IsChain Next) (hx : p.taken x) (hx' : q.taken x)
    (hy : p.eligible y) : ∃ r ∈ p :: (mid ++ [q]), r.taken y := by
  by_cases hnot : p.taken y
  · exact ⟨p, List.mem_cons_self, hnot⟩
  · cases mid with
    | nil =>
        have hnext : p.Next q := (List.isChain_cons_cons.1 hchain).1
        exact ⟨q, by simp, (Behind.of_taken hnext hx hy hnot).taken hx'⟩
    | cons r mid =>
        obtain ⟨hnext, hrest⟩ := List.isChain_cons_cons.1 hchain
        obtain ⟨s, hs, hsy⟩ := (Behind.of_taken hnext hx hy hnot).exists_taken hrest hx'
        exact ⟨s, List.mem_cons_of_mem p hs, hsy⟩

end Round

end Lib
end OpenWeights
