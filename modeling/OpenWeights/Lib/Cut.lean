import Mathlib.Data.List.Basic
import Mathlib.Data.List.Nodup
import Mathlib.Data.List.Sort
import Mathlib.Tactic

/-!
# Cut — numbered lists and tilings

A cut of an interval is a list of pieces, numbered from zero, that follow one another without gap or
overlap.

* `Indexed` : the entries of a list carry the numbers `0, 1, ...` in order.  A numbered list is
  determined by its set of entries (`Indexed.eq_of_perm`), and merging two of them row by row, the
  first one winning, appends the tail of the second (`Indexed.filter_eq_drop`);
* `Tiles`   : half-open intervals that follow one another from `a` to `b`.
-/

namespace OpenWeights
namespace Lib

/-- Half-open intervals that follow one another from `a` to `b`, without gap or overlap. -/
def Tiles : Int → Int → List (Int × Int) → Prop
  | a, b, [] => a = b
  | a, b, (s, e) :: rest => s = a ∧ s ≤ e ∧ Tiles e b rest

/-- The entries are numbered `0, 1, ...` in order. -/
def Indexed {α : Type} (l : List (Int × α)) : Prop :=
  l.map Prod.fst = (List.range l.length).map Int.ofNat

section IndexedLists

variable {α : Type} {l l' : List (Int × α)}

theorem Indexed.mem_fst (h : Indexed l) {i : Int} :
    i ∈ l.map Prod.fst ↔ ∃ n, n < l.length ∧ i = Int.ofNat n := by
  rw [h, List.mem_map]
  simp only [List.mem_range]
  constructor
  · rintro ⟨n, hn, rfl⟩
    exact ⟨n, hn, rfl⟩
  · rintro ⟨n, hn, rfl⟩
    exact ⟨n, hn, rfl⟩

theorem Indexed.nodup (h : Indexed l) : (l.map Prod.fst).Nodup := by
  rw [h]
  exact List.nodup_range.map fun a b hab => Int.ofNat.inj hab

theorem Indexed.sorted (h : Indexed l) : l.Pairwise fun a b => a.1 ≤ b.1 := by
  have hfst : (l.map Prod.fst).Pairwise (· ≤ ·) := by
    rw [h, List.pairwise_map]
    refine List.pairwise_lt_range.imp ?_
    intro a b hab
    exact Int.ofNat_le.2 (Nat.le_of_lt hab)
  exact List.pairwise_map.1 hfst

/-- A numbered list is the only sorted arrangement of its entries. -/
theorem Indexed.eq_of_perm (h : Indexed l) (hperm : l'.Perm l)
    (hsorted : l'.Pairwise fun a b => a.1 ≤ b.1) : l' = l := by
  refine List.Perm.eq_of_pairwise ?_ hsorted h.sorted hperm
  intro a b ha hb hab hba
  have hEq : a.1 = b.1 := Int.le_antisymm hab hba
  exact List.inj_on_of_nodup_map h.nodup (hperm.mem_iff.1 ha) hb hEq

/-- The entries of one numbered list whose numbers another one lacks are its tail. -/
theorem Indexed.filter_eq_drop (h : Indexed l) (h' : Indexed l') :
    (l'.filter fun t => t.1 ∉ l.map Prod.fst) = l'.drop l.length := by
  have htake : ∀ t ∈ l'.take l.length, t.1 ∈ l.map Prod.fst := by
    intro t ht
    have hmem : t.1 ∈ (l'.take l.length).map Prod.fst := List.mem_map_of_mem ht
    rw [List.map_take, h', ← List.map_take, List.take_range] at hmem
    rcases List.mem_map.1 hmem with ⟨n, hn, hEq⟩
    have hlt : n < l.length := by
      have := List.mem_range.1 hn
      omega
    exact h.mem_fst.2 ⟨n, hlt, hEq.symm⟩
  have hdrop : ∀ t ∈ l'.drop l.length, t.1 ∉ l.map Prod.fst := by
    intro t ht hmem
    have hmem' : t.1 ∈ (l'.drop l.length).map Prod.fst := List.mem_map_of_mem ht
    rw [List.map_drop, h', ← List.map_drop, List.range_eq_range', List.drop_range'] at hmem'
    rcases List.mem_map.1 hmem' with ⟨n, hn, hEq⟩
    rcases h.mem_fst.1 hmem with ⟨m, hm, hEq'⟩
    have hnm : n = m := Int.ofNat.inj (hEq.trans hEq')
    have hge := (List.mem_range'_1.1 hn).1
    omega
  calc
    (l'.filter fun t => t.1 ∉ l.map Prod.fst)
        = ((l'.take l.length ++ l'.drop l.length).filter fun t => t.1 ∉ l.map Prod.fst) := by
          rw [List.take_append_drop]
    _ = l'.drop l.length := by
          have hnone : ((l'.take l.length).filter fun t => t.1 ∉ l.map Prod.fst) = [] := by
            refine List.filter_eq_nil_iff.2 ?_
            intro t ht
            simpa using htake t ht
          have hall : ((l'.drop l.length).filter fun t => t.1 ∉ l.map Prod.fst) =
              l'.drop l.length := by
            refine List.filter_eq_self.2 ?_
            intro t ht
            simpa using hdrop t ht
          rw [List.filter_append, hnone, hall, List.nil_append]

end IndexedLists

end Lib
end OpenWeights
