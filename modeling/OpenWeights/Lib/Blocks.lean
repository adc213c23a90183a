import Mathlib.Data.List.Basic
import Mathlib.Tactic

/-!
# Blocks — where the blocks of a concatenation end

`endsFrom offset blocks` are the prefix sums of the blocks' lengths.  Between two of these ends lies
a run of whole blocks (`exists_split_of_mem_ends`), and the ends within the run are those of the run
on its own, shifted (`filter_endsFrom`).
-/

namespace OpenWeights
namespace Lib

universe u

variable {β : Type u}

/-- The end of each block, when the first one starts at `offset`. -/
def endsFrom : Nat → List (List β) → List Nat
  | _, [] => []
  | offset, block :: blocks =>
      (offset + block.length) :: endsFrom (offset + block.length) blocks

@[simp] theorem endsFrom_nil (offset : Nat) : endsFrom offset ([] : List (List β)) = [] := rfl

@[simp] theorem endsFrom_cons (offset : Nat) (block : List β) (blocks : List (List β)) :
    endsFrom offset (block :: blocks) =
      (offset + block.length) :: endsFrom (offset + block.length) blocks := rfl

theorem endsFrom_append (offset : Nat) (front back : List (List β)) :
    endsFrom offset (front ++ back) =
      endsFrom offset front ++ endsFrom (offset + front.flatten.length) back := by
  induction front generalizing offset with
  | nil => rfl
  | cons block front ih =>
      rw [List.cons_append, endsFrom_cons, endsFrom_cons, ih, List.flatten_cons,
        List.length_append, Nat.add_assoc, List.cons_append]

/-- Where the first block starts makes no difference but a shift. -/
theorem endsFrom_add (offset shift : Nat) (blocks : List (List β)) :
    endsFrom (offset + shift) blocks = (endsFrom offset blocks).map fun e => e + shift := by
  induction blocks generalizing offset with
  | nil => rfl
  | cons block blocks ih =>
      have hcomm : offset + shift + block.length = offset + block.length + shift :=
        Nat.add_right_comm offset shift block.length
      rw [endsFrom_cons, endsFrom_cons, List.map_cons, hcomm, ih]

theorem le_of_mem_endsFrom {offset e : Nat} {blocks : List (List β)}
    (he : e ∈ endsFrom offset blocks) : offset ≤ e ∧ e ≤ offset + blocks.flatten.length := by
  induction blocks generalizing offset with
  | nil => cases he
  | cons block blocks ih =>
      rw [List.flatten_cons, List.length_append]
      rcases List.mem_cons.1 he with rfl | he
      · omega
      · have hrest := ih he
        omega

/-- No end is the start if no block is empty. -/
theorem lt_of_mem_endsFrom {offset e : Nat} {blocks : List (List β)}
    (hpos : ∀ block ∈ blocks, 0 < block.length) (he : e ∈ endsFrom offset blocks) : offset < e := by
  cases blocks with
  | nil => cases he
  | cons block blocks =>
      have hblock := hpos block List.mem_cons_self
      rcases List.mem_cons.1 he with rfl | he
      · omega
      · have hle := (le_of_mem_endsFrom he).1
        omega

/-- Neighbouring ends are a block apart. -/
theorem isChain_endsFrom {step offset : Nat} {blocks : List (List β)}
    (hstep : ∀ block ∈ blocks, step ≤ block.length) :
    (offset :: endsFrom offset blocks).IsChain fun e e' => e + step ≤ e' := by
  induction blocks generalizing offset with
  | nil => exact .singleton offset
  | cons block blocks ih =>
      refine .cons_cons ?_ (ih fun b hb => hstep b (List.mem_cons_of_mem block hb))
      exact Nat.add_le_add_left (hstep block List.mem_cons_self) offset

/-- The last end is the end of the concatenation. -/
theorem getLast_endsFrom (offset : Nat) (blocks : List (List β)) :
    (offset :: endsFrom offset blocks).getLast (List.cons_ne_nil _ _) =
      offset + blocks.flatten.length := by
  induction blocks generalizing offset with
  | nil => rfl
  | cons block blocks ih =>
      rw [endsFrom_cons, List.getLast_cons (List.cons_ne_nil _ _), ih, List.flatten_cons,
        List.length_append, Nat.add_assoc]

/-- At an end, or at the start, the blocks fall into those before and those after it. -/
theorem exists_split_of_mem_ends {offset e : Nat} {blocks : List (List β)}
    (he : e ∈ offset :: endsFrom offset blocks) :
    ∃ front back, blocks = front ++ back ∧ e = offset + front.flatten.length := by
  induction blocks generalizing offset with
  | nil => exact ⟨[], [], rfl, List.mem_singleton.1 he⟩
  | cons block blocks ih =>
      rcases List.mem_cons.1 he with rfl | he
      · exact ⟨[], block :: blocks, rfl, rfl⟩
      · obtain ⟨front, back, rfl, rfl⟩ := ih he
        refine ⟨block :: front, back, rfl, ?_⟩
        rw [List.flatten_cons, List.length_append, Nat.add_assoc]

/-- Of two ends the earlier one leaves a run of whole blocks up to the later one. -/
theorem exists_run_of_mem_ends {p q : Nat} {blocks : List (List β)}
    (hp : p ∈ 0 :: endsFrom 0 blocks) (hq : q ∈ 0 :: endsFrom 0 blocks) (hlt : p < q) :
    ∃ front mid back, blocks = front ++ mid ++ back ∧ p = front.flatten.length ∧
      q = (front ++ mid).flatten.length := by
  obtain ⟨front, rest, hfront, rfl⟩ := exists_split_of_mem_ends hp
  obtain ⟨front', back, hfront', rfl⟩ := exists_split_of_mem_ends hq
  rw [Nat.zero_add, Nat.zero_add] at hlt ⊢
  have hprefix : front <+: blocks := ⟨rest, hfront.symm⟩
  have hprefix' : front' <+: blocks := ⟨back, hfront'.symm⟩
  rcases List.prefix_or_prefix_of_prefix hprefix hprefix' with hle | hle
  · obtain ⟨mid, rfl⟩ := hle
    exact ⟨front, mid, back, hfront', rfl, rfl⟩
  · -- The later end would not come later.
    obtain ⟨mid, rfl⟩ := hle
    rw [List.flatten_append, List.length_append] at hlt
    omega

/-- The ends inside a run are those of the run on its own. -/
theorem filter_endsFrom {front mid back : List (List β)}
    (hpos : ∀ block ∈ front ++ mid ++ back, 0 < block.length) :
    ((endsFrom 0 (front ++ mid ++ back)).filter fun e =>
        front.flatten.length < e ∧ e ≤ (front ++ mid).flatten.length).map
      (fun e => e - front.flatten.length) = endsFrom 0 mid := by
  have hmid : ∀ block ∈ mid, 0 < block.length := fun block hb => hpos block (by simp [hb])
  have hback : ∀ block ∈ back, 0 < block.length := fun block hb => hpos block (by simp [hb])
  have hbefore : (endsFrom 0 front).filter (fun e =>
      decide (front.flatten.length < e ∧ e ≤ (front ++ mid).flatten.length)) = [] := by
    rw [List.filter_eq_nil_iff]
    intro e he
    have hle := (le_of_mem_endsFrom he).2
    rw [decide_eq_true_eq]
    omega
  have hafter : (endsFrom (front ++ mid).flatten.length back).filter (fun e =>
      decide (front.flatten.length < e ∧ e ≤ (front ++ mid).flatten.length)) = [] := by
    rw [List.filter_eq_nil_iff]
    intro e he
    have hlt := lt_of_mem_endsFrom hback he
    rw [decide_eq_true_eq]
    omega
  have hwithin : (endsFrom front.flatten.length mid).filter (fun e =>
      decide (front.flatten.length < e ∧ e ≤ (front ++ mid).flatten.length)) =
        endsFrom front.flatten.length mid := by
    rw [List.filter_eq_self]
    intro e he
    have hlt := lt_of_mem_endsFrom hmid he
    have hle := (le_of_mem_endsFrom he).2
    rw [decide_eq_true_eq, List.flatten_append, List.length_append]
    exact ⟨hlt, hle⟩
  have hshift := endsFrom_add 0 front.flatten.length mid
  rw [Nat.zero_add] at hshift
  rw [endsFrom_append, endsFrom_append, Nat.zero_add, Nat.zero_add, List.filter_append,
    List.filter_append, hbefore, hafter, hwithin, List.nil_append, List.append_nil, hshift,
    List.map_map]
  -- The shift is undone.
  have hundo : ((fun e => e - front.flatten.length) ∘ fun e => e + front.flatten.length) =
      (id : Nat → Nat) := by
    funext e
    exact Nat.add_sub_cancel e front.flatten.length
  rw [hundo, List.map_id]

/-- The bytes of the run. -/
theorem take_drop_flatten (front mid back : List (List β)) :
    ((front ++ mid ++ back).flatten.drop front.flatten.length).take
      ((front ++ mid).flatten.length - front.flatten.length) = mid.flatten := by
  simp only [List.flatten_append, List.append_assoc, List.drop_left, List.length_append,
    Nat.add_sub_cancel_left, List.take_left]

end Lib
end OpenWeights
