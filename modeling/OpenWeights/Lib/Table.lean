import Mathlib.Data.List.Basic
import Mathlib.Data.List.Nodup
import Mathlib.Data.List.Sort
import Mathlib.Tactic

/-!
# Table — keyed relations with a primary key

A relational table is a list of `(key, row)` pairs in which no key occurs twice.  The uniqueness
of keys is a field of the structure, so every operation has to keep it.  The operations are the
ones a statement-level model of a database needs:

* `Table.find`        : lookup by primary key;
* `Table.insertNew`   : `INSERT ... ON CONFLICT DO NOTHING` of one row;
* `Table.insertAll`   : the same statement over a list of rows;
* `Table.updateWhere` : `UPDATE ... SET ... WHERE`;
* `Table.update`      : the special case `WHERE key = k`;
* `Table.erase`       : drop the row of a key;
* `Table.set`         : write the row of a key, over an existing one.

The lemmas describe each operation by what `find` returns afterwards.
-/

namespace OpenWeights
namespace Lib

universe u v

/-- A relation with a primary key: no key occurs twice. -/
structure Table (κ : Type u) (ρ : Type v) where
  rows : List (κ × ρ)
  nodupKeys : (rows.map Prod.fst).Nodup

namespace Table

variable {κ : Type u} {ρ : Type v}

def empty : Table κ ρ :=
  { rows := []
    nodupKeys := List.nodup_nil }

/-- `UPDATE ... SET row = f row WHERE p`. -/
def updateWhere (t : Table κ ρ) (p : κ → ρ → Bool) (f : ρ → ρ) : Table κ ρ :=
  { rows := t.rows.map fun r => (r.1, if p r.1 r.2 then f r.2 else r.2)
    nodupKeys := by
      have hkeys :
          (t.rows.map fun r => (r.1, if p r.1 r.2 then f r.2 else r.2)).map Prod.fst =
            t.rows.map Prod.fst := by
        simp [List.map_map, Function.comp_def]
      rw [hkeys]
      exact t.nodupKeys }

variable [DecidableEq κ]

def find (t : Table κ ρ) (k : κ) : Option ρ :=
  t.rows.lookup k

/-- `UPDATE ... SET row = f row WHERE key = k`. -/
def update (t : Table κ ρ) (k : κ) (f : ρ → ρ) : Table κ ρ :=
  t.updateWhere (fun k' _ => k' = k) f

/-! ## Membership and lookup -/

theorem find_eq_some_iff {t : Table κ ρ} {k : κ} {r : ρ} :
    t.find k = some r ↔ (k, r) ∈ t.rows := by
  obtain ⟨rows, hnodup⟩ := t
  simp only [find]
  induction rows with
  | nil =>
      simp
  | cons x xs ih =>
      rcases x with ⟨k', r'⟩
      simp only [List.map_cons, List.nodup_cons] at hnodup
      by_cases hk : k = k'
      · subst hk
        have hne : (k, r) ∉ xs := by
          intro hmem
          exact hnodup.1 (List.mem_map.2 ⟨(k, r), hmem, rfl⟩)
        simp [hne, eq_comm]
      · have hbeq : (k == k') = false := by simpa using hk
        simp [List.lookup_cons, hbeq, hk, ih hnodup.2]

theorem find_eq_none_iff {t : Table κ ρ} {k : κ} :
    t.find k = none ↔ k ∉ t.rows.map Prod.fst := by
  constructor
  · intro h hmem
    rcases List.mem_map.1 hmem with ⟨⟨k', r⟩, hr, rfl⟩
    have : t.find k' = some r := find_eq_some_iff.2 hr
    simp [h] at this
  · intro h
    cases hf : t.find k with
    | none => rfl
    | some r =>
        exact absurd (List.mem_map.2 ⟨(k, r), find_eq_some_iff.1 hf, rfl⟩) h

/-- A `SELECT` of one value of each row, where there is one: what it returns for a key. -/
theorem lookup_filterMap_rows {β : Type*} (t : Table κ ρ) (g : κ → ρ → Option β) (k : κ) :
    (t.rows.filterMap fun x => (g x.1 x.2).map fun b => (x.1, b)).lookup k =
      (t.find k).bind (g k) := by
  obtain ⟨rows, hnodup⟩ := t
  simp only [find]
  induction rows with
  | nil => rfl
  | cons x xs ih =>
      rcases x with ⟨k', r'⟩
      simp only [List.map_cons, List.nodup_cons] at hnodup
      have hrest := ih hnodup.2
      by_cases hk : k = k'
      · -- No later row has this key.
        subst hk
        have hnone : xs.lookup k = none := by
          refine List.lookup_eq_none_iff.2 ?_
          intro y hy
          have hne : k ≠ y.1 := fun hEq => hnodup.1 (hEq ▸ List.mem_map_of_mem hy)
          simpa using hne
        rw [hnone] at hrest
        cases hg : g k r' with
        | none => simpa [hg] using hrest
        | some b => simp [hg]
      · have hbeq : (k == k') = false := by simpa using hk
        cases hg : g k' r' with
        | none => simpa [hg, List.lookup_cons, hbeq] using hrest
        | some b => simpa [hg, List.lookup_cons, hbeq] using hrest

/-- A search for a key by a text that determines it. -/
theorem find?_rows {α : Type*} [DecidableEq α] {t : Table κ ρ} {f : κ → α}
    (hf : Function.Injective f) {k : κ} {r : ρ} (h : t.find k = some r) :
    t.rows.find? (fun x => f x.1 = f k) = some (k, r) := by
  have hmem := find_eq_some_iff.1 h
  cases hfound : t.rows.find? fun x => f x.1 = f k with
  | none =>
      have hnot := List.find?_eq_none.1 hfound (k, r) hmem
      simp at hnot
  | some row =>
      obtain ⟨k', r'⟩ := row
      have hkey : k' = k := by
        have htext := List.find?_some hfound
        exact hf (of_decide_eq_true htext)
      subst hkey
      have hrow := find_eq_some_iff.2 (List.mem_of_find?_eq_some hfound)
      rw [h] at hrow
      cases hrow
      rfl

@[simp] theorem find_empty (k : κ) : (empty : Table κ ρ).find k = none := rfl

/-! ## Updates -/

@[simp] theorem find_updateWhere (t : Table κ ρ) (p : κ → ρ → Bool) (f : ρ → ρ) (k : κ) :
    (t.updateWhere p f).find k = (t.find k).map fun r => if p k r then f r else r := by
  obtain ⟨rows, hnodup⟩ := t
  simp only [find, updateWhere]
  clear hnodup
  induction rows with
  | nil => rfl
  | cons x xs ih =>
      rcases x with ⟨k', r'⟩
      by_cases hk : k = k'
      · subst hk
        simp
      · have hbeq : (k == k') = false := by simpa using hk
        simp [List.lookup_cons, hbeq, ih]

@[simp] theorem find_update_self (t : Table κ ρ) (k : κ) (f : ρ → ρ) :
    (t.update k f).find k = (t.find k).map f := by
  simp [update]

theorem find_update_of_ne (t : Table κ ρ) {k k' : κ} (f : ρ → ρ) (h : k' ≠ k) :
    (t.update k f).find k' = t.find k' := by
  simp [update, h]

theorem find_update (t : Table κ ρ) (k k' : κ) (f : ρ → ρ) :
    (t.update k f).find k' = (t.find k').map fun r => if k' = k then f r else r := by
  simp [update]

/-! ## Inserts -/

/-- `INSERT ... ON CONFLICT DO NOTHING`: an existing row with the key wins. -/
def insertNew (t : Table κ ρ) (k : κ) (r : ρ) : Table κ ρ :=
  if h : t.find k = none then
    { rows := t.rows ++ [(k, r)]
      nodupKeys := by
        have hk := find_eq_none_iff.1 h
        rw [List.map_append, List.nodup_append]
        refine ⟨t.nodupKeys, by simp, ?_⟩
        intro a ha b hb hab
        have hbk : b = k := by simpa using hb
        exact hk (by rw [← hbk, ← hab]; exact ha) }
  else
    t

theorem insertNew_of_find {t : Table κ ρ} {k : κ} {r₀ : ρ} (h : t.find k = some r₀) (r : ρ) :
    t.insertNew k r = t := by
  simp [insertNew, h]

theorem rows_insertNew_of_none {t : Table κ ρ} {k : κ} (h : t.find k = none) (r : ρ) :
    (t.insertNew k r).rows = t.rows ++ [(k, r)] := by
  simp [insertNew, h]

theorem find_insertNew (t : Table κ ρ) (k k' : κ) (r : ρ) :
    (t.insertNew k r).find k' = if k' = k then some ((t.find k).getD r) else t.find k' := by
  cases h : t.find k with
  | some r₀ =>
      rw [insertNew_of_find h]
      by_cases hk : k' = k
      · subst hk
        simp [h]
      · simp [hk]
  | none =>
      have hrows := rows_insertNew_of_none h r
      by_cases hk : k' = k
      · subst hk
        have hmem : (k', r) ∈ (t.insertNew k' r).rows := by simp [hrows]
        simpa using find_eq_some_iff.2 hmem
      · simp only [hk, if_false]
        cases hf : t.find k' with
        | some r' =>
            refine find_eq_some_iff.2 ?_
            rw [hrows]
            exact List.mem_append_left _ (find_eq_some_iff.1 hf)
        | none =>
            refine find_eq_none_iff.2 ?_
            have hnot := find_eq_none_iff.1 hf
            rw [hrows, List.map_append, List.mem_append]
            rintro (hl | hr)
            · exact hnot hl
            · exact hk (by simpa using hr)

@[simp] theorem find_insertNew_self (t : Table κ ρ) (k : κ) (r : ρ) :
    (t.insertNew k r).find k = some ((t.find k).getD r) := by
  simp [find_insertNew]

theorem find_insertNew_of_ne (t : Table κ ρ) {k k' : κ} (r : ρ) (h : k' ≠ k) :
    (t.insertNew k r).find k' = t.find k' := by
  simp [find_insertNew, h]

/-- An insert never takes a row away. -/
theorem find_insertNew_mono {t : Table κ ρ} {k k' : κ} {r r' : ρ} (h : t.find k' = some r') :
    (t.insertNew k r).find k' = some r' := by
  by_cases hk : k' = k
  · subst hk
    simp [h]
  · rw [find_insertNew_of_ne t r hk, h]

/-- `INSERT ... SELECT * FROM UNNEST(...) ON CONFLICT DO NOTHING`. -/
def insertAll (t : Table κ ρ) (xs : List (κ × ρ)) : Table κ ρ :=
  xs.foldl (fun t x => t.insertNew x.1 x.2) t

@[simp] theorem insertAll_nil (t : Table κ ρ) : t.insertAll [] = t := rfl

@[simp] theorem insertAll_cons (t : Table κ ρ) (x : κ × ρ) (xs : List (κ × ρ)) :
    t.insertAll (x :: xs) = (t.insertNew x.1 x.2).insertAll xs := rfl

/-- A row found after the insertions was there before, or is one of them. -/
theorem find_insertAll_cases {t : Table κ ρ} {xs : List (κ × ρ)} {k : κ} {r : ρ}
    (h : (t.insertAll xs).find k = some r) :
    t.find k = some r ∨ (t.find k = none ∧ (k, r) ∈ xs) := by
  induction xs generalizing t with
  | nil => exact .inl h
  | cons x xs ih =>
      rw [insertAll_cons] at h
      by_cases hk : k = x.1
      · subst hk
        cases hold : t.find x.1 with
        | some r₀ =>
            rw [insertNew_of_find hold] at h
            rcases ih h with hfind | ⟨hnone, -⟩
            · exact .inl (hold ▸ hfind)
            · rw [hold] at hnone
              cases hnone
        | none =>
            rcases ih h with hfind | ⟨hnone, -⟩
            · have hEq : x.2 = r := by simpa [hold] using hfind
              exact .inr ⟨rfl, hEq ▸ List.mem_cons_self⟩
            · simp [hold] at hnone
      · rcases ih h with hfind | ⟨hnone, hmem⟩
        · exact .inl (by rwa [find_insertNew_of_ne _ _ hk] at hfind)
        · refine .inr ⟨by rwa [find_insertNew_of_ne _ _ hk] at hnone, ?_⟩
          exact List.mem_cons_of_mem x hmem

theorem find_insertAll_mono {t : Table κ ρ} {xs : List (κ × ρ)} {k : κ} {r : ρ}
    (h : t.find k = some r) : (t.insertAll xs).find k = some r := by
  induction xs generalizing t with
  | nil => exact h
  | cons x xs ih => exact ih (find_insertNew_mono h)

/-- When the new rows have distinct keys, exactly those whose key is free are appended. -/
theorem rows_insertAll (t : Table κ ρ) (xs : List (κ × ρ)) (hxs : (xs.map Prod.fst).Nodup) :
    (t.insertAll xs).rows = t.rows ++ xs.filter fun x => (t.find x.1).isNone := by
  induction xs generalizing t with
  | nil => simp
  | cons x xs ih =>
      simp only [List.map_cons, List.nodup_cons] at hxs
      rw [insertAll_cons, ih _ hxs.2]
      -- Inserting `x` leaves the lookups of the remaining, different keys alone.
      have hrest :
          (xs.filter fun y => ((t.insertNew x.1 x.2).find y.1).isNone) =
            xs.filter fun y => (t.find y.1).isNone := by
        refine List.filter_congr ?_
        intro y hy
        have hne : y.1 ≠ x.1 := by
          intro h
          exact hxs.1 (List.mem_map.2 ⟨y, hy, h⟩)
        rw [find_insertNew_of_ne t x.2 hne]
      rw [hrest]
      cases hf : t.find x.1 with
      | none => simp [rows_insertNew_of_none hf, hf]
      | some r => simp [insertNew_of_find hf, hf]

/-- A new row with a free key can be found. -/
theorem find_insertAll_of_mem {t : Table κ ρ} {xs : List (κ × ρ)} (hxs : (xs.map Prod.fst).Nodup)
    {k : κ} {r : ρ} (hmem : (k, r) ∈ xs) (hfree : t.find k = none) :
    (t.insertAll xs).find k = some r := by
  rw [find_eq_some_iff, rows_insertAll t xs hxs]
  refine List.mem_append_right _ (List.mem_filter.2 ⟨hmem, ?_⟩)
  simp [hfree]

/-! ## Maps -/

def erase (t : Table κ ρ) (k : κ) : Table κ ρ :=
  { rows := t.rows.filter fun r => r.1 ≠ k
    nodupKeys := t.nodupKeys.sublist (List.filter_sublist.map Prod.fst) }

def set (t : Table κ ρ) (k : κ) (r : ρ) : Table κ ρ :=
  (t.erase k).insertNew k r

theorem find_erase (t : Table κ ρ) (k k' : κ) :
    (t.erase k).find k' = if k' = k then none else t.find k' := by
  have hmem : ∀ r, (t.erase k).find k' = some r ↔ k' ≠ k ∧ t.find k' = some r := by
    intro r
    simp [find_eq_some_iff, erase, and_comm]
  by_cases hk : k' = k
  · simp only [hk, if_true]
    refine Option.eq_none_iff_forall_ne_some.2 ?_
    intro r hr
    exact ((hmem r).1 (hk ▸ hr)).1 hk
  · simp only [hk, if_false]
    refine Option.ext ?_
    intro r
    simp [hmem, hk]

@[simp] theorem find_set_self (t : Table κ ρ) (k : κ) (r : ρ) : (t.set k r).find k = some r := by
  simp [set, find_erase]

theorem find_set_of_ne (t : Table κ ρ) {k k' : κ} (r : ρ) (h : k' ≠ k) :
    (t.set k r).find k' = t.find k' := by
  rw [set, find_insertNew_of_ne _ _ h, find_erase, if_neg h]

def setAll (t : Table κ ρ) (xs : List (κ × ρ)) : Table κ ρ :=
  xs.foldl (fun t x => t.set x.1 x.2) t

@[simp] theorem setAll_cons (t : Table κ ρ) (x : κ × ρ) (xs : List (κ × ρ)) :
    t.setAll (x :: xs) = (t.set x.1 x.2).setAll xs := rfl

/-- Under distinct keys, what was written can be found, and so can what was not overwritten. -/
theorem find_setAll_eq_some_iff {t : Table κ ρ} {xs : List (κ × ρ)}
    (hxs : (xs.map Prod.fst).Nodup) {k : κ} {r : ρ} :
    (t.setAll xs).find k = some r ↔
      (k, r) ∈ xs ∨ (k ∉ xs.map Prod.fst ∧ t.find k = some r) := by
  induction xs generalizing t with
  | nil => simp [setAll]
  | cons x xs ih =>
      obtain ⟨k₀, r₀⟩ := x
      simp only [List.map_cons, List.nodup_cons] at hxs
      rw [setAll_cons, ih hxs.2]
      by_cases hk : k = k₀
      · -- The remaining rows have other keys.
        subst hk
        have hnot : (k, r) ∉ xs := fun hmem => hxs.1 (List.mem_map_of_mem hmem)
        simp [hnot, hxs.1, eq_comm]
      · simp [hk, find_set_of_ne t r₀ hk]

end Table

end Lib
end OpenWeights
