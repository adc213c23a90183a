import Mathlib.Data.List.Basic
import Mathlib.Tactic

/-!
# Delegation — credentials that are exchanged for other credentials

A log lists what was done, the newest event first.  An event presents a credential, its `source`, and
may hand out another one, what it `made`.

* `delegated` : the events that present a root, or what stems from it through any chain of exchanges;
* `obtained`  : the credentials they handed out.

`delegated_induction` goes along the chains: what holds when the root is presented, and passes from a
credential's making to its use, holds of all of these events.  `time_le_of_delegated` bounds how long
the credentials of a root are of use, if exchanges stop in time.
-/

namespace OpenWeights
namespace Lib

section Delegation

variable {ε κ : Type} [DecidableEq κ] (source : ε → κ) (made : ε → Option κ) (root : κ)

/-- The events of a log that present a credential of this root. -/
def delegated : List ε → List ε
  | [] => []
  | e :: earlier =>
      if source e = root ∨ source e ∈ (delegated earlier).filterMap made then
        e :: delegated earlier
      else
        delegated earlier

/-- The credentials a log shows to stem from the root. -/
def obtained (log : List ε) : List κ :=
  (delegated source made root log).filterMap made

variable {source made root} {log earlier : List ε} {c : κ} {e use : ε}

theorem mem_obtained : c ∈ obtained source made root log ↔
    ∃ e ∈ delegated source made root log, made e = some c := List.mem_filterMap

theorem delegated_cons_of_pos (h : source e = root ∨ source e ∈ obtained source made root earlier) :
    delegated source made root (e :: earlier) = e :: delegated source made root earlier :=
  if_pos h

theorem delegated_cons_of_neg
    (h : ¬(source e = root ∨ source e ∈ obtained source made root earlier)) :
    delegated source made root (e :: earlier) = delegated source made root earlier :=
  if_neg h

theorem mem_delegated_cons : use ∈ delegated source made root (e :: earlier) ↔
    (use = e ∧ (source e = root ∨ source e ∈ obtained source made root earlier)) ∨
      use ∈ delegated source made root earlier := by
  by_cases h : source e = root ∨ source e ∈ obtained source made root earlier
  · rw [delegated_cons_of_pos h, List.mem_cons]
    exact or_congr_left (and_iff_left h).symm
  · rw [delegated_cons_of_neg h]
    exact ⟨.inr, fun hmem => hmem.resolve_left fun hnew => h hnew.2⟩

theorem mem_of_mem_delegated (h : use ∈ delegated source made root log) : use ∈ log := by
  induction log with
  | nil => cases h
  | cons e earlier ih =>
      rcases mem_delegated_cons.1 h with ⟨rfl, -⟩ | hold
      · exact List.mem_cons_self
      · exact List.mem_cons_of_mem e (ih hold)

/-- Such an event presents the root, or a credential that another one made. -/
theorem source_of_mem_delegated (h : use ∈ delegated source made root log) :
    source use = root ∨ source use ∈ obtained source made root log := by
  induction log with
  | nil => cases h
  | cons e earlier ih =>
      have hmono : obtained source made root earlier ⊆ obtained source made root (e :: earlier) := by
        intro c hc
        obtain ⟨e', he', hmade⟩ := mem_obtained.1 hc
        exact mem_obtained.2 ⟨e', mem_delegated_cons.2 (.inr he'), hmade⟩
      rcases mem_delegated_cons.1 h with ⟨rfl, hstems⟩ | hold
      · exact hstems.imp_right fun hc => hmono hc
      · exact (ih hold).imp_right fun hc => hmono hc

/-- Induction along the chains of exchanges. -/
theorem delegated_induction {P : ε → Prop}
    (hroot : ∀ e ∈ delegated source made root log, source e = root → P e)
    (hmade : ∀ e ∈ delegated source made root log, ∀ e' ∈ delegated source made root log,
      made e = some (source e') → P e → P e') :
    ∀ e ∈ delegated source made root log, P e := by
  induction log with
  | nil =>
      intro e he
      cases he
  | cons e earlier ih =>
      have hold := ih
        (fun e' he' => hroot e' (mem_delegated_cons.2 (.inr he')))
        fun e' he' e'' he'' =>
          hmade e' (mem_delegated_cons.2 (.inr he')) e'' (mem_delegated_cons.2 (.inr he''))
      intro use huse
      rcases mem_delegated_cons.1 huse with ⟨rfl, hstems | hstems⟩ | hearlier
      · exact hroot use huse hstems
      · obtain ⟨e', he', hEq⟩ := mem_obtained.1 hstems
        exact hmade e' (mem_delegated_cons.2 (.inr he')) use huse hEq (hold e' he')
      · exact hold use hearlier

/-- If no event of this origin hands out a credential after `bound`, and a credential is of use for
`life` after it was made, then no event of this origin but those of the root itself is later than
`bound + life`. -/
theorem time_le_of_delegated (time : ε → Nat) (bound life : Nat)
    (hexchange : ∀ e ∈ delegated source made root log, ∀ c, made e = some c → time e ≤ bound)
    (hlife : ∀ e ∈ delegated source made root log, ∀ e' ∈ delegated source made root log,
      made e = some (source e') → time e' ≤ time e + life)
    (huse : use ∈ delegated source made root log) (hroot : source use ≠ root) :
    time use ≤ bound + life := by
  have hstems := (source_of_mem_delegated huse).resolve_left hroot
  obtain ⟨e, he, hEq⟩ := mem_obtained.1 hstems
  have hearly : time e ≤ bound := hexchange e he _ hEq
  have hlate : time use ≤ time e + life := hlife e he use huse hEq
  calc
    time use ≤ time e + life := hlate
    _ ≤ bound + life := Nat.add_le_add_right hearly life

end Delegation

end Lib
end OpenWeights
