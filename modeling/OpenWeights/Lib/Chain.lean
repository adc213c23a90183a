import Mathlib.Data.List.Nodup
import Mathlib.Logic.Relation
import Mathlib.Tactic

/-!
# Chain — a log of entries that name their parents

Entries are appended to a log one after another, and each names as its parent an older entry, or
none.  The tip is the newest entry.  Every entry is an ancestor of the tip if and only if each was
appended onto the tip of its time.

The log is a list, the newest entry first.
-/

namespace OpenWeights
namespace Lib

universe u

structure LogEntry (α : Type u) where
  id : α
  parent : Option α

section Log

variable {α : Type u}

def tip (l : List (LogEntry α)) : Option α :=
  l.head?.map LogEntry.id

/-- No id occurs twice, and every parent is older than what names it. -/
inductive WellGrown : List (LogEntry α) → Prop
  | nil : WellGrown []
  | cons {e : LogEntry α} {l : List (LogEntry α)} (hnew : e.id ∉ l.map LogEntry.id)
      (hparent : ∀ p, e.parent = some p → p ∈ l.map LogEntry.id) (hl : WellGrown l) :
      WellGrown (e :: l)

/-- Every entry was appended onto the tip. -/
def Linear : List (LogEntry α) → Prop
  | [] => True
  | e :: l => e.parent = tip l ∧ Linear l

def Link (l : List (LogEntry α)) (a b : α) : Prop :=
  ∃ e ∈ l, e.id = a ∧ e.parent = some b

/-- `b` is `a` or an ancestor of it. -/
def Ancestor (l : List (LogEntry α)) : α → α → Prop :=
  Relation.ReflTransGen (Link l)

/-- Every entry is the tip or an ancestor of it. -/
def OneChain (l : List (LogEntry α)) : Prop :=
  ∀ e ∈ l, ∃ t, tip l = some t ∧ Ancestor l t e.id

theorem Link.cons {e : LogEntry α} {l : List (LogEntry α)} {a b : α} (h : Link l a b) :
    Link (e :: l) a b := by
  obtain ⟨e', he', hid, hparent⟩ := h
  exact ⟨e', List.mem_cons_of_mem e he', hid, hparent⟩

theorem Ancestor.cons {e : LogEntry α} {l : List (LogEntry α)} {a b : α} (h : Ancestor l a b) :
    Ancestor (e :: l) a b :=
  Relation.ReflTransGen.mono (fun _ _ => Link.cons) _ _ h

/-- A parent is an entry. -/
theorem WellGrown.mem_of_link {l : List (LogEntry α)} (h : WellGrown l) {a b : α}
    (hlink : Link l a b) : b ∈ l.map LogEntry.id := by
  induction h with
  | nil =>
      obtain ⟨e, he, -⟩ := hlink
      cases he
  | cons hnew hparent hl ih =>
      obtain ⟨e', he', hid, hEq⟩ := hlink
      rcases List.mem_cons.1 he' with rfl | hold
      · exact List.mem_cons_of_mem _ (hparent b hEq)
      · exact List.mem_cons_of_mem _ (ih ⟨e', hold, hid, hEq⟩)

/-- A new entry adds no parents to older ones. -/
theorem WellGrown.link_of_cons {e : LogEntry α} {l : List (LogEntry α)}
    (hnew : e.id ∉ l.map LogEntry.id) {a b : α} (ha : a ∈ l.map LogEntry.id) (hlink : Link (e :: l) a b) : Link l a b := by
  obtain ⟨e', he', hid, hEq⟩ := hlink
  rcases List.mem_cons.1 he' with rfl | hold
  · exact absurd (hid ▸ ha) hnew
  · exact ⟨e', hold, hid, hEq⟩

theorem WellGrown.ancestor_of_cons {e : LogEntry α} {l : List (LogEntry α)} (h : WellGrown l)
    (hnew : e.id ∉ l.map LogEntry.id) {a b : α} (ha : a ∈ l.map LogEntry.id)
    (hab : Ancestor (e :: l) a b) : Ancestor l a b := by
  have hboth : Ancestor l a b ∧ b ∈ l.map LogEntry.id := by
    induction hab with
    | refl => exact ⟨.refl, ha⟩
    | tail _ hlink ih =>
        have hold := WellGrown.link_of_cons hnew ih.2 hlink
        exact ⟨ih.1.tail hold, h.mem_of_link hold⟩
  exact hboth.1

/-- Nothing but the tip has the tip among its ancestors. -/
theorem WellGrown.eq_tip {e : LogEntry α} {l : List (LogEntry α)} (h : WellGrown (e :: l))
    {a : α} (hab : Ancestor (e :: l) a e.id) : a = e.id := by
  cases h with
  | cons hnew hparent hl =>
      rcases Relation.ReflTransGen.cases_tail hab with hEq | ⟨c, -, e', he', -, hEq⟩
      · exact hEq.symm
      · -- A parent is older than the tip.
        rcases List.mem_cons.1 he' with rfl | hold
        · exact absurd (hparent _ hEq) hnew
        · exact absurd (hl.mem_of_link ⟨e', hold, rfl, hEq⟩) hnew

theorem OneChain.of_linear {l : List (LogEntry α)} (hlinear : Linear l) : OneChain l := by
  induction l with
  | nil => exact nofun
  | cons e l ih =>
      intro e' he'
      refine ⟨e.id, rfl, ?_⟩
      rcases List.mem_cons.1 he' with rfl | hold
      · exact .refl
      · -- The step to the older tip, and from there on as before.
        obtain ⟨t, ht, hanc⟩ := ih hlinear.2 e' hold
        have hlink : Link (e :: l) e.id t :=
          ⟨e, List.mem_cons_self, rfl, hlinear.1.trans ht⟩
        exact .head hlink hanc.cons

theorem WellGrown.linear {l : List (LogEntry α)} (h : WellGrown l) (hchain : OneChain l) :
    Linear l := by
  induction h with
  | nil => trivial
  | @cons e l hnew hparent hl ih =>
      -- The chain from the new entry to an older one goes through its parent.
      have hstep : ∀ e' ∈ l, ∃ p, e.parent = some p ∧ Ancestor l p e'.id := by
        intro e' he'
        obtain ⟨t, ht, hanc⟩ := hchain e' (List.mem_cons_of_mem e he')
        cases ht
        rcases Relation.ReflTransGen.cases_head hanc with
          hEq | ⟨p, ⟨e₀, he₀, hid, hp⟩, hrest⟩
        · exact absurd (hEq ▸ List.mem_map_of_mem he') hnew
        · rcases List.mem_cons.1 he₀ with rfl | hold
          · exact ⟨p, hp, hl.ancestor_of_cons hnew (hparent p hp) hrest⟩
          · exact absurd (hid ▸ List.mem_map_of_mem hold) hnew
      cases l with
      | nil =>
          refine ⟨?_, trivial⟩
          cases hp : e.parent with
          | none => rfl
          | some p => exact absurd (hparent p hp) List.not_mem_nil
      | cons e₁ l =>
          obtain ⟨p, hp, hanc⟩ := hstep e₁ List.mem_cons_self
          have hEq : p = e₁.id := hl.eq_tip hanc
          have hparentTip : e.parent = tip (e₁ :: l) := by
            rw [hp, hEq]
            rfl
          refine ⟨hparentTip, ih fun e' he' => ?_⟩
          obtain ⟨p', hp', hanc'⟩ := hstep e' he'
          exact ⟨p', by rw [← hparentTip, hp'], hanc'⟩

/-- **One chain.** -/
theorem WellGrown.oneChain_iff {l : List (LogEntry α)} (h : WellGrown l) : OneChain l ↔ Linear l :=
  ⟨h.linear, OneChain.of_linear⟩

end Log

end Lib
end OpenWeights
