import Mathlib.Order.Defs.LinearOrder
import Mathlib.Data.List.Basic
import Mathlib.Tactic

/-!
# Intervals — merging spans that overlap or touch

Half-open spans over a linear order, sorted by their start, are merged in one pass.  Every span ends
up inside a merged one (`exists_mem_mergeSpans`), a merged span starts and ends where spans do
(`mergeSpans_ends`), and there is a gap between any two merged spans (`pairwise_mergeSpans`), so the
one a span ends up in is unique (`filter_within_mergeSpans`).

The points covered stay the same (`covered_mergeSpans`).  Spans with gaps between them are determined
by their points (`Separated.eq_of_covered`), and no list with these points is shorter
(`Separated.length_le`).
-/

namespace OpenWeights
namespace Lib

/-! ## Words are linearly ordered -/

instance linearOrderUInt64 : LinearOrder UInt64 where
  le_refl := UInt64.le_refl
  le_trans _ _ _ := UInt64.le_trans
  le_antisymm _ _ := UInt64.le_antisymm
  le_total := UInt64.le_total
  lt_iff_le_not_ge a b := by
    rw [UInt64.not_le]
    exact ⟨fun h => ⟨UInt64.le_of_lt h, h⟩, fun h => h.2⟩
  toDecidableLE := inferInstance

instance linearOrderUInt32 : LinearOrder UInt32 where
  le_refl := UInt32.le_refl
  le_trans _ _ _ := UInt32.le_trans
  le_antisymm _ _ := UInt32.le_antisymm
  le_total := UInt32.le_total
  lt_iff_le_not_ge a b := by
    rw [UInt32.not_le]
    exact ⟨fun h => ⟨UInt32.le_of_lt h, h⟩, fun h => h.2⟩
  toDecidableLE := inferInstance

/-! ## Merging -/

section Merging

variable {α : Type} [LinearOrder α]

/-- Merge the remaining spans, `last` being the one that may still grow. -/
def mergeFrom : α × α → List (α × α) → List (α × α)
  | last, [] => [last]
  | last, span :: rest =>
      -- spans that touch are merged too, the end being exclusive
      if span.1 ≤ last.2 then mergeFrom (last.1, max last.2 span.2) rest
      else last :: mergeFrom span rest

def mergeSpans : List (α × α) → List (α × α)
  | [] => []
  | span :: rest => mergeFrom span rest

/-- The span lies within `outer`. -/
def Within (span outer : α × α) : Prop :=
  outer.1 ≤ span.1 ∧ span.2 ≤ outer.2

instance (span outer : α × α) : Decidable (Within span outer) :=
  inferInstanceAs (Decidable (_ ∧ _))

def SortedByStart (spans : List (α × α)) : Prop :=
  spans.Pairwise fun a b => a.1 ≤ b.1

theorem mergeSpans_ne_nil {spans : List (α × α)} (h : spans ≠ []) : mergeSpans spans ≠ [] := by
  have hfrom : ∀ (rest : List (α × α)) (last : α × α), mergeFrom last rest ≠ [] := by
    intro rest
    induction rest with
    | nil => simp [mergeFrom]
    | cons span rest ih =>
        intro last
        unfold mergeFrom
        split
        · exact ih _
        · exact List.cons_ne_nil _ _
  cases spans with
  | nil => exact absurd rfl h
  | cons span rest => exact hfrom rest span

theorem exists_mem_mergeFrom {last : α × α} {rest : List (α × α)}
    (hsorted : SortedByStart (last :: rest)) :
    ∀ span ∈ last :: rest, ∃ m ∈ mergeFrom last rest, Within span m := by
  induction rest generalizing last with
  | nil =>
      intro span hspan
      rw [List.mem_singleton.1 hspan]
      exact ⟨last, List.mem_singleton_self last, le_refl _, le_refl _⟩
  | cons next rest ih =>
      obtain ⟨hlast, hrest⟩ := List.pairwise_cons.1 hsorted
      unfold mergeFrom
      split
      · -- `next` grows the last span; both end up where that one does.
        have hgrown : SortedByStart ((last.1, max last.2 next.2) :: rest) :=
          List.pairwise_cons.2 ⟨fun b hb => hlast b (List.mem_cons_of_mem next hb),
            (List.pairwise_cons.1 hrest).2⟩
        obtain ⟨m, hm, hstart, hend⟩ := ih hgrown _ List.mem_cons_self
        intro span hspan
        rcases List.mem_cons.1 hspan with rfl | hspan
        · exact ⟨m, hm, hstart, le_trans (le_max_left _ _) hend⟩
        · rcases List.mem_cons.1 hspan with rfl | hspan
          · exact ⟨m, hm, le_trans hstart (hlast _ List.mem_cons_self),
              le_trans (le_max_right _ _) hend⟩
          · exact ih hgrown span (List.mem_cons_of_mem _ hspan)
      · intro span hspan
        rcases List.mem_cons.1 hspan with rfl | hspan
        · exact ⟨span, List.mem_cons_self, le_refl _, le_refl _⟩
        · obtain ⟨m, hm, hwithin⟩ := ih hrest span hspan
          exact ⟨m, List.mem_cons_of_mem last hm, hwithin⟩

/-- Every span lies within a merged one. -/
theorem exists_mem_mergeSpans {spans : List (α × α)} (hsorted : SortedByStart spans) :
    ∀ span ∈ spans, ∃ m ∈ mergeSpans spans, Within span m := by
  cases spans with
  | nil => simp
  | cons last rest => exact exists_mem_mergeFrom hsorted

theorem mergeFrom_ends {last : α × α} {rest : List (α × α)} (hlast : last.1 ≤ last.2)
    (hwell : ∀ span ∈ rest, span.1 ≤ span.2) (hsorted : SortedByStart (last :: rest)) :
    ∀ m ∈ mergeFrom last rest, m.1 ≤ m.2 ∧
      (∃ span ∈ last :: rest, span.1 = m.1 ∧ span.2 ≤ m.2) ∧
      ∃ span ∈ last :: rest, m.1 ≤ span.1 ∧ span.2 = m.2 := by
  induction rest generalizing last with
  | nil =>
      intro m hm
      have hEq := List.mem_singleton.1 hm
      subst hEq
      exact ⟨hlast, ⟨m, List.mem_singleton_self m, rfl, le_refl _⟩,
        ⟨m, List.mem_singleton_self m, le_refl _, rfl⟩⟩
  | cons next rest ih =>
      obtain ⟨hfirst, hrest⟩ := List.pairwise_cons.1 hsorted
      have hwell' : ∀ span ∈ rest, span.1 ≤ span.2 :=
        fun span hspan => hwell span (List.mem_cons_of_mem next hspan)
      unfold mergeFrom
      split
      · have hgrown : SortedByStart ((last.1, max last.2 next.2) :: rest) :=
          List.pairwise_cons.2 ⟨fun b hb => hfirst b (List.mem_cons_of_mem next hb),
            (List.pairwise_cons.1 hrest).2⟩
        intro m hm
        obtain ⟨hwellm, ⟨a, ha, hastart, haend⟩, ⟨b, hb, hbstart, hbend⟩⟩ :=
          @ih (last.1, max last.2 next.2) (le_trans hlast (le_max_left _ _)) hwell' hgrown m hm
        refine ⟨hwellm, ?_, ?_⟩
        · -- The grown span starts where the last one did.
          rcases List.mem_cons.1 ha with rfl | ha
          · exact ⟨last, List.mem_cons_self, hastart, le_trans (le_max_left _ _) haend⟩
          · exact ⟨a, List.mem_cons_of_mem last (List.mem_cons_of_mem next ha), hastart, haend⟩
        · -- It ends where the later of the two does.
          rcases List.mem_cons.1 hb with rfl | hb
          · rcases le_total last.2 next.2 with hle | hle
            · refine ⟨next, List.mem_cons_of_mem last List.mem_cons_self, ?_, ?_⟩
              · exact le_trans hbstart (hfirst next List.mem_cons_self)
              · rwa [max_eq_right hle] at hbend
            · refine ⟨last, List.mem_cons_self, hbstart, ?_⟩
              rwa [max_eq_left hle] at hbend
          · exact ⟨b, List.mem_cons_of_mem last (List.mem_cons_of_mem next hb), hbstart, hbend⟩
      · intro m hm
        rcases List.mem_cons.1 hm with rfl | hm
        · exact ⟨hlast, ⟨m, List.mem_cons_self, rfl, le_refl _⟩,
            ⟨m, List.mem_cons_self, le_refl _, rfl⟩⟩
        · obtain ⟨hwellm, ⟨a, ha, hastart⟩, ⟨b, hb, hbend⟩⟩ :=
            ih (hwell next List.mem_cons_self) hwell' hrest m hm
          exact ⟨hwellm, ⟨a, List.mem_cons_of_mem last ha, hastart⟩,
            ⟨b, List.mem_cons_of_mem last hb, hbend⟩⟩

/-- A merged span starts where a span within it starts and ends where one ends. -/
theorem mergeSpans_ends {spans : List (α × α)} (hwell : ∀ span ∈ spans, span.1 ≤ span.2)
    (hsorted : SortedByStart spans) :
    ∀ m ∈ mergeSpans spans, m.1 ≤ m.2 ∧ (∃ span ∈ spans, span.1 = m.1 ∧ span.2 ≤ m.2) ∧
      ∃ span ∈ spans, m.1 ≤ span.1 ∧ span.2 = m.2 := by
  cases spans with
  | nil => simp [mergeSpans]
  | cons last rest =>
      exact mergeFrom_ends (hwell last List.mem_cons_self)
        (fun span hspan => hwell span (List.mem_cons_of_mem last hspan)) hsorted

theorem pairwise_mergeFrom {last : α × α} {rest : List (α × α)} (hlast : last.1 ≤ last.2)
    (hwell : ∀ span ∈ rest, span.1 ≤ span.2) (hsorted : SortedByStart (last :: rest)) :
    (mergeFrom last rest).Pairwise fun a b => a.2 < b.1 := by
  induction rest generalizing last with
  | nil => exact List.pairwise_singleton _ _
  | cons next rest ih =>
      obtain ⟨hfirst, hrest⟩ := List.pairwise_cons.1 hsorted
      have hwell' : ∀ span ∈ rest, span.1 ≤ span.2 :=
        fun span hspan => hwell span (List.mem_cons_of_mem next hspan)
      unfold mergeFrom
      split
      · refine ih (le_trans hlast (le_max_left _ _)) hwell' ?_
        exact List.pairwise_cons.2 ⟨fun b hb => hfirst b (List.mem_cons_of_mem next hb),
          (List.pairwise_cons.1 hrest).2⟩
      · rename_i hgap
        have hnext := hwell next List.mem_cons_self
        refine List.pairwise_cons.2 ⟨?_, ih hnext hwell' hrest⟩
        -- Everything merged later starts at `next` or after it.
        intro m hm
        obtain ⟨-, ⟨span, hspan, hstart, -⟩, -⟩ := mergeFrom_ends hnext hwell' hrest m hm
        have hle : next.1 ≤ span.1 := by
          rcases List.mem_cons.1 hspan with rfl | hspan
          · exact le_refl _
          · exact (List.pairwise_cons.1 hrest).1 span hspan
        calc
          last.2 < next.1 := not_le.1 hgap
          _ ≤ span.1 := hle
          _ = m.1 := hstart

/-- Any two merged spans have a gap between them. -/
theorem pairwise_mergeSpans {spans : List (α × α)} (hwell : ∀ span ∈ spans, span.1 ≤ span.2)
    (hsorted : SortedByStart spans) : (mergeSpans spans).Pairwise fun a b => a.2 < b.1 := by
  cases spans with
  | nil => exact List.Pairwise.nil
  | cons last rest =>
      exact pairwise_mergeFrom (hwell last List.mem_cons_self)
        (fun span hspan => hwell span (List.mem_cons_of_mem last hspan)) hsorted

/-- Of two spans with gaps between them one lies before the other. -/
theorem before_or_after {spans : List (α × α)} (hgap : spans.Pairwise fun a b => a.2 < b.1)
    {a b : α × α} (ha : a ∈ spans) (hb : b ∈ spans) (hne : a ≠ b) : a.2 < b.1 ∨ b.2 < a.1 := by
  have hsymm : spans.Pairwise fun a b => a.2 < b.1 ∨ b.2 < a.1 := hgap.imp fun hlt => .inl hlt
  have : Std.Symm fun a b : α × α => a.2 < b.1 ∨ b.2 < a.1 := ⟨fun _ _ hab => hab.symm⟩
  exact hsymm.forall ha hb hne

/-- A span lies within one merged span only. -/
theorem eq_of_within {spans : List (α × α)} (hwell : ∀ span ∈ spans, span.1 ≤ span.2)
    (hsorted : SortedByStart spans) {span m m' : α × α} (hspan : span.1 ≤ span.2)
    (hm : m ∈ mergeSpans spans) (hm' : m' ∈ mergeSpans spans) (h : Within span m)
    (h' : Within span m') : m = m' := by
  by_contra hne
  have hgap := pairwise_mergeSpans hwell hsorted
  rcases before_or_after hgap hm hm' hne with hlt | hlt
  · exact absurd (lt_of_le_of_lt (le_trans hspan h.2) (lt_of_lt_of_le hlt h'.1)) (lt_irrefl _)
  · exact absurd (lt_of_le_of_lt (le_trans hspan h'.2) (lt_of_lt_of_le hlt h.1)) (lt_irrefl _)

/-- A span lies within exactly one merged span. -/
theorem filter_within_mergeSpans {spans : List (α × α)} (hwell : ∀ span ∈ spans, span.1 ≤ span.2)
    (hsorted : SortedByStart spans) {span : α × α} (hspan : span ∈ spans) :
    ∃ m ∈ mergeSpans spans, Within span m ∧
      (mergeSpans spans).filter (fun m => decide (Within span m)) = [m] := by
  obtain ⟨m, hm, hwithin⟩ := exists_mem_mergeSpans hsorted span hspan
  refine ⟨m, hm, hwithin, ?_⟩
  have hnodup : (mergeSpans spans).Nodup := by
    refine (pairwise_mergeSpans hwell hsorted).imp_of_mem ?_
    rintro a b ha - hgap rfl
    exact absurd (mergeSpans_ends hwell hsorted a ha).1 (not_le.2 hgap)
  have hmem : ∀ a, a ∈ (mergeSpans spans).filter (fun m => decide (Within span m)) ↔ a ∈ [m] := by
    intro a
    rw [List.mem_filter, decide_eq_true_iff, List.mem_singleton]
    constructor
    · rintro ⟨ha, hwithin'⟩
      exact eq_of_within hwell hsorted (hwell span hspan) ha hm hwithin' hwithin
    · rintro rfl
      exact ⟨hm, hwithin⟩
  have hperm := (List.perm_ext_iff_of_nodup (hnodup.filter _) (List.nodup_singleton m)).2 hmem
  exact List.perm_singleton.1 hperm

/-! ## The points covered -/

def covered (spans : List (α × α)) : Set α :=
  {x | ∃ span ∈ spans, span.1 ≤ x ∧ x < span.2}

/-- No span is empty, they ascend, and there is a gap between any two. -/
structure Separated (spans : List (α × α)) : Prop where
  nonempty : ∀ span ∈ spans, span.1 < span.2
  gap : spans.Pairwise fun a b => a.2 < b.1

theorem mem_covered_cons {span : α × α} {spans : List (α × α)} {x : α} :
    x ∈ covered (span :: spans) ↔ (span.1 ≤ x ∧ x < span.2) ∨ x ∈ covered spans := by
  simp [covered]

theorem covered_eq_of_perm {spans spans' : List (α × α)} (h : spans.Perm spans') :
    covered spans = covered spans' := by
  ext x
  simp [covered, h.mem_iff]

theorem covered_mergeFrom {last : α × α} {rest : List (α × α)}
    (hsorted : SortedByStart (last :: rest)) :
    covered (mergeFrom last rest) = covered (last :: rest) := by
  induction rest generalizing last with
  | nil => rfl
  | cons next rest ih =>
      obtain ⟨hlast, hrest⟩ := List.pairwise_cons.1 hsorted
      unfold mergeFrom
      split
      next htouch =>
        have hgrown : SortedByStart ((last.1, max last.2 next.2) :: rest) :=
          List.pairwise_cons.2 ⟨fun b hb => hlast b (List.mem_cons_of_mem next hb),
            (List.pairwise_cons.1 hrest).2⟩
        have hstart : last.1 ≤ next.1 := hlast next List.mem_cons_self
        -- The two spans overlap or touch, so the grown one has no other points than theirs.
        have hunion : ∀ x, (last.1 ≤ x ∧ x < max last.2 next.2) ↔
            (last.1 ≤ x ∧ x < last.2) ∨ (next.1 ≤ x ∧ x < next.2) := by
          intro x
          rw [lt_max_iff]
          constructor
          · rintro ⟨hx, hlt | hlt⟩
            · exact .inl ⟨hx, hlt⟩
            · rcases lt_or_ge x last.2 with hin | hout
              · exact .inl ⟨hx, hin⟩
              · exact .inr ⟨le_trans htouch hout, hlt⟩
          · rintro (⟨hx, hlt⟩ | ⟨hx, hlt⟩)
            · exact ⟨hx, .inl hlt⟩
            · exact ⟨le_trans hstart hx, .inr hlt⟩
        rw [ih hgrown]
        ext x
        rw [mem_covered_cons, mem_covered_cons, mem_covered_cons, ← or_assoc]
        exact or_congr_left (hunion x)
      next =>
        ext x
        rw [mem_covered_cons, mem_covered_cons, ih hrest]

/-- Merging neither adds a point nor loses one. -/
theorem covered_mergeSpans {spans : List (α × α)} (hsorted : SortedByStart spans) :
    covered (mergeSpans spans) = covered spans := by
  cases spans with
  | nil => rfl
  | cons last rest => exact covered_mergeFrom hsorted

theorem separated_mergeSpans {spans : List (α × α)} (hwell : ∀ span ∈ spans, span.1 < span.2)
    (hsorted : SortedByStart spans) : Separated (mergeSpans spans) := by
  have hle : ∀ span ∈ spans, span.1 ≤ span.2 := fun span hspan => le_of_lt (hwell span hspan)
  refine ⟨?_, pairwise_mergeSpans hle hsorted⟩
  intro m hm
  obtain ⟨-, ⟨span, hspan, hstart, hend⟩, -⟩ := mergeSpans_ends hle hsorted m hm
  calc
    m.1 = span.1 := hstart.symm
    _ < span.2 := hwell span hspan
    _ ≤ m.2 := hend

namespace Separated

variable {span : α × α} {spans spans' : List (α × α)}

theorem tail (h : Separated (span :: spans)) : Separated spans :=
  ⟨fun s hs => h.nonempty s (List.mem_cons_of_mem span hs), (List.pairwise_cons.1 h.gap).2⟩

/-- What the later spans cover lies beyond the end of the first. -/
theorem lt_of_mem_covered_tail (h : Separated (span :: spans)) {x : α} (hx : x ∈ covered spans) :
    span.2 < x := by
  obtain ⟨s, hs, hle, -⟩ := hx
  exact lt_of_lt_of_le ((List.pairwise_cons.1 h.gap).1 s hs) hle

theorem start_mem_covered (h : Separated spans) (hspan : span ∈ spans) : span.1 ∈ covered spans :=
  ⟨span, hspan, le_refl _, h.nonempty span hspan⟩

/-- The end of a span is a point of the gap after it. -/
theorem end_notMem_covered (h : Separated spans) (hspan : span ∈ spans) :
    span.2 ∉ covered spans := by
  induction spans with
  | nil => exact absurd hspan List.not_mem_nil
  | cons first spans ih =>
      rw [mem_covered_cons, not_or]
      rcases List.mem_cons.1 hspan with rfl | hspan
      · exact ⟨fun hin => lt_irrefl _ hin.2, fun hin => lt_irrefl _ (h.lt_of_mem_covered_tail hin)⟩
      · refine ⟨fun hin => ?_, ih h.tail hspan⟩
        have hbeyond := h.lt_of_mem_covered_tail (h.tail.start_mem_covered hspan)
        exact lt_asymm hin.2 (lt_trans hbeyond (h.tail.nonempty span hspan))

theorem mem_covered_tail (h : Separated (span :: spans)) {x : α} :
    x ∈ covered spans ↔ x ∈ covered (span :: spans) ∧ span.2 < x := by
  rw [mem_covered_cons]
  constructor
  · exact fun hx => ⟨.inr hx, h.lt_of_mem_covered_tail hx⟩
  · rintro ⟨hin | hx, hlt⟩
    · exact absurd hin.2 (lt_asymm hlt)
    · exact hx

/-- The first span starts at the least point covered. -/
theorem start_le (h : Separated (span :: spans)) {x : α} (hx : x ∈ covered (span :: spans)) :
    span.1 ≤ x := by
  rcases mem_covered_cons.1 hx with hin | hx
  · exact hin.1
  · exact le_of_lt (lt_trans (h.nonempty span List.mem_cons_self) (h.lt_of_mem_covered_tail hx))

/-- From a point of the first span up to its end every point is covered. -/
theorem end_le_of_notMem_covered {x : α} (hle : span.1 ≤ x)
    (hx : x ∉ covered (span :: spans)) : span.2 ≤ x := by
  by_contra hlt
  exact hx (mem_covered_cons.2 (.inl ⟨hle, not_le.1 hlt⟩))

/-- Separated spans are determined by the points they cover. -/
theorem eq_of_covered (h : Separated spans) (h' : Separated spans')
    (hcovered : covered spans = covered spans') : spans = spans' := by
  induction spans generalizing spans' with
  | nil =>
      cases spans' with
      | nil => rfl
      | cons first' spans' =>
          have hmem := h'.start_mem_covered List.mem_cons_self
          rw [← hcovered] at hmem
          obtain ⟨s, hs, -⟩ := hmem
          exact absurd hs List.not_mem_nil
  | cons first spans ih =>
      cases spans' with
      | nil =>
          have hmem := h.start_mem_covered List.mem_cons_self
          rw [hcovered] at hmem
          obtain ⟨s, hs, -⟩ := hmem
          exact absurd hs List.not_mem_nil
      | cons first' spans' =>
          have hstart : first.1 = first'.1 := by
            apply le_antisymm
            · exact h.start_le (hcovered ▸ h'.start_mem_covered List.mem_cons_self)
            · exact h'.start_le (hcovered ▸ h.start_mem_covered List.mem_cons_self)
          have hend : first.2 = first'.2 := by
            apply le_antisymm
            · apply end_le_of_notMem_covered (hstart ▸ (h'.nonempty _ List.mem_cons_self).le)
              exact hcovered ▸ h'.end_notMem_covered List.mem_cons_self
            · apply end_le_of_notMem_covered (hstart ▸ (h.nonempty _ List.mem_cons_self).le)
              exact hcovered ▸ h.end_notMem_covered List.mem_cons_self
          -- What is left are the points beyond the common end.
          have hrest : covered spans = covered spans' := by
            ext x
            rw [h.mem_covered_tail, h'.mem_covered_tail, hcovered, hend]
          rw [Prod.ext hstart hend, ih h.tail h'.tail hrest]

/-- A span that covers the starts of two separated ones covers the gap between them. -/
theorem eq_of_common (h : Separated spans) {a b outer : α × α} (ha : a ∈ spans) (hb : b ∈ spans)
    (houter : ∀ x, outer.1 ≤ x → x < outer.2 → x ∈ covered spans)
    (haouter : outer.1 ≤ a.1 ∧ a.1 < outer.2) (hbouter : outer.1 ≤ b.1 ∧ b.1 < outer.2) :
    a = b := by
  have hgap : ∀ {c d : α × α}, c ∈ spans → outer.1 ≤ c.1 → d.1 < outer.2 → ¬ c.2 < d.1 := by
    intro c d hc hcstart hdend hlt
    apply h.end_notMem_covered hc
    apply houter
    · exact le_trans hcstart (h.nonempty c hc).le
    · exact lt_trans hlt hdend
  by_contra hne
  rcases before_or_after h.gap ha hb hne with hlt | hlt
  · exact hgap ha haouter.1 hbouter.2 hlt
  · exact hgap hb hbouter.1 haouter.2 hlt

theorem nodup (h : Separated spans) : spans.Nodup := by
  refine h.gap.imp_of_mem ?_
  rintro a b ha - hgap rfl
  exact lt_asymm hgap (h.nonempty a ha)

/-- No list of spans that covers the same points is shorter. -/
theorem length_le (h : Separated spans) (hcovered : covered spans' = covered spans) :
    spans.length ≤ spans'.length := by
  have hcover : ∀ a ∈ spans, ∃ outer ∈ spans', outer.1 ≤ a.1 ∧ a.1 < outer.2 := by
    intro a ha
    have hstart := h.start_mem_covered ha
    rwa [← hcovered] at hstart
  choose! outer hmem hin using hcover
  -- Two spans whose starts lie in one of `spans'` would have the gap between them covered too.
  have hinj : ∀ a ∈ spans, ∀ b ∈ spans, outer a = outer b → a = b := by
    intro a ha b hb hEq
    refine h.eq_of_common ha hb ?_ (hin a ha) (hEq ▸ hin b hb)
    intro x hstart hend
    exact hcovered ▸ ⟨outer a, hmem a ha, hstart, hend⟩
  have hsubset : spans.map outer ⊆ spans' := by
    intro s hs
    obtain ⟨a, ha, rfl⟩ := List.mem_map.1 hs
    exact hmem a ha
  have hnodup : (spans.map outer).Nodup := List.Nodup.map_on hinj h.nodup
  calc
    spans.length = (spans.map outer).length := (List.length_map outer).symm
    _ ≤ spans'.length := (hnodup.subperm hsubset).length_le

end Separated

/-- Merging commutes with a strictly monotone renaming of the points. -/
theorem mergeSpans_map {β : Type} [LinearOrder β] {f : α → β} (hf : StrictMono f)
    (spans : List (α × α)) :
    mergeSpans (spans.map (Prod.map f f)) = (mergeSpans spans).map (Prod.map f f) := by
  have hfrom : ∀ (rest : List (α × α)) (last : α × α),
      mergeFrom (Prod.map f f last) (rest.map (Prod.map f f)) =
        (mergeFrom last rest).map (Prod.map f f) := by
    intro rest
    induction rest with
    | nil => exact fun last => rfl
    | cons next rest ih =>
        intro last
        simp only [List.map_cons, mergeFrom, Prod.map_fst, Prod.map_snd, hf.le_iff_le]
        split
        · rw [← hf.monotone.map_max]
          exact ih (last.1, max last.2 next.2)
        · rw [List.map_cons, ih next]
  cases spans with
  | nil => rfl
  | cons span rest => exact hfrom rest span

end Merging

end Lib
end OpenWeights
