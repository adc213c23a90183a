import OpenWeights.Gateway.Ranges

/-!
# RangeGrammar — the headers `ParseRange` accepts

The documented forms of a byte range as a grammar over the text of one element of the list
(`Spells`), with what such an element asks for (`RangeSpec`), whether an object has it (`Fits`) and
which bytes it is (`resolve`).  One turn of the loop decides an element by this grammar
(`parseSpec_of_spells`, `parseSpec_of_not_spells`), the loop stops at the first element that fails,
and so the parser accepts exactly the lists of the grammar (`parseRange_grammar`).
-/

namespace OpenWeights
namespace Gateway

open Lib Db OpenWeights.Core

/-! ## The grammar -/

/-- What an element of the list asks for. -/
inductive RangeSpec
  | full (first last : Nat)
  | openEnded (first : Nat)
  | suffix (count : Nat)
  deriving DecidableEq, Repr

/-- The documented forms `S-E`, `S-` and `-N`. -/
inductive Spells : Bytes → RangeSpec → Prop
  | full {a b : Bytes} {first last : Nat} (ha : Decimal64 a first) (hb : Decimal64 b last)
      (hle : first ≤ last) : Spells (a ++ 45 :: b) (.full first last)
  | openEnded {a : Bytes} {first : Nat} (ha : Decimal64 a first) :
      Spells (a ++ [45]) (.openEnded first)
  | suffix {b : Bytes} {count : Nat} (hb : Decimal64 b count) (hpos : 1 ≤ count) :
      Spells (45 :: b) (.suffix count)

namespace RangeSpec

/-- An object of `size` bytes has the bytes asked for. -/
def Fits (size : Nat) : RangeSpec → Prop
  | full _ last => last < size
  | openEnded first => first < size
  | suffix _ => 0 < size

/-- The first and the last byte of an object of `size` bytes. -/
def resolve (size : Nat) : RangeSpec → Nat × Nat
  | full first last => (first, last)
  | openEnded first => (first, size - 1)
  | suffix count => (size - min count size, size - 1)

theorem resolve_bounds {size : Nat} {s : Bytes} {spec : RangeSpec} (h : Spells s spec)
    (hfits : spec.Fits size) :
    (spec.resolve size).1 ≤ (spec.resolve size).2 ∧ (spec.resolve size).2 < size := by
  cases h with
  | full ha hb hle => exact ⟨hle, hfits⟩
  | @openEnded a first ha =>
      have hfits : first < size := hfits
      exact ⟨Nat.le_pred_of_lt hfits, by simp only [resolve]; omega⟩
  | @suffix b count hb hpos =>
      have hfits : 0 < size := hfits
      simp only [resolve]
      omega

end RangeSpec

def Range.bounds (r : Range) : Nat × Nat := (r.start.toNat, r.stop.toNat)

theorem Range.bounds_injective : Function.Injective Range.bounds := by
  intro a b h
  have hstart : a.start = b.start := UInt64.toNat_inj.1 (congrArg Prod.fst h)
  have hstop : a.stop = b.stop := UInt64.toNat_inj.1 (congrArg Prod.snd h)
  cases a
  cases b
  simp_all

/-- The element is of a documented form, an object of `size` bytes has what it asks for, and `r` is
that. -/
def Denotes (size : Nat) (raw : Bytes) (r : Range) : Prop :=
  ∃ spec, Spells (trimSpace raw) spec ∧ spec.Fits size ∧ r.bounds = spec.resolve size

inductive Faulty (size : Nat) (raw : Bytes) : RangeErr → Prop
  | malformed (h : ∀ spec, ¬Spells (trimSpace raw) spec) : Faulty size raw .badRange
  | beyond {spec : RangeSpec} (h : Spells (trimSpace raw) spec) (hfits : ¬spec.Fits size) :
      Faulty size raw .unsatisfiable

/-- The header is `bytes=` and these elements between commas. -/
structure Lists (header : Bytes) (elements : List Bytes) : Prop where
  ne_nil : elements ≠ []
  no_comma : ∀ raw ∈ elements, 44 ∉ raw
  header_eq : header = lit "bytes=" ++ [44].intercalate elements

/-- The error of a header: it is no list, or the first element that fails decides. -/
inductive Refused (size : Nat) (header : Bytes) : RangeErr → Prop
  | noList (h : ∀ elements, ¬Lists header elements) : Refused size header .badRange
  | first {before after : List Bytes} {bad : Bytes} {e : RangeErr}
      (hlist : Lists header (before ++ bad :: after))
      (hbefore : ∀ raw ∈ before, ∃ r, Denotes size raw r) (hbad : Faulty size bad e) :
      Refused size header e

/-! ## One element -/

theorem toNat_size {size : Int64} (h : 0 ≤ size) : size.toUInt64.toNat = size.toInt.toNat := by
  have hnonneg := Int64.le_iff_toInt_le.1 h
  rw [Int64.toInt_zero] at hnonneg
  have hcast := toNat_toUInt64 hnonneg
  omega

theorem eq_zero_iff_toNat {size : Int64} (h : 0 ≤ size) : size = 0 ↔ size.toInt.toNat = 0 := by
  have hnonneg := Int64.le_iff_toInt_le.1 h
  rw [Int64.toInt_zero] at hnonneg
  rw [← Int64.toInt_inj, Int64.toInt_zero]
  omega

/-- What is found when the element asks for `spec`. -/
def Judged (size : Int64) (spec : RangeSpec) (outcome : Except RangeErr Range) : Prop :=
  (spec.Fits size.toInt.toNat → ∃ r, outcome = .ok r ∧ r.bounds = spec.resolve size.toInt.toNat) ∧
    (¬spec.Fits size.toInt.toNat → outcome = .error .unsatisfiable)

section Element

variable {size : Int64} (hsize : 0 ≤ size)

include hsize

/-- What a word is compared with. -/
theorem out_of_bounds_iff (v : UInt64) :
    (size = 0 ∨ v ≥ size.toUInt64) ↔ ¬v.toNat < size.toInt.toNat := by
  rw [eq_zero_iff_toNat hsize, ge_iff_le, UInt64.le_iff_toNat_le, toNat_size hsize]
  omega

theorem toNat_last (hne : size.toInt.toNat ≠ 0) :
    (size.toUInt64 - 1).toNat = size.toInt.toNat - 1 := by
  have hone : (1 : UInt64).toNat = 1 := rfl
  rw [UInt64.toNat_sub_of_le, toNat_size hsize, hone]
  rw [UInt64.le_iff_toNat_le, toNat_size hsize, hone]
  omega

theorem judged_fullRange {a b : Bytes} {first last : Nat} (ha : Decimal64 a first)
    (hb : Decimal64 b last) (hle : first ≤ last) :
    Judged size (.full first last) (fullRange size a b) := by
  obtain ⟨s1, hs1, rfl⟩ := ha.exists_parseUint64
  obtain ⟨s2, hs2, rfl⟩ := hb.exists_parseUint64
  have horder : ¬s1 > s2 := UInt64.not_lt.2 (UInt64.le_iff_toNat_le.2 hle)
  simp only [fullRange, hs1, hs2, if_neg horder, out_of_bounds_iff hsize]
  constructor
  · intro hfits
    exact ⟨{ start := s1, stop := s2 }, if_neg (not_not.2 hfits), rfl⟩
  · exact fun hfits => if_pos hfits

theorem judged_openRange {a : Bytes} {first : Nat} (ha : Decimal64 a first) :
    Judged size (.openEnded first) (openRange size a) := by
  obtain ⟨v, hv, rfl⟩ := ha.exists_parseUint64
  simp only [openRange, hv, out_of_bounds_iff hsize]
  constructor
  · intro hfits
    have hfits : v.toNat < size.toInt.toNat := hfits
    refine ⟨{ start := v, stop := size.toUInt64 - 1 }, if_neg (not_not.2 hfits), ?_⟩
    exact Prod.ext rfl (toNat_last hsize (by omega))
  · exact fun hfits => if_pos hfits

theorem judged_suffixRange {b : Bytes} {count : Nat} (hb : Decimal64 b count) (hpos : 1 ≤ count) :
    Judged size (.suffix count) (suffixRange size b) := by
  obtain ⟨suffix, hsuffix, rfl⟩ := hb.exists_parseUint64
  have hne : suffix ≠ 0 := by
    rintro rfl
    exact absurd hpos (by decide)
  simp only [suffixRange, hsuffix, if_neg hne, eq_zero_iff_toNat hsize]
  constructor
  · intro hfits
    have hfits : 0 < size.toInt.toNat := hfits
    refine ⟨_, if_neg (Nat.ne_of_gt hfits), ?_⟩
    -- A suffix longer than the object is the object.
    have hclamp : (if suffix > size.toUInt64 then size.toUInt64 else suffix).toNat =
        min suffix.toNat size.toInt.toNat := by
      by_cases hlong : suffix > size.toUInt64
      · have hlt := UInt64.lt_iff_toNat_lt.1 hlong
        rw [toNat_size hsize] at hlt
        rw [if_pos hlong, toNat_size hsize, min_eq_right hlt.le]
      · have hle := UInt64.le_iff_toNat_le.1 (UInt64.not_lt.1 hlong)
        rw [toNat_size hsize] at hle
        rw [if_neg hlong, min_eq_left hle]
    apply Prod.ext
    · show (size.toUInt64 - _).toNat = _
      rw [UInt64.toNat_sub_of_le, hclamp, toNat_size hsize]
      · rfl
      · rw [UInt64.le_iff_toNat_le, hclamp, toNat_size hsize]
        exact min_le_right _ _
    · exact toNat_last hsize (Nat.ne_of_gt hfits)
  · intro hfits
    have hfits : ¬0 < size.toInt.toNat := hfits
    exact if_pos (Nat.eq_zero_of_not_pos hfits)

/-- An element of a documented form is resolved, or refused because it does not fit. -/
theorem parseSpec_of_spells {raw : Bytes} {spec : RangeSpec} (h : Spells (trimSpace raw) spec) :
    Judged size spec (parseSpec size raw) := by
  have hdash : ∀ {a : Bytes} {n : Nat}, Decimal64 a n → (45 : UInt8) ∉ a := by
    intro a n ha hmem
    exact absurd (ha.digits 45 hmem).1 (by decide)
  unfold parseSpec
  generalize trimSpace raw = s at h
  cases h with
  | @full a b first last ha hb hle =>
      have hcut := cutAt_append (hdash ha) b
      simpa [hcut, ha.ne_nil, hb.ne_nil] using judged_fullRange hsize ha hb hle
  | @openEnded a first ha =>
      have hcut := cutAt_append (hdash ha) []
      simpa [hcut, ha.ne_nil] using judged_openRange hsize ha
  | @suffix b count hb hpos =>
      have hcut : cutAt 45 (45 :: b) = some ([], b) := cutAt_append List.not_mem_nil b
      simpa [hcut, hb.ne_nil] using judged_suffixRange hsize hb hpos

end Element

theorem suffixRange_malformed (size : Int64) {b : Bytes} (h : ∀ spec, ¬Spells (45 :: b) spec) :
    suffixRange size b = .error .badRange := by
  unfold suffixRange
  cases hread : parseUint64 b with
  | none => rfl
  | some suffix =>
      by_cases hzero : suffix = 0
      · exact if_pos hzero
      · have hpos : 1 ≤ suffix.toNat :=
          Nat.one_le_iff_ne_zero.2 fun hEq => hzero (UInt64.toNat_inj.1 hEq)
        exact absurd (.suffix (parseUint64_eq_some_iff.1 hread) hpos) (h _)

theorem openRange_malformed (size : Int64) {a : Bytes} (h : ∀ spec, ¬Spells (a ++ [45]) spec) :
    openRange size a = .error .badRange := by
  unfold openRange
  cases hread : parseUint64 a with
  | none => rfl
  | some v => exact absurd (.openEnded (parseUint64_eq_some_iff.1 hread)) (h _)

theorem fullRange_malformed (size : Int64) {a b : Bytes} (h : ∀ spec, ¬Spells (a ++ 45 :: b) spec) :
    fullRange size a b = .error .badRange := by
  unfold fullRange
  cases hfirst : parseUint64 a with
  | none => rfl
  | some s1 =>
      cases hlast : parseUint64 b with
      | none => rfl
      | some s2 =>
          by_cases horder : s1 > s2
          · exact if_pos horder
          · have hle := UInt64.le_iff_toNat_le.1 (UInt64.not_lt.1 horder)
            exact absurd (.full (parseUint64_eq_some_iff.1 hfirst)
              (parseUint64_eq_some_iff.1 hlast) hle) (h _)

/-- An element of no documented form is malformed. -/
theorem parseSpec_of_not_spells (size : Int64) {raw : Bytes}
    (h : ∀ spec, ¬Spells (trimSpace raw) spec) : parseSpec size raw = .error .badRange := by
  unfold parseSpec
  generalize trimSpace raw = s at h
  by_cases hs : s = []
  · exact if_pos hs
  · simp only [if_neg hs]
    cases hcut : cutAt 45 s with
    | none => rfl
    | some parts =>
        obtain ⟨a, b⟩ := parts
        obtain ⟨rfl, -⟩ := cutAt_eq_some hcut
        by_cases ha : a = []
        · subst ha
          by_cases hb : b = []
          · exact if_pos ⟨rfl, hb⟩
          · simpa [hb] using suffixRange_malformed size h
        · by_cases hb : b = []
          · subst hb
            simpa [ha] using openRange_malformed size h
          · simpa [ha, hb] using fullRange_malformed size h

section Loop

variable {size : Int64} (hsize : 0 ≤ size)

include hsize

theorem parseSpec_eq_ok_iff {raw : Bytes} {r : Range} :
    parseSpec size raw = .ok r ↔ Denotes size.toInt.toNat raw r := by
  constructor
  · intro h
    by_cases hform : ∃ spec, Spells (trimSpace raw) spec
    · obtain ⟨spec, hspells⟩ := hform
      have hjudged := parseSpec_of_spells hsize hspells
      by_cases hfits : spec.Fits size.toInt.toNat
      · obtain ⟨r', hr', hbounds⟩ := hjudged.1 hfits
        cases hr'.symm.trans h
        exact ⟨spec, hspells, hfits, hbounds⟩
      · cases (hjudged.2 hfits).symm.trans h
    · cases (parseSpec_of_not_spells size (not_exists.1 hform)).symm.trans h
  · rintro ⟨spec, hspells, hfits, hbounds⟩
    obtain ⟨r', hr', hbounds'⟩ := (parseSpec_of_spells hsize hspells).1 hfits
    rw [hr', Range.bounds_injective (hbounds.trans hbounds'.symm)]

theorem parseSpec_eq_error_iff {raw : Bytes} {e : RangeErr} :
    parseSpec size raw = .error e ↔ Faulty size.toInt.toNat raw e := by
  constructor
  · intro h
    by_cases hform : ∃ spec, Spells (trimSpace raw) spec
    · obtain ⟨spec, hspells⟩ := hform
      have hjudged := parseSpec_of_spells hsize hspells
      by_cases hfits : spec.Fits size.toInt.toNat
      · obtain ⟨r', hr', -⟩ := hjudged.1 hfits
        cases hr'.symm.trans h
      · cases (hjudged.2 hfits).symm.trans h
        exact .beyond hspells hfits
    · cases (parseSpec_of_not_spells size (not_exists.1 hform)).symm.trans h
      exact .malformed (not_exists.1 hform)
  · intro h
    cases h with
    | malformed h => exact parseSpec_of_not_spells size h
    | beyond h hfits => exact (parseSpec_of_spells hsize h).2 hfits

theorem parseSpecs_eq_ok_iff {elements : List Bytes} {ranges : List Range} :
    parseSpecs size elements = .ok ranges ↔
      List.Forall₂ (Denotes size.toInt.toNat) elements ranges := by
  induction elements generalizing ranges with
  | nil =>
      rw [parseSpecs, List.forall₂_nil_left_iff]
      exact ⟨fun h => (Except.ok.inj h).symm, fun h => congrArg _ h.symm⟩
  | cons raw rest ih =>
      rw [List.forall₂_cons_left_iff, parseSpecs]
      constructor
      · intro h
        cases hspec : parseSpec size raw with
        | error e => simp [hspec] at h
        | ok r =>
            cases hrest : parseSpecs size rest with
            | error e => simp [hspec, hrest] at h
            | ok out =>
                simp only [hspec, hrest, Except.ok.injEq] at h
                exact ⟨r, out, (parseSpec_eq_ok_iff hsize).1 hspec, ih.1 hrest, h.symm⟩
      · rintro ⟨r, out, hr, hout, rfl⟩
        simp only [(parseSpec_eq_ok_iff hsize).2 hr, ih.2 hout]

/-- The first element that fails ends the loop. -/
theorem parseSpecs_eq_error_iff {elements : List Bytes} {e : RangeErr} :
    parseSpecs size elements = .error e ↔
      ∃ before bad after, elements = before ++ bad :: after ∧
        (∀ raw ∈ before, ∃ r, Denotes size.toInt.toNat raw r) ∧
        Faulty size.toInt.toNat bad e := by
  induction elements with
  | nil =>
      constructor
      · intro h
        cases h
      · rintro ⟨before, bad, after, hEq, -⟩
        simp at hEq
  | cons raw rest ih =>
      rw [parseSpecs]
      constructor
      -- The first specification that fails decides the error.
      · intro h
        cases hspec : parseSpec size raw with
        | error e' =>
            simp only [hspec, Except.error.injEq] at h
            subst h
            exact ⟨[], raw, rest, rfl, nofun, (parseSpec_eq_error_iff hsize).1 hspec⟩
        | ok r =>
            cases hrest : parseSpecs size rest with
            | ok out => simp [hspec, hrest] at h
            | error e' =>
                simp only [hspec, hrest, Except.error.injEq] at h
                subst h
                obtain ⟨before, bad, after, rfl, hbefore, hbad⟩ := ih.1 hrest
                refine ⟨raw :: before, bad, after, rfl, ?_, hbad⟩
                exact List.forall_mem_cons.2 ⟨⟨r, (parseSpec_eq_ok_iff hsize).1 hspec⟩, hbefore⟩
      · rintro ⟨before, bad, after, hEq, hbefore, hbad⟩
        cases before with
        | nil =>
            obtain ⟨rfl, rfl⟩ := List.cons.inj hEq
            simp only [(parseSpec_eq_error_iff hsize).2 hbad]
        | cons first before =>
            obtain ⟨rfl, rfl⟩ := List.cons.inj hEq
            obtain ⟨⟨r, hr⟩, hbefore⟩ := List.forall_mem_cons.1 hbefore
            have hrest := ih.2 ⟨before, bad, after, rfl, hbefore, hbad⟩
            simp only [(parseSpec_eq_ok_iff hsize).2 hr, hrest]

end Loop

/-! ## The header -/

/-- A list gives the loop its elements. -/
theorem parseRange_of_lists {header : Bytes} {elements : List Bytes} (h : Lists header elements)
    {size : Int64} (hsize : 0 ≤ size) : parseRange header size = parseSpecs size elements := by
  have hnonneg : ¬size < 0 := Int64.not_lt.2 hsize
  have hstarts : (lit "bytes=").isPrefixOf header = true := by
    rw [h.header_eq]
    exact List.isPrefixOf_iff_prefix.2 (List.prefix_append _ _)
  have hbody : header.drop (lit "bytes=").length = [44].intercalate elements := by
    rw [h.header_eq]
    exact List.drop_left
  have hsplit : ([44].intercalate elements).splitOn 44 = elements :=
    List.splitOn_intercalate 44 h.no_comma h.ne_nil
  simp only [parseRange, if_neg hnonneg, hstarts, not_true_eq_false, if_false, hbody]
  by_cases hempty : [44].intercalate elements = []
  · -- The text between no commas is one empty element.
    have helements : elements = [[]] := by
      rw [← hsplit, hempty]
      rfl
    rw [if_pos hempty, helements]
    rfl
  · rw [if_neg hempty, hsplit]
    cases hspecs : parseSpecs size elements with
    | error e => rfl
    | ok out =>
        cases out with
        | nil =>
            have hnil := (parseSpecs_eq_ok_iff hsize).1 hspecs
            exact absurd (List.forall₂_nil_right_iff.1 hnil) h.ne_nil
        | cons r out => rfl

/-- Whatever follows `bytes=` is a list. -/
theorem parseRange_of_not_lists {header : Bytes} (h : ∀ elements, ¬Lists header elements)
    {size : Int64} (hsize : 0 ≤ size) : parseRange header size = .error .badRange := by
  have hnonneg : ¬size < 0 := Int64.not_lt.2 hsize
  have hstarts : ¬(lit "bytes=").isPrefixOf header = true := by
    intro hprefix
    obtain ⟨body, hbody⟩ := List.isPrefixOf_iff_prefix.1 hprefix
    apply h (body.splitOn 44)
    exact ⟨List.splitOn_ne_nil _ _, fun raw hraw => not_mem_of_mem_splitOn hraw,
      by rw [← hbody, List.intercalate_splitOn]⟩
  simp only [parseRange, if_neg hnonneg, hstarts]
  rfl

theorem Denotes.inside {size : Nat} {raw : Bytes} {r : Range} (h : Denotes size raw r) :
    r.start ≤ r.stop ∧ r.stop.toNat < size := by
  obtain ⟨spec, hspells, hfits, hbounds⟩ := h
  have hresolve := RangeSpec.resolve_bounds hspells hfits
  rw [← hbounds] at hresolve
  exact ⟨UInt64.le_iff_toNat_le.2 hresolve.1, hresolve.2⟩

/-- What the elements denote are ranges of the object. -/
theorem inside_of_forall₂ {size : Nat} {elements : List Bytes} {ranges : List Range}
    (h : List.Forall₂ (Denotes size) elements ranges) :
    ∀ r ∈ ranges, r.start ≤ r.stop ∧ r.stop.toNat < size := by
  induction h with
  | nil => exact nofun
  | cons hdenotes _ ih => exact List.forall_mem_cons.2 ⟨hdenotes.inside, ih⟩

theorem parseRange_eq_ok_iff {header : Bytes} {size : Int64} (hsize : 0 ≤ size)
    {ranges : List Range} :
    parseRange header size = .ok ranges ↔
      ∃ elements, Lists header elements ∧
        List.Forall₂ (Denotes size.toInt.toNat) elements ranges := by
  constructor
  · intro h
    by_cases hlist : ∃ elements, Lists header elements
    · obtain ⟨elements, hlist⟩ := hlist
      rw [parseRange_of_lists hlist hsize] at h
      exact ⟨elements, hlist, (parseSpecs_eq_ok_iff hsize).1 h⟩
    · cases (parseRange_of_not_lists (not_exists.1 hlist) hsize).symm.trans h
  · rintro ⟨elements, hlist, hall⟩
    rw [parseRange_of_lists hlist hsize]
    exact (parseSpecs_eq_ok_iff hsize).2 hall

theorem parseRange_eq_error_iff {header : Bytes} {size : Int64} (hsize : 0 ≤ size)
    {e : RangeErr} : parseRange header size = .error e ↔ Refused size.toInt.toNat header e := by
  constructor
  · intro h
    by_cases hlist : ∃ elements, Lists header elements
    · obtain ⟨elements, hlist⟩ := hlist
      rw [parseRange_of_lists hlist hsize] at h
      obtain ⟨before, bad, after, rfl, hbefore, hbad⟩ := (parseSpecs_eq_error_iff hsize).1 h
      exact .first hlist hbefore hbad
    · cases (parseRange_of_not_lists (not_exists.1 hlist) hsize).symm.trans h
      exact .noList (not_exists.1 hlist)
  · intro h
    cases h with
    | noList h => exact parseRange_of_not_lists h hsize
    | first hlist hbefore hbad =>
        rw [parseRange_of_lists hlist hsize]
        exact (parseSpecs_eq_error_iff hsize).2 ⟨_, _, _, rfl, hbefore, hbad⟩

/-- A negative size is refused. -/
theorem nonneg_of_parseRange {header : Bytes} {size : Int64} {ranges : List Range}
    (h : parseRange header size = .ok ranges) : 0 ≤ size := by
  unfold parseRange at h
  by_cases hsize : size < 0
  · rw [if_pos hsize] at h
    cases h
  · exact Int64.not_lt.1 hsize

theorem ne_nil_of_parseRange {header : Bytes} {size : Int64} {ranges : List Range}
    (h : parseRange header size = .ok ranges) : ranges ≠ [] := by
  obtain ⟨elements, hlist, hall⟩ := (parseRange_eq_ok_iff (nonneg_of_parseRange h)).1 h
  rintro rfl
  exact hlist.ne_nil (List.forall₂_nil_right_iff.1 hall)

/-- Whatever `ParseRange` returns is inside the object. -/
theorem parseRange_inside {header : Bytes} {size : Int64} {ranges : List Range}
    (h : parseRange header size = .ok ranges) :
    ∀ r ∈ ranges, r.start ≤ r.stop ∧ r.stop.toNat < size.toInt.toNat := by
  obtain ⟨elements, -, hall⟩ := (parseRange_eq_ok_iff (nonneg_of_parseRange h)).1 h
  exact inside_of_forall₂ hall

/-- `ParseRange` succeeds on exactly the lists of the grammar, with one range for each element, and
otherwise the first element that fails decides the error. -/
theorem parseRange_grammar (header : Bytes) (size : Int64) (hsize : 0 ≤ size) :
    (∀ ranges, parseRange header size = .ok ranges ↔
      ∃ elements, Lists header elements ∧
        List.Forall₂ (Denotes size.toInt.toNat) elements ranges) ∧
      (∀ ranges, parseRange header size = .ok ranges →
        ∀ r ∈ ranges, r.start ≤ r.stop ∧ r.stop.toNat < size.toInt.toNat) ∧
      ∀ e, parseRange header size = .error e ↔ Refused size.toInt.toNat header e :=
  ⟨fun _ => parseRange_eq_ok_iff hsize, fun _ => parseRange_inside,
    fun _ => parseRange_eq_error_iff hsize⟩

/-- Three forms, one with white space around it, on an object of a hundred bytes. -/
def sampleHeader : Bytes := lit "bytes= 007-9 ,90-,-500"

/-- The last element of the second header is malformed, the one before it does not fit. -/
theorem parseRange_grammar_sample :
    (∃ elements, Lists sampleHeader elements ∧
      List.Forall₂ (Denotes 100) elements [⟨7, 9⟩, ⟨90, 99⟩, ⟨0, 99⟩]) ∧
      Refused 100 (lit "bytes=0-9,100-200,abc") .unsatisfiable := by
  have hrun : parseRange sampleHeader 100 = .ok [⟨7, 9⟩, ⟨90, 99⟩, ⟨0, 99⟩] := by decide +kernel
  have herror : parseRange (lit "bytes=0-9,100-200,abc") 100 = .error .unsatisfiable := by
    decide +kernel
  exact ⟨((parseRange_grammar sampleHeader 100 (by decide)).1 _).1 hrun,
    ((parseRange_grammar (lit "bytes=0-9,100-200,abc") 100 (by decide)).2.2 _).1 herror⟩

end Gateway
end OpenWeights
