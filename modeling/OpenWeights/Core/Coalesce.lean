import OpenWeights.Lib.Intervals
import OpenWeights.Core.ShardParse

/-!
# Coalesce — the byte ranges a reconstruction fetches

Model of `openweights-cas-core/src/coalesce.rs`: the terms of a file, grouped by xorb, become minimal
covering byte ranges.  Term rows hold END-EXCLUSIVE ranges; the output is END-INCLUSIVE, and this is
where one is turned into the other.  `e - 1` wraps, as it does in a release build.  The ranges hold
exactly the bytes of the terms, and no fewer ranges do (`coalesceTermsByXorb_exact`).
-/

namespace OpenWeights
namespace Core

open Lib Db

/-- `as u64` of an `i64` column. -/
abbrev u64 (n : Int) : UInt64 := UInt64.ofInt n

/-- `as u32` of an `i64` column. -/
abbrev u32 (n : Int) : UInt32 := UInt32.ofInt n

theorem toNat_u64 {n : Nat} (hn : n < 2 ^ 64) : (u64 (n : Int)).toNat = n := by
  have hmod : ((n : Int) % 2 ^ 64).toNat = n % 2 ^ 64 := by
    rw [show (2 ^ 64 : Int) = ((2 ^ 64 : Nat) : Int) from rfl, ← Int.natCast_mod, Int.toNat_natCast]
  rw [u64, UInt64.ofInt, hmod, UInt64.toNat_ofNat', Nat.mod_mod, Nat.mod_eq_of_lt hn]

theorem u32_toNat (v : UInt32) : u32 (v.toNat : Int) = v := by
  have hmod : ((v.toNat : Int) % 2 ^ 32).toNat = v.toNat % 2 ^ 32 := by
    rw [show (2 ^ 32 : Int) = ((2 ^ 32 : Nat) : Int) from rfl, ← Int.natCast_mod, Int.toNat_natCast]
  rw [u32, UInt32.ofInt, hmod, Nat.mod_eq_of_lt v.toNat_lt, UInt32.ofNat_toNat]

structure ByteRange where
  start : UInt64
  endInclusive : UInt64
  deriving DecidableEq, Repr

/-- `sort_unstable_by_key(|&(s, _)| s)`: some arrangement of the spans by their start. -/
structure UnstableSort where
  sort : List (UInt64 × UInt64) → List (UInt64 × UInt64)
  perm : ∀ spans, (sort spans).Perm spans
  sorted : ∀ spans, SortedByStart (sort spans)

def sortByStart : UnstableSort where
  sort spans := spans.insertionSort fun a b => a.1 ≤ b.1
  perm spans := List.perm_insertionSort _ spans
  sorted spans := by
    have : Std.Total fun a b : UInt64 × UInt64 => a.1 ≤ b.1 := ⟨fun a b => le_total a.1 b.1⟩
    have : IsTrans (UInt64 × UInt64) fun a b => a.1 ≤ b.1 := ⟨fun _ _ _ => le_trans⟩
    exact List.pairwise_insertionSort _ spans

def xorbKeys (terms : List Term) : List Hash :=
  ((terms.map Term.xorbHash).dedup).insertionSort hashLe

def termsOn (terms : List Term) (xorbHash : Hash) : List Term :=
  terms.filter fun t => t.xorbHash = xorbHash

/-- The stored byte range of a term, END-EXCLUSIVE. -/
def byteSpan (t : Term) : UInt64 × UInt64 :=
  (u64 t.xorbByteStart, u64 t.xorbByteEnd)

/-- Step 2 for one group: sort, merge, convert. -/
def coalesceSpans (order : UnstableSort) (spans : List (UInt64 × UInt64)) : List ByteRange :=
  (mergeSpans (order.sort spans)).map fun m =>
    -- the one conversion from END-EXCLUSIVE to END-INCLUSIVE
    { start := m.1
      endInclusive := m.2 - 1 }

def coalesceTermsByXorb (order : UnstableSort) (terms : List Term) :
    List (Hash × List ByteRange) :=
  (xorbKeys terms).map fun h => (h, coalesceSpans order ((termsOn terms h).map byteSpan))

/-! ## Groups -/

theorem mem_xorbKeys {terms : List Term} {h : Hash} :
    h ∈ xorbKeys terms ↔ ∃ t ∈ terms, t.xorbHash = h := by
  rw [xorbKeys, List.mem_insertionSort, List.mem_dedup, List.mem_map]

theorem nodup_xorbKeys (terms : List Term) : (xorbKeys terms).Nodup :=
  (List.perm_insertionSort hashLe _).nodup_iff.2 (List.nodup_dedup _)

theorem mem_termsOn {terms : List Term} {h : Hash} {t : Term} :
    t ∈ termsOn terms h ↔ t ∈ terms ∧ t.xorbHash = h := by
  simp [termsOn]

/-- A group is never empty. -/
theorem coalesceSpans_ne_nil (order : UnstableSort) {terms : List Term} {h : Hash}
    (hh : h ∈ xorbKeys terms) : coalesceSpans order ((termsOn terms h).map byteSpan) ≠ [] := by
  obtain ⟨t, ht, hEq⟩ := mem_xorbKeys.1 hh
  have hmem : byteSpan t ∈ order.sort ((termsOn terms h).map byteSpan) :=
    (order.perm _).mem_iff.2 (List.mem_map_of_mem (mem_termsOn.2 ⟨ht, hEq⟩))
  have hne := mergeSpans_ne_nil (List.ne_nil_of_mem hmem)
  simpa [coalesceSpans] using hne

/-! ## Merged ranges

A merged range is END-INCLUSIVE; its span undoes the conversion.  Since both `- 1` and `+ 1` wrap,
that holds for every row. -/

def ByteRange.span (br : ByteRange) : UInt64 × UInt64 := (br.start, br.endInclusive + 1)

/-- The exclusive end is not zero, so `end_inclusive + 1` has not wrapped. -/
theorem ByteRange.toNat_span_end {br : ByteRange} (hpos : 0 < br.span.2.toNat) :
    br.endInclusive.toNat + 1 = br.span.2.toNat := by
  have hwrap : br.span.2.toNat = (br.endInclusive.toNat + 1) % 2 ^ 64 := UInt64.toNat_add _ _
  have hlt := br.endInclusive.toNat_lt
  omega

/-- The range is one of an object of `size` bytes, and `end_inclusive + 1` does not wrap. -/
structure ByteRange.Satisfiable (size : Nat) (br : ByteRange) : Prop where
  nonempty : br.start ≤ br.endInclusive
  noWrap : br.endInclusive.toNat + 1 = (br.endInclusive + 1).toNat
  bounded : br.endInclusive.toNat < size

theorem map_span_coalesceSpans (order : UnstableSort) (spans : List (UInt64 × UInt64)) :
    (coalesceSpans order spans).map ByteRange.span = mergeSpans (order.sort spans) := by
  rw [coalesceSpans, List.map_map]
  have hid : ∀ m : UInt64 × UInt64,
      (ByteRange.span ∘ fun m => { start := m.1, endInclusive := m.2 - 1 }) m = m := by
    intro m
    simp [ByteRange.span]
  rw [funext hid, List.map_id'']
  exact fun _ => rfl

section Spans

variable {order : UnstableSort} {spans : List (UInt64 × UInt64)}

theorem span_mem_mergeSpans {br : ByteRange} (hbr : br ∈ coalesceSpans order spans) :
    br.span ∈ mergeSpans (order.sort spans) := by
  rw [← map_span_coalesceSpans]
  exact List.mem_map_of_mem hbr

variable (hwell : ∀ span ∈ spans, span.1 < span.2)

include hwell

theorem wellFormed_sort : ∀ span ∈ order.sort spans, span.1 ≤ span.2 :=
  fun span hspan => le_of_lt (hwell span ((order.perm spans).mem_iff.1 hspan))

/-- A merged range starts and ends where spans inside it do. -/
theorem coalesceSpans_ends {br : ByteRange} (hbr : br ∈ coalesceSpans order spans) :
    (∃ span ∈ spans, span.1 = br.span.1 ∧ Within span br.span) ∧
      ∃ span ∈ spans, span.2 = br.span.2 ∧ Within span br.span := by
  obtain ⟨-, ⟨a, ha, hastart, haend⟩, ⟨b, hb, hbstart, hbend⟩⟩ :=
    mergeSpans_ends (wellFormed_sort hwell) (order.sorted spans) _ (span_mem_mergeSpans hbr)
  exact ⟨⟨a, (order.perm spans).mem_iff.1 ha, hastart, hastart.ge, haend⟩,
    ⟨b, (order.perm spans).mem_iff.1 hb, hbend, hbstart, hbend.le⟩⟩

/-- Spans of an object merge to ranges of it. -/
theorem coalesceSpans_satisfiable {size : Nat} (hsize : ∀ span ∈ spans, span.2.toNat ≤ size)
    {br : ByteRange} (hbr : br ∈ coalesceSpans order spans) : br.Satisfiable size := by
  obtain ⟨-, span, hspan, hend, hstart, -⟩ := coalesceSpans_ends hwell hbr
  have hstart : br.start ≤ span.1 := hstart
  have hlt := UInt64.lt_iff_toNat_lt.1 (lt_of_le_of_lt hstart (hwell span hspan))
  -- The exclusive end is the end of a span that is not empty, so it is not zero.
  have hlast := br.toNat_span_end (by rw [← hend]; omega)
  have hle := hsize span hspan
  rw [← hend] at hlast
  refine ⟨?_, ?_, ?_⟩
  · rw [UInt64.le_iff_toNat_le]
    omega
  · rw [hlast, hend]
    rfl
  · omega

/-- Every span lies in exactly one merged range. -/
theorem filter_within_coalesceSpans (order : UnstableSort) {span : UInt64 × UInt64}
    (hspan : span ∈ spans) :
    ∃ br ∈ coalesceSpans order spans, Within span br.span ∧
      (coalesceSpans order spans).filter (fun br => decide (Within span br.span)) = [br] := by
  obtain ⟨m, -, hwithin, hfilter⟩ := filter_within_mergeSpans (wellFormed_sort hwell)
    (order.sorted spans) ((order.perm spans).mem_iff.2 hspan)
  rw [← map_span_coalesceSpans, List.filter_map] at hfilter
  obtain ⟨br, hbr, rfl⟩ := List.map_eq_singleton_iff.1 hfilter
  have hmem : br ∈ (coalesceSpans order spans).filter
      (fun br => decide (Within span br.span)) := by
    exact hbr ▸ List.mem_singleton_self br
  exact ⟨br, (List.mem_filter.1 hmem).1, hwithin, hbr⟩

end Spans

/-! ## Positions

The ranges are exact, and as few as there can be: over the natural numbers, where nothing wraps, they
are the merged spans of the terms, and these are determined by the positions they cover. -/

/-- The byte columns of a row: `i64`s, of a range that is not empty. -/
structure ByteColumns (t : Term) : Prop where
  nonneg : 0 ≤ t.xorbByteStart
  nonempty : t.xorbByteStart < t.xorbByteEnd
  bounded : t.xorbByteEnd < 2 ^ 63

def positions (ranges : List ByteRange) : Set Nat :=
  {x | ∃ br ∈ ranges, br.start.toNat ≤ x ∧ x ≤ br.endInclusive.toNat}

def termPositions (terms : List Term) (xorbHash : Hash) : Set Nat :=
  {x | ∃ t ∈ terms, t.xorbHash = xorbHash ∧ t.xorbByteStart ≤ x ∧ x < t.xorbByteEnd}

/-- The ranges of a xorb: in order, with gaps between them, and exactly what its terms take. -/
structure Coalesced (terms : List Term) (xorbHash : Hash) (ranges : List ByteRange) : Prop where
  nonempty : ∀ br ∈ ranges, br.start ≤ br.endInclusive
  sorted : ranges.Pairwise fun prev next => prev.start < next.start
  apart : ranges.Pairwise fun prev next => prev.endInclusive.toNat + 1 < next.start.toNat
  exact : positions ranges = termPositions terms xorbHash
  least : ∀ ranges', positions ranges' = termPositions terms xorbHash →
    ranges.length ≤ ranges'.length

def ByteRange.bounds (br : ByteRange) : Nat × Nat := (br.start.toNat, br.endInclusive.toNat + 1)

def natSpan : UInt64 × UInt64 → Nat × Nat := Prod.map UInt64.toNat UInt64.toNat

theorem ByteRange.bounds_injective : Function.Injective ByteRange.bounds := by
  intro a b h
  have hstart : a.start = b.start := UInt64.toNat_inj.1 (congrArg Prod.fst h)
  have hend : a.endInclusive = b.endInclusive :=
    UInt64.toNat_inj.1 (Nat.succ_injective (congrArg Prod.snd h))
  cases a
  cases b
  simp_all

theorem covered_map_bounds (ranges : List ByteRange) :
    covered (ranges.map ByteRange.bounds) = positions ranges := by
  ext x
  simp [covered, positions, ByteRange.bounds]

theorem natSpan_byteSpan {t : Term} (ht : ByteColumns t) :
    natSpan (byteSpan t) = (t.xorbByteStart.toNat, t.xorbByteEnd.toNat) := by
  obtain ⟨hnonneg, hnonempty, hbounded⟩ := ht
  have hcast : ∀ n : Int, 0 ≤ n → n < 2 ^ 63 → (u64 n).toNat = n.toNat := by
    intro n hn hlt
    obtain ⟨k, rfl⟩ := Int.eq_ofNat_of_zero_le hn
    exact toNat_u64 (by omega)
  exact Prod.ext (hcast _ hnonneg (by omega)) (hcast _ (by omega) hbounded)

theorem covered_termsOn {terms : List Term} (hterms : ∀ t ∈ terms, ByteColumns t) (h : Hash) :
    covered (((termsOn terms h).map byteSpan).map natSpan) = termPositions terms h := by
  ext x
  rw [List.map_map]
  constructor
  · rintro ⟨span, hspan, hin⟩
    obtain ⟨t, ht, rfl⟩ := List.mem_map.1 hspan
    obtain ⟨hmem, hxorb⟩ := mem_termsOn.1 ht
    have hcolumns := hterms t hmem
    rw [Function.comp_apply, natSpan_byteSpan hcolumns] at hin
    have hnonneg := hcolumns.nonneg
    exact ⟨t, hmem, hxorb, by omega, by omega⟩
  · rintro ⟨t, hmem, hxorb, hstart, hend⟩
    refine ⟨_, List.mem_map_of_mem (mem_termsOn.2 ⟨hmem, hxorb⟩), ?_⟩
    rw [Function.comp_apply, natSpan_byteSpan (hterms t hmem)]
    exact ⟨by omega, by omega⟩

theorem strictMono_toNat : StrictMono UInt64.toNat := fun _ _ h => UInt64.lt_iff_toNat_lt.1 h

theorem sortedByStart_map_natSpan (order : UnstableSort) (spans : List (UInt64 × UInt64)) :
    SortedByStart ((order.sort spans).map natSpan) :=
  List.pairwise_map.2 ((order.sorted spans).imp fun hle => strictMono_toNat.monotone hle)

section Positions

variable {spans : List (UInt64 × UInt64)} (hwell : ∀ span ∈ spans, span.1 < span.2)

include hwell

/-- Over the natural numbers the ranges are the merged spans. -/
theorem map_bounds_coalesceSpans (order : UnstableSort) :
    (coalesceSpans order spans).map ByteRange.bounds =
      mergeSpans ((order.sort spans).map natSpan) := by
  have hbounds : ∀ br ∈ coalesceSpans order spans, br.bounds = natSpan br.span := by
    intro br hbr
    obtain ⟨-, span, hspan, hend, -⟩ := coalesceSpans_ends hwell hbr
    have hpos : 0 < br.span.2.toNat := by
      have hlt := UInt64.lt_iff_toNat_lt.1 (hwell span hspan)
      rw [← hend]
      omega
    exact Prod.ext rfl (br.toNat_span_end hpos)
  calc
    (coalesceSpans order spans).map ByteRange.bounds
        = (coalesceSpans order spans).map (natSpan ∘ ByteRange.span) :=
      List.map_congr_left hbounds
    _ = (mergeSpans (order.sort spans)).map natSpan := by
      rw [← map_span_coalesceSpans, List.map_map]
    _ = mergeSpans ((order.sort spans).map natSpan) := (mergeSpans_map strictMono_toNat _).symm

theorem separated_bounds (order : UnstableSort) :
    Separated ((coalesceSpans order spans).map ByteRange.bounds) := by
  rw [map_bounds_coalesceSpans hwell]
  apply separated_mergeSpans
  · intro span hspan
    obtain ⟨s, hs, rfl⟩ := List.mem_map.1 hspan
    exact strictMono_toNat (hwell s ((order.perm spans).mem_iff.1 hs))
  · exact sortedByStart_map_natSpan order spans

theorem positions_coalesceSpans (order : UnstableSort) :
    positions (coalesceSpans order spans) = covered (spans.map natSpan) := by
  rw [← covered_map_bounds, map_bounds_coalesceSpans hwell,
    covered_mergeSpans (sortedByStart_map_natSpan order spans)]
  exact covered_eq_of_perm ((order.perm spans).map natSpan)

end Positions

/-- The ranges do not depend on the order of the spans, nor on how the sort arranges equal starts. -/
theorem coalesceSpans_eq_of_perm (order order' : UnstableSort)
    {spans spans' : List (UInt64 × UInt64)} (hwell : ∀ span ∈ spans, span.1 < span.2)
    (hperm : spans'.Perm spans) :
    coalesceSpans order' spans' = coalesceSpans order spans := by
  have hwell' : ∀ span ∈ spans', span.1 < span.2 :=
    fun span hspan => hwell span (hperm.mem_iff.1 hspan)
  apply List.map_injective_iff.2 ByteRange.bounds_injective
  apply (separated_bounds hwell' order').eq_of_covered (separated_bounds hwell order)
  rw [covered_map_bounds, covered_map_bounds, positions_coalesceSpans hwell',
    positions_coalesceSpans hwell]
  exact covered_eq_of_perm (hperm.map natSpan)

/-- Distinct keys have one sorted order. -/
theorem xorbKeys_eq_of_perm {terms terms' : List Term} (hperm : terms'.Perm terms) :
    xorbKeys terms' = xorbKeys terms := by
  have hsame := (hperm.map Term.xorbHash).dedup
  apply List.Perm.eq_of_pairwise' (List.pairwise_insertionSort hashLe _)
    (List.pairwise_insertionSort hashLe _)
  exact ((List.perm_insertionSort hashLe _).trans hsame).trans
    (List.perm_insertionSort hashLe _).symm

section Terms

variable {terms : List Term} (hterms : ∀ t ∈ terms, ByteColumns t)

include hterms

theorem byteSpan_lt (h : Hash) : ∀ span ∈ (termsOn terms h).map byteSpan, span.1 < span.2 := by
  intro span hspan
  obtain ⟨t, ht, rfl⟩ := List.mem_map.1 hspan
  have hcolumns := hterms t (mem_termsOn.1 ht).1
  have hEq := natSpan_byteSpan hcolumns
  have hstart : (byteSpan t).1.toNat = t.xorbByteStart.toNat := congrArg Prod.fst hEq
  have hend : (byteSpan t).2.toNat = t.xorbByteEnd.toNat := congrArg Prod.snd hEq
  have hnonneg := hcolumns.nonneg
  have hnonempty := hcolumns.nonempty
  rw [UInt64.lt_iff_toNat_lt]
  omega

theorem coalesced_coalesceSpans (order : UnstableSort) (h : Hash) :
    Coalesced terms h (coalesceSpans order ((termsOn terms h).map byteSpan)) := by
  have hwell := byteSpan_lt hterms h
  have hseparated := separated_bounds hwell order
  have hexact : positions (coalesceSpans order ((termsOn terms h).map byteSpan)) =
      termPositions terms h := by
    rw [positions_coalesceSpans hwell, covered_termsOn hterms]
  have hnonempty : ∀ br ∈ coalesceSpans order ((termsOn terms h).map byteSpan),
      br.start.toNat ≤ br.endInclusive.toNat :=
    fun br hbr => Nat.lt_succ_iff.1 (hseparated.nonempty _ (List.mem_map_of_mem hbr))
  have hgap := List.pairwise_map.1 hseparated.gap
  refine ⟨fun br hbr => UInt64.le_iff_toNat_le.2 (hnonempty br hbr), ?_, hgap, hexact, ?_⟩
  · refine hgap.imp_of_mem ?_
    intro prev next hprev _ hlt
    have hle := hnonempty prev hprev
    have hlt : prev.endInclusive.toNat + 1 < next.start.toNat := hlt
    rw [UInt64.lt_iff_toNat_lt]
    omega
  · intro ranges' hsame
    rw [← hexact, ← covered_map_bounds, ← covered_map_bounds] at hsame
    simpa using hseparated.length_le hsame

end Terms

theorem map_fst_coalesceTermsByXorb (order : UnstableSort) (terms : List Term) :
    (coalesceTermsByXorb order terms).map Prod.fst = xorbKeys terms := by
  rw [coalesceTermsByXorb, List.map_map]
  exact List.map_id _

/-- Coalescing is exact, minimal and free of the order of the terms. -/
theorem coalesceTermsByXorb_exact (order : UnstableSort) (terms : List Term)
    (hterms : ∀ t ∈ terms, ByteColumns t) :
    ((coalesceTermsByXorb order terms).map Prod.fst).Nodup ∧
      (∀ h, h ∈ (coalesceTermsByXorb order terms).map Prod.fst ↔ ∃ t ∈ terms, t.xorbHash = h) ∧
      (∀ h ranges, (h, ranges) ∈ coalesceTermsByXorb order terms → Coalesced terms h ranges) ∧
      ∀ order' terms', terms'.Perm terms →
        coalesceTermsByXorb order' terms' = coalesceTermsByXorb order terms := by
  rw [map_fst_coalesceTermsByXorb]
  refine ⟨nodup_xorbKeys terms, fun h => mem_xorbKeys, ?_, ?_⟩
  · intro h ranges hmem
    obtain ⟨h', -, hEq⟩ := List.mem_map.1 hmem
    obtain ⟨rfl, rfl⟩ := Prod.mk.inj hEq
    exact coalesced_coalesceSpans hterms order h'
  · intro order' terms' hperm
    rw [coalesceTermsByXorb, xorbKeys_eq_of_perm hperm]
    apply List.map_congr_left
    intro h hh
    have hspans : ((termsOn terms' h).map byteSpan).Perm ((termsOn terms h).map byteSpan) :=
      (hperm.filter _).map byteSpan
    rw [coalesceSpans_eq_of_perm order order' (byteSpan_lt hterms h) hspans]

def mkTerm (xorb : Hash) (byteStart byteEnd : Nat) : Term :=
  { xorbHash := xorb
    xorbStart := 0
    xorbEnd := 1
    xorbByteStart := byteStart
    xorbByteEnd := byteEnd
    unpackedStart := 0
    unpackedEnd := byteEnd - byteStart }

/-- On one xorb two spans that touch, one nested, one repeated and one apart; one on another. -/
def sampleTerms : List Term :=
  [mkTerm (Hash.fill 1) 100 200, mkTerm (Hash.fill 1) 0 100, mkTerm (Hash.fill 2) 5 6,
    mkTerm (Hash.fill 1) 150 180, mkTerm (Hash.fill 1) 300 301, mkTerm (Hash.fill 1) 0 100]

theorem byteColumns_mkTerm {xorb : Hash} {byteStart byteEnd : Nat} (hlt : byteStart < byteEnd)
    (hbounded : byteEnd < 2 ^ 63) : ByteColumns (mkTerm xorb byteStart byteEnd) := by
  refine ⟨?_, ?_, ?_⟩
  · exact Int.natCast_nonneg byteStart
  · exact Int.ofNat_lt.2 hlt
  · show (byteEnd : Int) < 2 ^ 63
    omega

theorem byteColumns_sampleTerms : ∀ t ∈ sampleTerms, ByteColumns t := by
  intro t ht
  simp only [sampleTerms, List.mem_cons, List.not_mem_nil, or_false] at ht
  rcases ht with rfl | rfl | rfl | rfl | rfl | rfl <;>
    exact byteColumns_mkTerm (by decide) (by decide)

theorem coalesceTermsByXorb_exact_sample :
    coalesceTermsByXorb sortByStart sampleTerms =
        [(Hash.fill 1, [⟨0, 199⟩, ⟨300, 300⟩]), (Hash.fill 2, [⟨5, 5⟩])] ∧
      Coalesced sampleTerms (Hash.fill 1) [⟨0, 199⟩, ⟨300, 300⟩] ∧
      coalesceTermsByXorb sortByStart sampleTerms.reverse =
        coalesceTermsByXorb sortByStart sampleTerms := by
  have hruns : coalesceTermsByXorb sortByStart sampleTerms =
      [(Hash.fill 1, [⟨0, 199⟩, ⟨300, 300⟩]), (Hash.fill 2, [⟨5, 5⟩])] := by decide +kernel
  obtain ⟨-, -, hexact, hfree⟩ :=
    coalesceTermsByXorb_exact sortByStart sampleTerms byteColumns_sampleTerms
  refine ⟨hruns, ?_, ?_⟩
  · apply hexact
    rw [hruns]
    exact List.mem_cons_self
  · exact hfree sortByStart sampleTerms.reverse (List.reverse_perm sampleTerms)

end Core
end OpenWeights
