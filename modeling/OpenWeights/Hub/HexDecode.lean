import OpenWeights.Core.HexText
import OpenWeights.Hub.Commits

/-!
# HexDecode — the hexadecimal text in a path

`hex_decode` cuts a string of the client into slices of two bytes and leaves each slice to
`u8::from_str_radix`.  A slice of a `str` panics when an end of it lies inside a character, and the
number parser takes a plus sign, so the function decides less than its callers expect of it
(`hexExact_iff`).

`hexDecode` is the answer where there is one (`hexDecode_of_returned`).
-/

namespace OpenWeights
namespace Hub

open Lib Db

/-! ## The function with its panics -/

inductive Outcome (α : Type)
  | returned (a : α)
  | panicked
  deriving DecidableEq, Repr

def Outcome.map {α β : Type} (f : α → β) : Outcome α → Outcome β
  | .returned a => .returned (f a)
  | .panicked => .panicked

/-- `str::is_char_boundary` at the start of what is left: no continuation byte follows. -/
def startsChar : Bytes → Bool
  | [] => true
  | c :: _ => !(128 ≤ c && c < 192)

/-- The loop of `hex_decode`.  A slice starts where the one before it ended, so one end of it is left
to look at. -/
def decodeSlices : Bytes → Outcome (Option Bytes)
  | hi :: lo :: rest =>
      if startsChar rest then
        match fromStrRadix16 hi lo with
        | none => .returned none
        | some byte => (decodeSlices rest).map fun out => out.map fun bytes => byte :: bytes
      else
        .panicked
  | _ => .returned (some [])

/-- `s.strip_prefix("sha256:").unwrap_or(s)`. -/
def stripSha256 (s : Bytes) : Bytes :=
  if lit "sha256:" <+: s then s.drop 7 else s

def hexDecodeStr (s : Bytes) : Outcome (Option Bytes) :=
  if (stripSha256 s).length % 2 ≠ 0 then
    .returned none
  else
    decodeSlices (stripSha256 s)

/-! ## A pair of bytes -/

/-- What `from_str_radix` takes: two digits, or a plus sign and a digit. -/
def pairTaken (hi lo : UInt8) : Bool :=
  (isHexDigit hi || hi == 43) && isHexDigit lo

theorem isSome_fromStrRadix16 (hi lo : UInt8) : (fromStrRadix16 hi lo).isSome = pairTaken hi lo := by
  rw [pairTaken, ← Core.isSome_toDigit16, ← Core.isSome_toDigit16, fromStrRadix16]
  cases Core.toDigit16 lo with
  | none => simp
  | some l =>
      by_cases hplus : hi = 43
      · simp [hplus]
      · cases Core.toDigit16 hi <;> simp [hplus]

/-- Two digits make the byte that `hexDecode` of the library reads. -/
theorem fromStrRadix16_digits {hi lo : UInt8} {high low : Nat} (hhigh : hexValue hi = some high)
    (hlow : hexValue lo = some low) :
    fromStrRadix16 hi lo = some (UInt8.ofNat (16 * high + low)) := by
  have hplus : hi ≠ 43 := by
    rintro rfl
    cases hhigh
  have hbyte := Core.shift_or_digits (hexDigit_of_hexValue hhigh).1 (hexDigit_of_hexValue hlow).1
  simp [fromStrRadix16, Core.toDigit16_eq, hhigh, hlow, hplus, hbyte]

theorem startsChar_of_digit {c : UInt8} (hc : isHexDigit c = true) (rest : Bytes) :
    startsChar (c :: rest) = true := by
  have hall : ∀ c, isHexDigit c = true → (!(128 ≤ c && c < 192)) = true := by
    refine forall_byte ?_
    decide +kernel
  exact hall c hc

/-! ## The loop -/

/-- Some slice is not taken, and the slices up to the first such one end between characters. -/
def refusedBetween : Bytes → Bool
  | hi :: lo :: rest => startsChar rest && (!pairTaken hi lo || refusedBetween rest)
  | _ => false

theorem startsChar_of_digits {s : Bytes} (hdigits : ∀ c ∈ s, isHexDigit c = true) :
    startsChar s = true := by
  cases s with
  | nil => rfl
  | cons c rest => exact startsChar_of_digit (hdigits c List.mem_cons_self) rest

theorem decodeSlices_of_hexDecode {s bytes : Bytes} (h : Lib.hexDecode s = some bytes) :
    decodeSlices s = .returned (some bytes) := by
  induction s using Lib.hexDecode.induct generalizing bytes with
  | case1 =>
      cases h
      rfl
  | case2 c => cases h
  | case3 hi lo rest ih =>
      simp only [Lib.hexDecode, Option.bind_eq_bind, Option.bind_eq_some_iff] at h
      obtain ⟨high, hhigh, low, hlow, tail, htail, hbytes⟩ := h
      cases hbytes
      have hdigits := (isSome_hexDecode_iff.1 (Option.isSome_of_mem htail)).2
      rw [decodeSlices, if_pos (startsChar_of_digits hdigits), fromStrRadix16_digits hhigh hlow]
      dsimp only
      rw [ih htail]
      rfl

theorem decodeSlices_of_refused {s : Bytes} (h : refusedBetween s = true) :
    decodeSlices s = .returned none := by
  induction s using refusedBetween.induct with
  | case1 hi lo rest ih =>
      rw [refusedBetween, Bool.and_eq_true, Bool.or_eq_true, Bool.not_eq_true'] at h
      obtain ⟨hstarts, htaken | hrest⟩ := h
      · have hnone : fromStrRadix16 hi lo = none := by
          rw [← Option.not_isSome_iff_eq_none, isSome_fromStrRadix16, htaken]
          decide
        rw [decodeSlices, if_pos hstarts, hnone]
      · rw [decodeSlices, if_pos hstarts, ih hrest]
        cases fromStrRadix16 hi lo <;> rfl
  | case2 s hs =>
      match s with
      | [] => cases h
      | [c] => cases h
      | hi :: lo :: rest => exact absurd rfl (hs hi lo rest)

/-- Without a slice that is refused in time, the loop goes through or panics. -/
theorem decodeSlices_of_not_refused {s : Bytes} (h : refusedBetween s = false) :
    (∃ bytes, decodeSlices s = .returned (some bytes)) ∨ decodeSlices s = .panicked := by
  induction s using refusedBetween.induct with
  | case1 hi lo rest ih =>
      rw [refusedBetween] at h
      by_cases hstarts : startsChar rest = true
      · rw [hstarts, Bool.true_and, Bool.or_eq_false_iff, Bool.not_eq_false'] at h
        obtain ⟨htaken, hrest⟩ := h
        rw [← isSome_fromStrRadix16] at htaken
        obtain ⟨byte, hbyte⟩ := Option.isSome_iff_exists.1 htaken
        rw [decodeSlices, if_pos hstarts, hbyte]
        rcases ih hrest with ⟨bytes, hbytes⟩ | hpanic
        · exact .inl ⟨byte :: bytes, by rw [hbytes]; rfl⟩
        · exact .inr (by rw [hpanic]; rfl)
      · exact .inr (by rw [decodeSlices, if_neg hstarts])
  | case2 s hs =>
      match s with
      | [] => exact .inl ⟨[], rfl⟩
      | [c] => exact .inl ⟨[], rfl⟩
      | hi :: lo :: rest => exact absurd rfl (hs hi lo rest)

/-! ## The whole function -/

/-- The function returns; it accepts exactly the hexadecimal texts; and it reads them rightly. -/
structure HexExact (s : Bytes) : Prop where
  total : ∃ r, hexDecodeStr s = .returned r
  accepts : (∃ bytes, hexDecodeStr s = .returned (some bytes)) ↔
    (stripSha256 s).length % 2 = 0 ∧ ∀ c ∈ stripSha256 s, isHexDigit c = true
  encodes : ∀ bytes, hexDecodeStr s = .returned (some bytes) →
    hexEncode bytes = (stripSha256 s).map lower

/-- Exact are the texts of odd length, the hexadecimal ones, and those where a slice is refused
before one of the slices cuts a character. -/
theorem hexExact_iff (s : Bytes) :
    HexExact s ↔ (stripSha256 s).length % 2 = 1 ∨
      (∀ c ∈ stripSha256 s, isHexDigit c = true) ∨ refusedBetween (stripSha256 s) = true := by
  -- An odd length is refused; an even one is decoded when all are digits.
  by_cases hodd : (stripSha256 s).length % 2 = 1
  · have hnone : hexDecodeStr s = .returned none := by
      rw [hexDecodeStr, if_pos (by omega)]
    refine iff_of_true ⟨⟨none, hnone⟩, ?_, ?_⟩ (.inl hodd)
    · rw [hnone]
      exact iff_of_false nofun fun h => by omega
    · rw [hnone]
      exact nofun
  have heven : (stripSha256 s).length % 2 = 0 := by omega
  have hloop : hexDecodeStr s = decodeSlices (stripSha256 s) := if_neg (by omega)
  by_cases hdigits : ∀ c ∈ stripSha256 s, isHexDigit c = true
  · obtain ⟨bytes, hbytes⟩ := Option.isSome_iff_exists.1 (isSome_hexDecode_iff.2 ⟨heven, hdigits⟩)
    have hsome : hexDecodeStr s = .returned (some bytes) :=
      hloop.trans (decodeSlices_of_hexDecode hbytes)
    refine iff_of_true ⟨⟨_, hsome⟩, ?_, ?_⟩ (.inr (.inl hdigits))
    · exact iff_of_true ⟨_, hsome⟩ ⟨heven, hdigits⟩
    · intro bytes' hbytes'
      rw [hsome] at hbytes'
      cases hbytes'
      exact hexEncode_of_hexDecode hbytes
  -- Something is no digit: a pair is refused, or the loop misreads or panics.
  cases hrefused : refusedBetween (stripSha256 s) with
  | true =>
      have hnone : hexDecodeStr s = .returned none :=
        hloop.trans (decodeSlices_of_refused hrefused)
      refine iff_of_true ⟨⟨none, hnone⟩, ?_, ?_⟩ (.inr (.inr rfl))
      · rw [hnone]
        exact iff_of_false nofun fun h => hdigits h.2
      · rw [hnone]
        exact nofun
  | false =>
      refine iff_of_false ?_ (by simp [hodd, hdigits])
      intro hexact
      rcases decodeSlices_of_not_refused hrefused with ⟨bytes, hbytes⟩ | hpanic
      · exact hdigits (hexact.accepts.1 ⟨bytes, hloop.trans hbytes⟩).2
      · obtain ⟨r, hr⟩ := hexact.total
        rw [hloop, hpanic] at hr
        cases hr

/-- A euro sign takes three bytes: the first slice ends inside it. -/
theorem not_hexExact : ¬∀ s : String, HexExact (lit s) := by
  intro hclaim
  obtain ⟨r, hr⟩ := (hclaim "€a").total
  have hpanic : hexDecodeStr (lit "€a") = .panicked := by decide +kernel
  rw [hpanic] at hr
  cases hr

/-- A plus sign is taken for a digit. -/
example : hexDecodeStr (lit "+f") = .returned (some [15]) := by decide +kernel

/-! ## The answer without the panics -/

theorem hexPairs_of_returned {s : Bytes} {r : Option Bytes} (heven : s.length % 2 = 0)
    (h : decodeSlices s = .returned r) : hexPairs s = r := by
  induction s using hexPairs.induct generalizing r with
  | case1 =>
      cases h
      rfl
  | case2 c => cases heven
  | case3 hi lo rest ih =>
      rw [List.length_cons, List.length_cons] at heven
      rw [decodeSlices] at h
      split at h
      · rw [hexPairs]
        cases hbyte : fromStrRadix16 hi lo with
        | none =>
            simp only [hbyte, Outcome.returned.injEq] at h
            exact h
        | some byte =>
            simp only [hbyte] at h
            cases hrest : decodeSlices rest with
            | panicked =>
                rw [hrest] at h
                cases h
            | returned out =>
                rw [hrest] at h
                cases h
                rw [ih (by omega) hrest]
                cases out <;> rfl
      · cases h

theorem hexPairs_of_odd {s : Bytes} (hodd : s.length % 2 = 1) : hexPairs s = none := by
  induction s using hexPairs.induct with
  | case1 => cases hodd
  | case2 c => rfl
  | case3 hi lo rest ih =>
      rw [List.length_cons, List.length_cons] at hodd
      rw [hexPairs, ih (by omega)]
      cases fromStrRadix16 hi lo <;> rfl

/-- Where the function returns, it returns what the handlers are modelled with. -/
theorem hexDecode_of_returned {s : Bytes} {r : Option Bytes} (h : hexDecodeStr s = .returned r) :
    hexDecode s = r := by
  have hstrip : hexDecode s = hexPairs (stripSha256 s) := rfl
  rw [hexDecodeStr] at h
  split at h
  · rename_i hodd
    cases h
    exact hstrip.trans (hexPairs_of_odd (by omega))
  · rename_i heven
    exact hstrip.trans (hexPairs_of_returned (not_not.1 heven) h)

end Hub
end OpenWeights
