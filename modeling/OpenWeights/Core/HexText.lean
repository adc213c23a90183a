import OpenWeights.Lib.Hex
import OpenWeights.Core.ShardParse

/-!
# HexText — the hexadecimal loops of the service

Several handlers decode 64 digits with a loop of their own over `to_digit(16)`.  They all read what
`hexDecode` of the library reads.
-/

namespace OpenWeights
namespace Core

open Lib Db

theorem toDigit16_eq (c : UInt8) : toDigit16 c = (hexValue c).map UInt8.ofNat := by
  revert c
  refine forall_byte ?_
  decide +kernel

theorem isSome_toDigit16 (c : UInt8) : (toDigit16 c).isSome = isHexDigit c := by
  rw [toDigit16_eq, Option.isSome_map, isSome_hexValue]

/-- Shifting and or-ing two digits makes the byte of their value. -/
theorem shift_or_digits {high low : Nat} (hhigh : high < 16) (hlow : low < 16) :
    (UInt8.ofNat high <<< 4) ||| UInt8.ofNat low = UInt8.ofNat (16 * high + low) := by
  have hall : ∀ h < 16, ∀ l < 16,
      (UInt8.ofNat h <<< 4) ||| UInt8.ofNat l = UInt8.ofNat (16 * h + l) := by
    decide +kernel
  exact hall high hhigh low hlow

theorem decodePairs_eq {s : Bytes} (heven : s.length % 2 = 0) :
    decodePairs s = hexDecode s := by
  induction s using hexDecode.induct with
  | case1 => rfl
  | case2 c => cases heven
  | case3 hi lo rest ih =>
      rw [List.length_cons, List.length_cons] at heven
      rw [decodePairs, hexDecode, ih (by omega), toDigit16_eq, toDigit16_eq]
      cases hhigh : hexValue hi with
      | none => rfl
      | some high =>
          cases hlow : hexValue lo with
          | none => rfl
          | some low =>
              have hbyte := shift_or_digits (hexDigit_of_hexValue hhigh).1
                (hexDigit_of_hexValue hlow).1
              simp only [Option.map_some, Option.bind_eq_bind, Option.bind_some, hbyte]
              rfl

def decodeFileIdHex (s : Bytes) : Option Hash :=
  if s.length ≠ 64 then
    none
  else
    match decodePairs s with
    | some out => if h : out.length = 32 then some ⟨out, h⟩ else none
    | none => none

theorem decodeFileIdHex_eq_some_iff {s : Bytes} {fileId : Hash} :
    decodeFileIdHex s = some fileId ↔ hexDecode s = some fileId.1 := by
  unfold decodeFileIdHex
  by_cases hlen : s.length = 64
  · rw [if_neg (not_not.2 hlen), decodePairs_eq (by rw [hlen])]
    cases hout : hexDecode s with
    | none => simp
    | some out =>
        have hsize : out.length = 32 := by
          have hdouble := length_of_hexDecode hout
          omega
        simp only [hsize, dite_true, Option.some_inj]
        exact Subtype.ext_iff
  · rw [if_pos hlen]
    refine iff_of_false nofun fun h => hlen ?_
    rw [length_of_hexDecode h, fileId.2]

theorem isSome_decodeFileIdHex_iff {s : Bytes} :
    (decodeFileIdHex s).isSome ↔ s.length = 64 ∧ ∀ c ∈ s, isHexDigit c = true := by
  constructor
  · intro h
    obtain ⟨fileId, hdecode⟩ := Option.isSome_iff_exists.1 h
    rw [decodeFileIdHex_eq_some_iff] at hdecode
    refine ⟨?_, (isSome_hexDecode_iff.1 (Option.isSome_of_mem hdecode)).2⟩
    rw [length_of_hexDecode hdecode, fileId.2]
  · rintro ⟨hlen, hdigits⟩
    obtain ⟨out, hout⟩ := Option.isSome_iff_exists.1
      (isSome_hexDecode_iff.2 ⟨by rw [hlen], hdigits⟩)
    have hsize : out.length = 32 := by
      have hdouble := length_of_hexDecode hout
      omega
    have hdecode : decodeFileIdHex s = some ⟨out, hsize⟩ := decodeFileIdHex_eq_some_iff.2 hout
    rw [hdecode]
    rfl

end Core
end OpenWeights
