import OpenWeights.Lib.Encoding

/-!
# Hex — which texts are hexadecimal, and what they are read as

`hexDecode` undoes `hexEncode`.  The other way round, a text that it accepts is one of an even number
of digits of either case, and the bytes it stands for are written back in lower case.
-/

namespace OpenWeights
namespace Lib

/-- A hexadecimal digit of either case. -/
def isHexDigit (c : UInt8) : Bool :=
  (48 ≤ c && c ≤ 57) || (97 ≤ c && c ≤ 102) || (65 ≤ c && c ≤ 70)

def lower (c : UInt8) : UInt8 :=
  if 65 ≤ c ∧ c ≤ 90 then c + 32 else c

/-- A property of bytes is one of 256 numbers. -/
theorem forall_byte {p : UInt8 → Prop} (h : ∀ n < 256, p (UInt8.ofNat n)) (c : UInt8) : p c := by
  have hc := h c.toNat c.toNat_lt
  rwa [UInt8.ofNat_toNat] at hc

theorem isSome_hexValue (c : UInt8) : (hexValue c).isSome = isHexDigit c := by
  revert c
  refine forall_byte ?_
  decide +kernel

/-- A digit is read as the number whose digit it is, in lower case. -/
theorem hexDigit_of_hexValue {c : UInt8} {v : Nat} (h : hexValue c = some v) :
    v < 16 ∧ hexDigit v = lower c := by
  have hall : ∀ c, ∀ w ∈ hexValue c, w < 16 ∧ hexDigit w = lower c := by
    refine forall_byte ?_
    decide +kernel
  exact hall c v h

theorem toNat_ofNat_digits {high low : Nat} (hhigh : high < 16) (hlow : low < 16) :
    (UInt8.ofNat (16 * high + low)).toNat = 16 * high + low := by
  rw [UInt8.toNat_ofNat']
  exact Nat.mod_eq_of_lt (by omega)

/-- What is read is written back in lower case. -/
theorem hexEncode_of_hexDecode {s bytes : List UInt8} (h : hexDecode s = some bytes) :
    hexEncode bytes = s.map lower := by
  induction s using hexDecode.induct generalizing bytes with
  | case1 =>
      cases h
      rfl
  | case2 c => cases h
  | case3 hi lo rest ih =>
      simp only [hexDecode, Option.bind_eq_bind, Option.bind_eq_some_iff] at h
      obtain ⟨high, hhigh, low, hlow, tail, htail, hbytes⟩ := h
      obtain ⟨hhighLt, hhighDigit⟩ := hexDigit_of_hexValue hhigh
      obtain ⟨hlowLt, hlowDigit⟩ := hexDigit_of_hexValue hlow
      cases hbytes
      have hbyte := toNat_ofNat_digits hhighLt hlowLt
      have hdiv : (16 * high + low) / 16 = high := by omega
      have hmod : (16 * high + low) % 16 = low := by omega
      calc
        hexEncode (UInt8.ofNat (16 * high + low) :: tail)
            = hexDigit high :: hexDigit low :: hexEncode tail := by
              rw [hexEncode, List.flatMap_cons, hbyte, hdiv, hmod]
              rfl
        _ = (hi :: lo :: rest).map lower := by
              rw [hhighDigit, hlowDigit, ih htail]
              rfl

theorem hexValue_lower (c : UInt8) : hexValue (lower c) = hexValue c := by
  revert c
  refine forall_byte ?_
  decide +kernel

/-- The case of the digits does not matter. -/
theorem hexDecode_map_lower (s : List UInt8) : hexDecode (s.map lower) = hexDecode s := by
  induction s using hexDecode.induct with
  | case1 => rfl
  | case2 c => rfl
  | case3 hi lo rest ih =>
      simp only [List.map_cons, hexDecode, hexValue_lower, ih]

/-- The texts that can be read. -/
theorem isSome_hexDecode_iff {s : List UInt8} :
    (hexDecode s).isSome ↔ s.length % 2 = 0 ∧ ∀ c ∈ s, isHexDigit c = true := by
  induction s using hexDecode.induct with
  | case1 => simp [hexDecode]
  | case2 c => simp [hexDecode]
  | case3 hi lo rest ih =>
      have hlength : (hi :: lo :: rest).length % 2 = rest.length % 2 := by
        rw [List.length_cons, List.length_cons]
        omega
      rw [hlength, List.forall_mem_cons, List.forall_mem_cons, ← isSome_hexValue,
        ← isSome_hexValue]
      cases hhigh : hexValue hi with
      | none => simp [hexDecode, hhigh]
      | some high =>
          cases hlow : hexValue lo with
          | none => simp [hexDecode, hhigh, hlow]
          | some low =>
              have hrest : (hexDecode (hi :: lo :: rest)).isSome = (hexDecode rest).isSome := by
                rw [hexDecode, hhigh, hlow]
                cases hexDecode rest <;> rfl
              rw [hrest, ih]
              simp

/-- Texts are read piece by piece. -/
theorem hexDecode_append {s t bytes bytes' : List UInt8} (hs : hexDecode s = some bytes)
    (ht : hexDecode t = some bytes') : hexDecode (s ++ t) = some (bytes ++ bytes') := by
  induction s using hexDecode.induct generalizing bytes with
  | case1 =>
      cases hs
      exact ht
  | case2 c => cases hs
  | case3 hi lo rest ih =>
      simp only [hexDecode, Option.bind_eq_bind, Option.bind_eq_some_iff] at hs
      obtain ⟨high, hhigh, low, hlow, tail, htail, hbytes⟩ := hs
      cases hbytes
      simp only [List.cons_append, hexDecode, Option.bind_eq_bind, hhigh, hlow, Option.bind_some,
        ih htail]

theorem length_of_hexDecode {s bytes : List UInt8} (h : hexDecode s = some bytes) :
    s.length = 2 * bytes.length := by
  rw [← length_hexEncode, hexEncode_of_hexDecode h, List.length_map]

end Lib
end OpenWeights
