import Mathlib.Data.List.Basic
import Mathlib.Tactic

/-!
# Encoding — hexadecimal text and the byte orders of a word

Text is a list of bytes, as in a language whose strings are byte strings; `lit` is that of a literal:

* `hexEncode`, `hexDecode`       : two digits a byte, written in lower case, read in either case;
* `leUint64`, `putLeUint64`      : a 64-bit word as eight bytes, least significant first;
* `beUint64`, `putBeUint64`      : the same, most significant first.
-/

namespace OpenWeights
namespace Lib

/-- The bytes of a string literal. -/
def lit (s : String) : List UInt8 :=
  s.toUTF8.data.toList

/-! ## Hexadecimal -/

def hexDigit (n : Nat) : UInt8 :=
  if n < 10 then UInt8.ofNat (48 + n) else UInt8.ofNat (87 + n)

def hexEncode (bytes : List UInt8) : List UInt8 :=
  bytes.flatMap fun b => [hexDigit (b.toNat / 16), hexDigit (b.toNat % 16)]

def hexValue (c : UInt8) : Option Nat :=
  if 48 ≤ c ∧ c ≤ 57 then some (c.toNat - 48)
  else if 97 ≤ c ∧ c ≤ 102 then some (c.toNat - 87)
  else if 65 ≤ c ∧ c ≤ 70 then some (c.toNat - 55)
  else none

/-- `none` for a character that is no digit and for an odd number of them. -/
def hexDecode : List UInt8 → Option (List UInt8)
  | [] => some []
  | [_] => none
  | hi :: lo :: rest => do
      let high ← hexValue hi
      let low ← hexValue lo
      let tail ← hexDecode rest
      some (UInt8.ofNat (16 * high + low) :: tail)

theorem hexValue_hexDigit {n : Nat} (hn : n < 16) : hexValue (hexDigit n) = some n := by
  revert n
  decide

@[simp] theorem length_hexEncode (bytes : List UInt8) :
    (hexEncode bytes).length = 2 * bytes.length := by
  induction bytes with
  | nil => rfl
  | cons b rest ih =>
      simp only [hexEncode, List.flatMap_cons, List.length_append, List.length_cons,
        List.length_nil] at *
      omega

@[simp] theorem hexDecode_hexEncode (bytes : List UInt8) :
    hexDecode (hexEncode bytes) = some bytes := by
  induction bytes with
  | nil => rfl
  | cons b rest ih =>
      have hhigh : hexValue (hexDigit (b.toNat / 16)) = some (b.toNat / 16) := by
        have hb := b.toNat_lt
        exact hexValue_hexDigit (by omega)
      have hlow : hexValue (hexDigit (b.toNat % 16)) = some (b.toNat % 16) :=
        hexValue_hexDigit (Nat.mod_lt _ (by decide))
      have hbyte : UInt8.ofNat (16 * (b.toNat / 16) + b.toNat % 16) = b := by
        rw [Nat.div_add_mod]
        exact UInt8.ofNat_toNat
      have hcons : hexEncode (b :: rest) =
          hexDigit (b.toNat / 16) :: hexDigit (b.toNat % 16) :: hexEncode rest := rfl
      simp only [hcons, hexDecode, hhigh, hlow, ih, Option.bind_eq_bind, Option.bind_some, hbyte]

/-! ## Words -/

/-- The number whose digits in base 256 are the bytes, least significant first. -/
def leValue (bytes : List UInt8) : Nat :=
  bytes.foldr (fun b n => b.toNat + 256 * n) 0

def leUint64 (bytes : List UInt8) : UInt64 :=
  UInt64.ofNat (leValue bytes)

def putLeUint64 (v : UInt64) : List UInt8 :=
  (List.range 8).map fun i => UInt8.ofNat (v.toNat / 256 ^ i)

def beUint64 (bytes : List UInt8) : UInt64 :=
  leUint64 bytes.reverse

def putBeUint64 (v : UInt64) : List UInt8 :=
  (putLeUint64 v).reverse

@[simp] theorem length_putLeUint64 (v : UInt64) : (putLeUint64 v).length = 8 := by
  simp [putLeUint64]

@[simp] theorem length_putBeUint64 (v : UInt64) : (putBeUint64 v).length = 8 := by
  simp [putBeUint64]

@[simp] theorem leValue_cons (b : UInt8) (rest : List UInt8) :
    leValue (b :: rest) = b.toNat + 256 * leValue rest := rfl

theorem leValue_lt (bytes : List UInt8) : leValue bytes < 256 ^ bytes.length := by
  induction bytes with
  | nil => decide
  | cons b rest ih =>
      have hb := b.toNat_lt
      simp only [leValue_cons, List.length_cons, Nat.pow_succ]
      omega

/-- Dividing by the base drops the lowest digits. -/
theorem leValue_div_pow (bytes : List UInt8) (i : Nat) :
    leValue bytes / 256 ^ i = leValue (bytes.drop i) := by
  induction i generalizing bytes with
  | zero => simp
  | succ i ih =>
      cases bytes with
      | nil => simp [leValue]
      | cons b rest =>
          have hb := b.toNat_lt
          calc
            leValue (b :: rest) / 256 ^ (i + 1) = (b.toNat + 256 * leValue rest) / 256 / 256 ^ i := by
              rw [leValue_cons, Nat.pow_succ', Nat.div_div_eq_div_mul]
            _ = leValue rest / 256 ^ i := by
              congr 1
              omega
            _ = leValue (rest.drop i) := ih rest

theorem putLeUint64_leUint64 {bytes : List UInt8} (hlen : bytes.length = 8) :
    putLeUint64 (leUint64 bytes) = bytes := by
  have hlt : leValue bytes < 2 ^ 64 := by
    have hdigits := leValue_lt bytes
    rwa [hlen] at hdigits
  have hvalue : (leUint64 bytes).toNat = leValue bytes := by
    simpa [leUint64] using Nat.mod_eq_of_lt hlt
  refine List.ext_getElem (by simp [putLeUint64, hlen]) ?_
  intro i hi hi'
  -- The `i`-th byte is the lowest digit of what is left after dividing `i` times.
  have hdrop : bytes.drop i = bytes[i] :: bytes.drop (i + 1) := List.drop_eq_getElem_cons hi'
  have hdigit : leValue bytes / 256 ^ i = bytes[i].toNat + 256 * leValue (bytes.drop (i + 1)) := by
    rw [leValue_div_pow, hdrop, leValue_cons]
  apply UInt8.toNat_inj.1
  have hb := bytes[i].toNat_lt
  simp only [putLeUint64, List.getElem_map, List.getElem_range, hvalue, hdigit,
    UInt8.toNat_ofNat']
  omega

@[simp] theorem beUint64_putBeUint64_leUint64 {bytes : List UInt8} (hlen : bytes.length = 8) :
    beUint64 (putBeUint64 (leUint64 bytes)) = leUint64 bytes := by
  simp [beUint64, putBeUint64, putLeUint64_leUint64 hlen]

end Lib
end OpenWeights
