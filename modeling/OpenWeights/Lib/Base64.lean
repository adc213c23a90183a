import OpenWeights.Lib.Hex
import OpenWeights.Lib.Text

/-!
# Base64 — the padded standard alphabet

The alphabet with `+` and `/`, written in groups of four digits, the last one filled up with `=`.
The reader skips line ends wherever they stand and does not look at the bits that the padding leaves
over.  A text is only read as a number of bytes that three does not divide if it has a padding.
-/

namespace OpenWeights
namespace Lib

/-- The standard digit of a number below 64. -/
def base64StdDigit (n : Nat) : UInt8 :=
  if n = 62 then 43 else if n = 63 then 47 else base64Digit n

def base64StdValue (c : UInt8) : Option Nat :=
  if c = 43 then some 62
  else if c = 47 then some 63
  else if c = 45 ∨ c = 95 then none
  else base64Value c

def base64Padding (length : Nat) : List UInt8 :=
  List.replicate ((3 - length % 3) % 3) 61

def base64StdEncode (bytes : List UInt8) : List UInt8 :=
  (sextets bytes).map base64StdDigit ++ base64Padding bytes.length

/-- Groups of four digits; a padding ends the text. -/
def base64Quanta : List UInt8 → Option (List UInt8)
  | [] => some []
  | c₁ :: c₂ :: c₃ :: c₄ :: rest => do
      let p ← base64StdValue c₁
      let q ← base64StdValue c₂
      if c₃ = 61 then
        if c₄ = 61 ∧ rest = [] then ofSextets [p, q] else none
      else
        let r ← base64StdValue c₃
        if c₄ = 61 then
          if rest = [] then ofSextets [p, q, r] else none
        else
          let s ← base64StdValue c₄
          let whole ← ofSextets [p, q, r, s]
          (base64Quanta rest).map fun bytes => whole ++ bytes
  | _ => none

def base64StdDecode (s : List UInt8) : Option (List UInt8) :=
  base64Quanta (s.filter fun c => c ≠ 10 ∧ c ≠ 13)

theorem base64StdValue_base64StdDigit {n : Nat} (hn : n < 64) :
    base64StdValue (base64StdDigit n) = some n ∧ base64StdDigit n ≠ 61 ∧
      base64StdDigit n ≠ 10 ∧ base64StdDigit n ≠ 13 := by
  revert n
  decide

/-- What is written has no line ends. -/
theorem filter_base64StdEncode (bytes : List UInt8) :
    (base64StdEncode bytes).filter (fun c => c ≠ 10 ∧ c ≠ 13) = base64StdEncode bytes := by
  rw [List.filter_eq_self]
  intro c hc
  rcases List.mem_append.1 hc with hdigit | hpadding
  · obtain ⟨n, hn, rfl⟩ := List.mem_map.1 hdigit
    have hdigit := base64StdValue_base64StdDigit (sextets_lt bytes n hn)
    exact decide_eq_true hdigit.2.2
  · rw [List.eq_of_mem_replicate hpadding]
    rfl

/-- A full group is read on its own. -/
theorem base64Quanta_group {p q r s : Nat} (hp : p < 64) (hq : q < 64) (hr : r < 64) (hs : s < 64)
    (rest : List UInt8) :
    base64Quanta ([p, q, r, s].map base64StdDigit ++ rest) =
      (ofSextets [p, q, r, s]).bind fun whole => (base64Quanta rest).map fun bytes =>
        whole ++ bytes := by
  have hp' := base64StdValue_base64StdDigit hp
  have hq' := base64StdValue_base64StdDigit hq
  have hr' := base64StdValue_base64StdDigit hr
  have hs' := base64StdValue_base64StdDigit hs
  simp only [List.map_cons, List.map_nil, List.cons_append, List.nil_append, base64Quanta, hp'.1,
    hq'.1, hr'.1, hs'.1, if_neg hr'.2.1, if_neg hs'.2.1, Option.bind_eq_bind, Option.bind_some]

theorem base64Quanta_padding {p q : Nat} (hp : p < 64) (hq : q < 64) :
    base64Quanta ([p, q].map base64StdDigit ++ [61, 61]) = ofSextets [p, q] := by
  have hp' := base64StdValue_base64StdDigit hp
  have hq' := base64StdValue_base64StdDigit hq
  simp [base64Quanta, hp'.1, hq'.1]

theorem base64Quanta_padding' {p q r : Nat} (hp : p < 64) (hq : q < 64) (hr : r < 64) :
    base64Quanta ([p, q, r].map base64StdDigit ++ [61]) = ofSextets [p, q, r] := by
  have hp' := base64StdValue_base64StdDigit hp
  have hq' := base64StdValue_base64StdDigit hq
  have hr' := base64StdValue_base64StdDigit hr
  simp [base64Quanta, hp'.1, hq'.1, hr'.1, hr'.2.1]

/-- One group after the other is read back. -/
theorem base64Quanta_base64StdEncode (bytes : List UInt8) :
    base64Quanta (base64StdEncode bytes) = some bytes := by
  unfold base64StdEncode
  induction bytes using sextets.induct with
  | case1 => rfl
  | case2 a =>
      have hlt := sextets_lt [a]
      simp only [sextets, List.mem_cons, List.not_mem_nil, or_false, forall_eq_or_imp,
        forall_eq] at hlt
      exact (base64Quanta_padding hlt.1 hlt.2).trans (ofSextets_sextets [a])
  | case3 a b =>
      have hlt := sextets_lt [a, b]
      simp only [sextets, List.mem_cons, List.not_mem_nil, or_false, forall_eq_or_imp,
        forall_eq] at hlt
      exact (base64Quanta_padding' hlt.1 hlt.2.1 hlt.2.2).trans (ofSextets_sextets [a, b])
  | case4 a b c rest ih =>
      have hlt := sextets_lt [a, b, c]
      have hgroup := ofSextets_sextets [a, b, c]
      simp only [sextets, List.append_nil, List.mem_cons, List.not_mem_nil, or_false,
        forall_eq_or_imp, forall_eq] at hlt hgroup
      have hpadding : base64Padding (a :: b :: c :: rest).length = base64Padding rest.length := by
        simp only [base64Padding, List.length_cons]
        rw [show (rest.length + 1 + 1 + 1) % 3 = rest.length % 3 by omega]
      rw [sextets, hpadding, List.map_append, List.append_assoc,
        base64Quanta_group hlt.1 hlt.2.1 hlt.2.2.1 hlt.2.2.2, hgroup, ih]
      rfl

@[simp] theorem base64StdDecode_base64StdEncode (bytes : List UInt8) :
    base64StdDecode (base64StdEncode bytes) = some bytes := by
  rw [base64StdDecode, filter_base64StdEncode, base64Quanta_base64StdEncode]

/-- What is written has no white space in it. -/
theorem solid_of_mem_base64StdEncode {bytes : List UInt8} {c : UInt8}
    (hc : c ∈ base64StdEncode bytes) : solid c = true := by
  have hdigit : ∀ n < 64, solid (base64StdDigit n) = true := by decide +kernel
  rcases List.mem_append.1 hc with hc | hc
  · obtain ⟨n, hn, rfl⟩ := List.mem_map.1 hc
    exact hdigit n (sextets_lt bytes n hn)
  · rw [List.eq_of_mem_replicate hc]
    decide

/-- Without a padding every group stands for three bytes. -/
theorem three_dvd_of_base64Quanta {s bytes : List UInt8} (hpadding : 61 ∉ s)
    (h : base64Quanta s = some bytes) : 3 ∣ bytes.length := by
  induction s using base64Quanta.induct generalizing bytes with
  | case1 =>
      cases h
      exact Nat.dvd_zero 3
  | case2 c₁ c₂ c₃ c₄ rest ih =>
      simp only [List.mem_cons, not_or] at hpadding
      obtain ⟨-, -, h₃, h₄, hrest⟩ := hpadding
      simp only [base64Quanta, Option.bind_eq_bind, Option.bind_eq_some_iff] at h
      obtain ⟨p, -, q, -, h⟩ := h
      rw [if_neg (Ne.symm h₃), Option.bind_eq_some_iff] at h
      obtain ⟨r, -, h⟩ := h
      rw [if_neg (Ne.symm h₄), Option.bind_eq_some_iff] at h
      obtain ⟨s, -, h⟩ := h
      obtain ⟨whole, hwhole, h⟩ := Option.bind_eq_some_iff.1 h
      obtain ⟨tail, htail, rfl⟩ := Option.map_eq_some_iff.1 h
      cases hwhole
      have hdvd := ih hrest htail
      simp only [List.length_append, List.length_cons, List.length_nil]
      omega
  | case3 s hnil hgroup =>
      rw [base64Quanta.eq_3 s hnil hgroup] at h
      cases h

/-- A text that is hexadecimal is not read as a number of bytes that three does not divide. -/
theorem three_dvd_of_hexDecode {s bytes bytes' : List UInt8} (hhex : hexDecode s = some bytes)
    (hbase64 : base64StdDecode s = some bytes') : 3 ∣ bytes'.length := by
  have hdigits := (isSome_hexDecode_iff.1 (Option.isSome_of_eq_some hhex)).2
  apply three_dvd_of_base64Quanta ?_ hbase64
  intro hmem
  have hdigit := hdigits 61 (List.mem_of_mem_filter hmem)
  exact absurd hdigit (by decide)

end Lib
end OpenWeights
