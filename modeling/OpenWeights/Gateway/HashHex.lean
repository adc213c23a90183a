import OpenWeights.Lib.Hex
import OpenWeights.Lib.Text
import OpenWeights.Gateway.MerkleHash

/-!
# HashHex — the text of a digest is a bijection

The codec of `gateway/merklehash.go` goes through four words: read in one byte order and written in
the other.  On the bytes this reverses each group of eight (`digestToHex_eq`), and apart from the
case of the digits nothing is lost in either direction (`merkleHashHex_bijective`).
-/

namespace OpenWeights
namespace Gateway

open Lib Db

/-! ## Groups -/

def groupOf {α : Type} (n : Nat) (l : List α) (group : Nat) : List α :=
  (l.drop (group * n)).take n

/-- The four groups of eight bytes, each reversed. -/
def swapGroups (d : Bytes) : Bytes :=
  (groupOf 8 d 0).reverse ++ (groupOf 8 d 1).reverse ++ (groupOf 8 d 2).reverse ++
    (groupOf 8 d 3).reverse

theorem length_groupOf {α : Type} {n : Nat} {l : List α} (hlen : l.length = 4 * n) {group : Nat}
    (hgroup : group < 4) : (groupOf n l group).length = n := by
  have hle : group * n + n ≤ 4 * n := by
    calc
      group * n + n = (group + 1) * n := (Nat.succ_mul group n).symm
      _ ≤ 4 * n := Nat.mul_le_mul_right n hgroup
  rw [groupOf, List.length_take, List.length_drop, hlen]
  omega

/-- A list is its four groups. -/
theorem append_groupOf {α : Type} {n : Nat} {l : List α} (hlen : l.length = 4 * n) :
    groupOf n l 0 ++ groupOf n l 1 ++ groupOf n l 2 ++ groupOf n l 3 = l := by
  have hlast : groupOf n l 3 = l.drop (3 * n) := by
    apply List.take_of_length_le
    rw [List.length_drop, hlen]
    omega
  have hstep : ∀ group, groupOf n l group ++ l.drop ((group + 1) * n) = l.drop (group * n) := by
    intro group
    rw [groupOf, Nat.succ_mul, ← List.drop_drop, List.take_append_drop]
  calc
    groupOf n l 0 ++ groupOf n l 1 ++ groupOf n l 2 ++ groupOf n l 3
        = groupOf n l 0 ++ (groupOf n l 1 ++ (groupOf n l 2 ++ l.drop ((2 + 1) * n))) := by
          rw [hlast, List.append_assoc, List.append_assoc]
    _ = l.drop (0 * n) := by rw [hstep, hstep, hstep]
    _ = l := by rw [Nat.zero_mul, List.drop_zero]

/-- The groups of four pieces put together are the pieces. -/
theorem groupOf_append {α : Type} {n : Nat} {a b c d : List α} (ha : a.length = n)
    (hb : b.length = n) (hc : c.length = n) (hd : d.length = n) :
    groupOf n (a ++ b ++ c ++ d) 0 = a ∧ groupOf n (a ++ b ++ c ++ d) 1 = b ∧
      groupOf n (a ++ b ++ c ++ d) 2 = c ∧ groupOf n (a ++ b ++ c ++ d) 3 = d := by
  have hlen : (a ++ b ++ c ++ d).length = 4 * n := by
    simp only [List.length_append, ha, hb, hc, hd]
    omega
  have hEq := append_groupOf hlen
  have hlength : ∀ group < 4, (groupOf n (a ++ b ++ c ++ d) group).length = n :=
    fun _ hgroup => length_groupOf hlen hgroup
  obtain ⟨habc, hd'⟩ := List.append_inj' hEq (by rw [hlength 3 (by decide), hd])
  obtain ⟨hab, hc'⟩ := List.append_inj' habc (by rw [hlength 2 (by decide), hc])
  obtain ⟨ha', hb'⟩ := List.append_inj' hab (by rw [hlength 1 (by decide), hb])
  exact ⟨ha', hb', hc', hd'⟩

theorem length_swapGroups {d : Bytes} (hlen : d.length = 32) : (swapGroups d).length = 32 := by
  have hgroup : ∀ group < 4, (groupOf 8 d group).length = 8 :=
    fun _ hgroup => length_groupOf hlen hgroup
  simp only [swapGroups, List.length_append, List.length_reverse, hgroup 0 (by decide),
    hgroup 1 (by decide), hgroup 2 (by decide), hgroup 3 (by decide)]

/-- Reversing the groups again restores them. -/
theorem swapGroups_swapGroups {d : Bytes} (hlen : d.length = 32) :
    swapGroups (swapGroups d) = d := by
  have hgroup : ∀ group < 4, (groupOf 8 d group).reverse.length = 8 := by
    intro group hgroup
    rw [List.length_reverse]
    exact length_groupOf hlen hgroup
  obtain ⟨h₀, h₁, h₂, h₃⟩ := groupOf_append (hgroup 0 (by decide)) (hgroup 1 (by decide))
    (hgroup 2 (by decide)) (hgroup 3 (by decide))
  unfold swapGroups
  rw [h₀, h₁, h₂, h₃]
  simp only [List.reverse_reverse]
  exact append_groupOf hlen

/-! ## Writing -/

theorem digestGroupHex_eq (d : Hash) {group : Nat} (hgroup : group < 4) :
    digestGroupHex d.1 group = hexEncode (groupOf 8 d.1 group).reverse := by
  have hlen : ((d.1.drop (group * 8)).take 8).length = 8 := length_groupOf d.2 hgroup
  rw [digestGroupHex, putBeUint64, putLeUint64_leUint64 hlen]
  rfl

/-- The text is the plain one of the reversed groups. -/
theorem digestToHex_eq (d : Hash) : digestToHex d = hexEncode (swapGroups d.1) := by
  rw [digestToHex, digestGroupHex_eq d (by decide), digestGroupHex_eq d (by decide),
    digestGroupHex_eq d (by decide), digestGroupHex_eq d (by decide), swapGroups]
  simp only [hexEncode_append]

/-! ## Reading -/

theorem parseGroup_ok {s : Bytes} {group : Nat} {b : { b : Bytes // b.length = 8 }}
    (hlen : (groupOf 16 s group).length = 16) (h : parseGroup s group = .ok b) :
    hexDecode (groupOf 16 s group) = some b.1.reverse := by
  have hslice : (s.drop (group * 16)).take 16 = groupOf 16 s group := rfl
  rw [parseGroup, hslice] at h
  cases hraw : hexDecode (groupOf 16 s group) with
  | none =>
      rw [hraw] at h
      cases h
  | some raw =>
      rw [hraw] at h
      cases h
      have hlength := length_of_hexDecode hraw
      rw [hlen] at hlength
      have hreverse : raw.reverse.length = 8 := by
        rw [List.length_reverse]
        omega
      have hbytes : putLeUint64 (beUint64 raw) = raw.reverse := putLeUint64_leUint64 hreverse
      rw [Option.some_inj]
      exact (congrArg List.reverse hbytes).trans (List.reverse_reverse raw) |>.symm

theorem exists_parseGroup {s : Bytes} {group : Nat} (hlen : (groupOf 16 s group).length = 16)
    (hdigits : ∀ c ∈ s, isHexDigit c = true) : ∃ b, parseGroup s group = .ok b := by
  have hslice : (s.drop (group * 16)).take 16 = groupOf 16 s group := rfl
  have hsome : (hexDecode (groupOf 16 s group)).isSome := by
    apply isSome_hexDecode_iff.2
    refine ⟨by rw [hlen], ?_⟩
    intro c hc
    exact hdigits c (List.mem_of_mem_drop (List.mem_of_mem_take hc))
  obtain ⟨raw, hraw⟩ := Option.isSome_iff_exists.1 hsome
  exact ⟨⟨putLeUint64 (beUint64 raw), length_putLeUint64 _⟩, by rw [parseGroup, hslice, hraw]⟩

/-- The parser as the four parsed groups. -/
theorem parseMerkleHashHex_ok {s : Bytes} {d : Hash} (h : parseMerkleHashHex s = .ok d) :
    s.length = 64 ∧ hexDecode s = some (swapGroups d.1) := by
  rw [parseMerkleHashHex] at h
  by_cases hlen : s.length = 64
  · rw [if_neg (not_not.2 hlen)] at h
    have hgroup : ∀ group < 4, (groupOf 16 s group).length = 16 :=
      fun _ hgroup => length_groupOf hlen hgroup
    cases h₀ : parseGroup s 0 with
    | error e => simp [h₀, bind, Except.bind] at h
    | ok g₀ =>
      cases h₁ : parseGroup s 1 with
      | error e => simp [h₀, h₁, bind, Except.bind] at h
      | ok g₁ =>
        cases h₂ : parseGroup s 2 with
        | error e => simp [h₀, h₁, h₂, bind, Except.bind] at h
        | ok g₂ =>
          cases h₃ : parseGroup s 3 with
          | error e => simp [h₀, h₁, h₂, h₃, bind, Except.bind] at h
          | ok g₃ =>
            simp only [h₀, h₁, h₂, h₃, bind, Except.bind, Except.ok.injEq] at h
            subst h
            obtain ⟨hfirst, hsecond, hthird, hfourth⟩ := groupOf_append g₀.2 g₁.2 g₂.2 g₃.2
            refine ⟨hlen, ?_⟩
            -- The text is read group by group.
            have hjoin := hexDecode_append (hexDecode_append (hexDecode_append
              (parseGroup_ok (hgroup 0 (by decide)) h₀) (parseGroup_ok (hgroup 1 (by decide)) h₁))
              (parseGroup_ok (hgroup 2 (by decide)) h₂)) (parseGroup_ok (hgroup 3 (by decide)) h₃)
            rw [append_groupOf hlen] at hjoin
            rw [hjoin]
            simp only [swapGroups, hfirst, hsecond, hthird, hfourth]
  · rw [if_pos hlen] at h
    cases h

theorem exists_parseMerkleHashHex_iff {s : Bytes} :
    (∃ d, parseMerkleHashHex s = .ok d) ↔
      s.length = 64 ∧ ∀ c ∈ s, isHexDigit c = true := by
  constructor
  · rintro ⟨d, hd⟩
    obtain ⟨hlen, hdecode⟩ := parseMerkleHashHex_ok hd
    exact ⟨hlen, (isSome_hexDecode_iff.1 (Option.isSome_of_mem hdecode)).2⟩
  · rintro ⟨hlen, hdigits⟩
    have hgroup : ∀ group < 4, (groupOf 16 s group).length = 16 :=
      fun _ hgroup => length_groupOf hlen hgroup
    obtain ⟨g₀, h₀⟩ := exists_parseGroup (hgroup 0 (by decide)) hdigits
    obtain ⟨g₁, h₁⟩ := exists_parseGroup (hgroup 1 (by decide)) hdigits
    obtain ⟨g₂, h₂⟩ := exists_parseGroup (hgroup 2 (by decide)) hdigits
    obtain ⟨g₃, h₃⟩ := exists_parseGroup (hgroup 3 (by decide)) hdigits
    simp only [parseMerkleHashHex, hlen, ne_eq, not_true_eq_false, if_false, h₀, h₁, h₂, h₃, bind,
      Except.bind]
    exact ⟨_, rfl⟩

/-- Reading is plain hexadecimal followed by the swap. -/
theorem parseMerkleHashHex_ok_iff {s : Bytes} {d : Hash} :
    parseMerkleHashHex s = .ok d ↔ hexDecode s = some (swapGroups d.1) := by
  constructor
  · exact fun h => (parseMerkleHashHex_ok h).2
  · intro h
    have hlen : s.length = 64 := by
      rw [length_of_hexDecode h, length_swapGroups d.2]
    obtain ⟨d', hd'⟩ := exists_parseMerkleHashHex_iff.2
      ⟨hlen, (isSome_hexDecode_iff.1 (Option.isSome_of_mem h)).2⟩
    have hswap : swapGroups d'.1 = swapGroups d.1 :=
      Option.some_inj.1 ((parseMerkleHashHex_ok hd').2.symm.trans h)
    have hEq : d' = d := by
      apply Subtype.ext
      rw [← swapGroups_swapGroups d'.2, hswap, swapGroups_swapGroups d.2]
    rw [hd', hEq]

/-- The text of a digest that was read is the text it was read from, in lower case. -/
theorem digestToHex_of_parse {s : Bytes} {d : Hash} (h : parseMerkleHashHex s = .ok d) :
    digestToHex d = s.map lower := by
  rw [digestToHex_eq]
  exact hexEncode_of_hexDecode (parseMerkleHashHex_ok_iff.1 h)

/-- Every digest has its text, which is read back; every text of 64 hexadecimal digits is read, and
is the text of what was read up to the case of its digits; and the text is the plain one of the
digest with each group of eight bytes reversed. -/
theorem merkleHashHex_bijective :
    (∀ d, parseMerkleHashHex (digestToHex d) = .ok d) ∧
      (∀ s, (∃ d, parseMerkleHashHex s = .ok d) ↔
        s.length = 64 ∧ ∀ c ∈ s, isHexDigit c = true) ∧
      (∀ s d, parseMerkleHashHex s = .ok d → digestToHex d = s.map lower) ∧
      ∀ d, digestToHex d = hexEncode (swapGroups d.1) :=
  ⟨parseMerkleHashHex_digestToHex, fun _ => exists_parseMerkleHashHex_iff,
    fun _ _ => digestToHex_of_parse, digestToHex_eq⟩

end Gateway
end OpenWeights
