import OpenWeights.Lib.Encoding

/-!
# Text — numbers, base64 and form data as byte strings

Text is a list of bytes, as in `Encoding`.  Each format comes as a writer and a reader:

* `decimal`, `parseUint64`                  : decimal digits, no sign, at most 64 bits;
* `trimSpace`                               : white space removed on both sides;
* `base64UrlEncode`, `base64UrlDecode`      : base64 for URLs without padding; the reader skips line
  ends and ignores the bits left over;
* `formSerialize`, `formParse`              : `application/x-www-form-urlencoded` pairs; the reader
  drops a pair it cannot read;
* `Uuid.text`, `Uuid.read`                  : a UUID in lower case with hyphens.

The reader undoes the writer in each case, whatever the bytes are.
-/

namespace OpenWeights
namespace Lib

/-! ## Readers over lists -/

theorem mapM_eq_some_map {α β : Type} {f : α → Option β} {g : α → β} {l : List α}
    (h : ∀ a ∈ l, f a = some (g a)) : l.mapM f = some (l.map g) := by
  induction l with
  | nil => rfl
  | cons a l ih =>
      have hrest := ih fun b hb => h b (List.mem_cons_of_mem a hb)
      simp [List.mapM_cons, h a List.mem_cons_self, hrest]

theorem mapM_map_eq_some {α β : Type} {f : β → Option α} {g : α → β} {l : List α}
    (h : ∀ a ∈ l, f (g a) = some a) : (l.map g).mapM f = some l := by
  have hid : l.mapM (f ∘ g) = some (l.map id) := mapM_eq_some_map h
  rw [List.mapM_map, hid, List.map_id]

theorem mapM_eq_some_iff {α β : Type} {f : α → Option β} {l : List α} {bs : List β} :
    l.mapM f = some bs ↔ List.Forall₂ (fun a b => f a = some b) l bs := by
  induction l generalizing bs with
  | nil =>
      rw [List.mapM_nil, List.forall₂_nil_left_iff]
      exact ⟨fun h => (Option.some.inj h).symm, fun h => congrArg some h.symm⟩
  | cons a l ih =>
      rw [List.mapM_cons, List.forall₂_cons_left_iff]
      constructor
      · intro h
        rcases Option.bind_eq_some_iff.1 h with ⟨b, hb, h⟩
        rcases Option.bind_eq_some_iff.1 h with ⟨rest, hrest, hEq⟩
        cases hEq
        exact ⟨b, rest, hb, ih.1 hrest, rfl⟩
      · rintro ⟨b, rest, hb, hrest, rfl⟩
        simp only [hb, ih.2 hrest, Option.bind_eq_bind, Option.bind_some, Option.pure_def]

theorem exists_of_mapM_eq_some {α β : Type} {f : α → Option β} {l : List α} {bs : List β}
    (h : l.mapM f = some bs) : ∀ a ∈ l, ∃ b, f a = some b := by
  induction l generalizing bs with
  | nil => simp
  | cons a l ih =>
      rw [List.mapM_cons] at h
      rcases Option.bind_eq_some_iff.1 h with ⟨b, hb, h⟩
      rcases Option.bind_eq_some_iff.1 h with ⟨rest, hrest, -⟩
      intro a' ha'
      rcases List.mem_cons.1 ha' with rfl | ha'
      · exact ⟨b, hb⟩
      · exact ih hrest a' ha'

theorem exists_source_of_mapM_eq_some {α β : Type} {f : α → Option β} {l : List α} {bs : List β}
    (h : l.mapM f = some bs) : ∀ b ∈ bs, ∃ a ∈ l, f a = some b := by
  induction l generalizing bs with
  | nil =>
      cases h
      exact nofun
  | cons a l ih =>
      rw [List.mapM_cons] at h
      rcases Option.bind_eq_some_iff.1 h with ⟨b, hb, h⟩
      rcases Option.bind_eq_some_iff.1 h with ⟨rest, hrest, hEq⟩
      cases hEq
      intro b' hb'
      rcases List.mem_cons.1 hb' with rfl | hb'
      · exact ⟨a, List.mem_cons_self, hb⟩
      · obtain ⟨a', ha', hf⟩ := ih hrest b' hb'
        exact ⟨a', List.mem_cons_of_mem a ha', hf⟩

/-! ## Separated fields -/

/-- The text before and after the first separator. -/
def cutAt (sep : UInt8) : List UInt8 → Option (List UInt8 × List UInt8)
  | [] => none
  | c :: rest =>
      if c = sep then some ([], rest) else (cutAt sep rest).map fun p => (c :: p.1, p.2)

theorem cutAt_append {sep : UInt8} {before : List UInt8} (hsep : sep ∉ before)
    (after : List UInt8) : cutAt sep (before ++ sep :: after) = some (before, after) := by
  induction before with
  | nil => simp [cutAt]
  | cons c rest ih =>
      have hne : c ≠ sep := fun hEq => hsep (hEq ▸ List.mem_cons_self)
      have hrest := ih fun hmem => hsep (List.mem_cons_of_mem c hmem)
      simp [cutAt, hne, hrest]

theorem cutAt_eq_some {sep : UInt8} {s before after : List UInt8}
    (h : cutAt sep s = some (before, after)) : s = before ++ sep :: after ∧ sep ∉ before := by
  induction s generalizing before with
  | nil => cases h
  | cons c rest ih =>
      by_cases hc : c = sep
      · subst hc
        simp only [cutAt, if_true, Option.some.injEq, Prod.mk.injEq] at h
        obtain ⟨rfl, rfl⟩ := h
        exact ⟨rfl, List.not_mem_nil⟩
      · simp only [cutAt, hc, if_false, Option.map_eq_some_iff] at h
        obtain ⟨⟨before', after'⟩, hcut, hEq⟩ := h
        cases hEq
        obtain ⟨hsplit, hnot⟩ := ih hcut
        refine ⟨by rw [hsplit]; rfl, ?_⟩
        intro hmem
        rcases List.mem_cons.1 hmem with hEq | hmem
        · exact hc hEq.symm
        · exact hnot hmem

/-- The text up to the first CRLF, and the text after it. -/
def cutLine : List UInt8 → Option (List UInt8 × List UInt8)
  | [] => none
  | 13 :: 10 :: rest => some ([], rest)
  | c :: rest => (cutLine rest).map fun p => (c :: p.1, p.2)

theorem cutLine_append {line : List UInt8} (hline : 13 ∉ line) (rest : List UInt8) :
    cutLine (line ++ 13 :: 10 :: rest) = some (line, rest) := by
  induction line with
  | nil => rfl
  | cons c line ih =>
      rw [List.mem_cons, not_or] at hline
      rw [List.cons_append, cutLine.eq_3, ih hline.2]
      · rfl
      · intro rest' hEq
        exact absurd hEq.symm hline.1

/-- A field without the separator in it ends where the separator stands. -/
theorem eq_of_append_sep {sep : UInt8} {a a' b b' : List UInt8} (ha : sep ∉ a) (ha' : sep ∉ a')
    (h : a ++ sep :: b = a' ++ sep :: b') : a = a' ∧ b = b' := by
  have hcut := cutAt_append ha b
  rw [h, cutAt_append ha' b'] at hcut
  have hEq := Option.some.inj hcut
  exact ⟨(congrArg Prod.fst hEq).symm, (congrArg Prod.snd hEq).symm⟩

/-- The separator is in none of the fields it separates. -/
theorem not_mem_of_mem_splitOn {sep : UInt8} {s part : List UInt8} (h : part ∈ s.splitOn sep) :
    sep ∉ part := by
  induction s generalizing part with
  | nil =>
      rw [List.splitOn_nil, List.mem_singleton] at h
      rw [h]
      exact List.not_mem_nil
  | cons c rest ih =>
      rw [List.splitOn_cons_eq_if_modifyHead] at h
      by_cases hc : c = sep
      · rw [if_pos (beq_iff_eq.2 hc)] at h
        rcases List.mem_cons.1 h with rfl | h
        · exact List.not_mem_nil
        · exact ih h
      · rw [if_neg fun hEq => hc (beq_iff_eq.1 hEq)] at h
        cases hrest : rest.splitOn sep with
        | nil => exact absurd hrest (List.splitOn_ne_nil sep rest)
        | cons first fields =>
            rw [hrest, List.modifyHead_cons] at h
            rcases List.mem_cons.1 h with rfl | h
            · -- The first field grows by a byte that is not the separator.
              rw [List.mem_cons, not_or]
              exact ⟨fun hEq => hc hEq.symm, ih (hrest ▸ List.mem_cons_self)⟩
            · exact ih (hrest ▸ List.mem_cons_of_mem first h)

theorem mem_of_mem_splitOn {c sep : UInt8} {s part : List UInt8} (hpart : part ∈ s.splitOn sep)
    (hc : c ∈ part) : c ∈ s := by
  have hjoin : [sep].intercalate (s.splitOn sep) = s := List.intercalate_splitOn sep
  rw [← hjoin]
  generalize s.splitOn sep = parts at hpart
  rw [List.intercalate]
  refine List.mem_flatten.2 ⟨part, ?_, hc⟩
  induction parts with
  | nil => cases hpart
  | cons first parts ih =>
      cases parts with
      | nil => exact hpart
      | cons second parts =>
          rcases List.mem_cons.1 hpart with rfl | hpart
          · exact List.mem_cons_self
          · exact List.mem_cons_of_mem _ (List.mem_cons_of_mem _ (ih hpart))

theorem length_splitOn_le (sep : UInt8) (s : List UInt8) :
    (s.splitOn sep).length ≤ s.length + 1 := by
  induction s with
  | nil => simp
  | cons c rest ih =>
      rw [List.splitOn_cons_eq_if_modifyHead, List.length_cons]
      split
      · rw [List.length_cons]
        omega
      · rw [List.length_modifyHead]
        omega

theorem mem_intercalate {sep c : UInt8} {parts : List (List UInt8)} (h : c ∈ [sep].intercalate parts) :
    c = sep ∨ ∃ part ∈ parts, c ∈ part := by
  induction parts with
  | nil => simp at h
  | cons part parts ih =>
      cases parts with
      | nil => exact .inr ⟨part, List.mem_cons_self, by simpa using h⟩
      | cons part' parts =>
          rw [List.intercalate_cons_cons] at h
          rcases List.mem_append.1 h with h | h
          · rcases List.mem_append.1 h with h | h
            · exact .inr ⟨part, List.mem_cons_self, h⟩
            · exact .inl (List.mem_singleton.1 h)
          · rcases ih h with hEq | ⟨part'', hmem, hc⟩
            · exact .inl hEq
            · exact .inr ⟨part'', List.mem_cons_of_mem part hmem, hc⟩

/-! ## Decimal numbers -/

def decimal (n : Nat) : List UInt8 :=
  (Nat.toDigits 10 n).map fun c => UInt8.ofNat c.toNat

theorem length_decimal_le {n digits : Nat} (hdigits : 0 < digits) (h : n < 10 ^ digits) :
    (decimal n).length ≤ digits := by
  rw [decimal, List.length_map]
  exact Nat.toDigits_length 10 n digits hdigits h

def digitValue (c : UInt8) : Option Nat :=
  if 48 ≤ c ∧ c ≤ 57 then some (c.toNat - 48) else none

/-- Read digits, the number read so far being `acc`. -/
def digitsValue : Nat → List UInt8 → Option Nat
  | acc, [] => some acc
  | acc, c :: rest =>
      match digitValue c with
      | none => none
      | some d => digitsValue (10 * acc + d) rest

/-- One digit or more, with a value below `2 ^ 64`. -/
def parseUint64 (s : List UInt8) : Option UInt64 :=
  if s = [] then
    none
  else
    match digitsValue 0 s with
    | none => none
    | some n => if n < 2 ^ 64 then some (UInt64.ofNat n) else none

theorem digitValue_digitChar {d : Nat} (hd : d < 10) :
    digitValue (UInt8.ofNat (Nat.digitChar d).toNat) = some d := by
  revert d
  decide

theorem digitsValue_append {s t : List UInt8} {acc n : Nat} (h : digitsValue acc s = some n) :
    digitsValue acc (s ++ t) = digitsValue n t := by
  induction s generalizing acc with
  | nil =>
      cases h
      rfl
  | cons c rest ih =>
      simp only [digitsValue, List.cons_append] at h ⊢
      cases hc : digitValue c with
      | none =>
          rw [hc] at h
          cases h
      | some d =>
          rw [hc] at h
          exact ih h

theorem digitsValue_decimal (n : Nat) : digitsValue 0 (decimal n) = some n := by
  induction n using Nat.strong_induction_on with
  | _ n ih =>
      by_cases hn : n < 10
      · simp [decimal, Nat.toDigits_of_lt_base hn, digitsValue, digitValue_digitChar hn]
      · -- All digits but the last are those of the quotient.
        have hsplit : decimal n =
            decimal (n / 10) ++ [UInt8.ofNat (Nat.digitChar (n % 10)).toNat] := by
          rw [decimal, Nat.toDigits_of_base_le (by decide) (Nat.le_of_not_lt hn), List.map_append]
          rfl
        have hlast := digitValue_digitChar (Nat.mod_lt n (by decide : 10 > 0))
        rw [hsplit, digitsValue_append (ih (n / 10) (by omega))]
        simp only [digitsValue, hlast]
        exact congrArg some (by omega)

theorem decimal_ne_nil (n : Nat) : decimal n ≠ [] := by
  simp [decimal, Nat.toDigits_ne_nil]

theorem decimal_injective : Function.Injective decimal := by
  intro m n hEq
  have hm := digitsValue_decimal m
  rw [hEq, digitsValue_decimal n] at hm
  exact (Option.some.inj hm).symm

@[simp] theorem parseUint64_decimal (v : UInt64) : parseUint64 (decimal v.toNat) = some v := by
  simp [parseUint64, decimal_ne_nil, digitsValue_decimal, v.toNat_lt]

/-- The number that a text of digits stands for. -/
def decimalValue (acc : Nat) (s : List UInt8) : Nat :=
  s.foldl (fun n c => 10 * n + (c.toNat - 48)) acc

/-- An unsigned 64-bit decimal; leading zeros are allowed. -/
structure Decimal64 (s : List UInt8) (n : Nat) : Prop where
  ne_nil : s ≠ []
  digits : ∀ c ∈ s, 48 ≤ c ∧ c ≤ 57
  value : decimalValue 0 s = n
  lt : n < 2 ^ 64

theorem digitsValue_eq_some_iff {s : List UInt8} {acc n : Nat} :
    digitsValue acc s = some n ↔ (∀ c ∈ s, 48 ≤ c ∧ c ≤ 57) ∧ decimalValue acc s = n := by
  induction s generalizing acc with
  | nil => simp [digitsValue, decimalValue]
  | cons c rest ih =>
      by_cases hc : 48 ≤ c ∧ c ≤ 57
      · have hvalue : digitValue c = some (c.toNat - 48) := if_pos hc
        simp only [digitsValue, hvalue, ih, List.forall_mem_cons, hc, decimalValue,
          List.foldl_cons, true_and, and_self]
      · have hvalue : digitValue c = none := if_neg hc
        simp only [digitsValue, hvalue, List.forall_mem_cons, hc, false_and, reduceCtorEq]

theorem parseUint64_eq_some_iff {s : List UInt8} {v : UInt64} :
    parseUint64 s = some v ↔ Decimal64 s v.toNat := by
  unfold parseUint64
  by_cases hne : s = []
  · rw [if_pos hne]
    exact ⟨nofun, fun h => absurd hne h.ne_nil⟩
  · rw [if_neg hne]
    cases hread : digitsValue 0 s with
    | none =>
        refine ⟨nofun, fun h => ?_⟩
        have hsome := digitsValue_eq_some_iff.2 ⟨h.digits, h.value⟩
        rw [hread] at hsome
        cases hsome
    | some n =>
        obtain ⟨hdigits, hvalue⟩ := digitsValue_eq_some_iff.1 hread
        constructor
        · intro h
          by_cases hlt : n < 2 ^ 64
          · simp only [hlt, if_true, Option.some.injEq] at h
            have hn : v.toNat = n := by
              rw [← h, UInt64.toNat_ofNat', Nat.mod_eq_of_lt hlt]
            exact ⟨hne, hdigits, hvalue.trans hn.symm, v.toNat_lt⟩
          · simp only [hlt, if_false, reduceCtorEq] at h
        · intro h
          have hn : n = v.toNat := hvalue.symm.trans h.value
          simp [hn, v.toNat_lt]

theorem Decimal64.exists_parseUint64 {s : List UInt8} {n : Nat} (h : Decimal64 s n) :
    ∃ v : UInt64, parseUint64 s = some v ∧ v.toNat = n := by
  have hn : (UInt64.ofNat n).toNat = n := by rw [UInt64.toNat_ofNat', Nat.mod_eq_of_lt h.lt]
  exact ⟨UInt64.ofNat n, parseUint64_eq_some_iff.2 (hn.symm ▸ h), hn⟩

theorem isDigit_of_parseUint64 {s : List UInt8} {v : UInt64} (h : parseUint64 s = some v) :
    s ≠ [] ∧ ∀ c ∈ s, 48 ≤ c ∧ c ≤ 57 :=
  ⟨(parseUint64_eq_some_iff.1 h).ne_nil, (parseUint64_eq_some_iff.1 h).digits⟩

theorem isDigit_decimal (n : Nat) : ∀ c ∈ decimal n, 48 ≤ c ∧ c ≤ 57 :=
  (digitsValue_eq_some_iff.1 (digitsValue_decimal n)).1

/-- An integer in decimal, with a minus sign if it has to be. -/
def formatInt (n : Int) : List UInt8 :=
  if n < 0 then 45 :: decimal n.natAbs else decimal n.toNat

def parseDigits (s : List UInt8) : Option Nat :=
  if s = [] then none else digitsValue 0 s

/-- An optional sign and one digit or more. -/
def parseSigned : List UInt8 → Option Int
  | 43 :: rest => (parseDigits rest).map Int.ofNat
  | 45 :: rest => (parseDigits rest).map fun n => -Int.ofNat n
  | s => (parseDigits s).map Int.ofNat

/-- The same, with a value of 64 bits. -/
def parseInt64 (s : List UInt8) : Option Int :=
  (parseSigned s).filter fun n => decide (-2 ^ 63 ≤ n ∧ n < 2 ^ 63)

theorem parseDigits_decimal (n : Nat) : parseDigits (decimal n) = some n := by
  rw [parseDigits, if_neg (decimal_ne_nil n), digitsValue_decimal]

theorem parseSigned_formatInt (n : Int) : parseSigned (formatInt n) = some n := by
  by_cases hneg : n < 0
  · have habs : -Int.ofNat n.natAbs = n := by
      rw [Int.ofNat_eq_natCast]
      omega
    rw [formatInt, if_pos hneg, parseSigned, parseDigits_decimal, Option.map_some, habs]
  · have hvalue : Int.ofNat n.toNat = n := Int.toNat_of_nonneg (by omega)
    have hdigits := isDigit_decimal n.toNat
    have hparse := parseDigits_decimal n.toNat
    rw [formatInt, if_neg hneg]
    cases hd : decimal n.toNat with
    | nil => exact absurd hd (decimal_ne_nil _)
    | cons c rest =>
        rw [hd] at hdigits hparse
        -- The first digit is no sign.
        have hc := (hdigits c List.mem_cons_self).1
        have hplus : c ≠ 43 := by
          rintro rfl
          exact absurd hc (by decide)
        have hminus : c ≠ 45 := by
          rintro rfl
          exact absurd hc (by decide)
        rw [parseSigned.eq_def]
        split
        · rename_i hEq
          exact absurd (List.cons.inj hEq).1 hplus
        · rename_i hEq
          exact absurd (List.cons.inj hEq).1 hminus
        · rw [hparse, Option.map_some, hvalue]

theorem formatInt_injective : Function.Injective formatInt := by
  intro m n hEq
  have hm := parseSigned_formatInt m
  rw [hEq, parseSigned_formatInt n] at hm
  exact (Option.some.inj hm).symm

theorem formatInt_natCast (n : Nat) : formatInt n = decimal n := by
  rw [formatInt, if_neg (by omega), Int.toNat_natCast]

theorem parseInt64_formatInt {n : Int} (hlow : -2 ^ 63 ≤ n) (hhigh : n < 2 ^ 63) :
    parseInt64 (formatInt n) = some n := by
  rw [parseInt64, parseSigned_formatInt]
  exact if_pos (decide_eq_true (And.intro hlow hhigh))

/-! ## White space -/

/-- The characters with the Unicode property White_Space, in UTF-8. -/
def spaces : List (List UInt8) :=
  [[9], [10], [11], [12], [13], [32], [0xC2, 0x85], [0xC2, 0xA0], [0xE1, 0x9A, 0x80]] ++
    (List.range 11).map (fun i => [0xE2, 0x80, UInt8.ofNat (0x80 + i)]) ++
    [[0xE2, 0x80, 0xA8], [0xE2, 0x80, 0xA9], [0xE2, 0x80, 0xAF], [0xE2, 0x81, 0x9F],
      [0xE3, 0x80, 0x80]]

/-- Drop characters from the front as long as they are among `chars`; a turn drops at least a byte,
so `fuel` need not exceed the length. -/
def trimFront (chars : List (List UInt8)) : Nat → List UInt8 → List UInt8
  | 0, s => s
  | fuel + 1, s =>
      match chars.find? fun c => c.isPrefixOf s with
      | none => s
      | some c => trimFront chars fuel (s.drop c.length)

def trimSpace (s : List UInt8) : List UInt8 :=
  let front := trimFront spaces s.length s
  -- From the back the bytes of a character come in the other order.
  (trimFront (spaces.map List.reverse) front.length front.reverse).reverse

/-- No character of white space starts or ends with this byte. -/
def solid (c : UInt8) : Bool :=
  spaces.all fun s => s.head? != some c && s.getLast? != some c

theorem trimFront_of_solid {chars : List (List UInt8)} {fuel : Nat} {c : UInt8} {rest : List UInt8}
    (h : ∀ s ∈ chars, ∃ d tail, s = d :: tail ∧ d ≠ c) :
    trimFront chars fuel (c :: rest) = c :: rest := by
  cases fuel with
  | zero => rfl
  | succ fuel =>
      have hnone : (chars.find? fun s => s.isPrefixOf (c :: rest)) = none := by
        rw [List.find?_eq_none]
        intro s hs
        obtain ⟨d, tail, rfl, hne⟩ := h s hs
        simp [List.isPrefixOf, hne]
      rw [trimFront, hnone]

theorem ne_head_of_solid {c : UInt8} (hc : solid c) :
    ∀ s ∈ spaces, ∃ d tail, s = d :: tail ∧ d ≠ c := by
  have hspaces : ∀ s ∈ spaces, s ≠ [] := by decide
  intro s hs
  cases s with
  | nil => exact absurd rfl (hspaces [] hs)
  | cons d tail =>
      have hsolid := List.all_eq_true.1 hc _ hs
      simp only [List.head?_cons, Bool.and_eq_true, bne_iff_ne, ne_eq, Option.some.injEq] at hsolid
      exact ⟨d, tail, rfl, hsolid.1⟩

theorem ne_last_of_solid {c : UInt8} (hc : solid c) :
    ∀ s ∈ spaces.map List.reverse, ∃ d tail, s = d :: tail ∧ d ≠ c := by
  intro s hs
  obtain ⟨space, hspace, rfl⟩ := List.mem_map.1 hs
  have hne : space ≠ [] := by
    have hspaces : ∀ s ∈ spaces, s ≠ [] := by decide
    exact hspaces space hspace
  have hsolid := List.all_eq_true.1 hc _ hspace
  simp only [Bool.and_eq_true, bne_iff_ne] at hsolid
  cases hrev : space.reverse with
  | nil => exact absurd (List.reverse_eq_nil_iff.1 hrev) hne
  | cons d tail =>
      refine ⟨d, tail, rfl, ?_⟩
      rintro rfl
      refine hsolid.2 ?_
      rw [← List.head?_reverse, hrev]
      rfl

/-- Text of solid bytes is left as it is. -/
theorem trimSpace_of_solid {s : List UInt8} (h : ∀ c ∈ s, solid c = true) : trimSpace s = s := by
  rcases List.eq_nil_or_concat' s with rfl | ⟨front, d, rfl⟩
  · rfl
  · have hfront : trimFront spaces (front ++ [d]).length (front ++ [d]) = front ++ [d] := by
      cases front with
      | nil => exact trimFront_of_solid (ne_head_of_solid (h d (by simp)))
      | cons c rest => exact trimFront_of_solid (ne_head_of_solid (h c List.mem_cons_self))
    have hback : trimFront (spaces.map List.reverse) (front ++ [d]).length (front ++ [d]).reverse =
        (front ++ [d]).reverse := by
      rw [List.reverse_append]
      exact trimFront_of_solid (ne_last_of_solid (h d (by simp)))
    simp only [trimSpace, hfront, hback, List.reverse_reverse]

theorem solid_of_digit {c : UInt8} (h : 48 ≤ c ∧ c ≤ 57) : solid c = true := by
  have hall : ∀ n : Fin 256, 48 ≤ UInt8.ofNat n ∧ UInt8.ofNat n ≤ 57 →
      solid (UInt8.ofNat n) = true := by
    decide +kernel
  have hc := hall ⟨c.toNat, c.toNat_lt⟩
  rw [UInt8.ofNat_toNat] at hc
  exact hc h

theorem trimSpace_decimal (n : Nat) : trimSpace (decimal n) = decimal n :=
  trimSpace_of_solid fun c hc => solid_of_digit (isDigit_decimal n c hc)

/-- Trimming stops at the latest before a byte that no white space contains, and what follows that
byte has no say in it. -/
theorem trimFront_append {chars : List (List UInt8)} {c : UInt8} (hc : ∀ s ∈ chars, c ∉ s)
    (fuel : Nat) (front rest : List UInt8) :
    trimFront chars fuel (front ++ c :: rest) = trimFront chars fuel front ++ c :: rest := by
  induction fuel generalizing front with
  | zero => rfl
  | succ fuel ih =>
      have hprefix : ∀ s ∈ chars, s.isPrefixOf (front ++ c :: rest) = s.isPrefixOf front := by
        intro s hs
        rw [Bool.eq_iff_iff, List.isPrefixOf_iff_prefix, List.isPrefixOf_iff_prefix]
        constructor
        · intro hstarts
          -- A prefix that reached past `front` would contain `c`.
          have hlen : s.length ≤ front.length := by
            by_contra hlong
            have hshort : front ++ [c] <+: s := by
              refine List.prefix_of_prefix_length_le ?_ hstarts ?_
              · exact ⟨rest, by simp⟩
              · simp only [List.length_append, List.length_singleton]
                omega
            exact hc s hs (hshort.subset (by simp))
          exact List.prefix_of_prefix_length_le hstarts (List.prefix_append front _) hlen
        · intro hstarts
          exact hstarts.trans (List.prefix_append front _)
      have hsame : (chars.find? fun s => s.isPrefixOf (front ++ c :: rest)) =
          chars.find? fun s => s.isPrefixOf front :=
        List.find?_congr hprefix
      rw [trimFront, trimFront, hsame]
      cases hfind : chars.find? fun s => s.isPrefixOf front with
      | none => rfl
      | some s =>
          have hfound := List.find?_some hfind
          have hstarts : s <+: front := List.isPrefixOf_iff_prefix.1 hfound
          show trimFront chars fuel ((front ++ c :: rest).drop s.length) =
            trimFront chars fuel (front.drop s.length) ++ c :: rest
          rw [List.drop_append_of_le_length hstarts.length_le]
          exact ih (front.drop s.length)

theorem isSuffix_trimFront (chars : List (List UInt8)) (fuel : Nat) (s : List UInt8) :
    trimFront chars fuel s <:+ s := by
  induction fuel generalizing s with
  | zero => exact List.suffix_rfl
  | succ fuel ih =>
      rw [trimFront]
      split
      · exact List.suffix_rfl
      · exact (ih _).trans (List.drop_suffix _ s)

/-- Trimming changes nothing exactly if the text starts with none of the characters. -/
theorem trimFront_eq_self_iff {chars : List (List UInt8)} (hne : ∀ c ∈ chars, c ≠ []) {fuel : Nat}
    {s : List UInt8} (hfuel : s.length ≤ fuel) :
    trimFront chars fuel s = s ↔ ∀ c ∈ chars, ¬c <+: s := by
  cases fuel with
  | zero =>
      have hs : s = [] := List.length_eq_zero_iff.1 (Nat.le_zero.1 hfuel)
      subst hs
      exact iff_of_true rfl fun c hc hstarts => hne c hc (List.prefix_nil.1 hstarts)
  | succ fuel =>
      rw [trimFront]
      cases hfind : chars.find? fun c => c.isPrefixOf s with
      | none =>
          refine iff_of_true rfl ?_
          intro c hc hstarts
          exact List.find?_eq_none.1 hfind c hc (List.isPrefixOf_iff_prefix.2 hstarts)
      | some c =>
          have hmem : c ∈ chars := List.mem_of_find?_eq_some hfind
          have hfound := List.find?_some hfind
          have hstarts : c <+: s := List.isPrefixOf_iff_prefix.1 hfound
          refine iff_of_false ?_ fun hnone => hnone c hmem hstarts
          intro hself
          -- What is left is shorter by the character that was found.
          have hshort : (trimFront chars fuel (s.drop c.length)).length ≤ s.length - c.length := by
            simpa using (isSuffix_trimFront chars fuel (s.drop c.length)).length_le
          have hpos : 0 < c.length := List.length_pos_iff.2 (hne c hmem)
          have hle : c.length ≤ s.length := hstarts.length_le
          have hEq : (trimFront chars fuel (s.drop c.length)).length = s.length :=
            congrArg List.length hself
          omega

theorem spaces_ne_nil : ∀ s ∈ spaces, s ≠ [] := by decide

theorem spaces_reverse_ne_nil : ∀ s ∈ spaces.map List.reverse, s ≠ [] := by decide

/-- The part of the text that trimming the back keeps. -/
def trimBack (s : List UInt8) : List UInt8 :=
  (trimFront (spaces.map List.reverse) s.length s.reverse).reverse

theorem trimSpace_eq (s : List UInt8) : trimSpace s = trimBack (trimFront spaces s.length s) :=
  rfl

theorem isPrefix_trimBack (s : List UInt8) : trimBack s <+: s := by
  have hsuffix := isSuffix_trimFront (spaces.map List.reverse) s.length s.reverse
  simpa [trimBack] using List.reverse_prefix.2 hsuffix

theorem trimBack_eq_self_iff {s : List UInt8} : trimBack s = s ↔ ∀ c ∈ spaces, ¬c <:+ s := by
  have hrev : trimBack s = s ↔
      trimFront (spaces.map List.reverse) s.length s.reverse = s.reverse := by
    rw [trimBack, List.reverse_eq_iff]
  have hfuel : s.reverse.length ≤ s.length := s.length_reverse.le
  rw [hrev, trimFront_eq_self_iff spaces_reverse_ne_nil hfuel]
  simp only [List.forall_mem_map, List.reverse_prefix]

theorem isInfix_trimSpace (s : List UInt8) : trimSpace s <:+: s := by
  rw [trimSpace_eq]
  exact (isPrefix_trimBack _).isInfix.trans (isSuffix_trimFront spaces s.length s).isInfix

/-- Trimming changes nothing exactly if no white space stands at either end. -/
theorem trimSpace_eq_self_iff {s : List UInt8} :
    trimSpace s = s ↔ (∀ c ∈ spaces, ¬c <+: s) ∧ ∀ c ∈ spaces, ¬c <:+ s := by
  rw [← trimFront_eq_self_iff spaces_ne_nil s.length.le_refl, ← trimBack_eq_self_iff]
  constructor
  · intro h
    rw [trimSpace_eq] at h
    -- Neither trim can have dropped anything.
    have hback := (isPrefix_trimBack (trimFront spaces s.length s)).length_le
    have hfront : trimFront spaces s.length s = s := by
      refine (isSuffix_trimFront spaces s.length s).eq_of_length_le ?_
      rwa [h] at hback
    rw [hfront] at h
    exact ⟨hfront, h⟩
  · rintro ⟨hfront, hback⟩
    rw [trimSpace_eq, hfront, hback]

/-- From the length of the text on, more fuel changes nothing. -/
theorem trimFront_fuel {chars : List (List UInt8)} (hne : ∀ c ∈ chars, c ≠ []) {fuel fuel' : Nat}
    {s : List UInt8} (hfuel : s.length ≤ fuel) (hfuel' : s.length ≤ fuel') :
    trimFront chars fuel s = trimFront chars fuel' s := by
  induction fuel generalizing fuel' s with
  | zero =>
      have hs : s = [] := List.length_eq_zero_iff.1 (Nat.le_zero.1 hfuel)
      subst hs
      refine ((trimFront_eq_self_iff hne hfuel').2 ?_).symm
      exact fun c hc hstarts => hne c hc (List.prefix_nil.1 hstarts)
  | succ fuel ih =>
      by_cases hself : ∀ c ∈ chars, ¬c <+: s
      · exact ((trimFront_eq_self_iff hne hfuel).2 hself).trans
          ((trimFront_eq_self_iff hne hfuel').2 hself).symm
      · cases fuel' with
        | zero =>
            have hs : s = [] := List.length_eq_zero_iff.1 (Nat.le_zero.1 hfuel')
            subst hs
            exact absurd (fun c hc hstarts => hne c hc (List.prefix_nil.1 hstarts)) hself
        | succ fuel' =>
            rw [trimFront, trimFront]
            cases hfind : chars.find? fun c => c.isPrefixOf s with
            | none => rfl
            | some c =>
                -- Both sides go on with the same, shorter text.
                have hpos : 0 < c.length :=
                  List.length_pos_iff.2 (hne c (List.mem_of_find?_eq_some hfind))
                apply ih
                · simp only [List.length_drop]
                  omega
                · simp only [List.length_drop]
                  omega

/-- Trimming leaves everything up to a byte that no white space contains. -/
theorem trimSpace_append {c d : UInt8} (hd : solid d = true) (hc : ∀ s ∈ spaces, c ∉ s)
    (front rest : List UInt8) :
    trimSpace (d :: front ++ c :: rest) = d :: front ++ c :: trimBack rest := by
  have hfront : trimFront spaces (d :: front ++ c :: rest).length (d :: front ++ c :: rest) =
      d :: front ++ c :: rest :=
    trimFront_of_solid (ne_head_of_solid hd)
  have hrev : (d :: front ++ c :: rest).reverse = rest.reverse ++ c :: (d :: front).reverse := by
    simp
  have hc' : ∀ s ∈ spaces.map List.reverse, c ∉ s := by
    intro s hs
    obtain ⟨space, hspace, rfl⟩ := List.mem_map.1 hs
    simpa using hc space hspace
  have hlen : rest.reverse.length ≤ (d :: front ++ c :: rest).length := by
    simp only [List.length_reverse, List.length_append, List.length_cons]
    omega
  have hback := trimFront_fuel spaces_reverse_ne_nil hlen (rest.length_reverse.le)
  simp only [trimSpace, hfront, hrev, trimFront_append hc', hback, trimBack]
  simp

/-- White space in front of a text is dropped, however much of it there is. -/
theorem trimFront_flatten {chars ws : List (List UInt8)} (hne : ∀ c ∈ chars, c ≠ [])
    (hfree : ∀ a ∈ chars, ∀ b ∈ chars, a <+: b → a = b) (hws : ∀ w ∈ ws, w ∈ chars)
    {rest : List UInt8} (hrest : ∀ c ∈ chars, ¬c <+: rest) {fuel : Nat}
    (hfuel : (ws.flatten ++ rest).length ≤ fuel) :
    trimFront chars fuel (ws.flatten ++ rest) = rest := by
  induction ws generalizing fuel with
  | nil => exact (trimFront_eq_self_iff hne hfuel).2 hrest
  | cons w ws ih =>
      have hw : w ∈ chars := hws w List.mem_cons_self
      have hpos : 0 < w.length := List.length_pos_iff.2 (hne w hw)
      rw [List.flatten_cons, List.append_assoc] at hfuel ⊢
      rw [List.length_append] at hfuel
      have hstarts : w <+: w ++ (ws.flatten ++ rest) := List.prefix_append w _
      cases fuel with
      | zero => omega
      | succ fuel =>
          rw [trimFront]
          cases hfind : chars.find? fun c => c.isPrefixOf (w ++ (ws.flatten ++ rest)) with
          | none =>
              have hno := List.find?_eq_none.1 hfind w hw
              exact absurd (List.isPrefixOf_iff_prefix.2 hstarts) hno
          | some c =>
              -- No character is the beginning of another one, so it is `w` that was found.
              have hc : c ∈ chars := List.mem_of_find?_eq_some hfind
              have hfound := List.find?_some hfind
              have hcstarts : c <+: w ++ (ws.flatten ++ rest) :=
                List.isPrefixOf_iff_prefix.1 hfound
              have hEq : c = w := by
                rcases List.prefix_or_prefix_of_prefix hcstarts hstarts with hcw | hwc
                · exact hfree c hc w hw hcw
                · exact (hfree w hw c hc hwc).symm
              subst hEq
              show trimFront chars fuel ((c ++ (ws.flatten ++ rest)).drop c.length) = rest
              rw [List.drop_left]
              apply ih fun w hw => hws w (List.mem_cons_of_mem c hw)
              omega

/-- White space and nothing else. -/
def Blank (s : List UInt8) : Prop :=
  ∃ ws : List (List UInt8), (∀ w ∈ ws, w ∈ spaces) ∧ ws.flatten = s

theorem not_prefix_of_solid {c : UInt8} (hc : solid c = true) (rest : List UInt8) :
    ∀ s ∈ spaces, ¬s <+: c :: rest := by
  intro s hs hstarts
  obtain ⟨d, tail, rfl, hne⟩ := ne_head_of_solid hc s hs
  exact hne (List.cons_prefix_cons.1 hstarts).1

theorem not_prefix_reverse_of_solid {c : UInt8} (hc : solid c = true) (rest : List UInt8) :
    ∀ s ∈ spaces.map List.reverse, ¬s <+: c :: rest := by
  intro s hs hstarts
  obtain ⟨d, tail, rfl, hne⟩ := ne_last_of_solid hc s hs
  exact hne (List.cons_prefix_cons.1 hstarts).1

/-- Trimming takes off all white space around a text of solid bytes, and nothing more. -/
theorem trimSpace_blank {s before after : List UInt8} (hne : s ≠ [])
    (hs : ∀ c ∈ s, solid c = true) (hbefore : Blank before) (hafter : Blank after) :
    trimSpace (before ++ s ++ after) = s := by
  obtain ⟨ws, hws, rfl⟩ := hbefore
  obtain ⟨ws', hws', rfl⟩ := hafter
  have hfree : ∀ a ∈ spaces, ∀ b ∈ spaces, a <+: b → a = b := by decide +kernel
  have hfree' : ∀ a ∈ spaces.map List.reverse, ∀ b ∈ spaces.map List.reverse, a <+: b → a = b := by
    decide +kernel
  have hfront : trimFront spaces (ws.flatten ++ s ++ ws'.flatten).length
      (ws.flatten ++ s ++ ws'.flatten) = s ++ ws'.flatten := by
    rw [List.append_assoc]
    apply trimFront_flatten spaces_ne_nil hfree hws ?_ (Nat.le_refl _)
    cases s with
    | nil => exact absurd rfl hne
    | cons c rest => exact not_prefix_of_solid (hs c List.mem_cons_self) _
  have hreverse : (s ++ ws'.flatten).reverse =
      (ws'.reverse.map List.reverse).flatten ++ s.reverse := by
    rw [List.reverse_append, List.reverse_flatten, List.map_reverse]
  have hback : trimFront (spaces.map List.reverse) (s ++ ws'.flatten).length
      (s ++ ws'.flatten).reverse = s.reverse := by
    rw [hreverse]
    apply trimFront_flatten spaces_reverse_ne_nil hfree'
    · intro w hw
      obtain ⟨v, hv, rfl⟩ := List.mem_map.1 hw
      exact List.mem_map_of_mem (hws' v (List.mem_reverse.1 hv))
    · rcases List.eq_nil_or_concat' s with rfl | ⟨front, c, rfl⟩
      · exact absurd rfl hne
      · rw [List.reverse_append]
        exact not_prefix_reverse_of_solid (hs c (by simp)) _
    · rw [← hreverse, List.length_reverse]
  simp only [trimSpace, hfront, hback, List.reverse_reverse]

/-! ## Base64 for URLs -/

def base64Digit (n : Nat) : UInt8 :=
  if n < 26 then UInt8.ofNat (65 + n)
  else if n < 52 then UInt8.ofNat (71 + n)
  else if n < 62 then UInt8.ofNat (n - 4)
  else if n = 62 then 45
  else 95

def base64Value (c : UInt8) : Option Nat :=
  if 65 ≤ c ∧ c ≤ 90 then some (c.toNat - 65)
  else if 97 ≤ c ∧ c ≤ 122 then some (c.toNat - 71)
  else if 48 ≤ c ∧ c ≤ 57 then some (c.toNat + 4)
  else if c = 45 then some 62
  else if c = 95 then some 63
  else none

/-- The bytes cut into groups of six bits, the last one filled up with zeros. -/
def sextets : List UInt8 → List Nat
  | [] => []
  | [a] => [a.toNat / 4, a.toNat % 4 * 16]
  | [a, b] => [a.toNat / 4, a.toNat % 4 * 16 + b.toNat / 16, b.toNat % 16 * 4]
  | a :: b :: c :: rest =>
      [a.toNat / 4, a.toNat % 4 * 16 + b.toNat / 16, b.toNat % 16 * 4 + c.toNat / 64,
        c.toNat % 64] ++ sextets rest

/-- The whole bytes in groups of six bits; a single group is not enough for one. -/
def ofSextets : List Nat → Option (List UInt8)
  | [] => some []
  | [_] => none
  | [p, q] => some [UInt8.ofNat (p * 4 + q / 16)]
  | [p, q, r] => some [UInt8.ofNat (p * 4 + q / 16), UInt8.ofNat (q % 16 * 16 + r / 4)]
  | p :: q :: r :: s :: rest =>
      (ofSextets rest).map fun bytes =>
        [UInt8.ofNat (p * 4 + q / 16), UInt8.ofNat (q % 16 * 16 + r / 4),
          UInt8.ofNat (r % 4 * 64 + s)] ++ bytes

def base64UrlEncode (bytes : List UInt8) : List UInt8 :=
  (sextets bytes).map base64Digit

/-- The digits of a text in which line ends are skipped. -/
def base64Values : List UInt8 → Option (List Nat)
  | [] => some []
  | c :: rest =>
      if c = 10 ∨ c = 13 then
        base64Values rest
      else do
        let d ← base64Value c
        let ds ← base64Values rest
        some (d :: ds)

def base64UrlDecode (s : List UInt8) : Option (List UInt8) :=
  (base64Values s).bind ofSextets

theorem base64Value_base64Digit {n : Nat} (hn : n < 64) :
    base64Value (base64Digit n) = some n ∧ base64Digit n ≠ 10 ∧ base64Digit n ≠ 13 := by
  revert n
  decide

theorem sextets_lt (bytes : List UInt8) : ∀ n ∈ sextets bytes, n < 64 := by
  fun_induction sextets bytes with
  | case1 => simp
  | case2 a =>
      have ha := a.toNat_lt
      simp only [List.mem_cons, List.not_mem_nil, or_false, forall_eq_or_imp, forall_eq]
      omega
  | case3 a b =>
      have ha := a.toNat_lt
      have hb := b.toNat_lt
      simp only [List.mem_cons, List.not_mem_nil, or_false, forall_eq_or_imp, forall_eq]
      omega
  | case4 a b c rest ih =>
      have ha := a.toNat_lt
      have hb := b.toNat_lt
      have hc := c.toNat_lt
      simp only [List.mem_append, List.mem_cons, List.not_mem_nil, or_false, or_imp, forall_and,
        forall_eq]
      exact ⟨by omega, ih⟩

theorem ofSextets_sextets (bytes : List UInt8) : ofSextets (sextets bytes) = some bytes := by
  -- A byte is put together from the parts it was cut into.
  have hfirst : ∀ a b : UInt8,
      UInt8.ofNat (a.toNat / 4 * 4 + (a.toNat % 4 * 16 + b.toNat / 16) / 16) = a := by
    intro a b
    have hb := b.toNat_lt
    rw [show a.toNat / 4 * 4 + (a.toNat % 4 * 16 + b.toNat / 16) / 16 = a.toNat by omega]
    exact UInt8.ofNat_toNat
  have hsecond : ∀ a b c : UInt8,
      UInt8.ofNat ((a.toNat % 4 * 16 + b.toNat / 16) % 16 * 16 +
        (b.toNat % 16 * 4 + c.toNat / 64) / 4) = b := by
    intro a b c
    have hb := b.toNat_lt
    have hc := c.toNat_lt
    rw [show (a.toNat % 4 * 16 + b.toNat / 16) % 16 * 16 +
      (b.toNat % 16 * 4 + c.toNat / 64) / 4 = b.toNat by omega]
    exact UInt8.ofNat_toNat
  have hthird : ∀ b c : UInt8,
      UInt8.ofNat ((b.toNat % 16 * 4 + c.toNat / 64) % 4 * 64 + c.toNat % 64) = c := by
    intro b c
    have hc := c.toNat_lt
    rw [show (b.toNat % 16 * 4 + c.toNat / 64) % 4 * 64 + c.toNat % 64 = c.toNat by omega]
    exact UInt8.ofNat_toNat
  fun_induction sextets bytes with
  | case1 => rfl
  | case2 a => simpa [ofSextets] using hfirst a 0
  | case3 a b =>
      have hlast := hsecond a b 0
      rw [show (0 : UInt8).toNat / 64 = 0 from rfl, Nat.add_zero] at hlast
      rw [ofSextets, hfirst a b, hlast]
  | case4 a b c rest ih =>
      simp only [List.cons_append, List.nil_append, ofSextets, ih, Option.map_some]
      rw [hfirst a b, hsecond a b c, hthird b c]

theorem base64Values_map_base64Digit {ns : List Nat} (h : ∀ n ∈ ns, n < 64) :
    base64Values (ns.map base64Digit) = some ns := by
  induction ns with
  | nil => rfl
  | cons n ns ih =>
      obtain ⟨hvalue, hlf, hcr⟩ := base64Value_base64Digit (h n List.mem_cons_self)
      have hrest := ih fun m hm => h m (List.mem_cons_of_mem n hm)
      simp [base64Values, hvalue, hlf, hcr, hrest]

@[simp] theorem base64UrlDecode_base64UrlEncode (bytes : List UInt8) :
    base64UrlDecode (base64UrlEncode bytes) = some bytes := by
  rw [base64UrlDecode, base64UrlEncode, base64Values_map_base64Digit (sextets_lt bytes)]
  exact ofSextets_sextets bytes

/-- No dot is written. -/
theorem dot_not_mem_base64UrlEncode (bytes : List UInt8) : 46 ∉ base64UrlEncode bytes := by
  intro hmem
  obtain ⟨n, hn, hdot⟩ := List.mem_map.1 hmem
  have hdigit : ∀ n < 64, base64Digit n ≠ 46 := by decide
  exact hdigit n (sextets_lt bytes n hn) hdot

theorem base64UrlEncode_ne_nil {bytes : List UInt8} (h : bytes ≠ []) :
    base64UrlEncode bytes ≠ [] := by
  cases bytes with
  | nil => exact absurd rfl h
  | cons a rest =>
      match rest with
      | [] => simp [base64UrlEncode, sextets]
      | [b] => simp [base64UrlEncode, sextets]
      | b :: c :: rest => simp [base64UrlEncode, sextets]

/-! ## Form data -/

/-- The digit of a number below sixteen in an escape. -/
def upperHexDigit (n : Nat) : UInt8 :=
  if n < 10 then UInt8.ofNat (48 + n) else UInt8.ofNat (55 + n)

/-- The bytes that stand for themselves in a form: letters, digits and `*-._`. -/
def formPlain (c : UInt8) : Bool :=
  (48 ≤ c && c ≤ 57) || (65 ≤ c && c ≤ 90) || (97 ≤ c && c ≤ 122) ||
    c = 42 || c = 45 || c = 46 || c = 95

/-- A space is written as a plus sign. -/
def formEncodeByte (c : UInt8) : List UInt8 :=
  if formPlain c then [c]
  else if c = 32 then [43]
  else [37, upperHexDigit (c.toNat / 16), upperHexDigit (c.toNat % 16)]

def formEncode (s : List UInt8) : List UInt8 :=
  s.flatMap formEncodeByte

def formPair (p : List UInt8 × List UInt8) : List UInt8 :=
  formEncode p.1 ++ 61 :: formEncode p.2

/-- The pairs as `name=value`, joined by ampersands. -/
def formSerialize (pairs : List (List UInt8 × List UInt8)) : List UInt8 :=
  [38].intercalate (pairs.map formPair)

/-- Undo the escapes; `none` for a percent sign that two hexadecimal digits do not follow. -/
def formUnescape : List UInt8 → Option (List UInt8)
  | [] => some []
  | c :: rest =>
      if c = 37 then
        match rest with
        | hi :: lo :: rest => do
            let high ← hexValue hi
            let low ← hexValue lo
            let s ← formUnescape rest
            some (UInt8.ofNat (16 * high + low) :: s)
        | _ => none
      else
        (formUnescape rest).map fun s => (if c = 43 then 32 else c) :: s

/-- A field without equals sign is a name with an empty value. -/
def formField (field : List UInt8) : List UInt8 × List UInt8 :=
  (cutAt 61 field).getD (field, [])

/-- The pair of a field; `none` for one that holds a semicolon, is empty or has a bad escape. -/
def formParseField (field : List UInt8) : Option (List UInt8 × List UInt8) :=
  if 59 ∈ field ∨ field = [] then
    none
  else do
    let name ← formUnescape (formField field).1
    let value ← formUnescape (formField field).2
    some (name, value)

/-- The pairs that can be read, in order. -/
def formParse (s : List UInt8) : List (List UInt8 × List UInt8) :=
  (s.splitOn 38).filterMap formParseField

/-- Undo the escapes; a percent sign that two hexadecimal digits do not follow stands for itself. -/
def formUnescapeLenient : List UInt8 → List UInt8
  | [] => []
  | c :: rest =>
      if c = 37 then
        match rest with
        | hi :: lo :: tail =>
            match hexValue hi, hexValue lo with
            | some high, some low => UInt8.ofNat (16 * high + low) :: formUnescapeLenient tail
            | _, _ => 37 :: formUnescapeLenient (hi :: lo :: tail)
        | [digit] => 37 :: formUnescapeLenient [digit]
        | [] => [37]
      else
        (if c = 43 then 32 else c) :: formUnescapeLenient rest

/-- The pairs of all fields that are not empty, in order. -/
def formPairs (s : List UInt8) : List (List UInt8 × List UInt8) :=
  ((s.splitOn 38).filter (· ≠ [])).map fun field =>
    (formUnescapeLenient (formField field).1, formUnescapeLenient (formField field).2)

theorem hexValue_upperHexDigit {n : Nat} (hn : n < 16) : hexValue (upperHexDigit n) = some n := by
  revert n
  decide

/-- The bytes with a meaning of their own in a form. -/
def formDelimiter (c : UInt8) : Prop :=
  c = 38 ∨ c = 59 ∨ c = 61

theorem not_formDelimiter_of_mem {c d : UInt8} (h : d ∈ formEncodeByte c) : ¬formDelimiter d := by
  have hhex : ∀ n < 16, ¬formDelimiter (upperHexDigit n) := by
    unfold formDelimiter
    decide
  have hplain : ∀ d : UInt8, formPlain d = true → ¬formDelimiter d := by
    rintro d hd (rfl | rfl | rfl) <;> simp [formPlain] at hd
  have hc := c.toNat_lt
  unfold formEncodeByte at h
  split at h
  · rename_i hpl
    rw [List.mem_singleton.1 h]
    exact hplain c hpl
  · split at h
    · rw [List.mem_singleton.1 h]
      simp [formDelimiter]
    · simp only [List.mem_cons, List.not_mem_nil, or_false] at h
      rcases h with rfl | rfl | rfl
      · simp [formDelimiter]
      · exact hhex _ (by omega)
      · exact hhex _ (by omega)

/-- An escaped text holds none of the bytes that separate the fields of a form. -/
theorem not_formDelimiter_formEncode {s : List UInt8} {d : UInt8} (h : d ∈ formEncode s) :
    ¬formDelimiter d := by
  rcases List.mem_flatMap.1 h with ⟨c, -, hd⟩
  exact not_formDelimiter_of_mem hd

theorem formUnescape_cons_of_ne {c : UInt8} (hc : c ≠ 37) (rest : List UInt8) :
    formUnescape (c :: rest) =
      (formUnescape rest).map fun s => (if c = 43 then 32 else c) :: s := by
  rw [formUnescape.eq_def]
  simp only [hc, if_false]

theorem formUnescapeLenient_eq {s t : List UInt8} (h : formUnescape s = some t) :
    formUnescapeLenient s = t := by
  induction s using formUnescape.induct generalizing t with
  | case1 =>
      cases h
      rfl
  | case2 hi lo tail ih =>
      simp only [formUnescape, if_true] at h
      obtain ⟨high, hhigh, h⟩ := Option.bind_eq_some_iff.1 h
      obtain ⟨low, hlow, h⟩ := Option.bind_eq_some_iff.1 h
      obtain ⟨u, hu, h⟩ := Option.bind_eq_some_iff.1 h
      cases h
      simp only [formUnescapeLenient, if_true, hhigh, hlow, ih hu]
  | case3 rest hshort =>
      rw [formUnescape.eq_def] at h
      rcases rest with - | ⟨hi, - | ⟨lo, tail⟩⟩
      · cases h
      · cases h
      · exact absurd rfl (hshort hi lo tail)
  | case4 c rest hc ih =>
      rw [formUnescape_cons_of_ne hc] at h
      obtain ⟨u, hu, rfl⟩ := Option.map_eq_some_iff.1 h
      rw [formUnescapeLenient.eq_def]
      simp only [hc, if_false, ih hu]

/-- A form whose escapes are all good and that has no semicolon is read alike with care and without. -/
theorem formPairs_eq_formParse {s : List UInt8} (hsemicolon : 59 ∉ s)
    (hgood : ∀ field ∈ s.splitOn 38, (formUnescape (formField field).1).isSome ∧
      (formUnescape (formField field).2).isSome) :
    formPairs s = formParse s := by
  unfold formPairs formParse
  have hfields : ∀ field ∈ s.splitOn 38, 59 ∉ field :=
    fun field hfield hmem => hsemicolon (mem_of_mem_splitOn hfield hmem)
  generalize s.splitOn 38 = fields at hfields hgood
  induction fields with
  | nil => rfl
  | cons field fields ih =>
      obtain ⟨hhere, hlater⟩ := List.forall_mem_cons.1 hfields
      obtain ⟨⟨hname, hvalue⟩, hgood⟩ := List.forall_mem_cons.1 hgood
      obtain ⟨name, hname⟩ := Option.isSome_iff_exists.1 hname
      obtain ⟨value, hvalue⟩ := Option.isSome_iff_exists.1 hvalue
      by_cases hne : field = []
      · have hnone : formParseField field = none := by simp [formParseField, hne]
        rw [List.filter_cons_of_neg (by simp [hne]), List.filterMap_cons_none hnone, ih hlater hgood]
      · have hsome : formParseField field = some (name, value) := by
          simp [formParseField, hne, hhere, hname, hvalue]
        rw [List.filter_cons_of_pos (by simp [hne]), List.map_cons, List.filterMap_cons_some hsome,
          ih hlater hgood, formUnescapeLenient_eq hname, formUnescapeLenient_eq hvalue]

theorem formUnescape_formEncodeByte (c : UInt8) (rest : List UInt8) :
    formUnescape (formEncodeByte c ++ rest) = (formUnescape rest).map fun s => c :: s := by
  unfold formEncodeByte
  split
  · rename_i hplain
    have hpercent : c ≠ 37 := by
      rintro rfl
      simp [formPlain] at hplain
    have hplus : c ≠ 43 := by
      rintro rfl
      simp [formPlain] at hplain
    simp [formUnescape_cons_of_ne hpercent, hplus]
  · split
    · rename_i hspace
      simp [formUnescape_cons_of_ne (show (43 : UInt8) ≠ 37 by decide), hspace]
    · have hc := c.toNat_lt
      have hhigh := hexValue_upperHexDigit (show c.toNat / 16 < 16 by omega)
      have hlow := hexValue_upperHexDigit (show c.toNat % 16 < 16 by omega)
      have hbyte : UInt8.ofNat (16 * (c.toNat / 16) + c.toNat % 16) = c := by
        rw [Nat.div_add_mod]
        exact UInt8.ofNat_toNat
      simp only [List.cons_append, List.nil_append, formUnescape, if_true, hhigh, hlow,
        Option.bind_eq_bind, Option.bind_some, hbyte]
      cases formUnescape rest <;> rfl

@[simp] theorem formUnescape_formEncode (s : List UInt8) :
    formUnescape (formEncode s) = some s := by
  induction s with
  | nil => rfl
  | cons c rest ih =>
      have hcons : formEncode (c :: rest) = formEncodeByte c ++ formEncode rest := rfl
      rw [hcons, formUnescape_formEncodeByte, ih]
      rfl

theorem mem_formPair {p : List UInt8 × List UInt8} {d : UInt8} (h : d ∈ formPair p) :
    d = 61 ∨ ¬formDelimiter d := by
  rcases List.mem_append.1 h with h | h
  · exact .inr (not_formDelimiter_formEncode h)
  · rcases List.mem_cons.1 h with rfl | h
    · exact .inl rfl
    · exact .inr (not_formDelimiter_formEncode h)

theorem formParseField_formPair (p : List UInt8 × List UInt8) :
    formParseField (formPair p) = some p := by
  have hfield : formField (formPair p) = (formEncode p.1, formEncode p.2) := by
    have hsep : 61 ∉ formEncode p.1 :=
      fun hmem => not_formDelimiter_formEncode hmem (.inr (.inr rfl))
    rw [formField, formPair, cutAt_append hsep]
    rfl
  have hsemicolon : 59 ∉ formPair p := by
    intro hmem
    rcases mem_formPair hmem with hEq | hdelim
    · cases hEq
    · exact hdelim (.inr (.inl rfl))
  have hne : formPair p ≠ [] := by simp [formPair]
  simp [formParseField, hsemicolon, hne, hfield]

/-- Reading a serialized form gives its pairs back, in order. -/
theorem formParse_formSerialize {pairs : List (List UInt8 × List UInt8)} (hne : pairs ≠ []) :
    formParse (formSerialize pairs) = pairs := by
  have hsplit : (formSerialize pairs).splitOn 38 = pairs.map formPair := by
    refine List.splitOn_intercalate 38 ?_ (by simpa using hne)
    intro field hfield hmem
    rcases List.mem_map.1 hfield with ⟨p, -, rfl⟩
    rcases mem_formPair hmem with hEq | hdelim
    · cases hEq
    · exact hdelim (.inl rfl)
  rw [formParse, hsplit, List.filterMap_map]
  have hid : formParseField ∘ formPair = some := funext formParseField_formPair
  rw [hid, List.filterMap_some]

/-! ## UUIDs -/

abbrev Uuid := { b : List UInt8 // b.length = 16 }

/-- `8-4-4-4-12` hexadecimal digits in lower case. -/
def Uuid.text (k : Uuid) : List UInt8 :=
  hexEncode (k.1.take 4) ++ 45 :: hexEncode ((k.1.drop 4).take 2) ++
    45 :: hexEncode ((k.1.drop 6).take 2) ++ 45 :: hexEncode ((k.1.drop 8).take 2) ++
    45 :: hexEncode (k.1.drop 10)

theorem mem_hexEncode {bytes : List UInt8} {d : UInt8} (h : d ∈ hexEncode bytes) :
    (48 ≤ d ∧ d ≤ 57) ∨ (97 ≤ d ∧ d ≤ 102) := by
  have hdigit : ∀ n < 16, (48 ≤ hexDigit n ∧ hexDigit n ≤ 57) ∨
      (97 ≤ hexDigit n ∧ hexDigit n ≤ 102) := by
    decide
  rcases List.mem_flatMap.1 h with ⟨b, -, hd⟩
  have hb := b.toNat_lt
  rcases List.mem_cons.1 hd with rfl | hd
  · exact hdigit _ (by omega)
  · rw [List.mem_singleton.1 hd]
    exact hdigit _ (by omega)

theorem Uuid.text_ne_nil (k : Uuid) : k.text ≠ [] := by
  simp [Uuid.text]

/-- Sixteen bytes are the groups the text shows them in. -/
theorem Uuid.groups_append (b : List UInt8) :
    b.take 4 ++ ((b.drop 4).take 2 ++ ((b.drop 6).take 2 ++ ((b.drop 8).take 2 ++ b.drop 10))) =
      b := by
  have hjoin : ∀ i n, (b.drop i).take n ++ b.drop (i + n) = b.drop i := by
    intro i n
    rw [← List.drop_drop, List.take_append_drop]
  rw [hjoin 8 2, hjoin 6 2, hjoin 4 2, List.take_append_drop]

theorem not_hyphen_mem_hexEncode (bytes : List UInt8) : 45 ∉ hexEncode bytes := by
  intro hmem
  have hrange := mem_hexEncode hmem
  simp at hrange

theorem hexEncode_append (a b : List UInt8) : hexEncode (a ++ b) = hexEncode a ++ hexEncode b :=
  List.flatMap_append

/-- Without its hyphens the text is the hexadecimal text of the bytes. -/
theorem Uuid.erase_hyphens_text (k : Uuid) : (k.text.filter fun c => c != 45) = hexEncode k.1 := by
  have hfilter : ∀ bytes, ((hexEncode bytes).filter fun c => c != 45) = hexEncode bytes := by
    intro bytes
    refine List.filter_eq_self.2 ?_
    intro c hc
    have hne : c ≠ 45 := fun hEq => not_hyphen_mem_hexEncode bytes (hEq ▸ hc)
    simpa using hne
  have hjoined := congrArg hexEncode (Uuid.groups_append k.1)
  simp only [hexEncode_append] at hjoined
  simpa [Uuid.text, List.filter_cons, hfilter] using hjoined

def Uuid.read (s : List UInt8) : Option Uuid :=
  match hexDecode (s.filter fun c => c != 45) with
  | none => none
  | some b =>
      if hlen : b.length = 16 then
        if Uuid.text ⟨b, hlen⟩ = s then some ⟨b, hlen⟩ else none
      else
        none

theorem Uuid.read_text (k : Uuid) : Uuid.read k.text = some k := by
  rw [Uuid.read, Uuid.erase_hyphens_text, hexDecode_hexEncode]
  simp [k.2]

theorem Uuid.read_eq_some_iff {s : List UInt8} {k : Uuid} : Uuid.read s = some k ↔ s = k.text := by
  refine ⟨fun h => ?_, fun h => h ▸ Uuid.read_text k⟩
  unfold Uuid.read at h
  split at h
  · cases h
  · split at h
    · split at h
      · rename_i htext
        cases h
        exact htext.symm
      · cases h
    · cases h

theorem Uuid.length_text (k : Uuid) : k.text.length = 36 := by
  simp [Uuid.text, k.2]

theorem Uuid.text_injective : Function.Injective Uuid.text := by
  intro k k' hEq
  have hk := Uuid.read_text k
  rw [hEq, Uuid.read_text k'] at hk
  exact (Option.some.inj hk).symm

end Lib
end OpenWeights
