import OpenWeights.Lib.Base64

/-!
# AppKey — the spellings of the app key

`parseAppKey` takes one environment variable for base64 first and for hexadecimal second, and for a
seed or a whole key according to the number of bytes.  Every hexadecimal text of these lengths is
base64 as well, of a number of bytes that three divides; as three divides neither 32 nor 64, a text
is the spelling of one key at most.
-/

namespace OpenWeights
namespace Gateway

open Lib

abbrev AppSeed := { b : List UInt8 // b.length = 32 }

/-- An expanded key: the seed and the public key. -/
abbrev PrivateKey := { b : List UInt8 // b.length = 64 }

section Keys

variable (newKeyFromSeed : AppSeed → PrivateKey)

/-- What the decoded bytes are the key of, by their number. -/
def keyOfBytes (b : List UInt8) : Option PrivateKey :=
  if hseed : b.length = 32 then
    some (newKeyFromSeed ⟨b, hseed⟩)
  else if hkey : b.length = 64 then
    some ⟨b, hkey⟩
  else
    none

def appKeyError : List UInt8 :=
  lit ("decode OPENWEIGHTS_APP_KEY: expected base64 or hex of a 32-byte seed or 64-byte " ++
    "ed25519 key")

/-- The first decoder whose bytes are a seed or a key decides. -/
def parseAppKey (s : List UInt8) : Except (List UInt8) PrivateKey :=
  let s := trimSpace s
  match [base64StdDecode, hexDecode].findSome? fun decode =>
      (decode s).bind (keyOfBytes newKeyFromSeed) with
  | some key => .ok key
  | none => .error appKeyError

def Base64Spells (s : List UInt8) (key : PrivateKey) : Prop :=
  (base64StdDecode s).bind (keyOfBytes newKeyFromSeed) = some key

def HexSpells (s : List UInt8) (key : PrivateKey) : Prop :=
  (hexDecode s).bind (keyOfBytes newKeyFromSeed) = some key

variable {newKeyFromSeed}

theorem keyOfBytes_seed (seed : AppSeed) :
    keyOfBytes newKeyFromSeed seed.1 = some (newKeyFromSeed seed) :=
  dif_pos seed.2

theorem keyOfBytes_key (key : PrivateKey) : keyOfBytes newKeyFromSeed key.1 = some key := by
  have hlength : ¬key.1.length = 32 := by
    rw [key.2]
    decide
  rw [keyOfBytes, dif_neg hlength, dif_pos key.2]

/-- Bytes with a key are 32 or 64. -/
theorem length_of_keyOfBytes {b : List UInt8} {key : PrivateKey}
    (h : keyOfBytes newKeyFromSeed b = some key) : b.length = 32 ∨ b.length = 64 := by
  unfold keyOfBytes at h
  split at h
  · exact .inl ‹_›
  · split at h
    · exact .inr ‹_›
    · cases h

/-- No text spells a key both ways. -/
theorem not_base64Spells_of_hexSpells {s : List UInt8} {key : PrivateKey}
    (h : HexSpells newKeyFromSeed s key) (key' : PrivateKey) :
    ¬Base64Spells newKeyFromSeed s key' := by
  intro h'
  obtain ⟨bytes, hhex, -⟩ := Option.bind_eq_some_iff.1 h
  obtain ⟨bytes', hbase64, hkey⟩ := Option.bind_eq_some_iff.1 h'
  have hdvd : 3 ∣ bytes'.length := three_dvd_of_hexDecode hhex hbase64
  rcases length_of_keyOfBytes hkey with hlength | hlength
  · rw [hlength] at hdvd
    exact absurd hdvd (by decide)
  · rw [hlength] at hdvd
    exact absurd hdvd (by decide)

/-- A key is returned exactly for its spellings. -/
theorem parseAppKey_eq_ok_iff {s : List UInt8} {key : PrivateKey} :
    parseAppKey newKeyFromSeed s = .ok key ↔
      Base64Spells newKeyFromSeed (trimSpace s) key ∨
        HexSpells newKeyFromSeed (trimSpace s) key := by
  simp only [parseAppKey, List.findSome?_cons, List.findSome?_nil]
  cases hbase64 : (base64StdDecode (trimSpace s)).bind (keyOfBytes newKeyFromSeed) with
  | some key' =>
      -- Base64 decides, and hexadecimal has nothing to say about this text.
      have hhex : ¬HexSpells newKeyFromSeed (trimSpace s) key :=
        fun h => not_base64Spells_of_hexSpells h key' hbase64
      simp [Base64Spells, hbase64, hhex]
  | none =>
      cases hhex : (hexDecode (trimSpace s)).bind (keyOfBytes newKeyFromSeed) with
      | some key' => simp [Base64Spells, HexSpells, hbase64, hhex]
      | none => simp [Base64Spells, HexSpells, hbase64, hhex]

/-! ## The four spellings -/

/-- The texts that an operator may put down for a seed or for the key expanded from it. -/
inductive Spelling (newKeyFromSeed : AppSeed → PrivateKey) (seed : AppSeed) :
    List UInt8 → Prop where
  | base64Seed : Spelling newKeyFromSeed seed (base64StdEncode seed.1)
  | hexSeed {s : List UInt8} : s.map lower = hexEncode seed.1 → Spelling newKeyFromSeed seed s
  | base64Key : Spelling newKeyFromSeed seed (base64StdEncode (newKeyFromSeed seed).1)
  | hexKey {s : List UInt8} : s.map lower = hexEncode (newKeyFromSeed seed).1 →
      Spelling newKeyFromSeed seed s

theorem hexDecode_of_anyCase {s bytes : List UInt8} (h : s.map lower = hexEncode bytes) :
    hexDecode s = some bytes := by
  rw [← hexDecode_map_lower, h, hexDecode_hexEncode]

/-- A digit of either case is no white space. -/
theorem solid_of_hexDecode {s bytes : List UInt8} (h : hexDecode s = some bytes) :
    ∀ c ∈ s, solid c = true := by
  have hsolid : ∀ c, isHexDigit c = true → solid c = true := by
    refine forall_byte ?_
    decide +kernel
  intro c hc
  exact hsolid c ((isSome_hexDecode_iff.1 (Option.isSome_of_eq_some h)).2 c hc)

namespace Spelling

variable {seed : AppSeed} {s : List UInt8}

/-- Each spelling is one of the key, in its own notation. -/
theorem spells (h : Spelling newKeyFromSeed seed s) :
    Base64Spells newKeyFromSeed s (newKeyFromSeed seed) ∨
      HexSpells newKeyFromSeed s (newKeyFromSeed seed) := by
  cases h with
  | base64Seed =>
      apply Or.inl
      rw [Base64Spells, base64StdDecode_base64StdEncode]
      exact keyOfBytes_seed seed
  | hexSeed hs =>
      apply Or.inr
      rw [HexSpells, hexDecode_of_anyCase hs]
      exact keyOfBytes_seed seed
  | base64Key =>
      apply Or.inl
      rw [Base64Spells, base64StdDecode_base64StdEncode]
      exact keyOfBytes_key _
  | hexKey hs =>
      apply Or.inr
      rw [HexSpells, hexDecode_of_anyCase hs]
      exact keyOfBytes_key _

theorem solid (h : Spelling newKeyFromSeed seed s) : ∀ c ∈ s, solid c = true := by
  cases h with
  | base64Seed => exact fun c hc => solid_of_mem_base64StdEncode hc
  | hexSeed hs => exact solid_of_hexDecode (hexDecode_of_anyCase hs)
  | base64Key => exact fun c hc => solid_of_mem_base64StdEncode hc
  | hexKey hs => exact solid_of_hexDecode (hexDecode_of_anyCase hs)

theorem ne_nil (h : Spelling newKeyFromSeed seed s) : s ≠ [] := by
  -- No key is spelled by no bytes at all.
  rintro rfl
  rcases h.spells with hnil | hnil
  · rcases length_of_keyOfBytes hnil with hlength | hlength <;> cases hlength
  · rcases length_of_keyOfBytes hnil with hlength | hlength <;> cases hlength

end Spelling

variable (newKeyFromSeed)

/-- Every spelling, with whatever white space around it, gives the same key, and what is read one
way cannot be read the other way. -/
theorem parseAppKey_spellings (seed : AppSeed) :
    (∀ s, Spelling newKeyFromSeed seed s → ∀ before after, Blank before → Blank after →
      parseAppKey newKeyFromSeed (before ++ s ++ after) = .ok (newKeyFromSeed seed)) ∧
    ∀ s key,
      (HexSpells newKeyFromSeed (trimSpace s) key → parseAppKey newKeyFromSeed s = .ok key ∧
        ∀ key', ¬Base64Spells newKeyFromSeed (trimSpace s) key') ∧
      (Base64Spells newKeyFromSeed (trimSpace s) key → parseAppKey newKeyFromSeed s = .ok key ∧
        ∀ key', ¬HexSpells newKeyFromSeed (trimSpace s) key') := by
  constructor
  · intro s hs before after hbefore hafter
    apply parseAppKey_eq_ok_iff.2
    rw [trimSpace_blank hs.ne_nil hs.solid hbefore hafter]
    exact hs.spells
  · intro s key
    constructor
    · intro hhex
      exact ⟨parseAppKey_eq_ok_iff.2 (.inr hhex), not_base64Spells_of_hexSpells hhex⟩
    · intro hbase64
      exact ⟨parseAppKey_eq_ok_iff.2 (.inl hbase64),
        fun key' hhex => not_base64Spells_of_hexSpells hhex key hbase64⟩

end Keys

def zeroSeed : AppSeed :=
  ⟨List.replicate 32 0, rfl⟩

def zeroPublicKey : AppSeed :=
  ⟨[0x3b, 0x6a, 0x27, 0xbc, 0xce, 0xb6, 0xa4, 0x2d, 0x62, 0xa3, 0xa8, 0xd0, 0x2a, 0x6f, 0x0d, 0x73,
    0x65, 0x32, 0x15, 0x77, 0x1d, 0xe2, 0x43, 0xa6, 0x3a, 0xc0, 0x48, 0xa1, 0x8b, 0x59, 0xda, 0x29],
    rfl⟩

def expandZero (seed : AppSeed) : PrivateKey :=
  ⟨seed.1 ++ zeroPublicKey.1, by rw [List.length_append, seed.2, zeroPublicKey.2]⟩

/-- The zero seed in base64, with white space around it, and in hexadecimal. -/
theorem parseAppKey_zeroSeed :
    parseAppKey expandZero
        (lit " " ++ lit "AAAAAAAAAAAAAAAAAAAAAAAAAAAAAAAAAAAAAAAAAAA=" ++ lit "\n") =
          .ok (expandZero zeroSeed) ∧
      parseAppKey expandZero (List.replicate 64 48) = .ok (expandZero zeroSeed) := by
  have hkey := parseAppKey_spellings expandZero zeroSeed
  constructor
  · have htext : lit "AAAAAAAAAAAAAAAAAAAAAAAAAAAAAAAAAAAAAAAAAAA=" =
        base64StdEncode zeroSeed.1 := by
      decide +kernel
    have hspelling : Spelling expandZero zeroSeed (base64StdEncode zeroSeed.1) := .base64Seed
    have hspace : Blank (lit " ") := ⟨[[32]], by decide, by decide⟩
    have hfeed : Blank (lit "\n") := ⟨[[10]], by decide, by decide⟩
    rw [htext]
    exact hkey.1 _ hspelling _ _ hspace hfeed
  · have hhex : HexSpells expandZero (trimSpace (List.replicate 64 48)) (expandZero zeroSeed) := by
      unfold HexSpells
      decide +kernel
    exact ((hkey.2 (List.replicate 64 48) (expandZero zeroSeed)).1 hhex).1

end Gateway
end OpenWeights
