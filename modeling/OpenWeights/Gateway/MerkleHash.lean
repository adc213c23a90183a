import OpenWeights.Lib.Encoding
import OpenWeights.Db.Schema

/-!
# MerkleHash — the digest the gateway checks a xorb against

Model of `gateway/merklehash.go`.  A Go string is a byte string, so text is `Bytes` in the gateway.
Keyed BLAKE3 is third-party and comes in as a function of the key and of all bytes written.

The canonical text of a digest prints four little-endian words in big-endian order.
`parseMerkleHashHex_digestToHex` reads it back, so no two digests share a text.
-/

namespace OpenWeights
namespace Gateway

open Lib Db

/-- The 32-byte digest of `lukechampine.com/blake3` under a key. -/
abbrev Blake3 := Bytes → Bytes → Hash

def dataKey : Bytes :=
  [102, 151, 245, 119, 91, 149, 80, 222,
    49, 53, 203, 172, 165, 151, 24, 28,
    157, 228, 33, 16, 155, 235, 43, 88,
    180, 208, 176, 75, 147, 173, 242, 41]

/-! ## The canonical text -/

def digestGroupHex (d : Bytes) (group : Nat) : Bytes :=
  hexEncode (putBeUint64 (leUint64 ((d.drop (group * 8)).take 8)))

def digestToHex (d : Hash) : Bytes :=
  digestGroupHex d.1 0 ++ digestGroupHex d.1 1 ++ digestGroupHex d.1 2 ++ digestGroupHex d.1 3

inductive ParseError
  | length (n : Nat)
  | invalidHexGroup (group : Nat)
  deriving DecidableEq, Repr

/-- One turn of the loop of `ParseMerkleHashHex`. -/
def parseGroup (h : Bytes) (group : Nat) : Except ParseError { b : Bytes // b.length = 8 } :=
  match hexDecode ((h.drop (group * 16)).take 16) with
  | none => .error (.invalidHexGroup group)
  | some raw => .ok ⟨putLeUint64 (beUint64 raw), length_putLeUint64 _⟩

def parseMerkleHashHex (h : Bytes) : Except ParseError Hash :=
  if h.length ≠ 64 then
    .error (.length h.length)
  else do
    let g₀ ← parseGroup h 0
    let g₁ ← parseGroup h 1
    let g₂ ← parseGroup h 2
    let g₃ ← parseGroup h 3
    .ok ⟨g₀.1 ++ g₁.1 ++ g₂.1 ++ g₃.1, by simp [g₀.2, g₁.2, g₂.2, g₃.2]⟩

@[simp] theorem length_digestGroupHex (d : Bytes) (group : Nat) :
    (digestGroupHex d group).length = 16 := by
  simp [digestGroupHex]

theorem length_digestToHex (d : Hash) : (digestToHex d).length = 64 := by
  simp [digestToHex]

/-- The groups of the text are the texts of the groups. -/
theorem group_digestToHex (d : Hash) (group : Nat) (hgroup : group < 4) :
    ((digestToHex d).drop (group * 16)).take 16 = digestGroupHex d.1 group := by
  have hcases : group = 0 ∨ group = 1 ∨ group = 2 ∨ group = 3 := by omega
  rcases hcases with rfl | rfl | rfl | rfl <;>
    simp [digestToHex, List.drop_append, List.drop_of_length_le, List.take_of_length_le]

theorem parseGroup_digestToHex (d : Hash) (group : Nat) (hgroup : group < 4) :
    ∃ g, parseGroup (digestToHex d) group = .ok g ∧ g.1 = (d.1.drop (group * 8)).take 8 := by
  have hlen : ((d.1.drop (group * 8)).take 8).length = 8 := by
    simp only [List.length_take, List.length_drop, d.2]
    omega
  have hdecode : hexDecode (((digestToHex d).drop (group * 16)).take 16) =
      some (putBeUint64 (leUint64 ((d.1.drop (group * 8)).take 8))) := by
    rw [group_digestToHex d group hgroup]
    exact hexDecode_hexEncode _
  refine ⟨⟨(d.1.drop (group * 8)).take 8, hlen⟩, ?_, rfl⟩
  simp only [parseGroup, hdecode, beUint64_putBeUint64_leUint64 hlen, putLeUint64_leUint64 hlen]

/-- A list of 32 is its four groups of eight. -/
theorem groups_append {d : Bytes} (hlen : d.length = 32) :
    (d.drop (0 * 8)).take 8 ++ (d.drop (1 * 8)).take 8 ++ (d.drop (2 * 8)).take 8 ++
      (d.drop (3 * 8)).take 8 = d := by
  have hlast : (d.drop (3 * 8)).take 8 = d.drop (2 * 8 + 8) :=
    List.take_of_length_le (by simp [hlen])
  calc
    _ = d.take 8 ++ ((d.drop 8).take 8 ++ ((d.drop 16).take 8 ++ d.drop (16 + 8))) := by
      rw [hlast]
      simp
    _ = d.take 8 ++ ((d.drop 8).take 8 ++ d.drop (8 + 8)) := by
      rw [← List.drop_drop, List.take_append_drop]
    _ = d.take 8 ++ d.drop 8 := by
      rw [← List.drop_drop, List.take_append_drop]
    _ = d := List.take_append_drop 8 d

theorem parseMerkleHashHex_digestToHex (d : Hash) :
    parseMerkleHashHex (digestToHex d) = .ok d := by
  obtain ⟨g₀, h₀, hg₀⟩ := parseGroup_digestToHex d 0 (by decide)
  obtain ⟨g₁, h₁, hg₁⟩ := parseGroup_digestToHex d 1 (by decide)
  obtain ⟨g₂, h₂, hg₂⟩ := parseGroup_digestToHex d 2 (by decide)
  obtain ⟨g₃, h₃, hg₃⟩ := parseGroup_digestToHex d 3 (by decide)
  have hjoin : g₀.1 ++ g₁.1 ++ g₂.1 ++ g₃.1 = d.1 := by
    rw [hg₀, hg₁, hg₂, hg₃]
    exact groups_append d.2
  simp only [parseMerkleHashHex, length_digestToHex, ne_eq, not_true_eq_false, if_false, h₀, h₁,
    h₂, h₃]
  exact congrArg Except.ok (Subtype.ext hjoin)

theorem digestToHex_injective : Function.Injective digestToHex := by
  intro d d' hEq
  have hparse := parseMerkleHashHex_digestToHex d
  rw [hEq, parseMerkleHashHex_digestToHex d'] at hparse
  exact (Except.ok.inj hparse).symm

/-! ## The hasher -/

def merkleHashHex (blake3 : Blake3) (data : Bytes) : Bytes :=
  digestToHex (blake3 dataKey data)

/-- `MerkleHasher`: the key and what was written so far. -/
structure MerkleHasher where
  key : Bytes
  written : Bytes
  deriving DecidableEq, Repr

namespace MerkleHasher

def new : MerkleHasher :=
  { key := dataKey
    written := [] }

def write (m : MerkleHasher) (p : Bytes) : MerkleHasher :=
  { m with written := m.written ++ p }

def hex (blake3 : Blake3) (m : MerkleHasher) : Bytes :=
  digestToHex (blake3 m.key m.written)

end MerkleHasher

end Gateway
end OpenWeights
