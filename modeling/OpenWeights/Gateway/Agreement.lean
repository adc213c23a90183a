import Mathlib.Data.Set.Function
import OpenWeights.Core.Wire
import OpenWeights.Gateway.Cache
import OpenWeights.Gateway.HashHex

/-!
# Agreement — the hash of a xorb in the CAS and in the gateway

The CAS computes the hash of a xorb from its footer: a tree over the hashes of the unpacked chunks.
The gateway hashes the serialized body as if it were one chunk.  The two agree on exactly those
bodies whose only chunk unpacks to the body itself (`putSucceeds_iff`), so the hash gate of
`Cache.Put` refuses every other xorb the CAS has verified.

Collisions are excluded among the inputs the two services hash for one body, which are finitely
many; no function with 32-byte digests is free of collisions altogether.
-/

namespace OpenWeights
namespace Gateway

open Lib Db OpenWeights.Core

/-! ## What is documented about the hashes -/

/-- The documented behaviour of the hashes of `xet_core_structures`: a chunk is hashed with BLAKE3
under the data key, and `xorb_hash` aggregates the chunk hashes in a tree whose inner nodes are
hashed under a key of their own. -/
structure XetHashing (x : Crates) (blake3 : Blake3) where
  nodeKey : Bytes
  /-- What is hashed at the root of the tree. -/
  rootMessage : List (Hash × Nat) → Bytes
  nodeKey_ne : nodeKey ≠ dataKey
  xorbHash_nil : x.xorbHash [] = Hash.fill 0
  xorbHash_singleton : ∀ pair, x.xorbHash [pair] = pair.1
  xorbHash_tree : ∀ pairs, 2 ≤ pairs.length →
    x.xorbHash pairs = blake3 nodeKey (rootMessage pairs)
  hex_eq : ∀ h, lit (x.hex h) = digestToHex h

def footerPairs (x : Crates) (body : Bytes) : List (Hash × Nat) :=
  match x.deserialize body with
  | none => []
  | some info =>
      ((hashesAndLens 0 (info.chunkHashes.zip info.unpackedChunkOffsets)).toOption).getD []

/-- The body is accepted under `h` through its footer, and the chunk hashes in the footer are the
hashes of the chunks. -/
structure FooterVerified (x : Crates) (blake3 : Blake3) (body : Bytes) (h : Hash)
    (chunks : List Bytes) : Prop where
  footer : ∃ boundaries, computeXorbHashAndBoundaries x body = .ok (h, boundaries)
  chunkHashes : (x.deserialize body).map XorbObjectInfo.chunkHashes =
    some (chunks.map (blake3 dataKey))

/-- Among the inputs hashed for one body there is no collision, and the body does not hash to the
hash of the empty xorb. -/
structure CollisionFree {x : Crates} {blake3 : Blake3} (d : XetHashing x blake3) (body : Bytes)
    (chunks : List Bytes) : Prop where
  injOn : Set.InjOn (fun input : Bytes × Bytes => blake3 input.1 input.2)
    { input | input = (dataKey, body) ∨ (∃ chunk ∈ chunks, input = (dataKey, chunk)) ∨
      (2 ≤ (footerPairs x body).length ∧
        input = (d.nodeKey, d.rootMessage (footerPairs x body))) }
  ne_zero : blake3 dataKey body ≠ Hash.fill 0

/-! ## The footer hash -/

theorem map_fst_hashesAndLens {prevOff : UInt32} {entries : List (Hash × UInt32)}
    {pairs : List (Hash × Nat)} (hok : hashesAndLens prevOff entries = .ok pairs) :
    pairs.map Prod.fst = entries.map Prod.fst := by
  induction entries generalizing prevOff pairs with
  | nil =>
      cases hok
      rfl
  | cons entry rest ih =>
      obtain ⟨h, off⟩ := entry
      simp only [hashesAndLens] at hok
      split at hok
      · cases hok
      · rcases except_bind_eq_ok.1 hok with ⟨tail, htail, hEq⟩
        cases hEq
        simp [ih htail]

/-- The hash of a verified body is the aggregate of its pairs, one for each chunk. -/
theorem FooterVerified.hash_eq {x : Crates} {blake3 : Blake3} {body : Bytes} {h : Hash}
    {chunks : List Bytes} (hverified : FooterVerified x blake3 body h chunks) :
    h = x.xorbHash (footerPairs x body) ∧
      (footerPairs x body).map Prod.fst = chunks.map (blake3 dataKey) := by
  obtain ⟨boundaries, hfooter⟩ := hverified.footer
  rcases Option.map_eq_some_iff.1 hverified.chunkHashes with ⟨info, hinfo, hchunks⟩
  simp only [computeXorbHashAndBoundaries, hinfo] at hfooter
  simp only [footerPairs, hinfo]
  rw [← hchunks]
  split at hfooter
  · -- no chunks
    rename_i hzero
    have hnil : info.chunkHashes = [] := List.length_eq_zero_iff.1 hzero
    cases hfooter
    simp [hnil, hashesAndLens, Except.toOption]
  · split at hfooter
    · cases hfooter
    · rename_i hlens
      rcases except_bind_eq_ok.1 hfooter with ⟨pairs, hpairs, hEq⟩
      cases hEq
      have hlen : info.chunkHashes.length ≤ info.unpackedChunkOffsets.length := by omega
      simp only [hpairs, Except.toOption, Option.getD_some, true_and]
      rw [map_fst_hashesAndLens hpairs, List.map_fst_zip hlen]

/-- The footer hash is the digest of the body only if the body is its own single chunk. -/
theorem hash_eq_digest_iff {x : Crates} {blake3 : Blake3} {d : XetHashing x blake3} {body : Bytes}
    {h : Hash} {chunks : List Bytes} (hverified : FooterVerified x blake3 body h chunks)
    (hfree : CollisionFree d body chunks) : blake3 dataKey body = h ↔ chunks = [body] := by
  obtain ⟨hhash, hfst⟩ := hverified.hash_eq
  have hlen : (footerPairs x body).length = chunks.length := by
    simpa using congrArg List.length hfst
  -- The shape of the tree follows the number of chunks.
  match hpairs : footerPairs x body with
  | [] =>
      have hnil : chunks = [] := by simpa [hpairs] using hlen.symm
      rw [hhash, hpairs, d.xorbHash_nil, hnil]
      simp [hfree.ne_zero]
  | [pair] =>
      have hone : chunks.length = 1 := by simpa [hpairs] using hlen.symm
      rcases List.length_eq_one_iff.1 hone with ⟨chunk, rfl⟩
      have hpair : pair.1 = blake3 dataKey chunk := by simpa [hpairs] using hfst
      rw [hhash, hpairs, d.xorbHash_singleton, hpair]
      constructor
      · intro hEq
        have hinput := hfree.injOn (.inl rfl)
          (.inr (.inl ⟨chunk, List.mem_singleton_self chunk, rfl⟩)) hEq
        rw [(Prod.mk.inj hinput).2]
      · intro hEq
        rw [(List.cons.inj hEq).1]
  | pair :: pair' :: rest =>
      have htwo : 2 ≤ (footerPairs x body).length := by simp [hpairs]
      rw [hhash, d.xorbHash_tree _ htwo]
      constructor
      · intro hEq
        have hinput := hfree.injOn (.inl rfl) (.inr (.inr ⟨htwo, rfl⟩)) hEq
        exact absurd (Prod.mk.inj hinput).1.symm d.nodeKey_ne
      · intro hEq
        rw [hlen, hEq] at htwo
        simp at htwo

/-! ## The gate -/

/-- `Put(hash, len(body), body)` on the cache `s`: whatever blocks the source delivers the body in,
without a fault of the file system it returns the path. -/
structure PutSucceeds (blake3 : Blake3) (dir hash body : Bytes) (s : Store) : Prop where
  ensures : ∀ blocks : List Bytes, blocks.flatten = body →
    (put blake3 dir hash body.length ⟨blocks, none⟩).Ensures exec Faultless
      (fun _ r => r = .ok (pathFor dir hash)) s

theorem putSucceeds_iff_gate {blake3 : Blake3} {dir hash body : Bytes} {s : Store}
    (hhash : hash.length = 64) :
    PutSucceeds blake3 dir hash body s ↔ merkleHashHex blake3 body = hash := by
  constructor
  · intro hput
    have hflat : [body].flatten = body := by simp
    have hspec := ensures_put blake3 dir [body] s hhash
      (congrArg (fun b : Bytes => (b.length : Int)) hflat.symm)
    rw [hflat] at hspec
    rcases hspec.exists_run with ⟨cs, s', r, hrun, hcs⟩
    have hok := (hput.ensures [body] hflat).post_of_runs hrun hcs
    have houtcome := hspec.post_of_runs hrun hcs
    by_contra hne
    simp only [PutOutcome, hne, if_false] at houtcome
    rw [hok] at houtcome
    cases houtcome
  · intro hgate
    refine ⟨?_⟩
    intro blocks hflat
    have hspec := ensures_put blake3 dir blocks s hhash
      (congrArg (fun b : Bytes => (b.length : Int)) hflat.symm)
    refine hspec.mono ?_
    intro s' r houtcome
    simp only [PutOutcome, hflat, hgate, if_true] at houtcome
    exact houtcome.1

/-! ## The wire formats -/

theorem lit_ofList (chars : List Char) :
    lit (String.ofList chars) = chars.flatMap String.utf8EncodeChar := by
  simp [lit, List.utf8Encode]

/-- Both services write a digit alike. -/
theorem utf8EncodeChar_hexDigit {n : UInt8} (hn : n < 16) :
    String.utf8EncodeChar (Core.hexDigit n) = [Lib.hexDigit n.toNat] := by
  have hall : ∀ m < 16, String.utf8EncodeChar (Core.hexDigit (UInt8.ofNat m)) =
      [Lib.hexDigit m] := by decide
  have hlt : n.toNat < 16 := UInt8.lt_iff_toNat_lt.1 hn
  simpa using hall n.toNat hlt

theorem lit_hexOf (h : Hash) : lit (hexOf h) = hexEncode h.1 := by
  rw [hexOf, lit_ofList, List.flatMap_assoc, hexEncode]
  refine List.flatMap_congr ?_
  intro b _
  have hhigh : b / 16 < 16 := by
    have hb := b.toNat_lt
    rw [UInt8.lt_iff_toNat_lt, UInt8.toNat_div]
    exact Nat.div_lt_of_lt_mul (by simpa using hb)
  have hlow : b % 16 < 16 := UInt8.mod_lt b (by decide)
  simp [utf8EncodeChar_hexDigit hhigh, utf8EncodeChar_hexDigit hlow]

/-- `MerkleHash::hex` and `digestToHex` are the same text. -/
theorem lit_merkleHex (h : Hash) : lit (merkleHex h) = digestToHex h := by
  have hlast : (h.1.drop 24).take 8 = h.1.drop 24 := List.take_of_length_le (by simp [h.2])
  have hgroups : reverseGroups h.1 = swapGroups h.1 := by
    simp [reverseGroups, swapGroups, groupOf, hlast]
  calc
    lit (merkleHex h) = hexEncode (reverseGroups h.1) := lit_hexOf (reverseHash h)
    _ = digestToHex h := by rw [hgroups, digestToHex_eq]

/-! ## One uncompressed chunk of three bytes -/

/-- The keyed digest of the chunk, which is also the hash of the xorb. -/
def threeBytesDigest : Hash :=
  ⟨[235, 89, 56, 31, 22, 134, 254, 242, 208, 200, 228, 171, 126, 106, 124, 159,
    148, 128, 70, 158, 151, 172, 60, 138, 117, 98, 216, 146, 68, 153, 175, 183], rfl⟩

/-- The chunk stream `sampleBody` and the footer of `XorbObject`: the idents `XETBLOB`, `XBLBHSH`
and `XBLBBND`, the hash of the xorb, the chunk hashes, the chunk boundaries and unpacked offsets,
the section offsets, and the length of all this. -/
def threeBytesXorb : Bytes :=
  sampleBody ++
    lit "XETBLOB" ++ [1] ++ threeBytesDigest.1 ++
    lit "XBLBHSH" ++ [0] ++ leBytes 4 1 ++ threeBytesDigest.1 ++
    lit "XBLBBND" ++ [1] ++ leBytes 4 1 ++ leBytes 4 11 ++ leBytes 4 3 ++ leBytes 4 1 ++
    leBytes 4 92 ++ leBytes 4 48 ++ List.replicate 16 0 ++ leBytes 4 132

/-- The keyed digest of the whole body. -/
def threeBytesXorbDigest : Hash :=
  ⟨[86, 234, 32, 215, 176, 21, 8, 205, 114, 76, 184, 170, 28, 167, 30, 142,
    85, 231, 220, 245, 95, 170, 58, 126, 248, 81, 245, 248, 141, 221, 100, 126], rfl⟩

/-- BLAKE3 on the two inputs that are hashed. -/
def threeBytesBlake3 : Blake3 := fun key message =>
  if key = dataKey ∧ message = [1, 2, 3] then threeBytesDigest
  else if key = dataKey ∧ message = threeBytesXorb then threeBytesXorbDigest
  else Hash.fill 1

def threeBytesNodeKey : Bytes := List.replicate 32 0

def threeBytesCrates : Crates :=
  wireCrates
    (fun body =>
      if body = threeBytesXorb then
        some ⟨[threeBytesDigest], [3], [11]⟩
      else
        none)
    (fun pairs =>
      match pairs with
      | [] => Hash.fill 0
      | [pair] => pair.1
      | _ => threeBytesBlake3 threeBytesNodeKey [])
    fun _ => Hash.fill 0

def threeBytesHashing : XetHashing threeBytesCrates threeBytesBlake3 where
  nodeKey := threeBytesNodeKey
  rootMessage := fun _ => []
  nodeKey_ne := by decide
  xorbHash_nil := rfl
  xorbHash_singleton := fun _ => rfl
  xorbHash_tree := by
    intro pairs htwo
    match pairs, htwo with
    | _ :: _ :: _, _ => rfl
  hex_eq := lit_merkleHex

theorem footerVerified_threeBytes :
    FooterVerified threeBytesCrates threeBytesBlake3 threeBytesXorb threeBytesDigest
      [[1, 2, 3]] where
  footer := ⟨[11], by decide +kernel⟩
  chunkHashes := by decide +kernel

theorem collisionFree_threeBytes :
    CollisionFree threeBytesHashing threeBytesXorb [[1, 2, 3]] where
  injOn := by
    have hone : ¬2 ≤ (footerPairs threeBytesCrates threeBytesXorb).length := by decide +kernel
    have hne : threeBytesBlake3 dataKey threeBytesXorb ≠ threeBytesBlake3 dataKey [1, 2, 3] := by
      decide +kernel
    rintro i (rfl | ⟨chunk, hchunk, rfl⟩ | ⟨htwo, -⟩) j (rfl | ⟨chunk', hchunk', rfl⟩ | ⟨htwo', -⟩)
      hEq
    · rfl
    · rw [List.mem_singleton.1 hchunk'] at hEq
      exact absurd hEq hne
    · exact absurd htwo' hone
    · rw [List.mem_singleton.1 hchunk] at hEq
      exact absurd hEq.symm hne
    · rw [List.mem_singleton.1 hchunk, List.mem_singleton.1 hchunk']
    · exact absurd htwo' hone
    all_goals exact absurd htwo hone
  ne_zero := by decide +kernel

/-! ## Agreement -/

/-- The gateway accepts a verified xorb under its hash exactly if the body is its own single
chunk. -/
theorem putSucceeds_iff {x : Crates} {blake3 : Blake3} (d : XetHashing x blake3) {body : Bytes}
    {h : Hash} {chunks : List Bytes} (hverified : FooterVerified x blake3 body h chunks)
    (hfree : CollisionFree d body chunks) (dir : Bytes) (s : Store) :
    PutSucceeds blake3 dir (lit (x.hex h)) body s ↔ chunks = [body] := by
  rw [d.hex_eq, putSucceeds_iff_gate (length_digestToHex h)]
  calc
    merkleHashHex blake3 body = digestToHex h ↔ blake3 dataKey body = h :=
      digestToHex_injective.eq_iff
    _ ↔ chunks = [body] := hash_eq_digest_iff hverified hfree

/-- The gateway refuses the xorb of three bytes. -/
theorem putSucceeds_iff_threeBytes :
    ¬PutSucceeds threeBytesBlake3 (lit "/cache") (lit (threeBytesCrates.hex threeBytesDigest))
      threeBytesXorb (.new 0) := by
  intro hput
  have hiff := putSucceeds_iff threeBytesHashing footerVerified_threeBytes collisionFree_threeBytes
    (lit "/cache") (.new 0)
  have hEq := hiff.1 hput
  revert hEq
  decide +kernel

/-- Not every xorb that is accepted through its footer passes the gate. -/
theorem not_forall_putSucceeds :
    ¬∀ (x : Crates) (blake3 : Blake3) (d : XetHashing x blake3) (pathPrefix hashSuffix : String)
      (body : Bytes) (h : Hash) (boundaries : List Int) (chunks : List Bytes) (dir : Bytes)
      (s : Store), admitXorb x pathPrefix hashSuffix body = .ok (h, boundaries) →
        FooterVerified x blake3 body h chunks → CollisionFree d body chunks →
          PutSucceeds blake3 dir (lit (x.hex h)) body s := by
  intro hclaim
  have hadmitted : admitXorb threeBytesCrates "default"
      "f2fe86161f3859eb9f7c6a7eabe4c8d08a3cac979e468094b7af994492d86275" threeBytesXorb =
        .ok (threeBytesDigest, [11]) := by
    decide +kernel
  have hput := hclaim _ _ threeBytesHashing _ _ _ _ _ _ (lit "/cache") (.new 0)
    hadmitted footerVerified_threeBytes collisionFree_threeBytes
  have htext : lit (threeBytesCrates.hex threeBytesDigest) = digestToHex threeBytesDigest :=
    lit_merkleHex threeBytesDigest
  rw [htext, putSucceeds_iff_gate (length_digestToHex _)] at hput
  have hdigest : threeBytesXorbDigest = threeBytesDigest := by
    have hbody : threeBytesBlake3 dataKey threeBytesXorb = threeBytesXorbDigest := by
      decide +kernel
    exact hbody.symm.trans (digestToHex_injective hput)
  revert hdigest
  decide

end Gateway
end OpenWeights
