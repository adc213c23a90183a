import OpenWeights.Lib.Blocks
import OpenWeights.Service.Admission

/-!
# Boundaries — the walk over the chunk headers

`walk_chunk_boundaries` returns a list exactly for the concatenations of whole blocks, and then it is
where the blocks end.  So the bytes between two boundaries are a chunk stream of their own, with the
boundaries in between: the gateway may serve them to a chunk decoder.
-/

namespace OpenWeights
namespace Service

open Lib Db OpenWeights.Core

/-- An accepted header and exactly as many bytes as it says. -/
structure IsBlock (x : Crates) (block : Bytes) : Prop where
  header_le : xorbChunkHeaderLength ≤ block.length
  accepted : x.parseChunkHeader (block.take xorbChunkHeaderLength) =
    some (block.length - xorbChunkHeaderLength)

structure Blocks (x : Crates) (bytes : Bytes) (blocks : List Bytes) : Prop where
  isBlock : ∀ block ∈ blocks, IsBlock x block
  flatten_eq : blocks.flatten = bytes

section Walk

variable {x : Crates}

theorem IsBlock.pos {block : Bytes} (h : IsBlock x block) : 0 < block.length :=
  Nat.lt_of_lt_of_le (by decide) h.header_le

/-- Blocks that make up the bytes from `offset` on are a tiling. -/
theorem chunkTiling_of_blocks {bytes : Bytes} {offset : Nat} {blocks : List Bytes}
    (hle : offset ≤ bytes.length) (h : Blocks x (bytes.drop offset) blocks) :
    ChunkTiling x bytes offset ((endsFrom offset blocks).map Nat.cast) := by
  induction blocks generalizing offset with
  | nil =>
      have hlen := congrArg List.length h.flatten_eq
      rw [List.flatten_nil, List.length_nil, List.length_drop] at hlen
      have hend : offset = bytes.length := by omega
      subst hend
      exact .nil
  | cons block blocks ih =>
      have hblock := h.isBlock block List.mem_cons_self
      have hsplit : bytes.drop offset = block ++ blocks.flatten := by
        rw [← h.flatten_eq, List.flatten_cons]
      have hadd : xorbChunkHeaderLength + (block.length - xorbChunkHeaderLength) = block.length :=
        Nat.add_sub_cancel' hblock.header_le
      have hlen := congrArg List.length hsplit
      rw [List.length_drop, List.length_append] at hlen
      have hheader : (bytes.drop offset).take xorbChunkHeaderLength =
          block.take xorbChunkHeaderLength := by
        rw [hsplit, List.take_append_of_le_length hblock.header_le]
      have hrest : Blocks x (bytes.drop (offset + block.length)) blocks := by
        refine ⟨fun b hb => h.isBlock b (List.mem_cons_of_mem block hb), ?_⟩
        rw [← List.drop_drop, hsplit, List.drop_left]
      have hfits : offset + block.length ≤ bytes.length := by omega
      have htiling := ih hfits hrest
      rw [endsFrom_cons, List.map_cons]
      rw [← hadd] at hfits htiling ⊢
      exact .chunk (hheader ▸ hblock.accepted) hfits htiling

/-- A tiling cuts the bytes from `offset` on into blocks. -/
theorem exists_blocks_of_chunkTiling {bytes : Bytes} {offset : Nat} {bounds : List Int}
    (h : ChunkTiling x bytes offset bounds) :
    ∃ blocks, Blocks x (bytes.drop offset) blocks ∧
      bounds = (endsFrom offset blocks).map Nat.cast := by
  induction h with
  | nil => exact ⟨[], ⟨nofun, by simp⟩, rfl⟩
  | @chunk offset len bounds hheader hfits hrest ih =>
      obtain ⟨blocks, hblocks, rfl⟩ := ih
      have hlen : ((bytes.drop offset).take (xorbChunkHeaderLength + len)).length =
          xorbChunkHeaderLength + len := by
        rw [List.length_take, List.length_drop]
        omega
      have hblock : IsBlock x ((bytes.drop offset).take (xorbChunkHeaderLength + len)) := by
        refine ⟨?_, ?_⟩
        · rw [hlen]
          exact Nat.le_add_right _ _
        · rw [hlen, List.take_take, Nat.min_eq_left (Nat.le_add_right _ _),
            Nat.add_sub_cancel_left]
          exact hheader
      refine ⟨(bytes.drop offset).take (xorbChunkHeaderLength + len) :: blocks, ⟨?_, ?_⟩, ?_⟩
      · intro block hmem
        rcases List.mem_cons.1 hmem with rfl | hmem
        · exact hblock
        · exact hblocks.isBlock block hmem
      · rw [List.flatten_cons, hblocks.flatten_eq, ← List.drop_drop, List.take_append_drop]
      · rw [endsFrom_cons, hlen]
        rfl

/-- The walk of a concatenation of blocks is where they end. -/
theorem Blocks.walk {bytes : Bytes} {blocks : List Bytes} (h : Blocks x bytes blocks) :
    walkChunkBoundaries x bytes = (endsFrom 0 blocks).map Nat.cast :=
  walkChunkBoundaries_eq_iff.2 (.inl (chunkTiling_of_blocks (Nat.zero_le _) h))

/-- A walk that returns anything has found blocks. -/
theorem exists_blocks_of_walk {bytes : Bytes} (h : walkChunkBoundaries x bytes ≠ []) :
    ∃ blocks, Blocks x bytes blocks ∧ blocks ≠ [] := by
  rcases walkChunkBoundaries_eq_iff.1 (rfl : walkChunkBoundaries x bytes = _) with
    htiling | ⟨hnil, -⟩
  · obtain ⟨blocks, hblocks, hbounds⟩ := exists_blocks_of_chunkTiling htiling
    refine ⟨blocks, hblocks, ?_⟩
    rintro rfl
    exact h hbounds
  · exact absurd hnil h

/-- A run of the blocks is a body of its own. -/
theorem Blocks.run {bytes : Bytes} {front mid back : List Bytes}
    (h : Blocks x bytes (front ++ mid ++ back)) : Blocks x mid.flatten mid :=
  ⟨fun block hb => h.isBlock block (by simp [hb]), rfl⟩

/-- What is returned is the ends of some blocks, whether or not these make up the body. -/
theorem exists_endsFrom_eq_walk (x : Crates) (bytes : Bytes) :
    ∃ blocks : List Bytes, (∀ block ∈ blocks, IsBlock x block) ∧
      walkChunkBoundaries x bytes = (endsFrom 0 blocks).map Nat.cast ∧
        (blocks ≠ [] → blocks.flatten = bytes) := by
  by_cases hnil : walkChunkBoundaries x bytes = []
  · exact ⟨[], nofun, hnil, fun h => absurd rfl h⟩
  · obtain ⟨blocks, hblocks, -⟩ := exists_blocks_of_walk hnil
    exact ⟨blocks, hblocks.isBlock, hblocks.walk, fun _ => hblocks.flatten_eq⟩

/-! ## The loop -/

/-- The loop of `walk_chunk_boundaries` without a bound on its turns: a header is never empty, so
every turn leaves fewer bytes. -/
def walkLoop (x : Crates) (bytes : Bytes) (offset : Nat) : Option (List Int) :=
  if offset < bytes.length then
    if offset + xorbChunkHeaderLength > bytes.length then
      none
    else
      match x.parseChunkHeader ((bytes.drop offset).take xorbChunkHeaderLength) with
      | none => none
      | some compressedLength =>
          let offset' := offset + (xorbChunkHeaderLength + compressedLength)
          if offset' > bytes.length then
            none
          else
            (walkLoop x bytes offset').map fun boundaries => (offset' : Int) :: boundaries
  else
    some []
termination_by bytes.length - offset
decreasing_by
  simp only [xorbChunkHeaderLength] at *
  omega

/-- The bound on the turns is never reached. -/
theorem walkFrom_eq_walkLoop {bytes : Bytes} {fuel offset : Nat}
    (hfuel : bytes.length < offset + fuel) (hle : offset ≤ bytes.length) :
    walkFrom x bytes fuel offset = walkLoop x bytes offset := by
  induction fuel generalizing offset with
  | zero => omega
  | succ fuel ih =>
      rw [walkFrom, walkLoop]
      by_cases hlt : offset < bytes.length
      · rw [if_pos hlt, if_pos hlt]
        by_cases hroom : offset + xorbChunkHeaderLength > bytes.length
        · rw [if_pos hroom, if_pos hroom]
        · rw [if_neg hroom, if_neg hroom]
          cases hheader : x.parseChunkHeader
              ((bytes.drop offset).take xorbChunkHeaderLength) with
          | none => rfl
          | some len =>
              by_cases hend : offset + (xorbChunkHeaderLength + len) > bytes.length
              · simp only [if_pos hend]
              · have hfuel' : bytes.length < offset + (xorbChunkHeaderLength + len) + fuel := by
                  simp only [xorbChunkHeaderLength]
                  omega
                simp only [if_neg hend, ih hfuel' (Nat.le_of_not_lt hend)]
      · rw [if_neg hlt, if_neg hlt]

/-! ## What the walk returns -/

/-- The walk over the headers of `bytes` finds the blocks and nothing but the blocks. -/
structure ExactWalk (x : Crates) (bytes : Bytes) : Prop where
  /-- The loop ends by itself, whatever bound is put on its turns. -/
  terminates : ∀ fuel, bytes.length < fuel → walkFrom x bytes fuel 0 = walkLoop x bytes 0
  nonempty_iff : walkChunkBoundaries x bytes ≠ [] ↔
    ∃ blocks, Blocks x bytes blocks ∧ blocks ≠ []
  prefixSums : ∀ blocks, Blocks x bytes blocks →
    walkChunkBoundaries x bytes = (endsFrom 0 blocks).map Nat.cast
  increasing : (0 :: walkChunkBoundaries x bytes).Pairwise fun e e' => e < e'
  steps : (0 :: walkChunkBoundaries x bytes).IsChain
    fun e e' : Int => e + xorbChunkHeaderLength ≤ e'
  last : ∀ e ∈ (walkChunkBoundaries x bytes).getLast?, e = bytes.length
  /-- The bytes between two boundaries are walked like the whole. -/
  slice : ∀ p ∈ 0 :: walkChunkBoundaries x bytes, ∀ q ∈ 0 :: walkChunkBoundaries x bytes, p < q →
    walkChunkBoundaries x ((bytes.drop p.toNat).take (q.toNat - p.toNat)) =
      ((walkChunkBoundaries x bytes).filter fun e => p < e ∧ e ≤ q).map fun e => e - p

theorem isChain_walk (x : Crates) (bytes : Bytes) :
    (0 :: walkChunkBoundaries x bytes).IsChain
    fun e e' : Int => e + xorbChunkHeaderLength ≤ e' := by
  obtain ⟨blocks, hblocks, hwalk, -⟩ := exists_endsFrom_eq_walk x bytes
  have hchain : (0 :: endsFrom 0 blocks).IsChain fun e e' => e + xorbChunkHeaderLength ≤ e' :=
    isChain_endsFrom fun block hb => (hblocks block hb).header_le
  have hcast : (0 : Int) :: (endsFrom 0 blocks).map Nat.cast =
      (0 :: endsFrom 0 blocks).map Nat.cast := rfl
  rw [hwalk, hcast, List.isChain_map]
  exact hchain.imp fun e e' hstep => by exact_mod_cast hstep

theorem getLast_walk {bytes : Bytes} {e : Int}
    (he : e ∈ (walkChunkBoundaries x bytes).getLast?) : e = bytes.length := by
  obtain ⟨blocks, -, hwalk, hflatten⟩ := exists_endsFrom_eq_walk x bytes
  rw [hwalk] at he
  cases blocks with
  | nil => cases he
  | cons block blocks =>
      have hlast := getLast_endsFrom 0 (block :: blocks)
      rw [hflatten (List.cons_ne_nil _ _), Nat.zero_add] at hlast
      rw [endsFrom_cons, List.getLast_cons (List.cons_ne_nil _ _)] at hlast
      rw [List.getLast?_map, endsFrom_cons, List.getLast?_eq_some_getLast (List.cons_ne_nil _ _),
        hlast] at he
      exact (Option.some.inj he).symm

theorem slice_walk {bytes : Bytes} {p q : Int} (hp : p ∈ 0 :: walkChunkBoundaries x bytes)
    (hq : q ∈ 0 :: walkChunkBoundaries x bytes) (hlt : p < q) :
    walkChunkBoundaries x ((bytes.drop p.toNat).take (q.toNat - p.toNat)) =
      ((walkChunkBoundaries x bytes).filter fun e => p < e ∧ e ≤ q).map fun e => e - p := by
  by_cases hnil : walkChunkBoundaries x bytes = []
  · -- There is only one boundary then.
    rw [hnil, List.mem_singleton] at hp hq
    omega
  · obtain ⟨blocks, hblocks, -⟩ := exists_blocks_of_walk hnil
    have hcast : (0 : Int) :: (endsFrom 0 blocks).map Nat.cast =
        (0 :: endsFrom 0 blocks).map Nat.cast := rfl
    rw [hblocks.walk, hcast] at hp hq
    obtain ⟨p, hp', rfl⟩ := List.mem_map.1 hp
    obtain ⟨q, hq', rfl⟩ := List.mem_map.1 hq
    obtain ⟨front, mid, back, rfl, hpEq, hqEq⟩ :=
      exists_run_of_mem_ends hp' hq' (Int.ofNat_lt.1 hlt)
    have hpos : ∀ block ∈ front ++ mid ++ back, 0 < block.length :=
      fun block hb => (hblocks.isBlock block hb).pos
    have hslice : (bytes.drop p).take (q - p) = mid.flatten := by
      rw [← hblocks.flatten_eq, hpEq, hqEq]
      exact take_drop_flatten front mid back
    have hends := filter_endsFrom hpos
    rw [← hpEq, ← hqEq] at hends
    rw [Int.toNat_natCast, Int.toNat_natCast, hslice, hblocks.run.walk, hblocks.walk, ← hends,
      List.map_map, List.filter_map, List.map_map]
    have hfilter : (fun e : Int => decide ((p : Int) < e ∧ e ≤ q)) ∘ (Nat.cast : Nat → Int) =
        fun e => decide (p < e ∧ e ≤ q) := by
      funext e
      simp only [Function.comp_apply, Int.ofNat_lt, Int.ofNat_le]
    rw [hfilter]
    refine List.map_congr_left fun e he => ?_
    -- The boundaries that are kept lie behind `p`, so the subtraction is exact.
    have hkept := of_decide_eq_true (List.mem_filter.1 he).2
    exact Int.ofNat_sub hkept.1.le

/-- For every body the walk is exact. -/
theorem walkChunkBoundaries_exact (x : Crates) (bytes : Bytes) : ExactWalk x bytes where
  terminates := fun fuel hfuel => walkFrom_eq_walkLoop (by omega) (Nat.zero_le _)
  nonempty_iff := by
    constructor
    · exact exists_blocks_of_walk
    · rintro ⟨blocks, hblocks, hne⟩
      rw [hblocks.walk]
      cases blocks with
      | nil => exact absurd rfl hne
      | cons block blocks => simp
  prefixSums := fun blocks hblocks => hblocks.walk
  increasing := by
    have hincreasing : (0 :: walkChunkBoundaries x bytes).IsChain fun e e' => e < e' :=
      (isChain_walk x bytes).imp fun e e' hstep =>
        Int.lt_of_lt_of_le (Int.lt_add_of_pos_right e (by decide)) hstep
    exact List.isChain_iff_pairwise.1 hincreasing
  steps := isChain_walk x bytes
  last := fun e he => getLast_walk he
  slice := fun p hp q hq hlt => slice_walk hp hq hlt

end Walk

/-- Two chunks of ten and five bytes; with a byte more there is no tiling. -/
example :
    let body : Bytes := [0, 10, 0, 0, 0, 10, 0, 0] ++ List.replicate 10 7 ++
      [0, 5, 0, 0, 0, 5, 0, 0] ++ List.replicate 5 9
    walkChunkBoundaries (bareCrates fun _ => Hash.fill 0) body = [18, 31] ∧
      walkChunkBoundaries (bareCrates fun _ => Hash.fill 0) (body ++ [255]) = [] := by
  decide +kernel

end Service
end OpenWeights
