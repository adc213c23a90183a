import OpenWeights.Service.PinStates

/-!
# Admission — what `upload_xorb` stores under a hash

A body is admitted under the hash of the path in two ways: its footer hashes to it, or there is no
footer the server can use, and the client is trusted.  A footer that hashes to something else is
refused before any operation.  `Admitted` says this without the code's control flow, together with
the chunk boundaries that are recorded: those of the footer, or those of the chunk headers if these
tile the body (`ChunkTiling`), or none.
-/

namespace OpenWeights
namespace Service

open Lib Db OpenWeights.Core

/-! ## Bodies tiled by chunks -/

/-- From `offset` to the end, the body is a sequence of chunk headers each followed by as many bytes
as the header says; the list has the end of each chunk. -/
inductive ChunkTiling (x : Crates) (bytes : Bytes) : Nat → List Int → Prop
  | nil : ChunkTiling x bytes bytes.length []
  | chunk {offset compressedLength : Nat} {boundaries : List Int}
      (hheader : x.parseChunkHeader ((bytes.drop offset).take xorbChunkHeaderLength) =
        some compressedLength)
      (hfits : offset + (xorbChunkHeaderLength + compressedLength) ≤ bytes.length)
      (hrest : ChunkTiling x bytes (offset + (xorbChunkHeaderLength + compressedLength))
        boundaries) :
      ChunkTiling x bytes offset
        (((offset + (xorbChunkHeaderLength + compressedLength) : Nat) : Int) :: boundaries)

/-- With a turn for every byte left, the walk finds the tiling if there is one. -/
theorem walkFrom_eq_some_iff {x : Crates} {bytes : Bytes} {fuel offset : Nat}
    {boundaries : List Int} (hle : offset ≤ bytes.length)
    (hfuel : bytes.length < offset + fuel) :
    walkFrom x bytes fuel offset = some boundaries ↔ ChunkTiling x bytes offset boundaries := by
  induction fuel generalizing offset boundaries with
  | zero => omega
  | succ fuel ih =>
      by_cases hlt : offset < bytes.length
      · constructor
        · intro hwalk
          simp only [walkFrom, hlt, if_true] at hwalk
          split at hwalk
          · cases hwalk
          · split at hwalk
            · cases hwalk
            · rename_i compressedLength hheader
              split at hwalk
              · cases hwalk
              · rename_i hfits
                have hfits : offset + (xorbChunkHeaderLength + compressedLength) ≤ bytes.length :=
                  Nat.le_of_not_lt hfits
                rcases Option.map_eq_some_iff.1 hwalk with ⟨rest, hrest, rfl⟩
                -- A turn advances by at least the header, so the fuel still suffices.
                have hfuel' : bytes.length <
                    offset + (xorbChunkHeaderLength + compressedLength) + fuel := by
                  simp only [xorbChunkHeaderLength] at *
                  omega
                exact .chunk hheader hfits ((ih hfits hfuel').1 hrest)
        · intro htiling
          cases htiling with
          | nil => omega
          | @chunk _ compressedLength rest hheader hfits hrest =>
              have hfuel' : bytes.length <
                  offset + (xorbChunkHeaderLength + compressedLength) + fuel := by
                simp only [xorbChunkHeaderLength] at *
                omega
              have hwalk := (ih hfits hfuel').2 hrest
              have hroom : ¬offset + xorbChunkHeaderLength > bytes.length := by omega
              have hend : ¬offset + (xorbChunkHeaderLength + compressedLength) > bytes.length := by
                omega
              simp [walkFrom, hlt, hroom, hheader, hend, hwalk]
      · have hEq : offset = bytes.length := by omega
        subst hEq
        constructor
        · intro hwalk
          have hnil : [] = boundaries := by simpa [walkFrom] using hwalk
          exact hnil ▸ .nil
        · intro htiling
          cases htiling with
          | nil => simp [walkFrom]
          | chunk _ hfits _ =>
              simp only [xorbChunkHeaderLength] at hfits
              omega

/-- The boundaries recovered from the chunk headers: those of the tiling, none without one. -/
def RecoveredBoundaries (x : Crates) (bytes : Bytes) (boundaries : List Int) : Prop :=
  ChunkTiling x bytes 0 boundaries ∨ (boundaries = [] ∧ ∀ b, ¬ChunkTiling x bytes 0 b)

theorem walkChunkBoundaries_eq_iff {x : Crates} {bytes : Bytes} {boundaries : List Int} :
    walkChunkBoundaries x bytes = boundaries ↔ RecoveredBoundaries x bytes boundaries := by
  have hwalk : ∀ b, walkFrom x bytes (bytes.length + 1) 0 = some b ↔ ChunkTiling x bytes 0 b :=
    fun b => walkFrom_eq_some_iff (Nat.zero_le _) (by omega)
  unfold walkChunkBoundaries RecoveredBoundaries
  cases hw : walkFrom x bytes (bytes.length + 1) 0 with
  | none =>
      have hnone : ∀ b, ¬ChunkTiling x bytes 0 b := by
        intro b hb
        rw [(hwalk b).2 hb] at hw
        cases hw
      simp [hnone, eq_comm]
  | some b =>
      have htiling := (hwalk b).1 hw
      constructor
      · intro hEq
        exact .inl (hEq ▸ htiling)
      · rintro (hb | ⟨-, hnone⟩)
        · have hEq := (hwalk boundaries).2 hb
          rw [hw] at hEq
          exact Option.some.inj hEq
        · exact absurd htiling (hnone b)

/-! ## Admitted bodies -/

/-- The body may be stored under `h`, with these chunk boundaries. -/
inductive Admitted (x : Crates) (h : Hash) (body : Bytes) : List Int → Prop
  /-- The footer hashes to `h` and has the boundaries. -/
  | footer {boundaries : List Int}
      (hfooter : computeXorbHashAndBoundaries x body = .ok (h, boundaries))
      (hne : boundaries ≠ []) : Admitted x h body boundaries
  /-- The footer hashes to `h` and has no boundaries. -/
  | emptyFooter {boundaries : List Int}
      (hfooter : computeXorbHashAndBoundaries x body = .ok (h, []))
      (hwalk : RecoveredBoundaries x body boundaries) : Admitted x h body boundaries
  /-- There is no usable footer: the hash of the path is trusted. -/
  | trusted {boundaries : List Int} {err : AppError}
      (hfooter : computeXorbHashAndBoundaries x body = .error err)
      (hwalk : RecoveredBoundaries x body boundaries) : Admitted x h body boundaries

theorem verifyXorb_eq_ok_iff {x : Crates} {h : Hash} {body : Bytes} {boundaries : List Int} :
    verifyXorb x h body = .ok boundaries ↔ Admitted x h body boundaries := by
  constructor
  · intro hok
    cases hfooter : computeXorbHashAndBoundaries x body with
    | error err =>
        have hwalk : walkChunkBoundaries x body = boundaries := by
          simpa [verifyXorb, hfooter, except_bind_eq_ok] using hok
        exact .trusted hfooter (walkChunkBoundaries_eq_iff.1 hwalk)
    | ok result =>
        obtain ⟨actual, footer⟩ := result
        by_cases hactual : actual = h
        · subst hactual
          cases footer with
          | nil =>
              have hwalk : walkChunkBoundaries x body = boundaries := by
                simpa [verifyXorb, hfooter, except_bind_eq_ok] using hok
              exact .emptyFooter hfooter (walkChunkBoundaries_eq_iff.1 hwalk)
          | cons b bs =>
              have hEq : b :: bs = boundaries := by simpa [verifyXorb, hfooter, except_bind_eq_ok] using hok
              subst hEq
              exact .footer hfooter (List.cons_ne_nil b bs)
        · simp [verifyXorb, hfooter, hactual, except_bind_eq_ok] at hok
  · intro hadm
    unfold verifyXorb
    cases hadm with
    | footer hfooter hne => simp [hfooter, hne, except_bind_eq_ok]
    | emptyFooter hfooter hwalk =>
        have hEq := walkChunkBoundaries_eq_iff.2 hwalk
        simp [hfooter, hEq, except_bind_eq_ok]
    | trusted hfooter hwalk =>
        have hEq := walkChunkBoundaries_eq_iff.2 hwalk
        simp [hfooter, hEq, except_bind_eq_ok]

/-- An admitted body has no footer that hashes to something else. -/
theorem Admitted.hash_eq {x : Crates} {h h' : Hash} {body : Bytes}
    {boundaries footer : List Int} (hadm : Admitted x h body boundaries)
    (hfooter : computeXorbHashAndBoundaries x body = .ok (h', footer)) : h' = h := by
  cases hadm with
  | footer hown _ =>
      rw [hown] at hfooter
      cases hfooter
      rfl
  | emptyFooter hown _ =>
      rw [hown] at hfooter
      cases hfooter
      rfl
  | trusted hown _ =>
      rw [hown] at hfooter
      cases hfooter

theorem ChunkTiling.nonneg {x : Crates} {bytes : Bytes} {offset : Nat} {boundaries : List Int}
    (h : ChunkTiling x bytes offset boundaries) : ∀ b ∈ boundaries, 0 ≤ b := by
  induction h with
  | nil => simp
  | chunk _ _ _ ih =>
      intro b hb
      rcases List.mem_cons.1 hb with rfl | hb
      · exact Int.natCast_nonneg _
      · exact ih b hb

/-- Recorded boundaries are offsets: those of a footer are `u32`, those of a walk are sums of
lengths. -/
theorem Admitted.nonneg {x : Crates} {h : Hash} {body : Bytes} {boundaries : List Int}
    (hadm : Admitted x h body boundaries) : ∀ b ∈ boundaries, 0 ≤ b := by
  have hwalked : RecoveredBoundaries x body boundaries → ∀ b ∈ boundaries, 0 ≤ b := by
    rintro (htiling | ⟨rfl, -⟩)
    · exact htiling.nonneg
    · simp
  cases hadm with
  | footer hfooter hne =>
      unfold computeXorbHashAndBoundaries at hfooter
      split at hfooter
      · cases hfooter
      · dsimp only at hfooter
        split at hfooter
        · cases hfooter
          exact absurd rfl hne
        · split at hfooter
          · cases hfooter
          · rcases except_bind_eq_ok.1 hfooter with ⟨pairs, -, hEq⟩
            cases hEq
            intro b hb
            obtain ⟨o, -, rfl⟩ := List.mem_map.1 hb
            exact Int.natCast_nonneg _
  | emptyFooter _ hwalk => exact hwalked hwalk
  | trusted _ hwalk => exact hwalked hwalk

/-! ## Along runs -/

namespace State

variable {x : Crates} {c : State}

/-- The operation stores the body under `h`: it inserts the row, or sends the body to Sia. -/
def StoresXorb (h : Hash) (body : Bytes) (o : Op) : Prop :=
  (∃ n boundaries, o = .sql (.insertPending h n boundaries)) ∨ o = .uploadAndPin .xorb h body

/-- Every operation of an upload request is for a body admitted under the hash of its path: no
footer of the body hashes to anything else, and what is stored is the body, with the boundaries it
was admitted with. -/
theorem admitted_of_logged (hreach : Reachable x anyStep c) {e : Entry Request Op Res}
    (he : e ∈ c.log) {pathPrefix hashSuffix : String} {body : Bytes}
    (hreq : e.request = .uploadXorb pathPrefix hashSuffix body) :
    ∃ h boundaries, pathHash x pathPrefix hashSuffix = some h ∧ body.length ≤ maxXorbBytes ∧
      Admitted x h body boundaries ∧
      (∀ h' footer, computeXorbHashAndBoundaries x body = .ok (h', footer) → h' = h) ∧
      (∀ h' n b, e.call.op = .sql (.insertPending h' n b) →
        h' = h ∧ n = body.length ∧ b = boundaries) ∧
      ∀ k h' bytes, e.call.op = .uploadAndPin k h' bytes → k = .xorb ∧ h' = h ∧ bytes = body := by
  have hserves := hreach.log_serves he
  rw [hreq] at hserves
  rcases hserves with ⟨h, boundaries, hok, hop⟩
  obtain ⟨hpath, hlen, hverify⟩ := admitXorb_eq_ok_iff.1 hok
  have hadm := verifyXorb_eq_ok_iff.1 hverify
  refine ⟨h, boundaries, hpath, hlen, hadm, fun h' footer => hadm.hash_eq, ?_, ?_⟩
  · intro h' n b hEq
    rw [hEq] at hop
    exact hop
  · intro k h' bytes hEq
    rw [hEq] at hop
    exact hop

/-- An upload of one byte, up to the answer of its Sia call. -/
def oneByteUpload : List Step :=
  [.spawn 0 (.uploadXorb "default" sampleHex [255]), .call 0 (.rateLimit (.ok ())),
    .call 0 (.sql 0 []), .call 0 (.sql 0 []), .call 0 (.upload (.ok (.ok [1])))]

/-- The newest operation is the Sia call of that upload. -/
def uploadedOneByte (c : State) : Bool :=
  match c.log with
  | ⟨_, .uploadXorb _ _ body, ⟨.uploadAndPin .xorb h bytes, _⟩⟩ :: _ =>
      h = sampleHash && body = [255] && bytes = [255]
  | _ => false

theorem exists_oneByteUpload :
    ∃ c e pathPrefix hashSuffix, Reachable (bareCrates fun _ => Hash.fill 0) anyStep c ∧
      e ∈ c.log ∧ e.request = .uploadXorb pathPrefix hashSuffix [255] ∧
      e.call.op = .uploadAndPin .xorb sampleHash [255] := by
  have heval : (initial.runAll (bareCrates fun _ => Hash.fill 0) oneByteUpload).map
      uploadedOneByte = some true := by
    decide +kernel
  rcases exists_run heval with ⟨tr, c, hrun, hlast⟩
  unfold uploadedOneByte at hlast
  split at hlast
  · rename_i i pathPrefix hashSuffix body h bytes r log hlog
    have hEq : (h = sampleHash ∧ body = [255]) ∧ bytes = [255] := by simpa using hlast
    obtain ⟨⟨rfl, rfl⟩, rfl⟩ := hEq
    refine ⟨c, ⟨i, .uploadXorb pathPrefix hashSuffix [255],
      ⟨.uploadAndPin .xorb sampleHash [255], r⟩⟩, pathPrefix, hashSuffix,
      ⟨tr, hrun, fun _ _ => trivial⟩, ?_, rfl, rfl⟩
    rw [hlog]
    exact List.mem_cons_self
  · cases hlast

theorem admitted_of_logged_oneByteUpload :
    ∃ c : State, ∃ h boundaries, Reachable (bareCrates fun _ => Hash.fill 0) anyStep c ∧
      h = sampleHash ∧ Admitted (bareCrates fun _ => Hash.fill 0) h [255] boundaries := by
  rcases exists_oneByteUpload with ⟨c, e, pathPrefix, hashSuffix, hreach, he, hreq, hop⟩
  rcases admitted_of_logged hreach he hreq with ⟨h, boundaries, -, -, hadm, -, -, hstored⟩
  exact ⟨c, h, boundaries, hreach, (hstored _ _ _ hop).2.1.symm, hadm⟩

/-- One byte that is neither a footer nor a chunk is stored under the hash of the path. -/
theorem not_stored_verified :
    ¬∀ (x : Crates) (c : State), Reachable x anyStep c → ∀ e ∈ c.log,
      ∀ pathPrefix hashSuffix body h, e.request = .uploadXorb pathPrefix hashSuffix body →
        StoresXorb h body e.call.op →
        (∃ footer, computeXorbHashAndBoundaries x body = .ok (h, footer)) ∨
          (x.deserialize body = none ∧ ∃ boundaries, ChunkTiling x body 0 boundaries) := by
  intro hclaim
  rcases exists_oneByteUpload with ⟨c, e, pathPrefix, hashSuffix, hreach, he, hreq, hop⟩
  rcases hclaim _ c hreach e he _ _ _ sampleHash hreq (.inr hop) with
    ⟨footer, hfooter⟩ | ⟨-, boundaries, htiling⟩
  · cases hfooter
  · -- A chunk needs eight bytes.
    cases htiling with
    | chunk _ hfits _ =>
        simp only [xorbChunkHeaderLength, List.length_cons, List.length_nil] at hfits
        omega

end State

end Service
end OpenWeights
