import OpenWeights.Lib.Records
import OpenWeights.Core.Xorbs
import OpenWeights.Core.Coalesce

/-!
# XetFiles — serving a whole file by walking its xorbs

Model of `xet_file_serve` in `openweights-cas-core/src/handlers/hfapi.rs`, from the decoded file id
on.  It reads every xorb of the file back from Sia as a whole and walks it chunk by chunk from the
front, keeping the chunks of the term; the byte columns of the term are not read.

`deserialize_chunk_to_writer` is third-party and comes in as a `ChunkDecoder`.
-/

namespace OpenWeights
namespace Core

open Lib Db

/-- `deserialize_chunk_to_writer` on the unread bytes: what it writes and how many bytes it reads.  A
chunk is a header and as many bytes as the header says, and nothing else matters. -/
structure ChunkDecoder (x : Crates) where
  deserializeChunk : Bytes → Except String (Bytes × Nat)
  consumes : ∀ {rest out n}, deserializeChunk rest = .ok (out, n) →
    ∃ compressedLength,
      x.parseChunkHeader (rest.take xorbChunkHeaderLength) = some compressedLength ∧
        n = xorbChunkHeaderLength + compressedLength ∧ n ≤ rest.length
  front : ∀ {rest out n}, deserializeChunk rest = .ok (out, n) →
    ∀ rest', rest'.take n = rest.take n → deserializeChunk rest' = .ok (out, n)

theorem toOption_eq_some_iff {ε α : Type} {r : Except ε α} {a : α} :
    r.toOption = some a ↔ r = .ok a := by
  cases r with
  | error e => simp [Except.toOption]
  | ok b => simp [Except.toOption]

def ChunkDecoder.records {x : Crates} (d : ChunkDecoder x) : RecordDecoder UInt8 Bytes where
  decode bytes := (d.deserializeChunk bytes).toOption
  pos := by
    intro bytes out n h
    obtain ⟨len, -, rfl, -⟩ := d.consumes (toOption_eq_some_iff.1 h)
    simp only [xorbChunkHeaderLength]
    omega
  le := by
    intro bytes out n h
    obtain ⟨len, -, -, hle⟩ := d.consumes (toOption_eq_some_iff.1 h)
    exact hle
  front := by
    intro bytes out n h bytes' hEq
    exact toOption_eq_some_iff.2 (d.front (toOption_eq_some_iff.1 h) bytes' hEq)

/-- `deserialize_chunk_to_writer` of a chunk that is not compressed. -/
def copyChunk (x : Crates) (rest : Bytes) : Except String (Bytes × Nat) :=
  match x.parseChunkHeader (rest.take xorbChunkHeaderLength) with
  | none => .error "invalid chunk header"
  | some len =>
      if xorbChunkHeaderLength + len ≤ rest.length then
        .ok ((rest.drop xorbChunkHeaderLength).take len, xorbChunkHeaderLength + len)
      else
        .error "failed to fill whole buffer"

theorem copyChunk_ok {x : Crates} {rest out : Bytes} {n : Nat} (h : copyChunk x rest = .ok (out, n)) :
    ∃ len, x.parseChunkHeader (rest.take xorbChunkHeaderLength) = some len ∧
      n = xorbChunkHeaderLength + len ∧ n ≤ rest.length ∧
      out = (rest.drop xorbChunkHeaderLength).take len := by
  unfold copyChunk at h
  split at h
  · cases h
  · rename_i len hheader
    split at h
    · rename_i hle
      cases h
      exact ⟨len, hheader, rfl, hle, rfl⟩
    · cases h

def copyDecoder (x : Crates) : ChunkDecoder x where
  deserializeChunk := copyChunk x
  consumes := by
    intro rest out n h
    obtain ⟨len, hheader, hn, hle, -⟩ := copyChunk_ok h
    exact ⟨len, hheader, hn, hle⟩
  front := by
    intro rest out n h rest' hEq
    obtain ⟨len, hheader, rfl, hle, rfl⟩ := copyChunk_ok h
    have hlen : xorbChunkHeaderLength + len ≤ rest'.length := by
      have hcount := congrArg List.length hEq
      rw [List.length_take, List.length_take, Nat.min_eq_left hle] at hcount
      omega
    have hhead : rest'.take xorbChunkHeaderLength = rest.take xorbChunkHeaderLength := by
      have hcut := congrArg (List.take xorbChunkHeaderLength) hEq
      rwa [List.take_take, List.take_take, Nat.min_eq_left (Nat.le_add_right _ _)] at hcut
    have htail : (rest'.drop xorbChunkHeaderLength).take len =
        (rest.drop xorbChunkHeaderLength).take len := by
      have hcut := congrArg (List.drop xorbChunkHeaderLength) hEq
      rwa [List.drop_take, List.drop_take, Nat.add_sub_cancel_left] at hcut
    rw [copyChunk, hhead, hheader]
    simp only [if_pos hlen, htail]

/-- The errors of `xet_file_serve`: `AppError::NotFound` and `AppError::Other`. -/
inductive XetFileError
  | notFound
  | other (message : String)
  deriving DecidableEq, Repr

abbrev DownloadRange := Bytes → UInt64 → UInt64 → Except String Bytes

section Serve

variable {x : Crates} (d : ChunkDecoder x)

def ranOut (idx wantStart wantEnd : Nat) : XetFileError :=
  .other s!"xorb ran out at chunk {idx}, term wanted [{wantStart}..{wantEnd})"

/-- The walk over the chunks of a xorb, at chunk `idx` with the unread bytes `rest`: what it appends to
`out`.  A turn reads at least a chunk header, so a turn for every byte is enough; see
`emitChunks_fuel`. -/
def emitChunks (wantStart wantEnd : Nat) : Nat → Nat → Bytes → Except XetFileError Bytes
  | 0, idx, _ => .error (ranOut idx wantStart wantEnd)
  | fuel + 1, idx, rest =>
      if rest ≠ [] ∧ idx < wantEnd then
        match d.deserializeChunk rest with
        | .error e =>
            if idx ≥ wantStart then
              .error (.other s!"decompress chunk {idx}: {e}")
            else
              .error (.other s!"skip chunk {idx}: {e}")
        | .ok (chunk, n) =>
            match emitChunks wantStart wantEnd fuel (idx + 1) (rest.drop n) with
            | .error e => .error e
            | .ok out => .ok (if idx ≥ wantStart then chunk ++ out else out)
      else if idx < wantEnd then
        .error (ranOut idx wantStart wantEnd)
      else
        .ok []

def serveTerm (downloadRange : DownloadRange) (db : Database) (t : Term) :
    Except XetFileError Bytes :=
  match db.xorbs.find t.xorbHash with
  | none => .error .notFound
  | some r =>
      if r.pinState = .pinned then
        match r.siaObjectId with
        | none => .error .notFound
        | some siaId =>
            match downloadRange siaId 0 (u64 r.sizeBytes) with
            | .error e => .error (.other s!"sia read xorb: {e}")
            | .ok body =>
                emitChunks d (u64 t.xorbStart).toNat (u64 t.xorbEnd).toNat (body.length + 1) 0 body
      else
        .error .notFound

def serveTerms (downloadRange : DownloadRange) (db : Database) :
    List Term → Except XetFileError Bytes
  | [] => .ok []
  | t :: ts => do
      let chunk ← serveTerm d downloadRange db t
      let rest ← serveTerms downloadRange db ts
      .ok (chunk ++ rest)

/-- `xet_file_serve`, from the decoded file id to the body of the response. -/
def xetFileServe (downloadRange : DownloadRange) (db : Database) (fileId : Hash) :
    Except XetFileError Bytes :=
  match db.reconstructionFiles.find fileId with
  | none => .error .notFound
  | some f =>
      match (db.storedTerms fileId).map Prod.snd with
      | [] => .error .notFound
      | t :: ts => do
          let out ← serveTerms d downloadRange db (t :: ts)
          let got := out.length
          let expected := f.totalSize
          if (got : Int) ≠ expected then
            .error (.other s!"reconstruction size mismatch: got {got}, expected {expected}")
          else
            .ok out

variable {d}

/-- With a turn for every byte left, more turns change nothing. -/
theorem emitChunks_fuel {wantStart wantEnd fuel fuel' idx : Nat} {rest : Bytes}
    (hfuel : rest.length < fuel) (hfuel' : rest.length < fuel') :
    emitChunks d wantStart wantEnd fuel idx rest =
      emitChunks d wantStart wantEnd fuel' idx rest := by
  induction fuel generalizing fuel' idx rest with
  | zero => omega
  | succ fuel ih =>
      cases fuel' with
      | zero => omega
      | succ fuel' =>
          simp only [emitChunks]
          split
          · split
            · rfl
            · rename_i chunk n hchunk
              obtain ⟨len, -, hn, hle⟩ := d.consumes hchunk
              simp only [xorbChunkHeaderLength] at hn
              have hrest : (rest.drop n).length + n = rest.length := by
                rw [List.length_drop]
                omega
              have hEq : emitChunks d wantStart wantEnd fuel (idx + 1) (rest.drop n) =
                  emitChunks d wantStart wantEnd fuel' (idx + 1) (rest.drop n) :=
                ih (by omega) (by omega)
              rw [hEq]
          · rfl

/-- A walk that succeeds has read the chunks up to `wantEnd`, and keeps those from `wantStart` on. -/
theorem emitChunks_ok {wantStart wantEnd fuel idx : Nat} {rest out : Bytes}
    (hidx : idx ≤ wantEnd)
    (h : emitChunks d wantStart wantEnd fuel idx rest = .ok out) :
    ∃ chunks k, Records d.records rest chunks k ∧ idx + chunks.length = wantEnd ∧
      out = (chunks.drop (wantStart - idx)).flatten := by
  induction fuel generalizing idx rest out with
  | zero => cases h
  | succ fuel ih =>
      simp only [emitChunks] at h
      split at h
      · rename_i hmore
        split at h
        · split at h <;> cases h
        · rename_i chunk n hchunk
          split at h
          · cases h
          · rename_i tail htail
            cases h
            obtain ⟨chunks, k, hrecords, hlen, rfl⟩ := ih hmore.2 htail
            refine ⟨chunk :: chunks, n + k, .cons (toOption_eq_some_iff.2 hchunk) hrecords, ?_, ?_⟩
            · rw [List.length_cons]
              omega
            · -- A chunk before `wantStart` is dropped, any other one is emitted.
              split
              · rename_i hkeep
                have hnow : wantStart - idx = 0 := by omega
                have hlater : wantStart - (idx + 1) = 0 := by omega
                rw [hnow, hlater, List.drop_zero, List.drop_zero, List.flatten_cons]
              · have hskip : wantStart - idx = wantStart - (idx + 1) + 1 := by omega
                rw [hskip, List.drop_succ_cons]
      · split at h
        · cases h
        · cases h
          refine ⟨[], 0, .nil rest, ?_, ?_⟩
          · simp only [List.length_nil]
            omega
          · simp

theorem serveTerm_ok {downloadRange : DownloadRange} {db : Database} {t : Term} {out : Bytes}
    (h : serveTerm d downloadRange db t = .ok out) :
    ∃ r siaId body, db.xorbs.find t.xorbHash = some r ∧ r.pinState = .pinned ∧
      r.siaObjectId = some siaId ∧ downloadRange siaId 0 (u64 r.sizeBytes) = .ok body ∧
      emitChunks d (u64 t.xorbStart).toNat (u64 t.xorbEnd).toNat (body.length + 1) 0 body =
        .ok out := by
  unfold serveTerm at h
  split at h
  · cases h
  · rename_i r hr
    split at h
    · rename_i hpinned
      split at h
      · cases h
      · rename_i siaId hid
        split at h
        · cases h
        · rename_i body hbody
          exact ⟨r, siaId, body, hr, hpinned, hid, hbody, h⟩
    · cases h

/-- The loop succeeds when every term does, and its output is theirs, one after the other. -/
theorem serveTerms_ok {downloadRange : DownloadRange} {db : Database} {ts : List Term}
    {out : Bytes} (h : serveTerms d downloadRange db ts = .ok out) :
    ∃ part : Term → Bytes, (∀ t ∈ ts, serveTerm d downloadRange db t = .ok (part t)) ∧
      out = (ts.map part).flatten := by
  refine ⟨fun t => (serveTerm d downloadRange db t).toOption.getD [], ?_⟩
  induction ts generalizing out with
  | nil =>
      cases h
      exact ⟨by simp, rfl⟩
  | cons t ts ih =>
      rcases except_bind_eq_ok.1 h with ⟨part, hpart, h⟩
      rcases except_bind_eq_ok.1 h with ⟨rest, hrest, h⟩
      cases h
      obtain ⟨hall, rfl⟩ := ih hrest
      have hown : (serveTerm d downloadRange db t).toOption.getD [] = part := by
        rw [hpart]
        rfl
      refine ⟨?_, ?_⟩
      · intro t' ht'
        rcases List.mem_cons.1 ht' with rfl | ht'
        · exact hpart.trans (congrArg Except.ok hown.symm)
        · exact hall t' ht'
      · rw [List.map_cons, List.flatten_cons, hown]

theorem xetFileServe_ok {downloadRange : DownloadRange} {db : Database} {fileId : Hash}
    {out : Bytes} (h : xetFileServe d downloadRange db fileId = .ok out) :
    (∃ f, db.reconstructionFiles.find fileId = some f) ∧ db.storedTerms fileId ≠ [] ∧
      serveTerms d downloadRange db ((db.storedTerms fileId).map Prod.snd) = .ok out := by
  unfold xetFileServe at h
  split at h
  · cases h
  · rename_i f hf
    split at h
    · cases h
    · rename_i t ts hterms
      rcases except_bind_eq_ok.1 h with ⟨out', hout, h⟩
      dsimp only at h
      split at h
      · cases h
      · cases h
        refine ⟨⟨f, hf⟩, ?_, hterms ▸ hout⟩
        intro hnil
        rw [hnil] at hterms
        cases hterms

/-- The last check of the handler. -/
theorem length_of_xetFileServe_ok {downloadRange : DownloadRange} {db : Database} {fileId : Hash}
    {f : FileRow} {out : Bytes} (hf : db.reconstructionFiles.find fileId = some f)
    (h : xetFileServe d downloadRange db fileId = .ok out) : (out.length : Int) = f.totalSize := by
  simp only [xetFileServe, hf] at h
  split at h
  · cases h
  · rcases except_bind_eq_ok.1 h with ⟨out', hout, h⟩
    split at h
    · cases h
    · rename_i hlength
      cases h
      exact not_not.1 hlength

end Serve

end Core
end OpenWeights
