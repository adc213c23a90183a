import OpenWeights.Core.XetFiles
import OpenWeights.Gateway.Ranges
import OpenWeights.Service.ByteRanges
import OpenWeights.Service.Identity

/-!
# Download — two ways to the bytes of a file

`xet_file_serve` walks whole xorbs and counts chunks; a client of `build_response` fetches byte
ranges that were computed when the shard was uploaded, merged, and cut out of the object by the
gateway.  The two meet in the chunk boundaries: those `walk_chunk_boundaries` recovered are where the
decoder stops after each chunk, so a range that starts and ends at boundaries holds whole chunks, and
the chunk range of its fetch entry says which.

`clientDownload` is the client, written from what the responses mean; everything it is given comes
from the modelled code.
-/

namespace OpenWeights
namespace Service

open Lib Db OpenWeights.Core Gateway Db.Database

/-! ## Offsets of chunks -/

/-- Where chunk `i` starts when chunk `0` starts at `offset` and the chunks end at the boundaries.
Beyond the boundaries the chunks are counted on with one byte each. -/
def chunkOffset : Nat → List Int → Nat → Nat
  | offset, _, 0 => offset
  | offset, [], i + 1 => offset + (i + 1)
  | _, b :: bs, i + 1 => chunkOffset b.toNat bs i

theorem chunkOffset_zero (offset : Nat) (bounds : List Int) : chunkOffset offset bounds 0 = offset := by
  cases bounds <;> rfl

theorem chunkOffset_nil (offset i : Nat) : chunkOffset offset [] i = offset + i := by
  cases i <;> rfl

theorem chunkOffset_succ {offset : Nat} {bounds : List Int} {i : Nat} (hi : i < bounds.length) :
    chunkOffset offset bounds (i + 1) = (bounds.getD i 0).toNat := by
  induction bounds generalizing offset i with
  | nil => cases hi
  | cons b bs ih =>
      cases i with
      | zero => exact chunkOffset_zero b.toNat bs
      | succ i => exact ih (Nat.lt_of_succ_lt_succ hi)

section Tiling

variable {x : Crates} {bytes : Bytes} {offset : Nat} {bounds : List Int}

theorem strictMono_chunkOffset (h : ChunkTiling x bytes offset bounds) :
    StrictMono (chunkOffset offset bounds) := by
  refine strictMono_nat_of_lt_succ ?_
  induction h with
  | nil =>
      intro i
      rw [chunkOffset_nil, chunkOffset_nil]
      exact Nat.lt_succ_self _
  | @chunk offset len bounds _ _ _ ih =>
      intro i
      cases i with
      | zero =>
          have hlt : offset < offset + (xorbChunkHeaderLength + len) := by
            simp only [xorbChunkHeaderLength]
            omega
          rw [chunkOffset_zero, chunkOffset, chunkOffset_zero, Int.toNat_natCast]
          exact hlt
      | succ i => exact ih i

/-- The decoder stops at the boundaries: after `n` chunks it is where chunk `n` starts. -/
theorem chunkOffset_of_records (d : ChunkDecoder x) (h : ChunkTiling x bytes offset bounds)
    {chunks : List Bytes} {k : Nat} (hrec : Records d.records (bytes.drop offset) chunks k) :
    chunks.length ≤ bounds.length ∧ offset + k = chunkOffset offset bounds chunks.length := by
  induction h generalizing chunks k with
  | nil =>
      cases hrec with
      | nil => exact ⟨Nat.zero_le _, rfl⟩
      | cons hd _ =>
          -- Nothing is left to decode at the end of the body.
          have hpos := d.records.pos hd
          have hle := d.records.le hd
          rw [List.length_drop] at hle
          omega
  | @chunk offset len bounds hheader _ _ ih =>
      cases hrec with
      | nil => exact ⟨Nat.zero_le _, (chunkOffset_zero _ _).symm⟩
      | @cons _ out n chunks k hd hrest =>
          obtain ⟨len', hheader', rfl, -⟩ := d.consumes (toOption_eq_some_iff.1 hd)
          rw [hheader] at hheader'
          cases hheader'
          rw [List.drop_drop] at hrest
          obtain ⟨hle, hEq⟩ := ih hrest
          refine ⟨Nat.succ_le_succ hle, ?_⟩
          rw [List.length_cons, chunkOffset, Int.toNat_natCast, ← hEq]
          omega

/-- An entry of the boundary list is where the next chunk starts. -/
theorem getD_eq_chunkOffset (h : ChunkTiling x bytes offset bounds) {i : Nat}
    (hi : i < bounds.length) : bounds.getD i 0 = chunkOffset offset bounds (i + 1) := by
  have hnonneg : 0 ≤ bounds.getD i 0 := by
    rw [List.getD_eq_getElem?_getD, List.getElem?_eq_getElem hi]
    exact h.nonneg _ (List.getElem_mem hi)
  rw [chunkOffset_succ hi, Int.toNat_of_nonneg hnonneg]

/-- The physical range of a term is the bytes of its chunks, the first chunk included. -/
theorem physicalRange_eq {t : Term} {s e : UInt32} (hlt : s < e) (hs : t.xorbStart = s.toNat)
    (he : t.xorbEnd = e.toNat) (h : ChunkTiling x bytes 0 bounds)
    (hle : e.toNat ≤ bounds.length) :
    physicalRange t bounds =
      some ((chunkOffset 0 bounds s.toNat : Int), (chunkOffset 0 bounds e.toNat : Int)) := by
  have hlt := UInt32.lt_iff_toNat_lt.1 hlt
  have hvalid : ¬(t.xorbStart < 0 ∨ t.xorbEnd ≤ t.xorbStart ∨ t.xorbEnd.toNat > bounds.length) := by
    omega
  have hstart : (if t.xorbStart = 0 then (0 : Int) else bounds.getD (t.xorbStart - 1).toNat 0) =
      chunkOffset 0 bounds s.toNat := by
    split
    · rename_i hzero
      have hzero : s.toNat = 0 := by omega
      rw [hzero, chunkOffset_zero]
      rfl
    · have hpred : (t.xorbStart - 1).toNat + 1 = s.toNat := by omega
      rw [getD_eq_chunkOffset h (by omega), hpred]
  have hend : bounds.getD (t.xorbEnd - 1).toNat 0 = chunkOffset 0 bounds e.toNat := by
    have hpred : (t.xorbEnd - 1).toNat + 1 = e.toNat := by omega
    rw [getD_eq_chunkOffset h (by omega), hpred]
  have hmono : (chunkOffset 0 bounds s.toNat : Int) < chunkOffset 0 bounds e.toNat :=
    Int.ofNat_lt.2 (strictMono_chunkOffset h hlt)
  rw [physicalRange, if_neg hvalid]
  simp only [hstart, hend, if_pos hmono]

end Tiling

/-- Where the chunks of a body start, as far as the walk finds them. -/
def walkOffset (x : Crates) (body : Bytes) : Nat → Nat :=
  chunkOffset 0 (walkChunkBoundaries x body)

theorem strictMono_walkOffset (x : Crates) (body : Bytes) : StrictMono (walkOffset x body) := by
  rcases walkChunkBoundaries_eq_iff.1 (rfl : walkChunkBoundaries x body = _) with
    htiling | ⟨hnil, -⟩
  · exact strictMono_chunkOffset htiling
  · intro i j hij
    rw [walkOffset, hnil, chunkOffset_nil, chunkOffset_nil]
    exact Nat.add_lt_add_left hij 0

/-! ## The client -/

section Client

variable {x : Crates} (d : ChunkDecoder x)

def containsRange (t : ReconstructionTerm) (entry : FetchInfoEntry) : Bool :=
  entry.range.start ≤ t.range.start && t.range.endExclusive ≤ entry.range.endExclusive

/-- One term of the client: take the entry that contains it, fetch its bytes, decode all chunks in
them, and keep those of the term. -/
def clientTerm (fetch : Bytes → UrlRange → Option Bytes)
    (fetchInfo : Table Bytes (List FetchInfoEntry)) (t : ReconstructionTerm) : Option Bytes := do
  let entries ← fetchInfo.find t.hash
  let entry ← entries.find? (containsRange t)
  let bytes ← fetch t.hash entry.urlRange
  let chunks ← d.records.decodeAll bytes.length bytes
  let first := t.range.start.toNat - entry.range.start.toNat
  let last := t.range.endExclusive.toNat - entry.range.start.toNat
  if last ≤ chunks.length then some ((chunks.take last).drop first).flatten else none

/-- The client: the terms in order. -/
def clientDownload (fetch : Bytes → UrlRange → Option Bytes)
    (response : QueryReconstructionResponse) : Option Bytes :=
  (response.terms.mapM (clientTerm d fetch response.fetchInfo)).map List.flatten

/-- What the gateway sends of the stored body of a xorb. -/
def gatewayBytes (db : Database) (hash : Bytes) (r : UrlRange) : Option Bytes :=
  (db.xorbBodies.rows.find? fun row => digestToHex row.1 = hash).map fun row =>
    (writeSingleRange .new { start := r.start, stop := r.endInclusive }
      (Int64.ofNat row.2.length) row.2).body

theorem gatewayBytes_eq {db : Database} {h : Hash} {body : Bytes} {r : UrlRange}
    (hbody : db.xorbBodies.find h = some body) (hle : r.start ≤ r.endInclusive)
    (hend : r.endInclusive.toNat + 1 < 2 ^ 63) :
    gatewayBytes db (digestToHex h) r =
      some ((body.drop r.start.toNat).take (r.endInclusive.toNat + 1 - r.start.toNat)) := by
  have hfind : db.xorbBodies.rows.find? (fun row => digestToHex row.1 = digestToHex h) =
      some (h, body) :=
    Table.find?_rows digestToHex_injective hbody
  rw [gatewayBytes, hfind, Option.map_some, body_writeSingleRange]
  · rfl
  · exact hle
  · exact hend

variable {d}

/-- The chunks of the term, as a walk over the body finds them. -/
def WalkServes (d : ChunkDecoder x) (body : Bytes) (t : Term) (part : Bytes) : Prop :=
  ∃ chunks k, Records d.records body chunks k ∧ (chunks.length : Int) = t.xorbEnd ∧
    part = (chunks.drop t.xorbStart.toNat).flatten

/-- A longer reading of the same body starts with the shorter one. -/
theorem eq_take_of_records {body : Bytes} {chunks longer : List Bytes} {k k' : Nat}
    (h : Records d.records body chunks k) (h' : Records d.records body longer k')
    (hle : chunks.length ≤ longer.length) : chunks = longer.take chunks.length := by
  rw [← List.take_append_drop chunks.length longer] at h'
  obtain ⟨k₁, k₂, -, hfirst, -⟩ := h'.split
  refine (h.unique hfirst ?_).1
  rw [List.length_take, Nat.min_eq_left hle]

section Body

variable {body : Bytes} (htiling : ChunkTiling x body 0 (walkChunkBoundaries x body))

include htiling

theorem walkOffset_of_records {chunks : List Bytes} {k : Nat}
    (h : Records d.records body chunks k) :
    chunks.length ≤ (walkChunkBoundaries x body).length ∧
      k = walkOffset x body chunks.length := by
  obtain ⟨hle, hEq⟩ := chunkOffset_of_records d htiling h
  exact ⟨hle, (Nat.zero_add k).symm.trans hEq⟩

/-- The chunks from number `a` on are what the decoder finds in the bytes from the start of chunk `a`
to the end of the last chunk. -/
theorem decodeAll_range {chunks : List Bytes} {k a : Nat} (h : Records d.records body chunks k)
    (ha : a ≤ chunks.length) :
    let bytes := (body.drop (walkOffset x body a)).take
      (walkOffset x body chunks.length - walkOffset x body a)
    d.records.decodeAll bytes.length bytes = some (chunks.drop a) := by
  intro bytes
  have hlen : (chunks.take a).length = a := by
    rw [List.length_take, Nat.min_eq_left ha]
  obtain ⟨-, hk⟩ := walkOffset_of_records htiling h
  rw [← List.take_append_drop a chunks] at h
  obtain ⟨k₁, -, -, hfirst, -⟩ := h.split
  obtain ⟨-, hk₁⟩ := walkOffset_of_records htiling hfirst
  have hcut := h.cut hfirst
  rw [hk, hk₁, hlen] at hcut
  exact hcut.decodeAll_eq le_rfl

end Body

section Term

variable {db : Database} {row : ReconstructionRow} {order : UnstableSort} {hmac : Hmac}
  {signer : UrlSigner} {kid : Uuid} {nowUnix : UInt64}

theorem containsRange_eq {bounds : Hash → Nat → Nat} (halign : ChunkAligned bounds row.terms)
    {t : Term} (ht : t ∈ row.terms) :
    containsRange (reconstructionTerm t) = FetchInfoEntry.coversChunks t := by
  have hwords := halign.termOn (mem_termsOn.2 ⟨ht, rfl⟩)
  funext entry
  rw [Bool.eq_iff_iff, containsRange, FetchInfoEntry.coversChunks, Bool.and_eq_true,
    decide_eq_true_iff, decide_eq_true_iff, decide_eq_true_iff, hwords.xorbStart, hwords.xorbEnd,
    Int.ofNat_le, Int.ofNat_le, UInt32.le_iff_toNat_le, UInt32.le_iff_toNat_le]
  rfl

/-- The entry the client takes for a term: it describes the same chunks by its chunks and by its
bytes, contains the term, and ends where a term of the xorb ends. -/
theorem exists_entry {bounds : Hash → Nat → Nat} (halign : ChunkAligned bounds row.terms)
    (order : UnstableSort) (hmac : Hmac) (signer : UrlSigner) (kid : Uuid) (nowUnix : UInt64)
    {t : Term} (ht : t ∈ row.terms) :
    ∃ entries entry,
      (buildResponse order hmac row signer kid nowUnix).fetchInfo.find (digestToHex t.xorbHash) =
          some entries ∧
        entries.find? (containsRange (reconstructionTerm t)) = some entry ∧
        entry.Describes (bounds t.xorbHash) ∧ entry.coversChunks t = true ∧
        ∃ t' ∈ termsOn row.terms t.xorbHash, t'.xorbEnd = entry.range.endExclusive.toNat := by
  have hmem : t ∈ termsOn row.terms t.xorbHash := mem_termsOn.2 ⟨ht, rfl⟩
  have hkey : t.xorbHash ∈ xorbKeys row.terms := mem_xorbKeys.2 ⟨t, ht, rfl⟩
  let entryOf := fetchEntry hmac row signer kid nowUnix t.xorbHash
  have hcovers : ∃ br ∈ rangesOn order row t.xorbHash, Within (byteSpan t) br.span ∧
      ((rangesOn order row t.xorbHash).map entryOf).filter (FetchInfoEntry.coversBytes t) =
          [entryOf br] ∧
        ((rangesOn order row t.xorbHash).map entryOf).filter (FetchInfoEntry.coversChunks t) =
          [entryOf br] := halign.filter_covers order hmem
  obtain ⟨br, hbr, hwithin, -, hfilter⟩ := hcovers
  have hcovered : (entryOf br).coversChunks t = true :=
    (List.mem_filter.1 (hfilter ▸ List.mem_singleton_self _)).2
  refine ⟨_, entryOf br, find_fetchInfo.2 ⟨hkey, rfl⟩, ?_, halign.describes hbr, hcovered, ?_⟩
  · rw [containsRange_eq halign ht, ← List.head?_filter, hfilter, List.head?_cons]
  · -- The largest chunk end of the terms inside is attained.
    have hinside : ∃ ts ∈ (termsOn row.terms t.xorbHash).map termSpan, ts.inside br :=
      ⟨termSpan t, List.mem_map_of_mem hmem, inside_iff.2 hwithin⟩
    obtain ⟨⟨ts, hts, -, hend⟩, -⟩ := chunkUnion_end hinside
    obtain ⟨t', ht', rfl⟩ := List.mem_map.1 hts
    refine ⟨t', ht', ?_⟩
    rw [(halign.termOn ht').xorbEnd, hend]
    rfl

/-- One term: what the walk emits for it is what the client keeps, if the walk serves all terms of
the xorb. -/
theorem clientTerm_eq {bounds : Hash → Nat → Nat} (halign : ChunkAligned bounds row.terms)
    {t : Term} (ht : t ∈ row.terms) {body : Bytes}
    (hbody : db.xorbBodies.find t.xorbHash = some body)
    (htiling : ChunkTiling x body 0 (walkChunkBoundaries x body))
    (hbounds : bounds t.xorbHash = walkOffset x body) (hsize : body.length < 2 ^ 62)
    (hserved : ∀ t' ∈ termsOn row.terms t.xorbHash, ∃ part, WalkServes d body t' part)
    {part : Bytes} (hpart : WalkServes d body t part) :
    clientTerm d (gatewayBytes db)
      (buildResponse order hmac row signer kid nowUnix).fetchInfo (reconstructionTerm t) =
        some part := by
  have hwords := halign.termOn (mem_termsOn.2 ⟨ht, rfl⟩)
  obtain ⟨entries, entry, hfind, hentry, ⟨hfirst, hlast⟩, hcovers, t', ht', hend⟩ :=
    exists_entry halign order hmac signer kid nowUnix ht
  rw [hbounds] at hfirst hlast
  -- The walk for the last term of the entry has read all chunks of the entry.
  obtain ⟨_, chunks, k, hrecords, hlen, -⟩ := hserved t' ht'
  have hlen : chunks.length = entry.range.endExclusive.toNat := by
    rw [hend] at hlen
    exact Int.ofNat_inj.1 hlen
  obtain ⟨own, k', hown, hownLen, rfl⟩ := hpart
  rw [FetchInfoEntry.coversChunks, decide_eq_true_iff, hwords.xorbStart, hwords.xorbEnd,
    Int.ofNat_le, Int.ofNat_le] at hcovers
  rw [hwords.xorbEnd, Int.ofNat_inj] at hownLen
  have hchunk := UInt32.lt_iff_toNat_lt.1 hwords.chunk_lt
  have htake := eq_take_of_records hown hrecords (by omega)
  -- The bytes of the entry are those of its chunks.
  have hwhole : walkOffset x body chunks.length ≤ body.length := by
    rw [← (walkOffset_of_records htiling hrecords).2]
    exact hrecords.le_length
  have hmono := strictMono_walkOffset x body
  have hrange : walkOffset x body entry.range.start.toNat < walkOffset x body chunks.length :=
    hmono (by omega)
  have hbytes : gatewayBytes db (digestToHex t.xorbHash) entry.urlRange =
      some ((body.drop (walkOffset x body entry.range.start.toNat)).take
        (walkOffset x body chunks.length - walkOffset x body entry.range.start.toNat)) := by
    rw [hlen] at hrange hwhole ⊢
    rw [gatewayBytes_eq hbody (UInt64.le_iff_toNat_le.2 (by omega)) (by omega), hfirst, hlast]
  have hdecode := decodeAll_range htiling hrecords
    (show entry.range.start.toNat ≤ chunks.length by omega)
  have hkept : ((chunks.drop entry.range.start.toNat).take
      ((termSpan t).chunkEnd.toNat - entry.range.start.toNat)).drop
        ((termSpan t).chunkStart.toNat - entry.range.start.toNat) =
      own.drop (termSpan t).chunkStart.toNat := by
    rw [← List.drop_take, List.drop_drop, htake, hownLen]
    congr 1
    omega
  have henough : (termSpan t).chunkEnd.toNat - entry.range.start.toNat ≤
      (chunks.drop entry.range.start.toNat).length := by
    rw [List.length_drop]
    omega
  have hstart : t.xorbStart.toNat = (termSpan t).chunkStart.toNat := by
    rw [hwords.xorbStart, Int.toNat_natCast]
  have hrangeStart : (reconstructionTerm t).range.start = (termSpan t).chunkStart := rfl
  have hrangeEnd : (reconstructionTerm t).range.endExclusive = (termSpan t).chunkEnd := rfl
  have hhash : (reconstructionTerm t).hash = digestToHex t.xorbHash := rfl
  simp only [clientTerm, hhash, hfind, hentry, hbytes, hdecode, hrangeStart, hrangeEnd,
    Option.bind_eq_bind, Option.bind_some, if_pos henough, hkept, hstart]

end Term

end Client

namespace State

variable {x : Crates} {c : State} {allow : State → Step → Prop} {d : ChunkDecoder x}
  {sia : DownloadRange} {fileId : Hash}

/-- Sia returns what was uploaded: a read of a whole object that succeeds has its bytes. -/
def ReadsBack (c : State) (sia : DownloadRange) : Prop :=
  ∀ h body id bytes, Uploaded c.toWorld h body id → sia id 0 (u64 body.length) = .ok bytes →
    bytes = body

/-- All xorbs of the file are pinned, and have the boundaries the walk finds in their bodies. -/
def Walked (x : Crates) (db : Database) (fileId : Hash) : Prop :=
  ∀ t ∈ (db.storedTerms fileId).map Prod.snd, db.xorbPinned t.xorbHash = true ∧
    ∃ r body, db.xorbs.find t.xorbHash = some r ∧ db.xorbBodies.find t.xorbHash = some body ∧
      r.chunkBoundaries = some (walkChunkBoundaries x body)

theorem find_of_mem_storedTerms {db : Database} {t : Term}
    (ht : t ∈ (db.storedTerms fileId).map Prod.snd) :
    ∃ key, db.reconstructionTerms.find key = some t := by
  obtain ⟨⟨idx, t'⟩, hmem, rfl⟩ := List.mem_map.1 ht
  obtain ⟨⟨key, t''⟩, hrow, hEq⟩ :=
    List.mem_map.1 ((storedTerms_perm db fileId).mem_iff.1 hmem)
  cases hEq
  exact ⟨key, Table.find_eq_some_iff.2 (List.mem_filter.1 hrow).1⟩

/-- Recorded boundaries are never empty, so they come from a tiling. -/
theorem RowAdmitted.tiling {h : Hash} {r : XorbRow} {body : Bytes} (hr : RowAdmitted x h r)
    (hbounds : r.chunkBoundaries = some (walkChunkBoundaries x body)) :
    ChunkTiling x body 0 (walkChunkBoundaries x body) := by
  obtain ⟨hne, -⟩ := hr.boundaries hbounds
  rcases walkChunkBoundaries_eq_iff.1 (rfl : walkChunkBoundaries x body = _) with
    htiling | ⟨hnil, -⟩
  · exact htiling
  · exact absurd hnil hne

/-- The row, the stored body and the object on Sia belong together. -/
theorem Reachable.body_of_read (h : Reachable x allow c) (hreads : ReadsBack c sia) {hash : Hash}
    {r : XorbRow} {body bytes siaId : Bytes} (hr : c.store.xorbs.find hash = some r)
    (hbody : c.store.xorbBodies.find hash = some body) (hid : r.siaObjectId = some siaId)
    (hread : sia siaId 0 (u64 r.sizeBytes) = .ok bytes) :
    bytes = body ∧ body.length ≤ maxXorbBytes := by
  have hpin : c.store.pin .xorb hash = some r.toPinRow := by
    rw [Database.pin, hr, Option.map_some]
  have hnamed := h.named
  have hrow := hnamed.row hash r.toPinRow hpin
  -- The winner of the hash is unique: its body was measured, stored and uploaded.
  obtain ⟨measured, hwon, hsize⟩ := hrow.size
  obtain ⟨uploaded, hwon', huploaded⟩ := hrow.id siaId hid
  have hwonBody := hnamed.body hash body hbody
  have hmeasured := hnamed.won_unique hwon hwonBody
  have huploadedEq := hnamed.won_unique hwon' hwonBody
  subst hmeasured huploadedEq
  rw [hsize] at hread
  refine ⟨hreads hash _ siaId bytes huploaded hread, ?_⟩
  obtain ⟨admitted, -, hlen, -, hsize', -⟩ := h.rowAdmitted hr
  rw [← hsize, hsize']
  exact hlen

/-- What is known of a stored term of a walked file. -/
structure TermOnBody (x : Crates) (c : State) (t : Term) (r : XorbRow) (body : Bytes) : Prop where
  row : c.store.xorbs.find t.xorbHash = some r
  content : c.store.xorbBodies.find t.xorbHash = some body
  boundaries : r.chunkBoundaries = some (walkChunkBoundaries x body)
  stored : ∃ p xorbInfos, t = storedTerm r.chunkBoundaries p ∧ SegmentShape xorbInfos p

theorem Walked.termOnBody (h : Reachable x allow c) (hwalked : Walked x c.store fileId) {t : Term}
    (ht : t ∈ (c.store.storedTerms fileId).map Prod.snd) : ∃ r body, TermOnBody x c t r body := by
  obtain ⟨-, r, body, hr, hbody, hbounds⟩ := hwalked t ht
  obtain ⟨key, hfind⟩ := find_of_mem_storedTerms ht
  obtain ⟨shard, r', p, hr', hEq, hshape⟩ := h.derived hfind
  rw [hr] at hr'
  cases hr'
  exact ⟨r, body, hr, hbody, hbounds, p, _, hEq, hshape⟩

/-- What `xet_file_serve` emits for a term is a walk over the stored body. -/
theorem walkServes_of_serveTerm (h : Reachable x allow c) (hreads : ReadsBack c sia) {t : Term}
    {r : XorbRow} {body part : Bytes} (ht : TermOnBody x c t r body)
    (hserve : serveTerm d sia c.store t = .ok part) :
    WalkServes d body t part ∧ body.length ≤ maxXorbBytes := by
  obtain ⟨r', siaId, bytes, hr', -, hid, hread, hemit⟩ := serveTerm_ok hserve
  rw [ht.row] at hr'
  cases hr'
  obtain ⟨rfl, hsize⟩ := h.body_of_read hreads ht.row ht.content hid hread
  obtain ⟨p, xorbInfos, rfl, hshape⟩ := ht.stored
  obtain ⟨s, e, -, hs, he⟩ := hshape.indices
  rw [xorbStart_storedTerm, xorbEnd_storedTerm, hs, he] at hemit
  have hstart : (u64 (s.toNat : Int)).toNat = s.toNat := toNat_u64 (by have := s.toNat_lt; omega)
  have hend : (u64 (e.toNat : Int)).toNat = e.toNat := toNat_u64 (by have := e.toNat_lt; omega)
  rw [hstart, hend] at hemit
  obtain ⟨chunks, k, hrecords, hlen, rfl⟩ := emitChunks_ok (Nat.zero_le _) hemit
  refine ⟨⟨chunks, k, hrecords, ?_, ?_⟩, hsize⟩
  · rw [xorbEnd_storedTerm, he, ← hlen, Nat.zero_add]
  · rw [xorbStart_storedTerm, hs, Int.toNat_natCast, Nat.sub_zero]

/-- A term the walk can serve was corrected to the bytes of its chunks. -/
theorem termAt_of_walkServes (h : Reachable x allow c) {t : Term} {r : XorbRow} {body part : Bytes}
    (ht : TermOnBody x c t r body) (hsize : body.length ≤ maxXorbBytes)
    (hserves : WalkServes d body t part) : TermAt (walkOffset x body) t := by
  have htiling := (h.rowAdmitted ht.row).tiling ht.boundaries
  obtain ⟨p, xorbInfos, hEq, hshape⟩ := ht.stored
  obtain ⟨s, e, hlt, hs, he⟩ := hshape.indices
  obtain ⟨chunks, k, hrecords, hlen, -⟩ := hserves
  -- The walk got to the end of the term, so the boundaries reach that far.
  obtain ⟨hle, hk⟩ := walkOffset_of_records htiling hrecords
  have hcount : chunks.length = e.toNat := by
    rw [hEq, xorbEnd_storedTerm, he] at hlen
    exact Int.ofNat_inj.1 hlen
  rw [hcount] at hle hk
  have hphysical := physicalRange_eq hlt hs he htiling hle
  have hbound : walkOffset x body e.toNat ≤ body.length := hk ▸ hrecords.le_length
  have hstored : t = { p with
      xorbByteStart := (walkOffset x body s.toNat : Int)
      xorbByteEnd := (walkOffset x body e.toNat : Int) } := by
    rw [hEq, ht.boundaries, storedTerm, Option.bind_some, hphysical]
    rfl
  rw [hstored]
  refine ⟨s, e, hlt, hs, he, rfl, rfl, ?_⟩
  simp only [maxXorbBytes] at hsize
  omega

def bodyOffset (x : Crates) (db : Database) (h : Hash) : Nat → Nat :=
  walkOffset x ((db.xorbBodies.find h).getD [])

/-- The term is served by a walk over the stored body of its xorb. -/
def ServedFrom (d : ChunkDecoder x) (c : State) (t : Term) (part : Bytes) : Prop :=
  ∃ r body, TermOnBody x c t r body ∧ body.length ≤ maxXorbBytes ∧ WalkServes d body t part

theorem chunkAligned_of_served (h : Reachable x allow c) {terms : List Term}
    (hserved : ∀ t ∈ terms, ∃ part, ServedFrom d c t part) :
    ChunkAligned (bodyOffset x c.store) terms := by
  refine ⟨fun hash => strictMono_walkOffset x _, ?_, ?_⟩
  · intro hash
    exact chunkOffset_zero 0 (walkChunkBoundaries x ((c.store.xorbBodies.find hash).getD []))
  intro t ht
  obtain ⟨part, r, body, hterm, hsize, hserves⟩ := hserved t ht
  rw [bodyOffset, hterm.content, Option.getD_some]
  exact termAt_of_walkServes h hterm hsize hserves

/-- If the walk serves all terms of a row, the client gets the same bytes for each of them. -/
theorem clientTerm_of_served (h : Reachable x allow c) {row : ReconstructionRow}
    (hserved : ∀ t ∈ row.terms, ∃ part, ServedFrom d c t part) (order : UnstableSort) (hmac : Hmac)
    (signer : UrlSigner) (kid : Uuid) (nowUnix : UInt64) {t : Term} (ht : t ∈ row.terms)
    {part : Bytes} (hpart : ServedFrom d c t part) :
    clientTerm d (gatewayBytes c.store)
      (buildResponse order hmac row signer kid nowUnix).fetchInfo (reconstructionTerm t) =
        some part := by
  obtain ⟨r, body, hterm, hsize, hserves⟩ := hpart
  have hbounds : bodyOffset x c.store t.xorbHash = walkOffset x body := by
    rw [bodyOffset, hterm.content, Option.getD_some]
  have hsize : body.length < 2 ^ 62 := by
    simp only [maxXorbBytes] at hsize
    omega
  -- The other terms of the xorb are on the same body.
  have hothers : ∀ t' ∈ termsOn row.terms t.xorbHash, ∃ part, WalkServes d body t' part := by
    intro t' ht'
    obtain ⟨hmem, hxorb⟩ := mem_termsOn.1 ht'
    obtain ⟨part', r', body', hterm', -, hserves'⟩ := hserved t' hmem
    have hcontent := hterm'.content
    rw [hxorb, hterm.content] at hcontent
    cases hcontent
    exact ⟨part', hserves'⟩
  exact clientTerm_eq (chunkAligned_of_served h hserved) ht hterm.content
    ((h.rowAdmitted hterm.row).tiling hterm.boundaries) hbounds hsize hothers hserves

/-- Both download paths return the same file: whenever `xet_file_serve` succeeds, the client that
follows `build_response` succeeds and has the same bytes. -/
theorem clientDownload_eq (h : Reachable x allow c) (d : ChunkDecoder x) (hreads : ReadsBack c sia)
    (hwalked : Walked x c.store fileId) {out : Bytes}
    (hserve : xetFileServe d sia c.store fileId = .ok out) :
    ∃ row, c.store.getReconstruction fileId = some row ∧
      ∀ order hmac signer kid nowUnix, clientDownload d (gatewayBytes c.store)
        (buildResponse order hmac row signer kid nowUnix) = some out := by
  obtain ⟨⟨f, hf⟩, hne, hterms⟩ := xetFileServe_ok hserve
  obtain ⟨part, hparts, rfl⟩ := serveTerms_ok hterms
  -- All xorbs are pinned, so the reconstruction has all terms.
  have hpinned : pinnedTerms c.store fileId = c.store.storedTerms fileId :=
    List.filter_eq_self.2 fun t ht => (hwalked t.2 (List.mem_map_of_mem ht)).1
  have hrow := getReconstruction_eq hf
  rw [hpinned, if_neg hne] at hrow
  refine ⟨_, hrow, ?_⟩
  intro order hmac signer kid nowUnix
  have hserved : ∀ t ∈ (c.store.storedTerms fileId).map Prod.snd, ServedFrom d c t (part t) := by
    intro t ht
    obtain ⟨r, body, hterm⟩ := hwalked.termOnBody h ht
    obtain ⟨hserves, hsize⟩ := walkServes_of_serveTerm h hreads hterm (hparts t ht)
    exact ⟨r, body, hterm, hsize, hserves⟩
  have hclient : ((c.store.storedTerms fileId).map Prod.snd).mapM (fun t =>
      clientTerm d (gatewayBytes c.store) (buildResponse order hmac
        ⟨⟨fileId, f.totalSize⟩, (c.store.storedTerms fileId).map Prod.snd⟩ signer kid
          nowUnix).fetchInfo (reconstructionTerm t)) =
      some (((c.store.storedTerms fileId).map Prod.snd).map part) :=
    mapM_eq_some_map fun t ht => clientTerm_of_served h (fun t ht => ⟨part t, hserved t ht⟩) order
      hmac signer kid nowUnix ht (hserved t ht)
  have hresponse : (buildResponse order hmac
      ⟨⟨fileId, f.totalSize⟩, (c.store.storedTerms fileId).map Prod.snd⟩ signer kid nowUnix).terms =
      ((c.store.storedTerms fileId).map Prod.snd).map reconstructionTerm := rfl
  rw [clientDownload, hresponse, List.mapM_map]
  exact congrArg (Option.map List.flatten) hclient

/-! ### A file of two chunks -/

/-- Every upload to Sia was of the two chunks. -/
def uploadsTwoChunks (c : State) : Bool :=
  c.log.all fun e =>
    match e.call.op with
    | .uploadAndPin .xorb _ bytes => bytes = twoChunks
    | _ => true

def walkedCheck (x : Crates) (db : Database) (fileId : Hash) : Bool :=
  ((db.storedTerms fileId).map Prod.snd).all fun t =>
    db.xorbPinned t.xorbHash &&
      match db.xorbs.find t.xorbHash, db.xorbBodies.find t.xorbHash with
      | some r, some body => r.chunkBoundaries = some (walkChunkBoundaries x body)
      | _, _ => false

theorem walked_of_check {db : Database} (h : walkedCheck x db fileId = true) :
    Walked x db fileId := by
  intro t ht
  have hrow := List.all_eq_true.1 h t ht
  rw [Bool.and_eq_true] at hrow
  refine ⟨hrow.1, ?_⟩
  have hbody := hrow.2
  split at hbody
  · rename_i r body hr hcontent
    exact ⟨r, body, hr, hcontent, of_decide_eq_true hbody⟩
  · cases hbody

theorem readsBack_twoChunks (h : uploadsTwoChunks c = true) :
    ReadsBack c fun _ _ _ => .ok twoChunks := by
  rintro hash body id bytes ⟨e, he, hcall⟩ hread
  have hentry := List.all_eq_true.1 h e he
  rw [hcall] at hentry
  have hbody : body = twoChunks := of_decide_eq_true hentry
  cases hread
  exact hbody.symm

theorem clientDownload_eq_wholeFile :
    ∃ (c : State) (row : ReconstructionRow), Reachable (bareCrates shardSha256) anyStep c ∧
      c.store.getReconstruction sampleFile = some row ∧
      clientDownload (copyDecoder (bareCrates shardSha256)) (gatewayBytes c.store)
        (buildResponse sortByStart rangeHmac row vectorSigner vectorKid 1999992800) =
          some [1, 2, 3, 4, 5, 6] := by
  have heval : (initial.runAll (bareCrates shardSha256) wholeFile).map
      (fun c => uploadsTwoChunks c && walkedCheck (bareCrates shardSha256) c.store sampleFile &&
        decide (xetFileServe (copyDecoder (bareCrates shardSha256)) (fun _ _ _ => .ok twoChunks)
          c.store sampleFile = .ok [1, 2, 3, 4, 5, 6])) = some true := by
    decide +kernel
  obtain ⟨tr, c, hrun, hcheck⟩ := exists_run heval
  simp only [Bool.and_eq_true, decide_eq_true_eq] at hcheck
  obtain ⟨⟨huploads, hwalked⟩, hserve⟩ := hcheck
  have hreach : Reachable (bareCrates shardSha256) anyStep c := ⟨tr, hrun, fun _ _ => trivial⟩
  obtain ⟨row, hrow, hclient⟩ := clientDownload_eq hreach (copyDecoder (bareCrates shardSha256))
    (readsBack_twoChunks huploads) (walked_of_check hwalked) hserve
  exact ⟨c, row, hreach, hrow, hclient sortByStart rangeHmac vectorSigner vectorKid 1999992800⟩

end State

end Service
end OpenWeights
