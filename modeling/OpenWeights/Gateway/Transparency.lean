import OpenWeights.Gateway.Bounds
import OpenWeights.Gateway.Insertion
import OpenWeights.Gateway.Direct

/-!
# Transparency — a request cannot tell whether there is a cache

With a backend that has the objects of the rows, and local files that work, both forms of
`ServeXorb` send the response `answer`, which names no file at all; only `X-Cache` and
`X-Sia-Fetch-Ms` tell them apart.  What carries the form with the cache over a history of requests
is `Stocked`: every listed file is the object of its hash (`cache_transparent`).
-/

namespace OpenWeights
namespace Gateway

open Lib Db OpenWeights.Core

/-! ## Responses -/

/-- The two headers that tell where the bytes came from. -/
def sourceHeaders : List Bytes := [lit "X-Cache", lit "X-Sia-Fetch-Ms"]

/-- The same status, the same body, and the same headers but for those two. -/
structure SameResponse (w w' : ResponseWriter) : Prop where
  statusLines_eq : w.statusLines = w'.statusLines
  body_eq : w.body = w'.body
  getHeader_eq : ∀ key, key ∉ sourceHeaders → w.getHeader key = w'.getHeader key

namespace SameResponse

variable {w w' w'' : ResponseWriter}

theorem refl (w : ResponseWriter) : SameResponse w w :=
  ⟨rfl, rfl, fun _ _ => rfl⟩

theorem symm (h : SameResponse w w') : SameResponse w' w :=
  ⟨h.statusLines_eq.symm, h.body_eq.symm, fun key hkey => (h.getHeader_eq key hkey).symm⟩

theorem trans (h : SameResponse w w') (h' : SameResponse w' w'') : SameResponse w w'' :=
  ⟨h.statusLines_eq.trans h'.statusLines_eq, h.body_eq.trans h'.body_eq,
    fun key hkey => (h.getHeader_eq key hkey).trans (h'.getHeader_eq key hkey)⟩

/-- The same header on both sides. -/
theorem setHeader (h : SameResponse w w') (key value : Bytes) :
    SameResponse (w.setHeader key value) (w'.setHeader key value) where
  statusLines_eq := h.statusLines_eq
  body_eq := h.body_eq
  getHeader_eq := by
    intro key' hkey'
    by_cases hEq : key = key'
    · subst hEq
      simp
    · rw [w.getHeader_setHeader_of_ne hEq, w'.getHeader_setHeader_of_ne hEq]
      exact h.getHeader_eq key' hkey'

/-- One of the two headers, with a value of its own on each side. -/
theorem setSourceHeader (h : SameResponse w w') {key : Bytes} (hkey : key ∈ sourceHeaders)
    (value value' : Bytes) : SameResponse (w.setHeader key value) (w'.setHeader key value') where
  statusLines_eq := h.statusLines_eq
  body_eq := h.body_eq
  getHeader_eq := by
    intro key' hkey'
    have hne : key ≠ key' := by
      rintro rfl
      exact hkey' hkey
    rw [w.getHeader_setHeader_of_ne hne, w'.getHeader_setHeader_of_ne hne]
    exact h.getHeader_eq key' hkey'

theorem writeHeader (h : SameResponse w w') (status : Nat) :
    SameResponse (w.writeHeader status) (w'.writeHeader status) :=
  ⟨congrArg (· ++ [status]) h.statusLines_eq, h.body_eq, h.getHeader_eq⟩

theorem write (h : SameResponse w w') (bytes : Bytes) :
    SameResponse (w.write bytes) (w'.write bytes) :=
  ⟨h.statusLines_eq, congrArg (· ++ bytes) h.body_eq, h.getHeader_eq⟩

/-- What the writers add depends on the bytes, and on nothing else of the source. -/
theorem respond {src src' : XorbSource} (hbytes : src.bytes = src'.bytes) (size : Int64)
    (ranges : List Range) :
    SameResponse (respond .new src size ranges) (respond .new src' size ranges) := by
  have hsource : SameResponse
      ((ResponseWriter.new.setHeader (lit "X-Cache")
        (if src.cacheHit then lit "HIT" else lit "MISS")).setHeader (lit "X-Sia-Fetch-Ms")
          (formatInt src.siaFetchMs.toInt))
      ((ResponseWriter.new.setHeader (lit "X-Cache")
        (if src'.cacheHit then lit "HIT" else lit "MISS")).setHeader (lit "X-Sia-Fetch-Ms")
          (formatInt src'.siaFetchMs.toInt)) := by
    apply setSourceHeader
    · exact (refl .new).setSourceHeader (by decide) _ _
    · decide
  unfold Gateway.respond
  simp only [hbytes]
  cases BodyWriter.pick ranges with
  | full =>
      exact ((((hsource.setHeader _ _).setHeader _ _).setHeader _ _).writeHeader _).write _
  | single r =>
      exact (((((hsource.setHeader _ _).setHeader _ _).setHeader _ _).setHeader _ _).writeHeader
        _).write _
  | multipart ranges =>
      exact ((((hsource.setHeader _ _).setHeader _ _).setHeader _ _).writeHeader _).write _

end SameResponse

namespace Serving

/-! ## The backend -/

/-- The objects of Sia, and the xorb each hash stands for. -/
structure Backend where
  object : Hash → Bytes
  xorb : Bytes → Bytes

/-- A row whose object is the xorb of the hash, of the recorded size, and fits into the cache. -/
structure Stored (h : Handlers) (b : Backend) (maxBytes : Int) (hash : Bytes) (siaId : Hash)
    (size : Int64) : Prop where
  size_eq : size = h.sizes hash
  object_eq : b.object siaId = b.xorb hash
  complete : h.Complete hash (b.xorb hash)
  room : Cache.HasRoom maxBytes size.toInt

theorem Stored.length_eq {h : Handlers} {b : Backend} {maxBytes : Int} {hash : Bytes} {siaId : Hash}
    {size : Int64} (hstored : Stored h b maxBytes hash siaId size) :
    size.toInt = (b.xorb hash).length := by
  rw [hstored.size_eq]
  exact hstored.complete.length_eq.symm

/-- All rows of the database are of that kind. -/
def Answers (h : Handlers) (b : Backend) (maxBytes : Int) (lookup : XorbLookup) : Prop :=
  ∀ hash siaId size, lookup hash = .ok (siaId, size) → Stored h b maxBytes hash siaId size

/-- The database answers from its rows, a download brings the whole object, and no file operation
fails; the outcome of a removal is discarded everywhere. -/
def Sound (b : Backend) (lookup : XorbLookup) : Call Op Res → Prop
  | ⟨.lookupXorb hash, row⟩ => row = lookup hash
  | ⟨.openFile _, r⟩ => ∃ fd, r = .ok fd
  | ⟨.disk o, r⟩ => Faultless ⟨o, r⟩
  | ⟨.download siaId, d⟩ => d.err = none ∧ d.blocks.flatten = b.object siaId
  | _ => True

/-- The response both forms send, but for the headers of the source. -/
def answer (h : Handlers) (b : Backend) (lookup : XorbLookup) (r : XorbRequest) (now : UInt64) :
    ResponseWriter :=
  match admission h.uuid h.hmac h.verifier lookup .new r now with
  | .error w => w
  | .ok a => respond .new ⟨b.xorb r.hash, false, 0⟩ a.size a.ranges

/-! ## What the cache has -/

/-- Every listed file is the whole xorb of its hash. -/
structure Stocked (h : Handlers) (b : Backend) (maxBytes : Int) (d : Store) : Prop where
  shelved : Shelved h maxBytes d.cache
  unlinked : d.fs.Unlinked
  content_eq : ∀ e ∈ d.cache.lru, d.fs.content e.value.path = some (b.xorb e.value.hash)

namespace Stocked

variable {h : Handlers} {b : Backend} {maxBytes : Int} {d d' : Store} {hash : Bytes}

theorem new (found : FoundDisk) : Stocked h b maxBytes ⟨.new maxBytes, found.fs⟩ where
  shelved := ⟨.new maxBytes, rfl, nofun, nofun⟩
  unlinked := found.unlinked
  content_eq := nofun

/-- `Open` moves an entry to the front. -/
theorem lookup (hs : Stocked h b maxBytes d) (hash : Bytes) :
    Stocked h b maxBytes { d with cache := (d.cache.lookup hash).1 } where
  shelved := ⟨hs.shelved.booked.lookup hash,
    (Cache.lookup_maxBytes _ _).trans hs.shelved.maxBytes_eq, hs.shelved.lists.lookup hash⟩
  unlinked := hs.unlinked
  content_eq := fun e he => hs.content_eq e (Cache.mem_of_mem_lookup he)

/-- Opening and closing files changes no name and no inode. -/
theorem of_frame (hs : Stocked h b maxBytes d) {fs : FileSystem Path} {fds : Set Nat}
    (hframe : FileSystem.Frame d.fs fs ∅ ∅ fds) : Stocked h b maxBytes { d with fs := fs } where
  shelved := hs.shelved
  unlinked := by
    apply hs.unlinked.of_names
    intro q n hfind
    rwa [hframe.find_eq q nofun] at hfind
  content_eq := by
    intro e he
    calc
      fs.content e.value.path = d.fs.content e.value.path :=
        hframe.content_eq nofun fun _ _ => nofun
      _ = some (b.xorb e.value.hash) := hs.content_eq e he

/-- A `Put` adds the xorb, and what it evicts is no longer listed. -/
theorem of_landed (hs : Stocked h b maxBytes d) {size : Int}
    (hl : Landed hash size (h.final hash) (h.tmp hash) (b.xorb hash) d d') (hhex : HexHash hash)
    (hsize : size = (b.xorb hash).length) : Stocked h b maxBytes d' := by
  have hshelved := hl.shelved hs.shelved hhex hsize
  obtain ⟨d₁, kept, hcache, hcontent, hothers, rfl⟩ := hl
  obtain ⟨hunlinked, hsame⟩ := hothers hs.unlinked
  have hshelved₁ : Shelved h maxBytes d₁.cache := by
    rw [hcache]
    exact hs.shelved
  have hnew := Cache.Filed.new (h := h) hhex (show 0 ≤ size by omega)
  refine ⟨hshelved, ?_, ?_⟩
  · apply hunlinked.of_names
    intro q n hfind
    change (Store.unlinkAll d₁.fs _).names.find q = some n at hfind
    rw [Store.find_unlinkAll] at hfind
    split at hfind
    · cases hfind
    · exact hfind
  · intro e he
    rw [content_commit hshelved₁ hnew he]
    obtain ⟨gone, hsplit, -⟩ := (hshelved₁.booked.recorded hash size (h.final hash)).gone
    have hmem : e ∈ ⟨d₁.cache.nextId, ⟨hash, size, h.final hash⟩⟩ :: d₁.cache.others hash := by
      rw [hsplit]
      exact List.mem_append_left gone he
    rcases List.mem_cons.1 hmem with rfl | hmem
    · exact hcontent
    · -- an older entry; its file is neither of the two that `Put` wrote
      obtain ⟨hlru, hne⟩ := Cache.mem_others.1 hmem
      rw [hcache] at hlru
      obtain ⟨hhex', hpath, -⟩ := hs.shelved.lists.lru e hlru
      have htmp : e.value.path ≠ h.tmp hash := by
        rw [hpath]
        exact (tmp_ne_final hhex hhex').symm
      have hfinal : e.value.path ≠ h.final hash := by
        rw [hpath]
        exact fun hEq => hne (final_inj hhex' hhex hEq)
      exact (hsame _ htmp hfinal).trans (hs.content_eq e hlru)

end Stocked

/-! ## One operation -/

/-- The cache is stocked and nobody is fetching. -/
structure Ready (h : Handlers) (b : Backend) (maxBytes : Int) (s : State h) : Prop where
  stocked : Stocked h b maxBytes s.disk
  idle : ∀ k, h.miss.inFlight s.group k = none

section Ensures

variable {h : Handlers} {b : Backend} {maxBytes : Int} {lookup : XorbLookup} {s : State h}
  {hash : Bytes} {siaId : Hash} {size : Int64} {α : Type} {post : State h → α → Prop}

/-- The database gives the answer of `lookup`. -/
theorem ensures_lookupXorb {f : Except LookupErr (Hash × Int64) → Code α}
    (hanswers : Answers h b maxBytes lookup)
    (hf : (f (lookup hash)).Ensures (exec h) (Sound b lookup) post s) :
    (lookupXorb hash >>= f).Ensures (exec h) (Sound b lookup) post s := by
  constructor
  · cases hrow : lookup hash with
    | error e => exact ⟨.noRow e, s, .error e, rfl, hrow.symm⟩
    | ok row =>
        obtain ⟨siaId, size⟩ := row
        have hsize : size = h.sizes hash := (hanswers hash siaId size hrow).size_eq
        exact ⟨.row siaId, s, .ok (siaId, h.sizes hash), rfl, by rw [← hsize]; exact hrow.symm⟩
  · intro e s' r he hr
    have hsame : s' = s := by
      cases e <;> cases he <;> rfl
    have hrow : r = lookup hash := hr
    rw [hsame, hrow]
    exact hf

theorem ensures_download {f : Download → Code α} (hobject : b.object siaId = b.xorb hash)
    (hf : ∀ d : Download, d.err = none → d.blocks.flatten = b.xorb hash →
      (f d).Ensures (exec h) (Sound b lookup) post s) :
    (download siaId >>= f).Ensures (exec h) (Sound b lookup) post s := by
  refine ⟨⟨.download ⟨[b.object siaId], none⟩, s, _, rfl, rfl, by simp⟩, ?_⟩
  rintro e s' d he ⟨herr, hblocks⟩
  cases e with
  | download d' =>
      cases he
      exact hf d herr (hblocks.trans hobject)
  | _ => cases he

theorem ensures_sinceMs {f : Int64 → Code α}
    (hf : ∀ ms, (f ms).Ensures (exec h) (Sound b lookup) post s) :
    (sinceMs >>= f).Ensures (exec h) (Sound b lookup) post s := by
  refine ⟨⟨.elapsed 0, s, 0, rfl, trivial⟩, ?_⟩
  intro e s' ms he _
  cases e with
  | elapsed _ =>
      cases he
      exact hf ms
  | _ => cases he

theorem ensures_index {f : Option (Path × Int) → Code α}
    (hf : (f (s.disk.cache.lookup hash).2).Ensures (exec h) (Sound b lookup) post
      (s.setCache (s.disk.cache.lookup hash).1)) :
    (index hash >>= f).Ensures (exec h) (Sound b lookup) post s := by
  refine ⟨⟨.quiet, _, _, rfl, trivial⟩, ?_⟩
  intro e s' r he _
  cases e with
  | quiet =>
      cases he
      exact hf
  | _ => cases he

theorem ensures_openFile {path : Path} {bytes : Bytes} {f : Except IoError Nat → Code α}
    (hcontent : s.disk.fs.content path = some bytes)
    (hf : ∀ fs fd, s.disk.fs.openRead path = some (fs, fd) →
      (f (.ok fd)).Ensures (exec h) (Sound b lookup) post
        { s with disk := { s.disk with fs := fs } }) :
    (openFile path >>= f).Ensures (exec h) (Sound b lookup) post s := by
  obtain ⟨fs, fd, hopen⟩ := FileSystem.exists_openRead hcontent
  have hexec : exec h (.openFile path) .quiet s =
      some ({ s with disk := { s.disk with fs := fs } }, .ok fd) := by
    simp only [exec, State.openFile, hopen]
  refine ⟨⟨.quiet, _, _, hexec, fd, rfl⟩, ?_⟩
  rintro e s' r he ⟨fd', rfl⟩
  cases e with
  | quiet =>
      cases hexec.symm.trans he
      exact hf fs fd hopen
  | _ => cases he

theorem ensures_readAll {fd : Nat} {bytes : Bytes} {f : Bytes → Code α}
    (hread : s.disk.fs.readAll fd = some bytes)
    (hf : (f bytes).Ensures (exec h) (Sound b lookup) post s) :
    (readAll fd >>= f).Ensures (exec h) (Sound b lookup) post s := by
  refine ⟨⟨.quiet, s, _, rfl, trivial⟩, ?_⟩
  intro e s' r he _
  cases e with
  | quiet =>
      cases he
      rw [hread]
      exact hf
  | _ => cases he

/-- A program of the cache, run by a request that does not touch the coalescer meanwhile. -/
theorem ensures_onDisk {p : Gateway.Code α} {post : Store → α → Prop}
    (hp : p.Ensures Gateway.exec Faultless post s.disk) :
    (onDisk p).Ensures (exec h) (Sound b lookup)
      (fun s' a => post s'.disk a ∧ s'.group = s.group) s := by
  apply Prog.Ensures.embed hp
  · intro o e s d r he hr
    exact ⟨.disk e, { s with disk := d }, r, by simp [exec, he], hr⟩
  · intro o e s s' r he hr
    cases e with
    | disk e =>
        obtain ⟨⟨d, r'⟩, hexec, hEq⟩ := Option.map_eq_some_iff.1 he
        cases hEq
        exact ⟨rfl, e, hexec, hr⟩
    | _ => cases he

/-- An `Open` without an entry finds nothing and changes nothing. -/
theorem ensures_cacheOpen_of_none (hnone : s.disk.cache.index.find hash = none) :
    (cacheOpen hash).Ensures (exec h) (Sound b lookup) (fun s' r => s' = s ∧ r = none) s := by
  unfold cacheOpen
  apply ensures_index
  simp only [Cache.lookup, hnone]
  exact ⟨rfl, rfl⟩

/-- What an `Open` that hits returns: a file to read the xorb from. -/
structure Hits (h : Handlers) (b : Backend) (maxBytes : Int) (hash : Bytes) (s s' : State h)
    (fd : Nat) : Prop where
  stocked : Stocked h b maxBytes s'.disk
  group_eq : s'.group = s.group
  read : s'.disk.fs.readAll fd = some (b.xorb hash)

theorem ensures_cacheOpen_of_entry (hs : Stocked h b maxBytes s.disk) {e : Element}
    (hfind : s.disk.cache.index.find hash = some e) :
    (cacheOpen hash).Ensures (exec h) (Sound b lookup)
      (fun s' r => ∃ fd size, r = some (fd, size) ∧ Hits h b maxBytes hash s s' fd) s := by
  obtain ⟨hmem, hhash⟩ := hs.shelved.booked.entry hash e hfind
  have hcontent : s.disk.fs.content e.value.path = some (b.xorb hash) := by
    rw [← hhash]
    exact hs.content_eq e hmem
  have hlookup : (s.disk.cache.lookup hash).2 = some (e.value.path, e.value.size) := by
    simp only [Cache.lookup, hfind]
  have hmoved := hs.lookup hash
  generalize hcache : (s.disk.cache.lookup hash).1 = cache at hmoved
  have hcontent' : (s.setCache cache).disk.fs.content e.value.path = some (b.xorb hash) := hcontent
  unfold cacheOpen
  apply ensures_index
  rw [hlookup, hcache]
  refine ensures_openFile hcontent' ?_
  intro fs fd hopen
  refine ⟨fd, e.value.size, rfl, ?_, rfl, ?_⟩
  · exact hmoved.of_frame (FileSystem.frame_openRead hopen)
  · exact (FileSystem.readAll_openRead hopen).trans hcontent

/-- A call that finds nobody in flight leads, and leaves nobody in flight. -/
theorem ensures_missDo {fetch : Code (Except SourceError Bytes)}
    {P : Store → Except SourceError Bytes → Prop} (hidle : ∀ k, h.miss.inFlight s.group k = none)
    (hfetch : ∀ group, fetch.Ensures (exec h) (Sound b lookup)
      (fun s' v => P s'.disk v ∧ s'.group = group) { s with group := group }) :
    (missDo hash fetch).Ensures (exec h) (Sound b lookup)
      (fun s' v => P s'.disk v ∧ ∀ k, h.miss.inFlight s'.group k = none) s := by
  refine ⟨⟨.quiet, _, _, rfl, trivial⟩, ?_⟩
  intro e s₁ role he _
  cases e with
  | quiet =>
      have hrole := h.miss.enter_lead s.group hash (hidle hash)
      cases he
      simp only [hrole]
      refine (hfetch _).bind ?_
      rintro s₂ v ⟨hP, hgroup⟩
      refine ⟨⟨.quiet, _, _, rfl, trivial⟩, ?_⟩
      intro e s₃ _ he _
      cases e with
      | quiet =>
          cases he
          refine ⟨hP, ?_⟩
          intro k
          -- the call that has just ended was the only one
          have hflights := h.miss.inFlight_lead s.group hash (hidle hash)
          change h.miss.inFlight (h.miss.finish s₂.group _ v) k = none
          rw [h.miss.inFlight_finish, hgroup, hflights]
          by_cases hk : k = hash
          · subst hk
            simp
          · simp [Function.update_of_ne hk, hidle k]
      | _ => cases he
  | _ => cases he

/-- What a fetch leaves: the cache is stocked, and lists the hash. -/
def Fetched (h : Handlers) (b : Backend) (maxBytes : Int) (hash : Bytes) (d : Store)
    (v : Except SourceError Bytes) : Prop :=
  v = .ok hash ∧ Stocked h b maxBytes d ∧ ∃ e, d.cache.index.find hash = some e

theorem ensures_fetchAndCache (hs : Stocked h b maxBytes s.disk) (hhex : HexHash hash)
    (hstored : Stored h b maxBytes hash siaId size) :
    (h.fetchAndCache hash siaId size).Ensures (exec h) (Sound b lookup)
      (fun s' v => Fetched h b maxBytes hash s'.disk v ∧ s'.group = s.group) s := by
  unfold Handlers.fetchAndCache
  apply ensures_download hstored.object_eq
  intro d herr hblocks
  have hsize : size.toInt = d.blocks.flatten.length := by
    rw [hblocks]
    exact hstored.length_eq
  have hreader : d.reader = ⟨d.blocks, none⟩ := by
    rw [Download.reader, herr, Option.map_none]
  have hput := ensures_put_lands h.blake3 h.dir d.blocks s.disk hhex.1 hsize
  rw [← hreader, ← fst_putRest] at hput
  refine (ensures_onDisk (hput.of_map.and_ends (ends_putRest _ _ _ _ _))).bind ?_
  rintro s₁ ⟨r, left⟩ ⟨⟨hlands, hleft⟩, hgroup⟩
  -- the hash gate lets the xorb through
  rw [PutLands, hblocks, if_pos hstored.complete.digest_eq] at hlands
  obtain ⟨hr, hlanded⟩ := hlands
  obtain rfl : r = _ := hr
  obtain rfl : left = [] := hleft rfl
  obtain ⟨e, hfind, -⟩ := hlanded.entry hs.shelved hhex hstored.length_eq hstored.room
  refine ⟨⟨.quiet, s₁, (), rfl, trivial⟩, ?_⟩
  intro e' s₂ _ he _
  obtain ⟨-, rfl⟩ := exec_receive he
  rw [herr]
  exact ⟨⟨rfl, hs.of_landed hlanded hhex hstored.length_eq, e, hfind⟩, hgroup⟩

theorem ensures_fetchFn (hs : Stocked h b maxBytes s.disk) (hhex : HexHash hash)
    (hstored : Stored h b maxBytes hash siaId size)
    (hnone : s.disk.cache.index.find hash = none) :
    (h.fetchFn hash siaId size).Ensures (exec h) (Sound b lookup)
      (fun s' v => Fetched h b maxBytes hash s'.disk v ∧ s'.group = s.group) s := by
  refine (ensures_cacheOpen_of_none hnone).bind ?_
  rintro s₁ _ ⟨rfl, rfl⟩
  exact ensures_fetchAndCache hs hhex hstored

/-- What `getXorbSource` returns: a file to read the xorb from. -/
def Sources (h : Handlers) (b : Backend) (maxBytes : Int) (hash : Bytes) (s' : State h)
    (r : Except SourceError OpenSource) : Prop :=
  Ready h b maxBytes s' ∧ ∃ src, r = .ok src ∧ s'.disk.fs.readAll src.fd = some (b.xorb hash)

theorem ensures_getXorbSource (hs : Ready h b maxBytes s) (hhex : HexHash hash)
    (hstored : Stored h b maxBytes hash siaId size) :
    (h.getXorbSource hash siaId size).Ensures (exec h) (Sound b lookup)
      (Sources h b maxBytes hash) s := by
  unfold Handlers.getXorbSource
  cases hfind : s.disk.cache.index.find hash with
  | some e =>
      refine (ensures_cacheOpen_of_entry hs.stocked hfind).bind ?_
      rintro s₁ _ ⟨fd, size', rfl, hhits⟩
      refine ⟨⟨hhits.stocked, ?_⟩, _, rfl, hhits.read⟩
      rw [hhits.group_eq]
      exact hs.idle
  | none =>
      refine (ensures_cacheOpen_of_none hfind).bind ?_
      rintro s₁ _ ⟨rfl, rfl⟩
      refine (ensures_missDo (P := Fetched h b maxBytes hash) hs.idle fun group =>
        ensures_fetchFn (s := { s₁ with group := group }) hs.stocked hhex hstored hfind).bind ?_
      rintro s₂ _ ⟨⟨rfl, hstocked, e, hentry⟩, hidle⟩
      apply ensures_sinceMs
      intro ms
      -- the file that was fetched is there
      refine (ensures_cacheOpen_of_entry hstocked hentry).bind ?_
      rintro s₃ _ ⟨fd, size', rfl, hhits⟩
      refine ⟨⟨hhits.stocked, ?_⟩, _, rfl, hhits.read⟩
      rw [hhits.group_eq]
      exact hidle

/-- An open file can be closed, and nothing else changes. -/
theorem ensures_close_open {d : Store} {fd : Nat} {bytes : Bytes}
    (hread : d.fs.readAll fd = some bytes) :
    (close fd).Ensures Gateway.exec Faultless
      (fun d' _ => ∃ fs, d.fs.close fd = some fs ∧ d' = { d with fs := fs }) d := by
  obtain ⟨fs, hclose⟩ := FileSystem.exists_close_of_readAll hread
  refine ⟨⟨.ok, { d with fs := fs }, .ok (), by simp [Gateway.exec, hclose, Store.update], rfl⟩, ?_⟩
  intro e d' r he hr
  obtain ⟨fs', hfs', rfl, -⟩ := effect_of_exec he hr
  exact ⟨fs', hfs', rfl⟩

theorem ensures_serveAdmitted {ctx : Nat} {a : Admitted} (hs : Ready h b maxBytes s)
    (hhex : HexHash hash) (hstored : Stored h b maxBytes hash a.siaId a.size) :
    (h.serveAdmitted ctx hash a).Ensures (exec h) (Sound b lookup)
      (fun s' w => Ready h b maxBytes s' ∧
        SameResponse w (respond .new ⟨b.xorb hash, false, 0⟩ a.size a.ranges)) s := by
  unfold Handlers.serveAdmitted
  refine (ensures_getXorbSource hs hhex hstored).bind ?_
  rintro s₁ _ ⟨hs₁, src, rfl, hread⟩
  refine ensures_readAll hread ?_
  refine (ensures_onDisk (ensures_close_open hread)).bind ?_
  rintro s₂ _ ⟨⟨fs, hclose, hdisk⟩, hgroup⟩
  refine ⟨⟨?_, ?_⟩, ?_⟩
  · rw [hdisk]
    exact hs₁.stocked.of_frame (FileSystem.frame_close hclose)
  · rw [hgroup]
    exact hs₁.idle
  · apply SameResponse.respond
    rfl

/-- A request that meets no failure leaves the cache ready for the next, and gets its answer. -/
theorem ensures_serveXorb {ctx : Nat} {r : XorbRequest} {now : UInt64} (hs : Ready h b maxBytes s)
    (hanswers : Answers h b maxBytes lookup) :
    (h.serveXorb ctx r now).Ensures (exec h) (Sound b lookup)
      (fun s' w => Ready h b maxBytes s' ∧ SameResponse w (answer h b lookup r now)) s := by
  unfold Handlers.serveXorb
  split
  · rename_i verr hverify
    refine ⟨hs, ?_⟩
    simp only [answer, admission, hverify]
    exact .refl _
  · rename_i ok hverify
    apply ensures_lookupXorb hanswers
    change Prog.Ensures _ _ _ (match admission h.uuid h.hmac h.verifier lookup .new r now with
      | .error w => pure w
      | .ok a => h.serveAdmitted ctx r.hash a) s
    unfold answer
    cases hadm : admission h.uuid h.hmac h.verifier lookup .new r now with
    | error w => exact ⟨hs, .refl w⟩
    | ok a =>
        have hstored := hanswers r.hash a.siaId a.size (admission_row hadm)
        exact ensures_serveAdmitted hs (hexHash_of_verify hverify) hstored

end Ensures

/-! ## Without a cache -/

/-- The same for the operations of a temporary file. -/
def DirectSound (b : Backend) (lookup : XorbLookup) : Call DirectOp DirectRes → Prop
  | ⟨.base o, r⟩ => Sound b lookup ⟨o, r⟩
  | ⟨.createTemp _, r⟩ => ∃ file, r = .ok file
  | ⟨.stat _, r⟩ => ∃ size, r = .ok size
  | ⟨.clientGone _ _, _⟩ => True

theorem tempPath_injective (tempDir : Path) (pattern : Bytes) :
    Function.Injective (tempPath tempDir pattern) := by
  intro m n hEq
  have hlast := congrArg (fun p : Path => p.elems.getLast?) hEq
  simp only [tempPath, List.getLast?_concat, Option.some.injEq] at hlast
  exact decimal_injective (List.append_cancel_left hlast)

/-- There is always a name left for a temporary file. -/
theorem exists_tempPath_new (fs : FileSystem Path) (tempDir : Path) (pattern : Bytes) :
    ∃ n, fs.names.find (tempPath tempDir pattern n) = none := by
  by_contra hnone
  have htaken : ∀ n, tempPath tempDir pattern n ∈ {p | p ∈ fs.names.rows.map Prod.fst} := by
    intro n
    obtain ⟨inode, hfind⟩ := Option.ne_none_iff_exists'.1 (not_exists.1 hnone n)
    exact List.mem_map_of_mem (f := Prod.fst) (Table.find_eq_some_iff.1 hfind)
  have hinfinite := Set.infinite_of_injective_forall_mem (tempPath_injective tempDir pattern) htaken
  exact hinfinite (List.finite_toSet _)

section Direct

variable {h : Handlers} {b : Backend} {maxBytes : Int} {lookup : XorbLookup} {tempDir : Path}
  {s : State h} {hash : Bytes} {siaId : Hash} {size : Int64} {α : Type} {post : State h → α → Prop}

/-- An operation both forms have. -/
theorem ensures_baseOp {o : Op} {P : State h → Res o → Prop} {f : Res o → DirectCode α}
    (ho : (Prog.perform o : Code (Res o)).Ensures (exec h) (Sound b lookup) P s)
    (hf : ∀ s' r, P s' r → (f r).Ensures (directExec h tempDir) (DirectSound b lookup) post s') :
    (baseOp o >>= f).Ensures (directExec h tempDir) (DirectSound b lookup) post s := by
  obtain ⟨⟨e, s', r, he, hr⟩, hnext⟩ := ho
  refine ⟨⟨.base e, s', r, he, hr⟩, ?_⟩
  intro e s' r he hr
  cases e with
  | base e => exact hf s' r (hnext e s' r he hr)
  | _ => cases he

theorem ensures_createTemp {pattern : Bytes} {f : Except IoError (Nat × Path) → DirectCode α}
    (hf : ∀ s' fd p, s'.disk.fs.Holds p fd [] →
      (f (.ok (fd, p))).Ensures (directExec h tempDir) (DirectSound b lookup) post s') :
    (createTemp pattern >>= f).Ensures (directExec h tempDir) (DirectSound b lookup) post s := by
  constructor
  · obtain ⟨n, hnew⟩ := exists_tempPath_new s.disk.fs tempDir pattern
    have hexec : s.createTemp (tempPath tempDir pattern n) =
        some ({ s with disk :=
            { s.disk with fs := (s.disk.fs.create (tempPath tempDir pattern n)).1 } },
          .ok ((s.disk.fs.create (tempPath tempDir pattern n)).2, tempPath tempDir pattern n)) := by
      simp only [State.createTemp, hnew]
    exact ⟨.random n, _, _, hexec, _, rfl⟩
  · rintro e s' r he ⟨file, rfl⟩
    cases e with
    | random n =>
        simp only [directExec, State.createTemp] at he
        split at he
        · cases he
        · cases he
          exact hf _ _ _ (FileSystem.holds_create _ _)
    | _ => cases he

theorem ensures_stat {fd : Nat} {bytes : Bytes} {f : Except IoError Nat → DirectCode α}
    (hread : s.disk.fs.readAll fd = some bytes)
    (hf : (f (.ok bytes.length)).Ensures (directExec h tempDir) (DirectSound b lookup) post s) :
    (stat fd >>= f).Ensures (directExec h tempDir) (DirectSound b lookup) post s := by
  have hexec : directExec h tempDir (.stat fd) (.base .quiet) s = some (s, .ok bytes.length) := by
    simp only [directExec, hread]
  refine ⟨⟨.base .quiet, s, _, hexec, _, rfl⟩, ?_⟩
  rintro e s' r he ⟨n, rfl⟩
  cases e with
  | base e =>
      cases e with
      | quiet =>
          cases hexec.symm.trans he
          exact hf
      | _ => cases he
  | _ => cases he

theorem ensures_copyBlocks {fd : Nat} {p : Path} {content : Bytes} (blocks : List Bytes)
    (hholds : s.disk.fs.Holds p fd content) :
    (copyBlocks fd none blocks).Ensures (directExec h tempDir) (DirectSound b lookup)
      (fun s' r => r = .ok () ∧ s'.disk.fs.Holds p fd (content ++ blocks.flatten)) s := by
  induction blocks generalizing s content with
  | nil => exact ⟨rfl, by simpa using hholds⟩
  | cons block rest ih =>
      have hwrite : (write fd block).Ensures Gateway.exec Faultless
          (fun d' r => r = .ok () ∧ d'.fs.Holds p fd (content ++ block)) s.disk :=
        ensures_write (f := Prog.done) (.refl p s.disk) hholds fun _ _ hholds' => ⟨rfl, hholds'⟩
      unfold copyBlocks
      refine ensures_baseOp (ensures_onDisk hwrite) ?_
      rintro s₁ _ ⟨⟨rfl, hholds₁⟩, -⟩
      simpa using ih hholds₁

/-- The temporary file goes, whatever the removal says. -/
theorem ensures_discardTemp {fd : Nat} {name : Path} {bytes : Bytes}
    (hread : s.disk.fs.readAll fd = some bytes) :
    (discardTemp fd name).Ensures (directExec h tempDir) (DirectSound b lookup)
      (fun _ _ => True) s := by
  unfold discardTemp
  refine ensures_baseOp (ensures_onDisk (ensures_close_open hread)) ?_
  intro s₁ _ _
  have hremove : (remove name).Ensures Gateway.exec Faultless (fun _ _ => True) s₁.disk :=
    ensures_remove (f := Prog.done) (.refl name s₁.disk) fun _ _ _ => trivial
  refine ensures_baseOp (ensures_onDisk hremove) ?_
  exact fun _ _ _ => trivial

theorem ensures_getXorbSourceDirect (hstored : Stored h b maxBytes hash siaId size) :
    (Handlers.getXorbSourceDirect hash siaId size).Ensures (directExec h tempDir)
      (DirectSound b lookup)
      (fun s' r => ∃ src, r = .ok src ∧ s'.disk.fs.readAll src.fd = some (b.xorb hash)) s := by
  unfold Handlers.getXorbSourceDirect
  apply ensures_createTemp
  intro s₁ fd p hholds
  have hdownload : (downloadTo fd siaId).Ensures (directExec h tempDir) (DirectSound b lookup)
      (fun s' r => r = .ok () ∧ s'.disk.fs.Holds p fd (b.xorb hash)) s₁ := by
    have hobject : (download siaId).Ensures (exec h) (Sound b lookup)
        (fun s' d => s' = s₁ ∧ d.err = none ∧ d.blocks.flatten = b.xorb hash) s₁ :=
      ensures_download (f := Prog.done) hstored.object_eq fun _ herr hblocks =>
        ⟨rfl, herr, hblocks⟩
    refine ensures_baseOp hobject ?_
    rintro s₂ d ⟨rfl, herr, hblocks⟩
    rw [herr, ← hblocks]
    exact ensures_copyBlocks d.blocks hholds
  refine hdownload.bind ?_
  rintro s₂ _ ⟨rfl, hholds₂⟩
  have hread := hholds₂.readAll_eq
  have hsince : sinceMs.Ensures (exec h) (Sound b lookup) (fun s' _ => s' = s₂) s₂ :=
    ensures_sinceMs (f := Prog.done) fun _ => rfl
  refine ensures_baseOp hsince ?_
  rintro s₃ ms rfl
  refine ensures_stat hread ?_
  -- the file has the size of the row
  have hsize : ((b.xorb hash).length : Int) = size.toInt := hstored.length_eq.symm
  simp only [hsize, ne_eq, not_true_eq_false, if_false]
  exact ⟨_, rfl, hread⟩

theorem ensures_serveAdmittedDirect {ctx : Nat} {a : Admitted}
    (hstored : Stored h b maxBytes hash a.siaId a.size) :
    (Handlers.serveAdmittedDirect ctx hash a).Ensures (directExec h tempDir) (DirectSound b lookup)
      (fun _ w => SameResponse w (respond .new ⟨b.xorb hash, false, 0⟩ a.size a.ranges)) s := by
  unfold Handlers.serveAdmittedDirect
  refine (ensures_getXorbSourceDirect hstored).bind ?_
  rintro s₁ _ ⟨src, rfl, hread⟩
  have hbytes : (readAll src.fd).Ensures (exec h) (Sound b lookup)
      (fun s' bytes => s' = s₁ ∧ bytes = b.xorb hash) s₁ :=
    ensures_readAll (f := Prog.done) hread ⟨rfl, rfl⟩
  refine ensures_baseOp hbytes ?_
  rintro s₂ _ ⟨rfl, rfl⟩
  refine (ensures_discardTemp hread).bind ?_
  intro s₃ _ _
  apply SameResponse.respond
  rfl

/-- A request that meets no failure gets its answer. -/
theorem ensures_serveXorbDirect {ctx : Nat} {r : XorbRequest} {now : UInt64}
    (hanswers : Answers h b maxBytes lookup) :
    (h.serveXorbDirect ctx r now).Ensures (directExec h tempDir) (DirectSound b lookup)
      (fun _ w => SameResponse w (answer h b lookup r now)) s := by
  unfold Handlers.serveXorbDirect
  split
  · rename_i verr hverify
    simp only [answer, admission, hverify]
    exact .refl _
  · rename_i ok hverify
    have hlookup : (lookupXorb r.hash).Ensures (exec h) (Sound b lookup)
        (fun _ row => row = lookup r.hash) s :=
      ensures_lookupXorb (f := Prog.done) hanswers rfl
    refine ensures_baseOp hlookup ?_
    rintro s₁ _ rfl
    change Prog.Ensures _ _ _ (match admission h.uuid h.hmac h.verifier lookup .new r now with
      | .error w => pure w
      | .ok a => Handlers.serveAdmittedDirect ctx r.hash a) s₁
    unfold answer
    cases hadm : admission h.uuid h.hmac h.verifier lookup .new r now with
    | error w => exact .refl w
    | ok a => exact ensures_serveAdmittedDirect (hanswers r.hash a.siaId a.size (admission_row hadm))

end Direct

/-! ## Histories -/

/-- A request, what the database had for it, and the response it got. -/
structure Exchange where
  ctx : Nat
  request : XorbRequest
  now : UInt64
  lookup : XorbLookup
  response : ResponseWriter

/-- Requests handled one after another by a gateway with a cache, newest first, and its state
after them. -/
inductive Served (h : Handlers) (b : Backend) (maxBytes : Int) (found : FoundDisk) :
    List Exchange → State h → Prop
  | new : Served h b maxBytes found [] (State.new h maxBytes found)
  | serve {xs : List Exchange} {s s' : State h} {x : Exchange} {cs : List (Call Op Res)} :
      Served h b maxBytes found xs s → Answers h b maxBytes x.lookup →
        Runs (exec h) (h.serveXorb x.ctx x.request x.now) s cs s' x.response →
          (∀ call ∈ cs, Sound b x.lookup call) → Served h b maxBytes found (x :: xs) s'

/-- The same request without a cache, in the state `t`. -/
def ServedDirect (h : Handlers) (b : Backend) (tempDir : Path) (t : State h) (x : Exchange)
    (w : ResponseWriter) : Prop :=
  ∃ cs t', Runs (directExec h tempDir) (h.serveXorbDirect x.ctx x.request x.now) t cs t' w ∧
    ∀ call ∈ cs, DirectSound b x.lookup call

section Histories

variable {h : Handlers} {b : Backend} {maxBytes : Int} {found : FoundDisk} {xs : List Exchange}
  {s : State h}

/-- Between two requests the cache is stocked, and every response so far was the answer. -/
theorem Served.ready (hs : Served h b maxBytes found xs s) :
    Ready h b maxBytes s ∧ ∀ x ∈ xs, Answers h b maxBytes x.lookup ∧
      SameResponse x.response (answer h b x.lookup x.request x.now) := by
  induction hs with
  | new => exact ⟨⟨.new found, h.miss.inFlight_new⟩, nofun⟩
  | serve hprev hanswers hrun hsound ih =>
      obtain ⟨hready, hall⟩ := ih
      obtain ⟨hready', hresponse⟩ :=
        (ensures_serveXorb hready hanswers).post_of_runs hrun hsound
      exact ⟨hready', List.forall_mem_cons.2 ⟨⟨hanswers, hresponse⟩, hall⟩⟩

/-- Whatever was served before, a response through the cache is the response without one; and every
further request can be served, with the cache and without. -/
theorem cache_transparent (hs : Served h b maxBytes found xs s) :
    (∀ x ∈ xs, ∀ tempDir t w, ServedDirect h b tempDir t x w → SameResponse x.response w) ∧
      ∀ x : Exchange, Answers h b maxBytes x.lookup →
        (∃ w s', Served h b maxBytes found ({ x with response := w } :: xs) s') ∧
          ∀ tempDir t, ∃ w, ServedDirect h b tempDir t x w := by
  obtain ⟨hready, hall⟩ := hs.ready
  constructor
  · rintro x hx tempDir t w ⟨cs, t', hrun, hsound⟩
    obtain ⟨hanswers, hresponse⟩ := hall x hx
    have hdirect := (ensures_serveXorbDirect hanswers).post_of_runs hrun hsound
    exact hresponse.trans hdirect.symm
  · intro x hanswers
    constructor
    · obtain ⟨cs, s', w, hrun, hsound⟩ := (ensures_serveXorb hready hanswers).exists_run
      exact ⟨w, s', hs.serve hanswers hrun hsound⟩
    · intro tempDir t
      obtain ⟨cs, t', w, hrun, hsound⟩ := (ensures_serveXorbDirect hanswers).exists_run
      exact ⟨w, cs, t', hrun, hsound⟩

end Histories

def sampleBackend : Backend :=
  { object := fun _ => [1, 2, 3]
    xorb := fun _ => [1, 2, 3] }

def sampleLookup : XorbLookup := fun hash =>
  if hash = sampleHash then .ok (Hash.fill 2, 3) else .error .notFound

theorem answers_sampleLookup : Answers sampleHandlers sampleBackend 3 sampleLookup := by
  intro hash siaId size hrow
  unfold sampleLookup at hrow
  split at hrow
  · rename_i hEq
    cases hrow
    subst hEq
    exact ⟨rfl, rfl, ⟨by decide, by decide +kernel⟩, .inr (by decide)⟩
  · cases hrow

def sampleExchange (ctx : Nat) (w : ResponseWriter) : Exchange :=
  { ctx := ctx
    request := sampleRequest
    now := 1999999999
    lookup := sampleLookup
    response := w }

/-- A miss, a hit, and the same request without a cache: each is answered with the whole xorb. -/
theorem cache_transparent_sample :
    ∃ w₁ w₂ w s, Served sampleHandlers sampleBackend 3 emptyDisk
        [sampleExchange 1 w₂, sampleExchange 0 w₁] s ∧
      ServedDirect sampleHandlers sampleBackend ⟨true, [lit "tmp"]⟩ s (sampleExchange 1 w₂) w ∧
      SameResponse w₂ w ∧ w.statusLines = [200] ∧ w.body = [1, 2, 3] := by
  have hnew : Served sampleHandlers sampleBackend 3 emptyDisk [] (State.new _ 3 emptyDisk) := .new
  obtain ⟨w₁, s₁, hmiss⟩ :=
    ((cache_transparent hnew).2 (sampleExchange 0 .new) answers_sampleLookup).1
  obtain ⟨w₂, s₂, hhit⟩ :=
    ((cache_transparent hmiss).2 (sampleExchange 1 .new) answers_sampleLookup).1
  obtain ⟨hsame, hnext⟩ := cache_transparent hhit
  obtain ⟨-, hdirect⟩ := hnext (sampleExchange 1 w₂) answers_sampleLookup
  obtain ⟨w, hw⟩ := hdirect ⟨true, [lit "tmp"]⟩ s₂
  have hEq : SameResponse w₂ w := hsame _ List.mem_cons_self _ _ w hw
  have hanswer : SameResponse w
      (answer sampleHandlers sampleBackend sampleLookup sampleRequest 1999999999) :=
    hEq.symm.trans (hhit.ready.2 _ List.mem_cons_self).2
  refine ⟨w₁, w₂, w, s₂, hhit, hw, hEq, ?_, ?_⟩
  · rw [hanswer.statusLines_eq]
    decide +kernel
  · rw [hanswer.body_eq]
    decide +kernel

end Serving

end Gateway
end OpenWeights
