import OpenWeights.Gateway.Writers

/-!
# Accounts — the files on disk and the entries of the index

`Put` renames its file before it takes the lock, and `Open` opens a file after it has given the
lock back.  So between a rename and its bookkeeping a file is there that the index does not know
yet, and an `Open` that comes too late drops an entry that is not the one it read.

`Books` is the invariant: with no bookkeeping outstanding for a hash, its file and its entry are
both there or both not, with one size.  Three kinds of steps break it (`Strays`); in a run without
them disk and index agree whenever no call is in progress (`consistent_of_run`).
-/

namespace OpenWeights
namespace Gateway

open Lib Db OpenWeights.Core

namespace Serving

variable {h : Handlers}

/-! ## What is consistent -/

def isFinal (p : Path) : Bool :=
  (lit ".bin").isSuffixOf (p.elems.getLast?.getD [])

def diskUsage (fs : FileSystem Path) : Int :=
  ((fs.names.rows.filter fun r => isFinal r.1).map fun r =>
    (((fs.inodes[r.2]?).getD []).length : Int)).sum

/-- The index and the bytes it counts are those of the disk. -/
structure Consistent (maxBytes : Int) (d : Store) : Prop where
  entry_of_file : ∀ p bytes, isFinal p = true → d.fs.content p = some bytes →
    ∃ hash e, d.cache.index.find hash = some e ∧ e.value.path = p ∧
      e.value.size = (bytes.length : Int)
  file_of_entry : ∀ hash e, d.cache.index.find hash = some e →
    ∃ bytes, d.fs.content e.value.path = some bytes
  bytesUsed_eq : d.cache.bytesUsed = diskUsage d.fs
  usage_le : 0 < maxBytes → diskUsage d.fs ≤ maxBytes

/-! ## Steps that stray -/

/-- A writer of the hash has renamed its file and not yet recorded it. -/
def Unrecorded (c : CachePool h) (hash : Bytes) : Prop :=
  ∃ i t, c.tasks i = some t ∧ t.request.key = hash ∧
    ((writing h).phaseOf i c.log).stage = some .renamed

/-- A late `Open` drops an entry whose file is there. -/
def DropsLive (c : CachePool h) (a : CacheStep) : Prop :=
  ∃ i req hash path k e, a = .call i .quiet ∧
    c.tasks i = some ⟨req, some (.call (.dropStale hash path) k)⟩ ∧
    c.store.disk.cache.index.find hash = some e ∧ e.value.path = path ∧
    c.store.disk.fs.names.find path ≠ none ∧ ¬Unrecorded c hash

def evictedBy (c : CachePool h) (hash : Bytes) (size : Int) (path : Path) : List Path :=
  (c.store.disk.cache.record hash size path).evictLocked.2

def EvictsUnrecorded (c : CachePool h) (a : CacheStep) : Prop :=
  ∃ i req hash size path kept k other, a = .call i (.disk (.evict kept)) ∧
    c.tasks i = some ⟨req, some (.call (.disk (.commit hash size path)) k)⟩ ∧
    other ≠ hash ∧ h.final other ∈ evictedBy c hash size path ∧ Unrecorded c other

/-- The file of an evicted entry is there and cannot be removed. -/
def KeepsEvicted (c : CachePool h) (a : CacheStep) : Prop :=
  ∃ i req hash size path kept k p, a = .call i (.disk (.evict kept)) ∧
    c.tasks i = some ⟨req, some (.call (.disk (.commit hash size path)) k)⟩ ∧
    p ∈ evictedBy c hash size path ∧ p ∈ kept ∧ c.store.disk.fs.names.find p ≠ none

/-- The steps after which disk and index may differ. -/
def Strays (c : CachePool h) (a : CacheStep) : Prop :=
  DropsLive c a ∨ EvictsUnrecorded c a ∨ KeepsEvicted c a

/-! ## The invariant -/

structure Books (maxBytes : Int) (c : CachePool h) : Prop where
  booked : c.store.disk.cache.Booked
  maxBytes_eq : c.store.disk.cache.maxBytes = maxBytes
  nonneg : ∀ e ∈ c.store.disk.cache.lru, 0 ≤ e.value.size
  fits : 0 < maxBytes → c.store.disk.cache.bytesUsed ≤ maxBytes
  /-- Only the cache has made files. -/
  names : ∀ p n, c.store.disk.fs.names.find p = some n →
    ∃ hash, HexHash hash ∧ (p = h.tmp hash ∨ p = h.final hash)
  /-- The file of a writer that has renamed is there, with the declared size. -/
  pending : ∀ i t, c.tasks i = some t →
    ((writing h).phaseOf i c.log).stage = some .renamed →
      ∃ bytes, c.store.disk.fs.content (h.final t.request.key) = some bytes ∧
        t.request.size = some (bytes.length : Int)
  file : ∀ hash e, c.store.disk.cache.index.find hash = some e → ¬Unrecorded c hash →
    ∃ bytes, c.store.disk.fs.content (h.final hash) = some bytes ∧
      e.value.size = (bytes.length : Int)
  entry : ∀ hash, HexHash hash → c.store.disk.fs.names.find (h.final hash) ≠ none →
    ¬Unrecorded c hash → ∃ e, c.store.disk.cache.index.find hash = some e

theorem Books.start (maxBytes : Int) :
    Books maxBytes (Pool.init (State.new h maxBytes emptyDisk) : CachePool h) where
  booked := .new maxBytes
  maxBytes_eq := rfl
  nonneg := nofun
  fits := fun hpos => Int.le_of_lt hpos
  names := nofun
  pending := nofun
  file := nofun
  entry := fun _ _ hne => absurd rfl hne

section Step

variable {maxBytes : Int} {c : CachePool h} {i : Nat} {req : CacheRequest} {call : Call Op Res}
  {p p' : Option (Code CacheAnswer)} {s : State h}

abbrev moved (c : CachePool h) (i : Nat) (req : CacheRequest) (call : Call Op Res) (s : State h)
    (p' : Option (Code CacheAnswer)) : CachePool h :=
  ⟨⟨s, ⟨i, req, call⟩ :: c.log⟩, Function.update c.tasks i (some ⟨req, p'⟩)⟩

/-- A call with its task and its stage, after the operation. -/
theorem moved_cases {j : Nat} {t : Task CacheRequest Op Res CacheAnswer}
    (hj : (moved c i req call s p').tasks j = some t) :
    (j = i ∧ t.request = req) ∨ (j ≠ i ∧ c.tasks j = some t ∧
      (writing h).phaseOf j (⟨i, req, call⟩ :: c.log) = (writing h).phaseOf j c.log) := by
  change Function.update c.tasks i (some ⟨req, p'⟩) j = some t at hj
  by_cases hji : j = i
  · subst hji
    rw [Function.update_self] at hj
    cases hj
    exact .inl ⟨rfl, rfl⟩
  · rw [Function.update_of_ne hji] at hj
    exact .inr ⟨hji, hj, Typestate.phaseOf_cons_of_ne hji req call c.log⟩

theorem stage_moved :
    ((writing h).phaseOf i (⟨i, req, call⟩ :: c.log)).stage =
      (((writing h).phaseOf i c.log).after call.op call.result).stage :=
  congrArg WritePhase.stage (Typestate.phaseOf_cons_self i req call.op call.result c.log)

/-- A call that stays where it was leaves the outstanding bookkeeping as it is. -/
theorem unrecorded_moved (ht : c.tasks i = some ⟨req, p⟩)
    (hstage : (((writing h).phaseOf i c.log).after call.op call.result).stage = some .renamed ↔
      ((writing h).phaseOf i c.log).stage = some .renamed) {hash : Bytes}
    (hun : Unrecorded c hash) : Unrecorded (moved c i req call s p') hash := by
  obtain ⟨j, t, hj, hkey, hst⟩ := hun
  by_cases hji : j = i
  · subst hji
    cases ht.symm.trans hj
    exact ⟨j, _, Function.update_self _ _ _, hkey, stage_moved.trans (hstage.2 hst)⟩
  · refine ⟨j, t, (Function.update_of_ne hji _ _).trans hj, hkey, ?_⟩
    exact (congrArg WritePhase.stage (Typestate.phaseOf_cons_of_ne hji req call c.log)).trans hst

/-- A call that neither renames nor records: its entries and files may only move. -/
theorem Books.of_same (hb : Books maxBytes c) (ht : c.tasks i = some ⟨req, p⟩)
    (hstage : (((writing h).phaseOf i c.log).after call.op call.result).stage = some .renamed ↔
      ((writing h).phaseOf i c.log).stage = some .renamed)
    (hbooked : s.disk.cache.Booked) (hmax : s.disk.cache.maxBytes = c.store.disk.cache.maxBytes)
    (hlru : ∀ e ∈ s.disk.cache.lru, e ∈ c.store.disk.cache.lru)
    (hbytes : s.disk.cache.bytesUsed ≤ c.store.disk.cache.bytesUsed)
    (hnames : ∀ q, q ≠ h.tmp req.key →
      s.disk.fs.names.find q = c.store.disk.fs.names.find q)
    (hfinals : SameFinals h c.store.disk.fs s.disk.fs)
    (hindex : ∀ hash, ¬Unrecorded c hash →
      s.disk.cache.index.find hash = c.store.disk.cache.index.find hash)
    (hkeys : ∀ hash e, c.store.disk.cache.index.find hash = some e → HexHash hash) :
    Books maxBytes (moved c i req call s p') where
  booked := hbooked
  maxBytes_eq := hmax.trans hb.maxBytes_eq
  nonneg := fun e he => hb.nonneg e (hlru e he)
  fits := fun hpos => hbytes.trans (hb.fits hpos)
  names := by
    intro q n hq
    -- The draft is the only name this call may have added.
    by_cases htmp : q = h.tmp req.key
    · exact ⟨req.key, req.hex, .inl htmp⟩
    · exact hb.names q n ((hnames q htmp).symm.trans hq)
  pending := by
    intro j t hj hst
    -- A pending rename of the task that moved, or of another one.
    rcases moved_cases hj with ⟨rfl, hreq⟩ | ⟨-, hold, hphase⟩
    · obtain ⟨bytes, hbytes, hsize⟩ := hb.pending j _ ht (hstage.1 (stage_moved.symm.trans hst))
      rw [hreq]
      exact ⟨bytes, (hfinals _ req.hex).2.trans hbytes, hsize⟩
    · change ((writing h).phaseOf j (⟨i, req, call⟩ :: c.log)).stage = _ at hst
      rw [hphase] at hst
      obtain ⟨bytes, hbytes, hsize⟩ := hb.pending j t hold hst
      exact ⟨bytes, (hfinals _ t.request.hex).2.trans hbytes, hsize⟩
  file := by
    intro hash e hfind hun
    have hold : ¬Unrecorded c hash := fun hU => hun (unrecorded_moved ht hstage hU)
    change s.disk.cache.index.find hash = some e at hfind
    rw [hindex hash hold] at hfind
    have hhex := hkeys hash e hfind
    obtain ⟨bytes, hbytes, hsize⟩ := hb.file hash e hfind hold
    exact ⟨bytes, (hfinals hash hhex).2.trans hbytes, hsize⟩
  entry := by
    intro hash hhex hne hun
    have hold : ¬Unrecorded c hash := fun hU => hun (unrecorded_moved ht hstage hU)
    change s.disk.fs.names.find (h.final hash) ≠ none at hne
    rw [(hfinals hash hhex).1] at hne
    obtain ⟨e, he⟩ := hb.entry hash hhex hne hold
    exact ⟨e, (hindex hash hold).trans he⟩

/-- An operation that does not publish. -/
theorem Books.quiet (hb : Books maxBytes c) (ht : c.tasks i = some ⟨req, p⟩)
    (hkeys : ∀ hash e, c.store.disk.cache.index.find hash = some e → HexHash hash)
    (hok : ((writing h).phaseOf i c.log).ok h req call.op) (hcall : publishes call = false)
    (hcache : s.disk.cache = c.store.disk.cache)
    (hnames : ∀ q, q ≠ h.tmp req.key →
      s.disk.fs.names.find q = c.store.disk.fs.names.find q)
    (hfinals : SameFinals h c.store.disk.fs s.disk.fs) :
    Books maxBytes (moved c i req call s p') := by
  refine hb.of_same ht (renamed_after hok hcall) ?_ ?_ ?_ ?_ hnames hfinals ?_ hkeys
  · rw [hcache]
    exact hb.booked
  · rw [hcache]
  · intro e he
    rwa [hcache] at he
  · rw [hcache]
  · intro hash _
    rw [hcache]

/-- The first critical section of `Open`. -/
theorem Books.index (hb : Books maxBytes c) (ht : c.tasks i = some ⟨req, p⟩)
    (hkeys : ∀ hash e, c.store.disk.cache.index.find hash = some e → HexHash hash)
    {r : Option (Path × Int)}
    (hs : s.disk = { c.store.disk with cache := (c.store.disk.cache.lookup req.key).1 }) :
    Books maxBytes (moved c i req ⟨.index req.key, r⟩ s p') := by
  have hcache : s.disk.cache = (c.store.disk.cache.lookup req.key).1 := by rw [hs]
  have hfs : s.disk.fs = c.store.disk.fs := by rw [hs]
  have hlook := hb.booked.lookup req.key
  refine hb.of_same ht Iff.rfl ?_ ?_ ?_ ?_ ?_ ?_ ?_ hkeys
  · rwa [hcache]
  · rw [hcache]
    exact Cache.lookup_maxBytes _ _
  · intro e he
    rw [hcache] at he
    exact Cache.mem_of_mem_lookup he
  · rw [hcache, Cache.lookup_bytesUsed]
  · intro q _
    rw [hfs]
  · rw [hfs]
    exact .refl h _
  · intro hash _
    rw [hcache, Cache.lookup_index]

/-- The second one, unless it drops an entry whose file is there. -/
theorem Books.dropStale (hb : Books maxBytes c) (hsize : req.size = none) {path : Path}
    {k : Res (.dropStale req.key path) → Code CacheAnswer}
    (ht : c.tasks i = some ⟨req, some (.call (.dropStale req.key path) k)⟩)
    (hlisted : c.store.disk.cache.Lists (Listable c.toWorld))
    (hnot : ¬DropsLive c (.call i .quiet))
    (hs : s.disk = { c.store.disk with cache := c.store.disk.cache.dropStale req.key path }) :
    Books maxBytes (moved c i req ⟨.dropStale req.key path, ()⟩ s p') := by
  have hcache : s.disk.cache = c.store.disk.cache.dropStale req.key path := by rw [hs]
  have hfs : s.disk.fs = c.store.disk.fs := by rw [hs]
  have hkeys : ∀ hash e, c.store.disk.cache.index.find hash = some e → HexHash hash :=
    fun hash e hfind => (hlisted.index hash e hfind).1
  rcases Cache.dropStale_cases hb.booked req.key path with hsame | ⟨e, hfind, hpath, hdrop⟩
  · rw [hsame] at hcache
    exact hb.quiet ht hkeys ⟨rfl, hsize⟩ rfl hcache (fun _ _ => by rw [hfs]) (by rw [hfs]; exact .refl h _)
  · -- An entry goes: then its bookkeeping is outstanding, or the step strays.
    have hun : Unrecorded c req.key := by
      by_contra hun
      obtain ⟨bytes, hbytes, -⟩ := hb.file req.key e hfind hun
      refine hnot ⟨i, req, req.key, path, k, e, rfl, ht, hfind, hpath, ?_, hun⟩
      rw [← hpath, (hlisted.index req.key e hfind).2.1]
      intro hnone
      simp [FileSystem.content, hnone] at hbytes
    obtain ⟨hmem, hhash⟩ := hb.booked.entry req.key e hfind
    rw [hdrop] at hcache
    refine hb.of_same ht Iff.rfl ?_ ?_ ?_ ?_ (fun _ _ => by rw [hfs]) (by rw [hfs]; exact .refl h _)
      ?_ hkeys
    · rw [hcache]
      exact hb.booked.without hmem
    · rw [hcache]
      rfl
    · intro n hn
      rw [hcache] at hn
      exact Cache.mem_of_mem_removeElement hn
    · have hnonneg := hb.nonneg e hmem
      rw [hcache]
      change c.store.disk.cache.bytesUsed - e.value.size ≤ c.store.disk.cache.bytesUsed
      omega
    · intro hash hold
      have hne : hash ≠ e.value.hash := by
        rintro rfl
        exact hold (hhash ▸ hun)
      rw [hcache]
      exact (Table.find_erase _ _ _).trans (if_neg hne)

/-- The name of another hash, after a rename. -/
theorem content_renamed {fs fs' : FileSystem Path} {key hash : Bytes} (hkey : HexHash key)
    (hhex : HexHash hash) (hne : hash ≠ key)
    (hrename : fs.rename (h.tmp key) (h.final key) = some fs') :
    fs'.names.find (h.final hash) = fs.names.find (h.final hash) ∧
      fs'.content (h.final hash) = fs.content (h.final hash) := by
  have hframe := FileSystem.frame_rename hrename
  obtain ⟨-, -, -, hinodes, -⟩ := FileSystem.rename_eq_some hrename
  have hname : fs'.names.find (h.final hash) = fs.names.find (h.final hash) := by
    refine hframe.find_eq _ ?_
    rintro (hEq | hEq)
    · exact tmp_ne_final hkey hhex hEq.symm
    · exact hne (final_inj hhex hkey hEq)
  exact ⟨hname, by rw [FileSystem.content, FileSystem.content, hname, hinodes]⟩

/-- Nobody else is between `enter` and `finish` for the hash. -/
theorem other_key (hflights : Flights (writing h) WritePhase.lead CacheRequest.key c)
    (ht : c.tasks i = some ⟨req, p⟩) {n : Nat} {stage : Stage}
    (hphase : (writing h).phaseOf i c.log = .leading n stage) {j : Nat}
    {t : Task CacheRequest Op Res CacheAnswer} (hji : j ≠ i) (hj : c.tasks j = some t)
    (hst : ((writing h).phaseOf j c.log).stage = some .renamed) : t.request.key ≠ req.key := by
  intro hkey
  obtain ⟨m, hm⟩ : ∃ m, ((writing h).phaseOf j c.log).lead = some m := by
    cases hp : (writing h).phaseOf j c.log with
    | leading m stage' => exact ⟨m, rfl⟩
    | _ =>
        rw [hp] at hst
        cases hst
  exact hji (hflights.unique hj ht hkey hm (by rw [hphase]; rfl))

/-- A writer publishes its file. -/
theorem Books.rename (hb : Books maxBytes c) (ht : c.tasks i = some ⟨req, p⟩)
    (hflights : Flights (writing h) WritePhase.lead CacheRequest.key c)
    (hkeys : ∀ hash e, c.store.disk.cache.index.find hash = some e → HexHash hash)
    (hok : ((writing h).phaseOf i c.log).ok h req
      (.disk (.rename (h.tmp req.key) (h.final req.key))))
    {fs : FileSystem Path} {bytes : Bytes}
    (hrename : c.store.disk.fs.rename (h.tmp req.key) (h.final req.key) = some fs)
    (hs : s.disk = { c.store.disk with fs := fs })
    (hcontent : c.store.disk.fs.content (h.tmp req.key) = some bytes)
    (hverified : Verified h req req.key bytes) :
    Books maxBytes (moved c i req
      ⟨.disk (.rename (h.tmp req.key) (h.final req.key)), .ok ()⟩ s p') := by
  obtain ⟨-, -, n, hphase⟩ := hok
  have hcache : s.disk.cache = c.store.disk.cache := by rw [hs]
  have hfs : s.disk.fs = fs := by rw [hs]
  have hstage : ((writing h).phaseOf i (⟨i, req,
      ⟨.disk (.rename (h.tmp req.key) (h.final req.key)), .ok ()⟩⟩ :: c.log)).stage =
        some .renamed := by
    rw [stage_moved, hphase]
    rfl
  have hun : Unrecorded (moved c i req
      ⟨.disk (.rename (h.tmp req.key) (h.final req.key)), .ok ()⟩ s p') req.key :=
    ⟨i, _, Function.update_self _ _ _, rfl, hstage⟩
  -- what was outstanding still is: this writer was not among them
  have hmono : ∀ hash, Unrecorded c hash → Unrecorded (moved c i req
      ⟨.disk (.rename (h.tmp req.key) (h.final req.key)), .ok ()⟩ s p') hash := by
    rintro hash ⟨j, t, hj, hkey, hst⟩
    have hji : j ≠ i := by
      rintro rfl
      rw [hphase] at hst
      cases hst
    exact ⟨j, t, (Function.update_of_ne hji _ _).trans hj, hkey,
      (congrArg WritePhase.stage (Typestate.phaseOf_cons_of_ne hji req _ c.log)).trans hst⟩
  have hne : ∀ hash, ¬Unrecorded (moved c i req
      ⟨.disk (.rename (h.tmp req.key) (h.final req.key)), .ok ()⟩ s p') hash → hash ≠ req.key := by
    rintro hash hnot rfl
    exact hnot hun
  obtain ⟨fs', hrename', hpublished⟩ := FileSystem.rename_of_content (h.final req.key) hcontent
  cases hrename.symm.trans hrename'
  refine ⟨hcache ▸ hb.booked, hcache ▸ hb.maxBytes_eq, ?_, ?_, ?_, ?_, ?_, ?_⟩
  · intro e he
    change e ∈ s.disk.cache.lru at he
    rw [hcache] at he
    exact hb.nonneg e he
  · intro hpos
    change s.disk.cache.bytesUsed ≤ maxBytes
    rw [hcache]
    exact hb.fits hpos
  · intro q m hq
    change s.disk.fs.names.find q = some m at hq
    rw [hfs] at hq
    by_cases hfin : q = h.final req.key
    · exact ⟨req.key, req.hex, .inr hfin⟩
    · by_cases htmp : q = h.tmp req.key
      · exact ⟨req.key, req.hex, .inl htmp⟩
      · refine hb.names q m ?_
        rw [← (FileSystem.frame_rename hrename).find_eq q (by simp [hfin, htmp])]
        exact hq
  · intro j t hj hst
    change ∃ bytes, s.disk.fs.content _ = some bytes ∧ _
    rw [hfs]
    rcases moved_cases hj with ⟨rfl, hreq⟩ | ⟨hji, hold, hphase'⟩
    · rw [hreq]
      exact ⟨bytes, hpublished, hverified.size_eq⟩
    · change ((writing h).phaseOf j _).stage = _ at hst
      rw [hphase'] at hst
      have hkey := other_key hflights ht hphase hji hold hst
      obtain ⟨bytes', hbytes', hsize'⟩ := hb.pending j t hold hst
      exact ⟨bytes', (content_renamed req.hex t.request.hex hkey hrename).2.trans hbytes', hsize'⟩
  · intro hash e hfind hnot
    change s.disk.cache.index.find hash = some e at hfind
    rw [hcache] at hfind
    obtain ⟨bytes', hbytes', hsize'⟩ := hb.file hash e hfind fun hU => hnot (hmono hash hU)
    refine ⟨bytes', ?_, hsize'⟩
    change s.disk.fs.content _ = _
    rw [hfs, (content_renamed req.hex (hkeys hash e hfind) (hne hash hnot) hrename).2]
    exact hbytes'
  · intro hash hhex hfound hnot
    change s.disk.fs.names.find _ ≠ none at hfound
    rw [hfs, (content_renamed req.hex hhex (hne hash hnot) hrename).1] at hfound
    obtain ⟨e, he⟩ := hb.entry hash hhex hfound fun hU => hnot (hmono hash hU)
    refine ⟨e, ?_⟩
    change s.disk.cache.index.find hash = some e
    rw [hcache]
    exact he

/-- What the bookkeeping of a `Put` does to the published files. -/
theorem commit_finals {d : Store} {key : Bytes} {size : Int} {kept : List Path}
    {gone : List Element}
    (hevicted : (d.cache.record key size (h.final key)).evictLocked.2 =
      (gone.map fun e => e.value.path).reverse)
    (hpaths : ∀ e ∈ gone, HexHash e.value.hash ∧ e.value.path = h.final e.value.hash)
    (hkept : ∀ q ∈ (d.cache.record key size (h.final key)).evictLocked.2, q ∈ kept →
      d.fs.names.find q = none) {hash : Bytes} (hhex : HexHash hash) :
    ((∃ e ∈ gone, e.value.hash = hash) ∧
        (d.commit key size (h.final key) kept).fs.names.find (h.final hash) = none) ∨
      ((∀ e ∈ gone, e.value.hash ≠ hash) ∧
        (d.commit key size (h.final key) kept).fs.names.find (h.final hash) =
          d.fs.names.find (h.final hash) ∧
        (d.commit key size (h.final key) kept).fs.content (h.final hash) =
          d.fs.content (h.final hash)) := by
  -- Distinct hashes have distinct final paths, so the paths evicted name their entries.
  have hmem : h.final hash ∈ (d.cache.record key size (h.final key)).evictLocked.2 ↔
      ∃ e ∈ gone, e.value.hash = hash := by
    rw [hevicted, List.mem_reverse, List.mem_map]
    constructor
    · rintro ⟨e, he, hpath⟩
      obtain ⟨hhex', hfinal⟩ := hpaths e he
      exact ⟨e, he, final_inj hhex' hhex (hfinal.symm.trans hpath)⟩
    · rintro ⟨e, he, rfl⟩
      exact ⟨e, he, (hpaths e he).2⟩
  have hfind : (d.commit key size (h.final key) kept).fs.names.find (h.final hash) =
      if h.final hash ∈ ((d.cache.record key size (h.final key)).evictLocked.2.filter
        fun q => q ∉ kept) then none else d.fs.names.find (h.final hash) :=
    Store.find_unlinkAll _ _ _
  by_cases hgone : ∃ e ∈ gone, e.value.hash = hash
  · refine .inl ⟨hgone, ?_⟩
    rw [hfind]
    split
    · rfl
    · rename_i hnot
      -- A path the removal had to keep had no name before it.
      have hev := hmem.2 hgone
      refine hkept _ hev ?_
      by_contra hk
      exact hnot (List.mem_filter.2 ⟨hev, by simpa using hk⟩)
  · have hnot : ∀ e ∈ gone, e.value.hash ≠ hash := fun e he hEq => hgone ⟨e, he, hEq⟩
    have hout : h.final hash ∉ ((d.cache.record key size (h.final key)).evictLocked.2.filter
        fun q => q ∉ kept) := fun hin => hgone (hmem.1 (List.mem_of_mem_filter hin))
    have hname : (d.commit key size (h.final key) kept).fs.names.find (h.final hash) =
        d.fs.names.find (h.final hash) := by rw [hfind, if_neg hout]
    refine .inr ⟨hnot, hname, ?_⟩
    have hframe := Store.frame_unlinkAll d.fs
      ((d.cache.record key size (h.final key)).evictLocked.2.filter fun q => q ∉ kept)
    cases hold : d.fs.names.find (h.final hash) with
    | none => simp only [FileSystem.content, hname, hold, Option.bind_none]
    | some n =>
        simp only [FileSystem.content, hname, hold, Option.bind_some]
        exact hframe.inode_eq n (d.fs.lt_of_find hold) (Set.notMem_empty n)

/-- A writer records its file, unless that hits another writer or a file stays. -/
theorem Books.commit (hb : Books maxBytes c) {size : Int} {kept : List Path}
    {k : Res (.disk (.commit req.key size (h.final req.key))) → Code CacheAnswer}
    (ht : c.tasks i =
      some ⟨req, some (.call (.disk (.commit req.key size (h.final req.key))) k)⟩)
    (hflights : Flights (writing h) WritePhase.lead CacheRequest.key c)
    (hlisted : c.store.disk.cache.Lists (Listable c.toWorld))
    (hok : ((writing h).phaseOf i c.log).ok h req
      (.disk (.commit req.key size (h.final req.key))))
    (hnot : ¬Strays c (.call i (.disk (.evict kept))))
    (hs : s.disk = c.store.disk.commit req.key size (h.final req.key) kept) :
    Books maxBytes (moved c i req ⟨.disk (.commit req.key size (h.final req.key)), ()⟩ s p') := by
  obtain ⟨-, -, hsize, n, hphase⟩ := hok
  have hrec := hb.booked.recorded req.key size (h.final req.key)
  have hcache : s.disk.cache =
      (c.store.disk.cache.record req.key size (h.final req.key)).evictLocked.1 := by
    rw [hs]
    rfl
  rw [← hcache] at hrec
  obtain ⟨gone, hsplit, hevicted, hevicts, -⟩ := hrec.gone
  -- every node before the eviction is a file of the cache
  have hnodes : ∀ e ∈ s.disk.cache.lru ++ gone,
      (e = ⟨c.store.disk.cache.nextId, ⟨req.key, size, h.final req.key⟩⟩ ∨
        (e ∈ c.store.disk.cache.lru ∧ e.value.hash ≠ req.key)) ∧
        HexHash e.value.hash ∧ e.value.path = h.final e.value.hash := by
    intro e he
    rw [← hsplit] at he
    rcases List.mem_cons.1 he with rfl | he
    · exact ⟨.inl rfl, req.hex, rfl⟩
    · obtain ⟨hmem, hne⟩ := Cache.mem_others.1 he
      obtain ⟨hhex, hpath, -⟩ := hlisted.lru e hmem
      exact ⟨.inr ⟨hmem, hne⟩, hhex, hpath⟩
  have hkept : ∀ q ∈ (c.store.disk.cache.record req.key size (h.final req.key)).evictLocked.2,
      q ∈ kept → c.store.disk.fs.names.find q = none := by
    intro q hq hk
    by_contra hne
    exact hnot (.inr (.inr ⟨i, req, _, size, _, kept, k, q, rfl, ht, hq, hk, hne⟩))
  have hfinals : ∀ hash, HexHash hash → _ := fun hash hhex =>
    commit_finals hevicted (fun e he => (hnodes e (List.mem_append_right _ he)).2) hkept hhex
  rw [← hs] at hfinals
  -- this writer is done, and nobody else writes the hash
  have hdone : ∀ j t, j ≠ i → c.tasks j = some t →
      ((writing h).phaseOf j c.log).stage = some .renamed → t.request.key ≠ req.key :=
    fun j t hji hj hst => other_key hflights ht hphase hji hj hst
  have hstage : ((writing h).phaseOf i (⟨i, req,
      ⟨.disk (.commit req.key size (h.final req.key)), ()⟩⟩ :: c.log)).stage = some .recorded := by
    rw [stage_moved, hphase]
    rfl
  have hmono : ∀ hash, hash ≠ req.key → Unrecorded c hash → Unrecorded (moved c i req
      ⟨.disk (.commit req.key size (h.final req.key)), ()⟩ s p') hash := by
    rintro hash hne ⟨j, t, hj, hkey, hst⟩
    have hji : j ≠ i := by
      rintro rfl
      cases ht.symm.trans hj
      exact hne hkey.symm
    exact ⟨j, t, (Function.update_of_ne hji _ _).trans hj, hkey,
      (congrArg WritePhase.stage (Typestate.phaseOf_cons_of_ne hji req _ c.log)).trans hst⟩
  obtain ⟨bytes, hbytes, hlength⟩ := hb.pending i _ ht (by rw [hphase]; rfl)
  obtain rfl : size = (bytes.length : Int) := Option.some.inj (hsize.symm.trans hlength)
  refine ⟨hrec.booked, hrec.maxBytes_eq.trans hb.maxBytes_eq, ?_, ?_, ?_, ?_, ?_, ?_⟩
  · intro e he
    rcases (hnodes e (List.mem_append_left _ he)).1 with rfl | ⟨hmem, -⟩
    · exact Int.natCast_nonneg _
    · exact hb.nonneg e hmem
  · intro hpos
    rw [← hb.maxBytes_eq] at hpos ⊢
    change s.disk.cache.bytesUsed ≤ _
    rw [hrec.booked.bytes]
    exact (hevicts hpos).fits
  · intro q m hq
    refine hb.names q m ?_
    change s.disk.fs.names.find q = some m at hq
    rw [hs, Store.commit, Store.find_unlinkAll] at hq
    split at hq
    · cases hq
    · exact hq
  · intro j t hj hst
    change ((writing h).phaseOf j _).stage = _ at hst
    rcases moved_cases hj with ⟨rfl, -⟩ | ⟨hji, hold, hphase'⟩
    · rw [hstage] at hst
      cases hst
    · rw [hphase'] at hst
      obtain ⟨bytes', hbytes', hsize'⟩ := hb.pending j t hold hst
      refine ⟨bytes', ?_, hsize'⟩
      rcases hfinals t.request.key t.request.hex with ⟨⟨e, he, hhash⟩, -⟩ | ⟨-, -, hcontent⟩
      · refine absurd (.inr (.inl ?_)) hnot
        refine ⟨i, req, _, _, _, kept, k, t.request.key, rfl, ht, hdone j t hji hold hst, ?_,
          j, t, hold, rfl, hst⟩
        rw [evictedBy, hevicted, List.mem_reverse, List.mem_map, ← hhash]
        exact ⟨e, he, (hnodes e (List.mem_append_right _ he)).2.2⟩
      · exact hcontent.trans hbytes'
  · intro hash e hfind hun
    obtain ⟨hmem, rfl⟩ := hrec.booked.entry hash e hfind
    obtain ⟨hnode, hhex, -⟩ := hnodes e (List.mem_append_left _ hmem)
    rcases hfinals e.value.hash hhex with ⟨⟨g, hg, hhash⟩, -⟩ | ⟨-, -, hcontent⟩
    · exact absurd hhash.symm (hb.booked.gone_ne hsplit hmem hg)
    · change ∃ bytes, s.disk.fs.content _ = _ ∧ _
      rw [hcontent]
      rcases hnode with rfl | ⟨hold, hne⟩
      · exact ⟨bytes, hbytes, rfl⟩
      · exact hb.file _ e (hb.booked.node e hold) fun hU => hun (hmono _ hne hU)
  · intro hash hhex hfound hun
    change s.disk.fs.names.find _ ≠ none at hfound
    rcases hfinals hash hhex with ⟨-, hnone⟩ | ⟨hstay, hname, -⟩
    · exact absurd hnone hfound
    · -- its node was there before the eviction, and it was not evicted
      have hnode : ∃ e ∈ s.disk.cache.lru ++ gone, e.value.hash = hash := by
        rw [← hsplit]
        by_cases hkey : hash = req.key
        · exact ⟨_, List.mem_cons_self, hkey.symm⟩
        · rw [hname] at hfound
          obtain ⟨e, he⟩ := hb.entry hash hhex hfound fun hU => hun (hmono hash hkey hU)
          obtain ⟨hmem, rfl⟩ := hb.booked.entry hash e he
          exact ⟨e, List.mem_cons_of_mem _ (Cache.mem_others.2 ⟨hmem, hkey⟩), rfl⟩
      obtain ⟨e, he, rfl⟩ := hnode
      rcases List.mem_append.1 he with he | he
      · exact ⟨e, hrec.booked.node e he⟩
      · exact absurd rfl (hstay e he)

end Step

section Runs

variable {maxBytes : Int} {found : FoundDisk} {tr : List (CacheTransition h)} {c c' : CachePool h}

/-- A task that is started or dropped leaves the books alone. -/
theorem Books.setTask (hb : Books maxBytes c) {i : Nat} {t : Task CacheRequest Op Res CacheAnswer}
    (hstage : ((writing h).phaseOf i c.log).stage = some .renamed →
      ∃ t', c.tasks i = some t' ∧ t'.request = t.request)
    (hold : ∀ t', c.tasks i = some t' → t'.request = t.request) :
    Books maxBytes (c.setTask i t) := by
  have htasks : ∀ j t', (c.setTask i t).tasks j = some t' →
      ((writing h).phaseOf j c.log).stage = some .renamed →
        ∃ t'', c.tasks j = some t'' ∧ t''.request = t'.request := by
    intro j t' hj hst
    change Function.update c.tasks i (some t) j = some t' at hj
    by_cases hji : j = i
    · subst hji
      rw [Function.update_self] at hj
      cases hj
      exact hstage hst
    · rw [Function.update_of_ne hji] at hj
      exact ⟨t', hj, rfl⟩
  have hmono : ∀ hash, Unrecorded c hash → Unrecorded (c.setTask i t) hash := by
    rintro hash ⟨j, t', hj, hkey, hst⟩
    by_cases hji : j = i
    · subst hji
      exact ⟨j, t, Function.update_self _ _ _, by rw [← hold t' hj, hkey], hst⟩
    · exact ⟨j, t', (Function.update_of_ne hji _ _).trans hj, hkey, hst⟩
  refine { hb with
    pending := ?_
    file := fun hash e hfind hun => hb.file hash e hfind fun hU => hun (hmono hash hU)
    entry := fun hash hhex hne hun => hb.entry hash hhex hne fun hU => hun (hmono hash hU) }
  intro j t' hj hst
  obtain ⟨t'', ht'', hreq⟩ := htasks j t' hj hst
  rw [← hreq]
  exact hb.pending j t'' ht'' hst

/-- One step that does not stray. -/
theorem Books.step (hb : Books maxBytes c) (hrun : CacheRun h maxBytes found tr c) {a : CacheStep}
    (hstep : c.step (callCode h) (exec h) a = some c') (hnot : ¬Strays c a) :
    Books maxBytes c' := by
  rcases Pool.step_cases hstep with ⟨i, req, rfl, ht, rfl⟩ |
    ⟨i, e, req, o, k, s, r, rfl, ht, he, rfl⟩ | ⟨i, req, p, rfl, ht, rfl⟩
  -- A request that arrives has no pending rename yet.
  · refine hb.setTask ?_ ?_
    · intro hst
      rw [Typestate.phaseOf_eq_start (hrun.conformsTo.unused i ht)] at hst
      cases hst
    · intro t' ht'
      rw [ht] at ht'
      cases ht'
  · obtain ⟨hpre, hok⟩ := hrun.pre ht
    have hinv := hrun.secure.1
    have hkeys : ∀ hash e, c.store.disk.cache.index.find hash = some e → HexHash hash :=
      fun hash e hfind => (hinv.listed.index hash e hfind).1
    -- What a call can do to the books is one of five things; each has its own lemma.
    have hdoes := does_of_exec hinv hpre hok he
    cases hdoes with
    | quiet hcache hnames hfinals hcall => exact hb.quiet ht hkeys hok hcall hcache hnames hfinals
    | index _ hs => exact hb.index ht hkeys hs
    -- `hnot` rules out the drop that hits a newer entry of the same path.
    | dropStale hsize hs =>
        cases e with
        | quiet => exact hb.dropStale hsize ht hinv.listed (fun hd => hnot (.inl hd)) hs
        | _ => cases he
    | rename hrename hs hcontent hverified =>
        exact hb.rename ht hrun.flights hkeys hok hrename hs hcontent hverified
    | commit hsize hs =>
        cases e with
        | disk e =>
            cases e with
            | evict kept =>
                cases he
                exact hb.commit ht hrun.flights hinv.listed hok hnot rfl
            | _ => cases he
        | _ => cases he
  · refine hb.setTask ?_ ?_
    · intro _
      exact ⟨_, ht, rfl⟩
    · intro t' ht'
      rw [ht] at ht'
      cases ht'
      rfl

theorem books_of_run (hrun : CacheRun h maxBytes emptyDisk tr c)
    (hall : ∀ st ∈ tr, ¬Strays st.1 st.2.1) : Books maxBytes c := by
  induction hrun with
  | nil => exact .start maxBytes
  | snoc hrun hstep ih =>
      refine (ih ?_).step hrun hstep ?_
      · intro st hst
        exact hall st (List.mem_append_left _ hst)
      · exact hall _ (List.mem_append_right _ List.mem_cons_self)

/-! ## At rest -/

theorem not_unrecorded_of_finished (hrun : CacheRun h maxBytes found tr c) (hfin : c.Finished)
    (hash : Bytes) : ¬Unrecorded c hash := by
  rintro ⟨i, t, ht, -, hst⟩
  rcases t with ⟨req, prog⟩
  obtain ⟨a, rfl⟩ := hfin i _ ht
  have hlead : ((writing h).phaseOf i c.log).lead = none :=
    (hrun.conformsTo.follows i req _ ht).1
  cases hphase : (writing h).phaseOf i c.log with
  | leading n stage =>
      rw [hphase] at hlead
      cases hlead
  | _ =>
      rw [hphase] at hst
      cases hst

theorem isFinal_final {hash : Bytes} (hhex : HexHash hash) : isFinal (h.final hash) = true := by
  unfold isFinal
  rw [getLast?_final hhex, Option.getD_some, List.isSuffixOf_iff_suffix]
  exact List.suffix_append _ _

theorem not_isFinal_tmp {hash : Bytes} (hhex : HexHash hash) : isFinal (h.tmp hash) = false := by
  unfold isFinal
  rw [getLast?_tmp hhex, Option.getD_some]
  by_contra htrue
  rw [Bool.not_eq_false, List.isSuffixOf_iff_suffix] at htrue
  have hEq : lit ".bin" = lit ".tmp" :=
    (List.suffix_of_suffix_length_le htrue (List.suffix_append _ _) (by decide)).eq_of_length rfl
  revert hEq
  decide

/-- The published files and the entries, when no bookkeeping is outstanding. -/
theorem Books.final_iff (hb : Books maxBytes c) (hnone : ∀ hash, ¬Unrecorded c hash)
    (hlisted : c.store.disk.cache.Lists (Listable c.toWorld)) (q : Path) :
    (isFinal q = true ∧ c.store.disk.fs.names.find q ≠ none) ↔
      ∃ e ∈ c.store.disk.cache.lru, e.value.path = q := by
  constructor
  · rintro ⟨hfinal, hfound⟩
    obtain ⟨n, hn⟩ := Option.ne_none_iff_exists'.1 hfound
    obtain ⟨hash, hhex, rfl | rfl⟩ := hb.names q n hn
    · rw [not_isFinal_tmp hhex] at hfinal
      cases hfinal
    · obtain ⟨e, he⟩ := hb.entry hash hhex hfound (hnone hash)
      exact ⟨e, (hb.booked.entry hash e he).1, (hlisted.index hash e he).2.1⟩
  · rintro ⟨e, he, rfl⟩
    obtain ⟨hhex, hpath, -⟩ := hlisted.lru e he
    obtain ⟨bytes, hbytes, -⟩ := hb.file _ e (hb.booked.node e he) (hnone _)
    rw [hpath]
    refine ⟨isFinal_final hhex, ?_⟩
    intro hfind
    simp [FileSystem.content, hfind] at hbytes

/-- The bytes that are counted are the bytes on disk. -/
theorem Books.usage_eq (hb : Books maxBytes c) (hnone : ∀ hash, ¬Unrecorded c hash)
    (hlisted : c.store.disk.cache.Lists (Listable c.toWorld)) :
    c.store.disk.cache.bytesUsed = diskUsage c.store.disk.fs := by
  have hsizes : ∀ e ∈ c.store.disk.cache.lru, e.value.size =
      (((c.store.disk.fs.content e.value.path).getD []).length : Int) := by
    intro e he
    obtain ⟨bytes, hbytes, hsize⟩ := hb.file _ e (hb.booked.node e he) (hnone _)
    rw [(hlisted.lru e he).2.1, hbytes, hsize]
    rfl
  have hrows : ∀ r ∈ c.store.disk.fs.names.rows,
      (((c.store.disk.fs.inodes[r.2]?).getD []).length : Int) =
        (((c.store.disk.fs.content r.1).getD []).length : Int) := by
    rintro ⟨q, n⟩ hr
    rw [FileSystem.content, Table.find_eq_some_iff.2 hr]
    rfl
  -- Both lists name the same files, each once.
  have hperm : (c.store.disk.cache.lru.map fun e => e.value.path).Perm
      ((c.store.disk.fs.names.rows.filter fun r => isFinal r.1).map Prod.fst) := by
    refine (List.perm_ext_iff_of_nodup ?_ ?_).2 ?_
    · refine List.Nodup.map_on ?_ hb.booked.ids.of_map
      intro e he n hn hpath
      obtain ⟨hhex, hfinal, -⟩ := hlisted.lru e he
      obtain ⟨hhex', hfinal', -⟩ := hlisted.lru n hn
      rw [hfinal, hfinal'] at hpath
      exact hb.booked.hash_inj he hn (final_inj hhex hhex' hpath)
    · exact (List.Sublist.map _ List.filter_sublist).nodup c.store.disk.fs.names.nodupKeys
    · intro q
      rw [List.mem_map, ← hb.final_iff hnone hlisted q, List.mem_map]
      constructor
      · rintro ⟨hfinal, hfound⟩
        obtain ⟨n, hn⟩ := Option.ne_none_iff_exists'.1 hfound
        exact ⟨(q, n), List.mem_filter.2 ⟨Table.find_eq_some_iff.1 hn, hfinal⟩, rfl⟩
      · rintro ⟨⟨q', n⟩, hr, rfl⟩
        obtain ⟨hmem, hfinal⟩ := List.mem_filter.1 hr
        refine ⟨hfinal, ?_⟩
        rw [Table.find_eq_some_iff.2 hmem]
        exact Option.some_ne_none n
  calc
    c.store.disk.cache.bytesUsed = total c.store.disk.cache.lru := hb.booked.bytes
    _ = ((c.store.disk.cache.lru.map fun e => e.value.path).map fun q =>
          (((c.store.disk.fs.content q).getD []).length : Int)).sum := by
        rw [total, List.map_map]
        exact congrArg List.sum (List.map_congr_left hsizes)
    _ = (((c.store.disk.fs.names.rows.filter fun r => isFinal r.1).map Prod.fst).map fun q =>
          (((c.store.disk.fs.content q).getD []).length : Int)).sum := (hperm.map _).sum_eq
    _ = diskUsage c.store.disk.fs := by
        rw [diskUsage, List.map_map]
        refine congrArg List.sum (List.map_congr_left ?_)
        intro r hr
        exact (hrows r (List.mem_of_mem_filter hr)).symm

/-- In a run without stray steps disk and index agree whenever no call is in progress. -/
theorem consistent_of_run (hrun : CacheRun h maxBytes emptyDisk tr c)
    (hall : ∀ st ∈ tr, ¬Strays st.1 st.2.1) (hfin : c.Finished) :
    Consistent maxBytes c.store.disk := by
  have hb := books_of_run hrun hall
  have hnone := not_unrecorded_of_finished hrun hfin
  have hlisted := hrun.secure.1.listed
  have husage := hb.usage_eq hnone hlisted
  refine ⟨?_, ?_, husage, ?_⟩
  · intro q bytes hfinal hbytes
    have hfound : c.store.disk.fs.names.find q ≠ none := by
      intro hq
      simp [FileSystem.content, hq] at hbytes
    obtain ⟨e, he, rfl⟩ := (hb.final_iff hnone hlisted q).1 ⟨hfinal, hfound⟩
    have hfind := hb.booked.node e he
    obtain ⟨bytes', hbytes', hsize⟩ := hb.file _ e hfind (hnone _)
    rw [(hlisted.lru e he).2.1, hbytes'] at hbytes
    cases hbytes
    exact ⟨_, e, hfind, rfl, hsize⟩
  · intro hash e hfind
    obtain ⟨bytes, hbytes, -⟩ := hb.file hash e hfind (hnone hash)
    rw [(hlisted.index hash e hfind).2.1]
    exact ⟨bytes, hbytes⟩
  · intro hpos
    rw [← husage]
    exact hb.fits hpos

end Runs

/-! ## An `Open` that comes too late -/

section Samples

variable {h : Handlers}

/-- A step that drops nothing and evicts nothing; such a step does not stray. -/
def staysCheck (c : CachePool h) : CacheStep → Bool
  | .call i _ =>
      match c.tasks i with
      | some ⟨_, some (.call (.dropStale _ _) _)⟩ => false
      | some ⟨_, some (.call (.disk (.commit hash size path)) _)⟩ =>
          (evictedBy c hash size path).isEmpty
      | _ => true
  | _ => true

theorem not_strays_of_check (c : CachePool h) (a : CacheStep) (hcheck : staysCheck c a = true) :
    ¬Strays c a := by
  rintro (⟨i, req, hash, path, k, e, rfl, ht, -⟩ |
    ⟨i, req, hash, size, path, kept, k, other, rfl, ht, -, hmem, -⟩ |
    ⟨i, req, hash, size, path, kept, k, q, rfl, ht, hmem, -⟩)
  · simp [staysCheck, ht] at hcheck
  · simp only [staysCheck, ht, List.isEmpty_iff] at hcheck
    rw [hcheck] at hmem
    cases hmem
  · simp only [staysCheck, ht, List.isEmpty_iff] at hcheck
    rw [hcheck] at hmem
    cases hmem

end Samples

/-- A `Put` and an `Open` of the xorb it wrote. -/
theorem consistent_of_run_written :
    ∃ tr c, CacheRun sampleHandlers 3 emptyDisk tr c ∧ c.Finished ∧
      Consistent 3 c.store.disk ∧ c.store.disk.cache.bytesUsed = 3 := by
  have heval : ((Pool.init (State.new sampleHandlers 3 emptyDisk)).runChecked
      (callCode sampleHandlers) (exec sampleHandlers) staysCheck
      (.spawn 0 (.put sampleKey 3 ⟨[[1, 2, 3]], none⟩) :: .spawn 1 (.cacheOpen sampleKey) ::
        (cacheCallsOf 0 writtenEnvs ++ cacheCallsOf 1 [.quiet, .quiet]))).map
      (fun c => c.allEnded 2 && decide (c.store.disk.cache.bytesUsed = 3)) = some true := by
    decide +kernel
  obtain ⟨tr, c, hrun, hall, hfinished, hP⟩ :=
    exists_finished_path heval (fun _ => rfl) (by decide +kernel) not_strays_of_check
  exact ⟨tr, c, hrun, hfinished, consistent_of_run hrun hall hfinished, of_decide_eq_true hP⟩

/-- The digest of the bytes 4, 5 and 6, and its text. -/
def otherDigest : Hash :=
  ⟨[234, 134, 164, 107, 118, 234, 123, 239, 79, 41, 47, 148, 110, 225, 0, 123,
    221, 62, 187, 180, 54, 2, 188, 118, 165, 109, 188, 170, 72, 69, 78, 11], rfl⟩

def otherKey : Key :=
  ⟨lit "ef7bea766ba486ea7b00e16e942f294f76bc0236b4bb3edd0b4e4548aabc6da5", rfl, rfl⟩

def twoXorbHandlers : Handlers :=
  { sampleHandlers with
    blake3 := fun key message =>
      if key = dataKey ∧ message = [4, 5, 6] then otherDigest else threeBytesBlake3 key message }

/-- Call 1 finds the entry of the first xorb.  Before it opens the file, the second xorb takes its
place; before it drops the entry, the first one is written again. -/
def lateDrop : List CacheStep :=
  [.spawn 0 (.put sampleKey 3 ⟨[[1, 2, 3]], none⟩), .spawn 1 (.cacheOpen sampleKey),
      .spawn 2 (.put otherKey 3 ⟨[[4, 5, 6]], none⟩),
      .spawn 3 (.put sampleKey 3 ⟨[[1, 2, 3]], none⟩)] ++
    cacheCallsOf 0 writtenEnvs ++ cacheCallsOf 1 [.quiet] ++ cacheCallsOf 2 writtenEnvs ++
    cacheCallsOf 1 [.quiet] ++ cacheCallsOf 3 writtenEnvs ++ cacheCallsOf 1 [.quiet]

/-- The file of the first xorb is there, and the index is empty. -/
theorem not_consistent_lateDrop :
    ¬∀ (h : Handlers) (maxBytes : Int) (tr : List (CacheTransition h)) (c : CachePool h),
      CacheRun h maxBytes emptyDisk tr c → c.Finished → Consistent maxBytes c.store.disk := by
  intro hclaim
  have heval : ((Pool.init (State.new twoXorbHandlers 3 emptyDisk)).runChecked
      (callCode twoXorbHandlers) (exec twoXorbHandlers) (fun _ _ => true) lateDrop).map
      (fun c => c.allEnded 4 && (decide (c.store.disk.cache.index.rows.map Prod.fst = []) &&
        decide (c.store.disk.fs.content (twoXorbHandlers.final sampleHash) = some [1, 2, 3]))) =
      some true := by
    decide +kernel
  obtain ⟨tr, c, hrun, -, hfinished, hP⟩ : ∃ tr c, CacheRun twoXorbHandlers 3 emptyDisk tr c ∧
      (∀ st ∈ tr, True) ∧ _ := exists_finished_path heval (fun _ => rfl) (by decide +kernel)
        fun _ _ _ => trivial
  rw [Bool.and_eq_true] at hP
  obtain ⟨hindex, hcontent⟩ := hP
  have hconsistent := hclaim _ _ tr c hrun hfinished
  obtain ⟨hash, e, hfind, -⟩ := hconsistent.entry_of_file _ _ (isFinal_final sampleKey.hex)
    (of_decide_eq_true hcontent)
  have hmem := List.mem_map_of_mem (f := Prod.fst) (Table.find_eq_some_iff.1 hfind)
  rw [of_decide_eq_true hindex] at hmem
  cases hmem

end Serving

end Gateway
end OpenWeights
