import OpenWeights.Gateway.Delivery
import OpenWeights.Gateway.Lru

/-!
# Insertion — what a successful `Put` is good for

`Put` links its entry in front and evicts from the back until the budget holds again.  When the
body alone is larger than the budget, everything else goes first and then the entry itself: `Put`
returns the path of a file it has just removed, and the `Open` after a coalesced fetch finds
nothing.  In every other case the next `Open` hits (`put_servable`).
-/

namespace OpenWeights
namespace Gateway

open Lib Db OpenWeights.Core

/-! ## Digests are hex -/

theorem all_hexEncode (bytes : Bytes) : (hexEncode bytes).all isHexLower = true := by
  have hdigit : ∀ n < 16, isHexLower (hexDigit n) = true := by decide
  rw [List.all_eq_true]
  intro c hc
  obtain ⟨b, -, hb⟩ := List.mem_flatMap.1 hc
  have hlt := b.toNat_lt
  simp only [List.mem_cons, List.not_mem_nil, or_false] at hb
  rcases hb with rfl | rfl
  · exact hdigit _ (by omega)
  · exact hdigit _ (by omega)

/-- What the hash gate lets through is a hash in the verifier's sense. -/
theorem hexHash_digestToHex (d : Hash) : HexHash (digestToHex d) := by
  refine ⟨length_digestToHex d, ?_⟩
  simp only [digestToHex, digestGroupHex, List.all_append, all_hexEncode, Bool.and_self]

/-! ## A `Put` that succeeds -/

/-- Success. -/
def Lands {ε α : Type} (r : Except ε α) : Prop :=
  ∃ a, r = .ok a

theorem not_lands_error {ε α : Type} (e : ε) : ¬Lands (.error e : Except ε α) := nofun

section Put

variable {blake3 : Blake3} {dir hash : Bytes} {size : Int} {src : Reader} {final tmp : Path}
  {fd : Nat}

theorem strict_copyTee (err : Option IoError) (hasher : MerkleHasher) (written : Nat)
    (blocks : List Bytes) : (copyTee fd err hasher written blocks).Strict Faultless Lands := by
  induction blocks generalizing hasher written with
  | nil =>
      unfold copyTee
      split <;> trivial
  | cons block rest ih =>
      unfold copyTee
      split
      · exact ih hasher written
      · apply Prog.Strict.perform_bind
        · rintro (e | _) hr
          · exact not_lands_error e
          · exact absurd rfl hr
        · rintro (e | _)
          · trivial
          · exact ih _ _

theorem strict_publish (hasher : MerkleHasher) :
    (publish blake3 hash size final tmp hasher).Strict Faultless Lands := by
  unfold publish
  simp only
  split
  · exact Prog.Strict.perform_bind (fun _ hr => absurd trivial hr) fun _ => trivial
  · apply Prog.Strict.perform_bind
    · rintro (e | _) hr
      · exact fun _ => not_lands_error _
      · exact absurd rfl hr
    · rintro (e | _)
      · exact Prog.Strict.perform_bind (fun _ hr => absurd trivial hr) fun _ => trivial
      · exact Prog.Strict.perform_bind (fun _ hr => absurd trivial hr) fun _ => trivial

theorem ends_cleanupTmp (e : PutError) :
    (do
      cleanupTmp fd tmp
      pure (.error e : Except PutError Path) : Gateway.Code (Except PutError Path)).Ends
        fun a => ¬Lands a :=
  fun _ _ => not_lands_error e

theorem strict_cleanupTmp (e : PutError) :
    (do
      cleanupTmp fd tmp
      pure (.error e : Except PutError Path) : Gateway.Code (Except PutError Path)).Strict
        Faultless Lands :=
  Prog.Strict.perform_bind (fun _ _ => fun _ => not_lands_error e)
    fun _ => Prog.Strict.perform_bind (fun _ _ => not_lands_error e) fun _ => trivial

theorem strict_fill :
    (fill blake3 hash size src final tmp fd).Strict Faultless Lands := by
  unfold fill
  refine (strict_copyTee src.err .new 0 src.blocks).bind ?_ ?_
  · rintro (e | copied) hr
    · exact ends_cleanupTmp _
    · exact absurd ⟨copied, rfl⟩ hr
  · rintro (e | ⟨hasher, written⟩)
    · exact strict_cleanupTmp _
    · simp only
      split
      · exact strict_cleanupTmp _
      · apply Prog.Strict.perform_bind
        · rintro (e | _) hr
          · exact ends_cleanupTmp _
          · exact absurd rfl hr
        · rintro (e | _)
          · exact strict_cleanupTmp _
          · apply Prog.Strict.perform_bind
            · rintro (e | _) hr
              · exact fun _ => not_lands_error _
              · exact absurd rfl hr
            · rintro (e | _)
              · exact Prog.Strict.perform_bind (fun _ hr => absurd trivial hr) fun _ => trivial
              · exact strict_publish hasher

/-- Every failed operation fails `Put`, but for the removal of a stale file. -/
theorem strict_put : (put blake3 dir hash size src).Strict Faultless Lands := by
  unfold put
  split
  · trivial
  · split
    · trivial
    · apply Prog.Strict.perform_bind
      · rintro (e | _) hr
        · exact not_lands_error _
        · exact absurd rfl hr
      · rintro (e | _)
        · trivial
        · refine Prog.Strict.perform_bind (fun _ hr => absurd trivial hr) fun _ => ?_
          apply Prog.Strict.perform_bind
          · rintro (e | fd) hr
            · exact not_lands_error _
            · exact absurd ⟨fd, rfl⟩ hr
          · rintro (e | fd)
            · trivial
            · exact strict_fill

/-- What `Put` has checked when it succeeds. -/
structure Accepted (blake3 : Blake3) (hash : Bytes) (size : Int) (src : Reader) : Prop where
  err_eq : src.err = none
  size_eq : size = src.blocks.flatten.length
  digest : merkleHashHex blake3 src.blocks.flatten = hash

theorem Accepted.hex (h : Accepted blake3 hash size src) : HexHash hash := by
  rw [← h.digest]
  exact hexHash_digestToHex _

theorem ends_copyTee (err : Option IoError) (hasher : MerkleHasher) (written : Nat)
    (blocks : List Bytes) :
    (copyTee fd err hasher written blocks).Ends fun r => ∀ hasher' written',
      r = .ok (hasher', written') → err = none ∧ hasher' = hasher.write blocks.flatten ∧
        written' = written + blocks.flatten.length := by
  induction blocks generalizing hasher written with
  | nil =>
      unfold copyTee
      split
      · intro hasher' written' hEq
        cases hEq
        exact ⟨rfl, by simp [MerkleHasher.write], rfl⟩
      · intro hasher' written' hEq
        cases hEq
  | cons block rest ih =>
      unfold copyTee
      split
      · rename_i hempty
        simpa [hempty] using ih hasher written
      · rintro (e | _)
        · intro hasher' written' hEq
          cases hEq
        · refine (ih (hasher.write block) (written + block.length)).mono ?_
          intro r hr hasher' written' hEq
          obtain ⟨herr, hhasher, hwritten⟩ := hr hasher' written' hEq
          refine ⟨herr, ?_, ?_⟩
          · simp [hhasher, MerkleHasher.write]
          · simp [hwritten, Nat.add_assoc]

theorem ends_publish {P : Prop} (hasher : MerkleHasher) (hP : hasher.hex blake3 = hash → P) :
    (publish blake3 hash size final tmp hasher).Ends fun r =>
      ∀ path, r = .ok path → path = final ∧ P := by
  unfold publish
  simp only
  split
  · exact fun _ => nofun
  · rename_i hgate
    rintro (e | _)
    · exact fun _ => nofun
    · rintro _ path hEq
      cases hEq
      exact ⟨rfl, hP (not_not.1 hgate)⟩

theorem ends_fill :
    (fill blake3 hash size src final tmp fd).Ends fun r =>
      ∀ path, r = .ok path → path = final ∧ Accepted blake3 hash size src := by
  unfold fill
  refine (ends_copyTee src.err .new 0 src.blocks).bind ?_
  rintro (e | ⟨hasher, written⟩) hcopied
  · exact fun _ _ => nofun
  · obtain ⟨herr, rfl, rfl⟩ := hcopied hasher written rfl
    simp only
    split
    · exact fun _ _ => nofun
    · rename_i hsize
      rintro (e | _)
      · exact fun _ _ => nofun
      · rintro (e | _)
        · exact fun _ => nofun
        · refine ends_publish _ fun hgate => ⟨herr, ?_, hgate⟩
          omega

/-- `Put` succeeds only with a body whose size and digest are right. -/
theorem ends_put :
    (put blake3 dir hash size src).Ends fun r =>
      ∀ path, r = .ok path → path = pathFor dir hash ∧ Accepted blake3 hash size src := by
  unfold put
  split
  · exact nofun
  · split
    · exact nofun
    · rintro (e | _)
      · exact nofun
      · intro _
        rintro (e | fd)
        · exact nofun
        · exact ends_fill

/-- A `Put` that succeeds, run alone. -/
theorem landed_of_runs {s s' : Store} {cs : List (Call Gateway.Op Gateway.Res)} {path : Path}
    (hrun : Runs Gateway.exec (put blake3 dir hash size src) s cs s' (.ok path)) :
    path = pathFor dir hash ∧ Accepted blake3 hash size src ∧
      Landed hash size (pathFor dir hash) (tmpFor dir hash) src.blocks.flatten s s' := by
  obtain ⟨hpath, haccepted⟩ := hrun.post_of_ends ends_put path rfl
  obtain ⟨blocks, err⟩ := src
  obtain rfl : err = none := haccepted.err_eq
  have hfaultless := hrun.calls_ok strict_put ⟨path, rfl⟩
  have hensures := ensures_put_lands blake3 dir blocks s haccepted.hex.1 haccepted.size_eq
  have hlands := hensures.post_of_runs hrun hfaultless
  rw [PutLands, if_pos haccepted.digest] at hlands
  exact ⟨hpath, haccepted, hlands.2⟩

end Put

namespace Cache

/-! ## Room for an entry -/

/-- The budget has room for a body of this size; a budget of zero or less has no bound. -/
def HasRoom (maxBytes size : Int) : Prop :=
  maxBytes ≤ 0 ∨ size ≤ maxBytes

/-- What the cache may list: the file of a hash, of some size. -/
def Filed (h : Handlers) (hash : Bytes) (e : CacheEntry) : Prop :=
  HexHash hash ∧ e.path = h.final hash ∧ 0 ≤ e.size

theorem Filed.new {h : Handlers} {hash : Bytes} {size : Int} (hhex : HexHash hash) (hsize : 0 ≤ size) :
    Filed h hash ⟨hash, size, h.final hash⟩ :=
  ⟨hhex, rfl, hsize⟩

theorem total_nonneg {nodes : List Element} (h : ∀ e ∈ nodes, 0 ≤ e.value.size) : 0 ≤ total nodes := by
  apply List.sum_nonneg
  intro n hn
  obtain ⟨e, he, rfl⟩ := List.mem_map.1 hn
  exact h e he

section Record

variable {h : Handlers} {c : Cache} {hash : Bytes} {size : Int} {path : Path}

/-- With room the new entry stays in front. -/
theorem Booked.recorded_of_hasRoom (hb : c.Booked) (hash : Bytes) (path : Path)
    (hroom : HasRoom c.maxBytes size) :
    ∃ rest, (c.record hash size path).evictLocked.1.lru =
      ⟨c.nextId, ⟨hash, size, path⟩⟩ :: rest := by
  obtain ⟨gone, hsplit, -, hevicts, hunbounded⟩ := (hb.recorded hash size path).gone
  generalize (c.record hash size path).evictLocked.1.lru = kept at hsplit hevicts
  cases kept with
  | cons e rest =>
      obtain ⟨rfl, -⟩ := List.cons.inj hsplit
      exact ⟨rest, rfl⟩
  | nil =>
      -- the list of the new entry alone would fit
      by_cases hpos : 0 < c.maxBytes
      · have hle : size ≤ c.maxBytes := hroom.resolve_left (by omega)
        have hfront := (hevicts hpos).shortest [⟨c.nextId, ⟨hash, size, path⟩⟩] (c.others hash)
          hsplit.symm (by simpa using hle)
        simp at hfront
      · rw [hunbounded (by omega)] at hsplit
        cases hsplit

/-- Without room nothing stays. -/
theorem Booked.recorded_of_not_hasRoom (hb : c.Booked) (hlists : c.Lists (Filed h))
    (hroom : ¬HasRoom c.maxBytes size) : (c.record hash size path).evictLocked.1.lru = [] := by
  obtain ⟨hunbounded, hover⟩ := not_or.1 hroom
  obtain ⟨gone, hsplit, -, hevicts, -⟩ := (hb.recorded hash size path).gone
  have hfits := (hevicts (by omega)).fits
  generalize (c.record hash size path).evictLocked.1.lru = kept at hsplit hfits
  cases kept with
  | nil => rfl
  | cons e rest =>
      obtain ⟨rfl, hothers⟩ := List.cons.inj hsplit
      -- the new entry alone is too large, and the others are not smaller than nothing
      have hrest : 0 ≤ total rest := by
        apply total_nonneg
        intro n hn
        have hmem : n ∈ c.others hash := hothers ▸ List.mem_append_left gone hn
        exact (hlists.lru n (mem_others.1 hmem).1).2.2
      rw [total_cons] at hfits
      dsimp only at hfits
      omega

/-- No file of an entry that stays is removed. -/
theorem Booked.not_evicted (hb : c.Booked) (hlists : c.Lists (Filed h))
    (hnew : Filed h hash ⟨hash, size, path⟩) {e : Element}
    (he : e ∈ (c.record hash size path).evictLocked.1.lru) :
    e.value.path ∉ (c.record hash size path).evictLocked.2 := by
  have hrecorded := hb.recorded hash size path
  obtain ⟨gone, hsplit, hevicted, -⟩ := hrecorded.gone
  have hfiled : ∀ n, n ∈ (c.record hash size path).evictLocked.1.lru ++ gone →
      Filed h n.value.hash n.value := by
    intro n hn
    rw [← hsplit] at hn
    rcases List.mem_cons.1 hn with rfl | hn
    · exact hnew
    · exact hlists.lru n (mem_others.1 hn).1
  obtain ⟨hhex, hpath, -⟩ := hfiled e (List.mem_append_left gone he)
  intro hmem
  rw [hevicted, List.mem_reverse] at hmem
  obtain ⟨n, hn, hEq⟩ := List.mem_map.1 hmem
  obtain ⟨hhex', hpath', -⟩ := hfiled n (List.mem_append_right _ hn)
  apply hb.gone_ne hsplit he hn
  exact final_inj hhex hhex' (hpath.symm.trans (hEq.symm.trans hpath'))

end Record

end Cache

/-! ## After a `Put` -/

/-- The cache keeps its books and lists files under their own names. -/
structure Shelved (h : Handlers) (maxBytes : Int) (c : Cache) : Prop where
  booked : c.Booked
  maxBytes_eq : c.maxBytes = maxBytes
  lists : c.Lists (Cache.Filed h)

section Landed

variable {h : Handlers} {maxBytes : Int} {hash bytes : Bytes} {size : Int} {d d' : Store}

theorem Shelved.record (hc : Shelved h maxBytes d.cache) {path : Path}
    (hnew : Cache.Filed h hash ⟨hash, size, path⟩) :
    Shelved h maxBytes (d.cache.record hash size path).evictLocked.1 :=
  ⟨(hc.booked.recorded hash size path).booked,
    (hc.booked.recorded hash size path).maxBytes_eq.trans hc.maxBytes_eq,
    (hc.lists.record hnew).evictLocked.1⟩

/-- The files of the entries that stay are as they were when the entry was recorded. -/
theorem content_commit (hc : Shelved h maxBytes d.cache) {path : Path} {kept : List Path}
    (hnew : Cache.Filed h hash ⟨hash, size, path⟩) {e : Element}
    (he : e ∈ (d.commit hash size path kept).cache.lru) :
    (d.commit hash size path kept).fs.content e.value.path = d.fs.content e.value.path := by
  have hstays := hc.booked.not_evicted hc.lists hnew he
  refine (Store.frame_unlinkAll d.fs _).content_eq ?_ fun _ _ => nofun
  exact fun hmem => hstays (List.mem_of_mem_filter hmem)

/-- With room the entry and its file are there. -/
theorem Landed.entry (hl : Landed hash size (h.final hash) (h.tmp hash) bytes d d')
    (hc : Shelved h maxBytes d.cache) (hhex : HexHash hash) (hsize : size = bytes.length)
    (hroom : Cache.HasRoom maxBytes size) :
    ∃ e, d'.cache.index.find hash = some e ∧ e.value.path = h.final hash ∧ e.value.size = size ∧
      d'.fs.content (h.final hash) = some bytes := by
  obtain ⟨d₁, kept, hcache, hcontent, -, rfl⟩ := hl
  rw [← hcache] at hc
  have hnew := Cache.Filed.new (h := h) hhex (show 0 ≤ size by omega)
  have hroom : Cache.HasRoom d₁.cache.maxBytes size := by rwa [hc.maxBytes_eq]
  obtain ⟨rest, hlru⟩ := hc.booked.recorded_of_hasRoom hash (h.final hash) hroom
  have hmem : ⟨d₁.cache.nextId, ⟨hash, size, h.final hash⟩⟩ ∈
      (d₁.commit hash size (h.final hash) kept).cache.lru := by
    change _ ∈ (d₁.cache.record hash size (h.final hash)).evictLocked.1.lru
    rw [hlru]
    exact List.mem_cons_self
  refine ⟨_, (hc.record hnew).booked.node _ hmem, rfl, rfl, ?_⟩
  exact (content_commit hc hnew hmem).trans hcontent

/-- Without room the cache is empty. -/
theorem Landed.empty (hl : Landed hash size (h.final hash) (h.tmp hash) bytes d d')
    (hc : Shelved h maxBytes d.cache) (hroom : ¬Cache.HasRoom maxBytes size) :
    d'.cache.lru = [] := by
  obtain ⟨d₁, kept, hcache, -, -, rfl⟩ := hl
  rw [← hcache] at hc
  rw [← hc.maxBytes_eq] at hroom
  exact hc.booked.recorded_of_not_hasRoom hc.lists hroom

theorem Landed.shelved (hl : Landed hash size (h.final hash) (h.tmp hash) bytes d d')
    (hc : Shelved h maxBytes d.cache) (hhex : HexHash hash) (hsize : size = bytes.length) :
    Shelved h maxBytes d'.cache := by
  obtain ⟨d₁, kept, hcache, -, -, rfl⟩ := hl
  rw [← hcache] at hc
  exact hc.record (Cache.Filed.new hhex (by omega))

end Landed

namespace Serving

variable {h : Handlers} {maxBytes : Int} {found : FoundDisk}

/-! ## The states of a gateway -/

/-- Only published files of some size are recorded. -/
def Op.Regular (h : Handlers) : Op → Prop
  | .disk (.commit hash size path) => Cache.Filed h hash ⟨hash, size, path⟩
  | _ => True

/-- The states a gateway can be in: that of a new one, and what any operation makes of such a
state. -/
inductive Reached (h : Handlers) (maxBytes : Int) (found : FoundDisk) : State h → Prop
  | new : Reached h maxBytes found (State.new h maxBytes found)
  | step {s s' : State h} {o : Op} {e : Env} {r : Res o} :
      Reached h maxBytes found s → o.Regular h → exec h o e s = some (s', r) →
        Reached h maxBytes found s'

theorem Reached.runs {α : Type} {p : Code α} {s s' : State h} {cs : List (Call Op Res)} {a : α}
    (hs : Reached h maxBytes found s) (hp : p.Uses (Op.Regular h))
    (hrun : Runs (exec h) p s cs s' a) : Reached h maxBytes found s' :=
  hrun.invariant hp (fun _ _ _ _ _ ho he hs => hs.step ho he) hs

section Uses

variable {hash : Bytes} {size : Int} {siaId : Hash}

def Recordable (h : Handlers) : Gateway.Op → Prop
  | .commit hash size path => Cache.Filed h hash ⟨hash, size, path⟩
  | _ => True

theorem uses_copyTee (fd : Nat) (err : Option IoError) (hasher : MerkleHasher) (written : Nat)
    (blocks : List Bytes) : (copyTee fd err hasher written blocks).Uses (Recordable h) := by
  induction blocks generalizing hasher written with
  | nil =>
      unfold copyTee
      split <;> trivial
  | cons block rest ih =>
      unfold copyTee
      split
      · exact ih hasher written
      · apply Prog.Uses.perform_bind trivial
        rintro (e | _)
        · trivial
        · exact ih _ _

theorem uses_publish {tmp : Path} (hsize : 0 ≤ size) (hasher : MerkleHasher) :
    (publish h.blake3 hash size (h.final hash) tmp hasher).Uses (Recordable h) := by
  unfold publish
  simp only
  split
  · exact .perform_bind trivial fun _ => trivial
  · rename_i hgate
    apply Prog.Uses.perform_bind trivial
    rintro (e | _)
    · exact .perform_bind trivial fun _ => trivial
    · refine .perform_bind ?_ fun _ => trivial
      refine Cache.Filed.new ?_ hsize
      rw [← not_not.1 hgate]
      exact hexHash_digestToHex _

theorem uses_cleanupTmp (fd : Nat) (tmp : Path) (e : PutError) :
    (do
      cleanupTmp fd tmp
      pure (.error e : Except PutError Path) : Gateway.Code (Except PutError Path)).Uses
        (Recordable h) :=
  .perform_bind trivial fun _ => .perform_bind trivial fun _ => trivial

/-- `Put` records what has passed its gate. -/
theorem uses_put (src : Reader) :
    (put h.blake3 h.dir hash size src).Uses (Recordable h) := by
  unfold put
  split
  · trivial
  · split
    · trivial
    · rename_i hsize
      apply Prog.Uses.perform_bind trivial
      rintro (e | _)
      · trivial
      · apply Prog.Uses.perform_bind trivial
        intro _
        apply Prog.Uses.perform_bind trivial
        rintro (e | fd)
        · trivial
        · unfold fill
          refine (uses_copyTee fd src.err .new 0 src.blocks).bind ?_
          rintro (e | ⟨hasher, written⟩)
          · exact uses_cleanupTmp fd _ _
          · simp only
            split
            · exact uses_cleanupTmp fd _ _
            · apply Prog.Uses.perform_bind trivial
              rintro (e | _)
              · exact uses_cleanupTmp fd _ _
              · apply Prog.Uses.perform_bind trivial
                rintro (e | _)
                · exact .perform_bind trivial fun _ => trivial
                · exact uses_publish (Int.not_lt.1 hsize) hasher

theorem uses_onDisk_put (src : Reader) :
    (onDisk (put h.blake3 h.dir hash size src)).Uses (Op.Regular h) := by
  refine (uses_put src).embed _ ?_
  intro o ho
  cases o with
  | commit hash size path => exact ho
  | _ => trivial

theorem regular_cacheOpen (hash : Bytes) : (cacheOpen hash).Uses (Op.Regular h) :=
  uses_cacheOpen trivial (fun _ => trivial) fun _ => trivial

theorem regular_getXorbSource (hash : Bytes) (siaId : Hash) (size : Int64) :
    (h.getXorbSource hash siaId size).Uses (Op.Regular h) := by
  refine (regular_cacheOpen hash).bind ?_
  rintro (_ | file)
  · have hfetch : (h.fetchFn hash siaId size).Uses (Op.Regular h) := by
      refine (regular_cacheOpen hash).bind ?_
      rintro (_ | file)
      · apply Prog.Uses.perform_bind trivial
        intro d
        have hput : (onDisk (put h.blake3 h.dir hash size.toInt d.reader)).Uses (Op.Regular h) :=
          uses_onDisk_put d.reader
        rw [← onDisk_putRest] at hput
        refine hput.of_map.bind ?_
        intro p
        exact .perform_bind trivial fun _ => trivial
      · trivial
    have hdo : (missDo hash (h.fetchFn hash siaId size)).Uses (Op.Regular h) := by
      apply Prog.Uses.perform_bind trivial
      rintro (n | n)
      · exact hfetch.bind fun v => .perform_bind trivial fun _ => trivial
      · exact ⟨trivial, fun _ => trivial⟩
    refine hdo.bind ?_
    intro v
    apply Prog.Uses.perform_bind trivial
    intro ms
    cases v with
    | error e => trivial
    | ok _ =>
        refine (regular_cacheOpen hash).bind ?_
        rintro (_ | file) <;> trivial
  · trivial

theorem regular_code (req : Request) : (code h req).Uses (Op.Regular h) := by
  cases req with
  | cancel ctx => exact ⟨trivial, fun _ => trivial⟩
  | serve ctx r now =>
      have hserve : (h.serveXorb ctx r now).Uses (Op.Regular h) := by
        unfold Handlers.serveXorb
        split
        · trivial
        · apply Prog.Uses.perform_bind trivial
          intro row
          split
          · trivial
          · refine (regular_getXorbSource _ _ _).bind ?_
            rintro (err | src)
            · apply Prog.Uses.perform_bind trivial
              rintro (_ | _) <;> trivial
            · exact .perform_bind trivial fun _ => .perform_bind trivial fun _ => trivial
      exact hserve.bind fun _ => trivial

end Uses

/-- Whatever the requests of a gateway do, in whatever order, its state is one of these. -/
theorem reached_of_run {tr : List (Transition h)} {c : Server h} (hrun : Run h maxBytes found tr c) :
    Reached h maxBytes found c.store := by
  have hreach : Reaches (code h) (exec h) (fun _ _ => True) _ c := ⟨tr, hrun, fun _ _ => trivial⟩
  have hinv : Reached h maxBytes found c.store ∧
      ∀ i req p, c.tasks i = some ⟨req, some p⟩ → p.Uses (Op.Regular h) := by
    apply hreach.invariant (I := fun c : Server h => Reached h maxBytes found c.store ∧
      ∀ i req p, c.tasks i = some ⟨req, some p⟩ → p.Uses (Op.Regular h))
    · exact ⟨.new, fun _ _ _ => nofun⟩
    · rintro c₁ a c₂ ⟨hs, hall⟩ _ hstep
      refine ⟨?_, always_step (P := fun _ (o : Op) _ => Op.Regular h o) hstep regular_code hall⟩
      rcases Pool.step_cases hstep with ⟨i, req, -, -, rfl⟩ |
        ⟨i, e, req, o, k, s, r, -, ht, he, rfl⟩ | ⟨i, req, p, -, -, rfl⟩
      · exact hs
      · exact hs.step (hall i req _ ht).1 he
      · exact hs
  exact hinv.1

theorem Reached.shelved {s : State h} (hs : Reached h maxBytes found s) :
    Shelved h maxBytes s.disk.cache := by
  induction hs with
  | new => exact ⟨.new maxBytes, rfl, nofun, nofun⟩
  | step _ ho he ih =>
      rcases cache_of_exec he with hEq | ⟨hash, rfl, hEq⟩ | ⟨hash, path, rfl, hEq⟩ |
        ⟨hash, size, path, rfl, hEq⟩
      · rwa [hEq]
      · rw [hEq]
        exact ⟨ih.booked.lookup hash, (Cache.lookup_maxBytes _ _).trans ih.maxBytes_eq,
          ih.lists.lookup hash⟩
      · rw [hEq]
        refine ⟨ih.booked.dropStale hash path, ?_, ih.lists.dropStale hash path⟩
        rcases Cache.dropStale_cases ih.booked hash path with hsame | ⟨e, -, -, hdrop⟩
        · rw [hsame, ih.maxBytes_eq]
        · rw [hdrop]
          exact ih.maxBytes_eq
      · rw [hEq]
        exact ih.record ho

/-! ## The next `Open` -/

/-- The operations, with no failing `os.Open` of a file that is there. -/
def steady (h : Handlers) (o : Op) (e : Env) (s : State h) : Option (State h × Res o) :=
  match e with
  | .fault _ => none
  | e => exec h o e s

theorem exec_of_steady (o : Op) (e : Env) (s : State h) (t : State h × Res o)
    (he : steady h o e s = some t) : exec h o e s = some t := by
  cases e with
  | fault e => cases he
  | _ => exact he

/-- An `Open` of the hash returns a file with these bytes. -/
def Serves (h : Handlers) (s : State h) (hash bytes : Bytes) : Prop :=
  (cacheOpen hash).Ensures (steady h) (fun _ => True)
    (fun s' r => ∃ fd, r = some (fd, (bytes.length : Int)) ∧
      s'.disk.fs.readAll fd = some bytes) s

section Open

variable {hash bytes : Bytes} {s : State h}

theorem serves_of_entry {e : Element} (hfind : s.disk.cache.index.find hash = some e)
    (hsize : e.value.size = bytes.length) (hcontent : s.disk.fs.content e.value.path = some bytes) :
    Serves h s hash bytes := by
  refine ⟨⟨.quiet, _, _, rfl, trivial⟩, ?_⟩
  intro env s₁ r he _
  cases env with
  | quiet =>
      cases he
      simp only [Cache.lookup, hfind]
      obtain ⟨fs, fd, hopen⟩ := FileSystem.exists_openRead hcontent
      have hexec : steady h (.openFile e.value.path) .quiet
          (s.setCache { s.disk.cache with lru := Cache.moveToFront s.disk.cache.lru e }) =
          some ({ s with disk :=
            ⟨{ s.disk.cache with lru := Cache.moveToFront s.disk.cache.lru e }, fs⟩ }, .ok fd) := by
        simp only [steady, exec, State.openFile, State.setCache, hopen]
      refine ⟨⟨.quiet, _, _, hexec, trivial⟩, ?_⟩
      intro env s₂ r he _
      cases env with
      | quiet =>
          cases hexec.symm.trans he
          refine ⟨fd, ?_, ?_⟩
          · rw [hsize]
          · exact (FileSystem.readAll_openRead hopen).trans hcontent
      | _ => cases he
  | _ => cases he

/-- A hash that is not in the index is not found, and nothing changes. -/
theorem yields_cacheOpen_of_none (hash : Bytes) {s : State h}
    (hnone : s.disk.cache.index.find hash = none) :
    (cacheOpen hash).Yields (exec h) (fun s' r => s' = s ∧ r = none) s := by
  intro env s₁ r he
  cases env with
  | quiet =>
      cases he
      simp only [Cache.lookup, hnone]
      exact ⟨rfl, rfl⟩
  | _ => cases he

theorem not_serves_of_none (hnone : s.disk.cache.index.find hash = none) :
    ¬Serves h s hash bytes := by
  intro hserves
  obtain ⟨cs, s', r, hrun, -⟩ := hserves.exists_run
  obtain ⟨fd, hr, -⟩ := hserves.post_of_runs hrun fun _ _ => trivial
  obtain ⟨-, hr'⟩ :=
    ((yields_cacheOpen_of_none hash hnone).of_le exec_of_steady).post_of_runs hrun
  rw [hr] at hr'
  cases hr'

theorem find_dropStale {c : Cache} {e : Element} (hfind : c.index.find hash = some e) :
    (c.dropStale hash e.value.path).index.find hash = none := by
  unfold Cache.dropStale
  simp only [hfind, if_true]
  exact (Table.find_erase _ _ _).trans (if_pos rfl)

/-- After an `Open` that finds nothing the hash is not in the index. -/
theorem yields_cacheOpen_missed (hash : Bytes) (s : State h) :
    (cacheOpen hash).Yields (exec h) (fun s' r => r = none →
      s'.disk.cache.index.find hash = none) s := by
  intro env s₁ r he
  cases env with
  -- An indexed entry is opened; if that fails it is dropped, and the index misses it.
  | quiet =>
      cases he
      cases hfind : s.disk.cache.index.find hash with
      | none =>
          simp only [Cache.lookup, hfind]
          exact fun _ => hfind
      | some e =>
          simp only [Cache.lookup, hfind]
          intro env s₂ r he
          have hcache : s₂.disk.cache =
              { s.disk.cache with lru := Cache.moveToFront s.disk.cache.lru e } := by
            cases env with
            | quiet =>
                have hs₂ := congrArg Prod.fst (Option.some.inj he)
                rw [← show _ = s₂ from hs₂]
                exact cache_openFile _ _
            | fault e =>
                cases he
                rfl
            | _ => cases he
          cases r with
          | ok fd =>
              intro hEq
              cases hEq
          | error e =>
              intro env s₃ r he
              cases env with
              | quiet =>
                  cases he
                  intro _
                  apply find_dropStale
                  rw [hcache]
                  exact hfind
              | _ => cases he
  | _ => cases he

end Open

/-! ## The two halves -/

/-- The entries of other hashes stay. -/
def Spares (hash : Bytes) (c c' : Cache) : Prop :=
  ∀ e ∈ c.lru, e.value.hash ≠ hash → e ∈ c'.lru

/-- The next `Open` is served, and a body that cannot fit drives nothing else out. -/
def PutServes (h : Handlers) (maxBytes : Int) (hash : Bytes) (size : Int) (bytes : Bytes)
    (s s' : State h) : Prop :=
  Serves h s' hash bytes ∧
    (¬Cache.HasRoom maxBytes size → Spares hash s.disk.cache s'.disk.cache)

/-- The coalesced fetch returned without an error, so `getXorbSource` opens the file again. -/
def Reopens : Except SourceError OpenSource → Prop
  | .ok src => src.cacheHit = false
  | .error e => e = .openAfterFetch

instance : DecidablePred Reopens
  | .ok src => inferInstanceAs (Decidable (src.cacheHit = false))
  | .error e => inferInstanceAs (Decidable (e = .openAfterFetch))

section Halves

variable {hash bytes : Bytes} {size : Int} {s s' : State h}

theorem putServes_of_landed
    (hl : Landed hash size (h.final hash) (h.tmp hash) bytes s.disk s'.disk)
    (hc : Shelved h maxBytes s.disk.cache) (hhex : HexHash hash) (hsize : size = bytes.length) :
    PutServes h maxBytes hash size bytes s s' ↔ Cache.HasRoom maxBytes size := by
  constructor
  · rintro ⟨hserves, -⟩
    by_contra hroom
    -- the entry has gone with all the others
    have hempty := hl.empty hc hroom
    have hbooked := (hl.shelved hc hhex hsize).booked
    exact not_serves_of_none (hbooked.find_of_lru_nil hempty hash) hserves
  · intro hroom
    obtain ⟨e, hfind, hpath, hentry, hcontent⟩ := hl.entry hc hhex hsize hroom
    refine ⟨serves_of_entry hfind (hentry.trans hsize) ?_, fun hnot => absurd hroom hnot⟩
    rw [hpath]
    exact hcontent

def Op.Opens : Op → Prop
  | .index _ => True
  | .openFile _ => True
  | .dropStale _ _ => True
  | _ => False

theorem opens_cacheOpen (hash : Bytes) : (cacheOpen hash).Uses Op.Opens :=
  uses_cacheOpen trivial (fun _ => trivial) fun _ => trivial

/-- An `Open` leaves the coalescer alone. -/
theorem Op.Opens.keeps {o : Op} {e : Env} {r : Res o} (ho : o.Opens)
    (he : exec h o e s = some (s', r)) (hs : Reached h maxBytes found s) :
    Reached h maxBytes found s' ∧ s'.group = s.group := by
  cases o with
  | index hash =>
      refine ⟨hs.step (o := .index hash) trivial he, ?_⟩
      cases e <;> cases he
      rfl
  | openFile path =>
      refine ⟨hs.step (o := .openFile path) trivial he, ?_⟩
      cases e with
      | quiet =>
          obtain rfl : (s.openFile path).1 = s' := congrArg Prod.fst (Option.some.inj he)
          unfold State.openFile
          split <;> rfl
      | fault e =>
          cases he
          rfl
      | _ => cases he
  | dropStale hash path =>
      refine ⟨hs.step (o := .dropStale hash path) trivial he, ?_⟩
      cases e <;> cases he
      rfl
  | _ => exact ho.elim

theorem yields_cacheOpen_keeps (hash : Bytes) (hs : Reached h maxBytes found s) :
    (cacheOpen hash).Yields (exec h)
      (fun s' _ => Reached h maxBytes found s' ∧ s'.group = s.group) s := by
  refine .of_uses (opens_cacheOpen hash) ?_ ⟨hs, rfl⟩
  rintro o e s₁ s₂ r ho he ⟨hs₁, hgroup⟩
  obtain ⟨hs₂, hsame⟩ := ho.keeps he hs₁
  exact ⟨hs₂, hsame.trans hgroup⟩

/-- What a fetch by the leader leaves: on success the file has landed. -/
def FetchLands (h : Handlers) (hash : Bytes) (size : Int) (d d' : Store) :
    Except SourceError Bytes → Prop
  | .ok _ => HexHash hash ∧ ∃ bytes, size = bytes.length ∧
      Landed hash size (h.final hash) (h.tmp hash) bytes d d'
  | .error e => e ≠ .openAfterFetch

theorem yields_put_landed (src : Reader) (d : Store) :
    (put h.blake3 h.dir hash size src).Yields Gateway.exec
      (fun d' r => ∀ path, r = .ok path → Accepted h.blake3 hash size src ∧
        Landed hash size (h.final hash) (h.tmp hash) src.blocks.flatten d d') d := by
  apply Prog.Yields.of_runs
  rintro cs d' r hrun path rfl
  exact (landed_of_runs hrun).2

theorem ne_openAfterFetch_of_fetched {dlErr : Option SiaError} {putRes : Except PutError Path}
    {e : SourceError} (h : fetched hash dlErr putRes = .error e) : e ≠ .openAfterFetch := by
  unfold fetched at h
  split at h
  · cases h
    exact nofun
  · cases putRes with
    | error e =>
        cases h
        exact nofun
    | ok path => cases h

theorem yields_fetchAndCache (siaId : Hash) (size : Int64) (s : State h) :
    (h.fetchAndCache hash siaId size).Yields (exec h)
      (fun s' v => FetchLands h hash size.toInt s.disk s'.disk v) s := by
  intro e s₁ d he
  cases e with
  | download d' =>
      cases he
      have hput := yields_onDisk
        (@yields_put_landed h hash size.toInt d.reader s.disk)
      rw [← onDisk_putRest] at hput
      refine hput.of_map.bind ?_
      rintro s₂ ⟨r, left⟩ hr e s₃ _ he
      obtain ⟨-, rfl⟩ := exec_receive he
      cases hend : fetched hash d.err r with
      | error e => exact ne_openAfterFetch_of_fetched hend
      | ok v =>
          obtain ⟨-, hok⟩ := isOk_fetched (show (fetched hash d.err r).isOk = true by rw [hend]; rfl)
          cases r with
          | error e => cases hok
          | ok path =>
              obtain ⟨haccepted, hlanded⟩ := hr path rfl
              exact ⟨haccepted.hex, _, haccepted.size_eq, hlanded⟩
  | _ => cases he

/-- A call that finds nothing and nobody in flight leads the fetch. -/
theorem yields_missDo (siaId : Hash) (size : Int64)
    (hnone : s.disk.cache.index.find hash = none) (hidle : h.miss.inFlight s.group hash = none) :
    (missDo hash (h.fetchFn hash siaId size)).Yields (exec h)
      (fun s' v => FetchLands h hash size.toInt s.disk s'.disk v) s := by
  intro e s₁ role he
  cases e with
  | quiet =>
      have hrole := h.miss.enter_lead s.group hash hidle
      cases he
      simp only [hrole]
      have hfetch : (h.fetchFn hash siaId size).Yields (exec h)
          (fun s' v => FetchLands h hash size.toInt s.disk s'.disk v)
          { s with group := (h.miss.enter s.group hash).1 } := by
        -- the re-check finds nothing either
        have hrecheck := yields_cacheOpen_of_none hash
          (s := { s with group := (h.miss.enter s.group hash).1 }) hnone
        refine hrecheck.bind ?_
        rintro s₂ _ ⟨rfl, rfl⟩
        exact yields_fetchAndCache siaId size _
      refine hfetch.bind ?_
      intro s₂ v hv e s₃ _ he
      cases e with
      | quiet =>
          cases he
          exact hv
      | _ => cases he
  | _ => cases he

/-- With the file fetched the last `Open` fails exactly when there was no room. -/
theorem yields_reopen {d : Store} {ms : Int64}
    (hl : Landed hash size (h.final hash) (h.tmp hash) bytes d s.disk)
    (hc : Shelved h maxBytes d.cache) (hhex : HexHash hash) (hsize : size = bytes.length) :
    (do
      match ← cacheOpen hash with
      | none => pure (.error .openAfterFetch)
      | some (fd, _) => pure (.ok ⟨fd, false, ms⟩) :
        Code (Except SourceError OpenSource)).Yields (steady h)
      (fun _ r => r ≠ .error .openAfterFetch ↔ Cache.HasRoom maxBytes size) s := by
  by_cases hroom : Cache.HasRoom maxBytes size
  · obtain ⟨e, hfind, hpath, hentry, hcontent⟩ := hl.entry hc hhex hsize hroom
    have hserves : Serves h s hash bytes := by
      refine serves_of_entry hfind (hentry.trans hsize) ?_
      rw [hpath]
      exact hcontent
    refine (Prog.Ensures.yields hserves).bind ?_
    rintro s₁ _ ⟨fd, rfl, -⟩
    exact ⟨fun _ => hroom, fun _ => nofun⟩
  · have hbooked := (hl.shelved hc hhex hsize).booked
    have hnone := hbooked.find_of_lru_nil (hl.empty hc hroom) hash
    refine ((yields_cacheOpen_of_none hash hnone).of_le exec_of_steady).bind ?_
    rintro s₁ _ ⟨-, rfl⟩
    exact ⟨fun hne => absurd rfl hne, fun hyes => absurd hyes hroom⟩

theorem yields_getXorbSource (siaId : Hash) (size : Int64) (hs : Reached h maxBytes found s)
    (hidle : h.miss.inFlight s.group hash = none) :
    (h.getXorbSource hash siaId size).Yields (steady h) (fun _ r => Reopens r →
      (r ≠ .error .openAfterFetch ↔ Cache.HasRoom maxBytes size.toInt)) s := by
  have hopen := (yields_cacheOpen_keeps hash hs).and (yields_cacheOpen_missed hash s)
  refine (hopen.of_le exec_of_steady).bind ?_
  rintro s₁ (_ | ⟨fd, size'⟩) ⟨⟨hs₁, hgroup⟩, hmissed⟩
  · have hdo := yields_missDo siaId size (hmissed rfl) (by rwa [hgroup])
    refine (hdo.of_le exec_of_steady).bind ?_
    intro s₂ v hv e s₃ ms he
    have hsame : s₃ = s₂ := by
      cases e <;> cases he
      rfl
    subst hsame
    cases v with
    | error e => exact fun hreopens => absurd hreopens hv
    | ok _ =>
        obtain ⟨hhex, bytes, hsize, hlanded⟩ := hv
        exact (yields_reopen hlanded hs₁.shelved hhex hsize).mono fun _ _ hr _ => hr
  · -- the file was there at once
    exact nofun

/-- A `Put` that succeeds serves the next `Open`, and `getXorbSource` finds what it has fetched,
exactly when the budget has room for the body. -/
theorem put_servable (hs : Reached h maxBytes found s) :
    (∀ hash size src cs s' path,
      Runs (exec h) (onDisk (put h.blake3 h.dir hash size src)) s cs s' (.ok path) →
        (PutServes h maxBytes hash size src.blocks.flatten s s' ↔
          Cache.HasRoom maxBytes size)) ∧
      ∀ hash siaId size cs s' r, h.miss.inFlight s.group hash = none →
        Runs (steady h) (h.getXorbSource hash siaId size) s cs s' r → Reopens r →
          (r ≠ .error .openAfterFetch ↔ Cache.HasRoom maxBytes size.toInt) := by
  constructor
  · intro hash size src cs s' path hrun
    obtain ⟨haccepted, hlanded⟩ :=
      (yields_onDisk (yields_put_landed src s.disk)).post_of_runs hrun path rfl
    exact putServes_of_landed hlanded hs.shelved haccepted.hex haccepted.size_eq
  · intro hash siaId size cs s' r hidle hrun hreopens
    exact (yields_getXorbSource siaId size hs hidle).post_of_runs hrun hreopens

end Halves

/-! ## A budget of two bytes -/

def oneByteDigest : Hash :=
  ⟨[57, 43, 186, 26, 184, 132, 132, 232, 113, 104, 235, 105, 192, 151, 13, 36,
    127, 70, 63, 50, 203, 213, 255, 201, 138, 192, 170, 89, 72, 81, 58, 22], rfl⟩

def oneByteHash : Bytes :=
  lit "e88484b81aba2b39240d97c069eb6871c9ffd5cb323f467f163a514859aac08a"

def twoSizesHandlers : Handlers :=
  { sampleHandlers with
    blake3 := fun key message =>
      if key = dataKey ∧ message = [4] then oneByteDigest else threeBytesBlake3 key message }

def putBody (hash body : Bytes) : Code (Except PutError Path) :=
  onDisk (put twoSizesHandlers.blake3 twoSizesHandlers.dir hash body.length ⟨[body], none⟩)

def putSteps : List Env :=
  [.ok, .ok, .ok, .ok, .ok, .ok, .ok, .evict []].map .disk

def fetchSteps : List Env :=
  [.quiet, .quiet, .quiet, .download ⟨[[1, 2, 3]], none⟩] ++ putSteps ++
    [.quiet, .quiet, .elapsed 40, .quiet, .quiet]

/-- The run of a `Put`, and what it leaves. -/
theorem exists_putBody (hash body : Bytes) {s : State twoSizesHandlers}
    {P : State twoSizesHandlers → Bool}
    (heval : ((putBody hash body).eval (exec twoSizesHandlers) putSteps s).map
      (fun u => u.2.2.isOk && P u.2.1) = some true) :
    ∃ cs s' path, Runs (exec twoSizesHandlers) (putBody hash body) s cs s' (.ok path) ∧
      P s' = true := by
  obtain ⟨⟨cs, s', r⟩, hrun, hcheck⟩ := Option.map_eq_some_iff.1 heval
  obtain ⟨hok, hP⟩ := Bool.and_eq_true_iff.1 hcheck
  cases r with
  | error e => cases hok
  | ok path => exact ⟨cs, s', path, Runs.of_eval hrun, hP⟩

/-- With a budget of three bytes the xorb of three bytes is served, after a `Put` and after a
fetch. -/
theorem put_servable_fits :
    (∃ cs s' path, Runs (exec twoSizesHandlers) (putBody sampleHash [1, 2, 3])
        (State.new twoSizesHandlers 3 emptyDisk) cs s' (.ok path) ∧
        PutServes twoSizesHandlers 3 sampleHash 3 [1, 2, 3]
          (State.new twoSizesHandlers 3 emptyDisk) s') ∧
      ∃ cs s' src, Runs (steady twoSizesHandlers)
        (twoSizesHandlers.getXorbSource sampleHash (Hash.fill 2) 3)
        (State.new twoSizesHandlers 3 emptyDisk) cs s' (.ok src) := by
  have hnew : Reached twoSizesHandlers 3 emptyDisk (State.new twoSizesHandlers 3 emptyDisk) := .new
  have hroom : Cache.HasRoom 3 3 := .inr (Int.le_refl 3)
  constructor
  · obtain ⟨cs, s', path, hrun, -⟩ := exists_putBody sampleHash [1, 2, 3]
      (s := State.new twoSizesHandlers 3 emptyDisk) (P := fun _ => true) (by decide +kernel)
    exact ⟨cs, s', path, hrun, ((put_servable hnew).1 _ _ _ _ _ _ hrun).2 hroom⟩
  · have heval : ((twoSizesHandlers.getXorbSource sampleHash (Hash.fill 2) 3).eval
        (steady twoSizesHandlers) fetchSteps (State.new twoSizesHandlers 3 emptyDisk)).map
        (fun u => decide (Reopens u.2.2)) = some true := by
      decide +kernel
    obtain ⟨⟨cs, s', r⟩, hrun, hreopens⟩ := Option.map_eq_some_iff.1 heval
    have hrun := Runs.of_eval hrun
    have hreopens : Reopens r := of_decide_eq_true hreopens
    have hidle := twoSizesHandlers.miss.inFlight_new sampleHash
    have hne := ((put_servable hnew).2 _ _ _ _ _ _ hidle hrun hreopens).2 hroom
    cases r with
    | ok src => exact ⟨cs, s', src, hrun⟩
    | error e => exact absurd (congrArg Except.error hreopens) hne

/-- With a budget of two bytes it is not: its `Put` succeeds, removes its file and the other entry,
and the fetch fails. -/
theorem not_put_servable :
    (∃ s cs s' path, Reached twoSizesHandlers 2 emptyDisk s ∧
        Runs (exec twoSizesHandlers) (putBody sampleHash [1, 2, 3]) s cs s' (.ok path) ∧
        ¬Serves twoSizesHandlers s' sampleHash [1, 2, 3] ∧
        ¬Spares sampleHash s.disk.cache s'.disk.cache) ∧
      ∃ cs s', Runs (steady twoSizesHandlers)
        (twoSizesHandlers.getXorbSource sampleHash (Hash.fill 2) 3)
        (State.new twoSizesHandlers 2 emptyDisk) cs s' (.error .openAfterFetch) := by
  constructor
  · have heval : (((putBody oneByteHash [4]).eval (exec twoSizesHandlers) putSteps
        (State.new twoSizesHandlers 2 emptyDisk)).bind fun u =>
          ((putBody sampleHash [1, 2, 3]).eval (exec twoSizesHandlers) putSteps u.2.1).map
            fun v => u.2.1.disk.cache.lru.any (fun e => e.value.hash ≠ sampleHash) &&
              v.2.2.isOk && v.2.1.disk.cache.lru.isEmpty &&
              (v.2.1.disk.cache.index.find sampleHash).isNone) = some true := by
      decide +kernel
    obtain ⟨⟨cs₀, s, r₀⟩, hfirst, hsecond⟩ := Option.bind_eq_some_iff.1 heval
    obtain ⟨⟨cs, s', r⟩, hrun, hcheck⟩ := Option.map_eq_some_iff.1 hsecond
    simp only [Bool.and_eq_true, List.any_eq_true, decide_eq_true_eq, List.isEmpty_iff,
      Option.isNone_iff_eq_none] at hcheck
    obtain ⟨⟨⟨⟨e, he, hne⟩, hok⟩, hempty⟩, hnone⟩ := hcheck
    have hreached : Reached twoSizesHandlers 2 emptyDisk s :=
      Reached.new.runs (uses_onDisk_put _) (Runs.of_eval hfirst)
    cases r with
    | error e => cases hok
    | ok path =>
        refine ⟨s, cs, s', path, hreached, Runs.of_eval hrun, not_serves_of_none hnone, ?_⟩
        intro hspares
        have hmem := hspares e he hne
        rw [hempty] at hmem
        cases hmem
  · have heval : ((twoSizesHandlers.getXorbSource sampleHash (Hash.fill 2) 3).eval
        (steady twoSizesHandlers) fetchSteps (State.new twoSizesHandlers 2 emptyDisk)).map
        (fun u => decide (u.2.2 = .error .openAfterFetch)) = some true := by
      decide +kernel
    obtain ⟨⟨cs, s', r⟩, hrun, hr⟩ := Option.map_eq_some_iff.1 heval
    obtain rfl : r = .error .openAfterFetch := of_decide_eq_true hr
    exact ⟨cs, s', Runs.of_eval hrun⟩

end Serving

end Gateway
end OpenWeights
