import OpenWeights.Lib.FileSystem
import OpenWeights.Lib.Prog
import OpenWeights.Gateway.MerkleHash

/-!
# Cache — the gateway's disk cache of whole xorbs

Model of `gateway/cache.go`: the in-memory index with its LRU list, the file operations, and `Put`
as a program over them.  Everything `Put` does under the lock is one operation; between two
operations other requests may run.

What the environment decides about an operation is its `Env` argument: whether it fails, after how
many bytes a failing write gave up, and which evicted files could not be removed.  Directories are
not modelled: `MkdirAll` has no effect a later operation could see.  Sizes and the byte counter are
integers.
-/

namespace OpenWeights
namespace Gateway

open Lib Db

/-! ## Paths -/

/-- A cleaned path: `/` stands before the elements of a rooted one. -/
structure Path where
  rooted : Bool
  elems : List Bytes
  deriving DecidableEq, Repr

/-- The elements `filepath.Clean` keeps; `out` has those kept so far, last first. -/
def cleanElems (rooted : Bool) : List Bytes → List Bytes → List Bytes
  | out, [] => out.reverse
  | out, e :: rest =>
      if e = [] ∨ e = lit "." then
        cleanElems rooted out rest
      else if e = lit ".." then
        match out with
        | [] => cleanElems rooted (if rooted then [] else [e]) rest
        | last :: before =>
            if last = lit ".." then
              cleanElems rooted (e :: out) rest
            else
              cleanElems rooted before rest
      else
        cleanElems rooted (e :: out) rest

namespace Path

def clean (s : Bytes) : Path :=
  { rooted := s.head? = some 47
    elems := cleanElems (s.head? = some 47) [] (s.splitOn 47) }

def join (elems : List Bytes) : Path :=
  clean ([47].intercalate (elems.filter fun e => e ≠ []))

def dir (p : Path) : Path :=
  { p with elems := p.elems.dropLast }

def extend (p : Path) (suffix : Bytes) : Path :=
  { p with elems := p.elems.dropLast ++ [p.elems.getLast?.getD [] ++ suffix] }

def text (p : Path) : Bytes :=
  if p.rooted then [47] ++ [47].intercalate p.elems
  else if p.elems = [] then lit "."
  else [47].intercalate p.elems

end Path

/-- `Cache.pathFor`; the root directory of a cache never changes. -/
def pathFor (dir hash : Bytes) : Path :=
  Path.join [dir, lit "xorbs", hash.take 2, hash ++ lit ".bin"]

/-- `final + ".tmp"`: where `Put` writes before it publishes. -/
def tmpFor (dir hash : Bytes) : Path :=
  (pathFor dir hash).extend (lit ".tmp")

theorem cleanElems_concat {rooted : Bool} {e : Bytes} (hempty : e ≠ []) (hdot : e ≠ lit ".")
    (hup : e ≠ lit "..") (out elems : List Bytes) :
    cleanElems rooted out (elems ++ [e]) = cleanElems rooted out elems ++ [e] := by
  induction elems generalizing out with
  | nil => simp [cleanElems, hempty, hdot, hup]
  | cons first rest ih =>
      simp only [List.cons_append, cleanElems]
      split
      · exact ih out
      · split
        · cases out with
          | nil => exact ih _
          | cons last before =>
              simp only
              split
              · exact ih _
              · exact ih _
        · exact ih _

theorem Path.getLast?_clean {e : Bytes} (hslash : 47 ∉ e) (hempty : e ≠ []) (hdot : e ≠ lit ".")
    (hup : e ≠ lit "..") (s : Bytes) : (Path.clean (s ++ 47 :: e)).elems.getLast? = some e := by
  have hsplit : (s ++ 47 :: e).splitOn 47 = s.splitOn 47 ++ [e] := by
    rw [List.splitOn_append_cons_self, List.splitOn_eq_singleton hslash]
  simp only [Path.clean, hsplit, cleanElems_concat hempty hdot hup, List.getLast?_concat]

/-- The file name of a cached xorb. -/
theorem getLast?_pathFor (dir : Bytes) {hash : Bytes} (hlen : hash.length = 64)
    (hslash : 47 ∉ hash) : (pathFor dir hash).elems.getLast? = some (hash ++ lit ".bin") := by
  have hlong : ∀ e : Bytes, e.length < 64 → hash ++ lit ".bin" ≠ e := by
    rintro e hlt rfl
    rw [List.length_append] at hlt
    omega
  have htake : hash.take 2 ≠ [] := by
    intro hnil
    have hlength := congrArg List.length hnil
    simp [hlen] at hlength
  have hname : 47 ∉ hash ++ lit ".bin" := by
    intro hmem
    rcases List.mem_append.1 hmem with hmem | hmem
    · exact hslash hmem
    · revert hmem
      decide
  have hxorbs : lit "xorbs" ≠ [] := by decide
  have hbin : lit ".bin" ≠ [] := by decide
  have hend := Path.getLast?_clean hname (hlong [] (by decide)) (hlong _ (by decide))
    (hlong _ (by decide))
  by_cases hdir : dir = []
  · have hjoin := hend (lit "xorbs" ++ 47 :: hash.take 2)
    simpa [pathFor, Path.join, hdir, hxorbs, htake, hbin, List.intercalate] using hjoin
  · have hjoin := hend (dir ++ 47 :: lit "xorbs" ++ 47 :: hash.take 2)
    simpa [pathFor, Path.join, hdir, hxorbs, htake, hbin, List.intercalate] using hjoin

theorem getLast?_tmpFor (dir : Bytes) {hash : Bytes} (hlen : hash.length = 64)
    (hslash : 47 ∉ hash) :
    (tmpFor dir hash).elems.getLast? = some (hash ++ lit ".bin" ++ lit ".tmp") := by
  simp [tmpFor, Path.extend, getLast?_pathFor dir hlen hslash]

/-! ## The index -/

structure CacheEntry where
  hash : Bytes
  size : Int
  path : Path
  deriving DecidableEq, Repr

/-- `list.Element`: a node of the LRU list with its identity. -/
structure Element where
  id : Nat
  value : CacheEntry
  deriving DecidableEq, Repr

/-- `Cache`: what the lock protects, and the byte budget.  The front of `lru` is the most recently
used entry. -/
structure Cache where
  maxBytes : Int
  bytesUsed : Int
  lru : List Element
  index : Table Bytes Element
  nextId : Nat

namespace Cache

def new (maxBytes : Int) : Cache :=
  { maxBytes := maxBytes
    bytesUsed := 0
    lru := []
    index := .empty
    nextId := 0 }

/-- `list.Remove`: nothing happens for a node that is no longer in the list. -/
def removeElement (lru : List Element) (e : Element) : List Element :=
  lru.filter fun n => n.id ≠ e.id

/-- The bookkeeping of `Put` before it evicts. -/
def record (c : Cache) (hash : Bytes) (size : Int) (path : Path) : Cache :=
  let c :=
    match c.index.find hash with
    | some existing =>
        -- another goroutine beat us: deduct its accounting
        { c with
          bytesUsed := c.bytesUsed - existing.value.size
          lru := removeElement c.lru existing }
    | none => c
  let element : Element := ⟨c.nextId, ⟨hash, size, path⟩⟩
  { c with
    bytesUsed := c.bytesUsed + size
    lru := element :: c.lru
    index := c.index.set hash element
    nextId := c.nextId + 1 }

/-- The loop of `evictLocked`, with the paths it unlinks.  Every turn takes a node off the list, so
as many turns as there are nodes are enough. -/
def evictLoop : Nat → Cache → Cache × List Path
  | 0, c => (c, [])
  | fuel + 1, c =>
      if c.bytesUsed > c.maxBytes then
        match c.lru.getLast? with
        | none => (c, [])
        | some back =>
            let c' :=
              { c with
                lru := removeElement c.lru back
                index := c.index.erase back.value.hash
                bytesUsed := c.bytesUsed - back.value.size }
            let (c'', paths) := evictLoop fuel c'
            (c'', back.value.path :: paths)
      else
        (c, [])

/-- `evictLocked`: a budget of zero or less is unbounded. -/
def evictLocked (c : Cache) : Cache × List Path :=
  if c.maxBytes ≤ 0 then (c, []) else evictLoop c.lru.length c

def moveToFront (lru : List Element) (e : Element) : List Element :=
  if e ∈ lru then e :: removeElement lru e else lru

/-- The first critical section of `Open`: the path and the size of the entry, which is now the most
recently used one. -/
def lookup (c : Cache) (hash : Bytes) : Cache × Option (Path × Int) :=
  match c.index.find hash with
  | none => (c, none)
  | some elem =>
      ({ c with lru := moveToFront c.lru elem }, some (elem.value.path, elem.value.size))

theorem lookup_eq_some {c : Cache} {hash : Bytes} {path : Path} {size : Int}
    (h : (c.lookup hash).2 = some (path, size)) :
    ∃ elem, c.index.find hash = some elem ∧ elem.value.path = path := by
  unfold lookup at h
  split at h
  · cases h
  · rename_i elem hfind
    cases h
    exact ⟨elem, hfind, rfl⟩

theorem lookup_eq_none {c : Cache} {hash : Bytes} (h : (c.lookup hash).2 = none) :
    c.index.find hash = none := by
  unfold lookup at h
  split at h
  · assumption
  · cases h

theorem lookup_index (c : Cache) (hash : Bytes) : (c.lookup hash).1.index = c.index := by
  unfold lookup
  split <;> rfl

theorem lookup_bytesUsed (c : Cache) (hash : Bytes) : (c.lookup hash).1.bytesUsed = c.bytesUsed := by
  unfold lookup
  split <;> rfl

theorem lookup_maxBytes (c : Cache) (hash : Bytes) : (c.lookup hash).1.maxBytes = c.maxBytes := by
  unfold lookup
  split <;> rfl

/-- The second one: the file of the entry has vanished. -/
def dropStale (c : Cache) (hash : Bytes) (path : Path) : Cache :=
  match c.index.find hash with
  | none => c
  | some elem =>
      if elem.value.path = path then
        { c with
          bytesUsed := c.bytesUsed - elem.value.size
          lru := removeElement c.lru elem
          index := c.index.erase hash }
      else
        c

theorem length_removeElement_lt {lru : List Element} {e : Element} (he : e ∈ lru) :
    (removeElement lru e).length < lru.length := by
  refine List.length_filter_lt_length_iff_exists.2 ⟨e, he, ?_⟩
  simp

/-- The loop ends because its condition fails, not because the turns run out. -/
theorem evictLoop_stops (fuel : Nat) (c : Cache) (hfuel : c.lru.length ≤ fuel) :
    (evictLoop fuel c).1.bytesUsed ≤ (evictLoop fuel c).1.maxBytes ∨
      (evictLoop fuel c).1.lru = [] := by
  induction fuel generalizing c with
  | zero => exact .inr (List.length_eq_zero_iff.1 (Nat.le_zero.1 hfuel))
  | succ fuel ih =>
      unfold evictLoop
      split
      · split
        · rename_i hlast
          exact .inr (List.getLast?_eq_none_iff.1 hlast)
        · rename_i back hlast
          have hlt := length_removeElement_lt (List.mem_of_getLast? hlast)
          exact ih _ (by
            dsimp only
            omega)
      · rename_i hle
        exact .inl (Int.not_lt.1 hle)

/-- Every node of the list and every entry of the index is as `P` says. -/
structure Lists (P : Bytes → CacheEntry → Prop) (c : Cache) : Prop where
  lru : ∀ e ∈ c.lru, P e.value.hash e.value
  index : ∀ hash e, c.index.find hash = some e → P hash e.value

section Lists

variable {P : Bytes → CacheEntry → Prop} {c : Cache}

theorem mem_of_mem_removeElement {lru : List Element} {e n : Element}
    (h : n ∈ removeElement lru e) : n ∈ lru :=
  List.mem_of_mem_filter h

theorem mem_of_mem_lookup {hash : Bytes} {n : Element} (h : n ∈ (c.lookup hash).1.lru) :
    n ∈ c.lru := by
  unfold Cache.lookup at h
  split at h
  · exact h
  · rename_i elem _
    change n ∈ moveToFront c.lru elem at h
    unfold moveToFront at h
    split at h
    · rename_i hmem
      rcases List.mem_cons.1 h with rfl | h
      · exact hmem
      · exact mem_of_mem_removeElement h
    · exact h

theorem Lists.mono {Q : Bytes → CacheEntry → Prop} (h : c.Lists P)
    (hPQ : ∀ hash e, P hash e → Q hash e) : c.Lists Q :=
  ⟨fun e he => hPQ _ _ (h.lru e he), fun hash e he => hPQ _ _ (h.index hash e he)⟩

theorem Lists.lookup (h : c.Lists P) (hash : Bytes) : (c.lookup hash).1.Lists P := by
  refine ⟨fun e he => h.lru e (mem_of_mem_lookup he), ?_⟩
  rw [lookup_index]
  exact h.index

theorem Lists.erase {c' : Cache} (h : c.Lists P) {hash : Bytes} {e : Element}
    (hlru : c'.lru = removeElement c.lru e) (hindex : c'.index = c.index.erase hash) :
    c'.Lists P := by
  refine ⟨?_, ?_⟩
  · intro n hn
    rw [hlru] at hn
    exact h.lru n (mem_of_mem_removeElement hn)
  · intro hash' n hn
    rw [hindex, Table.find_erase] at hn
    split at hn
    · cases hn
    · exact h.index hash' n hn

theorem Lists.dropStale (h : c.Lists P) (hash : Bytes) (path : Path) :
    (c.dropStale hash path).Lists P := by
  unfold Cache.dropStale
  split
  · exact h
  · split
    · exact h.erase rfl rfl
    · exact h

theorem Lists.record (h : c.Lists P) {hash : Bytes} {size : Int} {path : Path}
    (hnew : P hash ⟨hash, size, path⟩) : (c.record hash size path).Lists P := by
  have hindex : ∀ (t : Table Bytes Element) (id : Nat), t = c.index → ∀ hash' e,
      (t.set hash ⟨id, ⟨hash, size, path⟩⟩).find hash' = some e → P hash' e.value := by
    rintro t id rfl hash' e he
    by_cases hhash : hash' = hash
    · subst hhash
      rw [Table.find_set_self] at he
      cases he
      exact hnew
    · rw [Table.find_set_of_ne _ _ hhash] at he
      exact h.index hash' e he
  unfold Cache.record
  split
  · refine ⟨?_, hindex _ _ rfl⟩
    intro e he
    rcases List.mem_cons.1 he with rfl | he
    · exact hnew
    · exact h.lru e (mem_of_mem_removeElement he)
  · refine ⟨?_, hindex _ _ rfl⟩
    intro e he
    rcases List.mem_cons.1 he with rfl | he
    · exact hnew
    · exact h.lru e he

/-- What is evicted was listed. -/
theorem Lists.evictLoop (fuel : Nat) (h : c.Lists P) :
    (Cache.evictLoop fuel c).1.Lists P ∧
      ∀ p ∈ (Cache.evictLoop fuel c).2, ∃ hash e, P hash e ∧ e.path = p := by
  induction fuel generalizing c with
  | zero => exact ⟨h, by simp [Cache.evictLoop]⟩
  | succ fuel ih =>
      unfold Cache.evictLoop
      split
      · split
        · exact ⟨h, by simp⟩
        · rename_i back hback
          have hrest : Cache.Lists P
              { c with
                lru := removeElement c.lru back
                index := c.index.erase back.value.hash
                bytesUsed := c.bytesUsed - back.value.size } := h.erase rfl rfl
          obtain ⟨hlists, hpaths⟩ := ih hrest
          refine ⟨hlists, ?_⟩
          intro p hp
          rcases List.mem_cons.1 hp with rfl | hp
          · exact ⟨_, _, h.lru back (List.mem_of_getLast? hback), rfl⟩
          · exact hpaths p hp
      · exact ⟨h, by simp⟩

theorem Lists.evictLocked (h : c.Lists P) :
    c.evictLocked.1.Lists P ∧ ∀ p ∈ c.evictLocked.2, ∃ hash e, P hash e ∧ e.path = p := by
  unfold Cache.evictLocked
  split
  · exact ⟨h, by simp⟩
  · exact h.evictLoop _

end Lists

end Cache

/-! ## Operations -/

/-- The text of an error of the operating system or of the source. -/
abbrev IoError := Bytes

/-- The cache of a gateway and the disk it is on. -/
structure Store where
  cache : Cache
  fs : FileSystem Path

inductive Op
  | mkdirAll (dir : Path)
  | remove (path : Path)
  | create (path : Path)
  | write (fd : Nat) (bytes : Bytes)
  | sync (fd : Nat)
  | close (fd : Nat)
  | rename (old new : Path)
  | commit (hash : Bytes) (size : Int) (path : Path)

@[reducible] def Res : Op → Type
  | .mkdirAll _ => Except IoError Unit
  | .remove _ => Except IoError Unit
  | .create _ => Except IoError Nat
  | .write _ _ => Except IoError Unit
  | .sync _ => Except IoError Unit
  | .close _ => Except IoError Unit
  | .rename _ _ => Except IoError Unit
  | .commit _ _ _ => Unit

/-- What the environment decides about one operation. -/
inductive Env
  | ok
  | fault (e : IoError)
  | shortWrite (n : Nat) (e : IoError)
  | evict (kept : List Path)

namespace Store

def new (maxBytes : Int) : Store :=
  { cache := .new maxBytes
    fs := .empty }

/-- The outcome of a file operation that may find its file missing or closed. -/
def update (s : Store) (fs : Option (FileSystem Path)) (e : IoError) :
    Store × Except IoError Unit :=
  match fs with
  | some fs => ({ s with fs := fs }, .ok ())
  | none => (s, .error e)

theorem update_fs (s : Store) (fs : Option (FileSystem Path)) (e : IoError) :
    (s.update fs e).1.fs = fs.getD s.fs := by
  cases fs with
  | none => rfl
  | some fs => rfl

/-- Best-effort removal of the evicted files. -/
def unlinkAll (fs : FileSystem Path) (paths : List Path) : FileSystem Path :=
  paths.foldl (fun fs p => fs.unlink p) fs

theorem frame_unlinkAll (fs : FileSystem Path) (paths : List Path) :
    FileSystem.Frame fs (unlinkAll fs paths) {p | p ∈ paths} ∅ ∅ := by
  induction paths generalizing fs with
  | nil => exact (FileSystem.Frame.refl fs).mono (Set.empty_subset _) subset_rfl subset_rfl
  | cons p rest ih =>
      refine ((FileSystem.frame_unlink fs p).mono ?_ subset_rfl subset_rfl).trans
        ((ih (fs.unlink p)).mono ?_ subset_rfl subset_rfl)
      · rintro q rfl
        exact List.mem_cons_self
      · intro q hq
        exact List.mem_cons_of_mem p hq

theorem find_unlinkAll (fs : FileSystem Path) (paths : List Path) (q : Path) :
    (unlinkAll fs paths).names.find q = if q ∈ paths then none else fs.names.find q := by
  induction paths generalizing fs with
  | nil => simp [unlinkAll]
  | cons p rest ih =>
      change (unlinkAll (fs.unlink p) rest).names.find q = _
      rw [ih, FileSystem.find_unlink]
      by_cases hrest : q ∈ rest
      · simp [hrest]
      · simp [hrest]

/-- The critical section at the end of `Put`. -/
def commit (s : Store) (hash : Bytes) (size : Int) (path : Path) (kept : List Path) : Store :=
  let (cache, evicted) := (s.cache.record hash size path).evictLocked
  { cache := cache
    fs := unlinkAll s.fs (evicted.filter fun p => p ∉ kept) }

end Store

/-- The effect of an operation; `none` when the environment's part does not fit it. -/
def exec : (o : Op) → Env → Store → Option (Store × Res o)
  | .mkdirAll _, .ok, s => some (s, .ok ())
  | .mkdirAll _, .fault e, s => some (s, .error e)
  | .remove p, .ok, s => some (s.update (s.fs.remove p) (lit "no such file or directory"))
  | .remove _, .fault e, s => some (s, .error e)
  | .create p, .ok, s => some ({ s with fs := (s.fs.create p).1 }, .ok (s.fs.create p).2)
  | .create _, .fault e, s => some (s, .error e)
  | .write fd bytes, .ok, s => some (s.update (s.fs.write fd bytes) (lit "file already closed"))
  | .write fd bytes, .shortWrite n e, s =>
      some ((s.update (s.fs.write fd (bytes.take n)) e).1, .error e)
  | .sync _, .ok, s => some (s, .ok ())
  | .sync _, .fault e, s => some (s, .error e)
  | .close fd, .ok, s => some (s.update (s.fs.close fd) (lit "file already closed"))
  -- a failing close closes the descriptor all the same
  | .close fd, .fault e, s => some ((s.update (s.fs.close fd) e).1, .error e)
  | .rename old new, .ok, s =>
      some (s.update (s.fs.rename old new) (lit "no such file or directory"))
  | .rename _ _, .fault e, s => some (s, .error e)
  | .commit hash size path, .evict kept, s => some (s.commit hash size path kept, ())
  | _, _, _ => none

/-- A file operation never waits. -/
theorem exists_exec (o : Op) (s : Store) : ∃ e s' r, exec o e s = some (s', r) := by
  cases o with
  | commit hash size path => exact ⟨.evict [], _, _, rfl⟩
  | close fd => exact ⟨.ok, _, _, rfl⟩
  | write fd bytes => exact ⟨.ok, _, _, rfl⟩
  | remove path => exact ⟨.ok, _, _, rfl⟩
  | create path => exact ⟨.ok, _, _, rfl⟩
  | rename old new => exact ⟨.ok, _, _, rfl⟩
  | mkdirAll dir => exact ⟨.ok, _, _, rfl⟩
  | sync fd => exact ⟨.ok, _, _, rfl⟩

/-- A program of the gateway. -/
abbrev Code (α : Type) := Prog Op Res α

/-! ## The operations as programs -/

def mkdirAll (dir : Path) : Code (Except IoError Unit) :=
  Prog.perform (Op.mkdirAll dir)

def remove (path : Path) : Code (Except IoError Unit) :=
  Prog.perform (Op.remove path)

def create (path : Path) : Code (Except IoError Nat) :=
  Prog.perform (Op.create path)

def write (fd : Nat) (bytes : Bytes) : Code (Except IoError Unit) :=
  Prog.perform (Op.write fd bytes)

def sync (fd : Nat) : Code (Except IoError Unit) :=
  Prog.perform (Op.sync fd)

def close (fd : Nat) : Code (Except IoError Unit) :=
  Prog.perform (Op.close fd)

def rename (old new : Path) : Code (Except IoError Unit) :=
  Prog.perform (Op.rename old new)

def commit (hash : Bytes) (size : Int) (path : Path) : Code Unit :=
  Prog.perform (Op.commit hash size path)

/-! ## Put -/

inductive PutError
  | hashLength (got : Nat)
  | negativeSize (got : Int)
  | mkdir (dir : Path) (e : IoError)
  | createTmp (e : IoError)
  | copy (e : IoError)
  | sizeMismatch (got : Nat) (want : Int)
  | fsync (e : IoError)
  | close (e : IoError)
  | hashMismatch (got want : Bytes)
  | rename (e : IoError)
  deriving DecidableEq, Repr

def PutError.text : PutError → Bytes
  | .hashLength got => lit "cache: hash must be 64 hex chars, got " ++ lit (toString got)
  | .negativeSize got => lit "cache: size must be >= 0, got " ++ lit (toString got)
  | .mkdir dir e => lit "cache: mkdir " ++ dir.text ++ lit ": " ++ e
  | .createTmp e => lit "cache: create tmp: " ++ e
  | .copy e => lit "cache: copy from src: " ++ e
  | .sizeMismatch got want =>
      lit "cache: streamed body size != declared size: got " ++ lit (toString got) ++
        lit ", want " ++ lit (toString want)
  | .fsync e => lit "cache: fsync tmp: " ++ e
  | .close e => lit "cache: close tmp: " ++ e
  | .hashMismatch got want =>
      lit "cache: streamed body hash != declared hash: got " ++ got ++ lit ", want " ++ want
  | .rename e => lit "cache: rename tmp->final: " ++ e

/-- An `io.Reader`: the blocks its reads return, and the error at the end, `none` for `io.EOF`. -/
structure Reader where
  blocks : List Bytes
  err : Option IoError
  deriving DecidableEq, Repr

def cleanupTmp (fd : Nat) (tmp : Path) : Code Unit := do
  let _ ← close fd
  let _ ← remove tmp
  pure ()

/-- `io.Copy(f, io.TeeReader(src, hasher))`: the hasher and the count after the copy. -/
def copyTee (fd : Nat) (err : Option IoError) :
    MerkleHasher → Nat → List Bytes → Code (Except IoError (MerkleHasher × Nat))
  | hasher, written, [] =>
      match err with
      | none => pure (.ok (hasher, written))
      | some e => pure (.error e)
  | hasher, written, block :: rest =>
      if block = [] then
        copyTee fd err hasher written rest
      else do
        match ← write fd block with
        | .error e => pure (.error e)
        | .ok () => copyTee fd err (hasher.write block) (written + block.length) rest

/-- `Put` after the file is complete on disk: the hash gate, the rename, the bookkeeping. -/
def publish (blake3 : Blake3) (hash : Bytes) (size : Int) (final tmp : Path)
    (hasher : MerkleHasher) : Code (Except PutError Path) :=
  let got := hasher.hex blake3
  if got ≠ hash then do
    let _ ← remove tmp
    pure (.error (.hashMismatch got hash))
  else do
    match ← rename tmp final with
    | .error e =>
        let _ ← remove tmp
        pure (.error (.rename e))
    | .ok () =>
        commit hash size final
        pure (.ok final)

def fill (blake3 : Blake3) (hash : Bytes) (size : Int) (src : Reader) (final tmp : Path)
    (fd : Nat) : Code (Except PutError Path) := do
  match ← copyTee fd src.err .new 0 src.blocks with
  | .error e =>
      cleanupTmp fd tmp
      pure (.error (.copy e))
  | .ok (hasher, written) =>
      if (written : Int) ≠ size then
        cleanupTmp fd tmp
        pure (.error (.sizeMismatch written size))
      else
        match ← sync fd with
        | .error e =>
            cleanupTmp fd tmp
            pure (.error (.fsync e))
        | .ok () =>
            match ← close fd with
            | .error e =>
                let _ ← remove tmp
                pure (.error (.close e))
            | .ok () => publish blake3 hash size final tmp hasher

def put (blake3 : Blake3) (dir hash : Bytes) (size : Int) (src : Reader) :
    Code (Except PutError Path) :=
  if hash.length ≠ 64 then
    pure (.error (.hashLength hash.length))
  else if size < 0 then
    pure (.error (.negativeSize size))
  else do
    let final := pathFor dir hash
    match ← mkdirAll final.dir with
    | .error e => pure (.error (.mkdir final.dir e))
    | .ok () =>
        let tmp := final.extend (lit ".tmp")
        let _ ← remove tmp
        match ← create tmp with
        | .error e => pure (.error (.createTmp e))
        | .ok fd => fill blake3 hash size src final tmp fd

/-! ## `Put` before and after the copy -/

/-- `Put` up to the open file. -/
def openTmp (dir hash : Bytes) (size : Int) : Code (Except PutError Nat) :=
  if hash.length ≠ 64 then
    pure (.error (.hashLength hash.length))
  else if size < 0 then
    pure (.error (.negativeSize size))
  else do
    match ← mkdirAll (pathFor dir hash).dir with
    | .error e => pure (.error (.mkdir (pathFor dir hash).dir e))
    | .ok () =>
        let _ ← remove (tmpFor dir hash)
        match ← create (tmpFor dir hash) with
        | .error e => pure (.error (.createTmp e))
        | .ok fd => pure (.ok fd)

/-- `Put` from the end of the copy on. -/
def afterCopy (blake3 : Blake3) (dir hash : Bytes) (size : Int) (fd : Nat) :
    Except IoError (MerkleHasher × Nat) → Code (Except PutError Path)
  | .error e => do
      cleanupTmp fd (tmpFor dir hash)
      pure (.error (.copy e))
  | .ok (hasher, written) =>
      if (written : Int) ≠ size then do
        cleanupTmp fd (tmpFor dir hash)
        pure (.error (.sizeMismatch written size))
      else do
        match ← sync fd with
        | .error e =>
            cleanupTmp fd (tmpFor dir hash)
            pure (.error (.fsync e))
        | .ok () =>
            match ← close fd with
            | .error e =>
                let _ ← remove (tmpFor dir hash)
                pure (.error (.close e))
            | .ok () => publish blake3 hash size (pathFor dir hash) (tmpFor dir hash) hasher

/-- `Put` from the open file on, for a source that has `blocks` left. -/
def copyRest (blake3 : Blake3) (dir hash : Bytes) (size : Int) (fd : Nat) (err : Option IoError)
    (hasher : MerkleHasher) (written : Nat) (blocks : List Bytes) : Code (Except PutError Path) :=
  copyTee fd err hasher written blocks >>= afterCopy blake3 dir hash size fd

/-- The two halves and the copy between them are `Put`. -/
theorem put_eq (blake3 : Blake3) (dir hash : Bytes) (size : Int) (src : Reader) :
    put blake3 dir hash size src = openTmp dir hash size >>= fun
      | .error e => pure (.error e)
      | .ok fd => copyRest blake3 dir hash size fd src.err .new 0 src.blocks := by
  have hfill : ∀ fd, fill blake3 hash size src (pathFor dir hash) (tmpFor dir hash) fd =
      copyRest blake3 dir hash size fd src.err .new 0 src.blocks := by
    intro fd
    unfold fill copyRest
    congr 1
  unfold put openTmp
  split
  · rfl
  · split
    · rfl
    · simp only [← hfill, mkdirAll, remove, create, Prog.perform_bind, Prog.call_bind]
      congr 1
      funext made
      cases made with
      | error e => rfl
      | ok _ =>
          simp only [Prog.call_bind]
          congr 1
          funext _
          congr 1
          funext created
          cases created with
          | error e => rfl
          | ok fd => rfl

/-- `copyTee`, with the blocks that it did not read. -/
def copyTeeRest (fd : Nat) (err : Option IoError) :
    MerkleHasher → Nat → List Bytes → Code (Except IoError (MerkleHasher × Nat) × List Bytes)
  | hasher, written, [] =>
      match err with
      | none => pure (.ok (hasher, written), [])
      | some e => pure (.error e, [])
  | hasher, written, block :: rest =>
      if block = [] then
        copyTeeRest fd err hasher written rest
      else do
        match ← write fd block with
        | .error e => pure (.error e, rest)
        | .ok () => copyTeeRest fd err (hasher.write block) (written + block.length) rest

/-- `put`, with the blocks of the source that it did not read. -/
def putRest (blake3 : Blake3) (dir hash : Bytes) (size : Int) (src : Reader) :
    Code (Except PutError Path × List Bytes) := do
  match ← openTmp dir hash size with
  | .error e => pure (.error e, src.blocks)
  | .ok fd =>
      let p ← copyTeeRest fd src.err .new 0 src.blocks
      let res ← afterCopy blake3 dir hash size fd p.1
      pure (res, p.2)

theorem fst_copyTeeRest (fd : Nat) (err : Option IoError) (hasher : MerkleHasher) (written : Nat)
    (blocks : List Bytes) :
    Prod.fst <$> copyTeeRest fd err hasher written blocks = copyTee fd err hasher written blocks := by
  induction blocks generalizing hasher written with
  | nil =>
      unfold copyTeeRest copyTee
      cases err <;> rfl
  | cons block rest ih =>
      unfold copyTeeRest copyTee
      split
      · exact ih hasher written
      · simp only [write, Prog.map_eq_bind, Prog.perform_bind, Prog.call_bind]
        congr 1
        funext res
        cases res with
        | error e => rfl
        | ok _ => exact ih _ _

/-- Apart from what it says about the source, it is `put`. -/
theorem fst_putRest (blake3 : Blake3) (dir hash : Bytes) (size : Int) (src : Reader) :
    Prod.fst <$> putRest blake3 dir hash size src = put blake3 dir hash size src := by
  rw [put_eq, putRest, Prog.map_eq_bind, Prog.bind_assoc]
  congr 1
  funext opened
  cases opened with
  | error e => rfl
  | ok fd =>
      show (copyTeeRest fd src.err .new 0 src.blocks >>= fun p =>
          afterCopy blake3 dir hash size fd p.1 >>= fun res => Prog.done (res, p.2)) >>=
          (fun a => Prog.done a.1) = copyTee fd src.err .new 0 src.blocks >>=
          afterCopy blake3 dir hash size fd
      rw [← fst_copyTeeRest, Prog.map_eq_bind, Prog.bind_assoc, Prog.bind_assoc]
      congr 1
      funext p
      rw [Prog.bind_assoc]
      exact Prog.bind_done _

theorem ends_copyTeeRest (fd : Nat) (err : Option IoError) (hasher : MerkleHasher) (written : Nat)
    (blocks : List Bytes) :
    (copyTeeRest fd err hasher written blocks).Ends fun p => p.1.isOk = true → p.2 = [] := by
  induction blocks generalizing hasher written with
  | nil =>
      unfold copyTeeRest
      cases err <;> exact fun _ => rfl
  | cons block rest ih =>
      unfold copyTeeRest
      split
      · exact ih hasher written
      · rintro (e | _)
        · exact nofun
        · exact ih _ _

/-- A `Put` that succeeds has read its source to the end. -/
theorem ends_putRest (blake3 : Blake3) (dir hash : Bytes) (size : Int) (src : Reader) :
    (putRest blake3 dir hash size src).Ends fun p => p.1.isOk = true → p.2 = [] := by
  refine (Prog.ends_true _).bind ?_
  rintro (e | fd) _
  · exact nofun
  · refine (ends_copyTeeRest fd src.err .new 0 src.blocks).bind ?_
    rintro ⟨copied, left⟩ hleft
    cases copied with
    | error e =>
        rintro _ _
        exact nofun
    | ok p =>
        obtain rfl : left = [] := hleft rfl
        exact (Prog.ends_true _).bind fun _ _ _ => rfl

/-! ## What an operation can do -/

/-- Everything an operation can do to the store, with the results that tell. -/
def Outcome : (o : Op) → Store → Store → Res o → Prop
  | .mkdirAll _, s, s', _ => s' = s
  | .remove p, s, s', _ => s' = s ∨ ∃ fs, s.fs.remove p = some fs ∧ s' = { s with fs := fs }
  | .create p, s, s', r =>
      (s' = s ∧ ∃ e, r = .error e) ∨
        (s' = { s with fs := (s.fs.create p).1 } ∧ r = .ok (s.fs.create p).2)
  | .write fd _, s, s', _ =>
      s' = s ∨ ∃ bytes fs, s.fs.write fd bytes = some fs ∧ s' = { s with fs := fs }
  | .sync _, s, s', _ => s' = s
  | .close fd, s, s', _ => s' = s ∨ ∃ fs, s.fs.close fd = some fs ∧ s' = { s with fs := fs }
  | .rename old new, s, s', r =>
      (s' = s ∧ ∃ e, r = .error e) ∨
        ∃ fs, s.fs.rename old new = some fs ∧ s' = { s with fs := fs } ∧ r = .ok ()
  | .commit hash size path, s, s', _ => ∃ kept, s' = s.commit hash size path kept

theorem Store.update_outcome {s s' : Store} {fs : Option (FileSystem Path)} {e : IoError}
    (h : (s.update fs e).1 = s') : s' = s ∨ ∃ fs', fs = some fs' ∧ s' = { s with fs := fs' } := by
  cases fs with
  | none => exact .inl h.symm
  | some fs' => exact .inr ⟨fs', rfl, h.symm⟩

theorem outcome_of_exec {o : Op} {e : Env} {s s' : Store} {r : Res o}
    (he : exec o e s = some (s', r)) : Outcome o s s' r := by
  cases o with
  | mkdirAll dir =>
      cases e with
      | ok =>
          cases he
          rfl
      | fault e =>
          cases he
          rfl
      | _ => cases he
  | remove path =>
      cases e with
      | ok => exact Store.update_outcome (congrArg Prod.fst (Option.some.inj he))
      | fault e =>
          cases he
          exact .inl rfl
      | _ => cases he
  | create path =>
      cases e with
      | ok =>
          cases he
          exact .inr ⟨rfl, rfl⟩
      | fault e =>
          cases he
          exact .inl ⟨rfl, e, rfl⟩
      | _ => cases he
  | write fd bytes =>
      cases e with
      | ok =>
          rcases Store.update_outcome (congrArg Prod.fst (Option.some.inj he)) with hs | hs
          · exact .inl hs
          · exact .inr ⟨bytes, hs⟩
      -- A short write leaves the bytes it got through.
      | shortWrite n e =>
          cases he
          rcases Store.update_outcome rfl with hs | hs
          · exact .inl hs
          · exact .inr ⟨bytes.take n, hs⟩
      | _ => cases he
  | sync fd =>
      cases e with
      | ok =>
          cases he
          rfl
      | fault e =>
          cases he
          rfl
      | _ => cases he
  | close fd =>
      cases e with
      | ok => exact Store.update_outcome (congrArg Prod.fst (Option.some.inj he))
      -- A faulty close still releases the descriptor.
      | fault e =>
          cases he
          exact Store.update_outcome rfl
      | _ => cases he
  | rename old new =>
      cases e with
      | ok =>
          cases hfs : s.fs.rename old new with
          | none =>
              simp only [exec, hfs, Store.update] at he
              cases he
              exact .inl ⟨rfl, _, rfl⟩
          | some fs =>
              simp only [exec, hfs, Store.update] at he
              cases he
              exact .inr ⟨fs, hfs, rfl, rfl⟩
      | fault e =>
          cases he
          exact .inl ⟨rfl, e, rfl⟩
      | _ => cases he
  | commit hash size path =>
      cases e with
      -- The commit cannot fail; the environment says which removals did.
      | evict kept =>
          cases he
          exact ⟨kept, rfl⟩
      | _ => cases he

/-! ## Runs without faults -/

/-- The operation did not fail; the outcome of a removal is discarded everywhere. -/
def Faultless : Call Op Res → Prop
  | ⟨.mkdirAll _, r⟩ => r = .ok ()
  | ⟨.remove _, _⟩ => True
  | ⟨.create _, r⟩ => ∃ fd, r = .ok fd
  | ⟨.write _ _, r⟩ => r = .ok ()
  | ⟨.sync _, r⟩ => r = .ok ()
  | ⟨.close _, r⟩ => r = .ok ()
  | ⟨.rename _ _, r⟩ => r = .ok ()
  | ⟨.commit _ _ _, _⟩ => True

/-- What an operation that does not fail does to the store, and what it returns. -/
def Effect : (o : Op) → Store → Store → Res o → Prop
  | .mkdirAll _, s, s', r => s' = s ∧ r = .ok ()
  | .remove _, _, _, _ => True
  | .create p, s, s', r => s' = { s with fs := (s.fs.create p).1 } ∧ r = .ok (s.fs.create p).2
  | .write fd bytes, s, s', r =>
      ∃ fs, s.fs.write fd bytes = some fs ∧ s' = { s with fs := fs } ∧ r = .ok ()
  | .sync _, s, s', r => s' = s ∧ r = .ok ()
  | .close fd, s, s', r => ∃ fs, s.fs.close fd = some fs ∧ s' = { s with fs := fs } ∧ r = .ok ()
  | .rename old new, s, s', r =>
      ∃ fs, s.fs.rename old new = some fs ∧ s' = { s with fs := fs } ∧ r = .ok ()
  | .commit hash size path, s, s', _ => ∃ kept, s' = s.commit hash size path kept

theorem Store.update_eq_ok {s s' : Store} {fs : Option (FileSystem Path)} {e : IoError}
    (h : s.update fs e = (s', .ok ())) : ∃ fs', fs = some fs' ∧ s' = { s with fs := fs' } := by
  cases fs with
  | none => cases h
  | some fs' =>
      cases h
      exact ⟨fs', rfl, rfl⟩

theorem effect_of_exec {o : Op} {e : Env} {s s' : Store} {r : Res o}
    (he : exec o e s = some (s', r)) (hr : Faultless ⟨o, r⟩) : Effect o s s' r := by
  cases o with
  | mkdirAll dir =>
      cases e with
      | ok =>
          cases he
          exact ⟨rfl, rfl⟩
      | fault e =>
          cases he
          cases hr
      | _ => cases he
  | remove path => trivial
  | create path =>
      cases e with
      | ok =>
          cases he
          exact ⟨rfl, rfl⟩
      | fault e =>
          cases he
          rcases hr with ⟨fd, hEq⟩
          cases hEq
      | _ => cases he
  | write fd bytes =>
      obtain rfl : r = .ok () := hr
      cases e with
      | ok =>
          rcases Store.update_eq_ok (Option.some.inj he) with ⟨fs, hfs, rfl⟩
          exact ⟨fs, hfs, rfl, rfl⟩
      | _ => cases he
  | sync fd =>
      cases e with
      | ok =>
          cases he
          exact ⟨rfl, rfl⟩
      | fault e =>
          cases he
          cases hr
      | _ => cases he
  | close fd =>
      obtain rfl : r = .ok () := hr
      cases e with
      | ok =>
          rcases Store.update_eq_ok (Option.some.inj he) with ⟨fs, hfs, rfl⟩
          exact ⟨fs, hfs, rfl, rfl⟩
      | _ => cases he
  | rename old new =>
      obtain rfl : r = .ok () := hr
      cases e with
      | ok =>
          rcases Store.update_eq_ok (Option.some.inj he) with ⟨fs, hfs, rfl⟩
          exact ⟨fs, hfs, rfl, rfl⟩
      | _ => cases he
  | commit hash size path =>
      cases e with
      | evict kept =>
          cases he
          exact ⟨kept, rfl⟩
      | _ => cases he

/-- Nothing but the file under `p` has changed, if no file had two names. -/
structure Beside (p : Path) (s s' : Store) : Prop where
  cache_eq : s'.cache = s.cache
  unlinked : s.fs.Unlinked → s'.fs.Unlinked
  content_eq : s.fs.Unlinked → ∀ q, q ≠ p → s'.fs.content q = s.fs.content q

namespace Beside

variable {p : Path} {s s' s'' : Store}

theorem refl (p : Path) (s : Store) : Beside p s s :=
  ⟨rfl, id, fun _ _ _ => rfl⟩

theorem trans (h : Beside p s s') (h' : Beside p s' s'') : Beside p s s'' where
  cache_eq := h'.cache_eq.trans h.cache_eq
  unlinked := fun hs => h'.unlinked (h.unlinked hs)
  content_eq := fun hs q hq => (h'.content_eq (h.unlinked hs) q hq).trans (h.content_eq hs q hq)

/-- The inodes that changed are under the name. -/
theorem of_frame {fs : FileSystem Path} {ns fds : Set Nat}
    (hframe : FileSystem.Frame s.fs fs {p} ns fds) (hns : ∀ n ∈ ns, s.fs.names.find p = some n)
    (hunlinked : s.fs.Unlinked → fs.Unlinked) : Beside p s { s with fs := fs } where
  cache_eq := rfl
  unlinked := hunlinked
  content_eq := by
    intro hs q hq
    apply hframe.content_eq hq
    intro n hfind hn
    exact hq (hs q p n hfind (hns n hn))

end Beside

section Ensures

variable {α : Type} {post : Store → α → Prop} {p : Path} {s₀ s : Store}

theorem ensures_mkdirAll {dir : Path} {f : Except IoError Unit → Code α}
    (hf : (f (.ok ())).Ensures exec Faultless post s) :
    (mkdirAll dir >>= f).Ensures exec Faultless post s := by
  refine ⟨⟨.ok, s, .ok (), rfl, rfl⟩, ?_⟩
  intro e s' r he hr
  obtain ⟨rfl, rfl⟩ := effect_of_exec he hr
  exact hf

theorem ensures_remove {f : Except IoError Unit → Code α} (hs : Beside p s₀ s)
    (hf : ∀ s' r, Beside p s₀ s' → (f r).Ensures exec Faultless post s') :
    (remove p >>= f).Ensures exec Faultless post s := by
  refine ⟨⟨.fault [], s, .error [], rfl, trivial⟩, ?_⟩
  intro e s' r he _
  apply hf
  rcases outcome_of_exec he with rfl | ⟨fs, hremove, rfl⟩
  · exact hs
  · refine hs.trans (.of_frame (FileSystem.frame_remove hremove) nofun ?_)
    intro hunlinked
    obtain ⟨n, -, rfl⟩ := Option.map_eq_some_iff.1 hremove
    apply hunlinked.of_names
    intro q m hfind
    rw [FileSystem.find_unlink] at hfind
    split at hfind
    · cases hfind
    · exact hfind

theorem ensures_create {f : Except IoError Nat → Code α} (hs : Beside p s₀ s)
    (hf : ∀ s' fd, Beside p s₀ s' → s'.fs.Holds p fd [] →
      (f (.ok fd)).Ensures exec Faultless post s') :
    (create p >>= f).Ensures exec Faultless post s := by
  refine ⟨⟨.ok, _, _, rfl, _, rfl⟩, ?_⟩
  intro e s' r he hr
  obtain ⟨rfl, rfl⟩ := effect_of_exec he hr
  have hframe := FileSystem.frame_create s.fs p
  refine hf _ _ (hs.trans (.of_frame hframe (fun _ hn => hn) ?_)) (FileSystem.holds_create s.fs p)
  exact fun hunlinked => hunlinked.create p

theorem ensures_write {fd : Nat} {content bytes : Bytes} {f : Except IoError Unit → Code α}
    (hs : Beside p s₀ s) (hholds : s.fs.Holds p fd content)
    (hf : ∀ s', Beside p s₀ s' → s'.fs.Holds p fd (content ++ bytes) →
      (f (.ok ())).Ensures exec Faultless post s') :
    (write fd bytes >>= f).Ensures exec Faultless post s := by
  rcases hholds.write bytes with ⟨fs, hwrite, hholds'⟩
  refine ⟨⟨.ok, { s with fs := fs }, .ok (), by simp [exec, hwrite, Store.update], rfl⟩, ?_⟩
  intro e s' r he hr
  obtain ⟨fs', hfs', rfl, rfl⟩ := effect_of_exec he hr
  cases hwrite.symm.trans hfs'
  obtain ⟨n, hfind, hfile⟩ := hholds.file_eq
  have hframe := FileSystem.frame_write hwrite hfile
  refine hf _ (hs.trans (.of_frame (hframe.mono (Set.empty_subset _) subset_rfl subset_rfl) ?_ ?_))
    hholds'
  · rintro m rfl
    exact hfind
  · intro hunlinked
    apply hunlinked.of_names
    intro q m hq
    rwa [hframe.find_eq q nofun] at hq

theorem ensures_sync {fd : Nat} {f : Except IoError Unit → Code α}
    (hf : (f (.ok ())).Ensures exec Faultless post s) :
    (sync fd >>= f).Ensures exec Faultless post s := by
  refine ⟨⟨.ok, s, .ok (), rfl, rfl⟩, ?_⟩
  intro e s' r he hr
  obtain ⟨rfl, rfl⟩ := effect_of_exec he hr
  exact hf

theorem ensures_close {fd : Nat} {content : Bytes} {f : Except IoError Unit → Code α}
    (hs : Beside p s₀ s) (hholds : s.fs.Holds p fd content)
    (hf : ∀ s', Beside p s₀ s' → s'.fs.content p = some content →
      (f (.ok ())).Ensures exec Faultless post s') :
    (close fd >>= f).Ensures exec Faultless post s := by
  rcases hholds.close with ⟨fs, hclose, hcontent⟩
  refine ⟨⟨.ok, { s with fs := fs }, .ok (), by simp [exec, hclose, Store.update], rfl⟩, ?_⟩
  intro e s' r he hr
  obtain ⟨fs', hfs', rfl, rfl⟩ := effect_of_exec he hr
  cases hclose.symm.trans hfs'
  have hframe := FileSystem.frame_close hclose
  refine hf _ (hs.trans (.of_frame (hframe.mono (Set.empty_subset _) subset_rfl subset_rfl) nofun ?_))
    hcontent
  intro hunlinked
  apply hunlinked.of_names
  intro q m hq
  rwa [hframe.find_eq q nofun] at hq

end Ensures

/-- Without faults the copy ends with everything written and everything hashed. -/
theorem ensures_copyTee {p : Path} {fd : Nat} (hasher : MerkleHasher) (written : Nat)
    {content : Bytes} {blocks : List Bytes} {s₀ s : Store} (hs : Beside p s₀ s)
    (hholds : s.fs.Holds p fd content) :
    (copyTee fd none hasher written blocks).Ensures exec Faultless
      (fun s' r => r = .ok (hasher.write blocks.flatten, written + blocks.flatten.length) ∧
        Beside p s₀ s' ∧ s'.fs.Holds p fd (content ++ blocks.flatten)) s := by
  induction blocks generalizing hasher written content s with
  | nil =>
      refine ⟨?_, hs, ?_⟩
      · simp [MerkleHasher.write]
      · simpa using hholds
  | cons block rest ih =>
      unfold copyTee
      split
      · rename_i hempty
        simpa [hempty] using ih hasher written hs hholds
      · apply ensures_write hs hholds
        intro s' hs' hholds'
        refine (ih (hasher.write block) (written + block.length) hs' hholds').mono ?_
        rintro s'' r ⟨hr, hs'', hfinal⟩
        refine ⟨?_, hs'', by simpa using hfinal⟩
        simp [hr, MerkleHasher.write, Nat.add_assoc]

/-- `Put` has published the bytes under `final`, by way of `tmp`, and recorded them last of all. -/
def Landed (hash : Bytes) (size : Int) (final tmp : Path) (bytes : Bytes) (s₀ s' : Store) : Prop :=
  ∃ (s : Store) (kept : List Path), s.cache = s₀.cache ∧ s.fs.content final = some bytes ∧
    (s₀.fs.Unlinked → s.fs.Unlinked ∧
      ∀ q, q ≠ tmp → q ≠ final → s.fs.content q = s₀.fs.content q) ∧
    s' = s.commit hash size final kept

/-- The outcome of a fault-free `Put` of `bytes`: refused by the hash gate, or published and
recorded. -/
def PutLands (blake3 : Blake3) (hash : Bytes) (size : Int) (final tmp : Path) (bytes : Bytes)
    (s₀ s' : Store) (r : Except PutError Path) : Prop :=
  if merkleHashHex blake3 bytes = hash then
    r = .ok final ∧ Landed hash size final tmp bytes s₀ s'
  else
    r = .error (.hashMismatch (merkleHashHex blake3 bytes) hash)

theorem ensures_publish {blake3 : Blake3} {hash bytes : Bytes} {size : Int} {final tmp : Path}
    {s₀ s : Store} (hs : Beside tmp s₀ s) (hcontent : s.fs.content tmp = some bytes) :
    (publish blake3 hash size final tmp (MerkleHasher.new.write bytes)).Ensures exec Faultless
      (PutLands blake3 hash size final tmp bytes s₀) s := by
  have hhex : (MerkleHasher.new.write bytes).hex blake3 = merkleHashHex blake3 bytes := rfl
  unfold publish
  simp only [hhex]
  split
  · rename_i hne
    apply ensures_remove hs
    intro s' r _
    simp [Prog.Ensures, PutLands, hne]
  · rename_i hEq
    have hgate : merkleHashHex blake3 bytes = hash := not_not.1 hEq
    rcases FileSystem.rename_of_content final hcontent with ⟨fs, hrename, hpublished⟩
    refine ⟨⟨.ok, { s with fs := fs }, .ok (), by simp [exec, hrename, Store.update], rfl⟩, ?_⟩
    intro e s' r he hr
    obtain ⟨fs', hfs', rfl, rfl⟩ := effect_of_exec he hr
    cases hrename.symm.trans hfs'
    refine ⟨⟨.evict [], _, (), rfl, trivial⟩, ?_⟩
    intro e s' r he hr
    obtain ⟨kept, rfl⟩ := effect_of_exec he hr
    change PutLands blake3 hash size final tmp bytes s₀ _ (.ok final)
    rw [PutLands, if_pos hgate]
    refine ⟨rfl, { s with fs := fs }, kept, hs.cache_eq, hpublished, ?_, rfl⟩
    intro hunlinked
    refine ⟨(hs.unlinked hunlinked).rename hrename, ?_⟩
    intro q htmp hfinal
    have hframe := FileSystem.frame_rename hrename
    have hsame : fs.content q = s.fs.content q :=
      hframe.content_eq (fun hq => hq.elim htmp hfinal) fun _ _ => nofun
    exact hsame.trans (hs.content_eq hunlinked q htmp)

/-- `Put` of a source that delivers the declared number of bytes, when no operation fails. -/
theorem ensures_put_lands (blake3 : Blake3) (dir : Bytes) {hash : Bytes} {size : Int}
    (blocks : List Bytes) (s : Store) (hhash : hash.length = 64)
    (hsize : size = blocks.flatten.length) :
    (put blake3 dir hash size ⟨blocks, none⟩).Ensures exec Faultless
      (PutLands blake3 hash size (pathFor dir hash) (tmpFor dir hash) blocks.flatten s) s := by
  have hnonneg : ¬size < 0 := by omega
  unfold put
  simp only [hhash, ne_eq, not_true_eq_false, if_false, hnonneg]
  apply ensures_mkdirAll
  apply ensures_remove (.refl (tmpFor dir hash) s)
  intro s₁ _ hs₁
  apply ensures_create hs₁
  intro s₂ fd hs₂ hholds
  refine Prog.Ensures.bind (ensures_copyTee .new 0 hs₂ hholds) ?_
  rintro s₃ r ⟨rfl, hs₃, hcopied⟩
  have hwritten : ((0 + blocks.flatten.length : Nat) : Int) = size := by omega
  simp only [hwritten, ne_eq, not_true_eq_false, if_false]
  apply ensures_sync
  apply ensures_close hs₃ hcopied
  intro s₄ hs₄ hcontent
  exact ensures_publish hs₄ hcontent

/-- What `PutLands` says of the new file and its entry. -/
def PutOutcome (blake3 : Blake3) (hash : Bytes) (size : Int) (final : Path) (bytes : Bytes)
    (s' : Store) (r : Except PutError Path) : Prop :=
  if merkleHashHex blake3 bytes = hash then
    r = .ok final ∧
      ∃ (s : Store) (kept : List Path),
        s.fs.content final = some bytes ∧ s' = s.commit hash size final kept
  else
    r = .error (.hashMismatch (merkleHashHex blake3 bytes) hash)

theorem ensures_put (blake3 : Blake3) (dir : Bytes) {hash : Bytes} {size : Int}
    (blocks : List Bytes) (s : Store) (hhash : hash.length = 64) (hsize : size = blocks.flatten.length) :
    (put blake3 dir hash size ⟨blocks, none⟩).Ensures exec Faultless
      (PutOutcome blake3 hash size (pathFor dir hash) blocks.flatten) s := by
  refine (ensures_put_lands blake3 dir blocks s hhash hsize).mono ?_
  intro s' r hlands
  by_cases hgate : merkleHashHex blake3 blocks.flatten = hash
  · rw [PutLands, if_pos hgate] at hlands
    rw [PutOutcome, if_pos hgate]
    obtain ⟨hr, s₁, kept, -, hcontent, -, hcommit⟩ := hlands
    exact ⟨hr, s₁, kept, hcontent, hcommit⟩
  · rw [PutLands, if_neg hgate] at hlands
    rw [PutOutcome, if_neg hgate]
    exact hlands

end Gateway
end OpenWeights
