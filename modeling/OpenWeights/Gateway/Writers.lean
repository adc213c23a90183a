import OpenWeights.Gateway.Drafts
import OpenWeights.Gateway.Flights
import OpenWeights.Gateway.Lru

/-!
# Writers — `Open`, `Put` and `FetchAndCache` side by side

Any number of calls of the cache, interleaved step by step.  The writers of one hash go through the
coalescer, so at most one of them is in flight; readers come and go.

The automaton `writing` follows one writer: it has to remove a stale temporary file before it
creates its own, to rename before it records, and it ends with nothing of its own left unless it
recorded an entry.
-/

namespace OpenWeights
namespace Gateway

open Lib Db OpenWeights.Core

/-- The errors after which `Put` has removed its temporary file. -/
def PutError.cleans : PutError → Bool
  | .copy _ => true
  | .sizeMismatch _ _ => true
  | .fsync _ => true
  | .close _ => true
  | .hashMismatch _ _ => true
  | .rename _ => true
  | _ => false

/-- A key of the cache: 64 lowercase hex digits, as the verifier checks. -/
structure Key where
  hash : Bytes
  hex : HexHash hash

namespace Serving

/-! ## Calls of the cache -/

inductive CacheRequest
  | cacheOpen (key : Key)
  | put (key : Key) (size : Int) (src : Reader)
  | fetch (key : Key) (siaId : Hash) (size : Int64)

namespace CacheRequest

def key : CacheRequest → Bytes
  | .cacheOpen k => k.hash
  | .put k _ _ => k.hash
  | .fetch k _ _ => k.hash

def size : CacheRequest → Option Int
  | .cacheOpen _ => none
  | .put _ size _ => some size
  | .fetch _ _ size => some size.toInt

theorem hex (req : CacheRequest) : HexHash req.key := by
  cases req with
  | cacheOpen k => exact k.hex
  | put k _ _ => exact k.hex
  | fetch k _ _ => exact k.hex

end CacheRequest

inductive CacheAnswer
  | opened (r : Option (Nat × Int))
  | written (r : Except SourceError Bytes)
  deriving DecidableEq, Repr

end Serving

/-- `Put` as the function of a coalescer call. -/
def Handlers.putFn (h : Handlers) (hash : Bytes) (size : Int) (src : Reader) :
    Serving.Code (Except SourceError Bytes) := do
  match ← Serving.onDisk (put h.blake3 h.dir hash size src) with
  | .ok _ => pure (.ok hash)
  | .error e => pure (.error (.put e))

namespace Serving

/-- The programs of the calls; there is one writer at a time for a hash. -/
def callCode (h : Handlers) : CacheRequest → Code CacheAnswer
  | .cacheOpen k => .opened <$> cacheOpen k.hash
  | .put k size src => .written <$> missDo k.hash (h.putFn k.hash size src)
  | .fetch k siaId size => .written <$> missDo k.hash (h.fetchAndCache k.hash siaId size)

abbrev CachePool (h : Handlers) := Pool (State h) CacheRequest Op Res CacheAnswer

abbrev CacheStep := Action CacheRequest Env

abbrev CacheTransition (h : Handlers) := CachePool h × CacheStep × CachePool h

abbrev CacheRun (h : Handlers) (maxBytes : Int) (found : FoundDisk)
    (tr : List (CacheTransition h)) (c : CachePool h) : Prop :=
  Lib.Path (callCode h) (exec h) (Pool.init (State.new h maxBytes found)) tr c

/-! ## One writer -/

/-- How far a writer has come; `clean` is when its temporary file is gone. -/
inductive Stage
  | entered
  | clean
  | drafting
  | renamed
  | recorded
  deriving DecidableEq, Repr

/-- A call before it leads, while it leads, and after. -/
inductive WritePhase
  | idle
  | leading (n : Nat) (stage : Stage)
  | ended (ok : Bool)
  deriving DecidableEq, Repr

namespace WritePhase

def lead : WritePhase → Option Nat
  | .leading n _ => some n
  | _ => none

def stage : WritePhase → Option Stage
  | .leading _ stage => some stage
  | _ => none

def published : WritePhase → Bool
  | .leading _ .renamed => true
  | .leading _ .recorded => true
  | .ended ok => ok
  | _ => false

def moved (φ : WritePhase) (stage : Stage) : WritePhase :=
  match φ with
  | .leading n _ => .leading n stage
  | _ => φ

def after (φ : WritePhase) : (o : Op) → Res o → WritePhase
  | .enter _, .lead n => .leading n .entered
  | .finish _ v, _ => .ended v.isOk
  | .disk (.remove _), _ => φ.moved .clean
  | .disk (.create _), .ok _ => φ.moved .drafting
  | .disk (.rename _ _), .ok _ => φ.moved .renamed
  | .disk (.commit _ _ _), _ => φ.moved .recorded
  | _, _ => φ

end WritePhase

/-- The stage in which a call may end with `v`. -/
def Stage.Ends (stage : Stage) : Except SourceError Bytes → Prop
  | .ok _ => stage = .recorded
  | .error (.put e) => stage = .clean ∨ (stage = .entered ∧ e.cleans = false)
  | .error _ => stage = .clean ∨ stage = .entered

def WritePhase.ok (h : Handlers) (req : CacheRequest) (φ : WritePhase) : Op → Prop
  | .index hash => hash = req.key ∧ req.size = none
  | .dropStale hash _ => hash = req.key ∧ req.size = none
  | .enter hash => φ = .idle ∧ hash = req.key
  | .finish n v => ∃ stage, φ = .leading n stage ∧ stage.Ends v
  | .disk (.remove p) =>
      p = h.tmp req.key ∧ ∃ n stage, φ = .leading n stage ∧ stage ≠ .renamed ∧ stage ≠ .recorded
  | .disk (.create p) => p = h.tmp req.key ∧ ∃ n, φ = .leading n .clean
  | .disk (.rename old new) =>
      old = h.tmp req.key ∧ new = h.final req.key ∧ ∃ n, φ = .leading n .drafting
  | .disk (.commit hash size path) =>
      hash = req.key ∧ path = h.final req.key ∧ req.size = some size ∧ ∃ n, φ = .leading n .renamed
  | _ => True

def publishes : Call Op Res → Bool
  | ⟨.disk (.rename _ _), .ok _⟩ => true
  | ⟨.disk (.commit _ _ _), _⟩ => true
  | _ => false

def writing (h : Handlers) : Typestate WritePhase CacheRequest Op Res where
  start := .idle
  after := WritePhase.after
  ok := WritePhase.ok h

section Programs

variable {h : Handlers} {req : CacheRequest} {n : Nat} {φ : WritePhase} {stage : Stage}

/-- An operation on the disk, then the rest. -/
theorem follows_disk {α : Type} {post : WritePhase → α → Prop} {o : Gateway.Op}
    {f : Gateway.Res o → Gateway.Code α} (hok : φ.ok h req (.disk o))
    (hf : ∀ r, (onDisk (f r)).Follows (writing h) req post (φ.after (.disk o) r)) :
    (onDisk (Prog.perform o >>= f)).Follows (writing h) req post φ :=
  ⟨hok, hf⟩

theorem follows_copyTee_writing {fd : Nat} {err : Option IoError} (hasher : MerkleHasher)
    (written : Nat) (blocks : List Bytes) :
    (onDisk (copyTee fd err hasher written blocks)).Follows (writing h) req
      (fun φ' r => φ' = φ ∧ ∀ res, r = .ok res → err = none) φ := by
  induction blocks generalizing hasher written with
  | nil =>
      unfold copyTee
      split
      · exact ⟨rfl, fun _ _ => rfl⟩
      · exact ⟨rfl, nofun⟩
  | cons block rest ih =>
      unfold copyTee
      split
      · exact ih hasher written
      · refine follows_disk trivial ?_
        rintro (e | _)
        · exact ⟨rfl, nofun⟩
        · exact ih _ _

/-- The temporary file goes, and the call ends with an error. -/
theorem follows_removed {α : Type} {a : α} {post : WritePhase → α → Prop}
    (hr : stage ≠ .renamed) (hc : stage ≠ .recorded) (hpost : post (.leading n .clean) a) :
    (onDisk (do
      let _ ← remove (h.tmp req.key)
      pure a)).Follows (writing h) req post (.leading n stage) :=
  follows_disk ⟨rfl, n, stage, rfl, hr, hc⟩ fun _ => hpost

/-- How `Put` ends, by the stage; it does not succeed with a source that fails. -/
def PutEnds (n : Nat) (src : Reader) (φ : WritePhase) (r : Except PutError Path) : Prop :=
  match r with
  | .ok _ => φ = .leading n .recorded ∧ src.err = none
  | .error e => φ = .leading n .clean ∨ (φ = .leading n .entered ∧ e.cleans = false)

theorem follows_publish_writing {size : Int} {src : Reader} (hsize : req.size = some size)
    (herr : src.err = none) (hasher : MerkleHasher) :
    (onDisk (publish h.blake3 req.key size (h.final req.key) (h.tmp req.key) hasher)).Follows
      (writing h) req (PutEnds n src) (.leading n .drafting) := by
  unfold publish
  simp only
  split
  · exact follows_removed nofun nofun (.inl rfl)
  · refine follows_disk ⟨rfl, rfl, n, rfl⟩ ?_
    rintro (e | _)
    · exact follows_removed nofun nofun (.inl rfl)
    · exact follows_disk ⟨rfl, rfl, hsize, n, rfl⟩ fun _ => ⟨rfl, herr⟩

theorem follows_fill_writing {size : Int} (hsize : req.size = some size) (src : Reader)
    (fd : Nat) :
    (onDisk (fill h.blake3 req.key size src (h.final req.key) (h.tmp req.key) fd)).Follows
      (writing h) req (PutEnds n src) (.leading n .drafting) := by
  have hcleanup : ∀ e : PutError, (onDisk (do
      cleanupTmp fd (h.tmp req.key)
      pure (.error e : Except PutError Path))).Follows (writing h) req (PutEnds n src)
        (.leading n .drafting) := by
    intro e
    exact follows_disk trivial fun _ => follows_removed nofun nofun (.inl rfl)
  unfold fill
  rw [onDisk, Prog.embed_bind]
  refine (follows_copyTee_writing .new 0 src.blocks).bind ?_
  rintro φ' (e | ⟨hasher, written⟩) ⟨rfl, herr⟩
  · exact hcleanup _
  · simp only
    split
    · exact hcleanup _
    · refine follows_disk trivial ?_
      rintro (e | _)
      · exact hcleanup _
      · refine follows_disk trivial ?_
        rintro (e | _)
        · exact follows_removed nofun nofun (.inl rfl)
        · exact follows_publish_writing hsize (herr _ rfl) hasher

theorem follows_put_writing {size : Int} (hsize : req.size = some size) (src : Reader) :
    (onDisk (put h.blake3 h.dir req.key size src)).Follows (writing h) req (PutEnds n src)
      (.leading n .entered) := by
  unfold put
  split
  · exact .inr ⟨rfl, rfl⟩
  · split
    · exact .inr ⟨rfl, rfl⟩
    · refine follows_disk trivial ?_
      rintro (e | _)
      · exact .inr ⟨rfl, rfl⟩
      · refine follows_disk ⟨rfl, n, .entered, rfl, nofun, nofun⟩ ?_
        intro _
        refine follows_disk ⟨rfl, n, rfl⟩ ?_
        rintro (e | fd)
        · exact .inl rfl
        · exact follows_fill_writing hsize src fd

def FetchEnds (n : Nat) (φ : WritePhase) (v : Except SourceError Bytes) : Prop :=
  ∃ stage : Stage, φ = .leading n stage ∧ stage.Ends v

theorem PutEnds.fetchEnds {n : Nat} {src : Reader} {φ : WritePhase} {e : PutError}
    (hends : PutEnds n src φ (.error e)) : FetchEnds n φ (.error (.put e)) := by
  rcases hends with rfl | ⟨rfl, hcleans⟩
  · exact ⟨.clean, rfl, .inl rfl⟩
  · exact ⟨.entered, rfl, .inr ⟨rfl, hcleans⟩⟩

theorem follows_putFn {size : Int} (hsize : req.size = some size) (src : Reader) :
    (h.putFn req.key size src).Follows (writing h) req (FetchEnds n) (.leading n .entered) := by
  refine (follows_put_writing hsize src).bind ?_
  rintro φ' (e | path) hends
  · exact hends.fetchEnds
  · exact ⟨.recorded, hends.1, rfl⟩

theorem follows_fetchAndCache {siaId : Hash} {size : Int64} (hsize : req.size = some size.toInt) :
    (h.fetchAndCache req.key siaId size).Follows (writing h) req (FetchEnds n)
      (.leading n .entered) := by
  refine .perform_bind trivial ?_
  intro d
  have hput := follows_put_writing (h := h) (n := n) hsize d.reader
  rw [← onDisk_putRest] at hput
  refine hput.of_map.bind ?_
  rintro φ' ⟨r, left⟩ hends
  refine .perform_bind trivial fun _ => ?_
  cases herr : d.err with
  | some e =>
      -- the error of the download reaches `Put` as the end of its source
      cases r with
      | ok path =>
          have hnone := hends.2
          simp [Download.reader, herr] at hnone
      | error e' =>
          rcases hends with rfl | ⟨rfl, -⟩
          · exact ⟨.clean, rfl, .inl rfl⟩
          · exact ⟨.entered, rfl, .inr rfl⟩
  | none =>
      cases r with
      | ok path => exact ⟨.recorded, hends.1, rfl⟩
      | error e => exact hends.fetchEnds

/-- How a call ends: it leads no more, and if it failed then nothing was published. -/
def CallEnds (φ : WritePhase) (a : CacheAnswer) : Prop :=
  φ.lead = none ∧ ∀ e, a = .written (.error e) → φ.published = false

theorem follows_missDo_writing {fetch : Code (Except SourceError Bytes)}
    (hfetch : ∀ n, fetch.Follows (writing h) req (FetchEnds n) (.leading n .entered)) :
    (missDo req.key fetch).Follows (writing h) req (fun φ v => CallEnds φ (.written v)) .idle := by
  refine .perform_bind ⟨rfl, rfl⟩ ?_
  rintro (n | n)
  · refine (hfetch n).bind ?_
    rintro φ v ⟨stage, rfl, hends⟩
    refine .perform_bind ⟨stage, rfl, hends⟩ fun _ => ⟨rfl, ?_⟩
    rintro e hEq
    cases hEq
    rfl
  · exact ⟨trivial, fun v => ⟨rfl, fun _ _ => rfl⟩⟩

theorem follows_cacheOpen_writing (hsize : req.size = none) :
    (cacheOpen req.key).Follows (writing h) req (fun φ r => CallEnds φ (.opened r)) .idle := by
  refine .perform_bind ⟨rfl, hsize⟩ ?_
  rintro (_ | ⟨path, size⟩)
  · exact ⟨rfl, nofun⟩
  · refine .perform_bind trivial ?_
    rintro (e | fd)
    · exact .perform_bind ⟨rfl, hsize⟩ fun _ => ⟨rfl, nofun⟩
    · exact ⟨rfl, nofun⟩

theorem follows_callCode (req : CacheRequest) :
    (callCode h req).Follows (writing h) req CallEnds .idle := by
  cases req with
  | cacheOpen k =>
      have hopen : (cacheOpen k.hash).Follows (writing h) (.cacheOpen k)
          (fun φ r => CallEnds φ (.opened r)) .idle := follows_cacheOpen_writing rfl
      exact hopen.bind fun φ _ hφ => hφ
  | put k size src =>
      have hdo : (missDo k.hash (h.putFn k.hash size src)).Follows (writing h) (.put k size src)
          (fun φ v => CallEnds φ (.written v)) .idle := follows_missDo_writing fun n => follows_putFn rfl src
      exact hdo.bind fun φ _ hφ => hφ
  | fetch k siaId size =>
      have hdo : (missDo k.hash (h.fetchAndCache k.hash siaId size)).Follows (writing h)
          (.fetch k siaId size) (fun φ v => CallEnds φ (.written v)) .idle :=
        follows_missDo_writing fun n => follows_fetchAndCache rfl
      exact hdo.bind fun φ _ hφ => hφ

end Programs

/-- Only a rename takes a writer to `renamed`, and only the bookkeeping takes it further. -/
theorem renamed_after {h : Handlers} {req : CacheRequest} {φ : WritePhase} {o : Op} {r : Res o}
    (hok : φ.ok h req o) (hcall : publishes ⟨o, r⟩ = false) :
    (φ.after o r).stage = some .renamed ↔ φ.stage = some .renamed := by
  cases o with
  | enter hash =>
      obtain ⟨rfl, -⟩ := hok
      cases r <;> simp [WritePhase.after, WritePhase.stage]
  | finish n v =>
      obtain ⟨stage, rfl, hends⟩ := hok
      have hne : stage ≠ .renamed := by
        rintro rfl
        cases v with
        | ok hash => cases hends
        | error e =>
            cases e with
            | put e =>
                rcases hends with hEq | ⟨hEq, -⟩
                · cases hEq
                · cases hEq
            | siaDownload e => rcases hends with hEq | hEq <;> cases hEq
            | openAfterFetch => rcases hends with hEq | hEq <;> cases hEq
      simp [WritePhase.after, WritePhase.stage, hne]
  | disk o =>
      cases o with
      | remove p =>
          obtain ⟨-, n, stage, rfl, hne, -⟩ := hok
          simp [WritePhase.after, WritePhase.moved, WritePhase.stage, hne]
      | create p =>
          obtain ⟨-, n, rfl⟩ := hok
          cases r <;> simp [WritePhase.after, WritePhase.moved, WritePhase.stage]
      | rename old new =>
          cases r with
          | ok u => cases hcall
          | error e => rfl
      | commit hash size path => cases hcall
      | _ => rfl
  | _ => rfl

theorem flies_writing (h : Handlers) : Flies (writing h) WritePhase.lead CacheRequest.key where
  start := rfl
  enter_ok := by
    rintro req φ hash ⟨rfl, rfl⟩
    exact ⟨rfl, rfl⟩
  finish_ok := by
    rintro req φ n v ⟨stage, rfl, -⟩
    rfl
  after_lead := fun _ _ _ => rfl
  after_join := fun _ _ _ hidle => hidle
  after_finish := fun _ _ _ => rfl
  after_other := by
    intro φ o r henter hfinish
    have hmoved : ∀ stage, (φ.moved stage).lead = φ.lead := by
      intro stage
      cases φ <;> rfl
    cases o with
    | enter hash => exact absurd rfl (henter hash)
    | finish n v => exact absurd rfl (hfinish n v)
    | disk o =>
        cases o with
        | remove p => exact hmoved _
        | create p =>
            cases r with
            | ok fd => exact hmoved _
            | error e => rfl
        | rename old new =>
            cases r with
            | ok u => exact hmoved _
            | error e => rfl
        | commit hash size path => exact hmoved _
        | _ => rfl
    | _ => rfl

/-! ## What the files hold -/

/-- What a writer vouches for: the declared number of bytes, with the digest of the hash. -/
structure Verified (h : Handlers) (req : CacheRequest) (hash bytes : Bytes) : Prop where
  key_eq : req.key = hash
  size_eq : req.size = some (bytes.length : Int)
  digest : merkleHashHex h.blake3 bytes = hash

/-- The rules of the disk for the calls of the cache. -/
abbrev cacheDiscipline (h : Handlers) : Lib.Discipline CacheRequest (exec h) :=
  draftDiscipline h CacheRequest (Verified h) fun _ _ => True

section Discipline

variable {h : Handlers} {i : Nat} {req : CacheRequest} {w : View h CacheRequest}

theorem verified_of_source {src : Reader} {size : Int} (hsize : req.size = some size)
    (hlength : (src.blocks.flatten.length : Int) = size)
    (hdigest : merkleHashHex h.blake3 src.blocks.flatten = req.key) :
    Verified h req req.key src.blocks.flatten :=
  ⟨rfl, by rw [hsize, hlength], hdigest⟩

theorem satNow_putFn {n : Nat} {size : Int} {src : Reader} (hsize : req.size = some size)
    (hinv : Inv (Verified h) w) (hleads : Leads w i req.key n) :
    (h.putFn req.key size src).SatNow (cacheDiscipline h) i req
      (fun w v => Leads w i req.key n ∧ Accounted w v) w := by
  have hput : (onDisk (put h.blake3 h.dir req.key size src)).SatNow (cacheDiscipline h) i req
      (fun w _ => Leads w i req.key n) w :=
    satNow_put hleads fun _ hlength hdigest => verified_of_source hsize hlength hdigest
  refine hput.bind hinv ?_
  rintro w₁ (e | path) _ hleads₁
  · exact ⟨hleads₁, nofun⟩
  · exact ⟨hleads₁, nofun⟩

/-- The file that an `Open` has returned is a verified one. -/
def Answered (h : Handlers) (i : Nat) (req : CacheRequest) (w : View h CacheRequest)
    (a : CacheAnswer) : Prop :=
  ∀ fd size, a = .opened (some (fd, size)) → Reading (Verified h) w i req.key fd

theorem satNow_callCode (hinv : Inv (Verified h) w) :
    (callCode h req).SatNow (cacheDiscipline h) i req (Answered h i req) w := by
  cases req with
  | cacheOpen k =>
      have hopen : (cacheOpen k.hash).SatNow (cacheDiscipline h) i (.cacheOpen k) _ w :=
        satNow_cacheOpen (fun _ _ _ _ => trivial) (fun _ _ _ _ => trivial) hinv trivial
      refine hopen.bind hinv ?_
      intro w₁ r _ hread fd size hEq
      cases hEq
      exact hread.2 fd size rfl
  | put k size src =>
      have hdo : (missDo k.hash (h.putFn k.hash size src)).SatNow (cacheDiscipline h) i
          (.put k size src) Accounted w :=
        satNow_missDo k.hex fun w₁ n hinv₁ hleads => satNow_putFn rfl hinv₁ hleads
      exact hdo.bind hinv fun _ _ _ _ => nofun
  | fetch k siaId size =>
      have hgood : ∀ bytes : Bytes, (bytes.length : Int) = size.toInt →
          merkleHashHex h.blake3 bytes = k.hash →
            Verified h (.fetch k siaId size) k.hash bytes := by
        intro bytes hlength hdigest
        exact ⟨rfl, congrArg some hlength.symm, hdigest⟩
      have hdo : (missDo k.hash (h.fetchAndCache k.hash siaId size)).SatNow (cacheDiscipline h) i
          (.fetch k siaId size) Accounted w :=
        satNow_missDo k.hex fun w₁ n _ hleads => satNow_fetchAndCache hleads hgood
      exact hdo.bind hinv fun _ _ _ _ => nofun

end Discipline

/-! ## What one step does -/

def SameFinals (h : Handlers) (fs fs' : FileSystem Path) : Prop :=
  ∀ hash, HexHash hash → fs'.names.find (h.final hash) = fs.names.find (h.final hash) ∧
    fs'.content (h.final hash) = fs.content (h.final hash)

theorem SameFinals.refl (h : Handlers) (fs : FileSystem Path) : SameFinals h fs fs :=
  fun _ _ => ⟨rfl, rfl⟩

/-- Everything an operation of a call can do to the index and to the published files. -/
inductive Does (h : Handlers) (req : CacheRequest) (d d' : Store) : Call Op Res → Prop where
  /-- At most the temporary file of the hash changes. -/
  | quiet {call : Call Op Res} :
      d'.cache = d.cache →
      (∀ p, p ≠ h.tmp req.key → d'.fs.names.find p = d.fs.names.find p) →
      SameFinals h d.fs d'.fs →
      publishes call = false →
        Does h req d d' call
  | index {r : Option (Path × Int)} :
      req.size = none → d' = { d with cache := (d.cache.lookup req.key).1 } →
        Does h req d d' ⟨.index req.key, r⟩
  | dropStale {path : Path} :
      req.size = none → d' = { d with cache := d.cache.dropStale req.key path } →
        Does h req d d' ⟨.dropStale req.key path, ()⟩
  | rename {fs : FileSystem Path} {bytes : Bytes} :
      d.fs.rename (h.tmp req.key) (h.final req.key) = some fs → d' = { d with fs := fs } →
      d.fs.content (h.tmp req.key) = some bytes → Verified h req req.key bytes →
        Does h req d d' ⟨.disk (.rename (h.tmp req.key) (h.final req.key)), .ok ()⟩
  | commit {size : Int} {kept : List Path} :
      req.size = some size → d' = d.commit req.key size (h.final req.key) kept →
        Does h req d d' ⟨.disk (.commit req.key size (h.final req.key)), ()⟩

section Steps

variable {h : Handlers} {i : Nat} {req : CacheRequest} {w : View h CacheRequest}

/-- A file operation that changes the temporary file only. -/
theorem Does.of_frame {fs : FileSystem Path} {ps : Set Path} {ns fds : Set Nat}
    {call : Call Op Res} (hinv : Inv (Verified h) w)
    (hframe : FileSystem.Frame (files w) fs ps ns fds) (hps : ∀ p ∈ ps, p = h.tmp req.key)
    (hns : ∀ n ∈ ns, ∃ hash, HexHash hash ∧ (files w).names.find (h.tmp hash) = some n)
    (hcall : publishes call = false) :
    Does h req w.store.disk { w.store.disk with fs := fs } call := by
  have hnames : ∀ p, p ≠ h.tmp req.key → fs.names.find p = (files w).names.find p :=
    fun p hp => hframe.find_eq p fun hmem => hp (hps p hmem)
  refine .quiet rfl hnames ?_ hcall
  intro hash hhex
  have hname : fs.names.find (h.final hash) = (files w).names.find (h.final hash) :=
    hnames _ fun hEq => tmp_ne_final req.hex hhex hEq.symm
  refine ⟨hname, ?_⟩
  cases hfind : (files w).names.find (h.final hash) with
  | none => simp only [FileSystem.content, hname, hfind, Option.bind_none]
  | some n =>
      -- a published inode is not a draft
      have hfrozen := hinv.frozen_final hhex hfind
      have hinode : fs.inodes[n]? = (files w).inodes[n]? := by
        refine hframe.inode_eq n hfrozen.1 ?_
        intro hmem
        obtain ⟨hash', hhex', hdraft⟩ := hns n hmem
        exact hfrozen.2 hash' hhex' hdraft
      simp only [FileSystem.content, hname, hfind, Option.bind_some, hinode]

theorem Does.same {call : Call Op Res} {d : Store} (hcall : publishes call = false) :
    Does h req d d call :=
  .quiet rfl (fun _ _ => rfl) (.refl h _) hcall

theorem does_disk {o : Gateway.Op} {d : Store} {r : Gateway.Res o} {φ : WritePhase}
    (hinv : Inv (Verified h) w) (hpre : Pre (Verified h) i req w (.disk o))
    (hok : φ.ok h req (.disk o)) (hout : Outcome o w.store.disk d r) :
    Does h req w.store.disk d ⟨.disk o, r⟩ := by
  cases o with
  | mkdirAll dir =>
      obtain rfl := hout
      exact .same rfl
  | remove p =>
      rcases hout with rfl | ⟨fs, hremove, rfl⟩
      · exact .same rfl
      · exact .of_frame hinv (FileSystem.frame_remove hremove) (fun q hq => hq.trans hok.1) nofun
          rfl
  | create p =>
      rcases hout with ⟨rfl, e, rfl⟩ | ⟨rfl, rfl⟩
      · exact .same rfl
      · refine .of_frame hinv (FileSystem.frame_create _ p) (fun q hq => hq.trans hok.1) ?_ rfl
        intro n hn
        exact ⟨req.key, req.hex, hok.1 ▸ hn⟩
  | write fd bytes =>
      obtain ⟨-, hash, n, m, off, hleads, hfind, hfile⟩ := hpre
      rcases hout with rfl | ⟨bytes', fs, hwrite, rfl⟩
      · exact .same rfl
      · refine .of_frame hinv (FileSystem.frame_write hwrite hfile) nofun ?_ rfl
        rintro n' rfl
        exact ⟨hash, hleads.hex, hfind⟩
  | sync fd =>
      obtain rfl := hout
      exact .same rfl
  | close fd =>
      rcases hout with rfl | ⟨fs, hclose, rfl⟩
      · exact .same rfl
      · exact .of_frame hinv (FileSystem.frame_close hclose) nofun nofun rfl
  | rename old new =>
      rcases hout with ⟨rfl, e, rfl⟩ | ⟨fs, hrename, rfl, rfl⟩
      · exact .same rfl
      -- The discipline lets a draft be renamed only to the final name of its own content.
      · obtain ⟨rfl, rfl, -⟩ := hok
        obtain ⟨hash, n, bytes, -, htmp, -, hcontent, hgood⟩ := hpre
        have hkey := hgood.key_eq
        subst hkey
        exact .rename hrename rfl hcontent hgood
  | commit hash size path =>
      obtain ⟨kept, rfl⟩ := hout
      obtain ⟨rfl, rfl, hsize, -⟩ := hok
      exact .commit hsize rfl

theorem does_of_exec {o : Op} {e : Env} {s : State h} {r : Res o} {φ : WritePhase}
    (hinv : Inv (Verified h) w) (hpre : Pre (Verified h) i req w o) (hok : φ.ok h req o)
    (he : exec h o e w.store = some (s, r)) : Does h req w.store.disk s.disk ⟨o, r⟩ := by
  cases o with
  | index hash =>
      cases e with
      | quiet =>
          cases he
          obtain ⟨rfl, hsize⟩ := hok
          exact .index hsize rfl
      | _ => cases he
  | openFile path =>
      cases e with
      | quiet =>
          have hEq : w.store.openFile path = (s, r) := Option.some.inj he
          unfold State.openFile at hEq
          split at hEq
          · rename_i fs fd hopen
            cases hEq
            exact .of_frame hinv (FileSystem.frame_openRead hopen) nofun nofun rfl
          · cases hEq
            exact .same rfl
      | fault e =>
          cases he
          exact .same rfl
      | _ => cases he
  | dropStale hash path =>
      cases e with
      | quiet =>
          cases he
          obtain ⟨rfl, hsize⟩ := hok
          exact .dropStale hsize rfl
      | _ => cases he
  | disk o =>
      cases e with
      | disk e =>
          rcases Option.map_eq_some_iff.1 he with ⟨⟨d, r'⟩, hexec, hEq⟩
          cases hEq
          exact does_disk hinv hpre hok (outcome_of_exec hexec)
      | _ => cases he
  | wait n =>
      cases e with
      | quiet =>
          rcases Option.map_eq_some_iff.1 he with ⟨v, -, hEq⟩
          cases hEq
          exact .same rfl
      | _ => cases he
  | receive left =>
      obtain ⟨-, rfl⟩ := exec_receive he
      exact .same rfl
  | _ => cases e <;> cases he <;> exact .same rfl

end Steps

/-! ## Whole runs -/

section Runs

variable {h : Handlers} {maxBytes : Int} {found : FoundDisk} {tr : List (CacheTransition h)}
  {c c' : CachePool h}

theorem CacheRun.reaches (hrun : CacheRun h maxBytes found tr c) :
    Reaches (callCode h) (exec h) (fun _ _ => True) (Pool.init (State.new h maxBytes found)) c :=
  ⟨tr, hrun, fun _ _ => trivial⟩

theorem CacheRun.conformsTo (hrun : CacheRun h maxBytes found tr c) :
    ConformsTo (writing h) CallEnds c :=
  hrun.reaches.conformsTo (.init _ _ _) follows_callCode

theorem CacheRun.flights (hrun : CacheRun h maxBytes found tr c) :
    Flights (writing h) WritePhase.lead CacheRequest.key c :=
  flights_of_reaches hrun.reaches (flies_writing h) follows_callCode

theorem CacheRun.secure (hrun : CacheRun h maxBytes found tr c) :
    Secure (cacheDiscipline h) (Answered h) c := by
  apply hrun.reaches.invariant (I := Secure (cacheDiscipline h) (Answered h))
  · refine ⟨Inv.start maxBytes found, ?_⟩
    intro i req p ht
    cases ht
  · intro c₁ a c₂ hsecure _ hstep
    exact hsecure.step hstep (fun i req w hinv => satNow_callCode hinv) fun _ _ _ _ _ _ _ _ _ _ =>
      trivial

/-- What a call knows about the operation it is about to perform. -/
theorem CacheRun.pre (hrun : CacheRun h maxBytes found tr c) {i : Nat} {req : CacheRequest} {o : Op}
    {k : Res o → Code CacheAnswer} (ht : c.tasks i = some ⟨req, some (.call o k)⟩) :
    Pre (Verified h) i req c.toWorld o ∧
      ((writing h).phaseOf i c.log).ok h req o :=
  ⟨(hrun.secure.2 i req _ ht c.toWorld (Rely.refl i _) hrun.secure.1).1,
    (hrun.conformsTo.follows i req _ ht).1⟩

end Runs

/-! ## A `Put` that succeeds -/

def sampleKey : Key :=
  ⟨sampleHash, rfl, rfl⟩

def cacheCallsOf (i : Nat) (envs : List Env) : List CacheStep :=
  envs.map (.call i)

def writtenEnvs : List Env :=
  [.quiet] ++ [.ok, .ok, .ok, .ok, .ok, .ok, .ok, .evict []].map .disk ++ [.quiet]

end Serving

end Gateway
end OpenWeights
