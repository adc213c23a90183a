import OpenWeights.Lib.Singleflight
import OpenWeights.Gateway.Agreement
import OpenWeights.Gateway.Handlers

/-!
# Serving — concurrent `GET /xorb` requests

Model of `ServeXorb` with `getXorbSource`, `MissCoalescer.Do`, `Cache.Open` and `FetchAndCache`, as
programs that share the disk cache, the coalescer and the contexts of the requests.  Between two
operations of one request any other request may run; waiting for another request is an operation
that cannot be performed yet.

The environment decides what the database answers, how a download ends, which file operation fails
and when a context is cancelled.  The size of a xorb is written once, with its row (`RowsKept`), so
the answers of the database differ in the object only.  A download is decided as a whole: the blocks
that are read from the pipe if all of it is read, and the error it returns.  It returns only when its
last block has been read: if `Put` gives up with blocks left, `FetchAndCache` waits for the download
for ever, and the call of the coalescer never ends (`Piping` has the two parties in detail).
-/

namespace OpenWeights
namespace Gateway

open Lib Db OpenWeights.Core

/-! ## Errors -/

/-- An error of `DownloadRange`; `canceled` is `errors.Is(err, context.Canceled)`. -/
structure SiaError where
  text : Bytes
  canceled : Bool
  deriving DecidableEq, Repr

/-- One `DownloadRange` of a whole object: what it writes, in the blocks it is read in, and the error it
returns.  The adapter wraps every error, so none is the bare `io.EOF`. -/
structure Download where
  blocks : List Bytes
  err : Option SiaError
  deriving DecidableEq, Repr

def Download.reader (d : Download) : Reader :=
  ⟨d.blocks, d.err.map SiaError.text⟩

inductive SourceError
  | siaDownload (e : SiaError)
  | put (e : PutError)
  | openAfterFetch
  deriving DecidableEq, Repr

/-- `errors.Is(err, context.Canceled)`.  An error of `Put` is passed on only when the download had
none, and then it is an error of a local file. -/
def SourceError.canceled : SourceError → Bool
  | .siaDownload e => e.canceled
  | .put _ => false
  | .openAfterFetch => false

/-- `Handlers`, with what its dependencies are made of; `sizes` has the `size_bytes` column. -/
structure Handlers where
  uuid : UuidParser
  hmac : Hmac
  verifier : UrlVerifier
  sizes : Bytes → Int64
  blake3 : Blake3
  dir : Bytes
  miss : Singleflight Bytes (Except SourceError Bytes)

namespace Serving

/-! ## Operations -/

inductive Op
  | lookupXorb (hash : Bytes)
  | index (hash : Bytes)
  | openFile (path : Path)
  | dropStale (hash : Bytes) (path : Path)
  | readAll (fd : Nat)
  | disk (o : Gateway.Op)
  | enter (hash : Bytes)
  | finish (n : Nat) (v : Except SourceError Bytes)
  | wait (n : Nat)
  | download (siaId : Hash)
  | receive (left : List Bytes)
  | sinceMs
  | clientGone (ctx : Nat) (err : SourceError)
  | cancel (ctx : Nat)

@[reducible] def Res : Op → Type
  | .lookupXorb _ => Except LookupErr (Hash × Int64)
  | .index _ => Option (Path × Int)
  | .openFile _ => Except IoError Nat
  | .dropStale _ _ => Unit
  | .readAll _ => Bytes
  | .disk o => Gateway.Res o
  | .enter _ => Role
  | .finish _ _ => Unit
  | .wait _ => Except SourceError Bytes
  | .download _ => Download
  | .receive _ => Unit
  | .sinceMs => Int64
  | .clientGone _ _ => Bool
  | .cancel _ => Unit

/-- What the environment decides about one operation. -/
inductive Env
  | quiet
  | row (siaId : Hash)
  | noRow (e : LookupErr)
  | fault (e : IoError)
  | disk (e : Gateway.Env)
  | download (d : Download)
  | elapsed (ms : Int64)

/-- The disk a gateway finds when it starts: whatever earlier runs left there, under one name
each. -/
structure FoundDisk where
  fs : FileSystem Path
  unlinked : fs.Unlinked

/-- The shared state: the cache and its disk, the coalescer, and the cancelled contexts. -/
structure State (h : Handlers) where
  disk : Store
  group : h.miss.Group
  cancelled : List Nat

namespace State

variable {h : Handlers}

def new (h : Handlers) (maxBytes : Int) (found : FoundDisk) : State h :=
  { disk := ⟨.new maxBytes, found.fs⟩
    group := h.miss.new
    cancelled := [] }

def setCache (s : State h) (cache : Cache) : State h :=
  { s with disk := { s.disk with cache := cache } }

def openFile (s : State h) (path : Path) : State h × Except IoError Nat :=
  match s.disk.fs.openRead path with
  | some (fs, fd) => ({ s with disk := { s.disk with fs := fs } }, .ok fd)
  | none => (s, .error (lit "no such file or directory"))

end State

/-- The effect of an operation; `none` when it has to wait, or the environment's part does not fit
it. -/
def exec (h : Handlers) : (o : Op) → Env → State h → Option (State h × Res o)
  | .lookupXorb hash, .row siaId, s => some (s, .ok (siaId, h.sizes hash))
  | .lookupXorb _, .noRow e, s => some (s, .error e)
  | .index hash, .quiet, s =>
      some (s.setCache (s.disk.cache.lookup hash).1, (s.disk.cache.lookup hash).2)
  | .openFile path, .quiet, s => some (s.openFile path)
  | .openFile _, .fault e, s => some (s, .error e)
  | .dropStale hash path, .quiet, s => some (s.setCache (s.disk.cache.dropStale hash path), ())
  -- the reads of an opened source succeed
  | .readAll fd, .quiet, s => some (s, (s.disk.fs.readAll fd).getD [])
  | .disk o, .disk e, s =>
      (Gateway.exec o e s.disk).map fun t => ({ s with disk := t.1 }, t.2)
  | .enter hash, .quiet, s =>
      some ({ s with group := (h.miss.enter s.group hash).1 }, (h.miss.enter s.group hash).2)
  | .finish n v, .quiet, s => some ({ s with group := h.miss.finish s.group n v }, ())
  | .wait n, .quiet, s => (h.miss.result s.group n).map fun v => (s, v)
  | .download _, .download d, s => some (s, d)
  -- the download has returned once there is nothing left to read
  | .receive [], .quiet, s => some (s, ())
  | .sinceMs, .elapsed ms, s => some (s, ms)
  | .clientGone ctx err, .quiet, s => some (s, decide (ctx ∈ s.cancelled) || err.canceled)
  | .cancel ctx, .quiet, s => some ({ s with cancelled := ctx :: s.cancelled }, ())
  | _, _, _ => none

/-- Nothing comes from a download that still has something to write. -/
theorem exec_receive {h : Handlers} {left : List Bytes} {e : Env} {s s' : State h}
    {r : Res (.receive left)} (he : exec h (.receive left) e s = some (s', r)) :
    left = [] ∧ s' = s := by
  cases left with
  | nil =>
      cases e with
      | quiet =>
          cases he
          exact ⟨rfl, rfl⟩
      | _ => cases he
  | cons block rest => cases e <;> cases he

abbrev Code (α : Type) := Prog Op Res α

/-! ## The operations as programs -/

def lookupXorb (hash : Bytes) : Code (Except LookupErr (Hash × Int64)) :=
  Prog.perform (Op.lookupXorb hash)

def index (hash : Bytes) : Code (Option (Path × Int)) :=
  Prog.perform (Op.index hash)

def openFile (path : Path) : Code (Except IoError Nat) :=
  Prog.perform (Op.openFile path)

def dropStale (hash : Bytes) (path : Path) : Code Unit :=
  Prog.perform (Op.dropStale hash path)

def readAll (fd : Nat) : Code Bytes :=
  Prog.perform (Op.readAll fd)

/-- A program of the cache, step by step. -/
def onDisk {α : Type} (p : Gateway.Code α) : Code α :=
  p.embed Op.disk fun _ r => r

theorem onDisk_bind {α β : Type} (p : Gateway.Code α) (f : α → Gateway.Code β) :
    onDisk (p >>= f) = onDisk p >>= fun a => onDisk (f a) :=
  Prog.embed_bind _ _ p f

theorem onDisk_putRest (blake3 : Blake3) (dir hash : Bytes) (size : Int) (src : Reader) :
    Prod.fst <$> onDisk (putRest blake3 dir hash size src) =
      onDisk (put blake3 dir hash size src) := by
  rw [← fst_putRest]
  exact (onDisk_bind (putRest blake3 dir hash size src) fun p => Prog.done p.1).symm

def enter (hash : Bytes) : Code Role :=
  Prog.perform (Op.enter hash)

def finish (n : Nat) (v : Except SourceError Bytes) : Code Unit :=
  Prog.perform (Op.finish n v)

def wait (n : Nat) : Code (Except SourceError Bytes) :=
  Prog.perform (Op.wait n)

def download (siaId : Hash) : Code Download :=
  Prog.perform (Op.download siaId)

/-- `<-errCh`, when `left` has not been read from the pipe. -/
def receive (left : List Bytes) : Code Unit :=
  Prog.perform (Op.receive left)

def sinceMs : Code Int64 :=
  Prog.perform Op.sinceMs

/-- `errors.Is(ctx.Err(), context.Canceled) || errors.Is(err, context.Canceled)`. -/
def clientGone (ctx : Nat) (err : SourceError) : Code Bool :=
  Prog.perform (Op.clientGone ctx err)

/-! ## The source of a xorb -/

/-- `Cache.Open`: the file and the size of the entry.  Its only error is `ErrCacheMiss`. -/
def cacheOpen (hash : Bytes) : Code (Option (Nat × Int)) := do
  match ← index hash with
  | none => pure none
  | some (path, size) =>
      match ← openFile path with
      | .ok fd => pure (some (fd, size))
      | .error _ =>
          -- the file vanished, or was evicted after the index was read
          dropStale hash path
          pure none

def missDo (hash : Bytes) (fetchFn : Code (Except SourceError Bytes)) :
    Code (Except SourceError Bytes) := do
  match ← enter hash with
  | .lead n =>
      let v ← fetchFn
      finish n v
      pure v
  | .join n => wait n

/-- The result of `FetchAndCache`: the error of the download goes before the one of `Put`. -/
def fetched (hash : Bytes) (dlErr : Option SiaError) (putRes : Except PutError Path) :
    Except SourceError Bytes :=
  match dlErr with
  | some e => .error (.siaDownload e)
  | none =>
      match putRes with
      | .error e => .error (.put e)
      | .ok _ => .ok hash

theorem isOk_fetched {hash : Bytes} {dlErr : Option SiaError} {putRes : Except PutError Path}
    (h : (fetched hash dlErr putRes).isOk = true) : dlErr = none ∧ putRes.isOk = true := by
  cases dlErr with
  | some e => cases h
  | none =>
      cases putRes with
      | error e => cases h
      | ok path => exact ⟨rfl, rfl⟩

/-- `xorbSource`, with the file still unread. -/
structure OpenSource where
  fd : Nat
  cacheHit : Bool
  siaFetchMs : Int64
  deriving DecidableEq, Repr

end Serving

namespace Handlers

open Serving

def fetchAndCache (h : Handlers) (hash : Bytes) (siaId : Hash) (size : Int64) :
    Serving.Code (Except SourceError Bytes) := do
  let d ← download siaId
  let p ← onDisk (putRest h.blake3 h.dir hash size.toInt d.reader)
  receive p.2
  pure (fetched hash d.err p.1)

/-- The function `getXorbSource` hands to the coalescer.  The file of a successful re-check is not
closed. -/
def fetchFn (h : Handlers) (hash : Bytes) (siaId : Hash) (size : Int64) :
    Serving.Code (Except SourceError Bytes) := do
  match ← cacheOpen hash with
  | some _ => pure (.ok hash)
  | none => h.fetchAndCache hash siaId size

def getXorbSource (h : Handlers) (hash : Bytes) (siaId : Hash) (size : Int64) :
    Serving.Code (Except SourceError OpenSource) := do
  match ← cacheOpen hash with
  | some (fd, _) => pure (.ok ⟨fd, true, 0⟩)
  | none =>
      let v ← missDo hash (h.fetchFn hash siaId size)
      let siaMs ← sinceMs
      match v with
      | .error e => pure (.error e)
      | .ok _ =>
          match ← cacheOpen hash with
          | none => pure (.error .openAfterFetch)
          | some (fd, _) => pure (.ok ⟨fd, false, siaMs⟩)

/-- Steps 5 and 6 of `ServeXorb`. -/
def serveAdmitted (h : Handlers) (ctx : Nat) (hash : Bytes) (a : Admitted) :
    Serving.Code ResponseWriter := do
  match ← h.getXorbSource hash a.siaId a.size with
  | .error err =>
      if ← clientGone ctx err then
        -- 499, for the log only
        pure .new
      else
        pure (respondError .new 502 (lit "bad gateway"))
  | .ok src =>
      let bytes ← readAll src.fd
      let w := respond .new ⟨bytes, src.cacheHit, src.siaFetchMs⟩ a.size a.ranges
      let _ ← onDisk (close src.fd)
      pure w

/-- `ServeXorb`: the response as the handler leaves it. -/
def serveXorb (h : Handlers) (ctx : Nat) (r : XorbRequest) (now : UInt64) :
    Serving.Code ResponseWriter :=
  match h.verifier.verify h.uuid h.hmac r.hash r.query now with
  | .error verr => pure (respondVerifyErr .new verr)
  | .ok _ => do
      -- the database is asked after the signature was checked
      let row ← lookupXorb r.hash
      match admission h.uuid h.hmac h.verifier (fun _ => row) .new r now with
      | .error w => pure w
      | .ok a => h.serveAdmitted ctx r.hash a

end Handlers

namespace Serving

/-! ## The gateway -/

/-- What arrives: a request with its context and its time, or the end of a client. -/
inductive Request
  | serve (ctx : Nat) (r : XorbRequest) (now : UInt64)
  | cancel (ctx : Nat)
  deriving DecidableEq

def code (h : Handlers) : Request → Code (Option ResponseWriter)
  | .serve ctx r now => some <$> h.serveXorb ctx r now
  | .cancel ctx => do
      Prog.perform (Op.cancel ctx)
      pure none

abbrev Server (h : Handlers) := Pool (State h) Request Op Res (Option ResponseWriter)

abbrev World (h : Handlers) := Lib.World (State h) Request Op Res

abbrev Step := Action Request Env

abbrev Transition (h : Handlers) := Server h × Step × Server h

/-- `tr` is a run of a gateway from its start to `c`. -/
abbrev Run (h : Handlers) (maxBytes : Int) (found : FoundDisk) (tr : List (Transition h))
    (c : Server h) : Prop :=
  Lib.Path (code h) (exec h) (Pool.init (State.new h maxBytes found)) tr c

/-- A list of steps that can be executed and checked is a run. -/
theorem exists_run {h : Handlers} {maxBytes : Int} {found : FoundDisk}
    {allow : Server h → Step → Prop} {check : Server h → Step → Bool} {as : List Step}
    {P : Server h → Bool}
    (heval : ((Pool.init (State.new h maxBytes found)).runChecked (code h) (exec h) check as).map P =
      some true)
    (hcheck : ∀ c a, check c a = true → allow c a) :
    ∃ tr c, Run h maxBytes found tr c ∧ (∀ st ∈ tr, allow st.1 st.2.1) ∧ P c = true := by
  rcases Option.map_eq_some_iff.1 heval with ⟨c, hrun, hP⟩
  obtain ⟨tr, hpath, hall⟩ := Reaches.of_runChecked hrun hcheck
  exact ⟨tr, c, hpath, hall, hP⟩

/-- Request `i` and its response, once it has ended. -/
def ended {h : Handlers} (c : Server h) (i : Nat) : Option (Request × Option ResponseWriter) :=
  match c.tasks i with
  | some ⟨req, some (.done res)⟩ => some (req, res)
  | _ => none

theorem tasks_of_ended {h : Handlers} {c : Server h} {i : Nat} {req : Request}
    {res : Option ResponseWriter} (hended : ended c i = some (req, res)) :
    c.tasks i = some ⟨req, some (.done res)⟩ := by
  unfold ended at hended
  split at hended
  · rename_i ht
    cases hended
    exact ht
  · cases hended

/-! ## A xorb of three bytes -/

def sampleHash : Bytes :=
  lit "f2fe86161f3859eb9f7c6a7eabe4c8d08a3cac979e468094b7af994492d86275"

def sampleCanonical : Bytes :=
  lit "v1\nf2fe86161f3859eb9f7c6a7eabe4c8d08a3cac979e468094b7af994492d86275\n2000000000\n\n" ++
    lit "01945edc-5f0a-71a3-9c82-3a0000000001"

def sampleTag : Hash :=
  ⟨[189, 11, 54, 252, 147, 157, 46, 147, 24, 16, 74, 231, 35, 155, 30, 61,
    38, 201, 115, 177, 46, 130, 167, 62, 255, 74, 99, 169, 119, 193, 43, 12], by decide⟩

/-- HMAC-SHA256 on the message of `sampleRequest`. -/
def sampleHmac : Hmac := fun key message =>
  if key = vectorKey ∧ message = sampleCanonical then sampleTag else Hash.fill 0

def sampleHandlers : Handlers :=
  { uuid := canonicalUuid
    hmac := sampleHmac
    verifier := ⟨vectorKey, none⟩
    sizes := fun _ => 3
    blake3 := threeBytesBlake3
    dir := lit "/var/cache"
    miss := Singleflight.table }

def sampleRequest : XorbRequest :=
  { hash := sampleHash
    query :=
      [(lit "exp", lit "2000000000"), (lit "kid", vectorKid.text),
        (lit "sig", lit "vQs2_JOdLpMYEErnI5sePSbJc7Eugqc-_0pjqXfBKww")]
    range := [] }

def emptyDisk : FoundDisk :=
  { fs := .empty
    unlinked := by
      intro p q n hp
      cases hp }

def callsOf (i : Nat) (envs : List Env) : List Step :=
  envs.map (.call i)

/-- What the environment does for a request that misses, leads and is served the three bytes. -/
def fetchedEnvs : List Env :=
  [.row (Hash.fill 2), .quiet, .quiet, .quiet, .download ⟨[[1, 2, 3]], none⟩] ++
    [.ok, .ok, .ok, .ok, .ok, .ok, .ok, .evict []].map .disk ++
    [.quiet, .quiet, .elapsed 40, .quiet, .quiet, .quiet, .disk .ok]

end Serving

end Gateway
end OpenWeights
