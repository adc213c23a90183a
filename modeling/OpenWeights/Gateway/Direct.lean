import OpenWeights.Gateway.Delivery

/-!
# Direct — `ServeXorb` without a cache

`getXorbSourceDirect` downloads the object of a xorb into a temporary file of its own, compares the
size of the file with the row, and serves from it.  Nothing is kept: with the response the file is
gone.  The operations are those of `Serving`, and three more.

`os.CreateTemp` picks a number until the name is a new one; the environment says which number.  A
write that fails ends the download, and the error of the adapter is the one of the write.
-/

namespace OpenWeights
namespace Gateway

open Lib Db OpenWeights.Core

inductive DirectError
  | createTemp (e : IoError)
  | siaDownload (e : SiaError)
  | statTemp (e : IoError)
  | sizeMismatch (got : Nat) (want : Int)
  deriving DecidableEq, Repr

def DirectError.canceled : DirectError → Bool
  | .siaDownload e => e.canceled
  | _ => false

namespace Serving

/-! ## Operations -/

inductive DirectOp
  | base (o : Op)
  | createTemp (pattern : Bytes)
  | stat (fd : Nat)
  | clientGone (ctx : Nat) (err : DirectError)

@[reducible] def DirectRes : DirectOp → Type
  | .base o => Res o
  | .createTemp _ => Except IoError (Nat × Path)
  | .stat _ => Except IoError Nat
  | .clientGone _ _ => Bool

inductive DirectEnv
  | base (e : Env)
  | random (n : Nat)
  | fault (e : IoError)

/-- A temporary file: its pattern with a number for the `*`. -/
def tempPath (tempDir : Path) (pattern : Bytes) (n : Nat) : Path :=
  { tempDir with elems := tempDir.elems ++ [pattern ++ decimal n] }

section Exec

variable {h : Handlers}

/-- `os.CreateTemp` with the number `n`; a name that is taken is not picked. -/
def State.createTemp (s : State h) (p : Path) : Option (State h × Except IoError (Nat × Path)) :=
  match s.disk.fs.names.find p with
  | some _ => none
  | none =>
      some ({ s with disk := { s.disk with fs := (s.disk.fs.create p).1 } },
        .ok ((s.disk.fs.create p).2, p))

/-- `tempDir` is `os.TempDir`. -/
def directExec (h : Handlers) (tempDir : Path) :
    (o : DirectOp) → DirectEnv → State h → Option (State h × DirectRes o)
  | .base o, .base e, s => exec h o e s
  | .createTemp pattern, .random n, s => s.createTemp (tempPath tempDir pattern n)
  | .createTemp _, .fault e, s => some (s, .error e)
  | .stat fd, .base .quiet, s =>
      some (s, match s.disk.fs.readAll fd with
        | some bytes => .ok bytes.length
        | none => .error (lit "file already closed"))
  | .stat _, .fault e, s => some (s, .error e)
  | .clientGone ctx err, .base .quiet, s =>
      some (s, decide (ctx ∈ s.cancelled) || err.canceled)
  | _, _, _ => none

end Exec

abbrev DirectCode (α : Type) := Prog DirectOp DirectRes α

def baseOp (o : Op) : DirectCode (Res o) :=
  Prog.perform (DirectOp.base o)

def createTemp (pattern : Bytes) : DirectCode (Except IoError (Nat × Path)) :=
  Prog.perform (DirectOp.createTemp pattern)

def stat (fd : Nat) : DirectCode (Except IoError Nat) :=
  Prog.perform (DirectOp.stat fd)

def directClientGone (ctx : Nat) (err : DirectError) : DirectCode Bool :=
  Prog.perform (DirectOp.clientGone ctx err)

/-! ## The source of a xorb -/

def tempPattern (hash : Bytes) : Bytes :=
  if hash.length ≥ 8 then lit "xorb_" ++ hash.take 8 ++ lit "_" else lit "xorb_"

/-- The writes of a download into the file; the first one that fails ends it. -/
def copyBlocks (fd : Nat) (err : Option SiaError) : List Bytes → DirectCode (Except SiaError Unit)
  | [] =>
      match err with
      | none => pure (.ok ())
      | some e => pure (.error e)
  | block :: rest => do
      match ← baseOp (.disk (.write fd block)) with
      | .error e => pure (.error ⟨lit "sia download: " ++ e, false⟩)
      | .ok () => copyBlocks fd err rest

def downloadTo (fd : Nat) (siaId : Hash) : DirectCode (Except SiaError Unit) := do
  let d ← baseOp (.download siaId)
  copyBlocks fd d.err d.blocks

def discardTemp (fd : Nat) (name : Path) : DirectCode Unit := do
  let _ ← baseOp (.disk (.close fd))
  let _ ← baseOp (.disk (.remove name))
  pure ()

/-- `xorbSource` on a temporary file. -/
structure TempSource where
  fd : Nat
  name : Path
  siaFetchMs : Int64
  deriving DecidableEq, Repr

end Serving

namespace Handlers

open Serving

def getXorbSourceDirect (hash : Bytes) (siaId : Hash) (size : Int64) :
    DirectCode (Except DirectError TempSource) := do
  match ← createTemp (tempPattern hash) with
  | .error e => pure (.error (.createTemp e))
  | .ok (fd, name) =>
      match ← downloadTo fd siaId with
      | .error e =>
          discardTemp fd name
          pure (.error (.siaDownload e))
      | .ok () =>
          let siaMs ← baseOp .sinceMs
          match ← stat fd with
          | .error e =>
              discardTemp fd name
              pure (.error (.statTemp e))
          | .ok got =>
              if (got : Int) ≠ size.toInt then
                discardTemp fd name
                pure (.error (.sizeMismatch got size.toInt))
              else
                pure (.ok ⟨fd, name, siaMs⟩)

/-- Steps 5 and 6 of `ServeXorb` with no cache wired. -/
def serveAdmittedDirect (ctx : Nat) (hash : Bytes) (a : Admitted) :
    DirectCode ResponseWriter := do
  match ← getXorbSourceDirect hash a.siaId a.size with
  | .error err =>
      if ← directClientGone ctx err then
        pure .new
      else
        pure (respondError .new 502 (lit "bad gateway"))
  | .ok src =>
      let bytes ← baseOp (.readAll src.fd)
      let w := respond .new ⟨bytes, false, src.siaFetchMs⟩ a.size a.ranges
      discardTemp src.fd src.name
      pure w

def serveXorbDirect (h : Handlers) (ctx : Nat) (r : XorbRequest) (now : UInt64) :
    DirectCode ResponseWriter :=
  match h.verifier.verify h.uuid h.hmac r.hash r.query now with
  | .error verr => pure (respondVerifyErr .new verr)
  | .ok _ => do
      let row ← baseOp (.lookupXorb r.hash)
      match admission h.uuid h.hmac h.verifier (fun _ => row) .new r now with
      | .error w => pure w
      | .ok a => serveAdmittedDirect ctx r.hash a

end Handlers

end Gateway
end OpenWeights
