import OpenWeights.Lib.Liveness
import OpenWeights.Lib.Pipe
import OpenWeights.Gateway.Serving

/-!
# Piping — one miss, with its pipe

`Serving` decides a download as a whole.  This module takes `FetchAndCache` apart: a goroutine
writes the object into a pipe and leaves its error in a channel, `Put` copies from the pipe to the
file, and the call waits for the channel before the coalescer releases its key.

Every step is one of the caller, which performs file operations and reads, or one of the goroutine.
The environment decides how the file operations go, and what the object is.

`live_iff` says which misses wedge.  `putRest_of_run` is the connection to `Serving`: what a run does
to the disk is what `putRest` does, and the miss ends exactly if `putRest` leaves nothing unread.
-/

namespace OpenWeights
namespace Gateway

open Lib Db OpenWeights.Core

namespace Piping

/-! ## The two parties -/

/-- Where `FetchAndCache` and the `Put` it called are. -/
inductive Caller
  | calling
  | opening (o : Op) (k : Res o → Code (Except PutError Nat))
  | reading (fd : Nat) (hasher : MerkleHasher) (written : Nat)
  | writing (fd : Nat) (hasher : MerkleHasher) (written : Nat) (chunk : Bytes)
  | ending (o : Op) (k : Res o → Code (Except PutError Path))
  | waiting (putRes : Except PutError Path)
  | returned (v : Except SourceError Bytes)
  | released

/-- How far the caller is: as long as it is `copying`, `Put` may still read from the pipe. -/
inductive Stage
  | copying
  | leaving
  | waiting
  | returned
  | released
  deriving DecidableEq, Repr

namespace Caller

def stage : Caller → Stage
  | calling => .copying
  | opening _ _ => .copying
  | reading _ _ _ => .copying
  | writing _ _ _ _ => .copying
  | ending _ _ => .leaving
  | waiting _ => .waiting
  | returned _ => .returned
  | released => .released

def PutReturned (c : Caller) : Prop :=
  c.stage = .waiting ∨ c.stage = .returned ∨ c.stage = .released

def opened : Code (Except PutError Nat) → Caller
  | .done (.ok fd) => reading fd .new 0
  | .done (.error e) => waiting (.error e)
  | .call o k => opening o k

def ended : Code (Except PutError Path) → Caller
  | .done putRes => waiting putRes
  | .call o k => ending o k

end Caller

/-- Where the goroutine is.  The blocks of `d` are those it has not begun to write. -/
inductive Goroutine
  | writing (d : Download)
  | blocked (d : Download)
  | sending (err : Option SiaError)
  | done
  deriving DecidableEq, Repr

def Goroutine.left : Goroutine → List Bytes
  | writing d => d.blocks
  | blocked d => d.blocks
  | sending _ => []
  | done => []

/-- A miss at work: what all requests share, the pipe, the channel, and the two parties. -/
structure Miss (h : Handlers) where
  shared : Serving.State h
  pipe : Pipe UInt8 SiaError
  errCh : Option (Option SiaError)
  caller : Caller
  goroutine : Goroutine

/-- A step: of the caller with a file operation, of the caller without, of the goroutine. -/
inductive Act
  | disk (e : Env)
  | call
  | download

def copyBuffer : Nat := 32 * 1024

/-- What `DownloadRange` makes of `io.ErrClosedPipe`. -/
def closedPipe : SiaError :=
  ⟨lit "sia download: io: read/write on closed pipe", false⟩

section Machine

variable {h : Handlers} (hash : Bytes) (size : Int64) (n : Nat)

def Miss.diskStep (m : Miss h) (e : Env) : Option (Miss h) :=
  let perform (o : Op) (next : Res o → Caller) : Option (Miss h) :=
    (exec o e m.shared.disk).map fun t =>
      { m with
        shared := { m.shared with disk := t.1 }
        caller := next t.2 }
  match m.caller with
  | .opening o k => perform o fun r => .opened (k r)
  | .writing fd hasher written chunk =>
      perform (.write fd chunk) fun
        | .ok () => .reading fd hasher (written + chunk.length)
        | .error err => .ended (afterCopy h.blake3 h.dir hash size.toInt fd (.error err))
  | .ending o k => perform o fun r => .ended (k r)
  | _ => none

/-- The caller takes a step without a file operation: it calls `Put`, reads from the pipe, receives
from the channel, or returns to the coalescer as call `n`. -/
def Miss.callStep (m : Miss h) : Option (Miss h) :=
  match m.caller with
  | .calling => some { m with caller := .opened (openTmp h.dir hash size.toInt) }
  | .reading fd hasher written =>
      (m.pipe.read copyBuffer).map fun t =>
        { m with
          pipe := t.2
          caller :=
            match t.1 with
            | .data [] => .reading fd hasher written
            -- the tee hashes what was read before it is written
            | .data chunk => .writing fd (hasher.write chunk) written chunk
            | .closed none =>
                .ended (afterCopy h.blake3 h.dir hash size.toInt fd (.ok (hasher, written)))
            | .closed (some err) =>
                .ended (afterCopy h.blake3 h.dir hash size.toInt fd (.error err.text)) }
  | .waiting putRes =>
      m.errCh.map fun dlErr =>
        { m with
          errCh := none
          caller := .returned (Serving.fetched hash dlErr putRes) }
  | .returned v =>
      some
        { m with
          shared := { m.shared with group := h.miss.finish m.shared.group n v }
          caller := .released }
  | _ => none

/-- The goroutine takes a step.  `DownloadRange` returns after the first write that fails. -/
def Miss.downloadStep (m : Miss h) : Option (Miss h) :=
  match m.goroutine with
  | .writing ⟨[], err⟩ =>
      some
        { m with
          pipe := m.pipe.closeWrite err
          goroutine := .sending err }
  | .writing ⟨block :: rest, err⟩ =>
      some
        { m with
          pipe := m.pipe.beginWrite block
          goroutine := .blocked ⟨rest, err⟩ }
  | .blocked d =>
      m.pipe.awaitWrite.map fun t =>
        { m with
          pipe := t.2
          goroutine :=
            match t.1 with
            | .written => .writing d
            | .closed => .writing ⟨[], some closedPipe⟩ }
  | .sending err =>
      some
        { m with
          errCh := some err
          goroutine := .done }
  | .done => none

/-- `FetchAndCache` as the function of call `n` for `hash`. -/
def step (m : Miss h) : Act → Option (Miss h)
  | .disk e => m.diskStep hash size e
  | .call => m.callStep hash size n
  | .download => m.downloadStep

end Machine

section Runs

variable {h : Handlers} (hash : Bytes) (size : Int64) (n : Nat)

/-- The caller has just become the leader of its call; the goroutine is about to start. -/
def Miss.start (s : Serving.State h) (d : Download) : Miss h :=
  { shared := { s with group := (h.miss.enter s.group hash).1 }
    pipe := .new
    errCh := none
    caller := .calling
    goroutine := .writing d }

/-- `tr` is a run of `FetchAndCache` for the leader of a call, on the object `d`. -/
abbrev Run (s : Serving.State h) (d : Download) (tr : List (Miss h × Act × Miss h))
    (m : Miss h) : Prop :=
  Trace (step hash size (h.miss.started s.group)) (Miss.start hash s d) tr m

def Released (m : Miss h) : Prop :=
  h.miss.inFlight m.shared.group hash ≠ some n

/-- The miss cannot wedge here: it is not deadlocked, and if `Put` has returned then, whatever the
order of steps, `FetchAndCache` returns and the key is released. -/
structure Live (m : Miss h) : Prop where
  moves : ¬Deadlocked (step hash size n) (Released hash n) m
  ends : m.caller.PutReturned → Inevitable (step hash size n) (Released hash n) m

/-- The download has a write to make, or one that is not finished. -/
def HasWrites (m : Miss h) : Prop :=
  m.pipe.pending ≠ none ∨ m.goroutine.left ≠ []

/-- A check of `Put`, or a file operation up to the end of the copy, fails in this step. -/
def Fails (m : Miss h) : Act → Prop
  | .disk e =>
      match m.caller with
      | .opening o k =>
          ∃ s r err, exec o e m.shared.disk = some (s, r) ∧ k r = .done (.error err)
      | .writing fd _ _ chunk =>
          ∃ s err, exec (.write fd chunk) e m.shared.disk = some (s, .error err)
      | _ => False
  | .call =>
      match m.caller with
      | .calling => hash.length ≠ 64 ∨ size.toInt < 0
      | _ => False
  | .download => False

/-- `Put` gives up in this step, and the download does not know. -/
def GivesUp (m : Miss h) (a : Act) : Prop :=
  Fails hash size m a ∧ HasWrites m

end Runs

/-! ## What a step does -/

section Moves

variable {h : Handlers} {hash : Bytes} {size : Int64} {n : Nat} {m m' : Miss h} {a : Act}

/-- Everything a step can do, with what it changes of the pipe, the channel and the group. -/
inductive Moves (hash : Bytes) (size : Int64) (n : Nat) (m : Miss h) : Act → Miss h → Prop where
  | copy {a : Act} {disk : Store} {caller : Caller} : m.caller.stage = .copying →
      caller.stage = .copying →
      Moves hash size n m a { m with shared := { m.shared with disk := disk }, caller := caller }
  | fail {a : Act} {disk : Store} {caller : Caller} : m.caller.stage = .copying →
      Fails hash size m a → caller.stage = .leaving ∨ caller.stage = .waiting →
      Moves hash size n m a { m with shared := { m.shared with disk := disk }, caller := caller }
  | leave {a : Act} {disk : Store} {caller : Caller} : m.caller.stage = .leaving →
      caller.stage = .leaving ∨ caller.stage = .waiting →
      Moves hash size n m a { m with shared := { m.shared with disk := disk }, caller := caller }
  | read {chunk : Bytes} {pipe : Pipe UInt8 SiaError} {caller : Caller} :
      m.caller.stage = .copying → m.pipe.read copyBuffer = some (.data chunk, pipe) →
      caller.stage = .copying →
      Moves hash size n m .call { m with pipe := pipe, caller := caller }
  | drained {err : Option SiaError} {caller : Caller} : m.caller.stage = .copying →
      m.pipe.writerClosed = some err → caller.stage = .leaving ∨ caller.stage = .waiting →
      Moves hash size n m .call { m with caller := caller }
  | receive {putRes : Except PutError Path} {dlErr : Option SiaError} :
      m.caller = .waiting putRes → m.errCh = some dlErr →
      Moves hash size n m .call
        { m with errCh := none, caller := .returned (Serving.fetched hash dlErr putRes) }
  | finish {v : Except SourceError Bytes} : m.caller = .returned v →
      Moves hash size n m .call
        { m with
          shared := { m.shared with group := h.miss.finish m.shared.group n v }
          caller := .released }
  | download {m' : Miss h} : m.downloadStep = some m' → Moves hash size n m .download m'

theorem Caller.stage_opened {p : Code (Except PutError Nat)} :
    ((Caller.opened p).stage = .waiting ∧ ∃ err, p = .done (.error err)) ∨
      (Caller.opened p).stage = .copying := by
  cases p with
  | call o k => exact .inr rfl
  | done r =>
      cases r with
      | ok fd => exact .inr rfl
      | error e => exact .inl ⟨rfl, e, rfl⟩

theorem Caller.stage_ended (p : Code (Except PutError Path)) :
    (Caller.ended p).stage = .leaving ∨ (Caller.ended p).stage = .waiting := by
  cases p with
  | call o k => exact .inl rfl
  | done r => exact .inr rfl

/-- The checks of `Put` are all that can fail before its first file operation. -/
theorem fails_of_openTmp {dir hash : Bytes} {size : Int} {err : PutError}
    (h : openTmp dir hash size = .done (.error err)) : hash.length ≠ 64 ∨ size < 0 := by
  by_contra hchecks
  rw [not_or, not_not] at hchecks
  obtain ⟨hlen, hsize⟩ := hchecks
  simp [openTmp, hlen, hsize, mkdirAll] at h

theorem moves_of_disk {e : Env} (hs : m.diskStep hash size e = some m') :
    Moves hash size n m (.disk e) m' := by
  unfold Miss.diskStep at hs
  cases hcaller : m.caller with
  | opening o k =>
      simp only [hcaller] at hs
      obtain ⟨⟨s, r⟩, he, rfl⟩ := Option.map_eq_some_iff.1 hs
      rcases Caller.stage_opened (p := k r) with ⟨hwaiting, err, herr⟩ | hcopying
      · refine .fail (by rw [hcaller]; rfl) ?_ (.inr hwaiting)
        simp only [Fails, hcaller]
        exact ⟨s, r, err, he, herr⟩
      · exact .copy (by rw [hcaller]; rfl) hcopying
  | writing fd hasher written chunk =>
      simp only [hcaller] at hs
      obtain ⟨⟨s, r⟩, he, rfl⟩ := Option.map_eq_some_iff.1 hs
      cases r with
      | ok _ => exact .copy (by rw [hcaller]; rfl) rfl
      | error err =>
          refine .fail (by rw [hcaller]; rfl) ?_ (Caller.stage_ended _)
          simp only [Fails, hcaller]
          exact ⟨s, err, he⟩
  | ending o k =>
      simp only [hcaller] at hs
      obtain ⟨⟨s, r⟩, he, rfl⟩ := Option.map_eq_some_iff.1 hs
      exact .leave (by rw [hcaller]; rfl) (Caller.stage_ended _)
  | _ => simp [hcaller] at hs

theorem moves_of_call (hs : m.callStep hash size n = some m') : Moves hash size n m .call m' := by
  unfold Miss.callStep at hs
  cases hcaller : m.caller with
  | calling =>
      simp only [hcaller] at hs
      cases hs
      have hstage : m.caller.stage = .copying := by rw [hcaller]; rfl
      rcases Caller.stage_opened (p := openTmp h.dir hash size.toInt) with
        ⟨hwaiting, err, herr⟩ | hcopying
      · refine .fail hstage ?_ (.inr hwaiting)
        simp only [Fails, hcaller]
        exact fails_of_openTmp herr
      · exact .copy hstage hcopying
  | reading fd hasher written =>
      simp only [hcaller] at hs
      obtain ⟨⟨r, pipe⟩, hread, rfl⟩ := Option.map_eq_some_iff.1 hs
      have hstage : m.caller.stage = .copying := by rw [hcaller]; rfl
      cases r with
      | data chunk =>
          refine .read hstage hread ?_
          cases chunk with
          | nil => rfl
          | cons b bs => rfl
      | closed err =>
          obtain ⟨hwriter, rfl⟩ := Pipe.read_closed hread
          refine .drained hstage hwriter ?_
          cases err with
          | none => exact Caller.stage_ended _
          | some err => exact Caller.stage_ended _
  | waiting putRes =>
      simp only [hcaller] at hs
      obtain ⟨dlErr, hsent, rfl⟩ := Option.map_eq_some_iff.1 hs
      exact .receive hcaller hsent
  | returned v =>
      simp only [hcaller] at hs
      cases hs
      exact .finish hcaller
  | _ => simp [hcaller] at hs

theorem moves_of_step (hs : step hash size n m a = some m') : Moves hash size n m a m' := by
  cases a with
  | disk e => exact moves_of_disk hs
  | call => exact moves_of_call hs
  | download => exact .download hs

/-! ## The goroutine, the pipe and the channel -/

def Stage.received : Stage → Prop
  | .returned => True
  | .released => True
  | _ => False

def Goroutine.hasReturned : Goroutine → Prop
  | .sending _ => True
  | .done => True
  | _ => False

/-- What the pipe and the channel tell about the goroutine, and the group about the caller. -/
structure Linked (hash : Bytes) (n : Nat) (m : Miss h) : Prop where
  reader : m.pipe.readerClosed = false
  pending : m.pipe.pending ≠ none → ∃ d, m.goroutine = .blocked d
  closed : m.pipe.writerClosed ≠ none ↔ m.goroutine.hasReturned
  sent : m.errCh ≠ none ∨ m.caller.stage.received ↔ m.goroutine = .done
  flight : h.miss.inFlight m.shared.group hash = some n ↔ m.caller.stage ≠ .released

theorem Linked.start {s : Serving.State h} (d : Download)
    (hlead : h.miss.inFlight s.group hash = none) :
    Linked hash (h.miss.started s.group) (Miss.start hash s d) where
  reader := rfl
  pending := by simp [Miss.start, Pipe.new]
  closed := by simp [Miss.start, Pipe.new, Goroutine.hasReturned]
  sent := by simp [Miss.start, Caller.stage, Stage.received]
  flight := by simp [Miss.start, Caller.stage, h.miss.inFlight_lead _ _ hlead]

/-- Only a goroutine that waits has a write in the pipe. -/
theorem Linked.pending_eq_none (hm : Linked hash n m) {g : Goroutine} (hg : m.goroutine = g)
    (hne : ∀ d, g ≠ .blocked d) : m.pipe.pending = none := by
  by_contra hsome
  obtain ⟨d, hd⟩ := hm.pending hsome
  exact hne d (hg.symm.trans hd)

theorem Linked.writerClosed_eq_none (hm : Linked hash n m)
    (hrunning : ¬m.goroutine.hasReturned) : m.pipe.writerClosed = none := by
  by_contra hsome
  exact hrunning (hm.closed.1 hsome)

/-- A step of the goroutine: what it has still to write stays to be written until it is read. -/
theorem Linked.download (hm : Linked hash n m) (hs : m.downloadStep = some m') :
    Linked hash n m' ∧ m'.caller = m.caller ∧ (HasWrites m' ↔ HasWrites m) := by
  have hnotDone : ∀ {g : Goroutine}, m.goroutine = g → g ≠ .done →
      ¬(m.errCh ≠ none ∨ m.caller.stage.received) := by
    intro g hg hne hsent
    exact hne (hg.symm.trans (hm.sent.1 hsent))
  unfold Miss.downloadStep at hs
  cases hgor : m.goroutine with
  | writing d =>
      have hpending := hm.pending_eq_none hgor (by simp)
      have hopen := hm.writerClosed_eq_none (by simp [hgor, Goroutine.hasReturned])
      have hsent := hnotDone hgor (by simp)
      obtain ⟨blocks, err⟩ := d
      cases blocks with
      | nil =>
          simp only [hgor] at hs
          cases hs
          refine ⟨⟨hm.reader, ?_, ?_, ?_, hm.flight⟩, rfl, ?_⟩
          · simp [Pipe.closeWrite, hpending]
          · simp [Pipe.closeWrite, Goroutine.hasReturned]
          · simpa using hsent
          · simp [HasWrites, Pipe.closeWrite, hpending, hgor, Goroutine.left]
      | cons block rest =>
          simp only [hgor] at hs
          cases hs
          refine ⟨⟨hm.reader, ?_, ?_, ?_, hm.flight⟩, rfl, ?_⟩
          · exact fun _ => ⟨_, rfl⟩
          · simp [Pipe.beginWrite, hopen, Goroutine.hasReturned]
          · simpa using hsent
          · simp [HasWrites, Pipe.beginWrite, hgor, Goroutine.left]
  | blocked d =>
      have hopen := hm.writerClosed_eq_none (by simp [hgor, Goroutine.hasReturned])
      have hsent := hnotDone hgor (by simp)
      simp only [hgor] at hs
      obtain ⟨⟨w, pipe⟩, hwait, rfl⟩ := Option.map_eq_some_iff.1 hs
      -- both ends are open, so the write has ended because all of it was read
      obtain ⟨rfl, rfl⟩ := Pipe.awaitWrite_open hm.reader hopen hwait
      refine ⟨⟨hm.reader, ?_, ?_, ?_, hm.flight⟩, rfl, ?_⟩
      · intro hsome
        exact absurd (Pipe.awaitWrite_eq_none.2 ⟨hsome, hm.reader, hopen⟩) (by simp [hwait])
      · simp [hopen, Goroutine.hasReturned]
      · simpa using hsent
      · simp [HasWrites, hgor, Goroutine.left]
  | sending err =>
      have hpending := hm.pending_eq_none hgor (by simp)
      have hclosed : m.pipe.writerClosed ≠ none := hm.closed.2 (by simp [hgor, Goroutine.hasReturned])
      simp only [hgor] at hs
      cases hs
      refine ⟨⟨hm.reader, ?_, ?_, ?_, hm.flight⟩, rfl, ?_⟩
      · exact fun hsome => absurd hpending hsome
      · simp [hclosed, Goroutine.hasReturned]
      · simp
      · simp [HasWrites, hgor, Goroutine.left]
  | done => simp [hgor] at hs

/-- A step of the caller, with what is new of the pipe and of the stage. -/
theorem Linked.caller_step (hm : Linked hash n m) (disk : Store) {caller : Caller}
    (hbefore : ¬m.caller.stage.received ∧ m.caller.stage ≠ .released)
    (hafter : ¬caller.stage.received ∧ caller.stage ≠ .released) :
    Linked hash n
      { m with
        shared := { m.shared with disk := disk }
        caller := caller } := by
  refine ⟨hm.reader, hm.pending, hm.closed, ?_, ?_⟩
  · simpa [hbefore.1, hafter.1] using hm.sent
  · simpa [hbefore.2, hafter.2] using hm.flight

theorem Linked.step (hm : Linked hash n m) (hs : step hash size n m a = some m') :
    Linked hash n m' := by
  cases moves_of_step hs with
  | copy hbefore hafter =>
      exact hm.caller_step _ (by simp [hbefore, Stage.received]) (by simp [hafter, Stage.received])
  | fail hbefore _ hafter =>
      refine hm.caller_step _ (by simp [hbefore, Stage.received]) ?_
      rcases hafter with hafter | hafter <;> simp [hafter, Stage.received]
  | leave hbefore hafter =>
      refine hm.caller_step _ (by simp [hbefore, Stage.received]) ?_
      rcases hafter with hafter | hafter <;> simp [hafter, Stage.received]
  | read hbefore hread hafter =>
      obtain ⟨htaken, -, hpipe⟩ := Pipe.read_data hread
      have hlinked := hm.caller_step m.shared.disk (by simp [hbefore, Stage.received])
        (show ¬Stage.received _ ∧ _ ≠ Stage.released by
          rw [hafter]
          simp [Stage.received])
      refine ⟨?_, ?_, ?_, hlinked.sent, hlinked.flight⟩
      · rw [hpipe]
        exact hm.reader
      · exact fun _ => hm.pending (by simp [htaken])
      · rw [hpipe]
        exact hm.closed
  | drained hbefore _ hafter =>
      refine hm.caller_step m.shared.disk (by simp [hbefore, Stage.received]) ?_
      rcases hafter with hafter | hafter <;> simp [hafter, Stage.received]
  | receive hcaller hsent =>
      have hdone : m.goroutine = .done := hm.sent.1 (.inl (by simp [hsent]))
      refine ⟨hm.reader, hm.pending, hm.closed, ?_, ?_⟩
      · simp [hdone, Caller.stage, Stage.received]
      · simpa [hcaller, Caller.stage] using hm.flight
  | finish hcaller =>
      have hdone : m.goroutine = .done :=
        hm.sent.1 (.inr (by simp [hcaller, Caller.stage, Stage.received]))
      refine ⟨hm.reader, hm.pending, hm.closed, ?_, ?_⟩
      · simp [hdone, Caller.stage, Stage.received]
      · simp [h.miss.inFlight_finish, Caller.stage]
  | download hs => exact (hm.download hs).1

/-! ## What can happen -/

/-- The goroutine waits only while its bytes wait to be read. -/
theorem enabled_download (hdone : m.goroutine ≠ .done) (hpending : m.pipe.pending = none) :
    Enabled (Piping.step hash size n) m := by
  cases hgor : m.goroutine with
  | writing d =>
      obtain ⟨blocks, err⟩ := d
      cases blocks with
      | nil => exact .of_isSome .download (by simp [Piping.step, Miss.downloadStep, hgor])
      | cons block rest => exact .of_isSome .download (by simp [Piping.step, Miss.downloadStep, hgor])
  | blocked d =>
      have hwait : m.pipe.awaitWrite ≠ none := by
        rw [Ne, Pipe.awaitWrite_eq_none]
        simp [hpending]
      refine .of_isSome .download ?_
      simpa [Piping.step, Miss.downloadStep, hgor] using Option.isSome_iff_ne_none.2 hwait
  | sending err => exact .of_isSome .download (by simp [Piping.step, Miss.downloadStep, hgor])
  | done => exact absurd hgor hdone

/-- Until `Put` has returned, somebody can always take a step. -/
theorem Linked.enabled_put (hm : Linked hash n m) (hput : ¬m.caller.PutReturned) :
    Enabled (Piping.step hash size n) m := by
  have hdisk : ∀ o : Op, (∀ e, (Piping.step hash size n m (.disk e)).isSome =
      (exec o e m.shared.disk).isSome) → Enabled (Piping.step hash size n) m := by
    intro o hstep
    obtain ⟨e, s, r, he⟩ := exists_exec o m.shared.disk
    exact .of_isSome (.disk e) (by simp [hstep, he])
  cases hcaller : m.caller with
  | calling => exact .of_isSome .call (by simp [Piping.step, Miss.callStep, hcaller])
  | opening o k =>
      exact hdisk o fun e => by simp [Piping.step, Miss.diskStep, hcaller]
  | reading fd hasher written =>
      by_cases hread : m.pipe.read copyBuffer = none
      · -- there is nothing to read and the end is not there yet, so the goroutine is on its way
        obtain ⟨hpending, hopen⟩ := Pipe.read_eq_none.1 hread
        refine enabled_download ?_ hpending
        intro hdone
        exact hm.closed.2 (by simp [hdone, Goroutine.hasReturned]) hopen
      · refine .of_isSome .call ?_
        simpa [Piping.step, Miss.callStep, hcaller] using Option.isSome_iff_ne_none.2 hread
  | writing fd hasher written chunk =>
      exact hdisk (.write fd chunk) fun e => by simp [Piping.step, Miss.diskStep, hcaller]
  | ending o k =>
      exact hdisk o fun e => by simp [Piping.step, Miss.diskStep, hcaller]
  | waiting putRes => simp [hcaller, Caller.PutReturned, Caller.stage] at hput
  | returned v => simp [hcaller, Caller.PutReturned, Caller.stage] at hput
  | released => simp [hcaller, Caller.PutReturned, Caller.stage] at hput

/-! ## A download that is over -/

/-- The steps that are left once `Put` has returned and the object is written. -/
def rank (m : Miss h) : Nat :=
  (match m.caller.stage with
    | .waiting => 2
    | .returned => 1
    | _ => 0) +
  match m.goroutine with
  | .blocked _ => 3
  | .writing _ => 2
  | .sending _ => 1
  | .done => 0

/-- `Put` has returned, and the goroutine has nothing left to write. -/
structure Over (hash : Bytes) (n : Nat) (m : Miss h) : Prop extends Linked hash n m where
  returned : m.caller.PutReturned
  drained : ¬HasWrites m

theorem Over.enabled (hm : Over hash n m) :
    Released hash n m ∨ Enabled (Piping.step hash size n) m := by
  have hpending : m.pipe.pending = none := by
    by_contra hsome
    exact hm.drained (.inl hsome)
  by_cases hdone : m.goroutine = .done
  · cases hcaller : m.caller with
    | waiting putRes =>
        have hsent : m.errCh ≠ none := by
          rcases hm.sent.2 hdone with hsent | hreceived
          · exact hsent
          · simp [hcaller, Caller.stage, Stage.received] at hreceived
        refine .inr (.of_isSome .call ?_)
        simpa [Piping.step, Miss.callStep, hcaller] using Option.isSome_iff_ne_none.2 hsent
    | returned v => exact .inr (.of_isSome .call (by simp [Piping.step, Miss.callStep, hcaller]))
    | released =>
        refine .inl fun hflight => ?_
        exact hm.flight.1 hflight (by rw [hcaller]; rfl)
    | _ =>
        have hput := hm.returned
        simp [hcaller, Caller.PutReturned, Caller.stage] at hput
  · exact .inr (enabled_download hdone hpending)

theorem Over.step (hm : Over hash n m) (hs : Piping.step hash size n m a = some m') :
    Over hash n m' ∧ rank m' < rank m := by
  have hlinked := hm.toLinked.step hs
  have hput := hm.returned
  -- `Put` has returned, so the steps that read the pipe are over.
  have hcopying : m.caller.stage ≠ .copying := by
    intro hstage
    simp [Caller.PutReturned, hstage] at hput
  have hleaving : m.caller.stage ≠ .leaving := by
    intro hstage
    simp [Caller.PutReturned, hstage] at hput
  cases moves_of_step hs with
  | copy hbefore _ => exact absurd hbefore hcopying
  | fail hbefore _ _ => exact absurd hbefore hcopying
  | leave hbefore _ => exact absurd hbefore hleaving
  | read hbefore _ _ => exact absurd hbefore hcopying
  | drained hbefore _ _ => exact absurd hbefore hcopying
  | receive hcaller hsent =>
      refine ⟨⟨hlinked, .inr (.inl rfl), hm.drained⟩, ?_⟩
      simp [rank, hcaller, Caller.stage]
  | finish hcaller =>
      refine ⟨⟨hlinked, .inr (.inr rfl), hm.drained⟩, ?_⟩
      simp [rank, hcaller, Caller.stage]
  | download hs =>
      obtain ⟨-, hcaller, hwrites⟩ := hm.toLinked.download hs
      refine ⟨⟨hlinked, by rw [hcaller]; exact hput, fun h => hm.drained (hwrites.1 h)⟩, ?_⟩
      have hlower : (rank m' < rank m) := by
        unfold rank
        rw [hcaller]
        refine Nat.add_lt_add_left ?_ _
        unfold Miss.downloadStep at hs
        cases hgor : m.goroutine with
        | writing d =>
            obtain ⟨blocks, err⟩ := d
            -- A write still to come would mean that the pipe was left undrained.
            have hnil : blocks = [] := by
              by_contra hblocks
              exact hm.drained (.inr (by simpa [hgor, Goroutine.left] using hblocks))
            subst hnil
            simp only [hgor] at hs
            cases hs
            simp
        | blocked d =>
            simp only [hgor] at hs
            obtain ⟨⟨w, pipe⟩, -, rfl⟩ := Option.map_eq_some_iff.1 hs
            cases w <;> simp
        | sending err =>
            simp only [hgor] at hs
            cases hs
            simp
        | done => simp [hgor] at hs
      exact hlower

theorem Over.inevitable (hm : Over hash n m) :
    Inevitable (Piping.step hash size n) (Released hash n) m :=
  Inevitable.of_rank rank (fun _ h => h.enabled) (fun _ _ _ h hs => h.step hs) hm

/-! ## What becomes of a run -/

/-- If `Put` no longer reads, the download has nothing left to write. -/
def Healthy (m : Miss h) : Prop :=
  m.caller.stage ≠ .copying → ¬HasWrites m

/-- `Put` no longer reads, nothing was sent, and the download has something left to write. -/
structure Abandoned (hash : Bytes) (n : Nat) (m : Miss h) : Prop extends Linked hash n m where
  left : m.caller.stage = .leaving ∨ m.caller.stage = .waiting
  writes : HasWrites m

theorem Linked.not_hasWrites_of_closed (hm : Linked hash n m) {err : Option SiaError}
    (hclosed : m.pipe.writerClosed = some err) : ¬HasWrites m := by
  have hreturned : m.goroutine.hasReturned := hm.closed.1 (by simp [hclosed])
  have hpending : m.pipe.pending = none := by
    by_contra hsome
    obtain ⟨d, hd⟩ := hm.pending hsome
    simp [hd, Goroutine.hasReturned] at hreturned
  rintro (hsome | hleft)
  · exact hsome hpending
  · cases hgor : m.goroutine with
    | writing d => simp [hgor, Goroutine.hasReturned] at hreturned
    | blocked d => simp [hgor, Goroutine.hasReturned] at hreturned
    | sending err => simp [hgor, Goroutine.left] at hleft
    | done => simp [hgor, Goroutine.left] at hleft

theorem Healthy.step (hm : Linked hash n m) (hhealthy : Healthy m)
    (hkeeps : ¬GivesUp hash size m a) (hs : Piping.step hash size n m a = some m') :
    Healthy m' := by
  cases moves_of_step hs with
  | copy _ hafter => exact fun hcopying => absurd hafter hcopying
  | fail _ hfails _ => exact fun _ hwrites => hkeeps ⟨hfails, hwrites⟩
  | leave hbefore _ => exact fun _ => hhealthy (by simp [hbefore])
  | read _ _ hafter => exact fun hcopying => absurd hafter hcopying
  | drained _ hclosed _ => exact fun _ => hm.not_hasWrites_of_closed hclosed
  | receive hcaller _ => exact fun _ => hhealthy (by simp [hcaller, Caller.stage])
  | finish hcaller => exact fun _ => hhealthy (by simp [hcaller, Caller.stage])
  | download hs =>
      obtain ⟨-, hcaller, hwrites⟩ := hm.download hs
      intro hcopying hleft
      rw [hcaller] at hcopying
      exact hhealthy hcopying (hwrites.1 hleft)

/-- After a failure `Put` does not read again; the goroutine and the pipe know nothing of it. -/
theorem left_of_fails (hfails : Fails hash size m a)
    (hs : Piping.step hash size n m a = some m') :
    (m'.caller.stage = .leaving ∨ m'.caller.stage = .waiting) ∧ m'.pipe = m.pipe ∧
      m'.goroutine = m.goroutine := by
  cases a with
  | disk e =>
      simp only [Piping.step, Miss.diskStep] at hs
      cases hcaller : m.caller with
      | opening o k =>
          simp only [Fails, hcaller] at hfails
          obtain ⟨s, r, err, he, herr⟩ := hfails
          simp only [hcaller, he, Option.map_some] at hs
          cases hs
          refine ⟨.inr ?_, rfl, rfl⟩
          simp [herr, Caller.opened, Caller.stage]
      | writing fd hasher written chunk =>
          simp only [Fails, hcaller] at hfails
          obtain ⟨s, err, he⟩ := hfails
          simp only [hcaller, he, Option.map_some] at hs
          cases hs
          refine ⟨?_, rfl, rfl⟩
          exact Caller.stage_ended (afterCopy h.blake3 h.dir hash size.toInt fd (.error err))
      | _ => simp [Fails, hcaller] at hfails
  | call =>
      simp only [Piping.step, Miss.callStep] at hs
      cases hcaller : m.caller with
      | calling =>
          simp only [Fails, hcaller] at hfails
          simp only [hcaller] at hs
          cases hs
          refine ⟨.inr ?_, rfl, rfl⟩
          unfold openTmp
          split
          · rfl
          · rename_i hlen
            simp [hfails.resolve_left hlen, Caller.opened, Caller.stage]
      | _ => simp [Fails, hcaller] at hfails
  | download => exact hfails.elim

theorem Abandoned.of_givesUp (hm : Linked hash n m) (hgives : GivesUp hash size m a)
    (hs : Piping.step hash size n m a = some m') : Abandoned hash n m' := by
  obtain ⟨hstage, hpipe, hgor⟩ := left_of_fails hgives.1 hs
  refine ⟨hm.step hs, hstage, ?_⟩
  rw [HasWrites, hpipe, hgor]
  exact hgives.2

theorem Abandoned.step (hm : Abandoned hash n m) (hs : Piping.step hash size n m a = some m') :
    Abandoned hash n m' := by
  have hlinked := hm.toLinked.step hs
  have hcopying : m.caller.stage ≠ .copying := by
    intro hstage
    simpa [hstage] using hm.left
  cases moves_of_step hs with
  | copy hbefore _ => exact absurd hbefore hcopying
  | fail hbefore _ _ => exact absurd hbefore hcopying
  | leave _ hafter => exact ⟨hlinked, hafter, hm.writes⟩
  | read hbefore _ _ => exact absurd hbefore hcopying
  | drained hbefore _ _ => exact absurd hbefore hcopying
  | receive _ hsent =>
      -- what was sent was sent after the last write
      have hdone : m.goroutine = .done := hm.sent.1 (.inl (by simp [hsent]))
      have hclosed : m.pipe.writerClosed ≠ none :=
        hm.closed.2 (by simp [hdone, Goroutine.hasReturned])
      obtain ⟨err, herr⟩ := Option.ne_none_iff_exists'.1 hclosed
      exact absurd hm.writes (hm.toLinked.not_hasWrites_of_closed herr)
  | finish hcaller =>
      have hleft := hm.left
      simp [hcaller, Caller.stage] at hleft
  | download hs =>
      obtain ⟨-, hcaller, hwrites⟩ := hm.toLinked.download hs
      exact ⟨hlinked, by rw [hcaller]; exact hm.left, hwrites.2 hm.writes⟩

theorem Abandoned.not_inevitable (hm : Abandoned hash n m) :
    ¬Inevitable (Piping.step hash size n) (Released hash n) m := by
  refine not_inevitable_of_trap (J := Abandoned hash n) ?_ (fun _ _ _ hm hs => hm.step hs) hm
  intro m hm hreleased
  refine hreleased (hm.flight.2 ?_)
  rcases hm.left with hstage | hstage <;> simp [hstage]

/-- Where an abandoned download ends: it waits for a reader, and `FetchAndCache` waits for it. -/
theorem Abandoned.deadlocked (hm : Abandoned hash n m) (hwaiting : m.caller.stage = .waiting)
    (hblocked : m.pipe.pending ≠ none) :
    Deadlocked (Piping.step hash size n) (Released hash n) m := by
  obtain ⟨d, hgor⟩ := hm.pending hblocked
  refine ⟨fun hreleased => hreleased (hm.flight.2 (by simp [hwaiting])), ?_⟩
  rintro ⟨a, m', hs⟩
  cases moves_of_step hs with
  | copy hbefore _ => simp [hwaiting] at hbefore
  | fail hbefore _ _ => simp [hwaiting] at hbefore
  | leave hbefore _ => simp [hwaiting] at hbefore
  | read hbefore _ _ => simp [hwaiting] at hbefore
  | drained hbefore _ _ => simp [hwaiting] at hbefore
  | receive _ hsent =>
      have hdone := hm.sent.1 (.inl (by simp [hsent]))
      simp [hgor] at hdone
  | finish hcaller => simp [hcaller, Caller.stage] at hwaiting
  | download hs =>
      have hopen := hm.toLinked.writerClosed_eq_none (by simp [hgor, Goroutine.hasReturned])
      have hwait : m.pipe.awaitWrite = none :=
        Pipe.awaitWrite_eq_none.2 ⟨hblocked, hm.reader, hopen⟩
      simp [Miss.downloadStep, hgor, hwait] at hs

end Moves

/-! ## The copy as one program -/

/-- `Put` after the copy, which left some blocks unread. -/
def afterRest (h : Handlers) (hash : Bytes) (size : Int64) (fd : Nat)
    (p : Except IoError (MerkleHasher × Nat) × List Bytes) :
    Code (Except PutError Path × List Bytes) :=
  afterCopy h.blake3 h.dir hash size.toInt fd p.1 >>= fun res => .done (res, p.2)

def fromRead (h : Handlers) (hash : Bytes) (size : Int64) (fd : Nat) (err : Option IoError)
    (hasher : MerkleHasher) (written : Nat) (blocks : List Bytes) :
    Code (Except PutError Path × List Bytes) :=
  copyTeeRest fd err hasher written blocks >>= afterRest h hash size fd

/-- `Put` after it tried to open its file. -/
def afterOpen (h : Handlers) (hash : Bytes) (size : Int64) (src : Reader) :
    Except PutError Nat → Code (Except PutError Path × List Bytes)
  | .error e => pure (.error e, src.blocks)
  | .ok fd => fromRead h hash size fd src.err .new 0 src.blocks

/-- What is left of `Put`, for a source that has `src` left. -/
def Caller.rest (h : Handlers) (hash : Bytes) (size : Int64) (src : Reader) :
    Caller → Option (Code (Except PutError Path × List Bytes))
  | calling => some (putRest h.blake3 h.dir hash size.toInt src)
  | opening o k => some (.call o k >>= afterOpen h hash size src)
  | reading fd hasher written =>
      some (fromRead h hash size fd src.err hasher written src.blocks)
  | writing fd hasher written chunk =>
      some (write fd chunk >>= fun
        | .error e => afterRest h hash size fd (.error e, src.blocks)
        | .ok () => fromRead h hash size fd src.err hasher (written + chunk.length) src.blocks)
  | ending o k => some (.call o k >>= fun res => .done (res, src.blocks))
  | waiting putRes => some (.done (putRes, src.blocks))
  | returned _ => none
  | released => none

theorem Caller.rest_opened (h : Handlers) (hash : Bytes) (size : Int64) (src : Reader)
    (p : Code (Except PutError Nat)) :
    (opened p).rest h hash size src = some (p >>= afterOpen h hash size src) := by
  cases p with
  | call o k => rfl
  | done r =>
      cases r with
      | error e => rfl
      | ok fd => rfl

theorem Caller.rest_ended (h : Handlers) (hash : Bytes) (size : Int64) (src : Reader)
    (p : Code (Except PutError Path)) :
    (ended p).rest h hash size src = some (p >>= fun res => .done (res, src.blocks)) := by
  cases p with
  | call o k => rfl
  | done r => rfl

/-- The writes the goroutine has not finished. -/
def Miss.writes {h : Handlers} (m : Miss h) : List Bytes :=
  m.pipe.pending.toList ++ m.goroutine.left

theorem Miss.writes_eq_nil {h : Handlers} {m : Miss h} : m.writes = [] ↔ ¬HasWrites m := by
  rw [Miss.writes, List.append_eq_nil_iff, Option.toList_eq_nil_iff, HasWrites, not_or, not_not,
    not_not]

/-- The bytes of the object that `Put` has not read. -/
def Miss.unread {h : Handlers} (m : Miss h) : Bytes :=
  m.writes.flatten

theorem Miss.unread_eq {h : Handlers} (m : Miss h) :
    m.unread = m.pipe.pending.getD [] ++ m.goroutine.left.flatten := by
  rw [Miss.unread, Miss.writes, List.flatten_append]
  cases m.pipe.pending <;> simp

/-- `DownloadRange` returns what was decided for it. -/
def Goroutine.Returns (err : Option SiaError) : Goroutine → Prop
  | writing d => d.err = err
  | blocked d => d.err = err
  | sending e => e = err
  | done => True

section Copy

variable {h : Handlers} {hash : Bytes} {size : Int64} {n : Nat} {s : Serving.State h}
  {d : Download} {m m' : Miss h} {a : Act}

/-- The steps so far belong to a run of `putRest` on the same bytes, however the rest is cut. -/
structure Copies (hash : Bytes) (size : Int64) (s : Serving.State h) (d : Download) (m : Miss h) :
    Prop where
  returns : m.goroutine.Returns d.err
  closed : ∀ err, m.pipe.writerClosed = some err → err = d.err
  runs : ∃ chunks cs, chunks.flatten ++ m.unread = d.blocks.flatten ∧
    ∀ blocks p cs' s' r, blocks.flatten = m.unread → (m.pipe.writerClosed ≠ none → blocks = []) →
      m.caller.rest h hash size ⟨blocks, d.reader.err⟩ = some p → Runs exec p m.shared.disk cs' s' r →
        Runs exec (putRest h.blake3 h.dir hash size.toInt ⟨chunks ++ blocks, d.reader.err⟩) s.disk
          (cs ++ cs') s' r

theorem Copies.start (hash : Bytes) (size : Int64) (s : Serving.State h) (d : Download) :
    Copies hash size s d (Miss.start hash s d) where
  returns := rfl
  closed := by simp [Miss.start, Pipe.new]
  runs := by
    refine ⟨[], [], by simp [Miss.unread_eq, Miss.start, Pipe.new, Goroutine.left], ?_⟩
    intro blocks p cs' s' r _ _ hp hruns
    cases hp
    exact hruns

/-- A file operation of `Put`. -/
theorem Copies.disk (hm : Copies hash size s d m) {e : Env}
    (hs : m.diskStep hash size e = some m') : Copies hash size s d m' := by
  obtain ⟨chunks, cs, hbytes, hruns⟩ := hm.runs
  -- the operation is the next call of the run that is left
  have hmove : ∀ (o : Op) (store : Store) (res : Res o) (caller : Caller),
      exec o e m.shared.disk = some (store, res) →
      (∀ src p, caller.rest h hash size src = some p → ∃ k, k res = p ∧
        m.caller.rest h hash size src = some (.call o k)) →
      Copies hash size s d
        { m with shared := { m.shared with disk := store }, caller := caller } := by
    intro o store res caller he hrest
    refine ⟨hm.returns, hm.closed, chunks, cs ++ [⟨o, res⟩], hbytes, ?_⟩
    intro blocks p cs' s' r hblocks hend hp hnext
    obtain ⟨k, rfl, hbefore⟩ := hrest _ p hp
    have hrun := hruns blocks _ (⟨o, res⟩ :: cs') s' r hblocks hend hbefore (.call he hnext)
    rwa [List.append_assoc]
  unfold Miss.diskStep at hs
  cases hcaller : m.caller with
  | opening o k =>
      simp only [hcaller] at hs
      obtain ⟨⟨store, res⟩, he, rfl⟩ := Option.map_eq_some_iff.1 hs
      refine hmove o store res _ he ?_
      intro src p hp
      rw [Caller.rest_opened] at hp
      exact ⟨_, Option.some.inj hp, by rw [hcaller]; rfl⟩
  | writing fd hasher written chunk =>
      simp only [hcaller] at hs
      obtain ⟨⟨store, res⟩, he, rfl⟩ := Option.map_eq_some_iff.1 hs
      refine hmove (.write fd chunk) store res _ he ?_
      intro src p hp
      refine ⟨_, ?_, by rw [hcaller]; rfl⟩
      cases res with
      | ok _ => exact Option.some.inj hp
      | error err =>
          rw [Caller.rest_ended] at hp
          exact Option.some.inj hp
  | ending o k =>
      simp only [hcaller] at hs
      obtain ⟨⟨store, res⟩, he, rfl⟩ := Option.map_eq_some_iff.1 hs
      refine hmove o store res _ he ?_
      intro src p hp
      rw [Caller.rest_ended] at hp
      exact ⟨_, Option.some.inj hp, by rw [hcaller]; rfl⟩
  | _ => simp [hcaller] at hs

theorem fromRead_cons {fd : Nat} {err : Option IoError} {hasher : MerkleHasher} {written : Nat}
    {chunk : Bytes} {blocks : List Bytes} (hchunk : chunk ≠ []) :
    fromRead h hash size fd err hasher written (chunk :: blocks) =
      write fd chunk >>= fun
        | .error e => afterRest h hash size fd (.error e, blocks)
        | .ok () => fromRead h hash size fd err (hasher.write chunk) (written + chunk.length)
            blocks := by
  have hcopy : copyTeeRest fd err hasher written (chunk :: blocks) = write fd chunk >>= fun
      | .error e => pure (.error e, blocks)
      | .ok () => copyTeeRest fd err (hasher.write chunk) (written + chunk.length) blocks := by
    rw [copyTeeRest]
    exact if_neg hchunk
  rw [fromRead, hcopy, Prog.bind_assoc]
  congr 1
  funext res
  cases res with
  | error e => rfl
  | ok _ => rfl

/-- What the copy makes of the end of the stream. -/
theorem rest_reading_nil (err : Option SiaError) (fd : Nat) (hasher : MerkleHasher) (written : Nat) :
    (Caller.reading fd hasher written).rest h hash size ⟨[], err.map SiaError.text⟩ =
      match err with
      | none => some (afterRest h hash size fd (.ok (hasher, written), []))
      | some e => some (afterRest h hash size fd (.error e.text, [])) := by
  cases err with
  | none => rfl
  | some e => rfl

/-- A step of the caller that is no file operation. -/
theorem Copies.call (hm : Copies hash size s d m)
    (hs : m.callStep hash size n = some m') : Copies hash size s d m' := by
  obtain ⟨chunks, cs, hbytes, hruns⟩ := hm.runs
  unfold Miss.callStep at hs
  cases hcaller : m.caller with
  | calling =>
      simp only [hcaller] at hs
      cases hs
      refine ⟨hm.returns, hm.closed, chunks, cs, hbytes, ?_⟩
      intro blocks p cs' s' r hblocks hend hp hnext
      rw [Caller.rest_opened] at hp
      refine hruns blocks _ cs' s' r hblocks hend ?_ hnext
      rw [hcaller, Caller.rest, ← hp]
      rfl
  | reading fd hasher written =>
      simp only [hcaller] at hs
      obtain ⟨⟨res, pipe⟩, hread, rfl⟩ := Option.map_eq_some_iff.1 hs
      cases res with
      | data chunk =>
          obtain ⟨htaken, hopen, hpipe⟩ := Pipe.read_data hread
          have hunread : m.unread = chunk ++ (pipe.pending.getD [] ++ m.goroutine.left.flatten) := by
            simp [Miss.unread_eq, htaken]
          have hclosed : ∀ err, pipe.writerClosed = some err → err = d.err := by
            rw [hpipe]
            exact hm.closed
          cases hchunk : chunk with
          | nil =>
              -- the write was empty: nothing was read
              refine ⟨hm.returns, hclosed, chunks, cs, ?_, ?_⟩
              · rw [Miss.unread_eq]
                rwa [hunread, hchunk, List.nil_append] at hbytes
              · intro blocks p cs' s' r hblocks hend hp hnext
                refine hruns blocks p cs' s' r ?_ (by simp [hopen]) (by rw [hcaller]; exact hp) hnext
                rw [hblocks, hunread, hchunk, List.nil_append, Miss.unread_eq]
          | cons b bs =>
              refine ⟨hm.returns, hclosed, chunks ++ [b :: bs], cs, ?_, ?_⟩
              · rw [hunread, hchunk] at hbytes
                simpa [Miss.unread_eq] using hbytes
              · intro blocks p cs' s' r hblocks hend hp hnext
                have hrun := hruns ((b :: bs) :: blocks) p cs' s' r ?_ (by simp [hopen]) ?_ hnext
                · rwa [List.append_assoc]
                · rw [List.flatten_cons, hblocks, hunread, hchunk, Miss.unread_eq]
                · rw [hcaller, Caller.rest, fromRead_cons (List.cons_ne_nil b bs)]
                  exact hp
      | closed err =>
          obtain ⟨hclosed, rfl⟩ := Pipe.read_closed hread
          obtain rfl := hm.closed err hclosed
          refine ⟨hm.returns, hm.closed, chunks, cs, hbytes, ?_⟩
          intro blocks p cs' s' r hblocks hend hp hnext
          have hisClosed : m.pipe.writerClosed ≠ none := by simp [hclosed]
          obtain rfl : blocks = [] := hend hisClosed
          refine hruns [] p cs' s' r hblocks hend ?_ hnext
          rw [hcaller, Download.reader, rest_reading_nil, ← hp]
          cases d.err with
          | none => exact (Caller.rest_ended h hash size ⟨[], d.reader.err⟩ _).symm
          | some e => exact (Caller.rest_ended h hash size ⟨[], d.reader.err⟩ _).symm
  | waiting putRes =>
      simp only [hcaller] at hs
      obtain ⟨dlErr, -, rfl⟩ := Option.map_eq_some_iff.1 hs
      exact ⟨hm.returns, hm.closed, chunks, cs, hbytes, nofun⟩
  | returned v =>
      simp only [hcaller] at hs
      cases hs
      exact ⟨hm.returns, hm.closed, chunks, cs, hbytes, nofun⟩
  | _ => simp [hcaller] at hs

/-- A step of the goroutine: what is written is no longer to be written, but to be read. -/
theorem Copies.download (hlinked : Linked hash n m) (hm : Copies hash size s d m)
    (hs : m.downloadStep = some m') : Copies hash size s d m' := by
  obtain ⟨chunks, cs, hbytes, hruns⟩ := hm.runs
  -- A step of the download leaves the unread blocks and the caller as they are.
  have hsame : ∀ m', m'.unread = m.unread → m'.caller = m.caller → m'.shared = m.shared →
      m'.goroutine.Returns d.err → (∀ err, m'.pipe.writerClosed = some err → err = d.err) →
      (m.pipe.writerClosed ≠ none → m'.pipe.writerClosed ≠ none) → Copies hash size s d m' := by
    intro m' hunread hcaller hshared hreturns hclosed hstays
    refine ⟨hreturns, hclosed, chunks, cs, by rw [hunread]; exact hbytes, ?_⟩
    rw [hunread, hcaller, hshared]
    exact fun blocks p cs' s' r hblocks hend =>
      hruns blocks p cs' s' r hblocks fun hisClosed => hend (hstays hisClosed)
  have hreturns := hm.returns
  unfold Miss.downloadStep at hs
  cases hgor : m.goroutine with
  | writing left =>
      have hpending := hlinked.pending_eq_none hgor (by simp)
      have hopen := hlinked.writerClosed_eq_none (by simp [hgor, Goroutine.hasReturned])
      obtain ⟨blocks, err⟩ := left
      rw [hgor] at hreturns
      obtain rfl : err = d.err := hreturns
      cases blocks with
      | nil =>
          simp only [hgor] at hs
          cases hs
          refine hsame _ ?_ rfl rfl rfl ?_ (fun _ => by simp [Pipe.closeWrite])
          · simp [Miss.unread_eq, Pipe.closeWrite, hgor, Goroutine.left]
          · simp [Pipe.closeWrite, hopen]
      | cons block rest =>
          simp only [hgor] at hs
          cases hs
          refine hsame _ ?_ rfl rfl rfl hm.closed id
          simp [Miss.unread_eq, Pipe.beginWrite, hgor, hpending, Goroutine.left]
  | blocked left =>
      have hopen := hlinked.writerClosed_eq_none (by simp [hgor, Goroutine.hasReturned])
      rw [hgor] at hreturns
      simp only [hgor] at hs
      obtain ⟨⟨w, pipe⟩, hwait, rfl⟩ := Option.map_eq_some_iff.1 hs
      -- Nobody closed the pipe, so the write that was waiting has been read in full.
      obtain ⟨rfl, rfl⟩ := Pipe.awaitWrite_open hlinked.reader hopen hwait
      refine hsame _ ?_ rfl rfl hreturns hm.closed id
      simp [Miss.unread_eq, hgor, Goroutine.left]
  | sending err =>
      simp only [hgor] at hs
      cases hs
      refine hsame _ ?_ rfl rfl trivial hm.closed id
      simp [Miss.unread_eq, hgor, Goroutine.left]
  | done => simp [hgor] at hs

theorem Copies.step (hlinked : Linked hash n m) (hm : Copies hash size s d m)
    (hs : Piping.step hash size n m a = some m') : Copies hash size s d m' := by
  cases a with
  | disk e => exact hm.disk hs
  | call => exact hm.call hs
  | download => exact hm.download hlinked hs

/-- Where `Put` has returned, the miss ends if and only if there is nothing left to write. -/
theorem inevitable_iff_of_waiting (hlinked : Linked hash n m) (hstage : m.caller.stage = .waiting) :
    Inevitable (Piping.step hash size n) (Released hash n) m ↔ ¬HasWrites m := by
  constructor
  · intro hends hwrites
    exact (Abandoned.mk hlinked (.inr hstage) hwrites).not_inevitable hends
  · intro hdrained
    exact (Over.mk hlinked (.inl hstage) hdrained).inevitable

end Copy

/-- To `Put`, the pipe is a reader of the bytes of the object, in blocks of some length: what a run
leaves on the disk, and what `Put` returns in it, are those of `putRest` run on such a reader.  The
miss goes on to its end exactly if that run left nothing unread. -/
theorem putRest_of_run (h : Handlers) (hash : Bytes) (size : Int64) (s : Serving.State h)
    (d : Download) (hlead : h.miss.inFlight s.group hash = none)
    {tr : List (Miss h × Act × Miss h)} {m : Miss h} {putRes : Except PutError Path}
    (hrun : Run hash size s d tr m) (hput : m.caller = .waiting putRes) :
    ∃ blocks left cs, blocks.flatten = d.blocks.flatten ∧
      Runs exec (putRest h.blake3 h.dir hash size.toInt ⟨blocks, d.reader.err⟩) s.disk cs
        m.shared.disk (putRes, left) ∧
      (Inevitable (step hash size (h.miss.started s.group)) (Released hash (h.miss.started s.group))
        m ↔ left = []) := by
  have hboth : Linked hash (h.miss.started s.group) m ∧ Copies hash size s d m := by
    refine hrun.invariant
      (I := fun m => Linked hash (h.miss.started s.group) m ∧ Copies hash size s d m)
      ⟨.start d hlead, .start hash size s d⟩ ?_
    intro st _ hs hm
    exact ⟨hm.1.step hs, hm.2.step hm.1 hs⟩
  obtain ⟨chunks, cs, hbytes, hruns⟩ := hboth.2.runs
  have hend : m.pipe.writerClosed ≠ none → m.writes = [] := by
    intro hclosed
    obtain ⟨err, herr⟩ := Option.ne_none_iff_exists'.1 hclosed
    exact Miss.writes_eq_nil.2 (hboth.1.not_hasWrites_of_closed herr)
  refine ⟨chunks ++ m.writes, m.writes, cs, ?_, ?_, ?_⟩
  · rw [List.flatten_append]
    exact hbytes
  · have hrest := hruns m.writes _ [] m.shared.disk (putRes, m.writes) rfl hend
      (by rw [hput]; rfl) (.done _ _)
    rwa [List.append_nil] at hrest
  · rw [inevitable_iff_of_waiting hboth.1 (by rw [hput]; rfl), Miss.writes_eq_nil]

/-! ## Misses that wedge -/

section Wedge

variable {h : Handlers} {hash : Bytes} {size : Int64} {s : Serving.State h} {d : Download}
  {tr : List (Miss h × Act × Miss h)} {m : Miss h}

theorem Run.linked (hrun : Run hash size s d tr m) (hlead : h.miss.inFlight s.group hash = none) :
    Linked hash (h.miss.started s.group) m :=
  hrun.invariant (.start d hlead) fun _ _ hs hm => hm.step hs

theorem Run.healthy (hrun : Run hash size s d tr m) (hlead : h.miss.inFlight s.group hash = none)
    (hkeeps : ∀ st ∈ tr, ¬GivesUp hash size st.1 st.2.1) : Healthy m := by
  have hboth : Linked hash (h.miss.started s.group) m ∧ Healthy m := by
    refine hrun.invariant (I := fun m => Linked hash (h.miss.started s.group) m ∧ Healthy m)
      ⟨.start d hlead, ?_⟩ ?_
    · exact fun hcopying => absurd rfl hcopying
    · intro st hst hs hm
      exact ⟨hm.1.step hs, hm.2.step hm.1 (hkeeps st hst) hs⟩
  exact hboth.2

theorem Run.abandoned (hrun : Run hash size s d tr m) (hlead : h.miss.inFlight s.group hash = none)
    {st : Miss h × Act × Miss h} (hst : st ∈ tr) (hgives : GivesUp hash size st.1 st.2.1) :
    Abandoned hash (h.miss.started s.group) m :=
  hrun.since (.start d hlead) (fun _ _ _ hs hm => hm.step hs) (fun _ _ _ hs _ hm => hm.step hs) hst
    fun hs hm => .of_givesUp hm hgives hs

/-- A miss wedges when `Put` gave up while the download had something left to write, and in no
other case. -/
theorem live_iff (h : Handlers) (hash : Bytes) (size : Int64) (s : Serving.State h) (d : Download)
    (hlead : h.miss.inFlight s.group hash = none) {tr : List (Miss h × Act × Miss h)} {m : Miss h}
    (hrun : Run hash size s d tr m) :
    Live hash size (h.miss.started s.group) m ↔
      (m.caller.PutReturned → ∀ st ∈ tr, ¬GivesUp hash size st.1 st.2.1) := by
  have hlinked := hrun.linked hlead
  constructor
  · intro hlive hput st hst hgives
    exact (hrun.abandoned hlead hst hgives).not_inevitable (hlive.ends hput)
  · intro hkeeps
    by_cases hput : m.caller.PutReturned
    · have hover : Over hash (h.miss.started s.group) m := by
        refine ⟨hlinked, hput, hrun.healthy hlead (hkeeps hput) ?_⟩
        rcases hput with hstage | hstage | hstage <;> simp [hstage]
      refine ⟨?_, fun _ => hover.inevitable⟩
      rintro ⟨hgoal, hstuck⟩
      rcases hover.enabled with hreleased | hcan
      · exact hgoal hreleased
      · exact hstuck hcan
    · exact ⟨fun hdead => hdead.2 (hlinked.enabled_put hput), fun h => absurd h hput⟩

end Wedge

/-- The three bytes of `sampleHash`, in two writes. -/
def twoWrites : Download :=
  ⟨[[1], [2, 3]], none⟩

/-- Both writes are copied; `Put` has returned, and the goroutine is about to send. -/
def copiedActs : List Act :=
  [.call, .disk .ok, .disk .ok, .disk .ok, .download, .call, .disk .ok, .download, .download,
    .call, .disk .ok, .download, .download, .call, .disk .ok, .disk .ok, .disk .ok,
    .disk (.evict [])]

/-- The disk is full after the first write; `Put` cleans up while the second one begins. -/
def diskFullActs : List Act :=
  [.call, .disk .ok, .disk .ok, .disk .ok, .download, .call,
    .disk (.shortWrite 0 (lit "no space left on device")), .download, .download, .disk .ok,
    .disk .ok]

abbrev sampleState : Serving.State Serving.sampleHandlers :=
  .new Serving.sampleHandlers 0 Serving.emptyDisk

/-- Put has returned; and there are no bytes left, or some wait in the pipe. -/
def waits (blocked : Bool) (m : Miss Serving.sampleHandlers) : Bool :=
  m.caller.stage = .waiting ∧ m.pipe.pending.isSome = blocked ∧
    (m.goroutine.left = [] ∨ blocked)

theorem exists_waits (as : List Act) (blocked : Bool)
    (h : (execute (step Serving.sampleHash 3 0) (Miss.start Serving.sampleHash sampleState twoWrites)
      as).map (waits blocked) = some true) :
    ∃ tr m, Run Serving.sampleHash 3 sampleState twoWrites tr m ∧ m.caller.stage = .waiting ∧
      m.pipe.pending.isSome = blocked ∧ (m.goroutine.left = [] ∨ blocked = true) := by
  obtain ⟨m, hrun, hwaits⟩ := Option.map_eq_some_iff.1 h
  obtain ⟨tr, htr⟩ := exists_trace_of_execute hrun
  exact ⟨tr, m, htr, by simpa [waits] using hwaits⟩

theorem live_iff_twoWrites :
    ∃ tr m, Run Serving.sampleHash 3 sampleState twoWrites tr m ∧ m.caller.PutReturned ∧
      Live Serving.sampleHash 3 0 m := by
  obtain ⟨tr, m, hrun, hstage, hpending, hleft⟩ :=
    exists_waits copiedActs false (by decide)
  have hlead : Serving.sampleHandlers.miss.inFlight sampleState.group Serving.sampleHash = none :=
    rfl
  refine ⟨tr, m, hrun, .inl hstage, (live_iff _ _ _ _ _ hlead hrun).2 ?_⟩
  intro _ st hst hgives
  rcases (hrun.abandoned hlead hst hgives).writes with hsome | hwrites
  · exact hsome (Option.isSome_eq_false_iff.1 hpending |> Option.isNone_iff_eq_none.1)
  · exact hwrites (hleft.resolve_right (by decide))

theorem deadlocked_diskFull :
    ∃ tr m, Run Serving.sampleHash 3 sampleState twoWrites tr m ∧ m.caller.PutReturned ∧
      Deadlocked (step Serving.sampleHash 3 0) (Released Serving.sampleHash 0) m := by
  obtain ⟨tr, m, hrun, hstage, hpending, -⟩ :=
    exists_waits diskFullActs true (by decide)
  have hblocked : m.pipe.pending ≠ none := by
    intro hnone
    simp [hnone] at hpending
  have hlinked := Run.linked hrun rfl
  exact ⟨tr, m, hrun, .inl hstage,
    (Abandoned.mk hlinked (.inr hstage) (.inl hblocked)).deadlocked hstage hblocked⟩

end Piping

end Gateway
end OpenWeights
