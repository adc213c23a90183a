import Mathlib.Tactic

/-!
# Pipe — a synchronous pipe in memory

The pipe of Go's `io` package by its documentation: nothing is buffered, so a write waits until
reads have taken all of it or one of the ends is closed, and a read waits until there is a write to
take from or the writing end is closed.  The pipe has one writer; a second write cannot begin while
it waits.
-/

namespace OpenWeights
namespace Lib

variable {α ε : Type}

/-- A pipe for elements `α`, with errors `ε` for its reader. -/
structure Pipe (α ε : Type) where
  /-- What the write that waits has still to hand over. -/
  pending : Option (List α)
  /-- The error a closed writing end leaves to the reader, `none` for the end of the stream. -/
  writerClosed : Option (Option ε)
  readerClosed : Bool
  deriving DecidableEq, Repr

namespace Pipe

inductive Read (α ε : Type)
  | data (chunk : List α)
  | closed (err : Option ε)
  deriving DecidableEq, Repr

inductive Write
  | written
  | closed
  deriving DecidableEq, Repr

def new : Pipe α ε :=
  { pending := none
    writerClosed := none
    readerClosed := false }

/-- The writer arrives with its bytes. -/
def beginWrite (p : Pipe α ε) (bytes : List α) : Pipe α ε :=
  { p with pending := some bytes }

/-- The writer's wait; `none` while it goes on. -/
def awaitWrite (p : Pipe α ε) : Option (Write × Pipe α ε) :=
  match p.pending with
  | none => some (.written, p)
  | some _ =>
      if p.readerClosed ∨ p.writerClosed.isSome then
        some (.closed, { p with pending := none })
      else
        none

/-- A read with a buffer of `cap` elements; `none` while it waits. -/
def read (p : Pipe α ε) (cap : Nat) : Option (Read α ε × Pipe α ε) :=
  match p.writerClosed with
  | some err => some (.closed err, p)
  | none =>
      match p.pending with
      | none => none
      | some bytes =>
          let rest := bytes.drop cap
          some (.data (bytes.take cap), { p with pending := if rest = [] then none else some rest })

/-- `PipeWriter.CloseWithError`; the first error stays. -/
def closeWrite (p : Pipe α ε) (err : Option ε) : Pipe α ε :=
  { p with writerClosed := some (p.writerClosed.getD err) }

def closeRead (p : Pipe α ε) : Pipe α ε :=
  { p with readerClosed := true }

variable {p : Pipe α ε}

/-- A write waits exactly as long as it has something to hand over and both ends are open. -/
theorem awaitWrite_eq_none :
    p.awaitWrite = none ↔
      p.pending ≠ none ∧ p.readerClosed = false ∧ p.writerClosed = none := by
  unfold awaitWrite
  split
  · rename_i hpending
    simp [hpending]
  · rename_i bytes hpending
    simp [hpending]

/-- While both ends are open, a write ends because all of it was read. -/
theorem awaitWrite_open {w : Write} {p' : Pipe α ε} (hreader : p.readerClosed = false)
    (hwriter : p.writerClosed = none) (h : p.awaitWrite = some (w, p')) :
    w = .written ∧ p' = p := by
  unfold awaitWrite at h
  split at h
  · cases h
    exact ⟨rfl, rfl⟩
  · simp [hreader, hwriter] at h

/-- A read waits exactly as long as nobody writes and the writing end is open. -/
theorem read_eq_none {cap : Nat} : p.read cap = none ↔ p.pending = none ∧ p.writerClosed = none := by
  unfold read
  split
  · rename_i err hclosed
    simp [hclosed]
  · rename_i hopen
    cases hpending : p.pending with
    | none => simp [hopen]
    | some bytes => simp

/-- A read that sees the end leaves the pipe as it was. -/
theorem read_closed {cap : Nat} {err : Option ε} {p' : Pipe α ε}
    (h : p.read cap = some (.closed err, p')) : p.writerClosed = some err ∧ p' = p := by
  unfold read at h
  split at h
  · rename_i err' hclosed
    cases h
    exact ⟨hclosed, rfl⟩
  · split at h <;> cases h

/-- A read that gets data takes it from the write that waits. -/
theorem read_data {cap : Nat} {chunk : List α} {p' : Pipe α ε}
    (h : p.read cap = some (.data chunk, p')) :
    p.pending = some (chunk ++ p'.pending.getD []) ∧ p.writerClosed = none ∧
      p' = { p with pending := p'.pending } := by
  unfold read at h
  split at h
  · cases h
  · rename_i hopen
    split at h
    · cases h
    · rename_i bytes hpending
      cases h
      refine ⟨?_, hopen, rfl⟩
      rw [hpending]
      by_cases hrest : bytes.drop cap = []
      · have hall : bytes.take cap = bytes := by
          simpa [hrest] using List.take_append_drop cap bytes
        simp [hrest, hall]
      · simp [hrest]

/-- Closing the reading end sets every writer free. -/
theorem awaitWrite_closeRead (p : Pipe α ε) : p.closeRead.awaitWrite ≠ none := by
  rw [Ne, awaitWrite_eq_none]
  simp [closeRead]

end Pipe
end Lib
end OpenWeights
