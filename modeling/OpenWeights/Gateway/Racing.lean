import OpenWeights.Lib.Typestate
import OpenWeights.Gateway.Writers

/-!
# Racing — several `Put`s of one hash without the coalescer

All writers of a hash share one temporary path, and each checks the bytes it has streamed, not the
file it renames.  The automaton `drafting` follows one `Put`: the descriptor it writes to and the
bytes it has written.

Two kinds of steps go wrong (`Clobbers`, `Steals`): a `Put` truncates the unfinished file of another
one, or it renames a file that is not its own.  In a run without them the unfinished files are on
inodes of their own (`Apart`), and the published file is the verified stream of the last writer that
renamed.
-/

namespace OpenWeights
namespace Gateway
namespace Racing

open Lib Db OpenWeights.Core
open Serving (FoundDisk emptyDisk sampleHandlers sampleKey)

/-- A `Put` of the hash: the declared size and the stream. -/
structure Writer where
  size : Int
  src : Reader

def writerCode (h : Handlers) (key : Key) (w : Writer) : Code (Except PutError Path) :=
  put h.blake3 h.dir key.hash w.size w.src

abbrev Race := Pool Store Writer Op Res (Except PutError Path)

abbrev RaceStep := Action Writer Env

abbrev RaceTransition := Race × RaceStep × Race

abbrev RaceRun (h : Handlers) (key : Key) (maxBytes : Int) (found : FoundDisk)
    (tr : List RaceTransition) (c : Race) : Prop :=
  Lib.Path (writerCode h key) exec (Pool.init ⟨.new maxBytes, found.fs⟩) tr c

/-- The bytes are the stream of the writer, all of it, with the declared size and the digest. -/
structure Checked (h : Handlers) (key : Key) (w : Writer) (bytes : Bytes) : Prop where
  stream : bytes = w.src.blocks.flatten
  size_eq : (bytes.length : Int) = w.size
  digest : merkleHashHex h.blake3 bytes = key.hash

/-! ## One writer -/

inductive DraftPhase
  | fresh
  | writing (fd : Nat) (content : Bytes)
  | closed (fd : Nat) (content : Bytes)
  /-- The file was renamed or given up. -/
  | past (fd : Nat)
  deriving DecidableEq, Repr

namespace DraftPhase

def fd : DraftPhase → Option Nat
  | .fresh => none
  | .writing fd _ => some fd
  | .closed fd _ => some fd
  | .past fd => some fd

/-- The unfinished file: its descriptor and what was written to it. -/
def draft : DraftPhase → Option (Nat × Bytes)
  | .writing fd content => some (fd, content)
  | .closed fd content => some (fd, content)
  | _ => none

def dropped : DraftPhase → DraftPhase
  | .writing fd _ => .past fd
  | .closed fd _ => .past fd
  | φ => φ

def after (φ : DraftPhase) : (o : Op) → Res o → DraftPhase
  | .create _, .ok fd => .writing fd []
  | .write _ bytes, .ok _ =>
      match φ with
      | .writing fd content => .writing fd (content ++ bytes)
      | φ => φ
  | .write _ _, .error _ => φ.dropped
  | .close _, _ =>
      match φ with
      | .writing fd content => .closed fd content
      | φ => φ
  | .remove _, _ => φ.dropped
  | .rename _ _, .ok _ => φ.dropped
  | _, _ => φ

def ok (h : Handlers) (key : Key) (w : Writer) (φ : DraftPhase) : Op → Prop
  | .remove p => p = h.tmp key.hash
  | .create p => p = h.tmp key.hash ∧ φ = .fresh
  | .write fd _ => ∃ content, φ = .writing fd content
  | .close fd => (∃ content, φ = .writing fd content) ∨ φ = .past fd
  | .rename old new =>
      old = h.tmp key.hash ∧ new = h.final key.hash ∧
        ∃ fd content, φ = .closed fd content ∧ Checked h key w content
  | _ => True

end DraftPhase

def drafting (h : Handlers) (key : Key) : Typestate DraftPhase Writer Op Res where
  start := .fresh
  after := DraftPhase.after
  ok := DraftPhase.ok h key

section Programs

variable {h : Handlers} {key : Key} {w : Writer} {φ : DraftPhase}

theorem follows_copyTee_drafting {fd : Nat} {err : Option IoError} (hasher : MerkleHasher)
    (written : Nat) (content : Bytes) (blocks : List Bytes) :
    (copyTee fd err hasher written blocks).Follows (drafting h key) w
      (fun φ r =>
        match r with
        | .ok (hasher', written') => φ = .writing fd (content ++ blocks.flatten) ∧
            hasher' = hasher.write blocks.flatten ∧ written' = written + blocks.flatten.length
        | .error _ => φ = .past fd ∨ ∃ content', φ = .writing fd content')
      (.writing fd content) := by
  induction blocks generalizing hasher written content with
  | nil =>
      unfold copyTee
      split
      · exact ⟨by simp, by simp [MerkleHasher.write], by simp⟩
      · exact .inr ⟨content, rfl⟩
  | cons block rest ih =>
      unfold copyTee
      split
      · rename_i hempty
        simpa [hempty] using ih hasher written content
      · refine .perform_bind ⟨content, rfl⟩ ?_
        rintro (e | _)
        · exact .inl rfl
        · refine (ih (hasher.write block) (written + block.length) (content ++ block)).mono ?_
          rintro φ' (e | ⟨hasher', written'⟩) hr
          · exact hr
          · obtain ⟨hφ', hhasher, hwritten⟩ := hr
            refine ⟨by simpa using hφ', ?_, ?_⟩
            · simp [hhasher, MerkleHasher.write]
            · simp [hwritten, Nat.add_assoc]

theorem follows_publish_drafting {fd : Nat} {content : Bytes} (hstream : content = w.src.blocks.flatten)
    (hsize : (content.length : Int) = w.size) :
    (publish h.blake3 key.hash w.size (h.final key.hash) (h.tmp key.hash)
      (MerkleHasher.new.write content)).Follows (drafting h key) w (fun _ _ => True)
      (.closed fd content) := by
  have hhex : (MerkleHasher.new.write content).hex h.blake3 = merkleHashHex h.blake3 content := rfl
  unfold publish
  simp only [hhex]
  split
  · exact .perform_bind rfl fun _ => trivial
  · rename_i hgate
    refine .perform_bind ⟨rfl, rfl, fd, content, rfl, hstream, hsize, not_not.1 hgate⟩ ?_
    rintro (e | _)
    · exact .perform_bind rfl fun _ => trivial
    · exact .perform_bind trivial fun _ => trivial

theorem follows_fill_drafting (fd : Nat) :
    (fill h.blake3 key.hash w.size w.src (h.final key.hash) (h.tmp key.hash) fd).Follows
      (drafting h key) w (fun _ _ => True) (.writing fd []) := by
  have hcleanup : ∀ (φ : DraftPhase) (e : PutError), (φ = .past fd ∨ ∃ content, φ = .writing fd content) →
      (do
        cleanupTmp fd (h.tmp key.hash)
        pure (.error e : Except PutError Path)).Follows (drafting h key) w (fun _ _ => True) φ := by
    intro φ e hφ
    refine .perform_bind hφ.symm ?_
    intro _
    exact .perform_bind rfl fun _ => trivial
  unfold fill
  refine (follows_copyTee_drafting .new 0 [] w.src.blocks).bind ?_
  rintro φ' (e | ⟨hasher, written⟩) hr
  · exact hcleanup φ' _ hr
  · obtain ⟨rfl, rfl, rfl⟩ := hr
    simp only
    split
    · exact hcleanup _ _ (.inr ⟨_, rfl⟩)
    · rename_i hsize
      refine .perform_bind trivial ?_
      rintro (e | _)
      · exact hcleanup _ _ (.inr ⟨_, rfl⟩)
      · refine .perform_bind (.inl ⟨_, rfl⟩) ?_
        rintro (e | _)
        · exact .perform_bind rfl fun _ => trivial
        · refine follows_publish_drafting rfl ?_
          simpa using not_not.1 hsize

theorem follows_writerCode (w : Writer) :
    (writerCode h key w).Follows (drafting h key) w (fun _ _ => True) .fresh := by
  unfold writerCode put
  split
  · trivial
  · split
    · trivial
    · refine .perform_bind trivial ?_
      rintro (e | _)
      · trivial
      · refine .perform_bind rfl ?_
        intro _
        refine .perform_bind ⟨rfl, rfl⟩ ?_
        rintro (e | fd)
        · trivial
        · exact follows_fill_drafting fd

end Programs

/-! ## Whose file is whose -/

abbrev View := Lib.World Store Writer Op Res

def inodeOf (fs : FileSystem Path) (φ : DraftPhase) : Option Nat :=
  φ.draft.bind fun d => (fs.files[d.1]?).map OpenFile.inode

def lastWriter : List (Entry Writer Op Res) → Option Writer
  | [] => none
  | ⟨_, w, ⟨.rename _ _, .ok _⟩⟩ :: _ => some w
  | _ :: log => lastWriter log

/-- The published file is the checked stream of the writer that renamed last. -/
def Sound (h : Handlers) (key : Key) (found : FoundDisk) (w : View) : Prop :=
  ∀ bytes, w.store.fs.content (h.final key.hash) = some bytes →
    match lastWriter w.log with
    | some writer => Checked h key writer bytes
    | none => found.fs.content (h.final key.hash) = some bytes

/-- What is on the inode of an unfinished file. -/
structure Holding (fs : FileSystem Path) (φ : DraftPhase) (fd : Nat) (content : Bytes) : Prop where
  inode : ∃ m, (fs.files[fd]?).map OpenFile.inode = some m ∧ fs.inodes[m]? = some content
  atEnd : φ = .writing fd content → ∃ m, fs.files[fd]? = some ⟨m, content.length, true⟩

structure Apart (h : Handlers) (key : Key) (found : FoundDisk) (w : View) : Prop where
  unlinked : w.store.fs.Unlinked
  fd_lt : ∀ i fd, ((drafting h key).phaseOf i w.log).fd = some fd → fd < w.store.fs.files.length
  fd_inj : ∀ i j fd, ((drafting h key).phaseOf i w.log).fd = some fd →
    ((drafting h key).phaseOf j w.log).fd = some fd → i = j
  holds : ∀ i fd content, ((drafting h key).phaseOf i w.log).draft = some (fd, content) →
    Holding w.store.fs ((drafting h key).phaseOf i w.log) fd content
  /-- Two unfinished files are two inodes. -/
  apart : ∀ i j m, inodeOf w.store.fs ((drafting h key).phaseOf i w.log) = some m →
    inodeOf w.store.fs ((drafting h key).phaseOf j w.log) = some m → i = j
  /-- The published file is no unfinished one. -/
  final : ∀ i m, w.store.fs.names.find (h.final key.hash) = some m →
    inodeOf w.store.fs ((drafting h key).phaseOf i w.log) ≠ some m
  sound : Sound h key found w

/-- A `Put` truncates a file that another one has not finished. -/
def Clobbers (h : Handlers) (key : Key) (c : Race) (a : RaceStep) : Prop :=
  ∃ i w p k m j, a = .call i .ok ∧ c.tasks i = some ⟨w, some (.call (.create p) k)⟩ ∧
    c.store.fs.names.find p = some m ∧ j ≠ i ∧
    inodeOf c.store.fs ((drafting h key).phaseOf j c.log) = some m

/-- A `Put` renames a file that is not its own. -/
def Steals (h : Handlers) (key : Key) (c : Race) (a : RaceStep) : Prop :=
  ∃ i w old new k m, a = .call i .ok ∧ c.tasks i = some ⟨w, some (.call (.rename old new) k)⟩ ∧
    c.store.fs.names.find old = some m ∧
    inodeOf c.store.fs ((drafting h key).phaseOf i c.log) ≠ some m

section Steps

variable {h : Handlers} {key : Key} {found : FoundDisk} {v : View} {i : Nat} {w : Writer}
  {o : Op} {r : Res o} {d : Store} {φ : DraftPhase}

theorem fd_of_draft {fd : Nat} {content : Bytes} (hφ : φ.draft = some (fd, content)) :
    φ.fd = some fd := by
  cases φ with
  | writing fd' content' =>
      cases hφ
      rfl
  | closed fd' content' =>
      cases hφ
      rfl
  | _ => cases hφ

/-- Somebody else's unfinished file, after a step that leaves its descriptor alone. -/
theorem inodeOf_frame {fs fs' : FileSystem Path} {ps : Set Path} {ns fds : Set Nat}
    (hframe : FileSystem.Frame fs fs' ps ns fds)
    (hlt : ∀ fd, φ.fd = some fd → fd < fs.files.length) (hfds : ∀ fd, φ.fd = some fd → fd ∉ fds) :
    inodeOf fs' φ = inodeOf fs φ := by
  unfold inodeOf
  cases hdraft : φ.draft with
  | none => rfl
  | some d =>
      have hfd := fd_of_draft hdraft
      change (fs'.files[d.1]?).map _ = (fs.files[d.1]?).map _
      rw [hframe.file_eq d.1 (hlt _ hfd) (hfds _ hfd)]

theorem Holding.frame {fs fs' : FileSystem Path} {ps : Set Path} {ns fds : Set Nat} {fd : Nat}
    {content : Bytes} (hholds : Holding fs φ fd content)
    (hframe : FileSystem.Frame fs fs' ps ns fds) (hlt : fd < fs.files.length) (hfd : fd ∉ fds)
    (hns : ∀ m, (fs.files[fd]?).map OpenFile.inode = some m → m ∉ ns) :
    Holding fs' φ fd content := by
  have hfile := hframe.file_eq fd hlt hfd
  obtain ⟨m, hm, hcontent⟩ := hholds.inode
  have hmlt : m < fs.inodes.length := (List.getElem?_eq_some_iff.1 hcontent).1
  refine ⟨⟨m, ?_, ?_⟩, ?_⟩
  · rw [hfile, hm]
  · rw [hframe.inode_eq m hmlt (hns m hm), hcontent]
  · rw [hfile]
    exact hholds.atEnd

/-- A step of writer `i` that touches only its own file. -/
theorem Apart.move (ha : Apart h key found v) {ps : Set Path} {ns fds : Set Nat}
    (hframe : FileSystem.Frame v.store.fs d.fs ps ns fds)
    (hfds : ∀ fd ∈ fds, ((drafting h key).phaseOf i v.log).fd = some fd)
    (hns : ∀ n ∈ ns, ∀ j, j ≠ i → inodeOf v.store.fs ((drafting h key).phaseOf j v.log) ≠ some n)
    (hφ : ((drafting h key).phaseOf i v.log).after o r = φ) (hunlinked : d.fs.Unlinked)
    (hfd : ∀ fd, φ.fd = some fd → fd < d.fs.files.length ∧
      (((drafting h key).phaseOf i v.log).fd = some fd ∨ v.store.fs.files.length ≤ fd))
    (hholds : ∀ fd content, φ.draft = some (fd, content) → Holding d.fs φ fd content)
    (hapart : ∀ m, inodeOf d.fs φ = some m → ∀ j, j ≠ i →
      inodeOf v.store.fs ((drafting h key).phaseOf j v.log) ≠ some m)
    (hfinal : ∀ m, d.fs.names.find (h.final key.hash) = some m → inodeOf d.fs φ ≠ some m ∧
      ∀ j, j ≠ i → inodeOf v.store.fs ((drafting h key).phaseOf j v.log) ≠ some m)
    (hsound : Sound h key found ⟨d, ⟨i, w, ⟨o, r⟩⟩ :: v.log⟩) :
    Apart h key found ⟨d, ⟨i, w, ⟨o, r⟩⟩ :: v.log⟩ := by
  have hself : (drafting h key).phaseOf i (⟨i, w, ⟨o, r⟩⟩ :: v.log) = φ :=
    (Typestate.phaseOf_cons_self i w o r v.log).trans hφ
  have hother : ∀ j, j ≠ i → (drafting h key).phaseOf j (⟨i, w, ⟨o, r⟩⟩ :: v.log) =
      (drafting h key).phaseOf j v.log := fun j hji => Typestate.phaseOf_cons_of_ne hji w _ v.log
  -- the descriptors of the others are not those of this writer
  have hfdOther : ∀ j fd, j ≠ i → ((drafting h key).phaseOf j v.log).fd = some fd → fd ∉ fds := by
    intro j fd hji hj hmem
    exact hji (ha.fd_inj j i fd hj (hfds fd hmem))
  have hinode : ∀ j, j ≠ i → inodeOf d.fs ((drafting h key).phaseOf j v.log) =
      inodeOf v.store.fs ((drafting h key).phaseOf j v.log) := by
    intro j hji
    exact inodeOf_frame hframe (ha.fd_lt j) fun fd => hfdOther j fd hji
  have hclash : ∀ j fd, j ≠ i → φ.fd = some fd →
      ((drafting h key).phaseOf j v.log).fd ≠ some fd := by
    intro j fd hji hmine hj
    rcases (hfd fd hmine).2 with hold | hnew
    · exact hji (ha.fd_inj j i fd hj hold)
    · exact Nat.lt_irrefl _ (Nat.lt_of_lt_of_le (ha.fd_lt j fd hj) hnew)
  refine ⟨hunlinked, ?_, ?_, ?_, ?_, ?_, hsound⟩
  · intro j fd hj
    by_cases hji : j = i
    · subst hji
      rw [hself] at hj
      exact (hfd fd hj).1
    · rw [hother j hji] at hj
      exact Nat.lt_of_lt_of_le (ha.fd_lt j fd hj) hframe.files_le
  · intro j k fd hj hk
    by_cases hji : j = i <;> by_cases hki : k = i
    · exact hji.trans hki.symm
    · subst hji
      rw [hself] at hj
      rw [hother k hki] at hk
      exact absurd hk (hclash k fd hki hj)
    · subst hki
      rw [hother j hji] at hj
      rw [hself] at hk
      exact absurd hj (hclash j fd hji hk)
    · rw [hother j hji] at hj
      rw [hother k hki] at hk
      exact ha.fd_inj j k fd hj hk
  · intro j fd content hj
    by_cases hji : j = i
    · subst hji
      rw [hself] at hj ⊢
      exact hholds fd content hj
    · rw [hother j hji] at hj ⊢
      have hjfd := fd_of_draft hj
      refine (ha.holds j fd content hj).frame hframe (ha.fd_lt j fd hjfd) (hfdOther j fd hji hjfd) ?_
      intro m hm hmem
      refine hns m hmem j hji ?_
      rw [inodeOf, hj]
      exact hm
  · intro j k m hj hk
    change inodeOf d.fs _ = some m at hj hk
    by_cases hji : j = i <;> by_cases hki : k = i
    · exact hji.trans hki.symm
    · subst hji
      rw [hself] at hj
      rw [hother k hki, hinode k hki] at hk
      exact absurd hk (hapart m hj k hki)
    · subst hki
      rw [hother j hji, hinode j hji] at hj
      rw [hself] at hk
      exact absurd hj (hapart m hk j hji)
    · rw [hother j hji, hinode j hji] at hj
      rw [hother k hki, hinode k hki] at hk
      exact ha.apart j k m hj hk
  · intro j m hm
    change inodeOf d.fs _ ≠ some m
    obtain ⟨hmine, hothers⟩ := hfinal m hm
    by_cases hji : j = i
    · subst hji
      rwa [hself]
    · rw [hother j hji, hinode j hji]
      exact hothers j hji

def renames : Call Op Res → Bool
  | ⟨.rename _ _, .ok _⟩ => true
  | _ => false

theorem lastWriter_cons {call : Call Op Res} (hcall : renames call = false)
    (log : List (Entry Writer Op Res)) :
    lastWriter (⟨i, w, call⟩ :: log) = lastWriter log := by
  rcases call with ⟨o, r⟩
  cases o with
  | rename old new =>
      cases r with
      | ok u => cases hcall
      | error e => rfl
  | _ => rfl

theorem Sound.of_content (hs : Sound h key found v) (hcall : renames ⟨o, r⟩ = false)
    (hcontent : ∀ bytes, d.fs.content (h.final key.hash) = some bytes →
      v.store.fs.content (h.final key.hash) = some bytes) :
    Sound h key found ⟨d, ⟨i, w, ⟨o, r⟩⟩ :: v.log⟩ := by
  intro bytes hbytes
  change match lastWriter (⟨i, w, ⟨o, r⟩⟩ :: v.log) with
    | some writer => Checked h key writer bytes
    | none => _
  rw [lastWriter_cons hcall]
  exact hs bytes (hcontent bytes hbytes)

theorem fd_dropped : φ.dropped.fd = φ.fd := by
  cases φ <;> rfl

theorem draft_dropped : φ.dropped.draft = none := by
  cases φ <;> rfl

theorem inodeOf_of_draft {fs : FileSystem Path} (hφ : φ.draft = none) : inodeOf fs φ = none := by
  rw [inodeOf, hφ]
  rfl

/-- A step after which at most names are gone, or the writer has given up. -/
theorem Apart.fewer (ha : Apart h key found v) {ps : Set Path}
    (hframe : FileSystem.Frame v.store.fs d.fs ps ∅ ∅)
    (hnames : ∀ p n, d.fs.names.find p = some n → v.store.fs.names.find p = some n)
    (hφ : ((drafting h key).phaseOf i v.log).after o r = (drafting h key).phaseOf i v.log ∨
      ((drafting h key).phaseOf i v.log).after o r = ((drafting h key).phaseOf i v.log).dropped)
    (hcall : renames ⟨o, r⟩ = false) : Apart h key found ⟨d, ⟨i, w, ⟨o, r⟩⟩ :: v.log⟩ := by
  -- Whether the draft is kept or dropped, the descriptor stays the same.
  have hfdEq : (((drafting h key).phaseOf i v.log).after o r).fd =
      ((drafting h key).phaseOf i v.log).fd := by
    rcases hφ with hφ | hφ
    · rw [hφ]
    · rw [hφ, fd_dropped]
  have hinode : ∀ m, inodeOf d.fs (((drafting h key).phaseOf i v.log).after o r) = some m →
      inodeOf v.store.fs ((drafting h key).phaseOf i v.log) = some m := by
    intro m hm
    rcases hφ with hφ | hφ
    · rwa [hφ, inodeOf_frame hframe (ha.fd_lt i) fun _ _ => nofun] at hm
    · rw [hφ, inodeOf_of_draft draft_dropped] at hm
      cases hm
  refine ha.move hframe nofun nofun rfl (ha.unlinked.of_names hnames) ?_ ?_ ?_ ?_ ?_
  · intro fd hfd
    rw [hfdEq] at hfd
    exact ⟨Nat.lt_of_lt_of_le (ha.fd_lt i fd hfd) hframe.files_le, .inl hfd⟩
  · intro fd content hdraft
    rcases hφ with hφ | hφ
    · rw [hφ] at hdraft ⊢
      have hfd := fd_of_draft hdraft
      exact (ha.holds i fd content hdraft).frame hframe (ha.fd_lt i fd hfd) nofun fun _ _ => nofun
    · rw [hφ, draft_dropped] at hdraft
      cases hdraft
  · intro m hm j hji hj
    exact hji (ha.apart j i m hj (hinode m hm))
  · intro m hm
    have hold := hnames _ m hm
    exact ⟨fun hmine => ha.final i m hold (hinode m hmine), fun j _ => ha.final j m hold⟩
  · refine ha.sound.of_content hcall ?_
    intro bytes hbytes
    obtain ⟨m, hm, hinode⟩ := Option.bind_eq_some_iff.1 hbytes
    have hold := hnames _ m hm
    rw [hframe.inode_eq m (v.store.fs.lt_of_find hold) nofun] at hinode
    exact Option.bind_eq_some_iff.2 ⟨m, hold, hinode⟩

/-- The unfinished file of a `Put` that has just created it. -/
theorem Apart.create (ha : Apart h key found v)
    (hfree : ∀ m j, v.store.fs.names.find (h.tmp key.hash) = some m → j ≠ i →
      inodeOf v.store.fs ((drafting h key).phaseOf j v.log) ≠ some m) :
    Apart h key found ⟨{ v.store with fs := (v.store.fs.create (h.tmp key.hash)).1 },
      ⟨i, w, ⟨.create (h.tmp key.hash), .ok (v.store.fs.create (h.tmp key.hash)).2⟩⟩ :: v.log⟩ := by
  have hframe := FileSystem.frame_create v.store.fs (h.tmp key.hash)
  obtain ⟨hcontent, m, hfind, hfile⟩ := FileSystem.holds_create v.store.fs (h.tmp key.hash)
  obtain ⟨hnew, hlt⟩ := FileSystem.create_fd v.store.fs (h.tmp key.hash)
  have hinode : (v.store.fs.create (h.tmp key.hash)).1.inodes[m]? = some [] := by
    simpa [FileSystem.content, hfind] using hcontent
  have hne : h.final key.hash ≠ h.tmp key.hash := (tmp_ne_final key.hex key.hex).symm
  have hmine : ∀ n, inodeOf (v.store.fs.create (h.tmp key.hash)).1
      (.writing (v.store.fs.create (h.tmp key.hash)).2 []) = some n → n = m := by
    intro n hn
    simpa [inodeOf, DraftPhase.draft, hfile] using hn.symm
  -- the inode is new, or it was under the temporary path before
  have hold := FileSystem.find_create v.store.fs (h.tmp key.hash) hfind
  have hothers : ∀ j, j ≠ i → inodeOf v.store.fs ((drafting h key).phaseOf j v.log) ≠ some m := by
    intro j hji hj
    rcases hold with hold | rfl
    · exact hfree m j hold hji hj
    · obtain ⟨⟨fd, content⟩, hdraft, hfd⟩ := Option.bind_eq_some_iff.1 hj
      obtain ⟨m', hm', hcontent'⟩ := (ha.holds j fd content hdraft).inode
      cases hm'.symm.trans hfd
      exact Nat.lt_irrefl _ (List.getElem?_eq_some_iff.1 hcontent').1
  have hfinal : (v.store.fs.create (h.tmp key.hash)).1.names.find (h.final key.hash) =
      v.store.fs.names.find (h.final key.hash) := hframe.find_eq _ hne
  have hapart : ∀ n, v.store.fs.names.find (h.final key.hash) = some n → n ≠ m := by
    rintro n hn rfl
    rcases hold with hold | rfl
    · exact hne (ha.unlinked _ _ n hn hold)
    · exact Nat.lt_irrefl _ (v.store.fs.lt_of_find hn)
  refine ha.move hframe (Set.forall_mem_empty.2 trivial) ?_ rfl (ha.unlinked.create _) ?_ ?_ ?_ ?_
    ?_
  · intro n hn j hji
    exact hfree n j hn hji
  · intro fd hfd
    cases hfd
    exact ⟨hlt, .inr hnew.ge⟩
  · intro fd content hdraft
    cases hdraft
    refine ⟨⟨m, ?_, hinode⟩, fun _ => ⟨m, hfile⟩⟩
    change ((v.store.fs.create (h.tmp key.hash)).1.files[_]?).map _ = _
    rw [hfile]
    rfl
  · intro n hn
    obtain rfl := hmine n hn
    exact hothers
  · intro n hn
    rw [hfinal] at hn
    refine ⟨fun hn' => hapart n hn (hmine n hn'), fun j _ => ha.final j n hn⟩
  · refine ha.sound.of_content rfl ?_
    intro bytes hbytes
    refine (hframe.content_eq hne ?_).symm.trans hbytes
    intro n hn htmp
    exact hne (ha.unlinked _ _ n hn htmp)

/-- A write of a `Put` to its own file. -/
theorem Apart.write (ha : Apart h key found v) {fd : Nat} {content bytes bytes' : Bytes}
    {fs : FileSystem Path} {r : Except IoError Unit}
    (hphase : (drafting h key).phaseOf i v.log = .writing fd content)
    (hwrite : v.store.fs.write fd bytes' = some fs) (hall : r = .ok () → bytes' = bytes) :
    Apart h key found ⟨{ v.store with fs := fs }, ⟨i, w, ⟨.write fd bytes, r⟩⟩ :: v.log⟩ := by
  have hdraft : ((drafting h key).phaseOf i v.log).draft = some (fd, content) := by
    rw [hphase]
    rfl
  obtain ⟨⟨m, hm, hcontent⟩, hend⟩ := ha.holds i fd content hdraft
  obtain ⟨m', hfile⟩ := hend hphase
  obtain rfl : m' = m := by simpa [hfile] using hm
  have hframe := FileSystem.frame_write hwrite hfile
  obtain ⟨hfile', hcontent'⟩ := FileSystem.write_at_end hwrite hfile hcontent
  have hold : inodeOf v.store.fs ((drafting h key).phaseOf i v.log) = some m' := by
    rw [inodeOf, hdraft]
    exact hm
  have hothers : ∀ j, j ≠ i → inodeOf v.store.fs ((drafting h key).phaseOf j v.log) ≠ some m' :=
    fun j hji hj => hji (ha.apart j i m' hj hold)
  -- the next phase is on the same inode, or on none
  have hnext : (((drafting h key).phaseOf i v.log).after (.write fd bytes) r = .past fd) ∨
      (r = .ok () ∧ ((drafting h key).phaseOf i v.log).after (.write fd bytes) r =
        .writing fd (content ++ bytes)) := by
    rw [hphase]
    cases r with
    | error e => exact .inl rfl
    | ok u => exact .inr ⟨rfl, rfl⟩
  have hmine : ∀ n, inodeOf fs (((drafting h key).phaseOf i v.log).after (.write fd bytes) r) =
      some n → n = m' := by
    intro n hn
    rcases hnext with hφ | ⟨-, hφ⟩
    · rw [hφ] at hn
      cases hn
    · rw [hφ] at hn
      simpa [inodeOf, DraftPhase.draft, hfile'] using hn.symm
  refine ha.move hframe ?_ ?_ rfl (ha.unlinked.of_names fun p n hp => ?_) ?_ ?_ ?_ ?_ ?_
  · rintro fd' rfl
    rw [hphase]
    rfl
  · rintro n rfl
    exact hothers
  · exact (hframe.find_eq p nofun).symm.trans hp
  · intro fd' hfd'
    have hEq : fd' = fd := by
      rcases hnext with hφ | ⟨-, hφ⟩
      · rw [hφ] at hfd'
        exact (Option.some.inj hfd').symm
      · rw [hφ] at hfd'
        exact (Option.some.inj hfd').symm
    subst hEq
    refine ⟨(List.getElem?_eq_some_iff.1 hfile').1, .inl ?_⟩
    rw [hphase]
    rfl
  · intro fd' content' hdraft'
    rcases hnext with hφ | ⟨hok, hφ⟩
    · rw [hφ] at hdraft'
      cases hdraft'
    · obtain rfl := hall hok
      rw [hφ] at hdraft' ⊢
      cases hdraft'
      refine ⟨⟨m', ?_, hcontent'⟩, fun _ => ⟨m', hfile'⟩⟩
      change (fs.files[fd]?).map _ = _
      rw [hfile']
      rfl
  · intro n hn
    obtain rfl := hmine n hn
    exact hothers
  · intro n hn
    have hbefore : v.store.fs.names.find (h.final key.hash) = some n :=
      (hframe.find_eq _ nofun).symm.trans hn
    refine ⟨?_, fun j _ => ha.final j n hbefore⟩
    intro hn'
    obtain rfl := hmine n hn'
    exact ha.final i n hbefore hold
  · refine ha.sound.of_content rfl ?_
    intro bytes₁ hbytes
    refine (hframe.content_eq nofun ?_).symm.trans hbytes
    rintro n hn rfl
    exact ha.final i _ hn hold

/-- A `Put` closes its descriptor. -/
theorem Apart.close (ha : Apart h key found v) {fd : Nat} {fs : FileSystem Path}
    {r : Except IoError Unit} (hfd : ((drafting h key).phaseOf i v.log).fd = some fd)
    (hclose : v.store.fs.close fd = some fs)
    (hφ : ∀ fd' content, ((drafting h key).phaseOf i v.log).after (.close fd) r ≠
      .writing fd' content) :
    Apart h key found ⟨{ v.store with fs := fs }, ⟨i, w, ⟨.close fd, r⟩⟩ :: v.log⟩ := by
  have hframe := FileSystem.frame_close hclose
  obtain ⟨f, hfile, hfile', hinodes⟩ := FileSystem.close_eq_some hclose
  have hnext : (((drafting h key).phaseOf i v.log).after (.close fd) r).fd =
        ((drafting h key).phaseOf i v.log).fd ∧
      (((drafting h key).phaseOf i v.log).after (.close fd) r).draft =
        ((drafting h key).phaseOf i v.log).draft := by
    cases (drafting h key).phaseOf i v.log <;> exact ⟨rfl, rfl⟩
  have hmap : (fs.files[fd]?).map OpenFile.inode = (v.store.fs.files[fd]?).map OpenFile.inode := by
    rw [hfile', hfile]
    rfl
  -- The one descriptor this task has is the one that is closed.
  have hown : ∀ fd' content, ((drafting h key).phaseOf i v.log).draft = some (fd', content) →
      fd' = fd := by
    intro fd' content hdraft
    exact Option.some.inj ((fd_of_draft hdraft).symm.trans hfd)
  -- Closing leaves the inode behind the descriptor as it is.
  have hinode : inodeOf fs (((drafting h key).phaseOf i v.log).after (.close fd) r) =
      inodeOf v.store.fs ((drafting h key).phaseOf i v.log) := by
    unfold inodeOf
    rw [hnext.2]
    cases hdraft : ((drafting h key).phaseOf i v.log).draft with
    | none => rfl
    | some d =>
        obtain ⟨fd', content⟩ := d
        obtain rfl := hown fd' content hdraft
        exact hmap
  refine ha.move hframe ?_ nofun rfl (ha.unlinked.of_names fun p n hp => ?_) ?_ ?_ ?_ ?_ ?_
  · rintro fd' rfl
    exact hfd
  · exact (hframe.find_eq p nofun).symm.trans hp
  · intro fd' hfd'
    rw [hnext.1] at hfd'
    exact ⟨Nat.lt_of_lt_of_le (ha.fd_lt i fd' hfd') hframe.files_le, .inl hfd'⟩
  · intro fd' content hdraft
    rw [hnext.2] at hdraft
    obtain rfl := hown fd' content hdraft
    obtain ⟨m, hm, hcontent⟩ := (ha.holds i fd' content hdraft).inode
    refine ⟨⟨m, hmap.trans hm, ?_⟩, fun hEq => absurd hEq (hφ fd' content)⟩
    change fs.inodes[m]? = some content
    rw [hinodes, hcontent]
  · intro m hm j hji hj
    change inodeOf fs _ = some m at hm
    rw [hinode] at hm
    exact hji (ha.apart j i m hj hm)
  · intro m hm
    have hbefore : v.store.fs.names.find (h.final key.hash) = some m :=
      (hframe.find_eq _ nofun).symm.trans hm
    refine ⟨?_, fun j _ => ha.final j m hbefore⟩
    change inodeOf fs _ ≠ some m
    rw [hinode]
    exact ha.final i m hbefore
  · refine ha.sound.of_content rfl ?_
    intro bytes hbytes
    exact (hframe.content_eq nofun fun _ _ => nofun).symm.trans hbytes

/-- A `Put` publishes its own file. -/
theorem Apart.rename (ha : Apart h key found v) {fd : Nat} {content : Bytes} {fs : FileSystem Path}
    (hphase : (drafting h key).phaseOf i v.log = .closed fd content)
    (hchecked : Checked h key w content)
    (hrename : v.store.fs.rename (h.tmp key.hash) (h.final key.hash) = some fs)
    (hown : ∀ m, v.store.fs.names.find (h.tmp key.hash) = some m →
      inodeOf v.store.fs ((drafting h key).phaseOf i v.log) = some m) :
    Apart h key found ⟨{ v.store with fs := fs },
      ⟨i, w, ⟨.rename (h.tmp key.hash) (h.final key.hash), .ok ()⟩⟩ :: v.log⟩ := by
  have hframe := FileSystem.frame_rename hrename
  obtain ⟨m, hfind, hnames, hinodes, -⟩ := FileSystem.rename_eq_some hrename
  have hmine := hown m hfind
  have hpast : ((drafting h key).phaseOf i v.log).after
      (.rename (h.tmp key.hash) (h.final key.hash)) (.ok ()) = .past fd := by
    rw [hphase]
    rfl
  have hnow : ∀ n, fs.names.find (h.final key.hash) = some n → n = m := by
    intro n hn
    rw [hnames, Table.find_set_self] at hn
    exact (Option.some.inj hn).symm
  refine ha.move hframe nofun nofun hpast (ha.unlinked.rename hrename) ?_ nofun nofun ?_ ?_
  · intro fd' hfd'
    cases hfd'
    have hold : ((drafting h key).phaseOf i v.log).fd = some fd := by
      rw [hphase]
      rfl
    exact ⟨Nat.lt_of_lt_of_le (ha.fd_lt i fd hold) hframe.files_le, .inl hold⟩
  · intro n hn
    obtain rfl := hnow n hn
    exact ⟨nofun, fun j hji hj => hji (ha.apart j i n hj hmine)⟩
  · intro bytes hbytes
    change Checked h key w bytes
    obtain ⟨n, hn, hbytes⟩ := Option.bind_eq_some_iff.1 hbytes
    obtain rfl := hnow n hn
    change fs.inodes[n]? = some bytes at hbytes
    rw [hinodes] at hbytes
    -- the inode holds what this writer has streamed
    obtain ⟨m', hm', hcontent⟩ := (ha.holds i fd content (by rw [hphase]; rfl)).inode
    rw [inodeOf, hphase] at hmine
    cases hm'.symm.trans hmine
    cases hcontent.symm.trans hbytes
    exact hchecked

end Steps

/-! ## Whole runs -/

section Runs

variable {h : Handlers} {key : Key} {maxBytes : Int} {found : FoundDisk}
  {tr : List RaceTransition} {c c' : Race}

theorem Apart.start (h : Handlers) (key : Key) (maxBytes : Int) (found : FoundDisk) :
    Apart h key found (Pool.init ⟨.new maxBytes, found.fs⟩ : Race).toWorld where
  unlinked := found.unlinked
  fd_lt := nofun
  fd_inj := nofun
  holds := nofun
  apart := nofun
  final := fun _ _ _ => nofun
  sound := fun _ hbytes => hbytes

/-- The store is the same, and the writer is where it was or has given up. -/
theorem Apart.same {v : View} (ha : Apart h key found v) {i : Nat} {w : Writer} {o : Op} {r : Res o}
    (hφ : ((drafting h key).phaseOf i v.log).after o r = (drafting h key).phaseOf i v.log ∨
      ((drafting h key).phaseOf i v.log).after o r = ((drafting h key).phaseOf i v.log).dropped)
    (hcall : renames ⟨o, r⟩ = false) : Apart h key found ⟨v.store, ⟨i, w, ⟨o, r⟩⟩ :: v.log⟩ :=
  ha.fewer (.refl _) (fun _ _ hp => hp) hφ hcall

/-- One operation. -/
theorem Apart.exec {i : Nat} {w : Writer} {o : Op} {e : Env} {d : Store} {r : Res o}
    {k : Res o → Code (Except PutError Path)} (ha : Apart h key found c.toWorld)
    (ht : c.tasks i = some ⟨w, some (.call o k)⟩)
    (hok : ((drafting h key).phaseOf i c.log).ok h key w o)
    (he : Gateway.exec o e c.store = some (d, r)) (hclobbers : ¬Clobbers h key c (.call i e))
    (hsteals : ¬Steals h key c (.call i e)) :
    Apart h key found ⟨d, ⟨i, w, ⟨o, r⟩⟩ :: c.log⟩ := by
  cases o with
  | mkdirAll dir => cases e <;> cases he <;> exact ha.same (.inl rfl) rfl
  | sync fd => cases e <;> cases he <;> exact ha.same (.inl rfl) rfl
  | remove p =>
      rcases outcome_of_exec he with rfl | ⟨fs, hremove, rfl⟩
      · exact ha.same (.inr rfl) rfl
      · refine ha.fewer (FileSystem.frame_remove hremove) ?_ (.inr rfl) rfl
        intro q n hq
        obtain ⟨m, -, rfl⟩ := Option.map_eq_some_iff.1 hremove
        rw [FileSystem.find_unlink] at hq
        split at hq
        · cases hq
        · exact hq
  | create p =>
      obtain ⟨rfl, -⟩ := hok
      cases e with
      | ok =>
          cases he
          refine ha.create ?_
          intro m j hm hji hj
          exact hclobbers ⟨i, w, _, k, m, j, rfl, ht, hm, hji, hj⟩
      | fault err =>
          cases he
          exact ha.same (.inl rfl) rfl
      | _ => cases he
  | write fd bytes =>
      obtain ⟨content, hphase⟩ := hok
      cases e with
      | ok =>
          cases hwrite : c.store.fs.write fd bytes with
          | some fs =>
              rw [Gateway.exec, hwrite] at he
              cases he
              exact ha.write hphase hwrite fun _ => rfl
          | none =>
              rw [Gateway.exec, hwrite] at he
              cases he
              exact ha.same (.inr rfl) rfl
      | shortWrite n err =>
          cases hwrite : c.store.fs.write fd (bytes.take n) with
          | some fs =>
              rw [Gateway.exec, hwrite] at he
              cases he
              exact ha.write hphase hwrite fun hr => by cases hr
          | none =>
              rw [Gateway.exec, hwrite] at he
              cases he
              exact ha.same (.inr rfl) rfl
      | _ => cases he
  | close fd =>
      have hfd : ((drafting h key).phaseOf i c.log).fd = some fd := by
        rcases hok with ⟨content, hphase⟩ | hphase
        · rw [hphase]
          rfl
        · rw [hphase]
          rfl
      cases hclose : c.store.fs.close fd with
      | some fs =>
          have hnext : ∀ r fd' content, ((drafting h key).phaseOf i c.log).after (.close fd) r ≠
              .writing fd' content := by
            intro r fd' content hEq
            rcases hok with ⟨content', hphase⟩ | hphase
            · rw [hphase] at hEq
              cases hEq
            · rw [hphase] at hEq
              cases hEq
          cases e with
          | ok =>
              rw [Gateway.exec, hclose] at he
              cases he
              exact ha.close hfd hclose (hnext _)
          | fault err =>
              rw [Gateway.exec, hclose] at he
              cases he
              exact ha.close hfd hclose (hnext _)
          | _ => cases he
      | none =>
          have hpast : (drafting h key).phaseOf i c.log = .past fd := by
            refine hok.resolve_left ?_
            rintro ⟨content, hphase⟩
            -- the descriptor of an unfinished file is open
            obtain ⟨m, hfile⟩ := (ha.holds i fd content (by rw [hphase]; rfl)).atEnd hphase
            obtain ⟨fs, hsome⟩ := FileSystem.exists_close hfile
            cases hclose.symm.trans hsome
          have hnext : ∀ r, ((drafting h key).phaseOf i c.log).after (.close fd) r =
              (drafting h key).phaseOf i c.log := by
            intro r
            rw [hpast]
            rfl
          cases e with
          | ok =>
              rw [Gateway.exec, hclose] at he
              cases he
              exact ha.same (.inl (hnext _)) rfl
          | fault err =>
              rw [Gateway.exec, hclose] at he
              cases he
              exact ha.same (.inl (hnext _)) rfl
          | _ => cases he
  | rename old new =>
      obtain ⟨rfl, rfl, fd, content, hphase, hchecked⟩ := hok
      cases e with
      | ok =>
          cases hrename : c.store.fs.rename (h.tmp key.hash) (h.final key.hash) with
          | some fs =>
              rw [Gateway.exec, hrename] at he
              cases he
              refine ha.rename hphase hchecked hrename ?_
              intro m hm
              by_contra hne
              exact hsteals ⟨i, w, _, _, k, m, rfl, ht, hm, hne⟩
          | none =>
              rw [Gateway.exec, hrename] at he
              cases he
              exact ha.same (.inl rfl) rfl
      | fault err =>
          cases he
          exact ha.same (.inl rfl) rfl
      | _ => cases he
  | commit hash size path =>
      obtain ⟨kept, rfl⟩ := outcome_of_exec he
      refine ha.fewer (Store.frame_unlinkAll _ _) ?_ (.inl rfl) rfl
      intro q n hq
      rw [Store.commit, Store.find_unlinkAll] at hq
      split at hq
      · cases hq
      · exact hq

theorem RaceRun.conformsTo (hrun : RaceRun h key maxBytes found tr c) :
    ConformsTo (drafting h key) (fun _ _ => True) c := by
  have hreach : Reaches (writerCode h key) Gateway.exec (fun _ _ => True)
      (Pool.init ⟨.new maxBytes, found.fs⟩) c := ⟨tr, hrun, fun _ _ => trivial⟩
  exact hreach.conformsTo (.init _ _ _) follows_writerCode

theorem apart_of_run (hrun : RaceRun h key maxBytes found tr c)
    (hall : ∀ st ∈ tr, ¬Clobbers h key st.1 st.2.1 ∧ ¬Steals h key st.1 st.2.1) :
    Apart h key found c.toWorld := by
  induction hrun with
  | nil => exact .start h key maxBytes found
  | @snoc tr c₁ c₂ a hrun hstep ih =>
      have ha := ih fun st hst => hall st (List.mem_append_left _ hst)
      obtain ⟨hclobbers, hsteals⟩ := hall _ (List.mem_append_right _ List.mem_cons_self)
      rcases Pool.step_cases hstep with ⟨i, w, rfl, ht, rfl⟩ |
        ⟨i, e, w, o, k, s, r, rfl, ht, he, rfl⟩ | ⟨i, w, p, rfl, ht, rfl⟩
      · exact ha
      · have hok := ((RaceRun.conformsTo hrun).follows i w _ ht).1
        exact ha.exec ht hok he hclobbers hsteals
      · exact ha

/-- In a run in which no `Put` truncates or renames the unfinished file of another one, the
published file is at every moment the checked stream of the writer that renamed last. -/
theorem sound_of_run (hrun : RaceRun h key maxBytes found tr c)
    (hall : ∀ st ∈ tr, ¬Clobbers h key st.1 st.2.1 ∧ ¬Steals h key st.1 st.2.1) :
    Sound h key found c.toWorld :=
  (apart_of_run hrun hall).sound

end Runs

/-! ## A writer that is overtaken -/

section Samples

variable {h : Handlers} {key : Key}

/-- A `create` finds no file, and a `rename` finds the file of its own `Put`. -/
def apartCheck (h : Handlers) (key : Key) (c : Race) : RaceStep → Bool
  | .call i .ok =>
      match c.tasks i with
      | some ⟨_, some (.call (.create p) _)⟩ => decide (c.store.fs.names.find p = none)
      | some ⟨_, some (.call (.rename old _) _)⟩ =>
          decide (c.store.fs.names.find old =
            inodeOf c.store.fs ((drafting h key).phaseOf i c.log))
      | _ => true
  | _ => true

theorem apart_of_check (c : Race) (a : RaceStep) (hcheck : apartCheck h key c a = true) :
    ¬Clobbers h key c a ∧ ¬Steals h key c a := by
  refine ⟨?_, ?_⟩
  · rintro ⟨i, w, p, k, m, j, rfl, ht, hm, -⟩
    simp only [apartCheck, ht, decide_eq_true_eq] at hcheck
    rw [hcheck] at hm
    cases hm
  · rintro ⟨i, w, old, new, k, m, rfl, ht, hm, hne⟩
    simp only [apartCheck, ht, decide_eq_true_eq] at hcheck
    exact hne (hcheck.symm.trans hm)

def racerCalls (i : Nat) (envs : List Env) : List RaceStep :=
  envs.map (.call i)

end Samples

/-- A `Put` begins, another one writes the xorb, and the first one streams wrong bytes. -/
theorem sound_of_run_mismatched :
    ∃ tr c, RaceRun sampleHandlers sampleKey 0 emptyDisk tr c ∧
      Sound sampleHandlers sampleKey emptyDisk c.toWorld ∧
      c.store.fs.content (sampleHandlers.final sampleKey.hash) = some [1, 2, 3] := by
  have heval : ((Pool.init ⟨.new 0, emptyDisk.fs⟩ : Race).runChecked
      (writerCode sampleHandlers sampleKey) exec
      (apartCheck sampleHandlers sampleKey)
      ([.spawn 0 ⟨1, ⟨[[4]], none⟩⟩, .spawn 1 ⟨3, ⟨[[1, 2, 3]], none⟩⟩] ++ racerCalls 0 [.ok] ++
        racerCalls 1 [.ok, .ok, .ok, .ok, .ok, .ok, .ok, .evict []] ++
        racerCalls 0 [.ok, .ok, .ok, .ok, .ok, .ok])).map
      (fun c => c.allEnded 2 &&
        decide (c.store.fs.content (sampleHandlers.final sampleKey.hash) = some [1, 2, 3])) =
      some true := by
    decide +kernel
  obtain ⟨tr, c, hrun, hall, -, hP⟩ :=
    exists_finished_path heval (fun _ => rfl) (by decide +kernel) apart_of_check
  exact ⟨tr, c, hrun, sound_of_run hrun hall, of_decide_eq_true hP⟩

/-- Writer 0 has checked its stream and closed its file.  Writer 1 removes that file, creates its
own and has written one byte when writer 0 renames. -/
def overtakenWriter : List RaceStep :=
  [.spawn 0 ⟨3, ⟨[[1, 2, 3]], none⟩⟩, .spawn 1 ⟨3, ⟨[[1], [2, 3]], none⟩⟩] ++
    racerCalls 0 [.ok, .ok, .ok, .ok, .ok, .ok] ++ racerCalls 1 [.ok, .ok, .ok, .ok] ++
    racerCalls 0 [.ok]

/-- The first byte of the xorb is published. -/
theorem not_digest_overtakenWriter :
    ¬∀ (h : Handlers) (key : Key) (maxBytes : Int) (tr : List RaceTransition) (c : Race),
      RaceRun h key maxBytes emptyDisk tr c → ∀ bytes,
        c.store.fs.content (h.final key.hash) = some bytes →
          merkleHashHex h.blake3 bytes = key.hash := by
  intro hclaim
  have heval : ((Pool.init ⟨.new 0, emptyDisk.fs⟩ : Race).runChecked
      (writerCode sampleHandlers sampleKey) exec (fun _ _ => true) overtakenWriter).map
      (fun c => decide (c.store.fs.content (sampleHandlers.final sampleKey.hash) = some [1])) =
      some true := by
    decide +kernel
  rcases Option.map_eq_some_iff.1 heval with ⟨c, hsteps, hP⟩
  obtain ⟨tr, hrun, -⟩ : Reaches (writerCode sampleHandlers sampleKey) exec
      (fun _ _ => True) _ c := Reaches.of_runChecked hsteps fun _ _ _ => trivial
  have hdigest := hclaim sampleHandlers sampleKey 0 tr c hrun [1] (of_decide_eq_true hP)
  revert hdigest
  decide +kernel

end Racing

end Gateway
end OpenWeights
