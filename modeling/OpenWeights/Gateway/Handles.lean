import OpenWeights.Lib.Typestate
import OpenWeights.Gateway.Serving

/-!
# Handles — the files `Cache.Open` hands out

`ServeXorb` closes the file it serves from.  The leader of a coalescer call opens the entry once
more, to see whether somebody else has fetched it in the meantime, and forgets the file when the
answer is yes.

An automaton over the operations of one request says which handles it holds, has returned and has
forgotten; `closed_iff` says for every run in which all requests have ended that each handle was
closed exactly once if and only if no leader's re-check found its entry.
-/

namespace OpenWeights
namespace Gateway

open Lib Db OpenWeights.Core

namespace Serving

/-! ## The handles of one request -/

/-- Where a request stands with its files: whether it executes a call of the coalescer, the handle
it will serve from, the handles nobody keeps, those it closed, and the files it created. -/
structure HandlePhase where
  executing : Bool
  held : Option Nat
  forgotten : List Nat
  returned : List Nat
  created : List Nat
  deriving DecidableEq, Repr

def HandlePhase.after (φ : HandlePhase) : (o : Op) → Res o → HandlePhase
  | .openFile _, .ok fd =>
      if φ.executing then
        { φ with forgotten := fd :: φ.forgotten }
      else
        { φ with held := some fd }
  | .disk (.create _), .ok fd => { φ with created := fd :: φ.created }
  | .disk (.close fd), _ =>
      if φ.held = some fd then
        { φ with
          held := none
          returned := fd :: φ.returned }
      else
        φ
  | .enter _, .lead _ => { φ with executing := true }
  | .finish _ _, _ => { φ with executing := false }
  | _, _ => φ

/-- A request opens one file at a time, and closes what it holds or created. -/
def HandlePhase.ok (φ : HandlePhase) : Op → Prop
  | .openFile _ => φ.held = none
  | .disk (.close fd) => φ.held = some fd ∨ (φ.held = none ∧ fd ∈ φ.created)
  | _ => True

def handles : Typestate HandlePhase Request Op Res where
  start := ⟨false, none, [], [], []⟩
  after := HandlePhase.after
  ok := fun _ φ o => φ.ok o

section Programs

variable {h : Handlers} {req : Request} {φ : HandlePhase}

def HandlePhase.opened (φ : HandlePhase) : Option (Nat × Int) → HandlePhase
  | none => φ
  | some (fd, _) =>
      if φ.executing then
        { φ with forgotten := fd :: φ.forgotten }
      else
        { φ with held := some fd }

theorem follows_cacheOpen (hash : Bytes) (hheld : φ.held = none) :
    (cacheOpen hash).Follows handles req (fun φ' r => φ' = φ.opened r) φ := by
  refine .perform_bind trivial ?_
  rintro (_ | ⟨path, size⟩)
  · rfl
  · refine .perform_bind hheld ?_
    rintro (e | fd)
    · exact .perform_bind trivial fun _ => rfl
    · rfl

/-- A part of `Put`: only the list of created files grows. -/
def HandlePhase.Grown (φ φ' : HandlePhase) : Prop :=
  ∃ created, φ' = { φ with created := created ++ φ.created }

theorem HandlePhase.Grown.refl (φ : HandlePhase) : φ.Grown φ :=
  ⟨[], rfl⟩

/-- A file operation that opens and closes nothing. -/
theorem follows_plain {α : Type} {post : HandlePhase → α → Prop} {o : Gateway.Op}
    {f : Gateway.Res o → Gateway.Code α} (hok : φ.ok (.disk o))
    (hafter : ∀ r, φ.after (.disk o) r = φ)
    (hf : ∀ r, (onDisk (f r)).Follows handles req post φ) :
    (onDisk (Prog.perform o >>= f)).Follows handles req post φ := by
  refine ⟨hok, ?_⟩
  intro r
  change (onDisk (f r)).Follows handles req post (φ.after (.disk o) r)
  rw [hafter]
  exact hf r

theorem follows_copyTee {fd : Nat} {err : Option IoError} (hasher : MerkleHasher) (written : Nat)
    (blocks : List Bytes) :
    (onDisk (copyTee fd err hasher written blocks)).Follows handles req (fun φ' _ => φ' = φ) φ := by
  induction blocks generalizing hasher written with
  | nil =>
      unfold copyTee
      split <;> rfl
  | cons block rest ih =>
      unfold copyTee
      split
      · exact ih hasher written
      · refine follows_plain trivial (fun _ => rfl) ?_
        rintro (e | _)
        · rfl
        · exact ih _ _

/-- Closing a created file is no concern of the handles. -/
theorem follows_close {α : Type} {post : HandlePhase → α → Prop} {fd : Nat}
    {f : Except IoError Unit → Gateway.Code α} (hheld : φ.held = none) (hfd : fd ∈ φ.created)
    (hf : ∀ r, (onDisk (f r)).Follows handles req post φ) :
    (onDisk (close fd >>= f)).Follows handles req post φ := by
  refine follows_plain (.inr ⟨hheld, hfd⟩) ?_ hf
  intro r
  simp [HandlePhase.after, hheld]

theorem follows_publish (blake3 : Blake3) (hash : Bytes) (size : Int) (final tmp : Path)
    (hasher : MerkleHasher) :
    (onDisk (publish blake3 hash size final tmp hasher)).Follows handles req
      (fun φ' _ => φ' = φ) φ := by
  unfold publish
  simp only
  split
  · exact follows_plain trivial (fun _ => rfl) fun _ => rfl
  · refine follows_plain trivial (fun _ => rfl) ?_
    rintro (e | _)
    · exact follows_plain trivial (fun _ => rfl) fun _ => rfl
    · exact follows_plain trivial (fun _ => rfl) fun _ => rfl

theorem follows_fill (blake3 : Blake3) (hash : Bytes) (size : Int) (src : Reader)
    (final tmp : Path) {fd : Nat} (hheld : φ.held = none) (hfd : fd ∈ φ.created) :
    (onDisk (fill blake3 hash size src final tmp fd)).Follows handles req
      (fun φ' _ => φ' = φ) φ := by
  have hcleanup : ∀ e : PutError, (onDisk (do
      cleanupTmp fd tmp
      pure (.error e : Except PutError Path))).Follows handles req (fun φ' _ => φ' = φ) φ := by
    intro e
    exact follows_close hheld hfd fun _ => follows_plain trivial (fun _ => rfl) fun _ => rfl
  unfold fill
  rw [onDisk, Prog.embed_bind]
  refine (follows_copyTee .new 0 src.blocks).bind ?_
  rintro φ' (e | ⟨hasher, written⟩) rfl
  · exact hcleanup _
  · simp only
    split
    · exact hcleanup _
    · refine follows_plain trivial (fun _ => rfl) ?_
      rintro (e | _)
      · exact hcleanup _
      · refine follows_close hheld hfd ?_
        rintro (e | _)
        · exact follows_plain trivial (fun _ => rfl) fun _ => rfl
        · exact follows_publish blake3 hash size final tmp hasher

theorem follows_put (blake3 : Blake3) (dir hash : Bytes) (size : Int) (src : Reader)
    (hheld : φ.held = none) :
    (onDisk (put blake3 dir hash size src)).Follows handles req (fun φ' _ => φ.Grown φ') φ := by
  unfold put
  split
  · exact .refl φ
  · split
    · exact .refl φ
    · refine follows_plain trivial (fun _ => rfl) ?_
      rintro (e | _)
      · exact .refl φ
      · refine follows_plain trivial (fun _ => rfl) ?_
        intro _
        refine ⟨trivial, ?_⟩
        rintro (e | fd)
        · exact .refl φ
        · refine (follows_fill blake3 hash size src _ _ ?_ ?_).mono ?_
          · exact hheld
          · exact List.mem_cons_self
          · rintro φ' _ rfl
            exact ⟨[fd], rfl⟩

/-- The request holds no handle it would have to close. -/
def HandlePhase.Idle (φ : HandlePhase) : Prop :=
  φ.held = none ∧ φ.executing = false

theorem follows_fetchFn (hash : Bytes) (siaId : Hash) (size : Int64) (hheld : φ.held = none)
    (hexec : φ.executing = true) :
    (h.fetchFn hash siaId size).Follows handles req (fun φ' _ => φ'.held = none) φ := by
  refine (follows_cacheOpen hash hheld).bind ?_
  rintro φ' (_ | ⟨fd, sz⟩) rfl
  · refine .perform_bind trivial ?_
    intro d
    have hput : (onDisk (put h.blake3 h.dir hash size.toInt d.reader)).Follows handles req
        (fun φ₁ _ => φ'.Grown φ₁) φ' := follows_put h.blake3 h.dir hash size.toInt d.reader hheld
    rw [← onDisk_putRest] at hput
    refine hput.of_map.bind ?_
    rintro φ' p ⟨created, rfl⟩
    exact .perform_bind trivial fun _ => hheld
  · -- the handle of a successful re-check is forgotten, not held
    simpa [HandlePhase.opened, hexec, Prog.Follows] using hheld

theorem follows_missDo (hash : Bytes) (siaId : Hash) (size : Int64) (hidle : φ.Idle) :
    (missDo hash (h.fetchFn hash siaId size)).Follows handles req (fun φ' _ => φ'.Idle) φ := by
  refine .perform_bind trivial ?_
  rintro (n | n)
  · refine (follows_fetchFn (φ := { φ with executing := true }) hash siaId size hidle.1
      rfl).bind ?_
    intro φ' v hheld
    exact .perform_bind trivial fun _ => ⟨hheld, rfl⟩
  · exact ⟨trivial, fun _ => hidle⟩

theorem follows_getXorbSource (hash : Bytes) (siaId : Hash) (size : Int64) (hidle : φ.Idle) :
    (h.getXorbSource hash siaId size).Follows handles req
      (fun φ' r => φ'.held = r.toOption.map OpenSource.fd) φ := by
  refine (follows_cacheOpen hash hidle.1).bind ?_
  rintro φ' (_ | ⟨fd, sz⟩) rfl
  · refine (follows_missDo hash siaId size hidle).bind ?_
    intro φ₁ v hidle₁
    refine .perform_bind trivial ?_
    intro ms
    cases v with
    | error err => exact hidle₁.1
    | ok _ =>
        refine (follows_cacheOpen hash hidle₁.1).bind ?_
        rintro φ₂ (_ | ⟨fd, sz⟩) rfl
        · exact hidle₁.1
        · simp [HandlePhase.opened, hidle₁.2, Prog.Follows, Except.toOption]
  · simp [HandlePhase.opened, hidle.2, Prog.Follows, Except.toOption]

theorem follows_code (req : Request) :
    (code h req).Follows handles req (fun φ _ => φ.held = none) handles.start := by
  cases req with
  | cancel ctx => exact ⟨trivial, fun _ => rfl⟩
  | serve ctx r now =>
      have hserve : (h.serveXorb ctx r now).Follows handles (.serve ctx r now)
          (fun φ _ => φ.held = none) handles.start := by
        unfold Handlers.serveXorb
        split
        · rfl
        · refine .perform_bind trivial ?_
          intro row
          split
          · rfl
          · rename_i a _
            refine (follows_getXorbSource r.hash a.siaId a.size ⟨rfl, rfl⟩).bind ?_
            rintro φ (err | src) hheld
            · refine .perform_bind trivial ?_
              rintro (_ | _) <;> exact hheld
            · refine .perform_bind trivial ?_
              intro bytes
              refine ⟨.inl hheld, ?_⟩
              intro res
              have hfd : φ.held = some src.fd := hheld
              change (φ.after (.disk (.close src.fd)) res).held = none
              simp [HandlePhase.after, hfd]
      exact hserve.bind fun φ res hheld => hheld

end Programs

/-! ## All handles of a run -/

section Runs

variable {h : Handlers} {maxBytes : Int} {found : FoundDisk} {c c' : Server h}
  {tr : List (Transition h)}

def Opens (fd : Nat) : Call Op Res → Prop
  | ⟨.openFile _, r⟩ => r = .ok fd
  | ⟨.disk (.create _), r⟩ => r = .ok fd
  | _ => False

/-- The handle `Cache.Open` got. -/
def handed : Call Op Res → Option Nat
  | ⟨.openFile _, .ok fd⟩ => some fd
  | _ => none

abbrev Hands (fd : Nat) (call : Call Op Res) : Prop :=
  handed call = some fd

def closes : Call Op Res → Option Nat
  | ⟨.disk (.close fd), _⟩ => some fd
  | _ => none

abbrev Log := List (Entry Request Op Res)

def closings (log : Log) (fd : Nat) : Nat :=
  log.countP fun e => closes e.call = some fd

structure FdStep (fs fs' : FileSystem Path) (call : Call Op Res) : Prop where
  length_le : fs.files.length ≤ fs'.files.length
  kept : ∀ fd < fs.files.length, closes call ≠ some fd → fs'.fdOpen fd = fs.fdOpen fd
  closed : ∀ fd < fs.files.length, closes call = some fd → fs'.fdOpen fd = some false
  opened : ∀ fd, Opens fd call → fd = fs.files.length ∧ fd < fs'.files.length ∧
    fs'.fdOpen fd = some true

theorem FdStep.same {fs : FileSystem Path} {call : Call Op Res} (hcloses : closes call = none)
    (hopens : ∀ fd, ¬Opens fd call) : FdStep fs fs call where
  length_le := Nat.le_refl _
  kept := fun _ _ _ => rfl
  closed := by
    intro fd _ hfd
    rw [hcloses] at hfd
    cases hfd
  opened := fun fd hfd => absurd hfd (hopens fd)

theorem FdStep.of_frame {fs fs' : FileSystem Path} {call : Call Op Res} {ps : Set Path}
    {ns : Set Nat} (hframe : FileSystem.Frame fs fs' ps ns ∅) (hcloses : closes call = none)
    (hopened : ∀ fd, Opens fd call → fd = fs.files.length ∧ fd < fs'.files.length ∧
      fs'.fdOpen fd = some true) : FdStep fs fs' call where
  length_le := hframe.files_le
  kept := fun fd hlt _ => hframe.fdOpen_eq hlt (Set.notMem_empty fd)
  closed := by
    intro fd _ hfd
    rw [hcloses] at hfd
    cases hfd
  opened := hopened

theorem fdStep_close (fs : FileSystem Path) (fd : Nat) {r : Except IoError Unit} :
    FdStep fs ((fs.close fd).getD fs) ⟨.disk (.close fd), r⟩ := by
  have hframe : FileSystem.Frame fs ((fs.close fd).getD fs) ∅ ∅ {fd} := by
    cases hclose : fs.close fd with
    | none => exact (FileSystem.Frame.refl fs).mono subset_rfl subset_rfl (Set.empty_subset _)
    | some fs' => exact FileSystem.frame_close hclose
  refine ⟨hframe.files_le, ?_, ?_, fun _ => False.elim⟩
  · intro fd' hlt hne
    refine hframe.fdOpen_eq hlt ?_
    rintro rfl
    exact hne rfl
  · intro fd' hlt hEq
    cases hEq
    exact FileSystem.fdOpen_close fs hlt

theorem fdStep_disk {o : Gateway.Op} {e : Gateway.Env} {d d' : Store} {r : Gateway.Res o}
    (he : Gateway.exec o e d = some (d', r)) : FdStep d.fs d'.fs ⟨.disk o, r⟩ := by
  have hout := outcome_of_exec he
  cases o with
  | mkdirAll dir =>
      obtain rfl := hout
      exact .same rfl fun _ => id
  | remove p =>
      rcases hout with rfl | ⟨fs, hremove, rfl⟩
      · exact .same rfl fun _ => id
      · exact .of_frame (FileSystem.frame_remove hremove) rfl fun _ => False.elim
  | create p =>
      rcases hout with ⟨rfl, e, rfl⟩ | ⟨rfl, rfl⟩
      · exact .same rfl fun fd hfd => by cases hfd
      · obtain ⟨hfd, hlt⟩ := FileSystem.create_fd d.fs p
        refine .of_frame (FileSystem.frame_create d.fs p) rfl ?_
        intro fd hopens
        cases hopens
        refine ⟨hfd, hlt, ?_⟩
        rw [hfd]
        exact FileSystem.fdOpen_create d.fs p
  | write fd bytes =>
      rcases hout with rfl | ⟨bytes', fs, hwrite, rfl⟩
      · exact .same rfl fun _ => id
      · obtain ⟨f, hf⟩ := FileSystem.exists_file_of_write hwrite
        exact ⟨(FileSystem.frame_write hwrite hf).files_le,
          fun fd' _ _ => FileSystem.fdOpen_write hwrite fd', nofun, fun _ => False.elim⟩
  | sync fd =>
      obtain rfl := hout
      exact .same rfl fun _ => id
  | close fd =>
      -- A close takes effect whether it reports a fault or not.
      have hfs : d'.fs = (d.fs.close fd).getD d.fs := by
        cases e with
        | ok =>
            have hd : (d.update (d.fs.close fd) (lit "file already closed")).1 = d' :=
              congrArg Prod.fst (Option.some.inj he)
            rw [← hd]
            exact Store.update_fs _ _ _
        | fault e =>
            cases he
            exact Store.update_fs _ _ _
        | _ => cases he
      rw [hfs]
      exact fdStep_close d.fs fd
  | rename old new =>
      rcases hout with ⟨rfl, e, rfl⟩ | ⟨fs, hrename, rfl, rfl⟩
      · exact .same rfl fun _ => id
      · exact .of_frame (FileSystem.frame_rename hrename) rfl fun _ => False.elim
  | commit hash size path =>
      obtain ⟨kept, rfl⟩ := hout
      exact .of_frame (Store.frame_unlinkAll _ _) rfl fun _ => False.elim

theorem fdStep_of_exec {o : Op} {e : Env} {s s' : State h} {r : Res o}
    (he : exec h o e s = some (s', r)) : FdStep s.disk.fs s'.disk.fs ⟨o, r⟩ := by
  cases o with
  | openFile path =>
      cases e with
      | quiet =>
          have hEq : s.openFile path = (s', r) := Option.some.inj he
          unfold State.openFile at hEq
          split at hEq
          · rename_i fs fd hopen
            cases hEq
            obtain ⟨n, -, -, -, hfiles, rfl⟩ := FileSystem.openRead_eq_some hopen
            refine .of_frame (FileSystem.frame_openRead hopen) rfl ?_
            intro fd hopens
            cases hopens
            have hlength : fs.files.length = s.disk.fs.files.length + 1 := by simp [hfiles]
            refine ⟨rfl, ?_, FileSystem.fdOpen_length_append hfiles⟩
            simp only [hlength]
            omega
          · cases hEq
            exact .same rfl nofun
      | fault e =>
          cases he
          exact .same rfl nofun
      | _ => cases he
  | disk o =>
      cases e with
      | disk e =>
          rcases Option.map_eq_some_iff.1 he with ⟨⟨d, r⟩, hexec, hEq⟩
          cases hEq
          exact fdStep_disk hexec
      | _ => cases he
  | wait n =>
      cases e with
      | quiet =>
          rcases Option.map_eq_some_iff.1 he with ⟨v, -, hEq⟩
          cases hEq
          exact .same rfl nofun
      | _ => cases he
  | receive left =>
      obtain ⟨-, rfl⟩ := exec_receive he
      exact .same rfl nofun
  | _ =>
      cases e <;> cases he <;> exact .same rfl nofun

/-- The operations by what they do to the files of a request. -/
theorem call_cases (call : Call Op Res) :
    (∃ path fd, call = ⟨.openFile path, .ok fd⟩) ∨
      (∃ path fd, call = ⟨.disk (.create path), .ok fd⟩) ∨
      (∃ fd r, call = ⟨.disk (.close fd), r⟩) ∨
      ((∀ φ : HandlePhase, ∃ b, φ.after call.op call.result = { φ with executing := b }) ∧
        closes call = none ∧ ∀ fd, ¬Opens fd call ∧ ¬Hands fd call) := by
  rcases call with ⟨o, r⟩
  cases o with
  | openFile path =>
      cases r with
      | ok fd => exact .inl ⟨path, fd, rfl⟩
      | error e => exact .inr (.inr (.inr ⟨fun φ => ⟨_, rfl⟩, rfl, fun _ => ⟨nofun, nofun⟩⟩))
  | disk o =>
      cases o with
      | create path =>
          cases r with
          | ok fd => exact .inr (.inl ⟨path, fd, rfl⟩)
          | error e => exact .inr (.inr (.inr ⟨fun φ => ⟨_, rfl⟩, rfl, fun _ => ⟨nofun, nofun⟩⟩))
      | close fd => exact .inr (.inr (.inl ⟨fd, r, rfl⟩))
      | _ => exact .inr (.inr (.inr ⟨fun φ => ⟨_, rfl⟩, rfl, fun _ => ⟨nofun, nofun⟩⟩))
  | enter hash =>
      cases r with
      | lead n => exact .inr (.inr (.inr ⟨fun φ => ⟨_, rfl⟩, rfl, fun _ => ⟨nofun, nofun⟩⟩))
      | join n => exact .inr (.inr (.inr ⟨fun φ => ⟨_, rfl⟩, rfl, fun _ => ⟨nofun, nofun⟩⟩))
  | _ => exact .inr (.inr (.inr ⟨fun φ => ⟨_, rfl⟩, rfl, fun _ => ⟨nofun, nofun⟩⟩))

theorem opens_of_hands {fd : Nat} {call : Call Op Res} (hands : Hands fd call) :
    Opens fd call := by
  rcases call_cases call with ⟨path, n, rfl⟩ | ⟨path, n, rfl⟩ | ⟨n, r, rfl⟩ | ⟨-, -, hplain⟩
  · cases hands
    rfl
  · cases hands
  · cases hands
  · exact absurd hands (hplain fd).2

theorem closes_of_hands {fd : Nat} {call : Call Op Res} (hands : Hands fd call) :
    closes call = none := by
  rcases call_cases call with ⟨path, n, rfl⟩ | ⟨path, n, rfl⟩ | ⟨n, r, rfl⟩ | ⟨-, hcloses, -⟩
  · rfl
  · rfl
  · cases hands
  · exact hcloses

/-- The handles a request got. -/
def HandlePhase.mine (φ : HandlePhase) : List Nat :=
  φ.held.toList ++ (φ.forgotten ++ φ.returned)

theorem mem_mine_of_held {φ : HandlePhase} {fd : Nat} (hheld : φ.held = some fd) :
    fd ∈ φ.mine := by
  simp [HandlePhase.mine, hheld]

theorem mem_mine_of_returned {φ : HandlePhase} {fd : Nat} (hmem : fd ∈ φ.returned) :
    fd ∈ φ.mine := by
  simp [HandlePhase.mine, hmem]

theorem notMem_returned_of_held {φ : HandlePhase} {fd : Nat} (hnodup : φ.mine.Nodup)
    (hheld : φ.held = some fd) : fd ∉ φ.returned := by
  intro hmem
  simp [HandlePhase.mine, hheld, hmem] at hnodup

section Phase

variable {φ : HandlePhase} {call : Call Op Res} {fd : Nat}

theorem mine_after_hands (hok : φ.ok call.op) (hands : Hands fd call) :
    (φ.after call.op call.result).mine.Perm (fd :: φ.mine) := by
  rcases call_cases call with ⟨path, n, rfl⟩ | ⟨path, n, rfl⟩ | ⟨n, r, rfl⟩ | ⟨-, -, hplain⟩
  · cases hands
    have hheld : φ.held = none := hok
    simp only [HandlePhase.after]
    split
    · simp [HandlePhase.mine, hheld]
    · simp [HandlePhase.mine, hheld]
  · cases hands
  · cases hands
  · exact absurd hands (hplain fd).2

/-- Only `Cache.Open` adds a handle. -/
theorem mine_after (hands : ∀ fd, ¬Hands fd call) :
    (φ.after call.op call.result).mine.Perm φ.mine := by
  rcases call_cases call with ⟨path, n, rfl⟩ | ⟨path, n, rfl⟩ | ⟨n, r, rfl⟩ | ⟨hafter, -, -⟩
  · exact absurd rfl (hands n)
  · exact List.Perm.refl _
  · simp only [HandlePhase.after]
    split
    · rename_i hheld
      simp only [HandlePhase.mine, hheld, Option.toList_none, Option.toList_some, List.nil_append,
        List.singleton_append]
      exact List.perm_middle
    · exact List.Perm.refl _
  · obtain ⟨b, hb⟩ := hafter φ
    rw [hb]
    exact List.Perm.refl _

theorem mem_returned_after :
    fd ∈ (φ.after call.op call.result).returned ↔
      fd ∈ φ.returned ∨ (closes call = some fd ∧ φ.held = some fd) := by
  rcases call_cases call with ⟨path, n, rfl⟩ | ⟨path, n, rfl⟩ | ⟨n, r, rfl⟩ | ⟨hafter, hcloses, -⟩
  · simp only [HandlePhase.after]
    split <;> simp [closes]
  · simp [HandlePhase.after, closes]
  · simp only [HandlePhase.after, closes, Option.some.injEq]
    split
    · rename_i hheld
      simp only [hheld, List.mem_cons, Option.some.injEq]
      tauto
    · rename_i hheld
      refine ⟨Or.inl, ?_⟩
      rintro (hmem | ⟨rfl, hEq⟩)
      · exact hmem
      · exact absurd hEq hheld
  · obtain ⟨b, hb⟩ := hafter φ
    simp [hb, hcloses]

/-- A file in the list of created ones was there before, or is not a handle of `Cache.Open`. -/
theorem mem_created_after (hmem : fd ∈ (φ.after call.op call.result).created) :
    fd ∈ φ.created ∨ (Opens fd call ∧ ∀ fd', ¬Hands fd' call) := by
  rcases call_cases call with ⟨path, n, rfl⟩ | ⟨path, n, rfl⟩ | ⟨n, r, rfl⟩ | ⟨hafter, -, -⟩
  · simp only [HandlePhase.after] at hmem
    split at hmem <;> exact .inl hmem
  · rcases List.mem_cons.1 hmem with rfl | hmem
    · exact .inr ⟨rfl, nofun⟩
    · exact .inl hmem
  · simp only [HandlePhase.after] at hmem
    split at hmem <;> exact .inl hmem
  · obtain ⟨b, hb⟩ := hafter φ
    rw [hb] at hmem
    exact .inl hmem

/-- A handle is forgotten when a request gets one while it executes a call. -/
theorem forgotten_after :
    (φ.after call.op call.result).forgotten ≠ [] ↔
      φ.forgotten ≠ [] ∨ (φ.executing = true ∧ ∃ fd, Hands fd call) := by
  rcases call_cases call with ⟨path, n, rfl⟩ | ⟨path, n, rfl⟩ | ⟨n, r, rfl⟩ | ⟨hafter, -, hplain⟩
  · simp only [HandlePhase.after]
    split
    · rename_i hexec
      exact ⟨fun _ => .inr ⟨hexec, n, rfl⟩, fun _ => List.cons_ne_nil _ _⟩
    · rename_i hexec
      simp [hexec]
  · simp [HandlePhase.after, handed]
  · simp only [HandlePhase.after]
    split <;> simp [handed]
  · obtain ⟨b, hb⟩ := hafter φ
    simp [hb, hplain]

/-- A request closes the handle it holds, or a file it created. -/
theorem owns_of_closes (hok : φ.ok call.op) (hcloses : closes call = some fd) :
    φ.held = some fd ∨ fd ∈ φ.created := by
  rcases call_cases call with ⟨path, n, rfl⟩ | ⟨path, n, rfl⟩ | ⟨n, r, rfl⟩ | ⟨-, hnone, -⟩
  · cases hcloses
  · cases hcloses
  · cases hcloses
    exact hok.imp_right And.right
  · rw [hnone] at hcloses
    cases hcloses

end Phase

theorem closings_cons (e : Entry Request Op Res) (log : Log) (fd : Nat) :
    closings (e :: log) fd = closings log fd + if closes e.call = some fd then 1 else 0 := by
  simp [closings, List.countP_cons]

/-- A handle was closed once, or is still open. -/
structure Settled (log : Log) (fs : FileSystem Path) (fd : Nat) (closed : Bool) : Prop where
  closings_eq : closings log fd = closed.toNat
  fdOpen_eq : fs.fdOpen fd = some !closed

/-- All handles of all requests: whose they are, and which of them are closed. -/
structure Handled (log : Log) (fs : FileSystem Path) : Prop where
  handed : ∀ e ∈ log, ∀ fd, Hands fd e.call → fd ∈ (handles.phaseOf e.task log).mine
  got : ∀ i fd, fd ∈ (handles.phaseOf i log).mine → ∃ e ∈ log, Hands fd e.call
  mine_lt : ∀ i fd, fd ∈ (handles.phaseOf i log).mine → fd < fs.files.length
  created_lt : ∀ i fd, fd ∈ (handles.phaseOf i log).created → fd < fs.files.length
  closed_lt : ∀ fd, closings log fd ≠ 0 → fd < fs.files.length
  nodup : ∀ i, (handles.phaseOf i log).mine.Nodup
  apart : ∀ i j fd, fd ∈ (handles.phaseOf i log).mine → fd ∈ (handles.phaseOf j log).mine → i = j
  apart_created : ∀ i j fd, fd ∈ (handles.phaseOf i log).mine →
    fd ∉ (handles.phaseOf j log).created
  settled : ∀ i fd, fd ∈ (handles.phaseOf i log).mine →
    Settled log fs fd (decide (fd ∈ (handles.phaseOf i log).returned))

theorem Handled.start (fs : FileSystem Path) : Handled [] fs where
  handed := nofun
  got := nofun
  mine_lt := nofun
  created_lt := nofun
  closed_lt := fun _ hne => absurd rfl hne
  nodup := fun _ => List.nodup_nil
  apart := nofun
  apart_created := nofun
  settled := nofun

section Step

variable {log : Log} {fs fs' : FileSystem Path} {i : Nat} {req : Request} {call : Call Op Res}

theorem phaseOf_self :
    handles.phaseOf i (⟨i, req, call⟩ :: log) =
      (handles.phaseOf i log).after call.op call.result :=
  Typestate.phaseOf_cons_self i req call.op call.result log

/-- Where a handle of a request comes from. -/
theorem mine_cases (hok : (handles.phaseOf i log).ok call.op) {j fd : Nat}
    (hmem : fd ∈ (handles.phaseOf j (⟨i, req, call⟩ :: log)).mine) :
    fd ∈ (handles.phaseOf j log).mine ∨ (j = i ∧ Hands fd call) := by
  by_cases hji : j = i
  · subst hji
    rw [phaseOf_self] at hmem
    by_cases hands : ∃ n, Hands n call
    · obtain ⟨n, hn⟩ := hands
      rcases List.mem_cons.1 ((mine_after_hands hok hn).mem_iff.1 hmem) with rfl | hmem
      · exact .inr ⟨rfl, hn⟩
      · exact .inl hmem
    · exact .inl ((mine_after (not_exists.1 hands)).mem_iff.1 hmem)
  · rw [Typestate.phaseOf_cons_of_ne hji] at hmem
    exact .inl hmem

theorem mine_subset (hok : (handles.phaseOf i log).ok call.op) {j fd : Nat}
    (hmem : fd ∈ (handles.phaseOf j log).mine) :
    fd ∈ (handles.phaseOf j (⟨i, req, call⟩ :: log)).mine := by
  by_cases hji : j = i
  · subst hji
    rw [phaseOf_self]
    by_cases hands : ∃ n, Hands n call
    · obtain ⟨n, hn⟩ := hands
      exact (mine_after_hands hok hn).mem_iff.2 (List.mem_cons_of_mem n hmem)
    · exact (mine_after (not_exists.1 hands)).mem_iff.2 hmem
  · rwa [Typestate.phaseOf_cons_of_ne hji]

theorem created_cases {j fd : Nat}
    (hmem : fd ∈ (handles.phaseOf j (⟨i, req, call⟩ :: log)).created) :
    fd ∈ (handles.phaseOf j log).created ∨ (Opens fd call ∧ ∀ fd', ¬Hands fd' call) := by
  by_cases hji : j = i
  · subst hji
    rw [phaseOf_self] at hmem
    exact mem_created_after hmem
  · rw [Typestate.phaseOf_cons_of_ne hji] at hmem
    exact .inl hmem

/-- What becomes of a handle that somebody has. -/
theorem Handled.settled_step (h : Handled log fs) (hok : (handles.phaseOf i log).ok call.op)
    (hfd : FdStep fs fs' call) {j fd : Nat} (hj : fd ∈ (handles.phaseOf j log).mine) :
    Settled (⟨i, req, call⟩ :: log) fs' fd
      (decide (fd ∈ (handles.phaseOf j (⟨i, req, call⟩ :: log)).returned)) := by
  have hlt := h.mine_lt j fd hj
  have hold := h.settled j fd hj
  by_cases hcloses : closes call = some fd
  · -- Only its owner closes a handle, and only while holding it.
    have hheld : (handles.phaseOf i log).held = some fd := by
      rcases owns_of_closes hok hcloses with hheld | hcreated
      · exact hheld
      · exact absurd hcreated (h.apart_created j i fd hj)
    obtain rfl : j = i := h.apart j i fd hj (mem_mine_of_held hheld)
    have hbefore : fd ∉ (handles.phaseOf j log).returned :=
      notMem_returned_of_held (h.nodup j) hheld
    have hafter : fd ∈ (handles.phaseOf j (⟨j, req, call⟩ :: log)).returned := by
      rw [phaseOf_self, mem_returned_after]
      exact .inr ⟨hcloses, hheld⟩
    refine ⟨?_, ?_⟩
    · rw [closings_cons, hold.closings_eq]
      simp [hbefore, hafter, hcloses]
    · rw [hfd.closed fd hlt hcloses]
      simp [hafter]
  · have hsame : fd ∈ (handles.phaseOf j (⟨i, req, call⟩ :: log)).returned ↔
        fd ∈ (handles.phaseOf j log).returned := by
      by_cases hji : j = i
      · subst hji
        rw [phaseOf_self, mem_returned_after]
        tauto
      · rw [Typestate.phaseOf_cons_of_ne hji]
    simp only [hsame]
    refine ⟨?_, ?_⟩
    · rw [closings_cons, hold.closings_eq]
      simp [hcloses]
    · rw [hfd.kept fd hlt hcloses, hold.fdOpen_eq]

/-- One operation of request `i`. -/
theorem Handled.step (h : Handled log fs) (hok : (handles.phaseOf i log).ok call.op)
    (hfd : FdStep fs fs' call) : Handled (⟨i, req, call⟩ :: log) fs' := by
  have hnew : ∀ fd, Hands fd call → fd = fs.files.length ∧ fd < fs'.files.length ∧
      fs'.fdOpen fd = some true := fun fd hands => hfd.opened fd (opens_of_hands hands)
  -- A descriptor that is handed out now was nobody's before.
  have hfresh : ∀ fd, Hands fd call → ∀ j, fd ∉ (handles.phaseOf j log).mine := by
    intro fd hands j hmem
    have hlt := h.mine_lt j fd hmem
    have hEq := (hnew fd hands).1
    omega
  refine ⟨?_, ?_, ?_, ?_, ?_, ?_, ?_, ?_, ?_⟩
  · intro e he fd hands
    rcases List.mem_cons.1 he with rfl | he
    · change fd ∈ (handles.phaseOf i (⟨i, req, call⟩ :: log)).mine
      rw [phaseOf_self]
      exact (mine_after_hands hok hands).mem_iff.2 List.mem_cons_self
    · exact mine_subset hok (h.handed e he fd hands)
  · intro j fd hmem
    rcases mine_cases hok hmem with hmem | ⟨-, hands⟩
    · obtain ⟨e, he, hands⟩ := h.got j fd hmem
      exact ⟨e, List.mem_cons_of_mem _ he, hands⟩
    · exact ⟨_, List.mem_cons_self, hands⟩
  · intro j fd hmem
    rcases mine_cases hok hmem with hmem | ⟨-, hands⟩
    · exact (h.mine_lt j fd hmem).trans_le hfd.length_le
    · exact (hnew fd hands).2.1
  · intro j fd hmem
    rcases created_cases hmem with hmem | ⟨hopens, -⟩
    · exact (h.created_lt j fd hmem).trans_le hfd.length_le
    · exact (hfd.opened fd hopens).2.1
  · intro fd hne
    rw [closings_cons] at hne
    by_cases hcloses : closes call = some fd
    · refine Nat.lt_of_lt_of_le ?_ hfd.length_le
      rcases owns_of_closes hok hcloses with hheld | hcreated
      · exact h.mine_lt i fd (mem_mine_of_held hheld)
      · exact h.created_lt i fd hcreated
    · simp only [hcloses, if_false, Nat.add_zero] at hne
      exact (h.closed_lt fd hne).trans_le hfd.length_le
  · intro j
    by_cases hji : j = i
    · subst hji
      rw [phaseOf_self]
      by_cases hands : ∃ n, Hands n call
      · obtain ⟨n, hn⟩ := hands
        exact (mine_after_hands hok hn).nodup_iff.2 (List.nodup_cons.2 ⟨hfresh n hn j, h.nodup j⟩)
      · exact (mine_after (not_exists.1 hands)).nodup_iff.2 (h.nodup j)
    · rw [Typestate.phaseOf_cons_of_ne hji]
      exact h.nodup j
  · intro j k fd hj hk
    rcases mine_cases hok hj with hj | ⟨rfl, hands⟩
    · rcases mine_cases hok hk with hk | ⟨-, hands⟩
      · exact h.apart j k fd hj hk
      · exact absurd hj (hfresh fd hands j)
    · rcases mine_cases hok hk with hk | ⟨rfl, -⟩
      · exact absurd hk (hfresh fd hands k)
      · rfl
  · intro j k fd hj hk
    rcases mine_cases hok hj with hj | ⟨-, hands⟩
    · rcases created_cases hk with hk | ⟨hopens, -⟩
      · exact h.apart_created j k fd hj hk
      · have hlt := h.mine_lt j fd hj
        have hEq := (hfd.opened fd hopens).1
        omega
    · rcases created_cases hk with hk | ⟨-, hnot⟩
      · have hlt := h.created_lt k fd hk
        have hEq := (hnew fd hands).1
        omega
      · exact hnot fd hands
  · intro j fd hj
    rcases mine_cases hok hj with hj | ⟨rfl, hands⟩
    · exact h.settled_step hok hfd hj
    · -- a new handle has not been closed yet
      have hEq := (hnew fd hands).1
      have hzero : closings log fd = 0 := by
        by_contra hne
        have hlt := h.closed_lt fd hne
        omega
      have hcloses := closes_of_hands hands
      have hreturned : fd ∉ (handles.phaseOf j (⟨j, req, call⟩ :: log)).returned := by
        rw [phaseOf_self, mem_returned_after, hcloses]
        rintro (hmem | ⟨hnone, -⟩)
        · exact hfresh fd hands j (mem_mine_of_returned hmem)
        · cases hnone
      refine ⟨?_, ?_⟩
      · rw [closings_cons, hzero, hcloses]
        simp [hreturned]
      · rw [(hnew fd hands).2.2]
        simp [hreturned]

end Step

theorem conformsTo_of_run (hrun : Run h maxBytes found tr c) :
    ConformsTo handles (fun φ _ => φ.held = none) c := by
  have hreach : Reaches (code h) (exec h) (fun _ _ => True) _ c := ⟨tr, hrun, fun _ _ => trivial⟩
  exact hreach.conformsTo (.init _ _ _) follows_code

theorem handled_of_run (hrun : Run h maxBytes found tr c) : Handled c.log c.store.disk.fs := by
  induction hrun with
  | nil => exact .start _
  | snoc hrun hstep ih =>
      rcases Pool.step_cases hstep with ⟨i, req, rfl, -, rfl⟩ |
        ⟨i, e, req, o, k, s, r, rfl, ht, he, rfl⟩ | ⟨i, req, p, rfl, -, rfl⟩
      · exact ih
      · have hok := ((conformsTo_of_run hrun).follows i req _ ht).1
        exact ih.step hok (fdStep_of_exec he)
      · exact ih

/-- A request that executes a call of the coalescer is about to open the file of an entry that is
there: the re-check hits. -/
def Rechecks (c : Server h) (a : Step) : Prop :=
  ∃ i req path k, a = .call i .quiet ∧ c.tasks i = some ⟨req, some (.call (.openFile path) k)⟩ ∧
    (handles.phaseOf i c.log).executing = true ∧ c.store.disk.fs.names.find path ≠ none

theorem openFile_ok {s : State h} {path : Path} (hfind : s.disk.fs.names.find path ≠ none) :
    ∃ s' fd, s.openFile path = (s', .ok fd) := by
  cases hopen : s.disk.fs.openRead path with
  | none =>
      unfold FileSystem.openRead at hopen
      split at hopen
      · cases hopen
      · rename_i hnone
        exact absurd hnone hfind
  | some t => exact ⟨{ s with disk := { s.disk with fs := t.1 } }, t.2, by simp [State.openFile, hopen]⟩

/-- `os.Open` of an entry whose file is there, and only that, gets a handle. -/
theorem hands_iff {o : Op} {e : Env} {s s' : State h} {r : Res o}
    (he : exec h o e s = some (s', r)) :
    (∃ fd, Hands fd ⟨o, r⟩) ↔
      e = .quiet ∧ ∃ path, o = .openFile path ∧ s.disk.fs.names.find path ≠ none := by
  constructor
  · rintro ⟨fd, hands⟩
    cases o with
    | openFile path =>
        cases r with
        | error err => cases hands
        | ok n =>
            cases e with
            | quiet =>
                refine ⟨rfl, path, rfl, ?_⟩
                have hEq : s.openFile path = (s', .ok n) := Option.some.inj he
                unfold State.openFile at hEq
                split at hEq
                · rename_i fs fd' hopen
                  obtain ⟨inode, hfind, -⟩ := FileSystem.openRead_eq_some hopen
                  simp [hfind]
                · cases hEq
            | _ => cases he
    | _ => cases hands
  · rintro ⟨rfl, path, rfl, hfind⟩
    obtain ⟨s₁, fd, hopen⟩ := openFile_ok hfind
    have hEq : s.openFile path = (s', r) := Option.some.inj he
    cases hopen.symm.trans hEq
    exact ⟨fd, rfl⟩

/-- A handle is forgotten by a re-check that hits, and only then. -/
theorem forgotten_step {a : Step} (hstep : c.step (code h) (exec h) a = some c') :
    (∃ i, (handles.phaseOf i c'.log).forgotten ≠ []) ↔
      (∃ i, (handles.phaseOf i c.log).forgotten ≠ []) ∨ Rechecks c a := by
  rcases Pool.step_cases hstep with ⟨i, req, rfl, -, rfl⟩ |
    ⟨i, e, req, o, k, s, r, rfl, ht, he, rfl⟩ | ⟨i, req, p, rfl, -, rfl⟩
  · refine ⟨.inl, ?_⟩
    rintro (hold | ⟨_, _, _, _, hact, -⟩)
    · exact hold
    · cases hact
  · have hands := hands_iff he
    constructor
    · rintro ⟨j, hj⟩
      by_cases hji : j = i
      · subst hji
        rcases forgotten_after.1 (phaseOf_self ▸ hj) with hj | ⟨hexec, hget⟩
        · exact .inl ⟨j, hj⟩
        · obtain ⟨rfl, path, rfl, hfind⟩ := hands.1 hget
          exact .inr ⟨j, req, path, k, rfl, ht, hexec, hfind⟩
      · rw [Typestate.phaseOf_cons_of_ne hji] at hj
        exact .inl ⟨j, hj⟩
    · rintro (⟨j, hj⟩ | ⟨j, req', path, k', hact, ht', hexec, hfind⟩)
      · refine ⟨j, ?_⟩
        by_cases hji : j = i
        · subst hji
          rw [phaseOf_self]
          exact forgotten_after.2 (.inl hj)
        · rwa [Typestate.phaseOf_cons_of_ne hji]
      · cases hact
        cases ht.symm.trans ht'
        refine ⟨i, ?_⟩
        rw [phaseOf_self]
        exact forgotten_after.2 (.inr ⟨hexec, hands.2 ⟨rfl, path, rfl, hfind⟩⟩)
  · refine ⟨.inl, ?_⟩
    rintro (hold | ⟨_, _, _, _, hact, -⟩)
    · exact hold
    · cases hact

theorem forgotten_iff (hrun : Run h maxBytes found tr c) :
    (∃ i, (handles.phaseOf i c.log).forgotten ≠ []) ↔ ∃ st ∈ tr, Rechecks st.1 st.2.1 := by
  induction hrun with
  | nil => simp [Pool.init, Typestate.phaseOf, handles]
  | snoc hrun hstep ih =>
      rw [forgotten_step hstep, ih]
      simp only [List.mem_append, List.mem_singleton, or_and_right, exists_or, exists_eq_left]

/-- Every handle that `Cache.Open` returned was closed once, and is closed. -/
def AllClosed (c : Server h) : Prop :=
  ∀ e ∈ c.log, ∀ fd, Hands fd e.call →
    closings c.log fd = 1 ∧ c.store.disk.fs.fdOpen fd = some false

theorem held_of_finished (hrun : Run h maxBytes found tr c) (hfinished : c.Finished) (i : Nat) :
    (handles.phaseOf i c.log).held = none := by
  have hconf := conformsTo_of_run hrun
  cases ht : c.tasks i with
  | none => rw [Typestate.phaseOf_eq_start (hconf.unused i ht)]; rfl
  | some t =>
      rcases t with ⟨req, prog⟩
      obtain ⟨res, rfl⟩ := hfinished i _ ht
      exact hconf.follows i req _ ht

/-- When all requests have returned, every handle was closed exactly once if and only if no
re-check of a leader hit. -/
theorem allClosed_iff (hrun : Run h maxBytes found tr c) (hfinished : c.Finished) :
    AllClosed c ↔ ∀ st ∈ tr, ¬Rechecks st.1 st.2.1 := by
  have hhandled := handled_of_run hrun
  constructor
  · intro hclosed st hst hrechecks
    obtain ⟨i, hforgotten⟩ := (forgotten_iff hrun).2 ⟨st, hst, hrechecks⟩
    obtain ⟨fd, hfd⟩ := List.exists_mem_of_ne_nil _ hforgotten
    have hmine : fd ∈ (handles.phaseOf i c.log).mine := by simp [HandlePhase.mine, hfd]
    obtain ⟨e, he, hands⟩ := hhandled.got i fd hmine
    have hreturned : fd ∉ (handles.phaseOf i c.log).returned := by
      intro hmem
      have hnodup := hhandled.nodup i
      simp only [HandlePhase.mine, List.nodup_append] at hnodup
      exact hnodup.2.1.2.2 fd hfd fd hmem rfl
    have hsettled := (hhandled.settled i fd hmine).closings_eq
    rw [(hclosed e he fd hands).1] at hsettled
    simp [hreturned] at hsettled
  · intro hall e he fd hands
    have hmine := hhandled.handed e he fd hands
    have hheld := held_of_finished hrun hfinished e.task
    have hforgotten : (handles.phaseOf e.task c.log).forgotten = [] := by
      by_contra hne
      obtain ⟨st, hst, hrechecks⟩ := (forgotten_iff hrun).1 ⟨e.task, hne⟩
      exact hall st hst hrechecks
    have hreturned : fd ∈ (handles.phaseOf e.task c.log).returned := by
      simpa [HandlePhase.mine, hheld, hforgotten] using hmine
    have hsettled := hhandled.settled e.task fd hmine
    simp only [hreturned, decide_true] at hsettled
    exact ⟨hsettled.closings_eq, hsettled.fdOpen_eq⟩

end Runs

/-! ## A request that is overtaken -/

section Samples

variable {h : Handlers}

def rechecksCheck (c : Server h) : Step → Bool
  | .call i _ =>
      match c.tasks i with
      | some ⟨_, some (.call (.openFile path) _)⟩ =>
          (handles.phaseOf i c.log).executing && (c.store.disk.fs.names.find path).isSome
      | _ => false
  | _ => false

theorem not_rechecks_of_check (c : Server h) (a : Step) (hcheck : (!rechecksCheck c a) = true) :
    ¬Rechecks c a := by
  rintro ⟨i, req, path, k, rfl, ht, hexec, hfind⟩
  simp [rechecksCheck, ht, hexec, hfind] at hcheck

end Samples

/-- A request that fetches its xorb opens one handle and closes it. -/
theorem allClosed_iff_fetched :
    ∃ tr c, Run sampleHandlers 0 emptyDisk tr c ∧ c.Finished ∧ AllClosed c ∧
      closings c.log 1 = 1 := by
  have heval : ((Pool.init (State.new sampleHandlers 0 emptyDisk)).runChecked
      (code sampleHandlers) (exec sampleHandlers) (fun c a => !rechecksCheck c a)
      (.spawn 0 (.serve 0 sampleRequest 1999999999) :: callsOf 0 fetchedEnvs)).map
      (fun c => c.allEnded 1 && decide (closings c.log 1 = 1)) = some true := by
    decide +kernel
  obtain ⟨tr, c, hrun, hall, hfinished, hP⟩ :=
    exists_finished_path heval (fun _ => rfl) (by decide +kernel) not_rechecks_of_check
  exact ⟨tr, c, hrun, hfinished, (allClosed_iff hrun hfinished).2 hall, of_decide_eq_true hP⟩

/-- Request 0 misses; before it enters the coalescer, request 1 fetches the xorb; then request 0
leads a call of its own, and its re-check hits. -/
def overtaken : List Step :=
  [.spawn 0 (.serve 0 sampleRequest 1999999999), .spawn 1 (.serve 1 sampleRequest 1999999999)] ++
    callsOf 0 [.row (Hash.fill 2), .quiet] ++ callsOf 1 fetchedEnvs ++
    callsOf 0 [.quiet, .quiet, .quiet, .quiet, .elapsed 1, .quiet, .quiet, .quiet, .disk .ok]

/-- Both requests have returned, and handle 2 was never closed. -/
theorem not_allClosed_overtaken :
    ¬∀ (h : Handlers) (maxBytes : Int) (found : FoundDisk) (tr : List (Transition h))
      (c : Server h), Run h maxBytes found tr c → c.Finished → AllClosed c := by
  intro hclaim
  have heval : ((Pool.init (State.new sampleHandlers 0 emptyDisk)).runChecked
      (code sampleHandlers) (exec sampleHandlers) (fun _ _ => true) overtaken).map
      (fun c => c.allEnded 2 && (c.log.any (fun e => handed e.call = some 2) &&
        closings c.log 2 = 0)) = some true := by
    decide +kernel
  obtain ⟨tr, c, hrun, -, hfinished, hP⟩ : ∃ tr c, Run sampleHandlers 0 emptyDisk tr c ∧
      (∀ st ∈ tr, True) ∧ _ := exists_finished_path heval (fun _ => rfl) (by decide +kernel)
        fun _ _ _ => trivial
  rw [Bool.and_eq_true, List.any_eq_true] at hP
  obtain ⟨⟨e, he, hands⟩, hzero⟩ := hP
  obtain ⟨hone, -⟩ := hclaim _ _ _ tr c hrun hfinished e he 2 (of_decide_eq_true hands)
  rw [of_decide_eq_true hzero] at hone
  cases hone

end Serving

end Gateway
end OpenWeights
