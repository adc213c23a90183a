import OpenWeights.Gateway.Serving

/-!
# Drafts — who may touch which file of the cache

Between two file operations of a `Put` any other request may run.  Three rules keep the requests
apart, and each operation of the gateway follows them:

* an unfinished file is touched only by the request that executes the call of the coalescer for its
  hash (`Leads`);
* a descriptor is used only by the request that opened it (`Owns`);
* an inode that is not an unfinished file is never written again (`Frozen`).

`Inv` says what they establish: every file that was published is good, for a notion of good files
that each `Put` checks before it renames.  `draftDiscipline` puts the rules together for programs
over the operations of `Serving`, whatever their requests are.
-/

namespace OpenWeights
namespace Gateway

open Lib Db OpenWeights.Core

/-! ## Paths of the cache -/

/-- What the verifier takes for a hash. -/
def HexHash (hash : Bytes) : Prop :=
  hash.length = 64 ∧ hash.all isHexLower = true

namespace Handlers

def final (h : Handlers) (hash : Bytes) : Path :=
  pathFor h.dir hash

def tmp (h : Handlers) (hash : Bytes) : Path :=
  tmpFor h.dir hash

end Handlers

theorem HexHash.slash {hash : Bytes} (hhex : HexHash hash) : 47 ∉ hash := by
  intro hmem
  have hlower := List.all_eq_true.1 hhex.2 47 hmem
  revert hlower
  decide

section Paths

variable {h : Handlers} {hash hash' : Bytes}

theorem getLast?_final (hhex : HexHash hash) :
    (h.final hash).elems.getLast? = some (hash ++ lit ".bin") :=
  getLast?_pathFor h.dir hhex.1 hhex.slash

theorem getLast?_tmp (hhex : HexHash hash) :
    (h.tmp hash).elems.getLast? = some (hash ++ lit ".bin" ++ lit ".tmp") :=
  getLast?_tmpFor h.dir hhex.1 hhex.slash

theorem final_inj (hhex : HexHash hash) (hhex' : HexHash hash')
    (hEq : h.final hash = h.final hash') : hash = hash' := by
  have hlast := congrArg (fun p : Path => p.elems.getLast?) hEq
  simp only [getLast?_final hhex, getLast?_final hhex', Option.some.injEq] at hlast
  exact List.append_cancel_right hlast

theorem tmp_inj (hhex : HexHash hash) (hhex' : HexHash hash') (hEq : h.tmp hash = h.tmp hash') :
    hash = hash' := by
  have hlast := congrArg (fun p : Path => p.elems.getLast?) hEq
  simp only [getLast?_tmp hhex, getLast?_tmp hhex', Option.some.injEq] at hlast
  exact List.append_cancel_right (List.append_cancel_right hlast)

theorem tmp_ne_final (hhex : HexHash hash) (hhex' : HexHash hash') :
    h.tmp hash ≠ h.final hash' := by
  intro hEq
  have hlast := congrArg (fun p : Path => p.elems.getLast?) hEq
  simp only [getLast?_tmp hhex, getLast?_final hhex', Option.some.injEq] at hlast
  have hlength := congrArg List.length hlast
  have htmp : (lit ".tmp").length = 4 := by decide
  simp only [List.length_append, hhex.1, hhex'.1, htmp] at hlength
  omega

end Paths

namespace Serving

variable {h : Handlers} {ρ : Type}

/-! ## What the requests own -/

abbrev View (h : Handlers) (ρ : Type) := Lib.World (State h) ρ Op Res

abbrev files (w : View h ρ) : FileSystem Path :=
  w.store.disk.fs

def opened : Call Op Res → Option Nat
  | ⟨.openFile _, .ok fd⟩ => some fd
  | ⟨.disk (.create _), .ok fd⟩ => some fd
  | _ => none

def Owns (w : View h ρ) (i fd : Nat) : Prop :=
  ∃ e ∈ w.log, e.task = i ∧ opened e.call = some fd

/-- Request `i` executes call `n` of the coalescer, for the hash. -/
structure Leads (w : View h ρ) (i : Nat) (hash : Bytes) (n : Nat) : Prop where
  hex : HexHash hash
  inFlight : h.miss.inFlight w.store.group hash = some n
  logged : ∃ e ∈ w.log, e.task = i ∧ e.call = ⟨.enter hash, .lead n⟩

/-- A `Put` of this gateway has renamed its file to the final path. -/
def Published (w : View h ρ) (hash : Bytes) : Prop :=
  ∃ e ∈ w.log, e.call = ⟨.disk (.rename (h.tmp hash) (h.final hash)), .ok ()⟩

def Downloaded (w : View h ρ) (err : SiaError) : Prop :=
  ∃ e ∈ w.log, ∃ siaId d, e.call = ⟨.download siaId, d⟩ ∧ d.err = some err

/-- An inode that is no unfinished file. -/
def Frozen (w : View h ρ) (n : Nat) : Prop :=
  n < (files w).inodes.length ∧ ∀ hash, HexHash hash → (files w).names.find (h.tmp hash) ≠ some n

/-- An entry the cache may list. -/
def Listable (w : View h ρ) (hash : Bytes) (e : CacheEntry) : Prop :=
  HexHash hash ∧ e.path = h.final hash ∧ Published w hash

/-! ## The invariant -/

section Discipline

variable (good : ρ → Bytes → Bytes → Prop)

/-- The request that published the file vouches for its bytes. -/
def Vouched (w : View h ρ) (hash bytes : Bytes) : Prop :=
  ∃ e ∈ w.log, e.call = ⟨.disk (.rename (h.tmp hash) (h.final hash)), .ok ()⟩ ∧
    good e.request hash bytes

structure Inv (w : View h ρ) : Prop where
  unlinked : (files w).Unlinked
  /-- Every published file is good. -/
  finals : ∀ hash n, HexHash hash → Published w hash →
    (files w).names.find (h.final hash) = some n →
      ∃ bytes, (files w).inodes[n]? = some bytes ∧ Vouched good w hash bytes
  listed : w.store.disk.cache.Lists (Listable w)
  opened_lt : ∀ i fd, Owns w i fd → fd < (files w).files.length
  owner : ∀ i j fd, Owns w i fd → Owns w j fd → i = j
  lead_lt : ∀ e ∈ w.log, ∀ hash n, e.call = ⟨.enter hash, .lead n⟩ →
    n < h.miss.started w.store.group
  leader : ∀ e ∈ w.log, ∀ e' ∈ w.log, ∀ hash hash' n, e.call = ⟨.enter hash, .lead n⟩ →
    e'.call = ⟨.enter hash', .lead n⟩ → e.task = e'.task
  /-- Where the coalescer's cancellations come from. -/
  origin : ∀ n err, h.miss.result w.store.group n = some (.error (.siaDownload err)) →
    Downloaded w err

/-- What the others leave to request `i`: the inodes that are no unfinished files, the files it
opened, and the unfinished files of the hashes it leads. -/
structure Rely (i : Nat) (w w' : View h ρ) : Prop where
  frozen : ∀ n, Frozen w n → Frozen w' n ∧ (files w').inodes[n]? = (files w).inodes[n]?
  file : ∀ fd, Owns w i fd → (files w').files[fd]? = (files w).files[fd]?
  leads : ∀ hash n, Leads w i hash n → Leads w' i hash n
  draft : ∀ hash n, Leads w i hash n →
    (files w').names.find (h.tmp hash) = (files w).names.find (h.tmp hash) ∧
      ∀ m, (files w).names.find (h.tmp hash) = some m →
        (files w').inodes[m]? = (files w).inodes[m]?
  log : ∀ e ∈ w.log, e ∈ w'.log
  cancelled : ∀ ctx ∈ w.store.cancelled, ctx ∈ w'.store.cancelled

/-- What a request must know when it performs an operation. -/
def Pre (i : Nat) (req : ρ) (w : View h ρ) : Op → Prop
  | .disk (.remove p) => ∃ hash n, Leads w i hash n ∧ p = h.tmp hash
  | .disk (.create p) => ∃ hash n, Leads w i hash n ∧ p = h.tmp hash
  | .disk (.write fd _) =>
      Owns w i fd ∧ ∃ hash n m off, Leads w i hash n ∧
        (files w).names.find (h.tmp hash) = some m ∧ (files w).files[fd]? = some ⟨m, off, true⟩
  | .disk (.close fd) => Owns w i fd
  | .disk (.rename old new) =>
      ∃ hash n bytes, Leads w i hash n ∧ old = h.tmp hash ∧ new = h.final hash ∧
        (files w).content (h.tmp hash) = some bytes ∧ good req hash bytes
  | .disk (.commit hash _ path) => HexHash hash ∧ path = h.final hash ∧ Published w hash
  | .enter hash => HexHash hash
  | .finish n v =>
      (∃ hash, Leads w i hash n) ∧ ∀ err, v = .error (.siaDownload err) → Downloaded w err
  | .clientGone _ err => ∀ e, err = .siaDownload e → Downloaded w e
  | _ => True

/-! ## What one operation does to the others -/

/-- The effect of an operation of request `i` on the disk. -/
structure DiskStep (i : Nat) (req : ρ) (w : View h ρ) (fs' : FileSystem Path)
    (call : Call Op Res) : Prop where
  frame : FileSystem.Frame (files w) fs'
    {p | (∃ hash n, Leads w i hash n ∧ p = h.tmp hash) ∨ ∃ hash, HexHash hash ∧ p = h.final hash}
    {m | ∃ hash n, Leads w i hash n ∧ (files w).names.find (h.tmp hash) = some m}
    {fd | Owns w i fd}
  /-- No published inode becomes a draft again. -/
  drafts : ∀ hash m, HexHash hash → fs'.names.find (h.tmp hash) = some m →
    (files w).names.find (h.tmp hash) = some m ∨ (files w).inodes.length ≤ m
  unlinked : fs'.Unlinked
  finals : ∀ hash m, HexHash hash → fs'.names.find (h.final hash) = some m →
    ((files w).names.find (h.final hash) = some m ∧
      call ≠ ⟨.disk (.rename (h.tmp hash) (h.final hash)), .ok ()⟩) ∨
    (call = ⟨.disk (.rename (h.tmp hash) (h.final hash)), .ok ()⟩ ∧
      ∃ bytes, fs'.inodes[m]? = some bytes ∧ good req hash bytes)
  opens : ∀ fd, opened call = some fd → fd = (files w).files.length ∧ fd < fs'.files.length

/-- Its effect on the coalescer. -/
structure GroupStep (i : Nat) (w : View h ρ) (group' : h.miss.Group) (call : Call Op Res) :
    Prop where
  inFlight : ∀ j hash n, j ≠ i → Leads w j hash n → h.miss.inFlight group' hash = some n
  starts : ∀ hash n, call = ⟨.enter hash, .lead n⟩ →
    n = h.miss.started w.store.group ∧ n < h.miss.started group'
  started_le : h.miss.started w.store.group ≤ h.miss.started group'
  results : ∀ n err, h.miss.result group' n = some (.error (.siaDownload err)) →
    h.miss.result w.store.group n = some (.error (.siaDownload err)) ∨ Downloaded w err

structure Conforms (i : Nat) (req : ρ) (w : View h ρ) (s : State h) (call : Call Op Res) :
    Prop where
  disk : DiskStep good i req w s.disk.fs call
  listed : s.disk.cache.Lists (Listable w)
  group : GroupStep i w s.group call
  cancelled : ∀ ctx ∈ w.store.cancelled, ctx ∈ s.cancelled

variable {good}

section Monotone

variable {w w' : View h ρ} (hlog : ∀ e ∈ w.log, e ∈ w'.log)
include hlog

theorem Owns.mono {i fd : Nat} (howns : Owns w i fd) : Owns w' i fd := by
  obtain ⟨e, he, hcall⟩ := howns
  exact ⟨e, hlog e he, hcall⟩

theorem Vouched.mono {hash bytes : Bytes} (hv : Vouched good w hash bytes) :
    Vouched good w' hash bytes := by
  obtain ⟨e, he, hcall⟩ := hv
  exact ⟨e, hlog e he, hcall⟩

theorem Published.mono {hash : Bytes} (hpub : Published w hash) : Published w' hash := by
  obtain ⟨e, he, hcall⟩ := hpub
  exact ⟨e, hlog e he, hcall⟩

theorem Downloaded.mono {err : SiaError} (hdown : Downloaded w err) : Downloaded w' err := by
  obtain ⟨e, he, hcall⟩ := hdown
  exact ⟨e, hlog e he, hcall⟩

theorem Leads.mono {i n : Nat} {hash : Bytes} (hleads : Leads w i hash n)
    (hgroup : h.miss.inFlight w'.store.group hash = some n) : Leads w' i hash n := by
  obtain ⟨e, he, hcall⟩ := hleads.logged
  exact ⟨hleads.hex, hgroup, e, hlog e he, hcall⟩

end Monotone

theorem Inv.leader_unique {w : View h ρ} (hinv : Inv good w) {i j n m : Nat} {hash : Bytes}
    (hi : Leads w i hash n) (hj : Leads w j hash m) : i = j := by
  have hEq : n = m := Option.some.inj (hi.inFlight.symm.trans hj.inFlight)
  subst hEq
  obtain ⟨e, he, rfl, hcall⟩ := hi.logged
  obtain ⟨e', he', rfl, hcall'⟩ := hj.logged
  exact hinv.leader e he e' he' hash hash n hcall hcall'

theorem Inv.frozen_final {w : View h ρ} (hinv : Inv good w) {hash : Bytes} {n : Nat}
    (hhex : HexHash hash) (hfind : (files w).names.find (h.final hash) = some n) : Frozen w n := by
  refine ⟨(files w).lt_of_find hfind, ?_⟩
  intro hash' hhex' htmp
  exact tmp_ne_final hhex' hhex (hinv.unlinked _ _ n htmp hfind)

section Step

variable {i : Nat} {req : ρ} {w : View h ρ} {s : State h} {call : Call Op Res}

/-- A step that conforms is something the other requests may rely on. -/
theorem Conforms.rely (hstep : Conforms good i req w s call) (hinv : Inv good w) {j : Nat} (hj : j ≠ i) :
    Rely j w ⟨s, ⟨i, req, call⟩ :: w.log⟩ := by
  have hlog : ∀ e ∈ w.log, e ∈ (⟨s, ⟨i, req, call⟩ :: w.log⟩ : View h ρ).log :=
    fun e he => List.mem_cons_of_mem _ he
  refine ⟨?_, ?_, ?_, ?_, hlog, hstep.cancelled⟩
  · rintro n ⟨hlt, hdraft⟩
    refine ⟨⟨Nat.lt_of_lt_of_le hlt hstep.disk.frame.inodes_le, ?_⟩, ?_⟩
    · intro hash hhex hfind
      rcases hstep.disk.drafts hash n hhex hfind with hold | hnew
      · exact hdraft hash hhex hold
      · exact Nat.not_lt.2 hnew hlt
    · refine hstep.disk.frame.inode_eq n hlt ?_
      rintro ⟨hash, m, hleads, hfind⟩
      exact hdraft hash hleads.hex hfind
  · intro fd howns
    refine hstep.disk.frame.file_eq fd (hinv.opened_lt j fd howns) ?_
    intro howns'
    exact hj (hinv.owner j i fd howns howns')
  · intro hash n hleads
    exact hleads.mono hlog (hstep.group.inFlight j hash n hj hleads)
  · intro hash n hleads
    -- nobody else leads the hash
    have hother : ∀ hash' m, Leads w i hash' m → h.tmp hash ≠ h.tmp hash' := by
      intro hash' m hleads' hEq
      have hhash := tmp_inj hleads.hex hleads'.hex hEq
      subst hhash
      exact hj (hinv.leader_unique hleads hleads')
    refine ⟨hstep.disk.frame.find_eq _ ?_, ?_⟩
    · rintro (⟨hash', m, hleads', hEq⟩ | ⟨hash', hhex', hEq⟩)
      · exact hother hash' m hleads' hEq
      · exact tmp_ne_final hleads.hex hhex' hEq
    · intro m hfind
      refine hstep.disk.frame.inode_eq m ((files w).lt_of_find hfind) ?_
      rintro ⟨hash', n', hleads', hfind'⟩
      exact hother hash' n' hleads' (hinv.unlinked _ _ m hfind hfind')

/-- A step that conforms keeps the invariant. -/
theorem Conforms.inv (hstep : Conforms good i req w s call) (hinv : Inv good w) :
    Inv good ⟨s, ⟨i, req, call⟩ :: w.log⟩ := by
  have hlog : ∀ e ∈ w.log, e ∈ (⟨s, ⟨i, req, call⟩ :: w.log⟩ : View h ρ).log :=
    fun e he => List.mem_cons_of_mem _ he
  have howns : ∀ j fd, Owns (⟨s, ⟨i, req, call⟩ :: w.log⟩ : View h ρ) j fd →
      (j = i ∧ opened call = some fd) ∨ Owns w j fd := by
    rintro j fd ⟨e, he, htask, hcall⟩
    rcases List.mem_cons.1 he with rfl | he
    · exact .inl ⟨htask.symm, hcall⟩
    · exact .inr ⟨e, he, htask, hcall⟩
  constructor
  · exact hstep.disk.unlinked
  -- A final name is an older one, still frozen, or was published by this call.
  · intro hash n hhex hpub hfind
    rcases hstep.disk.finals hash n hhex hfind with ⟨hold, hcall⟩ | ⟨hcall, bytes, hbytes, hgood⟩
    · have hpub' : Published w hash := by
        obtain ⟨e, he, hEq⟩ := hpub
        rcases List.mem_cons.1 he with rfl | he
        · exact absurd hEq hcall
        · exact ⟨e, he, hEq⟩
      obtain ⟨bytes, hbytes, hgood⟩ := hinv.finals hash n hhex hpub' hold
      have hfrozen := hinv.frozen_final hhex hold
      refine ⟨bytes, ?_, hgood.mono hlog⟩
      rw [← hbytes]
      refine hstep.disk.frame.inode_eq n hfrozen.1 ?_
      rintro ⟨hash', m, hleads, hdraft⟩
      exact hfrozen.2 hash' hleads.hex hdraft
    · exact ⟨bytes, hbytes, _, List.mem_cons_self, hcall, hgood⟩
  · exact hstep.listed.mono fun hash e hlist => ⟨hlist.1, hlist.2.1, hlist.2.2.mono hlog⟩
  -- Descriptors are handed out in increasing order.
  · intro j fd hown
    rcases howns j fd hown with ⟨-, hopen⟩ | hown
    · exact (hstep.disk.opens fd hopen).2
    · exact Nat.lt_of_lt_of_le (hinv.opened_lt j fd hown) hstep.disk.frame.files_le
  -- Two owners: a descriptor opened now is above every older one.
  · intro j k fd hown hown'
    rcases howns j fd hown with ⟨hji, hopen⟩ | hold <;>
      rcases howns k fd hown' with ⟨hki, hopen'⟩ | hold'
    · exact hji.trans hki.symm
    · have hlt := hinv.opened_lt k fd hold'
      rw [(hstep.disk.opens fd hopen).1] at hlt
      exact absurd hlt (Nat.lt_irrefl _)
    · have hlt := hinv.opened_lt j fd hold
      rw [(hstep.disk.opens fd hopen').1] at hlt
      exact absurd hlt (Nat.lt_irrefl _)
    · exact hinv.owner j k fd hold hold'
  -- The same for the numbers of the calls in flight.
  · intro e he hash n hcall
    rcases List.mem_cons.1 he with rfl | he
    · exact (hstep.group.starts hash n hcall).2
    · exact Nat.lt_of_lt_of_le (hinv.lead_lt e he hash n hcall) hstep.group.started_le
  · intro e he e' he' hash hash' n hcall hcall'
    rcases List.mem_cons.1 he with rfl | he <;> rcases List.mem_cons.1 he' with rfl | he'
    · rfl
    · have hlt := hinv.lead_lt e' he' hash' n hcall'
      rw [(hstep.group.starts hash n hcall).1] at hlt
      exact absurd hlt (Nat.lt_irrefl _)
    · have hlt := hinv.lead_lt e he hash n hcall
      rw [(hstep.group.starts hash' n hcall').1] at hlt
      exact absurd hlt (Nat.lt_irrefl _)
    · exact hinv.leader e he e' he' hash hash' n hcall hcall'
  -- A result stems from an older finish or from this one.
  · intro n err hresult
    rcases hstep.group.results n err hresult with hold | hdown
    · exact (hinv.origin n err hold).mono hlog
    · exact hdown.mono hlog

/-! ## Every operation conforms -/

/-- A step that brings no name, on inodes and descriptors the request may touch. -/
theorem DiskStep.of_fewer {fs' : FileSystem Path} (hinv : Inv good w) {ps : Set Path}
    {ns fds : Set Nat} (hframe : FileSystem.Frame (files w) fs' ps ns fds)
    (hps : ∀ p ∈ ps, (∃ hash n, Leads w i hash n ∧ p = h.tmp hash) ∨
      ∃ hash, HexHash hash ∧ p = h.final hash)
    (hns : ∀ m ∈ ns, ∃ hash n, Leads w i hash n ∧ (files w).names.find (h.tmp hash) = some m)
    (hfds : ∀ fd ∈ fds, Owns w i fd)
    (hfewer : ∀ p m, fs'.names.find p = some m → (files w).names.find p = some m)
    (hopens : ∀ fd, opened call = some fd → fd = (files w).files.length ∧ fd < fs'.files.length)
    (hcall : ∀ hash, call ≠ ⟨.disk (.rename (h.tmp hash) (h.final hash)), .ok ()⟩) :
    DiskStep good i req w fs' call where
  frame := hframe.mono hps hns hfds
  drafts := fun _ m _ hfind => .inl (hfewer _ m hfind)
  unlinked := hinv.unlinked.of_names hfewer
  finals := fun _ m _ hfind => .inl ⟨hfewer _ m hfind, hcall _⟩
  opens := hopens

/-- The same for a step that changes no name at all and opens no file. -/
theorem DiskStep.of_inside {fs' : FileSystem Path} (hinv : Inv good w) {ns fds : Set Nat}
    (hframe : FileSystem.Frame (files w) fs' ∅ ns fds)
    (hns : ∀ m ∈ ns, ∃ hash n, Leads w i hash n ∧ (files w).names.find (h.tmp hash) = some m)
    (hfds : ∀ fd ∈ fds, Owns w i fd) (hopen : opened call = none)
    (hcall : ∀ hash, call ≠ ⟨.disk (.rename (h.tmp hash) (h.final hash)), .ok ()⟩) :
    DiskStep good i req w fs' call := by
  refine .of_fewer hinv hframe (Set.forall_mem_empty.2 trivial) hns hfds ?_ ?_ hcall
  · intro p m hfind
    rwa [hframe.find_eq p (Set.notMem_empty p)] at hfind
  · intro fd hfd
    rw [hopen] at hfd
    cases hfd

/-- A step that leaves the files alone and opens none. -/
theorem DiskStep.same (hinv : Inv good w) (hopen : opened call = none)
    (hcall : ∀ hash, call ≠ ⟨.disk (.rename (h.tmp hash) (h.final hash)), .ok ()⟩) :
    DiskStep good i req w (files w) call :=
  .of_inside hinv (.refl _) (Set.forall_mem_empty.2 trivial) (Set.forall_mem_empty.2 trivial) hopen
    hcall

theorem GroupStep.same (hcall : ∀ hash n, call ≠ ⟨.enter hash, .lead n⟩) :
    GroupStep i w w.store.group call where
  inFlight := fun _ _ _ _ hleads => hleads.inFlight
  starts := fun hash n hEq => absurd hEq (hcall hash n)
  started_le := Nat.le_refl _
  results := fun _ _ hresult => .inl hresult

theorem diskStep_remove {p : Path} {r : Except IoError Unit} {fs' : FileSystem Path}
    (hinv : Inv good w) (hpre : Pre good i req w (.disk (.remove p)))
    (hremove : (files w).remove p = some fs') :
    DiskStep good i req w fs' ⟨.disk (.remove p), r⟩ := by
  obtain ⟨hash, n, hleads, rfl⟩ := hpre
  refine DiskStep.of_fewer hinv (FileSystem.frame_remove hremove) ?_
    (Set.forall_mem_empty.2 trivial) (Set.forall_mem_empty.2 trivial)
    ?_ ?_ ?_
  · rintro p rfl
    exact .inl ⟨hash, n, hleads, rfl⟩
  · intro p m hfind
    rcases Option.map_eq_some_iff.1 hremove with ⟨_, -, rfl⟩
    rw [FileSystem.find_unlink] at hfind
    split at hfind
    · cases hfind
    · exact hfind
  · intro fd hfd
    cases hfd
  · intro hash' hEq
    cases hEq

theorem diskStep_create {p : Path} (hinv : Inv good w)
    (hpre : Pre good i req w (.disk (.create p))) :
    DiskStep good i req w ((files w).create p).1
      ⟨.disk (.create p), .ok ((files w).create p).2⟩ := by
  obtain ⟨hash, n, hleads, rfl⟩ := hpre
  have hframe := FileSystem.frame_create (files w) (h.tmp hash)
  have hfinal : ∀ hash', HexHash hash' → h.final hash' ≠ h.tmp hash :=
    fun hash' hhex' hEq => tmp_ne_final hleads.hex hhex' hEq.symm
  refine ⟨hframe.mono ?_ ?_ (Set.empty_subset _), ?_, hinv.unlinked.create _, ?_, ?_⟩
  · rintro p rfl
    exact .inl ⟨hash, n, hleads, rfl⟩
  · intro m hm
    exact ⟨hash, n, hleads, hm⟩
  · intro hash' m hhex' hfind
    by_cases hEq : h.tmp hash' = h.tmp hash
    · rw [hEq] at hfind ⊢
      rcases FileSystem.find_create _ _ hfind with hold | rfl
      · exact .inl hold
      · exact .inr (Nat.le_refl _)
    · exact .inl (hframe.find_eq _ hEq ▸ hfind)
  · intro hash' m hhex' hfind
    refine .inl ⟨hframe.find_eq _ (hfinal hash' hhex') ▸ hfind, ?_⟩
    intro hEq
    cases hEq
  · intro fd hfd
    cases hfd
    exact FileSystem.create_fd (files w) (h.tmp hash)

theorem diskStep_write {fd : Nat} {bytes bytes' : Bytes} {r : Except IoError Unit}
    {fs' : FileSystem Path} (hinv : Inv good w) (hpre : Pre good i req w (.disk (.write fd bytes)))
    (hwrite : (files w).write fd bytes' = some fs') :
    DiskStep good i req w fs' ⟨.disk (.write fd bytes), r⟩ := by
  obtain ⟨howns, hash, n, m, off, hleads, hfind, hfile⟩ := hpre
  refine .of_inside hinv (FileSystem.frame_write hwrite hfile) ?_ ?_ rfl ?_
  · rintro m' rfl
    exact ⟨hash, n, hleads, hfind⟩
  · rintro fd' rfl
    exact howns
  · intro hash' hEq
    cases hEq

theorem diskStep_close {fd : Nat} {r : Except IoError Unit} {fs' : FileSystem Path}
    (hinv : Inv good w) (hpre : Pre good i req w (.disk (.close fd)))
    (hclose : (files w).close fd = some fs') :
    DiskStep good i req w fs' ⟨.disk (.close fd), r⟩ := by
  refine .of_inside hinv (FileSystem.frame_close hclose)
    (Set.forall_mem_empty.2 trivial) ?_ rfl ?_
  · rintro fd' rfl
    exact hpre
  · intro hash' hEq
    cases hEq

theorem diskStep_rename {old new : Path} {fs' : FileSystem Path} (hinv : Inv good w)
    (hpre : Pre good i req w (.disk (.rename old new))) (hrename : (files w).rename old new = some fs') :
    DiskStep good i req w fs' ⟨.disk (.rename old new), .ok ()⟩ := by
  obtain ⟨hash, n, bytes, hleads, rfl, rfl, hcontent, hgood⟩ := hpre
  have hframe := FileSystem.frame_rename hrename
  obtain ⟨m, hdraft, hnames, hinodes, -⟩ := FileSystem.rename_eq_some hrename
  have hbytes : (files w).inodes[m]? = some bytes := by
    simpa [FileSystem.content, hdraft] using hcontent
  refine ⟨hframe.mono ?_ (Set.empty_subset _) (Set.empty_subset _), ?_,
    hinv.unlinked.rename hrename, ?_, ?_⟩
  · rintro p (rfl | rfl)
    · exact .inl ⟨hash, n, hleads, rfl⟩
    · exact .inr ⟨hash, hleads.hex, rfl⟩
  · intro hash' m' hhex' hfind
    have hfinal : h.tmp hash' ≠ h.final hash := tmp_ne_final hhex' hleads.hex
    rw [hnames, Table.find_set_of_ne _ _ hfinal, Table.find_erase] at hfind
    split at hfind
    · cases hfind
    · exact .inl hfind
  · intro hash' m' hhex' hfind
    by_cases hEq : hash' = hash
    · -- the file just published
      subst hEq
      rw [hnames, Table.find_set_self] at hfind
      cases hfind
      exact .inr ⟨rfl, bytes, by rw [hinodes, hbytes], hgood⟩
    · have hne : h.final hash' ≠ h.final hash := fun hfinal =>
        hEq (final_inj hhex' hleads.hex hfinal)
      have hold : (files w).names.find (h.final hash') = some m' := by
        rw [← hfind]
        refine (hframe.find_eq _ ?_).symm
        rintro (hp | hp)
        · exact tmp_ne_final hleads.hex hhex' hp.symm
        · exact hne hp
      refine .inl ⟨hold, ?_⟩
      intro hcall
      have hop := congrArg Call.op hcall
      simp only [Op.disk.injEq, Gateway.Op.rename.injEq] at hop
      exact hne hop.2.symm
  · intro fd hfd
    cases hfd

theorem diskStep_commit {hash : Bytes} {size : Int} {path : Path} {kept : List Path}
    (hinv : Inv good w) (hpre : Pre good i req w (.disk (.commit hash size path))) :
    DiskStep good i req w (w.store.disk.commit hash size path kept).fs
        ⟨.disk (.commit hash size path), ()⟩ ∧
      (w.store.disk.commit hash size path kept).cache.Lists (Listable w) := by
  have hlisted : (w.store.disk.cache.record hash size path).Lists (Listable w) :=
    hinv.listed.record hpre
  obtain ⟨hcache, hevicted⟩ := hlisted.evictLocked
  refine ⟨?_, hcache⟩
  refine DiskStep.of_fewer hinv (Store.frame_unlinkAll _ _) ?_
    (Set.forall_mem_empty.2 trivial) (Set.forall_mem_empty.2 trivial)
    ?_ ?_ ?_
  · intro p hp
    obtain ⟨hash', e, hlist, rfl⟩ := hevicted p (List.mem_of_mem_filter hp)
    exact .inr ⟨hash', hlist.1, hlist.2.1⟩
  · intro p m hfind
    rw [Store.commit, Store.find_unlinkAll] at hfind
    split at hfind
    · cases hfind
    · exact hfind
  · intro fd hfd
    cases hfd
  · intro hash' hEq
    cases hEq

theorem diskStep_openFile {path : Path} {fs' : FileSystem Path} {fd : Nat} (hinv : Inv good w)
    (hopen : (files w).openRead path = some (fs', fd)) :
    DiskStep good i req w fs' ⟨.openFile path, .ok fd⟩ := by
  obtain ⟨inode, -, hnames, -, hfiles, rfl⟩ := FileSystem.openRead_eq_some hopen
  refine .of_fewer hinv (FileSystem.frame_openRead hopen) (Set.forall_mem_empty.2 trivial)
    (Set.forall_mem_empty.2 trivial) (Set.forall_mem_empty.2 trivial) ?_ ?_ ?_
  · intro p m hfind
    exact hnames ▸ hfind
  · intro fd' hfd'
    cases hfd'
    simp [hfiles]
  · intro hash' hEq
    cases hEq

/-- The operations of a `Put` conform. -/
theorem conforms_disk {o : Gateway.Op} {d : Store} {r : Gateway.Res o} (hinv : Inv good w)
    (hpre : Pre good i req w (.disk o)) (hout : Outcome o w.store.disk d r) :
    DiskStep good i req w d.fs ⟨.disk o, r⟩ ∧ d.cache.Lists (Listable w) := by
  cases o with
  | mkdirAll dir =>
      obtain rfl := hout
      exact ⟨DiskStep.same hinv rfl (fun _ hEq => by cases hEq), hinv.listed⟩
  | remove p =>
      rcases hout with rfl | ⟨fs, hremove, rfl⟩
      · exact ⟨DiskStep.same hinv rfl (fun _ hEq => by cases hEq), hinv.listed⟩
      · exact ⟨diskStep_remove hinv hpre hremove, hinv.listed⟩
  | create p =>
      rcases hout with ⟨rfl, e, rfl⟩ | ⟨rfl, rfl⟩
      · exact ⟨DiskStep.same hinv rfl (fun _ hEq => by cases hEq), hinv.listed⟩
      · exact ⟨diskStep_create hinv hpre, hinv.listed⟩
  | write fd bytes =>
      rcases hout with rfl | ⟨bytes', fs, hwrite, rfl⟩
      · exact ⟨DiskStep.same hinv rfl (fun _ hEq => by cases hEq), hinv.listed⟩
      · exact ⟨diskStep_write hinv hpre hwrite, hinv.listed⟩
  | sync fd =>
      obtain rfl := hout
      exact ⟨DiskStep.same hinv rfl (fun _ hEq => by cases hEq), hinv.listed⟩
  | close fd =>
      rcases hout with rfl | ⟨fs, hclose, rfl⟩
      · exact ⟨DiskStep.same hinv rfl (fun _ hEq => by cases hEq), hinv.listed⟩
      · exact ⟨diskStep_close hinv hpre hclose, hinv.listed⟩
  | rename old new =>
      rcases hout with ⟨rfl, e, rfl⟩ | ⟨fs, hrename, rfl, rfl⟩
      · refine ⟨DiskStep.same hinv rfl ?_, hinv.listed⟩
        intro hash hEq
        cases hEq
      · exact ⟨diskStep_rename hinv hpre hrename, hinv.listed⟩
  | commit hash size path =>
      obtain ⟨kept, rfl⟩ := hout
      exact diskStep_commit hinv hpre

theorem groupStep_enter {hash : Bytes} :
    GroupStep i w (h.miss.enter w.store.group hash).1
      ⟨.enter hash, (h.miss.enter w.store.group hash).2⟩ := by
  cases hflight : h.miss.inFlight w.store.group hash with
  | none =>
      have hstarted := h.miss.started_lead w.store.group hash hflight
      refine ⟨?_, ?_, by omega, ?_⟩
      · intro j hash' n _ hleads
        have hne : hash' ≠ hash := by
          rintro rfl
          exact absurd hleads.inFlight (by simp [hflight])
        rw [h.miss.inFlight_lead _ _ hflight, Function.update_of_ne hne]
        exact hleads.inFlight
      · intro hash' n hcall
        rw [h.miss.enter_lead _ _ hflight] at hcall
        cases hcall
        exact ⟨rfl, by omega⟩
      · intro n err hresult
        rw [h.miss.result_enter] at hresult
        exact .inl hresult
  | some m =>
      refine ⟨?_, ?_, ?_, ?_⟩
      · intro j hash' n _ hleads
        rw [h.miss.inFlight_join _ _ m hflight]
        exact hleads.inFlight
      · intro hash' n hcall
        rw [h.miss.enter_join _ _ m hflight] at hcall
        cases hcall
      · rw [h.miss.started_join _ _ m hflight]
      · intro n err hresult
        rw [h.miss.result_enter] at hresult
        exact .inl hresult

theorem groupStep_finish {n : Nat} {v : Except SourceError Bytes} (hinv : Inv good w)
    (hpre : Pre good i req w (.finish n v)) :
    GroupStep i w (h.miss.finish w.store.group n v) ⟨.finish n v, ()⟩ := by
  obtain ⟨⟨hash, hleads⟩, hdown⟩ := hpre
  refine ⟨?_, ?_, ?_, ?_⟩
  · intro j hash' m hj hleads'
    have hne : m ≠ n := by
      rintro rfl
      obtain ⟨e, he, rfl, hcall⟩ := hleads.logged
      obtain ⟨e', he', rfl, hcall'⟩ := hleads'.logged
      exact hj (hinv.leader e' he' e he hash' hash m hcall' hcall)
    rw [h.miss.inFlight_finish, hleads'.inFlight, if_neg]
    intro hEq
    exact hne (Option.some.inj hEq)
  · intro hash' m hcall
    cases hcall
  · rw [h.miss.started_finish]
  · intro m err hresult
    rw [h.miss.result_finish] at hresult
    split at hresult
    · exact .inr (hdown err (Option.some.inj hresult))
    · exact .inl hresult

/-- Every operation conforms, when the request knows what it must know. -/
theorem conforms_of_exec {o : Op} {e : Env} {r : Res o} (hinv : Inv good w)
    (hpre : Pre good i req w o) (he : exec h o e w.store = some (s, r)) :
    Conforms good i req w s ⟨o, r⟩ := by
  -- the operations that change nothing
  have hidle : ∀ (o : Op) (r : Res o), opened ⟨o, r⟩ = none →
      (∀ p q, o ≠ .disk (.rename p q)) → (∀ hash, o ≠ .enter hash) →
      Conforms good i req w w.store ⟨o, r⟩ := by
    intro o r hopen hrename henter
    refine ⟨DiskStep.same hinv hopen ?_, hinv.listed, GroupStep.same ?_, fun _ hctx => hctx⟩
    · intro hash hEq
      exact hrename _ _ (congrArg Call.op hEq)
    · intro hash n hEq
      exact henter _ (congrArg Call.op hEq)
  cases o with
  | lookupXorb hash =>
      cases e with
      | row siaId =>
          cases he
          exact hidle _ _ rfl nofun nofun
      | noRow e =>
          cases he
          exact hidle _ _ rfl nofun nofun
      | _ => cases he
  | index hash =>
      cases e with
      | quiet =>
          cases he
          exact ⟨DiskStep.same hinv rfl nofun, hinv.listed.lookup hash, GroupStep.same nofun,
            fun _ hctx => hctx⟩
      | _ => cases he
  | openFile path =>
      cases e with
      | quiet =>
          simp only [exec, State.openFile] at he
          split at he
          · rename_i fs fd hopen
            cases he
            exact ⟨diskStep_openFile hinv hopen, hinv.listed, GroupStep.same nofun,
              fun _ hctx => hctx⟩
          · cases he
            exact hidle _ _ rfl nofun nofun
      | fault e =>
          cases he
          exact hidle _ _ rfl nofun nofun
      | _ => cases he
  | dropStale hash path =>
      cases e with
      | quiet =>
          cases he
          exact ⟨DiskStep.same hinv rfl nofun, hinv.listed.dropStale hash path,
            GroupStep.same nofun, fun _ hctx => hctx⟩
      | _ => cases he
  | readAll fd =>
      cases e with
      | quiet =>
          cases he
          exact hidle _ _ rfl nofun nofun
      | _ => cases he
  | disk o =>
      cases e with
      | disk e =>
          rcases Option.map_eq_some_iff.1 he with ⟨⟨d, r'⟩, hexec, hEq⟩
          cases hEq
          obtain ⟨hdisk, hlisted⟩ := conforms_disk hinv hpre (outcome_of_exec hexec)
          exact ⟨hdisk, hlisted, GroupStep.same nofun, fun _ hctx => hctx⟩
      | _ => cases he
  | enter hash =>
      cases e with
      | quiet =>
          cases he
          exact ⟨DiskStep.same hinv rfl nofun, hinv.listed, groupStep_enter, fun _ hctx => hctx⟩
      | _ => cases he
  | finish n v =>
      cases e with
      | quiet =>
          cases he
          exact ⟨DiskStep.same hinv rfl nofun, hinv.listed, groupStep_finish hinv hpre,
            fun _ hctx => hctx⟩
      | _ => cases he
  | wait n =>
      cases e with
      | quiet =>
          rcases Option.map_eq_some_iff.1 he with ⟨v, -, hEq⟩
          cases hEq
          exact hidle _ _ rfl nofun nofun
      | _ => cases he
  | download siaId =>
      cases e with
      | download d =>
          cases he
          exact hidle _ _ rfl nofun nofun
      | _ => cases he
  | receive left =>
      obtain ⟨-, rfl⟩ := exec_receive he
      exact hidle _ _ rfl nofun nofun
  | sinceMs =>
      cases e with
      | elapsed ms =>
          cases he
          exact hidle _ _ rfl nofun nofun
      | _ => cases he
  | clientGone ctx err =>
      cases e with
      | quiet =>
          cases he
          exact hidle _ _ rfl nofun nofun
      | _ => cases he
  | cancel ctx =>
      cases e with
      | quiet =>
          cases he
          exact ⟨DiskStep.same hinv rfl nofun, hinv.listed, GroupStep.same nofun,
            fun _ hctx => List.mem_cons_of_mem _ hctx⟩
      | _ => cases he

end Step

/-! ## The discipline -/

theorem Rely.refl (i : Nat) (w : View h ρ) : Rely i w w where
  frozen := fun _ hfrozen => ⟨hfrozen, rfl⟩
  file := fun _ _ => rfl
  leads := fun _ _ hleads => hleads
  draft := fun _ _ _ => ⟨rfl, fun _ _ => rfl⟩
  log := fun _ he => he
  cancelled := fun _ hctx => hctx

theorem Rely.trans {i : Nat} {w₁ w₂ w₃ : View h ρ} (h₁ : Rely i w₁ w₂) (h₂ : Rely i w₂ w₃) :
    Rely i w₁ w₃ where
  frozen := by
    intro n hfrozen
    obtain ⟨hfrozen₂, hEq₁⟩ := h₁.frozen n hfrozen
    obtain ⟨hfrozen₃, hEq₂⟩ := h₂.frozen n hfrozen₂
    exact ⟨hfrozen₃, hEq₂.trans hEq₁⟩
  file := fun fd howns => (h₂.file fd (howns.mono h₁.log)).trans (h₁.file fd howns)
  leads := fun hash n hleads => h₂.leads hash n (h₁.leads hash n hleads)
  draft := by
    intro hash n hleads
    obtain ⟨hname₁, hinode₁⟩ := h₁.draft hash n hleads
    obtain ⟨hname₂, hinode₂⟩ := h₂.draft hash n (h₁.leads hash n hleads)
    refine ⟨hname₂.trans hname₁, ?_⟩
    intro m hfind
    exact (hinode₂ m (hname₁.trans hfind)).trans (hinode₁ m hfind)
  log := fun e he => h₂.log e (h₁.log e he)
  cancelled := fun ctx hctx => h₂.cancelled ctx (h₁.cancelled ctx hctx)

variable (h ρ good)

def draftDiscipline (allow : View h ρ → Op → Prop) : Lib.Discipline ρ (exec h) where
  inv := Inv good
  rely := Rely
  pre := fun i req w o => Pre good i req w o
  allow := fun _ _ w o _ => allow w o
  rely_refl := Rely.refl
  rely_trans := fun _ _ _ _ => Rely.trans
  guarantee := by
    intro i req w o e s r hinv hpre _ he
    have hstep := conforms_of_exec hinv hpre he
    exact ⟨hstep.inv hinv, fun j hj => hstep.rely hinv hj⟩

variable {h ρ good}

/-- A gateway starts within the rules, whatever disk it finds. -/
theorem Inv.start (maxBytes : Int) (found : FoundDisk) :
    Inv good (⟨State.new h maxBytes found, []⟩ : View h ρ) where
  unlinked := found.unlinked
  finals := by
    rintro hash n _ ⟨e, he, -⟩
    cases he
  listed := by
    refine ⟨?_, ?_⟩
    · intro e he
      cases he
    · intro hash e he
      cases he
  opened_lt := by
    rintro i fd ⟨e, he, -⟩
    cases he
  owner := by
    rintro i j fd ⟨e, he, -⟩
    cases he
  lead_lt := fun e he => by cases he
  leader := fun e he => by cases he
  origin := by
    intro n err hresult
    rw [State.new, h.miss.result_new] at hresult
    cases hresult

/-! ## Put follows the rules -/

/-- Request `i` is writing the file of the hash it leads, and has written `content`. -/
structure Drafting (w : View h ρ) (i : Nat) (hash : Bytes) (n fd : Nat) (content : Bytes) :
    Prop where
  leads : Leads w i hash n
  owns : Owns w i fd
  holds : (files w).Holds (h.tmp hash) fd content

theorem Rely.drafting {i n fd : Nat} {w w' : View h ρ} {hash content : Bytes} (hr : Rely i w w')
    (hd : Drafting w i hash n fd content) : Drafting w' i hash n fd content := by
  obtain ⟨hname, hinode⟩ := hr.draft hash n hd.leads
  obtain ⟨m, hfind, hfile⟩ := hd.holds.file_eq
  refine ⟨hr.leads hash n hd.leads, hd.owns.mono hr.log, ?_, m, hname.trans hfind, ?_⟩
  · have hcontent : (files w).inodes[m]? = some content := by
      simpa [FileSystem.content, hfind] using hd.holds.content_eq
    simp only [FileSystem.content, hname, hfind, Option.bind_some, hinode m hfind, hcontent]
  · rw [hr.file fd hd.owns, hfile]

theorem Rely.content {i n : Nat} {w w' : View h ρ} {hash : Bytes} (hr : Rely i w w')
    (hleads : Leads w i hash n) :
    (files w').content (h.tmp hash) = (files w).content (h.tmp hash) := by
  obtain ⟨hname, hinode⟩ := hr.draft hash n hleads
  cases hfind : (files w).names.find (h.tmp hash) with
  | none => simp [FileSystem.content, hname, hfind]
  | some m => simp [FileSystem.content, hname, hfind, hinode m hfind]

section Puts

variable {allow : View h ρ → Op → Prop} {i n : Nat} {req : ρ} {w : View h ρ} {hash : Bytes}
  {α : Type} {post : View h ρ → α → Prop}

abbrev afterDisk (w : View h ρ) (i : Nat) (req : ρ) {o : Gateway.Op} (d : Store)
    (r : Gateway.Res o) : View h ρ :=
  ⟨{ w.store with disk := d }, ⟨i, req, ⟨.disk o, r⟩⟩ :: w.log⟩

theorem log_afterDisk {o : Gateway.Op} {d : Store} {r : Gateway.Res o} :
    ∀ e ∈ w.log, e ∈ (afterDisk w i req d r).log :=
  fun _ he => List.mem_cons_of_mem _ he

theorem Leads.afterDisk {o : Gateway.Op} {d : Store} {r : Gateway.Res o}
    (hleads : Leads w i hash n) : Leads (afterDisk w i req d r) i hash n :=
  hleads.mono log_afterDisk hleads.inFlight

/-- One file operation, then the rest. -/
theorem satNow_disk {o : Gateway.Op} {f : Gateway.Res o → Gateway.Code α}
    (hpre : Pre good i req w (.disk o))
    (hf : ∀ e d r w', Gateway.exec o e w.store.disk = some (d, r) →
      Rely i (afterDisk w i req d r) w' → Inv good w' →
        (onDisk (f r)).SatNow (draftDiscipline h ρ good allow) i req post w') :
    (onDisk (Prog.perform o >>= f)).SatNow (draftDiscipline h ρ good allow) i req post w := by
  refine ⟨hpre, ?_⟩
  intro e s r _ he w' hr hinv
  cases e with
  | disk e =>
      rcases Option.map_eq_some_iff.1 he with ⟨⟨d, r'⟩, hexec, hEq⟩
      cases hEq
      exact hf e d r' w' hexec hr hinv
  | _ => cases he

/-- The file operations that need no more than the lead. -/
theorem satNow_led {o : Gateway.Op} {f : Gateway.Res o → Gateway.Code α}
    (hleads : Leads w i hash n) (hpre : Pre good i req w (.disk o))
    (hf : ∀ r w', Leads w' i hash n → Inv good w' →
      (onDisk (f r)).SatNow (draftDiscipline h ρ good allow) i req post w') :
    (onDisk (Prog.perform o >>= f)).SatNow (draftDiscipline h ρ good allow) i req post w := by
  refine satNow_disk hpre ?_
  intro e d r w' _ hr hinv
  exact hf r w' (hr.leads hash n hleads.afterDisk) hinv

theorem satNow_copyTee {fd : Nat} {err : Option IoError} (hasher : MerkleHasher) (written : Nat)
    {content : Bytes} {blocks : List Bytes} (hd : Drafting w i hash n fd content) :
    (onDisk (copyTee fd err hasher written blocks)).SatNow (draftDiscipline h ρ good allow) i req
      (fun w r => (Leads w i hash n ∧ Owns w i fd) ∧
        ∀ hasher' written', r = .ok (hasher', written') →
          err = none ∧ hasher' = hasher.write blocks.flatten ∧
            written' = written + blocks.flatten.length ∧
            Drafting w i hash n fd (content ++ blocks.flatten)) w := by
  induction blocks generalizing hasher written content w with
  | nil =>
      unfold copyTee
      split
      · refine ⟨⟨hd.leads, hd.owns⟩, ?_⟩
        intro hasher' written' hEq
        cases hEq
        exact ⟨rfl, by simp [MerkleHasher.write], by simp, by simpa using hd⟩
      · refine ⟨⟨hd.leads, hd.owns⟩, ?_⟩
        intro hasher' written' hEq
        cases hEq
  | cons block rest ih =>
      unfold copyTee
      split
      -- The empty chunk is skipped: nothing is written, the draft stays.
      · rename_i hempty
        simpa [hempty] using ih hasher written hd
      · obtain ⟨m, hfind, hfile⟩ := hd.holds.file_eq
        refine satNow_disk ⟨hd.owns, hash, n, m, _, hd.leads, hfind, hfile⟩ ?_
        intro e d r w' hexec hr hinv
        -- A failed write ends the copy; the file may hold a part of the block.
        cases r with
        | error e =>
            refine ⟨⟨hr.leads hash n hd.leads.afterDisk,
              (hd.owns.mono log_afterDisk).mono hr.log⟩, ?_⟩
            intro hasher' written' hEq
            cases hEq
        | ok u =>
            obtain ⟨fs, hwrite, rfl, -⟩ := effect_of_exec hexec rfl
            obtain ⟨fs', hwrite', hholds⟩ := hd.holds.write block
            cases hwrite.symm.trans hwrite'
            have hd' := hr.drafting ⟨hd.leads.afterDisk, hd.owns.mono log_afterDisk, hholds⟩
            refine (ih (hasher.write block) (written + block.length) hd').mono ?_
            rintro w'' r' ⟨hkeep, hok⟩
            refine ⟨hkeep, ?_⟩
            intro hasher' written' hEq
            obtain ⟨herr, hhasher, hwritten, hfinal⟩ := hok hasher' written' hEq
            refine ⟨herr, ?_, ?_, by simpa using hfinal⟩
            · simp [hhasher, MerkleHasher.write]
            · simp [hwritten, Nat.add_assoc]

theorem satNow_cleanupTmp {fd : Nat} (hleads : Leads w i hash n) (howns : Owns w i fd) :
    (onDisk (cleanupTmp fd (h.tmp hash))).SatNow (draftDiscipline h ρ good allow) i req
      (fun w _ => Leads w i hash n) w := by
  refine satNow_led hleads howns ?_
  intro r w₁ hleads₁ _
  refine satNow_led hleads₁ ⟨hash, n, hleads₁, rfl⟩ ?_
  intro r' w₂ hleads₂ _
  exact hleads₂

theorem satNow_publish {size : Int} {bytes : Bytes} (hleads : Leads w i hash n)
    (hcontent : (files w).content (h.tmp hash) = some bytes)
    (hgood : merkleHashHex h.blake3 bytes = hash → good req hash bytes) :
    (onDisk (publish h.blake3 hash size (h.final hash) (h.tmp hash)
      (MerkleHasher.new.write bytes))).SatNow (draftDiscipline h ρ good allow) i req
      (fun w _ => Leads w i hash n) w := by
  have hhex : (MerkleHasher.new.write bytes).hex h.blake3 = merkleHashHex h.blake3 bytes := rfl
  unfold publish
  simp only [hhex]
  split
  · refine satNow_led hleads ⟨hash, n, hleads, rfl⟩ ?_
    intro r w₁ hleads₁ _
    exact hleads₁
  · rename_i hgate
    refine satNow_disk ⟨hash, n, bytes, hleads, rfl, rfl, hcontent, hgood (not_not.1 hgate)⟩ ?_
    intro e d r w₁ _ hr _
    have hleads₁ := hr.leads hash n hleads.afterDisk
    cases r with
    | error e =>
        refine satNow_led hleads₁ ⟨hash, n, hleads₁, rfl⟩ ?_
        intro r w₂ hleads₂ _
        exact hleads₂
    | ok u =>
        -- the bookkeeping comes after the rename
        have hpub : Published w₁ hash := ⟨_, hr.log _ List.mem_cons_self, rfl⟩
        refine satNow_led hleads₁ ⟨hleads.hex, rfl, hpub⟩ ?_
        intro r w₂ hleads₂ _
        exact hleads₂

theorem satNow_fill {size : Int} {src : Reader} {fd : Nat} (hinv : Inv good w)
    (hd : Drafting w i hash n fd [])
    (hgood : src.err = none → (src.blocks.flatten.length : Int) = size →
      merkleHashHex h.blake3 src.blocks.flatten = hash → good req hash src.blocks.flatten) :
    (onDisk (fill h.blake3 hash size src (h.final hash) (h.tmp hash) fd)).SatNow
      (draftDiscipline h ρ good allow) i req (fun w _ => Leads w i hash n) w := by
  -- Every failure goes through the same removal of the draft.
  have hcleanup : ∀ (w₁ : View h ρ) (e : PutError), Leads w₁ i hash n ∧ Owns w₁ i fd →
      Inv good w₁ → (onDisk (do
        cleanupTmp fd (h.tmp hash)
        pure (.error e : Except PutError Path))).SatNow (draftDiscipline h ρ good allow) i req
          (fun w _ => Leads w i hash n) w₁ := by
    intro w₁ e hkeep hinv₁
    rw [onDisk, Prog.embed_bind]
    refine (satNow_cleanupTmp hkeep.1 hkeep.2).bind hinv₁ ?_
    intro w₂ _ _ hleads₂
    exact hleads₂
  unfold fill
  rw [onDisk, Prog.embed_bind]
  refine (satNow_copyTee .new 0 hd).bind hinv ?_
  rintro w₁ r hinv₁ ⟨hkeep, hok⟩
  cases r with
  | error e => exact hcleanup w₁ _ hkeep hinv₁
  | ok res =>
      obtain ⟨hasher, written⟩ := res
      -- The copy went through: the length is checked, then Sync, Close and the hash.
      obtain ⟨herr, rfl, hwritten, hd₁⟩ := hok hasher written rfl
      simp only
      split
      · exact hcleanup w₁ _ hkeep hinv₁
      · rename_i hsize
        refine satNow_disk trivial ?_
        intro e d r w₂ hexec hr hinv₂
        have hleads₂ := hr.leads hash n hd₁.leads.afterDisk
        have howns₂ := (hd₁.owns.mono log_afterDisk).mono hr.log
        cases r with
        | error e => exact hcleanup w₂ _ ⟨hleads₂, howns₂⟩ hinv₂
        | ok u =>
            obtain ⟨rfl, -⟩ := effect_of_exec hexec rfl
            have hd₂ : Drafting w₂ i hash n fd src.blocks.flatten :=
              hr.drafting ⟨hd₁.leads.afterDisk, hd₁.owns.mono log_afterDisk, hd₁.holds⟩
            refine satNow_disk howns₂ ?_
            intro e d r w₃ hexec hr' hinv₃
            have hleads₃ := hr'.leads hash n hleads₂.afterDisk
            cases r with
            | error e =>
                refine satNow_led hleads₃ ⟨hash, n, hleads₃, rfl⟩ ?_
                intro r w₄ hleads₄ _
                exact hleads₄
            | ok u =>
                obtain ⟨fs, hclose, rfl, -⟩ := effect_of_exec hexec rfl
                obtain ⟨fs', hclose', hcontent⟩ := hd₂.holds.close
                cases hclose.symm.trans hclose'
                have hcontent₃ : (files w₃).content (h.tmp hash) = some src.blocks.flatten :=
                  (hr'.content hleads₂.afterDisk).trans hcontent
                have hlength : (src.blocks.flatten.length : Int) = size := by omega
                exact satNow_publish hleads₃ hcontent₃ (hgood herr hlength)

/-- `Put` by the request that leads the hash, for a good file. -/
theorem satNow_put {size : Int} {src : Reader} (hleads : Leads w i hash n)
    (hgood : src.err = none → (src.blocks.flatten.length : Int) = size →
      merkleHashHex h.blake3 src.blocks.flatten = hash → good req hash src.blocks.flatten) :
    (onDisk (put h.blake3 h.dir hash size src)).SatNow (draftDiscipline h ρ good allow) i req
      (fun w _ => Leads w i hash n) w := by
  unfold put
  split
  · exact hleads
  · split
    · exact hleads
    · refine satNow_led hleads trivial ?_
      intro r w₁ hleads₁ _
      cases r with
      | error e => exact hleads₁
      | ok u =>
          refine satNow_led hleads₁ ⟨hash, n, hleads₁, rfl⟩ ?_
          intro r w₂ hleads₂ _
          refine satNow_disk ⟨hash, n, hleads₂, rfl⟩ ?_
          intro e d r w₃ hexec hr hinv₃
          cases r with
          | error e => exact hr.leads hash n hleads₂.afterDisk
          | ok fd =>
              obtain ⟨rfl, hfd⟩ := effect_of_exec hexec ⟨fd, rfl⟩
              cases hfd
              refine satNow_fill hinv₃ (hr.drafting ⟨hleads₂.afterDisk, ?_, ?_⟩) hgood
              · exact ⟨_, List.mem_cons_self, rfl, rfl⟩
              · exact FileSystem.holds_create _ _

end Puts

/-! ## Calls of the coalescer follow the rules -/

section Calls

variable {allow : View h ρ → Op → Prop} {i n : Nat} {req : ρ} {w : View h ρ} {hash : Bytes}

/-- The cancellations in a result are those of downloads. -/
def Accounted {α : Type} (w : View h ρ) (v : Except SourceError α) : Prop :=
  ∀ err, v = .error (.siaDownload err) → Downloaded w err

theorem Accounted.mono {α : Type} {v : Except SourceError α} {w w' : View h ρ}
    (hlog : ∀ e ∈ w.log, e ∈ w'.log) (hacc : Accounted w v) : Accounted w' v :=
  fun err hEq => (hacc err hEq).mono hlog

/-- An operation that has nothing to know, then the rest. -/
theorem satNow_perform {α : Type} {o : Op} {f : Res o → Code α} {post : View h ρ → α → Prop}
    (hpre : Pre good i req w o)
    (hf : ∀ e s r w', allow w o → exec h o e w.store = some (s, r) →
      Rely i ⟨s, ⟨i, req, ⟨o, r⟩⟩ :: w.log⟩ w' → Inv good w' →
        (f r).SatNow (draftDiscipline h ρ good allow) i req post w') :
    (Prog.perform o >>= f).SatNow (draftDiscipline h ρ good allow) i req post w :=
  ⟨hpre, fun e s r hallow he w' hr hinv => hf e s r w' hallow he hr hinv⟩

theorem satNow_fetchAndCache {siaId : Hash} {size : Int64} (hleads : Leads w i hash n)
    (hgood : ∀ bytes : Bytes, (bytes.length : Int) = size.toInt →
      merkleHashHex h.blake3 bytes = hash → good req hash bytes) :
    (h.fetchAndCache hash siaId size).SatNow (draftDiscipline h ρ good allow) i req
      (fun w v => Leads w i hash n ∧ Accounted w v) w := by
  refine satNow_perform trivial ?_
  intro e s d w₁ _ he hr hinv₁
  cases e with
  | download d' =>
      cases he
      have hleads₁ : Leads w₁ i hash n :=
        hr.leads hash n (hleads.mono (fun _ he => List.mem_cons_of_mem _ he) hleads.inFlight)
      -- the error of the download stays on record while `Put` runs
      have hdown : ∀ err, d.err = some err → Downloaded w₁ err :=
        fun err herr => ⟨_, hr.log _ List.mem_cons_self, siaId, d, rfl, herr⟩
      have hput : (onDisk (put h.blake3 h.dir hash size.toInt d.reader)).SatNow
          (draftDiscipline h ρ good allow) i req (fun w _ => Leads w i hash n) w₁ :=
        satNow_put hleads₁ fun _ hlength hdigest => hgood _ hlength hdigest
      rw [← onDisk_putRest] at hput
      refine (hput.of_map.frame (I := fun w => ∀ err, d.err = some err → Downloaded w err)
        (fun w w' hI hr err herr => (hI err herr).mono hr.log)
        (fun w o e s r hI _ err herr => (hI err herr).mono fun _ he => List.mem_cons_of_mem _ he)
        hdown).bind hinv₁ ?_
      rintro w₂ ⟨res, left⟩ _ ⟨hleads₂, hdown₂⟩
      refine satNow_perform trivial ?_
      intro e s r w₃ _ he hr₃ _
      obtain ⟨-, rfl⟩ := exec_receive he
      have hlogged : ∀ e ∈ w₂.log, e ∈ w₃.log :=
        fun _ he => hr₃.log _ (List.mem_cons_of_mem _ he)
      have hleads₃ : Leads w₃ i hash n :=
        hr₃.leads hash n (hleads₂.mono (fun _ he => List.mem_cons_of_mem _ he) hleads₂.inFlight)
      refine ⟨hleads₃, ?_⟩
      intro err hEq
      unfold fetched at hEq
      split at hEq
      · rename_i err' herr
        cases hEq
        exact (hdown₂ err herr).mono hlogged
      · cases res <;> cases hEq
  | _ => cases he

/-- `MissCoalescer.Do`, for a function that the leader may execute. -/
theorem satNow_missDo {fetch : Code (Except SourceError Bytes)} (hhex : HexHash hash)
    (hfetch : ∀ w n, Inv good w → Leads w i hash n →
      fetch.SatNow (draftDiscipline h ρ good allow) i req
        (fun w v => Leads w i hash n ∧ Accounted w v) w) :
    (missDo hash fetch).SatNow (draftDiscipline h ρ good allow) i req Accounted w := by
  refine satNow_perform hhex ?_
  intro e s role w₁ _ he hr hinv₁
  cases e with
  | quiet =>
      cases he
      cases hflight : h.miss.inFlight w.store.group hash with
      | none =>
          -- nobody is fetching this hash: this request does
          have hrole := h.miss.enter_lead w.store.group hash hflight
          have hleads₁ : Leads w₁ i hash (h.miss.started w.store.group) := by
            refine hr.leads hash _ ⟨hhex, ?_, _, List.mem_cons_self, rfl, ?_⟩
            · simp only [h.miss.inFlight_lead _ _ hflight, Function.update_self]
            · rw [hrole]
          rw [hrole]
          refine (hfetch w₁ _ hinv₁ hleads₁).bind hinv₁ ?_
          rintro w₂ v _ ⟨hleads₂, hacc⟩
          refine satNow_perform ⟨⟨hash, hleads₂⟩, hacc⟩ ?_
          intro e s r w₃ _ he hr' _
          exact (hacc.mono fun _ he => List.mem_cons_of_mem _ he).mono hr'.log
      | some m =>
          rw [h.miss.enter_join _ _ m hflight]
          refine ⟨trivial, ?_⟩
          intro e s v _ he w₂ hr' _
          cases e with
          | quiet =>
              rcases Option.map_eq_some_iff.1 he with ⟨v', hresult, hEq⟩
              cases hEq
              intro err hEq
              subst hEq
              exact ((hinv₁.origin m err hresult).mono
                fun _ he => List.mem_cons_of_mem _ he).mono hr'.log
          | _ => cases he
  | _ => cases he

end Calls

/-! ## Open follows the rules -/

/-- Request `i` has the file of the hash open, and it is a good one. -/
structure Reading (good : ρ → Bytes → Bytes → Prop) (w : View h ρ) (i : Nat) (hash : Bytes) (fd : Nat) :
    Prop where
  owns : Owns w i fd
  file : ∃ m off bytes, (files w).files[fd]? = some ⟨m, off, true⟩ ∧ Frozen w m ∧
    (files w).inodes[m]? = some bytes ∧ Vouched good w hash bytes

theorem Rely.reading {i fd : Nat} {w w' : View h ρ} {hash : Bytes} (hr : Rely i w w')
    (hread : Reading good w i hash fd) : Reading good w' i hash fd := by
  obtain ⟨m, off, bytes, hfile, hfrozen, hbytes, hgood⟩ := hread.file
  obtain ⟨hfrozen', hinode⟩ := hr.frozen m hfrozen
  exact ⟨hread.owns.mono hr.log, m, off, bytes, (hr.file fd hread.owns).trans hfile, hfrozen',
    hinode.trans hbytes, hgood.mono hr.log⟩

section Opens

variable {allow : View h ρ → Op → Prop} {i : Nat} {req : ρ} {w : View h ρ} {hash : Bytes}

/-- The second half of `Cache.Open`. -/
theorem satNow_openFile {keep : View h ρ → Prop} {size : Int}
    (hrely : ∀ w w' : View h ρ, keep w → Rely i w w' → keep w')
    (hown : ∀ (w : View h ρ) d e, keep w → keep ⟨{ w.store with disk := d }, e :: w.log⟩)
    (hinv : Inv good w) (hkeep : keep w) (hhex : HexHash hash) (hpub : Published w hash) :
    (do
      match ← openFile (h.final hash) with
      | .ok fd => pure (some (fd, size))
      | .error _ =>
          dropStale hash (h.final hash)
          pure none : Code (Option (Nat × Int))).SatNow (draftDiscipline h ρ good allow) i req
      (fun w r => keep w ∧ ∀ fd size, r = some (fd, size) → Reading good w i hash fd) w := by
  -- a failed `os.Open` only drops the entry
  have hstale : ∀ w₁ : View h ρ, keep w₁ →
      (do
        dropStale hash (h.final hash)
        pure none : Code (Option (Nat × Int))).SatNow (draftDiscipline h ρ good allow) i req
        (fun w r => keep w ∧ ∀ fd size, r = some (fd, size) → Reading good w i hash fd) w₁ := by
    intro w₁ hkeep₁
    refine ⟨trivial, ?_⟩
    intro e s r _ he w₂ hr _
    cases e with
    | quiet =>
        cases he
        exact ⟨hrely _ w₂ (hown w₁ _ _ hkeep₁) hr, nofun⟩
    | _ => cases he
  refine ⟨trivial, ?_⟩
  intro e s r _ he w₁ hr hinv₁
  cases e with
  | quiet =>
      simp only [exec, State.openFile] at he
      split at he
      · rename_i fs fd hopen
        cases he
        obtain ⟨m, hfind, hnames, hinodes, hfiles, rfl⟩ := FileSystem.openRead_eq_some hopen
        obtain ⟨bytes, hbytes, hgood⟩ := hinv.finals hash m hhex hpub hfind
        have hfrozen := hinv.frozen_final hhex hfind
        refine ⟨hrely _ w₁ (hown w _ _ hkeep) hr, ?_⟩
        intro fd' size' hEq
        cases hEq
        refine hr.reading ⟨⟨_, List.mem_cons_self, rfl, rfl⟩, m, 0, bytes, ?_, ?_, ?_, ?_⟩
        · change fs.files[(files w).files.length]? = _
          simp [hfiles]
        · refine ⟨?_, ?_⟩
          · rw [hinodes]
            exact hfrozen.1
          · intro hash' hhex'
            rw [hnames]
            exact hfrozen.2 hash' hhex'
        · rw [hinodes]
          exact hbytes
        · exact hgood.mono fun _ he => List.mem_cons_of_mem _ he
      · cases he
        exact hstale w₁ (hrely _ w₁ (hown w w.store.disk _ hkeep) hr)
  | fault e =>
      cases he
      exact hstale w₁ (hrely _ w₁ (hown w w.store.disk _ hkeep) hr)
  | _ => cases he

/-- `Cache.Open`, while `keep` holds: a fact that the others leave alone, and that does not depend
on the disk. -/
theorem satNow_cacheOpen {keep : View h ρ → Prop}
    (hrely : ∀ w w' : View h ρ, keep w → Rely i w w' → keep w')
    (hown : ∀ (w : View h ρ) d e, keep w → keep ⟨{ w.store with disk := d }, e :: w.log⟩)
    (hinv : Inv good w) (hkeep : keep w) :
    (cacheOpen hash).SatNow (draftDiscipline h ρ good allow) i req
      (fun w r => keep w ∧ ∀ fd size, r = some (fd, size) → Reading good w i hash fd) w := by
  refine ⟨trivial, ?_⟩
  intro e s r _ he w₁ hr hinv₁
  cases e with
  | quiet =>
      cases he
      have hkeep₁ := hrely _ w₁ (hown w _ _ hkeep) hr
      generalize hres : (w.store.disk.cache.lookup hash).2 = res at hr ⊢
      cases res with
      | none => exact ⟨hkeep₁, nofun⟩
      | some entry =>
          obtain ⟨path, size⟩ := entry
          obtain ⟨elem, hfind, rfl⟩ := Cache.lookup_eq_some hres
          obtain ⟨hhex, hpath, hpub⟩ := hinv.listed.index hash elem hfind
          have hpub₁ : Published w₁ hash :=
            (hpub.mono fun _ he => List.mem_cons_of_mem _ he).mono hr.log
          rw [hpath]
          exact satNow_openFile hrely hown hinv₁ hkeep₁ hhex hpub₁
  | _ => cases he

end Opens

end Discipline

end Serving

end Gateway
end OpenWeights
