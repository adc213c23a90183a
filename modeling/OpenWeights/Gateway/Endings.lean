import OpenWeights.Lib.Fairness
import OpenWeights.Gateway.Delivery
import OpenWeights.Gateway.Flights

/-!
# Endings — every request comes to its end

`Delivery` says what a request has delivered when it has ended.  Whether it ends depends on the
download that it leads or waits for: `FetchAndCache` receives the error of a download only when `Put`
has read all of it.

* `ReplyPhase` : what the calls of a request tell about it;
* `Attended`   : every call of the coalescer has its result, or somebody who will hand it in;
* `GivesUp`    : the steps with which `Put` stops reading too early;
* `responsive_iff` : when every request of a fair run ends, and delivers.
-/

namespace OpenWeights
namespace Gateway

open Lib Db OpenWeights.Core

namespace Serving

/-! ## One request -/

/-- The call of the coalescer a request leads or has joined, and what `Put` has not read yet. -/
structure ReplyPhase where
  size : Int64
  lead : Option Nat
  joined : Option Nat
  left : List Bytes
  gaveUp : Bool
  deriving DecidableEq, Repr

def Request.key : Request → Bytes
  | .serve _ r _ => r.hash
  | .cancel _ => []

namespace ReplyPhase

/-- What is left after one more read; blocks without bytes are passed over. -/
def unread (φ : ReplyPhase) : List Bytes :=
  (φ.left.dropWhile fun block => block = []).tail

/-- `Put` returns on the outcome of the operation, and there is more to read. -/
def givesUp (φ : ReplyPhase) : (o : Op) → Res o → Bool
  -- the check of the size is the first thing after the call of `DownloadRange`
  | .download _, d => φ.size.toInt < 0 ∧ d.blocks ≠ []
  | .disk (.mkdirAll _), .error _ => φ.left ≠ []
  | .disk (.create _), .error _ => φ.left ≠ []
  | .disk (.write _ _), .error _ => φ.unread ≠ []
  | _, _ => false

def next (φ : ReplyPhase) : (o : Op) → Res o → ReplyPhase
  | .lookupXorb _, .ok (_, size) => { φ with size := size }
  | .enter _, .lead n => { φ with lead := some n, joined := none }
  | .enter _, .join n => { φ with joined := some n }
  | .finish _ _, _ => { φ with lead := none }
  | .download _, d => { φ with left := d.blocks }
  | .disk (.write _ _), _ => { φ with left := φ.unread }
  | .receive _, _ => { φ with gaveUp := false }
  | _, _ => φ

def after (φ : ReplyPhase) (o : Op) (r : Res o) : ReplyPhase :=
  if φ.givesUp o r then { φ.next o r with gaveUp := true } else φ.next o r

def ok (req : Request) (φ : ReplyPhase) : Op → Prop
  | .enter hash => φ.lead = none ∧ hash = req.key
  | .finish n _ => φ.lead = some n
  | .wait n => φ.lead = none ∧ φ.joined = some n
  | .receive left => left ≠ [] ↔ φ.gaveUp = true
  | _ => True

end ReplyPhase

def replying : Typestate ReplyPhase Request Op Res where
  start := ⟨0, none, none, [], false⟩
  after := ReplyPhase.after
  ok := ReplyPhase.ok

theorem flies_replying : Flies replying ReplyPhase.lead Request.key where
  start := rfl
  enter_ok := fun _ _ _ hok => hok
  finish_ok := fun _ _ _ _ hok => hok
  after_lead := fun _ _ _ => rfl
  after_join := fun _ _ _ hidle => hidle
  after_finish := fun _ _ _ => rfl
  after_other := by
    intro φ o r henter hfinish
    have hnext : (φ.next o r).lead = φ.lead := by
      cases o with
      | enter hash => exact absurd rfl (henter hash)
      | finish n v => exact absurd rfl (hfinish n v)
      | lookupXorb hash => cases r <;> rfl
      | disk o => cases o <;> rfl
      | _ => rfl
    change (φ.after o r).lead = φ.lead
    unfold ReplyPhase.after
    split
    · exact hnext
    · exact hnext

section Programs

variable {h : Handlers} {req : Request} {φ : ReplyPhase} {hash : Bytes} {fd n : Nat}

/-- An operation that leaves the phase. -/
def Op.passing : Op → Prop
  | .lookupXorb _ => False
  | .enter _ => False
  | .finish _ _ => False
  | .wait _ => False
  | .download _ => False
  | .receive _ => False
  | .disk (.mkdirAll _) => False
  | .disk (.create _) => False
  | .disk (.write _ _) => False
  | _ => True

theorem Op.passing.ok {o : Op} (ho : o.passing) : replying.ok req φ o := by
  cases o with
  | enter hash => exact ho.elim
  | finish n v => exact ho.elim
  | wait n => exact ho.elim
  | receive left => exact ho.elim
  | _ => trivial

theorem Op.passing.after {o : Op} (ho : o.passing) (r : Res o) : replying.after φ o r = φ := by
  cases o with
  | disk o =>
      cases o with
      | mkdirAll dir => exact ho.elim
      | create path => exact ho.elim
      | write fd bytes => exact ho.elim
      | _ => rfl
  | index hash => rfl
  | openFile path => rfl
  | dropStale hash path => rfl
  | readAll fd => rfl
  | sinceMs => rfl
  | clientGone ctx err => rfl
  | cancel ctx => rfl
  | _ => exact ho.elim

theorem follows_of_passing {α : Type} {p : Code α} (hp : p.Uses Op.passing) :
    p.Follows replying req (fun φ' _ => φ' = φ) φ :=
  .of_uses hp (fun _ ho => ho.ok) fun _ r ho => ho.after r

/-! ### The copy -/

theorem passing_cleanupTmp (tmp : Path) : (cleanupTmp fd tmp).Uses fun o => (Op.disk o).passing :=
  ⟨trivial, fun _ => ⟨trivial, fun _ => trivial⟩⟩

theorem passing_publish (blake3 : Blake3) (size : Int) (final tmp : Path) (hasher : MerkleHasher) :
    (publish blake3 hash size final tmp hasher).Uses fun o => (Op.disk o).passing := by
  unfold publish
  simp only
  split
  · exact ⟨trivial, fun _ => trivial⟩
  · refine ⟨trivial, ?_⟩
    rintro (e | _)
    · exact ⟨trivial, fun _ => trivial⟩
    · exact ⟨trivial, fun _ => trivial⟩

/-- What `Put` does after the copy does not concern the pipe. -/
theorem passing_afterCopy (blake3 : Blake3) (dir : Bytes) (size : Int)
    (copied : Except IoError (MerkleHasher × Nat)) :
    (afterCopy blake3 dir hash size fd copied).Uses fun o => (Op.disk o).passing := by
  have hcleanup : ∀ e : PutError, (do
      cleanupTmp fd (tmpFor dir hash)
      pure (.error e) : Gateway.Code (Except PutError Path)).Uses fun o => (Op.disk o).passing :=
    fun e => (passing_cleanupTmp _).bind fun _ => trivial
  cases copied with
  | error e => exact hcleanup _
  | ok p =>
      obtain ⟨hasher, written⟩ := p
      rw [afterCopy]
      split
      · exact hcleanup _
      · refine ⟨trivial, ?_⟩
        rintro (e | _)
        · exact hcleanup _
        · refine ⟨trivial, ?_⟩
          rintro (e | _)
          · exact ⟨trivial, fun _ => trivial⟩
          · exact passing_publish blake3 size _ _ hasher

theorem passing_onDisk {α : Type} {p : Gateway.Code α} (hp : p.Uses fun o => (Op.disk o).passing) :
    (onDisk p).Uses Op.passing :=
  hp.embed _ fun _ ho => ho

/-- `Put` has left something unread exactly if it gave up. -/
def Copied {α : Type} (lead : Option Nat) (φ : ReplyPhase) (p : α × List Bytes) : Prop :=
  φ.lead = lead ∧ (p.2 ≠ [] ↔ φ.gaveUp = true)

theorem follows_copyTeeRest (err : Option IoError) (hasher : MerkleHasher) (written : Nat)
    (blocks : List Bytes)
    (hleft : (φ.left.dropWhile fun block => block = []) = blocks.dropWhile fun block => block = [])
    (hgave : φ.gaveUp = false) :
    (onDisk (copyTeeRest fd err hasher written blocks)).Follows replying req (Copied φ.lead) φ := by
  have hdone : ∀ res : Except IoError (MerkleHasher × Nat),
      Copied φ.lead φ (res, ([] : List Bytes)) := by
    intro res
    exact ⟨rfl, by simp [hgave]⟩
  induction blocks generalizing φ hasher written with
  | nil =>
      unfold copyTeeRest
      cases err with
      | none => exact hdone _
      | some e => exact hdone _
  | cons block rest ih =>
      unfold copyTeeRest
      split
      · rename_i hblock
        subst hblock
        exact ih hasher written hleft hgave hdone
      · rename_i hblock
        have hunread : φ.unread = rest := by
          unfold ReplyPhase.unread
          rw [hleft, List.dropWhile_cons_of_neg (by simpa using hblock), List.tail_cons]
        refine ⟨trivial, ?_⟩
        rintro (e | _)
        · -- the write failed, and the rest stays in the pipe
          change Copied φ.lead (φ.after (.disk (.write fd block)) (.error e)) (_, rest)
          by_cases hrest : rest = []
          · simp [Copied, ReplyPhase.after, ReplyPhase.givesUp, ReplyPhase.next, hunread, hrest,
              hgave]
          · simp [Copied, ReplyPhase.after, ReplyPhase.givesUp, ReplyPhase.next, hunread, hrest]
        · refine ih (φ := { φ with left := φ.unread }) _ _ ?_ hgave ?_
          · exact congrArg _ hunread
          · intro res
            exact ⟨rfl, by simpa using hgave⟩

/-- How far `Put` comes before the copy. -/
def Opened (lead : Option Nat) (blocks : List Bytes) (φ : ReplyPhase) :
    Except PutError Nat → Prop
  | .error _ => φ.lead = lead ∧ (blocks ≠ [] ↔ φ.gaveUp = true)
  | .ok _ => φ.lead = lead ∧ φ.left = blocks ∧ φ.gaveUp = false

/-- An operation before the copy fails, with all of the source unread. -/
theorem opened_error {blocks : List Bytes} (hleft : φ.left = blocks) (hgave : φ.gaveUp = false)
    (e : PutError) :
    Opened φ.lead blocks (if decide (φ.left ≠ []) then { φ with gaveUp := true } else φ)
      (.error e) := by
  subst hleft
  by_cases hempty : φ.left = []
  · simp [Opened, hempty, hgave]
  · simp [Opened, hempty]

theorem follows_openTmp (dir : Bytes) {size : Int} {blocks : List Bytes}
    (hlength : hash.length = 64) (hleft : φ.left = blocks)
    (hgave : φ.gaveUp = true ↔ size < 0 ∧ blocks ≠ []) :
    (onDisk (openTmp dir hash size)).Follows replying req (Opened φ.lead blocks) φ := by
  unfold openTmp
  split
  · rename_i hne
    exact absurd hlength hne
  · split
    -- The size is negative: `Put` returns before it has read anything.
    · rename_i hsize
      exact ⟨rfl, by simp [hgave, hsize]⟩
    · rename_i hsize
      have hreads : φ.gaveUp = false := by
        rw [← Bool.not_eq_true, hgave]
        exact fun h => hsize h.1
      refine ⟨trivial, ?_⟩
      rintro (e | _)
      -- `MkdirAll` fails.
      · exact opened_error hleft hreads _
      · refine ⟨trivial, ?_⟩
        intro _
        refine ⟨trivial, ?_⟩
        rintro (e | fd)
        -- The temp file cannot be created.
        · exact opened_error hleft hreads _
        · exact ⟨rfl, hleft, hreads⟩

theorem follows_putRest (blake3 : Blake3) (dir : Bytes) {size : Int} {src : Reader}
    (hlength : hash.length = 64) (hleft : φ.left = src.blocks)
    (hgave : φ.gaveUp = true ↔ size < 0 ∧ src.blocks ≠ []) :
    (onDisk (putRest blake3 dir hash size src)).Follows replying req (Copied φ.lead) φ := by
  unfold putRest
  rw [onDisk_bind]
  refine (follows_openTmp dir hlength hleft hgave).bind ?_
  rintro φ₁ (e | fd) hopened
  · exact hopened
  · obtain ⟨hlead, hleft₁, hgave₁⟩ := hopened
    rw [← hlead]
    simp only
    rw [onDisk_bind]
    refine (follows_copyTeeRest src.err .new 0 src.blocks (congrArg _ hleft₁) hgave₁).bind ?_
    rintro φ₂ ⟨copied, left⟩ hcopied
    rw [onDisk_bind]
    refine (follows_of_passing (passing_onDisk (passing_afterCopy blake3 dir size copied))).bind ?_
    rintro φ₃ res rfl
    exact hcopied

/-! ### The source -/

/-- The request leads what it should, and `Put` has not given up. -/
def Steady (lead : Option Nat) (size : Int64) (φ : ReplyPhase) : Prop :=
  φ.lead = lead ∧ φ.gaveUp = false ∧ φ.size = size

theorem follows_fetchAndCache_replying {siaId : Hash} {size : Int64} (hlength : hash.length = 64)
    (hsteady : Steady (some n) size φ) :
    (h.fetchAndCache hash siaId size).Follows replying req
      (fun φ' _ => φ'.lead = some n ∧ φ'.gaveUp = false) φ := by
  obtain ⟨hlead, hgave, hsize⟩ := hsteady
  refine .perform_bind trivial ?_
  intro d
  have hafter : (φ.after (.download siaId) d).lead = some n ∧
      (φ.after (.download siaId) d).left = d.blocks ∧
      ((φ.after (.download siaId) d).gaveUp = true ↔ size.toInt < 0 ∧ d.blocks ≠ []) := by
    unfold ReplyPhase.after
    split
    · rename_i hgives
      refine ⟨hlead, rfl, iff_of_true rfl ?_⟩
      simpa [ReplyPhase.givesUp, hsize] using hgives
    · rename_i hkeeps
      refine ⟨hlead, rfl, iff_of_false (by simp [ReplyPhase.next, hgave]) ?_⟩
      simpa [ReplyPhase.givesUp, hsize] using hkeeps
  obtain ⟨hlead₁, hleft₁, hgave₁⟩ := hafter
  -- The copy says how much is left, and the wait for the download depends on it.
  have hput : (onDisk (putRest h.blake3 h.dir hash size.toInt d.reader)).Follows replying req
      (Copied (φ.after (.download siaId) d).lead) (φ.after (.download siaId) d) :=
    follows_putRest h.blake3 h.dir hlength hleft₁ hgave₁
  refine hput.bind ?_
  rintro φ₂ ⟨res, left⟩ ⟨hlead₂, hleft₂⟩
  refine .perform_bind hleft₂ ?_
  intro _
  exact ⟨hlead₂.trans hlead₁, rfl⟩

theorem passing_cacheOpen (hash : Bytes) : (cacheOpen hash).Uses Op.passing :=
  uses_cacheOpen trivial (fun _ => trivial) fun _ => trivial

theorem follows_fetchFn_replying {siaId : Hash} {size : Int64} (hlength : hash.length = 64)
    (hsteady : Steady (some n) size φ) :
    (h.fetchFn hash siaId size).Follows replying req
      (fun φ' _ => φ'.lead = some n ∧ φ'.gaveUp = false) φ := by
  refine (follows_of_passing (passing_cacheOpen hash)).bind ?_
  rintro φ' (_ | file) rfl
  · exact follows_fetchAndCache_replying hlength hsteady
  · exact ⟨hsteady.1, hsteady.2.1⟩

/-- The request leads nothing, and `Put` has not given up. -/
def Ended (φ : ReplyPhase) : Prop :=
  φ.lead = none ∧ φ.gaveUp = false

theorem follows_missDo_replying {siaId : Hash} {size : Int64} (hlength : hash.length = 64)
    (hkey : hash = req.key) (hsteady : Steady none size φ) :
    (missDo hash (h.fetchFn hash siaId size)).Follows replying req (fun φ' _ => Ended φ') φ := by
  obtain ⟨hlead, hgave, hsize⟩ := hsteady
  refine .perform_bind ⟨hlead, hkey⟩ ?_
  rintro (n | n)
  · have hleads : Steady (some n) size { φ with lead := some n, joined := none } :=
      ⟨rfl, hgave, hsize⟩
    refine (follows_fetchFn_replying hlength hleads).bind ?_
    rintro φ' v ⟨hlead', hgave'⟩
    exact .perform_bind hlead' fun _ => ⟨rfl, hgave'⟩
  · exact ⟨⟨hlead, rfl⟩, fun _ => ⟨hlead, hgave⟩⟩

theorem follows_getXorbSource_replying {siaId : Hash} {size : Int64} (hlength : hash.length = 64)
    (hkey : hash = req.key) (hsteady : Steady none size φ) :
    (h.getXorbSource hash siaId size).Follows replying req (fun φ' _ => Ended φ') φ := by
  refine (follows_of_passing (passing_cacheOpen hash)).bind ?_
  rintro φ₁ (_ | file) rfl
  · refine (follows_missDo_replying hlength hkey hsteady).bind ?_
    intro φ₂ v hended
    refine .perform_bind trivial fun _ => ?_
    cases v with
    | error e => exact hended
    | ok _ =>
        refine (follows_of_passing (passing_cacheOpen hash)).bind ?_
        rintro φ₃ (_ | file) rfl
        · exact hended
        · exact hended
  · exact ⟨hsteady.1, hsteady.2.1⟩

theorem follows_serveAdmitted_replying {ctx : Nat} {a : Admitted} (hlength : hash.length = 64)
    (hkey : hash = req.key) (hsteady : Steady none a.size φ) :
    (h.serveAdmitted ctx hash a).Follows replying req (fun φ' _ => Ended φ') φ := by
  refine (follows_getXorbSource_replying hlength hkey hsteady).bind ?_
  rintro φ₁ (err | src) hended
  · refine .perform_bind trivial ?_
    rintro (_ | _)
    · exact hended
    · exact hended
  · exact ⟨trivial, fun _ => ⟨trivial, fun _ => hended⟩⟩

theorem follows_code_replying (req : Request) :
    (code h req).Follows replying req (fun φ' _ => Ended φ') replying.start := by
  have hstart : Ended replying.start := ⟨rfl, rfl⟩
  cases req with
  | cancel ctx => exact ⟨trivial, fun _ => hstart⟩
  | serve ctx r now =>
      suffices hserve : (h.serveXorb ctx r now).Follows replying (.serve ctx r now)
          (fun φ' _ => Ended φ') replying.start from hserve.bind fun _ _ hended => hended
      unfold Handlers.serveXorb
      split
      · exact hstart
      · rename_i ok hverify
        refine .perform_bind trivial ?_
        intro row
        have hrow : Ended (replying.after replying.start (.lookupXorb r.hash) row) := by
          cases row <;> exact hstart
        split
        · exact hrow
        · rename_i a hadm
          obtain rfl : row = .ok (a.siaId, a.size) := admission_row hadm
          exact follows_serveAdmitted_replying (hexHash_of_verify hverify).1 rfl ⟨rfl, rfl, rfl⟩

/-- A request that leads a call hands its result in, and need not wait for anybody. -/
theorem until_finish {p : Code (Option ResponseWriter)}
    (hp : p.Follows replying req (fun φ' _ => Ended φ') φ) (hlead : φ.lead = some n) :
    p.Until (fun o => ∀ m, o ≠ .wait m) (fun o => ∃ v, o = .finish n v) := by
  induction p generalizing φ with
  | done a =>
      rw [Prog.Follows, Ended, hlead] at hp
      cases hp.1
  | call o k ih =>
      obtain ⟨hok, hrest⟩ := hp
      -- Leading a call, the request may neither enter another one nor wait.
      by_cases hfinish : ∃ m v, o = .finish m v
      · obtain ⟨m, v, rfl⟩ := hfinish
        cases hlead.symm.trans (show φ.lead = some m from hok)
        exact .inl ⟨v, rfl⟩
      · have henter : ∀ hash, o ≠ .enter hash := by
          rintro hash rfl
          cases hlead.symm.trans hok.1
        have hwait : ∀ m, o ≠ .wait m := by
          rintro m rfl
          cases hlead.symm.trans hok.1
        refine .inr ⟨hwait, fun r => ih r (hrest r) ?_⟩
        exact (flies_replying.after_other φ o r henter
          fun m v hEq => hfinish ⟨m, v, hEq⟩).trans hlead

end Programs

/-! ## The coalescer -/

section Coalescer

variable {h : Handlers} {c c' : Server h} {a : Step}

/-- Every call of the coalescer that somebody waits for, or could join, has its result or a
leader. -/
structure Attended (c : Server h) : Prop where
  conforms : ConformsTo replying (fun φ _ => Ended φ) c
  led : ∀ key n, h.miss.inFlight c.store.group key = some n →
    ∃ i, (replying.phaseOf i c.log).lead = some n
  joined : ∀ i n, (replying.phaseOf i c.log).joined = some n →
    h.miss.result c.store.group n ≠ none ∨ ∃ j, (replying.phaseOf j c.log).lead = some n

theorem Attended.start (maxBytes : Int) (found : FoundDisk) :
    Attended (Pool.init (State.new h maxBytes found) : Server h) where
  conforms := .init _ _ _
  led := by
    intro key n hin
    cases (h.miss.inFlight_new key).symm.trans hin
  joined := nofun

theorem joined_after {φ : ReplyPhase} {o : Op} (r : Res o) (henter : ∀ hash, o ≠ .enter hash) :
    (φ.after o r).joined = φ.joined := by
  have hnext : (φ.next o r).joined = φ.joined := by
    cases o with
    | enter hash => exact absurd rfl (henter hash)
    | lookupXorb hash => cases r <;> rfl
    | disk o => cases o <;> rfl
    | _ => rfl
  unfold ReplyPhase.after
  split
  · exact hnext
  · exact hnext

section Call

variable {i : Nat} {req : Request} {o : Op} {r : Res o} {e : Env} {s : State h}

/-- A call in flight is led by somebody. -/
theorem Attended.led_call (hc : Attended c) (hok : replying.ok req (replying.phaseOf i c.log) o)
    (he : exec h o e c.store = some (s, r)) {key : Bytes} {n : Nat}
    (hin : h.miss.inFlight s.group key = some n) :
    ∃ j, (replying.phaseOf j (⟨i, req, ⟨o, r⟩⟩ :: c.log)).lead = some n := by
  have hold : h.miss.inFlight c.store.group key = some n → (∀ v, o ≠ .finish n v) →
      ∃ j, (replying.phaseOf j (⟨i, req, ⟨o, r⟩⟩ :: c.log)).lead = some n := by
    intro hin hfinish
    obtain ⟨j, hj⟩ := hc.led key n hin
    rcases flies_replying.lead_cons (r := r) hok hj with hlead | ⟨v, hEq⟩
    · exact ⟨j, hlead⟩
    · exact absurd hEq (hfinish v)
  by_cases henter : ∃ k, o = .enter k
  · obtain ⟨k, rfl⟩ := henter
    cases e with
    | quiet =>
        cases he
        cases hflight : h.miss.inFlight c.store.group k with
        | some m =>
            rw [h.miss.inFlight_join _ _ _ hflight] at hin
            exact hold hin nofun
        | none =>
            rw [h.miss.inFlight_lead _ _ hflight] at hin
            by_cases hkey : key = k
            · -- the caller leads the new call
              subst hkey
              rw [Function.update_self] at hin
              refine ⟨i, ?_⟩
              rw [Typestate.phaseOf_cons_self, h.miss.enter_lead _ _ hflight, ← hin]
              rfl
            · rw [Function.update_of_ne hkey] at hin
              exact hold hin nofun
    | _ => cases he
  · by_cases hfinish : ∃ m v, o = .finish m v
    · obtain ⟨m, v, rfl⟩ := hfinish
      cases e with
      | quiet =>
          cases he
          rw [h.miss.inFlight_finish] at hin
          split at hin
          · cases hin
          · rename_i hne
            refine hold hin ?_
            rintro v' hEq
            cases hEq
            exact hne hin
      | _ => cases he
    · rw [group_of_exec he (fun k hEq => henter ⟨k, hEq⟩) fun m v hEq => hfinish ⟨m, v, hEq⟩] at hin
      exact hold hin fun v hEq => hfinish ⟨n, v, hEq⟩

/-- A call that somebody waits for has its result or a leader. -/
theorem Attended.joined_call (hc : Attended c) (hok : replying.ok req (replying.phaseOf i c.log) o)
    (he : exec h o e c.store = some (s, r)) {j n : Nat}
    (hjoined : (replying.phaseOf j (⟨i, req, ⟨o, r⟩⟩ :: c.log)).joined = some n) :
    h.miss.result s.group n ≠ none ∨
      ∃ j, (replying.phaseOf j (⟨i, req, ⟨o, r⟩⟩ :: c.log)).lead = some n := by
  have hold : (h.miss.result c.store.group n ≠ none ∨
      ∃ j, (replying.phaseOf j c.log).lead = some n) → h.miss.result s.group n ≠ none ∨
        ∃ j, (replying.phaseOf j (⟨i, req, ⟨o, r⟩⟩ :: c.log)).lead = some n := by
    rintro (hres | ⟨j, hj⟩)
    -- a result stays
    · exact .inl (result_of_exec he hres)
    · rcases flies_replying.lead_cons (r := r) hok hj with hlead | ⟨v, rfl⟩
      · exact .inr ⟨j, hlead⟩
      · exact .inl (result_of_finish he)
  by_cases hji : j = i
  · subst hji
    rw [Typestate.phaseOf_cons_self] at hjoined
    by_cases henter : ∃ k, o = .enter k
    · obtain ⟨k, rfl⟩ := henter
      cases e with
      | quiet =>
          cases he
          cases hflight : h.miss.inFlight c.store.group k with
          | some m =>
              rw [h.miss.enter_join _ _ _ hflight] at hjoined
              cases hjoined
              exact hold (.inr (hc.led k n hflight))
          | none =>
              rw [h.miss.enter_lead _ _ hflight] at hjoined
              cases hjoined
      | _ => cases he
    · exact hold (hc.joined j n ((joined_after r fun k hEq => henter ⟨k, hEq⟩).symm.trans hjoined))
  · rw [Typestate.phaseOf_cons_of_ne hji] at hjoined
    exact hold (hc.joined j n hjoined)

end Call

/-- One scheduler step. -/
theorem Attended.step (hc : Attended c) (hstep : c.step (code h) (exec h) a = some c') :
    Attended c' := by
  have hconf := hc.conforms.step hstep follows_code_replying
  rcases Pool.step_cases hstep with ⟨i, req, rfl, -, rfl⟩ |
    ⟨i, e, req, o, k, s, r, rfl, ht, he, rfl⟩ | ⟨i, req, p, rfl, -, rfl⟩
  · exact ⟨hconf, hc.led, hc.joined⟩
  · have hok := (hc.conforms.follows i req _ ht).1
    exact ⟨hconf, fun key n hin => hc.led_call hok he hin, fun j n hj => hc.joined_call hok he hj⟩
  · exact ⟨hconf, hc.led, hc.joined⟩

theorem result_of_step {n : Nat} (hstep : c.step (code h) (exec h) a = some c')
    (hres : h.miss.result c.store.group n ≠ none) : h.miss.result c'.store.group n ≠ none := by
  rcases Pool.step_cases hstep with ⟨_, _, -, -, rfl⟩ | ⟨_, _, _, _, _, _, _, -, -, he, rfl⟩ |
    ⟨_, _, _, -, -, rfl⟩
  · exact hres
  · exact result_of_exec he hres
  · exact hres

/-! ## Giving up -/

/-- A step after which `Put` returns, although the download it reads from has more to write: it
finds that the size is negative, or a file operation before the end of the copy fails. -/
def GivesUp (c : Server h) (a : Step) : Prop :=
  ∃ i e req o k s r, a = .call i e ∧ c.tasks i = some ⟨req, some (.call o k)⟩ ∧
    exec h o e c.store = some (s, r) ∧ (replying.phaseOf i c.log).givesUp o r = true

theorem gaveUp_after {φ : ReplyPhase} {o : Op} {r : Res o} (hreads : φ.gaveUp = false)
    (hkeeps : φ.givesUp o r = false) : (φ.after o r).gaveUp = false := by
  have hnext : (φ.next o r).gaveUp = false := by
    cases o with
    | enter hash => cases r <;> exact hreads
    | lookupXorb hash => cases r <;> exact hreads
    | disk o => cases o <;> exact hreads
    | receive left => rfl
    | _ => exact hreads
  rw [ReplyPhase.after, hkeeps]
  exact hnext

/-- Having given up, a request stays so until it receives the error of the download. -/
theorem gaveUp_stays {φ : ReplyPhase} {o : Op} {r : Res o} (hgave : φ.gaveUp = true)
    (hreceive : ∀ left, o ≠ .receive left) : (φ.after o r).gaveUp = true := by
  have hnext : (φ.next o r).gaveUp = true := by
    cases o with
    | enter hash => cases r <;> exact hgave
    | lookupXorb hash => cases r <;> exact hgave
    | disk o => cases o <;> exact hgave
    | receive left => exact absurd rfl (hreceive left)
    | _ => exact hgave
  unfold ReplyPhase.after
  split
  · rfl
  · exact hnext

def ReadsOn (c : Server h) : Prop :=
  ∀ i, (replying.phaseOf i c.log).gaveUp = false

theorem ReadsOn.step (hreads : ReadsOn c) (hkeeps : ¬GivesUp c a)
    (hstep : c.step (code h) (exec h) a = some c') : ReadsOn c' := by
  rcases Pool.step_cases hstep with ⟨i, req, rfl, -, rfl⟩ |
    ⟨i, e, req, o, k, s, r, rfl, ht, he, rfl⟩ | ⟨i, req, p, rfl, -, rfl⟩
  · exact hreads
  · intro j
    by_cases hji : j = i
    · subst hji
      rw [Typestate.phaseOf_cons_self]
      refine gaveUp_after (hreads j) ?_
      rw [← Bool.not_eq_true]
      exact fun hgives => hkeeps ⟨j, e, req, o, k, s, r, rfl, ht, he, hgives⟩
    · rw [Typestate.phaseOf_cons_of_ne hji]
      exact hreads j
  · exact hreads

/-- A request whose `Put` gave up. -/
structure Stuck (i : Nat) (c : Server h) : Prop where
  running : ∃ req p, c.tasks i = some ⟨req, some p⟩
  gaveUp : (replying.phaseOf i c.log).gaveUp = true

theorem Stuck.of_givesUp (hgives : GivesUp c a) (hstep : c.step (code h) (exec h) a = some c') :
    ∃ i, Stuck i c' := by
  obtain ⟨i, e, req, o, k, s, r, rfl, ht, he, hgives⟩ := hgives
  refine ⟨i, ?_⟩
  simp only [Pool.step, ht, he] at hstep
  cases hstep
  refine ⟨⟨req, k r, Function.update_self _ _ _⟩, ?_⟩
  rw [Typestate.phaseOf_cons_self]
  change (ReplyPhase.after _ o r).gaveUp = true
  rw [ReplyPhase.after, if_pos hgives]

/-- It never gets the error of its download. -/
theorem Stuck.step {i : Nat} (hstuck : Stuck i c) (hc : Attended c) (hdrop : a ≠ .drop i)
    (hstep : c.step (code h) (exec h) a = some c') : Stuck i c' := by
  obtain ⟨⟨req, p, ht⟩, hgave⟩ := hstuck
  by_cases hcall : ∃ e, a = .call i e
  · obtain ⟨e, rfl⟩ := hcall
    rcases Pool.step_cases hstep with ⟨_, _, hEq, -⟩ | ⟨j, e', req', o, k, s, r, hEq, ht', he, rfl⟩ |
      ⟨_, _, _, hEq, -⟩
    · cases hEq
    · cases hEq
      refine ⟨⟨req', k r, Function.update_self _ _ _⟩, ?_⟩
      rw [Typestate.phaseOf_cons_self]
      -- Only the error of the download could help, and it comes when nothing is left.
      refine gaveUp_stays hgave ?_
      rintro left rfl
      have hleft := (hc.conforms.follows i req' _ ht').1.2 hgave
      exact hleft (exec_receive he).1
    · cases hEq
  · have hcall' : ∀ e, a ≠ .call i e := fun e hEq => hcall ⟨e, hEq⟩
    refine ⟨⟨req, p, Pool.tasks_of_step hstep ht hcall' hdrop⟩, ?_⟩
    rcases Pool.step_cases hstep with ⟨_, _, -, -, rfl⟩ | ⟨j, e, _, _, _, _, _, rfl, -, -, rfl⟩ |
      ⟨_, _, _, -, -, rfl⟩
    · exact hgave
    · have hij : i ≠ j := by
        rintro rfl
        exact hcall' e rfl
      rw [Typestate.phaseOf_cons_of_ne hij]
      exact hgave
    · exact hgave

theorem Stuck.not_hasEnded {i : Nat} (hstuck : Stuck i c) (hc : Attended c) : ¬c.HasEnded i := by
  rintro ⟨req, a, ht⟩
  have hended : Ended (replying.phaseOf i c.log) := hc.conforms.follows i req _ ht
  cases hended.2.symm.trans hstuck.gaveUp

end Coalescer

/-! ## Whole runs -/

section Runs

variable {h : Handlers} {maxBytes : Int} {found : FoundDisk}

/-- Only who waits for a call, or for the rest of a download, may have to wait. -/
theorem exists_exec (o : Op) (s : State h) (hwait : ∀ n, o ≠ .wait n)
    (hreceive : ∀ left, o = .receive left → left = []) : ∃ e s' r, exec h o e s = some (s', r) := by
  cases o with
  | lookupXorb hash => exact ⟨.row (Hash.fill 0), _, _, rfl⟩
  | index hash => exact ⟨.quiet, _, _, rfl⟩
  | openFile path => exact ⟨.quiet, _, _, rfl⟩
  | dropStale hash path => exact ⟨.quiet, _, _, rfl⟩
  | readAll fd => exact ⟨.quiet, _, _, rfl⟩
  | disk o =>
      obtain ⟨e, d, r, he⟩ := Gateway.exists_exec o s.disk
      exact ⟨.disk e, { s with disk := d }, r, by simp only [exec, he]; rfl⟩
  | enter hash => exact ⟨.quiet, _, _, rfl⟩
  | finish n v => exact ⟨.quiet, _, _, rfl⟩
  | wait n => exact absurd rfl (hwait n)
  | download siaId => exact ⟨.download ⟨[], none⟩, _, _, rfl⟩
  | receive left =>
      cases hreceive left rfl
      exact ⟨.quiet, _, _, rfl⟩
  | sinceMs => exact ⟨.elapsed 0, _, _, rfl⟩
  | clientGone ctx err => exact ⟨.quiet, _, _, rfl⟩
  | cancel ctx => exact ⟨.quiet, _, _, rfl⟩

variable {ω : Endless (code h) (exec h) (Pool.init (State.new h maxBytes found) : Server h)}
  {i n t : Nat}

theorem attended (ω : Endless (code h) (exec h) (Pool.init (State.new h maxBytes found) : Server h))
    (t : Nat) : Attended (ω.pools t) :=
  ω.invariant (.start maxBytes found) (fun t a hact hc => hc.step (ω.step t a hact)) t

theorem readsOn (hkeeps : ∀ t a, ω.acts t = some a → ¬GivesUp (ω.pools t) a) (t : Nat) :
    ReadsOn (ω.pools t) :=
  ω.invariant (fun _ => rfl) (fun t a hact hc => hc.step (hkeeps t a hact) (ω.step t a hact)) t

/-- A request that does not wait for a call of the coalescer can go on. -/
theorem exec_of_readsOn {c : Server h} (hc : Attended c) (hreads : ReadsOn c) {req : Request} {o : Op}
    {k : Res o → Code (Option ResponseWriter)} (ht : c.tasks i = some ⟨req, some (.call o k)⟩)
    (hwait : ∀ n, o ≠ .wait n) : ∃ e s r, exec h o e c.store = some (s, r) := by
  refine exists_exec o c.store hwait ?_
  rintro left rfl
  by_contra hleft
  have hgave := (hc.conforms.follows i req _ ht).1.1 hleft
  cases (hreads i).symm.trans hgave

/-- Whoever leads a call hands its result in. -/
theorem landed (hfair : ω.Fair) (hreads : ∀ t, ReadsOn (ω.pools t))
    (hlead : (replying.phaseOf i (ω.pools t).log).lead = some n) :
    ∃ t', t ≤ t' ∧ h.miss.result (ω.pools t').store.group n ≠ none := by
  have hc := attended ω t
  cases htask : (ω.pools t).tasks i with
  | none =>
      rw [Typestate.phaseOf_eq_start (hc.conforms.unused i htask)] at hlead
      cases hlead
  | some task =>
      obtain ⟨req, prog⟩ := task
      obtain ⟨p, rfl⟩ := ω.running (fun _ => rfl) htask
      -- Its program comes to the `finish` of the call without another wait.
      have huntil := until_finish (hc.conforms.follows i req p htask) hlead
      have hcan : ∀ t₁ o k, (ω.pools t₁).tasks i = some ⟨req, some (.call o k)⟩ →
          (∀ m, o ≠ .wait m) ∨ (∃ v, o = .finish n v) →
            ∃ e s r, exec h o e (ω.pools t₁).store = some (s, r) := by
        intro t₁ o k ht hfree
        refine exec_of_readsOn (attended ω t₁) (hreads t₁) ht ?_
        rintro m rfl
        rcases hfree with hfree | ⟨v, hEq⟩
        · exact hfree m rfl
        · cases hEq
      obtain ⟨t', o, k, r, hle, ⟨v, rfl⟩, hperforms⟩ := Endless.performs hfair hcan huntil htask
      obtain ⟨e, he⟩ := hperforms.exec
      exact ⟨t' + 1, by omega, result_of_finish he⟩

/-- A request that waits for a call need not wait for ever. -/
theorem exec_of_waits (hfair : ω.Fair) (hreads : ∀ t, ReadsOn (ω.pools t)) {req : Request}
    {k : Res (.wait n) → Code (Option ResponseWriter)}
    (ht : (ω.pools t).tasks i = some ⟨req, some (.call (.wait n) k)⟩) :
    ∃ t₁, ∀ t', t₁ ≤ t' → ∃ e s r, exec h (.wait n) e (ω.pools t').store = some (s, r) := by
  have hc := attended ω t
  have hjoined := (hc.conforms.follows i req _ ht).1.2
  obtain ⟨t₁, hres⟩ : ∃ t₁, h.miss.result (ω.pools t₁).store.group n ≠ none := by
    rcases hc.joined i n hjoined with hres | ⟨j, hlead⟩
    · exact ⟨t, hres⟩
    · obtain ⟨t₁, -, hres⟩ := landed hfair hreads hlead
      exact ⟨t₁, hres⟩
  refine ⟨t₁, ?_⟩
  intro t' hle
  have hstays := ω.stays (I := fun c => h.miss.result c.store.group n ≠ none) hres
    (fun t a hact hres => result_of_step (ω.step t a hact) hres) hle
  obtain ⟨v, hv⟩ := Option.ne_none_iff_exists'.1 hstays
  exact ⟨.quiet, _, v, by simp only [exec, hv]; rfl⟩

/-- A fair run in which no `Put` gives up ends every request. -/
theorem ends_of_readsOn (hfair : ω.Fair) (hreads : ∀ t, ReadsOn (ω.pools t))
    (ht : (ω.pools t).tasks i ≠ none) : ∃ t', t ≤ t' ∧ (ω.pools t').HasEnded i := by
  obtain ⟨⟨req, prog⟩, htask⟩ := Option.ne_none_iff_exists'.1 ht
  obtain ⟨p, rfl⟩ := ω.running (fun _ => rfl) htask
  refine Endless.ends hfair ?_ htask
  intro t₁ o k ho
  by_cases hwait : ∃ n, o = .wait n
  · obtain ⟨n, rfl⟩ := hwait
    obtain ⟨t₂, hcan⟩ := exec_of_waits hfair hreads ho
    exact ⟨t₂, fun t' hle _ => hcan t' hle⟩
  · exact ⟨0, fun t' _ ht' => exec_of_readsOn (attended ω t') (hreads t') ht'
      fun n hEq => hwait ⟨n, hEq⟩⟩

/-- The request that gave up never ends. -/
theorem not_ends_of_givesUp {a : Step} (hact : ω.acts t = some a) (hgives : GivesUp (ω.pools t) a) :
    ∃ i, (ω.pools (t + 1)).tasks i ≠ none ∧
      ∀ t', t + 1 ≤ t' → ¬(ω.pools t').HasEnded i := by
  obtain ⟨i, hstuck⟩ := Stuck.of_givesUp hgives (ω.step t a hact)
  obtain ⟨req, p, ht⟩ := hstuck.running
  refine ⟨i, by simp [ht], ?_⟩
  intro t' hle
  have hstays : Attended (ω.pools t') ∧ Stuck i (ω.pools t') := by
    refine ω.stays (I := fun c => Attended c ∧ Stuck i c) ⟨attended ω _, hstuck⟩ ?_ hle
    rintro t a hact ⟨hc, hstuck⟩
    have hdrop : a ≠ .drop i := by
      rintro rfl
      exact ω.keeps t i hact
    exact ⟨hc.step (ω.step t a hact), hstuck.step hc hdrop (ω.step t a hact)⟩
  exact hstays.2.not_hasEnded hstays.1

/-- Every request of the run ends, and every one that has ended delivered what it owed. -/
structure Responsive (ω : Endless (code h) (exec h) (Pool.init (State.new h maxBytes found) : Server h)) :
    Prop where
  delivers : ∀ t, Delivers (ω.pools t)
  ends : ∀ t i, (ω.pools t).tasks i ≠ none → ∃ t', t ≤ t' ∧ (ω.pools t').HasEnded i

/-- Requests end and deliver in a fair run exactly when none with a live client handles an error that
wraps `context.Canceled`, and no `Put` gives up with part of its download unread.  What has ended in
some run, with whatever requests were dropped, has delivered under the first of these alone. -/
theorem responsive_iff (h : Handlers) (maxBytes : Int) (found : FoundDisk) :
    (∀ tr c, Run h maxBytes found tr c →
      ((∀ st ∈ tr, Delivers st.2.2) ↔ ∀ st ∈ tr, ¬Abandons st.1 st.2.1)) ∧
    ∀ ω : Endless (code h) (exec h) (Pool.init (State.new h maxBytes found) : Server h), ω.Fair →
      (Responsive ω ↔ ∀ t a, ω.acts t = some a → ¬Abandons (ω.pools t) a ∧ ¬GivesUp (ω.pools t) a) := by
  refine ⟨fun tr c hrun => delivers_iff hrun, ?_⟩
  intro ω hfair
  constructor
  · intro hresponsive t a hact
    constructor
    · intro habandons
      obtain ⟨tr, hrun, -⟩ : Reaches (code h) (exec h) (fun _ _ => True) _ (ω.pools t) :=
        ω.reaches (fun _ _ _ => trivial) t
      exact not_delivers_of_abandons hrun (ω.step t a hact) habandons (hresponsive.delivers (t + 1))
    · intro hgives
      obtain ⟨i, ht, hnot⟩ := not_ends_of_givesUp hact hgives
      obtain ⟨t', hle, hended⟩ := hresponsive.ends (t + 1) i ht
      exact hnot t' hle hended
  · intro hgood
    have hreads := readsOn fun t a hact => (hgood t a hact).2
    refine ⟨?_, fun t i ht => ends_of_readsOn hfair hreads ht⟩
    intro t
    obtain ⟨tr, hrun, hall⟩ :
        Reaches (code h) (exec h) (fun c a => ¬Abandons c a) _ (ω.pools t) :=
      ω.reaches (fun t a hact => (hgood t a hact).1) t
    exact delivers_of_run hrun hall

end Runs

def givesUpCheck {h : Handlers} (c : Server h) : Step → Bool
  | .call i e =>
      match c.tasks i with
      | some ⟨_, some (.call o _)⟩ =>
          match exec h o e c.store with
          | some (_, r) => (replying.phaseOf i c.log).givesUp o r
          | none => false
      | _ => false
  | _ => false

theorem not_givesUp_of_check {h : Handlers} (c : Server h) (a : Step)
    (hcheck : (!givesUpCheck c a) = true) : ¬GivesUp c a := by
  rintro ⟨i, e, req, o, k, s, r, rfl, ht, he, hgives⟩
  simp [givesUpCheck, ht, he, hgives] at hcheck

/-- A request that fetches its xorb ends, and is answered with all of it. -/
theorem responsive_iff_fetched :
    ∃ ω : Endless (code sampleHandlers) (exec sampleHandlers)
        (Pool.init (State.new sampleHandlers 0 emptyDisk) : Server sampleHandlers),
      ω.Fair ∧ Responsive ω ∧ ∃ t res,
        ended (ω.pools t) 0 = some (.serve 0 sampleRequest 1999999999, some res) ∧
        res.statusLines = [200] ∧ res.body = [1, 2, 3] := by
  have heval : ((Pool.init (State.new sampleHandlers 0 emptyDisk)).runChecked
      (code sampleHandlers) (exec sampleHandlers)
      (fun c a => !abandonsCheck c a && !givesUpCheck c a)
      (.spawn 0 (.serve 0 sampleRequest 1999999999) :: callsOf 0 fetchedEnvs)).map
      (fun c => c.allEnded 1 && decide (ended c 0 = some (.serve 0 sampleRequest 1999999999,
        some (respond .new ⟨[1, 2, 3], false, 40⟩ 3 [])))) = some true := by
    decide +kernel
  have hcheck : ∀ (c : Server sampleHandlers) a, (!abandonsCheck c a && !givesUpCheck c a) = true →
      ¬Abandons c a ∧ ¬GivesUp c a := by
    intro c a hcheck
    rw [Bool.and_eq_true] at hcheck
    exact ⟨not_abandons_of_check c a hcheck.1, not_givesUp_of_check c a hcheck.2⟩
  obtain ⟨ω, hfair, hall, t, hended⟩ :=
    Endless.exists_fair heval (fun _ => rfl) (by decide +kernel) (by simp [callsOf]) hcheck
  exact ⟨ω, hfair, ((responsive_iff _ _ _).2 ω hfair).2 hall, t, _, of_decide_eq_true hended,
    by decide +kernel, by decide +kernel⟩

end Serving

end Gateway
end OpenWeights
