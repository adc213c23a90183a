import OpenWeights.Gateway.Flights
import OpenWeights.Gateway.Lru

/-!
# Downloads — one download for each cached xorb

Any number of `getXorbSource` calls, interleaved step by step.  A call can miss the cache, be
overtaken by a whole fetch of somebody else, and lead a call of the coalescer itself; its re-check
then finds the entry.

The automaton `sourcing` follows one call; `Knows` says what each of its phases tells about the
index and about the downloads so far.  As long as no fetch of the hash fails and its entry is not
lost, the xorb is downloaded once (`downloaded_once`).
-/

namespace OpenWeights
namespace Gateway

open Lib Db OpenWeights.Core

namespace Serving

structure SourceRequest where
  hash : Bytes
  siaId : Hash
  size : Int64

def sourceCode (h : Handlers) (req : SourceRequest) : Code (Except SourceError OpenSource) :=
  h.getXorbSource req.hash req.siaId req.size

abbrev SourcePool (h : Handlers) :=
  Pool (State h) SourceRequest Op Res (Except SourceError OpenSource)

abbrev SourceStep := Action SourceRequest Env

abbrev SourceTransition (h : Handlers) := SourcePool h × SourceStep × SourcePool h

abbrev SourceRun (h : Handlers) (maxBytes : Int) (found : FoundDisk)
    (tr : List (SourceTransition h)) (c : SourcePool h) : Prop :=
  Lib.Path (sourceCode h) (exec h) (Pool.init (State.new h maxBytes found)) tr c

/-! ## One call -/

/-- How far the leader has come. -/
inductive FetchStage
  | entered
  | hit (path : Path)
  | missed
  | fetching
  | recorded
  deriving DecidableEq, Repr

inductive SourcePhase
  | start
  /-- The first `Open` has found an entry. -/
  | hit (path : Path)
  | leading (n : Nat) (stage : FetchStage)
  | joined (n : Nat)
  /-- `Do` has returned. -/
  | resolved (ok : Bool)
  /-- The last `Open` has found an entry, or none. -/
  | reopened (path : Path)
  | missing
  deriving DecidableEq, Repr

namespace SourcePhase

def lead : SourcePhase → Option Nat
  | .leading n _ => some n
  | _ => none

/-- The index knows the hash. -/
def found (path : Path) : SourcePhase → SourcePhase
  | .start => .hit path
  | .leading n .entered => .leading n (.hit path)
  | .resolved true => .reopened path
  | φ => φ

/-- The index does not know it, or its file was not there. -/
def notFound : SourcePhase → SourcePhase
  | .hit _ => .start
  | .leading n .entered => .leading n .missed
  | .leading n (.hit _) => .leading n .missed
  | .resolved true => .missing
  | .reopened _ => .missing
  | φ => φ

def after (φ : SourcePhase) : (o : Op) → Res o → SourcePhase
  | .index _, some (path, _) => φ.found path
  | .index _, none => φ.notFound
  | .dropStale _ _, _ => φ.notFound
  | .enter _, .lead n => .leading n .entered
  | .enter _, .join n => .joined n
  | .finish _ v, _ => .resolved v.isOk
  | .wait _, v =>
      match φ with
      | .joined _ => .resolved v.isOk
      | φ => φ
  | .download _, _ =>
      match φ with
      | .leading n .missed => .leading n .fetching
      | φ => φ
  | .disk (.commit _ _ _), _ =>
      match φ with
      | .leading n .fetching => .leading n .recorded
      | φ => φ
  | _, _ => φ

def mayOpen : SourcePhase → Prop
  | .start => True
  | .leading _ .entered => True
  | .resolved true => True
  | _ => False

def hasFound (path : Path) : SourcePhase → Prop
  | .hit p => p = path
  | .leading _ (.hit p) => p = path
  | .reopened p => p = path
  | _ => False

def mayEnd : FetchStage → Prop
  | .hit _ => True
  | .recorded => True
  | _ => False

def ok (h : Handlers) (req : SourceRequest) (φ : SourcePhase) : Op → Prop
  | .index hash => hash = req.hash ∧ φ.mayOpen
  | .dropStale hash path => hash = req.hash ∧ φ.hasFound path
  | .enter hash => φ = .start ∧ hash = req.hash
  | .wait n => φ = .joined n
  | .finish n v => ∃ stage, φ = .leading n stage ∧ (v.isOk = true → mayEnd stage)
  | .download _ => ∃ n, φ = .leading n .missed
  | .disk (.commit hash _ path) =>
      hash = req.hash ∧ path = pathFor h.dir hash ∧ ∃ n, φ = .leading n .fetching
  | _ => True

end SourcePhase

def sourcing (h : Handlers) : Typestate SourcePhase SourceRequest Op Res where
  start := .start
  after := SourcePhase.after
  ok := SourcePhase.ok h

section Puts

variable {Φ ρ α : Type} {T : Typestate Φ ρ Op Res} {r : ρ} {φ φ' : Φ} {hash : Bytes} {size : Int}

/-- In the phase the automaton ignores every file operation but the bookkeeping. -/
def Ignores (T : Typestate Φ ρ Op Res) (r : ρ) (φ : Φ) : Prop :=
  ∀ o, (∀ hash size path, o ≠ .commit hash size path) →
    T.ok r φ (.disk o) ∧ ∀ res, T.after φ (.disk o) res = φ

/-- How `Put` ends: only a `Put` that succeeds has done its bookkeeping. -/
def Booking (φ φ' : Φ) (ψ : Φ) (res : Except PutError Path) : Prop :=
  ψ = if res.isOk then φ' else φ

theorem Ignores.perform {post : Φ → α → Prop} (hT : Ignores T r φ) (o : Gateway.Op)
    (f : Gateway.Res o → Gateway.Code α) (hne : ∀ hash size path, o ≠ .commit hash size path)
    (hf : ∀ res, (onDisk (f res)).Follows T r post φ) :
    (onDisk (Prog.perform o >>= f)).Follows T r post φ := by
  refine ⟨(hT o hne).1, ?_⟩
  intro res
  have hsame : T.after φ (.disk o) res = φ := (hT o hne).2 res
  rw [hsame]
  exact hf res

theorem Ignores.copyTee (hT : Ignores T r φ) {fd : Nat} {err : Option IoError}
    (hasher : MerkleHasher) (written : Nat) (blocks : List Bytes) :
    (onDisk (copyTee fd err hasher written blocks)).Follows T r (fun ψ _ => ψ = φ) φ := by
  induction blocks generalizing hasher written with
  | nil =>
      unfold Gateway.copyTee
      split <;> rfl
  | cons block rest ih =>
      unfold Gateway.copyTee
      split
      · exact ih hasher written
      · refine hT.perform _ _ nofun ?_
        rintro (e | _)
        · rfl
        · exact ih _ _

theorem Ignores.removed (hT : Ignores T r φ) (tmp : Path) (e : PutError) :
    (onDisk (do
      let _ ← remove tmp
      pure (.error e : Except PutError Path))).Follows T r (Booking φ φ') φ :=
  hT.perform _ _ nofun fun _ => rfl

theorem Ignores.fill {final : Path} (hT : Ignores T r φ)
    (hok : T.ok r φ (.disk (.commit hash size final)))
    (hafter : T.after φ (.disk (.commit hash size final)) () = φ')
    (blake3 : Blake3) (src : Reader) (tmp : Path) (fd : Nat) :
    (onDisk (fill blake3 hash size src final tmp fd)).Follows T r (Booking φ φ') φ := by
  have hcleanup : ∀ e : PutError, (onDisk (do
      cleanupTmp fd tmp
      pure (.error e : Except PutError Path))).Follows T r (Booking φ φ') φ := by
    intro e
    exact hT.perform _ _ nofun fun _ => hT.removed tmp e
  unfold Gateway.fill
  rw [onDisk, Prog.embed_bind]
  refine (hT.copyTee .new 0 src.blocks).bind ?_
  rintro ψ (e | ⟨hasher, written⟩) rfl
  · exact hcleanup _
  · simp only
    split
    · exact hcleanup _
    · refine hT.perform _ _ nofun ?_
      rintro (e | _)
      · exact hcleanup _
      · refine hT.perform _ _ nofun ?_
        rintro (e | _)
        · exact hT.removed _ _
        · simp only
          unfold publish
          simp only
          split
          · exact hT.removed _ _
          · refine hT.perform _ _ nofun ?_
            rintro (e | _)
            · exact hT.removed _ _
            · exact ⟨hok, fun _ => hafter⟩

theorem Ignores.put {dir : Bytes} (hT : Ignores T r φ)
    (hok : T.ok r φ (.disk (.commit hash size (pathFor dir hash))))
    (hafter : T.after φ (.disk (.commit hash size (pathFor dir hash))) () = φ')
    (blake3 : Blake3) (src : Reader) :
    (onDisk (put blake3 dir hash size src)).Follows T r (Booking φ φ') φ := by
  unfold Gateway.put
  split
  · rfl
  · split
    · rfl
    · refine hT.perform _ _ nofun ?_
      rintro (e | _)
      · rfl
      · refine hT.perform _ _ nofun ?_
        intro _
        refine hT.perform _ _ nofun ?_
        rintro (e | fd)
        · rfl
        · exact hT.fill hok hafter blake3 src _ fd

end Puts

section Programs

variable {h : Handlers} {req : SourceRequest} {φ : SourcePhase} {n : Nat}

theorem SourcePhase.notFound_found {path : Path} (hmay : φ.mayOpen) :
    (φ.found path).notFound = φ.notFound := by
  cases φ with
  | start => rfl
  | leading n stage =>
      cases stage with
      | entered => rfl
      | _ => exact hmay.elim
  | resolved ok =>
      cases ok with
      | true => rfl
      | false => exact hmay.elim
  | _ => exact hmay.elim

theorem SourcePhase.hasFound_found {path : Path} (hmay : φ.mayOpen) :
    (φ.found path).hasFound path := by
  cases φ with
  | start => rfl
  | leading n stage =>
      cases stage with
      | entered => rfl
      | _ => exact hmay.elim
  | resolved ok =>
      cases ok with
      | true => rfl
      | false => exact hmay.elim
  | _ => exact hmay.elim

theorem follows_cacheOpen_sourcing (hmay : φ.mayOpen) :
    (cacheOpen req.hash).Follows (sourcing h) req (fun φ' r =>
      match r with
      | some _ => ∃ path, φ' = φ.found path
      | none => φ' = φ.notFound) φ := by
  refine .perform_bind ⟨rfl, hmay⟩ ?_
  rintro (_ | ⟨path, size⟩)
  · rfl
  · refine .perform_bind trivial ?_
    rintro (e | fd)
    · refine .perform_bind ⟨rfl, SourcePhase.hasFound_found hmay⟩ ?_
      intro _
      exact SourcePhase.notFound_found hmay
    · exact ⟨path, rfl⟩

def FetchedEnds (n : Nat) (φ : SourcePhase) (v : Except SourceError Bytes) : Prop :=
  ∃ stage, φ = .leading n stage ∧ (v.isOk = true → SourcePhase.mayEnd stage)

theorem follows_fetchAndCache_sourcing :
    (h.fetchAndCache req.hash req.siaId req.size).Follows (sourcing h) req (FetchedEnds n)
      (.leading n .missed) := by
  refine .perform_bind ⟨n, rfl⟩ ?_
  intro d
  have hignores : Ignores (sourcing h) req (.leading n .fetching) := by
    intro o hne
    cases o with
    | commit hash size path => exact absurd rfl (hne hash size path)
    | _ => exact ⟨trivial, fun _ => rfl⟩
  have hput : (onDisk (put h.blake3 h.dir req.hash req.size.toInt d.reader)).Follows (sourcing h) req
      (Booking (.leading n .fetching) (.leading n .recorded)) (.leading n .fetching) :=
    hignores.put ⟨rfl, rfl, n, rfl⟩ rfl h.blake3 d.reader
  rw [← onDisk_putRest] at hput
  refine hput.of_map.bind ?_
  rintro φ' ⟨res, left⟩ hbooking
  have hstage : ∃ stage, φ' = .leading n stage := by
    cases res with
    | ok path => exact ⟨_, hbooking⟩
    | error e => exact ⟨_, hbooking⟩
  obtain ⟨stage, rfl⟩ := hstage
  refine .perform_bind trivial fun _ => ⟨stage, rfl, ?_⟩
  intro hok
  obtain ⟨-, hres⟩ := isOk_fetched hok
  cases res with
  | error e => cases hres
  | ok path =>
      cases hbooking
      trivial

theorem follows_fetchFn_sourcing :
    (h.fetchFn req.hash req.siaId req.size).Follows (sourcing h) req (FetchedEnds n)
      (.leading n .entered) := by
  refine (follows_cacheOpen_sourcing (φ := .leading n .entered) trivial).bind ?_
  rintro φ' (_ | entry) hφ'
  · obtain rfl : φ' = .leading n .missed := hφ'
    exact follows_fetchAndCache_sourcing
  · obtain ⟨path, rfl⟩ := hφ'
    exact ⟨.hit path, rfl, fun _ => trivial⟩

theorem follows_missDo_sourcing :
    (missDo req.hash (h.fetchFn req.hash req.siaId req.size)).Follows (sourcing h) req
      (fun φ' v => φ' = .resolved v.isOk) .start := by
  refine .perform_bind ⟨rfl, rfl⟩ ?_
  rintro (n | n)
  · refine follows_fetchFn_sourcing.bind ?_
    rintro φ' v ⟨stage, rfl, hends⟩
    exact .perform_bind ⟨stage, rfl, hends⟩ fun _ => rfl
  · exact ⟨rfl, fun _ => rfl⟩

def SourceEnds (φ : SourcePhase) : Except SourceError OpenSource → Prop
  | .ok _ => ∃ path, φ = .hit path ∨ φ = .reopened path
  | .error _ => φ = .resolved false ∨ φ = .missing

theorem follows_sourceCode (req : SourceRequest) :
    (sourceCode h req).Follows (sourcing h) req SourceEnds .start := by
  refine (follows_cacheOpen_sourcing (φ := .start) trivial).bind ?_
  rintro φ' (_ | entry) hφ'
  · obtain rfl : φ' = .start := hφ'
    refine follows_missDo_sourcing.bind ?_
    rintro φ₁ v rfl
    refine .perform_bind trivial ?_
    intro ms
    cases v with
    | error e => exact .inl rfl
    | ok _ =>
        refine (follows_cacheOpen_sourcing (φ := .resolved true) trivial).bind ?_
        rintro φ₂ (_ | entry) hφ₂
        · obtain rfl : φ₂ = .missing := hφ₂
          exact .inr rfl
        · obtain ⟨path, rfl⟩ := hφ₂
          exact ⟨path, .inr rfl⟩
  · obtain ⟨path, rfl⟩ := hφ'
    exact ⟨path, .inl rfl⟩

theorem flies_sourcing (h : Handlers) : Flies (sourcing h) SourcePhase.lead SourceRequest.hash where
  start := rfl
  enter_ok := by
    rintro req φ hash ⟨rfl, rfl⟩
    exact ⟨rfl, rfl⟩
  finish_ok := by
    rintro req φ n v ⟨stage, rfl, -⟩
    rfl
  after_lead := fun _ _ _ => rfl
  after_join := fun _ _ _ _ => rfl
  after_finish := fun _ _ _ => rfl
  after_other := by
    intro φ o r henter hfinish
    have hfound : ∀ path, (φ.found path).lead = φ.lead := by
      intro path
      unfold SourcePhase.found
      split <;> rfl
    have hnotFound : φ.notFound.lead = φ.lead := by
      unfold SourcePhase.notFound
      split <;> rfl
    cases o with
    | enter hash => exact absurd rfl (henter hash)
    | finish n v => exact absurd rfl (hfinish n v)
    -- Only entering and finishing change who leads; the other calls move the stage.
    | index hash =>
        cases r with
        | none => exact hnotFound
        | some entry => exact hfound entry.1
    | dropStale hash path => exact hnotFound
    | wait n => cases φ <;> rfl
    | download siaId =>
        cases φ with
        | leading n stage => cases stage <;> rfl
        | _ => rfl
    | disk o =>
        cases o with
        | commit hash size path =>
            cases φ with
            | leading n stage => cases stage <;> rfl
            | _ => rfl
        | _ => rfl
    | _ => rfl

end Programs

/-! ## What the phases know -/

/-- The index has an entry for the hash. -/
def Has {h : Handlers} (s : State h) (hash : Bytes) : Prop :=
  s.disk.cache.index.find hash ≠ none

def downloading : Call Op Res → Bool
  | ⟨.download _, _⟩ => true
  | _ => false

def downloads (hash : Bytes) (log : List (Entry SourceRequest Op Res)) : Nat :=
  log.countP fun e => decide (e.request.hash = hash) && downloading e.call

/-- What a call knows that waits for call `n`. -/
def Awaits (h : Handlers) (hash : Bytes) (s : State h) (n : Nat) : Prop :=
  h.miss.inFlight s.group hash = some n ∨
    ((∃ v, h.miss.result s.group n = some (.ok v)) ∧ Has s hash)

/-- What a call for the hash knows in a phase, after `count` downloads. -/
def Knows (h : Handlers) (hash : Bytes) (s : State h) (count : Nat) : SourcePhase → Prop
  | .start => True
  | .hit path => Has s hash ∧ path = pathFor h.dir hash
  | .leading _ .entered => True
  | .leading _ (.hit path) => Has s hash ∧ path = pathFor h.dir hash
  | .leading _ .missed => count = 0 ∧ ¬Has s hash
  | .leading _ .fetching => count = 1
  | .leading _ .recorded => Has s hash
  | .joined n => Awaits h hash s n
  | .resolved ok => ok = true ∧ Has s hash
  | .reopened path => Has s hash ∧ path = pathFor h.dir hash
  | .missing => False

structure Counted (hash : Bytes) {h : Handlers} (c : SourcePool h) : Prop where
  booked : c.store.disk.cache.Booked
  listed : c.store.disk.cache.Lists fun k e => e.path = pathFor h.dir k
  wf : h.miss.Wf c.store.group
  le_one : downloads hash c.log ≤ 1
  has : Has c.store hash → downloads hash c.log = 1
  /-- A xorb that was downloaded is recorded, or its leader is about to do so. -/
  fetched : downloads hash c.log = 1 → Has c.store hash ∨
    ∃ i t n, c.tasks i = some t ∧ t.request.hash = hash ∧
      (sourcing h).phaseOf i c.log = .leading n .fetching
  knows : ∀ i t, c.tasks i = some t → t.request.hash = hash →
    Knows h hash c.store (downloads hash c.log) ((sourcing h).phaseOf i c.log)

section Steps

variable {h : Handlers} {hash : Bytes} {s s' : State h} {count count' n : Nat} {φ : SourcePhase}

/-- What somebody else's step leaves to a call. -/
theorem Knows.frame (hknows : Knows h hash s count φ) (hkeep : Has s hash → Has s' hash)
    (hawaits : ∀ n, Awaits h hash s n → Awaits h hash s' n)
    (hlead : φ.lead ≠ none → count' = count ∧ (Has s' hash → Has s hash)) :
    Knows h hash s' count' φ := by
  cases φ with
  | start => trivial
  | hit path => exact ⟨hkeep hknows.1, hknows.2⟩
  | leading n stage =>
      obtain ⟨rfl, hback⟩ := hlead nofun
      cases stage with
      | entered => trivial
      | hit path => exact ⟨hkeep hknows.1, hknows.2⟩
      | missed => exact ⟨hknows.1, fun hhas => hknows.2 (hback hhas)⟩
      | fetching => exact hknows
      | recorded => exact hkeep hknows
  | joined n => exact hawaits n hknows
  | resolved ok => exact ⟨hknows.1, hkeep hknows.2⟩
  | reopened path => exact ⟨hkeep hknows.1, hknows.2⟩
  | missing => exact hknows

theorem Awaits.of_group (hgroup : s'.group = s.group) (hkeep : Has s hash → Has s' hash)
    (hawaits : Awaits h hash s n) : Awaits h hash s' n := by
  unfold Awaits
  rw [hgroup]
  exact hawaits.imp_right fun hdone => ⟨hdone.1, hkeep hdone.2⟩

/-- Somebody enters the coalescer. -/
theorem Awaits.enter (k : Bytes) (hawaits : Awaits h hash s n) :
    Awaits h hash { s with group := (h.miss.enter s.group k).1 } n := by
  rcases hawaits with hflight | ⟨⟨v, hv⟩, hhas⟩
  · refine .inl ?_
    change h.miss.inFlight (h.miss.enter s.group k).1 hash = some n
    cases hk : h.miss.inFlight s.group k with
    | some m => rw [h.miss.inFlight_join _ _ m hk, hflight]
    | none =>
        have hne : hash ≠ k := by
          rintro rfl
          rw [hk] at hflight
          cases hflight
        rw [h.miss.inFlight_lead _ _ hk, Function.update_of_ne hne, hflight]
  · refine .inr ⟨⟨v, ?_⟩, hhas⟩
    change h.miss.result (h.miss.enter s.group k).1 n = some (.ok v)
    rw [h.miss.result_enter, hv]

/-- The leader of a key hands its result on. -/
theorem Awaits.finish {m : Nat} {k : Bytes} {v : Except SourceError Bytes} (hwf : h.miss.Wf s.group)
    (hlead : h.miss.inFlight s.group k = some m)
    (hown : k = hash → (∃ b, v = .ok b) ∧ Has s hash) (hawaits : Awaits h hash s n) :
    Awaits h hash { s with group := h.miss.finish s.group m v } n := by
  rcases hawaits with hflight | ⟨⟨v', hv⟩, hhas⟩
  · by_cases hnm : n = m
    · -- the call this one waits for
      subst hnm
      obtain ⟨⟨b, rfl⟩, hhas⟩ := hown (hwf.inj k hash n hlead hflight)
      refine .inr ⟨⟨b, ?_⟩, hhas⟩
      change h.miss.result (h.miss.finish s.group n _) n = _
      rw [h.miss.result_finish, if_pos rfl]
    · refine .inl ?_
      change h.miss.inFlight (h.miss.finish s.group m v) hash = some n
      rw [h.miss.inFlight_finish, hflight, if_neg]
      exact fun hEq => hnm (Option.some.inj hEq)
  · refine .inr ⟨⟨v', ?_⟩, hhas⟩
    have hne : n ≠ m := by
      rintro rfl
      exact hwf.landed n _ k hv hlead
    change h.miss.result (h.miss.finish s.group m v) n = _
    rw [h.miss.result_finish, if_neg hne, hv]

/-- The index stays in order. -/
theorem listed_of_exec {o : Op} {e : Env} {r : Res o} {req : SourceRequest}
    (hbooked : s.disk.cache.Booked) (hlisted : s.disk.cache.Lists fun k e => e.path = pathFor h.dir k)
    (hok : φ.ok h req o) (he : exec h o e s = some (s', r)) :
    s'.disk.cache.Booked ∧ s'.disk.cache.Lists fun k e => e.path = pathFor h.dir k := by
  rcases cache_of_exec he with hsame | ⟨k, rfl, hcache⟩ | ⟨k, path, rfl, hcache⟩ |
    ⟨k, size, path, rfl, hcache⟩
  · rw [hsame]
    exact ⟨hbooked, hlisted⟩
  · rw [hcache]
    exact ⟨hbooked.lookup k, hlisted.lookup k⟩
  · rw [hcache]
    exact ⟨hbooked.dropStale k path, hlisted.dropStale k path⟩
  · obtain ⟨-, hpath, -⟩ := hok
    rw [hcache]
    exact ⟨(hbooked.recorded k size path).booked, (hlisted.record hpath).evictLocked.1⟩

/-- Only the bookkeeping of a hash brings its entry. -/
theorem has_of_exec {o : Op} {e : Env} {r : Res o} (hbooked : s.disk.cache.Booked)
    (he : exec h o e s = some (s', r)) (hhas : Has s' hash)
    (hcommit : ∀ size path, o ≠ .disk (.commit hash size path)) : Has s hash := by
  unfold Has at hhas ⊢
  rcases cache_of_exec he with hsame | ⟨k, rfl, hcache⟩ | ⟨k, path, rfl, hcache⟩ |
    ⟨k, size, path, rfl, hcache⟩
  · rwa [hsame] at hhas
  · rwa [hcache, Cache.lookup_index] at hhas
  · rcases Cache.dropStale_cases hbooked k path with hsame | ⟨e, -, -, hdrop⟩
    · rwa [hcache, hsame] at hhas
    · rw [hcache, hdrop] at hhas
      intro hnone
      refine hhas ((Table.find_erase _ _ _).trans ?_)
      split
      · rfl
      · exact hnone
  · have hne : hash ≠ k := by
      rintro rfl
      exact hcommit size path rfl
    -- an entry that is there after the eviction was there before
    have hrec := hbooked.recorded k size path
    rw [← hcache] at hrec
    obtain ⟨gone, hsplit, -⟩ := hrec.gone
    obtain ⟨node, hfind⟩ := Option.ne_none_iff_exists'.1 hhas
    obtain ⟨hmem, rfl⟩ := hrec.booked.entry hash node hfind
    have hold : node ∈ ⟨s.disk.cache.nextId, ⟨k, size, path⟩⟩ :: s.disk.cache.others k := by
      rw [hsplit]
      exact List.mem_append_left _ hmem
    rcases List.mem_cons.1 hold with rfl | hothers
    · exact absurd rfl hne
    · rw [hbooked.node node (Cache.mem_others.1 hothers).1]
      exact Option.some_ne_none _

/-- An `Open` whose file is gone drops the entry it found. -/
theorem not_has_dropStale (hlisted : s.disk.cache.Lists fun k e => e.path = pathFor h.dir k) :
    ¬Has (s.setCache (s.disk.cache.dropStale hash (pathFor h.dir hash))) hash := by
  intro hhas
  apply hhas
  change (s.disk.cache.dropStale hash (pathFor h.dir hash)).index.find hash = none
  unfold Cache.dropStale
  split
  · assumption
  · rename_i elem hfind
    rw [if_pos (hlisted.index hash elem hfind)]
    exact (Table.find_erase _ _ _).trans (if_pos rfl)

/-- What a step of a call for the hash leads to. -/
structure Own (h : Handlers) (hash : Bytes) (s s' : State h) (count count' : Nat)
    (φ φ' : SourcePhase) : Prop where
  knows : Knows h hash s' count' φ'
  has : Has s' hash → count' = 1
  le_one : count' ≤ 1
  fetched : count' = 1 → Has s' hash ∨ (∃ n, φ' = .leading n .fetching) ∨
    (count = 1 ∧ ¬Has s hash ∧ ∀ n, φ ≠ .leading n .fetching)
  quiet : φ.lead = none → count' = count ∧ (Has s' hash → Has s hash)

/-- A step that neither downloads nor records. -/
theorem Own.plain {φ' : SourcePhase} (hknows : Knows h hash s' count φ')
    (hhas : Has s hash → count = 1) (hle : count ≤ 1) (hiff : Has s' hash ↔ Has s hash)
    (hphase : ∀ n, φ = .leading n .fetching → φ' = .leading n .fetching) :
    Own h hash s s' count count φ φ' where
  knows := hknows
  has := fun hnew => hhas (hiff.1 hnew)
  le_one := hle
  fetched := by
    intro hone
    by_cases hold : Has s hash
    · exact .inl (hiff.2 hold)
    · by_cases hfetching : ∃ n, φ = .leading n .fetching
      · obtain ⟨n, hφ⟩ := hfetching
        exact .inr (.inl ⟨n, hphase n hφ⟩)
      · exact .inr (.inr ⟨hone, hold, fun n hφ => hfetching ⟨n, hφ⟩⟩)
  quiet := fun _ => ⟨rfl, hiff.1⟩

/-- A step that changes neither the index nor the phase. -/
theorem Own.same (hknows : Knows h hash s count φ) (hhas : Has s hash → count = 1)
    (hle : count ≤ 1) (hindex : s'.disk.cache.index = s.disk.cache.index)
    (hgroup : s'.group = s.group) : Own h hash s s' count count φ φ := by
  have hiff : Has s' hash ↔ Has s hash := by
    unfold Has
    rw [hindex]
  refine .plain (hknows.frame hiff.2 ?_ fun _ => ⟨rfl, hiff.1⟩) hhas hle hiff fun _ hφ => hφ
  exact fun n hawaits => hawaits.of_group hgroup hiff.2

/-- An `Open` that finds an entry. -/
theorem Knows.found {path : Path} (hknows : Knows h hash s count φ) (hmay : φ.mayOpen)
    (hhas : Has s hash) (hpath : path = pathFor h.dir hash) :
    Knows h hash s count (φ.found path) := by
  cases φ with
  | start => exact ⟨hhas, hpath⟩
  | leading n stage =>
      cases stage with
      | entered => exact ⟨hhas, hpath⟩
      | _ => exact hmay.elim
  | resolved ok =>
      cases ok with
      | true => exact ⟨hhas, hpath⟩
      | false => exact hmay.elim
  | _ => exact hmay.elim

/-- One that finds none: then nobody has downloaded, if this call leads. -/
theorem Knows.notFound (hknows : Knows h hash s count φ) (hmay : φ.mayOpen)
    (hnot : ¬Has s hash) (hzero : φ.lead ≠ none → count = 0) :
    Knows h hash s count φ.notFound := by
  cases φ with
  | start => trivial
  | leading n stage =>
      cases stage with
      | entered => exact ⟨hzero nofun, hnot⟩
      | _ => exact hmay.elim
  | resolved ok =>
      cases ok with
      | true => exact absurd hknows.2 hnot
      | false => exact hmay.elim
  | _ => exact hmay.elim

theorem Knows.hasFound {path : Path} (hknows : Knows h hash s count φ) (hfound : φ.hasFound path) :
    Has s hash ∧ path = pathFor h.dir hash := by
  cases φ with
  | hit p =>
      obtain rfl : p = path := hfound
      exact hknows
  | leading n stage =>
      cases stage with
      | hit p =>
          obtain rfl : p = path := hfound
          exact hknows
      | _ => exact hfound.elim
  | reopened p =>
      obtain rfl : p = path := hfound
      exact hknows
  | _ => exact hfound.elim

theorem Knows.mayEnd {stage : FetchStage} (hknows : Knows h hash s count (.leading n stage))
    (hmay : SourcePhase.mayEnd stage) : Has s hash := by
  cases stage with
  | hit path => exact hknows.1
  | recorded => exact hknows
  | _ => exact hmay.elim

/-- One operation of a call for the hash. -/
theorem own_of_exec {o : Op} {e : Env} {r : Res o} {req : SourceRequest} (hreq : req.hash = hash)
    (hlisted : s.disk.cache.Lists fun k e => e.path = pathFor h.dir k) (hwf : h.miss.Wf s.group)
    (hknows : Knows h hash s count φ) (hhas : Has s hash → count = 1) (hle : count ≤ 1)
    (hled : φ.lead ≠ none → count = 1 → Has s hash ∨ ∃ n, φ = .leading n .fetching)
    (hok : φ.ok h req o) (he : exec h o e s = some (s', r))
    (hfails : ∀ n err, o ≠ .finish n (.error err)) (hkeep : Has s hash → Has s' hash)
    (hrecord : ∀ size path, o = .disk (.commit hash size path) → Has s' hash) :
    Own h hash s s' count (count + (downloading ⟨o, r⟩).toNat) φ (φ.after o r) := by
  subst hreq
  cases o with
  | index k =>
      obtain ⟨rfl, hmay⟩ := hok
      cases e with
      | quiet =>
          cases he
          have hiff : Has (s.setCache (s.disk.cache.lookup req.hash).1) req.hash ↔
              Has s req.hash := by
            change (s.disk.cache.lookup req.hash).1.index.find req.hash ≠ none ↔ _
            rw [Cache.lookup_index]
            rfl
          have hframe : ∀ {φ' : SourcePhase}, Knows h req.hash s count φ' →
              Knows h req.hash (s.setCache (s.disk.cache.lookup req.hash).1) count φ' :=
            fun hφ' => hφ'.frame hiff.2 (fun n => Awaits.of_group (s := s) rfl hiff.2)
              fun _ => ⟨rfl, hiff.1⟩
          -- in the phases in which an `Open` begins nothing is being fetched
          have hfetching : ∀ n (φ' : SourcePhase), φ = .leading n .fetching → φ' = φ := by
            rintro n φ' rfl
            exact hmay.elim
          cases hres : (s.disk.cache.lookup req.hash).2 with
          | some entry =>
              obtain ⟨path, size⟩ := entry
              obtain ⟨elem, hfind, rfl⟩ := Cache.lookup_eq_some hres
              have hfound : Has s req.hash := by
                unfold Has
                rw [hfind]
                exact Option.some_ne_none _
              refine .plain (hframe (hknows.found hmay hfound (hlisted.index _ elem hfind))) hhas hle
                hiff ?_
              intro n hφ
              exact (hfetching n _ hφ).trans hφ
          | none =>
              have hnot : ¬Has s req.hash := fun hnot => hnot (Cache.lookup_eq_none hres)
              refine .plain (hframe (hknows.notFound hmay hnot ?_)) hhas hle hiff ?_
              · intro hlead
                by_contra hzero
                have hone : count = 1 := by omega
                rcases hled hlead hone with hfound | ⟨n, rfl⟩
                · exact hnot hfound
                · exact hmay.elim
              · intro n hφ
                exact (hfetching n _ hφ).trans hφ
      | _ => cases he
  | dropStale k path =>
      -- the entry is there and would be dropped
      obtain ⟨rfl, hfound⟩ := hok
      obtain ⟨hthere, rfl⟩ := hknows.hasFound hfound
      cases e with
      | quiet =>
          cases he
          exact absurd (hkeep hthere) (not_has_dropStale hlisted)
      | _ => cases he
  | enter k =>
      obtain ⟨rfl, rfl⟩ := hok
      cases e with
      | quiet =>
          cases he
          refine .plain ?_ hhas hle Iff.rfl nofun
          cases hflight : h.miss.inFlight s.group req.hash with
          | none =>
              rw [h.miss.enter_lead _ _ hflight]
              trivial
          | some m =>
              rw [h.miss.enter_join _ _ m hflight]
              refine .inl ?_
              change h.miss.inFlight (h.miss.enter s.group req.hash).1 req.hash = some m
              rw [h.miss.inFlight_join _ _ m hflight, hflight]
      | _ => cases he
  | finish n v =>
      obtain ⟨stage, rfl, hmay⟩ := hok
      cases v with
      | error err => exact absurd rfl (hfails n err)
      | ok b =>
          cases e with
          | quiet =>
              cases he
              refine .plain ⟨rfl, hknows.mayEnd (hmay rfl)⟩ hhas hle Iff.rfl ?_
              intro m hφ
              cases hφ
              exact (hmay rfl).elim
          | _ => cases he
  | wait n =>
      obtain rfl : φ = .joined n := hok
      cases e with
      | quiet =>
          rcases Option.map_eq_some_iff.1 he with ⟨v, hresult, hEq⟩
          cases hEq
          rcases hknows with hflight | ⟨⟨b, hb⟩, hfound⟩
          · exact absurd hflight (hwf.landed n _ req.hash hresult)
          · cases hb.symm.trans hresult
            exact .plain ⟨rfl, hfound⟩ hhas hle Iff.rfl nofun
      | _ => cases he
  | download siaId =>
      obtain ⟨n, rfl⟩ := hok
      obtain ⟨rfl, hnot⟩ := hknows
      cases e with
      | download d =>
          cases he
          exact ⟨rfl, fun _ => rfl, Nat.le_refl 1, fun _ => .inr (.inl ⟨n, rfl⟩), nofun⟩
      | _ => cases he
  | disk o =>
      cases o with
      | commit k size path =>
          obtain ⟨rfl, -, n, rfl⟩ := hok
          obtain rfl : count = 1 := hknows
          have hnow := hrecord size path rfl
          exact ⟨hnow, fun _ => rfl, Nat.le_refl 1, fun _ => .inl hnow, nofun⟩
      | _ =>
          cases e with
          | disk e =>
              rcases Option.map_eq_some_iff.1 he with ⟨⟨d, r'⟩, hexec, hEq⟩
              cases hEq
              have hcache := cache_of_outcome (outcome_of_exec hexec) nofun
              exact .same hknows hhas hle (congrArg Cache.index hcache) rfl
          | _ => cases he
  | openFile path =>
      have hgroup : s'.group = s.group := group_of_exec he nofun nofun
      rcases cache_of_exec he with hcache | ⟨k, hEq, -⟩ | ⟨k, p, hEq, -⟩ | ⟨k, size, p, hEq, -⟩
      · exact .same hknows hhas hle (congrArg Cache.index hcache) hgroup
      · cases hEq
      · cases hEq
      · cases hEq
  | receive left =>
      obtain ⟨-, rfl⟩ := exec_receive he
      exact .same hknows hhas hle rfl rfl
  | _ => cases e <;> cases he <;> exact .same hknows hhas hle rfl rfl

end Steps

/-! ## Whole runs -/

section Runs

variable {h : Handlers} {maxBytes : Int} {found : FoundDisk} {tr : List (SourceTransition h)}
  {c c' : SourcePool h} {hash : Bytes}

/-- A fetch of the hash fails. -/
def FetchFails (hash : Bytes) (c : SourcePool h) (a : SourceStep) : Prop :=
  ∃ i e req n err k, a = .call i e ∧
    c.tasks i = some ⟨req, some (.call (.finish n (.error err)) k)⟩ ∧ req.hash = hash

def Records (hash : Bytes) (c : SourcePool h) (a : SourceStep) : Prop :=
  ∃ i e req size path k, a = .call i e ∧
    c.tasks i = some ⟨req, some (.call (.disk (.commit hash size path)) k)⟩

/-- The entry of the hash goes, or is evicted as soon as it is recorded. -/
def EntryLost (hash : Bytes) (st : SourceTransition h) : Prop :=
  (Has st.1.store hash ∨ Records hash st.1 st.2.1) ∧ ¬Has st.2.2.store hash

theorem downloads_cons (i : Nat) (req : SourceRequest) (call : Call Op Res)
    (log : List (Entry SourceRequest Op Res)) :
    downloads hash (⟨i, req, call⟩ :: log) =
      downloads hash log + (decide (req.hash = hash) && downloading call).toNat := by
  unfold downloads
  rw [List.countP_cons]
  cases decide (req.hash = hash) && downloading call <;> rfl

theorem SourceRun.reaches (hrun : SourceRun h maxBytes found tr c) :
    Reaches (sourceCode h) (exec h) (fun _ _ => True) (Pool.init (State.new h maxBytes found)) c :=
  ⟨tr, hrun, fun _ _ => trivial⟩

theorem SourceRun.conformsTo (hrun : SourceRun h maxBytes found tr c) :
    ConformsTo (sourcing h) SourceEnds c :=
  hrun.reaches.conformsTo (.init _ _ _) follows_sourceCode

theorem SourceRun.flights (hrun : SourceRun h maxBytes found tr c) :
    Flights (sourcing h) SourcePhase.lead SourceRequest.hash c :=
  flights_of_reaches hrun.reaches (flies_sourcing h) follows_sourceCode

theorem Counted.start (hash : Bytes) (maxBytes : Int) (found : FoundDisk) :
    Counted hash (Pool.init (State.new h maxBytes found) : SourcePool h) where
  booked := .new maxBytes
  listed := ⟨nofun, nofun⟩
  wf := .init h.miss
  le_one := Nat.zero_le 1
  has := fun hhas => absurd rfl hhas
  fetched := nofun
  knows := nofun

theorem wf_of_exec {s s' : State h} {o : Op} {e : Env} {r : Res o} (hwf : h.miss.Wf s.group)
    (hlt : ∀ n v, o = .finish n v → n < h.miss.started s.group)
    (he : exec h o e s = some (s', r)) : h.miss.Wf s'.group := by
  by_cases henter : ∃ k, o = .enter k
  · obtain ⟨k, rfl⟩ := henter
    cases e with
    | quiet =>
        cases he
        exact hwf.enter k
    | _ => cases he
  · by_cases hfinish : ∃ n v, o = .finish n v
    · obtain ⟨n, v, rfl⟩ := hfinish
      cases e with
      | quiet =>
          cases he
          exact hwf.finish v (hlt n v rfl)
      | _ => cases he
    · rw [group_of_exec he (fun k hEq => henter ⟨k, hEq⟩) fun n v hEq => hfinish ⟨n, v, hEq⟩]
      exact hwf

section Call

variable {i : Nat} {req : SourceRequest} {o : Op} {r : Res o} {e : Env} {s : State h}
  {k : Res o → Code (Except SourceError OpenSource)}

/-- What the others wait for. -/
theorem Counted.awaits (hc : Counted hash c)
    (hflights : Flights (sourcing h) SourcePhase.lead SourceRequest.hash c)
    (ht : c.tasks i = some ⟨req, some (.call o k)⟩)
    (hok : ((sourcing h).phaseOf i c.log).ok h req o) (he : exec h o e c.store = some (s, r))
    (hfails : req.hash = hash → ∀ n err, o ≠ .finish n (.error err))
    (hkeep : Has c.store hash → Has s hash) {n : Nat} (hawaits : Awaits h hash c.store n) :
    Awaits h hash s n := by
  by_cases henter : ∃ key, o = .enter key
  · obtain ⟨key, rfl⟩ := henter
    cases e with
    | quiet =>
        cases he
        exact hawaits.enter key
    | _ => cases he
  · by_cases hfinish : ∃ n v, o = .finish n v
    · obtain ⟨m, v, rfl⟩ := hfinish
      obtain ⟨stage, hphase, hmay⟩ := hok
      have hlead : h.miss.inFlight c.store.group req.hash = some m :=
        hflights.inFlight i _ m ht (by rw [hphase]; rfl)
      cases e with
      | quiet =>
          cases he
          refine hawaits.finish hc.wf hlead ?_
          intro hreq
          cases v with
          | error err => exact absurd rfl (hfails hreq m err)
          | ok b =>
              have hknows := hc.knows i _ ht hreq
              rw [hphase] at hknows
              exact ⟨⟨b, rfl⟩, hknows.mayEnd (hmay rfl)⟩
      | _ => cases he
    · refine hawaits.of_group ?_ hkeep
      exact group_of_exec he (fun k hEq => henter ⟨k, hEq⟩) fun n v hEq => hfinish ⟨n, v, hEq⟩

/-- A step of a call for another hash. -/
theorem Counted.other (hc : Counted hash c) (ht : c.tasks i = some ⟨req, some (.call o k)⟩)
    (hreq : req.hash ≠ hash) (hok : ((sourcing h).phaseOf i c.log).ok h req o)
    (he : exec h o e c.store = some (s, r)) (hwf : h.miss.Wf s.group)
    (hawaits : ∀ n, Awaits h hash c.store n → Awaits h hash s n)
    (hkeep : Has c.store hash → Has s hash) :
    Counted hash (⟨⟨s, ⟨i, req, ⟨o, r⟩⟩ :: c.log⟩,
      Function.update c.tasks i (some ⟨req, some (k r)⟩)⟩ : SourcePool h) := by
  obtain ⟨hbooked, hlisted⟩ := listed_of_exec hc.booked hc.listed hok he
  have hcount : downloads hash (⟨i, req, ⟨o, r⟩⟩ :: c.log) = downloads hash c.log := by
    rw [downloads_cons, decide_eq_false hreq]
    rfl
  have hback : Has s hash → Has c.store hash := by
    intro hhas
    refine has_of_exec hc.booked he hhas ?_
    rintro size path rfl
    exact hreq hok.1.symm
  -- the calls for the hash are other calls than this one
  have hphase : ∀ j t, Function.update c.tasks i (some ⟨req, some (k r)⟩) j = some t →
      t.request.hash = hash → c.tasks j = some t ∧
        (sourcing h).phaseOf j (⟨i, req, ⟨o, r⟩⟩ :: c.log) = (sourcing h).phaseOf j c.log := by
    intro j t hj hkey
    have hji : j ≠ i := by
      rintro rfl
      rw [Function.update_self] at hj
      cases hj
      exact hreq hkey
    rw [Function.update_of_ne hji] at hj
    exact ⟨hj, Typestate.phaseOf_cons_of_ne hji req _ c.log⟩
  refine ⟨hbooked, hlisted, hwf, ?_, ?_, ?_, ?_⟩
  · exact hcount.trans_le hc.le_one
  · intro hhas
    exact hcount.trans (hc.has (hback hhas))
  · intro hone
    rcases hc.fetched (hcount.symm.trans hone) with hhas | ⟨j, t, n, hj, hkey, hfetching⟩
    · exact .inl (hkeep hhas)
    · have hji : j ≠ i := by
        rintro rfl
        cases ht.symm.trans hj
        exact hreq hkey
      exact .inr ⟨j, t, n, (Function.update_of_ne hji _ _).trans hj, hkey,
        (Typestate.phaseOf_cons_of_ne hji req _ c.log).trans hfetching⟩
  · intro j t hj hkey
    obtain ⟨hold, hsame⟩ := hphase j t hj hkey
    change Knows h hash s (downloads hash (⟨i, req, ⟨o, r⟩⟩ :: c.log))
      ((sourcing h).phaseOf j (⟨i, req, ⟨o, r⟩⟩ :: c.log))
    rw [hsame]
    exact (hc.knows j t hold hkey).frame hkeep hawaits fun _ => ⟨hcount, hback⟩

/-- A step of a call for the hash. -/
theorem Counted.own (hc : Counted hash c)
    (hflights : Flights (sourcing h) SourcePhase.lead SourceRequest.hash c)
    (ht : c.tasks i = some ⟨req, some (.call o k)⟩) (hreq : req.hash = hash)
    (hok : ((sourcing h).phaseOf i c.log).ok h req o) (he : exec h o e c.store = some (s, r))
    (hwf : h.miss.Wf s.group) (hawaits : ∀ n, Awaits h hash c.store n → Awaits h hash s n)
    (hfails : ∀ n err, o ≠ .finish n (.error err)) (hkeep : Has c.store hash → Has s hash)
    (hrecord : ∀ size path, o = .disk (.commit hash size path) → Has s hash) :
    Counted hash (⟨⟨s, ⟨i, req, ⟨o, r⟩⟩ :: c.log⟩,
      Function.update c.tasks i (some ⟨req, some (k r)⟩)⟩ : SourcePool h) := by
  obtain ⟨hbooked, hlisted⟩ := listed_of_exec hc.booked hc.listed hok he
  have hcount : downloads hash (⟨i, req, ⟨o, r⟩⟩ :: c.log) =
      downloads hash c.log + (downloading ⟨o, r⟩).toNat := by
    rw [downloads_cons, decide_eq_true hreq, Bool.true_and]
  -- nobody else leads the hash while this call does
  have hunique : ∀ j t n, j ≠ i → c.tasks j = some t → t.request.hash = hash →
      ((sourcing h).phaseOf j c.log).lead = some n → ((sourcing h).phaseOf i c.log).lead = none := by
    intro j t n hji hj hkey hlead
    by_contra hne
    obtain ⟨m, hm⟩ := Option.ne_none_iff_exists'.1 hne
    exact hji (hflights.unique hj ht (hkey.trans hreq.symm) hlead hm)
  have hown : Own h hash c.store s (downloads hash c.log)
      (downloads hash c.log + (downloading ⟨o, r⟩).toNat) ((sourcing h).phaseOf i c.log)
      (((sourcing h).phaseOf i c.log).after o r) := by
    refine own_of_exec hreq hc.listed hc.wf (hc.knows i _ ht hreq) hc.has hc.le_one ?_ hok he hfails
      hkeep hrecord
    intro hlead hone
    refine (hc.fetched hone).imp_right ?_
    rintro ⟨j, t, n, hj, hkey, hfetching⟩
    by_cases hji : j = i
    · subst hji
      exact ⟨n, hfetching⟩
    · exact absurd (hunique j t n hji hj hkey (by rw [hfetching]; rfl)) hlead
  have hself : (sourcing h).phaseOf i (⟨i, req, ⟨o, r⟩⟩ :: c.log) =
      ((sourcing h).phaseOf i c.log).after o r := Typestate.phaseOf_cons_self i req o r c.log
  refine ⟨hbooked, hlisted, hwf, hcount.trans_le hown.le_one, ?_, ?_, ?_⟩
  · intro hhas
    exact hcount.trans (hown.has hhas)
  · intro hone
    rcases hown.fetched (hcount.symm.trans hone) with hhas | ⟨n, hfetching⟩ | ⟨hold, hnot, hne⟩
    · exact .inl hhas
    · exact .inr ⟨i, _, n, Function.update_self _ _ _, hreq, hself.trans hfetching⟩
    · rcases hc.fetched hold with hhas | ⟨j, t, n, hj, hkey, hfetching⟩
      · exact absurd hhas hnot
      · have hji : j ≠ i := by
          rintro rfl
          exact hne n hfetching
        exact .inr ⟨j, t, n, (Function.update_of_ne hji _ _).trans hj, hkey,
          (Typestate.phaseOf_cons_of_ne hji req _ c.log).trans hfetching⟩
  · intro j t hj hkey
    change Knows h hash s (downloads hash (⟨i, req, ⟨o, r⟩⟩ :: c.log))
      ((sourcing h).phaseOf j (⟨i, req, ⟨o, r⟩⟩ :: c.log))
    rw [hcount]
    by_cases hji : j = i
    · subst hji
      rw [hself]
      exact hown.knows
    · have hj' : c.tasks j = some t := by simpa [hji] using hj
      rw [Typestate.phaseOf_cons_of_ne hji]
      refine (hc.knows j t hj' hkey).frame hkeep hawaits ?_
      intro hlead
      obtain ⟨n, hn⟩ := Option.ne_none_iff_exists'.1 hlead
      exact hown.quiet (hunique j t n hji hj' hkey hn)

end Call

/-- A task that is started or dropped. -/
theorem Counted.setTask (hc : Counted hash c) {i : Nat}
    {t : Task SourceRequest Op Res (Except SourceError OpenSource)}
    (hold : ∀ t', c.tasks i = some t' → t'.request = t.request)
    (hnew : c.tasks i = none → (sourcing h).phaseOf i c.log = .start) :
    Counted hash (c.setTask i t) := by
  refine { hc with fetched := ?_, knows := ?_ }
  · intro hone
    refine (hc.fetched hone).imp_right ?_
    rintro ⟨j, t', n, hj, hkey, hfetching⟩
    by_cases hji : j = i
    · subst hji
      exact ⟨j, t, n, Function.update_self _ _ _, by rw [← hold t' hj, hkey], hfetching⟩
    · exact ⟨j, t', n, (Function.update_of_ne hji _ _).trans hj, hkey, hfetching⟩
  · intro j t' hj hkey
    change Function.update c.tasks i (some t) j = some t' at hj
    by_cases hji : j = i
    · subst hji
      rw [Function.update_self] at hj
      cases hj
      cases htask : c.tasks j with
      | some t' => exact hc.knows j t' htask (by rw [hold t' htask, hkey])
      | none =>
          change Knows h hash c.store _ ((sourcing h).phaseOf j c.log)
          rw [hnew htask]
          trivial
    · rw [Function.update_of_ne hji] at hj
      exact hc.knows j t' hj hkey

theorem counted_of_run (hrun : SourceRun h maxBytes found tr c)
    (hfetch : ∀ st ∈ tr, ¬FetchFails hash st.1 st.2.1) (hkept : ∀ st ∈ tr, ¬EntryLost hash st) :
    Counted hash c := by
  induction hrun with
  | nil => exact .start hash maxBytes found
  | @snoc tr c₁ c₂ a hrun hstep ih =>
      have hc := ih (fun st hst => hfetch st (List.mem_append_left _ hst))
        fun st hst => hkept st (List.mem_append_left _ hst)
      have hfails : ¬FetchFails hash c₁ a := hfetch _ (List.mem_append_right _ List.mem_cons_self)
      have hlost : ¬EntryLost hash (c₁, a, c₂) :=
        hkept _ (List.mem_append_right _ List.mem_cons_self)
      have hflights := SourceRun.flights hrun
      rcases Pool.step_cases hstep with ⟨i, req, rfl, ht, rfl⟩ |
        ⟨i, e, req, o, k, s, r, rfl, ht, he, rfl⟩ | ⟨i, req, p, rfl, ht, rfl⟩
      -- A request that arrives starts no download.
      · refine hc.setTask ?_ ?_
        · intro t' ht'
          rw [ht] at ht'
          cases ht'
        · intro _
          exact Typestate.phaseOf_eq_start ((SourceRun.conformsTo hrun).unused i ht)
      · have hok := ((SourceRun.conformsTo hrun).follows i req _ ht).1
        -- The run loses no entry and fails no download, so neither does this step.
        have hkeep : Has c₁.store hash → Has s hash := by
          intro hhas
          by_contra hnot
          exact hlost ⟨.inl hhas, hnot⟩
        have hown : req.hash = hash → ∀ n err, o ≠ .finish n (.error err) := by
          rintro hreq n err rfl
          exact hfails ⟨i, e, req, n, err, k, rfl, ht, hreq⟩
        have hwf : h.miss.Wf s.group := by
          refine wf_of_exec hc.wf ?_ he
          rintro n v rfl
          obtain ⟨stage, hphase, -⟩ := hok
          refine hflights.lt i n ?_
          rw [hphase]
          rfl
        have hawaits := fun n => hc.awaits hflights ht hok he hown hkeep (n := n)
        -- Only tasks of the same hash count its downloads.
        by_cases hreq : req.hash = hash
        · refine hc.own hflights ht hreq hok he hwf hawaits (hown hreq) hkeep ?_
          rintro size path rfl
          by_contra hnot
          exact hlost ⟨.inr ⟨i, e, req, size, path, k, rfl, ht⟩, hnot⟩
        · exact hc.other ht hreq hok he hwf hawaits hkeep
      · refine hc.setTask ?_ ?_
        · intro t' ht'
          rw [ht] at ht'
          cases ht'
          rfl
        · intro hnone
          rw [ht] at hnone
          cases hnone

/-- The object of a hash is downloaded at most once, and once when a call for it has returned. -/
theorem downloaded_once (hrun : SourceRun h maxBytes found tr c)
    (hfetch : ∀ st ∈ tr, ¬FetchFails hash st.1 st.2.1) (hkept : ∀ st ∈ tr, ¬EntryLost hash st) :
    downloads hash c.log ≤ 1 ∧
      ∀ i req res, c.tasks i = some ⟨req, some (.done res)⟩ → req.hash = hash →
        downloads hash c.log = 1 := by
  have hc := counted_of_run hrun hfetch hkept
  refine ⟨hc.le_one, ?_⟩
  intro i req res ht hreq
  have hknows := hc.knows i _ ht hreq
  have hends := hrun.conformsTo.follows i req _ ht
  cases res with
  | ok src =>
      obtain ⟨path, hphase | hphase⟩ := hends
      · rw [hphase] at hknows
        exact hc.has hknows.1
      · rw [hphase] at hknows
        exact hc.has hknows.1
  | error err =>
      -- the call cannot have failed
      rcases hends with hphase | hphase
      · rw [hphase] at hknows
        cases hknows.1
      · rw [hphase] at hknows
        exact hknows.elim

end Runs

section Samples

variable {h : Handlers} {hash : Bytes}

/-- No fetch fails in the step, and the entry of the hash is there after it if it was there before,
or was recorded. -/
def onceCheck (hash : Bytes) (c : SourcePool h) (a : SourceStep) : Bool :=
  let has (s : State h) : Bool := (s.disk.cache.index.find hash).isSome
  let fetched : Bool :=
    match a with
    | .call i _ =>
        match c.tasks i with
        | some ⟨_, some (.call (.finish _ (.error _)) _)⟩ => false
        | _ => true
    | _ => true
  let records : Bool :=
    match a with
    | .call i _ =>
        match c.tasks i with
        | some ⟨_, some (.call (.disk (.commit _ _ _)) _)⟩ => true
        | _ => false
    | _ => false
  match c.step (sourceCode h) (exec h) a with
  | some c' => fetched && (has c'.store || (!has c.store && !records))
  | none => true

/-- The step is one of those that `downloaded_once` is about. -/
def Undisturbed (hash : Bytes) (c : SourcePool h) (a : SourceStep) : Prop :=
  ∀ c', c.step (sourceCode h) (exec h) a = some c' →
    ¬FetchFails hash c a ∧ ¬EntryLost hash (c, a, c')

theorem undisturbed_of_check (c : SourcePool h) (a : SourceStep)
    (hcheck : onceCheck hash c a = true) : Undisturbed hash c a := by
  intro c' hstep
  simp only [onceCheck, hstep, Bool.and_eq_true, Bool.or_eq_true, Bool.not_eq_true'] at hcheck
  obtain ⟨hfetched, hkept⟩ := hcheck
  refine ⟨?_, ?_⟩
  · rintro ⟨i, e, req, n, err, k, rfl, ht, -⟩
    simp [ht] at hfetched
  · rintro ⟨hbefore, hafter⟩
    have hnone : c'.store.disk.cache.index.find hash = none := not_ne_iff.1 hafter
    rcases hkept with hsome | ⟨hnot, hrecords⟩
    · simp [hnone] at hsome
    · rcases hbefore with hhas | ⟨i, e, req, size, path, k, rfl, ht⟩
      · refine hhas ?_
        cases hfind : c.store.disk.cache.index.find hash with
        | none => rfl
        | some elem => simp [hfind] at hnot
      · change c.tasks i = _ at ht
        simp [ht] at hrecords

end Samples

/-- The calls 0 and 1 overlap; call 2 misses before call 0 has written the xorb, and leads after it
has. -/
def threeCalls : List SourceStep :=
  let req : SourceRequest := ⟨sampleHash, Hash.fill 2, 3⟩
  let steps (i : Nat) (envs : List Env) : List SourceStep := envs.map (.call i)
  [.spawn 0 req, .spawn 1 req, .spawn 2 req] ++ steps 0 [.quiet, .quiet] ++
    steps 1 [.quiet, .quiet] ++ steps 2 [.quiet] ++
    steps 0 ([.quiet, .download ⟨[[1, 2, 3]], none⟩] ++
      [.ok, .ok, .ok, .ok, .ok, .ok, .ok, .evict []].map .disk ++
      [.quiet, .quiet, .elapsed 40, .quiet, .quiet]) ++
    steps 1 [.quiet, .elapsed 40, .quiet, .quiet] ++
    steps 2 [.quiet, .quiet, .quiet, .quiet, .elapsed 1, .quiet, .quiet]

/-- Call 0 has ended, and asked for the sample. -/
def sampleReturned (c : SourcePool sampleHandlers) : Bool :=
  match c.tasks 0 with
  | some ⟨req, some (.done _)⟩ => decide (req.hash = sampleHash)
  | _ => false

theorem downloaded_once_threeCalls :
    ∃ tr c, SourceRun sampleHandlers 0 emptyDisk tr c ∧ c.Finished ∧
      downloads sampleHash c.log = 1 := by
  have heval : ((Pool.init (State.new sampleHandlers 0 emptyDisk)).runChecked
      (sourceCode sampleHandlers) (exec sampleHandlers) (onceCheck sampleHash) threeCalls).map
      (fun c => c.allEnded 3 && sampleReturned c) = some true := by
    decide +kernel
  obtain ⟨tr, c, hrun, hall, hfinished, hP⟩ :=
    exists_finished_path heval (fun _ => rfl) (by decide +kernel) undisturbed_of_check
  have hsteps := fun st hst => hall st hst _ (hrun.step_eq st hst)
  obtain ⟨-, hreturned⟩ := downloaded_once hrun (fun st hst => (hsteps st hst).1)
    fun st hst => (hsteps st hst).2
  refine ⟨tr, c, hrun, hfinished, ?_⟩
  unfold sampleReturned at hP
  split at hP
  · rename_i req res ht
    exact hreturned 0 req res ht (of_decide_eq_true hP)
  · cases hP

end Serving

end Gateway
end OpenWeights
