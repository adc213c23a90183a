import OpenWeights.Gateway.Writers

/-!
# Integrity — what a write leaves behind

A file that `Open` returns was renamed into place by a writer that had counted and hashed the bytes
it wrote.  A write that fails has not renamed anything: each of its steps leaves the index, the
order of use, the byte count and the published files as they were, and its temporary file is gone
by the time it gives its key back.
-/

namespace OpenWeights
namespace Gateway

open Lib Db OpenWeights.Core

namespace Serving

variable {h : Handlers} {req : CacheRequest} {maxBytes : Int} {found : FoundDisk}
  {tr : List (CacheTransition h)} {c c' : CachePool h}

/-! ## A write that fails publishes nothing -/

/-- Index, order of use, byte count and published files are the same. -/
structure Unchanged (h : Handlers) (d d' : Store) : Prop where
  cache_eq : d'.cache = d.cache
  finals : SameFinals h d.fs d'.fs

/-- A call that has published something does not get back to where it had not. -/
theorem published_after {φ : WritePhase} {o : Op} {r : Res o} (hok : φ.ok h req o)
    (hpub : φ.published = true ∨ publishes ⟨o, r⟩ = true) : (φ.after o r).published = true := by
  cases o with
  | enter hash =>
      obtain ⟨rfl, -⟩ := hok
      rcases hpub with hpub | hpub <;> cases hpub
  | finish n v =>
      obtain ⟨stage, rfl, hends⟩ := hok
      -- a call that ends with an error is in none of the stages after the rename
      have herror : ∀ e, v = .error e → stage = .clean ∨ stage = .entered := by
        rintro e rfl
        cases e with
        | put e => exact hends.imp_right And.left
        | siaDownload e => exact hends
        | openAfterFetch => exact hends
      cases v with
      | ok hash => rfl
      | error e =>
          rcases herror e rfl with rfl | rfl
          · rcases hpub with hpub | hpub <;> cases hpub
          · rcases hpub with hpub | hpub <;> cases hpub
  | disk o =>
      cases o with
      | remove p =>
          obtain ⟨-, n, stage, rfl, hrenamed, hrecorded⟩ := hok
          rcases hpub with hpub | hpub
          · cases stage <;> simp_all [WritePhase.published]
          · cases hpub
      | create p =>
          obtain ⟨-, n, rfl⟩ := hok
          rcases hpub with hpub | hpub <;> cases hpub
      | rename old new =>
          obtain ⟨-, -, n, rfl⟩ := hok
          cases r with
          | ok u => rfl
          | error e => rcases hpub with hpub | hpub <;> cases hpub
      | commit hash size path =>
          obtain ⟨-, -, -, n, rfl⟩ := hok
          rfl
      | _ => exact hpub.resolve_right nofun
  | _ => exact hpub.resolve_right nofun

/-- The log of a run knows who has published. -/
theorem published_of_log (hrun : CacheRun h maxBytes found tr c) :
    ∀ e ∈ c.log, publishes e.call = true →
      ((writing h).phaseOf e.task c.log).published = true := by
  induction hrun with
  | nil => simp [Pool.init]
  | @snoc tr c₁ c₂ a hrun hstep ih =>
      rcases Pool.step_cases hstep with ⟨i, req, rfl, -, rfl⟩ |
        ⟨i, env, req, o, k, s, r, rfl, ht, -, rfl⟩ | ⟨i, req, p, rfl, -, rfl⟩
      · exact ih
      · have hok := (CacheRun.pre hrun ht).2
        intro e he hpub
        by_cases hei : e.task = i
        · rw [hei, Typestate.phaseOf_cons_self]
          refine published_after hok ?_
          rcases List.mem_cons.1 he with rfl | hold
          · exact .inr hpub
          · exact .inl (hei ▸ ih e hold hpub)
        · rw [Typestate.phaseOf_cons_of_ne hei]
          rcases List.mem_cons.1 he with rfl | hold
          · exact absurd rfl hei
          · exact ih e hold hpub
      · exact ih

/-- Every step of a write that fails. -/
theorem unchanged_of_failed (hrun : CacheRun h maxBytes found tr c) {i : Nat} {size : Int}
    {e : SourceError} (hsize : req.size = some size)
    (ht : c.tasks i = some ⟨req, some (.done (.written (.error e)))⟩) :
    ∀ st ∈ tr, ∀ env, st.2.1 = .call i env →
      Unchanged h st.1.store.disk st.2.2.store.disk := by
  rintro ⟨c₁, a, c₂⟩ hst env rfl
  obtain ⟨tr₁, hrun₁, -⟩ : Reaches (callCode h) (exec h) (fun _ _ => True) _ c₁ :=
    hrun.source_reaches (fun _ _ => trivial) _ hst
  have hstep : c₁.step (callCode h) (exec h) (.call i env) = some c₂ := hrun.step_eq _ hst
  rcases Pool.step_cases hstep with ⟨j, req', hact, -⟩ |
    ⟨j, env', req', o, k, s, r, hact, ht', he, rfl⟩ | ⟨j, req', p, hact, -⟩
  · cases hact
  · cases hact
    obtain ⟨hpre, hok⟩ := CacheRun.pre hrun₁ ht'
    obtain rfl : req' = req := by
      obtain ⟨t, hi, hreq⟩ := hrun.exists_task _ hst i _ (Function.update_self _ _ _)
      cases ht.symm.trans hi
      exact hreq.symm
    -- a call that ended with an error has not published
    have hnot : publishes ⟨o, r⟩ = false := by
      by_contra hpub
      have hlogged := published_of_log hrun _ (hrun.mem_log _ hst _ List.mem_cons_self)
        (by simpa using hpub)
      have hends := (hrun.conformsTo.follows i req' _ ht).2 e rfl
      rw [hends] at hlogged
      cases hlogged
    have hdoes := does_of_exec (CacheRun.secure hrun₁).1 hpre hok he
    cases hdoes with
    | quiet hcache _ hfinals _ => exact ⟨hcache, hfinals⟩
    | index hnone _ =>
        rw [hsize] at hnone
        cases hnone
    | dropStale hnone _ =>
        rw [hsize] at hnone
        cases hnone
    | rename _ _ _ _ => cases hnot
    | commit _ _ => cases hnot
  · cases hact

/-! ## Its temporary file is gone -/

/-- A temporary file that is there cannot be removed. -/
def KeepsTmp (c : CachePool h) (a : CacheStep) : Prop :=
  ∃ i req p k e, a = .call i (.disk (.fault e)) ∧
    c.tasks i = some ⟨req, some (.call (.disk (.remove p)) k)⟩ ∧
    c.store.disk.fs.names.find p ≠ none

abbrev draft (c : CachePool h) (hash : Bytes) : Option Nat :=
  c.store.disk.fs.names.find (h.tmp hash)

/-- The stages in which a writer has no temporary file. -/
def Stage.bare : Stage → Bool
  | .clean => true
  | .renamed => true
  | .recorded => true
  | _ => false

/-- Where the temporary files are: a writer that has none left has none, and where nobody writes
there is at most the one of an earlier process. -/
structure Tidy (found : FoundDisk) (c : CachePool h) : Prop where
  bare : ∀ i t n stage, c.tasks i = some t → (writing h).phaseOf i c.log = .leading n stage →
    stage.bare = true → draft c t.request.key = none
  unled : ∀ hash, HexHash hash →
    (∀ i t n stage, c.tasks i = some t → t.request.key = hash →
      (writing h).phaseOf i c.log = .leading n stage → stage = .entered) →
    draft c hash = none ∨ draft c hash = found.fs.names.find (h.tmp hash)

/-- What an operation of a call does to the temporary files, as its stage changes. -/
structure Drafted (h : Handlers) (key : Bytes) (fs fs' : FileSystem Path)
    (stage stage' : Option Stage) : Prop where
  others : ∀ hash, HexHash hash → hash ≠ key →
    fs'.names.find (h.tmp hash) = fs.names.find (h.tmp hash)
  idle : stage = none → fs'.names.find (h.tmp key) = fs.names.find (h.tmp key)
  bare : ∀ st, stage' = some st → st.bare = true → fs'.names.find (h.tmp key) = none ∨
    (fs'.names.find (h.tmp key) = fs.names.find (h.tmp key) ∧
      ∃ st₀, stage = some st₀ ∧ st₀.bare = true)
  settled : stage' = none ∨ stage' = some .entered →
    fs'.names.find (h.tmp key) = fs.names.find (h.tmp key) ∧
      (stage = none ∨ stage = some .entered ∨ ∃ st₀, stage = some st₀ ∧ st₀.bare = true)

section Step

variable {key : Bytes} {fs fs' : FileSystem Path} {stage stage' : Option Stage}

/-- An operation that is not about temporary files. -/
theorem Drafted.of_names
    (hnames : ∀ hash, HexHash hash → fs'.names.find (h.tmp hash) = fs.names.find (h.tmp hash))
    (hkey : HexHash key)
    (hbare : ∀ st, stage' = some st → st.bare = true → ∃ st₀, stage = some st₀ ∧ st₀.bare = true)
    (hsettled : stage' = none ∨ stage' = some .entered →
      stage = none ∨ stage = some .entered ∨ ∃ st₀, stage = some st₀ ∧ st₀.bare = true) :
    Drafted h key fs fs' stage stage' where
  others := fun hash hhex _ => hnames hash hhex
  idle := fun _ => hnames key hkey
  bare := fun st hst hb => .inr ⟨hnames key hkey, hbare st hst hb⟩
  settled := fun hst => ⟨hnames key hkey, hsettled hst⟩

theorem Drafted.same
    (hnames : ∀ hash, HexHash hash → fs'.names.find (h.tmp hash) = fs.names.find (h.tmp hash))
    (hkey : HexHash key) : Drafted h key fs fs' stage stage := by
  refine .of_names hnames hkey (fun st hst hb => ⟨st, hst, hb⟩) ?_
  rintro (hst | hst)
  · exact .inl hst
  · exact .inr (.inl hst)

/-- An operation of a writer on its own temporary file. -/
theorem Drafted.own {p : Path} {st : Stage} (hkey : HexHash key)
    (hnames : ∀ q, q ≠ p → q ≠ h.final key → fs'.names.find q = fs.names.find q)
    (hp : p = h.tmp key) (hled : stage ≠ none) (hentered : st ≠ .entered)
    (hnone : st.bare = true → fs'.names.find p = none) :
    Drafted h key fs fs' stage (some st) := by
  subst hp
  refine ⟨?_, fun hnot => absurd hnot hled, ?_, ?_⟩
  · intro hash hhex hne
    refine hnames _ ?_ (tmp_ne_final hhex hkey)
    exact fun hEq => hne (tmp_inj hhex hkey hEq)
  · intro st' hst hb
    cases hst
    exact .inl (hnone hb)
  · rintro (hst | hst)
    · cases hst
    · exact absurd (Option.some.inj hst) hentered

theorem find_remove {d d' : Store} {p : Path} {e : Gateway.Env}
    {r : Except IoError Unit} (he : Gateway.exec (.remove p) e d = some (d', r))
    (hkeep : ∀ err, e = .fault err → d.fs.names.find p = none) :
    d'.fs.names.find p = none ∧
      ∀ q, q ≠ p → d'.fs.names.find q = d.fs.names.find q := by
  cases e with
  | ok =>
      have hd : (d.update (d.fs.remove p) (lit "no such file or directory")).1 = d' :=
        congrArg Prod.fst (Option.some.inj he)
      cases hfind : d.fs.names.find p with
      | none =>
          rw [FileSystem.remove, hfind] at hd
          obtain rfl : d = d' := hd
          exact ⟨hfind, fun _ _ => rfl⟩
      | some n =>
          rw [FileSystem.remove, hfind] at hd
          obtain rfl : { d with fs := d.fs.unlink p } = d' := hd
          refine ⟨?_, ?_⟩
          · exact (FileSystem.find_unlink d.fs p p).trans (if_pos rfl)
          · intro q hq
            exact (FileSystem.find_unlink d.fs p q).trans (if_neg hq)
  | fault err =>
      cases he
      exact ⟨hkeep err rfl, fun _ _ => rfl⟩
  | _ => cases he

variable {i : Nat} {w : View h CacheRequest} {φ : WritePhase}

theorem drafted_disk {o : Gateway.Op} {e : Gateway.Env} {d : Store} {r : Gateway.Res o}
    (hinv : Inv (Verified h) w) (hok : φ.ok h req (.disk o))
    (he : Gateway.exec o e w.store.disk = some (d, r))
    (hkeep : ∀ p err, o = .remove p → e = .fault err → (files w).names.find p = none) :
    Drafted h req.key (files w) d.fs φ.stage (φ.after (.disk o) r).stage := by
  have hout := outcome_of_exec he
  cases o with
  | mkdirAll dir =>
      obtain rfl := hout
      exact .same (fun _ _ => rfl) req.hex
  | remove p =>
      obtain ⟨rfl, n, stage, rfl, -, -⟩ := hok
      obtain ⟨hnone, hothers⟩ := find_remove he fun err => hkeep _ err rfl
      exact .own req.hex (fun q hq _ => hothers q hq) rfl nofun nofun fun _ => hnone
  | create p =>
      obtain ⟨rfl, n, rfl⟩ := hok
      rcases hout with ⟨rfl, err, rfl⟩ | ⟨rfl, rfl⟩
      · exact .same (fun _ _ => rfl) req.hex
      · have hframe := FileSystem.frame_create (files w) (h.tmp req.key)
        exact .own req.hex (fun q hq _ => hframe.find_eq q hq) rfl nofun nofun nofun
  | write fd bytes =>
      rcases hout with rfl | ⟨bytes', fs, hwrite, rfl⟩
      · exact .same (fun _ _ => rfl) req.hex
      · obtain ⟨f, hfile⟩ := FileSystem.exists_file_of_write hwrite
        have hframe := FileSystem.frame_write hwrite hfile
        exact .same (fun hash _ => hframe.find_eq _ nofun) req.hex
  | sync fd =>
      obtain rfl := hout
      exact .same (fun _ _ => rfl) req.hex
  | close fd =>
      rcases hout with rfl | ⟨fs, hclose, rfl⟩
      · exact .same (fun _ _ => rfl) req.hex
      · exact .same (fun hash _ => (FileSystem.frame_close hclose).find_eq _ nofun) req.hex
  | rename old new =>
      obtain ⟨rfl, rfl, n, rfl⟩ := hok
      rcases hout with ⟨rfl, err, rfl⟩ | ⟨fs, hrename, rfl, rfl⟩
      · exact .same (fun _ _ => rfl) req.hex
      · have hframe := FileSystem.frame_rename hrename
        obtain ⟨m, -, hnames, -⟩ := FileSystem.rename_eq_some hrename
        refine .own req.hex ?_ rfl nofun nofun ?_
        · intro q hold hnew
          exact hframe.find_eq q fun hmem => hmem.elim hold hnew
        · intro _
          rw [hnames, Table.find_set_of_ne _ _ (tmp_ne_final req.hex req.hex), Table.find_erase,
            if_pos rfl]
  | commit hash size path =>
      obtain ⟨kept, rfl⟩ := hout
      obtain ⟨rfl, rfl, -, n, rfl⟩ := hok
      -- only published files are evicted
      have hlists : (w.store.disk.cache.record req.key size (h.final req.key)).Lists
          (fun hash e => HexHash hash ∧ e.path = h.final hash) := by
        refine Cache.Lists.record ?_ ⟨req.hex, rfl⟩
        exact hinv.listed.mono fun _ _ hlist => ⟨hlist.1, hlist.2.1⟩
      refine .of_names ?_ req.hex ?_ ?_
      · intro hash hhex
        refine (Store.find_unlinkAll _ _ _).trans (if_neg ?_)
        intro hmem
        obtain ⟨hash', entry, hlist, hpath⟩ :=
          hlists.evictLocked.2 _ (List.mem_of_mem_filter hmem)
        exact tmp_ne_final hhex hlist.1 (hpath.symm.trans hlist.2)
      · intro st _ _
        exact ⟨.renamed, rfl, rfl⟩
      · rintro (hst | hst) <;> cases hst

theorem drafted_of_exec {o : Op} {e : Env} {s : State h} {r : Res o}
    (hinv : Inv (Verified h) w) (hok : φ.ok h req o)
    (he : exec h o e w.store = some (s, r))
    (hkeep : ∀ p err, o = .disk (.remove p) → e = .disk (.fault err) →
      (files w).names.find p = none) :
    Drafted h req.key (files w) s.disk.fs φ.stage (φ.after o r).stage := by
  cases o with
  | openFile path =>
      cases e with
      | quiet =>
          have hEq : w.store.openFile path = (s, r) := Option.some.inj he
          unfold State.openFile at hEq
          split at hEq
          · rename_i fs fd hopen
            cases hEq
            exact .same (fun hash _ => (FileSystem.frame_openRead hopen).find_eq _ nofun) req.hex
          · cases hEq
            exact .same (fun _ _ => rfl) req.hex
      | fault e =>
          cases he
          exact .same (fun _ _ => rfl) req.hex
      | _ => cases he
  | disk o =>
      cases e with
      | disk e =>
          rcases Option.map_eq_some_iff.1 he with ⟨⟨d, r'⟩, hexec, hEq⟩
          cases hEq
          refine drafted_disk hinv hok hexec ?_
          rintro p err rfl rfl
          exact hkeep p err rfl rfl
      | _ => cases he
  | enter hash =>
      obtain ⟨rfl, -⟩ := hok
      cases e with
      | quiet =>
          cases he
          refine .of_names (fun _ _ => rfl) req.hex ?_ fun _ => .inl rfl
          intro st hst hb
          -- whoever has just entered is not yet clean
          cases hrole : (h.miss.enter w.store.group hash).2 with
          | lead n =>
              rw [hrole] at hst
              cases hst
              cases hb
          | join n =>
              rw [hrole] at hst
              cases hst
      | _ => cases he
  | finish n v =>
      obtain ⟨stage, rfl, hends⟩ := hok
      cases e with
      | quiet =>
          cases he
          refine .of_names (fun _ _ => rfl) req.hex nofun fun _ => .inr ?_
          cases stage with
          | entered => exact .inl rfl
          | clean => exact .inr ⟨_, rfl, rfl⟩
          | renamed => exact .inr ⟨_, rfl, rfl⟩
          | recorded => exact .inr ⟨_, rfl, rfl⟩
          | drafting =>
              -- a call does not end with its file half written
              cases v with
              | ok hash => cases hends
              | error e =>
                  cases e with
                  | put e => rcases hends with hEq | ⟨hEq, -⟩ <;> cases hEq
                  | siaDownload e => rcases hends with hEq | hEq <;> cases hEq
                  | openAfterFetch => rcases hends with hEq | hEq <;> cases hEq
      | _ => cases he
  | wait n =>
      cases e with
      | quiet =>
          rcases Option.map_eq_some_iff.1 he with ⟨v, -, hEq⟩
          cases hEq
          exact .same (fun _ _ => rfl) req.hex
      | _ => cases he
  | receive left =>
      obtain ⟨-, rfl⟩ := exec_receive he
      exact .same (fun _ _ => rfl) req.hex
  | _ => cases e <;> cases he <;> exact .same (fun _ _ => rfl) req.hex

end Step

/-! ## Whole runs -/

theorem Tidy.start (maxBytes : Int) (found : FoundDisk) :
    Tidy found (Pool.init (State.new h maxBytes found) : CachePool h) :=
  ⟨nofun, fun _ _ _ => .inr rfl⟩

/-- An operation of call `i`. -/
theorem Tidy.move {i : Nat} {p p' : Option (Code CacheAnswer)} {o : Op} {r : Res o} {s : State h}
    (htidy : Tidy found c) (hflights : Flights (writing h) WritePhase.lead CacheRequest.key c)
    (ht : c.tasks i = some ⟨req, p⟩)
    (hdraft : Drafted h req.key c.store.disk.fs s.disk.fs ((writing h).phaseOf i c.log).stage
      (((writing h).phaseOf i c.log).after o r).stage) :
    Tidy found (⟨⟨s, ⟨i, req, ⟨o, r⟩⟩ :: c.log⟩,
      Function.update c.tasks i (some ⟨req, p'⟩)⟩ : CachePool h) := by
  have hself : (writing h).phaseOf i (⟨i, req, ⟨o, r⟩⟩ :: c.log) =
      ((writing h).phaseOf i c.log).after o r :=
    Typestate.phaseOf_cons_self i req o r c.log
  have hbare : ∀ st, ((writing h).phaseOf i c.log).stage = some st → st.bare = true →
      draft c req.key = none := by
    intro st hst hb
    cases hphase : (writing h).phaseOf i c.log with
    | leading n stage =>
        rw [hphase] at hst
        cases hst
        exact htidy.bare i ⟨req, p⟩ n st ht hphase hb
    | _ =>
        rw [hphase] at hst
        cases hst
  refine ⟨?_, ?_⟩
  · intro j t n stage hj hphase hb
    by_cases hji : j = i
    · subst hji
      have hreq : (⟨req, p'⟩ : Task CacheRequest Op Res CacheAnswer) = t := by simpa using hj
      subst hreq
      change (writing h).phaseOf j (⟨j, req, ⟨o, r⟩⟩ :: c.log) = .leading n stage at hphase
      rw [hself] at hphase
      rcases hdraft.bare stage (congrArg WritePhase.stage hphase) hb with
        hnone | ⟨hsame, st, hst, hst'⟩
      · exact hnone
      · exact hsame.trans (hbare st hst hst')
    · -- somebody else's temporary file: call `i` does not lead his hash
      have hj' : c.tasks j = some t := by simpa [hji] using hj
      have hphase' : (writing h).phaseOf j c.log = .leading n stage :=
        (Typestate.phaseOf_cons_of_ne hji req _ c.log).symm.trans hphase
      have hnone := htidy.bare j t n stage hj' hphase' hb
      by_cases hkey : t.request.key = req.key
      · have hidle : ((writing h).phaseOf i c.log).stage = none := by
          cases hi : (writing h).phaseOf i c.log with
          | leading m stage' =>
              refine absurd (hflights.unique hj' ht hkey (n := n) (m := m) ?_ ?_) hji
              · rw [hphase']
                rfl
              · rw [hi]
                rfl
          | _ => rfl
        rw [hkey] at hnone ⊢
        exact (hdraft.idle hidle).trans hnone
      · exact (hdraft.others _ t.request.hex hkey).trans hnone
  · intro hash hhex hled
    have hothers : ∀ j t n stage, j ≠ i → c.tasks j = some t → t.request.key = hash →
        (writing h).phaseOf j c.log = .leading n stage → stage = .entered := by
      intro j t n stage hji hj hkey hphase
      exact hled j t n stage (by simpa [hji] using hj) hkey
        ((Typestate.phaseOf_cons_of_ne hji req _ c.log).trans hphase)
    by_cases hkey : hash = req.key
    · subst hkey
      have hnow : (((writing h).phaseOf i c.log).after o r).stage = none ∨
          (((writing h).phaseOf i c.log).after o r).stage = some .entered := by
        cases hphase : ((writing h).phaseOf i c.log).after o r with
        | leading n stage =>
            have hentered := hled i _ n stage (Function.update_self _ _ _) rfl
              (hself.trans hphase)
            exact .inr (congrArg some hentered)
        | _ => exact .inl rfl
      obtain ⟨hsame, hwas⟩ := hdraft.settled hnow
      change s.disk.fs.names.find (h.tmp req.key) = none ∨
        s.disk.fs.names.find (h.tmp req.key) = _
      rw [hsame]
      rcases hwas with hwas | hwas | ⟨st, hst, hb⟩
      · refine htidy.unled _ hhex ?_
        intro j t n stage hj hkey hphase
        by_cases hji : j = i
        · subst hji
          rw [hphase] at hwas
          cases hwas
        · exact hothers j t n stage hji hj hkey hphase
      · refine htidy.unled _ hhex ?_
        intro j t n stage hj hkey hphase
        by_cases hji : j = i
        · subst hji
          rw [hphase] at hwas
          exact Option.some.inj hwas
        · exact hothers j t n stage hji hj hkey hphase
      · exact .inl (hbare st hst hb)
    · have hsame := hdraft.others hash hhex hkey
      change s.disk.fs.names.find (h.tmp hash) = none ∨ s.disk.fs.names.find (h.tmp hash) = _
      rw [hsame]
      refine htidy.unled hash hhex ?_
      intro j t n stage hj hkey' hphase
      refine hothers j t n stage ?_ hj hkey' hphase
      rintro rfl
      cases ht.symm.trans hj
      exact hkey hkey'.symm

/-- A task that is started or dropped. -/
theorem Tidy.setTask (htidy : Tidy found c) {i : Nat} {t : Task CacheRequest Op Res CacheAnswer}
    (hold : ∀ n stage, (writing h).phaseOf i c.log = .leading n stage →
      ∃ t', c.tasks i = some t' ∧ t'.request = t.request) (hreq : ∀ t', c.tasks i = some t' →
        t'.request = t.request) : Tidy found (c.setTask i t) := by
  have htasks : ∀ j t' n stage, (c.setTask i t).tasks j = some t' →
      (writing h).phaseOf j c.log = .leading n stage →
        ∃ t'', c.tasks j = some t'' ∧ t''.request = t'.request := by
    intro j t' n stage hj hphase
    change Function.update c.tasks i (some t) j = some t' at hj
    by_cases hji : j = i
    · subst hji
      rw [Function.update_self] at hj
      cases hj
      exact hold n stage hphase
    · rw [Function.update_of_ne hji] at hj
      exact ⟨t', hj, rfl⟩
  refine ⟨?_, ?_⟩
  · intro j t' n stage hj hphase hb
    obtain ⟨t'', ht'', hreq''⟩ := htasks j t' n stage hj hphase
    rw [← hreq'']
    exact htidy.bare j t'' n stage ht'' hphase hb
  · intro hash hhex hled
    refine htidy.unled hash hhex ?_
    intro j t' n stage hj hkey hphase
    by_cases hji : j = i
    · subst hji
      exact hled j t n stage (Function.update_self _ _ _) (by rw [← hreq t' hj, hkey]) hphase
    · exact hled j t' n stage ((Function.update_of_ne hji _ _).trans hj) hkey hphase

theorem tidy_of_run (hrun : CacheRun h maxBytes found tr c)
    (hall : ∀ st ∈ tr, ¬KeepsTmp st.1 st.2.1) : Tidy found c := by
  induction hrun with
  | nil => exact .start maxBytes found
  | @snoc tr c₁ c₂ a hrun hstep ih =>
      have htidy := ih fun st hst => hall st (List.mem_append_left _ hst)
      have hnot : ¬KeepsTmp c₁ a := hall _ (List.mem_append_right _ List.mem_cons_self)
      rcases Pool.step_cases hstep with ⟨i, req, rfl, ht, rfl⟩ |
        ⟨i, e, req, o, k, s, r, rfl, ht, he, rfl⟩ | ⟨i, req, p, rfl, ht, rfl⟩
      · refine htidy.setTask ?_ ?_
        · intro n stage hphase
          rw [Typestate.phaseOf_eq_start ((CacheRun.conformsTo hrun).unused i ht)] at hphase
          cases hphase
        · intro t' ht'
          rw [ht] at ht'
          cases ht'
      · obtain ⟨-, hok⟩ := CacheRun.pre hrun ht
        have hdraft := drafted_of_exec (CacheRun.secure hrun).1 hok he (by
          rintro q err rfl rfl
          by_contra hfind
          exact hnot ⟨i, req, q, k, err, rfl, ht, hfind⟩)
        exact Tidy.move htidy (CacheRun.flights hrun) ht hdraft
      · refine htidy.setTask ?_ ?_
        · intro n stage _
          exact ⟨_, ht, rfl⟩
        · intro t' ht'
          rw [ht] at ht'
          cases ht'
          rfl

/-- Call `i` gives its key back, with an error. -/
def Fails (c : CachePool h) (a : CacheStep) (i : Nat) (req : CacheRequest) (e : SourceError) :
    Prop :=
  ∃ n k, a = .call i .quiet ∧ c.tasks i = some ⟨req, some (.call (.finish n (.error e)) k)⟩

/-- No temporary file is left behind.  A download can fail before `Put` has looked at its directory;
then the file of an earlier process is still there, if there was one. -/
def Discarded (found : FoundDisk) (c : CachePool h) (hash : Bytes) : SourceError → Prop
  | .put e => e.cleans = true → draft c hash = none
  | .siaDownload _ => draft c hash = none ∨ draft c hash = found.fs.names.find (h.tmp hash)
  | .openAfterFetch => True

theorem discarded_of_fails (hrun : CacheRun h maxBytes found tr c)
    (hall : ∀ st ∈ tr, ¬KeepsTmp st.1 st.2.1) {a : CacheStep} {i : Nat} {e : SourceError}
    (hfails : Fails c a i req e) (hstep : c.step (callCode h) (exec h) a = some c') :
    Discarded found c' req.key e := by
  obtain ⟨n, k, rfl, ht⟩ := hfails
  have htidy := tidy_of_run hrun hall
  obtain ⟨stage, hphase, hends⟩ := (hrun.pre ht).2
  have hsame : draft c' req.key = draft c req.key := by
    simp only [Pool.step, ht, exec] at hstep
    cases hstep
    rfl
  have hclean : stage = .clean → draft c' req.key = none := by
    rintro rfl
    have hnone := htidy.bare i _ n _ ht hphase rfl
    exact hsame.trans hnone
  cases e with
  | put e =>
      intro hcleans
      rcases hends with hst | ⟨-, hnot⟩
      · exact hclean hst
      · rw [hcleans] at hnot
        cases hnot
  | siaDownload e =>
      rcases hends with hst | rfl
      · exact .inl (hclean hst)
      · change draft c' req.key = none ∨ draft c' req.key = _
        rw [hsame]
        refine htidy.unled _ req.hex ?_
        intro j t m stage hj hkey hphase'
        -- nobody else leads the hash
        obtain rfl : j = i := by
          refine hrun.flights.unique hj ht hkey (n := m) (m := n) ?_ ?_
          · rw [hphase']
            rfl
          · rw [hphase]
            rfl
        rw [hphase] at hphase'
        cases hphase'
        rfl
  | openAfterFetch => trivial

/-- What `Open` returns is verified, and a write that fails leaves everything as it was. -/
theorem intact_of_run (hrun : CacheRun h maxBytes found tr c) :
    (∀ i k fd size, c.tasks i = some ⟨.cacheOpen k, some (.done (.opened (some (fd, size))))⟩ →
      ∃ bytes, c.store.disk.fs.readAll fd = some bytes ∧
        Vouched (Verified h) c.toWorld k.hash bytes) ∧
    (∀ i req size e, req.size = some size →
      c.tasks i = some ⟨req, some (.done (.written (.error e)))⟩ →
        ∀ st ∈ tr, ∀ env, st.2.1 = .call i env →
          Unchanged h st.1.store.disk st.2.2.store.disk) ∧
    ((∀ st ∈ tr, ¬KeepsTmp st.1 st.2.1) →
      ∀ st ∈ tr, ∀ i req e, Fails st.1 st.2.1 i req e → Discarded found st.2.2 req.key e) := by
  refine ⟨?_, ?_, ?_⟩
  · intro i k fd size ht
    have hsat := hrun.secure.2 i _ _ ht c.toWorld (Rely.refl i _) hrun.secure.1
    obtain ⟨-, m, off, bytes, hfile, -, hbytes, hvouched⟩ := hsat fd size rfl
    exact ⟨bytes, by simp [FileSystem.readAll, hfile, hbytes], hvouched⟩
  · intro i req size e hsize ht
    exact unchanged_of_failed hrun hsize ht
  · intro hall st hst i req e hfails
    obtain ⟨tr₁, hrun₁, hall₁⟩ :
        Reaches (callCode h) (exec h) (fun c a => ¬KeepsTmp c a) _ st.1 :=
      hrun.source_reaches hall st hst
    exact discarded_of_fails hrun₁ hall₁ hfails (hrun.step_eq st hst)

/-- No file operation fails; then a temporary file can be removed. -/
def faultlessCheck (_ : CachePool h) : CacheStep → Bool
  | .call _ (.disk (.fault _)) => false
  | _ => true

theorem not_keepsTmp_of_check (c : CachePool h) (a : CacheStep)
    (hcheck : faultlessCheck c a = true) : ¬KeepsTmp c a := by
  rintro ⟨i, req, p, k, e, rfl, -⟩
  cases hcheck

/-- Call 0 declares one byte too many and fails, call 1 writes the xorb, call 2 opens it. -/
def mismatched : List CacheStep :=
  [.spawn 0 (.put sampleKey 4 ⟨[[1, 2, 3]], none⟩), .spawn 1 (.put sampleKey 3 ⟨[[1, 2, 3]], none⟩),
      .spawn 2 (.cacheOpen sampleKey)] ++
    cacheCallsOf 0 ([.quiet] ++ List.replicate 6 (.disk .ok) ++ [.quiet]) ++
    cacheCallsOf 1 writtenEnvs ++ cacheCallsOf 2 [.quiet, .quiet]

def putFailed (c : CachePool sampleHandlers) : Bool :=
  match c.tasks 0 with
  | some ⟨.put _ _ _, some (.done (.written (.error _)))⟩ => true
  | _ => false

def sampleOpened (c : CachePool sampleHandlers) : Bool :=
  match c.tasks 2 with
  | some ⟨.cacheOpen k, some (.done (.opened (some _)))⟩ => decide (k.hash = sampleHash)
  | _ => false

theorem intact_of_run_mismatched :
    ∃ tr c, CacheRun sampleHandlers 0 emptyDisk tr c ∧
      (∀ st ∈ tr, ∀ env, st.2.1 = .call 0 env →
        Unchanged sampleHandlers st.1.store.disk st.2.2.store.disk) ∧
      (∀ st ∈ tr, ∀ i req e, Fails st.1 st.2.1 i req e → Discarded emptyDisk st.2.2 req.key e) ∧
      ∃ fd bytes, c.store.disk.fs.readAll fd = some bytes ∧
        Vouched (Verified sampleHandlers) c.toWorld sampleHash bytes := by
  have heval : ((Pool.init (State.new sampleHandlers 0 emptyDisk)).runChecked
      (callCode sampleHandlers) (exec sampleHandlers) faultlessCheck mismatched).map
      (fun c => putFailed c && sampleOpened c) = some true := by
    decide +kernel
  rcases Option.map_eq_some_iff.1 heval with ⟨c, hsteps, hP⟩
  obtain ⟨tr, hrun, hall⟩ := Reaches.of_runChecked hsteps not_keepsTmp_of_check
  obtain ⟨hopens, hfails, htmp⟩ := intact_of_run hrun
  rw [Bool.and_eq_true] at hP
  obtain ⟨hput, hopen⟩ := hP
  refine ⟨tr, c, hrun, ?_, htmp hall, ?_⟩
  · unfold putFailed at hput
    split at hput
    · rename_i ht
      exact hfails 0 _ _ _ rfl ht
    · cases hput
  · unfold sampleOpened at hopen
    split at hopen
    · rename_i k r ht
      obtain ⟨bytes, hbytes, hvouched⟩ := hopens 2 k r.1 r.2 ht
      rw [of_decide_eq_true hopen] at hvouched
      exact ⟨r.1, bytes, hbytes, hvouched⟩
    · cases hopen

end Serving

end Gateway
end OpenWeights
