import OpenWeights.Service.PinStates

/-!
# Durability — when an acknowledged xorb has its body

`upload_xorb` writes the metadata row and the body row in two statements, discards the result of
the second, and answers a duplicate from the metadata row alone.  Three things can therefore come
between an answer and the body: the body insert fails, its request is dropped just before it, or a
duplicate looks at the row just before it.  `Careful` excludes exactly these, and under it every
acknowledged hash has a body.

The argument has two parts.  `BodyOwed` is an invariant of the whole state: a row without a body has
a task that is about to insert it.  With it, the rely–guarantee discipline `ackDiscipline` needs to
know only that bodies are never deleted.
-/

namespace OpenWeights
namespace Service

open Lib Db OpenWeights.Core

def HasRow (db : Database) (h : Hash) : Prop :=
  (db.pin .xorb h).isSome = true

def HasBody (db : Database) (h : Hash) : Prop :=
  (db.xorbBodies.find h).isSome = true

/-! ## What the statements do to rows and bodies -/

theorem hasRow_exec {s : Stmt} {now : Nat} {scan : List (Hash × PinRow)} {db db' : Database}
    {r : Except DbError s.Reply} (he : s.exec now scan db = some (db', r)) {h : Hash}
    (hrow : HasRow db h) : HasRow db' h := by
  unfold HasRow at *
  rcases pin_exec he .xorb h with hmap | ⟨hnone, -⟩
  · rw [hmap]
    simpa using hrow
  · simp [hnone] at hrow

theorem hasBody_exec {s : Stmt} {now : Nat} {scan : List (Hash × PinRow)} {db db' : Database}
    {r : Except DbError s.Reply} (he : s.exec now scan db = some (db', r)) {h : Hash}
    (hbody : HasBody db h) : HasBody db' h := by
  unfold HasBody at *
  rcases xorbBodies_exec he with hEq | ⟨h', content, -, hEq⟩
  · rw [hEq]
    exact hbody
  · rcases Option.isSome_iff_exists.1 hbody with ⟨b, hb⟩
    rw [hEq, Table.find_insertNew_mono hb]
    rfl

theorem hasRow_exec_op {o : Op} {e : Env} {db db' : Database} {r : Res o}
    (he : exec o e db = some (db', r)) {h : Hash} (hrow : HasRow db h) : HasRow db' h := by
  rcases exec_cases he with ⟨rfl, -⟩ | ⟨now, scan, s, rs, -, -, hs⟩
  · exact hrow
  · exact hasRow_exec hs hrow

theorem hasBody_exec_op {o : Op} {e : Env} {db db' : Database} {r : Res o}
    (he : exec o e db = some (db', r)) {h : Hash} (hbody : HasBody db h) : HasBody db' h := by
  rcases exec_cases he with ⟨rfl, -⟩ | ⟨now, scan, s, rs, -, -, hs⟩
  · exact hbody
  · exact hasBody_exec hs hbody

/-- The reply of `insert_pending` tells whether the row was there, and afterwards it is. -/
theorem insertPending_exec {h : Hash} {n : Nat} {bounds : List Int} {now : Nat}
    {scan : List (Hash × PinRow)} {db db' : Database} {r : Except DbError Bool}
    (he : (Stmt.insertPending h n bounds).exec now scan db = some (db', r)) :
    HasRow db' h ∧ (r = .ok true ↔ ¬HasRow db h) := by
  obtain ⟨rfl, rfl⟩ := Prod.mk.inj (Option.some.inj he)
  have hpin := pin_insertPending db h n bounds .xorb h
  refine ⟨?_, ?_⟩
  · unfold HasRow
    rw [hpin]
    cases db.pin .xorb h <;> simp
  · cases hf : db.xorbs.find h <;>
      simp [Database.insertPending, HasRow, Database.pin, hf]

/-- The same for the operation, which may also have failed. -/
theorem insertPending_exec_op {h : Hash} {n : Nat} {bounds : List Int} {e : Env}
    {db db' : Database} {inserted : Bool}
    (he : exec (.sql (.insertPending h n bounds)) e db = some (db', .ok inserted)) :
    HasRow db' h ∧ (inserted = true ↔ ¬HasRow db h) := by
  rcases exec_cases he with ⟨-, hnot⟩ | ⟨now, scan, s, rs, -, hcall, hs⟩
  · have herr := hnot _ rfl
    subst herr
    cases he
  · cases hcall
    have hspec := insertPending_exec hs
    refine ⟨hspec.1, ?_⟩
    rw [← hspec.2]
    simp

/-- A row that appears was inserted by `insert_pending`, which then answered `true`. -/
theorem eq_insertPending_of_new {s : Stmt} {now : Nat} {scan : List (Hash × PinRow)}
    {db db' : Database} {r : Except DbError s.Reply}
    (he : s.exec now scan db = some (db', r)) {h : Hash} (hold : ¬HasRow db h)
    (hnew : HasRow db' h) :
    ∃ n bounds, (⟨.sql s, r⟩ : Call Op Res) = ⟨.sql (.insertPending h n bounds), .ok true⟩ := by
  have hnone : db.pin .xorb h = none := by
    simpa [HasRow] using hold
  rcases pin_exec he .xorb h with hmap | ⟨-, n, hcreates, -⟩
  · simp [HasRow, hmap, hnone] at hnew
  · cases s with
    | insertPending h' n' bounds =>
        obtain ⟨rfl, -, -⟩ := hcreates
        have hr : r = .ok true := (insertPending_exec he).2.2 hold
        subst hr
        exact ⟨n', bounds, rfl⟩
    | _ => exact hcreates.elim

/-- With its row present, the body insert succeeds and the body is there afterwards. -/
theorem insertXorbBody_exec {h : Hash} {content : Bytes} {now : Nat}
    {scan : List (Hash × PinRow)} {db db' : Database} {r : Except DbError Unit}
    (he : (Stmt.insertXorbBody h content).exec now scan db = some (db', r)) (hrow : HasRow db h) :
    r = .ok () ∧ HasBody db' h := by
  simp only [HasRow, Database.pin] at hrow
  cases hf : db.xorbs.find h with
  | none => simp [hf] at hrow
  | some row =>
      simp only [Stmt.exec, Database.insertXorbBody, hf] at he
      obtain ⟨rfl, rfl⟩ := Prod.mk.inj (Option.some.inj he)
      simp [HasBody]

/-- A body that appears was inserted, and its row was present. -/
theorem hasRow_of_new_body {s : Stmt} {now : Nat} {scan : List (Hash × PinRow)}
    {db db' : Database} {r : Except DbError s.Reply}
    (he : s.exec now scan db = some (db', r)) {h : Hash} (hold : ¬HasBody db h)
    (hnew : HasBody db' h) : HasRow db h := by
  rcases xorbBodies_exec he with hEq | ⟨h', content, rfl, hEq⟩
  · rw [HasBody, hEq] at hnew
    exact absurd hnew hold
  · have hh : h = h' := by
      by_contra hne
      rw [HasBody, hEq, Table.find_insertNew_of_ne _ _ hne] at hnew
      exact hold hnew
    subst hh
    cases hf : db.xorbs.find h with
    | none =>
        -- The foreign key refuses a body without its row.
        simp only [Stmt.exec, Database.insertXorbBody, hf] at he
        obtain ⟨rfl, -⟩ := Prod.mk.inj (Option.some.inj he)
        exact absurd hnew hold
    | some row => simp [HasRow, Database.pin, hf]

/-! ## The winner inserts the body next -/

def IsBodyInsert : Option Op → Prop
  | some (.sql (.insertXorbBody _ _)) => True
  | _ => False

/-- A body insert comes right after winning `insert_pending` for the same hash, and nowhere
else. -/
def BodyFollows : (o : Op) → (Res o → Option Op) → Prop
  | .sql (.insertPending h _ _), nx =>
      (∃ content, nx (.ok true) = some (.sql (.insertXorbBody h content))) ∧
        ∀ r, r ≠ .ok true → ¬IsBodyInsert (nx r)
  | _, nx => ∀ r, ¬IsBodyInsert (nx r)

theorem BodyFollows.win {o : Op} {nx : Res o → Option Op} {r : Res o} {h : Hash}
    {content : Bytes} (hf : BodyFollows o nx)
    (hn : nx r = some (.sql (.insertXorbBody h content))) :
    ∃ n bounds, (⟨o, r⟩ : Call Op Res) = ⟨.sql (.insertPending h n bounds), .ok true⟩ := by
  have hbody : IsBodyInsert (nx r) := by rw [hn]; trivial
  cases o with
  | sql s =>
      cases s with
      | insertPending h' n bounds =>
          by_cases hr : r = .ok true
          · subst hr
            rcases hf.1 with ⟨content', hEq⟩
            rw [hn] at hEq
            cases hEq
            exact ⟨n, bounds, rfl⟩
          · exact absurd hbody (hf.2 r hr)
      | _ => exact absurd hbody (hf r)
  | _ => exact absurd hbody (hf r)

/-- The operations that neither claim a hash nor insert a body. -/
def Op.Quiet : Op → Prop
  | .sql (.insertPending _ _ _) => False
  | .sql (.insertXorbBody _ _) => False
  | _ => True

theorem Op.Quiet.not_bodyInsert {o : Option Op} (h : ∀ o', o = some o' → o'.Quiet) :
    ¬IsBodyInsert o := by
  intro hbody
  cases o with
  | none => exact hbody
  | some o' =>
      have hq := h o' rfl
      cases o' with
      | sql s =>
          cases s with
          | insertXorbBody h content => exact hq
          | _ => exact hbody
      | _ => exact hbody

theorem bodyFollows_of_quiet {α : Type} {p : Code α} (hp : p.Uses Op.Quiet) :
    p.AlwaysNext BodyFollows := by
  refine Prog.AlwaysNext.of_uses hp ?_
  intro o nx ho hnx
  have hnot : ∀ r, ¬IsBodyInsert (nx r) := fun r => Op.Quiet.not_bodyInsert (hnx r)
  cases o with
  | sql s =>
      cases s with
      | insertPending h n bounds => exact ho.elim
      | _ => exact hnot
  | _ => exact hnot

theorem quiet_pushXorb (h : Hash) (body : Bytes) : (pushXorb h body).Uses Op.Quiet := by
  have hleave : (leavePinning .xorb h).Uses Op.Quiet := uses_leavePinning trivial
  have hrecord : (recordXorbUpload h body.length).Uses Op.Quiet := uses_recordXorbUpload trivial
  apply Prog.Uses.perform_bind trivial
  rintro (_ | (_ | _) | id)
  · exact hleave.bind fun _ => hrecord.bind fun _ => trivial
  · exact hleave.bind fun _ => hrecord.bind fun _ => trivial
  · exact hleave.bind fun _ => trivial
  · apply Prog.Uses.perform_bind trivial
    rintro (_ | _)
    · trivial
    · exact hrecord.bind fun _ => trivial

theorem bodyFollows_storeXorb (h : Hash) (boundaries : List Int) (body : Bytes) :
    (storeXorb h boundaries body).AlwaysNext BodyFollows := by
  have hpush := bodyFollows_of_quiet (quiet_pushXorb h body)
  refine ⟨⟨⟨body, rfl⟩, ?_⟩, ?_⟩
  · rintro (_ | (_ | _)) hr
    · exact id
    · exact id
    · exact absurd rfl hr
  · rintro (_ | (_ | _))
    · trivial
    · exact bodyFollows_of_quiet ((uses_recordXorbUpload trivial).bind fun _ => trivial)
    · refine ⟨?_, fun _ => hpush⟩
      intro r
      exact Op.Quiet.not_bodyInsert fun o' ho => (quiet_pushXorb h body).next ho

theorem bodyFollows_code (x : Crates) (req : Request) :
    (code x req).AlwaysNext BodyFollows := by
  cases req with
  | uploadXorb pathPrefix hashSuffix body =>
      apply Prog.AlwaysNext.map
      unfold uploadXorb
      split
      · trivial
      · rename_i expected boundaries _
        refine ⟨?_, ?_⟩
        · rintro (_ | _)
          · exact id
          · exact id
        · rintro (_ | _)
          · trivial
          · exact bodyFollows_storeXorb expected boundaries body
  | uploadShard body =>
      apply Prog.AlwaysNext.map
      refine bodyFollows_of_quiet ((uses_uploadShard x body).mono ?_)
      intro o ho
      cases o with
      | sql s => cases s <;> trivial
      | _ => trivial
  | sweep =>
      apply Prog.AlwaysNext.map
      refine bodyFollows_of_quiet (uses_reconcileOnce.mono ?_)
      intro o ho
      cases o with
      | sql s => cases s <;> trivial
      | _ => trivial

/-- No program starts with a body insert. -/
theorem not_bodyInsert_code (x : Crates) (req : Request) : ¬IsBodyInsert (code x req).next := by
  cases req with
  | uploadXorb pathPrefix hashSuffix body =>
      simp only [code, Prog.next_map]
      unfold uploadXorb
      split <;> exact id
  | uploadShard body =>
      simp only [code, Prog.next_map]
      refine Op.Quiet.not_bodyInsert fun o ho => ?_
      have hop := (uses_uploadShard x body).next ho
      cases o with
      | sql s => cases s <;> trivial
      | _ => trivial
  | sweep => exact id

/-! ## The invariant of the whole state -/

namespace State

variable {x : Crates} {c c' : State} {a : Step}

def AboutToInsert (c : State) (i : Nat) (h : Hash) : Prop :=
  ∃ content, c.pending i = some (.sql (.insertXorbBody h content))

/-- The steps that let no answer come between a row and its body: a request is not dropped just
before its body insert, the body insert does not fail, and no duplicate looks at a row whose body
is about to be inserted. -/
def Careful (c : State) : Step → Prop
  | .spawn _ _ => True
  | .drop i => ∀ h, ¬AboutToInsert c i h
  | .call i e =>
      (∀ h, AboutToInsert c i h → e ≠ .dbError) ∧
        ∀ h n bounds, c.pending i = some (.sql (.insertPending h n bounds)) → HasRow c.store h →
          ∀ j, ¬AboutToInsert c j h

/-- A row without a body has a task that is about to insert it. -/
structure BodyOwed (c : State) : Prop where
  follows : ∀ i req p, c.tasks i = some ⟨req, some p⟩ → p.AlwaysNext BodyFollows
  hasRow : ∀ i h, AboutToInsert c i h → HasRow c.store h
  owed : ∀ h, HasRow c.store h → HasBody c.store h ∨ ∃ i, AboutToInsert c i h
  owner : ∀ h, HasBody c.store h → HasRow c.store h

theorem pending_setTask_of_ne {i j : Nat} {t : Task Request Op Res Outcome} (hne : j ≠ i) :
    pending (c.setTask i t) j = c.pending j := by
  simp [pending, Pool.setTask, hne]

theorem BodyOwed.initial : BodyOwed initial where
  follows := by
    intro i req p ht
    cases ht
  hasRow := by
    rintro i h ⟨content, hp⟩
    cases hp
  owed := by
    intro h hrow
    cases hrow
  owner := by
    intro h hbody
    cases hbody

theorem not_aboutToInsert_of_next {i : Nat} {h : Hash} {n : Option Op}
    (hp : c.pending i = n) (hn : ¬IsBodyInsert n) : ¬AboutToInsert c i h := by
  rintro ⟨content, hEq⟩
  rw [← hp, hEq] at hn
  exact hn trivial

theorem BodyOwed.spawn (hinv : BodyOwed c) {i : Nat} {req : Request} (ht : c.tasks i = none) :
    BodyOwed (c.setTask i ⟨req, some (code x req)⟩) := by
  have hself : pending (c.setTask i ⟨req, some (code x req)⟩) i = (code x req).next := by
    simp [pending, Pool.setTask]
  have hnot : ∀ h, ¬AboutToInsert (c.setTask i ⟨req, some (code x req)⟩) i h := fun h =>
    not_aboutToInsert_of_next hself (not_bodyInsert_code x req)
  refine ⟨?_, ?_, ?_, hinv.owner⟩
  · intro j req' p hj
    by_cases hji : j = i
    · subst hji
      have hEq : (⟨req, some (code x req)⟩ : Task Request Op Res Outcome) = ⟨req', some p⟩ := by
        simpa [Pool.setTask] using hj
      cases hEq
      exact bodyFollows_code x req
    · exact hinv.follows j req' p (by simpa [Pool.setTask, hji] using hj)
  · rintro j h hj
    by_cases hji : j = i
    · subst hji
      exact absurd hj (hnot h)
    · rcases hj with ⟨content, hp⟩
      rw [pending_setTask_of_ne hji] at hp
      exact hinv.hasRow j h ⟨content, hp⟩
  · intro h hrow
    rcases hinv.owed h hrow with hbody | ⟨j, content, hp⟩
    · exact .inl hbody
    · have hji : j ≠ i := by
        rintro rfl
        simp [pending, ht] at hp
      exact .inr ⟨j, content, by rw [pending_setTask_of_ne hji, hp]⟩

theorem BodyOwed.drop (hinv : BodyOwed c) {i : Nat} {req : Request}
    (hcare : ∀ h, ¬AboutToInsert c i h) : BodyOwed (c.setTask i ⟨req, none⟩) := by
  refine ⟨?_, ?_, ?_, hinv.owner⟩
  · intro j req' p hj
    by_cases hji : j = i
    · subst hji
      simp [Pool.setTask] at hj
    · exact hinv.follows j req' p (by simpa [Pool.setTask, hji] using hj)
  · rintro j h ⟨content, hp⟩
    by_cases hji : j = i
    · subst hji
      simp [pending, Pool.setTask] at hp
    · rw [pending_setTask_of_ne hji] at hp
      exact hinv.hasRow j h ⟨content, hp⟩
  · intro h hrow
    rcases hinv.owed h hrow with hbody | ⟨j, hj⟩
    · exact .inl hbody
    · have hji : j ≠ i := by
        rintro rfl
        exact hcare h hj
      rcases hj with ⟨content, hp⟩
      exact .inr ⟨j, content, by rw [pending_setTask_of_ne hji, hp]⟩

def afterCall (c : State) (i : Nat) (req : Request) (db : Database) (call : Call Op Res)
    (p : Code Outcome) : State :=
  { store := db
    log := ⟨i, req, call⟩ :: c.log
    tasks := Function.update c.tasks i (some ⟨req, some p⟩) }

theorem pending_afterCall_self {i : Nat} {req : Request} {db : Database} {call : Call Op Res}
    {p : Code Outcome} : (c.afterCall i req db call p).pending i = p.next := by
  simp [pending, afterCall]

theorem pending_afterCall_of_ne {i j : Nat} {req : Request} {db : Database} {call : Call Op Res}
    {p : Code Outcome} (hne : j ≠ i) :
    (c.afterCall i req db call p).pending j = c.pending j := by
  simp [pending, afterCall, hne]

theorem BodyOwed.call (hinv : BodyOwed c) {i : Nat} {e : Env} {req : Request} {o : Op}
    {k : Res o → Code Outcome} {db : Database} {r : Res o}
    (ht : c.tasks i = some ⟨req, some (.call o k)⟩) (he : exec o e c.store = some (db, r))
    (hcare : ∀ h, AboutToInsert c i h → e ≠ .dbError) :
    BodyOwed (c.afterCall i req db ⟨o, r⟩ (k r)) := by
  have hpending : c.pending i = some o := pending_of_task ht
  have hfollows := hinv.follows i req _ ht
  -- Rows and bodies stay, whatever the operation was.
  have hrows : ∀ h, HasRow c.store h → HasRow db h := fun h => hasRow_exec_op he
  have hbodies : ∀ h, HasBody c.store h → HasBody db h := fun h => hasBody_exec_op he
  refine ⟨?_, ?_, ?_, ?_⟩
  · intro j req' p hj
    by_cases hji : j = i
    · subst hji
      have hEq : (⟨req, some (k r)⟩ : Task Request Op Res Outcome) = ⟨req', some p⟩ := by
        simpa [afterCall] using hj
      cases hEq
      exact hfollows.2 r
    · exact hinv.follows j req' p (by simpa [afterCall, hji] using hj)
  · rintro j h ⟨content, hp⟩
    by_cases hji : j = i
    · subst hji
      rw [pending_afterCall_self] at hp
      rcases BodyFollows.win hfollows.1 hp with ⟨n, bounds, hwin⟩
      cases hwin
      exact (insertPending_exec_op he).1
    · rw [pending_afterCall_of_ne hji] at hp
      exact hrows h (hinv.hasRow j h ⟨content, hp⟩)
  · intro h hrow
    by_cases hold : HasRow c.store h
    · rcases hinv.owed h hold with hbody | ⟨j, hj⟩
      · exact .inl (hbodies h hbody)
      · by_cases hji : j = i
        · -- The owing task performs its insert, which cannot fail.
          subst hji
          have hne := hcare h hj
          rcases hj with ⟨content, hp⟩
          rw [hpending] at hp
          cases hp
          rcases exec_cases he with ⟨-, hnot⟩ | ⟨now, scan, s, rs, -, hcall, hs⟩
          · exact absurd (hnot _ rfl) hne
          · cases hcall
            exact .inl (insertXorbBody_exec hs hold).2
        · rcases hj with ⟨content, hp⟩
          exact .inr ⟨j, content, by rw [pending_afterCall_of_ne hji, hp]⟩
    · -- A new row: this task won it and inserts the body next.
      rcases exec_cases he with ⟨hEq, -⟩ | ⟨now, scan, s, rs, -, hcall, hs⟩
      · change HasRow db h at hrow
        rw [hEq] at hrow
        exact absurd hrow hold
      · rcases eq_insertPending_of_new hs hold hrow with ⟨n, bounds, hwin⟩
        rw [hwin] at hcall
        cases hcall
        rcases hfollows.1.1 with ⟨content, hnext⟩
        refine .inr ⟨i, content, ?_⟩
        rw [pending_afterCall_self]
        exact hnext
  · intro h hbody
    by_cases hold : HasBody c.store h
    · exact hrows h (hinv.owner h hold)
    · rcases exec_cases he with ⟨hEq, -⟩ | ⟨now, scan, s, rs, -, -, hs⟩
      · change HasBody db h at hbody
        rw [hEq] at hbody
        exact absurd hbody hold
      · exact hrows h (hasRow_of_new_body hs hold hbody)

/-- One careful step keeps the invariant. -/
theorem BodyOwed.next (hinv : BodyOwed c) (hcare : Careful c a) (hs : c.next x a = some c') :
    BodyOwed c' := by
  rcases Pool.step_cases hs with ⟨i, req, rfl, ht, rfl⟩ |
    ⟨i, e, req, o, k, db, r, rfl, ht, he, rfl⟩ | ⟨i, req, p, rfl, ht, rfl⟩
  · exact hinv.spawn ht
  · exact hinv.call ht he hcare.1
  · exact hinv.drop hcare

theorem Reachable.bodyOwed (h : Reachable x Careful c) : BodyOwed c := by
  apply h.invariant (I := BodyOwed) BodyOwed.initial
  intro c₁ a c₂ hinv hcare hs
  exact hinv.next hcare hs

end State

/-! ## Acknowledged uploads -/

/-- The results of a careful run: a duplicate finds the body, and a body insert succeeds. -/
def AckAllowed (db : Database) : (o : Op) → Res o → Prop
  | .sql (.insertPending h _ _), r => r = .ok false → HasBody db h
  | .sql (.insertXorbBody h _), r => r = .ok () ∧ HasRow db h
  | _, _ => True

/-- Bodies are never deleted; that is all the tasks rely on. -/
def ackDiscipline : Discipline Request exec where
  inv _ := True
  rely _ w w' := ∀ h, HasBody w.store h → HasBody w'.store h
  pre _ _ _ _ := True
  allow _ _ w o r := AckAllowed w.store o r
  rely_refl _ _ _ hbody := hbody
  rely_trans _ _ _ _ h₁ h₂ h hbody := h₂ h (h₁ h hbody)
  guarantee := by
    intro i req w o e db r _ _ _ he
    refine ⟨trivial, ?_⟩
    intro j _ h hbody
    exact hasBody_exec_op he hbody

/-- An upload that is answered 200 has its body stored. -/
def ackPost (x : Crates) (_ : Nat) : Request → Shared → Outcome → Prop
  | .uploadXorb pathPrefix hashSuffix _, w, .uploadXorb (.ok _) =>
      ∀ h, pathHash x pathPrefix hashSuffix = some h → HasBody w.store h
  | _, _, _ => True

/-- From a state with the body on, any program ends with the body. -/
theorem satNow_hasBody {α : Type} (p : Code α) (i : Nat) (req : Request) {h : Hash} {w : Shared}
    (hbody : HasBody w.store h) :
    p.SatNow ackDiscipline i req (fun w' _ => HasBody w'.store h) w := by
  have hrun : p.SatNow ackDiscipline i req (fun _ _ => True) w :=
    Prog.SatNow.of_uses (D := ackDiscipline) (Prog.uses_true p) (fun _ _ _ _ => trivial)
      (fun _ _ _ => trivial) trivial
  have hframe := hrun.frame (I := fun w : Shared => HasBody w.store h)
    (fun _ _ hw hrely => hrely h hw) (fun _ _ _ _ _ hw he => hasBody_exec_op he hw) hbody
  exact hframe.mono fun _ _ hpost => hpost.2

theorem satNow_storeXorb (h : Hash) (boundaries : List Int) (body : Bytes) (i : Nat)
    (req : Request) (w : Shared) :
    (storeXorb h boundaries body).SatNow ackDiscipline i req
      (fun w' answer => ∀ inserted, answer = .ok inserted → HasBody w'.store h) w := by
  -- What holds with the body present is what the postcondition asks for.
  have hdone : ∀ {α : Type} (p : Code (Except AppError α)) (w : Shared), HasBody w.store h →
      p.SatNow ackDiscipline i req
        (fun w' answer => ∀ inserted, answer = .ok inserted → HasBody w'.store h) w := by
    intro α p w hbody
    exact (satNow_hasBody p i req hbody).mono fun w' a hw inserted _ => hw
  refine ⟨trivial, ?_⟩
  rintro e db (_ | (_ | _)) hallow he w' hrely -
  · rintro inserted ⟨⟩
  · -- A duplicate: the allowed results say that the body is there.
    have hbody : HasBody db h := hasBody_exec_op he (hallow rfl)
    exact hdone _ w' (hrely h hbody)
  · refine ⟨trivial, ?_⟩
    intro e' db' r hallow' he' w'' hrely' _
    have hbody : HasBody db' h := by
      rcases exec_cases he' with ⟨-, hnot⟩ | ⟨now, scan, s, rs, -, hcall, hs⟩
      · have herr := hnot _ rfl
        subst herr
        cases he'
        cases hallow'.1
      · cases hcall
        exact (insertXorbBody_exec hs hallow'.2).2
    exact hdone _ w'' (hrely' h hbody)

theorem satNow_code (x : Crates) (i : Nat) (req : Request) (w : Shared) :
    (code x req).SatNow ackDiscipline i req (ackPost x i req) w := by
  cases req with
  | uploadXorb pathPrefix hashSuffix body =>
      -- Past the insert of the row, the acknowledgement is the one of `store_xorb`.
      have hupload : (uploadXorb x pathPrefix hashSuffix body).SatNow ackDiscipline i
          (.uploadXorb pathPrefix hashSuffix body)
          (fun w' answer => ∀ inserted, answer = .ok inserted →
            ∀ h, pathHash x pathPrefix hashSuffix = some h → HasBody w'.store h) w := by
        unfold uploadXorb
        split
        · rintro inserted ⟨⟩
        · rename_i expected boundaries hok
          have hpath := (admitXorb_eq_ok_iff.1 hok).1
          refine ⟨trivial, ?_⟩
          rintro e db (_ | _) - - w' - -
          · rintro inserted ⟨⟩
          · refine (satNow_storeXorb expected boundaries body i _ w').mono ?_
            intro w'' answer hpost inserted hEq h hh
            rw [hpath] at hh
            cases hh
            exact hpost inserted hEq
      refine hupload.bind trivial ?_
      intro w' answer _ hpost
      cases answer with
      | error e => trivial
      | ok inserted => exact hpost inserted rfl
  | uploadShard body =>
      apply Prog.SatNow.of_uses (D := ackDiscipline) (uses_code x (.uploadShard body))
      · intro w o _ _
        trivial
      · intro w out _
        cases out <;> trivial
      · trivial
  | sweep =>
      apply Prog.SatNow.of_uses (D := ackDiscipline) (uses_code x .sweep)
      · intro w o _ _
        trivial
      · intro w out _
        cases out <;> trivial
      · trivial

namespace State

variable {x : Crates} {c c' : State} {a : Step}

/-- What a careful step may return. -/
theorem ackAllowed_of_careful (hinv : BodyOwed c) {i : Nat} {e : Env} {req : Request} {o : Op}
    {k : Res o → Code Outcome} {db : Database} {r : Res o}
    (ht : c.tasks i = some ⟨req, some (.call o k)⟩) (he : exec o e c.store = some (db, r))
    (hcare : Careful c (.call i e)) : AckAllowed c.store o r := by
  have hpending : c.pending i = some o := pending_of_task ht
  cases o with
  | sql s =>
      cases s with
      | insertPending h n bounds =>
          rintro rfl
          have hrow : HasRow c.store h := by
            by_contra hno
            cases (insertPending_exec_op he).2.2 hno
          -- No other task is about to insert the body, so it is there.
          rcases hinv.owed h hrow with hbody | ⟨j, hj⟩
          · exact hbody
          · exact absurd hj (hcare.2 h n bounds hpending hrow j)
      | insertXorbBody h content =>
          have habout : AboutToInsert c i h := ⟨content, hpending⟩
          have hrow := hinv.hasRow i h habout
          rcases exec_cases he with ⟨-, hnot⟩ | ⟨now, scan, s, rs, -, hcall, hs⟩
          · exact absurd (hnot _ rfl) (hcare.1 h habout)
          · cases hcall
            exact ⟨(insertXorbBody_exec hs hrow).1, hrow⟩
      | _ => trivial
  | _ => trivial

theorem Reachable.secure (h : Reachable x Careful c) :
    Secure ackDiscipline (ackPost x) c := by
  have hboth : BodyOwed c ∧ Secure ackDiscipline (ackPost x) c := by
    apply h.invariant (I := fun c : State => BodyOwed c ∧ Secure ackDiscipline (ackPost x) c)
    · refine ⟨BodyOwed.initial, trivial, ?_⟩
      intro i req p ht
      cases ht
    · intro c₁ a c₂ hinv hcare hs
      refine ⟨hinv.1.next hcare hs, ?_⟩
      apply hinv.2.step hs
      · intro i req w _
        exact satNow_code x i req w
      · rintro i e req o k db r rfl ht he
        exact ackAllowed_of_careful hinv.1 ht he hcare
  exact hboth.2

/-- Task `i` uploaded the hash `h` and was answered 200. -/
def acknowledged (x : Crates) (c : State) (i : Nat) (h : Hash) : Bool :=
  match c.tasks i with
  | some ⟨.uploadXorb pathPrefix hashSuffix _, some (.done (.uploadXorb (.ok _)))⟩ =>
      pathHash x pathPrefix hashSuffix = some h
  | _ => false

/-- Every acknowledged hash has a body, and the cross-check of a shard that references it finds
it. -/
def AckDurable (x : Crates) (c : State) : Prop :=
  ∀ i h, acknowledged x c i h = true →
    HasBody c.store h ∧ ∀ hashes, h ∈ hashes → h ∈ c.store.whichXorbsArePinned hashes

/-- A row without a body has one after a request that started later uploaded the hash again and was
answered 200. -/
def Repairable (x : Crates) (allow : State → Step → Prop) (c : State) : Prop :=
  ∀ h, HasRow c.store h → ¬HasBody c.store h →
    ∀ c', Reaches (code x) exec allow c c' →
      ∀ i, c.tasks i = none → acknowledged x c' i h = true → HasBody c'.store h

theorem acknowledged_task {i : Nat} {h : Hash} (hack : acknowledged x c i h = true) :
    ∃ pathPrefix hashSuffix body inserted,
      c.tasks i = some ⟨.uploadXorb pathPrefix hashSuffix body,
        some (.done (.uploadXorb (.ok inserted)))⟩ ∧
        pathHash x pathPrefix hashSuffix = some h := by
  unfold acknowledged at hack
  split at hack
  · rename_i pathPrefix hashSuffix body inserted ht
    exact ⟨pathPrefix, hashSuffix, body, inserted, ht, by simpa using hack⟩
  · cases hack

theorem mem_whichXorbsArePinned {db : Database} {h : Hash} {r : PinRow} {hashes : List Hash}
    (hr : db.pin .xorb h = some r) (hstate : r.pinState ≠ .uploading) (hbody : HasBody db h)
    (hmem : h ∈ hashes) : h ∈ db.whichXorbsArePinned hashes := by
  rcases Option.map_eq_some_iff.1 hr with ⟨row, hrow, rfl⟩
  have hin := Table.find_eq_some_iff.1 hrow
  refine List.mem_map.2 ⟨(h, row), List.mem_filter.2 ⟨hin, ?_⟩, rfl⟩
  have hany : row.pinState = .pinning ∨ row.pinState = .pinned ∨ row.pinState = .orphaned := by
    cases hst : row.pinState <;> simp_all
  simp only [HasBody] at hbody
  simp [hmem, hbody, hany]

theorem Reachable.hasBody_of_acknowledged (hreach : Reachable x Careful c) {i : Nat} {h : Hash}
    (hack : acknowledged x c i h = true) : HasBody c.store h := by
  rcases acknowledged_task hack with ⟨pathPrefix, hashSuffix, body, inserted, ht, hpath⟩
  have hsat := hreach.secure.2 i _ _ ht c.toWorld (ackDiscipline.rely_refl i _) trivial
  exact hsat h hpath

/-- In every careful run an acknowledged xorb is durable, and an acknowledged re-upload of a row
without a body has repaired it. -/
theorem ackDurable_of_careful (hreach : Reachable x Careful c) :
    AckDurable x c ∧ Repairable x Careful c := by
  refine ⟨?_, ?_⟩
  · intro i h hack
    have hbody := hreach.hasBody_of_acknowledged hack
    refine ⟨hbody, ?_⟩
    intro hashes hmem
    have hrow := hreach.bodyOwed.owner h hbody
    rcases Option.isSome_iff_exists.1 hrow with ⟨r, hr⟩
    exact mem_whichXorbsArePinned hr (hreach.not_uploading hr) hbody hmem
  · intro h _ _ c' hlater i _ hack
    have hreach' : Reachable x Careful c' := hreach.trans hlater
    exact hreach'.hasBody_of_acknowledged hack

/-- A sufficient check for `Careful` that can be evaluated. -/
def carefulCheck (c : State) : Step → Bool
  | .spawn _ _ => true
  | .drop _ => false
  | .call _ .dbError => false
  | .call i _ =>
      match c.pending i with
      | some (.sql (.insertPending h _ _)) => (c.store.pin .xorb h).isNone
      | _ => true

theorem careful_of_check {c : State} {a : Step} (h : carefulCheck c a = true) : Careful c a := by
  cases a with
  | spawn i req => trivial
  | drop i => cases h
  | call i e =>
      refine ⟨?_, ?_⟩
      · rintro _ _ rfl
        cases h
      · intro hash n bounds hp hrow
        have hnone : (c.store.pin .xorb hash).isNone = true := by
          cases e <;> simp_all [carefulCheck]
        rw [HasRow] at hrow
        simp_all

def pendingUpload : List Step :=
  [.spawn 0 (.uploadXorb "default" sampleHex sampleBody), .call 0 (.rateLimit (.ok ())),
    .call 0 (.sql 1 []), .call 0 (.sql 2 []), .call 0 (.upload (.ok (.error .unavailable))),
    .call 0 (.sql 3 []), .call 0 (.sql 4 [])]

theorem ackDurable_of_careful_pendingUpload :
    ∃ c, Reachable (bareCrates fun _ => Hash.fill 0) Careful c ∧
      acknowledged (bareCrates fun _ => Hash.fill 0) c 0 sampleHash = true ∧
      AckDurable (bareCrates fun _ => Hash.fill 0) c ∧
      Repairable (bareCrates fun _ => Hash.fill 0) Careful c := by
  have heval : (Pool.runChecked (code (bareCrates fun _ => Hash.fill 0)) exec carefulCheck initial
      pendingUpload).map (fun c => acknowledged (bareCrates fun _ => Hash.fill 0) c 0 sampleHash) =
        some true := by
    decide +kernel
  rcases Option.map_eq_some_iff.1 heval with ⟨c, hrun, hack⟩
  have hreach : Reachable (bareCrates fun _ => Hash.fill 0) Careful c :=
    Reaches.of_runChecked hrun fun _ _ => careful_of_check
  exact ⟨c, hreach, hack, ackDurable_of_careful hreach⟩

/-- The winner is dropped before its body insert; a duplicate is then answered 200 although there is
no body, and no later upload inserts one. -/
theorem not_ackDurable :
    ¬∀ (x : Crates) (c : State), Reachable x anyStep c →
      AckDurable x c ∧ Repairable x anyStep c := by
  intro hclaim
  have heval : (initial.runAll (bareCrates fun _ => Hash.fill 0)
      [.spawn 0 (.uploadXorb "default" sampleHex sampleBody), .call 0 (.rateLimit (.ok ())),
        .call 0 (.sql 1 []), .drop 0,
        .spawn 1 (.uploadXorb "default" sampleHex sampleBody), .call 1 (.rateLimit (.ok ())),
        .call 1 (.sql 2 []), .call 1 (.sql 3 [])]).map
      (fun c => acknowledged (bareCrates fun _ => Hash.fill 0) c 1 sampleHash &&
        (c.store.xorbBodies.find sampleHash).isNone) = some true := by
    decide +kernel
  rcases exists_run heval with ⟨tr, c, hrun, hboth⟩
  have hpair : acknowledged (bareCrates fun _ => Hash.fill 0) c 1 sampleHash = true ∧
      (c.store.xorbBodies.find sampleHash).isNone = true := by
    simpa using hboth
  have hdurable := (hclaim _ c ⟨tr, hrun, fun _ _ => trivial⟩).1
  have hbody := (hdurable 1 sampleHash hpair.1).1
  rw [HasBody] at hbody
  simp_all

end State

end Service
end OpenWeights
