import OpenWeights.Service.Durability

/-!
# Identity — a pinned xorb row names its own bytes

Every object id that reaches a `xorbs` row was returned by an upload of one particular body: the
body of the request that won `insert_pending` for the hash.  Losers of the insert may carry other
bodies under the same trusted hash, sweeps upload what `xorb_bodies` holds, and the id is merged by
two opposite `COALESCE` orders; none of that matters, because every upload on behalf of a row is an
upload of the winner's body.

What was uploaded and who won is read off the log of operations.  The tasks rely on nothing but the
log growing, so facts about the past are stable and the whole argument is one rely–guarantee
discipline (`namingDiscipline`).
-/

namespace OpenWeights
namespace Service

open Lib Db OpenWeights.Core Storage

/-! ## Facts about the past -/

/-- The call won `insert_pending` for `h`. -/
def wins (h : Hash) : Call Op Res → Bool
  | ⟨.sql (.insertPending h' _ _), .ok true⟩ => h' = h
  | _ => false

/-- The winning calls for `h`. -/
def winners (w : Shared) (h : Hash) : List (Entry Request Op Res) :=
  w.log.filter fun e => wins h e.call

/-- A request with this body won `insert_pending` for `h`. -/
def Won (w : Shared) (h : Hash) (body : Bytes) : Prop :=
  ∃ e ∈ winners w h, ∃ pathPrefix hashSuffix, e.request = .uploadXorb pathPrefix hashSuffix body

/-- An `upload_and_pin` of this body on behalf of the row `h` returned the id. -/
def Uploaded (w : Shared) (h : Hash) (body : Bytes) (id : Bytes) : Prop :=
  ∃ e ∈ w.log, e.call = ⟨.uploadAndPin .xorb h body, .ok (.ok id)⟩

/-- The id was returned by an upload of the winner's body. -/
def Justified (w : Shared) (h : Hash) (id : Bytes) : Prop :=
  ∃ body, Won w h body ∧ Uploaded w h body id

def LogGrows (w w' : Shared) : Prop :=
  w.log <:+ w'.log

theorem LogGrows.refl (w : Shared) : LogGrows w w := List.suffix_refl _

theorem LogGrows.trans {w₁ w₂ w₃ : Shared} (h₁ : LogGrows w₁ w₂) (h₂ : LogGrows w₂ w₃) :
    LogGrows w₁ w₃ := List.IsSuffix.trans h₁ h₂

theorem LogGrows.cons (w : Shared) (db : Database) (e : Entry Request Op Res) :
    LogGrows w ⟨db, e :: w.log⟩ := List.suffix_cons e w.log

theorem Won.mono {w w' : Shared} (hg : LogGrows w w') {h : Hash} {body : Bytes}
    (hw : Won w h body) : Won w' h body := by
  rcases hw with ⟨e, he, hreq⟩
  rcases List.mem_filter.1 he with ⟨hmem, hwin⟩
  exact ⟨e, List.mem_filter.2 ⟨hg.subset hmem, hwin⟩, hreq⟩

theorem Uploaded.mono {w w' : Shared} (hg : LogGrows w w') {h : Hash} {body id : Bytes}
    (hu : Uploaded w h body id) : Uploaded w' h body id := by
  rcases hu with ⟨e, he, hcall⟩
  exact ⟨e, hg.subset he, hcall⟩

theorem Justified.mono {w w' : Shared} (hg : LogGrows w w') {h : Hash} {id : Bytes}
    (hj : Justified w h id) : Justified w' h id := by
  rcases hj with ⟨body, hw, hu⟩
  exact ⟨body, hw.mono hg, hu.mono hg⟩

/-- The request that wins has won. -/
theorem won_of_win (log : List (Entry Request Op Res)) (db : Database) (i : Nat)
    (pathPrefix hashSuffix : String) (body : Bytes) (h : Hash) (n : Nat) (bounds : List Int) :
    Won ⟨db, ⟨i, .uploadXorb pathPrefix hashSuffix body,
      ⟨.sql (.insertPending h n bounds), .ok true⟩⟩ :: log⟩ h body := by
  refine ⟨⟨i, .uploadXorb pathPrefix hashSuffix body,
    ⟨.sql (.insertPending h n bounds), .ok true⟩⟩, ?_, pathPrefix, hashSuffix, rfl⟩
  simp [winners, wins]

/-! ## The invariant -/

/-- A row of `xorbs` is described by the winner's body: its size, the origin of its id, and that a
pinned row has an id. -/
structure RowNamed (w : Shared) (h : Hash) (r : PinRow) : Prop where
  size : ∃ body, Won w h body ∧ r.sizeBytes = body.length
  id : ∀ id, r.siaObjectId = some id → Justified w h id
  pinned : r.pinState = .pinned → r.siaObjectId.isSome

/-- The shared invariant: rows and bodies belong to the one winner. -/
structure Named (w : Shared) : Prop where
  row : ∀ h r, w.store.pin .xorb h = some r → RowNamed w h r
  body : ∀ h b, w.store.xorbBodies.find h = some b → Won w h b
  won : ∀ h, winners w h ≠ [] → HasRow w.store h
  once : ∀ h, (winners w h).length ≤ 1

/-- Two requests that won the same hash are the same. -/
theorem Named.won_unique {w : Shared} (hinv : Named w) {h : Hash} {b b' : Bytes}
    (hw : Won w h b) (hw' : Won w h b') : b = b' := by
  rcases hw with ⟨e, he, p, s, hreq⟩
  rcases hw' with ⟨e', he', p', s', hreq'⟩
  have honce := hinv.once h
  have hEq : e = e' := by
    match hl : winners w h, honce with
    | [], _ => simp [hl] at he
    | [a], _ => simp_all
    | a :: a' :: l, hle => simp at hle
  rw [hEq, hreq'] at hreq
  cases hreq
  rfl

theorem RowNamed.mono {w w' : Shared} (hg : LogGrows w w') {h : Hash} {r : PinRow}
    (hr : RowNamed w h r) : RowNamed w' h r := by
  refine ⟨?_, ?_, hr.pinned⟩
  · rcases hr.size with ⟨body, hw, hlen⟩
    exact ⟨body, hw.mono hg, hlen⟩
  · intro id hid
    exact (hr.id id hid).mono hg

/-- What a task must know when it performs an operation. -/
def NamingPre (x : Crates) (req : Request) (w : Shared) : Op → Prop
  | .sql (.insertPending h n _) =>
      ∃ pathPrefix hashSuffix body, req = .uploadXorb pathPrefix hashSuffix body ∧
        pathHash x pathPrefix hashSuffix = some h ∧ n = body.length
  | .sql (.insertXorbBody h content) => Won w h content
  | .sql (.setPinState .xorb h state id) =>
      RegularWrite state id ∧ ∀ id', id = some id' → Justified w h id'
  | .sql (.setPinned .xorb h id) => Justified w h id
  | _ => True

/-! ## One operation keeps the invariant -/

/-- The row update of a statement keeps a row named. -/
theorem RowNamed.pinEffect {x : Crates} {req : Request} {w : Shared} {s : Stmt} {now : Nat}
    {h : Hash} {r : PinRow} (hpre : NamingPre x req w (.sql s)) (hr : RowNamed w h r) :
    RowNamed w h (s.pinEffect now .xorb h r) := by
  have hupdate := s.rowUpdate now .xorb h r
  generalize s.pinEffect now .xorb h r = r' at hupdate ⊢
  cases hupdate with
  | keep => exact hr
  | setPinState state id hEq =>
      subst hEq
      rcases hpre with ⟨⟨rfl, hid⟩ | ⟨rfl, rfl⟩, hjust⟩
      · rcases Option.isSome_iff_exists.1 hid with ⟨id', rfl⟩
        refine ⟨hr.size, ?_, fun _ => rfl⟩
        rintro id'' ⟨⟩
        exact hjust id' rfl
      · exact ⟨hr.size, hr.id, fun hstate => by cases hstate⟩
  | setPinned id hEq =>
      subst hEq
      by_cases hp : r.pinState = .pinned
      · simpa [PinRow.setPinned, hp] using hr
      · -- The stored id wins over the new one; both name the winner's body.
        simp only [PinRow.setPinned, hp, if_false]
        refine ⟨hr.size, ?_, ?_⟩
        · intro id' hid'
          cases hold : r.siaObjectId with
          | none =>
              have hEq : id = id' := by simpa [hold] using hid'
              exact hEq ▸ hpre
          | some old =>
              have hEq : old = id' := by simpa [hold] using hid'
              exact hr.id id' (hEq ▸ hold)
        · intro _
          cases r.siaObjectId <;> rfl
  | touchAttempt _ => exact ⟨hr.size, hr.id, hr.pinned⟩
  | bumpAttempt _ => exact ⟨hr.size, hr.id, hr.pinned⟩
  | orphan _ => exact ⟨hr.size, hr.id, fun hstate => by cases hstate⟩
  | revive hashes _ _ _ => exact ⟨hr.size, hr.id, fun hstate => by cases hstate⟩

theorem wins_eq {h : Hash} {call : Call Op Res} (hwin : wins h call = true) :
    ∃ n bounds, call = ⟨.sql (.insertPending h n bounds), .ok true⟩ := by
  unfold wins at hwin
  split at hwin
  · rename_i h' n bounds
    have hEq : h' = h := by simpa using hwin
    subst hEq
    exact ⟨n, bounds, rfl⟩
  · cases hwin

theorem winners_cons (w : Shared) (db : Database) (e : Entry Request Op Res) (h : Hash) :
    winners ⟨db, e :: w.log⟩ h = if wins h e.call then e :: winners w h else winners w h := by
  simp [winners, List.filter_cons]

/-- Every operation performed with its precondition keeps the invariant. -/
theorem Named.op {x : Crates} {i : Nat} {req : Request} {w : Shared} {o : Op} {e : Env}
    {db : Database} {r : Res o} (hinv : Named w) (hpre : NamingPre x req w o)
    (he : exec o e w.store = some (db, r)) : Named ⟨db, ⟨i, req, ⟨o, r⟩⟩ :: w.log⟩ := by
  have hgrow := LogGrows.cons w db ⟨i, req, ⟨o, r⟩⟩
  refine ⟨?_, ?_, ?_, ?_⟩
  · intro h r' hr'
    rcases exec_cases he with ⟨rfl, -⟩ | ⟨now, scan, s, rs, -, hcall, hs⟩
    · exact (hinv.row h r' hr').mono hgrow
    · cases hcall
      change db.pin .xorb h = some r' at hr'
      cases hold : w.store.pin .xorb h with
      | some r₀ =>
          rcases pin_exec hs .xorb h with hmap | ⟨hnone, -⟩
          · rw [hmap, hold] at hr'
            cases hr'
            exact (RowNamed.pinEffect hpre (hinv.row h r₀ hold)).mono hgrow
          · rw [hold] at hnone
            cases hnone
      | none =>
          -- The row is new: this call won it, and its request carries the body.
          have hnot : ¬HasRow w.store h := by simp [HasRow, hold]
          have hnew : HasRow db h := by simp [HasRow, hr']
          rcases eq_insertPending_of_new hs hnot hnew with ⟨n, bounds, hwin⟩
          cases hwin
          rcases hpre with ⟨pathPrefix, hashSuffix, body, rfl, -, rfl⟩
          have hfresh : r' = PinRow.fresh body.length := by
            have hpin := pin_insertPending w.store h body.length bounds .xorb h
            obtain ⟨rfl, -⟩ := Prod.mk.inj (Option.some.inj hs)
            rw [hpin] at hr'
            simpa [hold, eq_comm] using hr'
          have hwon := won_of_win w.log db i pathPrefix hashSuffix body h body.length bounds
          subst hfresh
          refine ⟨⟨body, hwon, rfl⟩, ?_, ?_⟩
          · rintro id ⟨⟩
          · rintro ⟨⟩
  · intro h b hb
    rcases exec_cases he with ⟨rfl, -⟩ | ⟨now, scan, s, rs, -, hcall, hs⟩
    · exact (hinv.body h b hb).mono hgrow
    · cases hcall
      rcases xorbBodies_exec hs with hEq | ⟨h', content, rfl, hEq⟩
      · rw [hEq] at hb
        exact (hinv.body h b hb).mono hgrow
      · by_cases hh : h = h'
        · subst hh
          rw [hEq, Table.find_insertNew_self] at hb
          cases hold : w.store.xorbBodies.find h with
          | none =>
              have hcontent : content = b := by simpa [hold] using hb
              subst hcontent
              exact Won.mono hgrow hpre
          | some b₀ =>
              have hkeep : b₀ = b := by simpa [hold] using hb
              subst hkeep
              exact (hinv.body h b₀ hold).mono hgrow
        · rw [hEq, Table.find_insertNew_of_ne _ _ hh] at hb
          exact (hinv.body h b hb).mono hgrow
  · intro h hne
    rw [winners_cons] at hne
    by_cases hwin : wins h ⟨o, r⟩ = true
    · rcases wins_eq hwin with ⟨n, bounds, hcall⟩
      cases hcall
      exact (insertPending_exec_op he).1
    · simp only [hwin] at hne
      exact hasRow_exec_op he (hinv.won h hne)
  · intro h
    rw [winners_cons]
    by_cases hwin : wins h ⟨o, r⟩ = true
    · -- A call can win only if nobody won before.
      rcases wins_eq hwin with ⟨n, bounds, hcall⟩
      cases hcall
      have hnot := (insertPending_exec_op he).2.1 rfl
      have hnil : winners w h = [] := by
        by_contra hne
        exact hnot (hinv.won h hne)
      simp [hnil, hwin]
    · simp only [hwin]
      exact hinv.once h

theorem Named.initial : Named State.initial.toWorld := by
  refine ⟨?_, ?_, ?_, ?_⟩
  · intro h r hr
    cases hr
  · intro h b hb
    cases hb
  · intro h hne
    exact absurd rfl hne
  · intro h
    exact Nat.zero_le 1

/-- The discipline: the past is known, and the log only grows. -/
def namingDiscipline (x : Crates) : Discipline Request exec where
  inv := Named
  rely _ := LogGrows
  pre _ req w o := NamingPre x req w o
  allow _ _ _ _ _ := True
  rely_refl _ := LogGrows.refl
  rely_trans _ _ _ _ := LogGrows.trans
  guarantee := by
    intro i req w o e db r hinv hpre _ he
    exact ⟨hinv.op hpre he, fun _ _ => LogGrows.cons w db _⟩

/-! ## The programs keep the discipline -/

section Programs

variable {x : Crates} {i : Nat} {req : Request} {w : Shared}

/-- A program without obligations. -/
theorem satNow_of_free {α : Type} {p : Code α} (hp : p.Uses fun o => ∀ w, NamingPre x req w o)
    (hinv : Named w) : p.SatNow (namingDiscipline x) i req (fun _ _ => True) w :=
  Prog.SatNow.of_uses (D := namingDiscipline x) hp (fun w _ _ hpre => hpre w)
    (fun _ _ _ => trivial) hinv

theorem free_leavePinning (x : Crates) (req : Request) (h : Hash) :
    (leavePinning .xorb h).Uses fun o => ∀ w, NamingPre x req w o := by
  refine uses_leavePinning ?_
  intro w
  refine ⟨.inr ⟨rfl, rfl⟩, ?_⟩
  rintro id ⟨⟩

theorem free_recordXorbUpload (x : Crates) (req : Request) (h : Hash) (n : Nat) :
    (recordXorbUpload h n).Uses fun o => ∀ w, NamingPre x req w o :=
  uses_recordXorbUpload fun _ => trivial

theorem satNow_pushXorb {h : Hash} {body : Bytes} (hwon : Won w h body) :
    (pushXorb h body).SatNow (namingDiscipline x) i req (fun _ _ => True) w := by
  have hleave := free_leavePinning x req h
  have hrecord := free_recordXorbUpload x req h body.length
  refine ⟨trivial, ?_⟩
  rintro e db (_ | (_ | _) | id) - he w' hgrow hinv
  · exact satNow_of_free (hleave.bind fun _ => hrecord.bind fun _ => trivial) hinv
  · exact satNow_of_free (hleave.bind fun _ => hrecord.bind fun _ => trivial) hinv
  · exact satNow_of_free (hleave.bind fun _ => trivial) hinv
  · -- The id that is written was just returned for the winner's body.
    have hgrow₁ := LogGrows.cons w db ⟨i, req, ⟨.uploadAndPin .xorb h body, .ok (.ok id)⟩⟩
    have huploaded : Uploaded w' h body id :=
      Uploaded.mono hgrow ⟨_, List.mem_cons_self, rfl⟩
    have hjust : Justified w' h id := ⟨body, hwon.mono (hgrow₁.trans hgrow), huploaded⟩
    refine ⟨⟨.inl ⟨rfl, rfl⟩, ?_⟩, ?_⟩
    · rintro id' ⟨⟩
      exact hjust
    · rintro e' db' (_ | _) - - w'' - hinv'
      · trivial
      · exact satNow_of_free (hrecord.bind fun _ => trivial) hinv'

theorem satNow_storeXorb_naming {pathPrefix hashSuffix : String} {h : Hash}
    {boundaries : List Int} {body : Bytes} (hpath : pathHash x pathPrefix hashSuffix = some h) :
    (storeXorb h boundaries body).SatNow (namingDiscipline x) i
      (.uploadXorb pathPrefix hashSuffix body) (fun _ _ => True) w := by
  refine ⟨⟨pathPrefix, hashSuffix, body, rfl, hpath, rfl⟩, ?_⟩
  rintro e db (_ | (_ | _)) - he w' hgrow hinv
  · trivial
  · exact satNow_of_free ((free_recordXorbUpload x _ h _).bind fun _ => trivial) hinv
  · -- This request won, and stays the winner.
    have hwon : Won w' h body :=
      (won_of_win w.log db i pathPrefix hashSuffix body h body.length boundaries).mono hgrow
    refine ⟨hwon, ?_⟩
    intro e' db' r _ he' w'' hgrow' hinv'
    have hgrow₁ := LogGrows.cons w' db' ⟨i, .uploadXorb pathPrefix hashSuffix body, ⟨_, r⟩⟩
    exact satNow_pushXorb (hwon.mono (hgrow₁.trans hgrow'))

/-- What a sweep knows about a row it selected: its id, if any, is justified. -/
def RowKnown (w : Shared) (row : Database.StuckRow) : Prop :=
  ∀ oid, row.siaObjectId = some oid → Justified w row.hash oid

theorem RowKnown.mono {w w' : Shared} (hgrow : LogGrows w w') {row : Database.StuckRow}
    (hrow : RowKnown w row) : RowKnown w' row :=
  fun oid hoid => (hrow oid hoid).mono hgrow

theorem free_bumpAttempt (x : Crates) (req : Request) (k : Kind) (h : Hash) (n : Nat)
    (err : SiaAdapterError) :
    (bumpAttempt k h n err).Uses fun o => ∀ w, NamingPre x req w o := by
  unfold bumpAttempt
  split_ifs <;> exact ⟨fun _ => trivial, fun _ => trivial⟩

theorem satNow_setPinnedRow {h : Hash} {id : Bytes} (hjust : Justified w h id) :
    (setPinnedRow .xorb h id).SatNow (namingDiscipline x) i req (fun _ _ => True) w :=
  ⟨hjust, fun _ _ _ _ _ _ _ _ => trivial⟩

theorem satNow_reconcileXorbRow {row : Database.StuckRow} (hinv : Named w)
    (hknown : RowKnown w row) :
    (reconcileXorbRow row).SatNow (namingDiscipline x) i req (fun _ _ => True) w := by
  have hbump := free_bumpAttempt x req .xorb row.hash row.pinAttempts
  unfold reconcileXorbRow
  split
  · exact satNow_of_free ⟨fun _ => trivial, fun _ => trivial⟩ hinv
  · split
    · rename_i oid hoid
      refine ⟨trivial, ?_⟩
      rintro e db (_ | _ | _) - - w' hgrow hinv'
      · exact satNow_of_free (hbump .other) hinv'
      · exact satNow_of_free (hbump _) hinv'
      · have hgrow₁ := LogGrows.cons w db ⟨i, req, ⟨.pinOnly .xorb row.hash oid, .ok (.ok ())⟩⟩
        exact satNow_setPinnedRow ((hknown oid hoid).mono (hgrow₁.trans hgrow))
    · refine ⟨trivial, ?_⟩
      rintro e db (_ | (_ | bytes)) - he w' hgrow hinv'
      · trivial
      · exact satNow_of_free (hbump .other) hinv'
      · -- What `xorb_bodies` holds is the winner's body.
        have hbody : w.store.xorbBodies.find row.hash = some bytes := by
          rcases exec_cases he with ⟨-, hnot⟩ | ⟨now, scan, s, rs, -, hcall, hs⟩
          · have herr := hnot _ rfl
            subst herr
            cases he
          · cases hcall
            have hreply := (Prod.mk.inj (Option.some.inj hs)).2
            exact Except.ok.inj hreply
        have hwon : Won w' row.hash bytes := by
          have hgrow₁ := LogGrows.cons w db
            ⟨i, req, ⟨.sql (.loadXorbBody row.hash), .ok (some bytes)⟩⟩
          exact (hinv.body row.hash bytes hbody).mono (hgrow₁.trans hgrow)
        refine ⟨trivial, ?_⟩
        rintro e' db' (_ | _ | id) - - w'' hgrow' hinv''
        · exact satNow_of_free (hbump .other) hinv''
        · exact satNow_of_free (hbump _) hinv''
        · have hgrow₁ := LogGrows.cons w' db'
            ⟨i, req, ⟨.uploadAndPin .xorb row.hash bytes, .ok (.ok id)⟩⟩
          have huploaded : Uploaded w'' row.hash bytes id :=
            Uploaded.mono hgrow' ⟨_, List.mem_cons_self, rfl⟩
          exact satNow_setPinnedRow ⟨bytes, hwon.mono (hgrow₁.trans hgrow'), huploaded⟩

theorem satNow_sweepRows (rows : List Database.StuckRow) (hinv : Named w)
    (hknown : ∀ row ∈ rows, RowKnown w row) :
    (sweepRows reconcileXorbRow rows).SatNow (namingDiscipline x) i req (fun _ _ => True) w := by
  induction rows generalizing w with
  | nil => trivial
  | cons row rows ih =>
      have hfirst : (reconcileXorbRow row).SatNow (namingDiscipline x) i req
          (fun _ _ => True) w :=
        satNow_reconcileXorbRow hinv (hknown row List.mem_cons_self)
      -- What is known about the remaining rows survives the work on the first one.
      have hframe := hfirst.frame (I := fun w : Shared => ∀ row ∈ rows, RowKnown w row)
        (fun _ _ hrows hgrow row hrow => (hrows row hrow).mono hgrow)
        (fun w _ _ db _ hrows _ row hrow => (hrows row hrow).mono (LogGrows.cons w db _))
        (fun row hrow => hknown row (List.mem_cons_of_mem _ hrow))
      refine hframe.bind hinv ?_
      intro w' handled hinv' hpost
      refine (ih hinv' hpost.2).bind hinv' ?_
      intro _ _ _ _
      trivial

theorem free_reconcileShardRow (row : Database.StuckRow) :
    (reconcileShardRow row).Uses fun o => ∀ w, NamingPre x req w o := by
  refine (uses_reconcileShardRow row).mono ?_
  intro o ho w
  cases ho with
  | _ => trivial

theorem satNow_reconcileOnce (hinv : Named w) :
    reconcileOnce.SatNow (namingDiscipline x) i req (fun _ _ => True) w := by
  refine ⟨trivial, ?_⟩
  rintro e db (_ | rows) - he w' hgrow hinv'
  · trivial
  · have hknown : ∀ row ∈ rows, RowKnown w' row := by
      intro row hrow oid hoid
      rcases fetchStuck_exec he with ⟨rfl, now, scan, rfl, hperm, rfl⟩
      rcases pin_of_fetchStuck hperm hrow with ⟨r, hr, -, hEq⟩
      have hid : r.siaObjectId = some oid := by
        rw [hEq] at hoid
        exact hoid
      have hgrow₁ := LogGrows.cons w w.store
        ⟨i, req, ⟨.sql (.fetchStuck .xorb), .ok (Database.fetchStuck scan now)⟩⟩
      exact ((hinv.row row.hash r hr).id oid hid).mono (hgrow₁.trans hgrow)
    refine (satNow_sweepRows rows hinv' hknown).bind hinv' ?_
    intro w₁ handled hinv₁ _
    refine satNow_of_free (Prog.Uses.perform_bind (fun _ => trivial) ?_) hinv₁
    rintro (_ | shardRows)
    · trivial
    · exact (uses_sweepRows fun row _ => free_reconcileShardRow row).bind fun _ => trivial

theorem satNow_code_naming (hinv : Named w) :
    (code x req).SatNow (namingDiscipline x) i req (fun _ _ => True) w := by
  cases req with
  | uploadXorb pathPrefix hashSuffix body =>
      have hupload : (uploadXorb x pathPrefix hashSuffix body).SatNow (namingDiscipline x) i
          (.uploadXorb pathPrefix hashSuffix body) (fun _ _ => True) w := by
        unfold uploadXorb
        split
        · trivial
        · rename_i expected boundaries hok
          refine ⟨trivial, ?_⟩
          rintro e db (_ | _) - - w' - -
          · trivial
          · exact satNow_storeXorb_naming (admitXorb_eq_ok_iff.1 hok).1
      exact hupload.bind hinv fun _ _ _ _ => trivial
  | uploadShard body =>
      have hshard : (uploadShard x body).SatNow (namingDiscipline x) i (.uploadShard body)
          (fun _ _ => True) w := by
        refine satNow_of_free ((uses_uploadShard x body).mono ?_) hinv
        intro o ho w
        cases o with
        | sql s =>
            cases s with
            | setPinState k h state id =>
                obtain ⟨rfl, -⟩ := ho
                trivial
            | _ => trivial
        | _ => trivial
      exact hshard.bind hinv fun _ _ _ _ => trivial
  | sweep => exact (satNow_reconcileOnce hinv).bind hinv fun _ _ _ _ => trivial

end Programs

namespace State

variable {x : Crates} {c c' : State} {a : Step} {allow : State → Step → Prop}

theorem Reachable.named (h : Reachable x allow c) : Named c.toWorld := by
  have hsecure : Secure (namingDiscipline x) (fun _ _ _ _ => True) c := by
    apply h.invariant (I := Secure (namingDiscipline x) fun _ _ _ _ => True)
    · refine ⟨Named.initial, ?_⟩
      intro i req p ht
      cases ht
    · intro c₁ a c₂ hsec _ hs
      apply hsec.step hs
      · intro i req w hinv
        exact satNow_code_naming hinv
      · intros
        trivial
  exact hsecure.1

/-- A pinned xorb row names its own bytes: it has an id, the id was returned by an
`upload_and_pin` of the body of the one request that won `insert_pending`, and `size_bytes` is the
length of that body. -/
def PinnedNamed (c : State) : Prop :=
  ∀ h r, c.store.pin .xorb h = some r → r.pinState = .pinned →
    ∃ id winner pathPrefix hashSuffix body,
      r.siaObjectId = some id ∧
      winners c.toWorld h = [winner] ∧
      winner.request = .uploadXorb pathPrefix hashSuffix body ∧
      Uploaded c.toWorld h body id ∧
      r.sizeBytes = body.length

/-- The step does not set a `sia_object_id` back to `NULL`. -/
def KeepsIds (c c' : State) : Prop :=
  ∀ k h r, c.store.pin k h = some r → r.siaObjectId.isSome →
    ∃ r', c'.store.pin k h = some r' ∧ r'.siaObjectId.isSome

theorem isSome_pinEffect {s : Stmt} {now : Nat} {k : Kind} {h : Hash} {r : PinRow}
    (hid : r.siaObjectId.isSome) : (s.pinEffect now k h r).siaObjectId.isSome := by
  have hupdate := s.rowUpdate now k h r
  generalize s.pinEffect now k h r = r' at hupdate ⊢
  rcases Option.isSome_iff_exists.1 hid with ⟨id₀, hid₀⟩
  cases hupdate with
  | setPinState state id _ => cases id <;> simp [PinRow.setPinState, hid₀]
  | setPinned id _ => by_cases hp : r.pinState = .pinned <;> simp [PinRow.setPinned, hp, hid₀]
  | _ => exact hid

theorem keepsIds_next (hs : c.next x a = some c') : KeepsIds c c' := by
  intro k h r hr hid
  rcases pin_next hs hr with hkeep | ⟨i, now, scan, s, -, -, heff⟩
  · exact ⟨r, hkeep, hid⟩
  · exact ⟨_, heff, isSome_pinEffect hid⟩

theorem pinnedNamed_of_named (hinv : Named c.toWorld) : PinnedNamed c := by
  intro h r hr hpinned
  have hrow := hinv.row h r hr
  rcases Option.isSome_iff_exists.1 (hrow.pinned hpinned) with ⟨id, hid⟩
  rcases hrow.id id hid with ⟨body, hwon, huploaded⟩
  rcases hrow.size with ⟨body', hwon', hsize⟩
  have hbody := hinv.won_unique hwon' hwon
  subst hbody
  rcases hwon with ⟨winner, hmem, pathPrefix, hashSuffix, hreq⟩
  have hsingle : winners c.toWorld h = [winner] := by
    have honce := hinv.once h
    match hl : winners c.toWorld h, honce with
    | [], _ => simp [hl] at hmem
    | [a], _ =>
        have hEq : winner = a := by simpa [hl] using hmem
        rw [hEq]
    | a :: a' :: l, hle => simp at hle
  exact ⟨id, winner, pathPrefix, hashSuffix, body', hid, hsingle, hreq, huploaded, hsize⟩

/-- In every reachable state every pinned xorb row names its own bytes, and no step from there sets
an id back to `NULL`. -/
theorem pinnedNamed_of_reachable (h : Reachable x anyStep c) :
    PinnedNamed c ∧ ∀ a c', c.next x a = some c' → KeepsIds c c' :=
  ⟨pinnedNamed_of_named h.named, fun _ _ => keepsIds_next⟩

/-- The upload and the racing sweep of `racingSteps` end in a state with a pinned row. -/
theorem pinnedNamed_of_reachable_racingSteps :
    ∃ c, Reachable (bareCrates fun _ => Hash.fill 0) anyStep c ∧
      c.store.xorbPinned sampleHash = true ∧ PinnedNamed c ∧
      ∀ a c', c.next (bareCrates fun _ => Hash.fill 0) a = some c' → KeepsIds c c' := by
  have heval : (initial.runAll (bareCrates fun _ => Hash.fill 0) racingSteps).map
      (fun c => c.store.xorbPinned sampleHash) = some true := by
    decide +kernel
  rcases exists_run heval with ⟨tr, c, hrun, hpinned⟩
  have hreach : Reachable (bareCrates fun _ => Hash.fill 0) anyStep c :=
    ⟨tr, hrun, fun _ _ => trivial⟩
  exact ⟨c, hreach, hpinned, pinnedNamed_of_reachable hreach⟩

end State

end Service
end OpenWeights
