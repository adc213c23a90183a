import OpenWeights.Hub.Revisions

/-!
# Atomicity — what a refused commit leaves behind

The commit, its manifest and the move of `main` are written in one transaction.  The inline contents
are stored while the entries are checked, before the transaction begins: they are objects under their
digests, like those of `PUT /lfs/objects/{oid}`, and stay when the commit is refused.

* `AllOrNothing`   : a refused commit leaves four tables as they were, an accepted one has a row for
  each entry;
* `OnlyObjectsStay`: the same, with the objects of the entries accepted before it was refused.
-/

namespace OpenWeights
namespace Hub

open Lib Db

/-! ## What is promised -/

def submitted (x : HubCrates) (c : CommitCall) : List CommitFile :=
  match parseBody x c.body with
  | .error _ => []
  | .ok parsed => parsed.2

/-- A commit that succeeds is new, and its manifest has one row for each entry. -/
def OneRowEach (x : HubCrates) (limit : LimitOne) (db : HubDatabase) (c : CommitCall) : Prop :=
  ∀ {resp db'}, commit x limit db c = (.ok resp, db') →
    ∃ commitId, resp = commitResp x c commitId ∧ db.repoCommits.find commitId = none ∧
      (db'.repoCommits.find commitId).isSome ∧
      ((db'.manifest commitId).map Prod.fst).Perm ((submitted x c).map CommitFile.path)

/-- A commit is all or nothing. -/
structure AllOrNothing (x : HubCrates) (limit : LimitOne) (db : HubDatabase) (c : CommitCall) :
    Prop where
  refused : ∀ {e db'}, commit x limit db c = (.error e, db') →
    db'.repoCommits = db.repoCommits ∧ db'.repoFiles = db.repoFiles ∧ db'.repoRefs = db.repoRefs ∧
      db'.lfsObjects = db.lfsObjects
  accepted : OneRowEach x limit db c

/-- Where a refused commit stopped, with the entries it had accepted by then. -/
inductive RefusedAt (x : HubCrates) (limit : LimitOne) (db : HubDatabase) (c : CommitCall) :
    AppError → List CommitFile → Prop where
  | admission {e : AppError} : admitCommit x db c = .error e → RefusedAt x limit db c e []
  | entry {repoId : Int} {header : CommitHeader} {accepted : List CommitFile} {f : CommitFile}
      {rest : List CommitFile} {db' : HubDatabase} {e : AppError} :
      admitCommit x db c = .ok (repoId, header, accepted ++ f :: rest) →
      Accepts x limit db accepted db' → stageFile x limit db' f = .error e →
      RefusedAt x limit db c e accepted
  | transaction {repoId : Int} {header : CommitHeader} {files : List CommitFile}
      {db' : HubDatabase} :
      admitCommit x db c = .ok (repoId, header, files) → Accepts x limit db files db' →
      ¬(files.map CommitFile.path).Nodup → RefusedAt x limit db c .db files

/-- The same, but the inline contents of the entries that were accepted before the commit was refused
stay, each under its digest. -/
structure OnlyObjectsStay (x : HubCrates) (limit : LimitOne) (db : HubDatabase) (c : CommitCall) :
    Prop where
  refused : ∀ {e db'}, commit x limit db c = (.error e, db') →
    db'.repoCommits = db.repoCommits ∧ db'.repoFiles = db.repoFiles ∧ db'.repoRefs = db.repoRefs ∧
      ∃ accepted, RefusedAt x limit db c e accepted ∧ accepted <+: submitted x c ∧
        db'.lfsObjects = db.lfsObjects.insertAll (objects x (ingested x accepted))
  accepted : OneRowEach x limit db c

/-! ## What holds -/

/-- Where the objects stay as they were, too: nothing was stored yet, or all of it was there. -/
theorem OnlyObjectsStay.allOrNothing {x : HubCrates} {limit : LimitOne} {db : HubDatabase}
    {c : CommitCall} (h : OnlyObjectsStay x limit db c)
    (hnone : ∀ f ∈ submitted x c, f.xetHash.isSome ∨ f.content = none) :
    AllOrNothing x limit db c where
  refused := by
    intro e db' hrefused
    obtain ⟨hcommits, hfiles, hrefs, accepted, -, hprefix, hobjects⟩ := h.refused hrefused
    have hnothing : ingested x accepted = [] := by
      refine List.filterMap_eq_nil_iff.2 fun f hf => ?_
      rcases hnone f (List.IsPrefix.subset hprefix hf) with hxet | hcontent
      · rw [if_neg (Option.isSome_iff_ne_none.1 hxet)]
      · simp [hcontent]
    rw [hnothing] at hobjects
    exact ⟨hcommits, hfiles, hrefs, hobjects⟩
  accepted := h.accepted

end Hub
end OpenWeights
