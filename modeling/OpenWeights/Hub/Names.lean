import OpenWeights.Hub.Revisions

/-!
# Names — where the name of a created repository leads

`create_repo` creates under the caller and the bare name, and answers with a name in which the
organization of the request stands for the owner.  `find_repo_id` looks for the login of the owner.
The two meet where the label is the login of the caller.

* `createRepos`  : calls of `create_repo` one after the other, with their answers;
* `LeadsTo`      : a name that resolves to a repository of a user;
* `NamesResolve` : what the answers promise.
-/

namespace OpenWeights
namespace Hub

open Lib Db

/-! ## Sequences of calls -/

structure CreateCall where
  ctx : AuthContext
  req : CreateRepoReq
  now : Nat
  deriving DecidableEq, Repr

/-- Calls of `create_repo` one after the other: those that succeeded, each with its answer, and the
database they leave. -/
def createRepos : HubDatabase → List CreateCall → List (CreateCall × CreateRepoResp) × HubDatabase
  | db, [] => ([], db)
  | db, c :: cs =>
      match createRepo db c.ctx c.req c.now with
      | (.error _, db) => createRepos db cs
      | (.ok answer, db) => ((c, answer) :: (createRepos db cs).1, (createRepos db cs).2)

/-- `name`, read as `owner/repo`, resolves to a repository of the user. -/
def LeadsTo (db : HubDatabase) (userId : Int) (name : Bytes) (repoId : Int) : Prop :=
  ∃ owner repo, name = owner ++ lit "/" ++ repo ∧ 47 ∉ repo ∧
    findRepoId db owner repo = .ok repoId ∧ requireOwnership db repoId userId = .ok ()

/-- Every answer names a repository of its caller, and different answers to one caller name different
repositories. -/
structure NamesResolve (run : List (CreateCall × CreateRepoResp) × HubDatabase) : Prop where
  resolves : ∀ {c answer}, (c, answer) ∈ run.1 →
    ∃ repoId, LeadsTo run.2 c.ctx.userId answer.name repoId
  distinct : ∀ {c c' answer answer'}, (c, answer) ∈ run.1 → (c', answer') ∈ run.1 →
    c.ctx.userId = c'.ctx.userId → answer.name ≠ answer'.name →
    ∀ {repoId repoId'}, LeadsTo run.2 c.ctx.userId answer.name repoId →
      LeadsTo run.2 c.ctx.userId answer'.name repoId' → repoId ≠ repoId'

/-- `users.github_login` is `UNIQUE`. -/
def LoginsUnique (db : HubDatabase) : Prop :=
  ∀ {id id' : Int} {u u' : UserRow}, db.users.find id = some u → db.users.find id' = some u' →
    u.githubLogin = u'.githubLogin → id = id'

/-- The owner in the name `create_repo` answers with. -/
def ownerLabel (caller : UserRow) (req : CreateRepoReq) : Bytes :=
  (req.organization.filter fun s => isValidRepoName s).getD caller.githubLogin

/-- A call that will succeed labels the repository with the login of its caller: it sends no
organization, or one that is not a valid name, or its own login. -/
def OwnLabel (db : HubDatabase) (c : CreateCall) : Prop :=
  ∀ {caller}, db.users.find c.ctx.userId = some caller → isValidRepoName c.req.name = true →
    ∀ {label}, c.req.organization.filter (fun s => isValidRepoName s) = some label →
      label = caller.githubLogin

/-! ## Resolution -/

/-- A valid name has no slash. -/
theorem slash_not_mem {name : Bytes} (h : isValidRepoName name = true) : 47 ∉ name := by
  intro hmem
  simp only [isValidRepoName, Bool.and_eq_true] at h
  have hslash := List.all_eq_true.1 h.1.2 47 hmem
  revert hslash
  decide

/-- A name is split at its last slash. -/
theorem split_unique {owner owner' repo repo' : Bytes} (h : 47 ∉ repo) (h' : 47 ∉ repo')
    (hEq : owner ++ lit "/" ++ repo = owner' ++ lit "/" ++ repo') :
    owner = owner' ∧ repo = repo' := by
  have hslash : lit "/" = [47] := by decide
  rw [hslash] at hEq
  have hreversed := congrArg List.reverse hEq
  simp only [List.reverse_append, List.reverse_cons, List.reverse_nil, List.nil_append,
    List.singleton_append] at hreversed
  -- Read from its end, the name is the repository up to the first slash.
  obtain ⟨hrepo, howner⟩ := eq_of_append_sep (by simpa using h) (by simpa using h') hreversed
  exact ⟨List.reverse_injective howner, List.reverse_injective hrepo⟩

/-- What `find_repo_id` answers with. -/
theorem findRepoId_ok {db : HubDatabase} {owner repo : Bytes} {repoId : Int}
    (h : findRepoId db owner repo = .ok repoId) :
    ∃ row user, db.repos.find repoId = some row ∧ db.users.find row.ownerUserId = some user ∧
      user.githubLogin = owner ∧ row.name = repo := by
  unfold findRepoId at h
  split at h
  · cases h
  · rename_i found hfound
    cases h
    obtain ⟨⟨id, row⟩, hrow, rfl⟩ := Option.map_eq_some_iff.1 hfound
    have hcols := List.find?_some hrow
    simp only [Bool.and_eq_true, decide_eq_true_eq] at hcols
    obtain ⟨user, huser, hlogin⟩ := Option.map_eq_some_iff.1 hcols.1
    have hfind := Table.find_eq_some_iff.2 (List.mem_of_find?_eq_some hrow)
    exact ⟨row, user, hfind, huser, hlogin, hcols.2⟩

/-- A repository with this owner and this name is enough for `find_repo_id` to answer. -/
theorem findRepoId_of_row {db : HubDatabase} {id : Int} {row : RepoRow} {user : UserRow}
    (hrow : db.repos.find id = some row) (huser : db.users.find row.ownerUserId = some user) :
    ∃ repoId, findRepoId db user.githubLogin row.name = .ok repoId := by
  have hsome : (db.repoOf user.githubLogin row.name).isSome := by
    rw [HubDatabase.repoOf, Option.isSome_map, List.find?_isSome]
    refine ⟨(id, row), Table.find_eq_some_iff.1 hrow, ?_⟩
    simp [huser]
  obtain ⟨repoId, hfound⟩ := Option.isSome_iff_exists.1 hsome
  exact ⟨repoId, by simp [findRepoId, hfound]⟩

theorem requireOwnership_ok {db : HubDatabase} {repoId userId : Int} :
    requireOwnership db repoId userId = .ok () ↔
      ∃ row, db.repos.find repoId = some row ∧ row.ownerUserId = userId := by
  unfold requireOwnership
  cases hrow : db.repos.find repoId with
  | none => simp
  | some row =>
      by_cases howner : row.ownerUserId = userId
      · simp [howner]
      · simp [howner]

/-- A repository has one name. -/
theorem LeadsTo.name_unique {db : HubDatabase} {userId repoId : Int} {name name' : Bytes}
    (h : LeadsTo db userId name repoId) (h' : LeadsTo db userId name' repoId) : name = name' := by
  obtain ⟨owner, repo, rfl, -, hfound, -⟩ := h
  obtain ⟨owner', repo', rfl, -, hfound', -⟩ := h'
  obtain ⟨row, user, hrow, huser, hlogin, hname⟩ := findRepoId_ok hfound
  obtain ⟨row', user', hrow', huser', hlogin', hname'⟩ := findRepoId_ok hfound'
  have hsame : row = row' := Option.some.inj (hrow.symm.trans hrow')
  subst hsame
  have hsame : user = user' := Option.some.inj (huser.symm.trans huser')
  subst hsame
  rw [← hlogin, ← hlogin', ← hname, ← hname']

/-- Where a label and a bare name lead: to the caller's repository if the label is their login, to
none of theirs otherwise. -/
theorem leadsTo_iff {db : HubDatabase} (hlogins : LoginsUnique db) {userId : Int} {user : UserRow}
    (huser : db.users.find userId = some user) {label name : Bytes}
    (hname : isValidRepoName name = true) :
    (∃ repoId, LeadsTo db userId (label ++ lit "/" ++ name) repoId) ↔
      label = user.githubLogin ∧
        ∃ id row, db.repos.find id = some row ∧ row.ownerUserId = userId ∧ row.name = name := by
  constructor
  · rintro ⟨repoId, owner, repo, hEq, hslash, hfound, howned⟩
    obtain ⟨rfl, rfl⟩ := split_unique (slash_not_mem hname) hslash hEq
    obtain ⟨row, owner', hrow, howner', hlogin, hrepo⟩ := findRepoId_ok hfound
    obtain ⟨row', hrow', hid⟩ := requireOwnership_ok.1 howned
    have hsame : row = row' := Option.some.inj (hrow.symm.trans hrow')
    subst hsame
    rw [hid, huser] at howner'
    cases howner'
    exact ⟨hlogin.symm, repoId, row, hrow, hid, hrepo⟩
  · rintro ⟨rfl, id, row, hrow, rfl, rfl⟩
    obtain ⟨repoId, hfound⟩ := findRepoId_of_row hrow huser
    obtain ⟨row', user', hrow', huser', hlogin, -⟩ := findRepoId_ok hfound
    -- The login is the caller's alone, so the row that was found is theirs.
    have howner : row'.ownerUserId = row.ownerUserId := hlogins huser' huser hlogin
    exact ⟨repoId, _, _, rfl, slash_not_mem hname, hfound,
      requireOwnership_ok.2 ⟨row', hrow', howner⟩⟩

/-! ## What a sequence of calls leaves -/

/-- The ids of `repos` were drawn from its sequence. -/
def Numbered (db : HubDatabase) : Prop :=
  ∀ {id : Int} {row : RepoRow}, db.repos.find id = some row → id ≤ db.repoSeq

theorem Numbered.insertNew {db : HubDatabase} (h : Numbered db) {db' : HubDatabase} {row : RepoRow}
    (hrepos : db'.repos = db.repos.insertNew (db.repoSeq + 1) row)
    (hseq : db'.repoSeq = db.repoSeq + 1) : Numbered db' := by
  intro id row' hfind
  rw [hrepos, Table.find_insertNew] at hfind
  rw [hseq]
  push_cast
  split at hfind
  · rename_i hid
    exact hid.le
  · have hle := h hfind
    omega

theorem Reachable.numbered {x : HubCrates} {db : HubDatabase} (h : Reachable x db) :
    Numbered db := by
  refine h.induction (P := Numbered) (fun hfind => by cases hfind) ?_
  intro db r hdb
  rcases serve_repos x db r with ⟨hrepos, hseq⟩ | ⟨row, hrepos, hseq⟩
  · intro id row hfind
    rw [hrepos] at hfind
    rw [hseq]
    exact hdb hfind
  · exact hdb.insertNew hrepos hseq

/-- Everything a call of `create_repo` may do. -/
theorem createRepo_cases {db : HubDatabase} (hdb : Numbered db) (c : CreateCall) :
    ((∃ e, createRepo db c.ctx c.req c.now = (.error e, db)) ∧
      ¬((db.users.find c.ctx.userId).isSome ∧ isValidRepoName c.req.name = true)) ∨
    ∃ caller answer db', db.users.find c.ctx.userId = some caller ∧
      isValidRepoName c.req.name = true ∧
      createRepo db c.ctx c.req c.now = (.ok answer, db') ∧
      answer.name = ownerLabel caller c.req ++ lit "/" ++ c.req.name ∧
      db'.users = db.users ∧ Numbered db' ∧
      (∀ {id row}, db.repos.find id = some row → db'.repos.find id = some row) ∧
      ∃ id row, db'.repos.find id = some row ∧ row.ownerUserId = c.ctx.userId ∧
        row.name = c.req.name := by
  cases hcaller : db.users.find c.ctx.userId with
  | none => exact .inl ⟨⟨.db, by simp [createRepo, hcaller]⟩, by simp⟩
  | some caller =>
      by_cases hname : isValidRepoName c.req.name = true
      · right
        by_cases hexists : (db.repos.rows.any fun r =>
            decide (r.2.ownerUserId = c.ctx.userId) && decide (r.2.name = c.req.name)) = true
        · refine ⟨caller, _, db, rfl, hname,
            by simp only [createRepo, hcaller, hname, hexists, if_true]; rfl, rfl, rfl, hdb,
            fun h => h, ?_⟩
          obtain ⟨⟨id, row⟩, hrow, hcols⟩ := List.any_eq_true.1 hexists
          simp only [Bool.and_eq_true, decide_eq_true_eq] at hcols
          exact ⟨id, row, Table.find_eq_some_iff.2 hrow, hcols.1, hcols.2⟩
        · have hnew := eq_false_of_ne_true hexists
          obtain ⟨answer, row, hok, hanswer, howner, hrepo⟩ : ∃ answer row,
              createRepo db c.ctx c.req c.now = (.ok answer,
                { db with
                  repos := db.repos.insertNew (db.repoSeq + 1) row
                  repoSeq := db.repoSeq + 1 }) ∧
              answer.name = ownerLabel caller c.req ++ lit "/" ++ c.req.name ∧
              row.ownerUserId = c.ctx.userId ∧ row.name = c.req.name := by
            simp only [createRepo, hcaller, hname, hnew, if_true, Bool.false_eq_true, if_false]
            exact ⟨_, _, rfl, rfl, rfl, rfl⟩
          -- The next number of the sequence is free.
          have hfree : db.repos.find (db.repoSeq + 1) = none := by
            refine Option.eq_none_iff_forall_ne_some.2 fun row hrow => ?_
            have hle := hdb hrow
            omega
          exact ⟨caller, answer, _, rfl, hname, hok, hanswer, rfl, hdb.insertNew rfl rfl,
            fun h => Table.find_insertNew_mono h, db.repoSeq + 1, row, by simp [hfree], howner,
            hrepo⟩
      · exact .inl ⟨⟨_, by simp only [createRepo, hcaller, hname]; rfl⟩, fun h => hname h.2⟩

/-- After a sequence of calls: the users and the repositories there were are still there, and the
calls that succeeded are those of a known user with a valid name, who has a repository of it. -/
theorem createRepos_run {db : HubDatabase} (hdb : Numbered db) (cs : List CreateCall) :
    (createRepos db cs).2.users = db.users ∧
    (∀ {id row}, db.repos.find id = some row →
      (createRepos db cs).2.repos.find id = some row) ∧
    (∀ {c answer}, (c, answer) ∈ (createRepos db cs).1 → c ∈ cs ∧
      ∃ caller, db.users.find c.ctx.userId = some caller ∧ isValidRepoName c.req.name = true ∧
        answer.name = ownerLabel caller c.req ++ lit "/" ++ c.req.name ∧
        ∃ id row, (createRepos db cs).2.repos.find id = some row ∧
          row.ownerUserId = c.ctx.userId ∧ row.name = c.req.name) ∧
    ∀ c ∈ cs, (db.users.find c.ctx.userId).isSome → isValidRepoName c.req.name = true →
      ∃ answer, (c, answer) ∈ (createRepos db cs).1 := by
  induction cs generalizing db with
  | nil => exact ⟨rfl, fun h => h, by simp [createRepos], by simp⟩
  | cons c cs ih =>
      -- A call that is refused leaves the tables; one that is answered keeps every row.
      rcases createRepo_cases hdb c with ⟨⟨e, he⟩, hrefused⟩ |
        ⟨caller, answer, db', hcaller, hname, hok, hanswer, husers, hdb', hkeep, id, row, hrow, hown⟩
      · simp only [createRepos, he]
        obtain ⟨husers, hkeep, hanswered, hsucceeds⟩ := ih hdb
        refine ⟨husers, hkeep, ?_, ?_⟩
        · intro c' answer' hmem
          obtain ⟨hc, hfacts⟩ := hanswered hmem
          exact ⟨List.mem_cons_of_mem c hc, hfacts⟩
        · rintro c' hc hsome hvalid
          rcases List.mem_cons.1 hc with rfl | hc
          · exact absurd ⟨hsome, hvalid⟩ hrefused
          · exact hsucceeds c' hc hsome hvalid
      · simp only [createRepos, hok]
        obtain ⟨husers', hkeep', hanswered, hsucceeds⟩ := ih hdb'
        rw [husers] at husers' hanswered hsucceeds
        refine ⟨husers', fun h => hkeep' (hkeep h), ?_, ?_⟩
        · intro c' answer' hmem
          rcases List.mem_cons.1 hmem with hhead | hmem
          · cases hhead
            exact ⟨List.mem_cons_self, caller, hcaller, hname, hanswer, id, row, hkeep' hrow, hown⟩
          · obtain ⟨hc, hfacts⟩ := hanswered hmem
            exact ⟨List.mem_cons_of_mem c hc, hfacts⟩
        · rintro c' hc hsome hvalid
          rcases List.mem_cons.1 hc with rfl | hc
          · exact ⟨answer, List.mem_cons_self⟩
          · obtain ⟨answer', hmem⟩ := hsucceeds c' hc hsome hvalid
            exact ⟨answer', List.mem_cons_of_mem _ hmem⟩

/-! ## The names of the answers -/

theorem ownerLabel_eq_iff {caller : UserRow} {req : CreateRepoReq} :
    ownerLabel caller req = caller.githubLogin ↔
      ∀ {label}, req.organization.filter (fun s => isValidRepoName s) = some label →
        label = caller.githubLogin := by
  unfold ownerLabel
  cases req.organization.filter fun s => isValidRepoName s with
  | none => simp
  | some label => simp

/-- The names that `create_repo` answers with lead to repositories of the callers, in the database a
sequence of calls leaves, if and only if every call that succeeds labels with the caller's login. -/
theorem namesResolve_iff (x : HubCrates) (db : HubDatabase) (hreach : Reachable x db)
    (hlogins : LoginsUnique db) (calls : List CreateCall) :
    NamesResolve (createRepos db calls) ↔ ∀ c ∈ calls, OwnLabel db c := by
  obtain ⟨husers, -, hanswered, hsucceeds⟩ := createRepos_run hreach.numbered calls
  have hlogins' : LoginsUnique (createRepos db calls).2 := by
    intro id id' u u' hu hu'
    rw [husers] at hu hu'
    exact hlogins hu hu'
  constructor
  · intro h c hc caller hcaller hname
    obtain ⟨answer, hmem⟩ := hsucceeds c hc (by simp [hcaller]) hname
    obtain ⟨-, caller', hcaller', -, hanswer, -⟩ := hanswered hmem
    rw [hcaller] at hcaller'
    cases hcaller'
    have hleads := h.resolves hmem
    rw [hanswer] at hleads
    have hlabel := ((leadsTo_iff hlogins' (husers ▸ hcaller) hname).1 hleads).1
    intro label hfilter
    exact ownerLabel_eq_iff.1 hlabel hfilter
  · intro h
    refine ⟨?_, ?_⟩
    · intro c answer hmem
      obtain ⟨hc, caller, hcaller, hname, hanswer, hrow⟩ := hanswered hmem
      rw [hanswer]
      have hlabel := ownerLabel_eq_iff.2 (h c hc hcaller hname)
      exact (leadsTo_iff hlogins' (husers ▸ hcaller) hname).2 ⟨hlabel, hrow⟩
    · rintro c c' answer answer' - - - hne repoId repoId' hleads hleads' rfl
      exact hne (hleads.name_unique hleads')

/-! ### alice/foo and team-a/foo -/

def createFoo (organization : Option Bytes) : CreateCall :=
  { ctx := alice
    req := ⟨lit "foo", organization, false⟩
    now := 0 }

theorem find_users_aliceDb (id : Int) :
    aliceDb.users.find id = if id = 1 then some ⟨lit "alice", none⟩ else none := by
  by_cases hid : id = 1
  · subst hid
    decide
  · rw [if_neg hid]
    exact Table.find_insertNew_of_ne _ _ hid

theorem loginsUnique_aliceDb : LoginsUnique aliceDb := by
  have honly : ∀ {id : Int} {u : UserRow}, aliceDb.users.find id = some u → id = 1 := by
    intro id u hu
    by_contra hid
    rw [find_users_aliceDb, if_neg hid] at hu
    cases hu
  intro id id' u u' hu hu' _
  exact (honly hu).trans (honly hu').symm

theorem namesResolve_createFoo :
    NamesResolve (createRepos aliceDb [createFoo none, createFoo (some (lit "alice"))]) := by
  refine (namesResolve_iff sampleCrates aliceDb reachable_aliceDb loginsUnique_aliceDb _).2 ?_
  intro c hc caller hcaller _ label hlabel
  simp only [List.mem_cons, List.not_mem_nil, or_false] at hc
  rcases hc with rfl | rfl
  · cases hlabel
  · have hcaller' : aliceDb.users.find 1 = some caller := hcaller
    rw [find_users_aliceDb, if_pos rfl] at hcaller'
    cases hcaller'
    have hlabel' : some (lit "alice") = some label := hlabel
    exact (Option.some.inj hlabel').symm

/-- The second name of the same repository leads nowhere. -/
theorem not_namesResolve :
    ¬NamesResolve (createRepos aliceDb [createFoo none, createFoo (some (lit "team-a"))]) := by
  intro h
  have hmem : (createFoo (some (lit "team-a")),
      (⟨lit "team-a/foo", lit "/api/models/team-a/foo", lit "team-a/foo"⟩ : CreateRepoResp)) ∈
      (createRepos aliceDb [createFoo none, createFoo (some (lit "team-a"))]).1 := by
    decide +kernel
  obtain ⟨repoId, owner, repo, hname, hslash, hfound, -⟩ := h.resolves hmem
  obtain ⟨rfl, rfl⟩ := split_unique (by decide) hslash
    ((by decide : lit "team-a" ++ lit "/" ++ lit "foo" = lit "team-a/foo").trans hname)
  have hnone : findRepoId
      (createRepos aliceDb [createFoo none, createFoo (some (lit "team-a"))]).2
      (lit "team-a") (lit "foo") = .error .notFound := by
    decide +kernel
  rw [hnone] at hfound
  cases hfound

end Hub
end OpenWeights
