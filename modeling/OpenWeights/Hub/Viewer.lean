import OpenWeights.Hub.Charging
import OpenWeights.Hub.Revisions

/-!
# Viewer — who a read comes from

The readers of the hub do not use the extractor: `optional_viewer_id` makes a user of the bearer by
itself, and `require_readable` shows a private repository to that user.  For a key both come to the
same user.  Of a token `optional_viewer_id` reads the claims and asks nothing else: not whether this
server signed it, not whether the user is there, and the user of the other issuer it takes for a
number of ours.  `viewerFaithful_iff` says for which requests the reads are no weaker than
authentication.
-/

namespace OpenWeights
namespace Hub

open Lib Db

/-- The extractor, asked for any scope, takes the request for one of this user. -/
def AuthenticatesAs (x : AuthCrates) (cfg : AuthConfig) (s : AuthState) (now : Nat) (fresh : Uuid)
    (headers : AuthHeaders) (userId : Int) : Prop :=
  ∃ ctx, (authScoped x cfg s.db s.cache now fresh scopeAny headers).1 = .ok ctx ∧
    ctx.userId = userId

/-- Some reader answers the viewer with what is in the repository. -/
def Reads (y : HubCrates) (hub : HubConfig) (db : HubDatabase) (viewer : Option Int)
    (owner repo : Bytes) : Prop :=
  (∃ info, modelInfo y db viewer owner repo = .ok info) ∨
    (∃ revision info, modelInfoRev y db viewer owner repo revision = .ok info) ∨
    (∃ revision path resp, resolveHead y hub db viewer owner repo revision path = .ok resp) ∨
    ∃ revision path resp, resolveGet y hub db viewer owner repo revision path = .ok resp

/-- The identity of a read is no weaker than authentication. -/
structure ViewerFaithful (x : AuthCrates) (y : HubCrates) (cfg : AuthConfig) (hub : HubConfig)
    (s : AuthState) (now : Nat) (fresh : Uuid) (headers : AuthHeaders) : Prop where
  identity : ∀ userId, optionalViewerId x s.db now headers = some userId →
    AuthenticatesAs x cfg s now fresh headers userId
  privateReads : ∀ owner repo repoId r, findRepoId s.db owner repo = .ok repoId →
    s.db.repos.find repoId = some r → r.visibility = .private →
    Reads y hub s.db (optionalViewerId x s.db now headers) owner repo →
    AuthenticatesAs x cfg s now fresh headers r.ownerUserId
  forged : ∀ token claims, headers.bearer = some token → looksLikeJwt token = true →
    decodeAndValidate x now token = .ok claims → claims.iss = openweightsIssuer →
    verifyOpenweightsSignature x token cfg.xetJwtSigningKey ≠ .ok () →
    optionalViewerId x s.db now headers = none

/-- The row of `users` that stands, or would stand, for a user of the other issuer. -/
def HfAccount (x : AuthCrates) (db : HubDatabase) (hfUserId : Bytes) (userId : Int) : Prop :=
  db.loginTaken userId (lit "hf:" ++ hfUserId) = false ∧
    (db.hfUser hfUserId = some userId ∨
      db.hfUser hfUserId = none ∧ hfUserIdToI64 x hfUserId = userId ∧ db.users.find userId = none)

/-- A bearer token whose claims name a number is signed by this server for a user that is there, or
comes from the other issuer and the number is that of the account it leads to. -/
def Genuine (x : AuthCrates) (cfg : AuthConfig) (db : HubDatabase) (now : Nat)
    (headers : AuthHeaders) : Prop :=
  ∀ token claims userId, headers.bearer = some token → looksLikeJwt token = true →
    decodeAndValidate x now token = .ok claims → parseInt64 claims.userId = some userId →
    if claims.iss = openweightsIssuer then
      verifyOpenweightsSignature x token cfg.xetJwtSigningKey = .ok () ∧
        db.users.find userId ≠ none
    else
      HfAccount x db claims.userId userId

/-! ## Accounts -/

section Accounts

variable {x : AuthCrates} {cfg : AuthConfig} {db db' : HubDatabase} {now : Nat} {fresh keyId : Uuid}
  {userId : Int} {hfUserId token : Bytes} {claims : XetJwtClaims}

/-- A key for the tokens of a user is there, or there is room for it. -/
theorem upsertSyntheticApiKey_isSome (x : AuthCrates) (now : Nat) (hfUserId : Bytes)
    (hfresh : db.apiKeys.find fresh = none) (huser : db.users.find userId ≠ none) :
    ∃ keyId db', upsertSyntheticApiKey x db now fresh userId hfUserId = some (keyId, db') := by
  unfold upsertSyntheticApiKey
  dsimp only
  split
  · exact ⟨_, _, rfl⟩
  · rename_i hnone
    rw [HubDatabase.insertKey, if_pos ⟨hnone, hfresh, huser⟩]
    exact ⟨fresh, _, rfl⟩

theorem ownAccount_ok (hfresh : db.apiKeys.find fresh = none)
    (hverify : verifyOpenweightsSignature x token cfg.xetJwtSigningKey = .ok ())
    (hparse : parseInt64 claims.userId = some userId) (huser : db.users.find userId ≠ none) :
    ∃ keyId, (ownAccount x cfg db now fresh token claims).1 = .ok (userId, keyId) := by
  rw [ownAccount.eq_def]
  simp only [hverify, hparse, if_neg huser]
  split
  · exact ⟨_, rfl⟩
  · obtain ⟨keyId, db', hupsert⟩ := upsertSyntheticApiKey_isSome x now
      (lit "openweights:" ++ formatInt userId) hfresh huser
    rw [hupsert]
    exact ⟨keyId, rfl⟩

theorem upsertHfUser_eq_some_iff :
    (∃ db', upsertHfUser x db hfUserId = some (userId, db')) ↔ HfAccount x db hfUserId userId := by
  unfold upsertHfUser HfAccount
  dsimp only
  cases hfind : db.hfUser hfUserId with
  | some id =>
      dsimp only
      -- The account is known: the login it is updated with must be free.
      split
      · rename_i htaken
        constructor
        · rintro ⟨db', h⟩
          cases h
        · rintro ⟨hfree, hid | ⟨hid, -⟩⟩
          · cases hid
            rw [htaken] at hfree
            cases hfree
          · cases hid
      · rename_i hfree
        constructor
        · rintro ⟨db', h⟩
          cases h
          exact ⟨Bool.eq_false_of_not_eq_true hfree, .inl rfl⟩
        · rintro ⟨-, hid | ⟨hid, -⟩⟩
          · cases hid
            exact ⟨_, rfl⟩
          · cases hid
  -- A new account: its id and its login must both be free.
  | none =>
      dsimp only
      split
      · rename_i hfree
        constructor
        · rintro ⟨db', h⟩
          cases h
          exact ⟨hfree.2, .inr ⟨rfl, rfl, hfree.1⟩⟩
        · rintro ⟨-, hid | ⟨-, rfl, -⟩⟩
          · cases hid
          · exact ⟨_, rfl⟩
      · rename_i hfree
        constructor
        · rintro ⟨db', h⟩
          cases h
        · rintro ⟨hlogin, hid | ⟨-, rfl, hnone⟩⟩
          · cases hid
          · exact absurd ⟨hnone, hlogin⟩ hfree

/-- The account of the other issuer's user has a row. -/
theorem users_of_upsertHfUser (h : upsertHfUser x db hfUserId = some (userId, db')) :
    db'.users.find userId ≠ none := by
  unfold upsertHfUser at h
  dsimp only at h
  split at h
  · rename_i id hfind
    split at h
    · cases h
    · cases h
      obtain ⟨r, hr, rfl⟩ := Option.map_eq_some_iff.1 hfind
      have hrow := Table.find_eq_some_iff.2 (List.mem_of_find?_eq_some hr)
      rw [Table.find_update_self, hrow]
      exact Option.some_ne_none _
  · split at h
    · rename_i hfree
      cases h
      rw [Table.find_insertNew_self, hfree.1]
      exact Option.some_ne_none _
    · cases h

theorem accountOf_iff (hfresh : db.apiKeys.find fresh = none)
    (hparse : parseInt64 claims.userId = some userId) :
    (∃ keyId, (accountOf x cfg db now fresh token claims).1 = .ok (userId, keyId)) ↔
      if claims.iss = openweightsIssuer then
        verifyOpenweightsSignature x token cfg.xetJwtSigningKey = .ok () ∧
          db.users.find userId ≠ none
      else
        HfAccount x db claims.userId userId := by
  rw [accountOf]
  split
  · constructor
    · rintro ⟨keyId, h⟩
      obtain ⟨hverify, -, huser, -⟩ := of_ownAccount h
      exact ⟨hverify, huser⟩
    · rintro ⟨hverify, huser⟩
      exact ownAccount_ok hfresh hverify hparse huser
  · rw [← upsertHfUser_eq_some_iff]
    constructor
    · rintro ⟨keyId, h⟩
      unfold hfAccount at h
      split at h
      · cases h
      · rename_i uid db₁ hupsert
        split at h
        · cases h
        · cases h
          exact ⟨db₁, hupsert⟩
    · rintro ⟨db₁, hupsert⟩
      have hkeys := apiKeys_upsertHfUser hupsert
      rw [← hkeys] at hfresh
      obtain ⟨keyId, db₂, hkey⟩ := upsertSyntheticApiKey_isSome x now claims.userId hfresh
        (users_of_upsertHfUser hupsert)
      refine ⟨keyId, ?_⟩
      rw [hfAccount]
      simp only [hupsert, hkey]

end Accounts

/-! ## The two readings of a bearer -/

section Readings

variable {x : AuthCrates} {y : HubCrates} {cfg : AuthConfig} {hub : HubConfig} {latency now : Nat}
  {s : AuthState} {fresh : Uuid} {headers : AuthHeaders} {token : Bytes} {claims : XetJwtClaims}
  {userId : Int}

theorem checkScope_any (granted : List ApiKeyScope) : checkScope scopeAny granted = .ok () :=
  if_pos rfl

/-- A token is authenticated as the user of the account it leads to. -/
theorem authenticatesAs_token_iff (hbearer : headers.bearer = some token)
    (hjwt : looksLikeJwt token = true) (hdecode : decodeAndValidate x now token = .ok claims) :
    AuthenticatesAs x cfg s now fresh headers userId ↔
      ∃ keyId, (accountOf x cfg s.db now fresh token claims).1 = .ok (userId, keyId) := by
  have hcredential : credentialOf x headers = some (.token token) := by
    simp only [credentialOf, hbearer, hjwt, if_true]
  have hanswer : (authScoped x cfg s.db s.cache now fresh scopeAny headers).1 =
      (accountOf x cfg s.db now fresh token claims).1.map fun a => ⟨a.2, a.1, claims.scopes⟩ := by
    simp only [authScoped, beginAuth, hcredential]
    rcases authenticateXetJwt_cases x cfg s.db now fresh scopeAny token with
      ⟨e, hEq⟩ | ⟨claims', hdecode', -, hEq⟩
    · -- No scope is asked for, so nothing but the account can fail.
      rw [authenticateXetJwt.eq_def] at hEq ⊢
      simp only [hdecode, checkScope_any]
      cases haccount : accountOf x cfg s.db now fresh token claims with
      | mk answer db' =>
          cases answer with
          | error e => rfl
          | ok a => rfl
    · cases hdecode.symm.trans hdecode'
      rw [hEq]
  rw [AuthenticatesAs, hanswer]
  cases haccount : (accountOf x cfg s.db now fresh token claims).1 with
  | error e =>
      constructor
      · rintro ⟨ctx, h, -⟩
        cases h
      · rintro ⟨keyId, h⟩
        cases h
  | ok account =>
      constructor
      · rintro ⟨ctx, h, rfl⟩
        cases h
        exact ⟨account.2, rfl⟩
      · rintro ⟨keyId, h⟩
        cases h
        exact ⟨_, rfl, rfl⟩

theorem optionalViewerId_token (hbearer : headers.bearer = some token)
    (hjwt : looksLikeJwt token = true) (db : HubDatabase) :
    optionalViewerId x db now headers =
      (decodeAndValidate x now token).toOption.bind fun claims => parseInt64 claims.userId := by
  simp only [optionalViewerId, hbearer, hjwt, if_true, Option.bind_eq_bind, Option.bind_some]

/-- For a key, the cache and the table say the same. -/
theorem authenticatesAs_of_key (hs : s.Sound x cfg latency) (hbearer : headers.bearer = some token)
    (hjwt : looksLikeJwt token = false)
    (hviewer : optionalViewerId x s.db now headers = some userId) :
    AuthenticatesAs x cfg s now fresh headers userId := by
  have hcredential : credentialOf x headers = some (.key (x.sha256 token)) := by
    simp only [credentialOf, hbearer, hjwt]
    rfl
  obtain ⟨row, hactive, hrow⟩ : ∃ row, s.db.activeKey (x.sha256 token) = some row ∧
      row.2.userId = userId := by
    simp only [optionalViewerId, hbearer, hjwt, Option.bind_eq_bind, Option.bind_some] at hviewer
    obtain ⟨row, hactive, hEq⟩ := Option.bind_eq_some_iff.1 hviewer
    exact ⟨row, hactive, Option.some.inj hEq⟩
  have hadmit (key : ActiveKey) :
      admitKey scopeAny key = .ok ⟨key.id, key.userId, key.scopes⟩ := by
    rw [admitKey, checkScope_any]
  rw [AuthenticatesAs]
  simp only [authScoped, beginAuth, hcredential]
  cases hget : s.cache.get now (x.sha256 token) with
  | mk found cache =>
      cases found with
      | none =>
          simp only [hactive]
          exact ⟨_, hadmit _, hrow⟩
      | some key =>
          obtain ⟨hmem, -⟩ := KeyCache.of_get_eq_some (congrArg Prod.fst hget)
          obtain ⟨row', hrow', hhash, huser, -⟩ := (hs.cached _ hmem).1
          -- The entry and the active row have the digest in common.
          obtain ⟨hfind, hhash', -⟩ := HubDatabase.activeKey_eq_some hactive
          have hid := hs.unique hrow' hfind (hhash.trans hhash'.symm)
          rw [hid] at hrow'
          cases hrow'.symm.trans hfind
          exact ⟨_, hadmit key, huser.symm.trans hrow⟩

/-- Every reader asks `require_readable` first. -/
theorem eq_owner_of_reads {db : HubDatabase} {viewer : Option Int} {owner repo : Bytes}
    {repoId : Int} {r : RepoRow} (hrepo : findRepoId db owner repo = .ok repoId)
    (hr : db.repos.find repoId = some r) (hprivate : r.visibility = .private)
    (h : Reads y hub db viewer owner repo) : viewer = some r.ownerUserId := by
  have hreadable {α : Type} {next : Int → Except AppError α} {answer : α}
      (hok : (readableRepo db owner repo viewer >>= next) = .ok answer) :
      viewer = some r.ownerUserId := by
    by_contra hne
    have hrefused : readableRepo db owner repo viewer = .error .notFound := by
      have hnot : ¬some r.ownerUserId = viewer := fun hEq => hne hEq.symm
      simp only [readableRepo, hrepo, requireReadable, hr, if_neg hnot, hprivate, bind, Except.bind]
      rfl
    rw [hrefused] at hok
    cases hok
  rcases h with ⟨info, hok⟩ | ⟨revision, info, hok⟩ | ⟨revision, path, resp, hok⟩ |
    ⟨revision, path, resp, hok⟩
  · exact hreadable hok
  · exact hreadable hok
  · have hlookup : ∃ info, resolveLookup y db viewer owner repo revision path = .ok info := by
      cases hinfo : resolveLookup y db viewer owner repo revision path with
      | error e =>
          rw [resolveHead, hinfo] at hok
          cases hok
      | ok info => exact ⟨info, rfl⟩
    exact hreadable hlookup.choose_spec
  · have hlookup : ∃ info, resolveLookup y db viewer owner repo revision path = .ok info := by
      cases hinfo : resolveLookup y db viewer owner repo revision path with
      | error e =>
          rw [resolveGet, hinfo] at hok
          cases hok
      | ok info => exact ⟨info, rfl⟩
    exact hreadable hlookup.choose_spec

/-- The identity of a read is no weaker than authentication if and only if the bearer token, where
there is one that names a number, is what it says it is. -/
theorem viewerFaithful_iff (hs : AuthState.Reachable x cfg latency s) (y : HubCrates)
    (hub : HubConfig) (now : Nat) (headers : AuthHeaders)
    (hfresh : s.db.apiKeys.find fresh = none) :
    ViewerFaithful x y cfg hub s now fresh headers ↔ Genuine x cfg s.db now headers := by
  constructor
  · intro hfaithful token claims userId hbearer hjwt hdecode hparse
    have hviewer : optionalViewerId x s.db now headers = some userId := by
      rw [optionalViewerId_token hbearer hjwt, hdecode]
      exact hparse
    have hauth := hfaithful.identity userId hviewer
    exact (accountOf_iff hfresh hparse).1 ((authenticatesAs_token_iff hbearer hjwt hdecode).1 hauth)
  · intro hgenuine
    have hidentity : ∀ userId, optionalViewerId x s.db now headers = some userId →
        AuthenticatesAs x cfg s now fresh headers userId := by
      intro userId hviewer
      cases hbearer : headers.bearer with
      | none =>
          simp only [optionalViewerId, hbearer, Option.bind_eq_bind, Option.bind_none] at hviewer
          cases hviewer
      | some token =>
          cases hjwt : looksLikeJwt token with
          | false => exact authenticatesAs_of_key hs.sound hbearer hjwt hviewer
          | true =>
              rw [optionalViewerId_token hbearer hjwt] at hviewer
              obtain ⟨claims, hclaims, hparse⟩ := Option.bind_eq_some_iff.1 hviewer
              have hdecode : decodeAndValidate x now token = .ok claims := by
                cases hanswer : decodeAndValidate x now token with
                | error e =>
                    rw [hanswer] at hclaims
                    cases hclaims
                | ok claims' =>
                    rw [hanswer] at hclaims
                    cases hclaims
                    rfl
              have haccount := hgenuine token claims userId hbearer hjwt hdecode hparse
              exact (authenticatesAs_token_iff hbearer hjwt hdecode).2
                ((accountOf_iff hfresh hparse).2 haccount)
    refine ⟨hidentity, ?_, ?_⟩
    · intro owner repo repoId r hrepo hr hprivate hreads
      exact hidentity r.ownerUserId (eq_owner_of_reads hrepo hr hprivate hreads)
    · intro token claims hbearer hjwt hdecode hiss hforged
      -- Were the user a number, the token would carry the signature.
      rw [optionalViewerId_token hbearer hjwt, hdecode]
      change parseInt64 claims.userId = none
      by_contra hsome
      obtain ⟨userId, hparse⟩ := Option.ne_none_iff_exists'.1 hsome
      have haccount := hgenuine token claims userId hbearer hjwt hdecode hparse
      rw [if_pos hiss] at haccount
      exact hforged haccount.1

end Readings

/-! ## Samples -/

/-- The claims of a token for the private repository, with three bytes for a signature. -/
def forgedToken : Bytes :=
  tokenInput (mintedClaims (lit "alice/model") (lit "1") .read 3600 0) ++ lit ".AAAA"

def bearerOf (token : Bytes) : AuthHeaders := ⟨some (lit "Bearer " ++ token), none⟩

def aliceState : AuthState := stateAfter [(0, .elsewhere aliceTables)]

theorem reachable_aliceState : AuthState.Reachable tokenCrates tokenConfig 0 aliceState :=
  reachable_stateAfter (by decide +kernel)

theorem viewerFaithful_iff_aliceState :
    ViewerFaithful tokenCrates sampleCrates tokenConfig sampleConfig aliceState 0 (sampleUuid 9)
        (bearerOf readToken) ↔
      Genuine tokenCrates tokenConfig aliceState.db 0 (bearerOf readToken) :=
  viewerFaithful_iff reachable_aliceState sampleCrates sampleConfig 0 (bearerOf readToken)
    (by decide +kernel)

/-- A token that anyone can write reads the private repository. -/
theorem not_viewerFaithful :
    ¬∀ (x : AuthCrates) (y : HubCrates) (cfg : AuthConfig) (hub : HubConfig) (latency : Nat)
      (s : AuthState) (now : Nat) (fresh : Uuid) (headers : AuthHeaders),
      AuthState.Reachable x cfg latency s → s.db.apiKeys.find fresh = none →
      ViewerFaithful x y cfg hub s now fresh headers := by
  intro hclaim
  have hfaithful := hclaim tokenCrates sampleCrates tokenConfig sampleConfig 0 aliceState 0
    (sampleUuid 9) (bearerOf forgedToken) reachable_aliceState (by decide +kernel)
  have hviewer : optionalViewerId tokenCrates aliceState.db 0 (bearerOf forgedToken) = some 1 := by
    decide +kernel
  obtain ⟨ctx, hok, -⟩ := hfaithful.identity 1 hviewer
  have hrefused : (authScoped tokenCrates tokenConfig aliceState.db aliceState.cache 0
      (sampleUuid 9) scopeAny (bearerOf forgedToken)).1 = .error .unauthenticated := by
    decide +kernel
  rw [hrefused] at hok
  cases hok

end Hub
end OpenWeights
