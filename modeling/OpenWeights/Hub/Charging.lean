import OpenWeights.Hub.Grants

/-!
# Charging — the key that the use of a token counts for

A minted token names its user and not the key it was obtained with.  `authenticate_xet_jwt` takes the
user's active key with most scopes, and among those the one used last; the rate limit, the `kid` of
URLs and the usage log go by that key.  `charged_iff` says when it is the key the token stems from.
-/

namespace OpenWeights
namespace Hub

open Lib Db

/-! ## The key that is taken -/

/-- The key is there, and is not revoked. -/
def HubDatabase.Active (db : HubDatabase) (id : Uuid) : Prop :=
  ∃ row, db.apiKeys.find id = some row ∧ row.revokedAt = none

/-- The active keys of a user that have a label of their own. -/
def HubDatabase.Labelled (db : HubDatabase) (userId : Int) (id : Uuid) (row : ApiKeyRow) : Prop :=
  db.apiKeys.find id = some row ∧ row.userId = userId ∧ row.revokedAt = none ∧
    ∃ l, row.label = some l ∧ l ≠ HubDatabase.syntheticLabel

def HubDatabase.labelledRows (db : HubDatabase) (userId : Int) : List (Uuid × ApiKeyRow) :=
  db.apiKeys.rows.filter fun r => decide (r.2.userId = userId) && decide (r.2.revokedAt = none) &&
    r.2.label.any fun l => decide (l ≠ HubDatabase.syntheticLabel)

/-- Fewer scopes, or as many and used less recently. -/
def BehindKey (row row' : ApiKeyRow) : Prop :=
  (HubDatabase.keyRank row).1 < (HubDatabase.keyRank row').1 ∨
    (HubDatabase.keyRank row).1 = (HubDatabase.keyRank row').1 ∧
      (HubDatabase.keyRank row).2 < (HubDatabase.keyRank row').2

/-- The digest of the key that stands for the tokens this server issues to a user. -/
def standInHash (x : AuthCrates) (userId : Int) : Hash :=
  x.sha256 (lit "hf-jwt:" ++ (lit "openweights:" ++ formatInt userId))

/-- The key is labelled, and every other labelled active key of its user is behind it; or there is no
such key, and it is the one that stands for the user's tokens. -/
def Ahead (x : AuthCrates) (db : HubDatabase) (id : Uuid) (userId : Int) (hash : Hash) : Prop :=
  (∃ row, db.Labelled userId id row ∧
      ∀ id' row', db.Labelled userId id' row' → id' ≠ id → BehindKey row' row) ∨
    (∀ id' row', ¬db.Labelled userId id' row') ∧ hash = standInHash x userId

/-- The same, where another key may be level with it. -/
def NotBehind (x : AuthCrates) (db : HubDatabase) (id : Uuid) (userId : Int) (hash : Hash) : Prop :=
  (∃ row, db.Labelled userId id row ∧
      ∀ id' row', db.Labelled userId id' row' → ¬BehindKey row row') ∨
    (∀ id' row', ¬db.Labelled userId id' row') ∧ hash = standInHash x userId

/-- The key is the one that is taken for a token of its user. -/
def TakenFor (x : AuthCrates) (cfg : AuthConfig) (db : HubDatabase) (id : Uuid) (userId : Int)
    (hash : Hash) : Prop :=
  cfg.keyPick.pick (db.widestKeys userId) = some id ∨
    db.widestKeys userId = [] ∧ hash = standInHash x userId

section Widest

variable {db db' : HubDatabase} {userId : Int} {id : Uuid} {row : ApiKeyRow} {x : AuthCrates}
  {cfg : AuthConfig}

theorem mem_labelled {r : Uuid × ApiKeyRow} :
    r ∈ db.labelledRows userId ↔ db.Labelled userId r.1 r.2 := by
  rw [HubDatabase.labelledRows, List.mem_filter, ← Table.find_eq_some_iff, Bool.and_eq_true,
    Bool.and_eq_true, decide_eq_true_eq, decide_eq_true_eq, Option.any_eq_true,
    HubDatabase.Labelled, and_assoc]
  simp only [decide_eq_true_eq]

theorem mem_widestKeys : id ∈ db.widestKeys userId ↔
    ∃ row, db.Labelled userId id row ∧ ∀ id' row', db.Labelled userId id' row' →
      ¬BehindKey row row' := by
  unfold HubDatabase.widestKeys
  dsimp only
  rw [List.mem_map]
  constructor
  · rintro ⟨r, hr, rfl⟩
    obtain ⟨hmem, hall⟩ := List.mem_filter.1 hr
    refine ⟨r.2, mem_labelled.1 hmem, fun id' row' hrow' hbehind => ?_⟩
    have hnot := List.all_eq_true.1 hall (id', row') (mem_labelled.2 hrow')
    rw [Bool.not_eq_true', decide_eq_false_iff_not] at hnot
    exact hnot hbehind
  · rintro ⟨row, hrow, hfirst⟩
    refine ⟨(id, row), List.mem_filter.2 ⟨mem_labelled.2 hrow, ?_⟩, rfl⟩
    refine List.all_eq_true.2 fun r hr => ?_
    rw [Bool.not_eq_true', decide_eq_false_iff_not]
    exact hfirst r.1 r.2 (mem_labelled.1 hr)

theorem BehindKey.not_symm {row row' : ApiKeyRow} (h : BehindKey row row') :
    ¬BehindKey row' row := by
  rcases h with h | ⟨h, h'⟩
  · rintro (hback | ⟨hback, -⟩) <;> omega
  · rintro (hback | ⟨-, hback⟩) <;> omega

/-- A user with a labelled active key has one that no other goes before. -/
theorem widestKeys_eq_nil_iff :
    db.widestKeys userId = [] ↔ ∀ id row, ¬db.Labelled userId id row := by
  constructor
  · intro hempty id row hrow
    -- Take a labelled key of the highest rank there is.
    have hmem : (id, row) ∈ db.labelledRows userId := mem_labelled.2 hrow
    obtain ⟨top, htop, hmax⟩ := Set.exists_max_image {r | r ∈ db.labelledRows userId}
      (fun r => toLex (HubDatabase.keyRank r.2)) (db.labelledRows userId).finite_toSet ⟨_, hmem⟩
    have hfirst : top.1 ∈ db.widestKeys userId := by
      refine mem_widestKeys.2 ⟨top.2, mem_labelled.1 htop, fun id' row' hrow' hbehind => ?_⟩
      have hle := hmax (id', row') (mem_labelled.2 hrow')
      exact absurd (Prod.Lex.toLex_lt_toLex.2 hbehind) (not_lt.2 hle)
    rw [hempty] at hfirst
    cases hfirst
  · intro hnone
    refine List.eq_nil_iff_forall_not_mem.2 fun id hid => ?_
    obtain ⟨row, hrow, -⟩ := mem_widestKeys.1 hid
    exact hnone id row hrow

/-- A key that is ahead is taken, whatever `LIMIT 1` keeps. -/
theorem takenFor_of_ahead {hash : Hash} (h : Ahead x db id userId hash) :
    TakenFor x cfg db id userId hash := by
  rcases h with ⟨row, hrow, hbehind⟩ | ⟨hnone, hhash⟩
  · have hfirst : id ∈ db.widestKeys userId := by
      refine mem_widestKeys.2 ⟨row, hrow, fun id' row' hrow' hlt => ?_⟩
      by_cases hid : id' = id
      · rw [hid] at hrow'
        cases hrow'.1.symm.trans hrow.1
        exact hlt.not_symm hlt
      · exact hlt.not_symm (hbehind id' row' hrow' hid)
    obtain ⟨first, hpick⟩ :=
      Option.isSome_iff_exists.1 (cfg.keyPick.isSome (List.ne_nil_of_mem hfirst))
    obtain ⟨row', hrow', hnot⟩ := mem_widestKeys.1 (cfg.keyPick.mem hpick)
    -- No other key comes first as well.
    by_cases hid : first = id
    · rw [hid] at hpick
      exact .inl hpick
    · exact absurd (hbehind first row' hrow' hid) (hnot id row hrow)
  · exact .inr ⟨widestKeys_eq_nil_iff.2 hnone, hhash⟩

theorem notBehind_of_takenFor {hash : Hash} (h : TakenFor x cfg db id userId hash) :
    NotBehind x db id userId hash := by
  rcases h with hpick | ⟨hempty, hhash⟩
  · exact .inl (mem_widestKeys.1 (cfg.keyPick.mem hpick))
  · exact .inr ⟨widestKeys_eq_nil_iff.1 hempty, hhash⟩

/-- What `authenticate_xet_jwt` answers with for a token of this server. -/
theorem of_ownAccount {now : Nat} {fresh keyId : Uuid} {token : Bytes} {claims : XetJwtClaims}
    {uid : Int} (h : (ownAccount x cfg db now fresh token claims).1 = .ok (uid, keyId)) :
    verifyOpenweightsSignature x token cfg.xetJwtSigningKey = .ok () ∧
      parseInt64 claims.userId = some uid ∧ db.users.find uid ≠ none ∧
      (cfg.keyPick.pick (db.widestKeys uid) = some keyId ∨
        db.widestKeys uid = [] ∧ ∃ db', upsertSyntheticApiKey x db now fresh uid
          (lit "openweights:" ++ formatInt uid) = some (keyId, db')) := by
  unfold ownAccount at h
  split at h
  · cases h
  · rename_i hverify
    split at h
    · cases h
    · rename_i uid' hparse
      split at h
      · cases h
      · rename_i huser
        split at h
        · rename_i keyId' hpick
          cases h
          exact ⟨hverify, hparse, huser, .inl hpick⟩
        · rename_i hpick
          have hempty : db.widestKeys uid' = [] := by
            by_contra hne
            have hsome := cfg.keyPick.isSome hne
            rw [hpick] at hsome
            cases hsome
          split at h
          · cases h
          · rename_i hupsert
            cases h
            exact ⟨hverify, hparse, huser, .inr ⟨hempty, _, hupsert⟩⟩

/-- The key that stands for tokens is found by its digest. -/
theorem eq_iff_of_upsertSyntheticApiKey {now : Nat} {fresh keyId : Uuid} {hfUserId : Bytes}
    (hunique : ∀ {id id' : Uuid} {r r' : ApiKeyRow}, db.apiKeys.find id = some r →
      db.apiKeys.find id' = some r' → r.keyHash = r'.keyHash → id = id')
    (h : upsertSyntheticApiKey x db now fresh userId hfUserId = some (keyId, db'))
    (hrow : db.apiKeys.find id = some row) :
    keyId = id ↔ row.keyHash = x.sha256 (lit "hf-jwt:" ++ hfUserId) := by
  unfold upsertSyntheticApiKey at h
  dsimp only at h
  split at h
  · rename_i id' row' hfind
    cases h
    have hsat := List.find?_some hfind
    have hrow' := Table.find_eq_some_iff.2 (List.mem_of_find?_eq_some hfind)
    rw [decide_eq_true_eq] at hsat
    constructor
    · rintro rfl
      cases hrow.symm.trans hrow'
      exact hsat
    · exact fun hhash => hunique hrow' hrow (hsat.trans hhash.symm)
  · rename_i hnone
    obtain ⟨db₁, hinsert, hEq⟩ := Option.map_eq_some_iff.1 h
    cases hEq
    unfold HubDatabase.insertKey at hinsert
    split at hinsert
    · rename_i hfree
      constructor
      · rintro rfl
        rw [hfree.2.1] at hrow
        cases hrow
      · exact fun hhash => absurd hhash (HubDatabase.keyOfHash_eq_none hnone hrow)
    · cases hinsert

end Widest

/-! ## What is charged -/

section Charged

variable {x : AuthCrates} {cfg : AuthConfig} {latency : Nat} {s : AuthState} {id : Uuid}
  {row : ApiKeyRow} {u : Served} {token : Bytes}

/-- From the making of a token to its use: the user is the same. -/
theorem account_of_handedOut {e e' : Served} (hx : x.Lawful) (hs : s.Sound x cfg latency)
    (he : e ∈ s.served) (he' : e' ∈ s.served) (hmade : e.handedOut = some e'.credential) :
    e'.ctx.userId = e.ctx.userId ∧ ∃ token claims fresh,
      (ownAccount x cfg e'.db e'.time fresh token claims).1 =
        .ok (e'.ctx.userId, e'.ctx.apiKeyId) := by
  obtain ⟨token, hmade, hEq⟩ := Option.map_eq_some_iff.1 hmade
  obtain ⟨claims, fresh, hdecode, haccount, -⟩ := (hs.served e' he').2.byToken hEq.symm
  obtain ⟨access, owner, repo, -, -, hclaims⟩ := hs.claims_of_made hx he hmade hdecode
  have hiss : claims.iss = openweightsIssuer := congrArg XetJwtClaims.iss hclaims
  have huser : claims.userId = formatInt e.ctx.userId := congrArg XetJwtClaims.userId hclaims
  rw [accountOf, if_pos hiss] at haccount
  refine ⟨?_, token, claims, fresh, haccount⟩
  -- The user is written by `formatInt`, and read back.
  have hparse := (of_ownAccount haccount).2.1
  rw [huser, parseInt64, parseSigned_formatInt] at hparse
  exact (Option.some.inj (Option.filter_eq_some_iff.1 hparse).1).symm

/-- Every request of a key and of its tokens comes from the user of the key. -/
theorem userId_of_mem_callsOf (hx : x.Lawful) (hs : s.Sound x cfg latency)
    (hrow : s.db.apiKeys.find id = some row) :
    ∀ u ∈ s.callsOf row.keyHash, u.ctx.userId = row.userId := by
  refine delegated_induction ?_ ?_
  · intro u hu hkey
    exact (hs.ctx_eq_row hrow (mem_of_mem_delegated hu) hkey).2.1
  · intro e he e' he' hmade huser
    have hsame := (account_of_handedOut hx hs (mem_of_mem_delegated he)
      (mem_of_mem_delegated he') hmade).1
    exact hsame.trans huser

/-- A request with a token of the key is charged to the key if and only if the key is the one that is
taken. -/
theorem apiKeyId_eq_iff (hx : x.Lawful) (hs : s.Sound x cfg latency)
    (hrow : s.db.apiKeys.find id = some row) (hu : u ∈ s.callsOf row.keyHash)
    (htoken : u.credential = .token token) (hactive : u.db.Active id) :
    u.ctx.apiKeyId = id ↔ TakenFor x cfg u.db id row.userId row.keyHash := by
  have hserved := (hs.served u (AuthState.mem_served_of_mem_callsOf hu)).2
  have huser := userId_of_mem_callsOf hx hs hrow u hu
  have hobtained := (source_of_mem_delegated hu).resolve_left fun hkey =>
    Credential.noConfusion (htoken.symm.trans hkey)
  obtain ⟨e, he, hmade⟩ := mem_obtained.1 hobtained
  obtain ⟨-, token', claims, fresh, haccount⟩ := account_of_handedOut hx hs
    (mem_of_mem_delegated he) (mem_of_mem_delegated hu) hmade
  -- At the time of the request the row had the digest it has now.
  obtain ⟨row', hrow', -⟩ := hactive
  have hhash : row'.keyHash = row.keyHash := by
    obtain ⟨row'', hnow, hsame⟩ := hserved.past hrow'
    cases hnow.symm.trans hrow
    exact hsame.keyHash.symm
  have hunique : ∀ {id id' : Uuid} {r r' : ApiKeyRow}, u.db.apiKeys.find id = some r →
      u.db.apiKeys.find id' = some r' → r.keyHash = r'.keyHash → id = id' := by
    intro id id' r r' hr hr' hEq
    obtain ⟨r₁, hr₁, hsame⟩ := hserved.past hr
    obtain ⟨r₁', hr₁', hsame'⟩ := hserved.past hr'
    exact hs.unique hr₁ hr₁' (hsame.keyHash.trans (hEq.trans hsame'.keyHash.symm))
  rw [TakenFor, ← huser, ← hhash]
  rcases (of_ownAccount haccount).2.2.2 with hpick | ⟨hempty, db', hupsert⟩
  · constructor
    · intro hEq
      exact .inl (hpick.trans (congrArg some hEq))
    · rintro (hid | ⟨hempty, -⟩)
      · exact Option.some.inj (hpick.symm.trans hid)
      · have hmem := cfg.keyPick.mem hpick
        rw [hempty] at hmem
        cases hmem
  · have hiff := eq_iff_of_upsertSyntheticApiKey hunique hupsert hrow'
    constructor
    · exact fun hEq => .inr ⟨hempty, hiff.1 hEq⟩
    · rintro (hpick | ⟨-, hsynthetic⟩)
      · have hmem := cfg.keyPick.mem hpick
        rw [hempty] at hmem
        cases hmem
      · exact hiff.2 hsynthetic

/-- In a run whose requests with tokens of an active key find it ahead of the user's other keys, they
are all charged to it.  If they are, it was behind none of them. -/
theorem charged_of_ahead (hx : x.Lawful) (hs : AuthState.Reachable x cfg latency s)
    (hrow : s.db.apiKeys.find id = some row) :
    ((∀ u ∈ s.callsOf row.keyHash, ∀ token, u.credential = .token token → u.db.Active id →
          Ahead x u.db id row.userId row.keyHash) →
        ∀ u ∈ s.callsOf row.keyHash, ∀ token, u.credential = .token token → u.db.Active id →
          u.ctx.apiKeyId = id) ∧
      ((∀ u ∈ s.callsOf row.keyHash, ∀ token, u.credential = .token token → u.db.Active id →
          u.ctx.apiKeyId = id) →
        ∀ u ∈ s.callsOf row.keyHash, ∀ token, u.credential = .token token → u.db.Active id →
          NotBehind x u.db id row.userId row.keyHash) := by
  constructor
  · intro hahead u hu token htoken hactive
    have hiff := apiKeyId_eq_iff hx hs.sound hrow hu htoken hactive
    exact hiff.2 (takenFor_of_ahead (hahead u hu token htoken hactive))
  · intro hcharged u hu token htoken hactive
    have hEq := hcharged u hu token htoken hactive
    exact notBehind_of_takenFor ((apiKeyId_eq_iff hx hs.sound hrow hu htoken hactive).1 hEq)

end Charged

/-! ## Samples -/

def activeRow (b : UInt8) (scopes : List ApiKeyScope) : ApiKeyRow :=
  ⟨1, tokenCrates.sha256 (plainKey b), scopes, some (lit "laptop"), none, none⟩

/-- An only key is ahead of the others. -/
theorem ahead_of_labelledRows {x : AuthCrates} {db : HubDatabase} {id : Uuid} {row : ApiKeyRow}
    {userId : Int} {hash : Hash} (h : db.labelledRows userId = [(id, row)]) :
    Ahead x db id userId hash := by
  refine .inl ⟨row, mem_labelled.1 (h ▸ List.mem_singleton_self (id, row)), ?_⟩
  intro id' row' hrow' hne
  have hmem : (id', row') ∈ db.labelledRows userId := mem_labelled.2 hrow'
  rw [h] at hmem
  exact absurd (congrArg Prod.fst (List.mem_singleton.1 hmem)) hne

def onlyKeyState : AuthState :=
  stateAfter (mintWith 1 .readWrite .read ++
    [(100 * second, bearing readToken (.other scopeDownload))])

theorem charged_onlyKeyState :
    onlyKeyState.callsOf (tokenCrates.sha256 (plainKey 1)) ≠ [] ∧
      ∀ u ∈ onlyKeyState.callsOf (tokenCrates.sha256 (plainKey 1)), ∀ token,
        u.credential = .token token → u.db.Active (sampleUuid 1) →
          u.ctx.apiKeyId = sampleUuid 1 := by
  have hrow : onlyKeyState.db.apiKeys.find (sampleUuid 1) =
      some (activeRow 1 [.download, .upload]) := by
    decide +kernel
  have honly : ∀ u ∈ onlyKeyState.callsOf (tokenCrates.sha256 (plainKey 1)),
      u.db.labelledRows 1 = [(sampleUuid 1, activeRow 1 [.download, .upload])] := by
    decide +kernel
  have hreach : AuthState.Reachable tokenCrates tokenConfig 0 onlyKeyState :=
    reachable_stateAfter (by decide +kernel)
  have hcalls : (onlyKeyState.callsOf (tokenCrates.sha256 (plainKey 1))).isEmpty = false := by
    decide +kernel
  refine ⟨List.isEmpty_eq_false_iff.1 hcalls, ?_⟩
  exact (charged_of_ahead lawful_tokenCrates hreach hrow).1
    fun u hu _ _ _ => ahead_of_labelledRows (honly u hu)

/-- The token of a key for downloads is used while its user has a key for uploads as well. -/
def twoKeysState : AuthState :=
  stateAfter (mintWith 2 .read .read ++
    [(10 * second, .createKey 1 (lit "ci") .readWrite (Hash.fill 1) (sampleUuid 1)),
      (100 * second, bearing readToken (.other scopeDownload))])

theorem not_charged :
    ¬∀ (x : AuthCrates) (cfg : AuthConfig) (latency : Nat) (s : AuthState) (id : Uuid)
      (row : ApiKeyRow), x.Lawful → AuthState.Reachable x cfg latency s →
      s.db.apiKeys.find id = some row →
      ∀ u ∈ s.callsOf row.keyHash, ∀ token, u.credential = .token token → u.db.Active id →
        u.ctx.apiKeyId = id := by
  intro hclaim
  have hrow : twoKeysState.db.apiKeys.find (sampleUuid 2) = some (activeRow 2 [.download]) := by
    decide +kernel
  have hreach : AuthState.Reachable tokenCrates tokenConfig 0 twoKeysState :=
    reachable_stateAfter (by decide +kernel)
  have hall := hclaim tokenCrates tokenConfig 0 twoKeysState (sampleUuid 2)
    (activeRow 2 [.download]) lawful_tokenCrates hreach hrow
  have hother : ∃ u ∈ twoKeysState.callsOf (activeRow 2 [.download]).keyHash,
      u.credential = .token readToken ∧
        u.db.apiKeys.find (sampleUuid 2) = some (activeRow 2 [.download]) ∧
        u.ctx.apiKeyId = sampleUuid 1 := by
    decide +kernel
  obtain ⟨u, hu, htoken, hactive, hid⟩ := hother
  have hEq := hall u hu readToken htoken ⟨_, hactive, rfl⟩
  rw [hid] at hEq
  exact absurd hEq (by decide)

end Hub
end OpenWeights
