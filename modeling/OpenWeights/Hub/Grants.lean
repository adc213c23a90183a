import OpenWeights.Hub.Exchange

/-!
# Grants — what a token allows, against the key it stems from

`Sound` is the invariant of a server: what the cache and the lookups under way know of a key is what
its row says, and every request in the log was authenticated by a key that was seen active recently
enough, or by a token that was valid at that moment.

A token is minted with one of two accesses and read back as a set of scopes.  `WRITE` is read as
upload and download, so a key for uploads alone is exchanged for a token that downloads:
`grants_iff`.
-/

namespace OpenWeights
namespace Hub

open Lib Db

/-! ## What is known of a key -/

/-- A key with this digest, as it was read. -/
def Known (db : HubDatabase) (hash : Hash) (id : Uuid) (userId : Int) (scopes : List ApiKeyScope) :
    Prop :=
  ∃ row, db.apiKeys.find id = some row ∧ row.keyHash = hash ∧ row.userId = userId ∧
    row.scopes = scopes

/-- If the key with this digest is revoked, `time` is no later than `slack` after that. -/
def NotAfter (db : HubDatabase) (hash : Hash) (time slack : Nat) : Prop :=
  ∀ id row t, db.apiKeys.find id = some row → row.keyHash = hash → row.revokedAt = some t →
    time ≤ t + slack

section Evidence

variable {db db' : HubDatabase} {hash : Hash} {id : Uuid} {userId : Int} {scopes : List ApiKeyScope}
  {now time time' slack slack' : Nat}

theorem Known.move (h : Known db hash id userId scopes)
    (hkeys : KeysMove now db.apiKeys db'.apiKeys) : Known db' hash id userId scopes := by
  obtain ⟨row, hrow, hhash, huser, hscopes⟩ := h
  obtain ⟨row', hrow', hsame⟩ := hkeys.kept hrow
  exact ⟨row', hrow', hsame.keyHash.trans hhash, hsame.userId.trans huser,
    hsame.scopes.trans hscopes⟩

theorem NotAfter.move (h : NotAfter db hash time slack) (htime : time ≤ now)
    (hkeys : KeysMove now db.apiKeys db'.apiKeys) : NotAfter db' hash time slack := by
  intro id row' t hrow' hhash hrevoked
  rcases hkeys.back hrow' with ⟨row, hrow, hsame, hold | ⟨-, hnow⟩⟩ | ⟨hactive, -⟩
  · exact h id row t hrow (hsame.keyHash.symm.trans hhash) (hold.symm.trans hrevoked)
  · -- The key is revoked by this very step.
    have ht : now = t := Option.some.inj (hnow.symm.trans hrevoked)
    omega
  · rw [hactive] at hrevoked
    cases hrevoked

theorem NotAfter.later (h : NotAfter db hash time slack) (hle : time' + slack ≤ time + slack') :
    NotAfter db hash time' slack' := by
  intro id row t hrow hhash hrevoked
  have hbound := h id row t hrow hhash hrevoked
  omega

/-- An active key was not revoked before. -/
theorem notAfter_of_activeKey {row : Uuid × ApiKeyRow}
    (hunique : ∀ {id id' : Uuid} {r r' : ApiKeyRow}, db.apiKeys.find id = some r →
      db.apiKeys.find id' = some r' → r.keyHash = r'.keyHash → id = id')
    (h : db.activeKey hash = some row) : NotAfter db hash time slack := by
  obtain ⟨hrow, hhash, hactive⟩ := HubDatabase.activeKey_eq_some h
  intro id r t hr hhash' hrevoked
  cases hunique hr hrow (hhash'.trans hhash.symm)
  cases hr.symm.trans hrow
  rw [hactive] at hrevoked
  cases hrevoked

theorem known_of_activeKey {row : Uuid × ApiKeyRow} (h : db.activeKey hash = some row) :
    Known db hash row.1 row.2.userId row.2.scopes := by
  obtain ⟨hrow, hhash, -⟩ := HubDatabase.activeKey_eq_some h
  exact ⟨row.2, hrow, hhash, rfl, rfl⟩

end Evidence

/-! ## The key cache -/

namespace KeyCache

variable {c c' : KeyCache} {now : Nat} {hash : Hash} {key : ActiveKey} {e : Hash × ActiveKey}

theorem mem_of_lookup (h : c.lookup hash = some key) : (hash, key) ∈ c := by
  induction c with
  | nil => cases h
  | cons entry rest ih =>
      obtain ⟨hash', key'⟩ := entry
      rw [List.lookup_cons] at h
      split at h
      · rename_i hbeq
        cases h
        rw [eq_of_beq hbeq]
        exact List.mem_cons_self
      · exact List.mem_cons_of_mem _ (ih h)

/-- The cache never learns anything from being asked. -/
theorem mem_of_mem_get (h : e ∈ (c.get now hash).2) : e ∈ c := by
  unfold get at h
  split at h
  · exact h
  · rename_i key hkey
    split at h
    · exact (List.mem_filter.1 h).1
    · rcases List.mem_cons.1 h with rfl | h
      · exact mem_of_lookup hkey
      · exact (List.mem_filter.1 h).1

/-- What it answers with is an entry, and not an old one. -/
theorem of_get_eq_some (h : (c.get now hash).1 = some key) :
    (hash, key) ∈ c ∧ now ≤ key.loadedAt + keyCacheTtl := by
  unfold get at h
  split at h
  · cases h
  · rename_i key' hkey
    split at h
    · cases h
    · rename_i hfresh
      cases h
      exact ⟨mem_of_lookup hkey, by omega⟩

theorem mem_put (h : e ∈ c.put hash key) : e = (hash, key) ∨ e ∈ c := by
  rcases List.mem_cons.1 (List.mem_of_mem_take h) with hEq | hold
  · exact .inl hEq
  · exact .inr (List.mem_filter.1 hold).1

end KeyCache

/-! ## The invariant -/

/-- What is true of a request that was authenticated. -/
structure Served.Justified (x : AuthCrates) (cfg : AuthConfig) (latency : Nat) (db : HubDatabase)
    (u : Served) : Prop where
  byKey : ∀ {hash}, u.credential = .key hash →
    Known db hash u.ctx.apiKeyId u.ctx.userId u.ctx.scopes ∧
      NotAfter db hash u.time (keyCacheTtl + latency)
  byToken : ∀ {token}, u.credential = .token token →
    ∃ claims fresh, decodeAndValidate x u.time token = .ok claims ∧
      (accountOf x cfg u.db u.time fresh token claims).1 = .ok (u.ctx.userId, u.ctx.apiKeyId) ∧
      u.ctx.scopes = claims.scopes
  scope : checkScope u.call.scope u.ctx.scopes = .ok ()
  past : ∀ {id r}, u.db.apiKeys.find id = some r → ∃ r', db.apiKeys.find id = some r' ∧ SameKey r r'
  made : ∀ {token}, u.made = some token → ∃ access owner repo,
    u.call = .xetToken access owner repo ∧
      token = mintOpenweightsToken x cfg.xetJwtSigningKey
        (mintedClaims (owner ++ lit "/" ++ repo) (formatInt u.ctx.userId) access access.ttl u.time)

/-- What a server keeps. -/
structure AuthState.Sound (x : AuthCrates) (cfg : AuthConfig) (latency : Nat) (s : AuthState) :
    Prop where
  unique : ∀ {id id' : Uuid} {r r' : ApiKeyRow}, s.db.apiKeys.find id = some r →
    s.db.apiKeys.find id' = some r' → r.keyHash = r'.keyHash → id = id'
  cached : ∀ e ∈ s.cache, Known s.db e.1 e.2.id e.2.userId e.2.scopes ∧ e.2.loadedAt ≤ s.clock ∧
    NotAfter s.db e.1 e.2.loadedAt latency
  lookups : ∀ l ∈ s.lookups, ∀ row readAt, l.row = some (row, readAt) →
    Known s.db l.hash row.1 row.2.userId row.2.scopes ∧ readAt ≤ s.clock ∧
      NotAfter s.db l.hash readAt 0
  served : ∀ u ∈ s.served, u.time ≤ s.clock ∧ u.Justified x cfg latency s.db

namespace AuthState

variable {x : AuthCrates} {cfg : AuthConfig} {latency now : Nat} {s s' : AuthState}
  {db : HubDatabase} {cache : KeyCache}

theorem sound_start (clock : Nat) : Sound x cfg latency (.start clock) := by
  constructor
  · intro id id' r r' hr
    cases hr
  · intro e he
    cases he
  · intro l hl
    cases hl
  · intro u hu
    cases hu

/-- The tables change, and time goes on. -/
theorem Sound.move (h : Sound x cfg latency s) (hclock : s.clock ≤ now)
    (hkeys : KeysMove now s.db.apiKeys db.apiKeys) :
    Sound x cfg latency { s with db := db, clock := now } := by
  constructor
  · exact fun hr hr' => hkeys.unique h.unique hr hr'
  · intro e he
    obtain ⟨hknown, hold, hafter⟩ := h.cached e he
    exact ⟨hknown.move hkeys, hold.trans hclock, hafter.move (hold.trans hclock) hkeys⟩
  · intro l hl row readAt hrow
    obtain ⟨hknown, hold, hafter⟩ := h.lookups l hl row readAt hrow
    exact ⟨hknown.move hkeys, hold.trans hclock, hafter.move (hold.trans hclock) hkeys⟩
  · intro u hu
    obtain ⟨hold, hjust⟩ := h.served u hu
    refine ⟨hold.trans hclock, ?_, hjust.byToken, hjust.scope, ?_, hjust.made⟩
    · intro hash hkey
      obtain ⟨hknown, hafter⟩ := hjust.byKey hkey
      exact ⟨hknown.move hkeys, hafter.move (hold.trans hclock) hkeys⟩
    · intro id r hr
      obtain ⟨r', hr', hsame⟩ := hjust.past hr
      obtain ⟨r'', hr'', hsame'⟩ := hkeys.kept hr'
      exact ⟨r'', hr'', hsame.trans hsame'⟩

theorem Sound.withCache (h : Sound x cfg latency s)
    (hcache : ∀ e ∈ cache, e ∈ s.cache ∨ Known s.db e.1 e.2.id e.2.userId e.2.scopes ∧
      e.2.loadedAt ≤ s.clock ∧ NotAfter s.db e.1 e.2.loadedAt latency) :
    Sound x cfg latency { s with cache := cache } :=
  { unique := h.unique
    cached := fun e he => (hcache e he).elim (h.cached e) id
    lookups := h.lookups
    served := h.served }

theorem Sound.withLookups {lookups : List Lookup} (h : Sound x cfg latency s)
    (hlookups : ∀ l ∈ lookups, l ∈ s.lookups ∨ ∀ row readAt, l.row = some (row, readAt) →
      Known s.db l.hash row.1 row.2.userId row.2.scopes ∧ readAt ≤ s.clock ∧
        NotAfter s.db l.hash readAt 0) :
    Sound x cfg latency { s with lookups := lookups } :=
  { unique := h.unique
    cached := h.cached
    lookups := fun l hl => (hlookups l hl).elim (h.lookups l) id
    served := h.served }

/-- The token of an answer is minted for the caller. -/
theorem of_tokenOf {ctx : AuthContext} {call : AuthCall} {token : Bytes}
    (h : tokenOf x cfg db now ctx call = some token) : ∃ access owner repo,
      call = .xetToken access owner repo ∧
        token = mintOpenweightsToken x cfg.xetJwtSigningKey (mintedClaims (owner ++ lit "/" ++ repo)
          (formatInt ctx.userId) access access.ttl now) := by
  have hmint {access owner repo ttl} {resp : XetTokenResponse}
      (hok : xetToken x cfg db now ctx owner repo access ttl = .ok resp) :
      resp.accessToken = mintOpenweightsToken x cfg.xetJwtSigningKey
        (mintedClaims (owner ++ lit "/" ++ repo) (formatInt ctx.userId) access ttl now) := by
    -- The refusals come first; both ways to succeed mint the same claims.
    unfold xetToken at hok
    split at hok
    · cases hok
    · simp only [bind, Except.bind] at hok
      split at hok
      · cases hok
      · split at hok
        · split at hok
          · cases hok
          · cases hok
            rfl
        · split at hok
          · cases hok
          · cases hok
            rfl
  have htoken {answer : Except AppError XetTokenResponse}
      (hsome : answer.toOption.map XetTokenResponse.accessToken = some token) :
      ∃ resp, answer = .ok resp ∧ resp.accessToken = token := by
    cases answer with
    | error e => cases hsome
    | ok resp => exact ⟨resp, rfl, Option.some.inj hsome⟩
  cases call with
  | other scope => cases h
  | xetToken access owner repo =>
      cases access with
      | write =>
          obtain ⟨resp, hok, rfl⟩ := htoken h
          exact ⟨.write, owner, repo, rfl, hmint hok⟩
      | read =>
          obtain ⟨resp, hok, rfl⟩ := htoken h
          exact ⟨.read, owner, repo, rfl, hmint hok⟩

theorem Sound.serve {before : HubDatabase} {credential : Credential} {call : AuthCall}
    {answer : Except AppError AuthContext} (h : Sound x cfg latency s) (hclock : s.clock = now)
    (hpast : KeysMove now before.apiKeys s.db.apiKeys)
    (hscope : ∀ ctx, answer = .ok ctx → checkScope call.scope ctx.scopes = .ok ())
    (hkey : ∀ ctx, answer = .ok ctx → ∀ {hash}, credential = .key hash →
      Known s.db hash ctx.apiKeyId ctx.userId ctx.scopes ∧
        NotAfter s.db hash now (keyCacheTtl + latency))
    (htoken : ∀ ctx, answer = .ok ctx → ∀ {token}, credential = .token token →
      ∃ claims fresh, decodeAndValidate x now token = .ok claims ∧
        (accountOf x cfg before now fresh token claims).1 = .ok (ctx.userId, ctx.apiKeyId) ∧
        ctx.scopes = claims.scopes) :
    Sound x cfg latency (s.serve x cfg before now credential call answer) := by
  cases answer with
  | error e => exact h
  | ok ctx =>
      refine ⟨h.unique, h.cached, h.lookups, ?_⟩
      intro u hu
      rcases List.mem_cons.1 hu with rfl | hu
      · exact ⟨hclock.ge, hkey ctx rfl, htoken ctx rfl, hscope ctx rfl, hpast.kept, of_tokenOf⟩
      · exact h.served u hu

/-- The end of the extractor for a key. -/
theorem of_admitKey {scope : UInt8} {key : ActiveKey} {ctx : AuthContext}
    (h : admitKey scope key = .ok ctx) :
    checkScope scope ctx.scopes = .ok () ∧ ctx = ⟨key.id, key.userId, key.scopes⟩ := by
  unfold admitKey at h
  split at h
  · cases h
  · rename_i hscope
    cases h
    exact ⟨hscope, rfl⟩

/-- The end of the extractor for a token. -/
theorem of_authenticateXetJwt {fresh : Uuid} {scope : UInt8} {token : Bytes} {ctx : AuthContext}
    (h : (authenticateXetJwt x cfg db now fresh scope token).1 = .ok ctx) :
    ∃ claims, decodeAndValidate x now token = .ok claims ∧ checkScope scope ctx.scopes = .ok () ∧
      (accountOf x cfg db now fresh token claims).1 = .ok (ctx.userId, ctx.apiKeyId) ∧
      ctx.scopes = claims.scopes := by
  rcases authenticateXetJwt_cases x cfg db now fresh scope token with
    ⟨e, hEq⟩ | ⟨claims, hdecode, hscope, hEq⟩
  · rw [hEq] at h
    cases h
  · rw [hEq] at h
    cases haccount : (accountOf x cfg db now fresh token claims).1 with
    | error e =>
        rw [haccount] at h
        cases h
    | ok account =>
        rw [haccount] at h
        cases h
        exact ⟨claims, hdecode, hscope, haccount, rfl⟩

/-- A request comes in. -/
theorem Sound.arrive {r : AuthRequest} (h : Sound x cfg latency s) (hclock : s.clock = now)
    (hact : act x cfg latency s now (.arrive r) = some s') : Sound x cfg latency s' := by
  subst hclock
  simp only [act] at hact
  cases hcredential : credentialOf x r.headers with
  | none =>
      rw [hcredential] at hact
      cases hact
      exact h
  | some credential =>
      rw [hcredential] at hact
      simp only [beginAuth, hcredential] at hact
      cases credential with
      | token token =>
          simp only [Option.some.injEq] at hact
          subst hact
          have hkeys := keysMove_authenticateXetJwt x cfg s.db s.clock r.fresh r.call.scope token
          refine (h.move le_rfl hkeys).serve rfl hkeys ?_ ?_ ?_
          · intro ctx hctx
            exact (of_authenticateXetJwt hctx).choose_spec.2.1
          · intro ctx hctx hash hEq
            cases hEq
          · intro ctx hctx token' hEq
            cases hEq
            obtain ⟨claims, hdecode, -, haccount, hscopes⟩ := of_authenticateXetJwt hctx
            exact ⟨claims, r.fresh, hdecode, haccount, hscopes⟩
      | key hash =>
          dsimp only at hact
          have hasked : Sound x cfg latency { s with cache := (s.cache.get s.clock hash).2 } :=
            h.withCache fun e he => .inl (KeyCache.mem_of_mem_get he)
          cases hget : s.cache.get s.clock hash with
          | mk found cache =>
              rw [hget] at hasked
              rw [hget] at hact
              cases found with
              | none =>
                  simp only [Option.some.injEq] at hact
                  subst hact
                  refine hasked.withLookups fun l hl => ?_
                  rcases List.mem_append.1 hl with hl | hl
                  · exact .inl hl
                  · -- Nothing was read for it yet.
                    refine .inr fun row readAt hrow => ?_
                    rw [List.mem_singleton.1 hl] at hrow
                    cases hrow
              | some key =>
                  simp only [Option.some.injEq] at hact
                  subst hact
                  obtain ⟨hmem, hfresh⟩ := KeyCache.of_get_eq_some (congrArg Prod.fst hget)
                  obtain ⟨hknown, -, hafter⟩ := h.cached _ hmem
                  refine hasked.serve rfl .same ?_ ?_ ?_
                  · exact fun ctx hctx => (of_admitKey hctx).1
                  · intro ctx hctx hash' hEq
                    cases hEq
                    obtain ⟨-, rfl⟩ := of_admitKey hctx
                    exact ⟨hknown, hafter.later (by dsimp only; omega)⟩
                  · intro ctx hctx token hEq
                    cases hEq

/-- The row of a lookup is read. -/
theorem Sound.query {i : Nat} (h : Sound x cfg latency s) (hclock : s.clock = now)
    (hact : act x cfg latency s now (.query i) = some s') : Sound x cfg latency s' := by
  simp only [act] at hact
  split at hact
  · cases hact
  · rename_i l hl
    split at hact
    · cases hact
    · cases hact
      exact h.withLookups fun l hl => .inl (List.mem_of_mem_eraseIdx hl)
    · rename_i row _ hactive
      cases hact
      refine h.withLookups fun l' hl' => ?_
      rcases List.mem_or_eq_of_mem_set hl' with hold | rfl
      · exact .inl hold
      · refine .inr fun row' readAt hrow => ?_
        cases hrow
        exact ⟨known_of_activeKey hactive, hclock.ge, notAfter_of_activeKey h.unique hactive⟩

/-- The row that was read is used. -/
theorem Sound.load {i : Nat} (h : Sound x cfg latency s) (hclock : s.clock = now)
    (hact : act x cfg latency s now (.load i) = some s') : Sound x cfg latency s' := by
  simp only [act] at hact
  split at hact
  · cases hact
  · rename_i l hl
    split at hact
    · cases hact
    · rename_i row readAt hrow
      split at hact
      · rename_i hsoon
        cases hact
        obtain ⟨hknown, -, hafter⟩ := h.lookups l (List.mem_of_getElem? hl) row readAt hrow
        have hcached : Sound x cfg latency
            { s with cache := s.cache.put l.hash (.ofRow row now) } := by
          refine h.withCache fun e he => ?_
          rcases KeyCache.mem_put he with rfl | hold
          · exact .inr ⟨hknown, hclock.ge, hafter.later (by dsimp only [ActiveKey.ofRow]; omega)⟩
          · exact .inl hold
        have hdone : Sound x cfg latency { s with
            cache := s.cache.put l.hash (.ofRow row now)
            lookups := s.lookups.eraseIdx i } :=
          hcached.withLookups fun l hl => .inl (List.mem_of_mem_eraseIdx hl)
        refine hdone.serve hclock .same ?_ ?_ ?_
        · exact fun ctx hctx => (of_admitKey hctx).1
        · intro ctx hctx hash hEq
          cases hEq
          obtain ⟨-, rfl⟩ := of_admitKey hctx
          exact ⟨hknown, hafter.later (by omega)⟩
        · intro ctx hctx token hEq
          cases hEq
      · cases hact

theorem Sound.act {e : AuthEvent} (h : Sound x cfg latency s) (hclock : s.clock = now)
    (hact : AuthState.act x cfg latency s now e = some s') : Sound x cfg latency s' := by
  subst hclock
  have hmove {db : HubDatabase} (hkeys : KeysMove s.clock s.db.apiKeys db.apiKeys) :
      Sound x cfg latency { s with db := db } := h.move le_rfl hkeys
  cases e with
  | createKey userId name scope raw fresh =>
      cases hact
      exact hmove (keysMove_createKey x s.db userId name scope raw fresh s.clock)
  | issueKey id row =>
      obtain ⟨db, hinsert, rfl⟩ := Option.map_eq_some_iff.1 hact
      exact hmove (HubDatabase.keysMove_insertKey hinsert rfl)
  | revokeKey userId id =>
      cases hact
      exact hmove (keysMove_revokeKey s.db userId id s.clock)
  | touchLastUsed id =>
      cases hact
      exact hmove (HubDatabase.keysMove_touchLastUsed s.db id s.clock)
  | elsewhere db =>
      cases hact
      exact hmove .same
  | arrive r => exact h.arrive rfl hact
  | query i => exact h.query rfl hact
  | load i => exact h.load rfl hact

/-- Every state of a server is sound. -/
theorem Reachable.sound (hs : Reachable x cfg latency s) : Sound x cfg latency s := by
  induction hs with
  | start clock => exact sound_start clock
  | step now e hs hnext ih =>
      unfold next at hnext
      split at hnext
      · rename_i hclock
        exact (ih.move hclock .same).act rfl hnext
      · cases hnext

theorem mem_served_of_mem_callsOf {hash : Hash} {u : Served} (h : u ∈ s.callsOf hash) :
    u ∈ s.served :=
  mem_of_mem_delegated h

theorem handedOut_eq_some {u : Served} {token : Bytes} (h : u.made = some token) :
    u.handedOut = some (.token token) := by
  rw [Served.handedOut, h, Option.map_some]

theorem mem_tokensOf {hash : Hash} {token : Bytes} :
    .token token ∈ s.tokensOf hash ↔ ∃ u ∈ s.callsOf hash, u.made = some token := by
  constructor
  · intro h
    obtain ⟨u, hu, hmade⟩ := mem_obtained.1 h
    obtain ⟨token', hmade', hEq⟩ := Option.map_eq_some_iff.1 hmade
    cases hEq
    exact ⟨u, hu, hmade'⟩
  · rintro ⟨u, hu, hmade⟩
    exact mem_obtained.2 ⟨u, hu, handedOut_eq_some hmade⟩

end AuthState

/-! ## Scopes of minted tokens -/

/-- The scope that `xet_write_token` and `xet_read_token` ask for. -/
def OpenWeightsAccess.required : OpenWeightsAccess → ApiKeyScope
  | .write => .upload
  | .read => .download

theorem required_mem_of_checkScope {access : OpenWeightsAccess} {granted : List ApiKeyScope}
    (h : checkScope access.scope granted = .ok ()) : access.required ∈ granted := by
  cases access with
  | write =>
      by_contra hnot
      simp [checkScope, OpenWeightsAccess.scope, scopeUpload, scopeAny, ApiKeyScope.fromU8,
        show ApiKeyScope.upload ∉ granted from hnot] at h
  | read =>
      by_contra hnot
      simp [checkScope, OpenWeightsAccess.scope, scopeUpload, scopeDownload, scopeAny,
        ApiKeyScope.fromU8, show ApiKeyScope.download ∉ granted from hnot] at h

theorem scopes_mintedClaims (repoId userIdStr : Bytes) (access : OpenWeightsAccess)
    (ttlSecs now : Nat) : (mintedClaims repoId userIdStr access ttlSecs now).scopes =
      match access with
      | .write => [.upload, .download]
      | .read => [.download] := by
  cases access with
  | write => exact if_pos rfl
  | read =>
      have hne : lit "READ" ≠ lit "WRITE" := by decide
      exact (if_neg hne).trans (if_pos rfl)

/-- A token is valid when it is minted. -/
theorem decodeAndValidate_mintedClaims {x : AuthCrates} (hx : x.Lawful) (signingKey repoId : Bytes)
    (userIdStr : Bytes) (access : OpenWeightsAccess) (ttlSecs now : Nat) :
    decodeAndValidate x now
        (mintOpenweightsToken x signingKey (mintedClaims repoId userIdStr access ttlSecs now)) =
      .ok (mintedClaims repoId userIdStr access ttlSecs now) := by
  have hissuer : (mintedClaims repoId userIdStr access ttlSecs now).iss ∈ expectedIssuers :=
    List.mem_cons_of_mem _ List.mem_cons_self
  rw [decodeAndValidate_mint hx, if_neg (not_not.2 hissuer), if_neg, if_neg]
  · simp only [mintedClaims, maxClockSkewSecs]
    omega
  · simp only [mintedClaims]
    omega

section Grants

variable {x : AuthCrates} {cfg : AuthConfig} {latency : Nat} {s : AuthState} {id : Uuid}
  {row : ApiKeyRow} {u : Served}

/-- A request that a key authenticates has the scopes of its row. -/
theorem AuthState.Sound.ctx_eq_row (hs : s.Sound x cfg latency)
    (hrow : s.db.apiKeys.find id = some row) (hu : u ∈ s.served)
    (hkey : u.credential = .key row.keyHash) :
    u.ctx.apiKeyId = id ∧ u.ctx.userId = row.userId ∧ u.ctx.scopes = row.scopes := by
  obtain ⟨row', hrow', hhash, huser, hscopes⟩ := ((hs.served u hu).2.byKey hkey).1
  have hid := hs.unique hrow' hrow hhash
  rw [hid] at hrow'
  cases hrow'.symm.trans hrow
  exact ⟨hid, huser.symm, hscopes.symm⟩

/-- The claims of a token that a request was answered with. -/
theorem AuthState.Sound.claims_of_made (hx : x.Lawful) (hs : s.Sound x cfg latency)
    (hu : u ∈ s.served) {token : Bytes} (hmade : u.made = some token) {now : Nat}
    {claims : XetJwtClaims} (hdecode : decodeAndValidate x now token = .ok claims) :
    ∃ access owner repo, u.call = .xetToken access owner repo ∧ access.required ∈ u.ctx.scopes ∧
      claims = mintedClaims (owner ++ lit "/" ++ repo) (formatInt u.ctx.userId) access access.ttl
        u.time := by
  have hjust := (hs.served u hu).2
  obtain ⟨access, owner, repo, hcall, rfl⟩ := hjust.made hmade
  have hscope := hjust.scope
  rw [hcall] at hscope
  exact ⟨access, owner, repo, hcall, required_mem_of_checkScope hscope,
    eq_of_decodeAndValidate_mint hx hdecode⟩

/-- The tokens obtained from a key grant no more than the key does if and only if the key grants
downloads or none of its tokens is a write token. -/
theorem grants_iff (hx : x.Lawful) (hs : AuthState.Reachable x cfg latency s)
    (hrow : s.db.apiKeys.find id = some row) :
    (∀ token, .token token ∈ s.tokensOf row.keyHash → ∀ now claims,
        decodeAndValidate x now token = .ok claims → claims.scopes ⊆ row.scopes) ↔
      (.download ∈ row.scopes ∨ ∀ u ∈ s.callsOf row.keyHash, ∀ owner repo,
        u.call = .xetToken .write owner repo → u.made = none) := by
  have hsound := hs.sound
  constructor
  · intro hall
    by_contra hnot
    push Not at hnot
    obtain ⟨hdownload, u, hu, owner, repo, hcall, hmade⟩ := hnot
    obtain ⟨token, hmade⟩ := Option.ne_none_iff_exists'.1 hmade
    -- The token of this call is valid when it is minted, and grants downloads.
    have huser := AuthState.mem_served_of_mem_callsOf hu
    obtain ⟨access, owner', repo', hcall', rfl⟩ := (hsound.served u huser).2.made hmade
    cases hcall.symm.trans hcall'
    have hscopes := hall _ (AuthState.mem_tokensOf.2 ⟨u, hu, hmade⟩) u.time _
      (decodeAndValidate_mintedClaims hx _ _ _ _ _ _)
    rw [scopes_mintedClaims] at hscopes
    exact hdownload (hscopes (List.mem_cons_of_mem _ List.mem_cons_self))
  · intro hcond
    -- What a call may hand out, if it is made with no more than the scopes of the key.
    have hmint : ∀ u ∈ s.callsOf row.keyHash, u.ctx.scopes ⊆ row.scopes → ∀ {token},
        u.made = some token → ∀ {now claims}, decodeAndValidate x now token = .ok claims →
          claims.scopes ⊆ row.scopes := by
      intro u hu hsub token hmade now claims hdecode
      obtain ⟨access, owner, repo, hcall, hrequired, rfl⟩ :=
        hsound.claims_of_made hx (AuthState.mem_served_of_mem_callsOf hu) hmade hdecode
      have hneeded := hsub hrequired
      rw [scopes_mintedClaims]
      cases access with
      | read => exact List.cons_subset.2 ⟨hneeded, List.nil_subset _⟩
      | write =>
          rcases hcond with hdownload | hnone
          · exact List.cons_subset.2 ⟨hneeded, List.cons_subset.2 ⟨hdownload, List.nil_subset _⟩⟩
          · rw [hnone u hu owner repo hcall] at hmade
            cases hmade
    have hcalls : ∀ u ∈ s.callsOf row.keyHash, u.ctx.scopes ⊆ row.scopes := by
      refine delegated_induction ?_ ?_
      · intro u hu hkey
        rw [(hsound.ctx_eq_row hrow (AuthState.mem_served_of_mem_callsOf hu) hkey).2.2]
        exact List.Subset.refl _
      · intro e he e' he' hmade hsub
        obtain ⟨token, hmade, hEq⟩ := Option.map_eq_some_iff.1 hmade
        obtain ⟨claims, -, hdecode, -, hscopes⟩ :=
          (hsound.served e' (mem_of_mem_delegated he')).2.byToken hEq.symm
        rw [hscopes]
        exact hmint e he hsub hmade hdecode
    intro token htoken now claims hdecode
    obtain ⟨u, hu, hmade⟩ := AuthState.mem_tokensOf.1 htoken
    exact hmint u hu (hcalls u hu) hmade hdecode

end Grants

/-! ## Samples -/

/-- What `serde_json` writes of claims whose strings need no escapes. -/
def claimsJson (c : XetJwtClaims) : Bytes :=
  lit "\x7b\"access\":\"" ++ c.access ++ lit "\",\"exp\":" ++ formatInt c.exp ++ lit ",\"iat\":" ++
    formatInt c.iat ++ lit ",\"iss\":\"" ++ c.iss ++ lit "\",\"repoId\":\"" ++ c.repoId ++
    lit "\",\"userId\":\"" ++ c.userId ++ lit "\"\x7d"

def claimsCode (c : XetJwtClaims) : Nat :=
  let nats := List.map UInt8.toNat
  Encodable.encode (nats c.repoId, nats c.userId, nats c.access, nats c.iss, c.iat, c.exp)

def claimsOfCode (n : Nat) : Option XetJwtClaims :=
  let bytes := List.map UInt8.ofNat
  (Encodable.decode n : Option (List Nat × List Nat × List Nat × List Nat × Int × Int)).map
    fun c => ⟨bytes c.1, bytes c.2.1, bytes c.2.2.1, c.2.2.2.2.1, c.2.2.2.2.2, bytes c.2.2.2.1⟩

theorem claimsOfCode_claimsCode (c : XetJwtClaims) : claimsOfCode (claimsCode c) = some c := by
  rw [claimsOfCode, claimsCode, Encodable.encodek, Option.map_some]
  simp only [List.map_map, Function.comp_def, UInt8.ofNat_toNat, List.map_id']

/-- Crates that write the claims listed as `serde_json` does, and know the digests listed. -/
def AuthCrates.ofTables (claims : List XetJwtClaims) (digests tags : List (Bytes × Hash)) :
    AuthCrates :=
  { sha256 := fun d => (digests.lookup d).getD (Hash.fill 0)
    hmacSha256 := fun key d => if key = lit "secret" then (tags.lookup d).getD (Hash.fill 0)
      else Hash.fill 0
    claimsFromSlice := fun bytes =>
      match claims.find? fun c => claimsJson c = bytes with
      | some c => some c
      | none => claimsOfCode (bytes.length - 1)
    claimsToVec := fun c =>
      if c ∈ claims then claimsJson c else List.replicate (claimsCode c + 1) 0
    headerValue := some }

theorem lawful_ofTables {claims : List XetJwtClaims}
    (hclaims : ∀ c ∈ claims, ∀ c' ∈ claims, claimsJson c = claimsJson c' → c = c')
    (digests tags : List (Bytes × Hash)) : (AuthCrates.ofTables claims digests tags).Lawful := by
  constructor
  intro c
  simp only [AuthCrates.ofTables]
  by_cases hc : c ∈ claims
  · rw [if_pos hc]
    cases hfind : claims.find? fun c' => claimsJson c' = claimsJson c with
    | none =>
        have hnot := List.find?_eq_none.1 hfind c hc
        simp at hnot
    | some c' =>
        have hjson : claimsJson c' = claimsJson c := by simpa using List.find?_some hfind
        exact congrArg some (hclaims c' (List.mem_of_find?_eq_some hfind) c hc hjson)
  · rw [if_neg hc]
    -- No JSON begins with a zero.
    have hfind : (claims.find? fun c' =>
        claimsJson c' = List.replicate (claimsCode c + 1) 0) = none := by
      refine List.find?_eq_none.2 fun c' _ hEq => ?_
      have hhead : (claimsJson c').head? = some 123 := rfl
      rw [of_decide_eq_true hEq] at hhead
      cases hhead
    simp only [hfind, List.length_replicate, Nat.add_sub_cancel, claimsOfCode_claimsCode]

def tokenClaims : List XetJwtClaims :=
  [mintedClaims (lit "alice/model") (lit "1") .write 900 0,
    mintedClaims (lit "alice/model") (lit "1") .read 3600 0,
    mintedClaims (lit "alice/model") (lit "1") .read 3600 (3500 * second)]

def tokenInput (c : XetJwtClaims) : Bytes :=
  base64UrlEncode (lit "\x7b\"alg\":\"HS256\"\x7d") ++ lit "." ++ base64UrlEncode (claimsJson c)

def tokenTags : List (Bytes × Hash) :=
  (tokenClaims.map tokenInput).zip
    [digest "23b5955427537f2bc8ab6516c1b84de9f3fc4d9a0bcf1b96c7df3d64ffa7559c",
      digest "e8c75e00a06abf276845e616c1938dd3a384c57e29513f40bd09f2cf86031563",
      digest "cfd48739df1e466c2e43f6d4e006ca53efff8de3bf6cbfb473684f030b8f7599"]

def plainKey (b : UInt8) : Bytes := base64UrlEncode (Hash.fill b).1

def keyDigests : List (Bytes × Hash) :=
  [(plainKey 0, digest "0f007385b6f9d4b7eeb2748605afe1a984a0a3bfa3f014d09e2a784ce9e5cd1a"),
    (plainKey 1, digest "56d5fa7333f6d747db42c239407e5da4c32f4c79f35d092b134fd35a402d9c5c"),
    (plainKey 2, digest "6c1d63bbdab437c54368cbbd8886a886a79ad977297e265eebf1f5f5f01533b9"),
    (lit "hf-jwt:openweights:1",
      digest "bc2cada04b8effed664f5aaadf73fc32568a9372bb58393094a943cecdeaec5c")]

def tokenCrates : AuthCrates := .ofTables tokenClaims keyDigests tokenTags

theorem lawful_tokenCrates : tokenCrates.Lawful :=
  lawful_ofTables (by decide +kernel) keyDigests tokenTags

def tokenConfig : AuthConfig :=
  { xetJwtSigningKey := lit "secret"
    casPublicUrl := lit "http://localhost:8080"
    keyPick := .head }

/-- A user and a private repository of hers. -/
def aliceTables : HubDatabase :=
  { HubDatabase.empty with
    users := Table.empty.insertNew 1 ⟨lit "alice", none⟩
    repos := Table.empty.insertNew 1 ⟨1, lit "model", .private, 0⟩ }

def sampleUuid (b : UInt8) : Uuid := ⟨List.replicate 16 b, List.length_replicate⟩

def bearing (credential : Bytes) (call : AuthCall) : AuthEvent :=
  .arrive ⟨⟨some (lit "Bearer " ++ credential), none⟩, call, sampleUuid 9⟩

def tokenCall (access : OpenWeightsAccess) : AuthCall :=
  .xetToken access (lit "alice") (lit "model")

/-- She makes a key, and asks for a token with it. -/
def mintWith (b : UInt8) (scope : ConsoleScope) (access : OpenWeightsAccess) :
    List (Nat × AuthEvent) :=
  [(0, .elsewhere aliceTables), (0, .createKey 1 (lit "laptop") scope (Hash.fill b) (sampleUuid b)),
    (0, bearing (plainKey b) (tokenCall access)), (0, .query 0), (0, .load 0)]

def stateAfter (events : List (Nat × AuthEvent)) : AuthState :=
  ((AuthState.start 0).runAll tokenCrates tokenConfig 0 events).getD (.start 0)

theorem reachable_stateAfter {events : List (Nat × AuthEvent)}
    (h : ((AuthState.start 0).runAll tokenCrates tokenConfig 0 events).isSome) :
    AuthState.Reachable tokenCrates tokenConfig 0 (stateAfter events) := by
  obtain ⟨s, hs⟩ := Option.isSome_iff_exists.1 h
  rw [stateAfter, hs, Option.getD_some]
  exact (AuthState.Reachable.start 0).runAll hs

/-- A key for uploads alone is exchanged for a write token. -/
def uploadState : AuthState := stateAfter (mintWith 0 .write .write)

theorem reachable_uploadState : AuthState.Reachable tokenCrates tokenConfig 0 uploadState :=
  reachable_stateAfter (by decide +kernel)

def uploadRow : ApiKeyRow :=
  ⟨1, tokenCrates.sha256 (plainKey 0), [.upload], some (lit "laptop"), none, none⟩

theorem find_uploadRow : uploadState.db.apiKeys.find (sampleUuid 0) = some uploadRow := by
  decide +kernel

def writeToken : Bytes :=
  mintOpenweightsToken tokenCrates (lit "secret")
    (mintedClaims (lit "alice/model") (lit "1") .write 900 0)

def readToken : Bytes :=
  mintOpenweightsToken tokenCrates (lit "secret")
    (mintedClaims (lit "alice/model") (lit "1") .read 3600 0)

theorem writeToken_mem : .token writeToken ∈ uploadState.tokensOf uploadRow.keyHash := by
  decide +kernel

theorem grants_iff_uploadState :
    (∀ token, .token token ∈ uploadState.tokensOf uploadRow.keyHash → ∀ now claims,
        decodeAndValidate tokenCrates now token = .ok claims → claims.scopes ⊆ uploadRow.scopes) ↔
      (.download ∈ uploadRow.scopes ∨ ∀ u ∈ uploadState.callsOf uploadRow.keyHash, ∀ owner repo,
        u.call = .xetToken .write owner repo → u.made = none) :=
  grants_iff lawful_tokenCrates reachable_uploadState find_uploadRow

/-- A key for uploads alone downloads through the token it is exchanged for. -/
theorem not_grants_subset :
    ¬∀ (x : AuthCrates) (cfg : AuthConfig) (latency : Nat) (s : AuthState) (id : Uuid)
      (row : ApiKeyRow), x.Lawful → AuthState.Reachable x cfg latency s →
      s.db.apiKeys.find id = some row →
      ∀ token, .token token ∈ s.tokensOf row.keyHash → ∀ now claims,
        decodeAndValidate x now token = .ok claims → claims.scopes ⊆ row.scopes := by
  intro hclaim
  have hscopes := hclaim tokenCrates tokenConfig 0 uploadState (sampleUuid 0) uploadRow
    lawful_tokenCrates reachable_uploadState find_uploadRow writeToken writeToken_mem 0 _
    (decodeAndValidate_mintedClaims lawful_tokenCrates _ _ _ _ _ _)
  have hwrite : (mintedClaims (lit "alice/model") (lit "1") .write 900 0).scopes =
      [.upload, .download] := scopes_mintedClaims _ _ _ _ _
  rw [hwrite] at hscopes
  exact absurd (hscopes (List.mem_cons_of_mem _ List.mem_cons_self)) (by decide)

end Hub
end OpenWeights
