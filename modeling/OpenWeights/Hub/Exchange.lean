import OpenWeights.Hub.Auth
import OpenWeights.Lib.Delegation

/-!
# Exchange — keys, and the tokens that stem from them

A server runs: keys are issued and revoked, requests come in, some of them ask for a token
(`xet_write_token`, `xet_read_token`), and the token authenticates later ones.  The lookup of a key
takes three steps, at three moments: the cache is asked, the row is read, and what was read is put
into the cache and used.  `AuthState.served` logs the requests that were authenticated; what the
statements below say of a run, they say of this log.

What a run keeps is `Sound`.  One question is settled here: `grants_iff`, when a token grants no more
than the key it stems from.
-/

namespace OpenWeights
namespace Hub

open Lib Db

/-! ## The server -/

/-- What a request behind `AuthScoped` is for. -/
inductive AuthCall
  | xetToken (access : OpenWeightsAccess) (owner repo : Bytes)
  | other (scope : UInt8)
  deriving DecidableEq, Repr

def AuthCall.scope : AuthCall → UInt8
  | .xetToken access _ _ => access.scope
  | .other scope => scope

structure AuthRequest where
  headers : AuthHeaders
  call : AuthCall
  /-- What `gen_random_uuid` answers with. -/
  fresh : Uuid
  deriving DecidableEq, Repr

structure Served where
  time : Nat
  credential : Credential
  call : AuthCall
  /-- The tables when the extractor went about it. -/
  db : HubDatabase
  /-- What the handler was told of the caller. -/
  ctx : AuthContext
  /-- The token of the answer. -/
  made : Option Bytes

/-- A request that waits for its key. -/
structure Lookup where
  hash : Hash
  call : AuthCall
  /-- The row, and the moment it was read. -/
  row : Option ((Uuid × ApiKeyRow) × Nat)
  deriving DecidableEq, Repr

structure AuthState where
  db : HubDatabase
  cache : KeyCache
  clock : Nat
  lookups : List Lookup
  /-- The newest first. -/
  served : List Served

def AuthState.start (clock : Nat) : AuthState :=
  { db := .empty
    cache := []
    clock := clock
    lookups := []
    served := [] }

inductive AuthEvent
  | createKey (userId : Int) (name : Bytes) (scope : ConsoleScope) (raw : Hash) (fresh : Uuid)
  /-- A key that an operator inserts, with any scopes. -/
  | issueKey (id : Uuid) (row : ApiKeyRow)
  | revokeKey (userId : Int) (id : Uuid)
  | touchLastUsed (id : Uuid)
  /-- What others do to the tables; no other statement writes to `api_keys`. -/
  | elsewhere (db : HubDatabase)
  | arrive (r : AuthRequest)
  /-- The row of a lookup is read. -/
  | query (i : Nat)
  /-- The row that was read is put into the cache and used. -/
  | load (i : Nat)

/-- The token a request handed out, as what it can be presented as. -/
def Served.handedOut (u : Served) : Option Credential :=
  u.made.map .token

namespace AuthState

/-- The requests that were authenticated by a key, or by what stems from it. -/
def callsOf (s : AuthState) (hash : Hash) : List Served :=
  delegated Served.credential Served.handedOut (.key hash) s.served

/-- The tokens obtained from a key, directly or through any chain of exchanges. -/
def tokensOf (s : AuthState) (hash : Hash) : List Credential :=
  obtained Served.credential Served.handedOut (.key hash) s.served

section Step

variable (x : AuthCrates) (cfg : AuthConfig)

/-- The token a request is answered with, if it asks for one and gets it. -/
def tokenOf (db : HubDatabase) (now : Nat) (ctx : AuthContext) : AuthCall → Option Bytes
  | .xetToken .write owner repo =>
      (xetWriteToken x cfg db now ctx owner repo).toOption.map XetTokenResponse.accessToken
  | .xetToken .read owner repo =>
      (xetReadToken x cfg db now ctx owner repo).toOption.map XetTokenResponse.accessToken
  | .other _ => none

/-- Answer a request, once the extractor is through. -/
def serve (s : AuthState) (before : HubDatabase) (now : Nat) (credential : Credential)
    (call : AuthCall) : Except AppError AuthContext → AuthState
  | .error _ => s
  | .ok ctx =>
      let entry : Served :=
        { time := now
          credential := credential
          call := call
          db := before
          ctx := ctx
          made := tokenOf x cfg s.db now ctx call }
      { s with served := entry :: s.served }

/-- What an event does at a moment.  No row is used later than `latency` after it was read. -/
def act (latency : Nat) (s : AuthState) (now : Nat) : AuthEvent → Option AuthState
  | .createKey userId name scope raw fresh =>
      some { s with db := (createKey x s.db userId name scope raw fresh now).2 }
  | .issueKey id row =>
      (s.db.insertKey id { row with revokedAt := none }).map fun db => { s with db := db }
  | .revokeKey userId id => some { s with db := (revokeKey s.db userId id now).2 }
  | .touchLastUsed id => some { s with db := s.db.touchLastUsed id now }
  | .elsewhere db => some { s with db := { db with apiKeys := s.db.apiKeys } }
  | .arrive r =>
      match credentialOf x r.headers,
        beginAuth x cfg s.db s.cache now r.fresh r.call.scope r.headers with
      | none, _ => some s
      | some _, .lookUp hash cache =>
          some { s with
            cache := cache
            lookups := s.lookups ++ [⟨hash, r.call, none⟩] }
      | some credential, .done answer db cache =>
          some (serve x cfg { s with db := db, cache := cache } s.db now credential r.call answer)
  | .query i =>
      match s.lookups[i]? with
      | none => none
      | some l =>
          match l.row, s.db.activeKey l.hash with
          | some _, _ => none
          | none, none => some { s with lookups := s.lookups.eraseIdx i }
          | none, some row =>
              some { s with lookups := s.lookups.set i { l with row := some (row, now) } }
  | .load i =>
      match s.lookups[i]? with
      | none => none
      | some l =>
          match l.row with
          | none => none
          | some (row, readAt) =>
              if now ≤ readAt + latency then
                let key := ActiveKey.ofRow row now
                let s := { s with
                  cache := s.cache.put l.hash key
                  lookups := s.lookups.eraseIdx i }
                some (serve x cfg s s.db now (.key l.hash) l.call (admitKey l.call.scope key))
              else
                none

/-- A step of the server: time does not run back. -/
def next (latency : Nat) (s : AuthState) (now : Nat) (e : AuthEvent) : Option AuthState :=
  if s.clock ≤ now then act x cfg latency { s with clock := now } now e else none

/-- The states of a server whose lookups take at most `latency`. -/
inductive Reachable (latency : Nat) : AuthState → Prop
  | start (clock : Nat) : Reachable latency (.start clock)
  | step {s s' : AuthState} (now : Nat) (e : AuthEvent) (hs : Reachable latency s)
      (hnext : next x cfg latency s now e = some s') : Reachable latency s'

def runAll (latency : Nat) (s : AuthState) : List (Nat × AuthEvent) → Option AuthState
  | [] => some s
  | (now, e) :: rest => (next x cfg latency s now e).bind fun s => runAll latency s rest

end Step

variable {x : AuthCrates} {cfg : AuthConfig} {latency : Nat} {s s' : AuthState}

theorem Reachable.runAll {events : List (Nat × AuthEvent)} (hs : Reachable x cfg latency s)
    (hrun : s.runAll x cfg latency events = some s') : Reachable x cfg latency s' := by
  induction events generalizing s with
  | nil =>
      cases hrun
      exact hs
  | cons event rest ih =>
      obtain ⟨now, e⟩ := event
      obtain ⟨s₁, hnext, hrest⟩ := Option.bind_eq_some_iff.1 hrun
      exact ih (hs.step now e hnext) hrest

end AuthState

/-! ## The table of keys -/

structure SameKey (r r' : ApiKeyRow) : Prop where
  userId : r'.userId = r.userId
  keyHash : r'.keyHash = r.keyHash
  scopes : r'.scopes = r.scopes

theorem SameKey.refl (r : ApiKeyRow) : SameKey r r := ⟨rfl, rfl, rfl⟩

theorem SameKey.trans {r r' r'' : ApiKeyRow} (h : SameKey r r') (h' : SameKey r' r'') :
    SameKey r r'' :=
  ⟨h'.userId.trans h.userId, h'.keyHash.trans h.keyHash, h'.scopes.trans h.scopes⟩

/-- What a statement does to `api_keys`: a row keeps its digest, its user and its scopes, and if it
is revoked, then now; a row that is added is active, and its digest is new. -/
inductive KeysMove (now : Nat) (t : Table Uuid ApiKeyRow) : Table Uuid ApiKeyRow → Prop
  | same : KeysMove now t t
  | updated (id : Uuid) (f : ApiKeyRow → ApiKeyRow)
      (hf : ∀ r, t.find id = some r → SameKey r (f r) ∧
        ((f r).revokedAt = r.revokedAt ∨ r.revokedAt = none ∧ (f r).revokedAt = some now)) :
      KeysMove now t (t.update id f)
  | inserted (id : Uuid) (row : ApiKeyRow) (hid : t.find id = none)
      (hhash : ∀ id' r, t.find id' = some r → r.keyHash ≠ row.keyHash)
      (hactive : row.revokedAt = none) : KeysMove now t (t.insertNew id row)

namespace KeysMove

variable {now : Nat} {t t' : Table Uuid ApiKeyRow} {id id' : Uuid} {r r' : ApiKeyRow}

/-- No row goes away. -/
theorem kept (h : KeysMove now t t') (hr : t.find id = some r) :
    ∃ r', t'.find id = some r' ∧ SameKey r r' := by
  cases h with
  | same => exact ⟨r, hr, .refl r⟩
  | updated id₀ f hf =>
      by_cases hid : id = id₀
      · cases hid
        exact ⟨f r, by rw [Table.find_update_self, hr, Option.map_some], (hf r hr).1⟩
      · exact ⟨r, (Table.find_update_of_ne t f hid).trans hr, .refl r⟩
  | inserted id₀ row hid hhash hactive => exact ⟨r, Table.find_insertNew_mono hr, .refl r⟩

/-- Where a row comes from. -/
theorem back (h : KeysMove now t t') (hr : t'.find id = some r') :
    (∃ r, t.find id = some r ∧ SameKey r r' ∧
        (r'.revokedAt = r.revokedAt ∨ r.revokedAt = none ∧ r'.revokedAt = some now)) ∨
      r'.revokedAt = none ∧ ∀ id₀ r, t.find id₀ = some r → r.keyHash ≠ r'.keyHash := by
  cases h with
  | same => exact .inl ⟨r', hr, .refl r', .inl rfl⟩
  | updated id₀ f hf =>
      by_cases hid : id = id₀
      · cases hid
        rw [Table.find_update_self] at hr
        obtain ⟨r, hold, rfl⟩ := Option.map_eq_some_iff.1 hr
        exact .inl ⟨r, hold, hf r hold⟩
      · rw [Table.find_update_of_ne t f hid] at hr
        exact .inl ⟨r', hr, .refl r', .inl rfl⟩
  | inserted id₀ row hid hhash hactive =>
      by_cases hne : id = id₀
      · cases hne
        rw [Table.find_insertNew_self, hid] at hr
        cases hr
        exact .inr ⟨hactive, hhash⟩
      · rw [Table.find_insertNew_of_ne t row hne] at hr
        exact .inl ⟨r', hr, .refl r', .inl rfl⟩

/-- A digest belongs to one row. -/
theorem unique (h : KeysMove now t t')
    (hold : ∀ {id id' r r'}, t.find id = some r → t.find id' = some r' → r.keyHash = r'.keyHash →
      id = id')
    (hr : t'.find id = some r) (hr' : t'.find id' = some r') (hhash : r.keyHash = r'.keyHash) :
    id = id' := by
  cases h with
  | same => exact hold hr hr' hhash
  | updated id₀ f hf =>
      have hrow {id r} (hfind : (t.update id₀ f).find id = some r) :
          ∃ r₀, t.find id = some r₀ ∧ r.keyHash = r₀.keyHash := by
        by_cases hid : id = id₀
        · cases hid
          rw [Table.find_update_self] at hfind
          obtain ⟨r₀, hr₀, rfl⟩ := Option.map_eq_some_iff.1 hfind
          exact ⟨r₀, hr₀, (hf r₀ hr₀).1.keyHash⟩
        · rw [Table.find_update_of_ne t f hid] at hfind
          exact ⟨r, hfind, rfl⟩
      obtain ⟨r₀, hr₀, hEq⟩ := hrow hr
      obtain ⟨r₀', hr₀', hEq'⟩ := hrow hr'
      exact hold hr₀ hr₀' (hEq.symm.trans (hhash.trans hEq'))
  | inserted id₀ row hid hnew hactive =>
      by_cases hne : id = id₀
      · by_cases hne' : id' = id₀
        · exact hne.trans hne'.symm
        · cases hne
          rw [Table.find_insertNew_self, hid] at hr
          rw [Table.find_insertNew_of_ne t row hne'] at hr'
          cases hr
          exact absurd hhash.symm (hnew id' r' hr')
      · rw [Table.find_insertNew_of_ne t row hne] at hr
        by_cases hne' : id' = id₀
        · cases hne'
          rw [Table.find_insertNew_self, hid] at hr'
          cases hr'
          exact absurd hhash (hnew id r hr)
        · rw [Table.find_insertNew_of_ne t row hne'] at hr'
          exact hold hr hr' hhash

end KeysMove

namespace HubDatabase

variable {db db' : HubDatabase} {hash : Hash} {id : Uuid} {row : ApiKeyRow} {now : Nat}

theorem activeKey_eq_some (h : db.activeKey hash = some (id, row)) :
    db.apiKeys.find id = some row ∧ row.keyHash = hash ∧ row.revokedAt = none := by
  have hmem := List.mem_of_find?_eq_some h
  have hsat := List.find?_some h
  rw [Bool.and_eq_true, decide_eq_true_eq, decide_eq_true_eq] at hsat
  exact ⟨Table.find_eq_some_iff.2 hmem, hsat⟩

theorem keyOfHash_eq_none (h : db.keyOfHash hash = none) (hrow : db.apiKeys.find id = some row) :
    row.keyHash ≠ hash := by
  intro hhash
  have hnot := List.find?_eq_none.1 h _ (Table.find_eq_some_iff.1 hrow)
  simp [hhash] at hnot

theorem keysMove_insertKey (h : db.insertKey id row = some db') (hactive : row.revokedAt = none) :
    KeysMove now db.apiKeys db'.apiKeys := by
  unfold insertKey at h
  split at h
  · rename_i hfree
    cases h
    exact .inserted id row hfree.2.1 (fun _ _ hr => keyOfHash_eq_none hfree.1 hr) hactive
  · cases h

theorem keysMove_touchLastUsed (db : HubDatabase) (id : Uuid) (at_ : Nat) :
    KeysMove now db.apiKeys (db.touchLastUsed id at_).apiKeys :=
  .updated id (fun r => { r with lastUsedAt := some at_ }) fun _ _ =>
    ⟨⟨rfl, rfl, rfl⟩, .inl rfl⟩

end HubDatabase

section Statements

variable {x : AuthCrates} {cfg : AuthConfig} {db db' : HubDatabase} {now : Nat}

theorem keysMove_createKey (x : AuthCrates) (db : HubDatabase) (userId : Int) (name : Bytes)
    (scope : ConsoleScope) (raw : Hash) (fresh : Uuid) (now : Nat) :
    KeysMove now db.apiKeys (createKey x db userId name scope raw fresh now).2.apiKeys := by
  unfold createKey
  dsimp only
  split
  · exact .same
  · split
    · exact .same
    · split
      · exact .same
      · rename_i hinsert
        exact HubDatabase.keysMove_insertKey hinsert rfl

theorem keysMove_revokeKey (db : HubDatabase) (userId : Int) (id : Uuid) (now : Nat) :
    KeysMove now db.apiKeys (revokeKey db userId id now).2.apiKeys := by
  unfold revokeKey
  split
  · exact .same
  · rename_i row hrow
    split
    · rename_i hactive
      refine .updated id (fun r => { r with revokedAt := some now }) fun r hr =>
        ⟨⟨rfl, rfl, rfl⟩, .inr ⟨?_, rfl⟩⟩
      cases hr.symm.trans hrow
      exact hactive.2
    · exact .same

theorem keysMove_upsertSyntheticApiKey {fresh id : Uuid} {userId : Int} {hfUserId : Bytes}
    (h : upsertSyntheticApiKey x db now fresh userId hfUserId = some (id, db')) :
    KeysMove now db.apiKeys db'.apiKeys := by
  unfold upsertSyntheticApiKey at h
  dsimp only at h
  split at h
  · cases h
    exact HubDatabase.keysMove_touchLastUsed db _ now
  · obtain ⟨db₁, hinsert, hEq⟩ := Option.map_eq_some_iff.1 h
    cases hEq
    exact HubDatabase.keysMove_insertKey hinsert rfl

theorem apiKeys_upsertHfUser {userId : Int} {hfUserId : Bytes}
    (h : upsertHfUser x db hfUserId = some (userId, db')) : db'.apiKeys = db.apiKeys := by
  unfold upsertHfUser at h
  dsimp only at h
  split at h
  · split at h
    · cases h
    · cases h
      rfl
  · split at h
    · cases h
      rfl
    · cases h

theorem keysMove_ownAccount (fresh : Uuid) (token : Bytes) (claims : XetJwtClaims) :
    KeysMove now db.apiKeys (ownAccount x cfg db now fresh token claims).2.apiKeys := by
  unfold ownAccount
  split
  · exact .same
  · split
    · exact .same
    · split
      · exact .same
      · split
        · exact .same
        · split
          · exact .same
          · rename_i hupsert
            exact keysMove_upsertSyntheticApiKey hupsert

theorem keysMove_hfAccount (fresh : Uuid) (claims : XetJwtClaims) :
    KeysMove now db.apiKeys (hfAccount x db now fresh claims).2.apiKeys := by
  unfold hfAccount
  split
  · exact .same
  · rename_i uid db₁ huser
    rw [← apiKeys_upsertHfUser huser]
    split
    · exact .same
    · rename_i hupsert
      exact keysMove_upsertSyntheticApiKey hupsert

theorem keysMove_accountOf (fresh : Uuid) (token : Bytes) (claims : XetJwtClaims) :
    KeysMove now db.apiKeys (accountOf x cfg db now fresh token claims).2.apiKeys := by
  unfold accountOf
  split
  · exact keysMove_ownAccount fresh token claims
  · exact keysMove_hfAccount fresh claims

/-- How a token is authenticated. -/
theorem authenticateXetJwt_cases (x : AuthCrates) (cfg : AuthConfig) (db : HubDatabase) (now : Nat)
    (fresh : Uuid) (scope : UInt8) (token : Bytes) :
    (∃ e, authenticateXetJwt x cfg db now fresh scope token = (.error e, db)) ∨
      ∃ claims, decodeAndValidate x now token = .ok claims ∧
        checkScope scope claims.scopes = .ok () ∧
        authenticateXetJwt x cfg db now fresh scope token =
          ((accountOf x cfg db now fresh token claims).1.map fun a => ⟨a.2, a.1, claims.scopes⟩,
            (accountOf x cfg db now fresh token claims).2) := by
  rw [authenticateXetJwt.eq_def]
  cases hdecode : decodeAndValidate x now token with
  | error e => exact .inl ⟨_, rfl⟩
  | ok claims =>
      cases hscope : checkScope scope claims.scopes with
      | error e => exact .inl ⟨e, by simp only [hscope]⟩
      | ok u =>
          refine .inr ⟨claims, rfl, hscope, ?_⟩
          simp only [hscope]
          cases haccount : accountOf x cfg db now fresh token claims with
          | mk answer db' =>
              cases answer with
              | error e => rfl
              | ok a => rfl

theorem keysMove_authenticateXetJwt (x : AuthCrates) (cfg : AuthConfig) (db : HubDatabase)
    (now : Nat) (fresh : Uuid) (scope : UInt8) (token : Bytes) :
    KeysMove now db.apiKeys (authenticateXetJwt x cfg db now fresh scope token).2.apiKeys := by
  rcases authenticateXetJwt_cases x cfg db now fresh scope token with
    ⟨e, hEq⟩ | ⟨claims, -, -, hEq⟩
  · rw [hEq]
    exact .same
  · rw [hEq]
    exact keysMove_accountOf fresh token claims

end Statements

end Hub
end OpenWeights
