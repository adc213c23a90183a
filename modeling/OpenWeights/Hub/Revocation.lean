import OpenWeights.Hub.Grants

/-!
# Revocation — how long a revoked key is of use

A key that was revoked authenticates as long as a process finds it in its cache, and a lookup under
way may still put it there: `KEY_CACHE_TTL` and the latency of one lookup (`time_le_of_key`).

A token is good until its second `exp`.  Nothing about it is looked up in `api_keys`, so a token of a
revoked key is exchanged for another one, and that for another one, without end.  Where that does not
happen, its tokens last no longer than the longest of them does: `revokedInTime`.
-/

namespace OpenWeights
namespace Hub

open Lib Db

def longestTokenTtl : Nat := max writeTokenTtlSecs readTokenTtlSecs * second

/-- No request is authenticated by the key with this digest, or by a token obtained from it, long
after the key was revoked at `t`. -/
structure RevokedInTime (s : AuthState) (hash : Hash) (t latency : Nat) : Prop where
  byKey : ∀ u ∈ s.served, u.credential = .key hash → u.time ≤ t + keyCacheTtl + latency
  byToken : ∀ u ∈ s.callsOf hash, ∀ token, u.credential = .token token →
    u.time ≤ t + keyCacheTtl + latency + longestTokenTtl

/-- No token of the key is exchanged for another one after the key itself has ceased to be of use,
and none is presented in the second that its `exp` names. -/
structure ExpiresInTime (x : AuthCrates) (s : AuthState) (hash : Hash) (t latency : Nat) : Prop where
  exchanges : ∀ u ∈ s.callsOf hash, ∀ token, u.credential = .token token →
    ∀ access owner repo, u.call = .xetToken access owner repo → u.time ≤ t + keyCacheTtl + latency
  seconds : ∀ u ∈ s.callsOf hash, ∀ token, u.credential = .token token →
    ∀ claims, decodeAndValidate x u.time token = .ok claims → claims.exp ≠ asSecs u.time

section Revocation

variable {x : AuthCrates} {cfg : AuthConfig} {latency t : Nat} {s : AuthState} {id : Uuid}
  {row : ApiKeyRow} {u e e' : Served}

theorem time_le_of_key (hs : AuthState.Reachable x cfg latency s)
    (hrow : s.db.apiKeys.find id = some row) (hrevoked : row.revokedAt = some t)
    (hu : u ∈ s.served) (hkey : u.credential = .key row.keyHash) :
    u.time ≤ t + keyCacheTtl + latency := by
  have hafter := ((hs.sound.served u hu).2.byKey hkey).2
  calc
    u.time ≤ t + (keyCacheTtl + latency) := hafter id row t hrow rfl hrevoked
    _ = t + keyCacheTtl + latency := (Nat.add_assoc _ _ _).symm

theorem ttl_le (access : OpenWeightsAccess) : access.ttl * second ≤ longestTokenTtl := by
  cases access with
  | write => decide
  | read => decide

/-- A token that is presented before its last second was minted less than its lifetime ago. -/
theorem time_le_of_exp {now made ttl : Nat} (h : asSecs now < asSecs made + ttl) :
    now ≤ made + ttl * second := by
  have hnow : now < (now / second + 1) * second := by
    rw [Nat.add_mul, Nat.one_mul]
    exact Nat.lt_div_mul_add (by decide)
  have hmade : made / second * second ≤ made := Nat.div_mul_le_self made second
  have hsecs : now / second + 1 ≤ made / second + ttl := by
    simp only [asSecs] at h
    omega
  calc
    now ≤ (now / second + 1) * second := hnow.le
    _ ≤ (made / second + ttl) * second := Nat.mul_le_mul_right second hsecs
    _ = made / second * second + ttl * second := Nat.add_mul _ _ _
    _ ≤ made + ttl * second := Nat.add_le_add_right hmade _

/-- From the making of a token to its use. -/
theorem time_le_of_handedOut (hx : x.Lawful) (hs : AuthState.Reachable x cfg latency s) {hash : Hash}
    (htime : ExpiresInTime x s hash t latency) (he : e ∈ s.callsOf hash) (he' : e' ∈ s.callsOf hash)
    (hmade : e.handedOut = some e'.credential) : e'.time ≤ e.time + longestTokenTtl := by
  obtain ⟨token, hmade, hEq⟩ := Option.map_eq_some_iff.1 hmade
  have hserved := (hs.sound.served e' (AuthState.mem_served_of_mem_callsOf he')).2
  obtain ⟨claims, -, hdecode, -⟩ := hserved.byToken hEq.symm
  obtain ⟨access, owner, repo, -, -, hclaims⟩ :=
    hs.sound.claims_of_made hx (AuthState.mem_served_of_mem_callsOf he) hmade hdecode
  have hexp : claims.exp = asSecs e.time + access.ttl := by
    rw [hclaims]
    rfl
  have hne := htime.seconds e' he' token hEq.symm claims hdecode
  have hle := (of_decodeAndValidate hdecode).2
  have hlt : asSecs e'.time < asSecs e.time + access.ttl := by
    rw [← hexp]
    exact lt_of_le_of_ne hle (Ne.symm hne)
  calc
    e'.time ≤ e.time + access.ttl * second := time_le_of_exp hlt
    _ ≤ e.time + longestTokenTtl := Nat.add_le_add_left (ttl_le access) _

/-- In a run whose tokens of the key expire in time, a key that is revoked ceases to be of use, and
so does what was obtained from it. -/
theorem revokedInTime (hx : x.Lawful) (hs : AuthState.Reachable x cfg latency s)
    (hrow : s.db.apiKeys.find id = some row) (hrevoked : row.revokedAt = some t)
    (htime : ExpiresInTime x s row.keyHash t latency) :
    RevokedInTime s row.keyHash t latency := by
  constructor
  · exact fun u hu hkey => time_le_of_key hs hrow hrevoked hu hkey
  · intro u hu token htoken
    refine time_le_of_delegated Served.time _ longestTokenTtl ?_ ?_ hu ?_
    · intro e he c hmade
      -- What hands out a token is an exchange, by the key or by another token.
      obtain ⟨made, hmade, -⟩ := Option.map_eq_some_iff.1 hmade
      have hserved := AuthState.mem_served_of_mem_callsOf he
      obtain ⟨access, owner, repo, hcall, -⟩ := (hs.sound.served e hserved).2.made hmade
      cases hcredential : e.credential with
      | token presented => exact htime.exchanges e he presented hcredential access owner repo hcall
      | key hash =>
          rcases source_of_mem_delegated he with hroot | hobtained
          · exact time_le_of_key hs hrow hrevoked hserved hroot
          · obtain ⟨e', -, hmade'⟩ := mem_obtained.1 hobtained
            obtain ⟨made', -, hEq⟩ := Option.map_eq_some_iff.1 hmade'
            rw [hcredential] at hEq
            cases hEq
    · exact fun e he e' he' hmade => time_le_of_handedOut hx hs htime he he' hmade
    · rw [htoken]
      exact fun hEq => Credential.noConfusion hEq

end Revocation

/-! ## Samples -/

def expiresCheck (x : AuthCrates) (bound : Nat) (u : Served) : Bool :=
  match u.credential with
  | .key _ => true
  | .token token =>
      (match u.call with
        | .xetToken _ _ _ => decide (u.time ≤ bound)
        | .other _ => true) &&
      match decodeAndValidate x u.time token with
        | .ok claims => decide (claims.exp ≠ asSecs u.time)
        | .error _ => true

theorem expiresInTime_of_check {x : AuthCrates} {s : AuthState} {hash : Hash} {t latency : Nat}
    (h : (s.callsOf hash).all (expiresCheck x (t + keyCacheTtl + latency)) = true) :
    ExpiresInTime x s hash t latency := by
  rw [List.all_eq_true] at h
  constructor
  · intro u hu token htoken access owner repo hcall
    have hcheck := h u hu
    simp only [expiresCheck, htoken, hcall, Bool.and_eq_true, decide_eq_true_eq] at hcheck
    exact hcheck.1
  · intro u hu token htoken claims hdecode
    have hcheck := h u hu
    simp only [expiresCheck, htoken, hdecode, Bool.and_eq_true, decide_eq_true_eq] at hcheck
    exact hcheck.2

def renewedToken : Bytes :=
  mintOpenweightsToken tokenCrates (lit "secret")
    (mintedClaims (lit "alice/model") (lit "1") .read 3600 (3500 * second))

def revokedRow (t : Nat) : ApiKeyRow :=
  ⟨1, tokenCrates.sha256 (plainKey 1), [.download, .upload], some (lit "laptop"), some t, none⟩

/-- A token is used for downloads, and the key is revoked. -/
def usedState : AuthState :=
  stateAfter (mintWith 1 .readWrite .read ++
    [(100 * second, bearing readToken (.other scopeDownload)),
      (200 * second, .revokeKey 1 (sampleUuid 1)),
      (300 * second, bearing readToken (.other scopeDownload))])

theorem reachable_usedState : AuthState.Reachable tokenCrates tokenConfig 0 usedState :=
  reachable_stateAfter (by decide +kernel)

theorem revokedInTime_usedState :
    RevokedInTime usedState (tokenCrates.sha256 (plainKey 1)) (200 * second) 0 ∧
      (usedState.callsOf (tokenCrates.sha256 (plainKey 1))).map Served.time =
        [300 * second, 100 * second, 0] := by
  have hrow : usedState.db.apiKeys.find (sampleUuid 1) = some (revokedRow (200 * second)) := by
    decide +kernel
  exact ⟨revokedInTime lawful_tokenCrates reachable_usedState hrow rfl
    (expiresInTime_of_check (by decide +kernel)), by decide +kernel⟩

/-- After the key is revoked, its token is exchanged for another one, which outlives both. -/
def renewedState : AuthState :=
  stateAfter (mintWith 1 .readWrite .read ++
    [(10 * second, .revokeKey 1 (sampleUuid 1)),
      (3500 * second, bearing readToken (tokenCall .read)),
      (3700 * second, bearing renewedToken (.other scopeDownload))])

theorem not_revokedInTime :
    ¬∀ (x : AuthCrates) (cfg : AuthConfig) (latency : Nat) (s : AuthState) (id : Uuid)
      (row : ApiKeyRow) (t : Nat), x.Lawful → AuthState.Reachable x cfg latency s →
      s.db.apiKeys.find id = some row → row.revokedAt = some t →
      RevokedInTime s row.keyHash t latency := by
  intro hclaim
  have hrow : renewedState.db.apiKeys.find (sampleUuid 1) = some (revokedRow (10 * second)) := by
    decide +kernel
  have hbound := (hclaim tokenCrates tokenConfig 0 renewedState (sampleUuid 1)
    (revokedRow (10 * second)) (10 * second) lawful_tokenCrates
    (reachable_stateAfter (by decide +kernel)) hrow rfl).byToken
  have hlate : ∃ u ∈ renewedState.callsOf (revokedRow (10 * second)).keyHash,
      u.credential = .token renewedToken ∧ u.time = 3700 * second := by
    decide +kernel
  obtain ⟨u, hu, hcredential, htime⟩ := hlate
  have hle := hbound u hu renewedToken hcredential
  rw [htime] at hle
  exact absurd hle (by decide)

end Hub
end OpenWeights
