import OpenWeights.Gateway.Dialects

/-!
# Verifiers — the two checks of a signed URL side by side

`UrlSigner::verify` and `UrlVerifier.Verify` are meant to be the same function.  They are the same
judgement (`judge`) on what each of them reads from the query, and they read in different dialects:
of a repeated parameter Rust keeps the last value and Go the first, Rust takes a leading plus sign in
a number, Go refuses an empty signature as malformed, and the base64 and UUID readers accept
different texts.

`verdict_eq_iff` says for which queries the difference shows, whatever the keys, the MAC and the
time are: those that do not spell the same in the two dialects.  It does not show on a `PlainQuery`.
-/

namespace OpenWeights
namespace Gateway

open Lib Db OpenWeights.Core

/-! ## Verdicts -/

/-- What a client sees of a verification: the grant, or the status of the refusal. -/
inductive Verdict
  | accept (ok : VerifyOk)
  | reject (status : Nat)
  deriving DecidableEq, Repr

def goVerdict (uuid : UuidParser) (hmac : Hmac) (signer : UrlSigner) (segment query : Bytes)
    (now : UInt64) : Verdict :=
  match UrlVerifier.verify uuid hmac ⟨signer.keyCurrent, signer.keyPrev⟩ segment (formParse query)
    now with
  | .ok ok => .accept ok
  | .error e => .reject e.status

/-- The verdict of the CAS on the URL with the path `/xorb/<segment>`. -/
def rustVerdict (crates : UrlCrates) (hmac : Hmac) (signer : UrlSigner) (segment query : Bytes)
    (now : UInt64) : Verdict :=
  match signer.verify crates hmac (lit "/xorb/" ++ segment) query now with
  | .ok ok => .accept ok
  | .error e => .reject e.status

/-- The judgement both verifiers make on their reading. -/
def judge (hmac : Hmac) (signer : UrlSigner) (segment : Bytes) (now : UInt64) :
    Option Reading → Verdict
  | none => .reject 400
  | some a =>
      if now ≥ a.exp then
        .reject 403
      else
        match a.tag with
        | none => .reject 400
        | some tag =>
            match signer.acceptedBy hmac
              (UrlSigner.canonicalStringRaw canonicalVersion segment a.exp a.rField a.kid) tag with
            | none => .reject 403
            | some byPrev =>
                .accept
                  { xorbHashHex := segment
                    exp := a.exp
                    ranges := a.ranges
                    kid := a.kid
                    acceptedByPrevKey := byPrev }

theorem isHexLower_iff (b : UInt8) :
    isHexLower b = true ↔
      UrlSigner.isAsciiHexdigit b = true ∧ UrlSigner.isAsciiUppercase b = false := by
  have hupper : ∀ c : UInt8, (97 : UInt8) ≤ c → ¬c ≤ 90 := by
    intro c h₁ h₂
    exact absurd (UInt8.le_trans h₁ h₂) (by decide)
  have hdigit : ∀ c : UInt8, c ≤ 57 → ¬(65 : UInt8) ≤ c := by
    intro c h₁ h₂
    exact absurd (UInt8.le_trans h₂ h₁) (by decide)
  have hletter : ∀ c : UInt8, c ≤ 70 → c ≤ 90 := by
    intro c h
    exact UInt8.le_trans h (by decide)
  simp only [isHexLower, UrlSigner.isAsciiHexdigit, UrlSigner.isAsciiUppercase, Bool.or_eq_true,
    Bool.and_eq_true, decide_eq_true_eq, Bool.and_eq_false_iff, decide_eq_false_iff_not]
  constructor
  · rintro (⟨hlow, hhigh⟩ | ⟨hlow, hhigh⟩)
    · exact ⟨.inl (.inl ⟨hlow, hhigh⟩), .inl (hdigit b hhigh)⟩
    · exact ⟨.inl (.inr ⟨hlow, hhigh⟩), .inr (hupper b hlow)⟩
  · rintro ⟨(⟨hlow, hhigh⟩ | ⟨hlow, hhigh⟩) | ⟨hlow, hhigh⟩, hcase⟩
    · exact .inl ⟨hlow, hhigh⟩
    · exact .inr ⟨hlow, hhigh⟩
    · rcases hcase with hcase | hcase
      · exact absurd hlow hcase
      · exact absurd (hletter b hhigh) hcase

/-- The path check of the CAS lets the same segments through as that of the gateway. -/
theorem readPath_eq (segment : Bytes) :
    (HexSegment segment ∧ UrlSigner.readPath (lit "/xorb/" ++ segment) = .ok segment) ∨
      (¬HexSegment segment ∧ ∃ what,
        UrlSigner.readPath (lit "/xorb/" ++ segment) = .error (.malformed what)) := by
  have hstarts : (lit "/xorb/").isPrefixOf (lit "/xorb/" ++ segment) = true :=
    List.isPrefixOf_iff_prefix.2 (List.prefix_append _ _)
  have hdrop : (lit "/xorb/" ++ segment).drop (lit "/xorb/").length = segment :=
    List.drop_left
  -- Rust tests for hex digits and for capitals, Go for lower-case digits.
  have hall : segment.all isHexLower = true ↔
      segment.all UrlSigner.isAsciiHexdigit = true ∧
        segment.any UrlSigner.isAsciiUppercase = false := by
    simp only [List.all_eq_true, List.any_eq_false, isHexLower_iff, forall_and,
      Bool.not_eq_true]
  unfold HexSegment UrlSigner.readPath
  simp only [hstarts, if_true, hdrop, hall]
  by_cases hshape : segment.length ≠ 64 ∨ ¬segment.all UrlSigner.isAsciiHexdigit = true
  · rw [if_pos hshape]
    refine .inr ⟨?_, _, rfl⟩
    rintro ⟨hlen, hhex, -⟩
    rcases hshape with hne | hnot
    · exact hne hlen
    · exact hnot hhex
  · rw [if_neg hshape]
    push Not at hshape
    cases hupper : segment.any UrlSigner.isAsciiUppercase with
    | false => exact .inl ⟨⟨hshape.1, hshape.2, rfl⟩, rfl⟩
    | true => exact .inr ⟨by simp, _, rfl⟩

/-! ## Both verdicts are judgements on a reading -/

section Judgements

variable {uuid : UuidParser} {crates : UrlCrates} {hmac : Hmac} {signer : UrlSigner}
  {segment query : Bytes} {now : UInt64}

/-- Every error before the clock is looked at is a 400. -/
theorem UrlVerifier.status_of_readQuery {q : Values} {e : VerifyErr}
    (h : UrlVerifier.readQuery uuid segment q = .error e) : e.status = 400 := by
  -- Every branch that refuses names what is malformed.
  unfold UrlVerifier.readQuery at h
  split at h
  · cases h
    decide
  split at h
  · cases h
    decide
  split at h
  · cases h
    decide
  split at h
  · cases h
    decide
  split at h
  · cases h
    decide
  split at h
  · cases h
    decide
  dsimp only at h
  split at h
  · split at h
    · cases h
      decide
    · cases h
  · cases h

theorem UrlSigner.status_of_readQuery {e : Core.VerifyErr}
    (h : UrlSigner.readQuery crates query = .error e) : e.status = 400 := by
  unfold UrlSigner.readQuery at h
  dsimp only at h
  split at h
  · cases h
    rfl
  split at h
  · cases h
    rfl
  split at h
  · cases h
    rfl
  split at h
  · cases h
  · split at h
    · cases h
      rfl
    · cases h

theorem goVerdict_eq :
    goVerdict uuid hmac signer segment query now =
      judge hmac signer segment now (goReading uuid segment query) := by
  have hexpired : VerifyErr.status ⟨lit "expired"⟩ = 403 := by decide
  have hbase64 : VerifyErr.status ⟨lit "malformed:sig_b64"⟩ = 400 := by decide
  have hbad : VerifyErr.status ⟨lit "bad_signature"⟩ = 403 := by decide
  unfold goVerdict goReading UrlVerifier.verify
  cases hread : UrlVerifier.readQuery uuid segment (formParse query) with
  | error e => simp [Except.toOption, judge, UrlVerifier.status_of_readQuery hread]
  | ok req =>
      have haccept : UrlVerifier.acceptedBy hmac ⟨signer.keyCurrent, signer.keyPrev⟩ =
          signer.acceptedBy hmac := rfl
      simp only [Except.toOption, Option.map_some, judge, readingOf, UrlVerifier.canonical,
        canonicalStringRaw_eq, haccept]
      by_cases hnow : now ≥ req.exp
      · simp [hnow, hexpired]
      · simp only [hnow, if_false]
        cases base64UrlDecode req.sig with
        | none => simp [hbase64]
        | some provided =>
            cases hby : signer.acceptedBy hmac (UrlSigner.canonicalStringRaw canonicalVersion
                segment req.exp req.rField req.kid) provided with
            | none => simp [hby, hbad]
            | some byPrev => simp [hby]

theorem rustVerdict_eq (hhex : HexSegment segment) :
    rustVerdict crates hmac signer segment query now =
      judge hmac signer segment now (rustReading crates query) := by
  have hpath : UrlSigner.readPath (lit "/xorb/" ++ segment) = .ok segment := by
    rcases readPath_eq segment with ⟨-, hok⟩ | ⟨hnot, -⟩
    · exact hok
    · exact absurd hhex hnot
  unfold rustVerdict rustReading UrlSigner.verify
  simp only [hpath]
  cases hread : UrlSigner.readQuery crates query with
  | error e => simp [Except.toOption, judge, UrlSigner.status_of_readQuery hread]
  | ok req =>
      simp only [Except.toOption, Option.map_some, judge, readingOf]
      by_cases hnow : now ≥ req.exp
      · simp [hnow, Core.VerifyErr.status]
      · simp only [hnow, if_false]
        cases crates.base64Decode req.sig with
        | none => simp [Core.VerifyErr.status]
        | some provided =>
            cases hby : signer.acceptedBy hmac (UrlSigner.canonicalStringRaw canonicalVersion
                segment req.exp req.rField req.kid) provided with
            | none => simp [hby, Core.VerifyErr.status]
            | some byPrev => simp [hby]

/-- A path that is no hash is a 400 on both sides. -/
theorem verdict_of_not_hexSegment (uuid : UuidParser) (crates : UrlCrates) (hnot : ¬HexSegment segment) :
    goVerdict uuid hmac signer segment query now = .reject 400 ∧
      rustVerdict crates hmac signer segment query now = .reject 400 := by
  have hshape : segment.length ≠ 64 ∨ ¬segment.all isHexLower = true := by
    by_contra hboth
    push Not at hboth
    exact hnot hboth
  have hgo : goReading uuid segment query = none := by
    rw [goReading, UrlVerifier.readQuery, if_pos hshape]
    rfl
  refine ⟨by rw [goVerdict_eq, hgo]; rfl, ?_⟩
  rcases readPath_eq segment with ⟨hhex, -⟩ | ⟨-, what, herror⟩
  · exact absurd hhex hnot
  · simp [rustVerdict, UrlSigner.verify, herror, Core.VerifyErr.status]

end Judgements

/-! ## When the difference shows -/

/-- No key can have signed it: it is expired at any time, or its signature is not 32 bytes. -/
def Reading.Unsignable (a : Reading) : Prop :=
  a.exp = 0 ∨ ∃ tag, a.tag = some tag ∧ tag.length ≠ 32

/-- Readings that no key, MAC or time tells apart. -/
def Indistinguishable (g r : Option Reading) : Prop :=
  g = r ∨ ∃ a b, g = some a ∧ r = some b ∧
    ((a.Unsignable ∧ b.Unsignable) ∨ (a.tag = none ∧ b.tag = none ∧ a.exp = b.exp))

section Indistinguishability

variable {hmac : Hmac} {signer : UrlSigner} {segment : Bytes} {now : UInt64} {a b : Reading}

theorem judge_of_expired (hexp : now ≥ a.exp) :
    judge hmac signer segment now (some a) = .reject 403 := by
  simp [judge, hexp]

theorem judge_of_undecodable (hexp : now < a.exp) (htag : a.tag = none) :
    judge hmac signer segment now (some a) = .reject 400 := by
  have hnot : ¬now ≥ a.exp := UInt64.not_le.2 hexp
  simp [judge, hnot, htag]

theorem acceptedBy_of_length {canonical tag : Bytes} (hlen : tag.length ≠ 32) :
    signer.acceptedBy hmac canonical tag = none := by
  have hne : ∀ key, (hmac key canonical).1 ≠ tag := by
    intro key hEq
    exact hlen (hEq ▸ (hmac key canonical).2)
  unfold UrlSigner.acceptedBy
  cases signer.keyPrev <;> simp [hne]

theorem judge_of_unsignable (h : a.Unsignable) :
    judge hmac signer segment now (some a) = .reject 403 := by
  by_cases hexp : now ≥ a.exp
  · exact judge_of_expired hexp
  · rcases h with hzero | ⟨tag, htag, hlen⟩
    · rw [hzero] at hexp
      exact absurd (UInt64.le_iff_toNat_le.2 (Nat.zero_le _)) hexp
    · simp [judge, hexp, htag, acceptedBy_of_length hlen]

/-- Indistinguishable readings are judged alike. -/
theorem Indistinguishable.judge_eq {g r : Option Reading} (h : Indistinguishable g r) :
    judge hmac signer segment now g = judge hmac signer segment now r := by
  rcases h with rfl | ⟨a, b, rfl, rfl, ⟨ha, hb⟩ | ⟨ha, hb, hexp⟩⟩
  · rfl
  · rw [judge_of_unsignable ha, judge_of_unsignable hb]
  · by_cases hnow : now ≥ a.exp
    · rw [judge_of_expired hnow, judge_of_expired (hexp ▸ hnow)]
    · have hlt : now < a.exp := UInt64.not_le.1 hnow
      rw [judge_of_undecodable hlt ha, judge_of_undecodable (hexp ▸ hlt) hb]

end Indistinguishability

def oneKey : UrlSigner :=
  { keyCurrent := ⟨List.replicate 32 0, List.length_replicate⟩
    keyPrev := none
    gatewayBase := { origin := [], path := [] }
    defaultTtlSecs := 0 }

/-- A reading a key may have signed is told apart from every other one by a MAC under which its
signature is right and every other message has a tag of its own. -/
theorem eq_of_judge_eq {segment : Bytes} {a b : Reading} {tag : Hash} (hexp : a.exp ≠ 0)
    (htag : a.tag = some tag.1)
    (h : ∀ hmac, judge hmac oneKey segment 0 (some a) = judge hmac oneKey segment 0 (some b)) :
    a = b := by
  let canonical := fun c : Reading =>
    UrlSigner.canonicalStringRaw canonicalVersion segment c.exp c.rField c.kid
  -- a tag that differs from the signature of `b`
  obtain ⟨other, hother⟩ : ∃ other : Hash, b.tag ≠ some other.1 := by
    by_cases hzero : b.tag = some (Hash.fill 0).1
    · refine ⟨Hash.fill 1, ?_⟩
      rw [hzero]
      decide
    · exact ⟨Hash.fill 0, hzero⟩
  let hmac : Hmac := fun _ message => if message = canonical a then tag else other
  have hmac_a : hmac oneKey.keyCurrent (canonical a) = tag := if_pos rfl
  have hpos : ¬(0 : UInt64) ≥ a.exp := by
    intro hle
    exact hexp (UInt64.toNat_inj.1 (Nat.le_zero.1 (UInt64.le_iff_toNat_le.1 hle)))
  have haccept : judge hmac oneKey segment 0 (some a) = .accept
      { xorbHashHex := segment
        exp := a.exp
        ranges := a.ranges
        kid := a.kid
        acceptedByPrevKey := false } := by
    have hby : oneKey.acceptedBy hmac (canonical a) tag.1 = some false := by
      rw [UrlSigner.acceptedBy, hmac_a, if_pos rfl]
    simp [judge, hpos, htag, canonical, hby]
  have hb := (h hmac).symm.trans haccept
  -- So `b` is accepted too, with the same grant.
  simp only [judge] at hb
  split at hb
  · cases hb
  split at hb
  · cases hb
  rename_i tag' htag'
  split at hb
  · cases hb
  rename_i byPrev hby
  have hok := Verdict.accept.inj hb
  have hgrant : b.exp = a.exp ∧ b.ranges = a.ranges ∧ b.kid = a.kid :=
    ⟨congrArg VerifyOk.exp hok, congrArg VerifyOk.ranges hok, congrArg VerifyOk.kid hok⟩
  have hmac_b : (hmac oneKey.keyCurrent (canonical b)).1 = tag' := by
    unfold UrlSigner.acceptedBy at hby
    split at hby
    · rename_i hEq
      exact hEq
    · cases hby
  by_cases hcanonical : canonical b = canonical a
  · have hfield : b.rField = a.rField := by
      have hlines : 10 :: b.rField ++ 10 :: a.kid.text = 10 :: a.rField ++ 10 :: a.kid.text := by
        have hlayout := hcanonical
        simp only [canonical, UrlSigner.canonicalStringRaw, hgrant.1, hgrant.2.2,
          List.append_assoc] at hlayout
        simpa using hlayout
      exact (List.cons.inj (List.append_cancel_right hlines)).2
    have htags : b.tag = a.tag := by
      rw [htag', htag, ← hmac_b, hcanonical, hmac_a]
    cases a
    cases b
    simp_all
  · -- Its message has the tag it was given, which is not the one it shows.
    have hother' : hmac oneKey.keyCurrent (canonical b) = other := if_neg hcanonical
    rw [hother'] at hmac_b
    rw [htag', hmac_b] at hother
    exact absurd rfl hother

theorem exists_tag_or_unsignable (a : Reading) :
    (∃ tag : Hash, a.exp ≠ 0 ∧ a.tag = some tag.1) ∨ a.Unsignable ∨ (a.exp ≠ 0 ∧ a.tag = none) := by
  by_cases hexp : a.exp = 0
  · exact .inr (.inl (.inl hexp))
  · cases htag : a.tag with
    | none => exact .inr (.inr ⟨hexp, rfl⟩)
    | some tag =>
        by_cases hlen : tag.length = 32
        · exact .inl ⟨⟨tag, hlen⟩, hexp, rfl⟩
        · exact .inr (.inl (.inr ⟨tag, htag, hlen⟩))

theorem indistinguishable_of_judge_eq (segment : Bytes) {g r : Option Reading}
    (h : ∀ hmac signer now, judge hmac signer segment now g = judge hmac signer segment now r) :
    Indistinguishable g r := by
  -- A reading is a 403 once it has expired, a malformed query never is.
  have hmalformed : ∀ {c : Reading}, ¬∀ hmac signer now,
      judge hmac signer segment now none = judge hmac signer segment now (some c) := by
    intro c hall
    have hEq := hall (fun _ _ => Hash.fill 0) oneKey c.exp
    rw [judge_of_expired (UInt64.le_refl _)] at hEq
    cases hEq
  -- Before it has expired, a signature that does not decode is a 400.
  have hundecodable : ∀ {c d : Reading}, (∀ hmac signer now,
      judge hmac signer segment now (some c) = judge hmac signer segment now (some d)) →
      c.tag = none → c.exp ≠ 0 → d.Unsignable → False := by
    intro c d hall htag hexp hdead
    have hpos : (0 : UInt64) < c.exp := by
      refine UInt64.lt_iff_toNat_lt.2 (Nat.pos_of_ne_zero ?_)
      intro hzero
      exact hexp (UInt64.toNat_inj.1 hzero)
    have hEq := hall (fun _ _ => Hash.fill 0) oneKey 0
    rw [judge_of_undecodable hpos htag, judge_of_unsignable hdead] at hEq
    cases hEq
  have hearlier : ∀ {c d : Reading}, (∀ hmac signer now,
      judge hmac signer segment now (some c) = judge hmac signer segment now (some d)) →
      d.tag = none → ¬c.exp < d.exp := by
    intro c d hall htag hlt
    have hEq := hall (fun _ _ => Hash.fill 0) oneKey c.exp
    rw [judge_of_expired (UInt64.le_refl _), judge_of_undecodable hlt htag] at hEq
    cases hEq
  match g, r with
  | none, none => exact .inl rfl
  | none, some b => exact absurd h hmalformed
  | some a, none => exact absurd (fun hmac signer now => (h hmac signer now).symm) hmalformed
  | some a, some b =>
      have h' : ∀ hmac signer now,
          judge hmac signer segment now (some b) = judge hmac signer segment now (some a) :=
        fun hmac signer now => (h hmac signer now).symm
      rcases exists_tag_or_unsignable a with ⟨tag, hexp, htag⟩ | hdead | ⟨hexp, htag⟩
      · exact .inl (congrArg some (eq_of_judge_eq hexp htag fun hmac => h hmac oneKey 0))
      · rcases exists_tag_or_unsignable b with ⟨tag', hexp', htag'⟩ | hdead' | ⟨hexp', htag'⟩
        · exact .inl (congrArg some (eq_of_judge_eq hexp' htag' fun hmac => h' hmac oneKey 0).symm)
        · exact .inr ⟨a, b, rfl, rfl, .inl ⟨hdead, hdead'⟩⟩
        · exact absurd hdead fun hdead => hundecodable h' htag' hexp' hdead
      · rcases exists_tag_or_unsignable b with ⟨tag', hexp', htag'⟩ | hdead' | ⟨hexp', htag'⟩
        · exact .inl (congrArg some (eq_of_judge_eq hexp' htag' fun hmac => h' hmac oneKey 0).symm)
        · exact absurd hdead' fun hdead' => hundecodable h htag hexp hdead'
        · have hsame : a.exp = b.exp :=
            UInt64.le_antisymm (UInt64.not_lt.1 (hearlier h' htag))
              (UInt64.not_lt.1 (hearlier h htag'))
          exact .inr ⟨a, b, rfl, rfl, .inr ⟨htag, htag', hsame⟩⟩

/-- The two verifiers agree on a URL, under every key, MAC and time, exactly if the path is no hash
or their readings are indistinguishable. -/
theorem verdict_eq_iff_readings (uuid : UuidParser) (crates : UrlCrates) (segment query : Bytes) :
    (∀ hmac signer now, goVerdict uuid hmac signer segment query now =
      rustVerdict crates hmac signer segment query now) ↔
      ¬HexSegment segment ∨
        Indistinguishable (goReading uuid segment query) (rustReading crates query) := by
  by_cases hhex : HexSegment segment
  · constructor
    · intro h
      refine .inr (indistinguishable_of_judge_eq segment ?_)
      intro hmac signer now
      rw [← goVerdict_eq, ← rustVerdict_eq hhex]
      exact h hmac signer now
    · rintro (hnot | hsame) hmac signer now
      · exact absurd hhex hnot
      · rw [goVerdict_eq, rustVerdict_eq hhex]
        exact hsame.judge_eq
  · constructor
    · intro _
      exact .inl hhex
    · intro _ hmac signer now
      obtain ⟨hgo, hrust⟩ := verdict_of_not_hexSegment uuid crates hhex
      rw [hgo, hrust]

/-! ## Queries that spell the same -/

/-- The parameters spell the same on both sides, or nothing that could make a difference: they are
malformed to both, or what both find no key can have signed, or neither signature decodes and the
expiries are one. -/
def SpelledAlike (goPairs rustPairs : List (Bytes × Bytes)) : Prop :=
  (∃ a, goDialect.Spells goPairs a ∧ rustDialect.Spells rustPairs a) ∨
    (∀ a, ¬goDialect.Spells goPairs a ∧ ¬rustDialect.Spells rustPairs a) ∨
    ∃ a b, goDialect.Spells goPairs a ∧ rustDialect.Spells rustPairs b ∧
      ((a.Unsignable ∧ b.Unsignable) ∨ (a.tag = none ∧ b.tag = none ∧ a.exp = b.exp))

section Spelling

variable {uuid : UuidParser} {crates : UrlCrates} {segment query : Bytes}

theorem indistinguishable_iff (hdoc : Documented uuid crates) (hhex : HexSegment segment) :
    Indistinguishable (goReading uuid segment query) (rustReading crates query) ↔
      SpelledAlike (formParse query) (crates.queryPairs query) := by
  -- Each reading is the one thing that the parameters spell in its dialect.
  have hgo : ∀ a, goReading uuid segment query = some a ↔
      goDialect.Spells (formParse query) a := by
    intro a
    rw [goReading_eq_some_iff hdoc.parse]
    exact and_iff_right hhex
  have hrust : ∀ a, rustReading crates query = some a ↔
      rustDialect.Spells (crates.queryPairs query) a := fun a => rustReading_eq_some_iff hdoc
  unfold Indistinguishable SpelledAlike
  simp only [← hgo, ← hrust]
  constructor
  · rintro (hsame | hshown)
    · cases hread : goReading uuid segment query with
      | none =>
          rw [hread] at hsame
          exact .inr (.inl fun a => by simp [← hsame])
      | some a => exact .inl ⟨a, rfl, hsame ▸ hread⟩
    · exact .inr (.inr hshown)
  · rintro (⟨a, ha, hb⟩ | hnone | hshown)
    · exact .inl (ha.trans hb.symm)
    · have hgoNone := Option.eq_none_iff_forall_ne_some.2 fun a => (hnone a).1
      have hrustNone := Option.eq_none_iff_forall_ne_some.2 fun a => (hnone a).2
      exact .inl (hgoNone.trans hrustNone.symm)
    · exact .inr hshown

/-- A plain query spells the same on both sides. -/
theorem PlainQuery.spelledAlike (hdoc : Documented uuid crates) (h : PlainQuery query) :
    SpelledAlike (formParse query) (crates.queryPairs query) := by
  by_cases hread : ∃ a, goDialect.Spells (formParse query) a
  · obtain ⟨a, ha⟩ := hread
    exact .inl ⟨a, ha, (h.spells_iff hdoc a).2 ha⟩
  · push Not at hread
    refine .inr (.inl fun a => ⟨hread a, fun hb => ?_⟩)
    exact hread a ((h.spells_iff hdoc a).1 hb)

/-- The two verifiers agree on a URL, under every key, MAC and time, exactly if the path is no hash
or the parameters spell the same on both sides, as they do in a plain query. -/
theorem verdict_eq_iff (hdoc : Documented uuid crates) (segment query : Bytes) :
    ((∀ hmac signer now, goVerdict uuid hmac signer segment query now =
      rustVerdict crates hmac signer segment query now) ↔
      ¬HexSegment segment ∨ SpelledAlike (formParse query) (crates.queryPairs query)) ∧
    (PlainQuery query → SpelledAlike (formParse query) (crates.queryPairs query)) := by
  refine ⟨?_, PlainQuery.spelledAlike hdoc⟩
  rw [verdict_eq_iff_readings]
  by_cases hhex : HexSegment segment
  · rw [indistinguishable_iff hdoc hhex]
  · simp only [hhex, not_false_eq_true, true_or]

end Spelling

def vectorQuery : Bytes :=
  lit "exp=2000000000&kid=01945edc-5f0a-71a3-9c82-3a0000000001" ++
    lit "&sig=ESTvvPOf2B2kQ3JiQQKKR3XkyqCDNfx9FKIcT7IWfPc&r=1024-8191%2C12288-16383"

theorem formParse_vectorQuery :
    formParse vectorQuery =
      [(lit "exp", lit "2000000000"), (lit "kid", lit "01945edc-5f0a-71a3-9c82-3a0000000001"),
        (lit "sig", lit "ESTvvPOf2B2kQ3JiQQKKR3XkyqCDNfx9FKIcT7IWfPc"),
        (lit "r", lit "1024-8191,12288-16383")] := by
  decide +kernel

theorem splitOn_vectorQuery :
    vectorQuery.splitOn 38 =
      [lit "exp=2000000000", lit "kid=01945edc-5f0a-71a3-9c82-3a0000000001",
        lit "sig=ESTvvPOf2B2kQ3JiQQKKR3XkyqCDNfx9FKIcT7IWfPc", lit "r=1024-8191%2C12288-16383"] := by
  decide +kernel

theorem urlText_vectorQuery : UrlText vectorQuery := by
  constructor
  · have hall : vectorQuery.all (fun c => 33 ≤ c ∧ c ≤ 126 ∧ c ≠ 35) = true := by decide +kernel
    intro c hc
    exact of_decide_eq_true (List.all_eq_true.1 hall c hc)
  · simp only [splitOn_vectorQuery, List.forall_mem_cons, List.not_mem_nil, false_implies,
      implies_true, and_true]
    exact ⟨⟨⟨"exp", by decide +kernel⟩, "2000000000", by decide +kernel⟩,
      ⟨⟨"kid", by decide +kernel⟩, "01945edc-5f0a-71a3-9c82-3a0000000001", by decide +kernel⟩,
      ⟨⟨"sig", by decide +kernel⟩, "ESTvvPOf2B2kQ3JiQQKKR3XkyqCDNfx9FKIcT7IWfPc", by decide +kernel⟩,
      ⟨"r", by decide +kernel⟩, "1024-8191,12288-16383", by decide +kernel⟩

theorem eq_of_mem_vectorQuery {name t value : Bytes} (h : (name, t) ∈ formParse vectorQuery)
    (hvalue : (formParse vectorQuery).lookup name = some value) : t = value := by
  have hall : (formParse vectorQuery).all
      (fun p => (formParse vectorQuery).lookup p.1 = some p.2) = true := by
    decide +kernel
  have hlookup := of_decide_eq_true (List.all_eq_true.1 hall (name, t) h)
  exact Option.some.inj (hlookup.symm.trans hvalue)

theorem plainQuery_vectorQuery : PlainQuery vectorQuery where
  text :=
    { url := urlText_vectorQuery
      semicolon := by decide +kernel
      escapes := by
        simp only [splitOn_vectorQuery, List.forall_mem_cons, List.not_mem_nil, false_implies,
          implies_true, and_true]
        decide +kernel }
  once := by
    rw [formParse_vectorQuery]
    decide
  exp := by
    intro t ht
    rw [eq_of_mem_vectorQuery ht (show _ = some (lit "2000000000") by decide +kernel)]
    decide
  kid := by
    intro t ht
    rw [eq_of_mem_vectorQuery ht
      (show _ = some (lit "01945edc-5f0a-71a3-9c82-3a0000000001") by decide +kernel)]
    decide
  sig := by
    intro t ht
    rw [eq_of_mem_vectorQuery ht (show _ = some (base64UrlEncode vectorTag.1) by decide +kernel)]
    refine ⟨by decide +kernel, fun tag htag => ?_⟩
    rw [base64UrlDecode_base64UrlEncode] at htag
    rw [Option.some.inj htag]
  r := by
    intro t ht
    rw [eq_of_mem_vectorQuery ht (show _ = some (lit "1024-8191,12288-16383") by decide +kernel)]
    decide

theorem verdict_eq_iff_vectorQuery :
    PlainQuery vectorQuery ∧
      goVerdict documentedUuid vectorHmac vectorSigner (digestToHex vectorHash) vectorQuery
        1999999999 =
      rustVerdict documentedCrates vectorHmac vectorSigner (digestToHex vectorHash) vectorQuery
        1999999999 := by
  obtain ⟨hiff, hplain⟩ := verdict_eq_iff documented (digestToHex vectorHash) vectorQuery
  exact ⟨plainQuery_vectorQuery, hiff.2 (.inr (hplain plainQuery_vectorQuery)) _ _ _⟩

def twoExpiries : Bytes :=
  vectorQuery ++ lit "&exp=1"

/-- The gateway takes the first expiry and accepts, the CAS takes the last and answers 403. -/
theorem not_verdict_eq :
    ¬∀ uuid crates, Documented uuid crates → ∀ hmac signer segment query now,
      goVerdict uuid hmac signer segment query now =
        rustVerdict crates hmac signer segment query now := by
  intro hclaim
  have hEq := hclaim documentedUuid documentedCrates documented vectorHmac vectorSigner
    (digestToHex vectorHash) twoExpiries 1999999999
  have hgo : goVerdict documentedUuid vectorHmac vectorSigner (digestToHex vectorHash) twoExpiries
      1999999999 =
      .accept ⟨digestToHex vectorHash, 2000000000, vectorSegments, vectorKid, false⟩ := by
    decide +kernel
  have hrust : rustVerdict documentedCrates vectorHmac vectorSigner (digestToHex vectorHash)
      twoExpiries 1999999999 = .reject 403 := by
    decide +kernel
  rw [hgo, hrust] at hEq
  cases hEq

end Gateway
end OpenWeights
