import OpenWeights.Lib.Expiring
import OpenWeights.Lib.Text
import OpenWeights.Lib.TokenBucket

/-!
# RateLimit — the token buckets in Redis

Model of `openweights-cas-core/scripts/rate_limit.lua` and of `rate_limit.rs` around it.  Tokens are
counted in thousandths.  The numbers of the script are doubles, which are exact on the integers below
2^53; here they are integers.  `eval_bucket` multiplies the refill rate by 1000 and truncates it; the
model starts from that integer.

Two clocks are involved: Redis's own, by which keys expire, and the caller's, which the script is
told.  Both are in milliseconds.
-/

namespace OpenWeights
namespace Core

open Lib

/-! ## The script -/

/-- The keys of the buckets. -/
abbrev Redis := Expiring (List UInt8) Int

/-- `rate_limit.lua`: the reply, and what is stored afterwards. -/
def rateLimit (redis : Redis) (clock : Int) (countKey tsKey : List UInt8)
    (capacityTokens refillPerSecMt nowMs : Int) : (Int × Int) × Redis :=
  let capacityMt := capacityTokens * 1000
  -- Without a count the bucket is full; without a timestamp there is no credit yet.
  let countMt := (redis.get clock countKey).getD capacityMt
  let lastMs := (redis.get clock tsKey).getD nowMs
  let elapsedMs := if nowMs - lastMs < 0 then 0 else nowMs - lastMs
  let refilledMt := countMt + elapsedMs * refillPerSecMt / 1000
  let refilledMt := if refilledMt > capacityMt then capacityMt else refilledMt
  if refilledMt < 1000 then
    ((0, refilledMt),
      (redis.setEx clock countKey refilledMt (3600 * 1000)).setEx clock tsKey nowMs (3600 * 1000))
  else
    let newMt := refilledMt - 1000
    ((1, newMt),
      (redis.setEx clock countKey newMt (3600 * 1000)).setEx clock tsKey nowMs (3600 * 1000))

/-! ## The callers -/

inductive RateLimitClass
  | upload
  | download
  | admin
  deriving DecidableEq, Repr

def RateLimitClass.name : RateLimitClass → List UInt8
  | .upload => lit "upload"
  | .download => lit "download"
  | .admin => lit "admin"

/-- `RateLimitDefaults`, with the refill rates as `eval_bucket` passes them on. -/
structure RateLimitDefaults where
  uploadCapacity : UInt32
  uploadRefillMt : Int
  downloadCapacity : UInt32
  downloadRefillMt : Int
  adminCapacity : UInt32
  adminRefillMt : Int

/-- The default rates are 100 and 600 requests a minute. -/
instance : Inhabited RateLimitDefaults :=
  ⟨{ uploadCapacity := 100
     uploadRefillMt := 1666
     downloadCapacity := 100
     downloadRefillMt := 1666
     adminCapacity := 600
     adminRefillMt := 10000 }⟩

def RateLimitDefaults.forClass (d : RateLimitDefaults) : RateLimitClass → UInt32 × Int
  | .upload => (d.uploadCapacity, d.uploadRefillMt)
  | .download => (d.downloadCapacity, d.downloadRefillMt)
  | .admin => (d.adminCapacity, d.adminRefillMt)

def bucketKey (c : RateLimitClass) (apiKeyId : Uuid) : List UInt8 :=
  lit "rl:" ++ c.name ++ lit ":" ++ apiKeyId.text

def tsKey (c : RateLimitClass) (apiKeyId : Uuid) : List UInt8 :=
  bucketKey c apiKeyId ++ lit ":ts"

/-- `eval_bucket` on the keys of one bucket. -/
def evalBucket (redis : Redis) (clock : Int) (c : RateLimitClass) (apiKeyId : Uuid)
    (capacity : UInt32) (refillMilliPerSec nowMs : Int) : (Int × Int) × Redis :=
  rateLimit redis clock (bucketKey c apiKeyId) (tsKey c apiKeyId) capacity.toNat refillMilliPerSec
    nowMs

structure RateLimited where
  retryAfter : UInt64
  deriving DecidableEq, Repr

/-- `check`.  The hint for the client is computed in floating point and is a parameter. -/
def check (retryAfterSecs : Int → Int → UInt64) (redis : Redis) (clock : Int) (c : RateLimitClass)
    (apiKeyId : Uuid) (defaults : RateLimitDefaults) (nowMs : Int) :
    Except RateLimited Unit × Redis :=
  let (capacity, refill) := defaults.forClass c
  let ((allowed, remainingMt), redis) := evalBucket redis clock c apiKeyId capacity refill nowMs
  if allowed = 1 then (.ok (), redis) else (.error ⟨retryAfterSecs remainingMt refill⟩, redis)

/-! ## One bucket among the keys -/

section Keys

variable {c c' : RateLimitClass} {apiKeyId apiKeyId' : Uuid}

theorem colon_notMem_name (c : RateLimitClass) : 58 ∉ c.name := by
  cases c <;> decide

theorem length_text (k : Uuid) : k.text.length = 36 := by
  simp [Uuid.text, k.2]

/-- The text of a key after `rl:` splits at its first colon. -/
theorem cutAt_bucketKey (c : RateLimitClass) (apiKeyId : Uuid) (rest : List UInt8) :
    cutAt 58 ((bucketKey c apiKeyId ++ rest).drop 3) = some (c.name, apiKeyId.text ++ rest) := by
  have hdrop : (bucketKey c apiKeyId ++ rest).drop 3 = c.name ++ 58 :: (apiKeyId.text ++ rest) := by
    have hprefix : lit "rl:" = [114, 108, 58] := rfl
    have hcolon : lit ":" = [58] := rfl
    simp [bucketKey, hprefix, hcolon]
  rw [hdrop]
  exact cutAt_append (colon_notMem_name c) _

theorem bucketKey_append_inj {rest rest' : List UInt8}
    (h : bucketKey c apiKeyId ++ rest = bucketKey c' apiKeyId' ++ rest') :
    c = c' ∧ apiKeyId = apiKeyId' ∧ rest = rest' := by
  have hcut := cutAt_bucketKey c apiKeyId rest
  rw [h, cutAt_bucketKey, Option.some.injEq, Prod.mk.injEq] at hcut
  have hname : c = c' := by
    cases c <;> cases c' <;> first | rfl | exact absurd hcut.1 (by decide)
  have hlen : apiKeyId'.text.length = apiKeyId.text.length := by
    rw [length_text, length_text]
  obtain ⟨htext, hrest⟩ := List.append_inj hcut.2 hlen
  exact ⟨hname, (Uuid.text_injective htext).symm, hrest.symm⟩

theorem tsKey_ne_bucketKey : tsKey c apiKeyId ≠ bucketKey c' apiKeyId' := by
  intro h
  rw [← List.append_nil (bucketKey c' apiKeyId'), tsKey] at h
  exact absurd (bucketKey_append_inj h).2.2 (by decide)

/-- Buckets share no key. -/
theorem bucket_ne (h : ¬(c = c' ∧ apiKeyId = apiKeyId')) :
    bucketKey c apiKeyId ≠ bucketKey c' apiKeyId' ∧ tsKey c apiKeyId ≠ tsKey c' apiKeyId' := by
  refine ⟨?_, ?_⟩
  · intro hEq
    rw [← List.append_nil (bucketKey c apiKeyId), ← List.append_nil (bucketKey c' apiKeyId')] at hEq
    have hinj := bucketKey_append_inj hEq
    exact h ⟨hinj.1, hinj.2.1⟩
  · intro hEq
    have hinj := bucketKey_append_inj hEq
    exact h ⟨hinj.1, hinj.2.1⟩

end Keys

/-! ## One evaluation -/

def keyTtl : Int := 3600 * 1000

/-- The refill credited to a time. -/
def credit (refill elapsed : Int) : Int := elapsed * refill / 1000

section Bucket

variable (c : RateLimitClass) (apiKeyId : Uuid) (capacity : UInt32) (refill : Int)

/-- A full bucket, in thousandths. -/
def burst : Int := capacity.toNat * 1000

/-- Until its keys expire, the bucket holds `count` and was last refilled at `last`. -/
structure Stored (redis : Redis) (clock count last : Int) : Prop where
  count : ∀ later < clock + keyTtl, redis.get later (bucketKey c apiKeyId) = some count
  last : ∀ later < clock + keyTtl, redis.get later (tsKey c apiKeyId) = some last

variable {c apiKeyId capacity refill} {redis : Redis} {clock nowMs : Int}

/-- The keys after a call that leaves `count`. -/
def Redis.store (redis : Redis) (clock : Int) (c : RateLimitClass) (apiKeyId : Uuid)
    (count nowMs : Int) : Redis :=
  (redis.setEx clock (bucketKey c apiKeyId) count keyTtl).setEx clock (tsKey c apiKeyId) nowMs keyTtl

theorem Redis.stored_store (redis : Redis) (clock count nowMs : Int) :
    Stored c apiKeyId (redis.store clock c apiKeyId count nowMs) clock count nowMs := by
  refine ⟨?_, ?_⟩
  · intro later hlater
    rw [Redis.store, Expiring.get_setEx_of_ne tsKey_ne_bucketKey.symm,
      Expiring.get_setEx_self hlater]
  · intro later hlater
    exact Expiring.get_setEx_self hlater

/-- The script draws from the bucket, with the credit of the time since the last call. -/
theorem evalBucket_eq (redis : Redis) (clock nowMs : Int) {count last : Int}
    (hcount : (redis.get clock (bucketKey c apiKeyId)).getD (burst capacity) = count)
    (hlast : (redis.get clock (tsKey c apiKeyId)).getD nowMs = last) :
    evalBucket redis clock c apiKeyId capacity refill nowMs =
      let out := draw (burst capacity) 1000 count (credit refill (forward last nowMs))
      (((out.1.toNat : Int), out.2), redis.store clock c apiKeyId out.2 nowMs) := by
  have hmin : ∀ refilled : Int, (if refilled > burst capacity then burst capacity else refilled) =
      min refilled (burst capacity) := by
    intro refilled
    split
    · rename_i hgt
      exact (min_eq_right (le_of_lt hgt)).symm
    · rename_i hle
      exact (min_eq_left (not_lt.1 hle)).symm
  have hscript : evalBucket redis clock c apiKeyId capacity refill nowMs =
      if min (count + credit refill (forward last nowMs)) (burst capacity) < 1000 then
        ((0, min (count + credit refill (forward last nowMs)) (burst capacity)),
          redis.store clock c apiKeyId
            (min (count + credit refill (forward last nowMs)) (burst capacity)) nowMs)
      else
        ((1, min (count + credit refill (forward last nowMs)) (burst capacity) - 1000),
          redis.store clock c apiKeyId
            (min (count + credit refill (forward last nowMs)) (burst capacity) - 1000) nowMs) := by
    rw [← hmin, ← hcount, ← hlast]
    rfl
  rw [hscript]
  rcases lt_or_ge (min (count + credit refill (forward last nowMs)) (burst capacity)) 1000
    with hlt | hge
  · rw [if_pos hlt, draw_of_lt hlt]
    rfl
  · rw [if_neg (not_lt.2 hge), draw_of_ge hge]
    rfl

/-- What a call on stored keys replies and stores. -/
theorem Stored.evalBucket_eq {count last later : Int} (h : Stored c apiKeyId redis clock count last)
    (hlater : later < clock + keyTtl) :
    evalBucket redis later c apiKeyId capacity refill nowMs =
      let out := draw (burst capacity) 1000 count (credit refill (forward last nowMs))
      (((out.1.toNat : Int), out.2), redis.store later c apiKeyId out.2 nowMs) := by
  refine Core.evalBucket_eq redis later nowMs ?_ ?_
  · rw [h.count _ hlater]
    rfl
  · rw [h.last _ hlater]
    rfl

end Bucket

/-! ## Runs -/

structure Call where
  clock : Int
  nowMs : Int
  deriving DecidableEq, Repr

def Unexpired (calls : List Call) : Prop :=
  (calls.map Call.clock).IsChain fun clock later => later < clock + keyTtl

def allowed (trace : List (Call × Int × Int)) : List (Call × Int × Int) :=
  trace.filter fun e => decide (e.2.1 = 1)

def nilUuid : Uuid :=
  ⟨List.replicate 16 0, rfl⟩

theorem length_allowed_cons (call : Call) (granted : Bool) (left : Int)
    (trace : List (Call × Int × Int)) :
    (allowed ((call, (granted.toNat : Int), left) :: trace)).length =
      granted.toNat + (allowed trace).length := by
  cases granted with
  | false => simp [allowed]
  | true => simp [allowed, add_comm]

section Runs

variable (c : RateLimitClass) (apiKeyId : Uuid) (capacity : UInt32) (refill : Int)

/-- Calls on one bucket, one after another: each with its reply, and the keys at the end. -/
def evalCalls : Redis → List Call → List (Call × Int × Int) × Redis
  | redis, [] => ([], redis)
  | redis, call :: calls =>
      let out := evalBucket redis call.clock c apiKeyId capacity refill call.nowMs
      let rest := evalCalls out.2 calls
      ((call, out.1) :: rest.1, rest.2)

/-- The refill credited at each reading of a clock, from `last` on. -/
def credits (last : Int) (readings : List Int) : List Int :=
  (gaps last readings).map (credit refill)

variable {c apiKeyId capacity refill} {redis : Redis}

theorem evalCalls_cons (redis : Redis) (call : Call) (calls : List Call) :
    evalCalls c apiKeyId capacity refill redis (call :: calls) =
      ((call, (evalBucket redis call.clock c apiKeyId capacity refill call.nowMs).1) ::
          (evalCalls c apiKeyId capacity refill
            (evalBucket redis call.clock c apiKeyId capacity refill call.nowMs).2 calls).1,
        (evalCalls c apiKeyId capacity refill
          (evalBucket redis call.clock c apiKeyId capacity refill call.nowMs).2 calls).2) :=
  rfl

theorem evalCalls_append (redis : Redis) (calls calls' : List Call) :
    (evalCalls c apiKeyId capacity refill redis (calls ++ calls')).1 =
      (evalCalls c apiKeyId capacity refill redis calls).1 ++
        (evalCalls c apiKeyId capacity refill
          (evalCalls c apiKeyId capacity refill redis calls).2 calls').1 := by
  induction calls generalizing redis with
  | nil => rfl
  | cons call calls ih => simp [evalCalls_cons, ih]

theorem map_fst_evalCalls (c : RateLimitClass) (apiKeyId : Uuid) (capacity : UInt32) (refill : Int)
    (redis : Redis) (calls : List Call) :
    (evalCalls c apiKeyId capacity refill redis calls).1.map Prod.fst = calls := by
  induction calls generalizing redis with
  | nil => rfl
  | cons call calls ih => simp [evalCalls_cons, ih]

/-- While no key expires, a run is a run of the bucket. -/
theorem Stored.evalCalls {clock count last : Int} (h : Stored c apiKeyId redis clock count last)
    {calls : List Call} (hclose : (clock :: calls.map Call.clock).IsChain
      fun clock later => later < clock + keyTtl) :
    (allowed (evalCalls c apiKeyId capacity refill redis calls).1).length =
        (drain (burst capacity) 1000 count (credits refill last (calls.map Call.nowMs))).1 ∧
      ∃ clock' last', Stored c apiKeyId (evalCalls c apiKeyId capacity refill redis calls).2 clock'
        (drain (burst capacity) 1000 count (credits refill last (calls.map Call.nowMs))).2 last' := by
  induction calls generalizing redis clock count last with
  | nil => exact ⟨rfl, clock, last, h⟩
  | cons call calls ih =>
      obtain ⟨hlater, hrest⟩ := List.isChain_cons_cons.1 hclose
      rw [evalCalls_cons, h.evalBucket_eq hlater, length_allowed_cons]
      obtain ⟨hallowed, hstored⟩ := ih (redis.stored_store call.clock _ call.nowMs) hrest
      exact ⟨congrArg _ hallowed, hstored⟩

/-- A run from any keys: what the first call finds is not known, the credits of the others are. -/
theorem evalCalls_eq_drain (c : RateLimitClass) (apiKeyId : Uuid) (capacity : UInt32) (refill : Int)
    (redis : Redis) {call : Call} {calls : List Call}
    (hclose : Unexpired (call :: calls)) :
    ∃ count first, (allowed (evalCalls c apiKeyId capacity refill redis (call :: calls)).1).length =
      (drain (burst capacity) 1000 count
        (first :: credits refill call.nowMs (calls.map Call.nowMs))).1 := by
  rw [evalCalls_cons, evalBucket_eq _ _ _ rfl rfl, length_allowed_cons]
  obtain ⟨hallowed, -⟩ := (redis.stored_store call.clock _ call.nowMs).evalCalls hclose
  exact ⟨_, _, congrArg _ hallowed⟩

/-- The refill a run adds, the first call apart. -/
def credited (refill : Int) : List Int → Int
  | [] => 0
  | now :: rest => ((credits refill now rest).map fun credit => max credit 0).sum

theorem burst_nonneg (capacity : UInt32) : 0 ≤ burst capacity :=
  mul_nonneg (Int.natCast_nonneg _) (by decide)

/-- A run from any keys takes no more than a full bucket and the refill added. -/
theorem allowed_le_credited (c : RateLimitClass) (apiKeyId : Uuid) (capacity : UInt32) (refill : Int)
    (redis : Redis) {calls : List Call} (hclose : Unexpired calls) :
    1000 * ((allowed (evalCalls c apiKeyId capacity refill redis calls).1).length : Int) ≤
      burst capacity + credited refill (calls.map Call.nowMs) := by
  cases calls with
  | nil => simpa [Core.evalCalls, allowed, credited] using burst_nonneg capacity
  | cons call calls =>
      obtain ⟨count, first, hallowed⟩ :=
        evalCalls_eq_drain c apiKeyId capacity refill redis hclose
      rw [hallowed]
      exact drain_cons_le (burst_nonneg capacity) count first _

/-- In whole tokens. -/
theorem allowed_le (c : RateLimitClass) (apiKeyId : Uuid) (capacity : UInt32) (refill : Int)
    (redis : Redis) {calls : List Call} (hclose : Unexpired calls) :
    ((allowed (evalCalls c apiKeyId capacity refill redis calls).1).length : Int) ≤
      capacity.toNat + credited refill (calls.map Call.nowMs) / 1000 := by
  have hle := allowed_le_credited c apiKeyId capacity refill redis hclose
  simp only [burst] at hle
  have hextra : ((allowed (evalCalls c apiKeyId capacity refill redis calls).1).length : Int) -
      capacity.toNat ≤ credited refill (calls.map Call.nowMs) / 1000 := by
    rw [Int.le_ediv_iff_mul_le (by decide)]
    linarith
  linarith

/-! ## A clock that does not go back -/

theorem credits_nonneg (hrefill : 0 ≤ refill) (last : Int) (readings : List Int) :
    ∀ credit ∈ credits refill last readings, 0 ≤ credit := by
  intro credit hcredit
  obtain ⟨gap, hgap, rfl⟩ := List.mem_map.1 hcredit
  exact Int.ediv_nonneg (mul_nonneg (gaps_nonneg gap hgap) hrefill) (by decide)

/-- The refill added while a clock goes from `lo` to `hi`. -/
theorem credited_le (hrefill : 0 ≤ refill) {lo hi : Int} (hle : lo ≤ hi) {readings : List Int}
    (hmono : readings.Pairwise (· ≤ ·)) (hrange : ∀ now ∈ readings, lo ≤ now ∧ now ≤ hi) :
    credited refill readings ≤ (hi - lo) * refill / 1000 := by
  cases readings with
  | nil => exact Int.ediv_nonneg (mul_nonneg (sub_nonneg.2 hle) hrefill) (by decide)
  | cons now rest =>
      have hmax : ∀ credit ∈ credits refill now rest, max credit 0 = id credit :=
        fun credit hcredit => max_eq_left (credits_nonneg hrefill now rest credit hcredit)
      have hgaps : (gaps now rest).sum ≤ hi - lo :=
        calc (gaps now rest).sum ≤ hi - now := sum_gaps_le hmono fun t ht => (hrange t ht).2
          _ ≤ hi - lo := sub_le_sub_left (hrange now List.mem_cons_self).1 _
      calc credited refill (now :: rest) = (credits refill now rest).sum := by
            rw [credited, List.map_congr_left hmax, List.map_id]
        _ ≤ (gaps now rest).sum * refill / 1000 := sum_map_ediv_le refill (by decide) _
        _ ≤ (hi - lo) * refill / 1000 :=
            Int.ediv_le_ediv (by decide) (mul_le_mul_of_nonneg_right hgaps hrefill)

def inWindow (lo hi : Int) (trace : List (Call × Int × Int)) : List (Call × Int × Int) :=
  trace.filter fun e => decide (lo ≤ e.1.nowMs ∧ e.1.nowMs ≤ hi)

theorem inWindow_append (lo hi : Int) (trace trace' : List (Call × Int × Int)) :
    inWindow lo hi (trace ++ trace') = inWindow lo hi trace ++ inWindow lo hi trace' :=
  List.filter_append ..

theorem inWindow_eq_nil {lo hi : Int} {calls : List Call}
    (h : ∀ call ∈ calls, call.nowMs < lo ∨ hi < call.nowMs) :
    inWindow lo hi (evalCalls c apiKeyId capacity refill redis calls).1 = [] := by
  refine List.filter_eq_nil_iff.2 ?_
  intro e he
  have hcall : e.1 ∈ calls := by
    rw [← map_fst_evalCalls c apiKeyId capacity refill redis calls]
    exact List.mem_map_of_mem he
  rcases h e.1 hcall with hlt | hgt
  · simp [hlt]
  · simp [hgt]

/-- With a clock that does not go back, a window is a stretch of the run. -/
theorem exists_window (lo hi : Int) {calls : List Call}
    (hmono : (calls.map Call.nowMs).Pairwise (· ≤ ·)) :
    ∃ before inside after, calls = before ++ (inside ++ after) ∧
      (∀ call ∈ before, call.nowMs < lo) ∧ (∀ call ∈ after, hi < call.nowMs) ∧
      ∀ call ∈ inside, lo ≤ call.nowMs ∧ call.nowMs ≤ hi := by
  have hsorted := List.pairwise_map.1 hmono
  have hlo := filter_append_filter hsorted lo
  have hhi := filter_append_filter (hsorted.filter fun call => decide (lo ≤ call.nowMs)) (hi + 1)
  refine ⟨_, _, _, hlo.trans (congrArg _ hhi), ?_, ?_, ?_⟩
  · intro call hcall
    simpa using (List.mem_filter.1 hcall).2
  · intro call hcall
    have hge : hi + 1 ≤ call.nowMs := by simpa using (List.mem_filter.1 hcall).2
    linarith
  · intro call hcall
    obtain ⟨hcall, hlt⟩ := List.mem_filter.1 hcall
    have hge : lo ≤ call.nowMs := by simpa using (List.mem_filter.1 hcall).2
    have hlt : call.nowMs < hi + 1 := by simpa using hlt
    exact ⟨hge, Int.lt_add_one_iff.1 hlt⟩

/-- The first call of all finds a full bucket. -/
theorem evalCalls_empty (c : RateLimitClass) (apiKeyId : Uuid) (capacity : UInt32) (refill : Int)
    {call : Call} {calls : List Call} (hclose : Unexpired (call :: calls)) :
    (allowed (evalCalls c apiKeyId capacity refill .empty (call :: calls)).1).length =
        (drain (burst capacity) 1000 (burst capacity)
          (credits refill call.nowMs ((call :: calls).map Call.nowMs))).1 ∧
      ∃ clock last, Stored c apiKeyId (evalCalls c apiKeyId capacity refill .empty (call :: calls)).2
        clock (drain (burst capacity) 1000 (burst capacity)
          (credits refill call.nowMs ((call :: calls).map Call.nowMs))).2 last := by
  rw [evalCalls_cons, evalBucket_eq _ _ _ rfl rfl, length_allowed_cons]
  obtain ⟨hallowed, hstored⟩ :=
    (Redis.stored_store .empty call.clock _ call.nowMs).evalCalls hclose
  exact ⟨congrArg _ hallowed, hstored⟩

/-- The stored count of a bucket never leaves its range. -/
theorem count_bounds (hrefill : 0 ≤ refill) {calls : List Call} (hclose : Unexpired calls)
    {clock count : Int} (hcount : (evalCalls c apiKeyId capacity refill .empty calls).2.get clock
      (bucketKey c apiKeyId) = some count) :
    0 ≤ count ∧ count ≤ 1000 * capacity.toNat := by
  cases calls with
  | nil => simp [Core.evalCalls] at hcount
  | cons call calls =>
      obtain ⟨-, clock', last, hstored⟩ := evalCalls_empty c apiKeyId capacity refill hclose
      cases Expiring.get_unique hcount (hstored.count clock' (lt_add_of_pos_right _ (by decide)))
      have hbounds := drain_bounds (by decide : (0 : Int) ≤ 1000) (burst_nonneg capacity)
        (credits_nonneg hrefill call.nowMs ((call :: calls).map Call.nowMs))
        ⟨burst_nonneg capacity, le_rfl⟩
      have hburst : burst capacity = 1000 * capacity.toNat := mul_comm _ _
      rw [← hburst]
      exact hbounds

/-- A token bucket under a clock that does not go back: the count stays in its range, and no window
of time sees more calls allowed than the capacity and the refill of that time. -/
theorem window_allowed_le (c : RateLimitClass) (apiKeyId : Uuid) (capacity : UInt32)
    (hrefill : 0 ≤ refill) {calls : List Call} (hmono : (calls.map Call.nowMs).Pairwise (· ≤ ·))
    (hclose : Unexpired calls) :
    (∀ n clock count, (evalCalls c apiKeyId capacity refill .empty (calls.take n)).2.get clock
        (bucketKey c apiKeyId) = some count → 0 ≤ count ∧ count ≤ 1000 * capacity.toNat) ∧
      ∀ (start : Int) (length : Nat), ((allowed (inWindow start (start + length)
        (evalCalls c apiKeyId capacity refill .empty calls).1)).length : Int) ≤
          capacity.toNat + refill * length / 10 ^ 6 := by
  refine ⟨?_, ?_⟩
  · intro n clock count hcount
    have hprefix : Unexpired (calls.take n) := by
      rw [Unexpired, List.map_take]
      exact List.IsChain.take hclose n
    exact count_bounds hrefill hprefix hcount
  · intro start length
    obtain ⟨before, inside, after, rfl, hbefore, hafter, hinside⟩ :=
      exists_window start (start + length) hmono
    -- Only the calls inside the window are counted, and they run from the keys left before it.
    have hcounted : inWindow start (start + length) (evalCalls c apiKeyId capacity refill .empty
        (before ++ (inside ++ after))).1 = inWindow start (start + length) (evalCalls c apiKeyId
          capacity refill (evalCalls c apiKeyId capacity refill .empty before).2 inside).1 := by
      rw [evalCalls_append, evalCalls_append, inWindow_append, inWindow_append,
        inWindow_eq_nil fun call hcall => .inl (hbefore call hcall),
        inWindow_eq_nil fun call hcall => .inr (hafter call hcall), List.nil_append,
        List.append_nil]
    have hstretch : inside <:+: before ++ (inside ++ after) := ⟨before, after, List.append_assoc ..⟩
    have hclose' : Unexpired inside := hclose.infix (List.IsInfix.map Call.clock hstretch)
    have hmono' : (inside.map Call.nowMs).Pairwise (· ≤ ·) :=
      hmono.sublist (List.IsInfix.map Call.nowMs hstretch).sublist
    have hrange : ∀ now ∈ inside.map Call.nowMs, start ≤ now ∧ now ≤ start + length := by
      simpa using hinside
    have hcredited : credited refill (inside.map Call.nowMs) ≤ length * refill / 1000 := by
      have hle : start ≤ start + length := le_add_of_nonneg_right (Int.natCast_nonneg length)
      simpa using credited_le hrefill hle hmono' hrange
    have hunits : (length : Int) * refill / 1000 / 1000 = refill * length / 10 ^ 6 := by
      rw [Int.ediv_ediv_of_nonneg (by decide), mul_comm]
      rfl
    rw [hcounted, ← hunits]
    calc ((allowed (inWindow start (start + length) (evalCalls c apiKeyId capacity refill
          (evalCalls c apiKeyId capacity refill .empty before).2 inside).1)).length : Int)
        ≤ ((allowed (evalCalls c apiKeyId capacity refill
            (evalCalls c apiKeyId capacity refill .empty before).2 inside).1).length : Int) :=
          Int.ofNat_le.2 (List.filter_sublist.filter _).length_le
      _ ≤ capacity.toNat + credited refill (inside.map Call.nowMs) / 1000 :=
          allowed_le _ _ _ _ _ hclose'
      _ ≤ capacity.toNat + (length : Int) * refill / 1000 / 1000 := by
          have hdiv := Int.ediv_le_ediv (c := 1000) (by decide) hcredited
          linarith

/-- Three calls of the default upload bucket. -/
theorem window_allowed_le_upload :
    (∀ n clock count, (evalCalls .upload nilUuid 100 1666 .empty
        ([⟨0, 0⟩, ⟨5, 4⟩, ⟨60000, 60001⟩].take n)).2.get clock (bucketKey .upload nilUuid) =
          some count → 0 ≤ count ∧ count ≤ 1000 * (100 : UInt32).toNat) ∧
      ∀ (start : Int) (length : Nat), ((allowed (inWindow start (start + length)
        (evalCalls .upload nilUuid 100 1666 .empty
          [⟨0, 0⟩, ⟨5, 4⟩, ⟨60000, 60001⟩]).1)).length : Int) ≤
          (100 : UInt32).toNat + 1666 * length / 10 ^ 6 :=
  window_allowed_le .upload nilUuid 100 (by decide) (by decide) (by simp [Unexpired, keyTtl])

/-! ## Clocks that go back and forth -/

def Skewed (lo hi : Int) (calls : List Call) : Prop :=
  ∀ call ∈ calls, lo ≤ call.nowMs ∧ call.nowMs ≤ hi

/-- At most one grant more than a clock that goes from `lo` to `hi` would get. -/
def OneExtra (capacity : UInt32) (refill lo hi : Int) (trace : List (Call × Int × Int)) : Prop :=
  ((allowed trace).length : Int) ≤ capacity.toNat + refill * (hi - lo) / 10 ^ 6 + 1

/-- Two clocks in turn, `n` times, at one instant of Redis. -/
def zigzag (lo hi : Int) : Nat → List Call
  | 0 => []
  | n + 1 => ⟨0, lo⟩ :: ⟨0, hi⟩ :: zigzag lo hi n

theorem unexpired_of_clock {calls : List Call} {clock : Int}
    (h : ∀ call ∈ calls, call.clock = clock) : Unexpired calls := by
  refine List.Pairwise.isChain (List.pairwise_map.2 (List.pairwise_of_forall_mem_list ?_))
  intro call hcall call' hcall'
  rw [h call hcall, h call' hcall']
  exact lt_add_of_pos_right _ (by decide)

theorem unexpired_replicate (n : Nat) (call : Call) : Unexpired (List.replicate n call) :=
  unexpired_of_clock fun _ hcall => congrArg Call.clock (List.eq_of_mem_replicate hcall)

theorem mem_zigzag {lo hi : Int} {n : Nat} : ∀ call ∈ zigzag lo hi n,
    call.clock = 0 ∧ (call.nowMs = lo ∨ call.nowMs = hi) := by
  induction n with
  | zero => simp [zigzag]
  | succ n ih => simpa [zigzag] using ih

/-- Each turn of a zigzag is credited the whole way up again. -/
theorem le_countP_zigzag {lo hi : Int} (hle : lo ≤ hi) (hcredit : 1000 ≤ refill * (hi - lo)) (n : Nat)
    (last : Int) : n ≤ (credits refill last ((zigzag lo hi n).map Call.nowMs)).countP
      fun credit => decide (0 < credit) := by
  induction n generalizing last with
  | zero => exact Nat.zero_le _
  | succ n ih =>
      have hpos : 0 < credit refill (forward lo hi) := by
        rw [credit, forward_of_le hle, mul_comm, ← Int.add_one_le_iff,
          Int.le_ediv_iff_mul_le (by decide)]
        exact hcredit
      have hrest := ih hi
      simp only [zigzag, List.map_cons, credits, gaps, List.countP_cons, hpos, decide_true,
        if_true] at hrest ⊢
      omega

/-- A zigzag is granted without end. -/
theorem le_allowed_zigzag (c : RateLimitClass) (apiKeyId : Uuid) {lo hi : Int} (hle : lo ≤ hi)
    (hcapacity : 1 ≤ capacity.toNat) (hcredit : 1000 ≤ refill * (hi - lo)) (n : Nat) :
    (n : Int) ≤ 1001 * (allowed (evalCalls c apiKeyId capacity refill .empty
      (zigzag lo hi n)).1).length := by
  cases n with
  | zero => simp
  | succ n =>
      have hrefill : 0 ≤ refill := by
        by_contra hneg
        nlinarith
      have hburst : (1000 : Int) ≤ burst capacity := by
        rw [burst]
        omega
      have hnonneg := credits_nonneg hrefill lo ((zigzag lo hi (n + 1)).map Call.nowMs)
      have hclose : Unexpired (zigzag lo hi (n + 1)) :=
        unexpired_of_clock fun call hcall => (mem_zigzag call hcall).1
      obtain ⟨hallowed, -⟩ := evalCalls_empty c apiKeyId capacity refill hclose
      have hcount := le_countP_zigzag hle hcredit (n + 1) lo
      have hdrain := le_drain (by decide : (0 : Int) ≤ 1000) hburst hnonneg le_rfl
      have hleft := (drain_bounds (by decide : (0 : Int) ≤ 1000) (burst_nonneg capacity) hnonneg
        ⟨burst_nonneg capacity, le_rfl⟩).2
      have hcount' : ((n + 1 : Nat) : Int) ≤ _ := Int.ofNat_le.2 hcount
      simp only [zigzag] at hallowed hdrain hleft hcount' ⊢
      rw [hallowed]
      linarith

/-- At one instant nothing is credited. -/
theorem credits_replicate (now : Int) (n : Nat) :
    credits refill now (List.replicate n now) = List.replicate n 0 := by
  induction n with
  | zero => rfl
  | succ n ih =>
      have hgap : credit refill (forward now now) = 0 := by
        rw [forward_of_le le_rfl, sub_self, credit, zero_mul]
        rfl
      simp only [List.replicate_succ, credits, gaps, List.map_cons, hgap] at ih ⊢
      rw [ih]

/-- Calls at one instant are granted until the bucket is empty. -/
theorem allowed_replicate (now : Int) :
    (allowed (evalCalls c apiKeyId capacity refill .empty
      (List.replicate capacity.toNat ⟨0, now⟩)).1).length = capacity.toNat := by
  generalize hn : capacity.toNat = n
  cases n with
  | zero => rfl
  | succ n =>
      have hclose : Unexpired (List.replicate (n + 1) ⟨0, now⟩) :=
        unexpired_replicate _ _
      have hburst : burst capacity = 1000 * ((n + 1 : Nat) : Int) := by
        rw [burst, hn, mul_comm]
      obtain ⟨hallowed, -⟩ := evalCalls_empty c apiKeyId capacity refill hclose
      rw [← List.replicate_succ, List.map_replicate, credits_replicate, hburst,
        drain_replicate_zero (by decide) le_rfl] at hallowed
      exact hallowed

/-- A bucket without capacity allows nothing. -/
theorem allowed_of_zero (hzero : capacity = 0) (redis : Redis) {calls : List Call}
    (hclose : Unexpired calls) :
    (allowed (evalCalls c apiKeyId capacity refill redis calls).1).length = 0 := by
  cases calls with
  | nil => rfl
  | cons call calls =>
      obtain ⟨count, first, hallowed⟩ :=
        evalCalls_eq_drain c apiKeyId capacity refill redis hclose
      have hburst : burst capacity < 1000 := by
        rw [hzero]
        decide
      rw [hallowed, drain_of_burst_lt hburst]

/-- In an interval too short for a thousandth, no call is credited anything. -/
theorem credited_eq_zero {lo hi : Int} (hsmall : refill * (hi - lo) < 1000) {readings : List Int}
    (hrange : ∀ now ∈ readings, lo ≤ now ∧ now ≤ hi) : credited refill readings = 0 := by
  cases readings with
  | nil => rfl
  | cons now rest =>
      have hnone : ∀ credit ∈ credits refill now rest, max credit 0 = 0 := by
        intro credit hcredit
        obtain ⟨gap, hgap, rfl⟩ := List.mem_map.1 hcredit
        have hlt : gap * refill < 1000 := by
          rcases le_total 0 refill with hpos | hneg
          · calc gap * refill ≤ (hi - lo) * refill :=
                  mul_le_mul_of_nonneg_right (gaps_le hrange gap hgap) hpos
              _ < 1000 := by rwa [mul_comm]
          · have hle := mul_nonpos_of_nonneg_of_nonpos (gaps_nonneg gap hgap) hneg
            linarith
        rw [Core.credit]
        omega
      rw [credited, List.map_congr_left hnone]
      simp

/-- Under clocks that go back and forth, a run has at most one extra grant if the refill it adds,
time counted again included, is that of the interval and one token.  All runs are bounded exactly
when the interval adds no refill at all, or there is nothing to be granted. -/
theorem oneExtra_iff (c : RateLimitClass) (apiKeyId : Uuid) (capacity : UInt32) (refill : Int)
    {lo hi : Int} (hle : lo ≤ hi) :
    (∀ redis calls, Unexpired calls → Skewed lo hi calls →
        credited refill (calls.map Call.nowMs) / 1000 ≤ refill * (hi - lo) / 10 ^ 6 + 1 →
        OneExtra capacity refill lo hi (evalCalls c apiKeyId capacity refill redis calls).1) ∧
      ((∀ redis calls, Unexpired calls → Skewed lo hi calls →
          OneExtra capacity refill lo hi (evalCalls c apiKeyId capacity refill redis calls).1) ↔
        -10 ^ 6 ≤ refill * (hi - lo) ∧ (capacity = 0 ∨ refill * (hi - lo) < 1000)) := by
  have hbound : ∀ redis calls, Unexpired calls →
      credited refill (calls.map Call.nowMs) / 1000 ≤ refill * (hi - lo) / 10 ^ 6 + 1 →
      OneExtra capacity refill lo hi (evalCalls c apiKeyId capacity refill redis calls).1 := by
    intro redis calls hclose hcredited
    have hallowed := allowed_le c apiKeyId capacity refill redis hclose
    rw [OneExtra]
    linarith
  refine ⟨fun redis calls hclose _ => hbound redis calls hclose, ?_, ?_⟩
  · intro hall
    have hskewed : ∀ calls : List Call, (∀ call ∈ calls, call.nowMs = lo ∨ call.nowMs = hi) →
        Skewed lo hi calls := by
      intro calls h call hcall
      rcases h call hcall with hEq | hEq
      · exact ⟨hEq.ge, hEq.trans_le hle⟩
      · exact ⟨hle.trans hEq.ge, hEq.le⟩
    refine ⟨?_, ?_⟩
    · -- A full bucket is emptied at once, so the refill of the interval cannot take a token back.
      have hfull := hall .empty (List.replicate capacity.toNat ⟨0, lo⟩)
        (unexpired_replicate _ _)
        (hskewed _ fun call hcall => .inl (by rw [List.eq_of_mem_replicate hcall]))
      rw [OneExtra, allowed_replicate] at hfull
      omega
    · by_contra! hnot
      -- Then a zigzag that is long enough goes past any bound.
      have hcapacity : 1 ≤ capacity.toNat := by
        have hne : capacity.toNat ≠ 0 := fun hEq => hnot.1 (UInt32.toNat_inj.1 hEq)
        omega
      let n := (1001 * (capacity.toNat + refill * (hi - lo) / 10 ^ 6 + 1) + 1).toNat
      have hlong := hall .empty (zigzag lo hi n)
        (unexpired_of_clock fun call hcall => (mem_zigzag call hcall).1)
        (hskewed _ fun call hcall => (mem_zigzag call hcall).2)
      have hmany := le_allowed_zigzag c apiKeyId hle hcapacity hnot.2 n
      have hn := Int.self_le_toNat (1001 * (capacity.toNat + refill * (hi - lo) / 10 ^ 6 + 1) + 1)
      rw [OneExtra] at hlong
      linarith
  · rintro ⟨hlow, hzero | hsmall⟩ redis calls hclose hskewed
    · rw [OneExtra, allowed_of_zero hzero redis hclose, hzero]
      simp only [Nat.cast_zero, UInt32.toNat_zero]
      omega
    · refine hbound redis calls hclose ?_
      rw [credited_eq_zero hsmall fun now hnow => ?_]
      · omega
      · obtain ⟨call, hcall, rfl⟩ := List.mem_map.1 hnow
        exact hskewed call hcall

end Runs

theorem oneExtra_iff_upload :
    (∀ redis calls, Unexpired calls → Skewed 0 60000 calls →
        credited 1666 (calls.map Call.nowMs) / 1000 ≤ 1666 * (60000 - 0) / 10 ^ 6 + 1 →
        OneExtra 100 1666 0 60000 (evalCalls .upload nilUuid 100 1666 redis calls).1) ∧
      ¬∀ redis calls, Unexpired calls → Skewed 0 60000 calls →
        OneExtra 100 1666 0 60000 (evalCalls .upload nilUuid 100 1666 redis calls).1 := by
  obtain ⟨hrun, hall⟩ := oneExtra_iff .upload nilUuid 100 1666 (by decide : (0 : Int) ≤ 60000)
  exact ⟨hrun, fun h => absurd (hall.1 h).2 (by decide)⟩

/-- Two clocks one second apart, in turn: five of eight calls are allowed, where the interval has
three grants. -/
theorem oneExtra_zigzag :
    Unexpired (zigzag 0 1000 4) ∧ Skewed 0 1000 (zigzag 0 1000 4) ∧
      (allowed (evalCalls .upload nilUuid 1 1000 .empty (zigzag 0 1000 4)).1).length = 5 ∧
      ¬OneExtra 1 1000 0 1000 (evalCalls .upload nilUuid 1 1000 .empty (zigzag 0 1000 4)).1 := by
  have hfive : (allowed (evalCalls .upload nilUuid 1 1000 .empty (zigzag 0 1000 4)).1).length = 5 := by
    decide +kernel
  refine ⟨unexpired_of_clock fun call hcall => (mem_zigzag call hcall).1, ?_, hfive, ?_⟩
  · intro call hcall
    rcases (mem_zigzag call hcall).2 with hEq | hEq
    · rw [hEq]
      decide
    · rw [hEq]
      decide
  · rw [OneExtra, hfive]
    decide

/-! ## Many buckets in one Redis -/

/-- A request: the bucket it is counted on, and the clocks when it is checked. -/
structure Checked where
  rateClass : RateLimitClass
  apiKeyId : Uuid
  call : Call
  deriving DecidableEq

section Mixed

variable (retryAfterSecs : Int → Int → UInt64) (defaults : RateLimitDefaults)

def checkAll : Redis → List Checked → List (Checked × Except RateLimited Unit)
  | _, [] => []
  | redis, r :: rs =>
      let out := check retryAfterSecs redis r.call.clock r.rateClass r.apiKeyId defaults r.call.nowMs
      (r, out.1) :: checkAll out.2 rs

variable (c : RateLimitClass) (apiKeyId : Uuid)

/-- Both hold the same under the keys of a bucket. -/
def Redis.Agree (redis redis' : Redis) : Prop :=
  ∀ clock, redis.get clock (bucketKey c apiKeyId) = redis'.get clock (bucketKey c apiKeyId) ∧
    redis.get clock (tsKey c apiKeyId) = redis'.get clock (tsKey c apiKeyId)

def onBucket (rs : List Checked) : List Checked :=
  rs.filter fun r => decide (r.rateClass = c ∧ r.apiKeyId = apiKeyId)

variable {retryAfterSecs defaults c apiKeyId} {redis redis' : Redis}

theorem check_snd (retryAfterSecs : Int → Int → UInt64) {r : Checked} :
    (check retryAfterSecs redis r.call.clock r.rateClass r.apiKeyId defaults r.call.nowMs).2 =
      (evalBucket redis r.call.clock r.rateClass r.apiKeyId (defaults.forClass r.rateClass).1
        (defaults.forClass r.rateClass).2 r.call.nowMs).2 := by
  simp only [check]
  split
  · rfl
  · rfl

theorem check_fst_eq_ok {r : Checked} :
    (check retryAfterSecs redis r.call.clock r.rateClass r.apiKeyId defaults r.call.nowMs).1 = .ok () ↔
      (evalBucket redis r.call.clock r.rateClass r.apiKeyId (defaults.forClass r.rateClass).1
        (defaults.forClass r.rateClass).2 r.call.nowMs).1.1 = 1 := by
  simp only [check]
  split
  · rename_i hone
    exact ⟨fun _ => hone, fun _ => rfl⟩
  · rename_i hnot
    exact ⟨nofun, fun hone => absurd hone hnot⟩

/-- A check on another bucket leaves the keys alone. -/
theorem Redis.Agree.check_of_ne (retryAfterSecs : Int → Int → UInt64)
    (defaults : RateLimitDefaults) (h : redis.Agree c apiKeyId redis') {r : Checked}
    (hne : ¬(r.rateClass = c ∧ r.apiKeyId = apiKeyId)) :
    Redis.Agree c apiKeyId (check retryAfterSecs redis r.call.clock r.rateClass r.apiKeyId defaults
      r.call.nowMs).2 redis' := by
  obtain ⟨hbucket, hts⟩ := bucket_ne hne
  intro clock
  rw [check_snd, evalBucket_eq _ _ _ rfl rfl]
  simp only [Redis.store]
  refine ⟨?_, ?_⟩
  · rw [Expiring.get_setEx_of_ne tsKey_ne_bucketKey.symm, Expiring.get_setEx_of_ne hbucket.symm]
    exact (h clock).1
  · rw [Expiring.get_setEx_of_ne hts.symm, Expiring.get_setEx_of_ne tsKey_ne_bucketKey]
    exact (h clock).2

/-- A call finds the same and leaves the same. -/
theorem Redis.Agree.evalBucket (h : redis.Agree c apiKeyId redis') (clock nowMs : Int)
    (capacity : UInt32) (refill : Int) :
    (Core.evalBucket redis clock c apiKeyId capacity refill nowMs).1 =
        (Core.evalBucket redis' clock c apiKeyId capacity refill nowMs).1 ∧
      Redis.Agree c apiKeyId (Core.evalBucket redis clock c apiKeyId capacity refill nowMs).2
        (Core.evalBucket redis' clock c apiKeyId capacity refill nowMs).2 := by
  obtain ⟨hcount, hlast⟩ := h clock
  rw [evalBucket_eq redis clock nowMs rfl rfl,
    evalBucket_eq redis' clock nowMs (by rw [← hcount]) (by rw [← hlast])]
  refine ⟨rfl, ?_⟩
  intro later
  refine ⟨?_, Expiring.get_setEx_congr _ _⟩
  simp only [Redis.store]
  rw [Expiring.get_setEx_of_ne tsKey_ne_bucketKey.symm,
    Expiring.get_setEx_of_ne tsKey_ne_bucketKey.symm]
  exact Expiring.get_setEx_congr _ _

/-- A bucket sees nothing of the requests on other buckets. -/
theorem checkAll_alone (h : redis.Agree c apiKeyId redis') (rs : List Checked) :
    ((checkAll retryAfterSecs defaults redis rs).filter fun e =>
        decide (e.1.rateClass = c ∧ e.1.apiKeyId = apiKeyId)).map
          (fun e => (e.1.call, decide (e.2 = .ok ()))) =
      (evalCalls c apiKeyId (defaults.forClass c).1 (defaults.forClass c).2 redis'
        ((onBucket c apiKeyId rs).map Checked.call)).1.map fun e => (e.1, decide (e.2.1 = 1)) := by
  induction rs generalizing redis redis' with
  | nil => rfl
  | cons r rs ih =>
      by_cases hr : r.rateClass = c ∧ r.apiKeyId = apiKeyId
      · obtain ⟨rfl, rfl⟩ := hr
        obtain ⟨hreply, hagree⟩ := h.evalBucket r.call.clock r.call.nowMs
          (defaults.forClass r.rateClass).1 (defaults.forClass r.rateClass).2
        rw [← check_snd retryAfterSecs] at hagree
        have hrest := ih hagree
        simpa [checkAll, onBucket, evalCalls_cons, check_fst_eq_ok, hreply] using hrest
      · have hrest := ih (h.check_of_ne retryAfterSecs defaults hr)
        simpa [checkAll, onBucket, hr] using hrest

end Mixed

end Core
end OpenWeights
