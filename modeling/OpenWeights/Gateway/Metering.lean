import OpenWeights.Gateway.Bounds

/-!
# Metering — the bytes that are billed

Steps 6 and 7 of `ServeXorb` once more, with a connection that may fail: the body goes out in
writes, framing and object bytes, and ends where the connection does.  The number handed to the meter
and to the log is the count of `io.Copy` for a full body; for ranges it is computed from the ranges,
and only if nothing failed.  `meterExact_iff` says when that is the number of object bytes written.

The object is a local file that can be read.
-/

namespace OpenWeights
namespace Gateway

open Lib Db OpenWeights.Core

/-! ## The body in writes -/

inductive BodyWrite
  | framing (bytes : Bytes)
  | object (bytes : Bytes)
  deriving DecidableEq, Repr

namespace BodyWrite

def bytes : BodyWrite → Bytes
  | framing b => b
  | object b => b

def objectLength : BodyWrite → Nat
  | framing _ => 0
  | object b => b.length

end BodyWrite

/-- The writes of `writeMultipartRanges`: `CreatePart` and `io.Copy` for each part, then `Close`. -/
def multipartWrites (totalSize : Int64) (src : Bytes) : Bool → List Range → List BodyWrite
  | _, [] => [.framing closeDelim]
  | first, r :: rest =>
      .framing (partHeader r totalSize first) ::
        .object (sectionReader src r.start.toInt64 r.length) ::
          multipartWrites totalSize src false rest

/-- The writes of each branch. -/
def bodyWrites (size : Int64) (src : Bytes) (ranges : List Range) : List BodyWrite :=
  match BodyWriter.pick ranges with
  | .full => [.object (sectionReader src 0 size)]
  | .single r => [.object (sectionReader src r.start.toInt64 r.length)]
  | .multipart ranges => multipartWrites size src true ranges

theorem bytes_multipartWrites (totalSize : Int64) (src : Bytes) (first : Bool)
    (ranges : List Range) :
    (multipartWrites totalSize src first ranges).flatMap BodyWrite.bytes =
      multipartBody totalSize src first ranges := by
  induction ranges generalizing first with
  | nil => exact List.append_nil _
  | cons r rest ih =>
      rw [multipartWrites, List.flatMap_cons, List.flatMap_cons, ih false, multipartBody,
        List.append_assoc]
      rfl

theorem bytes_object (b : Bytes) : [BodyWrite.object b].flatMap BodyWrite.bytes = b := by
  simp [BodyWrite.bytes]

/-- Put together the writes are the body of the response. -/
theorem bytes_bodyWrites (src : XorbSource) (size : Int64) (ranges : List Range) :
    (bodyWrites size src.bytes ranges).flatMap BodyWrite.bytes =
      (respond .new src size ranges).body := by
  match ranges with
  | [] =>
      have hbody : (respond .new src size []).body = [] ++ sectionReader src.bytes 0 size := rfl
      have hwrites : bodyWrites size src.bytes [] =
          [.object (sectionReader src.bytes 0 size)] := rfl
      rw [hbody, hwrites, bytes_object, List.nil_append]
  | [r] =>
      have hbody : (respond .new src size [r]).body =
          [] ++ sectionReader src.bytes r.start.toInt64 r.length := rfl
      have hwrites : bodyWrites size src.bytes [r] =
          [.object (sectionReader src.bytes r.start.toInt64 r.length)] := rfl
      rw [hbody, hwrites, bytes_object, List.nil_append]
  | r₁ :: r₂ :: rest =>
      have hbody : (respond .new src size (r₁ :: r₂ :: rest)).body =
          [] ++ multipartBody size src.bytes true (r₁ :: r₂ :: rest) := rfl
      have hwrites : bodyWrites size src.bytes (r₁ :: r₂ :: rest) =
          multipartWrites size src.bytes true (r₁ :: r₂ :: rest) := rfl
      rw [hbody, hwrites, bytes_multipartWrites, List.nil_append]

/-! ## A connection that fails -/

/-- What came of the writes: the object bytes that went out, and whether all writes succeeded. -/
structure Sent where
  objectBytes : Nat
  ok : Bool
  deriving DecidableEq, Repr

/-- The writes in order, over a connection that takes `room` more bytes and then fails; the rest is
not tried.  `none` is a connection that does not fail. -/
def send : Option Nat → List BodyWrite → Sent
  | _, [] => ⟨0, true⟩
  | none, p :: rest => ⟨p.objectLength + (send none rest).objectBytes, (send none rest).ok⟩
  | some room, p :: rest =>
      if p.bytes.length ≤ room then
        let later := send (some (room - p.bytes.length)) rest
        ⟨p.objectLength + later.objectBytes, later.ok⟩
      else
        ⟨min room p.objectLength, false⟩

/-- `bytesServed`: the count of `io.Copy`, or what the ranges amount to if nothing failed.  The same
number goes to the meter and to the request log. -/
def bytesServed (size : Int64) (src : Bytes) (ranges : List Range) (room : Option Nat) : Int64 :=
  let sent := send room (bodyWrites size src ranges)
  match BodyWriter.pick ranges with
  | .full => Int64.ofNat sent.objectBytes
  | .single r => if sent.ok then r.length else 0
  | .multipart ranges => if sent.ok then (ranges.map Range.length).foldl (· + ·) 0 else 0

def totalLength (ps : List BodyWrite) : Nat := (ps.map fun p => p.bytes.length).sum

def totalObject (ps : List BodyWrite) : Nat := (ps.map BodyWrite.objectLength).sum

def leadIn : List BodyWrite → Nat
  | [] => 0
  | .framing b :: rest => b.length + leadIn rest
  | .object b :: rest => if b = [] then leadIn rest else 0

/-- The connection takes that many bytes. -/
def Takes (room : Option Nat) (count : Nat) : Prop :=
  ∀ k, room = some k → count ≤ k

@[simp] theorem totalLength_cons (p : BodyWrite) (ps : List BodyWrite) :
    totalLength (p :: ps) = p.bytes.length + totalLength ps := rfl

@[simp] theorem totalObject_cons (p : BodyWrite) (ps : List BodyWrite) :
    totalObject (p :: ps) = p.objectLength + totalObject ps := rfl

theorem totalObject_singleton (b : Bytes) : totalObject [.object b] = b.length :=
  Nat.add_zero _

theorem takes_some {k count : Nat} : Takes (some k) count ↔ count ≤ k :=
  ⟨fun h => h k rfl, fun h _ hk => Option.some_inj.1 hk ▸ h⟩

theorem takes_none {count : Nat} : Takes none count := by
  intro k hk
  cases hk

/-- If everything fits, everything is sent. -/
theorem send_of_takes {room : Option Nat} {ps : List BodyWrite} (h : Takes room (totalLength ps)) :
    send room ps = ⟨totalObject ps, true⟩ := by
  induction ps generalizing room with
  | nil => cases room <;> rfl
  | cons p rest ih =>
      cases room with
      | none => rw [send, ih takes_none, totalObject_cons]
      | some k =>
          have hle := takes_some.1 h
          rw [totalLength_cons] at hle
          rw [send, if_pos (by omega), ih (takes_some.2 (by omega)), totalObject_cons]

/-- If not, a write fails, and no object byte went out exactly if the connection failed before the
first one. -/
theorem send_of_not_takes {k : Nat} {ps : List BodyWrite} (h : k < totalLength ps) :
    (send (some k) ps).ok = false ∧
      ((send (some k) ps).objectBytes = 0 ↔ k ≤ leadIn ps) := by
  induction ps generalizing k with
  | nil => exact absurd h (Nat.not_lt_zero k)
  | cons p rest ih =>
      rw [totalLength_cons] at h
      by_cases hle : p.bytes.length ≤ k
      · obtain ⟨hok, hzero⟩ := ih (show k - p.bytes.length < totalLength rest by omega)
        rw [send, if_pos hle]
        refine ⟨hok, ?_⟩
        cases p with
        | framing b =>
            have hlength : b.length ≤ k := hle
            simp only [BodyWrite.bytes, BodyWrite.objectLength, leadIn, Nat.zero_add] at hzero ⊢
            omega
        | object b =>
            simp only [BodyWrite.bytes, BodyWrite.objectLength, leadIn] at hzero hle ⊢
            by_cases hb : b = []
            · subst hb
              simpa using hzero
            · have hpos := List.length_pos_iff.2 hb
              rw [if_neg hb]
              omega
      · rw [send, if_neg hle]
        refine ⟨rfl, ?_⟩
        cases p with
        | framing b =>
            simp only [BodyWrite.bytes, BodyWrite.objectLength, leadIn] at hle ⊢
            omega
        | object b =>
            simp only [BodyWrite.bytes, BodyWrite.objectLength, leadIn] at hle ⊢
            have hb : b ≠ [] := by
              rintro rfl
              exact hle (Nat.zero_le k)
            rw [if_neg hb]
            omega

/-! ## Counting -/

/-- The number handed on is the number of object bytes written. -/
def MeterExact (size : Int64) (src : Bytes) (ranges : List Range) (room : Option Nat) : Prop :=
  (bytesServed size src ranges room).toInt =
    ((send room (bodyWrites size src ranges)).objectBytes : Int)

/-- `End - Start + 1` summed over the ranges, as an `int64`. -/
def rangeCount (ranges : List Range) : Int64 :=
  (ranges.map Range.length).foldl (· + ·) 0

/-- The bytes the object has for the ranges. -/
def available (src : Bytes) (ranges : List Range) : Nat :=
  (ranges.map fun r => (sectionReader src r.start.toInt64 r.length).length).sum

theorem totalObject_multipartWrites (size : Int64) (src : Bytes) (first : Bool)
    (ranges : List Range) :
    totalObject (multipartWrites size src first ranges) = available src ranges := by
  induction ranges generalizing first with
  | nil => rfl
  | cons r rest ih =>
      rw [multipartWrites, totalObject_cons, totalObject_cons, ih false]
      exact Nat.zero_add _

/-- A section of a file is no longer than an `int64`. -/
theorem length_sectionReader_lt (src : Bytes) (off n : Int64) :
    (sectionReader src off n).length < 2 ^ 63 := by
  unfold sectionReader
  extract_lets limit
  split
  · decide
  · rename_i hread
    have hoff : 0 ≤ off.toInt := by
      have hnonneg := Int64.not_lt.1 (not_or.1 hread).1
      exact Int64.le_iff_toInt_le.1 hnonneg
    have hlimit := limit.toInt_lt
    have hle := (limit - off).toInt_lt
    rw [List.length_take]
    omega

/-- The number of a ranged response: the ranges' own count if everything was sent. -/
theorem bytesServed_ranged {size : Int64} {src : Bytes} {ranges : List Range}
    (hne : ranges ≠ []) (room : Option Nat) :
    bytesServed size src ranges room =
      if (send room (bodyWrites size src ranges)).ok then rangeCount ranges else 0 := by
  match ranges with
  | [] => exact absurd rfl hne
  | [r] =>
      have hcount : rangeCount [r] = r.length := by simp [rangeCount]
      rw [hcount]
      rfl
  | r₁ :: r₂ :: rest => rfl

theorem totalObject_bodyWrites {size : Int64} {src : Bytes} {ranges : List Range}
    (hne : ranges ≠ []) :
    totalObject (bodyWrites size src ranges) = available src ranges := by
  match ranges with
  | [] => exact absurd rfl hne
  | [r] =>
      have havailable : available src [r] =
          (sectionReader src r.start.toInt64 r.length).length + 0 := rfl
      rw [havailable]
      rfl
  | r₁ :: r₂ :: rest => exact totalObject_multipartWrites size src true (r₁ :: r₂ :: rest)

theorem objectBytes_le (room : Option Nat) (ps : List BodyWrite) :
    (send room ps).objectBytes ≤ totalObject ps := by
  induction ps generalizing room with
  | nil => cases room <;> exact Nat.le_refl 0
  | cons p rest ih =>
      cases room with
      | none =>
          rw [send, totalObject_cons]
          exact Nat.add_le_add_left (ih none) _
      | some k =>
          rw [send, totalObject_cons]
          split
          · exact Nat.add_le_add_left (ih _) _
          · exact Nat.le_trans (Nat.min_le_right _ _) (Nat.le_add_right _ _)

/-- A full body is counted as it is copied. -/
theorem meterExact_full (size : Int64) (src : Bytes) (room : Option Nat) :
    MeterExact size src [] room := by
  have hlt := length_sectionReader_lt src 0 size
  have hle := objectBytes_le room (bodyWrites size src [])
  have hwrites : bodyWrites size src [] = [.object (sectionReader src 0 size)] := rfl
  have htotal : totalObject (bodyWrites size src []) = (sectionReader src 0 size).length := by
    rw [hwrites, totalObject_singleton]
  have hserved : bytesServed size src [] room =
      Int64.ofNat (send room (bodyWrites size src [])).objectBytes := rfl
  rw [MeterExact, hserved]
  exact toInt_ofNat_eq_iff.2 (by omega)

/-- The metered number is right for a full body, for a ranged one that is sent whole if the ranges
count what the object has for them, and for one whose connection fails before the first byte of the
object; and never else. -/
theorem meterExact_iff (size : Int64) (src : Bytes) (ranges : List Range) (room : Option Nat) :
    MeterExact size src ranges room ↔
      ranges = [] ∨
        (Takes room (totalLength (bodyWrites size src ranges)) ∧
          (rangeCount ranges).toInt = available src ranges) ∨
        ∃ k, room = some k ∧ k < totalLength (bodyWrites size src ranges) ∧
          k ≤ leadIn (bodyWrites size src ranges) := by
  by_cases hnil : ranges = []
  · subst hnil
    exact iff_of_true (meterExact_full size src room) (.inl rfl)
  rw [MeterExact, bytesServed_ranged hnil]
  by_cases htakes : Takes room (totalLength (bodyWrites size src ranges))
  · have hno : ¬∃ k, room = some k ∧ k < totalLength (bodyWrites size src ranges) ∧
        k ≤ leadIn (bodyWrites size src ranges) := by
      rintro ⟨k, hk, hlt, -⟩
      have hle := htakes k hk
      omega
    rw [send_of_takes htakes, totalObject_bodyWrites hnil]
    simp only [if_true, hnil, htakes, hno, true_and, false_or, or_false]
  · obtain ⟨k, rfl, hlt⟩ : ∃ k, room = some k ∧ k < totalLength (bodyWrites size src ranges) := by
      unfold Takes at htakes
      push Not at htakes
      exact htakes
    obtain ⟨hok, hzero⟩ := send_of_not_takes hlt
    rw [hok, if_neg Bool.false_ne_true]
    simp only [hnil, htakes, false_and, false_or, Option.some_inj, exists_eq_left', hlt, true_and]
    rw [← hzero, Int64.toInt_zero]
    omega

/-- A single range of eight bytes, three of which go out: none is metered. -/
theorem not_meterExact :
    ¬∀ (size : Int64) (src : Bytes) (ranges : List Range) (room : Option Nat),
      MeterExact size src ranges room := by
  intro hclaim
  exact absurd (hclaim 8 [1, 2, 3, 4, 5, 6, 7, 8] [⟨0, 7⟩] (some 3)) (by
    unfold MeterExact
    decide +kernel)

end Gateway
end OpenWeights
