import OpenWeights.Core.HexText
import OpenWeights.Gateway.HashHex

/-!
# AdminXorbs — the names of xorbs in the admin API

Model of `handlers/admin/xorbs.rs`: the listing with its two filters, and the lookup of one xorb,
without the repositories that refer to it.  The key of the row is made by `upload_xorb` with
`MerkleHash::from_hex`, which the gateway's `ParseMerkleHashHex` agrees with; the admin handlers
write and read the same 32 bytes as plain hexadecimal.  The two agree on a hash exactly if its groups
read the same backwards (`oneName_iff`).

PostgreSQL runs the branches of a `UNION ALL` one after the other, so a `LIMIT 1` takes the `xorbs`
row first.
-/

namespace OpenWeights
namespace Core

open Lib Db Gateway

/-! ## The tables -/

structure XorbColumns where
  siaObjectId : Option Bytes
  sizeBytes : Int
  pinState : XorbPinState
  uploadedAt : Int
  ownerApiKeyId : Uuid
  deriving DecidableEq, Repr

/-- The columns of `lfs_objects`; `uploader` is the answer of the subquery for the key of the most
recent commit. -/
structure LfsColumns where
  sizeBytes : Int
  createdAt : Int
  uploader : Option Uuid
  deriving DecidableEq, Repr

structure AdminTables where
  xorbs : Table Hash XorbColumns
  lfsObjects : Table Bytes LfsColumns

structure XorbDbRow where
  hash : Bytes
  siaObjectId : Option Bytes
  sizeBytes : Int
  pinState : Bytes
  uploadedAt : Int
  ownerApiKeyId : Uuid
  deriving DecidableEq, Repr

structure XorbView where
  hash : Bytes
  siaObjectId : Option Bytes
  sizeBytes : Int
  pinState : Bytes
  uploadedAt : Int
  uploaderKeyId : Uuid
  deriving DecidableEq, Repr

def pinStateText : XorbPinState → Bytes
  | .uploading => lit "uploading"
  | .pinning => lit "pinning"
  | .pinned => lit "pinned"
  | .orphaned => lit "orphaned"

def zeroUuid : Uuid := ⟨[0, 0, 0, 0, 0, 0, 0, 0, 0, 0, 0, 0, 0, 0, 0, 0], rfl⟩

/-- The first branch of the `UNION ALL`. -/
def xorbRow (hash : Hash) (r : XorbColumns) : XorbDbRow :=
  { hash := hash.1
    siaObjectId := r.siaObjectId
    sizeBytes := r.sizeBytes
    pinState := pinStateText r.pinState
    uploadedAt := r.uploadedAt
    ownerApiKeyId := r.ownerApiKeyId }

/-- The second branch: small files kept in the database. -/
def lfsRow (oid : Bytes) (r : LfsColumns) : XorbDbRow :=
  { hash := oid
    siaObjectId := none
    sizeBytes := r.sizeBytes
    pinState := lit "inline"
    uploadedAt := r.createdAt
    ownerApiKeyId := r.uploader.getD zeroUuid }

/-- The closure that makes a response row of a database row; `lowercase_hex` is `hexEncode`. -/
def xorbView (r : XorbDbRow) : XorbView :=
  { hash := hexEncode r.hash
    siaObjectId := r.siaObjectId.map hexEncode
    sizeBytes := r.sizeBytes
    pinState := r.pinState
    uploadedAt := r.uploadedAt
    uploaderKeyId := r.ownerApiKeyId }

/-! ## The handlers -/

/-- `AppError`, as far as these handlers return it. -/
inductive AdminError
  | badRequest (reason : Bytes)
  | notFound
  deriving DecidableEq, Repr

structure XorbQuery where
  hashPrefix : Option Bytes
  apiKeyId : Option Uuid
  deriving DecidableEq, Repr

/-- The check of the prefix, and the lower-cased prefix unless it is empty. -/
def readHashPrefix : Option Bytes → Except AdminError (Option Bytes)
  | none => .ok none
  | some [] => .ok none
  | some (c :: rest) =>
      if (c :: rest).length ≠ 8 ∨ ¬(c :: rest).all isHexDigit then
        .error (.badRequest (lit "hash_prefix must be 8 hex chars"))
      else
        .ok (some ((c :: rest).map lower))

/-- `ORDER BY uploaded_at DESC`. -/
def latestFirst (a b : XorbDbRow) : Prop := b.uploadedAt ≤ a.uploadedAt

instance : DecidableRel latestFirst := fun a b =>
  inferInstanceAs (Decidable (b.uploadedAt ≤ a.uploadedAt))

def selected (hashPrefix : Option Bytes) (apiKeyId : Option Uuid) (r : XorbDbRow) : Bool :=
  (match hashPrefix with
    | none => true
    | some p => (hexEncode r.hash).take 8 = p) &&
  (match apiKeyId with
    | none => true
    | some id => r.ownerApiKeyId = id)

def AdminTables.base (db : AdminTables) : List XorbDbRow :=
  (db.xorbs.rows.map fun r => xorbRow r.1 r.2) ++ db.lfsObjects.rows.map fun r => lfsRow r.1 r.2

/-- The rows the listing is made of, before `LIMIT 500`. -/
def selectRows (db : AdminTables) (q : XorbQuery) : Except AdminError (List XorbDbRow) :=
  match readHashPrefix q.hashPrefix with
  | .error e => .error e
  | .ok hashPrefix =>
      .ok ((db.base.filter (selected hashPrefix q.apiKeyId)).insertionSort latestFirst)

def listXorbs (db : AdminTables) (q : XorbQuery) : Except AdminError (List XorbView) :=
  (selectRows db q).map fun rows => (rows.take 500).map xorbView

/-- `decode_xorb_hash_hex`, the loop of `decode_file_id_hex` over again. -/
def decodeXorbHashHex (s : Bytes) : Option Hash :=
  decodeFileIdHex s

/-- The row `get_xorb_detail` answers with.  Only ASCII letters are lower-cased here; no other
character has a hexadecimal digit for its lower case. -/
def findRow (db : AdminTables) (hashHex : Bytes) : Except AdminError XorbDbRow :=
  match decodeXorbHashHex (hashHex.map lower) with
  | none => .error (.badRequest (lit "invalid_xorb_hash"))
  | some hash =>
      match db.base.find? fun r => r.hash = hash.1 with
      | none => .error .notFound
      | some row => .ok row

/-- `get_xorb_detail`, without `referencing_repos`. -/
def getXorbDetail (db : AdminTables) (hashHex : Bytes) : Except AdminError XorbView :=
  (findRow db hashHex).map xorbView

/-! ## What the handlers do with a name -/

section Names

variable {db : AdminTables} {hash : Hash} {r : XorbColumns}

theorem mem_base (hrow : db.xorbs.find hash = some r) : xorbRow hash r ∈ db.base :=
  List.mem_append_left _ (List.mem_map.2 ⟨(hash, r), Table.find_eq_some_iff.1 hrow, rfl⟩)

/-- The plain text of the hash finds its row: the key is unique in `xorbs`, and that branch comes
first. -/
theorem findRow_of_plain (hrow : db.xorbs.find hash = some r) {s : Bytes}
    (hs : hexDecode s = some hash.1) : findRow db s = .ok (xorbRow hash r) := by
  have hdecode : decodeXorbHashHex (s.map lower) = some hash :=
    decodeFileIdHex_eq_some_iff.2 ((hexDecode_map_lower s).trans hs)
  have hkey := Table.find?_rows Subtype.val_injective hrow
  have hfound : db.base.find? (fun x => x.hash = hash.1) = some (xorbRow hash r) := by
    rw [AdminTables.base, List.find?_append, List.find?_map]
    have hpred : (fun x : XorbDbRow => decide (x.hash = hash.1)) ∘
        (fun x : Hash × XorbColumns => xorbRow x.1 x.2) = fun x => decide (x.1.1 = hash.1) := rfl
    rw [hpred, hkey]
    rfl
  rw [findRow, hdecode]
  simp only [hfound]

theorem readHashPrefix_digits {p : Bytes} (hlen : p.length = 8)
    (hdigits : ∀ c ∈ p, isHexDigit c = true) :
    readHashPrefix (some p) = .ok (some (p.map lower)) := by
  cases p with
  | nil => cases hlen
  | cons c rest =>
      have hall : (c :: rest).all isHexDigit = true := List.all_eq_true.2 hdigits
      rw [readHashPrefix, if_neg (by simp [hlen, hall])]

/-- The filter selects the row by the plain text of its hash. -/
theorem mem_selectRows_iff (hrow : db.xorbs.find hash = some r) {p : Bytes} (hlen : p.length = 8)
    (hdigits : ∀ c ∈ p, isHexDigit c = true) :
    ∃ rows, selectRows db ⟨some p, none⟩ = .ok rows ∧
      (xorbRow hash r ∈ rows ↔ p.map lower <+: hexEncode hash.1) := by
  refine ⟨_, by rw [selectRows, readHashPrefix_digits hlen hdigits], ?_⟩
  have htake : (hexEncode hash.1).take 8 = p.map lower ↔ p.map lower <+: hexEncode hash.1 := by
    rw [List.prefix_iff_eq_take, List.length_map, hlen, eq_comm]
  have hselected : selected (some (p.map lower)) none (xorbRow hash r) = true ↔
      (hexEncode hash.1).take 8 = p.map lower := by
    rw [selected, Bool.and_true]
    exact decide_eq_true_iff
  rw [List.mem_insertionSort, List.mem_filter, hselected, htake]
  exact and_iff_right (mem_base hrow)

end Names

/-! ## One name -/

/-- The admin API names the xorb of a row as the upload did: it is found under that name, shown under
it, and the filter goes by it. -/
structure OneName (db : AdminTables) (h : Bytes) (hash : Hash) (r : XorbColumns) : Prop where
  found : findRow db h = .ok (xorbRow hash r)
  shown : (xorbView (xorbRow hash r)).hash = h.map lower
  listed : ∃ rows, selectRows db ⟨none, none⟩ = .ok rows ∧ xorbRow hash r ∈ rows
  filtered : ∀ p : Bytes, p.length = 8 → (∀ c ∈ p, isHexDigit c = true) →
    ∃ rows, selectRows db ⟨some p, none⟩ = .ok rows ∧
      (xorbRow hash r ∈ rows ↔ p.map lower <+: h.map lower)

/-- Each group of eight bytes reads the same backwards. -/
def PalindromicGroups (hash : Hash) : Prop :=
  ∀ group < 4, (groupOf 8 hash.1 group).reverse = groupOf 8 hash.1 group

theorem palindromicGroups_iff (hash : Hash) :
    PalindromicGroups hash ↔ swapGroups hash.1 = hash.1 := by
  constructor
  · intro hpal
    rw [swapGroups, hpal 0 (by decide), hpal 1 (by decide), hpal 2 (by decide),
      hpal 3 (by decide)]
    exact append_groupOf hash.2
  · intro hswap group hgroup
    have hlen : ∀ group < 4, (groupOf 8 hash.1 group).reverse.length = 8 := by
      intro group hgroup
      rw [List.length_reverse]
      exact length_groupOf hash.2 hgroup
    have hgroups := groupOf_append (hlen 0 (by decide)) (hlen 1 (by decide)) (hlen 2 (by decide))
      (hlen 3 (by decide))
    have hparts : (groupOf 8 hash.1 0).reverse ++ (groupOf 8 hash.1 1).reverse ++
        (groupOf 8 hash.1 2).reverse ++ (groupOf 8 hash.1 3).reverse = hash.1 := hswap
    rw [hparts] at hgroups
    obtain ⟨h₀, h₁, h₂, h₃⟩ := hgroups
    have hcases : group = 0 ∨ group = 1 ∨ group = 2 ∨ group = 3 := by omega
    rcases hcases with rfl | rfl | rfl | rfl
    · exact h₀.symm
    · exact h₁.symm
    · exact h₂.symm
    · exact h₃.symm

/-- A xorb has one name in the uploads and in the admin API if and only if the groups of its hash
read the same backwards. -/
theorem oneName_iff {db : AdminTables} {h : Bytes} {hash : Hash} {r : XorbColumns}
    (hupload : parseMerkleHashHex h = .ok hash) (hrow : db.xorbs.find hash = some r) :
    OneName db h hash r ↔ PalindromicGroups hash := by
  have hdecode := parseMerkleHashHex_ok_iff.1 hupload
  have hname : hexEncode (swapGroups hash.1) = h.map lower := hexEncode_of_hexDecode hdecode
  rw [palindromicGroups_iff]
  constructor
  · intro hone
    have hplain : hexEncode hash.1 = hexEncode (swapGroups hash.1) := hone.shown.trans hname.symm
    have hbytes := congrArg hexDecode hplain
    rw [hexDecode_hexEncode, hexDecode_hexEncode, Option.some_inj] at hbytes
    exact hbytes.symm
  · intro hswap
    rw [hswap] at hdecode hname
    refine ⟨findRow_of_plain hrow hdecode, hname, ?_, ?_⟩
    · refine ⟨_, rfl, ?_⟩
      rw [List.mem_insertionSort, List.mem_filter]
      exact ⟨mem_base hrow, rfl⟩
    · intro p hlen hdigits
      rw [← hname]
      exact mem_selectRows_iff hrow hlen hdigits

/-! ## Samples -/

def adminColumns : XorbColumns :=
  { siaObjectId := none
    sizeBytes := 11
    pinState := .pinned
    uploadedAt := 0
    ownerApiKeyId := zeroUuid }

def adminTables (hash : Hash) : AdminTables :=
  { xorbs := Table.empty.insertNew hash adminColumns
    lfsObjects := .empty }

theorem oneName_iff_fill :
    OneName (adminTables (Hash.fill 170)) (hexEncode (Hash.fill 170).1) (Hash.fill 170)
      adminColumns := by
  have hupload : parseMerkleHashHex (hexEncode (Hash.fill 170).1) = .ok (Hash.fill 170) := by
    rw [parseMerkleHashHex_ok_iff, hexDecode_hexEncode]
    decide +kernel
  have hrow : (adminTables (Hash.fill 170)).xorbs.find (Hash.fill 170) = some adminColumns :=
    Table.find_insertNew_self _ _ _
  refine (oneName_iff hupload hrow).2 ?_
  unfold PalindromicGroups
  decide +kernel

def unevenHash : Hash :=
  ⟨1 :: List.replicate 31 0, rfl⟩

theorem not_oneName :
    ¬∀ (db : AdminTables) (h : Bytes) (hash : Hash) (r : XorbColumns),
      parseMerkleHashHex h = .ok hash → db.xorbs.find hash = some r → OneName db h hash r := by
  intro hclaim
  have hone := hclaim (adminTables unevenHash) (digestToHex unevenHash) unevenHash adminColumns
    (parseMerkleHashHex_digestToHex unevenHash) (Table.find_insertNew_self _ _ _)
  exact absurd hone.shown (by decide +kernel)

end Core
end OpenWeights
