import OpenWeights.Lib.Base64
import OpenWeights.Lib.Encoding
import OpenWeights.Lib.FileSystem
import OpenWeights.Lib.Hex
import OpenWeights.Lib.Text

/-!
# Env — the `.env` file of the bootstrap

`writeEnv` prints every value as it is, one line for each key; `loadEnv` trims the line and the
value, takes a pair of quotes off and cuts the value at an inline comment.  `Verbatim` says which
values survive the reader, and the file gives back the map it was written from exactly if all its
values do.
-/

namespace OpenWeights
namespace Bench

open Lib

abbrev Bytes := List UInt8

/-! ## Reading -/

def quoted (v : Bytes) : Bool :=
  2 ≤ v.length && (v.head? == some 34 || v.head? == some 39) && v.getLast? == v.head?

/-- The text up to the first `#` that follows a space or a tab. -/
def cutComment : Bytes → Bytes
  | [] => []
  | [c] => [c]
  | c :: d :: rest =>
      if d = 35 ∧ (c = 32 ∨ c = 9) then [c] else c :: cutComment (d :: rest)

def parseEnvValue (raw : Bytes) : Bytes :=
  let v := trimSpace raw
  if quoted v then
    v.tail.dropLast
  else if v.head? = some 35 then
    []
  else
    trimSpace (cutComment v)

/-- What one line of the file does to the map. -/
def loadLine (kv : Table Bytes Bytes) (raw : Bytes) : Table Bytes Bytes :=
  let line := trimSpace raw
  if line = [] ∨ line.head? = some 35 then
    kv
  else
    match cutAt 61 line with
    | none => kv
    | some ([], _) => kv
    | some (name, value) => kv.set (trimSpace name) (parseEnvValue value)

def loadLines (b : Bytes) : Table Bytes Bytes :=
  (b.splitOn 10).foldl loadLine .empty

/-- A missing file reads as an empty map. -/
def loadEnv (fs : FileSystem Bytes) (path : Bytes) : Table Bytes Bytes :=
  match fs.content path with
  | none => .empty
  | some b => loadLines b

/-! ## Writing -/

/-- The comment lines on top of the file, and the empty line below them. -/
def banner : List Bytes :=
  [lit "# OpenWeights .env — written by `make bootstrap`.",
    lit "# CRITICAL: loss of OPENWEIGHTS_RECOVERY_PHRASE = permanent data loss (STORE-04).",
    lit "# Per CONTEXT D-03, the phrase stays in this file permanently.",
    []]

def envLine (r : Bytes × Bytes) : Bytes :=
  r.1 ++ 61 :: r.2

def sortedRows (kv : Table Bytes Bytes) : List (Bytes × Bytes) :=
  kv.rows.mergeSort fun a b => decide (a.1 ≤ b.1)

def envLines (kv : Table Bytes Bytes) : List Bytes :=
  banner ++ (sortedRows kv).map envLine

def envText (kv : Table Bytes Bytes) : Bytes :=
  (envLines kv).flatMap fun line => line ++ [10]

def generateRandomPassword (b : { b : Bytes // b.length = 32 }) : Bytes :=
  hexEncode b.1

def generateSigningKey (b : { b : Bytes // b.length = 32 }) : Bytes :=
  base64StdEncode b.1

/-- The calls of `writeEnv` that can fail. -/
inductive EnvCall where
  | createTemp
  | write
  | chmod
  | close
  | rename
  deriving DecidableEq, Repr

def discard (fs : FileSystem Bytes) (fd : Nat) (tmpPath : Bytes) : FileSystem Bytes :=
  let closed := (fs.close fd).getD fs
  (closed.remove tmpPath).getD closed

/-- Write the map to a temporary file and rename it to `path`.  `tmpPath` is the name that the
temporary file got, `fault` the call that fails. -/
def writeEnv (fault : Option EnvCall) (fs : FileSystem Bytes) (path tmpPath : Bytes)
    (kv : Table Bytes Bytes) : FileSystem Bytes × Option EnvCall :=
  if fault = some .createTemp then
    (fs, some .createTemp)
  else
    let tmp := fs.create tmpPath
    match if fault = some .write then none else tmp.1.write tmp.2 (envText kv) with
    | none => (discard tmp.1 tmp.2 tmpPath, some .write)
    | some fs =>
        if fault = some .chmod then
          (discard fs tmp.2 tmpPath, some .chmod)
        else
          match if fault = some .close then none else fs.close tmp.2 with
          | none => ((fs.remove tmpPath).getD fs, some .close)
          | some fs =>
              match if fault = some .rename then none else fs.rename tmpPath path with
              | none => (fs, some .rename)
              | some fs => (fs, none)

/-! ## Values that read back -/

/-- A value that stands for itself: no white space at its ends, no pair of quotation marks around
it, and nothing in it that starts a comment. -/
structure Verbatim (v : Bytes) : Prop where
  front : ∀ s ∈ spaces, ¬s <+: v
  back : ∀ s ∈ spaces, ¬s <:+ v
  unquoted : ∀ q, q = 34 ∨ q = 39 → ∀ inner, v ≠ q :: inner ++ [q]
  start : ¬[35] <+: v
  comment : ∀ blank, blank = 32 ∨ blank = 9 → ¬[blank, 35] <:+: v

theorem quoted_iff {v : Bytes} :
    quoted v = true ↔ ∃ q, (q = 34 ∨ q = 39) ∧ ∃ inner, v = q :: inner ++ [q] := by
  constructor
  · intro h
    simp only [quoted, Bool.and_eq_true, Bool.or_eq_true, beq_iff_eq, decide_eq_true_eq] at h
    obtain ⟨⟨hlen, hquote⟩, hlast⟩ := h
    cases v with
    | nil => simp at hlen
    | cons q rest =>
        have hrest : rest ≠ [] := by
          rintro rfl
          simp at hlen
        have hlast' : rest.getLast hrest = q := by
          rw [List.getLast?_cons_of_ne_nil hrest, List.getLast?_eq_some_getLast hrest] at hlast
          exact Option.some.inj hlast
        refine ⟨q, by simpa using hquote, rest.dropLast, ?_⟩
        rw [List.cons_append, ← hlast', List.dropLast_append_getLast]
  · rintro ⟨q, hq, inner, rfl⟩
    have hlast : (q :: (inner ++ [q])).getLast? = some q := by
      rw [← List.cons_append]
      exact List.getLast?_concat
    simpa [quoted, hlast] using hq

theorem isPrefix_cutComment (v : Bytes) : cutComment v <+: v := by
  induction v using cutComment.induct with
  | case1 => exact List.prefix_rfl
  | case2 c => exact List.prefix_rfl
  | case3 c d rest hcut =>
      rw [cutComment, if_pos hcut]
      exact ⟨d :: rest, rfl⟩
  | case4 c d rest hcut ih =>
      rw [cutComment, if_neg hcut]
      exact List.cons_prefix_cons.2 ⟨rfl, ih⟩

theorem cutComment_eq_self_iff {v : Bytes} :
    cutComment v = v ↔ ∀ blank, blank = 32 ∨ blank = 9 → ¬[blank, 35] <:+: v := by
  induction v using cutComment.induct with
  | case1 => simp [cutComment]
  | case2 c =>
      refine iff_of_true rfl ?_
      intro blank _ hmem
      have hlen := hmem.length_le
      simp at hlen
  | case3 c d rest hcut =>
      refine iff_of_false ?_ ?_
      · rw [cutComment, if_pos hcut]
        simp
      · intro hnone
        refine hnone c hcut.2 ⟨[], rest, ?_⟩
        rw [hcut.1]
        rfl
  | case4 c d rest hcut ih =>
      rw [cutComment, if_neg hcut, List.cons.injEq, ih]
      constructor
      · rintro ⟨-, hrest⟩ blank hblank hmem
        rcases List.infix_cons_iff.1 hmem with hstart | hmem
        · -- The comment would start at `d`.
          simp only [List.cons_prefix_cons, List.nil_prefix, and_true] at hstart
          exact hcut ⟨hstart.2.symm, hstart.1 ▸ hblank⟩
        · exact hrest blank hblank hmem
      · intro h
        exact ⟨rfl, fun blank hblank hmem => h blank hblank (List.infix_cons hmem)⟩

theorem head?_eq_some_iff_starts {c : UInt8} {v : Bytes} : v.head? = some c ↔ [c] <+: v := by
  cases v with
  | nil => simp
  | cons d rest => simp [eq_comm]

theorem length_parseEnvValue_le (v : Bytes) : (parseEnvValue v).length ≤ (trimSpace v).length := by
  unfold parseEnvValue
  dsimp only
  split
  · rw [List.length_dropLast, List.length_tail]
    omega
  · split
    · exact Nat.zero_le _
    · calc (trimSpace (cutComment (trimSpace v))).length
          ≤ (cutComment (trimSpace v)).length := (isInfix_trimSpace _).length_le
        _ ≤ (trimSpace v).length := (isPrefix_cutComment _).length_le

/-- Exactly the verbatim values are parsed to themselves. -/
theorem parseEnvValue_eq_self_iff {v : Bytes} : parseEnvValue v = v ↔ Verbatim v := by
  constructor
  · intro h
    -- Whatever the reader takes off, it does not put back.
    have htrim : trimSpace v = v := by
      refine (isInfix_trimSpace v).eq_of_length_le ?_
      calc v.length = (parseEnvValue v).length := by rw [h]
        _ ≤ (trimSpace v).length := length_parseEnvValue_le v
    have hends := trimSpace_eq_self_iff.1 htrim
    simp only [parseEnvValue, htrim] at h
    split at h
    · -- Without its quotation marks the value is shorter.
      rename_i hquoted
      obtain ⟨q, -, inner, rfl⟩ := quoted_iff.1 hquoted
      have hlen := congrArg List.length h
      simp only [List.cons_append, List.tail_cons, List.dropLast_concat, List.length_cons,
        List.length_append, List.length_nil] at hlen
      omega
    · rename_i hquoted
      split at h
      · rename_i hstart
        rw [← h] at hstart
        cases hstart
      · rename_i hstart
        have hcut : cutComment v = v := by
          refine (isPrefix_cutComment v).eq_of_length_le ?_
          calc v.length = (trimSpace (cutComment v)).length := by rw [h]
            _ ≤ (cutComment v).length := (isInfix_trimSpace _).length_le
        constructor
        · exact hends.1
        · exact hends.2
        · intro q hq inner hv
          exact hquoted (quoted_iff.2 ⟨q, hq, inner, hv⟩)
        · exact fun hprefix => hstart (head?_eq_some_iff_starts.2 hprefix)
        · exact cutComment_eq_self_iff.1 hcut
  · intro h
    have htrim : trimSpace v = v := trimSpace_eq_self_iff.2 ⟨h.front, h.back⟩
    have hquoted : ¬quoted v = true := by
      intro hquoted
      obtain ⟨q, hq, inner, hv⟩ := quoted_iff.1 hquoted
      exact h.unquoted q hq inner hv
    have hstart : ¬v.head? = some 35 := fun hhead => h.start (head?_eq_some_iff_starts.1 hhead)
    have hcut : cutComment v = v := cutComment_eq_self_iff.2 h.comment
    simp only [parseEnvValue, htrim, if_neg hquoted, if_neg hstart, hcut]

/-- Words without a `#` that neither start with white space or a quotation mark nor end with white
space: recovery phrases, and the secrets that the bootstrap draws. -/
theorem verbatim_of_ends {v : Bytes} (hhash : 35 ∉ v)
    (hhead : ∀ c ∈ v.head?, solid c = true ∧ c ≠ 34 ∧ c ≠ 39)
    (hlast : ∀ c ∈ v.getLast?, solid c = true) : Verbatim v where
  front := by
    intro s hs hstarts
    cases v with
    | nil => exact spaces_ne_nil s hs (List.prefix_nil.1 hstarts)
    | cons c rest => exact not_prefix_of_solid (hhead c rfl).1 rest s hs hstarts
  back := by
    intro s hs hends
    have hmem : s.reverse ∈ spaces.map List.reverse := List.mem_map_of_mem hs
    have hstarts : s.reverse <+: v.reverse := List.reverse_prefix.2 hends
    rcases List.eq_nil_or_concat' v with rfl | ⟨front, c, rfl⟩
    · exact spaces_reverse_ne_nil _ hmem (List.prefix_nil.1 hstarts)
    · rw [List.reverse_append] at hstarts
      exact not_prefix_reverse_of_solid (hlast c List.getLast?_concat) _ _ hmem hstarts
  unquoted := by
    rintro q hq inner rfl
    rcases hq with rfl | rfl
    · exact (hhead 34 rfl).2.1 rfl
    · exact (hhead 39 rfl).2.2 rfl
  start := fun hstart => hhash (hstart.subset List.mem_cons_self)
  comment := fun blank _ hcomment => hhash (hcomment.subset (by simp))

/-- A byte that neither blanks nor comments nor quotes anything. -/
def plain (c : UInt8) : Bool :=
  solid c && c != 34 && c != 35 && c != 39

theorem verbatim_of_plain {v : Bytes} (h : ∀ c ∈ v, plain c = true) : Verbatim v := by
  have hparts : ∀ c ∈ v, ((solid c = true ∧ c ≠ 34) ∧ c ≠ 35) ∧ c ≠ 39 := by
    simpa only [plain, Bool.and_eq_true, bne_iff_ne] using h
  apply verbatim_of_ends
  · exact fun hmem => (hparts 35 hmem).1.2 rfl
  · intro c hc
    have hplain := hparts c (List.mem_of_mem_head? hc)
    exact ⟨hplain.1.1.1, hplain.1.1.2, hplain.2⟩
  · intro c hc
    exact (hparts c (List.mem_of_mem_getLast? hc)).1.1.1

/-- The secrets that the bootstrap draws itself read back. -/
theorem verbatim_generated (b : { b : Bytes // b.length = 32 }) :
    Verbatim (generateRandomPassword b) ∧ Verbatim (generateSigningKey b) := by
  have hhex : ∀ c, isHexDigit c = true → plain c = true := by
    refine forall_byte ?_
    decide +kernel
  have hbase64 : ∀ n < 64, plain (base64StdDigit n) = true := by decide +kernel
  constructor
  · apply verbatim_of_plain
    intro c hc
    have hread : (hexDecode (hexEncode b.1)).isSome := by rw [hexDecode_hexEncode]; rfl
    exact hhex c ((isSome_hexDecode_iff.1 hread).2 c hc)
  · apply verbatim_of_plain
    intro c hc
    rcases List.mem_append.1 hc with hc | hc
    · obtain ⟨n, hn, rfl⟩ := List.mem_map.1 hc
      exact hbase64 n (sextets_lt b.1 n hn)
    · rw [List.eq_of_mem_replicate hc]
      decide

/-! ## Lines -/

def isIdentByte (c : UInt8) : Bool :=
  (48 ≤ c && c ≤ 57) || (65 ≤ c && c ≤ 90) || c == 95 || (97 ≤ c && c ≤ 122)

structure Identifier (k : Bytes) : Prop where
  ne_nil : k ≠ []
  bytes : ∀ c ∈ k, isIdentByte c = true

instance (k : Bytes) : Decidable (Identifier k) :=
  decidable_of_iff (k ≠ [] ∧ k.all isIdentByte = true)
    ⟨fun h => ⟨h.1, List.all_eq_true.1 h.2⟩, fun h => ⟨h.ne_nil, List.all_eq_true.2 h.bytes⟩⟩

theorem solid_of_isIdentByte {c : UInt8} (hc : isIdentByte c = true) :
    solid c = true ∧ c ≠ 35 ∧ c ≠ 61 ∧ c ≠ 10 := by
  have hall : ∀ c, isIdentByte c = true → solid c = true ∧ c ≠ 35 ∧ c ≠ 61 ∧ c ≠ 10 := by
    refine forall_byte ?_
    decide +kernel
  exact hall c hc

/-- The line of an identifier sets its value, as the reader parses it. -/
theorem loadLine_envLine {r : Bytes × Bytes} (hkey : Identifier r.1) (kv : Table Bytes Bytes) :
    loadLine kv (envLine r) = kv.set r.1 (parseEnvValue (trimBack r.2)) := by
  obtain ⟨k, v⟩ := r
  have hspaces : ∀ s ∈ spaces, (61 : UInt8) ∉ s := by decide
  have hkeyTrim : trimSpace k = k :=
    trimSpace_of_solid fun c hc => (solid_of_isIdentByte (hkey.bytes c hc)).1
  have hsep : 61 ∉ k := fun hmem => (solid_of_isIdentByte (hkey.bytes 61 hmem)).2.2.1 rfl
  have hcut : cutAt 61 (k ++ 61 :: trimBack v) = some (k, trimBack v) := cutAt_append hsep _
  cases k with
  | nil => exact absurd rfl hkey.ne_nil
  | cons d front =>
      have hd := solid_of_isIdentByte (hkey.bytes d List.mem_cons_self)
      have htrim : trimSpace (envLine (d :: front, v)) = d :: front ++ 61 :: trimBack v :=
        trimSpace_append hd.1 hspaces front v
      have hcontent : ¬(d :: front ++ 61 :: trimBack v = [] ∨
          (d :: front ++ 61 :: trimBack v).head? = some 35) := by
        rintro (hnil | hhash)
        · cases hnil
        · exact hd.2.1 (Option.some.inj hhash)
      simp only [loadLine, htrim, if_neg hcontent, hcut, hkeyTrim]

/-- The value of a line is read back exactly if it is verbatim. -/
theorem parseEnvValue_trimBack_eq_iff {v : Bytes} :
    parseEnvValue (trimBack v) = v ↔ Verbatim v := by
  constructor
  · intro h
    have hback : trimBack v = v := by
      refine (isPrefix_trimBack v).eq_of_length_le ?_
      calc v.length = (parseEnvValue (trimBack v)).length := by rw [h]
        _ ≤ (trimSpace (trimBack v)).length := length_parseEnvValue_le _
        _ ≤ (trimBack v).length := (isInfix_trimSpace _).length_le
    rw [hback] at h
    exact parseEnvValue_eq_self_iff.1 h
  · intro h
    rw [trimBack_eq_self_iff.2 h.back]
    exact parseEnvValue_eq_self_iff.2 h

/-- The comment lines and the empty lines of the file set nothing. -/
theorem loadLine_banner (kv : Table Bytes Bytes) {line : Bytes} (h : line ∈ banner) :
    loadLine kv line = kv := by
  have hskip : ∀ line ∈ banner, trimSpace line = [] ∨ (trimSpace line).head? = some 35 := by
    decide +kernel
  simp only [loadLine, if_pos (hskip line h)]

/-! ## The whole file -/

/-- A map that the bootstrap keeps: identifiers as keys, each value on one line. -/
structure EnvMap where
  table : Table Bytes Bytes
  identifier : ∀ r ∈ table.rows, Identifier r.1
  single_line : ∀ r ∈ table.rows, 10 ∉ r.2

theorem mem_sortedRows {kv : Table Bytes Bytes} {r : Bytes × Bytes} :
    r ∈ sortedRows kv ↔ r ∈ kv.rows :=
  (List.mergeSort_perm kv.rows _).mem_iff

/-- Every line ends with a line feed, so the text splits into the lines and an empty rest. -/
theorem splitOn_lines {lines : List Bytes} (h : ∀ line ∈ lines, 10 ∉ line) :
    (lines.flatMap fun line => line ++ [10]).splitOn 10 = lines ++ [[]] := by
  induction lines with
  | nil => rfl
  | cons line lines ih =>
      have hline := h line List.mem_cons_self
      have hrest := ih fun l hl => h l (List.mem_cons_of_mem line hl)
      rw [List.flatMap_cons, List.append_assoc, List.singleton_append,
        List.splitOn_append_cons_self_of_not_mem hline, hrest, List.cons_append]

theorem not_mem_envLines (kv : EnvMap) : ∀ line ∈ envLines kv.table, 10 ∉ line := by
  have hbanner : ∀ line ∈ banner, (10 : UInt8) ∉ line := by decide +kernel
  intro line hline
  rcases List.mem_append.1 hline with hline | hline
  · exact hbanner line hline
  · obtain ⟨r, hr, rfl⟩ := List.mem_map.1 hline
    have hrow := mem_sortedRows.1 hr
    have hident := kv.identifier r hrow
    intro hmem
    rcases List.mem_append.1 hmem with hkey | hvalue
    · exact (solid_of_isIdentByte (hident.bytes 10 hkey)).2.2.2 rfl
    · rcases List.mem_cons.1 hvalue with hsep | hvalue
      · cases hsep
      · exact kv.single_line r hrow hvalue

theorem foldl_loadLine_banner (kv : Table Bytes Bytes) : banner.foldl loadLine kv = kv := by
  have hskip : ∀ lines ⊆ banner, lines.foldl loadLine kv = kv := by
    intro lines hlines
    induction lines with
    | nil => rfl
    | cons line lines ih =>
        rw [List.foldl_cons, loadLine_banner kv (hlines List.mem_cons_self)]
        exact ih fun l hl => hlines (List.mem_cons_of_mem line hl)
  exact hskip banner (List.Subset.refl banner)

/-- The lines of the rows set their keys, one after the other. -/
theorem foldl_loadLine_envLine {rows : List (Bytes × Bytes)} (h : ∀ r ∈ rows, Identifier r.1)
    (kv : Table Bytes Bytes) :
    (rows.map envLine).foldl loadLine kv =
      kv.setAll (rows.map fun r => (r.1, parseEnvValue (trimBack r.2))) := by
  induction rows generalizing kv with
  | nil => rfl
  | cons r rows ih =>
      have hrow := loadLine_envLine (h r List.mem_cons_self) kv
      rw [List.map_cons, List.foldl_cons, hrow, List.map_cons, Table.setAll_cons]
      exact ih (fun r' hr' => h r' (List.mem_cons_of_mem r hr')) _

theorem loadLines_envText (kv : EnvMap) :
    loadLines (envText kv.table) = Table.empty.setAll
      ((sortedRows kv.table).map fun r => (r.1, parseEnvValue (trimBack r.2))) := by
  have hident : ∀ r ∈ sortedRows kv.table, Identifier r.1 :=
    fun r hr => kv.identifier r (mem_sortedRows.1 hr)
  rw [loadLines, envText, splitOn_lines (not_mem_envLines kv), envLines, List.foldl_append,
    List.foldl_append, foldl_loadLine_banner, foldl_loadLine_envLine hident]
  rfl

/-- The file reads as the map it was written from exactly if all values are verbatim. -/
theorem find_loadLines_envText_iff (kv : EnvMap) :
    (∀ k, (loadLines (envText kv.table)).find k = kv.table.find k) ↔
      ∀ r ∈ kv.table.rows, Verbatim r.2 := by
  have hkeys : ((sortedRows kv.table).map fun r => (r.1, parseEnvValue (trimBack r.2))).map
      Prod.fst = (sortedRows kv.table).map Prod.fst := by
    rw [List.map_map]
    rfl
  have hnodup : ((sortedRows kv.table).map Prod.fst).Nodup :=
    (((List.mergeSort_perm kv.table.rows _).map Prod.fst).nodup_iff).2 kv.table.nodupKeys
  have hfind : ∀ k v, (loadLines (envText kv.table)).find k = some v ↔
      ∃ r ∈ kv.table.rows, r.1 = k ∧ parseEnvValue (trimBack r.2) = v := by
    intro k v
    rw [loadLines_envText, Table.find_setAll_eq_some_iff (hkeys ▸ hnodup)]
    simp [Table.empty, Table.find, mem_sortedRows]
  constructor
  · intro h r hr
    have hrow : kv.table.find r.1 = some r.2 := Table.find_eq_some_iff.2 hr
    obtain ⟨r', hr', hkey, hvalue⟩ := (hfind r.1 r.2).1 ((h r.1).trans hrow)
    -- The key has one row, so the value read is the value of this row.
    have hrow' : kv.table.find r.1 = some r'.2 := Table.find_eq_some_iff.2 (hkey ▸ hr')
    have hsame : r'.2 = r.2 := Option.some.inj (hrow'.symm.trans hrow)
    rw [hsame] at hvalue
    exact parseEnvValue_trimBack_eq_iff.1 hvalue
  · intro h k
    refine Option.ext fun v => ?_
    rw [hfind, Table.find_eq_some_iff]
    constructor
    · rintro ⟨r, hr, rfl, rfl⟩
      rw [parseEnvValue_trimBack_eq_iff.2 (h r hr)]
      exact hr
    · intro hr
      exact ⟨(k, v), hr, rfl, parseEnvValue_trimBack_eq_iff.2 (h _ hr)⟩

/-! ## Writing the file -/

/-- If no call fails, the file holds the text. -/
theorem writeEnv_none (fs : FileSystem Bytes) (path tmpPath : Bytes) (kv : Table Bytes Bytes) :
    ∃ fs', writeEnv none fs path tmpPath kv = (fs', none) ∧
      fs'.content path = some (envText kv) := by
  obtain ⟨written, hwrite, hholds⟩ :=
    (FileSystem.holds_create fs tmpPath).write (envText kv)
  obtain ⟨closed, hclose, hcontent⟩ := hholds.close
  obtain ⟨renamed, hrename, hpath⟩ := FileSystem.rename_of_content path hcontent
  refine ⟨renamed, ?_, hpath⟩
  simp [writeEnv, hwrite, hclose, hrename]

/-- Nothing that was there is touched, the name of the temporary file apart. -/
def Untouched (fs fs' : FileSystem Bytes) (tmpPath : Bytes) : Prop :=
  FileSystem.Frame fs fs' {tmpPath} {n | fs.inodes.length ≤ n} Set.univ

namespace Untouched

variable {fs fs' fs'' : FileSystem Bytes} {path tmpPath : Bytes}

theorem trans (h : Untouched fs fs' tmpPath)
    (h' : FileSystem.Frame fs' fs'' {tmpPath} {n | fs.inodes.length ≤ n} Set.univ) :
    Untouched fs fs'' tmpPath :=
  FileSystem.Frame.trans h h'

theorem content_eq (h : Untouched fs fs' tmpPath) (hne : path ≠ tmpPath) :
    fs'.content path = fs.content path :=
  FileSystem.Frame.content_eq h hne fun _ hfind => Nat.not_le.2 (fs.lt_of_find hfind)

theorem create (hfresh : fs.names.find tmpPath = none) :
    Untouched fs (fs.create tmpPath).1 tmpPath := by
  refine (FileSystem.frame_create fs tmpPath).mono (Set.Subset.refl _) ?_ (Set.empty_subset _)
  intro n hn
  exact absurd (hfresh.symm.trans hn) nofun

theorem remove (h : Untouched fs fs' tmpPath) :
    Untouched fs ((fs'.remove tmpPath).getD fs') tmpPath := by
  cases hremove : fs'.remove tmpPath with
  | none => exact h
  | some removed =>
      exact h.trans ((FileSystem.frame_remove hremove).mono (Set.Subset.refl _)
        (Set.empty_subset _) (Set.empty_subset _))

theorem close {fd : Nat} (h : Untouched fs fs' tmpPath) (hclose : fs'.close fd = some fs'') :
    Untouched fs fs'' tmpPath :=
  h.trans ((FileSystem.frame_close hclose).mono (Set.empty_subset _) (Set.empty_subset _)
    (Set.subset_univ _))

theorem discard {fd : Nat} (h : Untouched fs fs' tmpPath) :
    Untouched fs (discard fs' fd tmpPath) tmpPath := by
  unfold Bench.discard
  cases hclose : fs'.close fd with
  | none => exact h.remove
  | some closed => exact (h.close hclose).remove

end Untouched

/-- Whatever call fails, the file is either replaced as a whole or left as it was. -/
theorem writeEnv_atomic (fault : Option EnvCall) {fs : FileSystem Bytes} {path tmpPath : Bytes}
    (hfresh : fs.names.find tmpPath = none) (hne : path ≠ tmpPath) (kv : Table Bytes Bytes) :
    ((writeEnv fault fs path tmpPath kv).2 = none ∧
        (writeEnv fault fs path tmpPath kv).1.content path = some (envText kv)) ∨
      ((writeEnv fault fs path tmpPath kv).2 = fault ∧
        (writeEnv fault fs path tmpPath kv).1.content path = fs.content path) := by
  have hcreate : Untouched fs (fs.create tmpPath).1 tmpPath := .create hfresh
  obtain ⟨written, hwrite, hholds⟩ :=
    (FileSystem.holds_create fs tmpPath).write (envText kv)
  obtain ⟨closed, hclose, hcontent⟩ := hholds.close
  have hwritten : Untouched fs written tmpPath := by
    obtain ⟨inode, hfind, hfd⟩ := (FileSystem.holds_create fs tmpPath).file_eq
    -- The write goes to an inode that was not there before.
    have hnew : fs.inodes.length ≤ inode := by
      rcases FileSystem.find_create fs tmpPath hfind with hold | hnew
      · exact absurd (hfresh.symm.trans hold) nofun
      · exact hnew.ge
    refine hcreate.trans ((FileSystem.frame_write hwrite hfd).mono (Set.empty_subset _) ?_
      (Set.subset_univ _))
    rintro n rfl
    exact hnew
  have hclosed := hwritten.close hclose
  cases fault with
  | none =>
      obtain ⟨fs', hrun, hpath⟩ := writeEnv_none fs path tmpPath kv
      rw [hrun]
      exact .inl ⟨rfl, hpath⟩
  | some call =>
      refine .inr ?_
      cases call with
      | createTemp => exact ⟨rfl, rfl⟩
      | write => exact ⟨rfl, hcreate.discard.content_eq hne⟩
      | chmod => simpa [writeEnv, hwrite] using hwritten.discard.content_eq hne
      | close => simpa [writeEnv, hwrite] using hwritten.remove.content_eq hne
      | rename => simpa [writeEnv, hwrite, hclose] using hclosed.content_eq hne

/-! ## The round trip -/

def RoundTrips (fs : FileSystem Bytes) (path tmpPath : Bytes) (kv : Table Bytes Bytes) : Prop :=
  ∃ fs', writeEnv none fs path tmpPath kv = (fs', none) ∧
    ∀ k, (loadEnv fs' path).find k = kv.find k

/-- A map survives exactly if each of its values is verbatim. -/
theorem roundTrips_iff (fs : FileSystem Bytes) (path tmpPath : Bytes) (kv : EnvMap) :
    RoundTrips fs path tmpPath kv.table ↔ ∀ r ∈ kv.table.rows, Verbatim r.2 := by
  obtain ⟨fs', hrun, hcontent⟩ := writeEnv_none fs path tmpPath kv.table
  have hload : loadEnv fs' path = loadLines (envText kv.table) := by
    rw [loadEnv, hcontent]
  rw [← find_loadLines_envText_iff]
  constructor
  · rintro ⟨fs'', hrun', hfind⟩
    rw [hrun] at hrun'
    cases hrun'
    rwa [hload] at hfind
  · intro hfind
    exact ⟨fs', hrun, by rwa [hload]⟩

/-- An `.env` with one password, in which a `#` follows a space. -/
def sampleEnv : EnvMap where
  table := Table.empty.set (lit "REDIS_PASSWORD") (lit "p4ss #1")
  identifier := by decide +kernel
  single_line := by decide +kernel

/-- The password is read back without its end. -/
theorem not_roundTrips_sampleEnv :
    ¬RoundTrips .empty (lit ".env") (lit ".env.tmp.1") sampleEnv.table := by
  rintro ⟨fs', hrun, hfind⟩
  have hloaded : (loadEnv (writeEnv none .empty (lit ".env") (lit ".env.tmp.1")
      sampleEnv.table).1 (lit ".env")).find (lit "REDIS_PASSWORD") = some (lit "p4ss") := by
    decide +kernel
  have hkept : sampleEnv.table.find (lit "REDIS_PASSWORD") = some (lit "p4ss #1") := by
    decide +kernel
  rw [hrun, hfind, hkept] at hloaded
  exact absurd hloaded (by decide +kernel)

end Bench
end OpenWeights
