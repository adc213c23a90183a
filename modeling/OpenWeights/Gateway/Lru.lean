import OpenWeights.Gateway.Serving

/-!
# Lru — the index of the cache and its recency list

The map, the linked list and the byte counter of `Cache` are updated together: `Booked` says how
they belong together, and every method keeps it.  `evictLocked` takes the shortest suffix of the
list off that brings the total down to the budget.

Over a history of `Open` and `Put` calls, one after another, the list is ordered by the last time
a `Put` of the hash succeeded or an `Open` found it in the index (`lru_of_history`).
-/

namespace OpenWeights
namespace Gateway

open Lib Db OpenWeights.Core

/-! ## Map, list and counter -/

def total (nodes : List Element) : Int :=
  (nodes.map fun e => e.value.size).sum

@[simp] theorem total_nil : total [] = 0 := rfl

@[simp] theorem total_cons (e : Element) (nodes : List Element) :
    total (e :: nodes) = e.value.size + total nodes := by
  simp [total]

@[simp] theorem total_append (nodes nodes' : List Element) :
    total (nodes ++ nodes') = total nodes + total nodes' := by
  simp [total]

theorem total_perm {nodes nodes' : List Element} (h : nodes.Perm nodes') :
    total nodes = total nodes' :=
  (h.map _).sum_eq

namespace Cache

/-- Keys of the map and nodes of the list correspond to each other, with equal hashes, and the
counter has the bytes of the list. -/
structure Booked (c : Cache) : Prop where
  node : ∀ e ∈ c.lru, c.index.find e.value.hash = some e
  entry : ∀ hash e, c.index.find hash = some e → e ∈ c.lru ∧ e.value.hash = hash
  ids : (c.lru.map Element.id).Nodup
  id_lt : ∀ e ∈ c.lru, e.id < c.nextId
  bytes : c.bytesUsed = total c.lru

theorem Booked.new (maxBytes : Int) : (Cache.new maxBytes).Booked where
  node := nofun
  entry := nofun
  ids := List.nodup_nil
  id_lt := nofun
  bytes := rfl

section Remove

variable {lru : List Element} {e n : Element}

theorem mem_removeElement : n ∈ removeElement lru e ↔ n ∈ lru ∧ n.id ≠ e.id := by
  simp [removeElement]

/-- A node is taken off, and only that one. -/
theorem removeElement_append {front back : List Element}
    (hids : ((front ++ e :: back).map Element.id).Nodup) :
    removeElement (front ++ e :: back) e = front ++ back := by
  rw [List.map_append, List.map_cons] at hids
  have hfront : ∀ n ∈ front, n.id ≠ e.id := by
    intro n hn hEq
    exact (List.nodup_append.1 hids).2.2 n.id (List.mem_map_of_mem hn) e.id List.mem_cons_self hEq
  have hback : ∀ n ∈ back, n.id ≠ e.id := by
    intro n hn hEq
    refine (List.nodup_cons.1 (List.nodup_append.1 hids).2.1).1 ?_
    rw [← hEq]
    exact List.mem_map_of_mem hn
  have hkeep : ∀ nodes : List Element, (∀ n ∈ nodes, n.id ≠ e.id) →
      nodes.filter (fun n => n.id ≠ e.id) = nodes := by
    intro nodes hnodes
    exact List.filter_eq_self.2 fun n hn => by simpa using hnodes n hn
  unfold removeElement
  rw [List.filter_append, List.filter_cons_of_neg (by simp), hkeep front hfront, hkeep back hback]

theorem perm_cons_removeElement (hids : (lru.map Element.id).Nodup) (he : e ∈ lru) :
    lru.Perm (e :: removeElement lru e) := by
  obtain ⟨front, back, rfl⟩ := List.append_of_mem he
  rw [removeElement_append hids]
  exact List.perm_middle

theorem sublist_removeElement : (removeElement lru e).Sublist lru :=
  List.filter_sublist

end Remove

section Methods

variable {c c' : Cache}

/-- Only what the map answers matters. -/
theorem Booked.of_find (h : c.Booked) (hindex : ∀ hash, c'.index.find hash = c.index.find hash)
    (hlru : c'.lru.Perm c.lru) (hbytes : c'.bytesUsed = c.bytesUsed)
    (hnext : c'.nextId = c.nextId) : c'.Booked where
  node := by
    intro e he
    rw [hindex]
    exact h.node e (hlru.mem_iff.1 he)
  entry := by
    intro hash e hfind
    rw [hindex] at hfind
    obtain ⟨hmem, hhash⟩ := h.entry hash e hfind
    exact ⟨hlru.mem_iff.2 hmem, hhash⟩
  ids := (hlru.map Element.id).nodup_iff.2 h.ids
  id_lt := by
    intro e he
    rw [hnext]
    exact h.id_lt e (hlru.mem_iff.1 he)
  bytes := by rw [hbytes, h.bytes, total_perm hlru]

/-- Two nodes of one hash are one node. -/
theorem Booked.hash_inj (h : c.Booked) {e n : Element} (he : e ∈ c.lru) (hn : n ∈ c.lru)
    (hEq : e.value.hash = n.value.hash) : e = n := by
  have hfind := h.node e he
  rw [hEq, h.node n hn] at hfind
  exact (Option.some.inj hfind).symm

theorem Booked.id_inj (h : c.Booked) {e n : Element} (he : e ∈ c.lru) (hn : n ∈ c.lru)
    (hEq : e.id = n.id) : e = n :=
  List.inj_on_of_nodup_map h.ids he hn hEq

/-- An empty list has no entry for any hash. -/
theorem Booked.find_of_lru_nil (h : c.Booked) (hnil : c.lru = []) (hash : Bytes) :
    c.index.find hash = none := by
  cases hfind : c.index.find hash with
  | none => rfl
  | some e =>
      have hmem := (h.entry hash e hfind).1
      rw [hnil] at hmem
      cases hmem

def without (c : Cache) (e : Element) : Cache :=
  { c with
    bytesUsed := c.bytesUsed - e.value.size
    lru := removeElement c.lru e
    index := c.index.erase e.value.hash }

theorem Booked.without (h : c.Booked) {e : Element} (he : e ∈ c.lru) : (c.without e).Booked where
  node := by
    intro n hn
    obtain ⟨hmem, hid⟩ := mem_removeElement.1 hn
    have hhash : n.value.hash ≠ e.value.hash := by
      intro hEq
      exact hid (congrArg Element.id (h.hash_inj hmem he hEq))
    change (c.index.erase e.value.hash).find n.value.hash = some n
    rw [Table.find_erase, if_neg hhash]
    exact h.node n hmem
  entry := by
    intro hash n hfind
    change (c.index.erase e.value.hash).find hash = some n at hfind
    rw [Table.find_erase] at hfind
    split at hfind
    · cases hfind
    · rename_i hhash
      obtain ⟨hmem, rfl⟩ := h.entry hash n hfind
      refine ⟨mem_removeElement.2 ⟨hmem, ?_⟩, rfl⟩
      intro hid
      exact hhash (congrArg (fun e => e.value.hash) (h.id_inj hmem he hid))
  ids := h.ids.sublist (sublist_removeElement.map Element.id)
  id_lt := fun n hn => h.id_lt n (mem_of_mem_removeElement hn)
  bytes := by
    have hperm := total_perm (perm_cons_removeElement h.ids he)
    have hbytes := h.bytes
    rw [total_cons] at hperm
    change c.bytesUsed - e.value.size = total (removeElement c.lru e)
    omega

def pushFront (c : Cache) (entry : CacheEntry) : Cache :=
  { c with
    bytesUsed := c.bytesUsed + entry.size
    lru := ⟨c.nextId, entry⟩ :: c.lru
    index := c.index.set entry.hash ⟨c.nextId, entry⟩
    nextId := c.nextId + 1 }

theorem Booked.pushFront (h : c.Booked) {entry : CacheEntry}
    (hnew : c.index.find entry.hash = none) : (c.pushFront entry).Booked where
  node := by
    intro n hn
    change (c.index.set entry.hash ⟨c.nextId, entry⟩).find n.value.hash = some n
    rcases List.mem_cons.1 hn with rfl | hn
    · exact Table.find_set_self _ _ _
    · have hfind := h.node n hn
      -- The pushed hash was not indexed, so no older node has it.
      have hhash : n.value.hash ≠ entry.hash := by
        intro hEq
        rw [hEq, hnew] at hfind
        cases hfind
      rw [Table.find_set_of_ne _ _ hhash]
      exact hfind
  entry := by
    intro hash n hfind
    change (c.index.set entry.hash ⟨c.nextId, entry⟩).find hash = some n at hfind
    by_cases hhash : hash = entry.hash
    · subst hhash
      rw [Table.find_set_self] at hfind
      cases hfind
      exact ⟨List.mem_cons_self, rfl⟩
    · rw [Table.find_set_of_ne _ _ hhash] at hfind
      obtain ⟨hmem, hEq⟩ := h.entry hash n hfind
      exact ⟨List.mem_cons_of_mem _ hmem, hEq⟩
  ids := by
    change (c.nextId :: c.lru.map Element.id).Nodup
    refine List.nodup_cons.2 ⟨?_, h.ids⟩
    intro hmem
    obtain ⟨n, hn, hid⟩ := List.mem_map.1 hmem
    have hlt := h.id_lt n hn
    omega
  id_lt := by
    intro n hn
    change n.id < c.nextId + 1
    rcases List.mem_cons.1 hn with rfl | hn
    · exact Nat.lt_succ_self _
    · have hlt := h.id_lt n hn
      omega
  bytes := by
    change c.bytesUsed + entry.size = total (⟨c.nextId, entry⟩ :: c.lru)
    rw [total_cons, h.bytes]
    exact Int.add_comm _ _

/-! ## The methods -/

theorem Booked.lookup (h : c.Booked) (hash : Bytes) : (c.lookup hash).1.Booked := by
  unfold Cache.lookup
  split
  · exact h
  · rename_i elem hfind
    obtain ⟨hmem, -⟩ := h.entry hash elem hfind
    refine h.of_find (fun _ => rfl) ?_ rfl rfl
    simp only [moveToFront, hmem, if_true]
    exact (perm_cons_removeElement h.ids hmem).symm

/-- The entry of the hash, when the stale path is its path, is dropped. -/
theorem dropStale_cases (h : c.Booked) (hash : Bytes) (path : Path) :
    c.dropStale hash path = c ∨
      ∃ e, c.index.find hash = some e ∧ e.value.path = path ∧
        c.dropStale hash path = c.without e := by
  unfold Cache.dropStale
  split
  · exact .inl rfl
  · rename_i elem hfind
    split
    · rename_i hpath
      obtain ⟨-, rfl⟩ := h.entry hash elem hfind
      exact .inr ⟨elem, hfind, hpath, rfl⟩
    · exact .inl rfl

theorem Booked.dropStale (h : c.Booked) (hash : Bytes) (path : Path) :
    (c.dropStale hash path).Booked := by
  rcases dropStale_cases h hash path with hEq | ⟨e, hfind, -, hEq⟩
  · rwa [hEq]
  · rw [hEq]
    exact h.without (h.entry hash e hfind).1

def others (c : Cache) (hash : Bytes) : List Element :=
  c.lru.filter fun e => e.value.hash ≠ hash

theorem Booked.others_eq (h : c.Booked) {e : Element} (he : e ∈ c.lru) :
    removeElement c.lru e = c.others e.value.hash := by
  refine List.filter_congr ?_
  intro n hn
  have hiff : n.id = e.id ↔ n.value.hash = e.value.hash := by
    refine ⟨?_, ?_⟩
    · intro hid
      rw [h.id_inj hn he hid]
    · intro hhash
      rw [h.hash_inj hn he hhash]
  simp [hiff]

theorem Booked.others_of_none (h : c.Booked) {hash : Bytes} (hnone : c.index.find hash = none) :
    c.others hash = c.lru := by
  refine List.filter_eq_self.2 ?_
  intro e he
  have hne : e.value.hash ≠ hash := by
    rintro rfl
    rw [h.node e he] at hnone
    cases hnone
  simpa using hne

/-- `Put` replaces the entry of its hash by a new one in front. -/
theorem Booked.record (h : c.Booked) (hash : Bytes) (size : Int) (path : Path) :
    (c.record hash size path).Booked ∧
      (c.record hash size path).lru = ⟨c.nextId, ⟨hash, size, path⟩⟩ :: c.others hash ∧
      (c.record hash size path).maxBytes = c.maxBytes ∧
      ∀ key, (c.record hash size path).index.find key =
        if key = hash then some ⟨c.nextId, ⟨hash, size, path⟩⟩ else c.index.find key := by
  have hfind : ∀ (t : Table Bytes Element) (e : Element) (key : Bytes), t = c.index →
      (t.set hash e).find key = if key = hash then some e else c.index.find key := by
    rintro t e key rfl
    by_cases hkey : key = hash
    · subst hkey
      simp
    · rw [Table.find_set_of_ne _ _ hkey, if_neg hkey]
  unfold Cache.record
  split
  · rename_i existing hexisting
    obtain ⟨hmem, rfl⟩ := h.entry hash existing hexisting
    have hbooked : ((c.without existing).pushFront ⟨existing.value.hash, size, path⟩).Booked :=
      (h.without hmem).pushFront ((Table.find_erase _ _ _).trans (if_pos rfl))
    refine ⟨?_, ?_, rfl, fun key => hfind _ _ key rfl⟩
    · refine hbooked.of_find ?_ (List.Perm.refl _) rfl rfl
      intro key
      simp only [hfind _ _ key rfl]
      change _ = ((c.index.erase existing.value.hash).set existing.value.hash _).find key
      by_cases hkey : key = existing.value.hash
      · subst hkey
        simp [Cache.without]
      · rw [Table.find_set_of_ne _ _ hkey, Table.find_erase, if_neg hkey, if_neg hkey]
    · exact congrArg (List.cons _) (h.others_eq hmem)
  · rename_i hnone
    have hbooked : (c.pushFront ⟨hash, size, path⟩).Booked := h.pushFront hnone
    refine ⟨hbooked, ?_, rfl, fun key => hfind _ _ key rfl⟩
    exact congrArg (List.cons _) (h.others_of_none hnone).symm

/-! ## Eviction -/

/-- `kept` is what is left of `nodes` when the shortest suffix goes that brings the total down to
the budget; `gone` is that suffix. -/
structure Evicts (maxBytes : Int) (nodes kept gone : List Element) : Prop where
  split : nodes = kept ++ gone
  fits : total kept ≤ maxBytes
  shortest : ∀ front rest, nodes = front ++ rest → total front ≤ maxBytes →
    front.length ≤ kept.length

theorem evictLoop_over {fuel : Nat} {back : Element} (hover : c.maxBytes < c.bytesUsed)
    (hlast : c.lru.getLast? = some back) :
    Cache.evictLoop (fuel + 1) c =
      ((Cache.evictLoop fuel (c.without back)).1,
        back.value.path :: (Cache.evictLoop fuel (c.without back)).2) := by
  rw [Cache.evictLoop, if_pos hover]
  simp only [hlast]
  rfl

theorem evictLoop_fits {fuel : Nat} (hle : c.bytesUsed ≤ c.maxBytes) :
    Cache.evictLoop fuel c = (c, []) := by
  cases fuel with
  | zero => rfl
  | succ fuel => rw [Cache.evictLoop, if_neg (by omega)]

/-- The last node goes, then what else has to go. -/
theorem Evicts.concat {maxBytes : Int} {front kept gone : List Element} {back : Element}
    (h : Evicts maxBytes front kept gone) (hover : maxBytes < total (front ++ [back])) :
    Evicts maxBytes (front ++ [back]) kept (gone ++ [back]) where
  split := by rw [h.split, List.append_assoc]
  fits := h.fits
  shortest := by
    intro front' rest hsplit hle
    rcases List.eq_nil_or_concat rest with rfl | ⟨rest', last, rfl⟩
    · rw [hsplit, List.append_nil] at hover
      omega
    · rw [List.concat_eq_append, ← List.append_assoc] at hsplit
      exact h.shortest front' rest' (List.append_inj_left' hsplit rfl) hle

theorem Booked.evictLoop_of_fits {fuel : Nat} (h : c.Booked) (hle : c.bytesUsed ≤ c.maxBytes) :
    (Cache.evictLoop fuel c).1.Booked ∧ (Cache.evictLoop fuel c).1.maxBytes = c.maxBytes ∧
      ∃ gone, Evicts c.maxBytes c.lru (Cache.evictLoop fuel c).1.lru gone ∧
        (Cache.evictLoop fuel c).2 = (gone.map fun e => e.value.path).reverse := by
  rw [evictLoop_fits hle]
  refine ⟨h, rfl, [], ⟨(List.append_nil _).symm, ?_, ?_⟩, rfl⟩
  · rwa [← h.bytes]
  · intro front rest hsplit _
    rw [hsplit, List.length_append]
    omega

theorem Booked.evictLoop (fuel : Nat) (h : c.Booked) (hpos : 0 < c.maxBytes)
    (hfuel : c.lru.length ≤ fuel) :
    (Cache.evictLoop fuel c).1.Booked ∧ (Cache.evictLoop fuel c).1.maxBytes = c.maxBytes ∧
      ∃ gone, Evicts c.maxBytes c.lru (Cache.evictLoop fuel c).1.lru gone ∧
        (Cache.evictLoop fuel c).2 = (gone.map fun e => e.value.path).reverse := by
  -- Induction on the turns; a turn takes the last node off.
  induction fuel generalizing c with
  | zero =>
      have hnil := List.length_eq_zero_iff.1 (Nat.le_zero.1 hfuel)
      have hbytes := h.bytes
      rw [hnil, total_nil] at hbytes
      exact h.evictLoop_of_fits (by omega)
  | succ fuel ih =>
      by_cases hle : c.bytesUsed ≤ c.maxBytes
      · exact h.evictLoop_of_fits hle
      · have hover := Int.not_le.1 hle
        rcases List.eq_nil_or_concat c.lru with hnil | ⟨front, back, hlru⟩
        · have hbytes := h.bytes
          rw [hnil, total_nil] at hbytes
          omega
        · rw [List.concat_eq_append] at hlru
          have hmem : back ∈ c.lru := by simp [hlru]
          have hlast : c.lru.getLast? = some back := by simp [hlru]
          have hids := h.ids
          rw [hlru] at hids
          have hfront : (c.without back).lru = front := by
            change removeElement c.lru back = front
            rw [hlru, removeElement_append hids, List.append_nil]
          have hlength : (c.without back).lru.length ≤ fuel := by
            have hlen := congrArg List.length hlru
            rw [List.length_append, List.length_singleton] at hlen
            rw [hfront]
            omega
          obtain ⟨hbooked, hmax, gone, hevicts, hpaths⟩ := ih (h.without hmem) hpos hlength
          rw [evictLoop_over hover hlast]
          refine ⟨hbooked, hmax, gone ++ [back], ?_, ?_⟩
          · rw [hfront] at hevicts
            rw [h.bytes, hlru] at hover
            rw [hlru]
            exact hevicts.concat hover
          · simp [hpaths]

/-- `evictLocked` under a budget. -/
theorem Booked.evictLocked (h : c.Booked) (hpos : 0 < c.maxBytes) :
    c.evictLocked.1.Booked ∧ c.evictLocked.1.maxBytes = c.maxBytes ∧
      ∃ gone, Evicts c.maxBytes c.lru c.evictLocked.1.lru gone ∧
        c.evictLocked.2 = (gone.map fun e => e.value.path).reverse := by
  unfold Cache.evictLocked
  rw [if_neg (by omega)]
  exact h.evictLoop _ hpos (Nat.le_refl _)

/-- The bookkeeping of a successful `Put`: the new entry in front of the others, less a suffix. -/
structure Recorded (hash : Bytes) (size : Int) (path : Path) (c c' : Cache) (evicted : List Path) :
    Prop where
  booked : c'.Booked
  maxBytes_eq : c'.maxBytes = c.maxBytes
  gone : ∃ gone, ⟨c.nextId, ⟨hash, size, path⟩⟩ :: c.others hash = c'.lru ++ gone ∧
    evicted = (gone.map fun e => e.value.path).reverse ∧
    (0 < c.maxBytes → Evicts c.maxBytes (c'.lru ++ gone) c'.lru gone) ∧
    (c.maxBytes ≤ 0 → gone = [])

theorem Booked.recorded (h : c.Booked) (hash : Bytes) (size : Int) (path : Path) :
    Recorded hash size path c (c.record hash size path).evictLocked.1
      (c.record hash size path).evictLocked.2 := by
  obtain ⟨hbooked, hlru, hmax, -⟩ := h.record hash size path
  by_cases hpos : 0 < c.maxBytes
  · obtain ⟨hbooked', hmax', gone, hevicts, hpaths⟩ := hbooked.evictLocked (by rwa [hmax])
    refine ⟨hbooked', hmax'.trans hmax, gone, ?_, hpaths, ?_, ?_⟩
    · rw [← hlru]
      exact hevicts.split
    · intro _
      rw [hmax] at hevicts
      rw [← hevicts.split]
      exact hevicts
    · intro hle
      omega
  · have hstay : (c.record hash size path).evictLocked = (c.record hash size path, []) := by
      unfold Cache.evictLocked
      rw [if_pos (by rw [hmax]; omega)]
    rw [hstay]
    refine ⟨hbooked, hmax, [], ?_, rfl, fun hpos' => absurd hpos' hpos, fun _ => rfl⟩
    rw [hlru, List.append_nil]

/-- No node of the rest of the list has the hash of an evicted one. -/
theorem Booked.gone_ne (h : c.Booked) {hash : Bytes} {size : Int} {path : Path}
    {kept gone : List Element} {e n : Element}
    (hsplit : ⟨c.nextId, ⟨hash, size, path⟩⟩ :: c.others hash = kept ++ gone) (he : e ∈ kept)
    (hn : n ∈ gone) : e.value.hash ≠ n.value.hash := by
  obtain ⟨hbooked, hlru, -, -⟩ := h.record hash size path
  rw [hsplit] at hlru
  intro hhash
  have hEq : e = n := by
    refine hbooked.hash_inj ?_ ?_ hhash
    · rw [hlru]
      exact List.mem_append_left _ he
    · rw [hlru]
      exact List.mem_append_right _ hn
  subst hEq
  have hids := hbooked.ids
  rw [hlru, List.map_append] at hids
  exact (List.nodup_append.1 hids).2.2 _ (List.mem_map_of_mem he) _ (List.mem_map_of_mem hn) rfl

theorem mem_others {hash : Bytes} {e : Element} :
    e ∈ c.others hash ↔ e ∈ c.lru ∧ e.value.hash ≠ hash := by
  simp [others]

end Methods

end Cache

/-! ## What a call does to the index -/

theorem cache_of_outcome {o : Op} {s s' : Store} {r : Res o} (hout : Outcome o s s' r)
    (hcommit : ∀ hash size path, o ≠ .commit hash size path) : s'.cache = s.cache := by
  cases o with
  | mkdirAll dir => rw [show s' = s from hout]
  | remove p =>
      rcases hout with rfl | ⟨fs, -, rfl⟩
      · rfl
      · rfl
  | create p =>
      rcases hout with ⟨rfl, -⟩ | ⟨rfl, -⟩
      · rfl
      · rfl
  | write fd bytes =>
      rcases hout with rfl | ⟨_, fs, -, rfl⟩
      · rfl
      · rfl
  | sync fd => rw [show s' = s from hout]
  | close fd =>
      rcases hout with rfl | ⟨fs, -, rfl⟩
      · rfl
      · rfl
  | rename old new =>
      rcases hout with ⟨rfl, -⟩ | ⟨fs, -, rfl, -⟩
      · rfl
      · rfl
  | commit hash size path => exact absurd rfl (hcommit hash size path)

/-- A failed `Put` leaves the index alone; a successful one records its entry, last of all. -/
def PutBooks (hash : Bytes) (size : Int) (final : Path) (c : Cache) (s' : Store)
    (r : Except PutError Path) : Prop :=
  ((∃ e, r = .error e) ∧ s'.cache = c) ∨
    (r = .ok final ∧ 0 ≤ size ∧ ∃ fs kept, s' = Store.commit ⟨c, fs⟩ hash size final kept)

section Put

variable {c : Cache} {s : Store} {hash : Bytes} {size : Int} {final tmp : Path}

theorem yields_perform {α : Type} {post : Store → α → Prop} {o : Op} {f : Res o → Code α}
    (hcommit : ∀ hash size path, o ≠ .commit hash size path) (hs : s.cache = c)
    (hf : ∀ s' r, s'.cache = c → (f r).Yields exec post s') :
    (Prog.perform o >>= f).Yields exec post s := by
  intro e s' r he
  exact hf s' r ((cache_of_outcome (outcome_of_exec he) hcommit).trans hs)

theorem yields_copyTee {fd : Nat} {err : Option IoError} (hasher : MerkleHasher) (written : Nat)
    (blocks : List Bytes) (hs : s.cache = c) :
    (copyTee fd err hasher written blocks).Yields exec (fun s' _ => s'.cache = c) s := by
  induction blocks generalizing hasher written s with
  | nil =>
      unfold copyTee
      split <;> exact hs
  | cons block rest ih =>
      unfold copyTee
      split
      · exact ih hasher written hs
      · refine yields_perform nofun hs ?_
        rintro s' (e | _) hs'
        · exact hs'
        · exact ih _ _ hs'

theorem yields_publish (blake3 : Blake3) (hasher : MerkleHasher) (hsize : 0 ≤ size)
    (hs : s.cache = c) :
    (publish blake3 hash size final tmp hasher).Yields exec (PutBooks hash size final c) s := by
  unfold publish
  simp only
  split
  · refine yields_perform nofun hs ?_
    intro s' _ hs'
    exact .inl ⟨⟨_, rfl⟩, hs'⟩
  · refine yields_perform nofun hs ?_
    rintro s' (e | _) hs'
    · refine yields_perform nofun hs' ?_
      intro s'' _ hs''
      exact .inl ⟨⟨_, rfl⟩, hs''⟩
    · intro e s'' r he
      obtain ⟨kept, rfl⟩ := outcome_of_exec he
      exact .inr ⟨rfl, hsize, s'.fs, kept, by rw [← hs']⟩

theorem yields_cleanupTmp {fd : Nat} {e : PutError} (hs : s.cache = c) :
    (do
      cleanupTmp fd tmp
      pure (.error e : Except PutError Path) : Code (Except PutError Path)).Yields exec
      (PutBooks hash size final c) s := by
  refine yields_perform nofun hs ?_
  intro s₁ _ hs₁
  refine yields_perform nofun hs₁ ?_
  intro s₂ _ hs₂
  exact .inl ⟨⟨_, rfl⟩, hs₂⟩

theorem yields_fill (blake3 : Blake3) (src : Reader) (fd : Nat) (hsize : 0 ≤ size)
    (hs : s.cache = c) :
    (fill blake3 hash size src final tmp fd).Yields exec (PutBooks hash size final c) s := by
  unfold fill
  refine (yields_copyTee .new 0 src.blocks hs).bind ?_
  rintro s₁ (e | ⟨hasher, written⟩) hs₁
  · exact yields_cleanupTmp hs₁
  · simp only
    split
    · exact yields_cleanupTmp hs₁
    · refine yields_perform nofun hs₁ ?_
      rintro s₂ (e | _) hs₂
      · exact yields_cleanupTmp hs₂
      · refine yields_perform nofun hs₂ ?_
        rintro s₃ (e | _) hs₃
        · refine yields_perform nofun hs₃ ?_
          intro s₄ _ hs₄
          exact .inl ⟨⟨_, rfl⟩, hs₄⟩
        · exact yields_publish blake3 hasher hsize hs₃

theorem yields_put (blake3 : Blake3) (dir : Bytes) (src : Reader) (s : Store) :
    (put blake3 dir hash size src).Yields exec (PutBooks hash size (pathFor dir hash) s.cache) s := by
  unfold put
  split
  · exact .inl ⟨⟨_, rfl⟩, rfl⟩
  · split
    · exact .inl ⟨⟨_, rfl⟩, rfl⟩
    · rename_i hsize
      refine yields_perform nofun rfl ?_
      rintro s₁ (e | _) hs₁
      · exact .inl ⟨⟨_, rfl⟩, hs₁⟩
      · refine yields_perform nofun hs₁ ?_
        intro s₂ _ hs₂
        refine yields_perform nofun hs₂ ?_
        rintro s₃ (e | fd) hs₃
        · exact .inl ⟨⟨_, rfl⟩, hs₃⟩
        · exact yields_fill blake3 src fd (Int.not_lt.1 hsize) hs₃

end Put

namespace Serving

variable {h : Handlers}

theorem yields_onDisk {α : Type} {post : Store → α → Prop} {p : Gateway.Code α} {s : State h}
    (hp : p.Yields Gateway.exec post s.disk) :
    (onDisk p).Yields (exec h) (fun s' a => post s'.disk a) s := by
  induction p generalizing s with
  | done a => exact hp
  | call o k ih =>
      intro e s' r he
      cases e with
      | disk e =>
          rcases Option.map_eq_some_iff.1 he with ⟨⟨d, r'⟩, hexec, hEq⟩
          cases hEq
          exact ih r' (hp e d r' hexec)
      | _ => cases he

/-- `Open` moves the entry it finds to the front; it drops it when its file cannot be opened. -/
def OpenBooks (hash : Bytes) (c c' : Cache) : Prop :=
  (c.index.find hash = none ∧ c' = c) ∨
    ∃ e, c.index.find hash = some e ∧
      (c' = (c.lookup hash).1 ∨ c' = (c.lookup hash).1.dropStale hash e.value.path)

theorem cache_openFile (s : State h) (path : Path) :
    (s.openFile path).1.disk.cache = s.disk.cache := by
  unfold State.openFile
  split <;> rfl

/-- What an operation does to the index. -/
theorem cache_of_exec {o : Op} {e : Env} {s s' : State h} {r : Res o}
    (he : exec h o e s = some (s', r)) :
    s'.disk.cache = s.disk.cache ∨
      (∃ k, o = .index k ∧ s'.disk.cache = (s.disk.cache.lookup k).1) ∨
      (∃ k path, o = .dropStale k path ∧ s'.disk.cache = s.disk.cache.dropStale k path) ∨
      ∃ k size path, o = .disk (.commit k size path) ∧
        s'.disk.cache = (s.disk.cache.record k size path).evictLocked.1 := by
  cases o with
  | index k =>
      cases e with
      | quiet =>
          cases he
          exact .inr (.inl ⟨k, rfl, rfl⟩)
      | _ => cases he
  | dropStale k path =>
      cases e with
      | quiet =>
          cases he
          exact .inr (.inr (.inl ⟨k, path, rfl, rfl⟩))
      | _ => cases he
  | openFile path =>
      cases e with
      | quiet =>
          have hs' : (s.openFile path).1 = s' := congrArg Prod.fst (Option.some.inj he)
          rw [← hs', cache_openFile]
          exact .inl rfl
      | fault e =>
          cases he
          exact .inl rfl
      | _ => cases he
  | disk o =>
      cases e with
      | disk e =>
          rcases Option.map_eq_some_iff.1 he with ⟨⟨d, r'⟩, hexec, hEq⟩
          cases hEq
          -- On the disk only the commit writes to the cache; the rest are calls on files.
          have hout := outcome_of_exec hexec
          by_cases hcommit : ∃ k size path, o = .commit k size path
          · obtain ⟨k, size, path, rfl⟩ := hcommit
            obtain ⟨kept, rfl⟩ := hout
            exact .inr (.inr (.inr ⟨k, size, path, rfl, rfl⟩))
          · refine .inl (cache_of_outcome hout ?_)
            exact fun k size path hEq => hcommit ⟨k, size, path, hEq⟩
      | _ => cases he
  | wait n =>
      cases e with
      | quiet =>
          rcases Option.map_eq_some_iff.1 he with ⟨v, -, hEq⟩
          cases hEq
          exact .inl rfl
      | _ => cases he
  | receive left =>
      obtain ⟨-, rfl⟩ := exec_receive he
      exact .inl rfl
  | _ => cases e <;> cases he <;> exact .inl rfl

theorem yields_cacheOpen (hash : Bytes) (s : State h) :
    (cacheOpen hash).Yields (exec h) (fun s' _ => OpenBooks hash s.disk.cache s'.disk.cache) s := by
  intro e s₁ r he
  cases e with
  | quiet =>
      cases he
      cases hfind : s.disk.cache.index.find hash with
      | none =>
          simp only [Cache.lookup, hfind]
          exact .inl ⟨hfind, rfl⟩
      | some elem =>
          simp only [Cache.lookup, hfind]
          intro e s₂ r he
          have hcache : s₂.disk.cache = (s.disk.cache.lookup hash).1 := by
            simp only [Cache.lookup, hfind]
            cases e with
            | quiet =>
                have hs₂ := congrArg Prod.fst (Option.some.inj he)
                rw [← show _ = s₂ from hs₂]
                exact cache_openFile _ _
            | fault e =>
                cases he
                rfl
            | _ => cases he
          cases r with
          | ok fd => exact .inr ⟨elem, hfind, .inl hcache⟩
          | error e =>
              intro e s₃ r he
              cases e with
              | quiet =>
                  cases he
                  refine .inr ⟨elem, hfind, .inr ?_⟩
                  rw [← hcache]
                  rfl
              | _ => cases he
  | _ => cases he

/-! ## Histories -/

inductive CacheCall
  | cacheOpen (hash : Bytes)
  | put (hash : Bytes) (size : Int) (src : Reader)
  deriving DecidableEq, Repr

inductive CacheReply
  | cacheOpen (r : Option (Nat × Int))
  | put (r : Except PutError Path)
  deriving DecidableEq, Repr

def cacheCode (h : Handlers) : CacheCall → Code CacheReply
  | .cacheOpen hash => .cacheOpen <$> cacheOpen hash
  | .put hash size src => .put <$> onDisk (put h.blake3 h.dir hash size src)

/-- One call, from the state before it to the state after it. -/
structure Turn (h : Handlers) where
  before : State h
  call : CacheCall
  reply : CacheReply
  after : State h

/-- Calls one after another on a new cache, the last one first. -/
inductive History (h : Handlers) (maxBytes : Int) (found : FoundDisk) :
    List (Turn h) → State h → Prop where
  | nil : History h maxBytes found [] (State.new h maxBytes found)
  | cons {turns : List (Turn h)} {s s' : State h} {call : CacheCall} {reply : CacheReply}
      {cs : List (Call Op Res)} :
      History h maxBytes found turns s → Runs (exec h) (cacheCode h call) s cs s' reply →
        History h maxBytes found (⟨s, call, reply, s'⟩ :: turns) s'

/-- The hash a call uses: an `Open` that finds it in the index, or a `Put` that succeeds. -/
def Turn.uses (t : Turn h) : Option Bytes :=
  match t.call, t.reply with
  | .cacheOpen hash, _ =>
      if (t.before.disk.cache.index.find hash).isSome then some hash else none
  | .put hash _ _, .put (.ok _) => some hash
  | _, _ => none

def lastUse : List (Turn h) → Bytes → Nat
  | [], _ => 0
  | t :: turns, hash => if t.uses = some hash then turns.length + 1 else lastUse turns hash

def Ordered (turns : List (Turn h)) (nodes : List Element) : Prop :=
  nodes.Pairwise fun a b => lastUse turns b.value.hash < lastUse turns a.value.hash

theorem lastUse_le (turns : List (Turn h)) (hash : Bytes) : lastUse turns hash ≤ turns.length := by
  induction turns with
  | nil => exact Nat.le_refl 0
  | cons t turns ih =>
      simp only [lastUse, List.length_cons]
      split
      · exact Nat.le_refl _
      · omega

theorem Ordered.of_unused {turns : List (Turn h)} {t : Turn h} {nodes : List Element}
    (ho : Ordered turns nodes) (huses : ∀ e ∈ nodes, t.uses ≠ some e.value.hash) :
    Ordered (t :: turns) nodes := by
  refine ho.imp_of_mem ?_
  intro a b ha hb hlt
  simpa [lastUse, huses a ha, huses b hb] using hlt

/-- A hash that was used now comes first. -/
theorem Ordered.cons_used {turns : List (Turn h)} {t : Turn h} {nodes : List Element} {e : Element}
    (ho : Ordered turns nodes) (huses : t.uses = some e.value.hash)
    (hnodes : ∀ n ∈ nodes, n.value.hash ≠ e.value.hash) : Ordered (t :: turns) (e :: nodes) := by
  have hothers : ∀ n ∈ nodes, t.uses ≠ some n.value.hash := by
    intro n hn hEq
    exact hnodes n hn (Option.some.inj (hEq.symm.trans huses))
  refine List.pairwise_cons.2 ⟨?_, ho.of_unused hothers⟩
  intro n hn
  have hle := lastUse_le turns n.value.hash
  rw [lastUse, lastUse, if_pos huses, if_neg (hothers n hn)]
  omega

/-- What the index is like after a history. -/
structure Kept (maxBytes : Int) (turns : List (Turn h)) (c : Cache) : Prop where
  booked : c.Booked
  maxBytes_eq : c.maxBytes = maxBytes
  fits : c.bytesUsed ≤ maxBytes
  nonneg : ∀ e ∈ c.lru, 0 ≤ e.value.size
  ordered : Ordered turns c.lru

section Turns

variable {maxBytes : Int} {turns : List (Turn h)} {c c' : Cache}

theorem Kept.of_unused {t : Turn h} (hk : Kept maxBytes turns c) (huses : t.uses = none) :
    Kept maxBytes (t :: turns) c := by
  refine { hk with ordered := hk.ordered.of_unused ?_ }
  intro e _ hEq
  rw [huses] at hEq
  cases hEq

/-- The entry that was used moves to the front. -/
theorem Kept.lookup {t : Turn h} {hash : Bytes} {e : Element} (hk : Kept maxBytes turns c)
    (huses : t.uses = some hash) (hfind : c.index.find hash = some e) :
    Kept maxBytes (t :: turns) (c.lookup hash).1 := by
  obtain ⟨hmem, rfl⟩ := hk.booked.entry hash e hfind
  have hlru : (c.lookup e.value.hash).1.lru = e :: c.others e.value.hash := by
    simp [Cache.lookup, hfind, Cache.moveToFront, hmem, hk.booked.others_eq hmem]
  refine ⟨hk.booked.lookup _, (Cache.lookup_maxBytes _ _).trans hk.maxBytes_eq, ?_,
    fun n hn => hk.nonneg n (Cache.mem_of_mem_lookup hn), ?_⟩
  · rw [Cache.lookup_bytesUsed]
    exact hk.fits
  · rw [hlru]
    have hothers : Ordered turns (c.others e.value.hash) :=
      List.Pairwise.sublist List.filter_sublist hk.ordered
    refine hothers.cons_used huses ?_
    intro n hn
    simpa using List.of_mem_filter hn

theorem Kept.without {e : Element} (hk : Kept maxBytes turns c) (he : e ∈ c.lru) :
    Kept maxBytes turns (c.without e) := by
  have hfits : c.bytesUsed - e.value.size ≤ maxBytes := by
    have hle := hk.fits
    have hsize := hk.nonneg e he
    omega
  exact ⟨hk.booked.without he, hk.maxBytes_eq, hfits,
    fun n hn => hk.nonneg n (Cache.mem_of_mem_removeElement hn),
    List.Pairwise.sublist Cache.sublist_removeElement hk.ordered⟩

theorem Kept.cacheOpen {s s' : State h} {hash : Bytes} {reply : CacheReply}
    (hk : Kept maxBytes turns s.disk.cache)
    (hopen : OpenBooks hash s.disk.cache s'.disk.cache) :
    Kept maxBytes (⟨s, .cacheOpen hash, reply, s'⟩ :: turns) s'.disk.cache := by
  rcases hopen with ⟨hnone, hEq⟩ | ⟨e, hfind, hEq⟩
  · rw [hEq]
    exact hk.of_unused (by simp [Turn.uses, hnone])
  · have hlook : Kept maxBytes (⟨s, .cacheOpen hash, reply, s'⟩ :: turns)
        (s.disk.cache.lookup hash).1 := hk.lookup (by simp [Turn.uses, hfind]) hfind
    rcases hEq with hEq | hEq
    · rwa [hEq]
    · rcases Cache.dropStale_cases hlook.booked hash e.value.path with hsame | ⟨n, hn, -, hdrop⟩
      · rwa [hEq, hsame]
      · rw [hEq, hdrop]
        exact hlook.without (hlook.booked.entry hash n hn).1

/-- A successful `Put`: with its entry in front the list is ordered, and the shortest suffix that
has to go is evicted. -/
structure PutEvicts (turns : List (Turn h)) (hash : Bytes) (size : Int) (path : Path)
    (c c' : Cache) : Prop where
  ordered : Ordered turns (⟨c.nextId, ⟨hash, size, path⟩⟩ :: c.others hash)
  evicts : ∃ gone, Cache.Evicts c.maxBytes
    (⟨c.nextId, ⟨hash, size, path⟩⟩ :: c.others hash) c'.lru gone

theorem Kept.put {s s' : State h} {hash : Bytes} {size : Int} {src : Reader} {path : Path}
    {fs : FileSystem Path} {kept : List Path} (hpos : 0 < maxBytes)
    (hk : Kept maxBytes turns s.disk.cache) (hsize : 0 ≤ size)
    (hcommit : s'.disk = Store.commit ⟨s.disk.cache, fs⟩ hash size path kept) :
    Kept maxBytes (⟨s, .put hash size src, .put (.ok path), s'⟩ :: turns) s'.disk.cache ∧
      PutEvicts (⟨s, .put hash size src, .put (.ok path), s'⟩ :: turns) hash size path
        s.disk.cache s'.disk.cache := by
  have hcache : s'.disk.cache = (s.disk.cache.record hash size path).evictLocked.1 := by
    rw [hcommit]
    rfl
  have hrec := hk.booked.recorded hash size path
  rw [← hcache] at hrec
  obtain ⟨gone, hsplit, -, hevicts, -⟩ := hrec.gone
  have hmax := hk.maxBytes_eq
  have hev := hevicts (by rwa [hmax])
  have hordered : Ordered (⟨s, .put hash size src, .put (.ok path), s'⟩ :: turns)
      (⟨s.disk.cache.nextId, ⟨hash, size, path⟩⟩ :: s.disk.cache.others hash) := by
    have hothers : Ordered turns (s.disk.cache.others hash) :=
      List.Pairwise.sublist List.filter_sublist hk.ordered
    refine hothers.cons_used rfl ?_
    intro n hn
    simpa using List.of_mem_filter hn
  refine ⟨⟨hrec.booked, hrec.maxBytes_eq.trans hmax, ?_, ?_, ?_⟩, ⟨hordered, gone, ?_⟩⟩
  · rw [hrec.booked.bytes, ← hmax]
    exact hev.fits
  · intro e he
    have hmem : e ∈ s'.disk.cache.lru ++ gone := List.mem_append_left _ he
    rw [← hsplit] at hmem
    rcases List.mem_cons.1 hmem with rfl | hmem
    · exact hsize
    · exact hk.nonneg e (List.mem_of_mem_filter hmem)
  · rw [hsplit] at hordered
    exact (List.pairwise_append.1 hordered).1
  · rw [hsplit]
    exact hev

end Turns

/-- After every history of calls the index is kept; a `Put` that succeeds evicts the shortest
suffix of the list in recency order. -/
theorem lru_of_history {maxBytes : Int} {found : FoundDisk} {turns : List (Turn h)} {s : State h}
    (hpos : 0 < maxBytes) (hist : History h maxBytes found turns s) :
    Kept maxBytes turns s.disk.cache ∧
      ∀ t rest hash size src path, turns = t :: rest → t.call = .put hash size src →
        t.reply = .put (.ok path) →
          PutEvicts turns hash size path t.before.disk.cache s.disk.cache := by
  induction hist with
  | nil =>
      refine ⟨⟨.new maxBytes, rfl, Int.le_of_lt hpos, nofun, .nil⟩, ?_⟩
      intro t rest hash size src path hturns
      cases hturns
  | @cons turns s s' call reply cs hist hrun ih =>
      cases call with
      | cacheOpen hash =>
          have hopen : (cacheCode h (.cacheOpen hash)).Yields (exec h)
              (fun s' _ => OpenBooks hash s.disk.cache s'.disk.cache) s :=
            (yields_cacheOpen hash s).map
          refine ⟨ih.1.cacheOpen (hopen.post_of_runs hrun), ?_⟩
          intro t rest hash' size src path hturns hcall
          cases hturns
          cases hcall
      | put hash size src =>
          have hput : (cacheCode h (.put hash size src)).Yields (exec h)
              (fun s' reply => ∃ r, reply = .put r ∧
                PutBooks hash size (pathFor h.dir hash) s.disk.cache s'.disk r) s :=
            ((yields_onDisk (yields_put h.blake3 h.dir src s.disk)).mono
              fun s' r hbooks => ⟨r, rfl, hbooks⟩).map
          obtain ⟨r, rfl, hbooks⟩ := hput.post_of_runs hrun
          -- A `Put` that fails leaves the cache as it was; one that succeeds records the entry.
          rcases hbooks with ⟨⟨e, rfl⟩, hcache⟩ | ⟨rfl, hsize, fs, kept, hcommit⟩
          · rw [hcache]
            refine ⟨ih.1.of_unused rfl, ?_⟩
            intro t rest hash' size' src' path hturns _ hreply
            cases hturns
            cases hreply
          · obtain ⟨hkept, hevicts⟩ := ih.1.put hpos hsize hcommit
            refine ⟨hkept, ?_⟩
            intro t rest hash' size' src' path hturns hcall hreply
            cases hturns
            cases hcall
            cases hreply
            exact hevicts

/-- The first `Put` of a xorb that just fits. -/
theorem lru_of_history_first :
    ∃ t s, History sampleHandlers 3 emptyDisk [t] s ∧ Kept 3 [t] s.disk.cache ∧
      PutEvicts [t] sampleHash 3 (pathFor (lit "/var/cache") sampleHash) t.before.disk.cache
        s.disk.cache ∧ s.disk.cache.bytesUsed = 3 := by
  have heval : ((cacheCode sampleHandlers (.put sampleHash 3 ⟨[[1, 2, 3]], none⟩)).eval
      (exec sampleHandlers) ([.ok, .ok, .ok, .ok, .ok, .ok, .ok, .evict []].map .disk)
      (State.new sampleHandlers 3 emptyDisk)).map (fun u =>
        decide (u.2.2 = .put (.ok (pathFor (lit "/var/cache") sampleHash)) ∧
          u.2.1.disk.cache.bytesUsed = 3)) = some true := by
    decide +kernel
  rcases Option.map_eq_some_iff.1 heval with ⟨⟨cs, s, reply⟩, hrun, hP⟩
  obtain ⟨rfl, hbytes⟩ := of_decide_eq_true hP
  have hist := History.cons .nil (Runs.of_eval hrun)
  obtain ⟨hkept, hputs⟩ := lru_of_history (by decide) hist
  exact ⟨_, s, hist, hkept, hputs _ [] _ _ _ _ rfl rfl rfl, hbytes⟩

end Serving

end Gateway
end OpenWeights
