import Mathlib.Data.Set.Basic
import OpenWeights.Lib.Table

/-!
# FileSystem — names, inodes and open files

A file system as programs on one machine see it.  A name points to an inode; an open file keeps its
inode and its own offset, whatever becomes of the name.  `create` truncates the inode of an existing
name and makes a new one otherwise, `remove` only drops the name, and `rename` moves whatever inode
the old name points to at that moment.  That names and open files point to existing inodes is part
of the structure.

`Holds fs p fd content` is the situation of a program that created `p` and has written `content`
to it so far; each operation of such a program succeeds and its lemma says what holds next.
-/

namespace OpenWeights
namespace Lib

universe u

structure OpenFile where
  inode : Nat
  offset : Nat
  isOpen : Bool
  deriving DecidableEq, Repr

/-- Names of type `π`, the contents of all inodes, and the open files by descriptor. -/
structure FileSystem (π : Type u) where
  names : Table π Nat
  inodes : List (List UInt8)
  files : List OpenFile
  names_lt : ∀ r ∈ names.rows, r.2 < inodes.length
  files_lt : ∀ f ∈ files, f.inode < inodes.length

namespace FileSystem

variable {π : Type u}

def empty : FileSystem π :=
  { names := .empty
    inodes := []
    files := []
    names_lt := by simp [Table.empty]
    files_lt := by simp }

def setFile (fs : FileSystem π) (fd : Nat) (f : OpenFile) (hf : f.inode < fs.inodes.length) :
    FileSystem π :=
  { fs with
    files := fs.files.set fd f
    files_lt := by
      intro g hg
      rcases List.mem_or_eq_of_mem_set hg with hg | rfl
      · exact fs.files_lt g hg
      · exact hf }

def modifyInode (fs : FileSystem π) (inode : Nat) (f : List UInt8 → List UInt8) : FileSystem π :=
  { fs with
    inodes := fs.inodes.modify inode f
    names_lt := by simpa using fs.names_lt
    files_lt := by simpa using fs.files_lt }

/-- The bytes of an inode after a write; a gap before the offset is filled with zeros. -/
def overwrite (content : List UInt8) (offset : Nat) (bytes : List UInt8) : List UInt8 :=
  content.take offset ++ List.replicate (offset - content.length) 0 ++ bytes ++
    content.drop (offset + bytes.length)

/-- Write at the offset of an open file; `none` for a closed one. -/
def write (fs : FileSystem π) (fd : Nat) (bytes : List UInt8) : Option (FileSystem π) :=
  match hfd : fs.files[fd]? with
  | some f =>
      if f.isOpen then
        some ((fs.setFile fd { f with offset := f.offset + bytes.length }
          (fs.files_lt f (List.mem_of_getElem? hfd))).modifyInode f.inode
            fun content => overwrite content f.offset bytes)
      else
        none
  | none => none

/-- Close an open file; `none` for a closed one. -/
def close (fs : FileSystem π) (fd : Nat) : Option (FileSystem π) :=
  match hfd : fs.files[fd]? with
  | some f =>
      if f.isOpen then
        some (fs.setFile fd { f with isOpen := false }
          (fs.files_lt f (List.mem_of_getElem? hfd)))
      else
        none
  | none => none

def openInode (fs : FileSystem π) (inode : Nat) (h : inode < fs.inodes.length) :
    FileSystem π × Nat :=
  ({ fs with
      files := fs.files ++ [⟨inode, 0, true⟩]
      files_lt := by
        intro f hf
        rcases List.mem_append.1 hf with hf | hf
        · exact fs.files_lt f hf
        · have hEq := List.mem_singleton.1 hf
          subst hEq
          exact h }, fs.files.length)

variable [DecidableEq π]

def link (fs : FileSystem π) (p : π) (inode : Nat) (h : inode < fs.inodes.length) :
    FileSystem π :=
  { fs with
    names := fs.names.set p inode
    names_lt := by
      rintro ⟨q, i⟩ hmem
      have hfind := Table.find_eq_some_iff.2 hmem
      by_cases hq : q = p
      · subst hq
        have hEq : inode = i := by simpa using hfind
        exact hEq ▸ h
      · rw [Table.find_set_of_ne _ _ hq] at hfind
        exact fs.names_lt (q, i) (Table.find_eq_some_iff.1 hfind) }

def unlink (fs : FileSystem π) (p : π) : FileSystem π :=
  { fs with
    names := fs.names.erase p
    names_lt := fun r hr => fs.names_lt r (List.mem_of_mem_filter hr) }

def newInode (fs : FileSystem π) : FileSystem π :=
  { fs with
    inodes := fs.inodes ++ [[]]
    names_lt := by
      intro r hr
      have hlt := fs.names_lt r hr
      simp only [List.length_append]
      omega
    files_lt := by
      intro f hf
      have hlt := fs.files_lt f hf
      simp only [List.length_append]
      omega }

theorem lt_of_find (fs : FileSystem π) {p : π} {inode : Nat}
    (hfind : fs.names.find p = some inode) : inode < fs.inodes.length :=
  fs.names_lt (p, inode) (Table.find_eq_some_iff.1 hfind)

/-- Create or truncate `p` and open it. -/
def create (fs : FileSystem π) (p : π) : FileSystem π × Nat :=
  match hfind : fs.names.find p with
  | some inode =>
      (fs.modifyInode inode fun _ => []).openInode inode (by
        simpa [modifyInode] using fs.lt_of_find hfind)
  | none =>
      (fs.newInode.link p fs.inodes.length (by simp [newInode])).openInode fs.inodes.length
        (by simp [newInode, link])

/-- Open `p` for reading; `none` if it does not exist. -/
def openRead (fs : FileSystem π) (p : π) : Option (FileSystem π × Nat) :=
  match hfind : fs.names.find p with
  | some inode => some (fs.openInode inode (fs.lt_of_find hfind))
  | none => none

/-- Everything in an open file, whatever its offset; `none` for a closed one. -/
def readAll (fs : FileSystem π) (fd : Nat) : Option (List UInt8) :=
  match fs.files[fd]? with
  | some f => if f.isOpen then fs.inodes[f.inode]? else none
  | none => none

/-- Drop the name `p`; `none` if there is none. -/
def remove (fs : FileSystem π) (p : π) : Option (FileSystem π) :=
  (fs.names.find p).map fun _ => fs.unlink p

/-- Move the inode of `old` to the name `new`; `none` if `old` does not exist. -/
def rename (fs : FileSystem π) (old new : π) : Option (FileSystem π) :=
  match hfind : fs.names.find old with
  | some inode => some ((fs.unlink old).link new inode (fs.lt_of_find hfind))
  | none => none

def content (fs : FileSystem π) (p : π) : Option (List UInt8) :=
  (fs.names.find p).bind fun inode => fs.inodes[inode]?

/-! ## Writing a file from its creation on -/

/-- `p` names an inode with this content, and the descriptor is open on it at its end. -/
structure Holds (fs : FileSystem π) (p : π) (fd : Nat) (content : List UInt8) : Prop where
  content_eq : fs.content p = some content
  file_eq : ∃ inode, fs.names.find p = some inode ∧
    fs.files[fd]? = some ⟨inode, content.length, true⟩

theorem overwrite_length (content bytes : List UInt8) :
    overwrite content content.length bytes = content ++ bytes := by
  simp [overwrite]

theorem holds_create (fs : FileSystem π) (p : π) :
    Holds (fs.create p).1 p (fs.create p).2 [] := by
  unfold create
  split
  · rename_i inode hfind
    have hlt := fs.lt_of_find hfind
    constructor
    · simp [content, openInode, modifyInode, hfind, hlt]
    · exact ⟨inode, hfind, by simp [openInode, modifyInode]⟩
  · constructor
    · simp [content, openInode, link, newInode]
    · exact ⟨fs.inodes.length, by simp [openInode, link, newInode],
        by simp [openInode, link, newInode]⟩

theorem Holds.write {fs : FileSystem π} {p : π} {fd : Nat} {content : List UInt8}
    (h : Holds fs p fd content) (bytes : List UInt8) :
    ∃ fs', fs.write fd bytes = some fs' ∧ Holds fs' p fd (content ++ bytes) := by
  obtain ⟨inode, hfind, hfd⟩ := h.file_eq
  have hinode : fs.inodes[inode]? = some content := by
    simpa [FileSystem.content, hfind] using h.content_eq
  have hlt : fd < fs.files.length := (List.getElem?_eq_some_iff.1 hfd).1
  unfold FileSystem.write
  split
  · rename_i f hf
    have hEq : f = ⟨inode, content.length, true⟩ := Option.some.inj (hf.symm.trans hfd)
    subst hEq
    refine ⟨_, rfl, ?_, inode, hfind, ?_⟩
    · simp [FileSystem.content, modifyInode, setFile, hfind, hinode, overwrite_length]
    · simp [modifyInode, setFile, hlt]
  · rename_i hnone
    rw [hfd] at hnone
    cases hnone

theorem Holds.readAll_eq {fs : FileSystem π} {p : π} {fd : Nat} {content : List UInt8}
    (h : Holds fs p fd content) : fs.readAll fd = some content := by
  obtain ⟨inode, hfind, hfd⟩ := h.file_eq
  have hinode : fs.inodes[inode]? = some content := by
    simpa [FileSystem.content, hfind] using h.content_eq
  simp [readAll, hfd, hinode]

/-- Closing keeps the name and its content. -/
theorem Holds.close {fs : FileSystem π} {p : π} {fd : Nat} {content : List UInt8}
    (h : Holds fs p fd content) :
    ∃ fs', fs.close fd = some fs' ∧ fs'.content p = some content := by
  obtain ⟨inode, -, hfd⟩ := h.file_eq
  unfold FileSystem.close
  split
  · rename_i f hf
    have hEq : f = ⟨inode, content.length, true⟩ := Option.some.inj (hf.symm.trans hfd)
    subst hEq
    exact ⟨_, rfl, h.content_eq⟩
  · rename_i hnone
    rw [hfd] at hnone
    cases hnone

/-- A rename publishes the content of the old name. -/
theorem rename_of_content {fs : FileSystem π} {old : π} (new : π) {content : List UInt8}
    (h : fs.content old = some content) :
    ∃ fs', fs.rename old new = some fs' ∧ fs'.content new = some content := by
  rcases Option.bind_eq_some_iff.1 h with ⟨inode, hfind, hinode⟩
  unfold rename
  split
  · rename_i i hi
    have hEq : i = inode := Option.some.inj (hi.symm.trans hfind)
    subst hEq
    exact ⟨_, rfl, by simp [FileSystem.content, link, unlink, hinode]⟩
  · rename_i hnone
    rw [hfind] at hnone
    cases hnone

/-! ## What an operation leaves alone -/

/-- From `fs` to `fs'` only the names in `ps`, the inodes in `ns` and the open files in `fds` may
have changed; inodes and open files may have been added. -/
structure Frame (fs fs' : FileSystem π) (ps : Set π) (ns fds : Set Nat) : Prop where
  find_eq : ∀ p ∉ ps, fs'.names.find p = fs.names.find p
  inode_eq : ∀ n < fs.inodes.length, n ∉ ns → fs'.inodes[n]? = fs.inodes[n]?
  file_eq : ∀ fd < fs.files.length, fd ∉ fds → fs'.files[fd]? = fs.files[fd]?
  inodes_le : fs.inodes.length ≤ fs'.inodes.length
  files_le : fs.files.length ≤ fs'.files.length

namespace Frame

variable {fs fs' fs'' : FileSystem π} {ps ps' : Set π} {ns ns' fds fds' : Set Nat}

theorem refl (fs : FileSystem π) : Frame fs fs ∅ ∅ ∅ :=
  ⟨fun _ _ => rfl, fun _ _ _ => rfl, fun _ _ _ => rfl, Nat.le_refl _, Nat.le_refl _⟩

theorem mono (h : Frame fs fs' ps ns fds) (hps : ps ⊆ ps') (hns : ns ⊆ ns') (hfds : fds ⊆ fds') :
    Frame fs fs' ps' ns' fds' where
  find_eq := fun p hp => h.find_eq p fun hmem => hp (hps hmem)
  inode_eq := fun n hlt hn => h.inode_eq n hlt fun hmem => hn (hns hmem)
  file_eq := fun fd hlt hfd => h.file_eq fd hlt fun hmem => hfd (hfds hmem)
  inodes_le := h.inodes_le
  files_le := h.files_le

theorem trans (h : Frame fs fs' ps ns fds) (h' : Frame fs' fs'' ps ns fds) :
    Frame fs fs'' ps ns fds where
  find_eq := fun p hp => (h'.find_eq p hp).trans (h.find_eq p hp)
  inode_eq := fun n hlt hn =>
    (h'.inode_eq n (Nat.lt_of_lt_of_le hlt h.inodes_le) hn).trans (h.inode_eq n hlt hn)
  file_eq := fun fd hlt hfd =>
    (h'.file_eq fd (Nat.lt_of_lt_of_le hlt h.files_le) hfd).trans (h.file_eq fd hlt hfd)
  inodes_le := h.inodes_le.trans h'.inodes_le
  files_le := h.files_le.trans h'.files_le

/-- The bytes under a name that stays, on an inode that stays. -/
theorem content_eq (h : Frame fs fs' ps ns fds) {p : π} (hp : p ∉ ps)
    (hn : ∀ n, fs.names.find p = some n → n ∉ ns) : fs'.content p = fs.content p := by
  rw [content, content, h.find_eq p hp]
  cases hfind : fs.names.find p with
  | none => rfl
  | some n => exact h.inode_eq n (fs.lt_of_find hfind) (hn n hfind)

end Frame

theorem openRead_eq_some {fs fs' : FileSystem π} {p : π} {fd : Nat}
    (h : fs.openRead p = some (fs', fd)) :
    ∃ inode, fs.names.find p = some inode ∧ fs'.names = fs.names ∧ fs'.inodes = fs.inodes ∧
      fs'.files = fs.files ++ [⟨inode, 0, true⟩] ∧ fd = fs.files.length := by
  unfold openRead at h
  split at h
  · rename_i inode hfind
    cases h
    exact ⟨inode, hfind, rfl, rfl, rfl, rfl⟩
  · cases h

/-- What is read is the file that was opened. -/
theorem readAll_openRead {fs fs' : FileSystem π} {p : π} {fd : Nat}
    (h : fs.openRead p = some (fs', fd)) : fs'.readAll fd = fs.content p := by
  obtain ⟨inode, hfind, -, hinodes, hfiles, rfl⟩ := openRead_eq_some h
  simp [readAll, content, hfind, hinodes, hfiles]

theorem exists_openRead {fs : FileSystem π} {p : π} {content : List UInt8}
    (h : fs.content p = some content) : ∃ fs' fd, fs.openRead p = some (fs', fd) := by
  obtain ⟨inode, hfind, -⟩ := Option.bind_eq_some_iff.1 h
  unfold openRead
  split
  · exact ⟨_, _, rfl⟩
  · rename_i hnone
    rw [hfind] at hnone
    cases hnone

theorem frame_openRead {fs fs' : FileSystem π} {p : π} {fd : Nat}
    (h : fs.openRead p = some (fs', fd)) : Frame fs fs' ∅ ∅ ∅ := by
  obtain ⟨inode, -, hnames, hinodes, hfiles, -⟩ := openRead_eq_some h
  refine ⟨?_, ?_, ?_, by rw [hinodes], by simp [hfiles]⟩
  · intro q _
    rw [hnames]
  · intro n _ _
    rw [hinodes]
  · intro fd' hlt _
    rw [hfiles, List.getElem?_append_left hlt]

theorem frame_unlink (fs : FileSystem π) (p : π) : Frame fs (fs.unlink p) {p} ∅ ∅ where
  find_eq := by
    intro q hq
    exact (Table.find_erase _ _ _).trans (if_neg hq)
  inode_eq := fun _ _ _ => rfl
  file_eq := fun _ _ _ => rfl
  inodes_le := Nat.le_refl _
  files_le := Nat.le_refl _

theorem frame_remove {fs fs' : FileSystem π} {p : π} (h : fs.remove p = some fs') :
    Frame fs fs' {p} ∅ ∅ := by
  rcases Option.map_eq_some_iff.1 h with ⟨n, -, rfl⟩
  exact frame_unlink fs p

theorem frame_close {fs fs' : FileSystem π} {fd : Nat} (h : fs.close fd = some fs') :
    Frame fs fs' ∅ ∅ {fd} := by
  unfold close at h
  split at h
  · split at h
    · cases h
      refine ⟨fun _ _ => rfl, fun _ _ _ => rfl, ?_, Nat.le_refl _, by simp [setFile]⟩
      intro fd' _ hne
      exact List.getElem?_set_ne fun hEq => hne hEq.symm
    · cases h
  · cases h

omit [DecidableEq π] in
theorem exists_file_of_write {fs fs' : FileSystem π} {fd : Nat} {bytes : List UInt8}
    (h : fs.write fd bytes = some fs') : ∃ f, fs.files[fd]? = some f := by
  unfold write at h
  split at h
  · rename_i f hf
    exact ⟨f, hf⟩
  · cases h

theorem frame_write {fs fs' : FileSystem π} {fd : Nat} {bytes : List UInt8} {f : OpenFile}
    (h : fs.write fd bytes = some fs') (hfd : fs.files[fd]? = some f) :
    Frame fs fs' ∅ {f.inode} {fd} := by
  unfold write at h
  split at h
  · rename_i g hg
    have hEq : g = f := Option.some.inj (hg.symm.trans hfd)
    subst hEq
    split at h
    · cases h
      refine ⟨fun _ _ => rfl, ?_, ?_, by simp [modifyInode, setFile], by simp [modifyInode, setFile]⟩
      · intro n _ hne
        exact List.getElem?_modify_ne _ _ fun hEq => hne hEq.symm
      · intro fd' _ hne
        exact List.getElem?_set_ne fun hEq => hne hEq.symm
    · cases h
  · cases h

omit [DecidableEq π] in
/-- A write at the end of an inode, under whatever name. -/
theorem write_at_end {fs fs' : FileSystem π} {fd inode : Nat} {content bytes : List UInt8}
    (h : fs.write fd bytes = some fs')
    (hfd : fs.files[fd]? = some ⟨inode, content.length, true⟩)
    (hinode : fs.inodes[inode]? = some content) :
    fs'.files[fd]? = some ⟨inode, (content ++ bytes).length, true⟩ ∧
      fs'.inodes[inode]? = some (content ++ bytes) := by
  have hlt : fd < fs.files.length := (List.getElem?_eq_some_iff.1 hfd).1
  unfold write at h
  split at h
  · rename_i f hf
    have hEq : f = ⟨inode, content.length, true⟩ := Option.some.inj (hf.symm.trans hfd)
    subst hEq
    cases h
    refine ⟨?_, ?_⟩
    · simp [modifyInode, setFile, hlt]
    · simp [modifyInode, setFile, hinode, overwrite_length]
  · cases h

omit [DecidableEq π] in
theorem exists_close {fs : FileSystem π} {fd inode offset : Nat}
    (hfd : fs.files[fd]? = some ⟨inode, offset, true⟩) : ∃ fs', fs.close fd = some fs' := by
  unfold close
  split
  · rename_i f hf
    have hEq : f = ⟨inode, offset, true⟩ := Option.some.inj (hf.symm.trans hfd)
    subst hEq
    exact ⟨_, rfl⟩
  · rename_i hnone
    rw [hfd] at hnone
    cases hnone

omit [DecidableEq π] in
/-- A file that can be read is open. -/
theorem exists_close_of_readAll {fs : FileSystem π} {fd : Nat} {bytes : List UInt8}
    (h : fs.readAll fd = some bytes) : ∃ fs', fs.close fd = some fs' := by
  unfold readAll at h
  split at h
  · rename_i f hf
    split at h
    · rename_i hopen
      rw [show f = ⟨f.inode, f.offset, true⟩ by rw [← hopen]] at hf
      exact exists_close hf
    · cases h
  · cases h

omit [DecidableEq π] in
theorem close_eq_some {fs fs' : FileSystem π} {fd : Nat} (h : fs.close fd = some fs') :
    ∃ f, fs.files[fd]? = some f ∧ fs'.files[fd]? = some { f with isOpen := false } ∧
      fs'.inodes = fs.inodes := by
  unfold close at h
  split at h
  · rename_i f hf
    have hlt : fd < fs.files.length := (List.getElem?_eq_some_iff.1 hf).1
    split at h
    · cases h
      exact ⟨f, hf, by simp [setFile, hlt], rfl⟩
    · cases h
  · cases h

theorem frame_create (fs : FileSystem π) (p : π) :
    Frame fs (fs.create p).1 {p} {n | fs.names.find p = some n} ∅ := by
  unfold create
  split
  · rename_i inode hfind
    refine ⟨fun _ _ => rfl, ?_, ?_, by simp [openInode, modifyInode],
      by simp [openInode, modifyInode]⟩
    · intro n _ hne
      refine List.getElem?_modify_ne _ _ ?_
      rintro rfl
      exact hne hfind
    · intro fd hlt _
      exact List.getElem?_append_left hlt
  · refine ⟨?_, ?_, ?_, by simp [openInode, link, newInode], by simp [openInode, link, newInode]⟩
    · intro q hq
      exact Table.find_set_of_ne _ _ hq
    · intro n hlt _
      exact List.getElem?_append_left hlt
    · intro fd hlt _
      exact List.getElem?_append_left hlt

theorem rename_eq_some {fs fs' : FileSystem π} {old new : π} (h : fs.rename old new = some fs') :
    ∃ inode, fs.names.find old = some inode ∧ fs'.names = (fs.names.erase old).set new inode ∧
      fs'.inodes = fs.inodes ∧ fs'.files = fs.files := by
  unfold rename at h
  split at h
  · rename_i inode hfind
    cases h
    exact ⟨inode, hfind, rfl, rfl, rfl⟩
  · cases h

theorem frame_rename {fs fs' : FileSystem π} {old new : π} (h : fs.rename old new = some fs') :
    Frame fs fs' {old, new} ∅ ∅ := by
  obtain ⟨inode, -, hnames, hinodes, hfiles⟩ := rename_eq_some h
  refine ⟨?_, ?_, ?_, by rw [hinodes], by rw [hfiles]⟩
  · intro p hp
    simp only [Set.mem_insert_iff, Set.mem_singleton_iff, not_or] at hp
    rw [hnames, Table.find_set_of_ne _ _ hp.2, Table.find_erase, if_neg hp.1]
  · intro n _ _
    rw [hinodes]
  · intro fd _ _
    rw [hfiles]

/-! ## Open and closed descriptors -/

/-- Whether a descriptor is open; `none` for one that was never handed out. -/
def fdOpen (fs : FileSystem π) (fd : Nat) : Option Bool :=
  fs.files[fd]?.map OpenFile.isOpen

theorem Frame.fdOpen_eq {fs fs' : FileSystem π} {ps : Set π} {ns fds : Set Nat} {fd : Nat}
    (h : Frame fs fs' ps ns fds) (hlt : fd < fs.files.length) (hfd : fd ∉ fds) :
    fs'.fdOpen fd = fs.fdOpen fd := by
  rw [fdOpen, fdOpen, h.file_eq fd hlt hfd]

omit [DecidableEq π] in
theorem fdOpen_write {fs fs' : FileSystem π} {fd : Nat} {bytes : List UInt8}
    (h : fs.write fd bytes = some fs') (fd' : Nat) : fs'.fdOpen fd' = fs.fdOpen fd' := by
  unfold write at h
  split at h
  · rename_i f hf
    split at h
    · rename_i hopen
      cases h
      by_cases hEq : fd' = fd
      · subst hEq
        obtain ⟨hlt, rfl⟩ := List.getElem?_eq_some_iff.1 hf
        simp [fdOpen, modifyInode, setFile, hlt]
      · simp [fdOpen, modifyInode, setFile, List.getElem?_set_ne (Ne.symm hEq)]
    · cases h
  · cases h

omit [DecidableEq π] in
/-- A close leaves the descriptor closed, whether it succeeds or not. -/
theorem fdOpen_close (fs : FileSystem π) {fd : Nat} (hlt : fd < fs.files.length) :
    ((fs.close fd).getD fs).fdOpen fd = some false := by
  have hf : fs.files[fd]? = some fs.files[fd] := List.getElem?_eq_getElem hlt
  unfold close
  split
  · rename_i f hfile
    split
    · simp [fdOpen, setFile, hlt]
    · rename_i hclosed
      simp only [Option.getD_none, fdOpen, hfile, Option.map_some]
      simpa using hclosed
  · rename_i hnone
    rw [hf] at hnone
    cases hnone

omit [DecidableEq π] in
theorem fdOpen_length_append {fs : FileSystem π} {files : List OpenFile} {f : OpenFile}
    (h : fs.files = files ++ [f]) : fs.fdOpen files.length = some f.isOpen := by
  simp [fdOpen, h]

theorem fdOpen_create (fs : FileSystem π) (p : π) :
    (fs.create p).1.fdOpen fs.files.length = some true := by
  unfold create
  split
  · simp [fdOpen, openInode, modifyInode]
  · simp [fdOpen, openInode, link, newInode]

/-! ## One name for each file -/

/-- No file has two names. -/
def Unlinked (fs : FileSystem π) : Prop :=
  ∀ p q n, fs.names.find p = some n → fs.names.find q = some n → p = q

theorem find_unlink (fs : FileSystem π) (p q : π) :
    (fs.unlink p).names.find q = if q = p then none else fs.names.find q :=
  Table.find_erase _ _ _

theorem find_create (fs : FileSystem π) (p : π) {n : Nat}
    (h : (fs.create p).1.names.find p = some n) :
    fs.names.find p = some n ∨ n = fs.inodes.length := by
  unfold create at h
  split at h
  · exact .inl h
  · have hEq : fs.inodes.length = n := by simpa [openInode, link] using h
    exact .inr hEq.symm

/-- The descriptor of a created file is a new one. -/
theorem create_fd (fs : FileSystem π) (p : π) :
    (fs.create p).2 = fs.files.length ∧ (fs.create p).2 < (fs.create p).1.files.length := by
  unfold create
  split
  · simp [openInode, modifyInode]
  · simp [openInode, link, newInode]

theorem Unlinked.of_names {fs fs' : FileSystem π} (h : fs.Unlinked)
    (hnames : ∀ p n, fs'.names.find p = some n → fs.names.find p = some n) : fs'.Unlinked :=
  fun p q n hp hq => h p q n (hnames p n hp) (hnames q n hq)

theorem Unlinked.create {fs : FileSystem π} (h : fs.Unlinked) (p : π) :
    (fs.create p).1.Unlinked := by
  have hframe := frame_create fs p
  -- A new name points to a new inode.
  have hother : ∀ q n, q ≠ p → (fs.create p).1.names.find q = some n →
      fs.names.find q = some n := by
    intro q n hq hfind
    rwa [hframe.find_eq q hq] at hfind
  have hclash : ∀ q n, q ≠ p → (fs.create p).1.names.find p = some n →
      (fs.create p).1.names.find q = some n → False := by
    intro q n hq hp hfind
    have hold := hother q n hq hfind
    rcases find_create fs p hp with hp | rfl
    · exact hq (h q p n hold hp)
    · exact Nat.lt_irrefl _ (fs.lt_of_find hold)
  intro q r n hq hr
  by_cases hqp : q = p
  · subst hqp
    by_contra hne
    exact hclash r n (Ne.symm hne) hq hr
  · by_cases hrp : r = p
    · subst hrp
      exact (hclash q n hqp hr hq).elim
    · exact h q r n (hother q n hqp hq) (hother r n hrp hr)

theorem Unlinked.rename {fs fs' : FileSystem π} {old new : π} (h : fs.Unlinked)
    (hrename : fs.rename old new = some fs') : fs'.Unlinked := by
  obtain ⟨inode, hold, hnames, -, -⟩ := rename_eq_some hrename
  have hfind : ∀ p n, fs'.names.find p = some n →
      (p = new ∧ n = inode) ∨ (p ≠ new ∧ p ≠ old ∧ fs.names.find p = some n) := by
    intro p n hp
    rw [hnames] at hp
    by_cases hpn : p = new
    · subst hpn
      rw [Table.find_set_self] at hp
      exact .inl ⟨rfl, (Option.some.inj hp).symm⟩
    · rw [Table.find_set_of_ne _ _ hpn, Table.find_erase] at hp
      split at hp
      · cases hp
      · rename_i hpo
        exact .inr ⟨hpn, hpo, hp⟩
  intro p q n hp hq
  rcases hfind p n hp with ⟨rfl, rfl⟩ | ⟨hpn, hpo, hp⟩ <;>
    rcases hfind q n hq with ⟨rfl, hn⟩ | ⟨hqn, hqo, hq⟩
  · rfl
  · exact (hqo (h q old n hq hold)).elim
  · subst hn
    exact (hpo (h p old n hp hold)).elim
  · exact h p q n hp hq

end FileSystem

end Lib
end OpenWeights
