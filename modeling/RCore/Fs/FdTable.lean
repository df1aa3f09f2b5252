import Mathlib.Logic.Function.Basic
import Mathlib.Data.List.Basic

/-!
# Descriptor tables

Every process has a vector of open files; a new descriptor is the lowest free one.  The
table stands for a partial function from descriptors to files, and each call changes it
at one descriptor.
-/

namespace RCore.Fs

open Function List Option

/-- `fd_table`, over the files `F`. -/
abbrev FdTable (F : Type) := List (Option F)

variable {F : Type}

namespace FdTable

/-! ## The calls -/

def allocFd (self : FdTable F) : Nat × FdTable F :=
  match self.findIdx? Option.isNone with
  | some fd => (fd, self)
  | none => (self.length, self ++ [none])

/-- `fd_table[fd] = file`. -/
def put (self : FdTable F) (fd : Nat) (file : Option F) : FdTable F := self.set fd file

/-- `file` is what `open_file` returns. -/
def sysOpen (self : FdTable F) (file : Option F) : Int × FdTable F :=
  match file with
  | some inode =>
      let (fd, self) := self.allocFd
      (fd, self.put fd (some inode))
  | none => (-1, self)

def sysClose (self : FdTable F) (fd : Nat) : Int × FdTable F :=
  match self[fd]? with
  | none => (-1, self)
  | some none => (-1, self)
  | some (some _) => (0, self.put fd none)

/-- The two descriptors that `sys_pipe` stores, for the ends that `make_pipe` returns. -/
def sysPipe (self : FdTable F) (pipeRead pipeWrite : F) : (Nat × Nat) × FdTable F :=
  let (readFd, self) := self.allocFd
  let self := self.put readFd (some pipeRead)
  let (writeFd, self) := self.allocFd
  let self := self.put writeFd (some pipeWrite)
  ((readFd, writeFd), self)

def sysDup (self : FdTable F) (fd : Nat) : Int × FdTable F :=
  match self[fd]? with
  | none => (-1, self)
  | some none => (-1, self)
  | some (some file) =>
      let (newFd, self) := self.allocFd
      (newFd, self.put newFd (some file))

/-- The loop of `fork` that fills the table of the child. -/
def copy : FdTable F → FdTable F
  | [] => []
  | some file :: rest => some file :: copy rest
  | none :: rest => none :: copy rest

theorem copy_eq (t : FdTable F) : t.copy = t := by
  induction t with
  | nil => rfl
  | cons entry rest ih => cases entry <;> rw [copy, ih]

/-! ## The table as a partial function -/

/-- The file behind a descriptor. -/
def file (self : FdTable F) (fd : Nat) : Option F := self[fd]?.join

/-- `fd` is the lowest descriptor without a file. -/
def IsLowest (files : Nat → Option F) (fd : Nat) : Prop :=
  files fd = none ∧ ∀ lower < fd, files lower ≠ none

theorem IsLowest.unique {files : Nat → Option F} {fd fd' : Nat} (h : IsLowest files fd)
    (h' : IsLowest files fd') : fd = fd' := by
  rcases Nat.lt_trichotomy fd fd' with hlt | heq | hgt
  · exact absurd h.1 (h'.2 fd hlt)
  · exact heq
  · exact absurd h'.1 (h.2 fd' hgt)

variable {t t' : FdTable F} {fd : Nat} {f : F}

theorem file_of_lt (h : fd < t.length) : t.file fd = t[fd] := by
  rw [file, getElem?_eq_getElem h, join_some]

theorem file_of_length_le (h : t.length ≤ fd) : t.file fd = none := by
  rw [file, getElem?_eq_none h, join_none]

theorem lt_of_file (h : t.file fd = some f) : fd < t.length := by
  by_contra hge
  rw [file_of_length_le (Nat.le_of_not_lt hge)] at h
  exact absurd h (some_ne_none f).symm

theorem file_put (h : fd < t.length) (x : Option F) :
    (t.put fd x).file = update t.file fd x := by
  funext other
  rw [update_apply, file, put, getElem?_set]
  by_cases heq : other = fd
  · rw [if_pos heq.symm, if_pos heq, if_pos h, join_some]
  · rw [if_neg (Ne.symm heq), if_neg heq, file]

theorem file_append_none (t : FdTable F) : file (t ++ [none]) = t.file := by
  funext fd
  rcases Nat.lt_trichotomy fd t.length with hlt | rfl | hgt
  · rw [file, file, getElem?_append_left hlt]
  · simp [file]
  · have hlength : (t ++ [none]).length ≤ fd := by
      rw [length_append]
      exact hgt
    rw [file_of_length_le hlength, file_of_length_le (Nat.le_of_lt hgt)]

theorem allocFd_spec (t : FdTable F) :
    IsLowest t.file t.allocFd.1 ∧ t.allocFd.1 < t.allocFd.2.length ∧ t.allocFd.2.file = t.file := by
  rw [allocFd]
  cases hfind : t.findIdx? isNone with
  | none =>
    simp only [findIdx?_eq_none_iff, isNone_eq_false_iff] at hfind
    refine ⟨⟨file_of_length_le (Nat.le_refl _), fun lower hlower => ?_⟩, by simp, file_append_none t⟩
    rw [file_of_lt hlower]
    exact isSome_iff_ne_none.mp (hfind _ (getElem_mem hlower))
  | some fd =>
    obtain ⟨hlt, hnone, hbefore⟩ := findIdx?_eq_some_iff_getElem.mp hfind
    refine ⟨⟨?_, fun lower hlower => ?_⟩, hlt, rfl⟩
    · rw [file_of_lt hlt]
      exact isNone_iff_eq_none.mp hnone
    · rw [file_of_lt (Nat.lt_trans hlower hlt)]
      simpa using hbefore lower hlower

theorem put_allocFd (h : IsLowest t.file fd) (f : F) :
    t.allocFd.1 = fd ∧ (t.allocFd.2.put t.allocFd.1 (some f)).file =
      update t.file fd (some f) := by
  obtain ⟨hlowest, hlt, hfile⟩ := t.allocFd_spec
  have hfd := hlowest.unique h
  refine ⟨hfd, ?_⟩
  rw [file_put hlt, hfile, hfd]

theorem sysOpen_spec (h : IsLowest t.file fd) (f : F) :
    (t.sysOpen (some f)).1 = fd ∧
      (t.sysOpen (some f)).2.file = update t.file fd (some f) := by
  obtain ⟨hfd, hfile⟩ := put_allocFd h f
  exact ⟨congrArg Int.ofNat hfd, hfile⟩

theorem sysDup_spec {old : Nat} (hold : t.file old = some f) (h : IsLowest t.file fd) :
    (t.sysDup old).1 = fd ∧ (t.sysDup old).2.file = update t.file fd (some f) := by
  have hlt := lt_of_file hold
  have hget : t[old]? = some (some f) := by
    rw [file_of_lt hlt] at hold
    rw [getElem?_eq_getElem hlt, hold]
  obtain ⟨hfd, hfile⟩ := put_allocFd h f
  rw [sysDup, hget]
  exact ⟨congrArg Int.ofNat hfd, hfile⟩

theorem sysPipe_spec {readFd writeFd : Nat} {pipeRead pipeWrite : F} (h : IsLowest t.file readFd)
    (h' : IsLowest (update t.file readFd (some pipeRead)) writeFd) :
    (t.sysPipe pipeRead pipeWrite).1 = (readFd, writeFd) ∧
      (t.sysPipe pipeRead pipeWrite).2.file =
        update (update t.file readFd (some pipeRead)) writeFd (some pipeWrite) := by
  obtain ⟨hread, hfile⟩ := put_allocFd h pipeRead
  rw [← hfile] at h' ⊢
  obtain ⟨hwrite, hfile'⟩ := put_allocFd h' pipeWrite
  refine ⟨?_, hfile'⟩
  rw [← hread, ← hwrite]
  rfl

theorem file_sysClose (t : FdTable F) (fd : Nat) :
    (t.sysClose fd).2.file = update t.file fd none := by
  have hunchanged : t.file fd = none → t.file = update t.file fd none := by
    intro hnone
    rw [← hnone, update_eq_self]
  rw [sysClose]
  cases hget : t[fd]? with
  | none => exact hunchanged (by rw [file, hget, join_none])
  | some entry =>
    cases entry with
    | none => exact hunchanged (by rw [file, hget, join_some])
    | some f => exact file_put (List.getElem?_eq_some_iff.mp hget).1 none

/-! ## Tables without gaps -/

/-- The partial function with the given files from 0 on. -/
def listed (files : List F) (fd : Nat) : Option F := files[fd]?

/-- The open descriptors are those below the length of the list, on its files. -/
def Opens (t : FdTable F) (files : List F) : Prop := t.file = listed files

variable {files : List F}

theorem listed_of_lt (h : fd < files.length) : listed files fd = some files[fd] :=
  getElem?_eq_getElem h

theorem listed_of_length_le (h : files.length ≤ fd) : listed files fd = none :=
  getElem?_eq_none h

theorem opens_map_some (files : List F) : Opens (files.map some) files := by
  funext fd
  rw [file, listed, getElem?_map]
  cases files[fd]? <;> rfl

theorem isLowest_listed (files : List F) : IsLowest (listed files) files.length := by
  refine ⟨listed_of_length_le (Nat.le_refl _), fun lower hlower => ?_⟩
  rw [listed_of_lt hlower]
  exact some_ne_none _

theorem update_listed_length (files : List F) (f : F) :
    update (listed files) files.length (some f) = listed (files ++ [f]) := by
  funext fd
  rw [update_apply]
  rcases Nat.lt_trichotomy fd files.length with hlt | rfl | hgt
  · rw [if_neg (Nat.ne_of_lt hlt), listed, listed, getElem?_append_left hlt]
  · simp [listed]
  · have hlength : (files ++ [f]).length ≤ fd := by
      rw [length_append]
      exact hgt
    rw [if_neg (Nat.ne_of_gt hgt), listed_of_length_le (Nat.le_of_lt hgt),
      listed_of_length_le hlength]

theorem update_listed_last (files : List F) (f : F) :
    update (listed (files ++ [f])) files.length none = listed files := by
  rw [← update_listed_length, update_idem]
  exact update_eq_self_iff.mpr (listed_of_length_le (Nat.le_refl _)).symm

theorem update_listed_of_lt (h : fd < files.length) (f : F) :
    update (listed files) fd (some f) = listed (files.set fd f) := by
  funext other
  rw [update_apply, listed, listed, getElem?_set]
  by_cases heq : other = fd
  · rw [if_pos heq, if_pos heq.symm, if_pos h]
  · rw [if_neg heq, if_neg (Ne.symm heq)]

theorem isLowest_update_listed (h : fd < files.length) :
    IsLowest (update (listed files) fd none) fd := by
  refine ⟨update_self .., fun lower hlower => ?_⟩
  rw [update_of_ne (Nat.ne_of_lt hlower), listed_of_lt (Nat.lt_trans hlower h)]
  exact some_ne_none _

end FdTable

end RCore.Fs
