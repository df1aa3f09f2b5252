import RCore.EasyFs.FsOps

/-!
# The root directory

The root directory is a file of 32-byte entries.  Entry `i` holds the name of the
file created as number `i` and its inode number `i + 1`, so that the bytes of the
directory are determined by the list of names in creation order.
-/

namespace RCore.EasyFs

open RCore.Lib.LockedStore Function List UInt32 DiskInode Inode DirEntry
open Prog (withModify withRead check)
open Prog (panics_bind_left run_bind_some run_check_true stops_bind stops_pure)
open EasyFileSystem (allocInode diskInode writeInode)

/-! ## Directory contents -/

/-- The bytes of the entries for the names `names`, the first of them with inode number
`first`. -/
def entriesFrom (first : Nat) : List String → List UInt8
  | [] => []
  | name :: names =>
      (DirEntry.ofName name (UInt32.ofNat first)).asBytes ++ entriesFrom (first + 1) names

/-- The bytes of a directory whose files were created in the order of `names`. -/
def dirBytes (names : List String) : List UInt8 := entriesFrom 1 names

theorem length_entriesFrom (first : Nat) (names : List String) :
    (entriesFrom first names).length = 32 * names.length := by
  induction names generalizing first with
  | nil => rfl
  | cons name names ih =>
    rw [entriesFrom, length_append, length_asBytes, ih, length_cons]
    omega

@[simp] theorem length_dirBytes (names : List String) :
    (dirBytes names).length = 32 * names.length := length_entriesFrom 1 names

theorem entriesFrom_append (first : Nat) (l m : List String) :
    entriesFrom first (l ++ m) = entriesFrom first l ++ entriesFrom (first + l.length) m := by
  induction l generalizing first with
  | nil => rfl
  | cons name l ih =>
    have hfirst : first + 1 + l.length = first + (name :: l).length := by
      rw [length_cons]
      omega
    rw [cons_append, entriesFrom, entriesFrom, ih, hfirst, append_assoc]

/-- The bytes of entry `i`. -/
theorem take_drop_entriesFrom (first : Nat) {names : List String} {i : Nat} {name : String}
    (h : names[i]? = some name) :
    ((entriesFrom first names).drop (32 * i)).take 32 =
      (ofName name (ofNat (first + i))).asBytes := by
  induction names generalizing first i with
  | nil => simp at h
  | cons n names ih =>
    cases i with
    | zero =>
      simp only [getElem?_cons_zero, Option.some.injEq] at h
      subst h
      exact take_left' (length_asBytes _)
    | succ i =>
      have hi : first + (i + 1) = first + 1 + i := by omega
      rw [entriesFrom, Nat.mul_succ, Nat.add_comm (32 * i) 32, ← drop_drop,
        drop_left' (length_asBytes _), hi]
      exact ih (first + 1) (by simpa using h)

/-- What `create` makes of the bytes of a directory: it writes the new entry behind the last
whole one. -/
def addEntry (root : List UInt8) (name : String) (number : UInt32) : List UInt8 :=
  writeBytes root (32 * (root.length / 32)) (DirEntry.ofName name number).asBytes

/-- In a directory of whole entries, the new one follows the others. -/
theorem addEntry_dirBytes (names : List String) (name : String) :
    addEntry (dirBytes names) name (ofNat (names.length + 1)) =
      dirBytes (names ++ [name]) := by
  have hcount : (dirBytes names).length / 32 = names.length := by
    rw [length_dirBytes]
    omega
  rw [addEntry, hcount]
  symm
  have happend : dirBytes (names ++ [name]) = dirBytes names ++
      (ofName name (ofNat (names.length + 1))).asBytes := by
    rw [dirBytes, entriesFrom_append, entriesFrom, entriesFrom, append_nil, Nat.add_comm 1]
    rfl
  rw [happend]
  apply ext_getElem
  · simp only [length_append, length_dirBytes, length_asBytes, length_writeBytes]
    omega
  · intro i hi hi'
    have hw := getD_writeBytes (dirBytes names) (32 * names.length)
      (ofName name (ofNat (names.length + 1))).asBytes i
    rw [getElem?_eq_getElem hi', Option.getD_some] at hw
    rw [hw]
    simp only [length_append, length_dirBytes, length_asBytes] at hi
    by_cases hlt : i < 32 * names.length
    · have hlt' : i < (dirBytes names).length := by simpa using hlt
      rw [if_neg (by omega), getElem_append_left hlt', getElem?_eq_getElem hlt']
      rfl
    · have hin : 32 * names.length ≤ i ∧ i < 32 * names.length +
          (ofName name (ofNat (names.length + 1))).asBytes.length := by
        rw [length_asBytes]
        omega
      rw [if_pos hin, getElem_append_right (by simpa using hin.1)]
      simp only [length_dirBytes]
      rw [getElem?_eq_getElem (by omega)]
      rfl

/-! ## Searching and listing -/

section Run

variable {efs : EasyFileSystem} {b db d : Nat} {sb : SuperBlock} {blk : Nat → Block}
  {contents : List (List UInt8)} {names : List String} {cap : Nat} {ro : Bool} {x : Nat}

/-- Inode number of a name: the first position at which it occurs, plus one. -/
def inodeIdOf (names : List String) (name : String) : Option UInt32 :=
  (names.idxOf? name).map fun i => UInt32.ofNat (i + 1)

section

variable (h : FsInv efs b d sb blk contents)
include h

/-- Reading entry `i` of a file that has that many bytes. -/
theorem run_readDirEntry_of_le (hg : Geometry efs b db d) (hcap : 1 < cap) {k : Nat}
    {c : List UInt8} (hc : contents[k]? = some c) (hx : x < 1 + 1025 * b) {i : Nat}
    (hi : 32 * i + 32 ≤ c.length) (dirent : DirEntry) :
    (readDirEntry (efs.diskInode blk k) i dirent).run cap ro ⟨blk, [x]⟩ =
      some (ofBytes ((c.drop (32 * i)).take 32), ⟨blk, [x]⟩) := by
  have hbound := (h.rep hc).bound
  have hbytes : readBytes c (direntSz * i) dirent.asBytes =
      (32, (c.drop (32 * i)).take 32) := by
    have hmin : min dirent.asBytes.length (c.length - direntSz * i) = 32 := by
      rw [length_asBytes, direntSz]
      omega
    have hdrop : dirent.asBytes.drop 32 = [] :=
      drop_eq_nil_of_le (by rw [length_asBytes])
    simp only [readBytes, hmin, hdrop, append_nil]
    rfl
  have hoff : direntSz * i < 2 ^ 64 := by
    rw [direntSz]
    omega
  have hlen : dirent.asBytes.length < 2 ^ 63 := by
    rw [length_asBytes]
    omega
  rw [readDirEntry, run_bind_some (run_readAt_file h hg hcap hc hx hoff hlen), hbytes]
  change (do
    check true
    pure (ofBytes ((c.drop (32 * i)).take 32)) : FsProg DirEntry).run cap ro _ = _
  rw [run_bind_some (run_check_true _)]
  rfl

/-- Reading entry `i` of the root directory. -/
theorem run_readDirEntry (hg : Geometry efs b db d) (hcap : 1 < cap)
    (hdir : contents[0]? = some (dirBytes names)) (hx : x < 1 + 1025 * b) {i : Nat}
    {name : String} (hi : names[i]? = some name) (dirent : DirEntry) :
    (readDirEntry (efs.diskInode blk 0) i dirent).run cap ro ⟨blk, [x]⟩ =
      some (ofName name (ofNat (i + 1)), ⟨blk, [x]⟩) := by
  obtain ⟨hlt, -⟩ := List.getElem?_eq_some_iff.mp hi
  have hle : 32 * i + 32 ≤ (dirBytes names).length := by
    rw [length_dirBytes]
    omega
  have hentry := take_drop_entriesFrom 1 hi
  rw [Nat.add_comm 1 i] at hentry
  rw [run_readDirEntry_of_le h hg hcap hdir hx hle dirent, dirBytes, hentry, ofBytes_asBytes]

theorem run_findLoop (hg : Geometry efs b db d) (hcap : 1 < cap)
    (hdir : contents[0]? = some (dirBytes names)) (hx : x < 1 + 1025 * b)
    (hnames : ∀ n ∈ names, NameOk n) (name : String) {pre rest : List String}
    (hsplit : names = pre ++ rest) (dirent : DirEntry) :
    (findLoop name (efs.diskInode blk 0) (List.range' pre.length rest.length) dirent).run cap
        ro ⟨blk, [x]⟩ =
      some ((rest.idxOf? name).map fun i => ofNat (pre.length + i + 1), ⟨blk, [x]⟩) := by
  induction rest generalizing pre dirent with
  | nil => rfl
  | cons n rest ih =>
    have hi : names[pre.length]? = some n := by
      rw [hsplit, getElem?_append_right (Nat.le_refl _), Nat.sub_self]
      rfl
    have hok : NameOk n := hnames n (by rw [hsplit]; simp)
    rw [length_cons, range'_succ, findLoop,
      run_bind_some (run_readDirEntry h hg hcap hdir hx hi dirent),
      run_bind_some (run_nameStr hok _)]
    by_cases he : n = name
    · rw [if_pos he]
      simp [he, idxOf?_cons, ofName]
    · have hsplit' : names = (pre ++ [n]) ++ rest := by
        rw [hsplit]
        simp
      have hnext := ih hsplit' (ofName n (ofNat (pre.length + 1)))
      rw [length_append, length_singleton] at hnext
      rw [if_neg he, hnext, idxOf?_cons]
      simp only [beq_iff_eq, he, if_false, Option.map_map]
      congr 3
      funext i
      simp only [Function.comp_apply]
      congr 1
      omega

theorem isDir_root (hlt : 0 < contents.length) : (efs.diskInode blk 0).isDir = true := by
  rw [isDir, h.types 0 hlt]
  rfl

theorem entries_eq {root : List UInt8} (hdir : contents[0]? = some root) :
    (efs.diskInode blk 0).size.toNat / direntSz = root.length / 32 := by
  rw [(h.rep hdir).size, direntSz]

theorem entries_dirBytes (hdir : contents[0]? = some (dirBytes names)) :
    (efs.diskInode blk 0).size.toNat / direntSz = names.length := by
  rw [entries_eq h hdir, length_dirBytes]
  omega

end

section

variable (h : FsInv efs b d sb blk contents) (hg : Geometry efs b db d) (hcap : 1 < cap)
  (hdir : contents[0]? = some (dirBytes names))
include h hg hcap hdir

theorem run_findInodeId (hx : x < 1 + 1025 * b) (hnames : ∀ n ∈ names, NameOk n) (name : String) :
    (findInodeId name (efs.diskInode blk 0)).run cap ro ⟨blk, [x]⟩ =
      some (inodeIdOf names name, ⟨blk, [x]⟩) := by
  obtain ⟨hlt, -⟩ := List.getElem?_eq_some_iff.mp hdir
  have hloop : (findLoop name (efs.diskInode blk 0) (List.range' 0 names.length)
      empty).run cap ro ⟨blk, [x]⟩ = _ :=
    run_findLoop h hg hcap hdir hx hnames name (nil_append names).symm empty
  rw [findInodeId, isDir_root h hlt, entries_dirBytes h hdir,
    run_bind_some (run_check_true _), range_eq_range', inodeIdOf]
  simpa using hloop

theorem run_lsLoop (hx : x < 1 + 1025 * b) (hnames : ∀ n ∈ names, NameOk n)
    {pre rest : List String} (hsplit : names = pre ++ rest) :
    (lsLoop (efs.diskInode blk 0) (List.range' pre.length rest.length) pre).run cap ro
        ⟨blk, [x]⟩ = some (names, ⟨blk, [x]⟩) := by
  induction rest generalizing pre with
  | nil =>
    rw [append_nil] at hsplit
    rw [hsplit]
    rfl
  | cons n rest ih =>
    have hi : names[pre.length]? = some n := by
      rw [hsplit, getElem?_append_right (Nat.le_refl _), Nat.sub_self]
      rfl
    have hok : NameOk n := hnames n (by rw [hsplit]; simp)
    have hsplit' : names = (pre ++ [n]) ++ rest := by
      rw [hsplit]
      simp
    have hnext := ih hsplit'
    rw [length_append, length_singleton] at hnext
    rw [length_cons, range'_succ, lsLoop,
      run_bind_some (run_readDirEntry h hg hcap hdir hx hi empty),
      run_bind_some (run_nameStr hok _)]
    exact hnext

/-- `find` looks the name up and changes no block. -/
theorem run_find (hnames : ∀ n ∈ names, NameOk n) (name : String) :
    ((rootInode efs).find efs name).run cap ro ⟨blk, []⟩ =
      some ((inodeIdOf names name).map (ofId efs), ⟨blk, []⟩) := by
  obtain ⟨hlt, -⟩ := List.getElem?_eq_some_iff.mp hdir
  have hb := hg.inodeBitmap_pos
  refine run_readFile h hg hlt (by omega) ?_
  exact (run_bind_some (run_findInodeId h hg hcap hdir (by omega) hnames name)).trans rfl

/-- `ls` returns the names in creation order and changes no block. -/
theorem run_ls (hnames : ∀ n ∈ names, NameOk n) :
    (rootInode efs).ls.run cap ro ⟨blk, []⟩ = some (names, ⟨blk, []⟩) := by
  obtain ⟨hlt, -⟩ := List.getElem?_eq_some_iff.mp hdir
  have hb := hg.inodeBitmap_pos
  refine run_readFile h hg hlt (by omega) ?_
  rw [entries_dirBytes h hdir, range_eq_range']
  exact run_lsLoop h hg hcap hdir (by omega) hnames (nil_append names).symm

end

/-! ## Creating a file -/

section

variable (h : FsInv efs b d sb blk contents) (hg : Geometry efs b db d) (hcap : 1 < cap)
  (hdir : contents[0]? = some (dirBytes names)) (hnames : ∀ n ∈ names, NameOk n)
include h hg hcap hdir hnames

/-- The search of `create` finds what `find` finds. -/
theorem run_searchForCreate (name : String) :
    ((rootInode efs).searchForCreate name).run cap ro ⟨blk, []⟩ =
      some (inodeIdOf names name, ⟨blk, []⟩) := by
  obtain ⟨hlt, -⟩ := List.getElem?_eq_some_iff.mp hdir
  have hb := hg.inodeBitmap_pos
  refine run_putBack h hg hlt (by omega) ?_
  rw [searchBody, isDir_root h hlt, run_bind_some (run_check_true _)]
  exact run_findInodeId h hg hcap hdir (by omega) hnames name

/-- `create` of a name that exists returns nothing and changes no block. -/
theorem run_create_existing {name : String} (hmem : name ∈ names) :
    ((rootInode efs).create efs name).run cap ro ⟨blk, []⟩ = some (none, ⟨blk, []⟩) := by
  have hfound : (inodeIdOf names name).isSome = true := by
    rw [inodeIdOf, Option.isSome_map, isSome_idxOf?]
    exact hmem
  rw [create, run_bind_some (run_searchForCreate h hg hcap hdir hnames name), if_pos hfound]
  rfl

end

/-! ## Directories of any bytes

A name of 28 bytes has no terminator and cannot be read back, and the bytes of a directory
may also be written as those of a file.  On such a directory the searches still change no
block; they return or they stop. -/

section AnyBytes

variable {k : Nat} {c : List UInt8} (h : FsInv efs b d sb blk contents)
  (hg : Geometry efs b db d) (hcap : 1 < cap) (hk : contents[k]? = some c)
include h hg hcap hk

theorem stops_findLoop (hx : x < 1 + 1025 * b) (name : String) {l : List Nat}
    (hl : ∀ i ∈ l, 32 * i + 32 ≤ c.length) (dirent : DirEntry) :
    (findLoop name (efs.diskInode blk k) l dirent).Stops cap ⟨blk, [x]⟩ := by
  induction l generalizing dirent with
  | nil => exact stops_pure _
  | cons i l ih =>
    have hread : (readDirEntry (efs.diskInode blk k) i dirent).run cap true ⟨blk, [x]⟩ =
        some (ofBytes ((c.drop (32 * i)).take 32), ⟨blk, [x]⟩) :=
      run_readDirEntry_of_le h hg hcap hk hx (hl i mem_cons_self) dirent
    refine stops_bind (Or.inl ⟨_, hread⟩) fun entry => ?_
    refine stops_bind entry.stops_nameStr fun n => ?_
    split
    · exact stops_pure _
    · exact ih (fun j hj => hl j (mem_cons_of_mem _ hj)) entry

theorem stops_lsLoop (hx : x < 1 + 1025 * b) {l : List Nat}
    (hl : ∀ i ∈ l, 32 * i + 32 ≤ c.length) (v : List String) :
    (lsLoop (efs.diskInode blk k) l v).Stops cap ⟨blk, [x]⟩ := by
  induction l generalizing v with
  | nil => exact stops_pure _
  | cons i l ih =>
    have hread : (readDirEntry (efs.diskInode blk k) i empty).run cap true
          ⟨blk, [x]⟩ = some (ofBytes ((c.drop (32 * i)).take 32), ⟨blk, [x]⟩) :=
      run_readDirEntry_of_le h hg hcap hk hx (hl i mem_cons_self) empty
    refine stops_bind (Or.inl ⟨_, hread⟩) fun entry => ?_
    refine stops_bind entry.stops_nameStr fun n => ?_
    exact ih (fun j hj => hl j (mem_cons_of_mem _ hj)) _

omit hg hcap in
theorem entry_le : ∀ i ∈ List.range ((efs.diskInode blk k).size.toNat / direntSz),
    32 * i + 32 ≤ c.length := by
  intro i hi
  rw [mem_range, (h.rep hk).size, direntSz] at hi
  omega

theorem stops_findInodeId (hx : x < 1 + 1025 * b) (name : String) :
    (findInodeId name (efs.diskInode blk k)).Stops cap ⟨blk, [x]⟩ :=
  stops_bind (Prog.stops_check _) fun _ =>
    stops_findLoop h hg hcap hk hx name (entry_le h hk) empty

theorem stops_find (name : String) :
    ((ofId efs (ofNat k)).find efs name).Stops cap ⟨blk, []⟩ := by
  obtain ⟨hlt, -⟩ := List.getElem?_eq_some_iff.mp hk
  have hcount := h.count
  refine stops_readFile h hg hlt (by omega) ?_
  exact stops_bind (stops_findInodeId h hg hcap hk (by omega) name) fun _ =>
    stops_pure _

theorem stops_ls : (ofId efs (ofNat k)).ls.Stops cap ⟨blk, []⟩ := by
  obtain ⟨hlt, -⟩ := List.getElem?_eq_some_iff.mp hk
  have hcount := h.count
  refine stops_readFile h hg hlt (by omega) ?_
  exact stops_lsLoop h hg hcap hk (by omega) (entry_le h hk) []

theorem stops_search (name : String) :
    ((ofId efs (ofNat k)).searchForCreate name).Stops cap ⟨blk, []⟩ := by
  obtain ⟨hlt, -⟩ := List.getElem?_eq_some_iff.mp hk
  have hcount := h.count
  refine stops_putBack h hg hlt (by omega) ?_
  exact stops_bind (Prog.stops_check _) fun _ =>
    stops_findInodeId h hg hcap hk (by omega) name

omit hg hcap in
/-- `create` on an inode that is no directory stops at its assertion. -/
theorem panics_create (hcap : 0 < cap) (hne : k ≠ 0) (name : String) :
    ((ofId efs (ofNat k)).create efs name).Panics cap ⟨blk, []⟩ := by
  obtain ⟨hlt, -⟩ := List.getElem?_eq_some_iff.mp hk
  have htype : (efs.diskInode blk k).isDir = false := by
    rw [isDir, h.types k hlt, inodeType, if_neg hne]
    rfl
  have hbody : (searchBody name (efs.diskInode blk k)).Panics cap
      ⟨blk, [(ofId efs (ofNat k)).blockId]⟩ := by
    rw [searchBody, htype]
    exact panics_bind_left Prog.panics_check_false _
  rw [diskInode] at hbody
  rw [create]
  refine panics_bind_left ?_ _
  rw [searchForCreate]
  exact panics_modifyDiskInode not_mem_nil hcap (panics_bind_left hbody _)

end AnyBytes

end Run

namespace FsInv

variable {efs : EasyFileSystem} {b db d : Nat} {sb : SuperBlock} {blk : Nat → Block}
  {contents : List (List UInt8)}

theorem inodeBits_setBit (h : FsInv efs b d sb blk contents) {k : Nat} (hk : k < 4096 * b) :
    efs.inodeBitmap.bitAt (efs.inodeBitmap.setBit blk contents.length) k =
      decide (k < (contents ++ [[]]).length) := by
  rw [Bitmap.bitAt_setBit, h.inodeBits k hk, length_append, length_singleton, ← Bool.decide_or]
  congr 1
  apply propext
  omega

/-- A new inode: its bit is set and its record stands for the empty file. -/
theorem push (h : FsInv efs b d sb blk contents) (hg : Geometry efs b db d)
    (hcount : contents.length < 4096 * b) (hlt : contents.length + 1 < 2 ^ 32) :
    Renewed efs b d sb blk contents (update (efs.inodeBitmap.setBit blk contents.length)
        (1 + b + contents.length / 4)
        ((initial (inodeType contents.length)).toBlock
          (blk (1 + b + contents.length / 4)) (contents.length % 4 * 128)))
      (contents ++ [[]]) := by
  obtain ⟨blk', hblk'⟩ : ∃ blk', blk' = update (efs.inodeBitmap.setBit blk
      contents.length) (1 + b + contents.length / 4) ((initial (inodeType contents.length)).toBlock
          (blk (1 + b + contents.length / 4)) (contents.length % 4 * 128)) := ⟨_, rfl⟩
  rw [← hblk']
  have hib := hg.inodeBitmap_start
  have hbm := hg.dataBitmap_start
  have hlen : (contents ++ [[]]).length = contents.length + 1 := by simp
  -- only a block of the inode bitmap and the block of the record change
  have hkeep : ∀ x, (x = 0 ∨ 1 + b ≤ x) → x ≠ 1 + b + contents.length / 4 → blk' x = blk x := by
    intro x hx hne
    rw [hblk', update_of_ne hne, Bitmap.setBit_of_ne]
    omega
  have hbits : ∀ k < 4096 * b, efs.inodeBitmap.bitAt blk' k =
      decide (k < (contents ++ [[]]).length) := by
    intro k hk
    rw [← h.inodeBits_setBit hk]
    apply Bitmap.bitAt_congr
    rw [hblk', update_of_ne (by omega)]
  have hold : ∀ {k c}, (contents ++ [[]])[k]? = some c → k ≠ contents.length →
      contents[k]? = some c := by
    intro k c hc hne
    obtain ⟨hk, -⟩ := List.getElem?_eq_some_iff.mp hc
    rwa [List.getElem?_append_left (by rw [hlen] at hk; omega)] at hc
  have hdata : DataArea efs d blk' (others efs blk contents.length contents.length) := by
    apply (h.data.congr fun id => mem_others_length).frame hg
    · intro x hin
      have := hin.1
      exact hkeep x (by omega) (by omega)
    · intro j _ _
      have := hg.dataArea
      exact hkeep _ (by omega) (by omega)
  have hfiles : ∀ id ∈ others efs blk contents.length contents.length,
      blk' id.toNat = blk id.toNat := by
    intro id hid
    obtain ⟨k, hk, -, hid⟩ := mem_others.mp hid
    have hin := h.mem_range hg hk hid
    exact hkeep _ (by omega) (by omega)
  have hs : Stored efs b d blk contents contents.length
      (initial (inodeType contents.length)) [] blk' (contents ++ [[]]) :=
    { index := getElem?_concat_length
      old := hold
      count_le := by omega
      count := by omega
      count_lt := by omega
      superBlock := hkeep 0 (Or.inl rfl) (by omega)
      inodeBits := hbits
      record := by rw [hblk', update_self]
      records := fun x hx _ hne => hkeep x (Or.inr hx) hne
      files := hfiles
      type_ := rfl
      rep := ⟨rfl, by simp, fun i hi => absurd hi (by simp [blocksFor])⟩
      nodup := nodup_nil
      fresh := fun id hid => absurd hid not_mem_nil
      data := hdata }
  exact hs.renewed h hg fun _ => Tidy.initial _ _

end FsInv

section Create

variable {efs : EasyFileSystem} {b db d : Nat} {sb : SuperBlock} {blk : Nat → Block}
  {contents : List (List UInt8)} {names : List String} {cap : Nat}

/-- `alloc_inode` returns the number of inodes in use. -/
theorem run_allocInode (hcap : 0 < cap) (h : FsInv efs b d sb blk contents)
    (hg : Geometry efs b db d) (hcount : contents.length < 4096 * b) :
    efs.allocInode.run cap false ⟨blk, []⟩ = some (ofNat contents.length,
      ⟨efs.inodeBitmap.setBit blk contents.length, []⟩) := by
  have hblocks : efs.inodeBitmap.blocks = b := by rw [hg.inodeBitmap]
  have hclear : efs.inodeBitmap.bitAt blk contents.length = false := by
    rw [h.inodeBits _ hcount]
    simp
  have hbefore : ∀ j < contents.length, efs.inodeBitmap.bitAt blk j = true := by
    intro j hj
    rw [h.inodeBits j (by omega)]
    exact decide_eq_true hj
  have hrun := efs.inodeBitmap.run_alloc (by omega) (show [].length < cap by simpa using hcap)
    hclear hbefore (by simp)
  rw [allocInode, run_bind_some hrun, run_bind_some (Prog.run_unwrap_some _ _)]
  rfl

theorem run_writeInode (hcap : 0 < cap) {x off : Nat} (hoff : off + 128 ≤ 512)
    (inode : DiskInode) :
    (writeInode x off inode).run cap false ⟨blk, []⟩ =
      some ((), ⟨update blk x (inode.toBlock (blk x) off), []⟩) := by
  have hcheck : decide (off + diskInodeSize ≤ blockSz) = true := decide_eq_true hoff
  refine Prog.run_withModify (by simp) (by simpa using hcap) ?_ (fun hro => by simp at hro)
  rw [hcheck, run_bind_some (run_check_true _)]
  rfl

theorem run_newInode (hcap : 0 < cap) (h : FsInv efs b d sb blk contents)
    (hg : Geometry efs b db d) (hcount : contents.length < 4096 * b)
    (hlt : contents.length + 1 < 2 ^ 32) :
    ∃ blk', (writeInode (ofId efs (ofNat contents.length)).blockId
        (ofId efs (ofNat contents.length)).blockOffset
        (initial (inodeType contents.length))).run cap false
          ⟨efs.inodeBitmap.setBit blk contents.length, []⟩ = some ((), ⟨blk', []⟩) ∧
      Renewed efs b d sb blk contents blk' (contents ++ [[]]) := by
  have hib := hg.inodeBitmap_start
  have hsame : efs.inodeBitmap.setBit blk contents.length (1 + b + contents.length / 4) =
      blk (1 + b + contents.length / 4) := Bitmap.setBit_of_ne _ _ (by omega)
  rw [hg.ofId_eq (by omega) hcount]
  refine ⟨_, run_writeInode hcap (by simp only; omega) _, ?_⟩
  simp only
  rw [hsame]
  exact h.push hg hcount hlt

theorem run_newFile (hcap : 0 < cap) (h : FsInv efs b d sb blk contents)
    (hg : Geometry efs b db d) {root : List UInt8} (hdir : contents[0]? = some root)
    (hcount : contents.length < 4096 * b) (hlt : contents.length + 1 < 2 ^ 32) :
    ∃ blk', (writeInode (ofId efs (ofNat contents.length)).blockId
        (ofId efs (ofNat contents.length)).blockOffset
        (initial .file)).run cap false
          ⟨efs.inodeBitmap.setBit blk contents.length, []⟩ = some ((), ⟨blk', []⟩) ∧
      Renewed efs b d sb blk contents blk' (contents ++ [[]]) ∧
      (contents ++ [[]])[0]? = some root := by
  obtain ⟨hpos, -⟩ := List.getElem?_eq_some_iff.mp hdir
  have htype : inodeType contents.length = .file := by
    rw [inodeType, if_neg (by omega)]
  obtain ⟨blk', hrun, hnew⟩ := run_newInode hcap h hg hcount hlt
  rw [htype] at hrun
  exact ⟨blk', hrun, hnew, (List.getElem?_append_left hpos).trans hdir⟩

section Append

variable {root : List UInt8} {name : String} {number : UInt32} (hcap : 2 < cap)
  (h : FsInv efs b d sb blk contents) (hg : Geometry efs b db d)
  (hdir : contents[0]? = some root) (hbound : (addEntry root name number).length ≤ 8468480)
  (hspace : blocksUsed (contents.set 0 (addEntry root name number)) ≤ d)
include hcap h hg hdir hbound hspace

theorem run_growDirectory :
    ∃ d' blk', (increaseSize efs (ofNat ((root.length / 32 + 1) * direntSz))
        (efs.diskInode blk 0)).run cap false ⟨blk, [1 + b + 0 / 4]⟩ =
        some (d', ⟨blk', [1 + b + 0 / 4]⟩) ∧
      Pending.Extended efs d blk contents.length 0 (padTo root (32 * (root.length / 32) +
        (ofName name number).asBytes.length)) d' blk' := by
  have hnew : (root.length / 32 + 1) * direntSz = 32 * (root.length / 32) +
      (ofName name number).asBytes.length := by
    rw [length_asBytes, direntSz]
    omega
  have hlen := length_padTo_eq_writeBytes root (32 * (root.length / 32))
    (ofName name number).asBytes
  rw [hnew]
  refine Pending.run_increaseSize_extended hcap h hg hdir ?_ (blocksUsed_set_congr hlen hdir ▸ hspace)
  rw [addEntry, length_writeBytes] at hbound
  exact (Nat.le_max_right _ _).trans hbound

/-- The part of `create` that appends the directory entry. -/
theorem run_appendEntry (hname : (strBytes name).length ≤ nameLengthLimit + 1) :
    ∃ blk', ((rootInode efs).modifyDiskInode
        (appendEntry efs name number)).run cap false ⟨blk, []⟩ = some ((), ⟨blk', []⟩) ∧
      Renewed efs b d sb blk contents blk' (contents.set 0 (addEntry root name number)) := by
  obtain ⟨hlt, -⟩ := List.getElem?_eq_some_iff.mp hdir
  have hcount := h.count
  have hentry := length_asBytes (ofName name number)
  have hoffset : root.length / 32 * direntSz = 32 * (root.length / 32) := by
    rw [direntSz]
    omega
  obtain ⟨d₁, blk₁, hrun₁, hp₁⟩ := run_growDirectory hcap h hg hdir hbound hspace
  obtain ⟨blk₂, hrun₂, hp₂⟩ := hp₁.run_writeAt (show 1 < cap by omega) hg (by omega) (by omega)
  have hfinish := hp₂.renewed h hg hlt hp₂.tidy
  refine ⟨_, run_modifyFile h hg hlt (by omega) ?_, hfinish⟩
  rw [appendEntry, entries_eq h hdir, hoffset, run_bind_some hrun₁,
    run_bind_some (run_new hname _), run_bind_some hrun₂]
  rfl

theorem panics_appendEntry (hname : ¬(strBytes name).length ≤ nameLengthLimit + 1) :
    ((rootInode efs).modifyDiskInode (appendEntry efs name number)).Panics cap
      ⟨blk, []⟩ := by
  obtain ⟨hlt, -⟩ := List.getElem?_eq_some_iff.mp hdir
  obtain ⟨d₁, blk₁, hrun₁, -⟩ := run_growDirectory hcap h hg hdir hbound hspace
  refine panics_modifyFile h hg hlt (by omega) ?_
  rw [appendEntry, entries_eq h hdir]
  refine Prog.panics_bind_right hrun₁ ?_
  exact panics_bind_left (panics_new hname _) _

end Append

section CreateNew

variable {root : List UInt8} {name : String} (hcap : 2 < cap)
  (h : FsInv efs b d sb blk contents) (hg : Geometry efs b db d)
  (hdir : contents[0]? = some root) (hcount : contents.length < 4096 * b)
  (hsmall : contents.length + 1 < 2 ^ 32)
  (hbound : (addEntry root name (UInt32.ofNat contents.length)).length ≤ 8468480)
  (hspace : blocksUsed ((contents ++ [[]]).set 0
    (addEntry root name (UInt32.ofNat contents.length))) ≤ d)
include hcap h hg hdir hcount hsmall hbound hspace

/-- `create` of a new name, up to the final `block_cache_sync_all`. -/
theorem run_createNew (hname : (strBytes name).length ≤ nameLengthLimit + 1) :
    ∃ blk', ((rootInode efs).createNew efs name).run cap false ⟨blk, []⟩ =
        some (ofId efs (ofNat contents.length), ⟨blk', []⟩) ∧
      Renewed efs b d sb blk contents blk'
        ((contents ++ [[]]).set 0 (addEntry root name (ofNat contents.length))) := by
  obtain ⟨blk₁, hrun₁, hnew, hdir₁⟩ :=
    run_newFile (show 0 < cap by omega) h hg hdir hcount hsmall
  obtain ⟨blk₂, hrun₂, hentry⟩ := run_appendEntry hcap hnew.inv hg hdir₁ hbound hspace hname
  refine ⟨blk₂, ?_, hentry.inv, fun htidy => hentry.tidy (hnew.tidy htidy)⟩
  rw [createNew, run_bind_some (run_allocInode (by omega) h hg hcount)]
  refine (run_bind_some hrun₁).trans ?_
  rw [run_bind_some hrun₂]
  rfl

theorem panics_createNew (hname : ¬(strBytes name).length ≤ nameLengthLimit + 1) :
    ((rootInode efs).createNew efs name).Panics cap ⟨blk, []⟩ := by
  obtain ⟨blk₁, hrun₁, hnew, hdir₁⟩ :=
    run_newFile (show 0 < cap by omega) h hg hdir hcount hsmall
  have hpanic := panics_appendEntry hcap hnew.inv hg hdir₁ hbound hspace hname
  have hrest : (do
      writeInode (ofId efs (ofNat contents.length)).blockId
        (ofId efs (ofNat contents.length)).blockOffset (initial .file)
      (rootInode efs).modifyDiskInode (appendEntry efs name (ofNat contents.length))
      pure (ofId efs (ofNat contents.length)) : FsProg Inode).Panics cap
        ⟨efs.inodeBitmap.setBit blk contents.length, []⟩ :=
    Prog.panics_bind_right hrun₁ (panics_bind_left hpanic _)
  exact Prog.panics_bind_right (run_allocInode (by omega) h hg hcount) hrest

end CreateNew

end Create

end RCore.EasyFs
