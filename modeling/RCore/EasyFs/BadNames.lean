import RCore.EasyFs.FsProperties

/-!
# Names that an entry cannot hold

`DirEntry::new` copies a name into 28 bytes and `name` reads up to the first NUL, with
no check of the length in between.  A name of at most 27 bytes without a NUL comes
back; a name of exactly 28 bytes is stored and stops every later search that gets as
far as its entry; a longer one stops `create` itself.
-/

namespace RCore.EasyFs

open RCore.Lib.LockedStore List Prog Inode DirEntry UInt32 Files

variable {pre rest : List String}

/-! ## Entries without a terminator -/

/-- A name that fills the field of an entry. -/
structure FillsField (name : String) : Prop where
  length_eq : (strBytes name).length = nameLengthLimit + 1
  nul_free : ∀ c ∈ strBytes name, c ≠ 0

variable {name : String}

theorem FillsField.not_nameOk (h : FillsField name) : ¬NameOk name := by
  intro hok
  have hle := hok.length_le
  rw [h.length_eq] at hle
  omega

theorem DirEntry.panics_nameStr {cap : Nat} {v : View Block} (h : FillsField name)
    (inodeNumber : UInt32) : (ofName name inodeNumber).nameStr.Panics cap v := by
  have hnone : ((List.range (nameLengthLimit + 1)).find? fun i =>
      (ofName name inodeNumber).name[i]? == some 0) = none := by
    refine find?_eq_none.mpr fun i hi => ?_
    have hlt : i < 28 := mem_range.mp hi
    have hlen : i < (strBytes name).length := by
      rw [h.length_eq]
      exact hlt
    have hne := h.nul_free _ (getElem_mem hlen)
    rw [name_ofName name inodeNumber hlt]
    simp [hlen, hne]
  rw [nameStr, hnone]
  exact panics_bind_left panics_panic _

section Run

variable {efs : EasyFileSystem} {b db d : Nat} {sb : SuperBlock} {blk : Nat → Block}
  {contents : List (List UInt8)} {names : List String} {bad : String} {cap : Nat} {x : Nat}
  (h : FsInv efs b d sb blk contents) (hg : Geometry efs b db d) (hcap : 1 < cap)
  (hdir : contents[0]? = some (dirBytes (names ++ [bad]))) (hnames : ∀ n ∈ names, NameOk n)
  (hbad : FillsField bad)
include h hg hcap hdir hnames hbad

omit hnames in
theorem panics_badEntry {γ : Type} (hx : x < 1 + 1025 * b) (dirent : DirEntry)
    (f : DirEntry → String → FsProg γ) :
    (readDirEntry (efs.diskInode blk 0) names.length dirent >>= fun entry =>
      entry.nameStr >>= f entry).Panics cap ⟨blk, [x]⟩ := by
  have hi : (names ++ [bad])[names.length]? = some bad := by simp
  have hread : (readDirEntry (efs.diskInode blk 0) names.length dirent).run cap true
      ⟨blk, [x]⟩ = _ := run_readDirEntry h hg hcap hdir hx hi dirent
  exact panics_bind_right hread (panics_bind_left (panics_nameStr hbad _) _)

omit hbad in
theorem panics_goodEntry {γ : Type} (hx : x < 1 + 1025 * b) {n : String}
    (hsplit : names = pre ++ n :: rest) (dirent : DirEntry) {f : DirEntry → String → FsProg γ}
    (hf : (f (ofName n (ofNat (pre.length + 1))) n).Panics cap ⟨blk, [x]⟩) :
    (readDirEntry (efs.diskInode blk 0) pre.length dirent >>= fun entry =>
      entry.nameStr >>= f entry).Panics cap ⟨blk, [x]⟩ := by
  have hi : (names ++ [bad])[pre.length]? = some n := by simp [hsplit]
  have hok : NameOk n := hnames n (by simp [hsplit])
  have hread : (readDirEntry (efs.diskInode blk 0) pre.length dirent).run cap true
      ⟨blk, [x]⟩ = _ := run_readDirEntry h hg hcap hdir hx hi dirent
  have hname : (ofName n (ofNat (pre.length + 1))).nameStr.run cap true
      ⟨blk, [x]⟩ = _ := run_nameStr hok _
  exact panics_bind_right hread (panics_bind_right hname hf)

theorem panics_findLoop (hx : x < 1 + 1025 * b) (name : String) (hsplit : names = pre ++ rest)
    (hnot : name ∉ rest) (dirent : DirEntry) :
    (findLoop name (efs.diskInode blk 0) (range' pre.length (rest.length + 1))
      dirent).Panics cap ⟨blk, [x]⟩ := by
  induction rest generalizing pre dirent with
  | nil =>
    obtain rfl : names = pre := by rw [hsplit, append_nil]
    rw [length_nil, range'_succ, findLoop]
    exact panics_badEntry h hg hcap hdir hbad hx dirent _
  | cons n rest ih =>
    have hne : n ≠ name := fun he => hnot (he ▸ mem_cons_self)
    have hsplit' : names = (pre ++ [n]) ++ rest := by simp [hsplit]
    have hnext := ih hsplit' (fun hmem => hnot (mem_cons_of_mem _ hmem))
      (ofName n (ofNat (pre.length + 1)))
    rw [length_append, length_singleton] at hnext
    rw [length_cons, range'_succ, findLoop]
    refine panics_goodEntry h hg hcap hdir hnames hx hsplit dirent ?_
    rw [if_neg hne]
    exact hnext

theorem panics_lsLoop (hx : x < 1 + 1025 * b) (hsplit : names = pre ++ rest) (v : List String) :
    (lsLoop (efs.diskInode blk 0) (range' pre.length (rest.length + 1)) v).Panics cap
      ⟨blk, [x]⟩ := by
  induction rest generalizing pre v with
  | nil =>
    obtain rfl : names = pre := by rw [hsplit, append_nil]
    rw [length_nil, range'_succ, lsLoop]
    exact panics_badEntry h hg hcap hdir hbad hx empty _
  | cons n rest ih =>
    have hsplit' : names = (pre ++ [n]) ++ rest := by simp [hsplit]
    have hnext := ih hsplit' (v ++ [n])
    rw [length_append, length_singleton] at hnext
    rw [length_cons, range'_succ, lsLoop]
    exact panics_goodEntry h hg hcap hdir hnames hx hsplit empty hnext

theorem panics_findInodeId (hx : x < 1 + 1025 * b) (hnot : name ∉ names) :
    (findInodeId name (efs.diskInode blk 0)).Panics cap ⟨blk, [x]⟩ := by
  have hloop : (findLoop name (efs.diskInode blk 0) (range' 0 (names.length + 1))
      empty).Panics cap ⟨blk, [x]⟩ :=
    panics_findLoop h hg hcap hdir hnames hbad hx name (nil_append names).symm hnot empty
  rw [findInodeId, entries_dirBytes h hdir, length_append, length_singleton, range_eq_range']
  exact panics_check_bind hloop

theorem panics_find (hnot : name ∉ names) :
    ((rootInode efs).find efs name).Panics cap ⟨blk, []⟩ := by
  obtain ⟨hlt, -⟩ := List.getElem?_eq_some_iff.mp hdir
  have hb := hg.inodeBitmap_pos
  refine panics_readFile h hg hlt (by omega) ?_
  exact panics_bind_left (panics_findInodeId h hg hcap hdir hnames hbad (by omega) hnot) _

theorem panics_create_absent (hnot : name ∉ names) :
    ((rootInode efs).create efs name).Panics cap ⟨blk, []⟩ := by
  obtain ⟨hlt, -⟩ := List.getElem?_eq_some_iff.mp hdir
  have hb := hg.inodeBitmap_pos
  refine panics_bind_left (panics_modifyFile h hg hlt (by omega) ?_) _
  refine panics_bind_left (panics_check_bind ?_) _
  exact panics_findInodeId h hg hcap hdir hnames hbad (by omega) hnot

theorem panics_ls : (rootInode efs).ls.Panics cap ⟨blk, []⟩ := by
  obtain ⟨hlt, -⟩ := List.getElem?_eq_some_iff.mp hdir
  have hb := hg.inodeBitmap_pos
  refine panics_readFile h hg hlt (by omega) ?_
  rw [entries_dirBytes h hdir, length_append, length_singleton, range_eq_range']
  exact panics_lsLoop h hg hcap hdir hnames hbad (by omega) (nil_append names).symm []

end Run

/-! ## Creating such names -/

section Machine

variable {T b : UInt32} {m m' : Machine} {fs : Files} {name : String}

/-- `ls` and `find`, whatever its argument, return. -/
def DirectoryAnswers (m : Machine) : Prop :=
  (m.step .ls).isSome ∧ ∀ name, (m.step (.find name)).isSome

/-- The directory answers, `create name` returns and the directory answers again; a handle that
is returned is what `find` then returns; and a name that cannot be represented is rejected
with the directory as it was. -/
def NameHandled (m : Machine) (name : String) : Prop :=
  DirectoryAnswers m ∧ ∃ r m', m.step (.create name) = some (.inode r, m') ∧
    DirectoryAnswers m' ∧
    (∀ inode, r = some inode → ∃ m'', m'.step (.find name) = some (.inode (some inode), m'')) ∧
    (¬NameOk name → r = none ∧ m'.directory = m.directory)

section

variable (hfit : LayoutFits T b) (h : MachineInv T b m fs)
include hfit h

/-- `create` of a name that is not there returns a handle, if it returns. -/
theorem step_create_some (hnew : name ∉ fs.names) {r : Option Inode}
    (hstep : m.step (.create name) = some (.inode r, m')) : ∃ inode, r = some inode := by
  obtain ⟨s₁, -, hcreate⟩ := exec_create_absent hfit h hnew
  rw [Machine.step, h.efs, hcreate] at hstep
  obtain ⟨⟨o, s₂⟩, ho, hr⟩ := Option.bind_eq_some_iff.mp hstep
  obtain ⟨inode, rfl⟩ := exec_syncAll_some ho
  cases hr
  exact ⟨inode, rfl⟩

theorem step_create_fills (hname : FillsField name) (hfits : Fits T b (fs ++ [(name, [])])) :
    ∃ m', m.step (.create name) = some (.inode (some (handle T b fs.length)), m') ∧
      m'.step .ls = none ∧
      ∀ n ∉ fs.names, m'.step (.find n) = none ∧ m'.step (.create n) = none := by
  have hnew : name ∉ fs.names := fun hmem => hname.not_nameOk (h.names name hmem)
  obtain ⟨s', blk', hstep, hholds, hinv⟩ :=
    step_create_stored hfit h hname.length_eq.le hnew hfits
  have hdir : (contents (fs ++ [(name, [])]))[0]? = some (dirBytes (fs.names ++ [name])) := by
    rw [contents_zero, Files.names, map_append]
    rfl
  have hg := hfit.geometry
  have hcap : 1 < blockCacheSize := by decide
  refine ⟨_, hstep, ?_, fun n hn => ⟨?_, ?_⟩⟩
  · have hls := hholds.exec_fails (panics_ls hinv hg hcap hdir h.names hname).fails
    rw [Machine.step, h.efs, hls]
    rfl
  · have hfind := hholds.exec_fails (panics_find hinv hg hcap hdir h.names hname hn).fails
    rw [Machine.step, h.efs, hfind]
    rfl
  · have hcreate := hholds.exec_fails
      (panics_create_absent hinv hg hcap hdir h.names hname hn).fails
    rw [Machine.step, h.efs, hcreate]
    rfl

/-- A name that is longer than the field stops `create`. -/
theorem step_create_tooLong (hlong : ¬(strBytes name).length ≤ nameLengthLimit + 1)
    (hfits : Fits T b (fs ++ [(name, [])])) : m.step (.create name) = none := by
  have hnew : name ∉ fs.names := fun hmem =>
    hlong ((h.names name hmem).length_le.trans (by decide))
  obtain ⟨hcount, hsmall, hdir, hblocks⟩ := hfits.room
  obtain ⟨s₁, hholds₁, hcreate⟩ := exec_create_absent hfit h hnew
  have hpanic := panics_createNew blockCacheSize_gt h.inv hfit.geometry fs.contents_zero hcount
    hsmall hdir hblocks hlong
  rw [Machine.step, h.efs, hcreate, hholds₁.exec_fails (panics_bind_left hpanic _).fails]
  rfl

theorem MachineInv.directoryAnswers : DirectoryAnswers m := by
  refine ⟨?_, fun name => ?_⟩
  · obtain ⟨s', hls, -⟩ := step_ls hfit h
    rw [hls]
    rfl
  · obtain ⟨s', hfind, -⟩ := step_find hfit h name
    rw [hfind]
    rfl

theorem MachineInv.nameOk_of_handled (hhandled : NameHandled m name) : NameOk name := by
  by_contra hname
  obtain ⟨-, r, m', hstep, -, -, hreject⟩ := hhandled
  have hnew : name ∉ fs.names := fun hmem => hname (h.names name hmem)
  obtain ⟨inode, rfl⟩ := step_create_some hfit h hnew hstep
  exact absurd (hreject hname).1 (by simp)

theorem MachineInv.handled (hname : NameOk name)
    (hroom : name ∈ fs.names ∨ Fits T b (fs ++ [(name, [])])) : NameHandled m name := by
  refine ⟨h.directoryAnswers hfit, ?_⟩
  by_cases hmem : name ∈ fs.names
  · obtain ⟨s', hstep, hholds⟩ := step_create_existing hfit h hmem
    exact ⟨none, _, hstep, (h.next_readOnly hholds).directoryAnswers hfit, by simp,
      fun hbad => absurd hname hbad⟩
  · obtain ⟨m', hstep, hinv, -⟩ := step_create_new hfit h hname hmem (hroom.resolve_left hmem)
    refine ⟨some _, m', hstep, hinv.directoryAnswers hfit, ?_, fun hbad => absurd hname hbad⟩
    rintro inode hinode
    cases hinode
    obtain ⟨s'', hfind, -⟩ := step_find hfit hinv name
    have hid : inodeIdOf (Files.names (fs ++ [(name, [])])) name =
        some (ofNat (fs.length + 1)) := by
      have hnone : fs.names.findIdx? (· == name) = none := idxOf?_eq_none_iff.mpr hmem
      rw [inodeIdOf, Files.names, map_append, idxOf?, findIdx?_append]
      rw [Files.names] at hnone
      simp [hnone]
    rw [hid] at hfind
    exact ⟨_, hfind⟩

end

end Machine

/-- **Names.**  In every state of a run whose creations give names that an entry can hold,
while there is room: `create name` is handled if and only if an entry can hold `name` too. -/
theorem names_handled_iff {T b : UInt32} (hfit : LayoutFits T b) (dev : Nat → Block) {m : Machine}
    {fs : Files} (hm : Reaches T b dev m fs) {name : String}
    (hroom : name ∈ fs.names ∨ Files.Fits T b (fs ++ [(name, [])])) :
    NameHandled m name ↔ NameOk name :=
  ⟨(hm.machineInv hfit).nameOk_of_handled hfit,
    fun hname => (hm.machineInv hfit).handled hfit hname hroom⟩

/-- A second file beside the first. -/
theorem names_handled_iff_second : ∃ m,
    Reaches 4096 1 (fun _ => Block.zero) m [("a", [])] ∧ NameHandled m "b" := by
  obtain ⟨m, hm⟩ := exists_reaches_oneFile
  have hfits : Files.Fits 4096 1 [("a", []), ("b", [])] :=
    ⟨by decide, by decide +kernel, by decide +kernel⟩
  exact ⟨m, hm, (names_handled_iff layoutFits_small _ hm (.inr hfits)).mpr (by decide)⟩

/-- On a new file system: a name of 28 bytes is stored, and then `ls` and every search stop; a
name of 29 bytes stops `create`; and none of these, nor one with a NUL, is rejected. -/
theorem bad_names_not_rejected : ∃ m, Reaches 4096 1 (fun _ => Block.zero) m [] ∧
    (∃ inode m', m.step (.create "abcdefghijklmnopqrstuvwxyz01") = some (.inode (some inode), m') ∧
      m'.step .ls = none ∧ ∀ n, m'.step (.find n) = none ∧ m'.step (.create n) = none) ∧
    m.step (.create "abcdefghijklmnopqrstuvwxyz012") = none ∧
    ¬NameHandled m "abcdefghijklmnopqrstuvwxyz01" ∧
    ¬NameHandled m "abcdefghijklmnopqrstuvwxyz012" ∧ ¬NameHandled m "a\x00b" := by
  obtain ⟨m, hm, hinv⟩ := machineInv_create layoutFits_small fun _ => Block.zero
  have hfits : Files.Fits 4096 1 [("abcdefghijklmnopqrstuvwxyz01", [])] :=
    ⟨by decide, by decide +kernel, by decide +kernel⟩
  have hfits' : Files.Fits 4096 1 [("abcdefghijklmnopqrstuvwxyz012", [])] :=
    ⟨by decide, by decide +kernel, by decide +kernel⟩
  have hfills : FillsField "abcdefghijklmnopqrstuvwxyz01" := ⟨by decide +kernel, by decide +kernel⟩
  obtain ⟨m', hstep, hls, hrest⟩ := step_create_fills layoutFits_small hinv hfills hfits
  refine ⟨m, .start hm, ⟨_, m', hstep, hls, fun n => hrest n (by simp [Files.names])⟩,
    step_create_tooLong layoutFits_small hinv (by decide +kernel) hfits', ?_, ?_, ?_⟩
  · exact fun h => absurd (hinv.nameOk_of_handled layoutFits_small h) (by decide +kernel)
  · exact fun h => absurd (hinv.nameOk_of_handled layoutFits_small h) (by decide +kernel)
  · exact fun h => absurd (hinv.nameOk_of_handled layoutFits_small h) (by decide +kernel)

end RCore.EasyFs
