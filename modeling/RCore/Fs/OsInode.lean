import RCore.EasyFs.SplitWrites
import RCore.EasyFs.FsProperties

/-!
# Open files

An `OSInode` is an inode with an offset.  Its `read` and `write` go through the slices of a
buffer one by one, and `read_all` reads the file 512 bytes at a time; each is compared with one
call of the inode's own method.  A buffer is given by the bytes of its slices, which lie in
frames of their own.
-/

namespace RCore.Fs

open RCore.Lib.LockedStore List UInt32
open RCore.EasyFs
open EasyFileSystem (layout superBlock)
open Prog (check)
open DiskInode (usizeAdd)
open Inode (ofId)

variable {off : Nat} {slices : List (List UInt8)}

/-- `OSInode`, with what its inner cell holds. -/
structure OSInode where
  readable : Bool
  writable : Bool
  offset : Nat
  inode : Inode

namespace OSInode

def new (readable writable : Bool) (inode : Inode) : OSInode := ⟨readable, writable, 0, inode⟩

/-! ## The methods -/

/-- The loop of `read_all`; `v` is what has been read, and `buffer` keeps the bytes of the round
before.  Without fuel it does not return. -/
def readAllLoop (inode : Inode) : Nat → Nat → List UInt8 → List UInt8 → FsProg (List UInt8 × Nat)
  | 0, _, _, _ => .panic
  | fuel + 1, offset, buffer, v => do
      let (len, buffer) ← inode.readAt offset buffer
      if len = 0 then pure (v, offset)
      else readAllLoop inode fuel (usizeAdd offset len) buffer (v ++ buffer.take len)

def readAll (self : OSInode) (fuel : Nat) : FsProg (List UInt8 × OSInode) := do
  let (v, offset) ← readAllLoop self.inode fuel self.offset (List.replicate 512 0) []
  pure (v, { self with offset := offset })

/-- What `read` leaves: the size it returns, the offset, and the slices of the buffer. -/
structure Filled where
  totalReadSize : Nat
  offset : Nat
  buffers : List (List UInt8)

/-- The loop of `read`. -/
def readLoop (inode : Inode) : List (List UInt8) → Nat → Nat → FsProg Filled
  | [], offset, total => pure ⟨total, offset, []⟩
  | slice :: rest, offset, total => do
      let (readSize, slice) ← inode.readAt offset slice
      if readSize = 0 then pure ⟨total, offset, slice :: rest⟩
      else do
        let filled ← readLoop inode rest (usizeAdd offset readSize) (usizeAdd total readSize)
        pure { filled with buffers := slice :: filled.buffers }

def read (self : OSInode) (buf : List (List UInt8)) :
    FsProg (Nat × List (List UInt8) × OSInode) := do
  let filled ← readLoop self.inode buf self.offset 0
  pure (filled.totalReadSize, filled.buffers, { self with offset := filled.offset })

/-- The loop of `write`: the size it returns, and the offset. -/
def writeLoop (efs : EasyFileSystem) (inode : Inode) :
    List (List UInt8) → Nat → Nat → FsProg (Nat × Nat)
  | [], offset, total => pure (total, offset)
  | slice :: rest, offset, total => do
      let writeSize ← inode.writeAt efs offset slice
      check (writeSize == slice.length)
      writeLoop efs inode rest (usizeAdd offset writeSize) (usizeAdd total writeSize)

def write (self : OSInode) (efs : EasyFileSystem) (buf : List (List UInt8)) :
    FsProg (Nat × OSInode) := do
  let (total, offset) ← writeLoop efs self.inode buf self.offset 0
  pure (total, { self with offset := offset })

/-! ## Reading -/

section Reading

variable {efs : EasyFileSystem} {b db d cap : Nat} {sb : SuperBlock} {blk : Nat → Block}
  {contents : List (List UInt8)} {k : Nat} {c : List UInt8}

theorem usizeAdd_readBytes (hoff : off < 2 ^ 64) (hbound : c.length ≤ 8468480) (buf : List UInt8) :
    usizeAdd off (readBytes c off buf).1 = off + (readBytes c off buf).1 := by
  apply Nat.mod_eq_of_lt
  simp only [readBytes]
  omega

theorem length_readBytes (c : List UInt8) (off : Nat) (buf : List UInt8) :
    (readBytes c off buf).2.length = buf.length := by
  simp only [readBytes, length_append, length_take, length_drop]
  omega

section

variable (h : FsInv efs b d sb blk contents) (hg : Geometry efs b db d) (hcap : 1 < cap)
  (hk : contents[k]? = some c)
include h hg hcap hk

/-- The slices are filled as the whole buffer is. -/
theorem run_readLoop (hne : ∀ slice ∈ slices, slice ≠ []) (hlen : slices.flatten.length < 2 ^ 63)
    {total : Nat} (hoff : off < 2 ^ 64) (htotal : total + slices.flatten.length < 2 ^ 64) :
    ∃ slices', (readLoop (ofId efs (ofNat k)) slices off total).run cap true
        ⟨blk, []⟩ =
        some (⟨total + (readBytes c off slices.flatten).1, off + (readBytes c off slices.flatten).1,
          slices'⟩, ⟨blk, []⟩) ∧
      slices'.flatten = (readBytes c off slices.flatten).2 ∧
      slices'.map List.length = slices.map List.length := by
  have hbound := (h.rep hk).bound
  induction slices generalizing off total with
  | nil =>
    refine ⟨[], ?_, ?_, rfl⟩
    · simp [readLoop, readBytes]
    · simp [readBytes]
  | cons slice rest ih =>
    have hslice := length_pos_of_ne_nil (hne slice List.mem_cons_self)
    rw [flatten_cons, length_append] at hlen htotal
    have hrun : ((ofId efs (ofNat k)).readAt off slice).run cap true ⟨blk, []⟩ =
        some (readBytes c off slice, ⟨blk, []⟩) := run_read h hg hcap hk hoff (by omega)
    have hkept := length_readBytes c off slice
    have hadd := usizeAdd_readBytes hoff hbound slice
    have hle : (readBytes c off slice).1 ≤ slice.length := Nat.min_le_left _ _
    have hend : (readBytes c off slice).1 = 0 → c.length ≤ off := by
      simp only [readBytes]
      omega
    have hinside : (readBytes c off slice).1 ≠ 0 →
        off + (readBytes c off slice).1 ≤ c.length := by
      simp only [readBytes]
      omega
    rw [readLoop, Prog.run_bind_some hrun, flatten_cons, readBytes_append]
    generalize readBytes c off slice = r at *
    obtain ⟨n, slice'⟩ := r
    simp only at hadd hle hend hinside hkept ⊢
    by_cases hzero : n = 0
    · -- the end of the file: the loop breaks, and there is nothing to read for the rest
      have hrest : readBytes c (off + n) rest.flatten = (0, rest.flatten) := by
        have hmin : min rest.flatten.length (c.length - (off + n)) = 0 := by
          have := hend hzero
          omega
        simp only [readBytes, hmin, take_zero, drop_zero, nil_append]
      refine ⟨slice' :: rest, ?_, ?_, ?_⟩
      · rw [if_pos hzero, hrest, hzero]
        rfl
      · rw [hrest, flatten_cons]
      · rw [map_cons, map_cons, hkept]
    · have hlt := hinside hzero
      have htotal' : usizeAdd total n = total + n := Nat.mod_eq_of_lt (by omega)
      obtain ⟨slices', hloop, hflat, hmap⟩ :=
        ih (fun s hs => hne s (mem_cons_of_mem _ hs)) (by omega)
          (show off + n < 2 ^ 64 by omega) (show total + n + rest.flatten.length < 2 ^ 64 by omega)
      refine ⟨slice' :: slices', ?_, ?_, ?_⟩
      · rw [if_neg hzero, hadd, htotal', Prog.run_bind_some hloop, Nat.add_assoc, Nat.add_assoc]
        rfl
      · rw [flatten_cons, hflat]
      · rw [map_cons, map_cons, hkept, hmap]

/-- `read_all` reads to the end of the file. -/
theorem run_readAllLoop {fuel : Nat} {buffer : List UInt8}
    (hfuel : c.length - off + 511 < 512 * fuel) (hbuffer : buffer.length = 512)
    (hoff : off < 2 ^ 64) (v : List UInt8) :
    (readAllLoop (ofId efs (ofNat k)) fuel off buffer v).run cap true ⟨blk, []⟩ =
      some ((v ++ c.drop off, max off c.length), ⟨blk, []⟩) := by
  have hbound := (h.rep hk).bound
  induction fuel generalizing off buffer v with
  | zero => omega
  | succ fuel ih =>
    have hrun : ((ofId efs (ofNat k)).readAt off buffer).run cap true ⟨blk, []⟩ =
        some (readBytes c off buffer, ⟨blk, []⟩) := run_read h hg hcap hk hoff (by omega)
    have hkept := length_readBytes c off buffer
    have hadd := usizeAdd_readBytes hoff hbound buffer
    rw [readAllLoop, Prog.run_bind_some hrun]
    simp only [readBytes, hbuffer] at hkept hadd ⊢
    by_cases hzero : min 512 (c.length - off) = 0
    · rw [if_pos hzero, drop_eq_nil_of_le (by omega), append_nil, Nat.max_eq_left (by omega)]
      rfl
    · have htake : (take (min 512 (c.length - off)) (c.drop off) ++
          buffer.drop (min 512 (c.length - off))).take (min 512 (c.length - off)) =
          (c.drop off).take (min 512 (c.length - off)) := by
        rw [take_append_of_le_length, take_take, Nat.min_self]
        rw [length_take, length_drop]
        omega
      rw [if_neg hzero, hadd, ih (by omega) hkept (by omega), htake, append_assoc,
        ← drop_drop, take_append_drop, Nat.max_eq_right (by omega),
        Nat.max_eq_right (by omega)]

end

end Reading

/-! ## Writing -/

section Writing

variable {T b : UInt32} {contents : List (List UInt8)} {k : Nat} {c : List UInt8}
  {blk : Nat → Block} {s : CacheState}

/-- A file has been given the contents `c'`, and the device shows it. -/
def Leaves (T b : UInt32) (contents : List (List UInt8)) (blk : Nat → Block) (k : Nat)
    (c' : List UInt8) (s' : CacheState) : Prop :=
  ∃ blk', Holds s' blk' ∧
    Rewritten (EasyFileSystem.layout T b) b.toNat
      (EasyFileSystem.superBlock T b).dataAreaBlocks.toNat (EasyFileSystem.superBlock T b) blk
      contents k c' blk'

theorem Leaves.unique (hfit : LayoutFits T b) (hk : k < contents.length) {c' : List UInt8}
    {s₁ s₂ : CacheState} (h₁ : Leaves T b contents blk k c' s₁)
    (h₂ : Leaves T b contents blk k c' s₂) : s₁.content = s₂.content ∧ s₁.dev = s₂.dev := by
  obtain ⟨blk₁, hholds₁, hnew₁⟩ := h₁
  obtain ⟨blk₂, hholds₂, hnew₂⟩ := h₂
  have heq := Rewritten.unique hk hnew₁ hnew₂ hfit.geometry
  rw [hholds₁.content_eq, hholds₂.content_eq, hholds₁.dev_eq, hholds₂.dev_eq]
  exact ⟨heq, heq⟩

theorem exec_writeAt (hfit : LayoutFits T b)
    (hinv : LaidOut T b blk contents) (htidy : (layout T b).TidyFiles blk contents.length)
    (hholds : Holds s blk) (hk : contents[k]? = some c) {buf : List UInt8} (hbuf : buf ≠ [])
    (hbound : (writeBytes c off buf).length ≤ maxFileSize)
    (hspace : blocksUsed (contents.set k (writeBytes c off buf)) ≤
      (superBlock T b).dataAreaBlocks.toNat) :
    ∃ s', ((ofId (layout T b) (ofNat k)).writeAt
        (layout T b) off buf).exec cacheBackend s = some (buf.length, s') ∧
      Leaves T b contents blk k (writeBytes c off buf) s' := by
  obtain ⟨blk', hrun, hnew⟩ := run_write_rewritten blockCacheSize_gt hinv hfit.geometry htidy hk
    (length_pos_of_ne_nil hbuf) hbound hspace
  obtain ⟨s', hexec, hholds'⟩ := exec_synced id hholds.1 hrun
  exact ⟨s', hexec, blk', hholds', hnew⟩

/-- The slices are written as the whole buffer is. -/
theorem exec_writeLoop (hfit : LayoutFits T b) (hsome : slices ≠ [])
    (hne : ∀ slice ∈ slices, slice ≠ [])
    (hinv : LaidOut T b blk contents) (htidy : (layout T b).TidyFiles blk contents.length)
    (hholds : Holds s blk) (hk : contents[k]? = some c) {total : Nat}
    (hbound : (writeBytes c off slices.flatten).length ≤ maxFileSize)
    (hspace : blocksUsed (contents.set k (writeBytes c off slices.flatten)) ≤
      (superBlock T b).dataAreaBlocks.toNat) (htotal : total + slices.flatten.length < 2 ^ 64) :
    ∃ s', (writeLoop (layout T b) (ofId (layout T b) (ofNat k)) slices off total).exec
        cacheBackend s = some ((total + slices.flatten.length, off + slices.flatten.length), s') ∧
      Leaves T b contents blk k (writeBytes c off slices.flatten) s' := by
  induction slices generalizing blk s contents c off total with
  | nil => exact absurd rfl hsome
  | cons slice rest ih =>
    obtain ⟨hlt, -⟩ := List.getElem?_eq_some_iff.mp hk
    have hslice := hne slice List.mem_cons_self
    have hrest : ∀ x ∈ rest, x ≠ [] := fun x hx => hne x (mem_cons_of_mem _ hx)
    rw [flatten_cons] at hbound hspace htotal ⊢
    have hle : (writeBytes c off slice).length ≤
        (writeBytes c off (slice ++ rest.flatten)).length := by
      rw [length_writeBytes, length_writeBytes, length_append]
      omega
    have hend : off + (slice.length + rest.flatten.length) ≤ maxFileSize := by
      rw [length_writeBytes, length_append] at hbound
      omega
    rw [length_append] at htotal ⊢
    rw [maxFileSize_eq] at hend
    have hoff : usizeAdd off slice.length = off + slice.length := Nat.mod_eq_of_lt (by omega)
    have hsum : usizeAdd total slice.length = total + slice.length := Nat.mod_eq_of_lt (by omega)
    obtain ⟨s₁, hexec₁, blk₁, hholds₁, hnew₁⟩ := exec_writeAt hfit hinv htidy hholds hk hslice
      (hle.trans hbound) ((blocksUsed_set_mono hk hle).trans hspace)
    have hstep : (writeLoop (layout T b)
        (ofId (layout T b) (ofNat k)) (slice :: rest) off total).exec
        cacheBackend s = (writeLoop (layout T b)
        (ofId (layout T b) (ofNat k)) rest (off + slice.length)
        (total + slice.length)).exec cacheBackend s₁ := by
      rw [writeLoop, Prog.exec_bind, hexec₁, Option.bind_some, Prog.exec_bind, beq_self_eq_true,
        hoff, hsum]
      rfl
    rw [hstep]
    by_cases hnil : rest = []
    · subst hnil
      rw [flatten_nil, append_nil]
      exact ⟨s₁, rfl, blk₁, hholds₁, hnew₁⟩
    · have hflat : rest.flatten ≠ [] := by
        obtain ⟨x, hx⟩ := exists_mem_of_ne_nil rest hnil
        exact fun he => hrest x hx (flatten_eq_nil_iff.mp he x hx)
      have hset : (contents.set k (writeBytes c off slice)).set k
          (writeBytes (writeBytes c off slice) (off + slice.length) rest.flatten) =
          contents.set k (writeBytes c off (slice ++ rest.flatten)) := by
        rw [set_set, writeBytes_append c off slice _ hflat]
      have htidy₁ : (layout T b).TidyFiles blk₁
          (contents.set k (writeBytes c off slice)).length := by
        rw [length_set]
        exact hnew₁.tidy
      obtain ⟨s₂, hexec₂, blk₂, hholds₂, hnew₂⟩ := ih hnil hrest hnew₁.inv htidy₁ hholds₁
        (getElem?_set_self hlt)
        (by rw [writeBytes_append c off slice _ hflat]; exact hbound)
        (by rw [hset]; exact hspace)
        (show total + slice.length + rest.flatten.length < 2 ^ 64 by omega)
      rw [writeBytes_append c off slice _ hflat] at hnew₂
      refine ⟨s₂, ?_, blk₂, hholds₂, hnew₁.trans hlt hnew₂⟩
      rw [hexec₂, Nat.add_assoc, Nat.add_assoc]

end Writing

/-! ## Open files in a run -/

/-- `write` of the slices returns what one `write_at` of their bytes returns, moves the offset
behind it, and leaves the same blocks. -/
def WritesAsOne (file : OSInode) (m : Machine) (slices : List (List UInt8)) : Prop :=
  ∃ n s s', (file.write m.efs slices).exec cacheBackend m.cache =
      some ((n, { file with offset := file.offset + n }), s) ∧
    (file.inode.writeAt m.efs file.offset slices.flatten).exec cacheBackend m.cache =
      some (n, s') ∧
    s.content = s'.content ∧ s.dev = s'.dev

/-- `read` of the slices returns what one `read_at` into their concatenation returns, moves the
offset behind it, and fills them with the same bytes. -/
def ReadsAsOne (file : OSInode) (m : Machine) (slices : List (List UInt8)) : Prop :=
  ∃ n slices' s s', (file.read slices).exec cacheBackend m.cache =
      some ((n, slices', { file with offset := file.offset + n }), s) ∧
    (file.inode.readAt file.offset slices.flatten).exec cacheBackend m.cache =
      some ((n, slices'.flatten), s') ∧
    slices'.map List.length = slices.map List.length ∧
    s.content = m.cache.content ∧ s.dev = m.cache.dev

/-- `read_all` returns the bytes from the offset on, and moves it to the end unless it is
behind it. -/
def ReadsToEnd (file : OSInode) (m : Machine) : Prop :=
  ∀ fuel > (m.contentOf file.inode).length, ∃ s,
    (file.readAll fuel).exec cacheBackend m.cache =
      some (((m.contentOf file.inode).drop file.offset,
        { file with offset := max file.offset (m.contentOf file.inode).length }), s) ∧
    s.content = m.cache.content ∧ s.dev = m.cache.dev

section Runs

variable {T b : UInt32} {m : Machine} {contents : List (List UInt8)} {k : Nat} {c : List UInt8}
  {file : OSInode} (hfit : LayoutFits T b) (h : ContentsInv T b m contents)
  (hk : contents[k]? = some c)
  (hfile : file.inode = Inode.ofId (EasyFileSystem.layout T b) (UInt32.ofNat k))
include hfit h hk hfile

theorem writesAsOne
    (htidy : (layout T b).TidyFiles m.cache.content contents.length)
    (hsome : slices ≠ []) (hne : ∀ slice ∈ slices, slice ≠ [])
    (hlen : slices.flatten.length < 2 ^ 63)
    (hfits : ContentsFit T b (contents.set k (writeBytes c file.offset slices.flatten))) :
    file.WritesAsOne m slices := by
  obtain ⟨hlt, -⟩ := List.getElem?_eq_some_iff.mp hk
  have hbound := hfits.sizes _ (List.mem_set hlt _)
  have hflat : slices.flatten ≠ [] := by
    obtain ⟨x, hx⟩ := exists_mem_of_ne_nil slices hsome
    exact fun he => hne x hx (flatten_eq_nil_iff.mp he x hx)
  obtain ⟨s, hloop, hleaves⟩ := exec_writeLoop hfit hsome hne h.inv htidy h.holds hk hbound
    hfits.blocks (show 0 + slices.flatten.length < 2 ^ 64 by omega)
  obtain ⟨s', hone, hleaves'⟩ := exec_writeAt hfit h.inv htidy h.holds hk hflat hbound hfits.blocks
  refine ⟨slices.flatten.length, s, s', ?_, ?_, hleaves.unique hfit hlt hleaves'⟩
  · rw [write, Prog.exec_bind, h.efs, hfile, hloop, Nat.zero_add]
    rfl
  · rw [h.efs, hfile]
    exact hone

theorem readsAsOne (hoff : file.offset < 2 ^ 64) (hne : ∀ slice ∈ slices, slice ≠ [])
    (hlen : slices.flatten.length < 2 ^ 63) : file.ReadsAsOne m slices := by
  obtain ⟨slices', hloop, hflat, hmap⟩ := run_readLoop h.inv hfit.geometry
    (show 1 < blockCacheSize by decide) hk hne hlen hoff
    (show 0 + slices.flatten.length < 2 ^ 64 by omega)
  obtain ⟨s, hexec, hholds⟩ := h.holds.exec_readOnly hloop
  obtain ⟨s', hexec', -⟩ := h.holds.exec_readOnly
    (run_read h.inv hfit.geometry (show 1 < blockCacheSize by decide) hk hoff hlen)
  refine ⟨(readBytes c file.offset slices.flatten).1, slices', s, s', ?_, ?_, hmap,
    hholds.content_eq, ?_⟩
  · rw [read, Prog.exec_bind, hfile, hexec, Nat.zero_add]
    rfl
  · rw [hfile, hexec', hflat]
  · rw [hholds.dev_eq, h.holds.dev_eq]

theorem readsToEnd (hoff : file.offset < 2 ^ 64) : file.ReadsToEnd m := by
  intro fuel hfuel
  rw [hfile, h.contentOf_eq hk] at hfuel ⊢
  obtain ⟨s, hexec, hholds⟩ := h.holds.exec_readOnly
    (run_readAllLoop h.inv hfit.geometry (show 1 < blockCacheSize by decide) hk
      (show c.length - file.offset + 511 < 512 * fuel by omega)
      (length_replicate (a := (0 : UInt8))) hoff [])
  refine ⟨s, ?_, hholds.content_eq, ?_⟩
  · rw [readAll, Prog.exec_bind, hfile, hexec]
    rfl
  · rw [hholds.dev_eq, h.holds.dev_eq]

end Runs

end OSInode

/-- **Buffers in slices.**  In every state of a run, for every open file at any offset and every
buffer of non-empty slices: `write` is one `write_at` of all the bytes, if there is a slice and
what it leaves fits; `read` is one `read_at` into the whole buffer; and `read_all` reads from
the offset to the end.  A `write` without slices does nothing. -/
theorem os_inode_calls_as_one {T b : UInt32} (hfit : LayoutFits T b) {dev : Nat → Block}
    {m : Machine} {contents : List (List UInt8)} (h : InodeReaches T b dev m contents) {k : Nat}
    {file : OSInode} (hk : m.inodes[k]? = some file.inode) (hoff : file.offset < 2 ^ 64)
    {slices : List (List UInt8)} (hne : ∀ slice ∈ slices, slice ≠ [])
    (hlen : slices.flatten.length < 2 ^ 63) :
    (slices ≠ [] →
      ContentsFit T b (contents.modify k fun c => writeBytes c file.offset slices.flatten) →
      file.WritesAsOne m slices) ∧
    (file.write m.efs []).exec cacheBackend m.cache = some ((0, file), m.cache) ∧
    file.ReadsAsOne m slices ∧ file.ReadsToEnd m := by
  have hinv := h.contentsInv hfit
  obtain ⟨c, hc, hfile⟩ := hinv.of_getElem_inodes hk
  refine ⟨fun hsome hfits => ?_, rfl, ?_, ?_⟩
  · rw [modify_eq_set hc] at hfits
    exact OSInode.writesAsOne hfit hinv hc hfile (h.tidy hfit) hsome hne hlen hfits
  · exact OSInode.readsAsOne hfit hinv hc hfile hoff hne hlen
  · exact OSInode.readsToEnd hfit hinv hc hfile hoff

/-- Two slices behind a gap of a new file. -/
theorem os_inode_calls_as_one_gap : ∃ (m : Machine) (file : OSInode),
    InodeReaches 4096 1 (fun _ => Block.zero) m (Files.contents [("a", [])]) ∧
      m.inodes[1]? = some file.inode ∧ file.offset = 5 ∧
      file.WritesAsOne m [[1, 2], [3]] ∧ file.ReadsAsOne m [[1, 2], [3]] ∧
      file.ReadsToEnd m := by
  obtain ⟨m, h, hfile⟩ := exists_inodeReaches_oneFile
  have hfits : Files.Fits 4096 1 [("a", [0, 0, 0, 0, 0, 1, 2, 3])] :=
    ⟨by decide, by decide +kernel, by decide +kernel⟩
  have hopen : m.inodes[1]? = some (OSInode.mk true true 5 (handle 4096 1 0)).inode := hfile
  obtain ⟨hwrite, -, hread, hall⟩ := os_inode_calls_as_one layoutFits_small h hopen
    (show 5 < 2 ^ 64 by decide)
    (show ∀ slice ∈ ([[1, 2], [3]] : List (List UInt8)), slice ≠ [] by decide) (by decide)
  exact ⟨m, _, h, hfile, rfl, hwrite (by decide) hfits.contentsFit, hread, hall⟩

/-- Without slices nothing is written, while `write_at` of no bytes behind the end of a new file
makes the file longer. -/
theorem write_without_slices : ∃ (m : Machine) (file : OSInode),
    InodeReaches 4096 1 (fun _ => Block.zero) m (Files.contents [("a", [])]) ∧
      m.inodes[1]? = some file.inode ∧ file.offset = 1 ∧
      ContentsFit 4096 1 ((Files.contents [("a", [])]).modify 1 fun c =>
        writeBytes c file.offset ([] : List (List UInt8)).flatten) ∧
      ¬file.WritesAsOne m [] := by
  obtain ⟨m, h, hfile⟩ := exists_inodeReaches_oneFile
  have hinv := h.contentsInv layoutFits_small
  have hfits : Files.Fits 4096 1 [("a", [0])] := ⟨by decide, by decide +kernel, by decide +kernel⟩
  refine ⟨m, ⟨true, true, 1, handle 4096 1 0⟩, h, hfile, rfl, hfits.contentsFit, ?_⟩
  rintro ⟨n, s, s', hwrite, hone, hcontent, -⟩
  cases hwrite
  have hcall : m.call (handle 4096 1 0) (.write 1 []) = some (.size 0, { m with cache := s' }) := by
    rw [Machine.call]
    exact hone ▸ rfl
  have hget : (Files.contents [("a", [])])[1]? = some [] := rfl
  have hnext := hinv.of_call_write layoutFits_small hget hcall hfits.contentsFit
  have hold := hinv.contentOf_eq hget
  have hnew := hnext.inv.contentOf_eq (List.getElem?_set_self (by decide))
  unfold Machine.contentOf at hold hnew
  simp only [← hcontent] at hnew
  exact absurd (hold.symm.trans hnew) (by decide)

end RCore.Fs
