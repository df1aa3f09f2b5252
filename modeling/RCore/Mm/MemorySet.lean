import RCore.Mm.PageTable

/-!
# Address spaces

`MemorySet` is a page table and the areas mapped in it.  The frames of a framed area
are owned by the area: a `FrameTracker` that is dropped gives its frame back.  `none`
is a panic.
-/

namespace RCore.Mm

/-- Like `PTEFlags`, its bits. -/
abbrev MapPermission := UInt8

namespace PTEFlags

def R : PTEFlags := 2
def W : PTEFlags := 4
def X : PTEFlags := 8
def U : PTEFlags := 16

end PTEFlags

namespace MapPermission

def R : MapPermission := 2
def W : MapPermission := 4
def X : MapPermission := 8
def U : MapPermission := 16

end MapPermission

inductive MapType where
  | identical
  | framed
  deriving DecidableEq, Repr

/-! ## The map from pages to frames

A `BTreeMap` is the list of its entries in the order of the keys. -/

namespace DataFrames

/-- With the value that was there before. -/
def insert (vpn ppn : Nat) : List (Nat × Nat) → Option Nat × List (Nat × Nat)
  | [] => (none, [(vpn, ppn)])
  | (key, value) :: rest =>
      if vpn < key then (none, (vpn, ppn) :: (key, value) :: rest)
      else if vpn = key then (some value, (vpn, ppn) :: rest)
      else ((insert vpn ppn rest).1, (key, value) :: (insert vpn ppn rest).2)

def remove (vpn : Nat) : List (Nat × Nat) → Option Nat × List (Nat × Nat)
  | [] => (none, [])
  | (key, value) :: rest =>
      if vpn = key then (some value, rest)
      else ((remove vpn rest).1, (key, value) :: (remove vpn rest).2)

end DataFrames

/-- A `FrameTracker`, if there is one, is dropped. -/
def dropFrame (s : PhysMem) : Option Nat → Option PhysMem
  | none => some s
  | some ppn => frameDealloc s ppn

/-- `FrameTracker`s are dropped in order. -/
def dropFrames (s : PhysMem) (frames : List Nat) : Option PhysMem :=
  frames.foldlM frameDealloc s

/-! ## Areas -/

/-- `startVpn` and `endVpn` are the ends of `vpn_range`. -/
structure MapArea where
  startVpn : Nat
  endVpn : Nat
  dataFrames : List (Nat × Nat)
  mapType : MapType
  mapPerm : MapPermission

namespace MapArea

/-- The assertion is that of `VPNRange::new`. -/
def new (startVa endVa : Nat) (mapType : MapType) (mapPerm : MapPermission) : Option MapArea :=
  let startVpn := VirtAddr.floor startVa
  let endVpn := VirtAddr.ceil endVa
  if startVpn ≤ endVpn then some ⟨startVpn, endVpn, [], mapType, mapPerm⟩ else none

def fromAnother (another : MapArea) : Option MapArea :=
  if another.startVpn ≤ another.endVpn then
    some ⟨another.startVpn, another.endVpn, [], another.mapType, another.mapPerm⟩
  else none

def mapOne (self : MapArea) (t : PageTable) (s : PhysMem) (vpn : Nat) :
    Option (MapArea × PageTable × PhysMem) :=
  match self.mapType with
  | .identical => do
      let (t, s) ← t.map s vpn vpn self.mapPerm
      some (self, t, s)
  | .framed => do
      let (ppn, s) ← frameAlloc s
      let (old, dataFrames) := DataFrames.insert vpn ppn self.dataFrames
      let s ← dropFrame s old
      let (t, s) ← t.map s vpn ppn self.mapPerm
      some ({ self with dataFrames := dataFrames }, t, s)

def unmapOne (self : MapArea) (t : PageTable) (s : PhysMem) (vpn : Nat) :
    Option (MapArea × PhysMem) :=
  match self.mapType with
  | .identical => do
      let s ← t.unmap s vpn
      some (self, s)
  | .framed => do
      let (old, dataFrames) := DataFrames.remove vpn self.dataFrames
      let s ← dropFrame s old
      let s ← t.unmap s vpn
      some ({ self with dataFrames := dataFrames }, s)

/-- The loop of `map` over `n` pages from `vpn` on. -/
def mapLoop (self : MapArea) (t : PageTable) (s : PhysMem) (vpn : Nat) :
    Nat → Option (MapArea × PageTable × PhysMem)
  | 0 => some (self, t, s)
  | n + 1 => do
      let (self, t, s) ← self.mapOne t s vpn
      self.mapLoop t s (vpn + 1) n

def map (self : MapArea) (t : PageTable) (s : PhysMem) : Option (MapArea × PageTable × PhysMem) :=
  self.mapLoop t s self.startVpn (self.endVpn - self.startVpn)

/-- The loop of `unmap`. -/
def unmapLoop (self : MapArea) (t : PageTable) (s : PhysMem) (vpn : Nat) :
    Nat → Option (MapArea × PhysMem)
  | 0 => some (self, s)
  | n + 1 => do
      let (self, s) ← self.unmapOne t s vpn
      self.unmapLoop t s (vpn + 1) n

def unmap (self : MapArea) (t : PageTable) (s : PhysMem) : Option (MapArea × PhysMem) :=
  self.unmapLoop t s self.startVpn (self.endVpn - self.startVpn)

end MapArea

/-- The bytes of a frame from `src` on are set. -/
@[irreducible] def Memory.writeBytes (m : Memory) (ppn : Nat) (src : List UInt8) : Memory := fun x =>
  if PhysPageNum.toPhysAddr ppn ≤ x ∧ x < PhysPageNum.toPhysAddr ppn + src.length then
    src.getD (x - PhysPageNum.toPhysAddr ppn) 0
  else m x

/-- The loop of `copy_data`: the rest of the data goes to the page `currentVpn` and
those after it. -/
def copyDataLoop (t : PageTable) (bytes : Memory) (currentVpn : Nat) :
    List (List UInt8) → Option Memory
  | [] => some bytes
  | src :: rest => do
      let pte ← t.translate bytes currentVpn
      copyDataLoop t (bytes.writeBytes pte.ppn src) (currentVpn + 1) rest

/-- The slices of `copy_data`, at least one. -/
def pages (data : List UInt8) : Nat → List (List UInt8)
  | 0 => []
  | n + 1 => data.take pageSize :: pages (data.drop pageSize) n

def MapArea.copyData (self : MapArea) (t : PageTable) (s : PhysMem) (data : List UInt8) :
    Option PhysMem :=
  if self.mapType = .framed then do
    let bytes ← copyDataLoop t s.bytes self.startVpn
      (pages data (max 1 ((data.length + (pageSize - 1)) / pageSize)))
    some { s with bytes := bytes }
  else none

/-! ## Memory sets -/

structure MemorySet where
  pageTable : PageTable
  areas : List MapArea

namespace MemorySet

def newBare (s : PhysMem) : Option (MemorySet × PhysMem) := do
  let (pageTable, s) ← PageTable.new s
  some (⟨pageTable, []⟩, s)

/-- `data` is copied to the pages of the area. -/
def push (self : MemorySet) (s : PhysMem) (mapArea : MapArea) (data : Option (List UInt8)) :
    Option (MemorySet × PhysMem) := do
  let (mapArea, pageTable, s) ← mapArea.map self.pageTable s
  let s ← match data with
    | none => some s
    | some data => mapArea.copyData pageTable s data
  some (⟨pageTable, self.areas ++ [mapArea]⟩, s)

def insertFramedArea (self : MemorySet) (s : PhysMem) (startVa endVa : Nat)
    (permission : MapPermission) : Option (MemorySet × PhysMem) := do
  let area ← MapArea.new startVa endVa .framed permission
  self.push s area none

/-- The area that is taken out is dropped with the frames it still has. -/
def removeAreaWithStartVpn (self : MemorySet) (s : PhysMem) (startVpn : Nat) :
    Option (MemorySet × PhysMem) :=
  match self.areas.findIdx? (·.startVpn = startVpn) with
  | none => some (self, s)
  | some idx => do
      let area ← self.areas[idx]?
      let (area, s) ← area.unmap self.pageTable s
      let s ← dropFrames s (area.dataFrames.map (·.2))
      some ({ self with areas := self.areas.eraseIdx idx }, s)

/-- `strampoline` is the address of the trampoline code. -/
def mapTrampoline (self : MemorySet) (s : PhysMem) (strampoline : Nat) :
    Option (MemorySet × PhysMem) := do
  let vpn ← VirtAddr.toVirtPageNum (VirtAddr.ofUsize trampoline)
  let ppn ← PhysAddr.toPhysPageNum (PhysAddr.ofUsize strampoline)
  let (pageTable, s) ← self.pageTable.map s vpn ppn (PTEFlags.R ||| PTEFlags.X)
  some ({ self with pageTable := pageTable }, s)

def translate (self : MemorySet) (bytes : Memory) (vpn : Nat) : Option PageTableEntry :=
  self.pageTable.translate bytes vpn

/-- All areas are dropped; the entries of their pages stay. -/
def recycleDataPages (self : MemorySet) (s : PhysMem) : Option (MemorySet × PhysMem) := do
  let s ← dropFrames s (self.areas.flatMap fun area => area.dataFrames.map (·.2))
  some ({ self with areas := [] }, s)

/-- The space is dropped, first the page table and then the areas. -/
def drop (self : MemorySet) (s : PhysMem) : Option PhysMem := do
  let s ← dropFrames s self.pageTable.frames
  dropFrames s (self.areas.flatMap fun area => area.dataFrames.map (·.2))

end MemorySet

/-! ## Spaces of programs

`xmas_elf` is third-party code: an `ElfFile` is what its parser returns. -/

structure ProgramHeader where
  /-- `get_type` is `Load` -/
  load : Bool
  virtualAddr : Nat
  memSize : Nat
  offset : Nat
  fileSize : Nat
  isRead : Bool
  isWrite : Bool
  isExecute : Bool

structure ElfFile where
  input : List UInt8
  programHeaders : List ProgramHeader
  entryPoint : Nat

namespace ProgramHeader

def mapPerm (ph : ProgramHeader) : MapPermission :=
  MapPermission.U ||| (if ph.isRead then MapPermission.R else 0) |||
    (if ph.isWrite then MapPermission.W else 0) ||| (if ph.isExecute then MapPermission.X else 0)

/-- The slice of the file from `offset` on. -/
def data (ph : ProgramHeader) (input : List UInt8) : Option (List UInt8) :=
  let stop := usizeAdd ph.offset ph.fileSize
  if ph.offset ≤ stop ∧ stop ≤ input.length then
    some ((input.drop ph.offset).take (stop - ph.offset))
  else none

end ProgramHeader

/-- The bytes of the frame `dst` become those of the frame `src`. -/
@[irreducible] def Memory.copyFrame (m : Memory) (dst src : Nat) : Memory := fun x =>
  if PhysPageNum.toPhysAddr dst ≤ x ∧ x < PhysPageNum.toPhysAddr dst + pageSize then
    m (PhysPageNum.toPhysAddr src + (x - PhysPageNum.toPhysAddr dst))
  else m x

namespace MemorySet

/-- The loop of `from_elf` over the program headers, with `max_end_vpn`. -/
def fromElfLoop (input : List UInt8) :
    List ProgramHeader → MemorySet → PhysMem → Nat → Option (MemorySet × PhysMem × Nat)
  | [], self, s, maxEndVpn => some (self, s, maxEndVpn)
  | ph :: rest, self, s, maxEndVpn =>
      if ph.load then do
        let startVa := VirtAddr.ofUsize ph.virtualAddr
        let endVa := VirtAddr.ofUsize (usizeAdd ph.virtualAddr ph.memSize)
        let mapArea ← MapArea.new startVa endVa .framed ph.mapPerm
        let data ← ph.data input
        let (self, s) ← self.push s mapArea (some data)
        fromElfLoop input rest self s mapArea.endVpn
      else fromElfLoop input rest self s maxEndVpn

/-- The space, the base of the user stacks and the entry point. -/
def fromElf (parse : List UInt8 → Option ElfFile) (strampoline : Nat) (s : PhysMem)
    (elfData : List UInt8) : Option ((MemorySet × Nat × Nat) × PhysMem) := do
  let (self, s) ← newBare s
  let (self, s) ← self.mapTrampoline s strampoline
  let elf ← parse elfData
  let (self, s, maxEndVpn) ← fromElfLoop elf.input elf.programHeaders self s 0
  let userStackBase := usizeAdd (VirtPageNum.toVirtAddr maxEndVpn) pageSize
  some ((self, userStackBase, elf.entryPoint), s)

/-- The inner loop of `from_existed_user`: `n` pages from `vpn` on are copied. -/
def copyPages (userSpace self : MemorySet) (bytes : Memory) (vpn : Nat) : Nat → Option Memory
  | 0 => some bytes
  | n + 1 => do
      let src ← userSpace.translate bytes vpn
      let dst ← self.translate bytes vpn
      copyPages userSpace self (bytes.copyFrame dst.ppn src.ppn) (vpn + 1) n

/-- The loop of `from_existed_user` over the areas. -/
def copyAreas (userSpace : MemorySet) :
    List MapArea → MemorySet → PhysMem → Option (MemorySet × PhysMem)
  | [], self, s => some (self, s)
  | area :: rest, self, s => do
      let newArea ← MapArea.fromAnother area
      let (self, s) ← self.push s newArea none
      let bytes ← copyPages userSpace self s.bytes area.startVpn (area.endVpn - area.startVpn)
      copyAreas userSpace rest self { s with bytes := bytes }

def fromExistedUser (strampoline : Nat) (userSpace : MemorySet) (s : PhysMem) :
    Option (MemorySet × PhysMem) := do
  let (self, s) ← newBare s
  let (self, s) ← self.mapTrampoline s strampoline
  copyAreas userSpace userSpace.areas self s

end MemorySet

end RCore.Mm
