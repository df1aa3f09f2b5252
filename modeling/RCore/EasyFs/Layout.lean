import RCore.EasyFs.Bitmap

/-!
# On-disk layout

The records the file system keeps in blocks: the super block, the disk inode with
its direct, singly and doubly indirect block numbers, and the directory entry.
Sizes and block numbers are `u32` and use its wrapping arithmetic; `usize`
counters are natural numbers.  A loop of the source that counts up to a bound is
a recursion on the number of rounds left.
-/

namespace RCore.EasyFs

open RCore.Lib.LittleEndian RCore.Lib.LockedStore
open Prog (withModify withRead check unwrap)

/-- `EFS_MAGIC`. -/
def efsMagic : UInt32 := 0x3b800001

/-- `INODE_DIRECT_COUNT`. -/
def inodeDirectCount : Nat := 28

/-- `NAME_LENGTH_LIMIT`. -/
def nameLengthLimit : Nat := 27

/-- `INODE_INDIRECT1_COUNT`. -/
def inodeIndirect1Count : Nat := blockSz / 4

/-- `INODE_INDIRECT2_COUNT`. -/
def inodeIndirect2Count : Nat := inodeIndirect1Count * inodeIndirect1Count

/-- `DIRECT_BOUND`. -/
def directBound : Nat := inodeDirectCount

/-- `INDIRECT1_BOUND`. -/
def indirect1Bound : Nat := directBound + inodeIndirect1Count

/-- `INDIRECT2_BOUND`. -/
def indirect2Bound : Nat := indirect1Bound + inodeIndirect2Count

theorem inodeDirectCount_eq : inodeDirectCount = 28 := rfl

theorem inodeIndirect1Count_eq : inodeIndirect1Count = 128 := rfl

theorem indirect1Bound_eq : indirect1Bound = 156 := rfl

/-! ## Super block -/

structure SuperBlock where
  magic : UInt32
  totalBlocks : UInt32
  inodeBitmapBlocks : UInt32
  inodeAreaBlocks : UInt32
  dataBitmapBlocks : UInt32
  dataAreaBlocks : UInt32
  deriving DecidableEq

namespace SuperBlock

/-- Field `k` in the order of the record. -/
def field (self : SuperBlock) (k : Nat) : UInt32 :=
  match k with
  | 0 => self.magic
  | 1 => self.totalBlocks
  | 2 => self.inodeBitmapBlocks
  | 3 => self.inodeAreaBlocks
  | 4 => self.dataBitmapBlocks
  | _ => self.dataAreaBlocks

/-- The record at the start of a block. -/
def ofBlock (b : Block) : SuperBlock where
  magic := b.word 0
  totalBlocks := b.word 1
  inodeBitmapBlocks := b.word 2
  inodeAreaBlocks := b.word 3
  dataBitmapBlocks := b.word 4
  dataAreaBlocks := b.word 5

/-- Store the record at the start of a block. -/
def toBlock (self : SuperBlock) (b : Block) : Block :=
  b.patch 0 24 fun i => leByte (self.field (i / 4)).toNat (i % 4)

/-- `SuperBlock::initialize`. -/
def initial (totalBlocks inodeBitmapBlocks inodeAreaBlocks dataBitmapBlocks
    dataAreaBlocks : UInt32) : SuperBlock where
  magic := efsMagic
  totalBlocks := totalBlocks
  inodeBitmapBlocks := inodeBitmapBlocks
  inodeAreaBlocks := inodeAreaBlocks
  dataBitmapBlocks := dataBitmapBlocks
  dataAreaBlocks := dataAreaBlocks

def isValid (self : SuperBlock) : Bool := self.magic == efsMagic

end SuperBlock

/-! ## Disk inodes -/

inductive DiskInodeType where
  | file
  | directory
  deriving DecidableEq

structure DiskInode where
  size : UInt32
  direct : Vector UInt32 inodeDirectCount
  indirect1 : UInt32
  indirect2 : UInt32
  type_ : DiskInodeType
  deriving DecidableEq

/-- `size_of::<DiskInode>()`: 31 words, the type in one byte, and padding. -/
def diskInodeSize : Nat := 128

namespace DiskInode

/-- Direct block number `i`. -/
def directAt (self : DiskInode) (i : Nat) : UInt32 := self.direct[i]?.getD 0

/-- Word `k` of the record. -/
def field (self : DiskInode) (k : Nat) : UInt32 :=
  if k = 0 then self.size
  else if k ≤ 28 then self.directAt (k - 1)
  else if k = 29 then self.indirect1
  else self.indirect2

/-- Byte `j` of the record; the padding bytes are not written. -/
def encodeByte (self : DiskInode) (j : Nat) : UInt8 :=
  if j < 124 then leByte (self.field (j / 4)).toNat (j % 4)
  else match self.type_ with
    | .file => 0
    | .directory => 1

/-- The record at byte offset `off` of a block. -/
def ofBlock (b : Block) (off : Nat) : DiskInode where
  size := b.u32At off
  direct := Vector.ofFn fun k => b.u32At (off + 4 * (k.val + 1))
  indirect1 := b.u32At (off + 4 * 29)
  indirect2 := b.u32At (off + 4 * 30)
  type_ := if b.byte (off + 124) = 1 then .directory else .file

/-- Store the record at byte offset `off` of a block. -/
def toBlock (self : DiskInode) (b : Block) (off : Nat) : Block :=
  b.patch off 125 self.encodeByte

/-- `DiskInode::initialize`. -/
def initial (type_ : DiskInodeType) : DiskInode where
  size := 0
  direct := Vector.replicate inodeDirectCount 0
  indirect1 := 0
  indirect2 := 0
  type_ := type_

def isDir (self : DiskInode) : Bool := self.type_ == .directory

/-- `DiskInode::_data_blocks`: the number of blocks for a size. -/
def dataBlocksOf (size : UInt32) : UInt32 := (size + 512 - 1) / 512

def dataBlocks (self : DiskInode) : UInt32 := dataBlocksOf self.size

/-- Number of blocks for a size, index blocks included. -/
def totalBlocks (size : UInt32) : UInt32 :=
  let dataBlocks := (dataBlocksOf size).toNat
  let total := dataBlocks
  let total := if dataBlocks > inodeDirectCount then total + 1 else total
  let total :=
    if dataBlocks > indirect1Bound then
      total + 1 +
        (dataBlocks - indirect1Bound + inodeIndirect1Count - 1) / inodeIndirect1Count
    else total
  UInt32.ofNat total

def blocksNumNeeded (self : DiskInode) (newSize : UInt32) : FsProg UInt32 := do
  check (newSize ≥ self.size)
  pure (totalBlocks newSize - totalBlocks self.size)

/-- `DiskInode::get_block_id`: the block number of data block `innerId`. -/
def getBlockId (self : DiskInode) (innerId : Nat) : FsProg UInt32 :=
  if innerId < inodeDirectCount then
    pure (self.directAt innerId)
  else if innerId < indirect1Bound then
    withRead self.indirect1.toNat fun indirectBlock =>
      pure (indirectBlock.word (innerId - inodeDirectCount))
  else do
    let last := innerId - indirect1Bound
    let indirect1 ← withRead self.indirect2.toNat fun indirect2 => do
      check (last / inodeIndirect1Count < inodeIndirect1Count)
      pure (indirect2.word (last / inodeIndirect1Count))
    withRead indirect1.toNat fun indirect1 =>
      pure (indirect1.word (last % inodeIndirect1Count))

/-! ### Growing -/

/-- `new_blocks.next().unwrap()`. -/
def next : List UInt32 → FsProg (UInt32 × List UInt32)
  | [] => .panic
  | id :: rest => pure (id, rest)

/-- The loop that fills `direct` from `current` on. -/
def fillDirect (self : DiskInode) (newBlocks : List UInt32) (current : Nat) :
    Nat → FsProg (DiskInode × List UInt32)
  | 0 => pure (self, newBlocks)
  | n + 1 => do
      let (id, newBlocks) ← next newBlocks
      fillDirect { self with direct := self.direct.setIfInBounds current id } newBlocks
        (current + 1) n

/-- The loop that fills the singly indirect block from `current` on. -/
def fillIndirect1 (indirect1 : Block) (newBlocks : List UInt32) (current : Nat) :
    Nat → FsProg (List UInt32 × Block)
  | 0 => pure (newBlocks, indirect1)
  | n + 1 => do
      let (id, newBlocks) ← next newBlocks
      fillIndirect1 (indirect1.setWord current id) newBlocks (current + 1) n

/-- A new second-level index block `a0`, when `b0` is its first entry. -/
def allocSub (indirect2 : Block) (newBlocks : List UInt32) (a0 b0 : Nat) :
    FsProg (Block × List UInt32) :=
  if b0 = 0 then do
    let (id, newBlocks) ← next newBlocks
    pure (indirect2.setWord a0 id, newBlocks)
  else pure (indirect2, newBlocks)

/-- The loop that fills the doubly indirect block from `(a0, b0)` to `(a1, b1)`; the
first argument bounds the number of rounds. -/
def fillIndirect2 (a1 b1 : Nat) :
    Nat → Block → List UInt32 → Nat → Nat → FsProg (List UInt32 × Block)
  | 0, indirect2, newBlocks, a0, b0 =>
      if a0 < a1 ∨ (a0 = a1 ∧ b0 < b1) then .panic else pure (newBlocks, indirect2)
  | fuel + 1, indirect2, newBlocks, a0, b0 =>
      if a0 < a1 ∨ (a0 = a1 ∧ b0 < b1) then do
        check (a0 < inodeIndirect1Count)
        let (indirect2, newBlocks) ← allocSub indirect2 newBlocks a0 b0
        -- fill current
        let newBlocks ← withModify (indirect2.word a0).toNat fun indirect1 => do
          let (id, newBlocks) ← next newBlocks
          pure (newBlocks, indirect1.setWord b0 id)
        -- move to next
        if b0 + 1 = inodeIndirect1Count then
          fillIndirect2 a1 b1 fuel indirect2 newBlocks (a0 + 1) 0
        else fillIndirect2 a1 b1 fuel indirect2 newBlocks a0 (b0 + 1)
      else pure (newBlocks, indirect2)

/-- A new singly indirect block, when the direct blocks have just been filled. -/
def allocIndirect1 (self : DiskInode) (newBlocks : List UInt32) (currentBlocks : Nat) :
    FsProg (DiskInode × List UInt32) :=
  if currentBlocks = inodeDirectCount then do
    let (id, newBlocks) ← next newBlocks
    pure ({ self with indirect1 := id }, newBlocks)
  else pure (self, newBlocks)

/-- A new doubly indirect block, when the singly indirect block has just been filled. -/
def allocIndirect2 (self : DiskInode) (newBlocks : List UInt32) (currentBlocks : Nat) :
    FsProg (DiskInode × List UInt32) :=
  if currentBlocks = inodeIndirect1Count then do
    let (id, newBlocks) ← next newBlocks
    pure ({ self with indirect2 := id }, newBlocks)
  else pure (self, newBlocks)

/-- `DiskInode::increase_size` from the point where the singly indirect block is filled. -/
def increaseIndirect2 (self : DiskInode) (newBlocks : List UInt32)
    (currentBlocks totalBlocks : Nat) : FsProg DiskInode := do
  let (self, newBlocks) ← self.allocIndirect2 newBlocks currentBlocks
  let currentBlocks := currentBlocks - inodeIndirect1Count
  let totalBlocks := totalBlocks - inodeIndirect1Count
  -- fill indirect2 from (a0, b0) -> (a1, b1)
  let _ ← withModify self.indirect2.toNat fun indirect2 =>
    fillIndirect2 (totalBlocks / inodeIndirect1Count) (totalBlocks % inodeIndirect1Count)
      (totalBlocks - currentBlocks) indirect2 newBlocks
      (currentBlocks / inodeIndirect1Count) (currentBlocks % inodeIndirect1Count)
  pure self

/-- `DiskInode::increase_size` from the point where the direct blocks are filled. -/
def increaseIndirect1 (self : DiskInode) (newBlocks : List UInt32)
    (currentBlocks totalBlocks : Nat) : FsProg DiskInode := do
  let (self, newBlocks) ← self.allocIndirect1 newBlocks currentBlocks
  let currentBlocks := currentBlocks - inodeDirectCount
  let totalBlocks := totalBlocks - inodeDirectCount
  -- fill indirect1
  let bound := min totalBlocks inodeIndirect1Count
  let newBlocks ← withModify self.indirect1.toNat fun indirect1 =>
    fillIndirect1 indirect1 newBlocks currentBlocks (bound - currentBlocks)
  let currentBlocks := max currentBlocks bound
  if totalBlocks > inodeIndirect1Count then
    self.increaseIndirect2 newBlocks currentBlocks totalBlocks
  else pure self

def increaseSize (self : DiskInode) (newSize : UInt32) (newBlocks : List UInt32) :
    FsProg DiskInode := do
  let currentBlocks := self.dataBlocks.toNat
  let self := { self with size := newSize }
  let totalBlocks := self.dataBlocks.toNat
  -- fill direct
  let bound := min totalBlocks inodeDirectCount
  let (self, newBlocks) ← self.fillDirect newBlocks currentBlocks (bound - currentBlocks)
  let currentBlocks := max currentBlocks bound
  if totalBlocks > inodeDirectCount then
    self.increaseIndirect1 newBlocks currentBlocks totalBlocks
  else pure self

/-! ### Clearing -/

/-- The loop over `direct`: collect the first `n` block numbers and zero them. -/
def clearDirect (self : DiskInode) : Nat → List UInt32 × DiskInode
  | 0 => ([], self)
  | n + 1 =>
      let (v, self) := self.clearDirect n
      (v ++ [self.directAt n], { self with direct := self.direct.setIfInBounds n 0 })

/-- The loop over the full second-level index blocks. -/
def clearFull (indirect2 : Block) : List Nat → List UInt32 → FsProg (List UInt32)
  | [], v => pure v
  | a :: rest, v => do
      let entry := indirect2.word a
      let v ← withModify entry.toNat fun indirect1 =>
        pure (v ++ [entry] ++ (List.range inodeIndirect1Count).map indirect1.word, indirect1)
      clearFull indirect2 rest v

/-- `DiskInode::clear_size` from the doubly indirect block on. -/
def clearIndirect2 (self : DiskInode) (dataBlocks : Nat) (v : List UInt32) :
    FsProg (List UInt32 × DiskInode) := do
  let v := v ++ [self.indirect2]
  let dataBlocks := dataBlocks - inodeIndirect1Count
  check (dataBlocks ≤ inodeIndirect2Count)
  let a1 := dataBlocks / inodeIndirect1Count
  let b1 := dataBlocks % inodeIndirect1Count
  let v ← withModify self.indirect2.toNat fun indirect2 => do
    -- full indirect1 blocks
    let v ← clearFull indirect2 (List.range (min a1 inodeIndirect1Count)) v
    -- last indirect1 block
    if b1 > 0 then do
      check (a1 < inodeIndirect1Count)
      let entry := indirect2.word a1
      let v ← withModify entry.toNat fun indirect1 =>
        pure (v ++ [entry] ++ (List.range b1).map indirect1.word, indirect1)
      pure (v, indirect2)
    else pure (v, indirect2)
  pure (v, { self with indirect2 := 0 })

/-- `DiskInode::clear_size`: the blocks to deallocate, and the cleared inode. -/
def clearSize (self : DiskInode) : FsProg (List UInt32 × DiskInode) := do
  let dataBlocks := self.dataBlocks.toNat
  let self := { self with size := 0 }
  let (v, self) := self.clearDirect (min dataBlocks inodeDirectCount)
  if dataBlocks > inodeDirectCount then do
    let v := v ++ [self.indirect1]
    let dataBlocks := dataBlocks - inodeDirectCount
    let v ← withModify self.indirect1.toNat fun indirect1 =>
      pure (v ++ (List.range (min dataBlocks inodeIndirect1Count)).map indirect1.word, indirect1)
    let self := { self with indirect1 := 0 }
    if dataBlocks > inodeIndirect1Count then self.clearIndirect2 dataBlocks v
    else pure (v, self)
  else pure (v, self)

/-! ### Reading and writing -/

/-- `usize` arithmetic: wrapping on 64 bits. -/
def usizeAdd (a b : Nat) : Nat := (a + b) % 2 ^ 64

/-- End of the part of `[start, stop)` that lies in the block of `start`. -/
def endOfBlock (start stop : Nat) : Nat := min ((start / blockSz + 1) * blockSz) stop

theorem endOfBlock_decreases {start stop : Nat} (h : endOfBlock start stop ≠ stop) :
    stop - endOfBlock start stop < stop - start := by
  unfold endOfBlock blockSz at *
  omega

/-- The loop of `DiskInode::read_at`. -/
def readLoop (self : DiskInode) (stop start startBlock readSize : Nat) (buf : List UInt8) :
    FsProg (Nat × List UInt8) := do
  let endCurrentBlock := endOfBlock start stop
  let blockReadSize := endCurrentBlock - start
  let id ← self.getBlockId startBlock
  let buf ← withRead id.toNat fun dataBlock =>
    let src := (List.range blockReadSize).map fun i => dataBlock.byte (start % blockSz + i)
    pure (buf.take readSize ++ src ++ buf.drop (readSize + blockReadSize))
  let readSize := readSize + blockReadSize
  if h : endCurrentBlock = stop then pure (readSize, buf)
  else self.readLoop stop endCurrentBlock (startBlock + 1) readSize buf
termination_by stop - start
decreasing_by exact endOfBlock_decreases h

/-- `DiskInode::read_at`: the number of bytes read, and the buffer afterwards. -/
def readAt (self : DiskInode) (offset : Nat) (buf : List UInt8) : FsProg (Nat × List UInt8) :=
  let stop := min (usizeAdd offset buf.length) self.size.toNat
  if offset ≥ stop then pure (0, buf)
  else self.readLoop stop offset (offset / blockSz) 0 buf

/-- The loop of `DiskInode::write_at`. -/
def writeLoop (self : DiskInode) (stop start startBlock writeSize : Nat) (buf : List UInt8) :
    FsProg Nat := do
  let endCurrentBlock := endOfBlock start stop
  let blockWriteSize := endCurrentBlock - start
  let id ← self.getBlockId startBlock
  withModify id.toNat fun dataBlock =>
    pure ((), dataBlock.patch (start % blockSz) blockWriteSize fun i =>
      buf[writeSize + i]?.getD 0)
  let writeSize := writeSize + blockWriteSize
  if h : endCurrentBlock = stop then pure writeSize
  else self.writeLoop stop endCurrentBlock (startBlock + 1) writeSize buf
termination_by stop - start
decreasing_by exact endOfBlock_decreases h

/-- `DiskInode::write_at`; the size must have been adjusted before. -/
def writeAt (self : DiskInode) (offset : Nat) (buf : List UInt8) : FsProg Nat := do
  let stop := min (usizeAdd offset buf.length) self.size.toNat
  check (offset ≤ stop)
  self.writeLoop stop offset (offset / blockSz) 0 buf

end DiskInode

/-! ## Directory entries -/

/-- `DIRENT_SZ`. -/
def direntSz : Nat := 32

structure DirEntry where
  name : Vector UInt8 (nameLengthLimit + 1)
  inodeNumber : UInt32
  deriving DecidableEq

/-- `str::as_bytes`. -/
def strBytes (name : String) : List UInt8 := name.toByteArray.data.toList

namespace DirEntry

def empty : DirEntry where
  name := Vector.replicate _ 0
  inodeNumber := 0

/-- `DirEntry::new`; a name longer than the field stops the program. -/
def new (name : String) (inodeNumber : UInt32) : FsProg DirEntry := do
  check ((strBytes name).length ≤ nameLengthLimit + 1)
  pure {
    name := Vector.ofFn fun i => (strBytes name)[i.val]?.getD 0
    inodeNumber := inodeNumber }

/-- `DirEntry::as_bytes`: the record as `DIRENT_SZ` bytes. -/
def asBytes (self : DirEntry) : List UInt8 :=
  self.name.toList ++ (List.range 4).map (leByte self.inodeNumber.toNat)

/-- The record whose bytes are given. -/
def ofBytes (bytes : List UInt8) : DirEntry where
  name := Vector.ofFn fun i => bytes[i.val]?.getD 0
  inodeNumber := UInt32.ofNat (leValue (fun i => bytes[28 + i]?.getD 0) 4)

/-- The `name` method: the bytes before the first NUL, as a string. -/
def nameStr (self : DirEntry) : FsProg String := do
  let len ← unwrap ((List.range (nameLengthLimit + 1)).find? fun i => self.name[i]? == some 0)
  unwrap (String.fromUTF8? ⟨(self.name.toList.take len).toArray⟩)

end DirEntry

end RCore.EasyFs
