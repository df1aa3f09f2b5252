import RCore.EasyFs.Efs

/-!
# Inodes of the virtual file system

`Inode` is a handle: the block and the byte offset of a disk inode.  The methods
are programs over the block cache.  The mutex around the file system is taken at
the start of every method and given back at its end, so it only orders whole
methods and is not part of the model.
-/

namespace RCore.EasyFs

open RCore.Lib.LockedStore
open Prog (withModify withRead check unwrap)

structure Inode where
  blockId : Nat
  blockOffset : Nat
  deriving DecidableEq

namespace Inode

/-- The handle of inode number `inodeId`. -/
def ofId (efs : EasyFileSystem) (inodeId : UInt32) : Inode :=
  let (blockId, blockOffset) := efs.getDiskInodePos inodeId
  ⟨blockId.toNat, blockOffset⟩

/-- `EasyFileSystem::root_inode`. -/
def rootInode (efs : EasyFileSystem) : Inode := ofId efs 0

def readDiskInode {α : Type} (self : Inode) (f : DiskInode → FsProg α) : FsProg α :=
  withRead self.blockId fun b => do
    check (self.blockOffset + diskInodeSize ≤ blockSz)
    f (DiskInode.ofBlock b self.blockOffset)

def modifyDiskInode {α : Type} (self : Inode) (f : DiskInode → FsProg (α × DiskInode)) :
    FsProg α :=
  withModify self.blockId fun b => do
    check (self.blockOffset + diskInodeSize ≤ blockSz)
    let (a, diskInode) ← f (DiskInode.ofBlock b self.blockOffset)
    pure (a, diskInode.toBlock b self.blockOffset)

/-- Read directory entry `i` into the buffer `dirent`. -/
def readDirEntry (diskInode : DiskInode) (i : Nat) (dirent : DirEntry) : FsProg DirEntry := do
  let (n, bytes) ← diskInode.readAt (direntSz * i) dirent.asBytes
  check (n == direntSz)
  pure (DirEntry.ofBytes bytes)

/-- The loop of `find_inode_id`. -/
def findLoop (name : String) (diskInode : DiskInode) :
    List Nat → DirEntry → FsProg (Option UInt32)
  | [], _ => pure none
  | i :: rest, dirent => do
      let dirent ← readDirEntry diskInode i dirent
      let direntName ← dirent.nameStr
      if direntName = name then pure (some dirent.inodeNumber)
      else findLoop name diskInode rest dirent

def findInodeId (name : String) (diskInode : DiskInode) : FsProg (Option UInt32) := do
  check diskInode.isDir
  findLoop name diskInode (List.range (diskInode.size.toNat / direntSz)) DirEntry.empty

def find (self : Inode) (efs : EasyFileSystem) (name : String) : FsProg (Option Inode) :=
  self.readDiskInode fun diskInode => do
    let inodeId ← findInodeId name diskInode
    pure (inodeId.map (ofId efs))

def increaseSize (efs : EasyFileSystem) (newSize : UInt32) (diskInode : DiskInode) :
    FsProg DiskInode :=
  if newSize < diskInode.size then pure diskInode
  else do
    let blocksNeeded ← diskInode.blocksNumNeeded newSize
    let v ← efs.allocDatas blocksNeeded.toNat []
    diskInode.increaseSize newSize v

/-- The part of `create` that appends the directory entry. -/
def appendEntry (efs : EasyFileSystem) (name : String) (newInodeId : UInt32)
    (rootInode : DiskInode) : FsProg (Unit × DiskInode) := do
  let fileCount := rootInode.size.toNat / direntSz
  let newSize := (fileCount + 1) * direntSz
  let rootInode ← increaseSize efs (UInt32.ofNat newSize) rootInode
  let dirent ← DirEntry.new name newInodeId
  let _ ← rootInode.writeAt (fileCount * direntSz) dirent.asBytes
  pure ((), rootInode)

/-- The part of `create` after the name was not found. -/
def createNew (self : Inode) (efs : EasyFileSystem) (name : String) : FsProg Inode := do
  let newInodeId ← efs.allocInode
  let (newInodeBlockId, newInodeBlockOffset) := efs.getDiskInodePos newInodeId
  EasyFileSystem.writeInode newInodeBlockId.toNat newInodeBlockOffset (DiskInode.initial .file)
  self.modifyDiskInode (appendEntry efs name newInodeId)
  pure (ofId efs newInodeId)

/-- The closure of `create` that looks the name up. -/
def searchBody (name : String) (rootInode : DiskInode) : FsProg (Option UInt32) := do
  check rootInode.isDir
  findInodeId name rootInode

/-- The search takes the root inode to be modified and leaves it as it is. -/
def searchForCreate (self : Inode) (name : String) : FsProg (Option UInt32) :=
  self.modifyDiskInode fun rootInode => do
    let inodeId ← searchBody name rootInode
    pure (inodeId, rootInode)

def create (self : Inode) (efs : EasyFileSystem) (name : String) : FsProg (Option Inode) := do
  let found ← self.searchForCreate name
  -- an existing name returns without `block_cache_sync_all`
  if found.isSome then pure none
  else do
    let inode ← self.createNew efs name
    Prog.syncAll (pure (some inode))

/-- The loop of `ls`. -/
def lsLoop (diskInode : DiskInode) : List Nat → List String → FsProg (List String)
  | [], v => pure v
  | i :: rest, v => do
      let dirent ← readDirEntry diskInode i DirEntry.empty
      let name ← dirent.nameStr
      lsLoop diskInode rest (v ++ [name])

def ls (self : Inode) : FsProg (List String) :=
  self.readDiskInode fun diskInode =>
    lsLoop diskInode (List.range (diskInode.size.toNat / direntSz)) []

/-- `Inode::read_at`: the number of bytes read, and the buffer afterwards. -/
def readAt (self : Inode) (offset : Nat) (buf : List UInt8) : FsProg (Nat × List UInt8) :=
  self.readDiskInode fun diskInode => diskInode.readAt offset buf

/-- The closure of `write_at`. -/
def writeBody (efs : EasyFileSystem) (offset : Nat) (buf : List UInt8) (diskInode : DiskInode) :
    FsProg (Nat × DiskInode) := do
  let diskInode ← increaseSize efs (UInt32.ofNat (DiskInode.usizeAdd offset buf.length)) diskInode
  let size ← diskInode.writeAt offset buf
  pure (size, diskInode)

def writeAt (self : Inode) (efs : EasyFileSystem) (offset : Nat) (buf : List UInt8) :
    FsProg Nat := do
  let size ← self.modifyDiskInode (writeBody efs offset buf)
  Prog.syncAll (pure size)

/-- The closure of `clear`. -/
def clearBody (efs : EasyFileSystem) (diskInode : DiskInode) : FsProg (Unit × DiskInode) := do
  let size := diskInode.size
  let (dataBlocksDealloc, diskInode) ← diskInode.clearSize
  check (dataBlocksDealloc.length == (DiskInode.totalBlocks size).toNat)
  efs.deallocDatas dataBlocksDealloc
  pure ((), diskInode)

def clear (self : Inode) (efs : EasyFileSystem) : FsProg Unit := do
  self.modifyDiskInode (clearBody efs)
  Prog.syncAll (pure ())

end Inode

end RCore.EasyFs
