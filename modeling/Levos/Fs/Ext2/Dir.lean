import Levos.Fs.Ext2.Dirent
import Levos.Fs.Ext2.File

/-!
# Directories (`fs/ext2/dir.c`, `fs/ext2/file.c`, `fs/ext2/inode.c`)

Looking for a name in a directory, resolving a path, placing an entry, and the
two operations that make an inode with a name, `ext2_create_file` and
`ext2_mkdir`.

The allocators of blocks and of inodes are parameters, and so is `heap`, what
`malloc` finds in memory. The results are `none` where the code panics, where
it does not end, and where it goes on with the memory after a buffer.
-/

namespace Levos.Fs

open Levos.Base Levos.Kernel

/-! ## Fields -/

def inoType : Nat := 0
def inoHardlinks : Nat := 26

/-- `num_of_dirs` in `struct ext2_block_group_desc`. -/
def bgdNumOfDirs : Nat := 16

/-- `S_IFDIR`. -/
def sIfdir : Nat := 0x4000

/-- `IFREG`. -/
def sIfreg : Nat := 0x8000

/-- The inode number as an unsigned integer. -/
def inoOf (ino : Int) : Nat := (ino % 2 ^ 32).toNat

variable (alloc allocIno : Ext2Fs → Int × Ext2Fs) (heap : Nat → UInt8)

/-! ## Reading -/

/-- The group descriptor of an inode is in the block of the descriptors. -/
def HasDescriptor (fs : Ext2Fs) (ino : Nat) : Prop :=
  ino ≠ 0 ∧ 32 * ((ino - 1) / le32 fs.sb sbInodesInBlockgroup) + 32 ≤ fs.blocksize

instance (fs : Ext2Fs) (ino : Nat) : Decidable (HasDescriptor fs ino) :=
  inferInstanceAs (Decidable (_ ∧ _))

/-- `ext2_read_inode` into a new buffer; without a descriptor the inode's
block depends on the memory after one. -/
def readNewInode (fs : Ext2Fs) (ino : Nat) : Option (Nat → UInt8) :=
  if HasDescriptor fs ino then some (reReadInode fs heap ino) else none

/-- A block in a new buffer. -/
def readNewBlock (fs : Ext2Fs) (block : Nat) : Nat → UInt8 :=
  writeBytes heap 0 fs.blocksize (ext2ReadBlock fs block)

/-- The loop of `ext2_read_directory` over block pointers. -/
def readDbps (fs : Ext2Fs) (f : List UInt8) : List Nat → Int
  | [] => -enoent
  | x :: xs =>
      let b := readNewBlock heap fs x
      if entSize b 0 = 0 ∨ entNamelength b 0 = 0 then -enoent
      else
        match scanBlock f b fs.blocksize fs.blocksize 0 with
        | some k => if k = 0 then -enoent else i32 k
        | none => readDbps fs f xs

/-- The block pointers in an inode. -/
def dbps (inode : Nat → UInt8) : List Nat := (List.range 12).map fun i => le32 inode (inoDbp + 4 * i)

/-- `ext2_read_directory`. Its check for `-ENOTDIR` compares 0x4000 with 0
first, and never fires. -/
def ext2ReadDirectory (fs : Ext2Fs) (dino : Nat) (f : List UInt8) : Option Int :=
  (readNewInode heap fs dino).map fun inode => readDbps heap fs f (dbps inode)

/-! ## Paths -/

def pathSeparator : UInt8 := 47

/-- The pieces that `strtok_r` cuts a path into; `token` is the part of the
present one before `s`. -/
def tokensFrom : List UInt8 → List UInt8 → List (List UInt8)
  | token, [] => if token = [] then [] else [token]
  | token, c :: s =>
      if c = pathSeparator then (if token = [] then [] else [token]) ++ tokensFrom [] s
      else tokensFrom (token ++ [c]) s

def pathTokens (path : List UInt8) : List (List UInt8) := tokensFrom [] path

/-- The loop of `ext2_find_file_inode`. -/
def findTokens (fs : Ext2Fs) : List (List UInt8) → Nat → Option Int
  | [], ino => some ino
  | t :: ts, ino =>
      (ext2ReadDirectory heap fs ino t).bind fun r =>
        if r < 0 then some (-enoent) else findTokens fs ts r.toNat

/-- `ext2_find_file_inode`; the root is inode 2. -/
def ext2FindFileInode (fs : Ext2Fs) (path : List UInt8) : Option Int :=
  findTokens heap fs (pathTokens path) 2

/-- One step of `__canonicalize_path` on its list of elements. -/
def pushElement (out : List (List UInt8)) (pch : List UInt8) : List (List UInt8) :=
  if pch = [46, 46] then out.dropLast else if pch = [46] then out else out ++ [pch]

/-- `__canonicalize_path`. -/
def canonicalizePath (cwd input : List UInt8) : List UInt8 :=
  let start := if input ≠ [] ∧ input.head? ≠ some pathSeparator then pathTokens cwd else []
  let out := (pathTokens input).foldl pushElement start
  if out = [] then [pathSeparator] else out.flatMap fun s => pathSeparator :: s

/-- The last separator at or before an index. -/
def lastSeparator (path : List UInt8) : Nat → Option Nat
  | 0 => if path[0]? = some pathSeparator then some 0 else none
  | n + 1 => if path[n + 1]? = some pathSeparator then some (n + 1) else lastSeparator path n

/-- `__path_get_path`. -/
def pathGetPath (path : List UInt8) : List UInt8 :=
  let lastIdx := (lastSeparator path path.length).getD 0
  if lastIdx = 0 then [pathSeparator] else path.take lastIdx

/-- `__path_get_name`: without a separator it reads what is before the path. -/
def pathGetName (path : List UInt8) : Option (List UInt8) :=
  (lastSeparator path path.length).map fun len => path.drop (len + 1)

/-! ## Placing an entry -/

/-- `ext2_inode_add_block` for the block after the last one. -/
def ext2InodeAppendBlock (fs : Ext2Fs) (ino : Nat) (inode : Nat → UInt8) : Option BlockResult :=
  allocateInodeBlock alloc fs inode ino (le32 inode inoDiskSectors / (fs.blocksize / 512))

/-- The loop of `__ext2_place_dirent` over the `n` block pointers from `i` on. -/
def placeLoop (inode : Nat → UInt8) (ino : Nat) (dirent : Nat → UInt8) (fs : Ext2Fs) :
    Nat → Nat → Option Ext2Fs
  | _, 0 => some fs
  | i, n + 1 =>
      let x := le32 inode (inoDbp + 4 * i)
      if x = 0 then
        (ext2InodeAppendBlock alloc fs ino inode).map fun r =>
          ext2WriteBlock r.fs (firstBlock fs.blocksize dirent) (inoOf r.ret)
      else
        (placeInBlock fs.blocksize (readNewBlock heap fs x) dirent).bind fun r =>
          match r with
          | some b => some (ext2WriteBlock fs b x)
          | none => placeLoop inode ino dirent fs (i + 1) n

/-- What follows the loop: another link to the inode of the entry, and another
block if it does not have as many sectors as the directory had. -/
def linkInode (fs : Ext2Fs) (oldSecs ino : Nat) : Option Ext2Fs :=
  (readNewInode heap fs ino).map fun tmpinode =>
    let tmpinode := put16 tmpinode inoHardlinks (le16 tmpinode inoHardlinks + 1)
    let tmpinode :=
      if le32 tmpinode inoDiskSectors ≠ oldSecs then
        put32 tmpinode inoSize (le32 tmpinode inoSize + fs.blocksize)
      else tmpinode
    ext2WriteInode fs tmpinode ino

/-- `ext2_place_dirent`. -/
def ext2PlaceDirent (fs : Ext2Fs) (ino : Nat) (dirent : Nat → UInt8) : Option (Int × Ext2Fs) :=
  (readNewInode heap fs ino).bind fun inode =>
    (placeLoop alloc heap inode ino dirent fs 0 12).bind fun fs =>
      (linkInode heap fs (le32 inode inoDiskSectors) (entInode dirent 0)).map fun fs => (0, fs)

/-! ## Creating files and directories -/

/-- The inode of a new file. -/
def newFileInode : Nat → UInt8 := put16 (fun _ => 0) inoType (sIfreg ||| 0x0fff)

/-- `ext2_new_inode`. -/
def ext2NewInode (fs : Ext2Fs) : Int × Ext2Fs :=
  let r := allocIno fs
  if r.1 < 0 then (-enospc, r.2) else (r.1, ext2WriteInode r.2 newFileInode (inoOf r.1))

/-- `ext2_open`. -/
def ext2Open (fs : Ext2Fs) (path : List UInt8) : Option (Except Int Ext2File) :=
  (ext2FindFileInode heap fs path).bind fun ino =>
    if ino = -enoent then some (.error (-enoent))
    else
      (readNewInode heap fs (inoOf ino)).map fun inode => .ok ⟨ino, 0, le32 inode inoSize⟩

/-- `ext2_create_file`. -/
def ext2CreateFile (fs : Ext2Fs) (path : List UInt8) : Option (Except Int Ext2File × Ext2Fs) :=
  let r := ext2NewInode allocIno fs
  (ext2FindFileInode heap r.2 (pathGetPath path)).bind fun base =>
    if base < 0 then some (.error base, r.2)
    else
      (pathGetName path).bind fun name =>
        (ext2PlaceDirent alloc heap r.2 base.toNat (ext2NewDirent (inoOf r.1) name)).bind fun p =>
          (ext2Open heap p.2 path).map fun f => (f, p.2)

/-- The inode of a new directory: all fields of `struct ext2_inode`, and what
was in the buffer after them. -/
def newDirInode : Nat → UInt8 := fun j =>
  if j < inodeSize then put16 (fun _ => 0) inoType (sIfdir ||| 0x0fff) j else heap j

/-- Another directory in the group of an inode. -/
def countDirectory (fs : Ext2Fs) (ino : Nat) : Ext2Fs :=
  let bgd := ext2ReadBlock fs fs.firstBgd
  let field := 32 * ((ino - 1) / le32 fs.sb sbInodesInBlockgroup) + bgdNumOfDirs
  ext2WriteBlock fs (put16 bgd field (le16 bgd field + 1)) fs.firstBgd

/-- The part of `ext2_mkdir` that writes the inode and the three entries. -/
def makeDirectory (fs : Ext2Fs) (path : List UInt8) (thisNo parentNo : Nat) :
    Option (Int × Ext2Fs) :=
  let fs := ext2WriteInode fs (newDirInode heap) thisNo
  (ext2PlaceDirent alloc heap fs thisNo (ext2NewDirent thisNo [46])).bind fun p =>
    if p.1 ≠ 0 then some p
    else
      (ext2PlaceDirent alloc heap p.2 thisNo (ext2NewDirent parentNo [46, 46])).bind fun p =>
        if p.1 ≠ 0 then some p
        else
          (pathGetName path).bind fun name =>
            (ext2PlaceDirent alloc heap p.2 parentNo (ext2NewDirent thisNo name)).bind fun p =>
              if p.1 ≠ 0 then some p else some (0, countDirectory p.2 thisNo)

/-- `ext2_mkdir`. -/
def ext2Mkdir (fs : Ext2Fs) (path : List UInt8) : Option (Int × Ext2Fs) :=
  let parent := canonicalizePath [pathSeparator] (path ++ [pathSeparator, 46, 46])
  (ext2FindFileInode heap fs parent).bind fun parentNo =>
    if parentNo ≤ 0 then some (-enoent, fs)
    else
      (ext2FindFileInode heap fs path).bind fun found =>
        if found > 0 then some (-eexist, fs)
        else
          let r := allocIno fs
          if r.1 < 0 then some r
          else makeDirectory alloc heap r.2 path (inoOf r.1) parentNo.toNat

end Levos.Fs
