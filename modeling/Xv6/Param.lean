import Mathlib

/-!
# The kernel's parameters

The constants of `kernel/param.h` and of the on-disk format `kernel/fs.h` that the modelled
code reads. They are plain definitions: proofs unfold them where the numbers matter.
-/

namespace Xv6

/-- Maximum number of processes (`NPROC`). -/
def NPROC : ℕ := 64
/-- Open files per process (`NOFILE`). -/
def NOFILE : ℕ := 16
/-- Open files per system (`NFILE`). -/
def NFILE : ℕ := 100
/-- Maximum number of active i-nodes (`NINODE`). -/
def NINODE : ℕ := 50
/-- Maximum major device number (`NDEV`). -/
def NDEV : ℕ := 10
/-- Device number of the file system's root disk (`ROOTDEV`). -/
def ROOTDEV : ℕ := 1
/-- Maximum number of `exec` arguments (`MAXARG`). -/
def MAXARG : ℕ := 32
/-- Maximum number of blocks any file-system operation writes (`MAXOPBLOCKS`). -/
def MAXOPBLOCKS : ℕ := 10
/-- Maximum number of data blocks in the on-disk log (`LOGSIZE`). -/
def LOGSIZE : ℕ := MAXOPBLOCKS * 3
/-- Size of the disk block cache (`NBUF`). -/
def NBUF : ℕ := MAXOPBLOCKS * 3
/-- Size of the file system in blocks (`FSSIZE`). -/
def FSSIZE : ℕ := 1000

/-- Block size in bytes (`BSIZE`). -/
def BSIZE : ℕ := 1024
/-- Root i-number (`ROOTINO`). -/
def ROOTINO : ℕ := 1
/-- Direct block addresses of an inode (`NDIRECT`). -/
def NDIRECT : ℕ := 12
/-- Block addresses in an indirect block (`NINDIRECT`: `BSIZE / sizeof(uint)`). -/
def NINDIRECT : ℕ := BSIZE / 4
/-- Maximum file size in blocks (`MAXFILE`). -/
def MAXFILE : ℕ := NDIRECT + NINDIRECT
/-- Inodes per block (`IPB`: `BSIZE / sizeof(struct dinode)`, a dinode being 64 bytes). -/
def IPB : ℕ := BSIZE / 64
/-- Bitmap bits per block (`BPB`). -/
def BPB : ℕ := BSIZE * 8
/-- Length of a directory entry's name (`DIRSIZ`). -/
def DIRSIZ : ℕ := 14
/-- Size of a directory entry (`sizeof(struct dirent)`: a `ushort` and `DIRSIZ` bytes). -/
def DIRENT_SIZE : ℕ := 2 + DIRSIZ

/-! The values of the format's constants, for `omega`. -/

theorem BSIZE_eq : BSIZE = 1024 := rfl
theorem NDIRECT_eq : NDIRECT = 12 := rfl
theorem NINDIRECT_eq : NINDIRECT = 256 := by decide
theorem MAXFILE_eq : MAXFILE = 268 := by decide
theorem NPROC_pos : 0 < NPROC := by decide
theorem NINODE_pos : 0 < NINODE := by decide

end Xv6
