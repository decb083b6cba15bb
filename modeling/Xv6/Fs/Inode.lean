import Mathlib
import Xv6.Fs.Format
import Xv6.Lib.LittleEndian
import Xv6.Lib.Scan

/-!
# The kernel's inode layer (`kernel/fs.c`)

The block allocator, the inode table and the inode contents of the kernel's file system, over
the disk as the kernel sees it through the buffer cache and the current transaction: the
inode blocks read as inodes, the bitmap block read as one bit per block, and the bytes of
every other block. The superblock `sb` the kernel read at boot is a parameter.

A call that reaches a `panic` returns `none`. Every `log_write` appends its block to
`logged`, the blocks of the current transaction. The file system's state is `Fs.State`.

* `balloc`, `bfree`, `bzero`: blocks;
* `iget`, `idup`, `ialloc`, `ilock`, `iupdate`, `itrunc`, `iput`: inodes and the inode table;
* `bmap`, `readi`, `writei`: inode contents, `bmap` allocating through `allocAddr` and
  `allocEntry`.
-/

namespace Xv6.Fs

/-- The disk as the kernel reads it through the buffer cache and the current transaction. -/
structure Disk where
  dinode : ℕ → Dinode
  bitmap : ℕ → Bool
  data : ℕ → ℕ → UInt8

/-- Entry `j` of block `b` read as an indirect block: `((uint*)bp->data)[j]`. -/
def Disk.entry (d : Disk) (b j : ℕ) : ℕ := LittleEndian.get 4 (d.data b) (4 * j)

/-- Every block read as an indirect block. -/
def Disk.ind (d : Disk) : Indirect := fun b j => d.entry b j.val

/-- `struct inode`: the in-memory copy of an inode; `din` holds `type`, `major`, `minor`,
`nlink`, `size` and `addrs`. -/
structure Inode where
  dev : ℕ
  inum : ℕ
  ref : ℕ
  valid : Bool
  din : Dinode

/-- The disk, the inode table `itable.inode`, and the blocks passed to `log_write` in the
current transaction. -/
structure State where
  disk : Disk
  inode : Fin NINODE → Inode
  logged : List ℕ

namespace State

variable (s : State)

/-- `log_write(bp)` for block `b`. -/
def logWrite (b : ℕ) : State := { s with logged := s.logged ++ [b] }

/-- Set the bitmap bit of block `b`. -/
def setBit (b : ℕ) (v : Bool) : State :=
  { s with disk := { s.disk with bitmap := Function.update s.disk.bitmap b v } }

/-- Write the bytes of block `b`. -/
def setData (b : ℕ) (c : ℕ → UInt8) : State :=
  { s with disk := { s.disk with data := Function.update s.disk.data b c } }

/-- Write inode `inum` to its inode block. -/
def setDinode (inum : ℕ) (din : Dinode) : State :=
  { s with disk := { s.disk with dinode := Function.update s.disk.dinode inum din } }

/-- Write entry `i` of the inode table. -/
def setInode (i : Fin NINODE) (ip : Inode) : State :=
  { s with inode := Function.update s.inode i ip }

section Fields

variable (b : ℕ) (v : Bool) (c : ℕ → UInt8) (inum : ℕ) (din : Dinode) (i : Fin NINODE) (ip : Inode)

@[simp] theorem logWrite_disk : (s.logWrite b).disk = s.disk := rfl
@[simp] theorem logWrite_inode : (s.logWrite b).inode = s.inode := rfl
@[simp] theorem logWrite_logged : (s.logWrite b).logged = s.logged ++ [b] := rfl

@[simp] theorem setBit_inode : (s.setBit b v).inode = s.inode := rfl
@[simp] theorem setBit_logged : (s.setBit b v).logged = s.logged := rfl
@[simp] theorem setBit_disk_dinode : (s.setBit b v).disk.dinode = s.disk.dinode := rfl
@[simp] theorem setBit_disk_data : (s.setBit b v).disk.data = s.disk.data := rfl
@[simp] theorem setBit_disk_bitmap :
    (s.setBit b v).disk.bitmap = Function.update s.disk.bitmap b v := rfl

@[simp] theorem setData_inode : (s.setData b c).inode = s.inode := rfl
@[simp] theorem setData_logged : (s.setData b c).logged = s.logged := rfl
@[simp] theorem setData_disk_dinode : (s.setData b c).disk.dinode = s.disk.dinode := rfl
@[simp] theorem setData_disk_bitmap : (s.setData b c).disk.bitmap = s.disk.bitmap := rfl
@[simp] theorem setData_disk_data : (s.setData b c).disk.data = Function.update s.disk.data b c :=
  rfl

@[simp] theorem setDinode_inode : (s.setDinode inum din).inode = s.inode := rfl
@[simp] theorem setDinode_logged : (s.setDinode inum din).logged = s.logged := rfl
@[simp] theorem setDinode_disk_dinode :
    (s.setDinode inum din).disk.dinode = Function.update s.disk.dinode inum din := rfl
@[simp] theorem setDinode_disk_data : (s.setDinode inum din).disk.data = s.disk.data := rfl
@[simp] theorem setDinode_disk_bitmap : (s.setDinode inum din).disk.bitmap = s.disk.bitmap := rfl

@[simp] theorem setInode_disk : (s.setInode i ip).disk = s.disk := rfl
@[simp] theorem setInode_logged : (s.setInode i ip).logged = s.logged := rfl
@[simp] theorem setInode_inode : (s.setInode i ip).inode = Function.update s.inode i ip := rfl

end Fields

/-- Change the in-memory copy of the inode in entry `i`. -/
def setDin (i : Fin NINODE) (din : Dinode) : State := s.setInode i { s.inode i with din := din }

/-- `ip->addrs[k] = a` for entry `i`. -/
def setAddr (i : Fin NINODE) (k : Fin (NDIRECT + 1)) (a : ℕ) : State :=
  s.setDin i { (s.inode i).din with addrs := Function.update (s.inode i).din.addrs k a }

/-- `a[j] = v` in block `b` read as an indirect block. -/
def setEntry (b j v : ℕ) : State := s.setData b (LittleEndian.set 4 (s.disk.data b) (4 * j) v)

@[simp] theorem setDin_disk (i : Fin NINODE) (d : Dinode) : (s.setDin i d).disk = s.disk := rfl
@[simp] theorem setDin_logged (i : Fin NINODE) (d : Dinode) : (s.setDin i d).logged = s.logged := rfl
@[simp] theorem setDin_inode (i : Fin NINODE) (d : Dinode) :
    (s.setDin i d).inode = Function.update s.inode i { s.inode i with din := d } := rfl

@[simp] theorem setAddr_disk (i : Fin NINODE) (k : Fin (NDIRECT + 1)) (a : ℕ) :
    (s.setAddr i k a).disk = s.disk := rfl
@[simp] theorem setAddr_logged (i : Fin NINODE) (k : Fin (NDIRECT + 1)) (a : ℕ) :
    (s.setAddr i k a).logged = s.logged := rfl
@[simp] theorem setAddr_inode (i : Fin NINODE) (k : Fin (NDIRECT + 1)) (a : ℕ) :
    (s.setAddr i k a).inode = Function.update s.inode i
      { s.inode i with din := { (s.inode i).din with
        addrs := Function.update (s.inode i).din.addrs k a } } := rfl

@[simp] theorem setEntry_inode (b j v : ℕ) : (s.setEntry b j v).inode = s.inode := rfl
@[simp] theorem setEntry_logged (b j v : ℕ) : (s.setEntry b j v).logged = s.logged := rfl
@[simp] theorem setEntry_disk_dinode (b j v : ℕ) : (s.setEntry b j v).disk.dinode = s.disk.dinode :=
  rfl
@[simp] theorem setEntry_disk_bitmap (b j v : ℕ) : (s.setEntry b j v).disk.bitmap = s.disk.bitmap :=
  rfl

end State

/-- `bzero(dev, bno)`. -/
def bzero (s : State) (b : ℕ) : State := (s.setData b fun _ => 0).logWrite b

@[simp] theorem bzero_inode (s : State) (b : ℕ) : (bzero s b).inode = s.inode := rfl
@[simp] theorem bzero_logged (s : State) (b : ℕ) : (bzero s b).logged = s.logged ++ [b] := rfl
@[simp] theorem bzero_disk_dinode (s : State) (b : ℕ) : (bzero s b).disk.dinode = s.disk.dinode := rfl
@[simp] theorem bzero_disk_bitmap (s : State) (b : ℕ) : (bzero s b).disk.bitmap = s.disk.bitmap := rfl
@[simp] theorem bzero_disk_data (s : State) (b : ℕ) :
    (bzero s b).disk.data = Function.update s.disk.data b fun _ => 0 := rfl

/-! ## Blocks read as indirect blocks -/

namespace State

variable (s : State)

@[simp] theorem setBit_disk_ind (b : ℕ) (v : Bool) : (s.setBit b v).disk.ind = s.disk.ind := rfl

@[simp] theorem setDinode_disk_ind (inum : ℕ) (din : Dinode) :
    (s.setDinode inum din).disk.ind = s.disk.ind := rfl

theorem setData_disk_ind (b : ℕ) (c : ℕ → UInt8) :
    (s.setData b c).disk.ind =
      Function.update s.disk.ind b fun j => LittleEndian.get 4 c (4 * j.val) := by
  funext b' j
  by_cases h : b' = b
  · subst h
    simp [Disk.ind, Disk.entry]
  · simp [Disk.ind, Disk.entry, h]

/-- Storing a block number in entry `j` of block `b` changes that entry only. -/
theorem setEntry_disk_ind (b : ℕ) (j : Fin NINDIRECT) {v : ℕ} (hv : v < 2 ^ 32) :
    (s.setEntry b j v).disk.ind =
      Function.update s.disk.ind b (Function.update (s.disk.ind b) j v) := by
  rw [setEntry, setData_disk_ind]
  congr 1
  funext j'
  by_cases h : j' = j
  · subst h
    rw [Function.update_self]
    exact LittleEndian.get_set_self (by simpa using hv)
  · -- the four bytes of entry `j'` lie wholly before or wholly after those of entry `j`
    have hne : j'.val ≠ j.val := fun e => h (Fin.ext e)
    rw [Function.update_of_ne h]
    rcases Nat.lt_or_gt_of_ne hne with hlt | hgt
    · exact LittleEndian.get_set_of_le (by omega)
    · exact LittleEndian.get_set_of_ge (by omega)

end State

theorem bzero_disk_ind (s : State) (b : ℕ) :
    (bzero s b).disk.ind = Function.update s.disk.ind b fun _ => 0 := by
  rw [bzero, State.logWrite_disk, State.setData_disk_ind]
  simp only [LittleEndian.get_zero]

section Layer

variable (sb : Superblock)

/-! ## Blocks -/

/-- `balloc(dev)`: scan the bitmap from block `0` for a free block below `sb.size`, mark it
and zero it; `none` for `panic("balloc: out of blocks")`. -/
def balloc (s : State) : Option (ℕ × State) :=
  match (List.range sb.size).find? (fun b => !s.disk.bitmap b) with
  | some b => some (b, bzero ((s.setBit b true).logWrite (BBLOCK b sb)) b)
  | none => none

/-- `bfree(dev, b)`; `none` for `panic("freeing free block")`. -/
def bfree (s : State) (b : ℕ) : Option State :=
  if s.disk.bitmap b then some ((s.setBit b false).logWrite (BBLOCK b sb)) else none

/-! ## Inodes -/

/-- `iget(dev, inum)`: the entry already holding the inode, with one more reference, or else
the first free entry, recycled; `none` for `panic("iget: no inodes")`. -/
def iget (s : State) (dev inum : ℕ) : Option (Fin NINODE × State) :=
  match (List.finRange NINODE).find? (fun i =>
      decide (0 < (s.inode i).ref) && (s.inode i).dev == dev && (s.inode i).inum == inum) with
  | some i => some (i, s.setInode i { s.inode i with ref := (s.inode i).ref + 1 })
  | none =>
    match (List.finRange NINODE).find? (fun i => (s.inode i).ref == 0) with
    | some i => some (i, s.setInode i { s.inode i with dev := dev, inum := inum, ref := 1, valid := false })
    | none => none

/-- `idup(ip)`: one more reference to entry `i`. -/
def idup (s : State) (i : Fin NINODE) : State :=
  s.setInode i { s.inode i with ref := (s.inode i).ref + 1 }

/-- `ialloc(dev, type)`: the first free inode on disk from `1` on, zeroed and given its type,
then `iget`; `none` for `panic("ialloc: no inodes")`. -/
def ialloc (s : State) (dev : ℕ) (type : FileType) : Option (Fin NINODE × State) :=
  match (List.range' 1 (sb.ninodes - 1)).find? (fun inum => (s.disk.dinode inum).type.isNone) with
  | some inum =>
    iget ((s.setDinode inum { Dinode.zero with type := some type }).logWrite (IBLOCK inum sb)) dev inum
  | none => none

/-- `iupdate(ip)`: copy entry `i` to its inode on disk. -/
def iupdate (s : State) (i : Fin NINODE) : State :=
  (s.setDinode (s.inode i).inum (s.inode i).din).logWrite (IBLOCK (s.inode i).inum sb)

/-- `ilock(ip)`: read the inode from disk unless the entry is valid; `none` for
`panic("ilock")` and `panic("ilock: no type")`. -/
def ilock (s : State) (i : Fin NINODE) : Option State :=
  if (s.inode i).ref < 1 then none
  else if (s.inode i).valid then some s
  else if (s.disk.dinode (s.inode i).inum).type = none then none
  else some (s.setInode i { s.inode i with valid := true, din := s.disk.dinode (s.inode i).inum })

/-- One pass of `itrunc`'s loop over the direct blocks: free `addrs[k]` and clear it. -/
def itruncAddr (i : Fin NINODE) (s : State) (k : Fin NDIRECT) : Option State :=
  let a := (s.inode i).din.addrs k.castSucc
  if a ≠ 0 then (bfree sb s a).map fun s => s.setAddr i k.castSucc 0 else some s

/-- `itrunc`'s loop over the direct blocks. -/
def itruncDirect (s : State) (i : Fin NINODE) : Option State :=
  (List.finRange NDIRECT).foldlM (itruncAddr sb i) s

/-- One pass of `itrunc`'s loop over the indirect block, whose bytes were read as `a`: free
the block entry `j` lists. -/
def itruncEntry (a : ℕ → UInt8) (s : State) (j : ℕ) : Option State :=
  let e := LittleEndian.get 4 a (4 * j)
  if e ≠ 0 then bfree sb s e else some s

/-- `itrunc`'s indirect part: free every block the indirect block lists, then the indirect
block itself. The entries are read once, before the frees. -/
def itruncIndirect (s : State) (i : Fin NINODE) : Option State :=
  let ind := (s.inode i).din.addrs (Fin.last NDIRECT)
  if ind ≠ 0 then do
    let s ← (List.range NINDIRECT).foldlM (itruncEntry sb (s.disk.data ind)) s
    let s ← bfree sb s ind
    pure (s.setAddr i (Fin.last NDIRECT) 0)
  else some s

/-- `itrunc(ip)`: free the inode's blocks, set its size to `0` and write it back. -/
def itrunc (s : State) (i : Fin NINODE) : Option State := do
  let s ← itruncDirect sb s i
  let s ← itruncIndirect sb s i
  pure (iupdate sb (s.setDin i { (s.inode i).din with size := 0 }) i)

/-- `iput(ip)`: drop a reference; the last reference to an inode without links frees it. -/
def iput (s : State) (i : Fin NINODE) : Option State := do
  let s ← if (s.inode i).ref = 1 ∧ (s.inode i).valid = true ∧ (s.inode i).din.nlink = 0 then do
      let s ← itrunc sb s i
      let s := iupdate sb (s.setDin i { (s.inode i).din with type := none }) i
      pure (s.setInode i { s.inode i with valid := false })
    else some s
  pure (s.setInode i { s.inode i with ref := (s.inode i).ref - 1 })

/-! ## Inode contents -/

/-- `if((addr = ip->addrs[k]) == 0) ip->addrs[k] = addr = balloc(ip->dev);`. -/
def allocAddr (s : State) (i : Fin NINODE) (k : Fin (NDIRECT + 1)) : Option (ℕ × State) :=
  let addr := (s.inode i).din.addrs k
  if addr = 0 then (balloc sb s).map fun (addr, s) => (addr, s.setAddr i k addr)
  else some (addr, s)

/-- `if((addr = a[j]) == 0){ a[j] = addr = balloc(ip->dev); log_write(bp); }` on the indirect
block `ind`. -/
def allocEntry (s : State) (ind j : ℕ) : Option (ℕ × State) :=
  let addr := s.disk.entry ind j
  if addr = 0 then (balloc sb s).map fun (addr, s) => (addr, (s.setEntry ind j addr).logWrite ind)
  else some (addr, s)

/-- `bmap(ip, bn)`: the block holding file block `bn` of entry `i`, allocated if necessary;
`none` for `panic("bmap: out of range")`. -/
def bmap (s : State) (i : Fin NINODE) (bn : ℕ) : Option (ℕ × State) :=
  if h : bn < NDIRECT then allocAddr sb s i ⟨bn, by omega⟩
  else if bn - NDIRECT < NINDIRECT then do
    let (ind, s) ← allocAddr sb s i (Fin.last NDIRECT)
    allocEntry sb s ind (bn - NDIRECT)
  else none

theorem min_sub_mod_pos {n tot : ℕ} (off : ℕ) (h : tot < n) : 0 < min (n - tot) (BSIZE - off % BSIZE) := by
  have : off % BSIZE < BSIZE := Nat.mod_lt _ (by decide)
  omega

/-- `readi`'s loop, `tot` of `n` bytes copied and the next at offset `off`: each pass reads the
block of `off` through `bmap` and copies out up to the block's end; `-1` when
`either_copyout` fails, `dst` telling which destination bytes can be written. The bytes
copied so far are `out`. -/
def readLoop (i : Fin NINODE) (dst : ℕ → Bool) (n : ℕ) (s : State) (tot off : ℕ)
    (out : List UInt8) : Option (ℤ × List UInt8 × State) :=
  if h : tot < n then
    match bmap sb s i (off / BSIZE) with
    | none => none
    | some (addr, s) =>
      let m := min (n - tot) (BSIZE - off % BSIZE)
      if (List.range m).all fun k => dst (tot + k) then
        readLoop i dst n s (tot + m) (off + m)
          (out ++ (List.range m).map fun k => s.disk.data addr (off % BSIZE + k))
      else some (-1, out, s)
  else some (tot, out, s)
termination_by n - tot
decreasing_by
  have := min_sub_mod_pos off h
  omega

/-- `readi(ip, user_dst, dst, off, n)`. `off` and `n` are `uint`s: `off + n` wraps at `2^32`. -/
def readi (s : State) (i : Fin NINODE) (dst : ℕ → Bool) (off n : ℕ) :
    Option (ℤ × List UInt8 × State) :=
  let size := (s.inode i).din.size
  if off > size ∨ (off + n) % 2 ^ 32 < off then some (0, [], s)
  else readLoop sb i dst (if (off + n) % 2 ^ 32 > size then size - off else n) s 0 off []

/-- `either_copyin` of `m` bytes from byte `tot` of the source: how many are copied before
the first one that cannot be read (`none`). -/
def copied (src : ℕ → Option UInt8) (tot m : ℕ) : ℕ :=
  ((List.range m).find? fun k => (src (tot + k)).isNone).getD m

/-- `writei`'s loop, `tot` of `n` bytes written and the next at offset `off`: each pass maps
the block of `off` through `bmap` and copies in up to the block's end. A failed copy leaves
the bytes copied before the failure in the buffer, which is not logged, and ends the loop.
Returns the final `tot` and `off`. -/
def writeLoop (i : Fin NINODE) (src : ℕ → Option UInt8) (n : ℕ) (s : State) (tot off : ℕ) :
    Option (ℕ × ℕ × State) :=
  if h : tot < n then
    match bmap sb s i (off / BSIZE) with
    | none => none
    | some (addr, s) =>
      let m := min (n - tot) (BSIZE - off % BSIZE)
      let c := copied src tot m
      let s := s.setData addr fun k =>
        if off % BSIZE ≤ k ∧ k < off % BSIZE + c then (src (tot + (k - off % BSIZE))).getD 0
        else s.disk.data addr k
      if c = m then writeLoop i src n (s.logWrite addr) (tot + m) (off + m)
      else some (tot, off, s)
  else some (tot, off, s)
termination_by n - tot
decreasing_by
  have := min_sub_mod_pos off h
  omega

/-- `writei(ip, user_src, src, off, n)`: after the loop the size grows to the last offset
written, and the inode is written back even if it did not. -/
def writei (s : State) (i : Fin NINODE) (src : ℕ → Option UInt8) (off n : ℕ) :
    Option (ℤ × State) :=
  let size := (s.inode i).din.size
  if off > size ∨ (off + n) % 2 ^ 32 < off then some (-1, s)
  else if (off + n) % 2 ^ 32 > MAXFILE * BSIZE then some (-1, s)
  else (writeLoop sb i src n s 0 off).map fun (tot, off, s) =>
    let s := if off > (s.inode i).din.size then s.setDin i { (s.inode i).din with size := off } else s
    (tot, iupdate sb s i)

/-! ## What each call does -/

variable {sb} {s s' : State} {i : Fin NINODE}

theorem balloc_eq_some_iff {b : ℕ} :
    balloc sb s = some (b, s') ↔
      (b < sb.size ∧ s.disk.bitmap b = false ∧ ∀ j, j < b → s.disk.bitmap j = true) ∧
        s' = bzero ((s.setBit b true).logWrite (BBLOCK b sb)) b := by
  unfold balloc
  split
  · next b' hfind =>
    rw [Scan.find?_range_eq_some_iff] at hfind
    obtain ⟨hlt, hfree, hbefore⟩ := hfind
    simp only [Bool.not_eq_eq_eq_not, Bool.not_true, Bool.not_false] at hfree hbefore
    constructor
    · rintro ⟨⟩
      exact ⟨⟨hlt, hfree, hbefore⟩, rfl⟩
    · rintro ⟨⟨hb, hbfree, hbbefore⟩, rfl⟩
      -- the scan returns the first free block, so `b' = b`
      have : b' = b := by
        rcases Nat.lt_trichotomy b' b with h | h | h
        · exact absurd (hbbefore b' h) (by simp [hfree])
        · exact h
        · exact absurd (hbefore b h) (by simp [hbfree])
      subst this
      rfl
  · next hnone =>
    simp only [List.find?_eq_none, List.mem_range, Bool.not_eq_true', Bool.not_eq_false] at hnone
    simp only [reduceCtorEq, false_iff]
    rintro ⟨⟨hb, hbfree, -⟩, -⟩
    simp [hnone b hb] at hbfree

theorem bfree_of_used {b : ℕ} (h : s.disk.bitmap b = true) :
    bfree sb s b = some ((s.setBit b false).logWrite (BBLOCK b sb)) := by
  simp [bfree, h]

/-- `iget` either finds the entry that holds the inode and takes one more reference, or, no
entry holding it, recycles a free one. -/
theorem iget_cases {dev inum : ℕ} {k : Fin NINODE} (h : iget s dev inum = some (k, s')) :
    (0 < (s.inode k).ref ∧ (s.inode k).dev = dev ∧ (s.inode k).inum = inum ∧
        s' = s.setInode k { s.inode k with ref := (s.inode k).ref + 1 }) ∨
      ((∀ j, 0 < (s.inode j).ref → (s.inode j).dev = dev → (s.inode j).inum ≠ inum) ∧
        (s.inode k).ref = 0 ∧
        s' = s.setInode k { s.inode k with dev := dev, inum := inum, ref := 1, valid := false }) := by
  unfold iget at h
  split at h
  · next k' hfind =>
    obtain ⟨hk, -⟩ := Scan.find?_finRange_eq_some_iff.mp hfind
    cases h
    simp only [Bool.and_eq_true, decide_eq_true_eq, beq_iff_eq] at hk
    exact .inl ⟨hk.1.1, hk.1.2, hk.2, rfl⟩
  · next hnone =>
    split at h
    · next k' hfree =>
      obtain ⟨hk, -⟩ := Scan.find?_finRange_eq_some_iff.mp hfree
      cases h
      refine .inr ⟨fun j hj hdev hinum => ?_, by simpa using hk, rfl⟩
      have := List.find?_eq_none.mp hnone j (List.mem_finRange j)
      simp [hj, hdev, hinum] at this
    · cases h

/-- `ialloc` writes a zeroed inode of the given type over the first free inode on disk and
hands it to `iget`. -/
theorem ialloc_cases {dev : ℕ} {type : FileType} {k : Fin NINODE}
    (h : ialloc sb s dev type = some (k, s')) :
    ∃ inum, (s.disk.dinode inum).type = none ∧
      iget ((s.setDinode inum { Dinode.zero with type := some type }).logWrite (IBLOCK inum sb))
        dev inum = some (k, s') := by
  unfold ialloc at h
  split at h
  · next inum hfind =>
    refine ⟨inum, ?_, h⟩
    have := (List.find?_eq_some_iff_append.mp hfind).1
    simpa using this
  · cases h

theorem ilock_cases (h : ilock s i = some s') :
    0 < (s.inode i).ref ∧ (((s.inode i).valid = true ∧ s' = s) ∨
      ((s.disk.dinode (s.inode i).inum).type ≠ none ∧
        s' = s.setInode i { s.inode i with valid := true, din := s.disk.dinode (s.inode i).inum })) := by
  unfold ilock at h
  split at h
  · cases h
  · next hr =>
    refine ⟨by omega, ?_⟩
    split at h
    · next hv =>
      cases h
      exact .inl ⟨hv, rfl⟩
    · split at h
      · cases h
      · next ht =>
        cases h
        exact .inr ⟨ht, rfl⟩

/-- `ilock` on a referenced entry that is already valid changes nothing. -/
theorem ilock_of_valid (hr : 0 < (s.inode i).ref) (hv : (s.inode i).valid = true) :
    ilock s i = some s := by
  unfold ilock
  rw [if_neg (by omega), if_pos hv]

theorem allocAddr_of_ne_zero {k : Fin (NDIRECT + 1)} (h : (s.inode i).din.addrs k ≠ 0) :
    allocAddr sb s i k = some ((s.inode i).din.addrs k, s) := by
  simp [allocAddr, h]

theorem allocAddr_of_eq_zero {k : Fin (NDIRECT + 1)} (h : (s.inode i).din.addrs k = 0) :
    allocAddr sb s i k = (balloc sb s).map fun p => (p.1, p.2.setAddr i k p.1) := by
  simp [allocAddr, h]

theorem allocEntry_of_ne_zero {ind j : ℕ} (h : s.disk.entry ind j ≠ 0) :
    allocEntry sb s ind j = some (s.disk.entry ind j, s) := by
  simp [allocEntry, h]

theorem allocEntry_of_eq_zero {ind j : ℕ} (h : s.disk.entry ind j = 0) :
    allocEntry sb s ind j =
      (balloc sb s).map fun p => (p.1, (p.2.setEntry ind j p.1).logWrite ind) := by
  simp [allocEntry, h]

theorem bmap_of_lt {bn : ℕ} (h : bn < NDIRECT) : bmap sb s i bn = allocAddr sb s i ⟨bn, by omega⟩ := by
  simp [bmap, h]

/-- A file block past the direct blocks goes through the indirect block. -/
theorem bmap_of_ge {bn : ℕ} (h₁ : ¬ bn < NDIRECT) (h₂ : bn - NDIRECT < NINDIRECT) :
    bmap sb s i bn = (allocAddr sb s i (Fin.last NDIRECT)).bind
      fun p => allocEntry sb p.2 p.1 (bn - NDIRECT) := by
  simp only [bmap, dif_neg h₁, if_pos h₂]
  rfl

theorem bmap_of_out {bn : ℕ} (h₁ : ¬ bn < NDIRECT) (h₂ : ¬ bn - NDIRECT < NINDIRECT) :
    bmap sb s i bn = none := by
  simp [bmap, h₁, h₂]

theorem writei_of_bad {src : ℕ → Option UInt8} {off n : ℕ}
    (h : off > (s.inode i).din.size ∨ (off + n) % 2 ^ 32 < off) :
    writei sb s i src off n = some (-1, s) := by
  simp only [writei, if_pos h]

theorem writei_of_big {src : ℕ → Option UInt8} {off n : ℕ}
    (h₁ : ¬ (off > (s.inode i).din.size ∨ (off + n) % 2 ^ 32 < off))
    (h₂ : (off + n) % 2 ^ 32 > MAXFILE * BSIZE) :
    writei sb s i src off n = some (-1, s) := by
  simp only [writei, if_neg h₁, if_pos h₂]

/-- A write within bounds: the loop, then the size, then `iupdate`. -/
theorem writei_of_ok {src : ℕ → Option UInt8} {off n : ℕ}
    (h₁ : ¬ (off > (s.inode i).din.size ∨ (off + n) % 2 ^ 32 < off))
    (h₂ : ¬ (off + n) % 2 ^ 32 > MAXFILE * BSIZE) :
    writei sb s i src off n = (writeLoop sb i src n s 0 off).map fun r =>
      ((r.1 : ℤ), iupdate sb (if r.2.1 > (r.2.2.inode i).din.size then
        r.2.2.setDin i { (r.2.2.inode i).din with size := r.2.1 } else r.2.2) i) := by
  simp only [writei, if_neg h₁, if_neg h₂]

/-- What `writei` can do: refuse and change nothing, or run its loop, set the size to the last
offset written if that is past it, and write the entry back. -/
theorem writei_cases {src : ℕ → Option UInt8} {off n : ℕ} {r : ℤ}
    (h : writei sb s i src off n = some (r, s')) :
    s' = s ∨ ∃ tot off' s₁, writeLoop sb i src n s 0 off = some (tot, off', s₁) ∧
      s' = iupdate sb (if off' > (s₁.inode i).din.size then
        s₁.setDin i { (s₁.inode i).din with size := off' } else s₁) i := by
  by_cases h₁ : off > (s.inode i).din.size ∨ (off + n) % 2 ^ 32 < off
  · rw [writei_of_bad h₁] at h
    cases h
    exact .inl rfl
  by_cases h₂ : (off + n) % 2 ^ 32 > MAXFILE * BSIZE
  · rw [writei_of_big h₁ h₂] at h
    cases h
    exact .inl rfl
  rw [writei_of_ok h₁ h₂] at h
  obtain ⟨⟨tot, off', s₁⟩, hloop, he⟩ := Option.map_eq_some_iff.mp h
  simp only [Prod.mk.injEq] at he
  exact .inr ⟨tot, off', s₁, hloop, he.2.symm⟩

theorem itruncIndirect_of_zero (h : (s.inode i).din.addrs (Fin.last NDIRECT) = 0) :
    itruncIndirect sb s i = some s := by
  simp [itruncIndirect, h]

theorem itruncIndirect_of_ne_zero (h : (s.inode i).din.addrs (Fin.last NDIRECT) ≠ 0) :
    itruncIndirect sb s i =
      ((List.range NINDIRECT).foldlM (itruncEntry sb (s.disk.data ((s.inode i).din.addrs
        (Fin.last NDIRECT)))) s).bind fun t =>
          (bfree sb t ((s.inode i).din.addrs (Fin.last NDIRECT))).bind
            fun t => some (t.setAddr i (Fin.last NDIRECT) 0) := by
  simp only [itruncIndirect, if_pos h]
  rfl

theorem itrunc_eq :
    itrunc sb s i = (itruncDirect sb s i).bind fun s => (itruncIndirect sb s i).bind
      fun s => some (iupdate sb (s.setDin i { (s.inode i).din with size := 0 }) i) := rfl

/-- The last reference to a valid inode without links: truncate, free the inode and write it
back, invalidate the entry. -/
theorem iput_of_free
    (h : (s.inode i).ref = 1 ∧ (s.inode i).valid = true ∧ (s.inode i).din.nlink = 0) :
    iput sb s i = (itrunc sb s i).map fun s =>
      let s := (iupdate sb (s.setDin i { (s.inode i).din with type := none }) i).setInode i
        { (iupdate sb (s.setDin i { (s.inode i).din with type := none }) i).inode i with valid := false }
      s.setInode i { s.inode i with ref := (s.inode i).ref - 1 } := by
  simp only [iput, if_pos h]
  cases itrunc sb s i <;> rfl

theorem iput_of_not_free
    (h : ¬ ((s.inode i).ref = 1 ∧ (s.inode i).valid = true ∧ (s.inode i).din.nlink = 0)) :
    iput sb s i = some (s.setInode i { s.inode i with ref := (s.inode i).ref - 1 }) := by
  simp only [iput, if_neg h]
  rfl

theorem readLoop_of_ge {dst : ℕ → Bool} {n tot off : ℕ} {out : List UInt8} (h : n ≤ tot) :
    readLoop sb i dst n s tot off out = some ((tot : ℤ), out, s) := by
  rw [readLoop, dif_neg (by omega)]

/-- One pass of `readi`'s loop, when `bmap` succeeds and the copy out does. -/
theorem readLoop_of_lt {dst : ℕ → Bool} {n tot off addr : ℕ} {out : List UInt8} (h : tot < n)
    (hmap : bmap sb s i (off / BSIZE) = some (addr, s'))
    (hdst : ∀ k, k < min (n - tot) (BSIZE - off % BSIZE) → dst (tot + k) = true) :
    readLoop sb i dst n s tot off out =
      readLoop sb i dst n s' (tot + min (n - tot) (BSIZE - off % BSIZE))
        (off + min (n - tot) (BSIZE - off % BSIZE))
        (out ++ (List.range (min (n - tot) (BSIZE - off % BSIZE))).map
          fun k => s'.disk.data addr (off % BSIZE + k)) := by
  rw [readLoop, dif_pos h, hmap]
  simp only
  rw [if_pos (by simpa using hdst)]

end Layer

end Xv6.Fs
