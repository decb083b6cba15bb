import Xv6.Fs.Format
import Xv6.Lib.Owner
import Xv6.Lib.Run

/-!
# `mkfs`: building the file system image (`mkfs/mkfs.c`)

`mkfs fs.img files…` zeroes the image, writes the superblock, allocates the root directory
with its `.` and `..` entries, then for each input file allocates an inode, appends its
directory entry to the root and appends the file's contents. Inodes come from `freeinode`
and blocks from `freeblock`, both bump counters; at the end the root's size is rounded up
and the bitmap marks blocks `0 … freeblock - 1` used.

The model keeps what the kernel later reads as structure: the inodes (`dinode`), the blocks
read as indirect blocks (`indirect`) and the bitmap. The bytes of data blocks and of
directory entries are not modelled; an input file is the list of sizes `read` returned.

* `sb_layout`: the superblock's regions, as `IBLOCK`, `BBLOCK` and the log find them;
* `Image.Inv`: every block an inode holds is a data block below `freeblock`, held by one slot
  only; an inode holds a block for file block `bn` exactly when `bn * BSIZE < size`;
* `iappend_inv`, `addFiles_inv`: `iappend`, and adding the files, keep it;
* `mkfs_formatted`: the image offers the kernel what `Image.Formatted` lists;
* `Image.Formatted.root_mapped_iff`: after the fix-up the root is `Dinode.Mapped` exactly when
  its `DIRENT_SIZE * (files + 2)` bytes of entries do not end on a block boundary.
-/

namespace Xv6.Mkfs

/-- Number of inodes (`NINODES`). -/
def NINODES : ℕ := 200
/-- Number of bitmap blocks. -/
def nbitmap : ℕ := FSSIZE / (BSIZE * 8) + 1
/-- Number of inode blocks. -/
def ninodeblocks : ℕ := NINODES / IPB + 1
/-- Number of log blocks. -/
def nlog : ℕ := LOGSIZE
/-- Number of meta blocks: boot, superblock, log, inodes, bitmap. -/
def nmeta : ℕ := 2 + nlog + ninodeblocks + nbitmap
/-- Number of data blocks. -/
def nblocks : ℕ := FSSIZE - nmeta

/-- The superblock `main` writes to block 1. -/
def sb : Superblock where
  size := FSSIZE
  nblocks := nblocks
  ninodes := NINODES
  nlog := nlog
  logstart := 2
  inodestart := 2 + nlog
  bmapstart := 2 + nlog + ninodeblocks

/-- The regions the superblock names follow each other: boot block and superblock, the log
(its header block and `LOGSIZE` blocks), one block per `IPB` inodes, the one bitmap block,
then the data blocks up to `size`. -/
theorem sb_layout :
    sb.logstart = 2 ∧ sb.nlog = LOGSIZE ∧ sb.logstart + sb.nlog = sb.inodestart ∧
      (∀ i < sb.ninodes, sb.inodestart ≤ IBLOCK i sb ∧ IBLOCK i sb < sb.bmapstart) ∧
      (∀ b < sb.size, BBLOCK b sb = sb.bmapstart) ∧
      sb.bmapstart + nbitmap = nmeta ∧ nmeta + sb.nblocks = sb.size := by
  refine ⟨rfl, rfl, rfl, fun i hi => ?_, fun b hb => ?_, rfl, ?_⟩
  · simp only [IBLOCK, sb, IPB, NINODES, BSIZE_eq, ninodeblocks] at hi ⊢
    omega
  · simp only [BBLOCK, sb, BPB, FSSIZE, BSIZE_eq] at hb ⊢
    omega
  · decide

/-- The image as `mkfs` writes it, with its two counters. -/
structure Image where
  freeinode : ℕ
  freeblock : ℕ
  dinode : ℕ → Dinode
  indirect : Indirect
  bitmap : ℕ → Bool

/-- The image after every sector is zeroed, with `freeinode = 1` and `freeblock = nmeta`. -/
def start : Image :=
  ⟨1, nmeta, fun _ => Dinode.zero, fun _ _ => 0, fun _ => false⟩

/-- `winode`: write inode `inum`. -/
def Image.winode (img : Image) (inum : ℕ) (din : Dinode) : Image :=
  { img with dinode := Function.update img.dinode inum din }

/-- `ialloc(type)`: the next inode number, with a zeroed inode of that type and one link. -/
def ialloc (type : FileType) (img : Image) : ℕ × Image :=
  let inum := img.freeinode
  (inum, { img with freeinode := inum + 1 }.winode inum
    { Dinode.zero with type := some type, nlink := 1, size := 0 })

/-- `if(a == 0) a = freeblock++;`: the address and the next `freeblock`. -/
def bump (a freeblock : ℕ) : ℕ × ℕ :=
  if a = 0 then (freeblock, freeblock + 1) else (a, freeblock)

/-- The allocating part of `iappend`'s loop body: give file block `fbn` a block, and for
`fbn ≥ NDIRECT` give the inode an indirect block first, both from `freeblock`. -/
def mapBlock (din : Dinode) (img : Image) (fbn : Fin MAXFILE) : Dinode × Image :=
  if h : fbn.val < NDIRECT then
    let k : Fin (NDIRECT + 1) := ⟨fbn, lt_NDIRECT_succ h⟩
    let (a, fb) := bump (din.addrs k) img.freeblock
    ({ din with addrs := Function.update din.addrs k a }, { img with freeblock := fb })
  else
    let (ib, fb) := bump (din.addrs (Fin.last NDIRECT)) img.freeblock
    let din := { din with addrs := Function.update din.addrs (Fin.last NDIRECT) ib }
    let j : Fin NINDIRECT := ⟨fbn - NDIRECT, sub_NDIRECT_lt h⟩
    let (a, fb) := bump (img.indirect ib j) fb
    (din, { img with
      freeblock := fb
      indirect := Function.update img.indirect ib (Function.update (img.indirect ib) j a) })

/-- `iappend`'s loop: `n` bytes left at offset `off`. Each pass copies at least one byte, so
the fuel `n` that `iappend` gives is enough; `none` for `assert(fbn < MAXFILE)`. -/
def appendLoop : ℕ → ℕ → ℕ → Dinode → Image → Option (Dinode × ℕ × Image)
  | _, 0, off, din, img => some (din, off, img)
  | 0, _ + 1, _, _, _ => none
  | fuel + 1, n + 1, off, din, img =>
    let fbn := off / BSIZE
    if h : fbn < MAXFILE then
      let (din, img) := mapBlock din img ⟨fbn, h⟩
      let n1 := min (n + 1) ((fbn + 1) * BSIZE - off)
      appendLoop fuel (n + 1 - n1) (off + n1) din img
    else none

/-- `iappend(inum, p, n)`: append `n` bytes to inode `inum`. -/
def iappend (inum n : ℕ) (img : Image) : Option Image := do
  let din := img.dinode inum
  let (din, off, img) ← appendLoop n n din.size din img
  pure (img.winode inum { din with size := off })

/-- `main`'s fix-up of the root directory's size: `off = ((off/BSIZE) + 1) * BSIZE`. -/
def fixRoot (img : Image) : Image :=
  let din := img.dinode ROOTINO
  img.winode ROOTINO { din with size := (din.size / BSIZE + 1) * BSIZE }

/-- `balloc(used)`: the bitmap with the bits of blocks `0 … used - 1` set; `none` for
`assert(used < BSIZE*8)`. -/
def balloc (used : ℕ) (img : Image) : Option Image :=
  if used < BSIZE * 8 then
    some { img with
      bitmap := (List.range used).foldl (fun bm i => Function.update bm i true) fun _ => false }
  else none

/-- One input file: its inode, its directory entry appended to the root, then each chunk
`read` returned appended to the file. -/
def addFile (img : Image) (chunks : List ℕ) : Option Image := do
  let (inum, img) := ialloc .file img
  let img ← iappend ROOTINO DIRENT_SIZE img
  chunks.foldlM (fun img cc => iappend inum cc img) img

/-- `main`: the image for the given input files. -/
def mkfs (files : List (List ℕ)) : Option Image := do
  let (rootino, img) := ialloc .dir start
  if rootino = ROOTINO then
    let img ← iappend rootino DIRENT_SIZE img
    let img ← iappend rootino DIRENT_SIZE img
    let img ← files.foldlM addFile img
    balloc img.freeblock (fixRoot img)
  else none

/-! ## The image invariant -/

/-- The block number inode `p.1` keeps in slot `p.2`. -/
def Image.owner (img : Image) (p : ℕ × Slot) : ℕ :=
  (img.dinode p.1).slot img.indirect p.2

/-- Every block an inode holds is a data block below `freeblock`, held by that slot only;
blocks from `freeblock` on are still zero when read as indirect blocks. -/
structure Image.Owned (img : Image) : Prop where
  meta_le : nmeta ≤ img.freeblock
  within : Ownership.Within img.owner nmeta img.freeblock
  exclusive : Ownership.Exclusive img.owner
  fresh : ∀ b, img.freeblock ≤ b → ∀ j, img.indirect b j = 0

/-- The invariant between two `iappend`s: besides `Owned`, each inode holds a block for file
block `bn` exactly when `bn * BSIZE < size`, and an indirect block exactly when its size
reaches past the direct blocks; every block handed out is held; the inodes not handed out
(inode `0`, and those from `freeinode` on) are zero, and the others have a type. -/
structure Image.Inv (img : Image) : Prop extends img.Owned where
  size_le : ∀ inum, (img.dinode inum).size ≤ MAXFILE * BSIZE
  mapped : ∀ inum (bn : Fin MAXFILE),
    img.owner (inum, dataSlot bn) ≠ 0 ↔ bn.val * BSIZE < (img.dinode inum).size
  pointer : ∀ inum,
    img.owner (inum, .addr (Fin.last NDIRECT)) ≠ 0 ↔ NDIRECT * BSIZE < (img.dinode inum).size
  held : ∀ b, nmeta ≤ b → b < img.freeblock → ∃ p, img.owner p = b
  unalloc : ∀ i, (i = 0 ∨ img.freeinode ≤ i) → img.dinode i = Dinode.zero
  typed : ∀ i, 0 < i → i < img.freeinode → (img.dinode i).type ≠ none

theorem nmeta_pos : 0 < nmeta := by decide

/-- A zeroed inode holds no block. -/
theorem zero_slot (ind : Indirect) (s : Slot) : Dinode.zero.slot ind s = 0 := by
  cases s <;> simp [Dinode.slot_ind, Dinode.zero]

theorem owner_winode (img : Image) (inum : ℕ) (d : Dinode) (i : ℕ) (s : Slot) :
    (img.winode inum d).owner (i, s) = if i = inum then d.slot img.indirect s else img.owner (i, s) := by
  by_cases h : i = inum
  · subst h
    simp [Image.owner, Image.winode]
  · simp [Image.owner, Image.winode, h]

/-- Giving a slot the next block keeps the image `Owned`. -/
theorem Image.Owned.of_update {img img' : Image} (hs : img.Owned) (p : ℕ × Slot)
    (hown : img'.owner = Function.update img.owner p img.freeblock)
    (hfb : img'.freeblock = img.freeblock + 1)
    (hfresh : ∀ b, img'.freeblock ≤ b → ∀ j, img'.indirect b j = 0) : img'.Owned := by
  have hpos : 0 < img.freeblock := Nat.lt_of_lt_of_le nmeta_pos hs.meta_le
  refine ⟨by rw [hfb]; exact Nat.le_succ_of_le hs.meta_le, ?_, ?_, hfresh⟩
  · rw [hown, hfb]
    exact hs.within.update_fresh hs.meta_le p
  · rw [hown]
    exact hs.exclusive.update_free (hs.within.ne_hi hpos) p

/-- Writing back an inode with the same addresses, or the same entries, keeps `Owned`. -/
theorem Image.Owned.of_eq {img img' : Image} (hs : img.Owned) (hown : img'.owner = img.owner)
    (hfb : img'.freeblock = img.freeblock)
    (hfresh : ∀ b, img'.freeblock ≤ b → ∀ j, img'.indirect b j = 0) : img'.Owned := by
  refine ⟨hfb ▸ hs.meta_le, ?_, ?_, hfresh⟩
  · rw [hown, hfb]
    exact hs.within
  · rw [hown]
    exact hs.exclusive

section Writes

variable {img : Image} {inum : ℕ} {d d' : Dinode}

/-- Writing `addrs[k]`, below the indirect pointer, of the inode being appended to. -/
theorem owner_setAddr {k : Fin (NDIRECT + 1)} {v : ℕ} (hk : k ≠ Fin.last NDIRECT)
    (h : d'.addrs = Function.update d.addrs k v) :
    (img.winode inum d').owner = Function.update (img.winode inum d).owner (inum, .addr k) v := by
  funext ⟨i, s⟩
  rw [owner_winode, Function.update_apply, owner_winode]
  by_cases hi : i = inum
  · subst hi
    simp [Dinode.slot_setAddr hk h]
  · simp [hi]

/-- Giving the inode being appended to a zeroed indirect block. -/
theorem owner_setLast {v : ℕ} (h0 : d.addrs (Fin.last NDIRECT) = 0) (hv : ∀ j, img.indirect v j = 0)
    (h : d'.addrs = Function.update d.addrs (Fin.last NDIRECT) v) :
    (img.winode inum d').owner =
      Function.update (img.winode inum d).owner (inum, .addr (Fin.last NDIRECT)) v := by
  funext ⟨i, s⟩
  rw [owner_winode, Function.update_apply, owner_winode]
  by_cases hi : i = inum
  · subst hi
    simp [Dinode.slot_setLast h0 hv h]
  · simp [hi]

/-- Writing entry `j` of the indirect block `b` of the inode being appended to: no other
inode holds that block. -/
theorem owner_setEntry {b : ℕ} (hx : Ownership.Exclusive (img.winode inum d).owner)
    (hb : d.addrs (Fin.last NDIRECT) = b) (hp : b ≠ 0) (j : Fin NINDIRECT) (v : ℕ) :
    ({ img with
      indirect := Function.update img.indirect b (Function.update (img.indirect b) j v) }.winode
        inum d).owner =
      Function.update (img.winode inum d).owner (inum, .ind j) v := by
  subst hb
  funext ⟨i, s⟩
  rw [owner_winode, Function.update_apply, owner_winode]
  by_cases hi : i = inum
  · subst hi
    simp [Dinode.slot_setEntry hp]
  · -- inode `i` has another indirect block, since `inum` alone holds this one
    have hne : (img.dinode i).addrs (Fin.last NDIRECT) ≠ d.addrs (Fin.last NDIRECT) := by
      intro he
      have h₁ : (img.winode inum d).owner (inum, .addr (Fin.last NDIRECT)) ≠ 0 := by
        simpa [owner_winode] using hp
      have h₂ := hx _ (i, .addr (Fin.last NDIRECT)) h₁ (by
        rw [owner_winode, owner_winode, if_pos rfl, if_neg hi]
        simp [Image.owner, he])
      exact hi (congrArg Prod.fst h₂).symm
    simp only [hi, if_false, Prod.mk.injEq, false_and]
    exact Dinode.slot_setOther hne _ s

/-- Writing back the inode with the addresses it had. -/
theorem owner_winode_congr (h : d'.addrs = d.addrs) :
    (img.winode inum d').owner = (img.winode inum d).owner := by
  funext ⟨i, s⟩
  rw [owner_winode, owner_winode, Dinode.slot_congr h]

/-- The size of an inode does not change its slots. -/
theorem owner_winode_size (n : ℕ) :
    (img.winode inum { d with size := n }).owner = (img.winode inum d).owner :=
  owner_winode_congr rfl

end Writes

/-! ### One pass of `iappend` -/

/-- What one pass of `iappend` does to the image, seen with the inode written back: it fills
the slot of file block `fbn`, and for `fbn ≥ NDIRECT` the indirect pointer, with fresh
blocks, and changes no other slot; a slot that held a block keeps it, and every block taken
from `freeblock` is held. -/
structure PassSpec (inum : ℕ) (fbn : Fin MAXFILE) (W W' : Image) : Prop where
  owned : W'.Owned
  freeblock_le : W.freeblock ≤ W'.freeblock
  filled : W'.owner (inum, dataSlot fbn) ≠ 0
  pointer : NDIRECT ≤ fbn.val → W'.owner (inum, .addr (Fin.last NDIRECT)) ≠ 0
  frame : ∀ p, p ≠ (inum, dataSlot fbn) →
    (fbn.val < NDIRECT ∨ p ≠ (inum, .addr (Fin.last NDIRECT))) → W'.owner p = W.owner p
  kept : ∀ p, W.owner p ≠ 0 → W'.owner p = W.owner p
  new : ∀ b, W.freeblock ≤ b → b < W'.freeblock → ∃ p, W'.owner p = b

theorem mapBlock_dinode (din : Dinode) (img : Image) (fbn : Fin MAXFILE) :
    (mapBlock din img fbn).2.dinode = img.dinode := by
  unfold mapBlock
  split <;> rfl

theorem mapBlock_freeinode (din : Dinode) (img : Image) (fbn : Fin MAXFILE) :
    (mapBlock din img fbn).2.freeinode = img.freeinode := by
  unfold mapBlock
  split <;> rfl

theorem mapBlock_type (din : Dinode) (img : Image) (fbn : Fin MAXFILE) :
    (mapBlock din img fbn).1.type = din.type := by
  unfold mapBlock
  split <;> rfl

namespace PassSpec

variable {inum : ℕ} {fbn : Fin MAXFILE} {W W' : Image}

/-- The slot of `fbn` already held a block: no slot changes. -/
theorem of_same (hW : W.Owned) (hown : W'.owner = W.owner) (hfb : W'.freeblock = W.freeblock)
    (hfresh : ∀ b, W'.freeblock ≤ b → ∀ j, W'.indirect b j = 0)
    (hfilled : W.owner (inum, dataSlot fbn) ≠ 0)
    (hptr : NDIRECT ≤ fbn.val → W.owner (inum, .addr (Fin.last NDIRECT)) ≠ 0) :
    PassSpec inum fbn W W' := by
  refine ⟨hW.of_eq hown hfb hfresh, hfb ▸ Nat.le_refl _, ?_, fun h => ?_, fun p _ _ => by rw [hown],
    fun p _ => by rw [hown], fun b h₁ h₂ => absurd h₂ (by omega)⟩
  · rw [hown]
    exact hfilled
  · rw [hown]
    exact hptr h

/-- The slot of `fbn` takes the next block. -/
theorem of_fill (hW : W.Owned)
    (hown : W'.owner = Function.update W.owner (inum, dataSlot fbn) W.freeblock)
    (hfb : W'.freeblock = W.freeblock + 1)
    (hfresh : ∀ b, W'.freeblock ≤ b → ∀ j, W'.indirect b j = 0)
    (hptr : NDIRECT ≤ fbn.val → W.owner (inum, .addr (Fin.last NDIRECT)) ≠ 0)
    (h0 : W.owner (inum, dataSlot fbn) = 0) :
    PassSpec inum fbn W W' := by
  have hpos : 0 < W.freeblock := Nat.lt_of_lt_of_le nmeta_pos hW.meta_le
  have hne : ((inum, .addr (Fin.last NDIRECT)) : ℕ × Slot) ≠ (inum, dataSlot fbn) := by
    simpa using (dataSlot_ne_last fbn).symm
  refine ⟨hW.of_update _ hown hfb hfresh, by omega, ?_, fun h => ?_, fun p hp _ => ?_,
    fun p hp => ?_, fun b h₁ h₂ => ⟨(inum, dataSlot fbn), ?_⟩⟩
  · rw [hown, Function.update_self]
    omega
  · rw [hown, Function.update_of_ne hne]
    exact hptr h
  · rw [hown, Function.update_of_ne hp]
  · -- the filled slot was empty
    have hp' : p ≠ (inum, dataSlot fbn) := fun e => hp (by rw [e, h0])
    rw [hown, Function.update_of_ne hp']
  · rw [hown, Function.update_self]
    omega

/-- The inode takes the next block as its indirect block, and the entry of `fbn` the block
after it. -/
theorem of_fill_pointer (hW : W.Owned) (hge : NDIRECT ≤ fbn.val)
    (hown : W'.owner = Function.update
      (Function.update W.owner (inum, .addr (Fin.last NDIRECT)) W.freeblock)
      (inum, dataSlot fbn) (W.freeblock + 1))
    (hfb : W'.freeblock = W.freeblock + 1 + 1)
    (hfresh : ∀ b, W'.freeblock ≤ b → ∀ j, W'.indirect b j = 0)
    (h0 : W.owner (inum, .addr (Fin.last NDIRECT)) = 0) (h0' : W.owner (inum, dataSlot fbn) = 0) :
    PassSpec inum fbn W W' := by
  have hpos : 0 < W.freeblock := Nat.lt_of_lt_of_le nmeta_pos hW.meta_le
  have hne : ((inum, .addr (Fin.last NDIRECT)) : ℕ × Slot) ≠ (inum, dataSlot fbn) := by
    simpa using (dataSlot_ne_last fbn).symm
  -- the two allocations, one after the other, on the table of slots alone
  have hw₁ := hW.within.update_fresh hW.meta_le (inum, .addr (Fin.last NDIRECT))
  have hx₁ := hW.exclusive.update_free (hW.within.ne_hi hpos) (inum, .addr (Fin.last NDIRECT))
  have hw₂ := hw₁.update_fresh (by have := hW.meta_le; omega) (inum, dataSlot fbn)
  have hx₂ := hx₁.update_free (hw₁.ne_hi (by omega)) (inum, dataSlot fbn)
  refine ⟨⟨by rw [hfb]; have := hW.meta_le; omega, by rw [hown, hfb]; exact hw₂,
    by rw [hown]; exact hx₂, hfresh⟩, by omega, ?_, fun _ => ?_, fun p hp hp' => ?_,
    fun p hp => ?_, fun b h₁ h₂ => ?_⟩
  · rw [hown, Function.update_self]
    omega
  · rw [hown, Function.update_of_ne hne, Function.update_self]
    omega
  · have hp'' : p ≠ (inum, .addr (Fin.last NDIRECT)) := by
      rcases hp' with h | h
      · omega
      · exact h
    rw [hown, Function.update_of_ne hp, Function.update_of_ne hp'']
  · -- both filled slots were empty
    have hp₁ : p ≠ (inum, dataSlot fbn) := fun e => hp (by rw [e, h0'])
    have hp₂ : p ≠ (inum, .addr (Fin.last NDIRECT)) := fun e => hp (by rw [e, h0])
    rw [hown, Function.update_of_ne hp₁, Function.update_of_ne hp₂]
  · -- the two blocks taken are the pointer's and the entry's
    rw [hfb] at h₂
    rcases Nat.lt_or_ge b (W.freeblock + 1) with hb | hb
    · exact ⟨(inum, .addr (Fin.last NDIRECT)), by
        rw [hown, Function.update_of_ne hne, Function.update_self]
        omega⟩
    · exact ⟨(inum, dataSlot fbn), by
        rw [hown, Function.update_self]
        omega⟩

end PassSpec

/-- Each pass of `iappend`'s loop meets `PassSpec`. -/
theorem mapBlock_spec {inum off : ℕ} {din : Dinode} {img : Image}
    (hW : (img.winode inum { din with size := off }).Owned) (fbn : Fin MAXFILE) (off' : ℕ) :
    PassSpec inum fbn (img.winode inum { din with size := off })
      ((mapBlock din img fbn).2.winode inum { (mapBlock din img fbn).1 with size := off' }) := by
  have hfresh : ∀ b, img.freeblock ≤ b → ∀ j, img.indirect b j = 0 := hW.fresh
  have hpos : 0 < img.freeblock := Nat.lt_of_lt_of_le nmeta_pos hW.meta_le
  unfold mapBlock
  split
  · next hlt =>
    have hk : (⟨fbn, by omega⟩ : Fin (NDIRECT + 1)) ≠ Fin.last NDIRECT := by
      intro h
      have := congrArg Fin.val h
      simp only [Fin.val_last] at this
      omega
    by_cases h0 : din.addrs ⟨fbn, by omega⟩ = 0
    · simp only [bump, h0, if_true]
      refine PassSpec.of_fill hW ?_ rfl (fun b hb j => hfresh b (Nat.le_of_succ_le hb) j)
        (fun h => absurd h (by omega)) ?_
      · rw [dataSlot_of_lt hlt]
        exact owner_setAddr hk rfl
      · rw [dataSlot_of_lt hlt, owner_winode, if_pos rfl]
        exact h0
    · simp only [bump, h0, if_false, Function.update_eq_self]
      refine PassSpec.of_same hW (owner_winode_congr rfl) rfl hfresh ?_
        (fun h => absurd h (by omega))
      rw [dataSlot_of_lt hlt, owner_winode, if_pos rfl]
      exact h0
  · next hge =>
    by_cases hp0 : din.addrs (Fin.last NDIRECT) = 0
    · -- the inode gets the next block as its indirect block, whose entries are still zero
      have hz : ∀ j, img.indirect img.freeblock j = 0 := hfresh _ (Nat.le_refl _)
      simp only [bump, hp0, if_true, hz]
      have h₁ : (img.winode inum { din with
            addrs := Function.update din.addrs (Fin.last NDIRECT) img.freeblock
            size := off' }).owner =
          Function.update (img.winode inum { din with size := off }).owner
            (inum, .addr (Fin.last NDIRECT)) img.freeblock :=
        owner_setLast hp0 hz rfl
      have hx : Ownership.Exclusive (img.winode inum { din with
          addrs := Function.update din.addrs (Fin.last NDIRECT) img.freeblock
          size := off' }).owner := by
        rw [h₁]
        exact hW.exclusive.update_free (hW.within.ne_hi hpos) _
      refine PassSpec.of_fill_pointer hW (by omega) ?_ rfl ?_ ?_ ?_
      · rw [dataSlot_of_ge hge]
        exact (owner_setEntry hx (by simp) (by omega) _ _).trans (by rw [h₁]; rfl)
      · intro b hb j
        have hb' : b ≠ img.freeblock := by
          have : img.freeblock + 1 + 1 ≤ b := hb
          omega
        show Function.update img.indirect img.freeblock _ b j = 0
        rw [Function.update_of_ne hb']
        exact hfresh b (by have : img.freeblock + 1 + 1 ≤ b := hb; omega) j
      · rw [owner_winode, if_pos rfl]
        exact hp0
      · rw [dataSlot_of_ge hge, owner_winode, if_pos rfl]
        simp [Dinode.slot_ind, hp0]
    · -- the inode has its indirect block, below `freeblock`
      have hlt : din.addrs (Fin.last NDIRECT) < img.freeblock := by
        have := (hW.within (inum, .addr (Fin.last NDIRECT))
          (by rw [owner_winode, if_pos rfl]; exact hp0)).2
        rwa [owner_winode, if_pos rfl] at this
      simp only [bump, hp0, if_false, Function.update_eq_self]
      have hj : fbn.val - NDIRECT < NINDIRECT := by
        have := fbn.isLt
        unfold MAXFILE at this
        omega
      by_cases he : img.indirect (din.addrs (Fin.last NDIRECT)) ⟨fbn - NDIRECT, hj⟩ = 0
      · simp only [he, if_true]
        have hx : Ownership.Exclusive (img.winode inum { din with size := off' }).owner := by
          have := hW.exclusive
          rwa [owner_winode_size (d := din) off, ← owner_winode_size (d := din) off'] at this
        refine PassSpec.of_fill hW ?_ rfl ?_ ?_ ?_
        · rw [dataSlot_of_ge hge]
          exact (owner_setEntry hx rfl hp0 _ _).trans
            (by rw [owner_winode_size (d := din) off', owner_winode_size (d := din) off]; rfl)
        · intro b hb j
          have hb' : b ≠ din.addrs (Fin.last NDIRECT) := by
            have : img.freeblock + 1 ≤ b := hb
            omega
          show Function.update img.indirect (din.addrs (Fin.last NDIRECT)) _ b j = 0
          rw [Function.update_of_ne hb']
          exact hfresh b (by have : img.freeblock + 1 ≤ b := hb; omega) j
        · intro _
          rw [owner_winode, if_pos rfl]
          exact hp0
        · rw [dataSlot_of_ge hge, owner_winode, if_pos rfl]
          simpa [Dinode.slot_ind, hp0] using he
      · simp only [he, if_false, Function.update_eq_self]
        refine PassSpec.of_same hW (owner_winode_congr rfl) rfl hfresh ?_ fun _ => ?_
        · rw [dataSlot_of_ge hge, owner_winode, if_pos rfl]
          simpa [Dinode.slot_ind, hp0] using he
        · rw [owner_winode, if_pos rfl]
          exact hp0

/-- One pass of `iappend`, copying `off' - off > 0` bytes into file block `off / BSIZE`,
keeps the invariant with the size moved from `off` to `off'`. -/
theorem Image.Inv.pass {W W' : Image} {inum off off' : ℕ} (hW : W.Inv) (hfbn : off / BSIZE < MAXFILE)
    (hspec : PassSpec inum ⟨off / BSIZE, hfbn⟩ W W') (hsize : (W.dinode inum).size = off)
    (hsize' : (W'.dinode inum).size = off') (hother : ∀ i, i ≠ inum → W'.dinode i = W.dinode i)
    (hlt : off < off') (hle : off' ≤ (off / BSIZE + 1) * BSIZE)
    (htype : (W'.dinode inum).type = (W.dinode inum).type) (hinum : (W.dinode inum).type ≠ none)
    (hfi : W'.freeinode = W.freeinode) : W'.Inv := by
  -- the arithmetic of offsets, with the constants as numbers
  have hB := BSIZE_eq
  have hfbn' : off / 1024 < 268 := by rw [← BSIZE_eq, ← MAXFILE_eq]; exact hfbn
  have hle' : off' ≤ (off / 1024 + 1) * 1024 := by rw [← BSIZE_eq]; exact hle
  have hlast : ∀ bn, ((inum, .addr (Fin.last NDIRECT)) : ℕ × Slot) ≠ (inum, dataSlot bn) :=
    fun bn => by simpa using (dataSlot_ne_last bn).symm
  refine ⟨hspec.owned, fun i => ?_, fun i bn => ?_, fun i => ?_, fun b h₁ h₂ => ?_, fun i hi => ?_,
    fun i h₁ h₂ => ?_⟩
  · rcases eq_or_ne i inum with rfl | hi
    · rw [hsize', MAXFILE_eq, BSIZE_eq]
      exact Nat.le_trans hle' (Nat.mul_le_mul_right 1024 hfbn')
    · rw [hother i hi]
      exact hW.size_le i
  · rcases eq_or_ne i inum with rfl | hi
    · rw [hsize']
      by_cases hbn : bn = ⟨off / BSIZE, hfbn⟩
      · -- the block of this pass now has a block, and lies below the new size
        subst hbn
        refine iff_of_true hspec.filled ?_
        show off / BSIZE * BSIZE < off'
        rw [BSIZE_eq]
        omega
      · -- other blocks keep their slots, and lie on the same side of both sizes
        have hne : (i, dataSlot bn) ≠ (i, dataSlot ⟨off / BSIZE, hfbn⟩) := by
          simpa using fun h => hbn (dataSlot_injective h)
        have hbn' : bn.val ≠ off / 1024 := fun h => hbn (Fin.ext h)
        rw [hspec.frame _ hne (.inr (hlast bn).symm), hW.mapped, hsize, hB]
        omega
    · have hne : (i, dataSlot bn) ≠ (inum, dataSlot ⟨off / BSIZE, hfbn⟩) := by simp [hi]
      rw [hspec.frame _ hne (.inr (by simp [hi])), hW.mapped, hother i hi]
  · rcases eq_or_ne i inum with rfl | hi
    · rw [hsize']
      by_cases hind : NDIRECT ≤ off / BSIZE
      · refine iff_of_true (hspec.pointer hind) ?_
        rw [NDIRECT_eq, BSIZE_eq] at hind ⊢
        omega
      · rw [hspec.frame _ (hlast _) (.inl (by simpa using hind)), hW.pointer, hsize]
        rw [NDIRECT_eq, BSIZE_eq] at hind ⊢
        omega
    · have hne : (i, Slot.addr (Fin.last NDIRECT)) ≠ (inum, dataSlot ⟨off / BSIZE, hfbn⟩) := by
        simp [hi]
      rw [hspec.frame _ hne (.inr (by simp [hi])), hW.pointer, hother i hi]
  · -- a block held before stays held, and a block taken in this pass is held
    rcases Nat.lt_or_ge b W.freeblock with hb | hb
    · obtain ⟨p, hp⟩ := hW.held b h₁ hb
      have hp0 : W.owner p ≠ 0 := by
        have := nmeta_pos
        omega
      exact ⟨p, by rw [hspec.kept p hp0, hp]⟩
    · exact hspec.new b hb h₂
  · -- the inode appended to has a type, so it is not one of those still zero
    rw [hfi] at hi
    have hne : i ≠ inum := by
      rintro rfl
      exact hinum (by rw [hW.unalloc i hi]; rfl)
    rw [hother i hne]
    exact hW.unalloc i hi
  · rcases eq_or_ne i inum with rfl | hi
    · rw [htype]
      exact hinum
    · rw [hother i hi]
      exact hW.typed i h₁ (hfi ▸ h₂)

/-- `iappend`'s loop keeps the invariant, with the inode written back at each offset; it ends
at `off + n` and changes no other inode. -/
theorem appendLoop_inv {inum : ℕ} :
    ∀ (fuel n off : ℕ) (din : Dinode) (img : Image) (r : Dinode × ℕ × Image),
      appendLoop fuel n off din img = some r → din.type ≠ none →
      (img.winode inum { din with size := off }).Inv →
      (r.2.2.winode inum { r.1 with size := r.2.1 }).Inv ∧ r.2.1 = off + n ∧
        (∀ i, i ≠ inum → r.2.2.dinode i = img.dinode i) ∧ r.2.2.freeinode = img.freeinode := by
  intro fuel
  induction fuel with
  | zero =>
    intro n off din img r h _ hs
    cases n with
    | zero =>
      cases h
      exact ⟨hs, rfl, fun _ _ => rfl, rfl⟩
    | succ n => cases h
  | succ fuel ih =>
    intro n off din img r h htype hs
    cases n with
    | zero =>
      cases h
      exact ⟨hs, rfl, fun _ _ => rfl, rfl⟩
    | succ n =>
      simp only [appendLoop] at h
      split at h
      · next hfbn =>
        rcases hm : mapBlock din img ⟨off / BSIZE, hfbn⟩ with ⟨din', img'⟩
        rw [hm] at h
        have hB : BSIZE = 1024 := rfl
        -- this pass copies at least one byte, and stays inside block `off / BSIZE`
        have hpos : 0 < min (n + 1) ((off / BSIZE + 1) * BSIZE - off) := by
          rw [hB]
          omega
        have hle : off + min (n + 1) ((off / BSIZE + 1) * BSIZE - off) ≤ (off / BSIZE + 1) * BSIZE := by
          rw [hB]
          omega
        have hspec := mapBlock_spec hs.toOwned ⟨off / BSIZE, hfbn⟩
          (off + min (n + 1) ((off / BSIZE + 1) * BSIZE - off))
        rw [hm] at hspec
        have hdin : img'.dinode = img.dinode := by
          simpa [hm] using mapBlock_dinode din img ⟨off / BSIZE, hfbn⟩
        have hfi : img'.freeinode = img.freeinode := by
          simpa [hm] using mapBlock_freeinode din img ⟨off / BSIZE, hfbn⟩
        have htype' : din'.type = din.type := by
          simpa [hm] using mapBlock_type din img ⟨off / BSIZE, hfbn⟩
        have hs' : (img'.winode inum { din' with
            size := off + min (n + 1) ((off / BSIZE + 1) * BSIZE - off) }).Inv :=
          hs.pass hfbn hspec (by simp [Image.winode]) (by simp [Image.winode])
            (fun i hi => by simp [Image.winode, Function.update_of_ne hi, hdin]) (by omega) hle
            (by simpa [Image.winode] using htype') (by simpa [Image.winode] using htype)
            (by simp [Image.winode, hfi])
        obtain ⟨hinv, hoff, hother, hfree⟩ := ih _ _ din' img' r h (htype' ▸ htype) hs'
        refine ⟨hinv, by rw [hoff]; omega, fun i hi => by rw [hother i hi, hdin], by rw [hfree, hfi]⟩
      · cases h

theorem Image.winode_self (img : Image) (inum : ℕ) : img.winode inum (img.dinode inum) = img := by
  simp [Image.winode]

/-- `iappend` keeps the invariant, grows inode `inum` by `n` bytes and leaves the other inodes
and `freeinode` alone. -/
theorem iappend_inv {inum n : ℕ} {img img' : Image} (hs : img.Inv) (h0 : 0 < inum)
    (hlt : inum < img.freeinode) (h : iappend inum n img = some img') :
    img'.Inv ∧ (img'.dinode inum).size = (img.dinode inum).size + n ∧
      (∀ i, i ≠ inum → img'.dinode i = img.dinode i) ∧ img'.freeinode = img.freeinode := by
  simp only [iappend, bind, Option.bind_eq_some_iff, pure, Option.some.injEq] at h
  obtain ⟨⟨din, off, img₁⟩, hr, rfl⟩ := h
  -- the loop starts from the inode as it is on disk
  have hs₀ : (img.winode inum { img.dinode inum with size := (img.dinode inum).size }).Inv := by
    rw [show { img.dinode inum with size := (img.dinode inum).size } = img.dinode inum from rfl,
      Image.winode_self]
    exact hs
  obtain ⟨hinv, hoff, hother, hfree⟩ := appendLoop_inv n n _ _ img _ hr (hs.typed inum h0 hlt) hs₀
  refine ⟨hinv, ?_, fun i hi => ?_, hfree⟩
  · simpa [Image.winode] using hoff
  · simp only [Image.winode, Function.update_of_ne hi]
    exact hother i hi

/-- `ialloc` keeps the invariant: the new inode holds no block and has size `0`. -/
theorem ialloc_inv (type : FileType) {img : Image} (hs : img.Inv) (hfi : 0 < img.freeinode) :
    (ialloc type img).2.Inv ∧ (ialloc type img).1 = img.freeinode ∧
      ((ialloc type img).2.dinode img.freeinode).size = 0 ∧
      (∀ i, i ≠ img.freeinode → (ialloc type img).2.dinode i = img.dinode i) ∧
      (ialloc type img).2.freeinode = img.freeinode + 1 := by
  -- the new inode's slots are all empty
  have hown : ∀ p, (ialloc type img).2.owner p = if p.1 = img.freeinode then 0 else img.owner p := by
    rintro ⟨i, s⟩
    rw [ialloc, owner_winode]
    split
    · cases s <;> simp [Dinode.slot_ind, Dinode.zero]
    · rfl
  have hsub : ∀ p, (ialloc type img).2.owner p ≠ 0 → (ialloc type img).2.owner p = img.owner p := by
    intro p hp
    rw [hown] at hp ⊢
    by_cases hi : p.1 = img.freeinode
    · rw [if_pos hi] at hp
      exact absurd rfl hp
    · rw [if_neg hi]
  have hdin : ∀ i, i ≠ img.freeinode → (ialloc type img).2.dinode i = img.dinode i := fun i hi => by
    simp [ialloc, Image.winode, Function.update_of_ne hi]
  have hnew : ((ialloc type img).2.dinode img.freeinode).size = 0 := by simp [ialloc, Image.winode]
  refine ⟨⟨⟨hs.meta_le, hs.within.of_sub hsub, hs.exclusive.of_sub hsub, hs.fresh⟩,
    fun i => ?_, fun i bn => ?_, fun i => ?_, fun b h₁ h₂ => ?_, fun i hi => ?_, fun i h₁ h₂ => ?_⟩,
    rfl, hnew, hdin, rfl⟩
  · rcases eq_or_ne i img.freeinode with rfl | hi
    · rw [hnew]
      exact Nat.zero_le _
    · rw [hdin i hi]
      exact hs.size_le i
  · rcases eq_or_ne i img.freeinode with rfl | hi
    · rw [hown, if_pos rfl, hnew]
      simp
    · rw [hown, if_neg hi, hdin i hi]
      exact hs.mapped i bn
  · rcases eq_or_ne i img.freeinode with rfl | hi
    · rw [hown, if_pos rfl, hnew]
      simp
    · rw [hown, if_neg hi, hdin i hi]
      exact hs.pointer i
  · -- the new inode was zero, so it held none of the blocks handed out
    obtain ⟨p, hp⟩ := hs.held b h₁ h₂
    have hp' : p.1 ≠ img.freeinode := fun e => by
      have h0 : img.owner p = 0 := by
        rw [Image.owner, e, hs.unalloc _ (.inr (Nat.le_refl _))]
        exact zero_slot _ _
      have := nmeta_pos
      omega
    exact ⟨p, by rw [hown, if_neg hp', hp]⟩
  · have hne : i ≠ img.freeinode := by
      show i ≠ img.freeinode
      have : i = 0 ∨ img.freeinode + 1 ≤ i := hi
      omega
    rw [hdin i hne]
    exact hs.unalloc i (by have : i = 0 ∨ img.freeinode + 1 ≤ i := hi; omega)
  · rcases eq_or_ne i img.freeinode with rfl | hne
    · simp [ialloc, Image.winode]
    · rw [hdin i hne]
      exact hs.typed i h₁ (by have : i < img.freeinode + 1 := h₂; omega)

theorem start_inv : start.Inv := by
  have hown : ∀ p, start.owner p = 0 := by
    rintro ⟨i, s⟩
    cases s <;> simp [start, Image.owner, Dinode.slot_ind, Dinode.zero]
  refine ⟨⟨Nat.le_refl _, fun p hp => absurd (hown p) hp, fun p _ hp => absurd (hown p) hp,
    fun _ _ _ => rfl⟩, fun _ => Nat.zero_le _, fun i bn => ?_, fun i => ?_,
    fun b h₁ h₂ => absurd h₂ (Nat.not_lt.mpr h₁), fun _ _ => rfl, fun i h₁ h₂ => ?_⟩
  · rw [hown]
    simp [start, Dinode.zero]
  · rw [hown]
    simp [start, Dinode.zero]
  · have : i < 1 := h₂
    omega

/-! ## The construction -/

/-- Appending a file's chunks one after the other. -/
theorem appendChunks_inv {inum : ℕ} {chunks : List ℕ} {img img' : Image} (hs : img.Inv)
    (h0 : 0 < inum) (hlt : inum < img.freeinode)
    (h : chunks.foldlM (fun img cc => iappend inum cc img) img = some img') :
    img'.Inv ∧ (∀ i, i ≠ inum → img'.dinode i = img.dinode i) ∧ img'.freeinode = img.freeinode := by
  refine AtomicRun.foldlM_induction chunks
    (fun _ t => t.Inv ∧ (∀ i, i ≠ inum → t.dinode i = img.dinode i) ∧ t.freeinode = img.freeinode)
    ?_ ⟨hs, fun _ _ => rfl, rfl⟩ h
  rintro - t cc t' ⟨ht, hother, hfree⟩ happ
  obtain ⟨ht', -, hother', hfree'⟩ := iappend_inv ht h0 (hfree ▸ hlt) happ
  exact ⟨ht', fun i hi => (hother' i hi).trans (hother i hi), hfree'.trans hfree⟩

/-- `addFile`: one more inode, one more directory entry in the root. -/
theorem addFile_inv {chunks : List ℕ} {img img' : Image} (hs : img.Inv)
    (hroot : ROOTINO < img.freeinode) (h : addFile img chunks = some img') :
    img'.Inv ∧ (img'.dinode ROOTINO).size = (img.dinode ROOTINO).size + DIRENT_SIZE ∧
      img'.freeinode = img.freeinode + 1 := by
  simp only [addFile, bind, Option.bind_eq_some_iff] at h
  obtain ⟨img₂, h₂, h₃⟩ := h
  obtain ⟨hs₁, -, -, hdin₁, hfree₁⟩ := ialloc_inv .file hs (by omega)
  obtain ⟨hs₂, hsize₂, -, hfree₂⟩ := iappend_inv hs₁ (by decide) (by rw [hfree₁]; omega) h₂
  obtain ⟨hs₃, hother₃, hfree₃⟩ := appendChunks_inv hs₂ (by show 0 < img.freeinode; omega)
    (by rw [hfree₂, hfree₁]; exact Nat.lt_succ_self _) h₃
  -- the new file is not the root, whose inode was allocated before it
  have hne : ROOTINO ≠ (ialloc .file img).1 := by
    rw [ialloc]
    exact Nat.ne_of_lt hroot
  refine ⟨hs₃, ?_, by rw [hfree₃, hfree₂, hfree₁]⟩
  rw [hother₃ _ hne, hsize₂, hdin₁ _ (Nat.ne_of_lt hroot)]

/-- Adding the files: the root grows by one directory entry per file. -/
theorem addFiles_inv {files : List (List ℕ)} {img img' : Image} (hs : img.Inv)
    (hroot : ROOTINO < img.freeinode) (h : files.foldlM addFile img = some img') :
    img'.Inv ∧
      (img'.dinode ROOTINO).size = (img.dinode ROOTINO).size + DIRENT_SIZE * files.length ∧
      img'.freeinode = img.freeinode + files.length := by
  refine AtomicRun.foldlM_induction files
    (fun k t => t.Inv ∧ (t.dinode ROOTINO).size = (img.dinode ROOTINO).size + DIRENT_SIZE * k ∧
      t.freeinode = img.freeinode + k) ?_ ⟨hs, rfl, rfl⟩ h
  rintro k t chunks t' ⟨ht, hsize, hfree⟩ hadd
  obtain ⟨ht', hsize', hfree'⟩ := addFile_inv ht (by omega) hadd
  exact ⟨ht', by rw [hsize', hsize, Nat.mul_succ, Nat.add_assoc], by rw [hfree', hfree, Nat.add_assoc]⟩

/-- `balloc`'s loop sets the bits of blocks `0 … used - 1`. -/
theorem bitmapLoop_apply (used : ℕ) (bm : ℕ → Bool) (b : ℕ) :
    (List.range used).foldl (fun bm i => Function.update bm i true) bm b =
      (decide (b < used) || bm b) := by
  induction used with
  | zero => simp
  | succ n ih =>
    rw [List.range_succ, List.foldl_append, List.foldl_cons, List.foldl_nil]
    by_cases hb : b = n
    · subst hb
      simp
    · have hlt : b < n + 1 ↔ b < n :=
        ⟨fun h => Nat.lt_of_le_of_ne (Nat.le_of_lt_succ h) hb, Nat.lt_succ_of_lt⟩
      rw [Function.update_of_ne hb, ih, decide_eq_decide.mpr hlt]

theorem balloc_eq {used : ℕ} {img out : Image} (h : balloc used img = some out) :
    used < BSIZE * 8 ∧ out = { img with bitmap := fun b => decide (b < used) } := by
  unfold balloc at h
  split at h
  · next hlt =>
    refine ⟨hlt, ?_⟩
    cases h
    congr
    funext b
    simp [bitmapLoop_apply]
  · cases h

/-- The fix-up changes the root's size only. -/
theorem fixRoot_owner (img : Image) : (fixRoot img).owner = img.owner := by
  unfold fixRoot
  rw [owner_winode_size, Image.winode_self]

theorem fixRoot_dinode_of_ne {img : Image} {i : ℕ} (hi : i ≠ ROOTINO) :
    (fixRoot img).dinode i = img.dinode i := by
  simp [fixRoot, Image.winode, Function.update_of_ne hi]

theorem fixRoot_root_size (img : Image) :
    ((fixRoot img).dinode ROOTINO).size = ((img.dinode ROOTINO).size / BSIZE + 1) * BSIZE := by
  simp [fixRoot, Image.winode]

/-- Under the invariant every inode is `Mapped`. -/
theorem Image.Inv.dinode_mapped {img : Image} (hs : img.Inv) (i : ℕ) :
    (img.dinode i).Mapped img.indirect := by
  intro bn hbn
  have hlt : bn < MAXFILE := by
    by_contra hge
    have : MAXFILE * BSIZE ≤ bn * BSIZE := Nat.mul_le_mul_right _ (by omega)
    have := hs.size_le i
    omega
  exact ⟨hlt, (hs.mapped i ⟨bn, hlt⟩).mpr hbn⟩

/-- Before the fix-up: the invariant holds, the root holds `.`, `..` and one entry per file,
and there is one inode per file besides the root. -/
theorem mkfs_pre {files : List (List ℕ)} {out : Image} (h : mkfs files = some out) :
    ∃ img : Image, img.Inv ∧ (img.dinode ROOTINO).size = DIRENT_SIZE * (files.length + 2) ∧
      img.freeinode = files.length + 2 ∧ balloc img.freeblock (fixRoot img) = some out := by
  have hroot : (ialloc .dir start).1 = ROOTINO := rfl
  simp only [mkfs, bind, hroot, if_true, Option.bind_eq_some_iff] at h
  obtain ⟨img₁, h₁, img₂, h₂, img₃, h₃, hout⟩ := h
  obtain ⟨hs₀, -, hsize₀, -, hfree₀⟩ := ialloc_inv .dir start_inv (by decide)
  obtain ⟨hs₁, hsize₁, -, hfree₁⟩ := iappend_inv hs₀ (by decide) (by rw [hfree₀]; decide) h₁
  obtain ⟨hs₂, hsize₂, -, hfree₂⟩ := iappend_inv hs₁ (by decide) (by rw [hfree₁, hfree₀]; decide) h₂
  obtain ⟨hs₃, hsize₃, hfree₃⟩ := addFiles_inv hs₂ (by rw [hfree₂, hfree₁, hfree₀]; decide) h₃
  refine ⟨img₃, hs₃, ?_, ?_, hout⟩
  · -- the root starts empty, with `.` and `..` appended before the files' entries
    rw [hsize₃, hsize₂, hsize₁, show ROOTINO = start.freeinode from rfl, hsize₀, Nat.mul_add]
    omega
  · rw [hfree₃, hfree₂, hfree₁, hfree₀, show start.freeinode = 1 from rfl]
    omega

/-- What the image `mkfs` writes for `nfiles` input files offers the kernel: the bitmap marks
exactly the blocks below `freeblock`, in the one bitmap block; every block an inode holds is
a data block below `freeblock`, held by one slot only, and every data block below
`freeblock` is held; an inode without a type is zero; every inode but the root is `Mapped`;
the root holds a block for file block `bn` exactly when its entries reach past `bn * BSIZE`,
and its size is rounded up past them. -/
structure Image.Formatted (img : Image) (nfiles : ℕ) : Prop where
  owned : img.Owned
  bitmap_iff : ∀ b, img.bitmap b = true ↔ b < img.freeblock
  freeblock_lt : img.freeblock < BSIZE * 8
  freeinode_eq : img.freeinode = nfiles + 2
  mapped : ∀ i, i ≠ ROOTINO → (img.dinode i).Mapped img.indirect
  root_size : (img.dinode ROOTINO).size = (DIRENT_SIZE * (nfiles + 2) / BSIZE + 1) * BSIZE
  root_size_le : DIRENT_SIZE * (nfiles + 2) ≤ MAXFILE * BSIZE
  root_blocks : ∀ bn : Fin MAXFILE,
    img.owner (ROOTINO, dataSlot bn) ≠ 0 ↔ bn.val * BSIZE < DIRENT_SIZE * (nfiles + 2)
  held : ∀ b, nmeta ≤ b → b < img.freeblock → ∃ p, img.owner p = b
  free_zero : ∀ i, (img.dinode i).type = none → img.dinode i = Dinode.zero

theorem mkfs_formatted {files : List (List ℕ)} {out : Image} (h : mkfs files = some out) :
    out.Formatted files.length := by
  obtain ⟨img, hs, hsize, hfree, hb⟩ := mkfs_pre h
  obtain ⟨hlt, rfl⟩ := balloc_eq hb
  -- neither the fix-up nor the bitmap changes a slot
  have hown : ({ fixRoot img with bitmap := fun b => decide (b < img.freeblock) }).owner =
      img.owner :=
    fixRoot_owner img
  refine ⟨hs.toOwned.of_eq hown rfl hs.fresh, fun b => decide_eq_true_iff, hlt, hfree, fun i hi => ?_, ?_,
    ?_, fun bn => ?_, fun b h₁ h₂ => ?_, fun i hi => ?_⟩
  · show ((fixRoot img).dinode i).Mapped (fixRoot img).indirect
    rw [fixRoot_dinode_of_ne hi]
    exact hs.dinode_mapped i
  · show ((fixRoot img).dinode ROOTINO).size = _
    rw [fixRoot_root_size, hsize]
  · rw [← hsize]
    exact hs.size_le ROOTINO
  · rw [hown, ← hsize]
    exact hs.mapped ROOTINO bn
  · obtain ⟨p, hp⟩ := hs.held b h₁ h₂
    exact ⟨p, by rw [hown, hp]⟩
  · -- the root keeps its type through the fix-up; the other inodes are as `iappend` left them
    have hroot : ROOTINO < img.freeinode := by
      rw [hfree]
      show 1 < files.length + 2
      omega
    change ((fixRoot img).dinode i).type = none at hi
    change (fixRoot img).dinode i = Dinode.zero
    rcases eq_or_ne i ROOTINO with rfl | hne
    · exact absurd (by simpa [fixRoot, Image.winode] using hi) (hs.typed ROOTINO (by decide) hroot)
    · rw [fixRoot_dinode_of_ne hne] at hi ⊢
      refine hs.unalloc i ?_
      by_contra hn
      exact hs.typed i (by omega) (by omega) hi

/-- After the fix-up the root is `Mapped` exactly when its entries do not end on a block
boundary: otherwise the rounding adds a whole block that it does not hold. -/
theorem Image.Formatted.root_mapped_iff {img : Image} {n : ℕ} (hf : img.Formatted n) :
    (img.dinode ROOTINO).Mapped img.indirect ↔ DIRENT_SIZE * (n + 2) % BSIZE ≠ 0 := by
  have hsize := hf.root_size
  have hle := hf.root_size_le
  have hblocks := hf.root_blocks
  generalize DIRENT_SIZE * (n + 2) = s at hsize hle hblocks ⊢
  rw [BSIZE_eq] at hsize hle hblocks ⊢
  constructor
  · intro hm h0
    -- file block `s / BSIZE` lies below the rounded size, but past the entries
    obtain ⟨hbn, hne⟩ := hm (s / 1024) (by rw [BSIZE_eq, hsize]; omega)
    have := (hblocks ⟨s / 1024, hbn⟩).mp hne
    simp only at this
    omega
  · intro h0 bn hbn
    rw [hsize, BSIZE_eq] at hbn
    -- every file block below the rounded size is one the entries reach into
    have hlt : bn * 1024 < s := by omega
    have hmax : bn < MAXFILE := by
      rw [MAXFILE_eq] at hle ⊢
      omega
    exact ⟨hmax, (hblocks ⟨bn, hmax⟩).mpr hlt⟩

theorem mkfs_root_unmapped (files : List (List ℕ)) (out : Image) (h : mkfs files = some out)
    (hlen : files.length % 64 = 62) : ¬ (out.dinode ROOTINO).Mapped out.indirect := by
  rw [(mkfs_formatted h).root_mapped_iff, not_not]
  -- `DIRENT_SIZE * (files + 2)` is a multiple of `BSIZE = 64 * DIRENT_SIZE`
  show 16 * (files.length + 2) % 1024 = 0
  omega

theorem mkfs_root_unmapped_sixty_two :
    ∃ out, mkfs (List.replicate 62 []) = some out ∧ out.freeblock ≤ FSSIZE ∧
      out.freeinode ≤ NINODES ∧ ¬ (out.dinode ROOTINO).Mapped out.indirect := by
  obtain ⟨out, h⟩ : ∃ out, mkfs (List.replicate 62 []) = some out :=
    Option.isSome_iff_exists.mp (by decide)
  have hfb : (mkfs (List.replicate 62 [])).map Image.freeblock = some 47 := by decide
  rw [h, Option.map_some, Option.some.injEq] at hfb
  refine ⟨out, h, by rw [hfb]; decide, ?_, mkfs_root_unmapped _ out h (by simp)⟩
  rw [(mkfs_formatted h).freeinode_eq]
  decide

end Xv6.Mkfs
