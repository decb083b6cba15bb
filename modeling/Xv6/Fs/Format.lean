import Mathlib
import Xv6.Lib.Owner
import Xv6.Param

/-!
# The on-disk format (`kernel/fs.h`)

The superblock, the on-disk inode and the two macros that locate an inode's block and a
block's bitmap bit. An inode keeps its blocks in `addrs[0 … NDIRECT - 1]` and, through the
indirect block `addrs[NDIRECT]`, in the `NINDIRECT` entries of that block: a `Slot` names one
of these places, `Dinode.slot` reads it, and `dataSlot bn` is where file block `bn` is kept,
as the kernel's `bmap` looks it up.

* `Dinode.Mapped`: every file block below the size has a block, the condition under which
  `bmap`, called from `readi`, never allocates;
* `dataSlot_injective`, `dataSlot_ne_last`: distinct file blocks are kept in distinct slots,
  none of them the indirect pointer;
* `slotTable`: the block every slot of every inode holds, with how each write to an inode or
  to an indirect block changes it (`slotTable_setAddr`, `slotTable_setLast`,
  `slotTable_setEntry`, `slotTable_setOther`).
-/

namespace Xv6

/-- The file types of `kernel/stat.h` (`T_DIR`, `T_FILE`, `T_DEVICE`). -/
inductive FileType
  | dir
  | file
  | device
  deriving DecidableEq, Repr

/-- `struct superblock`, without its `magic`. -/
structure Superblock where
  size : ℕ
  nblocks : ℕ
  ninodes : ℕ
  nlog : ℕ
  logstart : ℕ
  inodestart : ℕ
  bmapstart : ℕ
  deriving DecidableEq, Repr

/-- `IBLOCK(i, sb)`: the block holding inode `i`. -/
def IBLOCK (i : ℕ) (sb : Superblock) : ℕ := i / IPB + sb.inodestart

/-- `BBLOCK(b, sb)`: the bitmap block holding the bit of block `b`. -/
def BBLOCK (b : ℕ) (sb : Superblock) : ℕ := b / BPB + sb.bmapstart

/-- `struct dinode`; a type of `0` (a free inode) is `none`. -/
structure Dinode where
  type : Option FileType
  major : ℕ
  minor : ℕ
  nlink : ℕ
  size : ℕ
  addrs : Fin (NDIRECT + 1) → ℕ

/-- The inode of a zeroed inode block. -/
def Dinode.zero : Dinode := ⟨none, 0, 0, 0, 0, fun _ => 0⟩

/-- A place where an inode keeps a block number: `addrs[k]`, or entry `j` of its indirect
block. -/
inductive Slot
  | addr (k : Fin (NDIRECT + 1))
  | ind (j : Fin NINDIRECT)
  deriving DecidableEq

/-- The disk's blocks read as arrays of block numbers (`uint a[NINDIRECT]`). -/
abbrev Indirect := ℕ → Fin NINDIRECT → ℕ

/-- The block number in slot `s` of an inode; an indirect entry counts only while the inode
has an indirect block. -/
def Dinode.slot (din : Dinode) (ind : Indirect) : Slot → ℕ
  | .addr k => din.addrs k
  | .ind j => if din.addrs (Fin.last NDIRECT) = 0 then 0 else ind (din.addrs (Fin.last NDIRECT)) j

/-- A direct file block is an index of `addrs`. -/
theorem lt_NDIRECT_succ {bn : Fin MAXFILE} (h : bn.val < NDIRECT) : bn.val < NDIRECT + 1 :=
  Nat.lt_succ_of_lt h

/-- A file block past the direct ones is an entry of the indirect block. -/
theorem sub_NDIRECT_lt {bn : Fin MAXFILE} (h : ¬bn.val < NDIRECT) : bn.val - NDIRECT < NINDIRECT := by
  have := bn.isLt
  unfold MAXFILE at this
  omega

/-- The slot holding file block `bn`: `addrs[bn]`, or entry `bn - NDIRECT` of the indirect
block. -/
def dataSlot (bn : Fin MAXFILE) : Slot :=
  if h : bn.val < NDIRECT then .addr ⟨bn, lt_NDIRECT_succ h⟩
  else .ind ⟨bn - NDIRECT, sub_NDIRECT_lt h⟩

/-- Every file block below the size has a block: `bmap` on it only reads. -/
def Dinode.Mapped (din : Dinode) (ind : Indirect) : Prop :=
  ∀ bn, bn * BSIZE < din.size → ∃ h : bn < MAXFILE, din.slot ind (dataSlot ⟨bn, h⟩) ≠ 0

/-! ### Reading slots after a write -/

section Slots

variable {din din' : Dinode} {ind : Indirect}

@[simp] theorem Dinode.slot_addr (k : Fin (NDIRECT + 1)) : din.slot ind (.addr k) = din.addrs k :=
  rfl

theorem Dinode.slot_ind (j : Fin NINDIRECT) :
    din.slot ind (.ind j) =
      if din.addrs (Fin.last NDIRECT) = 0 then 0 else ind (din.addrs (Fin.last NDIRECT)) j :=
  rfl

/-- Writing `addrs[k]` below the indirect pointer changes that slot only. -/
theorem Dinode.slot_setAddr {k : Fin (NDIRECT + 1)} {v : ℕ} (hk : k ≠ Fin.last NDIRECT)
    (h : din'.addrs = Function.update din.addrs k v) (s : Slot) :
    din'.slot ind s = if s = .addr k then v else din.slot ind s := by
  cases s with
  | addr k' =>
    by_cases hk' : k' = k
    · subst hk'
      simp [h]
    · simp [h, hk']
  | ind j =>
    simp only [slot_ind, h, Function.update_of_ne (Ne.symm hk), reduceCtorEq, if_false]

/-- Giving an inode without an indirect block a block of zero entries as its indirect block
changes the pointer only. -/
theorem Dinode.slot_setLast {v : ℕ} (h0 : din.addrs (Fin.last NDIRECT) = 0) (hv : ∀ j, ind v j = 0)
    (h : din'.addrs = Function.update din.addrs (Fin.last NDIRECT) v) (s : Slot) :
    din'.slot ind s = if s = .addr (Fin.last NDIRECT) then v else din.slot ind s := by
  cases s with
  | addr k' =>
    by_cases hk' : k' = Fin.last NDIRECT
    · subst hk'
      simp [h]
    · simp [h, hk']
  | ind j =>
    simp [slot_ind, h, h0, hv]

/-- Writing entry `j` of the inode's indirect block changes that slot only. -/
theorem Dinode.slot_setEntry (hp : din.addrs (Fin.last NDIRECT) ≠ 0) (j : Fin NINDIRECT) (v : ℕ)
    (s : Slot) :
    din.slot (Function.update ind (din.addrs (Fin.last NDIRECT))
        (Function.update (ind (din.addrs (Fin.last NDIRECT))) j v)) s =
      if s = .ind j then v else din.slot ind s := by
  cases s with
  | addr k' => simp
  | ind j' =>
    by_cases hj : j' = j
    · subst hj
      simp [slot_ind, hp]
    · simp [slot_ind, hp, hj]

/-- Writing a block that is not the inode's indirect block changes none of its slots. -/
theorem Dinode.slot_setOther {b : ℕ} (hb : din.addrs (Fin.last NDIRECT) ≠ b) (e : Fin NINDIRECT → ℕ)
    (s : Slot) : din.slot (Function.update ind b e) s = din.slot ind s := by
  cases s with
  | addr k' => rfl
  | ind j' => simp only [slot_ind, Function.update_of_ne hb]

theorem Dinode.slot_congr (h : din'.addrs = din.addrs) : din'.slot = din.slot := by
  funext ind s
  cases s <;> simp [slot_ind, h]

end Slots

theorem dataSlot_of_lt {bn : Fin MAXFILE} (h : bn.val < NDIRECT) :
    dataSlot bn = .addr ⟨bn, by omega⟩ := by
  simp [dataSlot, h]

theorem dataSlot_of_ge {bn : Fin MAXFILE} (h : ¬ bn.val < NDIRECT) :
    dataSlot bn = .ind ⟨bn - NDIRECT, by have := bn.isLt; unfold MAXFILE at this; omega⟩ := by
  simp [dataSlot, h]

theorem dataSlot_ne_last (bn : Fin MAXFILE) : dataSlot bn ≠ .addr (Fin.last NDIRECT) := by
  unfold dataSlot
  split
  · next hlt =>
    intro h
    have := congrArg Fin.val (Slot.addr.inj h)
    simp only [Fin.val_last] at this
    omega
  · exact Slot.noConfusion

theorem dataSlot_injective : Function.Injective dataSlot := by
  intro b₁ b₂ h
  unfold dataSlot at h
  split at h <;> split at h
  · exact Fin.ext (congrArg Fin.val (Slot.addr.inj h) :)
  · exact Slot.noConfusion h
  · exact Slot.noConfusion h
  · next h₁ h₂ =>
    have := congrArg Fin.val (Slot.ind.inj h)
    apply Fin.ext
    simp only at this
    omega

/-! ### The slots of all inodes -/

/-- The block slot `p.2` of inode `p.1` holds, the inodes read from `dins`. -/
def slotTable (dins : ℕ → Dinode) (ind : Indirect) (p : ℕ × Slot) : ℕ := (dins p.1).slot ind p.2

section Table

variable {dins : ℕ → Dinode} {ind : Indirect} {inum : ℕ} {d d' : Dinode}

theorem slotTable_update (i : ℕ) (s : Slot) :
    slotTable (Function.update dins inum d) ind (i, s) =
      if i = inum then d.slot ind s else slotTable dins ind (i, s) := by
  by_cases h : i = inum
  · subst h
    simp [slotTable]
  · simp [slotTable, h]

/-- Only the addresses of an inode decide what it holds. -/
theorem slotTable_congr (h : d'.addrs = d.addrs) :
    slotTable (Function.update dins inum d') ind = slotTable (Function.update dins inum d) ind := by
  funext ⟨i, s⟩
  rw [slotTable_update, slotTable_update, Dinode.slot_congr h]

/-- Writing `addrs[k]` of inode `inum` below the indirect pointer changes that slot only. -/
theorem slotTable_setAddr {k : Fin (NDIRECT + 1)} {v : ℕ} (hk : k ≠ Fin.last NDIRECT)
    (h : d'.addrs = Function.update d.addrs k v) :
    slotTable (Function.update dins inum d') ind =
      Function.update (slotTable (Function.update dins inum d) ind) (inum, .addr k) v := by
  funext ⟨i, s⟩
  by_cases hi : i = inum
  · subst hi
    rw [slotTable_update, if_pos rfl, Dinode.slot_setAddr hk h, Function.update_apply,
      slotTable_update, if_pos rfl]
    simp
  · simp [slotTable_update, hi]

/-- Giving inode `inum`, which has no indirect block, a block of zero entries as its indirect
block changes the pointer only. -/
theorem slotTable_setLast {v : ℕ} (h0 : d.addrs (Fin.last NDIRECT) = 0) (hv : ∀ j, ind v j = 0)
    (h : d'.addrs = Function.update d.addrs (Fin.last NDIRECT) v) :
    slotTable (Function.update dins inum d') ind =
      Function.update (slotTable (Function.update dins inum d) ind)
        (inum, .addr (Fin.last NDIRECT)) v := by
  funext ⟨i, s⟩
  by_cases hi : i = inum
  · subst hi
    rw [slotTable_update, if_pos rfl, Dinode.slot_setLast h0 hv h, Function.update_apply,
      slotTable_update, if_pos rfl]
    simp
  · simp [slotTable_update, hi]

/-- Writing entry `j` of the indirect block of inode `inum` changes that slot only, no other
inode sharing the block. -/
theorem slotTable_setEntry {b : ℕ} (hx : Ownership.Exclusive (slotTable dins ind))
    (hb : (dins inum).addrs (Fin.last NDIRECT) = b) (hp : b ≠ 0) (j : Fin NINDIRECT) (v : ℕ) :
    slotTable dins (Function.update ind b (Function.update (ind b) j v)) =
      Function.update (slotTable dins ind) (inum, .ind j) v := by
  subst hb
  funext ⟨i, s⟩
  by_cases hi : i = inum
  · subst hi
    rw [slotTable, Dinode.slot_setEntry hp, Function.update_apply]
    simp [slotTable]
  · -- the pointer of inode `i` is another block, as two slots never hold one block
    have hne : (dins i).addrs (Fin.last NDIRECT) ≠ (dins inum).addrs (Fin.last NDIRECT) :=
      fun he => hi (congrArg Prod.fst (hx (inum, .addr (Fin.last NDIRECT)) (i, .addr (Fin.last NDIRECT))
        hp he.symm)).symm
    rw [slotTable, Dinode.slot_setOther hne, Function.update_of_ne (by simp [hi])]
    rfl

/-- Writing a block that is no inode's indirect block changes no slot. -/
theorem slotTable_setOther {b : ℕ} (hb : ∀ i, (dins i).addrs (Fin.last NDIRECT) ≠ b)
    (e : Fin NINDIRECT → ℕ) : slotTable dins (Function.update ind b e) = slotTable dins ind := by
  funext ⟨i, s⟩
  exact Dinode.slot_setOther (hb i) e s

/-- A block no slot holds is no inode's indirect block. -/
theorem pointer_ne_of_free {b : ℕ} (hb : ∀ p, slotTable dins ind p ≠ b) (i : ℕ) :
    (dins i).addrs (Fin.last NDIRECT) ≠ b :=
  hb (i, .addr (Fin.last NDIRECT))

/-- A block held by a slot other than an indirect pointer is no inode's indirect block. -/
theorem pointer_ne_of_held (hx : Ownership.Exclusive (slotTable dins ind)) {p : ℕ × Slot}
    (hp : slotTable dins ind p ≠ 0) (hlast : p.2 ≠ .addr (Fin.last NDIRECT)) (i : ℕ) :
    (dins i).addrs (Fin.last NDIRECT) ≠ slotTable dins ind p := fun he =>
  hlast (congrArg Prod.snd (hx p (i, .addr (Fin.last NDIRECT)) hp he.symm))

end Table

end Xv6
