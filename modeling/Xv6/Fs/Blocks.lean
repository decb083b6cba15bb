import Xv6.Fs.Coherence
import Xv6.Lib.Run

/-!
# Block ownership in the kernel (`kernel/fs.c`)

Every block an inode holds, in `addrs[0 … NDIRECT - 1]`, in the indirect pointer
`addrs[NDIRECT]` or in an entry of its indirect block, is a data block that the bitmap marks
in use and that no other slot holds; every data block the bitmap marks is held by some slot;
an inode without a type holds nothing. `Disk.Owned` states this over the slots of
`slotTable` and the bitmap, with the bitmap allocator's library invariant
`Ownership.Accounted`.

`balloc` then hands out only blocks no slot holds, `bfree` in `itrunc` never reaches
`panic("freeing free block")`, and no call leaks a block. The calls are those that give blocks
to inodes or take them back, with the inode-table calls around them: `InodeCall`, `State.step`,
`State.run`.

* `Inv`: the invariant between calls, ownership together with the coherence of the inode
  table with the disk (`Coherent`);
* `Open`: the invariant while a locked entry is changed in memory, before `iupdate` writes it
  back; `Frame` says what such a change leaves alone;
* `Inv.balloc_fresh`, `Open.bmap`, `Open.writeLoop`, `Inv.writei`: `writei` keeps the
  invariant, also when a copy fails halfway through;
* `Open.itruncDirect`, `Open.itruncIndirect`, `Inv.itrunc`, `Inv.iput`: `itrunc` always succeeds
  and keeps the invariant, the entries of the indirect block being given back before the block
  (`dropEntries`);
* `Inv.setInode`, `Inv.ilock`, `Inv.iget`, `Inv.ialloc`: the inode-table calls;
* `Inv.step`, `Inv.run`: every call, and every run of calls, keeps the invariant.
-/

namespace Xv6

/-- `sb.size - sb.nblocks`: the blocks before the data blocks (boot block, superblock, log,
inode blocks and bitmap), `nmeta` in `mkfs`. -/
def Superblock.nmeta (sb : Superblock) : ℕ := sb.size - sb.nblocks

/-- What the inode layer needs of the superblock: block `0` is not a data block, and every
block number fits in an entry of an indirect block. -/
structure Superblock.Sane (sb : Superblock) : Prop where
  nmeta_pos : 0 < sb.nmeta
  size_le : sb.size ≤ 2 ^ 32

namespace Fs

open Ownership

/-! ## The invariants -/

/-- Block ownership on disk `d`, its inodes read from `dins`: the bitmap keeps account of the
blocks the inodes' slots hold over the data blocks `[nmeta, size)`, and an inode without a
type holds none. -/
structure Disk.Owned (sb : Superblock) (d : Disk) (dins : ℕ → Dinode) : Prop where
  accounted : Accounted (slotTable dins d.ind) d.bitmap sb.nmeta sb.size
  free : ∀ inum, (dins inum).type = none → ∀ k, (dins inum).addrs k = 0

/-- The invariant of the inode layer between calls: the disk is `Owned`, the inode table is
`Coherent` with it, a valid referenced entry has a type, and the referenced entries are of
the root device and hold distinct inodes. -/
structure Inv (sb : Superblock) (s : State) : Prop where
  owned : s.disk.Owned sb s.disk.dinode
  coherent : Coherent s
  typed : ∀ i, 0 < (s.inode i).ref → (s.inode i).valid = true → (s.inode i).din.type ≠ none
  rootdev : ∀ i, 0 < (s.inode i).ref → (s.inode i).dev = ROOTDEV
  unique : ∀ i j, 0 < (s.inode i).ref → 0 < (s.inode j).ref →
    (s.inode i).inum = (s.inode j).inum → i = j

/-- The inodes while entry `i` is changed in memory: its copy for its own inode, the disk
for the others. -/
def State.view (s : State) (i : Fin NINODE) : ℕ → Dinode :=
  Function.update s.disk.dinode (s.inode i).inum (s.inode i).din

/-- The invariant while the locked entry `i` is changed in memory and not yet written back:
the disk is `Owned` with entry `i`'s copy for its inode, and the other entries are as in
`Inv`. -/
structure Open (sb : Superblock) (s : State) (i : Fin NINODE) : Prop where
  owned : s.disk.Owned sb (s.view i)
  ref_pos : 0 < (s.inode i).ref
  valid : (s.inode i).valid = true
  coherent : ∀ j, j ≠ i → 0 < (s.inode j).ref → (s.inode j).valid = true →
    (s.inode j).din = s.disk.dinode (s.inode j).inum
  typed : ∀ j, 0 < (s.inode j).ref → (s.inode j).valid = true → (s.inode j).din.type ≠ none
  rootdev : ∀ j, 0 < (s.inode j).ref → (s.inode j).dev = ROOTDEV
  unique : ∀ j k, 0 < (s.inode j).ref → 0 < (s.inode k).ref →
    (s.inode j).inum = (s.inode k).inum → j = k

/-- What a change to the locked entry `i` leaves alone: the inodes on disk, the other
entries, and of entry `i` everything but the addresses and the size of its copy. -/
structure Frame (i : Fin NINODE) (s s' : State) : Prop where
  dinode : s'.disk.dinode = s.disk.dinode
  other : ∀ j, j ≠ i → s'.inode j = s.inode j
  dev : (s'.inode i).dev = (s.inode i).dev
  inum : (s'.inode i).inum = (s.inode i).inum
  ref : (s'.inode i).ref = (s.inode i).ref
  valid : (s'.inode i).valid = (s.inode i).valid
  type : (s'.inode i).din.type = (s.inode i).din.type

variable {sb : Superblock} {s s' s'' : State} {i : Fin NINODE}

/-! ## Frames and views -/

namespace Frame

theorem refl (s : State) : Frame i s s := ⟨rfl, fun _ _ => rfl, rfl, rfl, rfl, rfl, rfl⟩

theorem trans (h₁ : Frame i s s') (h₂ : Frame i s' s'') : Frame i s s'' :=
  ⟨h₂.dinode.trans h₁.dinode, fun j hj => (h₂.other j hj).trans (h₁.other j hj),
    h₂.dev.trans h₁.dev, h₂.inum.trans h₁.inum, h₂.ref.trans h₁.ref, h₂.valid.trans h₁.valid,
    h₂.type.trans h₁.type⟩

/-- A change of the bitmap and of the data blocks alone. -/
theorem of_disk (hd : s'.disk.dinode = s.disk.dinode) (hi : s'.inode = s.inode) : Frame i s s' :=
  ⟨hd, fun _ _ => by rw [hi], by rw [hi], by rw [hi], by rw [hi], by rw [hi], by rw [hi]⟩

/-- A change of entry `i`'s copy that keeps its type. -/
theorem setDin (d : Dinode) (ht : d.type = (s.inode i).din.type) : Frame i s (s.setDin i d) :=
  ⟨rfl, fun j hj => by simp [hj], by simp, by simp, by simp, by simp, by simpa using ht⟩

/-- Every entry keeps its device, inode number, references, validity and type. -/
theorem keeps (hf : Frame i s s') (j : Fin NINODE) :
    (s'.inode j).dev = (s.inode j).dev ∧ (s'.inode j).inum = (s.inode j).inum ∧
      (s'.inode j).ref = (s.inode j).ref ∧ (s'.inode j).valid = (s.inode j).valid ∧
      (s'.inode j).din.type = (s.inode j).din.type := by
  by_cases hj : j = i
  · subst hj
    exact ⟨hf.dev, hf.inum, hf.ref, hf.valid, hf.type⟩
  · rw [hf.other j hj]
    exact ⟨rfl, rfl, rfl, rfl, rfl⟩

end Frame

theorem State.view_congr (hd : s'.disk.dinode = s.disk.dinode) (hi : s'.inode = s.inode) :
    s'.view i = s.view i := by
  unfold State.view
  rw [hd, hi]

theorem State.view_setDin (d : Dinode) :
    (s.setDin i d).view i = Function.update s.disk.dinode (s.inode i).inum d := by
  simp [State.view]

/-- Entry `i`'s own slots, read through the view. -/
theorem State.slotTable_view_self (s : State) (i : Fin NINODE) (ind : Indirect) (sl : Slot) :
    slotTable (s.view i) ind ((s.inode i).inum, sl) = (s.inode i).din.slot ind sl := by
  rw [State.view, slotTable_update, if_pos rfl]

/-- Ownership reads the disk through its bitmap and its indirect blocks only. -/
theorem Disk.Owned.congr {d d' : Disk} {dins dins' : ℕ → Dinode} (h : d.Owned sb dins)
    (ht : slotTable dins' d'.ind = slotTable dins d.ind) (hb : d'.bitmap = d.bitmap)
    (hfree : ∀ inum, (dins' inum).type = none → ∀ k, (dins' inum).addrs k = 0) :
    d'.Owned sb dins' := by
  refine ⟨?_, hfree⟩
  rw [ht, hb]
  exact h.accounted

/-! ## Opening and writing back an entry -/

theorem Inv.toOpen (hi : Inv sb s) (hr : 0 < (s.inode i).ref) (hv : (s.inode i).valid = true) :
    Open sb s i := by
  have hview : s.view i = s.disk.dinode := by
    unfold State.view
    rw [hi.coherent i hr hv, Function.update_eq_self]
  refine ⟨?_, hr, hv, fun j _ => hi.coherent j, hi.typed, hi.rootdev, hi.unique⟩
  rw [hview]
  exact hi.owned

/-- `iupdate` writes the entry back: the disk then holds the view. -/
theorem Open.close (ho : Open sb s i) : Inv sb (iupdate sb s i) := by
  have hdin : (iupdate sb s i).disk.dinode = s.view i := by
    simp [iupdate, State.view]
  refine ⟨?_, fun j hr hv => ?_, ho.typed, ho.rootdev, ho.unique⟩
  · rw [hdin]
    exact ho.owned.congr rfl rfl ho.owned.free
  · change (s.inode j).din = (iupdate sb s i).disk.dinode (s.inode j).inum
    rw [hdin, State.view]
    by_cases hj : j = i
    · subst hj
      rw [Function.update_self]
    · -- another entry holds another inode, which the write leaves alone
      have hne : (s.inode j).inum ≠ (s.inode i).inum := fun he =>
        hj (ho.unique j i hr ho.ref_pos he)
      rw [Function.update_of_ne hne]
      exact ho.coherent j hj hr hv

/-- Changing entry `i`'s copy, and the bitmap and data blocks, keeps `Open` when it keeps
ownership. -/
theorem Open.of_frame (ho : Open sb s i) (hf : Frame i s s') (howned : s'.disk.Owned sb (s'.view i)) :
    Open sb s' i := by
  refine ⟨howned, hf.ref ▸ ho.ref_pos, hf.valid ▸ ho.valid, fun j hj hr hv => ?_, fun j hr hv => ?_,
    fun j hr => ?_, fun j k hj hk he => ?_⟩
  · rw [hf.other j hj, hf.dinode]
    rw [hf.other j hj] at hr hv
    exact ho.coherent j hj hr hv
  · obtain ⟨-, -, href, hvalid, htype⟩ := hf.keeps j
    rw [htype]
    exact ho.typed j (href ▸ hr) (hvalid ▸ hv)
  · obtain ⟨hdev, -, href, -⟩ := hf.keeps j
    rw [hdev]
    exact ho.rootdev j (href ▸ hr)
  · obtain ⟨-, hinumj, hrefj, -⟩ := hf.keeps j
    obtain ⟨-, hinumk, hrefk, -⟩ := hf.keeps k
    exact ho.unique j k (hrefj ▸ hj) (hrefk ▸ hk) (by rw [← hinumj, ← hinumk, he])

/-- Changing entry `i`'s copy without changing its type keeps every inode without a type
empty. -/
theorem Open.free_of_type (ho : Open sb s i) {d : Dinode} (ht : d.type = (s.inode i).din.type) :
    ∀ n, (Function.update s.disk.dinode (s.inode i).inum d n).type = none →
      ∀ k, (Function.update s.disk.dinode (s.inode i).inum d n).addrs k = 0 := by
  intro n hn
  by_cases he : n = (s.inode i).inum
  · subst he
    rw [Function.update_self, ht] at hn
    exact absurd hn (ho.typed i ho.ref_pos ho.valid)
  · rw [Function.update_of_ne he] at hn ⊢
    have := ho.owned.free n
    rw [State.view, Function.update_of_ne he] at this
    exact this hn

theorem Open.logWrite (ho : Open sb s i) (b : ℕ) : Open sb (s.logWrite b) i :=
  ho.of_frame (Frame.of_disk rfl rfl) ho.owned

/-- Writing the bytes of a block that entry `i`'s copy holds for a file block. -/
theorem Open.setData (ho : Open sb s i) {bn : Fin MAXFILE} {a : ℕ}
    (hheld : (s.inode i).din.slot s.disk.ind (dataSlot bn) = a) (ha : a ≠ 0) (c : ℕ → UInt8) :
    Open sb (s.setData a c) i := by
  have hview : (s.setData a c).view i = s.view i := State.view_congr rfl rfl
  -- the block is held as a file block, so it is nobody's indirect block
  have hslot : slotTable (s.view i) s.disk.ind ((s.inode i).inum, dataSlot bn) = a := by
    rw [State.slotTable_view_self, hheld]
  have hptr := pointer_ne_of_held ho.owned.accounted.exclusive (hslot ▸ ha) (dataSlot_ne_last bn)
  rw [hslot] at hptr
  refine ho.of_frame (Frame.of_disk rfl rfl) (ho.owned.congr ?_ rfl ?_)
  · rw [hview, State.setData_disk_ind, slotTable_setOther hptr]
  · rw [hview]
    exact ho.owned.free

/-- A change of the size of entry `i`'s copy. -/
theorem Open.setSize (ho : Open sb s i) (n : ℕ) :
    Open sb (s.setDin i { (s.inode i).din with size := n }) i := by
  refine ho.of_frame (Frame.setDin _ rfl) (ho.owned.congr ?_ rfl ?_)
  · rw [State.view_setDin, State.view, State.setDin_disk]
    exact slotTable_congr rfl
  · rw [State.view_setDin]
    exact ho.free_of_type rfl

/-! ## Allocating: `balloc`, `bmap`, `writei` -/

/-- What `balloc` did when it returned block `b`: `b` was free and below the size; the
bitmap now marks it and it is zeroed; no inode changes. -/
structure Balloced (sb : Superblock) (s s' : State) (b : ℕ) : Prop where
  lt_size : b < sb.size
  free : s.disk.bitmap b = false
  inode : s'.inode = s.inode
  dinode : s'.disk.dinode = s.disk.dinode
  bitmap : s'.disk.bitmap = Function.update s.disk.bitmap b true
  ind : s'.disk.ind = Function.update s.disk.ind b fun _ => 0

theorem balloc_spec {b : ℕ} (h : balloc sb s = some (b, s')) : Balloced sb s s' b := by
  obtain ⟨⟨hlt, hfree, -⟩, rfl⟩ := balloc_eq_some_iff.mp h
  refine ⟨hlt, hfree, rfl, rfl, rfl, ?_⟩
  rw [bzero_disk_ind]
  rfl

/-- Giving the empty slot `addrs[k]` of inode `inum` a zeroed block that no slot holds. -/
theorem slotTable_take_addr {dins : ℕ → Dinode} {ind : Indirect} {inum b : ℕ} {d d' : Dinode}
    {k : Fin (NDIRECT + 1)} (hk0 : d.addrs k = 0)
    (hfree : ∀ p, slotTable (Function.update dins inum d) ind p ≠ b)
    (h : d'.addrs = Function.update d.addrs k b) :
    slotTable (Function.update dins inum d') (Function.update ind b fun _ => 0) =
      Function.update (slotTable (Function.update dins inum d) ind) (inum, .addr k) b := by
  -- the zeroed block was nobody's indirect block
  have hother : slotTable (Function.update dins inum d) (Function.update ind b fun _ => 0) =
      slotTable (Function.update dins inum d) ind :=
    slotTable_setOther (pointer_ne_of_free hfree) _
  by_cases hk : k = Fin.last NDIRECT
  · subst hk
    rw [slotTable_setLast hk0 (fun j => by simp) h, hother]
  · rw [slotTable_setAddr hk h, hother]

/-- `if((addr = ip->addrs[k]) == 0) ip->addrs[k] = addr = balloc(ip->dev);`. -/
theorem Open.allocAddr (ho : Open sb s i) (hsb : sb.Sane) {k : Fin (NDIRECT + 1)} {a : ℕ}
    (h : allocAddr sb s i k = some (a, s')) :
    Open sb s' i ∧ Frame i s s' ∧ (s'.inode i).din.addrs k = a ∧ a ≠ 0 := by
  by_cases h0 : (s.inode i).din.addrs k = 0
  · rw [allocAddr_of_eq_zero h0] at h
    obtain ⟨⟨b, s₁⟩, hb, he⟩ := Option.map_eq_some_iff.mp h
    simp only [Prod.mk.injEq] at he
    obtain ⟨rfl, rfl⟩ := he
    have hb := balloc_spec hb
    have hnot := ho.owned.accounted.ne_of_free hsb.nmeta_pos hb.free
    have hb0 : b ≠ 0 := by
      have := hsb.nmeta_pos
      have := ho.owned.accounted.le_of_free hb.free
      omega
    -- the new copy of the inode, with the block in slot `k`
    let d : Dinode := { (s.inode i).din with addrs := Function.update (s.inode i).din.addrs k b }
    have hset : s₁.setAddr i k b = s₁.setDin i d := by
      rw [State.setAddr, hb.inode]
    have hf : Frame i s (s₁.setAddr i k b) := by
      rw [hset]
      exact (Frame.of_disk hb.dinode hb.inode).trans (Frame.setDin d (by rw [hb.inode]))
    have hview : (s₁.setAddr i k b).view i = Function.update s.disk.dinode (s.inode i).inum d := by
      rw [hset, State.view_setDin, hb.dinode, hb.inode]
    -- the slot takes the block and the bitmap marks it
    have hacc := ho.owned.accounted.take hsb.nmeta_pos
      (k := ((s.inode i).inum, .addr k)) (by rw [State.slotTable_view_self]; exact h0) hb.free hb.lt_size
    refine ⟨ho.of_frame hf ⟨?_, ?_⟩, hf, by rw [hset]; simp [d], hb0⟩
    · rw [hview, State.setAddr_disk, hb.ind, hb.bitmap, slotTable_take_addr h0 hnot rfl]
      exact hacc
    · rw [hview]
      exact ho.free_of_type rfl
  · rw [allocAddr_of_ne_zero h0] at h
    cases h
    exact ⟨ho, Frame.refl s, rfl, h0⟩

/-- `if((addr = a[j]) == 0){ a[j] = addr = balloc(ip->dev); log_write(bp); }` on entry `i`'s
indirect block. -/
theorem Open.allocEntry (ho : Open sb s i) (hsb : sb.Sane) {ind : ℕ}
    (hp : (s.inode i).din.addrs (Fin.last NDIRECT) = ind) (hind : ind ≠ 0) (j : Fin NINDIRECT)
    {a : ℕ} (h : allocEntry sb s ind j = some (a, s')) :
    Open sb s' i ∧ Frame i s s' ∧ (s'.inode i).din.slot s'.disk.ind (.ind j) = a ∧ a ≠ 0 := by
  -- entry `j` is the slot `.ind j` of entry `i`'s copy
  have hslot : ∀ t : State, (t.inode i).din.addrs (Fin.last NDIRECT) = ind →
      (t.inode i).din.slot t.disk.ind (.ind j) = t.disk.ind ind j := fun t ht => by
    rw [Dinode.slot_ind, if_neg (by rw [ht]; exact hind), ht]
  by_cases h0 : s.disk.entry ind j = 0
  · rw [allocEntry_of_eq_zero h0] at h
    obtain ⟨⟨b, s₁⟩, hb, he⟩ := Option.map_eq_some_iff.mp h
    simp only [Prod.mk.injEq] at he
    obtain ⟨rfl, rfl⟩ := he
    have hb := balloc_spec hb
    have hnot := ho.owned.accounted.ne_of_free hsb.nmeta_pos hb.free
    have hb32 : b < 2 ^ 32 := Nat.lt_of_lt_of_le hb.lt_size hsb.size_le
    -- the indirect block is held as a pointer, the new block by nobody
    have hindb : ind ≠ b := fun e => hnot ((s.inode i).inum, .addr (Fin.last NDIRECT)) (by
      rw [State.slotTable_view_self, Dinode.slot_addr, hp, e])
    have hother : slotTable (s.view i) (Function.update s.disk.ind b fun _ => 0) =
        slotTable (s.view i) s.disk.ind :=
      slotTable_setOther (pointer_ne_of_free hnot) _
    have hptr : ((s.view i) (s.inode i).inum).addrs (Fin.last NDIRECT) = ind := by
      rw [State.view, Function.update_self, hp]
    have hinode : ((s₁.setEntry ind j b).logWrite ind).inode = s.inode := hb.inode
    have hview : ((s₁.setEntry ind j b).logWrite ind).view i = s.view i :=
      State.view_congr hb.dinode hb.inode
    have hdisk : ((s₁.setEntry ind j b).logWrite ind).disk.ind =
        Function.update (Function.update s.disk.ind b fun _ => 0) ind
          (Function.update ((Function.update s.disk.ind b fun _ => 0) ind) j b) := by
      rw [State.logWrite_disk, State.setEntry_disk_ind _ _ _ hb32, hb.ind]
    -- the slot takes the block and the bitmap marks it
    have hacc := ho.owned.accounted.take hsb.nmeta_pos (k := ((s.inode i).inum, .ind j))
      (by rw [State.slotTable_view_self, hslot s hp]; exact h0) hb.free hb.lt_size
    have hf : Frame i s ((s₁.setEntry ind j b).logWrite ind) := Frame.of_disk hb.dinode hinode
    refine ⟨ho.of_frame hf ⟨?_, ?_⟩, hf, ?_, ?_⟩
    · rw [hview, hdisk, slotTable_setEntry (hother ▸ ho.owned.accounted.exclusive) hptr hind,
        hother, State.logWrite_disk, State.setEntry_disk_bitmap, hb.bitmap]
      exact hacc
    · rw [hview]
      exact ho.owned.free
    · rw [hslot _ (by rw [hinode]; exact hp), hdisk, Function.update_self, Function.update_self]
    · have := hsb.nmeta_pos
      have := ho.owned.accounted.le_of_free hb.free
      omega
  · rw [allocEntry_of_ne_zero h0] at h
    cases h
    exact ⟨ho, Frame.refl s, hslot s hp, h0⟩

/-- `bmap` returns the block entry `i`'s copy holds for file block `bn`, allocated if the slot
was empty. -/
theorem Open.bmap (ho : Open sb s i) (hsb : sb.Sane) {bn a : ℕ} (h : bmap sb s i bn = some (a, s')) :
    Open sb s' i ∧ Frame i s s' ∧
      ∃ hbn : bn < MAXFILE, (s'.inode i).din.slot s'.disk.ind (dataSlot ⟨bn, hbn⟩) = a ∧ a ≠ 0 := by
  have hN := NDIRECT_eq
  have hI := NINDIRECT_eq
  have hM := MAXFILE_eq
  by_cases h₁ : bn < NDIRECT
  · rw [bmap_of_lt h₁] at h
    obtain ⟨ho', hf, ha, ha0⟩ := ho.allocAddr hsb h
    refine ⟨ho', hf, by omega, ?_, ha0⟩
    rw [dataSlot_of_lt h₁]
    exact ha
  · by_cases h₂ : bn - NDIRECT < NINDIRECT
    · rw [bmap_of_ge h₁ h₂] at h
      obtain ⟨⟨ind, s₁⟩, h₃, h₄⟩ := Option.bind_eq_some_iff.mp h
      obtain ⟨ho₁, hf₁, hind, hind0⟩ := ho.allocAddr hsb h₃
      obtain ⟨ho₂, hf₂, he, he0⟩ := ho₁.allocEntry hsb hind hind0 ⟨bn - NDIRECT, h₂⟩ h₄
      refine ⟨ho₂, hf₁.trans hf₂, by omega, ?_, he0⟩
      rw [dataSlot_of_ge h₁]
      exact he
    · rw [bmap_of_out h₁ h₂] at h
      cases h

/-- `writei`'s loop keeps `Open`, whether it runs to the end or a copy fails halfway. -/
theorem Open.writeLoop (hsb : sb.Sane) {src : ℕ → Option UInt8} {n : ℕ} (s : State) (tot off : ℕ)
    {r : ℕ × ℕ × State} (ho : Open sb s i) (h : writeLoop sb i src n s tot off = some r) :
    Open sb r.2.2 i ∧ Frame i s r.2.2 := by
  induction s, tot, off using writeLoop.induct sb i src n generalizing r with
  | case1 s tot off hlt hnone =>
    rw [Fs.writeLoop, dif_pos hlt, hnone] at h
    cases h
  | case2 s tot off hlt addr s₁ hmap m c s₂ hc =>
    rename_i ih
    -- every byte of the chunk was copied: the loop goes on
    rw [Fs.writeLoop, dif_pos hlt, hmap] at h
    simp only at h
    rw [if_pos (show copied src tot (min (n - tot) (BSIZE - off % BSIZE)) =
      min (n - tot) (BSIZE - off % BSIZE) from hc)] at h
    obtain ⟨ho₁, hf₁, hbn, hheld, ha⟩ := ho.bmap hsb hmap
    -- the bytes copied go to a block the inode holds as a file block
    obtain ⟨ho', hf'⟩ := ih ((ho₁.setData hheld ha _).logWrite addr) h
    have hf₂ : Frame i s₁ (s₂.logWrite addr) := Frame.of_disk rfl rfl
    exact ⟨ho', hf₁.trans (hf₂.trans hf')⟩
  | case3 s tot off hlt addr s₁ hmap m c =>
    rename_i hc
    -- a copy failed: the loop stops with the bytes copied so far in the block
    rw [Fs.writeLoop, dif_pos hlt, hmap] at h
    simp only at h
    rw [if_neg (show ¬ copied src tot (min (n - tot) (BSIZE - off % BSIZE)) =
      min (n - tot) (BSIZE - off % BSIZE) from hc)] at h
    cases h
    obtain ⟨ho₁, hf₁, hbn, hheld, ha⟩ := ho.bmap hsb hmap
    exact ⟨ho₁.setData hheld ha _, hf₁.trans (Frame.of_disk rfl rfl)⟩
  | case4 s tot off hge =>
    rw [Fs.writeLoop, dif_neg hge] at h
    cases h
    exact ⟨ho, Frame.refl s⟩

/-- `writei` on a locked entry keeps the invariant: it writes the entry back even when the
copy failed. -/
theorem Inv.writei (hi : Inv sb s) (hsb : sb.Sane) (hr : 0 < (s.inode i).ref)
    (hv : (s.inode i).valid = true) {src : ℕ → Option UInt8} {off n : ℕ} {r : ℤ}
    (h : writei sb s i src off n = some (r, s')) : Inv sb s' := by
  obtain rfl | ⟨tot, off', s₁, hloop, rfl⟩ := writei_cases h
  · exact hi
  obtain ⟨ho₁, -⟩ := Open.writeLoop hsb s 0 off (hi.toOpen hr hv) hloop
  -- the size grows to the last offset written, and the entry is written back
  split_ifs
  · exact (ho₁.setSize off').close
  · exact ho₁.close

/-- `writei` on a locked entry keeps the entry's references and its validity. -/
theorem writei_keeps (hi : Inv sb s) (hsb : sb.Sane) (hr : 0 < (s.inode i).ref)
    (hv : (s.inode i).valid = true) {src : ℕ → Option UInt8} {off n : ℕ} {r : ℤ}
    (h : writei sb s i src off n = some (r, s')) :
    (s'.inode i).ref = (s.inode i).ref ∧ (s'.inode i).valid = (s.inode i).valid := by
  obtain rfl | ⟨tot, off', s₁, hloop, rfl⟩ := writei_cases h
  · exact ⟨rfl, rfl⟩
  obtain ⟨-, hf⟩ := Open.writeLoop hsb s 0 off (hi.toOpen hr hv) hloop
  change Frame i s s₁ at hf
  -- neither the new size nor `iupdate` touches the entry's references
  split_ifs <;> simp [iupdate, hf.ref, hf.valid]

/-! ## Freeing: `bfree`, `itrunc`, `iput` -/

theorem Disk.ind_congr {d d' : Disk} (h : d'.data = d.data) : d'.ind = d.ind := by
  unfold Disk.ind Disk.entry
  rw [h]

/-- `bfree` of a block that a slot holds: the bitmap marks it, so there is no panic, and the
slot gives it back. Only the bitmap changes. -/
theorem bfree_release {κ : Type*} [DecidableEq κ] {own : κ → ℕ} {k : κ}
    (hacc : Accounted own s.disk.bitmap sb.nmeta sb.size) (hk : own k ≠ 0) :
    ∃ s', bfree sb s (own k) = some s' ∧ s'.inode = s.inode ∧ s'.disk.dinode = s.disk.dinode ∧
      s'.disk.data = s.disk.data ∧
      Accounted (Function.update own k 0) s'.disk.bitmap sb.nmeta sb.size :=
  ⟨_, bfree_of_used (hacc.marked k hk), rfl, rfl, rfl, hacc.release hk⟩

/-- One pass of `itrunc`'s loop over the direct blocks: `addrs[k]` is given back and cleared. -/
theorem Open.itruncAddr (ho : Open sb s i) (k : Fin NDIRECT) :
    ∃ s', itruncAddr sb i s k = some s' ∧ Open sb s' i ∧ Frame i s s' ∧
      (s'.inode i).din.addrs = Function.update (s.inode i).din.addrs k.castSucc 0 ∧
      s'.disk.data = s.disk.data := by
  by_cases h0 : (s.inode i).din.addrs k.castSucc = 0
  · refine ⟨s, by simp [Fs.itruncAddr, h0], ho, Frame.refl s, ?_, rfl⟩
    rw [← h0, Function.update_eq_self]
  have hslot : slotTable (s.view i) s.disk.ind ((s.inode i).inum, .addr k.castSucc) =
      (s.inode i).din.addrs k.castSucc := State.slotTable_view_self s i _ _
  obtain ⟨s₁, hfree, hinode, hdinode, hdata, hacc⟩ :=
    bfree_release ho.owned.accounted (hslot ▸ h0 : slotTable (s.view i) s.disk.ind _ ≠ 0)
  rw [hslot] at hfree
  -- the new copy of the inode, with slot `k` empty
  let d : Dinode := { (s.inode i).din with addrs := Function.update (s.inode i).din.addrs k.castSucc 0 }
  have hset : s₁.setAddr i k.castSucc 0 = s₁.setDin i d := by
    rw [State.setAddr, hinode]
  have hf : Frame i s (s₁.setAddr i k.castSucc 0) := by
    rw [hset]
    exact (Frame.of_disk hdinode hinode).trans (Frame.setDin d (by rw [hinode]))
  have hview : (s₁.setAddr i k.castSucc 0).view i =
      Function.update s.disk.dinode (s.inode i).inum d := by
    rw [hset, State.view_setDin, hdinode, hinode]
  refine ⟨_, by simp only [Fs.itruncAddr, if_pos h0, hfree, Option.map_some], ho.of_frame hf ⟨?_, ?_⟩,
    hf, by rw [hset]; simp [d], by rw [State.setAddr_disk, hdata]⟩
  · rw [hview, State.setAddr_disk, Disk.ind_congr hdata, slotTable_setAddr (Fin.castSucc_ne_last k) rfl]
    exact hacc
  · rw [hview]
    exact ho.free_of_type rfl

/-- `itrunc`'s loop over the direct blocks gives them all back, without a panic, and leaves the
indirect pointer. -/
theorem Open.itruncDirect (ho : Open sb s i) :
    ∃ s', itruncDirect sb s i = some s' ∧ Open sb s' i ∧ Frame i s s' ∧
      (∀ k : Fin (NDIRECT + 1), (s'.inode i).din.addrs k =
        if k = Fin.last NDIRECT then (s.inode i).din.addrs k else 0) ∧
      s'.disk.data = s.disk.data := by
  -- after `n` passes the first `n` slots are empty and the others as they were
  obtain ⟨s', hrun, ho', hf, haddrs, hdata⟩ := AtomicRun.foldlM_exists (List.finRange NDIRECT)
    (fun n t => Open sb t i ∧ Frame i s t ∧
      (∀ k : Fin (NDIRECT + 1), (t.inode i).din.addrs k = if k.val < n then 0 else (s.inode i).din.addrs k) ∧
      t.disk.data = s.disk.data)
    (fun n t hn ht => by
      obtain ⟨hot, hft, haddrs, hdata⟩ := ht
      rw [List.length_finRange] at hn
      obtain ⟨t', ht', hot', hft', haddrs', hdata'⟩ := hot.itruncAddr ⟨n, hn⟩
      refine ⟨t', by rw [List.getElem_finRange]; exact ht', hot', hft.trans hft', fun k => ?_,
        hdata'.trans hdata⟩
      rw [haddrs', Function.update_apply, haddrs k]
      by_cases hk : k = (⟨n, hn⟩ : Fin NDIRECT).castSucc
      · subst hk
        simp
      · have hkn : k.val ≠ n := fun e => hk (Fin.ext e)
        simp only [hk, if_false]
        split_ifs <;> omega)
    ⟨ho, Frame.refl s, fun k => by simp, rfl⟩
  refine ⟨s', hrun, ho', hf, fun k => ?_, hdata⟩
  rw [haddrs k, List.length_finRange]
  by_cases hk : k = Fin.last NDIRECT
  · simp [hk]
  · rw [if_neg hk, if_pos (Fin.val_lt_last hk)]

/-- The ownership table once entries `0 … n - 1` of the indirect block of inode `inum` are given
back, while the block still lists them: `itrunc` frees the entries before the block. -/
def dropEntries (own : ℕ × Slot → ℕ) (inum n : ℕ) : ℕ × Slot → ℕ
  | (m, .ind j) => if m = inum ∧ j.val < n then 0 else own (m, .ind j)
  | (m, .addr k) => own (m, .addr k)

@[simp] theorem dropEntries_addr (own : ℕ × Slot → ℕ) (inum n m : ℕ) (k : Fin (NDIRECT + 1)) :
    dropEntries own inum n (m, .addr k) = own (m, .addr k) := rfl

theorem dropEntries_zero (own : ℕ × Slot → ℕ) (inum : ℕ) : dropEntries own inum 0 = own := by
  funext ⟨m, sl⟩
  cases sl <;> simp [dropEntries]

/-- One more entry given back. -/
theorem dropEntries_succ (own : ℕ × Slot → ℕ) (inum : ℕ) {n : ℕ} (hn : n < NINDIRECT) :
    dropEntries own inum (n + 1) =
      Function.update (dropEntries own inum n) (inum, .ind ⟨n, hn⟩) 0 := by
  funext ⟨m, sl⟩
  cases sl with
  | addr k => simp
  | ind j =>
    by_cases hj : m = inum ∧ j.val = n
    · obtain ⟨rfl, hjn⟩ := hj
      have : j = ⟨n, hn⟩ := Fin.ext hjn
      subst this
      simp [dropEntries]
    · have hne : (m, Slot.ind j) ≠ (inum, .ind ⟨n, hn⟩) := fun e => by
        simp only [Prod.mk.injEq, Slot.ind.injEq, Fin.ext_iff] at e
        exact hj e
      rw [Function.update_of_ne hne]
      simp only [dropEntries]
      by_cases hm : m = inum
      · simp only [hm, true_and] at hj ⊢
        split_ifs <;> omega
      · simp [hm]

/-- Clearing the indirect pointer of inode `inum` once every entry is given back. -/
theorem slotTable_clearLast {dins : ℕ → Dinode} {ind : Indirect} {inum : ℕ} {d d' : Dinode}
    (h : d'.addrs = Function.update d.addrs (Fin.last NDIRECT) 0) :
    slotTable (Function.update dins inum d') ind =
      Function.update (dropEntries (slotTable (Function.update dins inum d) ind) inum NINDIRECT)
        (inum, .addr (Fin.last NDIRECT)) 0 := by
  funext ⟨m, sl⟩
  by_cases hm : m = inum
  · subst hm
    cases sl with
    | addr k =>
      rw [slotTable_update, if_pos rfl, Dinode.slot_addr, h, Function.update_apply,
        Function.update_apply]
      simp [slotTable_update]
    | ind j =>
      -- the pointer is cleared, and every entry was given back
      rw [slotTable_update, if_pos rfl, Dinode.slot_ind, h, Function.update_self, if_pos rfl,
        Function.update_of_ne (by simp)]
      simp [dropEntries]
  · rw [Function.update_of_ne (by simp [hm])]
    cases sl <;> simp [dropEntries, slotTable_update, hm]

/-- `itrunc`'s indirect part gives back every entry of the indirect block, then the block, and
clears the pointer, without a panic. -/
theorem Open.itruncIndirect (ho : Open sb s i) :
    ∃ s', itruncIndirect sb s i = some s' ∧ Open sb s' i ∧ Frame i s s' ∧
      (s'.inode i).din.addrs = Function.update (s.inode i).din.addrs (Fin.last NDIRECT) 0 := by
  by_cases h0 : (s.inode i).din.addrs (Fin.last NDIRECT) = 0
  · refine ⟨s, itruncIndirect_of_zero h0, ho, Frame.refl s, ?_⟩
    rw [← h0, Function.update_eq_self]
  let T := slotTable (s.view i) s.disk.ind
  let inum := (s.inode i).inum
  have hentry : ∀ n (hn : n < NINDIRECT),
      LittleEndian.get 4 (s.disk.data ((s.inode i).din.addrs (Fin.last NDIRECT))) (4 * n) =
        dropEntries T inum n (inum, .ind ⟨n, hn⟩) := fun n hn => by
    simp only [dropEntries, Nat.lt_irrefl, and_false, if_false, T, inum, State.slotTable_view_self,
      Dinode.slot_ind, if_neg h0]
    rfl
  -- after `n` passes the bitmap accounts for the table with the first `n` entries given back
  obtain ⟨t, hloop, hinode, hdinode, hdata, hacc⟩ := AtomicRun.foldlM_exists
    (f := Fs.itruncEntry sb (s.disk.data ((s.inode i).din.addrs (Fin.last NDIRECT)))) (List.range NINDIRECT)
    (fun n (t : State) => t.inode = s.inode ∧ t.disk.dinode = s.disk.dinode ∧ t.disk.data = s.disk.data ∧
      Accounted (dropEntries T inum n) t.disk.bitmap sb.nmeta sb.size)
    (fun n t hn ht => by
      obtain ⟨hinode, hdinode, hdata, hacc⟩ := ht
      rw [List.length_range] at hn
      rw [List.getElem_range]
      unfold Fs.itruncEntry
      rw [hentry n hn, dropEntries_succ T inum hn]
      by_cases he : dropEntries T inum n (inum, .ind ⟨n, hn⟩) = 0
      · -- an empty entry: nothing to free
        rw [if_neg (not_not.2 he), Function.update_eq_self_iff.2 he.symm]
        exact ⟨t, rfl, hinode, hdinode, hdata, hacc⟩
      · obtain ⟨t', hfree, hinode', hdinode', hdata', hacc'⟩ := bfree_release hacc he
        exact ⟨t', by rw [if_pos he, hfree], hinode'.trans hinode, hdinode'.trans hdinode,
          hdata'.trans hdata, hacc'⟩)
    ⟨rfl, rfl, rfl, by rw [dropEntries_zero]; exact ho.owned.accounted⟩
  rw [List.length_range] at hacc
  -- then the indirect block itself
  have hptr : dropEntries T inum NINDIRECT (inum, .addr (Fin.last NDIRECT)) ≠ 0 := by
    simp only [dropEntries_addr, T, inum, State.slotTable_view_self, Dinode.slot_addr]
    exact h0
  obtain ⟨t₂, hfree, hinode₂, hdinode₂, hdata₂, hacc₂⟩ := bfree_release hacc hptr
  simp only [dropEntries_addr, T, inum, State.slotTable_view_self, Dinode.slot_addr] at hfree
  let d : Dinode :=
    { (s.inode i).din with addrs := Function.update (s.inode i).din.addrs (Fin.last NDIRECT) 0 }
  have hset : t₂.setAddr i (Fin.last NDIRECT) 0 = t₂.setDin i d := by
    rw [State.setAddr, hinode₂, hinode]
  have hf : Frame i s (t₂.setAddr i (Fin.last NDIRECT) 0) := by
    rw [hset]
    exact (Frame.of_disk (hdinode₂.trans hdinode) (hinode₂.trans hinode)).trans
      (Frame.setDin d (by rw [hinode₂, hinode]))
  have hview : (t₂.setAddr i (Fin.last NDIRECT) 0).view i =
      Function.update s.disk.dinode (s.inode i).inum d := by
    rw [hset, State.view_setDin, hdinode₂, hdinode, hinode₂, hinode]
  refine ⟨_, ?_, ho.of_frame hf ⟨?_, ?_⟩, hf, by rw [hset]; simp [d]⟩
  · rw [itruncIndirect_of_ne_zero h0, hloop, Option.bind_some, hfree, Option.bind_some]
  · rw [hview, State.setAddr_disk, Disk.ind_congr (hdata₂.trans hdata), slotTable_clearLast rfl]
    exact hacc₂
  · rw [hview]
    exact ho.free_of_type rfl

/-- `itrunc` never reaches `panic("freeing free block")`: every block the locked entry holds is
marked in the bitmap and held by it alone. It gives them all back, sets the size to 0 and writes
the entry back. -/
theorem Inv.itrunc (hi : Inv sb s) (hr : 0 < (s.inode i).ref) (hv : (s.inode i).valid = true) :
    ∃ t, itrunc sb s i = some (iupdate sb t i) ∧ Open sb t i ∧ Frame i s t ∧
      (∀ k, (t.inode i).din.addrs k = 0) ∧ (t.inode i).din.size = 0 := by
  obtain ⟨s₁, h₁, ho₁, hf₁, haddrs₁, -⟩ := (hi.toOpen hr hv).itruncDirect
  obtain ⟨s₂, h₂, ho₂, hf₂, haddrs₂⟩ := ho₁.itruncIndirect
  refine ⟨_, by rw [itrunc_eq, h₁, Option.bind_some, h₂, Option.bind_some], ho₂.setSize 0,
    (hf₁.trans hf₂).trans (Frame.setDin _ rfl), fun k => ?_, by simp⟩
  -- the direct slots are emptied by the first loop, the pointer by the second
  simp only [State.setDin_inode, Function.update_self]
  rw [haddrs₂, Function.update_apply, haddrs₁ k]
  split_ifs <;> rfl

/-- A change of entry `i` alone keeps the invariant when the new entry, if referenced, is of
the root device, agrees with its inode on disk and has a type if valid, and holds an inode no
other referenced entry holds. -/
theorem Inv.setInode (hi : Inv sb s) {e : Inode}
    (hcoh : 0 < e.ref → e.valid = true → e.din = s.disk.dinode e.inum)
    (htyped : 0 < e.ref → e.valid = true → e.din.type ≠ none) (hdev : 0 < e.ref → e.dev = ROOTDEV)
    (huniq : 0 < e.ref → ∀ j, j ≠ i → 0 < (s.inode j).ref → (s.inode j).inum ≠ e.inum) :
    Inv sb (s.setInode i e) := by
  have hat : ∀ j, (s.setInode i e).inode j = if j = i then e else s.inode j := fun j => by
    rw [State.setInode_inode, Function.update_apply]
  refine ⟨hi.owned, fun j hj hv => ?_, fun j hj hv => ?_, fun j hj => ?_, fun j k hj hk he => ?_⟩
  · rw [hat] at hj hv ⊢
    split_ifs at hj hv ⊢
    · exact hcoh hj hv
    · exact hi.coherent j hj hv
  · rw [hat] at hj hv ⊢
    split_ifs at hj hv ⊢
    · exact htyped hj hv
    · exact hi.typed j hj hv
  · rw [hat] at hj ⊢
    split_ifs at hj ⊢
    · exact hdev hj
    · exact hi.rootdev j hj
  · rw [hat, hat] at he
    rw [hat] at hj
    rw [hat] at hk
    -- two entries with one inode: both the new one, both old ones, or a clash `huniq` rules out
    split_ifs at hj hk he with hji hki
    · exact hji.trans hki.symm
    · exact absurd he.symm (huniq hj k hki hk)
    · exact absurd he (huniq hk j hji hj)
    · exact hi.unique j k hj hk he

/-- Changing the references of an entry keeps the invariant, as long as an entry that gains
references already had some. -/
theorem Inv.setRef (hi : Inv sb s) {n : ℕ} (hn : 0 < n → 0 < (s.inode i).ref) :
    Inv sb (s.setInode i { s.inode i with ref := n }) :=
  hi.setInode (fun h hv => hi.coherent i (hn h) hv) (fun h hv => hi.typed i (hn h) hv)
    (fun h => hi.rootdev i (hn h)) (fun h j hji hj he => hji (hi.unique j i hj (hn h) he))

/-- `ilock` reads the inode into a referenced entry that is not valid, after checking it has a
type. -/
theorem Inv.ilock (hi : Inv sb s) (h : ilock s i = some s') : Inv sb s' := by
  obtain ⟨hr, ⟨-, rfl⟩ | ⟨htype, rfl⟩⟩ := ilock_cases h
  · exact hi
  · exact hi.setInode (fun _ _ => rfl) (fun _ _ => htype) (fun _ => hi.rootdev i hr)
      (fun _ j hji hj he => hji (hi.unique j i hj hr he))

/-- `iget` of an inode of the root device: one more reference to the entry that holds it, or a
free entry recycled, not yet valid, when no entry does. -/
theorem Inv.iget (hi : Inv sb s) {inum : ℕ} {k : Fin NINODE} (h : iget s ROOTDEV inum = some (k, s')) :
    Inv sb s' := by
  rcases iget_cases h with ⟨hr, -, -, rfl⟩ | ⟨hnone, -, rfl⟩
  · exact hi.setRef fun _ => hr
  · exact hi.setInode (fun _ hv => (Bool.false_ne_true hv).elim) (fun _ hv => (Bool.false_ne_true hv).elim)
      (fun _ => rfl) (fun _ j _ hj => hnone j hj (hi.rootdev j hj))

/-- `ialloc` on the root device: the inode it takes has no type, so it holds no block and no
valid entry holds it; writing it zeroed with a type changes no slot. -/
theorem Inv.ialloc (hi : Inv sb s) {type : FileType} {k : Fin NINODE}
    (h : ialloc sb s ROOTDEV type = some (k, s')) : Inv sb s' := by
  obtain ⟨inum, hnone, hget⟩ := ialloc_cases h
  refine Inv.iget ?_ hget
  have hdisk : ((s.setDinode inum { Dinode.zero with type := some type }).logWrite (IBLOCK inum sb)).disk.dinode =
      Function.update s.disk.dinode inum { Dinode.zero with type := some type } := rfl
  refine ⟨?_, fun j hj hv => ?_, hi.typed, hi.rootdev, hi.unique⟩
  · refine hi.owned.congr ?_ rfl fun n hn => ?_
    · -- the zeroed inode holds no block, as the free inode did not
      rw [hdisk, slotTable_congr (d := s.disk.dinode inum)
        (funext fun m => (hi.owned.free inum hnone m).symm), Function.update_eq_self]
      rfl
    · rw [hdisk] at hn ⊢
      by_cases he : n = inum
      · subst he
        simp at hn
      · rw [Function.update_of_ne he] at hn ⊢
        exact hi.owned.free n hn
  · -- a valid entry holds a typed inode, so not the free one
    have hne : (s.inode j).inum ≠ inum := fun he =>
      hi.typed j hj hv (by rw [hi.coherent j hj hv, he]; exact hnone)
    show (s.inode j).din = Function.update s.disk.dinode inum _ (s.inode j).inum
    rw [Function.update_of_ne hne]
    exact hi.coherent j hj hv

/-- `balloc` hands out a block that no slot of any inode holds. -/
theorem Inv.balloc_fresh (hi : Inv sb s) (hsb : sb.Sane) {b : ℕ} (h : balloc sb s = some (b, s')) :
    ∀ p, slotTable s.disk.dinode s.disk.ind p ≠ b :=
  hi.owned.accounted.ne_of_free hsb.nmeta_pos (balloc_spec h).free

/-- `ip->type = 0; iupdate(ip); ip->valid = 0;` on a referenced, valid entry that holds no
block: the inode is free on disk and holds nothing, and the entry no longer claims its data. -/
theorem Inv.freeInode (hi : Inv sb s) (hr : 0 < (s.inode i).ref) (hv : (s.inode i).valid = true)
    (hz : ∀ k, (s.inode i).din.addrs k = 0) :
    let u := iupdate sb (s.setDin i { (s.inode i).din with type := none }) i
    Inv sb (u.setInode i { u.inode i with valid := false }) := by
  intro u
  have hdin : (s.inode i).din = s.disk.dinode (s.inode i).inum := hi.coherent i hr hv
  have hdisk : (u.setInode i { u.inode i with valid := false }).disk.dinode =
      Function.update s.disk.dinode (s.inode i).inum { (s.inode i).din with type := none } := by
    simp [u, iupdate, State.setDin]
  have hinode : (u.setInode i { u.inode i with valid := false }).inode =
      Function.update s.inode i
        { s.inode i with valid := false, din := { (s.inode i).din with type := none } } := by
    simp [u, iupdate, State.setDin]
  -- another referenced entry holds another inode, which the write leaves alone
  have hother : ∀ j, j ≠ i → 0 < (s.inode j).ref → (s.inode j).inum ≠ (s.inode i).inum :=
    fun j hji hj he => hji (hi.unique j i hj hr he)
  refine ⟨⟨?_, fun n hn k => ?_⟩, fun j hj hvj => ?_, fun j hj hvj => ?_, fun j hj => ?_,
    fun j k hj hk he => ?_⟩
  · -- the inode holds the same blocks, none
    have hslots : slotTable (Function.update s.disk.dinode (s.inode i).inum
        { (s.inode i).din with type := none }) s.disk.ind = slotTable s.disk.dinode s.disk.ind := by
      rw [slotTable_congr (d := s.disk.dinode (s.inode i).inum) (by rw [← hdin]),
        Function.update_eq_self]
    rw [hdisk, show (u.setInode i { u.inode i with valid := false }).disk.ind = s.disk.ind from rfl,
      hslots, show (u.setInode i { u.inode i with valid := false }).disk.bitmap = s.disk.bitmap from rfl]
    exact hi.owned.accounted
  · rw [hdisk] at hn ⊢
    by_cases he : n = (s.inode i).inum
    · subst he
      rw [Function.update_self]
      exact hz k
    · rw [Function.update_of_ne he] at hn ⊢
      exact hi.owned.free n hn k
  · -- the entry itself is no longer valid
    have hji : j ≠ i := fun e => by subst e; simp at hvj
    rw [hinode, Function.update_of_ne hji] at hj hvj ⊢
    rw [hdisk, Function.update_of_ne (hother j hji hj)]
    exact hi.coherent j hj hvj
  · have hji : j ≠ i := fun e => by subst e; simp at hvj
    rw [hinode, Function.update_of_ne hji] at hj hvj ⊢
    exact hi.typed j hj hvj
  · rw [hinode] at hj ⊢
    by_cases hji : j = i
    · subst hji
      rw [Function.update_self]
      exact hi.rootdev j hr
    · rw [Function.update_of_ne hji] at hj ⊢
      exact hi.rootdev j hj
  · -- references and inode numbers are as they were
    have hkeep : ∀ m, 0 < ((u.setInode i { u.inode i with valid := false }).inode m).ref →
        0 < (s.inode m).ref ∧ ((u.setInode i { u.inode i with valid := false }).inode m).inum =
          (s.inode m).inum := by
      intro m hm
      rw [hinode] at hm ⊢
      by_cases hmi : m = i
      · subst hmi
        rw [Function.update_self] at hm ⊢
        exact ⟨hm, rfl⟩
      · rw [Function.update_of_ne hmi] at hm ⊢
        exact ⟨hm, rfl⟩
    obtain ⟨hj', ej⟩ := hkeep j hj
    obtain ⟨hk', ek⟩ := hkeep k hk
    exact hi.unique j k hj' hk' (by rw [← ej, ← ek, he])

/-- `iput` keeps the invariant and never panics: the last reference to a valid inode without
links truncates it, which frees its blocks, and frees the inode. -/
theorem Inv.iput (hi : Inv sb s) (hr : 0 < (s.inode i).ref) :
    ∃ s', iput sb s i = some s' ∧ Inv sb s' := by
  by_cases hfree : (s.inode i).ref = 1 ∧ (s.inode i).valid = true ∧ (s.inode i).din.nlink = 0
  · obtain ⟨t, htr, ho, hf, hz, -⟩ := hi.itrunc hr hfree.2.1
    rw [iput_of_free hfree, htr, Option.map_some]
    refine ⟨_, rfl, ?_⟩
    have hit : Inv sb (iupdate sb t i) := ho.close
    have hfreed := hit.freeInode (hf.ref ▸ hr : 0 < ((iupdate sb t i).inode i).ref)
      (hf.valid ▸ hfree.2.1 : ((iupdate sb t i).inode i).valid = true) hz
    exact hfreed.setRef fun _ => by simpa [iupdate, State.setDin, hf.ref] using hr
  · rw [iput_of_not_free hfree]
    exact ⟨_, rfl, hi.setRef fun h => by omega⟩

/-! ## Runs of calls -/

/-- The calls that give blocks to inodes or take them back, with the inode-table calls around
them, all on the root device. The caller of `idup`, `ilock` or `iput` holds a reference to the
entry, and the caller of `writei` holds its lock, so that the entry is valid. -/
inductive InodeCall
  | ialloc (type : FileType)
  | iget (inum : ℕ)
  | idup (i : Fin NINODE)
  | ilock (i : Fin NINODE)
  | writei (i : Fin NINODE) (src : ℕ → Option UInt8) (off n : ℕ)
  | iput (i : Fin NINODE)

/-- One call: `none` for a panic, or for a call its caller could not make. -/
def State.step (sb : Superblock) (s : State) : InodeCall → Option State
  | .ialloc type => (ialloc sb s ROOTDEV type).map Prod.snd
  | .iget inum => (iget s ROOTDEV inum).map Prod.snd
  | .idup i => if 0 < (s.inode i).ref then some (idup s i) else none
  | .ilock i => ilock s i
  | .writei i src off n =>
    if 0 < (s.inode i).ref ∧ (s.inode i).valid = true then (writei sb s i src off n).map Prod.snd
    else none
  | .iput i => if 0 < (s.inode i).ref then iput sb s i else none

/-- The calls in order, up to the first that fails. -/
def State.run (sb : Superblock) (s : State) (cs : List InodeCall) : Option State :=
  cs.foldlM (State.step sb) s

/-- Every call keeps the invariant. -/
theorem Inv.step (hsb : sb.Sane) (hi : Inv sb s) {c : InodeCall} (h : s.step sb c = some s') :
    Inv sb s' := by
  cases c with
  | ialloc type =>
    obtain ⟨⟨k, t⟩, hk, rfl⟩ := Option.map_eq_some_iff.mp h
    exact hi.ialloc hk
  | iget inum =>
    obtain ⟨⟨k, t⟩, hk, rfl⟩ := Option.map_eq_some_iff.mp h
    exact hi.iget hk
  | idup i =>
    simp only [State.step] at h
    split_ifs at h with hr
    cases h
    exact hi.setRef fun _ => hr
  | ilock i => exact hi.ilock h
  | writei i src off n =>
    simp only [State.step] at h
    split_ifs at h with hrv
    obtain ⟨⟨r, t⟩, hw, rfl⟩ := Option.map_eq_some_iff.mp h
    exact hi.writei hsb hrv.1 hrv.2 hw
  | iput i =>
    simp only [State.step] at h
    split_ifs at h with hr
    obtain ⟨t, ht, hinv⟩ := hi.iput hr
    rw [ht] at h
    cases h
    exact hinv

/-- Every run of calls keeps the invariant: at its end, and so after each of its calls, every
block an inode holds is a marked data block that no other slot holds, and every marked data
block is held. -/
theorem Inv.run (hsb : sb.Sane) (hi : Inv sb s) {cs : List InodeCall} (h : s.run sb cs = some s') :
    Inv sb s' :=
  AtomicRun.foldlM_induction cs (fun _ t => Inv sb t) (fun _ _ _ _ ht hstep => ht.step hsb hstep) hi h

end Fs

end Xv6
