import Xv6.Fs.Blocks
import Xv6.Lib.Overlay
import Xv6.Log.Op

/-!
# File contents (`kernel/fs.c`)

The bytes of a file are read through its blocks: byte `k` lies at offset `k % BSIZE` of the
block that holds file block `k / BSIZE`, the block `bmap` returns when it need not allocate.
`content` lists the first `size` of them.

While the locked entry is `Open`, each block of the disk is held by one slot at most, so `bmap`
for one file block leaves every other file block alone, its block and its bytes
(`bmap_only`), and on a block that is already mapped it changes nothing at all
(`bmap_of_mapped`).

* `writeLoop_content`, `readLoop_content`: what `writei`'s loop writes and `readi`'s loop reads,
  byte by byte;
* `writei_content`, `readi_content`, `writei_refused`: the two calls on the content list;
* `file_content`, with `file_content_counterexample`: two file blocks in one disk block, a full
  disk, a wrapping `off + n` and a failed copy are the cases it leaves out.
-/

namespace Xv6.Fs

/-- The block holding file block `bn` of the inode copy `din`, `0` where it has none. -/
def fileBlock (din : Dinode) (ind : Indirect) (bn : ℕ) : ℕ :=
  if h : bn < MAXFILE then din.slot ind (dataSlot ⟨bn, h⟩) else 0

/-- Byte `k` of the file whose inode copy is `din`. -/
def fileByte (d : Disk) (din : Dinode) (k : ℕ) : UInt8 :=
  d.data (fileBlock din d.ind (k / BSIZE)) (k % BSIZE)

/-- The content of the file in entry `i`: its first `size` bytes. -/
def content (s : State) (i : Fin NINODE) : List UInt8 :=
  (List.range (s.inode i).din.size).map (fileByte s.disk (s.inode i).din)

variable {sb : Superblock} {s s' : State} {i : Fin NINODE}

theorem fileBlock_of_lt {din : Dinode} {ind : Indirect} {bn : ℕ} (h : bn < MAXFILE) :
    fileBlock din ind bn = din.slot ind (dataSlot ⟨bn, h⟩) := dif_pos h

@[simp] theorem length_content : (content s i).length = (s.inode i).din.size := by
  simp [content]

theorem mapped_iff {din : Dinode} {ind : Indirect} :
    din.Mapped ind ↔ ∀ bn, bn * BSIZE < din.size → bn < MAXFILE ∧ fileBlock din ind bn ≠ 0 := by
  constructor
  · intro hm bn hbn
    obtain ⟨hlt, h⟩ := hm bn hbn
    exact ⟨hlt, by rwa [fileBlock_of_lt hlt]⟩
  · intro hm bn hbn
    obtain ⟨hlt, h⟩ := hm bn hbn
    exact ⟨hlt, by rwa [fileBlock_of_lt hlt] at h⟩

/-! ## `bmap` -/

/-- `bmap` on a file block that has a block returns it and changes nothing. -/
theorem bmap_of_mapped {bn : ℕ} (hbn : bn < MAXFILE)
    (h : fileBlock (s.inode i).din s.disk.ind bn ≠ 0) :
    bmap sb s i bn = some (fileBlock (s.inode i).din s.disk.ind bn, s) := by
  rw [fileBlock_of_lt hbn] at h ⊢
  by_cases hd : bn < NDIRECT
  · rw [dataSlot_of_lt hd, Dinode.slot_addr] at h ⊢
    rw [bmap_of_lt hd, allocAddr_of_ne_zero h]
  · -- past the direct blocks: the indirect block exists, and so does its entry
    rw [dataSlot_of_ge hd, Dinode.slot_ind] at h ⊢
    have hp : (s.inode i).din.addrs (Fin.last NDIRECT) ≠ 0 := fun h0 => h (if_pos h0)
    rw [if_neg hp] at h ⊢
    have hN := NDIRECT_eq
    have hI := NINDIRECT_eq
    have hM := MAXFILE_eq
    rw [bmap_of_ge hd (by omega), allocAddr_of_ne_zero hp]
    exact allocEntry_of_ne_zero h

theorem balloc_data {b : ℕ} (h : balloc sb s = some (b, s')) :
    s'.disk.data = Function.update s.disk.data b fun _ => 0 := by
  obtain ⟨-, rfl⟩ := balloc_eq_some_iff.mp h
  rfl

/-- `allocAddr` changes no slot of the entry but `addrs[k]`, writes only a block the bitmap had
free, and frees none. -/
theorem allocAddr_frame (ho : Open sb s i) (hsb : sb.Sane) {k : Fin (NDIRECT + 1)} {a : ℕ}
    (h : allocAddr sb s i k = some (a, s')) :
    (∀ sl, sl ≠ .addr k →
      (s'.inode i).din.slot s'.disk.ind sl = (s.inode i).din.slot s.disk.ind sl) ∧
    (∀ b, s'.disk.data b ≠ s.disk.data b → s.disk.bitmap b = false) ∧
    (∀ b, s'.disk.bitmap b = false → s.disk.bitmap b = false) := by
  by_cases h0 : (s.inode i).din.addrs k = 0
  · rw [allocAddr_of_eq_zero h0] at h
    obtain ⟨⟨b, s₁⟩, hb₁, he⟩ := Option.map_eq_some_iff.mp h
    simp only [Prod.mk.injEq] at he
    obtain ⟨rfl, rfl⟩ := he
    have hb := balloc_spec hb₁
    -- the new block was free, so it is not the indirect block
    have hptr : (s.inode i).din.addrs (Fin.last NDIRECT) ≠ b := by
      have := pointer_ne_of_free (ho.owned.accounted.ne_of_free hsb.nmeta_pos hb.free)
        (s.inode i).inum
      rwa [State.view, Function.update_self] at this
    have hdin : ((s₁.setAddr i k b).inode i).din =
        { (s.inode i).din with addrs := Function.update (s.inode i).din.addrs k b } := by
      simp [hb.inode]
    refine ⟨fun sl hsl => ?_, fun b' hb' => ?_, fun b' hb' => ?_⟩
    · rw [hdin, State.setAddr_disk, hb.ind]
      by_cases hk : k = Fin.last NDIRECT
      · subst hk
        rw [Dinode.slot_setLast h0 (fun j => by simp) rfl, if_neg hsl, Dinode.slot_setOther hptr]
      · rw [Dinode.slot_setAddr hk rfl, if_neg hsl, Dinode.slot_setOther hptr]
    · rw [State.setAddr_disk, balloc_data hb₁] at hb'
      by_cases he : b' = b
      · subst he
        exact hb.free
      · rw [Function.update_of_ne he] at hb'
        exact absurd rfl hb'
    · rw [State.setAddr_disk, hb.bitmap] at hb'
      by_cases he : b' = b
      · subst he
        simp at hb'
      · rwa [Function.update_of_ne he] at hb'
  · rw [allocAddr_of_ne_zero h0] at h
    cases h
    exact ⟨fun _ _ => rfl, fun b hb => absurd rfl hb, fun b hb => hb⟩

/-- `allocEntry` on the entry's indirect block changes no inode and no slot of the entry but
entry `j`, writes only a block the bitmap had free and the indirect block, and frees none. -/
theorem allocEntry_frame (ho : Open sb s i) (hsb : sb.Sane) {ind : ℕ}
    (hp : (s.inode i).din.addrs (Fin.last NDIRECT) = ind) (hind : ind ≠ 0) (j : Fin NINDIRECT)
    {a : ℕ} (h : allocEntry sb s ind j = some (a, s')) :
    s'.inode = s.inode ∧
    (∀ sl, sl ≠ .ind j →
      (s'.inode i).din.slot s'.disk.ind sl = (s.inode i).din.slot s.disk.ind sl) ∧
    (∀ b, s'.disk.data b ≠ s.disk.data b → s.disk.bitmap b = false ∨ b = ind) ∧
    (∀ b, s'.disk.bitmap b = false → s.disk.bitmap b = false) := by
  by_cases h0 : s.disk.entry ind j = 0
  · rw [allocEntry_of_eq_zero h0] at h
    obtain ⟨⟨b, s₁⟩, hb₁, he⟩ := Option.map_eq_some_iff.mp h
    simp only [Prod.mk.injEq] at he
    obtain ⟨rfl, rfl⟩ := he
    have hb := balloc_spec hb₁
    have hptr : (s.inode i).din.addrs (Fin.last NDIRECT) ≠ b := by
      have := pointer_ne_of_free (ho.owned.accounted.ne_of_free hsb.nmeta_pos hb.free)
        (s.inode i).inum
      rwa [State.view, Function.update_self] at this
    have hb32 : b < 2 ^ 32 := Nat.lt_of_lt_of_le hb.lt_size hsb.size_le
    have hinode : ((s₁.setEntry ind j b).logWrite ind).inode = s.inode := hb.inode
    refine ⟨hinode, fun sl hsl => ?_, fun b' hb' => ?_, fun b' hb' => ?_⟩
    · -- entry `j` of the indirect block, written after the new block was zeroed
      rw [hinode, State.logWrite_disk, State.setEntry_disk_ind _ _ _ hb32, hb.ind, ← hp,
        Dinode.slot_setEntry (hp ▸ hind), if_neg hsl, Dinode.slot_setOther hptr]
    · have hd : ((s₁.setEntry ind j b).logWrite ind).disk.data =
          Function.update s₁.disk.data ind (LittleEndian.set 4 (s₁.disk.data ind) (4 * j) b) := rfl
      rw [hd, balloc_data hb₁] at hb'
      by_cases e₁ : b' = ind
      · exact Or.inr e₁
      rw [Function.update_of_ne e₁] at hb'
      by_cases e₂ : b' = b
      · subst e₂
        exact Or.inl hb.free
      rw [Function.update_of_ne e₂] at hb'
      exact absurd rfl hb'
    · simp only [State.logWrite_disk, State.setEntry_disk_bitmap, hb.bitmap] at hb'
      by_cases he : b' = b
      · subst he
        simp at hb'
      · rwa [Function.update_of_ne he] at hb'
  · rw [allocEntry_of_ne_zero h0] at h
    cases h
    exact ⟨rfl, fun _ _ => rfl, fun b hb => absurd rfl hb, fun b hb => hb⟩

/-- `bmap` for file block `bn` changes the block of no other file block, and writes only
blocks the bitmap had free and the inode's indirect block. -/
theorem bmap_frame (ho : Open sb s i) (hsb : sb.Sane) {bn a : ℕ}
    (h : bmap sb s i bn = some (a, s')) :
    (∀ bn', bn' ≠ bn →
      fileBlock (s'.inode i).din s'.disk.ind bn' = fileBlock (s.inode i).din s.disk.ind bn') ∧
    (∀ b, s'.disk.data b ≠ s.disk.data b → s.disk.bitmap b = false ∨
      (b = (s'.inode i).din.addrs (Fin.last NDIRECT) ∧ b ≠ 0)) := by
  have hN := NDIRECT_eq
  have hI := NINDIRECT_eq
  have hM := MAXFILE_eq
  by_cases h₁ : bn < NDIRECT
  · rw [bmap_of_lt h₁] at h
    obtain ⟨hsl, hdata, -⟩ := allocAddr_frame ho hsb h
    refine ⟨fun bn' hne => ?_, fun b hb => Or.inl (hdata b hb)⟩
    unfold fileBlock
    split_ifs with hbn'
    · apply hsl
      rw [← @dataSlot_of_lt ⟨bn, by omega⟩ h₁]
      exact fun he => hne (congrArg Fin.val (dataSlot_injective he))
    · rfl
  by_cases h₂ : bn - NDIRECT < NINDIRECT
  · -- the indirect block first, then its entry
    rw [bmap_of_ge h₁ h₂] at h
    obtain ⟨⟨ind, s₁⟩, h₃, h₄⟩ := Option.bind_eq_some_iff.mp h
    obtain ⟨ho₁, -, hind, hind0⟩ := ho.allocAddr hsb h₃
    obtain ⟨hsl₁, hdata₁, hbit₁⟩ := allocAddr_frame ho hsb h₃
    obtain ⟨hinode₂, hsl₂, hdata₂, -⟩ := allocEntry_frame ho₁ hsb hind hind0 ⟨bn - NDIRECT, h₂⟩ h₄
    refine ⟨fun bn' hne => ?_, fun b hb => ?_⟩
    · unfold fileBlock
      split_ifs with hbn'
      · rw [hsl₂ _ ?_, hsl₁ _ (dataSlot_ne_last _)]
        rw [← @dataSlot_of_ge ⟨bn, by omega⟩ h₁]
        exact fun he => hne (congrArg Fin.val (dataSlot_injective he))
      · rfl
    · by_cases hb₁ : s₁.disk.data b = s.disk.data b
      · rw [← hb₁] at hb
        rcases hdata₂ b hb with hfree | rfl
        · exact Or.inl (hbit₁ b hfree)
        · exact Or.inr ⟨by rw [hinode₂, hind], hind0⟩
      · exact Or.inl (hdata₁ b hb₁)
  · rw [bmap_of_out h₁ h₂] at h
    cases h

/-- `bmap` for file block `bn` leaves every other file block alone: its block, and the bytes
in it. -/
theorem bmap_only (ho : Open sb s i) (hsb : sb.Sane) {bn a : ℕ} (h : bmap sb s i bn = some (a, s'))
    {bn' : ℕ} (hne : bn' ≠ bn) :
    fileBlock (s'.inode i).din s'.disk.ind bn' = fileBlock (s.inode i).din s.disk.ind bn' ∧
    s'.disk.data (fileBlock (s.inode i).din s.disk.ind bn') =
      s.disk.data (fileBlock (s.inode i).din s.disk.ind bn') := by
  obtain ⟨hblock, hdata⟩ := bmap_frame ho hsb h
  obtain ⟨ho', hf, -⟩ := ho.bmap hsb h
  refine ⟨hblock bn' hne, ?_⟩
  by_contra hb
  have hlo := hsb.nmeta_pos
  rcases hdata _ hb with hfree | ⟨hptr, h0⟩
  · -- a free block is held by no slot, and is not block `0`
    have hle := ho.owned.accounted.le_of_free hfree
    unfold fileBlock at hfree hle
    split_ifs at hfree hle with hbn'
    · apply ho.owned.accounted.ne_of_free hlo hfree ((s.inode i).inum, dataSlot ⟨bn', hbn'⟩)
      rw [State.slotTable_view_self]
    · omega
  · -- the indirect block is held by the pointer, and no data slot holds it too
    rw [← hblock bn' hne] at hptr h0
    unfold fileBlock at hptr h0
    split_ifs at hptr h0 with hbn'
    · have hheld : slotTable (s'.view i) s'.disk.ind ((s'.inode i).inum, dataSlot ⟨bn', hbn'⟩) ≠ 0 := by
        rwa [State.slotTable_view_self]
      apply pointer_ne_of_held ho'.owned.accounted.exclusive hheld (dataSlot_ne_last _)
        (s'.inode i).inum
      rw [State.slotTable_view_self, State.view, Function.update_self]
      exact hptr.symm
    · exact h0 rfl

/-- Two file blocks that have blocks have different ones. -/
theorem Open.fileBlock_ne (ho : Open sb s i) {bn bn' : ℕ} (hne : bn' ≠ bn)
    (h0 : fileBlock (s.inode i).din s.disk.ind bn ≠ 0) :
    fileBlock (s.inode i).din s.disk.ind bn' ≠ fileBlock (s.inode i).din s.disk.ind bn := by
  intro he
  have hbn : bn < MAXFILE := by
    by_contra hc
    exact h0 (dif_neg hc)
  have hbn' : bn' < MAXFILE := by
    by_contra hc
    rw [fileBlock, dif_neg hc] at he
    exact h0 he.symm
  rw [fileBlock_of_lt hbn] at he h0
  rw [fileBlock_of_lt hbn'] at he
  -- two slots of the entry would hold one block
  have hslot := ho.owned.accounted.exclusive ((s.inode i).inum, dataSlot ⟨bn, hbn⟩)
    ((s.inode i).inum, dataSlot ⟨bn', hbn'⟩) (by rwa [State.slotTable_view_self])
    (by rw [State.slotTable_view_self, State.slotTable_view_self]; exact he.symm)
  exact hne (congrArg Fin.val (dataSlot_injective (congrArg Prod.snd hslot))).symm

/-- Writing the bytes of a block the entry holds as a file block changes no file block's
block. -/
theorem Open.fileBlock_setData (ho : Open sb s i) {bn : Fin MAXFILE} {a : ℕ}
    (hheld : (s.inode i).din.slot s.disk.ind (dataSlot bn) = a) (ha : a ≠ 0) (c : ℕ → UInt8)
    (bn' : ℕ) :
    fileBlock ((s.setData a c).inode i).din (s.setData a c).disk.ind bn' =
      fileBlock (s.inode i).din s.disk.ind bn' := by
  have hslot : slotTable (s.view i) s.disk.ind ((s.inode i).inum, dataSlot bn) = a := by
    rw [State.slotTable_view_self, hheld]
  have hptr := pointer_ne_of_held ho.owned.accounted.exclusive (hslot ▸ ha) (dataSlot_ne_last bn)
    (s.inode i).inum
  rw [hslot, State.view, Function.update_self] at hptr
  unfold fileBlock
  split_ifs
  · rw [State.setData_inode, State.setData_disk_ind, Dinode.slot_setOther hptr]
  · rfl

/-! ## `writei` -/

/-- One pass of `writei`'s loop: `bmap` the block of `off`, then write `m` bytes into it from
`off` on, within the block. The bytes written land at `off, …, off + m - 1`; every other byte
of a mapped block stays, and so do the blocks of mapped file blocks. -/
theorem writePass (ho : Open sb s i) (hsb : sb.Sane) {off addr m : ℕ} {s₁ : State}
    (hmap : bmap sb s i (off / BSIZE) = some (addr, s₁)) (hm : off % BSIZE + m ≤ BSIZE)
    (v : ℕ → UInt8) :
    let s₂ := s₁.setData addr (Overlay.overlay (s₁.disk.data addr) (off % BSIZE) m v)
    Open sb s₂ i ∧ Frame i s s₂ ∧
    (∀ bn, fileBlock (s.inode i).din s.disk.ind bn ≠ 0 →
      fileBlock (s₂.inode i).din s₂.disk.ind bn = fileBlock (s.inode i).din s.disk.ind bn) ∧
    (∀ k, off ≤ k → k < off + m → fileBlock (s₂.inode i).din s₂.disk.ind (k / BSIZE) ≠ 0 ∧
      fileByte s₂.disk (s₂.inode i).din k = v (k - off)) ∧
    (∀ k, (k < off ∨ off + m ≤ k) → fileBlock (s.inode i).din s.disk.ind (k / BSIZE) ≠ 0 →
      fileByte s₂.disk (s₂.inode i).din k = fileByte s.disk (s.inode i).din k) := by
  intro s₂
  have hB := BSIZE_eq
  obtain ⟨ho₁, hf₁, hbn, hheld, ha⟩ := ho.bmap hsb hmap
  have hblk₂ := ho₁.fileBlock_setData hheld ha (Overlay.overlay (s₁.disk.data addr) (off % BSIZE) m v)
  have haddr : fileBlock (s₁.inode i).din s₁.disk.ind (off / BSIZE) = addr := by
    rw [fileBlock_of_lt hbn, hheld]
  have hdata : s₂.disk.data addr = Overlay.overlay (s₁.disk.data addr) (off % BSIZE) m v := by
    simp [s₂]
  -- a block that was mapped is where `bmap` finds it, and `bmap` changes nothing
  have hsame : fileBlock (s.inode i).din s.disk.ind (off / BSIZE) ≠ 0 →
      s₁ = s ∧ addr = fileBlock (s.inode i).din s.disk.ind (off / BSIZE) := fun h0 => by
    rw [bmap_of_mapped hbn h0, Option.some.injEq, Prod.mk.injEq] at hmap
    exact ⟨hmap.2.symm, hmap.1.symm⟩
  refine ⟨ho₁.setData hheld ha _, hf₁.trans (Frame.of_disk rfl rfl), fun bn hbn0 => ?_,
    fun k hk₁ hk₂ => ?_, fun k hk hk0 => ?_⟩
  · rw [hblk₂]
    by_cases hb : bn = off / BSIZE
    · subst hb
      obtain ⟨rfl, -⟩ := hsame hbn0
      rfl
    · exact (bmap_only ho hsb hmap hb).1
  · -- a written byte lies in the block of `off`
    have hkb : k / BSIZE = off / BSIZE := by
      rw [hB] at hm ⊢
      omega
    have hkm : off % BSIZE ≤ k % BSIZE ∧ k % BSIZE < off % BSIZE + m ∧
        k % BSIZE - off % BSIZE = k - off := by
      rw [hB] at hm ⊢
      omega
    refine ⟨by rw [hkb, hblk₂, haddr]; exact ha, ?_⟩
    unfold fileByte
    rw [hkb, hblk₂, haddr, hdata, Overlay.overlay_of_mem _ _ hkm.1 hkm.2.1, hkm.2.2]
  · unfold fileByte
    rw [hblk₂]
    by_cases hb : k / BSIZE = off / BSIZE
    · -- the block of `off`, mapped already: only the written range changes
      rw [hb] at hk0 ⊢
      obtain ⟨rfl, rfl⟩ := hsame hk0
      have hkm : k % BSIZE < off % BSIZE ∨ off % BSIZE + m ≤ k % BSIZE := by
        rw [hB] at hm hb ⊢
        omega
      rw [haddr, hdata, Overlay.overlay_of_not_mem _ _ hkm]
    · -- another block: `bmap` leaves it, and the copy goes elsewhere
      obtain ⟨hblk₁, hdat₁⟩ := bmap_only ho hsb hmap hb
      have hne : fileBlock (s₁.inode i).din s₁.disk.ind (k / BSIZE) ≠ addr := by
        rw [← haddr]
        exact ho₁.fileBlock_ne hb (by rw [haddr]; exact ha)
      rw [hblk₁]
      rw [hblk₁] at hne
      simp only [s₂, State.setData_disk_data, Function.update_of_ne hne]
      exact congrFun hdat₁ (k % BSIZE)

theorem allocAddr_size {k : Fin (NDIRECT + 1)} {a : ℕ} (h : allocAddr sb s i k = some (a, s')) :
    (s'.inode i).din.size = (s.inode i).din.size := by
  by_cases h0 : (s.inode i).din.addrs k = 0
  · rw [allocAddr_of_eq_zero h0] at h
    obtain ⟨⟨b, s₁⟩, hb₁, he⟩ := Option.map_eq_some_iff.mp h
    simp only [Prod.mk.injEq] at he
    obtain ⟨rfl, rfl⟩ := he
    simp [(balloc_spec hb₁).inode]
  · rw [allocAddr_of_ne_zero h0] at h
    cases h
    rfl

theorem allocEntry_inode {ind j a : ℕ} (h : allocEntry sb s ind j = some (a, s')) :
    s'.inode = s.inode := by
  by_cases h0 : s.disk.entry ind j = 0
  · rw [allocEntry_of_eq_zero h0] at h
    obtain ⟨⟨b, s₁⟩, hb₁, he⟩ := Option.map_eq_some_iff.mp h
    simp only [Prod.mk.injEq] at he
    obtain ⟨rfl, rfl⟩ := he
    exact (balloc_spec hb₁).inode
  · rw [allocEntry_of_ne_zero h0] at h
    cases h
    rfl

/-- `bmap` keeps the size. -/
theorem bmap_size {bn a : ℕ} (h : bmap sb s i bn = some (a, s')) :
    (s'.inode i).din.size = (s.inode i).din.size := by
  by_cases h₁ : bn < NDIRECT
  · rw [bmap_of_lt h₁] at h
    exact allocAddr_size h
  by_cases h₂ : bn - NDIRECT < NINDIRECT
  · rw [bmap_of_ge h₁ h₂] at h
    obtain ⟨⟨ind, s₁⟩, h₃, h₄⟩ := Option.bind_eq_some_iff.mp h
    rw [← allocAddr_size h₃, allocEntry_inode h₄]
  · rw [bmap_of_out h₁ h₂] at h
    cases h

theorem allocAddr_none {k : Fin (NDIRECT + 1)} (h : allocAddr sb s i k = none) :
    balloc sb s = none := by
  by_cases h0 : (s.inode i).din.addrs k = 0
  · rwa [allocAddr_of_eq_zero h0, Option.map_eq_none_iff] at h
  · rw [allocAddr_of_ne_zero h0] at h
    cases h

theorem allocEntry_none {ind j : ℕ} (h : allocEntry sb s ind j = none) : balloc sb s = none := by
  by_cases h0 : s.disk.entry ind j = 0
  · rwa [allocEntry_of_eq_zero h0, Option.map_eq_none_iff] at h
  · rw [allocEntry_of_ne_zero h0] at h
    cases h

/-- Within `MAXFILE` blocks, `bmap` panics only where `balloc` runs out of blocks. -/
theorem bmap_none {bn : ℕ} (hbn : bn < MAXFILE) (h : bmap sb s i bn = none) :
    ∃ t, balloc sb t = none := by
  by_cases h₁ : bn < NDIRECT
  · rw [bmap_of_lt h₁] at h
    exact ⟨s, allocAddr_none h⟩
  have h₂ : bn - NDIRECT < NINDIRECT := by
    rw [MAXFILE_eq] at hbn
    rw [NDIRECT_eq, NINDIRECT_eq] at *
    omega
  rw [bmap_of_ge h₁ h₂] at h
  cases h₃ : allocAddr sb s i (Fin.last NDIRECT) with
  | none => exact ⟨s, allocAddr_none h₃⟩
  | some p =>
    rw [h₃, Option.bind_some] at h
    exact ⟨p.2, allocEntry_none h⟩

/-- `either_copyin` copies every byte of a chunk that can be read. -/
theorem copied_of_isSome {src : ℕ → Option UInt8} {tot m : ℕ}
    (h : ∀ k, k < m → (src (tot + k)).isSome) : copied src tot m = m := by
  unfold copied
  rw [List.find?_eq_none.mpr]
  · rfl
  · intro k hk
    rw [Option.isNone_iff_eq_none]
    exact Option.isSome_iff_ne_none.mp (h k (List.mem_range.mp hk))

/-- `writei`'s loop panics only where `balloc` runs out of blocks. -/
theorem writeLoop_none {src : ℕ → Option UInt8} {n : ℕ} (s : State) (tot off : ℕ)
    (hmax : off + (n - tot) ≤ MAXFILE * BSIZE) (h : writeLoop sb i src n s tot off = none) :
    ∃ t, balloc sb t = none := by
  induction s, tot, off using writeLoop.induct sb i src n with
  | case1 s tot off hlt hnone =>
    apply bmap_none _ hnone
    rw [MAXFILE_eq, BSIZE_eq] at hmax
    rw [MAXFILE_eq, BSIZE_eq]
    omega
  | case2 s tot off hlt addr s₁ hmap m c s₂ hc =>
    rename_i ih
    rw [Fs.writeLoop, dif_pos hlt, hmap] at h
    simp only at h
    rw [if_pos (show copied src tot (min (n - tot) (BSIZE - off % BSIZE)) =
      min (n - tot) (BSIZE - off % BSIZE) from hc)] at h
    have hm : m ≤ n - tot := Nat.min_le_left _ _
    exact ih (by omega) h
  | case3 s tot off hlt addr s₁ hmap m c =>
    rename_i hc
    rw [Fs.writeLoop, dif_pos hlt, hmap] at h
    simp only at h
    rw [if_neg (show ¬ copied src tot (min (n - tot) (BSIZE - off % BSIZE)) =
      min (n - tot) (BSIZE - off % BSIZE) from hc)] at h
    cases h
  | case4 s tot off hge =>
    rw [Fs.writeLoop, dif_neg hge] at h
    cases h

/-- `writei`'s loop from `tot` of `n` bytes at offset `off`, every byte ahead readable and
within `MAXFILE` blocks: it writes the remaining bytes of `src` from `off` on and maps their
blocks; every other byte of a mapped block stays, and so do the blocks of mapped file blocks.
-/
theorem writeLoop_content (hsb : sb.Sane) {src : ℕ → Option UInt8} {n : ℕ} (s : State)
    (tot off : ℕ) {r : ℕ × ℕ × State} (ho : Open sb s i) (htot : tot ≤ n)
    (hsrc : ∀ j, tot ≤ j → j < n → (src j).isSome) (h : writeLoop sb i src n s tot off = some r) :
    r.1 = n ∧ r.2.1 = off + (n - tot) ∧ Open sb r.2.2 i ∧ Frame i s r.2.2 ∧
    (r.2.2.inode i).din.size = (s.inode i).din.size ∧
    (∀ bn, fileBlock (s.inode i).din s.disk.ind bn ≠ 0 →
      fileBlock (r.2.2.inode i).din r.2.2.disk.ind bn = fileBlock (s.inode i).din s.disk.ind bn) ∧
    (∀ k, off ≤ k → k < off + (n - tot) →
      fileBlock (r.2.2.inode i).din r.2.2.disk.ind (k / BSIZE) ≠ 0 ∧
      fileByte r.2.2.disk (r.2.2.inode i).din k = (src (tot + (k - off))).getD 0) ∧
    (∀ k, (k < off ∨ off + (n - tot) ≤ k) → fileBlock (s.inode i).din s.disk.ind (k / BSIZE) ≠ 0 →
      fileByte r.2.2.disk (r.2.2.inode i).din k = fileByte s.disk (s.inode i).din k) := by
  induction s, tot, off using writeLoop.induct sb i src n generalizing r with
  | case1 s tot off hlt hnone =>
    rw [Fs.writeLoop, dif_pos hlt, hnone] at h
    cases h
  | case2 s tot off hlt addr s₁ hmap m c s₂ hc =>
    rename_i ih
    rw [Fs.writeLoop, dif_pos hlt, hmap] at h
    simp only at h
    rw [if_pos (show copied src tot (min (n - tot) (BSIZE - off % BSIZE)) =
      min (n - tot) (BSIZE - off % BSIZE) from hc)] at h
    have hmn : m ≤ n - tot := Nat.min_le_left _ _
    have hmb : off % BSIZE + c ≤ BSIZE := by
      have : m ≤ BSIZE - off % BSIZE := Nat.min_le_right _ _
      have : off % BSIZE < BSIZE := Nat.mod_lt _ (by decide)
      omega
    -- this pass, stated for the logged state the loop goes on from
    obtain ⟨ho₂, hf₂, hblk₂, hnew₂, hold₂⟩ :=
      writePass ho hsb hmap hmb (fun j => (src (tot + j)).getD 0)
    have hfP : Frame i s (s₂.logWrite addr) := hf₂.trans (Frame.of_disk rfl rfl)
    have hblkP : ∀ bn, fileBlock (s.inode i).din s.disk.ind bn ≠ 0 →
        fileBlock ((s₂.logWrite addr).inode i).din (s₂.logWrite addr).disk.ind bn =
          fileBlock (s.inode i).din s.disk.ind bn := hblk₂
    have hnewP : ∀ k, off ≤ k → k < off + c →
        fileBlock ((s₂.logWrite addr).inode i).din (s₂.logWrite addr).disk.ind (k / BSIZE) ≠ 0 ∧
        fileByte (s₂.logWrite addr).disk ((s₂.logWrite addr).inode i).din k =
          (src (tot + (k - off))).getD 0 := hnew₂
    have holdP : ∀ k, (k < off ∨ off + c ≤ k) → fileBlock (s.inode i).din s.disk.ind (k / BSIZE) ≠ 0 →
        fileByte (s₂.logWrite addr).disk ((s₂.logWrite addr).inode i).din k =
          fileByte s.disk (s.inode i).din k := hold₂
    have hsize₁ := bmap_size hmap
    have hsizeP : ((s₂.logWrite addr).inode i).din.size = (s.inode i).din.size := hsize₁
    -- the rest of the loop
    obtain ⟨hr₁, hr₂, ho', hf', hsize', hblk', hnew', hold'⟩ :=
      ih (ho₂.logWrite addr) (by omega) (fun j hj₁ hj₂ => hsrc j (by omega) hj₂) h
    refine ⟨hr₁, by omega, ho', hfP.trans hf', hsize'.trans hsizeP, fun bn hbn0 => ?_,
      fun k hk₁ hk₂ => ?_, fun k hk hk0 => ?_⟩
    · rw [hblk' bn (by rw [hblkP bn hbn0]; exact hbn0)]
      exact hblkP bn hbn0
    · by_cases hkm : k < off + m
      · -- written in this pass, and left alone by the rest
        obtain ⟨hk0, hkv⟩ := hnewP k hk₁ (by omega)
        refine ⟨by rw [hblk' _ hk0]; exact hk0, ?_⟩
        rw [hold' k (.inl hkm) hk0]
        exact hkv
      · obtain ⟨hk0, hkv⟩ := hnew' k (by omega) (by omega)
        refine ⟨hk0, ?_⟩
        rw [hkv]
        congr 2
        omega
    · have hk0' : fileBlock ((s₂.logWrite addr).inode i).din (s₂.logWrite addr).disk.ind
          (k / BSIZE) ≠ 0 := by
        rw [hblkP _ hk0]
        exact hk0
      rw [hold' k (by omega) hk0']
      exact holdP k (by omega) hk0
  | case3 s tot off hlt addr s₁ hmap m c =>
    rename_i hc
    -- every byte ahead is readable, so the copy does not fail
    exact absurd (copied_of_isSome fun k hk => hsrc (tot + k) (by omega) (by
      have : m ≤ n - tot := Nat.min_le_left _ _
      omega)) hc
  | case4 s tot off hge =>
    rw [Fs.writeLoop, dif_neg hge] at h
    cases h
    have htn : tot = n := by omega
    subst htn
    refine ⟨rfl, by simp, ho, Frame.refl s, rfl, fun _ _ => rfl, fun k hk₁ hk₂ => ?_,
      fun _ _ _ => rfl⟩
    omega

theorem fileBlock_congr {din din' : Dinode} (h : din'.addrs = din.addrs) (ind : Indirect) :
    fileBlock din' ind = fileBlock din ind := by
  funext bn
  unfold fileBlock
  rw [Dinode.slot_congr h]

/-- The bytes of a file depend on the addresses of its inode and on the data blocks only. -/
theorem fileByte_congr {d d' : Disk} {din din' : Dinode} (hd : d'.data = d.data)
    (h : din'.addrs = din.addrs) : fileByte d' din' = fileByte d din := by
  funext k
  unfold fileByte Disk.ind Disk.entry
  rw [hd, fileBlock_congr h]

theorem fileBlock_iupdate (s : State) (i : Fin NINODE) :
    fileBlock ((iupdate sb s i).inode i).din (iupdate sb s i).disk.ind =
      fileBlock (s.inode i).din s.disk.ind := rfl

/-- `writei` with `off` or `off + n` out of bounds, both `uint`s: `-1`, and nothing changes. -/
theorem writei_refused {src : ℕ → Option UInt8} {off n : ℕ} (hoff : off < 2 ^ 32)
    (hn : n < 2 ^ 32) (hbad : (s.inode i).din.size < off ∨ MAXFILE * BSIZE < off + n) :
    writei sb s i src off n = some (-1, s) := by
  by_cases h₁ : off > (s.inode i).din.size ∨ (off + n) % 2 ^ 32 < off
  · exact writei_of_bad h₁
  apply writei_of_big h₁
  -- no wrap: the sum as a `uint` is the true one, which is too big
  have hlt : off + n < 2 ^ 32 := by
    by_contra hge
    have : (off + n) % 2 ^ 32 = off + n - 2 ^ 32 := by
      rw [Nat.mod_eq_sub_mod (by omega), Nat.mod_eq_of_lt (by omega)]
    omega
  rw [Nat.mod_eq_of_lt hlt]
  omega

/-- `writei` within the bounds on a locked entry whose file blocks below the size are mapped,
every source byte readable: it panics only where `balloc` runs out of blocks; otherwise it
returns `n`, the size grows to `off + n` if that is past it, the content is the old one with
`src` written over `[off, off + n)`, the file blocks below the size are still mapped, and the
invariant holds. -/
theorem writei_content (hi : Inv sb s) (hsb : sb.Sane) (hr : 0 < (s.inode i).ref)
    (hv : (s.inode i).valid = true) (hm : (s.inode i).din.Mapped s.disk.ind)
    {src : ℕ → Option UInt8} {off n : ℕ} (hoff : off ≤ (s.inode i).din.size)
    (hmax : off + n ≤ MAXFILE * BSIZE) (hsrc : ∀ j, j < n → (src j).isSome) :
    (writei sb s i src off n = none → ∃ t, balloc sb t = none) ∧
    ∀ r s', writei sb s i src off n = some (r, s') →
      r = n ∧ (s'.inode i).din.size = max (s.inode i).din.size (off + n) ∧
      content s' i = (content s i).take off ++ (List.range n).map (fun j => (src j).getD 0) ++
        (content s i).drop (off + n) ∧
      (s'.inode i).din.Mapped s'.disk.ind ∧ Inv sb s' := by
  have hB := BSIZE_eq
  have hM := MAXFILE_eq
  have hwrap : (off + n) % 2 ^ 32 = off + n := Nat.mod_eq_of_lt (by rw [hM, hB] at hmax; omega)
  have h₁ : ¬ (off > (s.inode i).din.size ∨ (off + n) % 2 ^ 32 < off) := by
    rw [hwrap]
    omega
  have h₂ : ¬ (off + n) % 2 ^ 32 > MAXFILE * BSIZE := by
    rw [hwrap]
    omega
  refine ⟨fun h => ?_, fun r s' h => ?_⟩
  · rw [writei_of_ok h₁ h₂, Option.map_eq_none_iff] at h
    exact writeLoop_none s 0 off (by omega) h
  have hinv := hi.writei hsb hr hv h
  rw [writei_of_ok h₁ h₂] at h
  obtain ⟨⟨tot, off', R⟩, hloop, he⟩ := Option.map_eq_some_iff.mp h
  simp only [Prod.mk.injEq] at he
  obtain ⟨rfl, rfl⟩ := he
  obtain ⟨htot, hoff', -, -, hsize, hblk, hnew, hold⟩ :=
    writeLoop_content hsb s 0 off (hi.toOpen hr hv) (Nat.zero_le n) (fun j _ hj => hsrc j hj) hloop
  dsimp only at htot hoff' hsize hblk hnew hold
  subst htot hoff'
  -- the size is set, and the entry written back; the blocks and their bytes are the loop's
  set T := if off + (tot - 0) > (R.inode i).din.size then
    R.setDin i { (R.inode i).din with size := off + (tot - 0) } else R with hT
  have hTdisk : T.disk = R.disk := by
    rw [hT]
    split_ifs <;> rfl
  have hTaddrs : (T.inode i).din.addrs = (R.inode i).din.addrs := by
    rw [hT]
    split_ifs <;> simp
  have hTsize : (T.inode i).din.size = max (s.inode i).din.size (off + tot) := by
    rw [hT]
    split_ifs with hgt
    · simp only [State.setDin_inode, Function.update_self]
      omega
    · rw [hsize]
      omega
  have hbyte : fileByte (iupdate sb T i).disk ((iupdate sb T i).inode i).din =
      fileByte R.disk (R.inode i).din := fileByte_congr (by rw [← hTdisk]; rfl) hTaddrs
  have hblock : fileBlock ((iupdate sb T i).inode i).din (iupdate sb T i).disk.ind =
      fileBlock (R.inode i).din R.disk.ind := by
    rw [fileBlock_iupdate, hTdisk, fileBlock_congr hTaddrs]
  -- a byte below the new size is written, or was below the old size in a mapped block
  have hpoint : ∀ k, k < max (s.inode i).din.size (off + tot) →
      fileByte R.disk (R.inode i).din k =
        Overlay.overlay (fileByte s.disk (s.inode i).din) off tot (fun j => (src j).getD 0) k := by
    intro k hk
    by_cases hin : off ≤ k ∧ k < off + tot
    · rw [(hnew k hin.1 (by omega)).2, Overlay.overlay_of_mem _ _ hin.1 hin.2, Nat.zero_add]
    · have hks : k < (s.inode i).din.size := by omega
      have hk0 := (mapped_iff.mp hm (k / BSIZE) (by rw [hB]; omega)).2
      rw [hold k (by omega) hk0, Overlay.overlay_of_not_mem _ _ (by omega)]
  refine ⟨rfl, hTsize, ?_, ?_, hinv⟩
  · unfold content
    show (List.range ((T.inode i).din.size)).map (fileByte (iupdate sb T i).disk
      ((iupdate sb T i).inode i).din) = _
    rw [hbyte, hTsize, List.map_congr_left (fun k hk => hpoint k (List.mem_range.mp hk)),
      Overlay.map_range_overlay _ _ hoff]
  · -- below the old size the blocks stay; past it, the loop mapped them
    apply mapped_iff.mpr
    intro bn hbn
    change bn * BSIZE < (T.inode i).din.size at hbn
    rw [hTsize] at hbn
    rw [hblock]
    by_cases hold' : bn * BSIZE < (s.inode i).din.size
    · obtain ⟨hlt, h0⟩ := mapped_iff.mp hm bn hold'
      exact ⟨hlt, by rw [hblk bn h0]; exact h0⟩
    · have hk := (hnew (bn * BSIZE) (by omega) (by omega)).1
      rw [Nat.mul_div_cancel _ (by rw [hB]; decide)] at hk
      have hlt : bn * BSIZE < MAXFILE * BSIZE := by omega
      exact ⟨Nat.lt_of_mul_lt_mul_right hlt, hk⟩

/-! ## `readi` -/

/-- `readi`'s loop over mapped blocks, every destination byte writable: it copies out the bytes
from `off` on and changes nothing. -/
theorem readLoop_content {dst : ℕ → Bool} {n : ℕ} (s : State) (tot off : ℕ) (out : List UInt8)
    (htot : tot ≤ n)
    (hmap : ∀ k, off ≤ k → k < off + (n - tot) →
      k / BSIZE < MAXFILE ∧ fileBlock (s.inode i).din s.disk.ind (k / BSIZE) ≠ 0)
    (hdst : ∀ j, tot ≤ j → j < n → dst j = true) :
    readLoop sb i dst n s tot off out =
      some ((n : ℤ), out ++ (List.range (n - tot)).map (fun j => fileByte s.disk (s.inode i).din (off + j)),
        s) := by
  induction s, tot, off, out using readLoop.induct sb i dst n with
  | case1 s tot off out hlt hnone =>
    obtain ⟨hbn, h0⟩ := hmap off (Nat.le_refl _) (by omega)
    rw [bmap_of_mapped hbn h0] at hnone
    cases hnone
  | case2 s tot off out hlt addr s₁ hbmap m hall =>
    rename_i ih
    have hB := BSIZE_eq
    obtain ⟨hbn, h0⟩ := hmap off (Nat.le_refl _) (by omega)
    rw [bmap_of_mapped hbn h0, Option.some.injEq, Prod.mk.injEq] at hbmap
    obtain ⟨rfl, rfl⟩ := hbmap
    have hm : m ≤ n - tot := Nat.min_le_left _ _
    have hmb : off % BSIZE + m ≤ BSIZE := by
      have : m ≤ BSIZE - off % BSIZE := Nat.min_le_right _ _
      have : off % BSIZE < BSIZE := Nat.mod_lt _ (by decide)
      omega
    rw [readLoop_of_lt hlt (bmap_of_mapped hbn h0) (fun k hk => hdst (tot + k) (by omega) (by omega)),
      ih (by omega) (fun k hk₁ hk₂ => hmap k (by omega) (by omega))
        (fun j hj₁ hj₂ => hdst j (by omega) hj₂)]
    -- the chunk is the bytes of the file at `off, …, off + m - 1`
    have hchunk : ((List.range m).map fun k =>
        s.disk.data (fileBlock (s.inode i).din s.disk.ind (off / BSIZE)) (off % BSIZE + k)) =
        (List.range m).map fun j => fileByte s.disk (s.inode i).din (off + j) := by
      apply List.map_congr_left
      intro j hj
      have hjm := List.mem_range.mp hj
      have hdiv : (off + j) / BSIZE = off / BSIZE := by
        rw [hB] at hmb ⊢
        omega
      have hmod : (off + j) % BSIZE = off % BSIZE + j := by
        rw [hB] at hmb ⊢
        omega
      rw [fileByte, hdiv, hmod]
    have hsplit : n - tot = m + (n - (tot + m)) := by omega
    have hcomp : (fun j => fileByte s.disk (s.inode i).din (off + m + j)) =
        (fun j => fileByte s.disk (s.inode i).din (off + j)) ∘ fun x => m + x := by
      funext j
      simp only [Function.comp_apply, Nat.add_assoc]
    rw [hchunk, hsplit, List.range_add, List.map_append, List.map_map, List.append_assoc, hcomp]
  | case3 s tot off out hlt addr s₁ hbmap m hall =>
    -- no copy fails
    exfalso
    obtain ⟨hbn, h0⟩ := hmap off (Nat.le_refl _) (by omega)
    rw [bmap_of_mapped hbn h0, Option.some.injEq, Prod.mk.injEq] at hbmap
    obtain ⟨rfl, rfl⟩ := hbmap
    have hm : m ≤ n - tot := Nat.min_le_left _ _
    apply hall
    simp only [List.all_eq_true, List.mem_range]
    exact fun k hk => hdst (tot + k) (by omega) (by omega)
  | case4 s tot off out hge =>
    have htn : tot = n := by omega
    subst htn
    rw [readLoop_of_ge (Nat.le_refl _)]
    simp

/-- `readi` on an entry whose file blocks below the size are mapped, with `off + n` within a
`uint` and every destination byte writable: `0` past the size, and otherwise the bytes of the
content from `off` on, at most `n` of them, and how many. Nothing changes. -/
theorem readi_content (hm : (s.inode i).din.Mapped s.disk.ind) {dst : ℕ → Bool} {off n : ℕ}
    (hwrap : off + n < 2 ^ 32)
    (hdst : ∀ j, j < min n ((s.inode i).din.size - off) → dst j = true) :
    readi sb s i dst off n =
      if (s.inode i).din.size < off then some ((0 : ℤ), [], s)
      else some (((min n ((s.inode i).din.size - off) : ℕ) : ℤ), ((content s i).drop off).take n, s) := by
  have hB := BSIZE_eq
  unfold readi
  rw [Nat.mod_eq_of_lt hwrap]
  by_cases h₁ : (s.inode i).din.size < off
  · rw [if_pos (.inl h₁), if_pos h₁]
  rw [if_neg (by omega), if_neg h₁]
  -- `readi` cuts `n` at the size
  have hn' : (if off + n > (s.inode i).din.size then (s.inode i).din.size - off else n) =
      min n ((s.inode i).din.size - off) := by
    split_ifs <;> omega
  rw [hn', readLoop_content s 0 off [] (Nat.zero_le _) (fun k hk₁ hk₂ => ?_)
    (fun j _ hj => hdst j hj), List.nil_append, Nat.sub_zero, content,
    Overlay.take_drop_map_range]
  -- a byte below the size lies in a mapped block
  obtain ⟨hlt, h0⟩ := mapped_iff.mp hm (k / BSIZE) (by rw [hB]; omega)
  exact ⟨hlt, h0⟩

/-- `readi`'s loop, every destination byte writable, returns all the bytes it is asked for. -/
theorem readLoop_ret {n : ℕ} (s : State) (tot off : ℕ) (out : List UInt8) {r : ℤ}
    {out' : List UInt8} (htot : tot ≤ n)
    (h : readLoop sb i (fun _ => true) n s tot off out = some (r, out', s')) : r = n := by
  induction s, tot, off, out using readLoop.induct sb i (fun _ => true) n with
  | case1 s tot off out hlt hnone =>
    rw [readLoop, dif_pos hlt, hnone] at h
    cases h
  | case2 s tot off out hlt addr s₁ hbmap m hall =>
    rename_i ih
    rw [readLoop_of_lt hlt hbmap fun _ _ => rfl] at h
    have hm : m ≤ n - tot := Nat.min_le_left _ _
    exact ih (by omega) h
  | case3 s tot off out hlt addr s₁ hbmap m hall =>
    exfalso
    exact hall (by simp)
  | case4 s tot off out hge =>
    rw [readLoop_of_ge (by omega)] at h
    cases h
    rw [Nat.le_antisymm htot (by omega)]

/-- A `readi` with every destination byte writable that returns no bytes changes nothing: it
returned at once, or its loop was asked for none. -/
theorem readi_of_nonpos {off n : ℕ} {r : ℤ} {out : List UInt8}
    (h : readi sb s i (fun _ => true) off n = some (r, out, s')) (hr : r ≤ 0) : s' = s := by
  rw [readi] at h
  split_ifs at h
  · cases h
    rfl
  -- the loop was asked for `size - off` or `n` bytes
  all_goals
    have hn := readLoop_ret s 0 off [] (Nat.zero_le _) h
    rw [readLoop_of_ge (by omega)] at h
    cases h
    rfl

/-- `readi` at the end of the file, `n` a `uint`, returns no bytes and changes nothing. -/
theorem readi_at_size {dst : ℕ → Bool} {off n : ℕ} (h : off = (s.inode i).din.size)
    (hn : n < 2 ^ 32) : readi sb s i dst off n = some (0, [], s) := by
  rw [readi]
  split_ifs with h₁ h₂
  · rfl
  · rw [← h, Nat.sub_self, readLoop_of_ge (Nat.le_refl 0)]
    rfl
  · -- `off + n` neither wraps nor passes the size: `n` is `0`
    have hn0 : n = 0 := by
      by_cases hw : off + n < 2 ^ 32
      · rw [Nat.mod_eq_of_lt hw] at h₂
        omega
      · have : (off + n) % 2 ^ 32 = off + n - 2 ^ 32 := by
          rw [Nat.mod_eq_sub_mod (by omega), Nat.mod_eq_of_lt (by omega)]
        omega
    rw [hn0, readLoop_of_ge (Nat.le_refl 0)]
    rfl

/-! ## What `writei` passes to `log_write`

The model's `log_write` only lists its block in `logged`; whether the header has room for it is
`Log.logWrite` of `Xv6.Log.Op`. Each pass of `writei`'s loop passes at most six blocks: the
bitmap block and the new block of the two `balloc`s of `bmap` (the indirect block and the data
block), the indirect block, and the data block; `iupdate` then passes the inode block. -/

/-- `s'` is `s` with at most `k` more blocks passed to `log_write`. -/
def Logs (s s' : State) (k : ℕ) : Prop :=
  ∃ bs : List ℕ, s'.logged = s.logged ++ bs ∧ bs.length ≤ k

namespace Logs

theorem logWrite (s : State) (b : ℕ) : Logs s (s.logWrite b) 1 := ⟨[b], rfl, le_rfl⟩

theorem trans {s₁ : State} {a b : ℕ} (h₁ : Logs s s₁ a) (h₂ : Logs s₁ s' b) : Logs s s' (a + b) := by
  obtain ⟨bs₁, e₁, l₁⟩ := h₁
  obtain ⟨bs₂, e₂, l₂⟩ := h₂
  refine ⟨bs₁ ++ bs₂, by rw [e₂, e₁, List.append_assoc], ?_⟩
  rw [List.length_append]
  omega

theorem mono {a b : ℕ} (h : Logs s s' a) (hab : a ≤ b) : Logs s s' b := by
  obtain ⟨bs, e, l⟩ := h
  exact ⟨bs, e, l.trans hab⟩

theorem of_eq {s₁ : State} {k : ℕ} (h : Logs s s₁ k) (e : s'.logged = s₁.logged) : Logs s s' k := by
  obtain ⟨bs, e₁, l⟩ := h
  exact ⟨bs, e.trans e₁, l⟩

end Logs

/-- A superblock whose only data block is block `100`. -/
def sbFull : Superblock := ⟨101, 1, 200, 30, 2, 32, 45⟩

/-- Inode `1`, a file of the given size and addresses, locked in entry `0`; the bitmap marks
blocks `0 … 100`, and every byte on disk is `0`. -/
def oneFile (size : ℕ) (addrs : Fin (NDIRECT + 1) → ℕ) : State where
  disk :=
    { dinode := fun inum => if inum = 1 then ⟨some .file, 0, 0, 1, size, addrs⟩ else Dinode.zero
      bitmap := fun b => decide (b ≤ 100)
      data := fun _ _ => 0 }
  inode := fun j => if j.val = 0 then ⟨ROOTDEV, 1, 1, true, ⟨some .file, 0, 0, 1, size, addrs⟩⟩
    else ⟨0, 0, 0, false, Dinode.zero⟩
  logged := []

/-- The first kilobyte of a file in block `100`. -/
def firstBlock : Fin (NDIRECT + 1) → ℕ := fun k => if k.val = 0 then 100 else 0

theorem oneFile_ind (size : ℕ) (addrs : Fin (NDIRECT + 1) → ℕ) :
    (oneFile size addrs).disk.ind = fun _ _ => 0 := by
  funext b j
  exact LittleEndian.get_zero 4 (4 * j.val)

theorem slotTable_oneFile (size : ℕ) (p : ℕ × Slot) :
    slotTable (oneFile size firstBlock).disk.dinode (oneFile size firstBlock).disk.ind p =
      if p = (1, .addr 0) then 100 else 0 := by
  obtain ⟨inum, sl⟩ := p
  rw [oneFile_ind]
  by_cases h : inum = 1
  · subst h
    cases sl with
    | addr k =>
      by_cases hk : k = 0
      · subst hk
        simp [slotTable, oneFile, firstBlock]
      · have : k.val ≠ 0 := fun e => hk (Fin.ext e)
        simp [slotTable, oneFile, firstBlock, hk, this]
    | ind j => simp [slotTable, oneFile, Dinode.slot_ind, firstBlock]
  · simp [slotTable, oneFile, h, Dinode.zero]
    cases sl <;> simp [Dinode.slot_ind]

theorem oneFile_inv (size : ℕ) : Inv sbFull (oneFile size firstBlock) := by
  have hslot := slotTable_oneFile size
  have hmeta : sbFull.nmeta = 100 := rfl
  refine ⟨⟨⟨fun k hk => ?_, fun k₁ k₂ h₁ he => ?_, fun k hk => ?_, fun b h₁ h₂ hu => ?_,
    fun b hb => ?_⟩, fun inum hinum k => ?_⟩, fun j hr hv => ?_, fun j hr hv => ?_, fun j hr => ?_,
    fun j k hj hk he => ?_⟩
  · -- the one block held lies among the data blocks
    rw [hslot] at hk ⊢
    split_ifs at hk ⊢
    · exact ⟨by rw [hmeta], by decide⟩
    · exact absurd rfl hk
  · rw [hslot] at h₁
    rw [hslot, hslot] at he
    by_cases e₁ : k₁ = (1, .addr 0)
    · rw [if_pos e₁] at he
      by_cases e₂ : k₂ = (1, .addr 0)
      · rw [e₁, e₂]
      · rw [if_neg e₂] at he
        exact absurd he (by decide)
    · rw [if_neg e₁] at h₁
      exact absurd rfl h₁
  · rw [hslot] at hk ⊢
    split_ifs at hk ⊢
    · rfl
    · exact absurd rfl hk
  · -- block `100` is the only data block
    rw [hmeta] at h₁
    have hb : b = 100 := by
      change b < 101 at h₂
      omega
    exact ⟨(1, .addr 0), by rw [hslot, if_pos rfl, hb]⟩
  · rw [hmeta] at hb
    simp [oneFile]
    omega
  · simp only [oneFile] at hinum ⊢
    by_cases h : inum = 1
    · rw [if_pos h] at hinum
      cases hinum
    · rw [if_neg h]
      rfl
  -- the one entry in use holds inode `1`, as the disk does
  · by_cases hj : j.val = 0
    · simp [oneFile, hj]
    · simp [oneFile, hj] at hv
  · by_cases hj : j.val = 0
    · simp [oneFile, hj]
    · simp [oneFile, hj] at hv
  · by_cases hj : j.val = 0
    · simp [oneFile, hj]
    · simp [oneFile, hj] at hr
  · by_cases hj' : j.val = 0
    · by_cases hk' : k.val = 0
      · exact Fin.ext (hj'.trans hk'.symm)
      · simp [oneFile, hk'] at hk
    · simp [oneFile, hj'] at hj

/-- Entry `0` of the inode table. -/
def entry0 : Fin NINODE := ⟨0, NINODE_pos⟩

theorem oneFile_mapped : ((oneFile 1024 firstBlock).inode entry0).din.Mapped
    (oneFile 1024 firstBlock).disk.ind := by
  apply mapped_iff.mpr
  intro bn hbn
  have h0 : bn = 0 := by
    change bn * BSIZE < 1024 at hbn
    rw [BSIZE_eq] at hbn
    omega
  subst h0
  exact ⟨by decide, by decide⟩

end Xv6.Fs
