import Xv6.Fs.Inode
import Xv6.Mkfs

/-!
# The inode table and the disk

Between system calls the kernel expects every referenced, valid entry of the inode table to
hold what its inode on disk holds (`Coherent`): each change to a cached inode is followed by
`iupdate`. `readi` never calls `iupdate`, yet its `bmap` allocates a block for a file block
below the size that has none.

* `readi_root_incoherent`: on the image `mkfs` writes for `62 (mod 64)` files, whose root
  directory has such a block, reading the root at the end of its entries leaves the cached
  root with an address its inode on disk does not have.
-/

namespace Xv6.Fs

/-- Every referenced entry of the inode table that holds valid data agrees with its inode on
disk. -/
def Coherent (s : State) : Prop :=
  ∀ i, 0 < (s.inode i).ref → (s.inode i).valid = true →
    (s.inode i).din = s.disk.dinode (s.inode i).inum

theorem readi_root_incoherent (files : List (List ℕ)) (out : Mkfs.Image)
    (hmk : Mkfs.mkfs files = some out) (hlen : files.length % 64 = 62)
    (hn : files.length + 2 ≤ Mkfs.NINODES) (hfb : out.freeblock < FSSIZE)
    (s : State) (hdinode : s.disk.dinode = out.dinode) (hbitmap : s.disk.bitmap = out.bitmap)
    (i : Fin NINODE) (hroot : (s.inode i).inum = ROOTINO) (href : 0 < (s.inode i).ref)
    (hvalid : (s.inode i).valid = true) (hco : Coherent s) :
    ∃ bytes s', readi Mkfs.sb s i (fun _ => true) (DIRENT_SIZE * (files.length + 2)) DIRENT_SIZE =
      some ((DIRENT_SIZE : ℤ), bytes, s') ∧ ¬ Coherent s' := by
  have hf := Mkfs.mkfs_formatted hmk
  -- the cached root is the image's root
  have hdin : (s.inode i).din = out.dinode ROOTINO := by
    rw [hco i href hvalid, hroot, hdinode]
  -- the entries end on a block boundary `bn * BSIZE`, with `bn` a direct block
  obtain ⟨bn, hend, hbn⟩ : ∃ bn, DIRENT_SIZE * (files.length + 2) = bn * BSIZE ∧ bn < NDIRECT := by
    refine ⟨(files.length + 2) / 64, ?_, ?_⟩
    · rw [BSIZE_eq, show DIRENT_SIZE = 16 from rfl]
      omega
    · rw [NDIRECT_eq]
      have : Mkfs.NINODES = 200 := rfl
      omega
  have hpos : 0 < BSIZE := by decide
  -- the root holds no block for file block `bn`, and its size was rounded up past it
  have hhole : (out.dinode ROOTINO).addrs ⟨bn, by omega⟩ = 0 := by
    have hblk := hf.root_blocks ⟨bn, by rw [MAXFILE_eq]; rw [NDIRECT_eq] at hbn; omega⟩
    rw [dataSlot_of_lt hbn, hend] at hblk
    simpa [Mkfs.Image.owner] using hblk.not.mpr (Nat.lt_irrefl _)
  have hsize : (out.dinode ROOTINO).size = bn * BSIZE + BSIZE := by
    rw [hf.root_size, hend, Nat.mul_div_cancel _ hpos, Nat.succ_mul]
  -- `balloc` hands out `freeblock`, the first block the bitmap leaves free
  have hballoc : balloc Mkfs.sb s = some (out.freeblock,
      bzero ((s.setBit out.freeblock true).logWrite (BBLOCK out.freeblock Mkfs.sb)) out.freeblock) := by
    refine balloc_eq_some_iff.mpr ⟨⟨hfb, ?_, fun j hj => ?_⟩, rfl⟩
    · rw [hbitmap]
      simpa using (hf.bitmap_iff out.freeblock).not.mpr (Nat.lt_irrefl _)
    · rw [hbitmap]
      exact (hf.bitmap_iff j).mpr hj
  -- the one pass of `readi`: `bmap` allocates `freeblock` into the cached root
  obtain ⟨s', hs'⟩ : ∃ s', s' = (bzero ((s.setBit out.freeblock true).logWrite
      (BBLOCK out.freeblock Mkfs.sb)) out.freeblock).setAddr i ⟨bn, by omega⟩ out.freeblock :=
    ⟨_, rfl⟩
  have hmap : bmap Mkfs.sb s i (bn * BSIZE / BSIZE) = some (out.freeblock, s') := by
    rw [Nat.mul_div_cancel _ hpos, bmap_of_lt hbn, allocAddr_of_eq_zero (by rw [hdin]; exact hhole),
      hballoc, hs']
    rfl
  have hm : min (DIRENT_SIZE - 0) (BSIZE - bn * BSIZE % BSIZE) = DIRENT_SIZE := by
    rw [Nat.mul_mod_left]
    decide
  refine ⟨?bytes, s', ?read, ?incoherent⟩
  case read =>
    rw [hend]
    have hlt : bn * BSIZE + DIRENT_SIZE < 2 ^ 32 := by
      rw [BSIZE_eq, show DIRENT_SIZE = 16 from rfl]
      rw [NDIRECT_eq] at hbn
      omega
    have hD : DIRENT_SIZE < BSIZE := by decide
    unfold readi
    rw [hdin, hsize, Nat.mod_eq_of_lt hlt, if_neg (by omega), if_neg (by omega),
      readLoop_of_lt (by decide) hmap (fun _ _ => rfl), hm, readLoop_of_ge (by omega), Nat.zero_add]
  case incoherent =>
    intro hco'
    -- the cached root now holds `freeblock` for file block `bn`; its inode on disk holds `0`
    have hentry : s'.inode i = { s.inode i with din := { (s.inode i).din with
        addrs := Function.update (s.inode i).din.addrs ⟨bn, by omega⟩ out.freeblock } } := by
      simp [hs']
    have hdisk : s'.disk.dinode = s.disk.dinode := by simp [hs']
    have heq := congrArg (fun d : Dinode => d.addrs ⟨bn, by omega⟩)
      (hco' i (by rw [hentry]; exact href) (by rw [hentry]; exact hvalid))
    simp only [hentry, hdisk, hroot, hdinode, Function.update_self, hhole] at heq
    have := Nat.lt_of_lt_of_le Mkfs.nmeta_pos hf.owned.meta_le
    omega

theorem readi_root_incoherent_sixty_two :
    ∃ (out : Mkfs.Image) (s : State), Mkfs.mkfs (List.replicate 62 []) = some out ∧ Coherent s ∧
      ∃ bytes s', readi Mkfs.sb s ⟨0, by decide⟩ (fun _ => true) (DIRENT_SIZE * 64) DIRENT_SIZE =
        some ((DIRENT_SIZE : ℤ), bytes, s') ∧ ¬ Coherent s' := by
  obtain ⟨out, hmk⟩ : ∃ out, Mkfs.mkfs (List.replicate 62 []) = some out :=
    Option.isSome_iff_exists.mp (by decide)
  have hfb : (Mkfs.mkfs (List.replicate 62 [])).map Mkfs.Image.freeblock = some 47 := by decide
  rw [hmk, Option.map_some, Option.some.injEq] at hfb
  -- the image's disk, with the root directory cached in entry `0` of the inode table
  let s : State := ⟨⟨out.dinode, out.bitmap, fun _ _ => 0⟩, fun j =>
    if j = ⟨0, by decide⟩ then ⟨ROOTDEV, ROOTINO, 1, true, out.dinode ROOTINO⟩
    else ⟨0, 0, 0, false, Dinode.zero⟩, []⟩
  have hco : Coherent s := by
    intro j href _
    by_cases hj : j = ⟨0, by decide⟩
    · subst hj
      rfl
    · simp [s, hj] at href
  obtain ⟨bytes, s', hread, hinc⟩ := readi_root_incoherent _ out hmk (by simp) (by decide)
    (by rw [hfb]; decide) s rfl rfl ⟨0, by decide⟩ rfl (by simp [s]) rfl hco
  exact ⟨out, s, hmk, hco, bytes, s', hread, hinc⟩

end Xv6.Fs
