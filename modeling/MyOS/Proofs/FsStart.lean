import MyOS.Proofs.FsRequests

/-!
# What `init_fs` starts from

On a partition whose regions are disjoint and inside, `mkfs` marks the inodes of the root directory,
the terminals and `cmd.tar`, and the sectors of the root directory and of `cmd.tar`. The table has
one inode in use, that of the root directory.
-/

namespace MyOS

open Memory Block RefTable

variable {tight : Prop} {nrSects : ℕ} {disk : Bytes}

/-- The regions of the partition are disjoint and inside it. -/
def RegionsApart (nrSects : ℕ) : Prop :=
  nrSects < 2 ^ 32 ∧ (mkfsRegions (mkfsSb nrSects)).Pairwise Region.Apart ∧
    ∀ r ∈ mkfsRegions (mkfsSb nrSects), r.Inside nrSects

theorem mkfs_inv {d d' : Device} (h : mkfs d nrSects = .ok d') :
    InstallFits (mkfsSb nrSects) ∧ 0 ≤ installBitOffset (mkfsSb nrSects) ∧
      d' = mkfsFiles (mkfsSb nrSects) (markCmdTar (mkfsSb nrSects) (mkfsMaps (mkfsSb nrSects) d)
        (installBitOffset (mkfsSb nrSects)).toNat) := by
  unfold mkfs at h
  dsimp only at h
  split_ifs at h with hfits hoff
  exact ⟨hfits, not_lt.1 hoff, (Except.ok.inj h).symm⟩

theorem RegionsApart.bounds (h : RegionsApart nrSects) (hfits : InstallFits (mkfsSb nrSects))
    (hoff : 0 ≤ installBitOffset (mkfsSb nrSects)) : 35328 < nrSects ∧ nrSects < 131059712 := by
  obtain ⟨hlt, hapart, hin⟩ := h
  have hoff' : 259 + (nrSects / 4096 + 1) ≤ 0x8001 := by
    have hstart : (installStartSect : Int) = 0x8000 := rfl
    rw [installBitOffset, mkfsSb_eq, hstart] at hoff
    dsimp only at hoff
    omega
  obtain ⟨hlo, hhi⟩ := regions_bound hapart hin hoff'
  rw [installFits_iff hlt] at hfits
  exact ⟨hfits.resolve_left (by omega), hhi⟩

theorem layout_mkfsSb (hlo : 35328 < nrSects) (hhi : nrSects < 131059712) :
    Layout (mkfsSb nrSects) := by
  rw [mkfsSb_eq]
  exact ⟨rfl, by dsimp only; omega, rfl, by dsimp only; omega⟩

/-! ## The inodes of a new file system -/

theorem readInode_foldl_before : ∀ {l : List DiskInode} {i k : ℕ} {f : Bytes}, k < i →
    readInode ((l.zipIdx i).foldl (fun f x => writeInode f (inodeSize * x.2) x.1) f)
      (inodeSize * k) = readInode f (inodeSize * k)
  | [], i, k, f, _ => rfl
  | x :: l, i, k, f, hk => by
    have hsize : inodeSize = 32 := rfl
    rw [List.zipIdx_cons, List.foldl_cons, readInode_foldl_before (by omega)]
    exact readInode_congr fun j hj => writeInode_outside (by dsimp only; rw [hsize]; omega)

/-- Inodes written one after the other are each read back. -/
theorem readInode_foldl {x : DiskInode} : ∀ {l : List DiskInode} {i k : ℕ} {f : Bytes}, i ≤ k →
    l[k - i]? = some x →
    readInode ((l.zipIdx i).foldl (fun f x => writeInode f (inodeSize * x.2) x.1) f)
      (inodeSize * k) = x
  | [], i, k, f, _, hx => nomatch hx
  | y :: l, i, k, f, hk, hx => by
    rw [List.zipIdx_cons, List.foldl_cons]
    rcases Nat.eq_or_lt_of_le hk with rfl | hlt
    · rw [Nat.sub_self, List.getElem?_cons_zero] at hx
      rw [readInode_foldl_before (Nat.lt_succ_self _), readInode_writeInode]
      exact Option.some.inj hx
    · rw [show k - i = k - (i + 1) + 1 by omega, List.getElem?_cons_succ] at hx
      exact readInode_foldl hlt hx

theorem mkfs_inode (hL : Layout (mkfsSb nrSects)) (d : Device) {n : ℕ} {x : DiskInode} (hn : 1 ≤ n)
    (hn' : n < 6) (hx : (mkfsInodes (mkfsSb nrSects))[n - 1]? = some x) :
    diskInode (mkfsSb nrSects) (mkfsFiles (mkfsSb nrSects) d).disk n = x := by
  have hfirst := hL.first
  have hsmall := hL.small
  have hread := readInode_foldl (f := fun _ => 0) (Nat.zero_le (n - 1)) hx
  unfold mkfsFiles
  dsimp only
  generalize (mkfsInodes (mkfsSb nrSects)).zipIdx.foldl
    (fun f x => writeInode f (inodeSize * x.2) x.1) (fun _ => 0) = f at hread
  generalize mkfsEntries.zipIdx.foldl _ _ = g
  have hblk : ((2 + (mkfsSb nrSects).nrImapSects + (mkfsSb nrSects).nrSmapSects : ℕ) : Int) =
      (3 + (mkfsSb nrSects).nrSmapSects : ℕ) := by
    rw [hL.imap]
  rw [Device.wr_disk, Device.wr_disk, hblk, diskInode, inodePos_eq hL, ← hread]
  generalize mkfsSb nrSects = sb at hfirst hsmall
  have hsize : inodeSize = 32 := rfl
  refine readInode_congr fun j hj => ?_
  rw [wrSect_apply (by omega), if_neg (by omega), wrSect_apply (by omega), if_pos (by omega)]
  congr 1
  rw [hsize]
  omega

/-! ## The disk -/

section Disk

variable (hlo : 35328 < nrSects) (hhi : nrSects < 131059712) (d : Device)

/-- The disk `mkfs` leaves. -/
def mkfsDisk (nrSects : ℕ) (d : Device) : Bytes :=
  (mkfsFiles (mkfsSb nrSects) (markCmdTar (mkfsSb nrSects) (mkfsMaps (mkfsSb nrSects) d)
    (installBitOffset (mkfsSb nrSects)).toNat)).disk

include hlo hhi in
theorem mkfsDisk_imap {n : ℕ} (hn : n < 4096) :
    imapBit (mkfsDisk nrSects d) n = decide (n < 6) := by
  have hL := layout_mkfsSb hlo hhi
  have hfirst := hL.first
  have hsmall := hL.small
  have himap := hL.imap
  have hsmap := hL.smap
  have hinstall : installNrSects = 2048 := rfl
  have hstart : installStartSect = 0x8000 := rfl
  have hsect : 8 * sectorSize * 2 + n = 4096 * 2 + n := rfl
  unfold mkfsDisk imapBit mkfsFiles
  dsimp only
  generalize List.foldl _ _ (mkfsInodes (mkfsSb nrSects)).zipIdx = f
  generalize mkfsEntries.zipIdx.foldl _ _ = g
  rw [Device.wr_disk, Device.wr_disk, hsect, bit_wrSect (by omega), if_neg (by omega),
    bit_wrSect (by omega), if_neg (by omega), markCmdTar_bit _ (by unfold installBitOffset; omega),
    decide_eq_false (p := 4096 * (2 + (mkfsSb nrSects).nrImapSects) + _ ≤ _ ∧ _) (by omega),
    Bool.or_false, mkfsMaps_imap himap (by omega) d hn]

include hlo hhi in
theorem mkfsDisk_allocated {n : ℕ} : Allocated (mkfsDisk nrSects d) n ↔ 1 ≤ n ∧ n < 6 := by
  unfold Allocated
  constructor
  · rintro ⟨hn, hn', hbit⟩
    rw [mkfsDisk_imap hlo hhi d hn', decide_eq_true_eq] at hbit
    exact ⟨hn, hbit⟩
  · rintro ⟨hn, hn'⟩
    exact ⟨hn, by omega, by rw [mkfsDisk_imap hlo hhi d (by omega), decide_eq_true hn']⟩

/-- The root directory and `cmd.tar`. -/
def rootNode (sb : SuperBlock) : DiskInode :=
  ⟨iDirectory, BitVec.ofNat 32 (dirEntrySize * 5), BitVec.ofNat 32 sb.n1stSect,
    BitVec.ofNat 32 nrDefaultFileSects⟩

def cmdTarNode : DiskInode :=
  ⟨iRegular, BitVec.ofNat 32 (installNrSects * sectorSize), BitVec.ofNat 32 installStartSect,
    BitVec.ofNat 32 installNrSects⟩

include hlo hhi in
theorem mkfsDisk_inodes : diskInode (mkfsSb nrSects) (mkfsDisk nrSects d) 1 =
    rootNode (mkfsSb nrSects) ∧ diskInode (mkfsSb nrSects) (mkfsDisk nrSects d) 5 = cmdTarNode ∧
      ∀ n, n = 2 ∨ n = 3 ∨ n = 4 →
        ¬ (diskInode (mkfsSb nrSects) (mkfsDisk nrSects d) n).HasSects := by
  have hL := layout_mkfsSb hlo hhi
  have hchar (i : ℕ) : ¬ DiskInode.HasSects
      ⟨iCharSpecial, 0, makeDev devCharTty (BitVec.ofNat 32 i), 0⟩ := by
    unfold DiskInode.HasSects
    simp only [iCharSpecial, iTypeMask, iRegular, iDirectory]
    decide
  refine ⟨mkfs_inode hL _ (by decide) (by decide) rfl, mkfs_inode hL _ (by decide) (by decide) rfl,
    fun n hn => ?_⟩
  rcases hn with rfl | rfl | rfl
  · rw [mkfsDisk, mkfs_inode hL _ (by decide) (by decide) rfl]
    exact hchar 0
  · rw [mkfsDisk, mkfs_inode hL _ (by decide) (by decide) rfl]
    exact hchar 1
  · rw [mkfsDisk, mkfs_inode hL _ (by decide) (by decide) rfl]
    exact hchar 2

include hlo hhi in
theorem mkfsDisk_ok : DiskOk tight (mkfsSb nrSects) (mkfsDisk nrSects d) := by
  have hL := layout_mkfsSb hlo hhi
  have hfirst := hL.first
  have hsmall := hL.small
  have hsb := mkfsSb_eq nrSects
  have hm : (mkfsSb nrSects).nrSmapSects = nrSects / 4096 + 1 := by rw [hsb]
  obtain ⟨hroot, hcmd, hchar⟩ := mkfsDisk_inodes hlo hhi d
  have hstart : (rootNode (mkfsSb nrSects)).iStartSect.toNat = (mkfsSb nrSects).n1stSect := by
    simp only [rootNode, BitVec.toNat_ofNat]
    omega
  have hsmap (b : ℕ) (hb : b < 4096 * (mkfsSb nrSects).nrSmapSects) :
      smapBit (mkfsSb nrSects) (mkfsDisk nrSects d) b = true ↔
        b = 0 ∨ (rootRegion (mkfsSb nrSects)).HasBit (mkfsSb nrSects) b ∨
          installRegion.HasBit (mkfsSb nrSects) b := mkfsFiles_smap hlo hhi d b hb
  -- the sectors of the two files
  have hrootOwns (b : ℕ) : (rootNode (mkfsSb nrSects)).Owns (mkfsSb nrSects) b ↔
      (mkfsSb nrSects).n1stSect ≤ b - 1 + (mkfsSb nrSects).n1stSect ∧
        b - 1 + (mkfsSb nrSects).n1stSect < (mkfsSb nrSects).n1stSect + 512 := by
    unfold DiskInode.Owns
    rw [hstart, and_iff_right (.inr (show iDirectory &&& iTypeMask = iDirectory by decide))]
    rfl
  have hcmdOwns (b : ℕ) : cmdTarNode.Owns (mkfsSb nrSects) b ↔
      0x8000 ≤ b - 1 + (mkfsSb nrSects).n1stSect ∧
        b - 1 + (mkfsSb nrSects).n1stSect < 0x8000 + 2048 := by
    unfold DiskInode.Owns
    rw [and_iff_right (.inl (by decide))]
    rfl
  have hcases {n : ℕ} (hn : Allocated (mkfsDisk nrSects d) n)
      (hs : (diskInode (mkfsSb nrSects) (mkfsDisk nrSects d) n).HasSects) : n = 1 ∨ n = 5 := by
    have hn := (mkfsDisk_allocated hlo hhi d).1 hn
    by_contra hno
    exact hchar n (by omega) hs
  refine ⟨?_, ?_, ?_, ?_, ?_, fun n hn hs => ?_, fun b hb hb' => ?_, fun _ b hb hb' hset => ?_,
    fun n n' b hn hn' hb ho ho' => ?_⟩
  · exact mkfsDisk_imap hlo hhi d (by decide)
  · exact (hsmap 0 (by omega)).2 (.inl rfl)
  · exact mkfsDisk_imap hlo hhi d (by decide)
  · rw [hroot]
    rfl
  · rw [hroot, hstart]
  · rcases hcases hn hs with rfl | rfl
    · rw [hroot, hstart]
      refine ⟨le_rfl, ?_⟩
      change _ + 512 < _
      omega
    · rw [hcmd]
      change _ ≤ 0x8000 ∧ 0x8000 + 2048 < _
      omega
  · rintro ⟨n, hn, ho⟩
    rw [hsmap b hb']
    rcases hcases hn ho.1 with rfl | rfl
    · rw [hroot, hrootOwns] at ho
      refine .inr (.inl ⟨hb, ?_⟩)
      simp only [rootRegion, show nrDefaultFileSects = 512 from rfl]
      omega
    · rw [hcmd, hcmdOwns] at ho
      refine .inr (.inr ⟨hb, ?_⟩)
      simp only [installRegion, show installStartSect = 0x8000 from rfl,
        show installNrSects = 2048 from rfl]
      omega
  · rw [hsmap b hb'] at hset
    rcases hset with rfl | hbit | hbit
    · omega
    · refine ⟨1, (mkfsDisk_allocated hlo hhi d).2 (by decide), ?_⟩
      rw [hroot, hrootOwns]
      have hlt := hbit.2.2
      simp only [rootRegion, show nrDefaultFileSects = 512 from rfl] at hlt
      omega
    · refine ⟨5, (mkfsDisk_allocated hlo hhi d).2 (by decide), ?_⟩
      rw [hcmd, hcmdOwns]
      have hge := hbit.2.1
      have hlt := hbit.2.2
      simp only [installRegion, show installStartSect = 0x8000 from rfl,
        show installNrSects = 2048 from rfl] at hge hlt
      omega
  · rcases hcases hn ho.1 with rfl | rfl <;> rcases hcases hn' ho'.1 with rfl | rfl
    · rfl
    · rw [hroot, hrootOwns] at ho
      rw [hcmd, hcmdOwns] at ho'
      omega
    · rw [hcmd, hcmdOwns] at ho
      rw [hroot, hrootOwns] at ho'
      omega
    · rfl

end Disk

end MyOS
