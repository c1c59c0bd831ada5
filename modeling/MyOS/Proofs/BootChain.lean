import MyOS.Proofs.InitKernel
import MyOS.Proofs.KernelMap
import MyOS.Proofs.RootDir

/-!
# From the disk to the kernel

The search ends with the sector of the entry in memory, which is where the loading loop starts. So
the disk alone says whether the boot sector gets to the loader and the loader to the kernel; and
what the loader leaves in memory is the kernel as its file has it, with the tables and the
parameters beside it.
-/

namespace MyOS

open Memory Block

/-! ## A file on the disk -/

/-- Where the root directory starts on the disk. -/
def rootStart : ℕ := 512 * 19

def rootEntries : ℕ := 224

/-- The first entry with the name is that of a file of `size` bytes in these clusters, and `mark` is
behind the last one. -/
structure FileOnDisk (disk : Bytes) (name : List Byte) (size : BitVec 32) (chain : List ℕ)
    (mark : ℕ) : Prop where
  entry : ∃ e < rootEntries, FirstNamed disk rootStart name e ∧
    word16 disk (rootStart + 32 * e + 0x1A) = BitVec.ofNat 16 (chain.headD 0) ∧
      word disk (rootStart + 32 * e + 0x1C) = size
  clusters : ClusterChain disk chain mark
  length : chain.length = (size.toNat + 511) / 512

/-- The bytes of the clusters, one behind the other. -/
def fileBytes (disk : Bytes) (chain : List ℕ) : Bytes := fun x =>
  disk (512 * clusterSector (chain.getD (x / 512) 0) + x % 512)

/-- With tries and turns enough the run ends with these bytes at `base`. -/
def Loads (run : ℕ → Except Fault Boot) (base len : ℕ) (f : Bytes) : Prop :=
  ∃ N, ∀ n ≥ N, ∃ m', run n = .ok m' ∧ ∀ x < len, m'.mem (base + x) = f x

/-- With tries enough it never ends. -/
def Hangs (run : ℕ → Except Fault Boot) : Prop := ∃ N, ∀ n ≥ N, run n = .error .spin

/-- An entry for a file of 88 bytes in the cluster 2. -/
def sampleEntry : List Byte :=
  kernelFileName ++ List.replicate 15 0 ++ [2, 0, 88, 0, 0, 0]

/-- A file with one header, for four bytes at `1000h`. -/
def sampleKernel : List Byte :=
  elfmag ++ List.replicate 24 0 ++ [52, 0, 0, 0] ++ List.replicate 10 0 ++ [32, 0, 1, 0] ++
    List.replicate 6 0 ++ [1, 0, 0, 0, 84, 0, 0, 0, 0, 0x10, 0, 0] ++ List.replicate 4 0 ++
    [4, 0, 0, 0, 4, 0, 0, 0] ++ List.replicate 8 0 ++ [0xFA, 0xEB, 0xFE, 0x90]

/-- The FAT ends the chain at once; the entry is the first one of the directory. -/
def sampleDisk : Bytes := fun x =>
  if x < 9728 then oneCluster 0xFF x
  else if x < 16896 then sampleEntry.getD (x - 9728) 0
  else sampleKernel.getD (x - 16896) 0

theorem sampleDisk_file : FileOnDisk sampleDisk kernelFileName 88 [2] 0xFFF where
  entry := ⟨0, by decide, ⟨by decide, by decide⟩, by decide, by decide⟩
  clusters := ⟨by simp [IsCluster], (by decide : fatEntry sampleDisk 2 = 0xFFF), by decide⟩
  length := by decide

/-! ## The loop, from the entry on -/

section Loop

variable {bios : Bios} {disk : Bytes} {tries n : ℕ} {seg : BitVec 16} {addBx : Boot → Boot}
  {L : BlockLayout seg addBx} {stack : List (BitVec 16)} {chain : List ℕ} {mark : ℕ} {m : Boot}

theorem goonLoadingFile_bytes (hb : BiosWorks bios disk tries) (hn : tries ≤ n)
    (hlen : chain.length < n) (hchain : ClusterChain disk chain 0xFFF)
    (hroom : chain.length ≤ L.room) (hm : At L 0 (chain.headD 0) stack m) :
    ∃ m', goonLoadingFile bios n seg addBx n m = .ok m' ∧
      ∀ x < 512 * chain.length, m'.mem (L.base + x) = fileBytes disk chain x := by
  cases chain with
  | nil => exact hchain.links.elim
  | cons c chain =>
    obtain ⟨m', hrun, -, hblocks, -⟩ := goonLoadingFile_ok hb hn hchain.links hchain.clusters
      (by omega) hm
    refine ⟨m', hrun n (by rw [List.length_cons] at hlen; omega), fun x hx => ?_⟩
    have hj : x / 512 < (c :: chain).length := by omega
    have hblock := hblocks (x / 512) hj (x % 512) (Nat.mod_lt x (by decide))
    rw [Nat.zero_add, Nat.add_assoc, Nat.div_add_mod] at hblock
    rw [hblock, fileBytes, List.getD_eq_getElem?_getD, List.getElem?_eq_getElem hj,
      Option.getD_some]

theorem goonLoadingFile_hangs (hb : BiosWorks bios disk tries) (hn : tries ≤ n)
    (hchain : ClusterChain disk chain mark) (hbad : ¬ (mark = 0xFFF ∧ chain.length ≤ L.room))
    (hfull : chain.length ≤ L.room ∨
      ¬ linearAddr (L.place L.room).1 (L.place L.room).2 % 0x10000 + 512 ≤ 0x10000)
    (hm : At L 0 (chain.headD 0) stack m) :
    goonLoadingFile bios n seg addBx n m = .error .spin := by
  cases chain with
  | nil => exact hchain.links.elim
  | cons c chain =>
    refine goonLoadingFile_spin hb hn hchain.ends.1 hchain.links hchain.clusters hm ?_ n
    rcases Nat.lt_or_ge L.room (c :: chain).length with hlong | hroom
    · exact .inr ⟨Nat.zero_le _, by omega, hfull.resolve_left (by omega)⟩
    · exact .inl ⟨by omega, fun h => hbad ⟨h, hroom⟩⟩

end Loop

/-! ## The search, up to the entry -/

section Search

variable {bios : Bios} {disk : Bytes} {tries n : ℕ} {seg off : BitVec 16} {name : List Byte}
  (hb : BiosWorks bios disk tries) (hn : tries ≤ n)
  (hname : name.length < 16) (hoff : off.toNat % 32 = 0) (hroom : off.toNat + 512 < 0x10000)
  (hfit : linearAddr seg off % 0x10000 + 512 ≤ 0x10000)

include hb hn hname hoff hroom hfit

variable (seg off) in
/-- The search ends at the entry of the file, wherever the mask leads back from. -/
theorem search_found {size : BitVec 32} {chain : List ℕ} {mark : ℕ}
    (hfile : FileOnDisk disk name size chain mark) {mask : BitVec 16} {b : ℕ}
    (hb4 : 4 ≤ b) (hb5 : b ≤ 5) (hmask : ∀ i < 16, mask.getLsbD i = decide (b ≤ i)) (m : Boot) :
    ∃ di m₁, searchInRootDir bios n seg off name rootDirSectors.toNat sectorNoOfRootDirectory m =
      .ok (di, m₁) ∧ EntryAt m₁ (di &&& mask) chain size := by
  obtain ⟨e, he, hfirst, hcluster, hsize⟩ := hfile.entry
  have hname' : name.length < 32 := by omega
  rcases searchInRootDir_eq (s := 19) hb hn hname' hoff hroom hfit 14 m (by decide) with
    ⟨j, hj, hfirst', m₁, hread, heq⟩ | ⟨hnone, -⟩
  · obtain rfl : j = e := by
      rcases Nat.lt_trichotomy j e with h | h | h
      · exact absurd hfirst'.named (hfirst.first j h)
      · exact h
      · exact absurd hfirst.named (hfirst'.first e h)
    have hdi : (off + BitVec.ofNat 16 (32 * (j % 16))).toNat = off.toNat + 32 * (j % 16) := by
      rw [BitVec.toNat_add, BitVec.toNat_ofNat]
      omega
    have hback : (off + BitVec.ofNat 16 (32 * (j % 16)) + BitVec.ofNat 16 name.length) &&& mask =
        off + BitVec.ofNat 16 (32 * (j % 16)) := by
      have hpow : 2 ^ 4 ≤ 2 ^ b := Nat.pow_le_pow_right (by decide) hb4
      exact and_entry hb5 hmask (by omega) (Nat.lt_of_lt_of_le hname hpow)
    -- what is read of the entry is what the disk has
    have hbyte : ∀ k i, k + i < 32 → m₁.mem (linearAddr m₁.es (off +
        BitVec.ofNat 16 (32 * (j % 16)) + BitVec.ofNat 16 k) + i) =
          disk (rootStart + 32 * j + k + i) := by
      intro k i hk
      rw [linearAddr_add _ (by omega), linearAddr_add _ (by omega), hread.es, Nat.add_assoc,
        Nat.add_assoc, hread.sector _ (by omega), rootStart]
      exact congrArg disk (by omega)
    refine ⟨_, m₁, heq, ?_⟩
    rw [hback]
    refine ⟨?_, ?_, hfile.length⟩
    · rw [← hcluster]
      exact congrArg₂ (· ++ ·) (hbyte 0x1A 1 (by decide)) (hbyte 0x1A 0 (by decide))
    · rw [← hsize]
      exact word_congr fun i hi => hbyte 0x1C i (by omega)
  · exact absurd hfirst.named (hnone e he)

theorem search_hangs (hnone : ∀ e < rootEntries, ¬ NameAt disk (rootStart + 32 * e) name)
    (m : Boot) :
    searchInRootDir bios n seg off name rootDirSectors.toNat sectorNoOfRootDirectory m =
      .error .spin := by
  have hname' : name.length < 32 := by omega
  rcases searchInRootDir_eq (s := 19) hb hn hname' hoff hroom hfit 14 m (by decide) with
    ⟨j, hj, hfirst, -⟩ | ⟨-, heq⟩
  · exact absurd hfirst.named (hnone j hj)
  · exact heq

end Search

/-! ## The boot sector and the loader -/

/-- The run gets the bytes to `base` just when `P` holds, and hangs otherwise. -/
structure LoadsIff (run : ℕ → Except Fault Boot) (P : Prop) (base len : ℕ) (f : Bytes) : Prop where
  loads : Loads run base len f ↔ P
  hangs : Hangs run ↔ ¬ P

theorem LoadsIff.of {run : ℕ → Except Fault Boot} {P : Prop} {base len : ℕ} {f : Bytes}
    (hloads : P → Loads run base len f) (hhangs : ¬ P → Hangs run) :
    LoadsIff run P base len f := by
  have hnot : Loads run base len f → ¬ Hangs run := by
    rintro ⟨N, hN⟩ ⟨N', hN'⟩
    obtain ⟨m', hok, -⟩ := hN (max N N') (le_max_left _ _)
    rw [hN' _ (le_max_right _ _)] at hok
    cases hok
  exact ⟨⟨fun h => by_contra fun hP => hnot h (hhangs hP), hloads⟩,
    ⟨fun h hP => hnot (hloads hP) h, hhangs⟩⟩

section Stages

variable {bios : Bios} {disk : Bytes} {tries : ℕ} (hb : BiosWorks bios disk tries)
  {size : BitVec 32} {chain : List ℕ} {mark : ℕ} (m : Boot)

include hb

theorem loadsIff_of_start {seg : BitVec 16} {addBx : Boot → Boot} {L : BlockLayout seg addBx}
    (run : ℕ → Except Fault Boot) (hchain : ClusterChain disk chain mark)
    (hfull : chain.length ≤ L.room ∨
      ¬ linearAddr (L.place L.room).1 (L.place L.room).2 % 0x10000 + 512 ≤ 0x10000)
    (hrun : ∀ n ≥ tries, ∃ stack m₁, At L 0 (chain.headD 0) stack m₁ ∧
      run n = goonLoadingFile bios n seg addBx n m₁) :
    LoadsIff run (mark = 0xFFF ∧ chain.length ≤ L.room) L.base (512 * chain.length)
      (fileBytes disk chain) := by
  refine .of ?_ fun hbad => ⟨tries, fun n hn => ?_⟩
  · rintro ⟨rfl, hroom⟩
    refine ⟨max tries (chain.length + 1), fun n hn => ?_⟩
    have htries : tries ≤ n := Nat.le_trans (le_max_left _ _) hn
    obtain ⟨stack, m₁, hat, heq⟩ := hrun n htries
    obtain ⟨m', hok, hbytes⟩ := goonLoadingFile_bytes hb htries
      (Nat.le_trans (le_max_right _ _) hn) hchain hroom hat
    exact ⟨m', heq.trans hok, hbytes⟩
  · obtain ⟨stack, m₁, hat, heq⟩ := hrun n hn
    exact heq.trans (goonLoadingFile_hangs hb hn hchain hbad hfull hat)

theorem bootSector_iff (hfile : FileOnDisk disk loaderFileName size chain mark) :
    LoadsIff (bootSector bios · m) (mark = 0xFFF ∧ chain.length ≤ 127) 0x90100
      (512 * chain.length) (fileBytes disk chain) := by
  refine loadsIff_of_start (L := bootLayout) hb _ hfile.clusters (.inr (by decide)) fun n hn => ?_
  obtain ⟨di, m₁, hsearch, hentry⟩ := search_found loaderSeg loaderOff hb hn
    (by decide) (by decide) (by decide) (by decide) hfile (by decide) le_rfl boot_mask m
  refine ⟨_, _, startLoading_at (L := bootLayout) rfl hentry.first, ?_⟩
  rw [bootSector, hsearch]
  rfl

/-- A file that is too large is not loaded, and one that is not has room. -/
theorem loaderReal_iff (hfile : FileOnDisk disk kernelFileName size chain mark) :
    LoadsIff (loaderReal bios · m) (mark = 0xFFF ∧ size ≤ kernelValidSpace) 0x50000
      (512 * chain.length) (fileBytes disk chain) := by
  have hstart : ∀ n ≥ tries, ∃ di m₁, EntryAt m₁ (di &&& 0xFFF0) chain size ∧
      loaderReal bios n m = loadKernel bios n di m₁ := by
    intro n hn
    obtain ⟨di, m₁, hsearch, hentry⟩ := search_found kernelFileSeg kernelFileOff hb hn
      (by decide) (by decide) (by decide) (by decide) hfile le_rfl (by decide) loader_mask m
    refine ⟨di, m₁, hentry, ?_⟩
    rw [loaderReal, hsearch]
    rfl
  by_cases hlarge : kernelValidSpace < size
  · refine .of (fun h => absurd h.2 (BitVec.not_le.2 hlarge)) fun _ => ⟨tries, fun n hn => ?_⟩
    obtain ⟨di, m₁, hentry, heq⟩ := hstart n hn
    dsimp only
    rw [heq, loadKernel]
    dsimp only
    rw [hentry.size, if_pos hlarge]
  · have hsize : size ≤ kernelValidSpace := BitVec.not_lt.1 hlarge
    have hroom : chain.length ≤ kernelLayout.room := by
      have hle : size.toNat ≤ 0x40000 := hsize
      have hlen := hfile.length
      change _ ≤ 512
      omega
    have hload := loadsIff_of_start (L := kernelLayout) hb (loaderReal bios · m)
      hfile.clusters (.inl hroom) fun n hn => by
        obtain ⟨di, m₁, hentry, heq⟩ := hstart n hn
        refine ⟨_, _, startLoading_at (L := kernelLayout) rfl hentry.first, ?_⟩
        rw [heq, loadKernel]
        dsimp only
        rw [hentry.size, if_neg hlarge]
        rfl
    have hiff : (mark = 0xFFF ∧ chain.length ≤ kernelLayout.room) ↔
        mark = 0xFFF ∧ size ≤ kernelValidSpace :=
      and_congr_right fun _ => iff_of_true hroom hsize
    rwa [hiff] at hload

/-- The disk says whether the boot sector gets to the loader, and whether the loader has the kernel:
they do where the first entry with the name is that of a file which has room and whose chain ends
with `0FFFh`, and hang otherwise, as they do without an entry. -/
theorem disk_boots :
    (∀ size chain mark, FileOnDisk disk loaderFileName size chain mark →
      LoadsIff (bootSector bios · m) (mark = 0xFFF ∧ chain.length ≤ 127) 0x90100
        (512 * chain.length) (fileBytes disk chain)) ∧
    (∀ size chain mark, FileOnDisk disk kernelFileName size chain mark →
      LoadsIff (loaderReal bios · m) (mark = 0xFFF ∧ size ≤ kernelValidSpace) 0x50000
        (512 * chain.length) (fileBytes disk chain)) ∧
    ((∀ e < rootEntries, ¬ NameAt disk (rootStart + 32 * e) loaderFileName) →
      Hangs (bootSector bios · m)) ∧
    ((∀ e < rootEntries, ¬ NameAt disk (rootStart + 32 * e) kernelFileName) →
      Hangs (loaderReal bios · m)) := by
  refine ⟨fun size chain mark => bootSector_iff hb m, fun size chain mark => loaderReal_iff hb m,
    fun hnone => ⟨tries, fun n hn => ?_⟩, fun hnone => ⟨tries, fun n hn => ?_⟩⟩
  · dsimp only
    rw [bootSector, search_hangs hb hn (by decide) (by decide) (by decide) (by decide) hnone]
    rfl
  · dsimp only
    rw [loaderReal, search_hangs hb hn (by decide) (by decide) (by decide) (by decide) hnone]
    rfl

end Stages

/-- The file with that kernel is loaded. -/
theorem disk_boots_sample : Loads (loaderReal (steadyBios sampleDisk) · entryState) 0x50000 512
    (fileBytes sampleDisk [2]) := by
  obtain ⟨-, hkernel, -⟩ := disk_boots (steadyBios_works sampleDisk) entryState
  exact (hkernel 88 [2] 0xFFF sampleDisk_file).loads.2 ⟨rfl, by decide⟩

/-! ## What the loader leaves -/

/-- A kernel file that the loader can put in place: its segments are apart from each other, and in
the memory between the parameters and the file. -/
structure Bootable (f : Bytes) (size : ℕ) : Prop extends KernelFile f size where
  elfmag : (List.range elfmag.length).map f = elfmag
  apart : (kernelSegments f).Pairwise fun s t =>
    Apart s.pVaddr s.pFilesz.toNat t.pVaddr t.pFilesz.toNat
  low : ∀ s ∈ kernelSegments f, bootParamBase.toNat + 12 ≤ s.pVaddr.toNat ∧
    s.pVaddr.toNat + s.pFilesz.toNat ≤ kernelFilePhyAddr.toNat

theorem fillBootParam_eq (dwMemSize : BitVec 32) (mem : Mem) : fillBootParam dwMemSize mem =
    storeAll mem bootParamBase [0xB007, dwMemSize, kernelFilePhyAddr] := by
  have hthird : bootParamBase + 8 = bootParamBase + 4 + 4 := by decide
  unfold fillBootParam
  simp only [storeAll, hthird]

theorem fillBootParam_of_not_within {dwMemSize : BitVec 32} {mem : Mem} {x : Addr}
    (hx : ¬ Within x bootParamBase 12) : fillBootParam dwMemSize mem x = mem x := by
  rw [fillBootParam_eq]
  exact storeAll_of_not_within _ (show 4 * 3 ≤ 2 ^ 32 by decide) hx

theorem getBootParams_of_words {mem : Mem} {dwMemSize : BitVec 32}
    (h : WordsAt mem bootParamBase [0xB007, dwMemSize, kernelFilePhyAddr])
    (helf : HasElfmag mem kernelFilePhyAddr) :
    getBootParams mem = .ok ⟨dwMemSize, kernelFilePhyAddr⟩ := by
  have hmag : word (bytesAt mem bootParamAddr) (4 * biMag) = bootParamMagic :=
    (load32_bytesAt mem bootParamBase 0).symm.trans (h.load (by decide : 0 < 3))
  have hsize : word (bytesAt mem bootParamAddr) (4 * biMemSize) = dwMemSize :=
    (load32_bytesAt mem bootParamBase 4).symm.trans (h.load (by decide : 1 < 3))
  have hfile : word (bytesAt mem bootParamAddr) (4 * biKernelFile) = kernelFilePhyAddr :=
    (load32_bytesAt mem bootParamBase 8).symm.trans (h.load (by decide : 2 < 3))
  unfold getBootParams
  dsimp only
  rw [hmag, hsize, hfile]
  exact assert_bind_eq_ok.2 ⟨rfl, assert_bind_eq_ok.2 ⟨helf, rfl⟩⟩

/-- A byte of a segment lies in the memory between the parameters and the file. -/
theorem Bootable.low_of_covers {f : Bytes} {size : ℕ} (hf : Bootable f size) {s : ProgHdr}
    (hs : s ∈ kernelSegments f) {x : Addr} (hx : (s.patch 0 f).Covers x) :
    bootParamBase.toNat + 12 ≤ x.toNat ∧ x.toNat < kernelFilePhyAddr.toNat := by
  obtain ⟨hlo, hhi⟩ := hf.low s hs
  have hx : Within x (0 + s.pVaddr) s.pFilesz.toNat := hx
  unfold Within at hx
  generalize hn : s.pFilesz.toNat = n at hx hhi
  generalize hb : bootParamBase.toNat = b at hlo ⊢
  have hk : kernelFilePhyAddr.toNat = 0x50000 := rfl
  bv_omega

/-- From the file on the memory stays as it is. -/
theorem initKernel_of_file_le {f : Bytes} {size : ℕ} {mem : Mem} {x : Addr} (hf : Bootable f size)
    (h : KernelFileAt mem f size) (hx : kernelFilePhyAddr.toNat ≤ x.toNat) :
    initKernel mem x = mem x := by
  rw [initKernel_eq hf.toKernelFile h]
  refine patched_of_not_covers fun p hp => ?_
  obtain ⟨s, hs, rfl⟩ := List.mem_map.1 hp
  intro hc
  have := (hf.low_of_covers hs hc).2
  omega

/-- Each byte of a segment gets to its place. -/
theorem initKernel_segment {f : Bytes} {size : ℕ} {mem : Mem} {x : Addr} (hf : Bootable f size)
    (h : KernelFileAt mem f size) {s : ProgHdr} (hs : s ∈ kernelSegments f)
    (hx : Within x s.pVaddr s.pFilesz.toNat) :
    initKernel mem x = f (s.pOffset.toNat + (x - s.pVaddr).toNat) := by
  have hstart (t : ProgHdr) : (0 : Addr) + t.pVaddr = t.pVaddr := BitVec.zero_add _
  have hcovers : (s.patch 0 f).Covers x := by
    unfold Patch.Covers ProgHdr.patch
    dsimp only
    rwa [hstart]
  have hapart : ((kernelSegments f).map (ProgHdr.patch 0 f)).Pairwise fun p q =>
      Apart p.start p.len q.start q.len := by
    refine List.pairwise_map.2 (hf.apart.imp fun {t u} htu => ?_)
    unfold ProgHdr.patch
    dsimp only
    rwa [hstart, hstart]
  rw [initKernel_eq hf.toKernelFile h,
    patched_of_apart hapart (List.mem_map_of_mem hs) hcovers]
  unfold Patch.byteAt ProgHdr.patch
  dsimp only
  rw [hstart]

theorem Tables.congr {mem mem' : Mem} {n : ℕ} (h : Tables mem n) (hn : n ≤ 1024)
    (hmem : ∀ x : Addr, pageDirBase.toNat ≤ x.toNat → mem' x = mem x) : Tables mem' n := by
  constructor
  · intro i hi
    rw [← h.dir i hi]
    refine load32_congr fun j hj => hmem _ ?_
    unfold pageDirBase
    bv_omega
  · intro i hi
    rw [← h.tbl i hi]
    refine load32_congr fun j hj => hmem _ ?_
    unfold pageTblBase pageDirBase
    bv_omega

variable {mem : Mem} {f : Bytes} {size : ℕ} {dwMCRNumber : BitVec 32} {memChkBuf : Addr}

/-- What `kernel_main` and its callees find: the segments, the file, the parameters and the
tables. -/
structure HandedOver (f : Bytes) (size : ℕ) (dwMemSize : BitVec 32) (mem : Mem) : Prop where
  segments : ∀ s ∈ kernelSegments f, ∀ i < s.pFilesz.toNat,
    mem (s.pVaddr + BitVec.ofNat 32 i) = f (s.pOffset.toNat + i)
  file : KernelFileAt mem f size
  params : getBootParams mem = .ok ⟨dwMemSize, kernelFilePhyAddr⟩
  walk : ∀ la : Addr, la.toNat / 0x400000 < (dwMemSize.toNat + 0x3FFFFF) / 0x400000 →
    walk mem pageDirBase la = some (la, 6)

theorem pmStart_handsOver (hf : Bootable f size) (h : KernelFileAt mem f size)
    (hsize : dispMemInfo mem (loopCount dwMCRNumber) memChkBuf 0 ≠ 0) :
    HandedOver f size (dispMemInfo mem (loopCount dwMCRNumber) memChkBuf 0)
      (pmStart dwMCRNumber memChkBuf mem) := by
  unfold pmStart
  dsimp only
  generalize dispMemInfo mem (loopCount dwMCRNumber) memChkBuf 0 = dwMemSize at hsize ⊢
  have hle : size ≤ 0x40000 := hf.size_le
  obtain ⟨htables, hframe⟩ := setupPaging_tables hsize mem
  have hn := pageTables_toNat dwMemSize
  generalize (pageTables dwMemSize).toNat = n at htables hframe hn
  have hlt := dwMemSize.isLt
  -- the tables are behind the file, and the parameters before it
  have hfile₁ : KernelFileAt (setupPaging dwMemSize mem) f size := by
    refine h.congr (by omega) fun x hx => hframe x (fun hw => ?_) fun hw => ?_
    · unfold Within kernelFilePhyAddr pageDirBase at *
      bv_omega
    · unfold Within kernelFilePhyAddr pageTblBase at *
      bv_omega
  generalize setupPaging dwMemSize mem = mem₁ at htables hfile₁
  have hparam : ∀ x : Addr, bootParamBase.toNat + 12 ≤ x.toNat →
      fillBootParam dwMemSize (initKernel mem₁) x = initKernel mem₁ x := fun x hx => by
    refine fillBootParam_of_not_within fun hw => ?_
    unfold Within bootParamBase at *
    bv_omega
  have hbehind : ∀ x : Addr, kernelFilePhyAddr.toNat ≤ x.toNat →
      fillBootParam dwMemSize (initKernel mem₁) x = mem₁ x := fun x hx => by
    rw [hparam x (Nat.le_trans (by decide) hx), initKernel_of_file_le hf hfile₁ hx]
  have hfile₂ : KernelFileAt (fillBootParam dwMemSize (initKernel mem₁)) f size :=
    hfile₁.congr (by omega) fun x hx => hbehind x (by
      unfold Within kernelFilePhyAddr at *
      bv_omega)
  refine ⟨fun s hs i hi => ?_, hfile₂, ?_, fun la hla => ?_⟩
  · have hin : Within (s.pVaddr + BitVec.ofNat 32 i) s.pVaddr s.pFilesz.toNat :=
      within_add_ofNat _ hi (Nat.le_of_lt s.pFilesz.isLt)
    have hlow := hf.low_of_covers hs (x := s.pVaddr + BitVec.ofNat 32 i) (by
      unfold Patch.Covers ProgHdr.patch
      dsimp only
      rwa [show (0 : Addr) + s.pVaddr = s.pVaddr from BitVec.zero_add _])
    have hoff : (s.pVaddr + BitVec.ofNat 32 i - s.pVaddr).toNat = i := by
      have := s.pFilesz.isLt
      bv_omega
    rw [hparam _ hlow.1, initKernel_segment hf hfile₁ hs hin, hoff]
  · have hwords : WordsAt (fillBootParam dwMemSize (initKernel mem₁)) bootParamBase
        [0xB007, dwMemSize, kernelFilePhyAddr] := by
      rw [fillBootParam_eq]
      exact storeAll_wordsAt _ (show 4 * 3 ≤ 2 ^ 32 by decide)
    have helf : HasElfmag (fillBootParam dwMemSize (initKernel mem₁)) kernelFilePhyAddr := by
      refine ⟨by decide, Eq.trans (List.map_congr_left fun i hi => ?_) hf.elfmag⟩
      have hehdr := hf.ehdr
      have hi : i < 4 := List.mem_range.1 hi
      exact hfile₂ i (by omega)
    exact getBootParams_of_words hwords helf
  · exact (htables.congr (by omega) fun x hx => hbehind x (Nat.le_trans (by decide) hx)).walk
      (by omega)

theorem sampleDisk_segments : kernelSegments (fileBytes sampleDisk [2]) =
    [⟨1, 84, 0x1000, 4, 4⟩] := by decide

theorem sampleDisk_bootable : Bootable (fileBytes sampleDisk [2]) 88 where
  size_le := by decide
  ehdr := by decide
  some := by decide
  phentsize := by decide
  progHdrs := by decide
  segments := by
    rw [sampleDisk_segments, List.forall_mem_singleton]
    refine ⟨by decide, fun x hx hx' => ?_⟩
    unfold Within at hx hx'
    dsimp only at hx
    unfold kernelFilePhyAddr at hx'
    bv_omega
  elfmag := by decide
  apart := by
    rw [sampleDisk_segments]
    exact List.pairwise_singleton _ _
  low := by
    rw [sampleDisk_segments, List.forall_mem_singleton]
    decide

def sampleRanges (file : Bytes) : Mem := fun x =>
  if Within x kernelFilePhyAddr 88 then file x.toNat else sampleRange x

theorem sampleRanges_size (file : Bytes) :
    dispMemInfo (sampleRanges file) 1 0x8000 0 = 0x100000 := by
  have hrange (a : Addr) (ha : a.toNat ≤ 0x8010) :
      load32 (sampleRanges file) a = load32 sampleRange a := by
    refine load32_congr fun i hi => if_neg fun hw => ?_
    unfold Within kernelFilePhyAddr at hw
    bv_omega
  have hload : dispMemInfo (sampleRanges file) 1 0x8000 0 = dispMemInfo sampleRange 1 0x8000 0 := by
    unfold dispMemInfo
    dsimp only
    rw [hrange 0x8000 (by decide), hrange (0x8000 + 8) (by decide),
      hrange (0x8000 + 16) (by decide)]
    rfl
  rw [hload]
  decide

/-- Where the kernel's file can be put in place, the loader does that: with the file read from the
disk, protected mode is left for the kernel with everything it starts from. -/
theorem loader_handsOver {bios : Bios} {disk : Bytes} {tries : ℕ} {size : BitVec 32}
    {chain : List ℕ} (hb : BiosWorks bios disk tries)
    (hfile : FileOnDisk disk kernelFileName size chain 0xFFF)
    (hf : Bootable (fileBytes disk chain) size.toNat) (m : Boot) :
    ∃ N, ∀ n ≥ N, ∃ m', loaderReal bios n m = .ok m' ∧
      ∀ (mem : Mem) (dwMCRNumber : BitVec 32) (memChkBuf : Addr),
        (∀ j < size.toNat, mem (kernelFilePhyAddr + BitVec.ofNat 32 j) = m'.mem (0x50000 + j)) →
        dispMemInfo mem (loopCount dwMCRNumber) memChkBuf 0 ≠ 0 →
          HandedOver (fileBytes disk chain) size.toNat
            (dispMemInfo mem (loopCount dwMCRNumber) memChkBuf 0)
            (pmStart dwMCRNumber memChkBuf mem) := by
  obtain ⟨N, hN⟩ := (loaderReal_iff hb m hfile).loads.2 ⟨rfl, hf.size_le⟩
  refine ⟨N, fun n hn => ?_⟩
  obtain ⟨m', hok, hbytes⟩ := hN n hn
  refine ⟨m', hok, fun mem dwMCRNumber memChkBuf hmem hsize => ?_⟩
  have hlen := hfile.length
  exact pmStart_handsOver hf (fun j hj => (hmem j hj).trans (hbytes j (by omega))) hsize

/-- The kernel of that disk gets to `1000h`. -/
theorem loader_handsOver_sample : ∃ N, ∀ n ≥ N, ∃ m',
    loaderReal (steadyBios sampleDisk) n entryState = .ok m' ∧
      HandedOver (fileBytes sampleDisk [2]) 88 0x100000
        (pmStart 1 0x8000 (sampleRanges m'.mem)) := by
  obtain ⟨N, hN⟩ := loader_handsOver (steadyBios_works sampleDisk) sampleDisk_file
    sampleDisk_bootable entryState
  refine ⟨N, fun n hn => ?_⟩
  obtain ⟨m', hok, hover⟩ := hN n hn
  refine ⟨m', hok, ?_⟩
  have hsize := sampleRanges_size m'.mem
  have h := hover (sampleRanges m'.mem) 1 0x8000 (fun j hj => ?_) (by
    rw [show loopCount 1 = 1 from rfl, hsize]
    decide)
  · rwa [show loopCount 1 = 1 from rfl, hsize] at h
  · have hin : Within (kernelFilePhyAddr + BitVec.ofNat 32 j) kernelFilePhyAddr 88 :=
      within_add_ofNat _ hj (by decide)
    have hj : j < 88 := hj
    have haddr : (kernelFilePhyAddr + BitVec.ofNat 32 j).toNat = 0x50000 + j := by
      rw [BitVec.toNat_add, BitVec.toNat_ofNat]
      change (0x50000 + _) % _ = _
      omega
    rw [sampleRanges, if_pos hin, haddr]

end MyOS
