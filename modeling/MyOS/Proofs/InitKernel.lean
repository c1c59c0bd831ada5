import MyOS.Proofs.Loader
import MyOS.Proofs.Paging

/-!
# The kernel's segments

`InitKernel` copies segment by segment out of the file, whose headers and bytes it reads as it goes
along. While no segment goes over the file, what it leaves is what the file says.
-/

namespace MyOS

open Memory Block

variable {mem : Mem} {f : Bytes} {size : ℕ}

theorem load32_bytesAt (mem : Mem) (a : Addr) (i : ℕ) :
    load32 mem (a + BitVec.ofNat 32 i) = word (bytesAt mem a) i := by
  have hzero : a + BitVec.ofNat 32 i + BitVec.ofNat 32 0 = a + BitVec.ofNat 32 i :=
    BitVec.add_zero _
  unfold load32 word bytesAt
  rw [hzero]
  simp only [BitVec.ofNat_add, BitVec.add_assoc]

theorem load16_bytesAt (mem : Mem) (a : Addr) (i : ℕ) :
    load16 mem (a + BitVec.ofNat 32 i) = half (bytesAt mem a) i := by
  unfold load16 half bytesAt
  rw [BitVec.ofNat_add, ← BitVec.add_assoc]
  rfl

/-- The segments of the kernel are those of all headers that are not empty. -/
def kernelSegmentsFrom (f : Bytes) (i : ℕ) : List ProgHdr := hdrsFrom (· ≠ 0) f i

def kernelSegments (f : Bytes) : List ProgHdr := kernelSegmentsFrom f 0

/-- A kernel file of `size` bytes: its headers and its segments are in the file, and what is loaded
goes over no byte of it. -/
structure KernelFile (f : Bytes) (size : ℕ) : Prop where
  size_le : size ≤ kernelValidSpace.toNat
  ehdr : 52 ≤ size
  some : 0 < (ePhnum f).toNat
  phentsize : ePhentsize f = 32
  progHdrs : (ePhoff f).toNat + 32 * (ePhnum f).toNat ≤ size
  segments : ∀ h ∈ kernelSegments f, h.pOffset.toNat + h.pFilesz.toNat ≤ size ∧
    Apart h.pVaddr h.pFilesz.toNat kernelFilePhyAddr size

/-- The file is where the loader has put it. -/
def KernelFileAt (mem : Mem) (f : Bytes) (size : ℕ) : Prop :=
  ∀ j < size, bytesAt mem kernelFilePhyAddr j = f j

theorem KernelFileAt.word (h : KernelFileAt mem f size) {a : ℕ} (ha : a + 4 ≤ size) :
    word (bytesAt mem kernelFilePhyAddr) a = Block.word f a :=
  word_congr fun i hi => h _ (by omega)

theorem KernelFileAt.half (h : KernelFileAt mem f size) {a : ℕ} (ha : a + 2 ≤ size) :
    half (bytesAt mem kernelFilePhyAddr) a = MyOS.half f a := by
  unfold MyOS.half
  rw [h a (by omega), h (a + 1) (by omega)]

theorem KernelFileAt.congr {mem' : Mem} (h : KernelFileAt mem f size) (hsize : size ≤ 2 ^ 32)
    (hmem : ∀ x, Within x kernelFilePhyAddr size → mem' x = mem x) : KernelFileAt mem' f size :=
  fun j hj => (hmem _ (within_add_ofNat _ hj hsize)).trans (h j hj)

/-- A segment is copied as its header says. -/
theorem KernelFileAt.memcpy (h : KernelFileAt mem f size) {s : ProgHdr} (hsize : size ≤ 2 ^ 32)
    (hin : s.pOffset.toNat + s.pFilesz.toNat ≤ size)
    (hout : Apart s.pVaddr s.pFilesz.toNat kernelFilePhyAddr size) :
    memcpy mem s.pVaddr (s.pOffset + kernelFilePhyAddr) s.pFilesz.toNat =
      (s.patch 0 f).apply mem := by
  have hsrc : ∀ i, s.pOffset + kernelFilePhyAddr + BitVec.ofNat 32 i =
      kernelFilePhyAddr + BitVec.ofNat 32 (s.pOffset.toNat + i) := fun i => by
    rw [BitVec.ofNat_add, BitVec.ofNat_toNat, BitVec.setWidth_eq, ← BitVec.add_assoc,
      BitVec.add_comm s.pOffset]
  have happart : Apart s.pVaddr s.pFilesz.toNat (s.pOffset + kernelFilePhyAddr)
      s.pFilesz.toNat := fun x hx hx' => by
    refine hout x hx ?_
    rw [show s.pOffset + kernelFilePhyAddr = kernelFilePhyAddr + BitVec.ofNat 32 s.pOffset.toNat by
      rw [BitVec.ofNat_toNat, BitVec.setWidth_eq, BitVec.add_comm], within_add (by omega)] at hx'
    exact Nat.lt_of_lt_of_le hx'.2 hin
  rw [memcpy_eq_poke _ _ _ _ (by omega) happart]
  unfold Patch.apply ProgHdr.patch
  dsimp only
  rw [show (0 : Addr) + s.pVaddr = s.pVaddr from BitVec.zero_add _]
  refine poke_congr fun i hi => ?_
  rw [hsrc]
  exact h _ (by omega)

theorem kernelSegmentsFrom_of_lt {i : ℕ} (hi : i < (ePhnum f).toNat) :
    kernelSegmentsFrom f i = if (progHdr f i).pType ≠ 0 then
      progHdr f i :: kernelSegmentsFrom f (i + 1) else kernelSegmentsFrom f (i + 1) :=
  hdrsFrom_of_lt hi

theorem mem_kernelSegments {i : ℕ} (hi : i < (ePhnum f).toNat) (h : (progHdr f i).pType ≠ 0) :
    progHdr f i ∈ kernelSegments f := by
  refine List.mem_filter.2 ⟨List.mem_map_of_mem (List.mem_range'_1.2 ?_), by simpa using h⟩
  omega

/-- What is read of a program header in memory. -/
theorem KernelFile.progHdr_at (hf : KernelFile f size) (h : KernelFileAt mem f size) {i : ℕ}
    (hi : i < (ePhnum f).toNat) :
    let esi := kernelFilePhyAddr + BitVec.ofNat 32 ((ePhoff f).toNat + 32 * i)
    load32 mem esi = (progHdr f i).pType ∧ load32 mem (esi + 4) = (progHdr f i).pOffset ∧
      load32 mem (esi + 8) = (progHdr f i).pVaddr ∧
        load32 mem (esi + 0x10) = (progHdr f i).pFilesz := by
  have hhdrs := hf.progHdrs
  have hent : i * (ePhentsize f).toNat = 32 * i := by
    rw [hf.phentsize]
    exact Nat.mul_comm i 32
  have hfield : ∀ k : ℕ, k + 4 ≤ 32 →
      load32 mem (kernelFilePhyAddr + BitVec.ofNat 32 ((ePhoff f).toNat + 32 * i) +
        BitVec.ofNat 32 k) = word f ((ePhoff f).toNat + i * (ePhentsize f).toNat + k) := by
    intro k hk
    rw [BitVec.add_assoc, ← BitVec.ofNat_add, load32_bytesAt, h.word (by omega), hent]
  refine ⟨?_, hfield 4 (by decide), hfield 8 (by decide), hfield 16 (by decide)⟩
  rw [load32_bytesAt, h.word (by omega), ← hent]
  rfl

theorem initKernelLoop_eq (hf : KernelFile f size) : ∀ (n i : ℕ) (mem : Mem),
    KernelFileAt mem f size →
    n + i = (ePhnum f).toNat →
      initKernelLoop n (kernelFilePhyAddr + BitVec.ofNat 32 ((ePhoff f).toNat + 32 * i)) mem =
        patched mem ((kernelSegmentsFrom f i).map (ProgHdr.patch 0 f))
  | 0, i, mem, _, hni => by
    unfold kernelSegmentsFrom hdrsFrom
    rw [show (ePhnum f).toNat - i = 0 by omega]
    rfl
  | n + 1, i, mem, h, hni => by
    have hi : i < (ePhnum f).toNat := by omega
    obtain ⟨htype, hoff, hvaddr, hsz⟩ := hf.progHdr_at h hi
    have hnext : kernelFilePhyAddr + BitVec.ofNat 32 ((ePhoff f).toNat + 32 * i) + 0x20 =
        kernelFilePhyAddr + BitVec.ofNat 32 ((ePhoff f).toNat + 32 * (i + 1)) := by
      rw [Nat.mul_succ, ← Nat.add_assoc, BitVec.ofNat_add (_ + _), ← BitVec.add_assoc]
      rfl
    have hsize : size ≤ 2 ^ 32 := Nat.le_trans hf.size_le (by decide)
    rw [initKernelLoop, hnext, htype, hoff, hvaddr, hsz, kernelSegmentsFrom_of_lt hi]
    by_cases hnull : (progHdr f i).pType = 0
    · rw [if_pos hnull, if_neg (not_not.2 hnull)]
      exact initKernelLoop_eq hf n (i + 1) mem h (by omega)
    · obtain ⟨hin, hout⟩ := hf.segments _ (mem_kernelSegments hi hnull)
      rw [if_neg hnull, if_pos hnull, h.memcpy hsize hin hout, List.map_cons, patched_cons]
      refine initKernelLoop_eq hf n (i + 1) _ (h.congr hsize fun x hx => ?_) (by omega)
      rw [Patch.apply_eq, if_neg fun hc => ?_]
      refine hout x ?_ hx
      have hstart : Within x (0 + (progHdr f i).pVaddr) (progHdr f i).pFilesz.toNat := hc
      rwa [show (0 : Addr) + (progHdr f i).pVaddr = _ from BitVec.zero_add _] at hstart

/-- What `InitKernel` leaves is the segments of the file, one after the other. -/
theorem initKernel_eq (hf : KernelFile f size) (h : KernelFileAt mem f size) :
    initKernel mem = patched mem ((kernelSegments f).map (ProgHdr.patch 0 f)) := by
  have hehdr := hf.ehdr
  have hnum : load16 mem (kernelFilePhyAddr + 0x2C) = ePhnum f :=
    (load16_bytesAt mem kernelFilePhyAddr 44).trans (h.half (by omega))
  have hoff : load32 mem (kernelFilePhyAddr + 0x1C) = ePhoff f :=
    (load32_bytesAt mem kernelFilePhyAddr 28).trans (h.word (by omega))
  have hcount : ((ePhnum f).setWidth 32).toNat = (ePhnum f).toNat :=
    BitVec.toNat_setWidth_of_le (by decide)
  have hstart : ePhoff f + kernelFilePhyAddr =
      kernelFilePhyAddr + BitVec.ofNat 32 ((ePhoff f).toNat + 32 * 0) := by
    rw [Nat.mul_zero, Nat.add_zero, BitVec.ofNat_toNat, BitVec.setWidth_eq, BitVec.add_comm]
  unfold initKernel
  dsimp only
  rw [hnum, hoff, loopCount_of_pos (by rw [hcount]; exact hf.some), hcount, hstart]
  exact initKernelLoop_eq hf _ 0 mem h rfl

end MyOS
