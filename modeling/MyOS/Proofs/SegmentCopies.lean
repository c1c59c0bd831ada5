import MyOS.Proofs.ExecArgs

/-!
# Where the copies of the loader go

The check of the loader adds two words of a program header, and the copy is of another one. So what
is copied stays in the image and in the file just when the sums that are not checked do.
-/

namespace MyOS

open Memory Block

variable {k : Kernel} {src : Slot}

/-- A copy writes to the image of its caller, which is at `base`, and reads the file of `size`
bytes. -/
structure PhysCopy.Inside (c : PhysCopy) (base : Addr) (size : BitVec 32) : Prop where
  image : ∀ x, Within x c.dst c.n.toNat → (x - base).toNat < procImageSizeDefault.toNat
  file : ∀ x, Within x c.src c.n.toNat → ((x - mmbuf).toNat : ℤ) < size.toInt

theorem ProgHdr.inside_iff {h : ProgHdr} {base : Addr} {size : BitVec 32} :
    PhysCopy.Inside ⟨base + h.pVaddr, mmbuf + h.pOffset, h.pFilesz⟩ base size ↔
      h.Contained size := by
  have hsize : size.toInt < 2 ^ 31 := BitVec.toInt_lt
  have himage : procImageSizeDefault.toNat < 2 ^ 32 := by decide
  have hn : h.pFilesz.toNat ≤ 2 ^ 32 := h.pFilesz.isLt.le
  have hwrite : (∀ x, Within x (base + h.pVaddr) h.pFilesz.toNat →
      (x - base).toNat < procImageSizeDefault.toNat) ↔ _ := within_subset_iff hn himage
  have hread : (∀ x, Within x (mmbuf + h.pOffset) h.pFilesz.toNat →
      (x - mmbuf).toNat < size.toInt.toNat) ↔ _ := within_subset_iff hn (by omega)
  unfold ProgHdr.Contained
  constructor
  · rintro ⟨hi, hf⟩
    have hi' := hwrite.1 hi
    have hf' := hread.1 fun x hx => by
      have := hf x hx
      omega
    omega
  · intro hc
    refine ⟨hwrite.2 (by omega), fun x hx => ?_⟩
    by_cases hn0 : h.pFilesz.toNat = 0
    · exact absurd (hn0 ▸ hx) (Nat.not_lt_zero _)
    · have := hread.2 (by omega) x hx
      omega

/-- Each copy is the one its header asks for. -/
theorem loadCopies_eq {imageSize : BitVec 32} {h : ProgHdr} {c : PhysCopy} :
    ∀ {fuel i : ℕ} {mem : Mem}, (h, c) ∈ loadCopies k src imageSize fuel i mem →
      c = ⟨((k.procTable src).ldts 1).linear + h.pVaddr, mmbuf + h.pOffset, h.pFilesz⟩
  | 0, _, _, hmem => absurd hmem List.not_mem_nil
  | fuel + 1, i, mem, hmem => by
    unfold loadCopies at hmem
    dsimp only at hmem
    split_ifs at hmem
    · cases hla : va2la k src (progHdr (bytesAt mem mmbuf) i).pVaddr with
      | error e =>
        rw [hla] at hmem
        exact absurd hmem List.not_mem_nil
      | ok la =>
        rw [hla] at hmem
        rcases List.mem_cons.1 hmem with heq | hmem
        · obtain ⟨rfl, rfl⟩ := Prod.mk.inj heq
          rw [va2la_eq hla]
        · exact loadCopies_eq hmem
    · exact absurd hmem List.not_mem_nil
    · exact loadCopies_eq hmem
    · exact absurd hmem List.not_mem_nil

/-! ## The condition -/

/-- Every segment that the loop comes to and its check lets through lies in the file and in the
image, with the headers read as the copies before leave them. -/
def SegmentsContained (k : Kernel) (src : Slot) (imageSize size : BitVec 32) : ℕ → ℕ → Mem → Prop
  | 0, _, _ => True
  | fuel + 1, i, mem =>
    i < (ePhnum (bytesAt mem mmbuf)).toNat →
      let h := progHdr (bytesAt mem mmbuf) i
      if h.pType = ptLoad then ∀ la, h.Fits imageSize → va2la k src h.pVaddr = .ok la →
        h.Contained size ∧ SegmentsContained k src imageSize size fuel (i + 1)
          (memcpy mem la (mmbuf + h.pOffset) h.pFilesz.toNat)
      else SegmentsContained k src imageSize size fuel (i + 1) mem

theorem segmentsContained_iff {imageSize size : BitVec 32} : ∀ {fuel i : ℕ} {mem : Mem},
    SegmentsContained k src imageSize size fuel i mem ↔
      ∀ x ∈ loadCopies k src imageSize fuel i mem, x.1.Contained size
  | 0, _, _ => by simp [SegmentsContained, loadCopies]
  | fuel + 1, i, mem => by
    unfold SegmentsContained loadCopies
    dsimp only
    by_cases hi : i < (ePhnum (bytesAt mem mmbuf)).toNat
    · rw [if_pos hi]
      by_cases hload : (progHdr (bytesAt mem mmbuf) i).pType = ptLoad
      · rw [if_pos hload, if_pos hload]
        by_cases hfits : (progHdr (bytesAt mem mmbuf) i).Fits imageSize
        · rw [if_pos hfits]
          cases va2la k src (progHdr (bytesAt mem mmbuf) i).pVaddr with
          | error e => simp
          | ok la => simp [hi, hfits, segmentsContained_iff]
        · simp [hfits]
      · rw [if_neg hload, if_neg hload]
        exact (forall_prop_of_true hi).trans segmentsContained_iff
    · simp [hi]

/-- The copies of the loader, those before an assertion that fails too, stay in the image of the
caller and in the file just when each segment let through lies there. -/
theorem segment_copies_inside (k : Kernel) (src : Slot) (mem : Mem) (size : BitVec 32) :
    (∀ x ∈ loadCopies k src procImageSizeDefault (2 ^ 16) 0 mem,
      x.2.Inside ((k.procTable src).ldts 1).linear size) ↔
      SegmentsContained k src procImageSizeDefault size (2 ^ 16) 0 mem := by
  rw [segmentsContained_iff]
  refine forall₂_congr fun x hx => ?_
  rw [show x.2 = _ from loadCopies_eq hx]
  exact ProgHdr.inside_iff

/-- A file in `mmbuf`. -/
def fileMem (file : List Byte) : Mem := fun x => file.getD (x - mmbuf).toNat 0

/-- A segment of 2 MB in a file of 84 bytes, of which its header says that four are used. -/
theorem segment_copied_outside : ∃ (k : Kernel) (src : Slot) (mem : Mem) (size : BitVec 32),
    Forked k src ∧ size.toInt < mmbufSize ∧
    IsElf (bytesAt mem mmbuf) size ∧
    ¬ ∀ x ∈ loadCopies k src procImageSizeDefault (2 ^ 16) 0 mem,
      x.2.Inside ((k.procTable src).ldts 1).linear size := by
  obtain ⟨k, hf⟩ := forked_child
  have hnum : (ePhnum (bytesAt (fileMem (elf 0x1000 0x200000 4)) mmbuf)).toNat = 1 := by
    decide +kernel
  have hoff : ePhoff (bytesAt (fileMem (elf 0x1000 0x200000 4)) mmbuf) = 52 := by decide +kernel
  have hent : ePhentsize (bytesAt (fileMem (elf 0x1000 0x200000 4)) mmbuf) = 32 := by
    decide +kernel
  have hhdr : progHdr (bytesAt (fileMem (elf 0x1000 0x200000 4)) mmbuf) 0 =
      ⟨ptLoad, 0, 0x1000, 0x200000, 4⟩ := by decide +kernel
  have hfits : ProgHdr.Fits ⟨ptLoad, 0, 0x1000, 0x200000, 4⟩ procImageSizeDefault := by decide
  have hout : ¬ ProgHdr.Contained 84 ⟨ptLoad, 0, 0x1000, 0x200000, 4⟩ := by
    unfold ProgHdr.Contained
    decide
  generalize fileMem (elf 0x1000 0x200000 4) = mem at hnum hhdr hoff hent
  have hload : (progHdr (bytesAt mem mmbuf) 0).pType = ptLoad := by rw [hhdr]
  rw [← hhdr] at hfits hout
  refine ⟨k, 9, mem, 84, hf, by decide, ⟨by decide, fun i hi => ?_⟩, fun hall => hout ?_⟩
  · obtain rfl : i = 0 := by omega
    rw [hoff, hent]
    decide
  · have hcopies (fuel : ℕ) : ∃ l, loadCopies k 9 procImageSizeDefault (fuel + 1) 0 mem =
        (progHdr (bytesAt mem mmbuf) 0, ⟨((k.procTable 9).ldts 1).linear +
          (progHdr (bytesAt mem mmbuf) 0).pVaddr, mmbuf + (progHdr (bytesAt mem mmbuf) 0).pOffset,
          (progHdr (bytesAt mem mmbuf) 0).pFilesz⟩) :: l := by
      unfold loadCopies
      rw [if_pos (by omega), if_pos hload, if_pos hfits, hf.va2la]
      exact ⟨_, rfl⟩
    obtain ⟨l, hl⟩ := hcopies 65535
    rw [show 2 ^ 16 = 65535 + 1 from rfl, hl] at hall
    exact ProgHdr.inside_iff.1 (hall _ List.mem_cons_self)

/-! ## A file that holds its headers -/

/-- A segment that is contained is not copied over `mmbuf`. -/
theorem ProgHdr.Contained.mmbuf_kept (hf : Forked k src) {h : ProgHdr} {size : BitVec 32}
    {mem : Mem} (hc : h.Contained size) {j : ℕ} (hj : j < mmbufSize) :
    bytesAt (memcpy mem (((k.procTable src).ldts 1).linear + h.pVaddr) (mmbuf + h.pOffset)
      h.pFilesz.toNat) mmbuf j = bytesAt mem mmbuf j := by
  refine memcpy_of_not_within h.pFilesz.isLt.le fun hw => ?_
  obtain hz | ⟨-, himage⟩ := hc
  · exact absurd (hz ▸ hw) (Nat.not_lt_zero _)
  · exact not_within_mmbuf le_rfl (hf.high (.inr himage) hw) (within_add_ofNat _ hj (by decide))

/-- By induction on the headers left: while the segments are contained the file stays in
`mmbuf`. -/
theorem segmentsContained_from (hf : Forked k src) {f : Bytes} {size imageSize : BitVec 32}
    (helf : IsElf f size) (hsize : size.toInt < mmbufSize) : ∀ {fuel i : ℕ} {mem : Mem},
    (∀ j : ℕ, j < size.toInt → bytesAt mem mmbuf j = f j) → (ePhnum f).toNat ≤ i + fuel →
      (SegmentsContained k src imageSize size fuel i mem ↔
        ∀ h ∈ (segmentsFrom f i).takeWhile fun h => h.Fits imageSize, h.Contained size)
  | 0, i, mem, _, hfuel => by
    have : (ePhnum f).toNat - i = 0 := by omega
    simp [SegmentsContained, segmentsFrom, hdrsFrom, this]
  | fuel + 1, i, mem, hmem, hfuel => by
    obtain ⟨hnum, hhdr⟩ := helf.progHdr_congr hmem
    unfold SegmentsContained
    by_cases hi : i < (ePhnum f).toNat
    · simp only [hnum, hi, hhdr i hi, forall_true_left, segmentsFrom_of_lt hi, hf.va2la,
        Except.ok.injEq]
      by_cases hload : (progHdr f i).pType = ptLoad
      · rw [if_pos hload, if_pos hload]
        by_cases hfits : (progHdr f i).Fits imageSize
        · rw [List.takeWhile_cons_of_pos (by simpa using hfits), List.forall_mem_cons]
          simp only [hfits, forall_true_left, forall_eq']
          refine and_congr_right fun hc => ?_
          refine segmentsContained_from hf helf hsize (fun j hj => ?_) (by omega)
          rw [← hmem j hj]
          exact hc.mmbuf_kept hf (by omega)
        · rw [List.takeWhile_cons_of_neg (by simpa using hfits)]
          simp [hfits]
      · rw [if_neg hload, if_neg hload]
        exact segmentsContained_from hf helf hsize hmem (by omega)
    · have : (ePhnum f).toNat - i = 0 := by omega
      simp [hnum, hi, segmentsFrom, hdrsFrom, this]

/-- The condition is one on the file: of the segments it describes, those before the first that the
check does not let through. -/
theorem segmentsContained_file (hf : Forked k src) {mem : Mem} {size : BitVec 32}
    (helf : IsElf (bytesAt mem mmbuf) size) (hsize : size.toInt < mmbufSize) :
    SegmentsContained k src procImageSizeDefault size (2 ^ 16) 0 mem ↔
      ∀ h ∈ (segments (bytesAt mem mmbuf)).takeWhile fun h => h.Fits procImageSizeDefault,
        h.Contained size := by
  have hnum := (ePhnum (bytesAt mem mmbuf)).isLt
  rw [← segmentsFrom_zero]
  exact segmentsContained_from hf helf hsize (fun _ _ => rfl) (by omega)

end MyOS
