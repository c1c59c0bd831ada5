import MyOS.DoExec
import MyOS.Lib.Patch
import MyOS.Proofs.FsOutcome
import MyOS.Proofs.Isolation

/-!
# What the loader writes

The file goes to `mmbuf` and nowhere else. Each segment that is loaded is a patch, with the bytes
the copy finds; while the segments lie in the file and in the image they leave `mmbuf` alone, so the
patches are those that the headers of the file describe.
-/

namespace MyOS

open Memory Block

variable {fs fs' : Fs} {mem mem' : Mem} {k : Kernel} {src : Slot}

/-! ## The file -/

theorem readTo_of_not {la x : Addr} {disk : Bytes} : ∀ {turns : List RdwtTurn} {mem : Mem},
    (∀ t ∈ turns, ¬ Within x (la + BitVec.ofInt 32 t.bytesRw) t.bytes.toNat) →
      readTo la disk turns mem x = mem x
  | [], _, _ => rfl
  | t :: l, mem, h => by
    rw [List.forall_mem_cons] at h
    exact (readTo_of_not h.2).trans (poke_of_not_within h.1)

theorem mmRead_mem {fd cnt : BitVec 32} (h : mmRead fs mem fd cnt = .ok (fs', mem')) {x : Addr}
    (hx : ¬ Within x mmbuf cnt.toInt.toNat) : mem' x = mem x := by
  unfold mmRead at h
  obtain ⟨desc, -, h⟩ := bind_eq_ok.1 h
  cases desc with
  | none => rw [← (Prod.mk.inj (Except.ok.inj h)).2]
  | some dp =>
    dsimp only at h
    split_ifs at h
    obtain ⟨⟨r, fs₁⟩, hf, h⟩ := bind_eq_ok.1 h
    rw [← (Prod.mk.inj (Except.ok.inj h)).2]
    unfold rdwtFile at hf
    rw [assert_bind_eq_ok] at hf
    obtain ⟨disk, hdisk, -⟩ := bind_eq_ok.1 hf.2
    refine readTo_of_not fun t ht => ?_
    by_cases hsects : 0 < rdwtSects (fs.inodeTable dp.2).toDiskInode true
        (fs.fDescTable dp.1).fdPos cnt
    · by_cases hlen : 0 ≤ cnt.toInt
      · have hlt : cnt.toInt < 2 ^ 31 := BitVec.toInt_lt
        obtain ⟨hrw, hb, hle⟩ := rdwtTurns_range hsects hlen ht
        rw [← Int.toNat_of_nonneg hrw, BitVec.ofInt_natCast]
        unfold Within at hx ⊢
        bv_omega
      · -- the first turn would move less than nothing
        obtain ⟨t, ht, -, hb⟩ := rdwtTurns_negative hsects (not_le.1 hlen)
        have := (rdwtDisk_ok hdisk t ht).1
        omega
    · rw [rdwtTurns_none (not_lt.1 hsects)] at ht
      exact nomatch ht

/-- Whatever comes of the three requests, the memory behind `mmbuf` is as before. -/
theorem execRead_mem {path : List Byte} {size : Option (BitVec 32)}
    (h : execRead fs mem path = .ok (size, fs', mem')) {x : Addr}
    (hx : ¬ Within x mmbuf mmbufSize) : mem' x = mem x := by
  unfold execRead at h
  obtain ⟨⟨s, fs₁⟩, -, h⟩ := bind_eq_ok.1 h
  cases s with
  | none => rw [← (Prod.mk.inj (Prod.mk.inj (Except.ok.inj h)).2).2]
  | some s =>
    obtain ⟨⟨fd, fs₂⟩, -, h⟩ := bind_eq_ok.1 h
    dsimp only at h
    split_ifs at h
    · rw [← (Prod.mk.inj (Prod.mk.inj (Except.ok.inj h)).2).2]
    · rw [assert_bind_eq_ok] at h
      obtain ⟨hsize, h⟩ := h
      obtain ⟨⟨fs₃, mem₁⟩, hread, h⟩ := bind_eq_ok.1 h
      rw [← (Prod.mk.inj (Prod.mk.inj (Except.ok.inj h)).2).2]
      refine mmRead_mem hread fun hw => hx ?_
      unfold Within at hw ⊢
      omega

theorem execRead_size {path : List Byte} {size : BitVec 32}
    (h : execRead fs mem path = .ok (some size, fs', mem')) : size.toInt < mmbufSize := by
  unfold execRead at h
  obtain ⟨⟨s, fs₁⟩, -, h⟩ := bind_eq_ok.1 h
  cases s with
  | none => exact nomatch (Prod.mk.inj (Except.ok.inj h)).1
  | some s =>
    obtain ⟨⟨fd, fs₂⟩, -, h⟩ := bind_eq_ok.1 h
    dsimp only at h
    split_ifs at h
    · exact nomatch (Prod.mk.inj (Except.ok.inj h)).1
    · rw [assert_bind_eq_ok] at h
      obtain ⟨hsize, h⟩ := h
      obtain ⟨⟨fs₃, mem₁⟩, -, h⟩ := bind_eq_ok.1 h
      rw [← Option.some.inj (Prod.mk.inj (Except.ok.inj h)).1]
      exact hsize

/-- The request has read its file: the size, and the memory then. -/
def ExecReads (mm : MmEnv) (fs : Fs) (k : Kernel) (src : Slot) (size : BitVec 32) (mem : Mem) :
    Prop :=
  ∃ path fs', getPath (userMem k src) (Message.load k.mem mm.mmMsg) = .ok path ∧
    execRead fs k.mem path = .ok (some size, fs', mem)

theorem ExecEnv.low (mm : ExecEnv) {x : Addr} (hx : Within x mm.mmMsg Message.size) :
    x.toNat < 0x600000 := by
  have := mm.mmMsg_low
  unfold Within Message.size at *
  bv_omega

theorem not_within_mmbuf_low {x : Addr} (hx : x.toNat < 0x600000) :
    ¬ Within x mmbuf mmbufSize := by
  unfold Within mmbuf mmbufSize
  bv_omega

/-! ## The segments -/

/-- The segments that the headers of a file describe. -/
def segments (f : Bytes) : List ProgHdr :=
  ((List.range (ePhnum f).toNat).map (progHdr f)).filter fun h => h.pType = ptLoad

/-- The bytes of a segment: those in the file and the rest. -/
def ProgHdr.extent (h : ProgHdr) : ℕ := max h.pFilesz.toNat h.pMemsz.toNat

/-- A file of `size` bytes that holds its headers. -/
structure IsElf (f : Bytes) (size : BitVec 32) : Prop where
  ehdr : 52 ≤ size.toInt
  progHdrs : ∀ i < (ePhnum f).toNat,
    ((ePhoff f).toNat + i * (ePhentsize f).toNat + 32 : ℕ) ≤ size.toInt

/-- What a segment writes, where the image starts at `base`. -/
def ProgHdr.patch (base : Addr) (f : Bytes) (h : ProgHdr) : Patch :=
  ⟨base + h.pVaddr, h.pFilesz.toNat, fun i => f (h.pOffset.toNat + i)⟩

theorem ProgHdr.covers_patch {base x : Addr} {f : Bytes} {h : ProgHdr} :
    (h.patch base f).Covers x ↔ Within x (base + h.pVaddr) h.pFilesz.toNat := .rfl

/-- The bytes of a segment that are loaded lie in the file and in the image. -/
def ProgHdr.Contained (size : BitVec 32) (h : ProgHdr) : Prop :=
  h.pFilesz.toNat = 0 ∨
    (h.pOffset.toNat + h.pFilesz.toNat : ℕ) ≤ size.toInt ∧
      h.pVaddr.toNat + h.pFilesz.toNat ≤ procImageSizeDefault.toNat

theorem IsElf.progHdr_congr {f g : Bytes} {size : BitVec 32} (h : IsElf f size)
    (hfg : ∀ j : ℕ, j < size.toInt → g j = f j) :
    ePhnum g = ePhnum f ∧ ∀ i < (ePhnum f).toNat, progHdr g i = progHdr f i := by
  have hehdr := h.ehdr
  have hhalf : ∀ a : ℕ, a + 1 < size.toInt → half g a = half f a := by
    intro a ha
    rw [half, half, hfg a (by omega), hfg (a + 1) (by omega)]
  have hword : ∀ a : ℕ, a + 3 < size.toInt → word g a = word f a := by
    intro a ha
    exact word_congr fun i hi => hfg _ (by omega)
  have hoff : ePhoff g = ePhoff f := hword 28 (by omega)
  have hent : ePhentsize g = ePhentsize f := hhalf 42 (by omega)
  refine ⟨hhalf 44 (by omega), fun i hi => ?_⟩
  have := h.progHdrs i hi
  unfold progHdr
  rw [hoff, hent]
  dsimp only
  rw [hword _ (by omega), hword _ (by omega), hword _ (by omega), hword _ (by omega),
    hword _ (by omega)]

/-! ## The loop -/

/-- What the loop writes, segment by segment. -/
def loads (k : Kernel) (src : Slot) : ℕ → ℕ → Mem → List Patch
  | 0, _, _ => []
  | fuel + 1, i, mem =>
    if i < (ePhnum (bytesAt mem mmbuf)).toNat then
      let h := progHdr (bytesAt mem mmbuf) i
      if h.pType = ptLoad then
        let p := copyPatch mem (((k.procTable src).ldts 1).linear + h.pVaddr) (mmbuf + h.pOffset)
          h.pFilesz.toNat
        p :: loads k src fuel (i + 1) (p.apply mem)
      else loads k src fuel (i + 1) mem
    else []

theorem loadSegments_ok (hf : Forked k src) {imageSize : BitVec 32} : ∀ {fuel i : ℕ} {mem : Mem},
    loadSegments k src imageSize fuel i mem = .ok mem' →
      mem' = patched mem (loads k src fuel i mem)
  | 0, _, _, h => (Except.ok.inj h).symm
  | fuel + 1, i, mem, h => by
    unfold loadSegments at h
    dsimp only at h
    split_ifs at h with hi hload
    · rw [assert_bind_eq_ok, hf.va2la] at h
      obtain ⟨la, hla, h⟩ := bind_eq_ok.1 h.2
      obtain rfl := Except.ok.inj hla
      rw [← copyPatch_apply _ _ _ _ (by omega)] at h
      simp only [loads, if_pos hi, if_pos hload]
      exact loadSegments_ok hf h
    · simp only [loads, if_pos hi, if_neg hload]
      exact loadSegments_ok hf h
    · simp only [loads, if_neg hi]
      exact (Except.ok.inj h).symm

/-- What lies in the image lies behind the buffers. -/
theorem Forked.high (hf : Forked k src) {va x : Addr} {n : ℕ} (hseg : InSegment va n)
    (hx : Within x (((k.procTable src).ldts 1).linear + va) n) : 0xA00000 ≤ x.toNat := by
  have hn : n ≤ 2 ^ 32 := by
    rcases hseg with rfl | hseg
    · omega
    · have : procImageSizeDefault.toNat = 0x100000 := rfl
      omega
  have := ((hf.inSegment hn).2 hseg x hx).1
  have hbase : procsBase.toNat = 0xA00000 := rfl
  unfold imageBase at this
  omega

theorem not_within_mmbuf {x : Addr} {n : ℕ} (hn : n ≤ mmbufSize) (hx : 0xA00000 ≤ x.toNat) :
    ¬ Within x mmbuf n := by
  have hsize : mmbufSize = 0x100000 := rfl
  have hbuf : mmbuf.toNat = 0x700000 := rfl
  unfold Within
  bv_omega

/-- The headers from number `i` on whose type is one of these. -/
def hdrsFrom (loads : BitVec 32 → Prop) [DecidablePred loads] (f : Bytes) (i : ℕ) : List ProgHdr :=
  ((List.range' i ((ePhnum f).toNat - i)).map (progHdr f)).filter fun h => loads h.pType

theorem hdrsFrom_of_lt {loads : BitVec 32 → Prop} [DecidablePred loads] {f : Bytes} {i : ℕ}
    (hi : i < (ePhnum f).toNat) :
    hdrsFrom loads f i = if loads (progHdr f i).pType then
      progHdr f i :: hdrsFrom loads f (i + 1) else hdrsFrom loads f (i + 1) := by
  unfold hdrsFrom
  rw [show (ePhnum f).toNat - i = (ePhnum f).toNat - (i + 1) + 1 by omega, List.range'_succ,
    List.map_cons, List.filter_cons]
  split_ifs <;> simp_all

/-- The segments of the headers from number `i` on. -/
def segmentsFrom (f : Bytes) (i : ℕ) : List ProgHdr := hdrsFrom (· = ptLoad) f i

theorem segmentsFrom_zero (f : Bytes) : segmentsFrom f 0 = segments f := by
  rw [segmentsFrom, hdrsFrom, segments, List.range_eq_range', Nat.sub_zero]

theorem segmentsFrom_of_lt {f : Bytes} {i : ℕ} (hi : i < (ePhnum f).toNat) :
    segmentsFrom f i = if (progHdr f i).pType = ptLoad then
      progHdr f i :: segmentsFrom f (i + 1) else segmentsFrom f (i + 1) :=
  hdrsFrom_of_lt hi

/-- The patches of the headers from number `i` on. -/
def patchesFrom (base : Addr) (f : Bytes) (i : ℕ) : List Patch :=
  (segmentsFrom f i).map (ProgHdr.patch base f)

theorem patchesFrom_zero (base : Addr) (f : Bytes) :
    patchesFrom base f 0 = (segments f).map (ProgHdr.patch base f) :=
  congrArg (List.map _) (segmentsFrom_zero f)

theorem patchesFrom_of_lt {base : Addr} {f : Bytes} {i : ℕ} (hi : i < (ePhnum f).toNat) :
    patchesFrom base f i = if (progHdr f i).pType = ptLoad then
      (progHdr f i).patch base f :: patchesFrom base f (i + 1) else patchesFrom base f (i + 1) := by
  change (segmentsFrom f i).map _ = _
  rw [segmentsFrom_of_lt hi]
  split_ifs <;> rfl

/-- A segment that lies in the file and in the image is loaded as its header describes it. -/
theorem ProgHdr.Contained.copy_apply (hf : Forked k src) {f : Bytes} {size : BitVec 32}
    {h : ProgHdr}
    (hc : h.Contained size) (hsize : size.toInt < mmbufSize)
    (hmem : ∀ j : ℕ, j < size.toInt → bytesAt mem mmbuf j = f j) :
    (copyPatch mem (((k.procTable src).ldts 1).linear + h.pVaddr) (mmbuf + h.pOffset)
      h.pFilesz.toNat).apply mem = (h.patch ((k.procTable src).ldts 1).linear f).apply mem := by
  funext x
  rw [Patch.apply_eq, Patch.apply_eq]
  by_cases hx : Within x (((k.procTable src).ldts 1).linear + h.pVaddr) h.pFilesz.toNat
  · have hlt : (x - (((k.procTable src).ldts 1).linear + h.pVaddr)).toNat < h.pFilesz.toNat := hx
    obtain hz | ⟨hfile, himage⟩ := hc
    · omega
    have hseg : InSegment h.pVaddr h.pFilesz.toNat := .inr himage
    have happart : Apart (((k.procTable src).ldts 1).linear + h.pVaddr) h.pFilesz.toNat
        (mmbuf + h.pOffset) h.pFilesz.toNat := by
      intro y hy hy'
      refine not_within_mmbuf le_rfl (hf.high hseg hy) ?_
      unfold Within at hy' ⊢
      bv_omega
    have hsrc : ∀ i : ℕ, mmbuf + h.pOffset + BitVec.ofNat 32 i =
        mmbuf + BitVec.ofNat 32 (h.pOffset.toNat + i) := by
      intro i
      rw [BitVec.ofNat_add, BitVec.ofNat_toNat, BitVec.setWidth_eq, BitVec.add_assoc]
    rw [if_pos (covers_copyPatch.2 hx), if_pos (covers_patch.2 hx)]
    refine (copyPatch_bytes (by omega) hlt happart).trans ?_
    rw [hsrc]
    exact hmem _ (by omega)
  · rw [if_neg (mt covers_copyPatch.1 hx), if_neg (mt covers_patch.1 hx)]

/-- While no segment is loaded over the file, the loop writes where the headers of the file say. -/
theorem loads_covers {f : Bytes} {size : BitVec 32} (helf : IsElf f size)
    (hsize : size.toInt < mmbufSize) (hkeep : ∀ h ∈ segments f,
      Apart (((k.procTable src).ldts 1).linear + h.pVaddr) h.pFilesz.toNat mmbuf mmbufSize) :
    ∀ {fuel i : ℕ} {mem : Mem} {p : Patch},
      (∀ j : ℕ, j < size.toInt → bytesAt mem mmbuf j = f j) → p ∈ loads k src fuel i mem →
        ∃ h ∈ segments f, p.start = ((k.procTable src).ldts 1).linear + h.pVaddr ∧
          p.len = h.pFilesz.toNat
  | 0, _, _, _, _, hp => absurd hp List.not_mem_nil
  | fuel + 1, i, mem, p, hmem, hp => by
    obtain ⟨hnum, hhdr⟩ := helf.progHdr_congr hmem
    by_cases hi : i < (ePhnum f).toNat
    · simp only [loads, hnum, if_pos hi, hhdr i hi] at hp
      by_cases hload : (progHdr f i).pType = ptLoad
      · have hseg : progHdr f i ∈ segments f :=
          List.mem_filter.2 ⟨List.mem_map_of_mem (List.mem_range.2 hi), by simpa using hload⟩
        rw [if_pos hload, List.mem_cons] at hp
        rcases hp with rfl | hp
        · exact ⟨_, hseg, rfl, rfl⟩
        · refine loads_covers helf hsize hkeep (fun j hj => ?_) hp
          rw [← hmem j hj]
          refine poke_of_not_within fun hw => hkeep _ hseg _ hw ?_
          exact within_add_ofNat _ (by omega) (by decide)
      · rw [if_neg hload] at hp
        exact loads_covers helf hsize hkeep hmem hp
    · simp only [loads, hnum, if_neg hi] at hp
      exact absurd hp List.not_mem_nil

/-- The patches of a file, in the image of a process. -/
def filePatches (k : Kernel) (src : Slot) (f : Bytes) : List Patch :=
  (segments f).map (ProgHdr.patch ((k.procTable src).ldts 1).linear f)

/-- While the segments lie in the file and in the image, what the loop writes is what the headers
of the file describe. -/
theorem loads_contained (hf : Forked k src) {f : Bytes} {size : BitVec 32} (helf : IsElf f size)
    (hsize : size.toInt < mmbufSize) (hc : ∀ h ∈ segments f, h.Contained size) :
    ∀ (fuel i : ℕ) (mem : Mem), (∀ j : ℕ, j < size.toInt → bytesAt mem mmbuf j = f j) →
      (ePhnum f).toNat ≤ i + fuel → patched mem (loads k src fuel i mem) =
        patched mem (patchesFrom ((k.procTable src).ldts 1).linear f i)
  | 0, i, mem, hmem, hfuel => by
    have : (ePhnum f).toNat - i = 0 := by omega
    simp [loads, patchesFrom, segmentsFrom, hdrsFrom, this]
  | fuel + 1, i, mem, hmem, hfuel => by
    obtain ⟨hnum, hhdr⟩ := helf.progHdr_congr hmem
    by_cases hi : i < (ePhnum f).toNat
    · have ih := loads_contained hf helf hsize hc fuel (i + 1)
      simp only [loads, hnum, if_pos hi, hhdr i hi, patchesFrom_of_lt hi]
      by_cases hload : (progHdr f i).pType = ptLoad
      · have hci : (progHdr f i).Contained size :=
          hc _ (List.mem_filter.2 ⟨List.mem_map_of_mem (List.mem_range.2 hi), by simpa using hload⟩)
        have happly := hci.copy_apply hf hsize hmem
        rw [if_pos hload, if_pos hload, patched_cons, patched_cons, happly]
        refine ih _ (fun j hj => ?_) (by omega)
        rw [← hmem j hj]
        refine poke_of_not_within fun hw => ?_
        replace hw := ProgHdr.covers_patch.1 hw
        obtain hz | ⟨-, himage⟩ := hci
        · exact absurd (hz ▸ hw) (Nat.not_lt_zero _)
        · refine not_within_mmbuf le_rfl (hf.high (.inr himage) hw) ?_
          exact within_add_ofNat _ (by omega) (by decide)
      · rw [if_neg hload, if_neg hload]
        exact ih mem hmem (by omega)
    · have : (ePhnum f).toNat - i = 0 := by omega
      simp [loads, hnum, hi, patchesFrom, segmentsFrom, hdrsFrom, this]

end MyOS
