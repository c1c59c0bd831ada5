import MyOS.Lib.Run
import MyOS.Fs.Disklog
import MyOS.Proofs.DeviceEnd

/-!
# The sectors of the log and the allocator

Bit `b` of the sector map stands for sector `b + n_1st_sect - 1` with `alloc_smap_bit`, and for
sector `b` with `disklog`, which marks the bits of the log's own sector numbers. So the sectors at
the end of the device stay free, but for those whose bits were set before.
-/

namespace MyOS

open Memory Block

variable {sb : SuperBlock} {fs fs' fs₁ : Fs} {disk disk' disk₀ : Bytes} {lo left : ℕ}

/-! ## What the first call marks -/

/-- How far the marks from bit `lo` of the disk on have come at bit `e`. `disk` is meant with the
sector in hand written back. -/
def Marking (disk₀ disk : Bytes) (lo left e : ℕ) : Prop :=
  ∃ c, c + left = nrSectsForLog ∧ (left = 0 ∨ lo + c = e) ∧ Marked disk₀ disk lo c

/-- With nothing left it does not matter where. -/
theorem Marking.carry {e k : ℕ} (hm : Marking disk₀ disk lo left e) (hk : left = 0 ∨ k = 0) :
    Marking disk₀ disk lo left (e + k) := by
  obtain ⟨c, hsum, hend, hmark⟩ := hm
  exact ⟨c, hsum, by omega, hmark⟩

/-- The sectors are counted within a byte only in the first turn. -/
theorem Marking.byte {s j : ℕ} {a a' : SmapAlloc × ℕ} (hs : s < 2 ^ 22) (hj : j < 512)
    (hk : a.2 < 8)
    (hm : Marking disk₀ (wrSect disk s a.1.fsbuf) lo a.1.left (4096 * s + 8 * j + a.2))
    (h : logByte a j = .ok a') :
    Marking disk₀ (wrSect disk s a'.1.fsbuf) lo a'.1.left (4096 * s + 8 * (j + 1)) ∧
      (a'.1.left = 0 ∨ a'.2 = 0) ∧ a'.2 < 8 := by
  obtain ⟨c, hsum, hend, hmark⟩ := hm
  unfold logByte at h
  split_ifs at h with hleft
  · obtain rfl := Except.ok.inj h
    exact ⟨⟨c, hsum, .inl hleft, hmark⟩, .inl hleft, hk⟩
  · obtain ⟨a₁, h₁, h⟩ := bind_eq_ok.1 h
    obtain rfl := Except.ok.inj h
    rw [drop_range] at h₁
    have hroom : a.2 + (8 - a.2) = 8 := by omega
    obtain ⟨-, c₁, hle₁, -, hend₁, hsum₁, hmark₁⟩ :=
      allocBits_ok hroom (Nat.pos_of_ne_zero hleft) h₁
    have hat := hend.resolve_left hleft
    have hmark' := hmark₁.wrSect disk hs (by omega)
    rw [show 4096 * s + (8 * j + a.2) = lo + c by omega] at hmark'
    dsimp only
    exact ⟨⟨c + c₁, by omega, hend₁.imp_right fun heq => by omega, hmark.trans hmark'⟩, .inr rfl,
      Nat.zero_lt_succ 7⟩

/-- Where all the bits to be marked are clear, a turn stops at no assertion. -/
theorem Marking.byte_total {s j : ℕ} {a : SmapAlloc × ℕ} (hs : s < 2 ^ 22) (hj : j < 512)
    (hclear : ∀ x, lo ≤ x → x < lo + nrSectsForLog → bit disk₀ x = false)
    (hm : Marking disk₀ (wrSect disk s a.1.fsbuf) lo a.1.left (4096 * s + 8 * j + a.2)) :
    ∃ a', logByte a j = .ok a' := by
  obtain ⟨c, hsum, hend, hmark⟩ := hm
  unfold logByte
  split_ifs with hleft
  · exact ⟨a, rfl⟩
  · have hat := hend.resolve_left hleft
    obtain ⟨a₁, h₁⟩ : ∃ a₁, allocBits j (List.range' a.2 (8 - a.2)) a.1 = .ok a₁ := by
      refine allocBits_total (Nat.pos_of_ne_zero hleft) fun x hx hx8 hxl => ?_
      have hbit : bit (wrSect disk s a.1.fsbuf) (4096 * s + 8 * j + x) = false := by
        rw [hmark.bit_eq, decide_eq_false (by omega), Bool.or_false]
        exact hclear _ (by omega) (by omega)
      rwa [bit_wrSect hs, if_pos (by omega),
        show 4096 * s + 8 * j + x - 4096 * s = 8 * j + x by omega] at hbit
    refine ⟨(a₁, 0), ?_⟩
    rw [drop_range, h₁, ok_bind]

theorem Marking.sect {s : ℕ} (hs : s < 2 ^ 22) : ∀ {l j : ℕ} {a a' : SmapAlloc × ℕ}, j + l < 512 →
    a.2 < 8 →
    Marking disk₀ (wrSect disk s a.1.fsbuf) lo a.1.left (4096 * s + 8 * j + a.2) →
    (List.range' j (l + 1)).foldlM logByte a = .ok a' →
    Marking disk₀ (wrSect disk s a'.1.fsbuf) lo a'.1.left (4096 * s + 8 * (j + l + 1))
  | 0, j, a, a', hl, hk, hm, h => by
    rw [List.range'_succ, List.foldlM_cons] at h
    obtain ⟨a₁, h₁, h⟩ := bind_eq_ok.1 h
    obtain rfl := Except.ok.inj h
    exact (hm.byte hs hl hk h₁).1
  | l + 1, j, a, a', hl, hk, hm, h => by
    rw [List.range'_succ, List.foldlM_cons] at h
    obtain ⟨a₁, h₁, h⟩ := bind_eq_ok.1 h
    obtain ⟨hm₁, hzero, hk₁⟩ := hm.byte hs (by omega) hk h₁
    have hm' := Marking.sect hs (by omega) hk₁ (hm₁.carry hzero) h
    rwa [show j + 1 + l + 1 = j + (l + 1) + 1 by omega] at hm'

theorem Marking.sect_total {s : ℕ} (hs : s < 2 ^ 22)
    (hclear : ∀ x, lo ≤ x → x < lo + nrSectsForLog → bit disk₀ x = false) :
    ∀ {l j : ℕ} {a : SmapAlloc × ℕ}, j + l ≤ 512 → a.2 < 8 →
    Marking disk₀ (wrSect disk s a.1.fsbuf) lo a.1.left (4096 * s + 8 * j + a.2) →
    ∃ a', (List.range' j l).foldlM logByte a = .ok a'
  | 0, j, a, _, _, _ => ⟨a, rfl⟩
  | l + 1, j, a, hl, hk, hm => by
    obtain ⟨a₁, h₁⟩ := hm.byte_total hs (by omega) hclear
    obtain ⟨hm₁, hzero, hk₁⟩ := hm.byte hs (by omega) hk h₁
    obtain ⟨a', h'⟩ := Marking.sect_total hs hclear (show j + 1 + l ≤ 512 by omega) hk₁
      (hm₁.carry hzero)
    refine ⟨a', ?_⟩
    rw [List.range'_succ, List.foldlM_cons, h₁, ok_bind, h']

theorem drop_range_sect {j l : ℕ} (h : j + l = 511) :
    (List.range sectorSize).drop j = List.range' j (l + 1) := by
  rw [List.range_eq_range', List.drop_range']
  simp only [sectorSize]
  congr 1 <;> omega

theorem Marking.enter {s e : ℕ} (hs : s < 2 ^ 22) (hm : Marking disk₀ disk lo left e) :
    Marking disk₀ (wrSect disk s (rdSect disk s)) lo left e := by
  rwa [wrSect_rdSect hs]

theorem logBlk (s₀ i : ℕ) : (s₀ : Int) + i = (s₀ + i : ℕ) := by
  omega

theorem Marking.loop {s₀ : ℕ} : ∀ {l i byteOff bitOff left left' : ℕ} {d d' : Device},
    s₀ + i + l ≤ 2 ^ 22 → byteOff < 512 → bitOff < 8 →
    Marking disk₀ d.disk lo left (4096 * (s₀ + i) + 8 * byteOff + bitOff) →
    logMap s₀ (List.range' i l) d byteOff bitOff left = .ok (left', d') →
    ∃ e, (left' = 0 ∨ 4096 * (s₀ + i + l) ≤ e) ∧ Marking disk₀ d'.disk lo left' e
  | 0, i, byteOff, bitOff, left, left', d, d', _, _, _, hm, h => by
    simp only [List.range'_zero, logMap, Except.ok.injEq, Prod.mk.injEq] at h
    obtain ⟨rfl, rfl⟩ := h
    exact ⟨_, .inr (by omega), hm⟩
  | l + 1, i, byteOff, bitOff, left, left', d, d', hs, hj, hk, hm, h => by
    obtain ⟨r, hr⟩ : ∃ r, byteOff + r = 511 := ⟨511 - byteOff, by omega⟩
    rw [List.range'_succ, logMap, drop_range_sect hr, logBlk] at h
    obtain ⟨⟨a, k⟩, ha, h⟩ := bind_eq_ok.1 h
    dsimp only at h
    have hm₁ := Marking.sect (by omega) (by omega) hk (hm.enter (by omega)) ha
    rw [show 4096 * (s₀ + i) + 8 * (byteOff + r + 1) = 4096 * (s₀ + (i + 1)) + 8 * 0 + 0 by omega]
      at hm₁
    split_ifs at h with hleft
    · simp only [Except.ok.injEq, Prod.mk.injEq] at h
      obtain ⟨rfl, rfl⟩ := h
      exact ⟨_, .inl rfl, hleft ▸ hm₁⟩
    · rw [show s₀ + i + (l + 1) = s₀ + (i + 1) + l by omega]
      exact Marking.loop (by omega) (by decide) (by decide) hm₁ h

theorem Marking.loop_total {s₀ : ℕ}
    (hclear : ∀ x, lo ≤ x → x < lo + nrSectsForLog → bit disk₀ x = false) :
    ∀ {l i byteOff bitOff left : ℕ} {d : Device},
    s₀ + i + l ≤ 2 ^ 22 → byteOff < 512 → bitOff < 8 →
    Marking disk₀ d.disk lo left (4096 * (s₀ + i) + 8 * byteOff + bitOff) →
    ∃ r, logMap s₀ (List.range' i l) d byteOff bitOff left = .ok r
  | 0, _, _, _, _, _, _, _, _, _ => ⟨_, rfl⟩
  | l + 1, i, byteOff, bitOff, left, d, hs, hj, hk, hm => by
    obtain ⟨r, hr⟩ : ∃ r, byteOff + r = 511 := ⟨511 - byteOff, by omega⟩
    have hin := hm.enter (s := s₀ + i) (by omega)
    obtain ⟨a, ha⟩ := Marking.sect_total
      (a := (⟨rdSect d.disk (s₀ + i : ℕ), left, 0⟩, bitOff)) (by omega) hclear
      (show byteOff + (r + 1) ≤ 512 by omega) hk hin
    have hm₁ := Marking.sect (by omega) (by omega) hk hin ha
    rw [show 4096 * (s₀ + i) + 8 * (byteOff + r + 1) = 4096 * (s₀ + (i + 1)) + 8 * 0 + 0 by omega]
      at hm₁
    rw [List.range'_succ, logMap, drop_range_sect hr, logBlk, ha, ok_bind]
    dsimp only
    split_ifs with hleft
    · exact ⟨_, rfl⟩
    · exact Marking.loop_total hclear (by omega) (by decide) (by decide) hm₁

theorem nrLogBlk0Nr_eq (h : sb.nrSects < 2 ^ 31) : nrLogBlk0Nr sb = sb.nrSects - 512 := by
  unfold nrLogBlk0Nr
  have hsects : (BitVec.ofNat 32 sb.nrSects).toInt = sb.nrSects := by
    rw [BitVec.toInt_eq_toNat_of_lt (by rw [BitVec.toNat_ofNat]; omega), BitVec.toNat_ofNat]
    omega
  rw [BitVec.toInt_sub, hsects, show (BitVec.ofNat 32 nrSectsForLog).toInt = 512 from rfl]
  exact Int.bmod_eq_of_le (by omega) (by omega)

/-- The sector, the byte and the bit of bit `n` of the map, as `disklog` computes them, -/
theorem logStart_eq (n : ℕ) : (n : Int).tdiv (sectorSize * 8 : ℕ) = (n / 4096 : ℕ) ∧
    ((n : Int).tmod (sectorSize * 8 : ℕ)).tdiv 8 = (n % 4096 / 8 : ℕ) ∧
    ((n : Int).tmod (sectorSize * 8 : ℕ)).tmod 8 = (n % 8 : ℕ) := by
  have hbits : ((sectorSize * 8 : ℕ) : Int) = 4096 := rfl
  have hmod : (n : Int).tmod 4096 = (n % 4096 : ℕ) := by
    rw [Int.tmod_eq_emod_of_nonneg (by omega)]
    omega
  rw [hbits, hmod]
  refine ⟨?_, ?_, ?_⟩
  · rw [Int.tdiv_eq_ediv_of_nonneg (by omega)]
    omega
  · rw [Int.tdiv_eq_ediv_of_nonneg (by omega)]
    omega
  · rw [Int.tmod_eq_emod_of_nonneg (by omega)]
    omega

/-- and for a device that is too small for the log. -/
theorem logStart_neg {k : ℕ} (hpos : 0 < k) (hle : k ≤ 512) :
    ((-(k : Int)).tmod (sectorSize * 8 : ℕ)).tdiv 8 < 0 ∨
      ((-(k : Int)).tmod (sectorSize * 8 : ℕ)).tmod 8 < 0 := by
  have hbits : ((sectorSize * 8 : ℕ) : Int) = 4096 := rfl
  have hmod : (-(k : Int)).tmod 4096 = -(k : Int) := by
    rw [Int.neg_tmod, Int.tmod_eq_of_lt (by omega) (by omega)]
  rw [hbits, hmod, Int.neg_tdiv, Int.neg_tmod, Int.tdiv_eq_ediv_of_nonneg (by omega),
    Int.tmod_eq_emod_of_nonneg (by omega)]
  omega

/-- Where the turns of the first call begin, for a device that holds the log. -/
theorem setLogSectSmap_eq {n : ℕ} {dev : Device} (h : nrLogBlk0Nr sb = n) :
    setLogSectSmap sb dev =
      (logMap (2 + sb.nrImapSects + n / 4096 : ℕ) (List.range' 0 2) dev (n % 4096 / 8) (n % 8)
        nrSectsForLog >>= fun r => assert (r.1 = 0) >>= fun _ => .ok r.2) := by
  obtain ⟨hdiv, hbyte, hbit⟩ := logStart_eq n
  have hcnt : List.range (nrSectsForLog / (sectorSize * 8) + 2) = List.range' 0 2 := by decide
  have hsect : ((1 + 1 + sb.nrImapSects : ℕ) : Int) + (n / 4096 : ℕ) =
      (2 + sb.nrImapSects + n / 4096 : ℕ) := by
    omega
  unfold setLogSectSmap
  dsimp only
  rw [h, hcnt, hdiv, hbyte, hbit, hsect, if_neg (by omega), Int.toNat_natCast, Int.toNat_natCast]

/-- A device that is too small is not marked. -/
theorem setLogSectSmap_fits {dev dev' : Device} (hsize : sb.nrSects < 2 ^ 31)
    (h : setLogSectSmap sb dev = .ok dev') : ∃ n, sb.nrSects = n + nrSectsForLog := by
  have heq := nrLogBlk0Nr_eq hsize
  by_cases hlog : 512 ≤ sb.nrSects
  · exact ⟨sb.nrSects - 512, (Nat.sub_add_cancel hlog).symm⟩
  · -- the bits would begin before the first one of a byte
    obtain ⟨k, hk⟩ : ∃ k : ℕ, (sb.nrSects : Int) - 512 = -(k : Int) :=
      ⟨512 - sb.nrSects, by omega⟩
    unfold setLogSectSmap at h
    dsimp only at h
    rw [heq, hk, if_pos (logStart_neg (by omega) (by omega))] at h
    cases h

theorem disklogInit_ok (hP : SmapPlaced fs.sb) (hsize : fs.sb.nrSects < 2 ^ 31)
    (h : disklogInit fs = .ok fs₁) : ∃ n disk', fs.sb.nrSects = n + nrSectsForLog ∧
      fs₁ = { fs with disk := disk' } ∧
      Marked fs.disk disk' (smapBase fs.sb + n) nrSectsForLog := by
  have hreach := hP.reach
  have hlog : nrSectsForLog = 512 := rfl
  have heq := nrLogBlk0Nr_eq hsize
  obtain ⟨dev, hset, h⟩ := bind_eq_ok.1 h
  obtain ⟨n, hn⟩ := setLogSectSmap_fits hsize hset
  rw [setLogSectSmap_eq (n := n) (by omega)] at hset
  obtain ⟨⟨left, dev'⟩, hloop, hset⟩ := bind_eq_ok.1 hset
  dsimp only at hset
  rw [assert_bind_eq_ok] at hset
  obtain ⟨rfl, hset⟩ := hset
  obtain rfl := Except.ok.inj hset
  refine ⟨n, dev'.disk, hn, (Except.ok.inj h).symm, ?_⟩
  have hstart : Marking fs.disk fs.disk (smapBase fs.sb + n) nrSectsForLog
      (4096 * (2 + fs.sb.nrImapSects + n / 4096 + 0) + 8 * (n % 4096 / 8) + n % 8) := by
    refine ⟨0, Nat.zero_add _, .inr ?_, .refl _ _⟩
    unfold smapBase
    omega
  obtain ⟨e, -, c, hsum, -, hmark⟩ :=
    Marking.loop (d := ⟨fs.disk, []⟩) (by omega) (by omega) (by omega) hstart hloop
  obtain rfl : c = nrSectsForLog := by omega
  exact hmark

theorem disklogInit_total (hP : SmapPlaced fs.sb) (hsize : fs.sb.nrSects < 2 ^ 31) {n : ℕ}
    (hn : fs.sb.nrSects = n + nrSectsForLog)
    (hclear : ∀ x, n ≤ x → x < n + nrSectsForLog → smapBit fs.sb fs.disk x = false) :
    ∃ fs₁, disklogInit fs = .ok fs₁ := by
  have hreach := hP.reach
  have hlog : nrSectsForLog = 512 := rfl
  have heq := nrLogBlk0Nr_eq hsize
  have hstart : Marking fs.disk fs.disk (smapBase fs.sb + n) nrSectsForLog
      (4096 * (2 + fs.sb.nrImapSects + n / 4096 + 0) + 8 * (n % 4096 / 8) + n % 8) := by
    refine ⟨0, Nat.zero_add _, .inr ?_, .refl _ _⟩
    unfold smapBase
    omega
  have hbits (x : ℕ) (hx : smapBase fs.sb + n ≤ x) (hlt : x < smapBase fs.sb + n + nrSectsForLog) :
      bit fs.disk x = false := by
    have := hclear (x - smapBase fs.sb) (by omega) (by omega)
    rwa [smapBit_base, show smapBase fs.sb + (x - smapBase fs.sb) = x by omega] at this
  obtain ⟨⟨left, dev'⟩, hloop⟩ := Marking.loop_total (d := ⟨fs.disk, []⟩) hbits (l := 2)
    (by omega) (by omega) (by omega) hstart
  -- the two sectors have room for all of them
  obtain ⟨e, hend, c, hsum, hat, -⟩ := Marking.loop (by omega) (by omega) (by omega) hstart hloop
  have hleft : left = 0 := by
    unfold smapBase at hat
    omega
  rw [disklogInit, setLogSectSmap_eq (n := n) (by omega), hloop, ok_bind, assert_of hleft, ok_bind]
  exact ⟨_, rfl⟩

/-! ## What is allocated afterwards -/

/-- The sectors of the log, the last ones of the device. -/
def LogSect (sb : SuperBlock) (s : ℕ) : Prop := sb.nrSects ≤ s + nrSectsForLog ∧ s < sb.nrSects

/-- What goes on after the first call has left `fs₁`: sectors are allocated, any number at a time;
sectors are given back, as `do_unlink` does, those taken since and the ones of bits in `removed`, of
files that were there before; and anything else that leaves the map alone. -/
inductive LogStep (removed : Set ℕ) (fs₁ fs : Fs) : Option (ℕ × ℕ) → Fs → Prop
  | alloc {n start : ℕ} {fs' : Fs} :
    0 < n → allocSmapBit fs n = .ok (start, fs') → LogStep removed fs₁ fs (some (start, n)) fs'
  | free {b n : ℕ} {disk' : Bytes} :
    (∀ x, b ≤ x → x < b + n → x ∈ removed ∨ smapBit fs₁.sb fs₁.disk x = false) →
      Unmarked fs.disk disk' (smapBase fs.sb + b) n →
      LogStep removed fs₁ fs none { fs with disk := disk' }
  | other {fs' : Fs} :
    fs'.sb = fs.sb →
      (∀ b < 4096 * fs.sb.nrSmapSects, smapBit fs.sb fs'.disk b = smapBit fs.sb fs.disk b) →
      LogStep removed fs₁ fs none fs'

/-- No sector of the log is ever allocated. -/
def LogKept (removed : Set ℕ) (fs₁ : Fs) : Prop :=
  ∀ l fs, Run (· = fs₁) (LogStep removed fs₁) l fs → ∀ start n, some (start, n) ∈ l →
    ∀ s, start ≤ s → s < start + n → ¬ LogSect fs₁.sb s

variable {removed : Set ℕ} {r : Option (ℕ × ℕ)} {l : List (Option (ℕ × ℕ))} {b n : ℕ}

/-- The bits that stay set. -/
def Stays (removed : Set ℕ) (fs₁ fs : Fs) : Prop :=
  fs.sb = fs₁.sb ∧ ∀ x < 4096 * fs₁.sb.nrSmapSects, smapBit fs₁.sb fs₁.disk x = true →
    x ∉ removed → smapBit fs₁.sb fs.disk x = true

theorem Stays.step (hP : SmapPlaced fs₁.sb) (h : Stays removed fs₁ fs)
    (hs : LogStep removed fs₁ fs r fs') : Stays removed fs₁ fs' := by
  obtain ⟨hsb, hset⟩ := h
  cases hs with
  | alloc hn hok =>
    obtain ⟨b, disk', -, -, rfl, hmark⟩ := allocSmapBit_run (hsb ▸ hP) hn hok
    refine ⟨hsb, fun x hx hbit hout => ?_⟩
    have hbit' := hset x hx hbit hout
    rw [smapBit_base] at hbit' ⊢
    rw [hmark.bit_eq, hbit', Bool.true_or]
  | @free b n disk' hfree hmark =>
    refine ⟨hsb, fun x hx hbit hout => ?_⟩
    have hbit' := hset x hx hbit hout
    have hnot : ¬ (b ≤ x ∧ x < b + n) := fun hin => by
      rcases hfree x hin.1 hin.2 with hmem | hclear
      · exact hout hmem
      · rw [hclear] at hbit
        exact Bool.false_ne_true hbit
    rw [smapBit_base] at hbit' ⊢
    rw [hmark, hbit', hsb, decide_eq_false (by omega)]
    rfl
  | other hsb' hsame =>
    refine ⟨hsb'.trans hsb, fun x hx hbit hout => ?_⟩
    rw [hsb] at hsame
    rw [hsame x hx]
    exact hset x hx hbit hout

theorem Stays.of_run (hP : SmapPlaced fs₁.sb) (h : Run (· = fs₁) (LogStep removed fs₁) l fs) :
    Stays removed fs₁ fs := by
  refine Run.invariant (P := fun _ fs => Stays removed fs₁ fs) (fun s hs => ?_)
    (fun _ _ _ _ h hs => h.step hP hs) h
  subst hs
  exact ⟨rfl, fun _ _ hbit _ => hbit⟩

/-- What is allocated has been clear. -/
theorem kept_of_stays (hP : SmapPlaced fs₁.sb) (hcond : ∀ b < 4096 * fs₁.sb.nrSmapSects,
      LogSect fs₁.sb (b + fs₁.sb.n1stSect - 1) → smapBit fs₁.sb fs₁.disk b = true ∧ b ∉ removed) :
    LogKept removed fs₁ := by
  intro l fs h
  induction h with
  | start hs => exact fun start n hmem => absurd hmem List.not_mem_nil
  | @snoc t fs fs' a h hs ih =>
    intro start n hmem s hge hlt hlog
    rcases List.mem_cons.1 hmem with rfl | hmem
    · cases hs with
      | alloc hn hok =>
        obtain ⟨hsb, hset⟩ := Stays.of_run hP h
        obtain ⟨b, disk', hrun, rfl, -⟩ := allocSmapBit_run (hsb ▸ hP) hn hok
        have hfirst := hP.first
        have hle := hrun.le
        rw [hsb] at hge hlt hle
        obtain ⟨x, rfl⟩ : ∃ x, s = x + fs₁.sb.n1stSect - 1 :=
          ⟨s + 1 - fs₁.sb.n1stSect, by omega⟩
        obtain ⟨hbit, hout⟩ := hcond x (by omega) hlog
        have hclear := hrun.clear x (by omega) (by omega)
        rw [hsb, hset x (by omega) hbit hout] at hclear
        exact Bool.false_ne_true hclear.symm
    · exact ih start n hmem s hge hlt hlog

/-- Sectors are allocated one by one until all bits before `b` are set. -/
theorem fill_before (hP : SmapPlaced fs₁.sb) (hb : b < 4096 * fs₁.sb.nrSmapSects) :
    ∀ {m p : ℕ} {l : List (Option (ℕ × ℕ))} {fs : Fs}, p + m = b →
      Run (· = fs₁) (LogStep removed fs₁) l fs → fs.sb = fs₁.sb →
      (∀ x < p, smapBit fs₁.sb fs.disk x = true) → smapBit fs₁.sb fs.disk b = false →
      ∃ l' fs', Run (· = fs₁) (LogStep removed fs₁) l' fs' ∧ fs'.sb = fs₁.sb ∧
        FreeRun fs₁.sb fs'.disk b 1
  | 0, p, l, fs, hp, h, hsb, hset, hclear => by
    obtain rfl : p = b := hp
    refine ⟨l, fs, h, hsb, hset, fun x hx hlt => ?_, hb⟩
    obtain rfl : x = p := by omega
    exact hclear
  | m + 1, p, l, fs, hp, h, hsb, hset, hclear => by
    by_cases hbit : smapBit fs₁.sb fs.disk p = true
    · refine fill_before hP hb (show p + 1 + m = b by omega) h hsb (fun x hx => ?_) hclear
      rcases Nat.lt_succ_iff_lt_or_eq.1 hx with hx | rfl
      · exact hset x hx
      · exact hbit
    · have hrun : FreeRun fs.sb fs.disk p 1 := by
        rw [hsb]
        refine ⟨hset, fun x hx hlt => ?_, by omega⟩
        obtain rfl : x = p := by omega
        exact Bool.not_eq_true _ ▸ hbit
      obtain ⟨disk', hok, hmark⟩ := allocSmapBit_total (hsb ▸ hP) Nat.one_pos hrun
      rw [hsb] at hmark
      refine fill_before hP hb (show p + 1 + m = b by omega) (.snoc h (.alloc Nat.one_pos hok)) hsb
        (fun x hx => ?_) ?_
      · rw [smapBit_base, hmark.bit_eq]
        rcases Nat.lt_succ_iff_lt_or_eq.1 hx with hx | rfl
        · rw [← smapBit_base, hset x hx, Bool.true_or]
        · rw [decide_eq_true (by omega), Bool.or_true]
      · rw [smapBit_base, hmark.bit_eq, ← smapBit_base, hclear, decide_eq_false (by omega)]
        rfl

/-- The sector of a bit that is clear, or whose sector is given back, is allocated sometime. -/
theorem allocated_of_free (hP : SmapPlaced fs₁.sb) (hb : b < 4096 * fs₁.sb.nrSmapSects)
    (hfree : smapBit fs₁.sb fs₁.disk b = false ∨ b ∈ removed) :
    ∃ l fs, Run (· = fs₁) (LogStep removed fs₁) l fs ∧
      some (b + fs₁.sb.n1stSect - 1, 1) ∈ l := by
  have hstart : Run (· = fs₁) (LogStep removed fs₁) [] fs₁ := .start rfl
  obtain ⟨l, fs, hl, hsb, hclear⟩ : ∃ l fs, Run (· = fs₁) (LogStep removed fs₁) l fs ∧
      fs.sb = fs₁.sb ∧ smapBit fs₁.sb fs.disk b = false := by
    rcases hfree with hclear | hmem
    · exact ⟨[], fs₁, hstart, rfl, hclear⟩
    · have hcleared := Unmarked.clear fs₁.disk (smapBase fs₁.sb + b)
      refine ⟨_, _, .snoc hstart (.free (fun x hx hlt => ?_) hcleared), rfl, ?_⟩
      · obtain rfl : x = b := by omega
        exact .inl hmem
      · rw [smapBit_base]
        rw [hcleared, decide_eq_true (by omega)]
        simp
  obtain ⟨l', fs', hl', hsb', hrun⟩ := fill_before hP hb (Nat.zero_add b) hl hsb
    (fun x hx => absurd hx (Nat.not_lt_zero x)) hclear
  obtain ⟨disk', hok, -⟩ := allocSmapBit_total (hsb' ▸ hP) Nat.one_pos (hsb' ▸ hrun)
  rw [hsb'] at hok
  exact ⟨_, _, .snoc hl' (.alloc Nat.one_pos hok), List.mem_cons_self⟩

/-- After the first call no sector of the log is allocated just where each bit that stands for one
with `alloc_smap_bit` is one that stands for one with `disklog`, or was set before and its sector is
not given back. -/
theorem log_kept_iff (hP : SmapPlaced fs.sb) (hsize : fs.sb.nrSects < 2 ^ 31)
    (hinit : disklogInit fs = .ok fs₁) (hremoved : ∀ b ∈ removed, ¬ LogSect fs.sb b) :
    LogKept removed fs₁ ↔ ∀ b < 4096 * fs.sb.nrSmapSects, LogSect fs.sb (b + fs.sb.n1stSect - 1) →
      LogSect fs.sb b ∨ smapBit fs.sb fs.disk b = true ∧ b ∉ removed := by
  obtain ⟨n, disk', hn, rfl, hmark⟩ := disklogInit_ok hP hsize hinit
  have hbit (b : ℕ) : smapBit fs.sb disk' b = true ↔
      LogSect fs.sb b ∨ smapBit fs.sb fs.disk b = true := by
    rw [smapBit_base, hmark.bit_eq, Bool.or_eq_true, decide_eq_true_iff, or_comm, smapBit_base]
    refine or_congr_left ?_
    unfold LogSect
    omega
  constructor
  · intro hkept b hb hlog
    by_contra hcond
    rw [not_or, not_and, not_not] at hcond
    have hfree : smapBit fs.sb disk' b = false ∨ b ∈ removed := by
      by_cases hset : smapBit fs.sb fs.disk b = true
      · exact .inr (hcond.2 hset)
      · exact .inl (Bool.not_eq_true _ ▸ fun h => ((hbit b).1 h).elim hcond.1 hset)
    have hP' : SmapPlaced { fs with disk := disk' }.sb := hP
    obtain ⟨l, fs', hrun, hmem⟩ := allocated_of_free hP' hb hfree
    exact hkept l fs' hrun _ _ hmem _ le_rfl (Nat.lt_succ_self _) hlog
  · intro hcond
    refine kept_of_stays hP fun b hb hlog => ?_
    rcases hcond b hb hlog with hmarked | ⟨hset, hout⟩
    · exact ⟨(hbit b).2 (.inl hmarked), fun hmem => hremoved b hmem hmarked⟩
    · exact ⟨(hbit b).2 (.inr hset), hout⟩

/-! ## A device of 40000 sectors -/

/-- The bits of its log are clear below `n` bytes of the map. -/
theorem disklogInit_filledFs {n : ℕ} (h : n ≤ 4936) :
    ∃ fs₁, disklogInit (filledFs (mkfsSb 40000) n) = .ok fs₁ := by
  have hsb := mkfsSb_eq 40000
  refine disklogInit_total (placed_mkfsSb (by omega)) ?_ (n := 39488) ?_ fun x hx _ => ?_
  · simp [hsb]
  · simp [hsb, nrSectsForLog, nrDefaultFileSects]
  · rw [filledFs_disk, filledFs_sb, smapBit_filledDisk, decide_eq_false (by omega)]

/-- With 38800 bits of the map set, the next file is put on sectors 39068 to 39579, of which those
from 39488 on are of the log. -/
theorem log_sectors_allocated : ∃ fs₁ start fs',
    disklogInit (filledFs (mkfsSb 40000) 4850) = .ok fs₁ ∧
    allocSmapBit fs₁ nrDefaultFileSects = .ok (start, fs') ∧
    ∃ s, start ≤ s ∧ s < start + nrDefaultFileSects ∧ LogSect (mkfsSb 40000) s := by
  have hsb := mkfsSb_eq 40000
  have hP : SmapPlaced (mkfsSb 40000) := placed_mkfsSb (by omega)
  obtain ⟨fs₁, hinit⟩ := disklogInit_filledFs (n := 4850) (by omega)
  obtain ⟨n, disk', hn, rfl, hmark⟩ := disklogInit_ok (by simpa using hP) (by simp [hsb]) hinit
  rw [filledFs_sb] at hn hmark
  rw [filledFs_disk] at hmark
  obtain rfl : n = 39488 := by
    simp only [hsb, nrSectsForLog, nrDefaultFileSects] at hn
    omega
  have hbit (x : ℕ) (hx : x < 39488) : smapBit (mkfsSb 40000) disk' x = decide (x < 8 * 4850) := by
    rw [smapBit_base, hmark.bit_eq, decide_eq_false (by omega), Bool.or_false, ← smapBit_base,
      smapBit_filledDisk]
  have hrun : FreeRun (mkfsSb 40000) disk' 38800 nrDefaultFileSects := by
    have hlen : nrDefaultFileSects = 512 := rfl
    refine ⟨fun x hx => ?_, fun x hx hlt => ?_, by simp [hsb, hlen]⟩
    · rw [hbit x (by omega), decide_eq_true (by omega)]
    · rw [hbit x (by omega), decide_eq_false (by omega)]
  obtain ⟨disk'', hok, -⟩ :=
    @allocSmapBit_total { filledFs (mkfsSb 40000) 4850 with disk := disk' } _ _
      hP (by decide) hrun
  refine ⟨_, _, _, hinit, hok, 39500, ?_, ?_, ?_⟩
  · simp [hsb]
  · simp [hsb, nrDefaultFileSects]
  · simp [LogSect, hsb, nrSectsForLog, nrDefaultFileSects]

/-- With all bits before those of the log set it is kept. -/
theorem log_kept_iff_filled : ∃ fs₁, disklogInit (filledFs (mkfsSb 40000) 4936) = .ok fs₁ ∧
    LogKept ∅ fs₁ := by
  have hsb := mkfsSb_eq 40000
  have hP : SmapPlaced (mkfsSb 40000) := placed_mkfsSb (by omega)
  obtain ⟨fs₁, hinit⟩ := disklogInit_filledFs (n := 4936) (by omega)
  refine ⟨fs₁, hinit, (log_kept_iff (by simpa using hP) (by simp [hsb]) hinit
    fun b hb => hb.elim).2 ?_⟩
  intro b _ hlog
  rw [filledFs_disk, filledFs_sb, smapBit_filledDisk]
  by_cases hb : b < 8 * 4936
  · exact .inr ⟨decide_eq_true hb, id⟩
  · refine .inl ?_
    rw [filledFs_sb] at hlog
    simp only [LogSect, hsb, nrSectsForLog, nrDefaultFileSects] at hlog ⊢
    omega

end MyOS
