import MyOS.Proofs.DiskMaps

/-!
# What `alloc_smap_bit` takes

The search stops at the first clear bit of the map, and the sectors are taken from there on: it
returns just where as many bits in a row are clear and in the map, and then gives the sector of the
first one and marks them.
-/

namespace MyOS

open Memory Block

variable {sb : SuperBlock} {fs fs' : Fs} {disk disk' disk₀ : Bytes} {n b : ℕ}

/-- A super block whose maps are in the first half of what has positions of 32 bits, and whose first
sector of files is behind the boot sector and the super block. -/
structure SmapPlaced (sb : SuperBlock) : Prop where
  reach : 2 + sb.nrImapSects + sb.nrSmapSects ≤ 2 ^ 21
  first : 2 ≤ sb.n1stSect

theorem Layout.placed (hL : Layout sb) : SmapPlaced sb := by
  have himap := hL.imap
  have hfirst := hL.first
  have hsmall := hL.small
  exact ⟨by omega, by omega⟩

/-- The first bit of the sector map on the disk. -/
def smapBase (sb : SuperBlock) : ℕ := 4096 * (2 + sb.nrImapSects)

theorem smapBit_base (sb : SuperBlock) (disk : Bytes) (b : ℕ) :
    smapBit sb disk b = bit disk (smapBase sb + b) := rfl

/-- The `n` bits from `b` on are the first ones that are clear, in the map and in a row. -/
structure FreeRun (sb : SuperBlock) (disk : Bytes) (b n : ℕ) : Prop where
  before : ∀ x < b, smapBit sb disk x = true
  clear : ∀ x, b ≤ x → x < b + n → smapBit sb disk x = false
  le : b + n ≤ 4096 * sb.nrSmapSects

/-! ## The bits of a byte -/

theorem allocBits_ok {j : ℕ} : ∀ {n k : ℕ} {a a' : SmapAlloc}, k + n = 8 → 0 < a.left →
    allocBits j (List.range' k n) a = .ok a' →
    a'.freeSectNr = a.freeSectNr ∧ ∃ c, c ≤ n ∧ (0 < n → 0 < c) ∧ (a'.left = 0 ∨ c = n) ∧
      a'.left + c = a.left ∧ Marked a.fsbuf a'.fsbuf (8 * j + k) c
  | 0, k, a, a', _, _, h => by
    rw [List.range'_zero, allocBits] at h
    obtain rfl := Except.ok.inj h
    exact ⟨rfl, 0, le_rfl, id, .inr rfl, rfl, .refl _ _⟩
  | n + 1, k, a, a', hk, hleft, h => by
    rw [List.range'_succ, allocBits, assert_bind_eq_ok] at h
    obtain ⟨hclear, h⟩ := h
    have hset := Marked.set hclear
    dsimp only at h
    split_ifs at h with hlast
    · obtain rfl := Except.ok.inj h
      dsimp only at hlast ⊢
      exact ⟨rfl, 1, by omega, fun _ => Nat.one_pos, .inl hlast, by omega, hset⟩
    · obtain ⟨hfree, c, hc, -, hend, hsum, hmark⟩ :=
        allocBits_ok (by omega) (Nat.pos_of_ne_zero hlast) h
      dsimp only at hfree hsum hmark
      refine ⟨hfree, 1 + c, by omega, fun _ => by omega, hend.imp_right (by omega), by omega,
        hset.trans ?_⟩
      rwa [Nat.add_assoc]

theorem allocBits_total {j : ℕ} : ∀ {n k : ℕ} {a : SmapAlloc}, 0 < a.left →
    (∀ x, k ≤ x → x < k + n → x < k + a.left → bit a.fsbuf (8 * j + x) = false) →
      ∃ a', allocBits j (List.range' k n) a = .ok a'
  | 0, k, a, _, _ => ⟨a, rfl⟩
  | n + 1, k, a, hleft, hclear => by
    have hbit : bit a.fsbuf (8 * j + k) = false := hclear k le_rfl (by omega) (by omega)
    rw [List.range'_succ, allocBits, assert_of hbit, ok_bind]
    dsimp only
    split_ifs with hlast
    · exact ⟨_, rfl⟩
    · refine allocBits_total (Nat.pos_of_ne_zero hlast) fun x hx hxn hxl => ?_
      dsimp only at hxl ⊢
      rw [bit_setBit, decide_eq_false (by omega), Bool.false_or]
      exact hclear x (by omega) (by omega) (by omega)

theorem drop_range {k : ℕ} : (List.range 8).drop k = List.range' k (8 - k) := by
  rw [List.range_eq_range', List.drop_range']
  simp

/-- A turn over a byte: nothing, or the first stretch of sectors begins in it, or goes on. -/
theorem allocByte_ok {i j : ℕ} {a a' : SmapAlloc} (h : allocByte sb i a j = .ok a') :
    a' = a ∧ (a.left = 0 ∨ a.freeSectNr = 0 ∧ a.fsbuf j = 0xFF) ∨
    0 < a.left ∧ ∃ k c, 0 < c ∧ k + c ≤ 8 ∧ (a'.left = 0 ∨ k + c = 8) ∧ a'.left + c = a.left ∧
      Marked a.fsbuf a'.fsbuf (8 * j + k) c ∧
      (a.freeSectNr = 0 ∧ (∀ x < k, bit a.fsbuf (8 * j + x) = true) ∧
          a'.freeSectNr = (i * sectorSize + j) * 8 + k + sb.n1stSect - 1 ∨
        a.freeSectNr ≠ 0 ∧ k = 0 ∧ a'.freeSectNr = a.freeSectNr) := by
  unfold allocByte at h
  split_ifs at h with hleft hfree hfull
  · exact .inl ⟨(Except.ok.inj h).symm, .inl hleft⟩
  · exact .inl ⟨(Except.ok.inj h).symm, .inr ⟨hfree, hfull⟩⟩
  · obtain ⟨hk, -, hbefore⟩ := firstClear_ok hfull
    dsimp only at h
    rw [drop_range] at h
    have hroom : firstClear a.fsbuf j + (8 - firstClear a.fsbuf j) = 8 := by omega
    obtain ⟨hsame, c, hc, hpos, hend, hsum, hmark⟩ :=
      allocBits_ok hroom (by exact Nat.pos_of_ne_zero hleft) h
    exact .inr ⟨Nat.pos_of_ne_zero hleft, firstClear a.fsbuf j, c, hpos (by omega), by omega,
      hend.imp_right (by omega), hsum, hmark, .inl ⟨hfree, hbefore, hsame⟩⟩
  · rw [List.range_eq_range'] at h
    obtain ⟨hsame, c, hc, hpos, hend, hsum, hmark⟩ :=
      allocBits_ok (by omega) (Nat.pos_of_ne_zero hleft) h
    exact .inr ⟨Nat.pos_of_ne_zero hleft, 0, c, hpos (by decide), by omega,
      hend.imp_right (by omega), hsum, hmark, .inr ⟨hfree, rfl, hsame⟩⟩

/-! ## The loops -/

/-- How far `alloc_smap_bit` has come at bit `e` of the map, for `n` sectors: it has not found a
clear bit, or it has taken the sectors from the one of bit `b` on. `disk` is meant with the sector
in hand written back. -/
def Taking (sb : SuperBlock) (n : ℕ) (disk₀ disk : Bytes) (left free e : ℕ) : Prop :=
  free = 0 ∧ left = n ∧ disk = disk₀ ∧ (∀ x < e, smapBit sb disk₀ x = true) ∨
  free ≠ 0 ∧ ∃ b c, 0 < c ∧ free = b + sb.n1stSect - 1 ∧ b + c ≤ e ∧ (left = 0 ∨ b + c = e) ∧
    left + c = n ∧ Marked disk₀ disk (smapBase sb + b) c ∧ ∀ x < b, smapBit sb disk₀ x = true

/-- The bit that the search has come to begins the first stretch of clear bits. -/
theorem Marked.first {c : ℕ} (hmark : Marked disk₀ disk (smapBase sb + b) c) (hc : 0 < c)
    (hbefore : ∀ x < b, smapBit sb disk₀ x = true) {b' : ℕ} (h : FreeRun sb disk₀ b' n)
    (hn : 0 < n) : b = b' := by
  have hb := hmark.clear (smapBase sb + b) le_rfl (by omega)
  have hb' := h.clear b' le_rfl (by omega)
  rcases Nat.lt_trichotomy b b' with hlt | rfl | hgt
  · exact absurd (h.before b hlt) (by rw [smapBit_base, hb]; decide)
  · rfl
  · exact absurd (hbefore b' hgt) (by rw [hb']; decide)

theorem smapBit_wrSect (hP : SmapPlaced sb) {i : ℕ} (hi : i < sb.nrSmapSects) (disk f : Bytes)
    {x : ℕ}
    (hx : x < 4096) :
    smapBit sb (wrSect disk (2 + sb.nrImapSects + i : ℕ) f) (4096 * i + x) = bit f x := by
  have hfirst := hP.first
  have hreach := hP.reach
  rw [smapBit_base, smapBase, bit_wrSect (by omega), if_pos (by omega)]
  congr 1
  omega

theorem Taking.byte {i j : ℕ} {a a' : SmapAlloc} (hP : SmapPlaced sb) (hn : 0 < n)
    (hi : i < sb.nrSmapSects) (hj : j < 512)
    (ht : Taking sb n disk₀ (wrSect disk (2 + sb.nrImapSects + i : ℕ) a.fsbuf) a.left a.freeSectNr
      (4096 * i + 8 * j))
    (h : allocByte sb i a j = .ok a') :
    Taking sb n disk₀ (wrSect disk (2 + sb.nrImapSects + i : ℕ) a'.fsbuf) a'.left a'.freeSectNr
      (4096 * i + 8 * (j + 1)) ∧ (a'.freeSectNr = 0 → a.freeSectNr = 0) := by
  have hfirst := hP.first
  have hreach := hP.reach
  have hbits (x : ℕ) (hx : x < 8) :
      smapBit sb (wrSect disk (2 + sb.nrImapSects + i : ℕ) a.fsbuf) (4096 * i + 8 * j + x) =
        bit a.fsbuf (8 * j + x) := by
    rw [Nat.add_assoc (4096 * i)]
    exact smapBit_wrSect hP hi disk a.fsbuf (by omega)
  rcases allocByte_ok h with ⟨rfl, hidle⟩ | ⟨hleft, k, c, hpos, hc, hend, hsum, hmark, hfree⟩
  · refine ⟨?_, id⟩
    rcases ht with ⟨hzero, hl, hdisk, hset⟩ | ⟨hne, b, c, hpos, hb, hc, hend, hsum, hmark, hset⟩
    · have hfull := (hidle.resolve_left (by omega)).2
      refine .inl ⟨hzero, hl, hdisk, fun x hx => ?_⟩
      by_cases hlt : x < 4096 * i + 8 * j
      · exact hset x hlt
      · have := hbits (x - (4096 * i + 8 * j)) (by omega)
        rw [eq_ff_iff.1 hfull _ (by omega), hdisk] at this
        rwa [show 4096 * i + 8 * j + (x - (4096 * i + 8 * j)) = x by omega] at this
    · have hl := hidle.resolve_right fun hz => hne hz.1
      exact .inr ⟨hne, b, c, hpos, hb, by omega, .inl hl, hsum, hmark, hset⟩
  have hmark := hmark.wrSect disk (s := 2 + sb.nrImapSects + i) (by omega) (by omega)
  rcases hfree with ⟨hzero, hset', hnew⟩ | ⟨hne, rfl, hsame⟩
  · rcases ht with ⟨-, hn, hdisk, hset⟩ | ⟨hne, -⟩
    · simp only [sectorSize] at hnew
      refine ⟨.inr ⟨by omega, (i * 512 + j) * 8 + k, c, hpos, hnew, by omega,
        hend.imp_right (by omega), by omega, ?_, fun x hx => ?_⟩, fun _ => hzero⟩
      · rw [hdisk] at hmark
        rwa [show smapBase sb + ((i * 512 + j) * 8 + k) =
          4096 * (2 + sb.nrImapSects + i) + (8 * j + k) by unfold smapBase; omega]
      · by_cases hlt : x < 4096 * i + 8 * j
        · exact hset x hlt
        · have := hbits (x - (4096 * i + 8 * j)) (by omega)
          rw [hset' _ (by omega), hdisk] at this
          rwa [show 4096 * i + 8 * j + (x - (4096 * i + 8 * j)) = x by omega] at this
    · exact absurd hzero hne
  · rcases ht with ⟨hzero, -⟩ | ⟨-, b, c₀, hpos₀, hb, hle, hat, hsum₀, hmark₀, hset⟩
    · exact absurd hzero hne
    · refine ⟨.inr ⟨by omega, b, c₀ + c, by omega, by omega, by omega, hend.imp_right (by omega),
        by omega, hmark₀.trans ?_, hset⟩, fun hz => absurd (hsame ▸ hz) hne⟩
      rwa [show smapBase sb + b + c₀ = 4096 * (2 + sb.nrImapSects + i) + (8 * j + 0) by
        unfold smapBase; omega]

/-- Where there is a row of clear bits, a turn stops at no assertion. -/
theorem Taking.byte_total {i j : ℕ} {a : SmapAlloc} (hP : SmapPlaced sb) (hn : 0 < n)
    (hi : i < sb.nrSmapSects) (hj : j < 512) (hrun : FreeRun sb disk₀ b n)
    (ht : Taking sb n disk₀ (wrSect disk (2 + sb.nrImapSects + i : ℕ) a.fsbuf) a.left a.freeSectNr
      (4096 * i + 8 * j)) : ∃ a', allocByte sb i a j = .ok a' := by
  have hbits (x : ℕ) (hx : x < 8) :
      smapBit sb (wrSect disk (2 + sb.nrImapSects + i : ℕ) a.fsbuf) (4096 * i + 8 * j + x) =
        bit a.fsbuf (8 * j + x) := by
    rw [Nat.add_assoc (4096 * i)]
    exact smapBit_wrSect hP hi disk a.fsbuf (by omega)
  unfold allocByte
  split_ifs with hleft hfree hfull
  · exact ⟨a, rfl⟩
  · exact ⟨a, rfl⟩
  · -- the first clear bit is in this byte
    obtain ⟨hk, hclear, hbefore⟩ := firstClear_ok hfull
    dsimp only
    rw [drop_range]
    rcases ht with ⟨-, hl, hdisk, hset⟩ | ⟨hne, -⟩
    · rw [hdisk] at hbits
      have hb : 4096 * i + 8 * j + firstClear a.fsbuf j = b := by
        have hb' := hrun.clear b le_rfl (by omega)
        have hk' := hbits _ hk
        rw [hclear] at hk'
        rcases Nat.lt_trichotomy (4096 * i + 8 * j + firstClear a.fsbuf j) b with hlt | heq | hgt
        · exact absurd (hrun.before _ hlt) (by rw [hk']; decide)
        · exact heq
        · by_cases hlt : b < 4096 * i + 8 * j
          · exact absurd (hset b hlt) (by rw [hb']; decide)
          · have := hbits (b - (4096 * i + 8 * j)) (by omega)
            rw [show 4096 * i + 8 * j + (b - (4096 * i + 8 * j)) = b by omega, hb',
              hbefore _ (by omega)] at this
            exact absurd this (by decide)
      refine allocBits_total (Nat.pos_of_ne_zero hleft) fun x hx hx8 hxl => ?_
      dsimp only at hxl ⊢
      rw [← hbits x (by omega)]
      exact hrun.clear _ (by omega) (by omega)
    · exact absurd hfree hne
  · rw [List.range_eq_range']
    rcases ht with ⟨hzero, -⟩ | ⟨-, b', c, hpos, -, hle, hat, hsum, hmark, hset⟩
    · exact absurd hzero hfree
    · obtain rfl := hmark.first hpos hset hrun hn
      refine allocBits_total (Nat.pos_of_ne_zero hleft) fun x hx hx8 hxl => ?_
      rw [← hbits x (by omega), smapBit_base, hmark.bit_eq, decide_eq_false (by omega),
        Bool.or_false]
      exact hrun.clear _ (by omega) (by omega)

/-- The state at the start of a sector, with the sector read. -/
theorem Taking.enter {i left free : ℕ} (hP : SmapPlaced sb) (hi : i < sb.nrSmapSects)
    (ht : Taking sb n disk₀ disk left free (4096 * i)) :
    Taking sb n disk₀ (wrSect disk (2 + sb.nrImapSects + i : ℕ)
      (rdSect disk (2 + sb.nrImapSects + i : ℕ))) left free (4096 * i + 8 * 0) := by
  have hfirst := hP.first
  have hreach := hP.reach
  rwa [wrSect_rdSect (by omega)]

theorem Taking.sect {i : ℕ} (hP : SmapPlaced sb) (hn : 0 < n) (hi : i < sb.nrSmapSects) :
    ∀ {l j : ℕ} {a a' : SmapAlloc}, j + l = 512 →
    Taking sb n disk₀ (wrSect disk (2 + sb.nrImapSects + i : ℕ) a.fsbuf) a.left a.freeSectNr
      (4096 * i + 8 * j) →
    (List.range' j l).foldlM (allocByte sb i) a = .ok a' →
    Taking sb n disk₀ (wrSect disk (2 + sb.nrImapSects + i : ℕ) a'.fsbuf) a'.left a'.freeSectNr
      (4096 * (i + 1)) ∧ (a'.freeSectNr = 0 → a.freeSectNr = 0)
  | 0, j, a, a', hl, ht, h => by
    obtain rfl := Except.ok.inj h
    obtain rfl : j = 512 := hl
    exact ⟨ht, id⟩
  | l + 1, j, a, a', hl, ht, h => by
    rw [List.range'_succ, List.foldlM_cons] at h
    obtain ⟨a₁, h₁, h⟩ := bind_eq_ok.1 h
    obtain ⟨ht₁, hfree₁⟩ := ht.byte hP hn hi (by omega) h₁
    obtain ⟨ht', hfree'⟩ := Taking.sect hP hn hi (by omega) ht₁ h
    exact ⟨ht', hfree₁ ∘ hfree'⟩

theorem Taking.sect_total {i : ℕ} (hP : SmapPlaced sb) (hn : 0 < n) (hi : i < sb.nrSmapSects)
    (hrun : FreeRun sb disk₀ b n) : ∀ {l j : ℕ} {a : SmapAlloc}, j + l = 512 →
    Taking sb n disk₀ (wrSect disk (2 + sb.nrImapSects + i : ℕ) a.fsbuf) a.left a.freeSectNr
      (4096 * i + 8 * j) → ∃ a', (List.range' j l).foldlM (allocByte sb i) a = .ok a'
  | 0, j, a, _, _ => ⟨a, rfl⟩
  | l + 1, j, a, hl, ht => by
    obtain ⟨a₁, h₁⟩ := ht.byte_total hP hn hi (by omega) hrun
    obtain ⟨ht₁, -⟩ := ht.byte hP hn hi (by omega) h₁
    obtain ⟨a', h'⟩ := Taking.sect_total hP hn hi hrun (show j + 1 + l = 512 by omega) ht₁
    refine ⟨a', ?_⟩
    rw [List.range'_succ, List.foldlM_cons, h₁, ok_bind, h']

/-- The sector in hand is written back where something is taken, and is as it was elsewhere. -/
theorem Taking.leave {i left free : ℕ} {a : SmapAlloc}
    (ht : Taking sb n disk₀ disk left free (4096 * i))
    (ht' : Taking sb n disk₀ (wrSect disk (2 + sb.nrImapSects + i : ℕ) a.fsbuf) a.left a.freeSectNr
      (4096 * (i + 1)))
    (hfree : a.freeSectNr = 0 → free = 0) :
    (if a.freeSectNr ≠ 0 then wrSect disk (2 + sb.nrImapSects + i : ℕ) a.fsbuf else disk) =
      wrSect disk (2 + sb.nrImapSects + i : ℕ) a.fsbuf := by
  split_ifs with hzero
  · rfl
  · have hzero := not_not.1 hzero
    rcases ht with ⟨-, -, hdisk, -⟩ | ⟨hne, -⟩
    · rcases ht' with ⟨-, -, hdisk', -⟩ | ⟨hne, -⟩
      · rw [hdisk, ← hdisk, hdisk', hdisk]
      · exact absurd hzero hne
    · exact absurd (hfree hzero) hne

theorem smapBlk (sb : SuperBlock) (i : ℕ) :
    (1 + 1 + sb.nrImapSects + i : Int) = (2 + sb.nrImapSects + i : ℕ) := by
  omega

theorem Taking.loop (hP : SmapPlaced sb) (hn : 0 < n) {l i : ℕ} {disk disk' : Bytes}
    {left free left' free' : ℕ} (hl : i + l = sb.nrSmapSects)
    (ht : Taking sb n disk₀ disk left free (4096 * i))
    (h : allocSmapLoop sb (List.range' i l) disk left free = .ok (free', left', disk')) :
    Taking sb n disk₀ disk' left' free' (4096 * sb.nrSmapSects) := by
  induction l generalizing i disk left free with
  | zero =>
    simp only [List.range'_zero, allocSmapLoop, Except.ok.injEq, Prod.mk.injEq] at h
    obtain ⟨rfl, rfl, rfl⟩ := h
    rwa [← hl, Nat.add_zero]
  | succ l ih =>
    rw [List.range'_succ, allocSmapLoop] at h
    obtain ⟨a, ha, h⟩ := bind_eq_ok.1 h
    dsimp only at h
    rw [smapBlk] at ha h
    rw [List.range_eq_range'] at ha
    obtain ⟨ht₁, hfree⟩ := Taking.sect hP hn (by omega) (Nat.zero_add _) (ht.enter hP (by omega)) ha
    rw [ht.leave ht₁ hfree] at h
    split_ifs at h with hleft
    · simp only [Except.ok.injEq, Prod.mk.injEq] at h
      obtain ⟨rfl, rfl, rfl⟩ := h
      rw [hleft] at ht₁
      rcases ht₁ with ⟨-, hzero, -⟩ | ⟨hne, b, c, hpos, hb, hc, -, hsum, hmark, hset⟩
      · omega
      · exact .inr ⟨hne, b, c, hpos, hb, by omega, .inl rfl, hsum, hmark, hset⟩
    · exact ih (by omega) ht₁ h

theorem Taking.loop_total (hP : SmapPlaced sb) (hn : 0 < n) (hrun : FreeRun sb disk₀ b n) {l i : ℕ}
    {disk : Bytes} {left free : ℕ} (hl : i + l = sb.nrSmapSects)
    (ht : Taking sb n disk₀ disk left free (4096 * i)) :
    ∃ r, allocSmapLoop sb (List.range' i l) disk left free = .ok r := by
  induction l generalizing i disk left free with
  | zero => exact ⟨_, rfl⟩
  | succ l ih =>
    have hin := ht.enter hP (show i < sb.nrSmapSects by omega)
    have hi : i < sb.nrSmapSects := by omega
    obtain ⟨a, ha⟩ := Taking.sect_total
      (a := ⟨rdSect disk (2 + sb.nrImapSects + i : ℕ), left, free⟩) hP hn hi hrun
      (show 0 + 512 = 512 from rfl) hin
    obtain ⟨ht₁, hfree⟩ := Taking.sect hP hn hi (show 0 + 512 = 512 from rfl) hin ha
    rw [List.range'_succ, allocSmapLoop, smapBlk, List.range_eq_range']
    change ∃ r, ((List.range' 0 512).foldlM (allocByte sb i) _ >>= _) = .ok r
    rw [ha, ok_bind]
    dsimp only
    rw [ht.leave ht₁ hfree]
    split_ifs with hleft
    · exact ⟨_, rfl⟩
    · exact ih (by omega) ht₁

/-! ## The function -/

/-- `alloc_smap_bit` returns the sector of the first clear bit, and marks as many bits as it has
been asked for, all clear before; -/
theorem allocSmapBit_run {free : ℕ} (hP : SmapPlaced fs.sb) (hn : 0 < n)
    (h : allocSmapBit fs n = .ok (free, fs')) :
    ∃ b disk', FreeRun fs.sb fs.disk b n ∧ free = b + fs.sb.n1stSect - 1 ∧
      fs' = { fs with disk := disk' } ∧ Marked fs.disk disk' (smapBase fs.sb + b) n := by
  unfold allocSmapBit at h
  obtain ⟨⟨free₁, left, disk'⟩, hloop, h⟩ := bind_eq_ok.1 h
  dsimp only at h
  rw [assert_bind_eq_ok] at h
  obtain ⟨rfl, h⟩ := h
  obtain ⟨rfl, rfl⟩ := Prod.mk.inj (Except.ok.inj h)
  rw [List.range_eq_range'] at hloop
  have hstart : Taking fs.sb n fs.disk fs.disk n 0 (4096 * 0) :=
    .inl ⟨rfl, rfl, rfl, fun x hx => absurd hx (Nat.not_lt_zero x)⟩
  rcases Taking.loop hP hn (Nat.zero_add _) hstart hloop with
    ⟨-, hzero, -⟩ | ⟨-, b, c, hpos, hfree, hle, -, hc, hmark, hset⟩
  · omega
  obtain rfl : c = n := by omega
  refine ⟨b, disk', ⟨hset, fun x hx hx' => ?_, hle⟩, hfree, rfl, hmark⟩
  exact hmark.clear (smapBase fs.sb + x) (by omega) (by omega)

/-- and where there are so many clear bits in a row it returns. -/
theorem allocSmapBit_total (hP : SmapPlaced fs.sb) (hn : 0 < n) (hrun : FreeRun fs.sb fs.disk b n) :
    ∃ disk', allocSmapBit fs n = .ok (b + fs.sb.n1stSect - 1, { fs with disk := disk' }) ∧
      Marked fs.disk disk' (smapBase fs.sb + b) n := by
  have hstart : Taking fs.sb n fs.disk fs.disk n 0 (4096 * 0) :=
    .inl ⟨rfl, rfl, rfl, fun x hx => absurd hx (Nat.not_lt_zero x)⟩
  obtain ⟨⟨free, left, disk'⟩, hloop⟩ := Taking.loop_total hP hn hrun (Nat.zero_add _) hstart
  have hfree : free = b + fs.sb.n1stSect - 1 ∧ left = 0 ∧
      Marked fs.disk disk' (smapBase fs.sb + b) n := by
    rcases Taking.loop hP hn (Nat.zero_add _) hstart hloop with
      ⟨-, -, -, hset⟩ | ⟨-, b', c, hpos, hfree, hle, hend, hc, hmark, hset⟩
    · have hb := hrun.clear b le_rfl (by omega)
      have := hrun.le
      exact absurd (hset b (by omega)) (by rw [hb]; decide)
    · obtain rfl := hmark.first hpos hset hrun hn
      have hle' := hrun.le
      obtain rfl : c = n := by omega
      exact ⟨hfree, by omega, hmark⟩
  obtain ⟨rfl, rfl, hmark⟩ := hfree
  refine ⟨disk', ?_, hmark⟩
  unfold allocSmapBit
  rw [List.range_eq_range', hloop, ok_bind]
  rfl

/-- With the first bit set the sectors are those of files. -/
theorem allocSmapBit_ok {free : ℕ} (hL : Layout fs.sb) (hn : 0 < n)
    (hzero : smapBit fs.sb fs.disk 0 = true) (h : allocSmapBit fs n = .ok (free, fs')) :
    ∃ b disk', 1 ≤ b ∧ b + n ≤ 4096 * fs.sb.nrSmapSects ∧ free = b + fs.sb.n1stSect - 1 ∧
      fs' = { fs with disk := disk' } ∧ Marked fs.disk disk' (4096 * 3 + b) n := by
  obtain ⟨b, disk', hrun, hfree, hfs, hmark⟩ := allocSmapBit_run hL.placed hn h
  rw [smapBase, hL.imap] at hmark
  refine ⟨b, disk', Nat.one_le_iff_ne_zero.2 fun hb => ?_, hrun.le, hfree, hfs, hmark⟩
  subst hb
  exact Bool.false_ne_true ((hrun.clear 0 le_rfl (by omega)).symm.trans hzero)

/-! ## The marks at once -/

/-- The `n` bits from `lo` on have the value `v`, which is read byte by byte. -/
def bitsAre (f : Bytes) (lo n : ℕ) (v : Bool) : Bool :=
  (List.range' (lo / 8) (n / 8 + 2)).all fun y =>
    decide (f y = if v then 0xFF else 0) ||
      (List.range 8).all fun i =>
        decide (lo ≤ 8 * y + i ∧ 8 * y + i < lo + n → bit f (8 * y + i) = v)

theorem bit_of_bitsAre {f : Bytes} {lo n x : ℕ} {v : Bool} (h : bitsAre f lo n v = true)
    (hlo : lo ≤ x) (hhi : x < lo + n) : bit f x = v := by
  have hy := List.all_eq_true.1 h (x / 8) (List.mem_range'_1.2 (by omega))
  rcases Bool.or_eq_true_iff.1 hy with hbyte | hbits
  · have hmod : x % 8 < 8 := Nat.mod_lt x (by decide)
    rw [bit, of_decide_eq_true hbyte]
    cases v with
    | false => exact BitVec.getLsbD_zero
    | true => exact BitVec.getLsbD_allOnes.trans (decide_eq_true hmod)
  · have := of_decide_eq_true (List.all_eq_true.1 hbits (x % 8)
      (List.mem_range.2 (Nat.mod_lt x (by decide))))
    rw [Nat.div_add_mod] at this
    exact this ⟨hlo, hhi⟩

/-- `f` with the `n` bits from `lo` on set. -/
def markRun (f : Bytes) (lo n : ℕ) : Bytes := fun y =>
  if 8 * y + 8 ≤ lo ∨ lo + n ≤ 8 * y then f y
  else f y ||| (BitVec.allOnes 8 <<< (lo - 8 * y) &&& ~~~(BitVec.allOnes 8 <<< (lo + n - 8 * y)))

theorem bit_markRun (f : Bytes) (lo n x : ℕ) :
    bit (markRun f lo n) x = (bit f x || decide (lo ≤ x ∧ x < lo + n)) := by
  have hmod : x % 8 < 8 := Nat.mod_lt x (by decide)
  have hfrom (m : ℕ) : (BitVec.allOnes 8 <<< m).getLsbD (x % 8) = decide (m ≤ x % 8) := by
    rw [BitVec.getLsbD_shiftLeft, BitVec.getLsbD_allOnes, decide_eq_true hmod, Bool.true_and,
      decide_eq_true (show x % 8 - m < 8 by omega), Bool.and_true, ← decide_not]
    exact decide_eq_decide.2 not_lt
  unfold bit markRun
  split_ifs with hout
  · rw [decide_eq_false (by omega), Bool.or_false]
  · rw [BitVec.getLsbD_or, BitVec.getLsbD_and, BitVec.getLsbD_not, hfrom, hfrom,
      decide_eq_true hmod, Bool.true_and, ← decide_not, ← Bool.decide_and]
    congr 1
    exact decide_eq_decide.2 (by omega)

/-- `alloc_smap_bit` with its marks put at once, where there is room for them. -/
def allocAtOnce (fs : Fs) (n : ℕ) : Except Fault (ℕ × Fs) :=
  let f := from_ fs.disk (smapBase fs.sb / 8)
  let b := ((List.range' 0 (512 * fs.sb.nrSmapSects)).find? fun j => f j ≠ 0xFF).elim 0 fun j =>
    8 * j + firstClear f j
  if (2 + fs.sb.nrImapSects + fs.sb.nrSmapSects ≤ 2 ^ 21 ∧ 2 ≤ fs.sb.n1stSect) ∧ 0 < n ∧
      b + n ≤ 4096 * fs.sb.nrSmapSects ∧ bitsAre fs.disk (smapBase fs.sb) b true = true ∧
      bitsAre fs.disk (smapBase fs.sb + b) n false = true then
    .ok (b + fs.sb.n1stSect - 1, { fs with disk := markRun fs.disk (smapBase fs.sb + b) n })
  else allocSmapBit fs n

theorem allocAtOnce_eq : allocSmapBit = allocAtOnce := by
  funext fs n
  unfold allocAtOnce
  dsimp only
  split_ifs with h
  · obtain ⟨⟨hreach, hfirst⟩, hn, hle, hset, hclear⟩ := h
    generalize Option.elim _ _ _ = b at hle hset hclear ⊢
    have hrun : FreeRun fs.sb fs.disk b n := by
      refine ⟨fun x hx => ?_, fun x hlo hhi => ?_, hle⟩
      · rw [smapBit_base]
        exact bit_of_bitsAre hset (by omega) (by omega)
      · rw [smapBit_base]
        exact bit_of_bitsAre hclear (by omega) (by omega)
    obtain ⟨disk', hok, hmark⟩ := allocSmapBit_total ⟨hreach, hfirst⟩ hn hrun
    have hdisk : disk' = markRun fs.disk (smapBase fs.sb + b) n :=
      funext fun y => eq_of_bits fun x _ => by rw [hmark.bit_eq, bit_markRun]
    rw [hok, hdisk]
  · rfl

end MyOS
