import MyOS.UserCopies
import MyOS.Proofs.ForkQueue
import Mathlib.Tactic.Ring

/-!
# What stays inside a process

No server compares a pointer or a length with the segment of its caller: `va2la` adds the base and
nothing else. So a request keeps to its caller's image just when every copy it gets as far as lies
below the image's size, and that is a condition on the fields of the message.
-/

namespace MyOS

open Memory Block

variable {k : Kernel} {p : Slot}

/-! ## The image of a process -/

theorem allocMem_base {mm : MmEnv} {size base : BitVec 32} (h : allocMem mm p size = .ok base) :
    nrTasks + nrNativeProcs ≤ p.val ∧ base.toNat = imageBase p := by
  unfold allocMem at h
  rw [assert_bind_eq_ok] at h
  obtain ⟨hn, h⟩ := h
  refine ⟨hn, ?_⟩
  have hp : p.val < 37 := p.isLt
  have hn' : 9 ≤ p.val := hn
  by_cases h₁ : procImageSizeDefault.toInt < size.toInt
  · simp [h₁] at h
  rw [if_neg h₁] at h
  dsimp only at h
  split_ifs at h
  rw [← Except.ok.inj h]
  simp only [imageBase, procsBase, procImageSizeDefault]
  bv_omega

theorem Forked.image (h : Forked k p) : nrTasks + nrNativeProcs ≤ p.val ∧
    ((k.procTable p).ldts 1).linear.toNat = imageBase p := by
  obtain ⟨mm, k₀, parent, k₁, hf, hl⟩ := h
  obtain ⟨-, -, -, -, name, ldts, ⟨size, hbase⟩, hk⟩ := forkProc_some hf
  have hself : (k₁.procTable p).ldts = ldts := by
    rw [hk, if_pos rfl]
    rfl
  rw [hl, hself]
  exact allocMem_base hbase

theorem Forked.inImage_iff (h : Forked k p) {x : Addr} : InImage p x ↔
    Within x ((k.procTable p).ldts 1).linear procImageSizeDefault.toNat := by
  obtain ⟨-, hb⟩ := h.image
  have hp : p.val < 37 := p.isLt
  have himage : imageBase p + procImageSizeDefault.toNat ≤ 2 ^ 32 := by
    simp only [imageBase, procsBase, procImageSizeDefault]
    bv_omega
  unfold InImage Within
  rw [← hb] at himage ⊢
  bv_omega

theorem Forked.va2la (h : Forked k p) (va : Addr) :
    MyOS.va2la k p va = .ok (((k.procTable p).ldts 1).linear + va) := by
  unfold MyOS.va2la
  rw [if_neg (by have := h.image.1; omega)]

theorem Forked.userByte (h : Forked k p) {va : Addr} {n : BitVec 32} {x : Addr} :
    UserByte k p va n x ↔ Within x (((k.procTable p).ldts 1).linear + va) n.toNat := by
  unfold UserByte
  rw [h.va2la]
  simp

/-- The `n` bytes at `va`, as the process addresses them, lie in its segment. -/
def InSegment (va : Addr) (n : ℕ) : Prop := n = 0 ∨ va.toNat + n ≤ procImageSizeDefault.toNat

instance (va : Addr) (n : ℕ) : Decidable (InSegment va n) :=
  inferInstanceAs (Decidable (_ ∨ _))

theorem Forked.inSegment (h : Forked k p) {va : Addr} {n : ℕ} (hn : n ≤ 2 ^ 32) :
    (∀ x, Within x (((k.procTable p).ldts 1).linear + va) n → InImage p x) ↔ InSegment va n := by
  simp only [h.inImage_iff]
  exact within_subset_iff hn (by decide)

theorem Forked.userBytes (h : Forked k p) {va : Addr} {n : BitVec 32} :
    (∀ x, UserByte k p va n x → InImage p x) ↔ InSegment va n.toNat := by
  simp only [h.userByte]
  exact h.inSegment (by omega)

/-! ## Files -/

theorem within_add_ofInt {la x : Addr} {a n : Int} (ha : 0 ≤ a) (hn : 0 ≤ n) (h : a + n < 2 ^ 32) :
    Within x (la + BitVec.ofInt 32 a) (BitVec.ofInt 32 n).toNat ↔
      a ≤ (x - la).toNat ∧ (x - la).toNat < a + n := by
  obtain ⟨a, rfl⟩ := Int.eq_ofNat_of_zero_le ha
  obtain ⟨n, rfl⟩ := Int.eq_ofNat_of_zero_le hn
  unfold Within
  simp only [BitVec.ofInt_natCast]
  bv_omega

theorem within_ofInt {la x : Addr} {n : Int} (hn : 0 ≤ n) (h : n < 2 ^ 32) :
    Within x la (BitVec.ofInt 32 n).toNat ↔ (x - la).toNat < n := by
  obtain ⟨n, rfl⟩ := Int.eq_ofNat_of_zero_le hn
  unfold Within
  simp only [BitVec.ofInt_natCast]
  bv_omega

/-- What the turns over `sects` sectors can move. -/
def rdwtRoom (sects chunk off : Int) : Int :=
  (sects + chunk - 1) / chunk * (chunk * sectorSize) - off

theorem rdwtRoom_step {sects chunk : Int} (hc : 0 < chunk) (off : Int) :
    rdwtRoom sects chunk off = rdwtRoom (sects - chunk) chunk 0 + (chunk * sectorSize - off) := by
  have hdiv : (sects + chunk - 1) / chunk = (sects - chunk + chunk - 1) / chunk + 1 := by
    rw [show sects + chunk - 1 = sects - chunk + chunk - 1 + chunk by omega,
      Int.add_ediv_of_dvd_right (Int.dvd_refl chunk), Int.ediv_self hc.ne']
  unfold rdwtRoom
  rw [hdiv]
  ring

theorem rdwtRoom_last {sects chunk : Int} (hs : sects ≤ 0) (hc : -chunk < sects) :
    rdwtRoom sects chunk 0 = 0 := by
  unfold rdwtRoom
  rw [Int.ediv_eq_zero_of_lt (by omega) (by omega)]
  simp

theorem rdwtRoom_nonneg {sects chunk : Int} (hs : 0 < sects) (hc : 0 < chunk) :
    0 ≤ rdwtRoom sects chunk 0 := by
  have hdiv : 0 ≤ (sects + chunk - 1) / chunk := Int.ediv_nonneg (by omega) (by omega)
  have hmul : 0 ≤ chunk * (sectorSize : Int) := Int.mul_nonneg (by omega) (by simp)
  unfold rdwtRoom
  rw [Int.sub_zero]
  exact Int.mul_nonneg hdiv hmul

/-- A turn lies between what has been moved before the loop and what is to be moved. -/
theorem rdwtLoop_range {rwSectMax chunk : Int} {t : RdwtTurn} : ∀ {fuel : ℕ}
    {i off bytesRw bytesLeft : Int}, off ≤ chunk * sectorSize → 0 ≤ chunk → 0 ≤ bytesLeft →
    t ∈ rdwtLoop rwSectMax chunk fuel i off bytesRw bytesLeft →
    bytesRw ≤ t.bytesRw ∧ 0 ≤ t.bytes ∧ t.bytesRw + t.bytes ≤ bytesRw + bytesLeft
  | 0, i, off, bytesRw, bytesLeft, hoff, hc, hleft, ht => nomatch ht
  | fuel + 1, i, off, bytesRw, bytesLeft, hoff, hc, hleft, ht => by
    unfold rdwtLoop at ht
    split_ifs at ht
    · rcases List.mem_cons.1 ht with rfl | ht
      · dsimp only
        omega
      · have hmul : 0 ≤ chunk * (sectorSize : Int) := Int.mul_nonneg hc (by simp)
        have := rdwtLoop_range hmul hc (by omega) ht
        omega
    · exact nomatch ht

/-- The turns of a loop that has a length to move follow each other without a gap, up to the end
of the request or of the sectors. -/
theorem rdwtLoop_bytes {rwSectMax chunk : Int} (hc : 0 < chunk) (j : Int) : ∀ (fuel : ℕ)
    (i off bytesRw bytesLeft : Int), (rwSectMax - i + 1).toNat ≤ fuel → off ≤ chunk * sectorSize →
    0 ≤ bytesLeft →
    ((∃ t ∈ rdwtLoop rwSectMax chunk fuel i off bytesRw bytesLeft,
        t.bytesRw ≤ j ∧ j < t.bytesRw + t.bytes) ↔
      i ≤ rwSectMax ∧ bytesRw ≤ j ∧
        j < bytesRw + min bytesLeft (rdwtRoom (rwSectMax - i + 1) chunk off))
  | 0, i, off, bytesRw, bytesLeft, hfuel, hoff, hleft => by
    simp only [rdwtLoop, List.not_mem_nil, false_and, exists_false, false_iff]
    omega
  | fuel + 1, i, off, bytesRw, bytesLeft, hfuel, hoff, hleft => by
    unfold rdwtLoop
    by_cases hi : i ≤ rwSectMax
    · have hmul : 0 ≤ chunk * (sectorSize : Int) := Int.mul_nonneg hc.le (by simp)
      have hfuel' : (rwSectMax - (i + chunk) + 1).toNat ≤ fuel := by omega
      have ih := rdwtLoop_bytes hc j fuel (i + chunk) 0
        (bytesRw + min bytesLeft (chunk * sectorSize - off))
        (bytesLeft - min bytesLeft (chunk * sectorSize - off)) hfuel' hmul (by omega)
      rw [if_pos hi, List.exists_mem_cons_iff, ih, rdwtRoom_step hc off,
        show rwSectMax - (i + chunk) + 1 = rwSectMax - i + 1 - chunk by omega]
      dsimp only
      by_cases hi' : i + chunk ≤ rwSectMax
      · have hroom : 0 ≤ rdwtRoom (rwSectMax - i + 1 - chunk) chunk 0 :=
          rdwtRoom_nonneg (by omega) hc
        omega
      · rw [rdwtRoom_last (by omega) (by omega)]
        omega
    · rw [if_neg hi]
      simp [hi]

/-- The sectors that a request for `len` bytes at `pos` goes through. -/
def rdwtSects (x : DiskInode) (isRead : Bool) (pos len : BitVec 32) : Int :=
  rwSect x (rdwtEnd x isRead pos len) - rwSect x pos + 1

/-- What its turns can move. -/
def rdwtSpan (x : DiskInode) (isRead : Bool) (pos len : BitVec 32) : Int :=
  let sects := rdwtSects x isRead pos len
  rdwtRoom sects (min sects (fsbufSize / sectorSize : ℕ)) (pos.toInt.tmod sectorSize)

section Turns

variable {d : DiskInode} {isRead : Bool} {pos len : BitVec 32}

theorem rdwtTurns_none (h : rdwtSects d isRead pos len ≤ 0) :
    (rdwtTurns d isRead pos len).2 = [] := by
  have hfuel : (rwSect d (rdwtEnd d isRead pos len) - rwSect d pos + 1).toNat = 0 := by
    unfold rdwtSects at h
    omega
  simp only [rdwtTurns, hfuel, rdwtLoop]

theorem off_lt (pos : BitVec 32) : pos.toInt.tmod sectorSize < sectorSize :=
  Int.tmod_lt_of_pos _ (by decide)

/-- What the first turn skips lies in its sectors. -/
theorem rdwtTurns_room (h : 0 < rdwtSects d isRead pos len) : pos.toInt.tmod sectorSize ≤
    min (rdwtSects d isRead pos len) (fsbufSize / sectorSize : ℕ) * sectorSize := by
  have hoff := off_lt pos
  have hchunk : 0 < min (rdwtSects d isRead pos len) (fsbufSize / sectorSize : ℕ) :=
    lt_min h (by decide)
  have := Int.mul_le_mul_of_nonneg_right (Int.add_one_le_of_lt hchunk)
    (Int.natCast_nonneg sectorSize)
  omega

theorem rdwtTurns_range (h : 0 < rdwtSects d isRead pos len) (hlen : 0 ≤ len.toInt) {t : RdwtTurn}
    (ht : t ∈ (rdwtTurns d isRead pos len).2) :
    0 ≤ t.bytesRw ∧ 0 ≤ t.bytes ∧ t.bytesRw + t.bytes ≤ len.toInt := by
  have hchunk : 0 ≤ min (rdwtSects d isRead pos len) (fsbufSize / sectorSize : ℕ) :=
    le_min h.le (by decide)
  have := rdwtLoop_range (rdwtTurns_room h) hchunk hlen ht
  omega

theorem rdwtTurns_within (h : 0 < rdwtSects d isRead pos len) (hlen : 0 ≤ len.toInt)
    (la x : Addr) :
    (∃ t ∈ (rdwtTurns d isRead pos len).2,
        Within x (la + BitVec.ofInt 32 t.bytesRw) (BitVec.ofInt 32 t.bytes).toNat) ↔
      Within x la (min len.toInt (rdwtSpan d isRead pos len)).toNat := by
  have hlt : len.toInt < 2 ^ 31 := BitVec.toInt_lt
  have hchunk : 0 < min (rdwtSects d isRead pos len) (fsbufSize / sectorSize : ℕ) :=
    lt_min h (by decide)
  have hbytes := rdwtLoop_bytes hchunk (x - la).toNat
    (rwSect d (rdwtEnd d isRead pos len) - rwSect d pos + 1).toNat (rwSect d pos)
    (pos.toInt.tmod sectorSize) 0 len.toInt le_rfl (rdwtTurns_room h) hlen
  have hpiece : ∀ t ∈ (rdwtTurns d isRead pos len).2,
      (Within x (la + BitVec.ofInt 32 t.bytesRw) (BitVec.ofInt 32 t.bytes).toNat ↔
        t.bytesRw ≤ (x - la).toNat ∧ (x - la).toNat < t.bytesRw + t.bytes) := by
    intro t ht
    have := rdwtTurns_range h hlen ht
    exact within_add_ofInt (by omega) (by omega) (by omega)
  have hall : (∃ t ∈ (rdwtTurns d isRead pos len).2,
      Within x (la + BitVec.ofInt 32 t.bytesRw) (BitVec.ofInt 32 t.bytes).toNat) ↔
      ∃ t ∈ (rdwtTurns d isRead pos len).2,
        t.bytesRw ≤ (x - la).toNat ∧ (x - la).toNat < t.bytesRw + t.bytes :=
    exists_congr fun t => and_congr_right fun ht => hpiece t ht
  rw [hall]
  refine hbytes.trans ?_
  unfold Within rdwtSpan
  unfold rdwtSects at h
  simp only [rdwtSects]
  omega

/-- A negative length is the least of all, and the first turn moves it. -/
theorem rdwtTurns_negative (h : 0 < rdwtSects d isRead pos len) (hlen : len.toInt < 0) :
    ∃ t ∈ (rdwtTurns d isRead pos len).2, t.bytesRw = 0 ∧ t.bytes = len.toInt := by
  have hroom := rdwtTurns_room h
  unfold rdwtSects at h hroom
  obtain ⟨fuel, hfuel⟩ : ∃ fuel, (rwSect d (rdwtEnd d isRead pos len) - rwSect d pos + 1).toNat =
      fuel + 1 := ⟨_, (Nat.succ_pred_eq_of_pos (by omega)).symm⟩
  simp only [rdwtTurns, hfuel, rdwtLoop]
  rw [if_pos (by omega)]
  refine ⟨_, List.mem_cons_self, rfl, min_eq_left ?_⟩
  omega

end Turns

/-! ## Terminals -/

/-- A terminal with the request of `cnt` bytes at `la`: what it has of them and what it still wants
are the whole, until it is done. -/
structure Serves (la : Addr) (cnt : BitVec 32) (t : Tty) : Prop where
  reqBuf : t.ttyReqBuf = la
  procnr : t.ttyProcnr ≠ noTask
  count : t.ttyLeftCnt = 0 ∨ t.ttyTransCnt.toNat + t.ttyLeftCnt.toNat = cnt.toNat

theorem Serves.editLine {la : Addr} {cnt : BitVec 32} {t t' : Tty} {ch : Byte} {ev : List TtyEvent}
    (h : Serves la cnt t) (hleft : t.ttyLeftCnt ≠ 0) (he : MyOS.editLine t ch = .ok (t', ev)) :
    Serves la cnt t' ∧ ∀ x c, .store x c ∈ ev → la ≠ 0 ∧ Within x la cnt.toNat := by
  obtain ⟨hla, hp, hc⟩ := h
  have hc := hc.resolve_left hleft
  unfold MyOS.editLine at he
  split_ifs at he with h₁ h₂
  · rw [assert_bind_eq_ok] at he
    obtain ⟨hbuf, he⟩ := he
    simp only [Except.ok.injEq, Prod.mk.injEq] at he
    obtain ⟨rfl, rfl⟩ := he
    refine ⟨⟨hla, hp, ?_⟩, fun x c hx => ⟨hla ▸ hbuf, ?_⟩⟩
    · dsimp only
      bv_omega
    · obtain ⟨rfl, -⟩ : x = t.ttyReqBuf + t.ttyTransCnt ∧ c = ch := by simpa using hx
      unfold Within
      rw [hla]
      bv_omega
  · simp only [Except.ok.injEq, Prod.mk.injEq] at he
    obtain ⟨rfl, rfl⟩ := he
    refine ⟨⟨hla, hp, ?_⟩, by simp⟩
    dsimp only
    bv_omega
  · simp only [Except.ok.injEq, Prod.mk.injEq] at he
    obtain ⟨rfl, rfl⟩ := he
    exact ⟨⟨hla, hp, .inr hc⟩, by simp⟩

theorem Serves.takeChar {la : Addr} {cnt : BitVec 32} {t t' : Tty} {ch : Byte} {ev : List TtyEvent}
    (h : Serves la cnt t) (he : MyOS.takeChar t ch = .ok (t', ev)) :
    Serves la cnt t' ∧ ∀ x c, .store x c ∈ ev → la ≠ 0 ∧ Within x la cnt.toNat := by
  unfold MyOS.takeChar at he
  split_ifs at he with hleft
  · obtain ⟨⟨t₁, ev₁⟩, he₁, he⟩ := bind_eq_ok.1 he
    obtain ⟨h₁, hs⟩ := h.editLine hleft he₁
    dsimp only at he
    split_ifs at he
    · rw [assert_bind_eq_ok] at he
      obtain ⟨-, he⟩ := he
      simp only [Except.ok.injEq, Prod.mk.injEq] at he
      obtain ⟨rfl, rfl⟩ := he
      exact ⟨⟨h₁.reqBuf, h₁.procnr, .inl rfl⟩, fun x c hx => hs x c (by simpa using hx)⟩
    · simp only [Except.ok.injEq, Prod.mk.injEq] at he
      obtain ⟨rfl, rfl⟩ := he
      exact ⟨h₁, hs⟩
  · simp only [Except.ok.injEq, Prod.mk.injEq] at he
    obtain ⟨rfl, rfl⟩ := he
    exact ⟨h, by simp⟩

theorem Serves.typed {la : Addr} {cnt : BitVec 32} {x : Addr} {c : Byte} :
    ∀ {chs : List Byte} {t : Tty},
    Serves la cnt t → .store x c ∈ MyOS.typed chs t → la ≠ 0 ∧ Within x la cnt.toNat
  | [], _, _, hx => nomatch hx
  | ch :: l, t, h, hx => by
    unfold MyOS.typed at hx
    split at hx
    · exact nomatch hx
    · rename_i t' ev he
      obtain ⟨h', hs⟩ := h.takeChar he
      rcases List.mem_append.1 hx with hx | hx
      · exact hs x c hx
      · exact h'.typed hx

/-- A space is stored after what the terminal has. -/
theorem takeChar_space {t : Tty} (hbuf : t.ttyReqBuf ≠ 0) (hp : t.ttyProcnr ≠ noTask)
    (hleft : t.ttyLeftCnt ≠ 0) : ∃ t' ev, takeChar t space = .ok (t', ev) ∧
      .store (t.ttyReqBuf + t.ttyTransCnt) space ∈ ev ∧
      (t.ttyLeftCnt ≠ 1 → t' = { t with
        ttyTransCnt := t.ttyTransCnt + 1, ttyLeftCnt := t.ttyLeftCnt - 1 }) := by
  have hprint : space.toInt ≤ space.toInt ∧ space.toInt ≤ tilde.toInt := by decide
  have hedit : editLine t space = .ok ({ t with
      ttyTransCnt := t.ttyTransCnt + 1, ttyLeftCnt := t.ttyLeftCnt - 1 },
      [.outChar space, .store (t.ttyReqBuf + t.ttyTransCnt) space]) := by
    unfold editLine
    rw [if_pos hprint, assert_bind_eq_ok]
    exact ⟨hbuf, rfl⟩
  unfold takeChar
  rw [if_pos hleft, hedit]
  by_cases hone : t.ttyLeftCnt = 1
  · have hlast : space = newline ∨ t.ttyLeftCnt - 1 = 0 := .inr (by simp [hone])
    simp only [ok_bind, if_pos hlast, assert_of hp]
    exact ⟨_, _, rfl, by simp, fun hne => absurd hone hne⟩
  · have hne : ¬ (space = newline ∨ t.ttyLeftCnt - 1 = 0) := by
      rintro (h | h)
      · exact absurd h (by decide)
      · bv_omega
    simp only [ok_bind, if_neg hne]
    exact ⟨_, _, rfl, by simp, fun _ => rfl⟩

/-- Spaces fill the buffer up to any of its bytes. -/
theorem Serves.spaces {la : Addr} {cnt : BitVec 32} (hla : la ≠ 0) : ∀ (m : ℕ) {t : Tty},
    Serves la cnt t → m < t.ttyLeftCnt.toNat →
    .store (la + (t.ttyTransCnt + BitVec.ofNat 32 m)) space ∈
      MyOS.typed (List.replicate (m + 1) space) t
  | m, t, h, hm => by
    have hleft : t.ttyLeftCnt ≠ 0 := by bv_omega
    obtain ⟨t', ev, he, hs, hnext⟩ := takeChar_space (h.reqBuf ▸ hla) h.procnr hleft
    rw [List.replicate_succ, MyOS.typed, he]
    dsimp only
    rw [h.reqBuf] at hs
    cases m with
    | zero => exact List.mem_append_left _ (by simpa using hs)
    | succ m =>
      have ht := hnext (by bv_omega)
      have ih := spaces hla m (h.takeChar he).1 (by rw [ht]; bv_omega)
      rw [ht] at ih ⊢
      refine List.mem_append_right _ ?_
      convert ih using 2
      bv_omega

/-- The bytes a terminal may store while a request of `cnt` bytes lasts are all of them. -/
theorem ttyRead_within (t : Tty) (source : Int) (la : Addr) {msg : Message}
    (hp : msg.procNr.toInt ≠ noTask) (x : Addr) :
    (∃ chs ch, .store x ch ∈ typed chs (ttyDoRead t source la msg)) ↔
      la ≠ 0 ∧ Within x la msg.cnt.toNat := by
  have hserves : Serves la msg.cnt (ttyDoRead t source la msg) :=
    ⟨rfl, hp, .inr (by simp [ttyDoRead])⟩
  constructor
  · rintro ⟨chs, ch, hx⟩
    exact hserves.typed hx
  · rintro ⟨hla, hx⟩
    have hstore := hserves.spaces hla (x - la).toNat hx
    have hat : la + ((ttyDoRead t source la msg).ttyTransCnt +
        BitVec.ofNat 32 (x - la).toNat) = x := by
      simp only [ttyDoRead]
      bv_omega
    exact ⟨_, space, hat ▸ hstore⟩

/-- A write to a terminal fetches its bytes in pieces, and a negative count in one piece. -/
theorem ttyDoWriteLoop_within (x : Addr) : ∀ (fuel : ℕ) (la : Addr) (i : Int), i.natAbs ≤ fuel →
    -2 ^ 31 ≤ i → i < 2 ^ 31 →
    ((∃ c ∈ ttyDoWriteLoop fuel la i, Within x c.1 (BitVec.ofInt 32 c.2).toNat) ↔
      Within x la (BitVec.ofInt 32 i).toNat)
  | 0, la, i, hfuel, hlo, hhi => by
    obtain rfl : i = 0 := by omega
    simp [ttyDoWriteLoop, Within]
  | fuel + 1, la, i, hfuel, hlo, hhi => by
    unfold ttyDoWriteLoop
    by_cases hi : i = 0
    · subst hi
      simp [Within]
    rw [if_neg hi, List.exists_mem_cons_iff]
    have hlen : (ttyOutBufLen : Int) = 2 := rfl
    have hfuel' : (i - min (ttyOutBufLen : Int) i).natAbs ≤ fuel := by omega
    rw [ttyDoWriteLoop_within x fuel _ _ hfuel' (by omega) (by omega)]
    by_cases hneg : i ≤ ttyOutBufLen
    · rw [min_eq_right hneg, Int.sub_self]
      simp [Within]
    · rw [min_eq_left (by omega), within_add_ofInt (by omega) (by omega) (by omega),
        within_ofInt (by omega) (by omega), within_ofInt (by omega) (by omega)]
      dsimp only
      omega

/-! ## exec -/

/-- Every header before number `i` that is to be loaded passes the check of the loop. -/
def HdrsFit (mmbuf : Bytes) (i : ℕ) : Prop :=
  ∀ j < i, (progHdr mmbuf j).pType = ptLoad → (progHdr mmbuf j).Fits procImageSizeDefault

instance (mmbuf : Bytes) (i : ℕ) : Decidable (HdrsFit mmbuf i) :=
  inferInstanceAs (Decidable (∀ j < i, _ → _))

theorem hdrsFit_succ {mmbuf : Bytes} {i : ℕ} : HdrsFit mmbuf (i + 1) ↔ HdrsFit mmbuf i ∧
    ((progHdr mmbuf i).pType = ptLoad → (progHdr mmbuf i).Fits procImageSizeDefault) := by
  simp only [HdrsFit, Nat.forall_lt_succ_right]

theorem loadLoop_ok {mmbuf : Bytes} : ∀ {left i : ℕ}, HdrsFit mmbuf i →
    ((loadLoop mmbuf procImageSizeDefault left i).2 = true ↔ HdrsFit mmbuf (i + left))
  | 0, i, hfit => by simpa [loadLoop] using hfit
  | left + 1, i, hfit => by
    rw [show i + (left + 1) = i + 1 + left by omega]
    simp only [loadLoop]
    split_ifs with hload hfits
    · exact loadLoop_ok (hdrsFit_succ.2 ⟨hfit, fun _ => hfits⟩)
    · exact ⟨fun h => h.elim, fun h => absurd (h i (by omega) hload) hfits⟩
    · exact loadLoop_ok (hdrsFit_succ.2 ⟨hfit, fun h => absurd h hload⟩)

/-- The segments that are copied are those of the headers up to the first that fails. -/
theorem mem_loadLoop {mmbuf : Bytes} {c : UserCopy} : ∀ {left i : ℕ}, HdrsFit mmbuf i →
    (c ∈ (loadLoop mmbuf procImageSizeDefault left i).1 ↔
      ∃ j, i ≤ j ∧ j < i + left ∧ (progHdr mmbuf j).pType = ptLoad ∧ HdrsFit mmbuf (j + 1) ∧
        c = ⟨(progHdr mmbuf j).pVaddr, (progHdr mmbuf j).pFilesz⟩)
  | 0, i, hfit => by
    simp only [loadLoop, List.not_mem_nil, false_iff]
    rintro ⟨j, hij, hj, -⟩
    omega
  | left + 1, i, hfit => by
    have hlater : (∃ j, i + 1 ≤ j ∧ j < i + 1 + left ∧ (progHdr mmbuf j).pType = ptLoad ∧
          HdrsFit mmbuf (j + 1) ∧ c = ⟨(progHdr mmbuf j).pVaddr, (progHdr mmbuf j).pFilesz⟩) →
        ∃ j, i ≤ j ∧ j < i + (left + 1) ∧ (progHdr mmbuf j).pType = ptLoad ∧
          HdrsFit mmbuf (j + 1) ∧ c = ⟨(progHdr mmbuf j).pVaddr, (progHdr mmbuf j).pFilesz⟩ :=
      fun ⟨j, hij, hj, h⟩ => ⟨j, by omega, by omega, h⟩
    simp only [loadLoop]
    split_ifs with hload hfits
    · have hfit' : HdrsFit mmbuf (i + 1) := hdrsFit_succ.2 ⟨hfit, fun _ => hfits⟩
      rw [List.mem_cons, mem_loadLoop hfit']
      constructor
      · rintro (rfl | h)
        · exact ⟨i, le_rfl, by omega, hload, hfit', rfl⟩
        · exact hlater h
      · rintro ⟨j, hij, hj, h⟩
        rcases Nat.eq_or_lt_of_le hij with rfl | hij
        · exact .inl h.2.2
        · exact .inr ⟨j, hij, by omega, h⟩
    · simp only [List.not_mem_nil, false_iff]
      rintro ⟨j, hij, hj, -, h, -⟩
      exact hfits (h i (by omega) hload)
    · have hfit' : HdrsFit mmbuf (i + 1) := hdrsFit_succ.2 ⟨hfit, fun h => absurd h hload⟩
      rw [mem_loadLoop hfit']
      refine ⟨hlater, fun ⟨j, hij, hj, h⟩ => ?_⟩
      rcases Nat.eq_or_lt_of_le hij with rfl | hij
      · exact absurd h.1 hload
      · exact ⟨j, hij, by omega, h⟩

/-! ## The condition on a request -/

/-- The name of a request, where its length is not refused. -/
def PathFits (msg : Message) : Prop :=
  msg.nameLen.toInt < maxPath → InSegment msg.pathname msg.nameLen.toNat

/-- The buffer of a request to a file or a directory, where there are sectors to go through: of a
negative count everything would be moved. -/
def FileFits (x : DiskInode) (isRead : Bool) (pos : BitVec 32) (msg : Message) : Prop :=
  0 < rdwtSects x isRead pos msg.cnt →
    0 ≤ msg.cnt.toInt ∧
      InSegment msg.buf (min msg.cnt.toInt (rdwtSpan x isRead pos msg.cnt)).toNat

/-- The buffer of a request to a terminal, which does not store at address 0. -/
def TtyFits (k : Kernel) (p : Slot) (isRead : Bool) (msg : Message) : Prop :=
  isRead = true ∧ ((k.procTable p).ldts 1).linear + msg.buf = 0 ∨ InSegment msg.buf msg.cnt.toNat

/-- The file to execute and the arguments, where the file can be read. -/
def ElfFits (mmbuf : Bytes) (msg : Message) : Prop :=
  (∀ j < (ePhnum mmbuf).toNat, (progHdr mmbuf j).pType = ptLoad → HdrsFit mmbuf (j + 1) →
    InSegment (progHdr mmbuf j).pVaddr (progHdr mmbuf j).pFilesz.toNat) ∧
  (HdrsFit mmbuf (ePhnum mmbuf).toNat →
    InSegment msg.buf msg.bufLen.toNat ∧ msg.bufLen.toNat ≤ procOriginStack)

/-- The request's pointers and lengths stay below the size of an image, as far as the servers use
them. -/
def Bounded (k : Kernel) (p : Slot) : UserRequest → Prop
  | .open msg => PathFits msg
  | .unlink msg => PathFits msg
  | .stat fs msg => PathFits msg ∧
    ((∃ s fs', doStat (userMem k p) fs msg = .ok (some s, fs')) → InSegment msg.buf Stat.size)
  | .rdwt fs _ isRead msg => ∀ d i, rdwtDesc fs p msg.fd = .ok (some (d, i)) →
    ((fs.inodeTable i).iMode &&& iTypeMask = iCharSpecial →
      major (fs.inodeTable i).iStartSect = devCharTty → TtyFits k p isRead msg) ∧
    ((fs.inodeTable i).iMode = iRegular ∨ (fs.inodeTable i).iMode = iDirectory →
      FileFits (fs.inodeTable i).toDiskInode isRead (fs.fDescTable d).fdPos msg)
  | .exec file msg => PathFits msg ∧
    (msg.nameLen.toInt < maxPath → ∀ s, file.stat = some s → file.fd ≠ -1 →
      s.stSize.toInt < mmbufSize → ElfFits file.mmbuf msg)

section Requests

variable {fs : Fs} {tty : Tty} {isRead : Bool} {file : ExecFile} {msg : Message}

theorem pathFits_iff (h : Forked k p) : PathFits msg ↔
    (msg.nameLen.toInt < maxPath → ∀ x, UserByte k p msg.pathname msg.nameLen x → InImage p x) :=
  imp_congr_right fun _ => h.userBytes.symm

theorem touches_stat (h : Forked k p) :
    (∀ x, Touches k p (.stat fs msg) x → InImage p x) ↔ Bounded k p (.stat fs msg) := by
  constructor
  · intro ht
    refine ⟨(pathFits_iff h).2 fun hlen x hx => ht x (.statPath hlen hx), ?_⟩
    rintro ⟨s, fs', hs⟩
    exact h.userBytes.1 fun x hx => ht x (.statBuf hs hx)
  · rintro ⟨hpath, hbuf⟩ x hx
    cases hx with
    | statPath hlen hx => exact (pathFits_iff h).1 hpath hlen x hx
    | statBuf hs hx => exact h.userBytes.2 (hbuf ⟨_, _, hs⟩) x hx

theorem fileFits_iff (h : Forked k p) {x : DiskInode} {pos : BitVec 32} :
    FileFits x isRead pos msg ↔ ∀ t ∈ (rdwtTurns x isRead pos msg.cnt).2, ∀ a,
      UserByte k p (msg.buf + BitVec.ofInt 32 t.bytesRw) (BitVec.ofInt 32 t.bytes) a →
        InImage p a := by
  by_cases hsects : 0 < rdwtSects x isRead pos msg.cnt
  · by_cases hlen : 0 ≤ msg.cnt.toInt
    · have hlt : msg.cnt.toInt < 2 ^ 31 := BitVec.toInt_lt
      have hn : (min msg.cnt.toInt (rdwtSpan x isRead pos msg.cnt)).toNat ≤ 2 ^ 32 := by omega
      have hall := rdwtTurns_within hsects hlen (((k.procTable p).ldts 1).linear + msg.buf)
      rw [FileFits, ← h.inSegment hn]
      simp only [h.userByte, ← BitVec.add_assoc, ← hall]
      exact ⟨fun hf t ht a ha => (hf hsects).2 a ⟨t, ht, ha⟩,
        fun hf _ => ⟨hlen, fun a ⟨t, ht, ha⟩ => hf t ht a ha⟩⟩
    · constructor
      · intro hf
        exact absurd (hf hsects).1 hlen
      · intro hf
        obtain ⟨t, ht, hrw, hbytes⟩ := rdwtTurns_negative hsects (by omega)
        have hneg := hf t ht
        rw [hrw, hbytes, BitVec.ofInt_toInt, h.userBytes] at hneg
        unfold InSegment at hneg
        have hsize : procImageSizeDefault.toNat = 0x100000 := rfl
        have hlarge := BitVec.toInt_neg_iff.1 (not_le.1 hlen)
        omega
  · rw [rdwtTurns_none (by omega)]
    simp [FileFits, hsects]

theorem procNr_ttyMsg (p : Slot) (msg : Message) : (ttyMsg p msg).procNr.toInt ≠ noTask := by
  have hp : p.val < 37 := p.isLt
  have hnr : (ttyMsg p msg).procNr = BitVec.ofNat 32 p.val := BitVec.ofInt_natCast ..
  rw [hnr, BitVec.toInt_ofNat', Int.bmod_eq_of_le (by omega) (by omega)]
  exact fun he => absurd (he.trans (show noTask = 57 by decide)) (by omega)

theorem ttyFits_read (h : Forked k p) (tty : Tty) : TtyFits k p true msg ↔ ∀ x chs ch,
    .store x ch ∈ typed chs (ttyDoRead tty (proc2pid taskFs)
      (((k.procTable p).ldts 1).linear + msg.buf) (ttyMsg p msg)) → InImage p x := by
  have hall := ttyRead_within tty (proc2pid taskFs) (((k.procTable p).ldts 1).linear + msg.buf)
    (procNr_ttyMsg p msg)
  have hcnt : (ttyMsg p msg).cnt = msg.cnt := rfl
  rw [hcnt] at hall
  constructor
  · rintro (⟨-, h0⟩ | hseg) x chs ch hx
    · exact absurd h0 ((hall x).1 ⟨chs, ch, hx⟩).1
    · exact (h.inSegment (by omega)).2 hseg x ((hall x).1 ⟨chs, ch, hx⟩).2
  · intro ht
    by_cases h0 : ((k.procTable p).ldts 1).linear + msg.buf = 0
    · exact .inl ⟨rfl, h0⟩
    · refine .inr ((h.inSegment (by omega)).1 fun x hx => ?_)
      obtain ⟨chs, ch, hs⟩ := (hall x).2 ⟨h0, hx⟩
      exact ht x chs ch hs

theorem ttyFits_write (h : Forked k p) : TtyFits k p false msg ↔
    ∀ x, ∀ c ∈ ttyDoWrite (((k.procTable p).ldts 1).linear + msg.buf) (ttyMsg p msg),
      Within x c.1 (BitVec.ofInt 32 c.2).toNat → InImage p x := by
  have hall (x : Addr) := ttyDoWriteLoop_within x msg.cnt.toInt.natAbs
    (((k.procTable p).ldts 1).linear + msg.buf) msg.cnt.toInt le_rfl
    (BitVec.le_toInt _) BitVec.toInt_lt
  rw [BitVec.ofInt_toInt] at hall
  unfold TtyFits
  rw [← h.inSegment (by omega)]
  constructor
  · rintro (⟨hf, -⟩ | hseg) x c hc hx
    · exact absurd hf Bool.false_ne_true
    · exact hseg x ((hall x).1 ⟨c, hc, hx⟩)
  · refine fun ht => .inr fun x hx => ?_
    obtain ⟨c, hc, hx⟩ := (hall x).2 hx
    exact ht x c hc hx

theorem touches_rdwt (h : Forked k p) :
    (∀ x, Touches k p (.rdwt fs tty isRead msg) x → InImage p x) ↔
      Bounded k p (.rdwt fs tty isRead msg) := by
  constructor
  · intro ht d i hd
    refine ⟨fun hmode hmajor => ?_, fun hmode => (fileFits_iff h).2 fun t htn a ha =>
      ht a (.file hd hmode htn ha)⟩
    cases isRead with
    | true =>
      exact (ttyFits_read h tty).2 fun x chs ch hx =>
        ht x (.ttyRead hd hmode hmajor (h.va2la _) hx)
    | false =>
      exact (ttyFits_write h).2 fun x c hc hx =>
        ht x (.ttyWrite hd hmode hmajor (h.va2la _) hc hx)
  · intro hb x hx
    cases hx with
    | file hd hmode htn ha => exact (fileFits_iff h).1 ((hb _ _ hd).2 hmode) _ htn x ha
    | ttyRead hd hmode hmajor hla hx =>
      rw [h.va2la] at hla
      obtain rfl := Except.ok.inj hla
      exact (ttyFits_read h tty).1 ((hb _ _ hd).1 hmode hmajor) x _ _ hx
    | ttyWrite hd hmode hmajor hla hc hx =>
      rw [h.va2la] at hla
      obtain rfl := Except.ok.inj hla
      exact (ttyFits_write h).1 ((hb _ _ hd).1 hmode hmajor) x _ hc hx

theorem mem_doExecCopies {c : UserCopy} {imageSize : BitVec 32} :
    c ∈ doExecCopies file imageSize msg ↔ msg.nameLen.toInt < maxPath ∧
      (c = ⟨msg.pathname, msg.nameLen⟩ ∨ ∃ s, file.stat = some s ∧ file.fd ≠ -1 ∧
        s.stSize.toInt < mmbufSize ∧
        (c ∈ (loadLoop file.mmbuf imageSize (ePhnum file.mmbuf).toNat 0).1 ∨
          (loadLoop file.mmbuf imageSize (ePhnum file.mmbuf).toNat 0).2 = true ∧
            (c = ⟨msg.buf, msg.bufLen⟩ ∨
              c = ⟨imageSize - BitVec.ofNat 32 procOriginStack, msg.bufLen⟩))) := by
  unfold doExecCopies
  by_cases hlen : maxPath ≤ msg.nameLen.toInt
  · rw [if_pos hlen]
    simp [not_lt.2 hlen]
  rw [if_neg hlen]
  have hlt := not_le.1 hlen
  cases hs : file.stat with
  | none => simp [hlt]
  | some s =>
    by_cases hfd : file.fd = -1
    · simp [hlt, hfd]
    by_cases hsize : (mmbufSize : Int) ≤ s.stSize.toInt
    · simp [hlt, hsize, hfd]
    · have hsize' := not_le.1 hsize
      cases hok : (loadLoop file.mmbuf imageSize (ePhnum file.mmbuf).toNat 0).2 <;>
        simp [hlt, hfd, hsize, hsize', hok]

theorem elfFits_iff (h : Forked k p) {mmbuf : Bytes} : ElfFits mmbuf msg ↔ ∀ c : UserCopy,
    (c ∈ (loadLoop mmbuf procImageSizeDefault (ePhnum mmbuf).toNat 0).1 ∨
      (loadLoop mmbuf procImageSizeDefault (ePhnum mmbuf).toNat 0).2 = true ∧
        (c = ⟨msg.buf, msg.bufLen⟩ ∨
          c = ⟨procImageSizeDefault - BitVec.ofNat 32 procOriginStack, msg.bufLen⟩)) →
    ∀ x, UserByte k p c.va c.n x → InImage p x := by
  have hnone : HdrsFit mmbuf 0 := fun j hj => absurd hj (Nat.not_lt_zero j)
  have hstack : InSegment (procImageSizeDefault - BitVec.ofNat 32 procOriginStack)
      msg.bufLen.toNat ↔ msg.bufLen.toNat ≤ procOriginStack := by
    have hva : (procImageSizeDefault - BitVec.ofNat 32 procOriginStack).toNat = 0xFFC00 := by decide
    have hsize : procImageSizeDefault.toNat = 0x100000 := rfl
    have horigin : procOriginStack = 0x400 := rfl
    unfold InSegment
    omega
  simp only [h.userBytes, mem_loadLoop hnone, loadLoop_ok hnone, Nat.zero_add]
  constructor
  · rintro ⟨hsegs, hargs⟩ c (⟨j, -, hj, hload, hfit, rfl⟩ | ⟨hfit, rfl | rfl⟩)
    · exact hsegs j hj hload hfit
    · exact (hargs hfit).1
    · exact hstack.2 (hargs hfit).2
  · intro hc
    refine ⟨fun j hj hload hfit => hc _ (.inl ⟨j, Nat.zero_le j, hj, hload, hfit, rfl⟩),
      fun hfit => ⟨hc _ (.inr ⟨hfit, .inl rfl⟩), hstack.1 (hc _ (.inr ⟨hfit, .inr rfl⟩))⟩⟩

theorem touches_exec (h : Forked k p) :
    (∀ x, Touches k p (.exec file msg) x → InImage p x) ↔ Bounded k p (.exec file msg) := by
  constructor
  · intro ht
    refine ⟨(pathFits_iff h).2 fun hlen x hx =>
      ht x (.exec (mem_doExecCopies.2 ⟨hlen, .inl rfl⟩) hx), fun hlen s hs hfd hsize => ?_⟩
    exact (elfFits_iff h).2 fun c hc x hx =>
      ht x (.exec (mem_doExecCopies.2 ⟨hlen, .inr ⟨s, hs, hfd, hsize, hc⟩⟩) hx)
  · rintro ⟨hpath, helf⟩ x ht
    obtain ⟨c, hc, hx⟩ : ∃ c ∈ doExecCopies file procImageSizeDefault msg,
        UserByte k p c.va c.n x := by
      cases ht with
      | exec hc hx => exact ⟨_, hc, hx⟩
    obtain ⟨hlen, rfl | ⟨s, hs, hfd, hsize, hc⟩⟩ := mem_doExecCopies.1 hc
    · exact (pathFits_iff h).1 hpath hlen x hx
    · exact (elfFits_iff h).1 (helf hlen s hs hfd hsize) _ hc x hx

end Requests

/-- A request touches nothing outside its caller's image just when its pointers and lengths, which
nothing checks, are below the image's size. -/
theorem isolated_iff_bounded (h : Forked k p) (req : UserRequest) :
    (∀ x, Touches k p req x → InImage p x) ↔ Bounded k p req := by
  cases req with
  | «open» msg =>
    refine Iff.trans ⟨fun ht hlen x hx => ht x (.open hlen hx), fun hf x ht => ?_⟩
      (pathFits_iff h).symm
    cases ht with
    | «open» hlen hx => exact hf hlen x hx
  | unlink msg =>
    refine Iff.trans ⟨fun ht hlen x hx => ht x (.unlink hlen hx), fun hf x ht => ?_⟩
      (pathFits_iff h).symm
    cases ht with
    | unlink hlen hx => exact hf hlen x hx
  | stat fs msg => exact touches_stat h
  | rdwt fs tty isRead msg => exact touches_rdwt h
  | exec file msg => exact touches_exec h

/-- The first child of `INIT`. -/
theorem forked_child : ∃ k, Forked k 9 := by
  have hany : (forkProc mmEnv64 (kernelMain (fun _ => 0) 0) 5).toOption.any
      (fun r => r.1 = some 9) = true := by decide
  obtain ⟨⟨c, k⟩, hk, hc⟩ := (Option.any_eq_true _ _).1 hany
  obtain rfl : c = some 9 := of_decide_eq_true hc
  refine ⟨k, mmEnv64, kernelMain (fun _ => 0) 0, 5, k, ?_, rfl⟩
  cases hf : forkProc mmEnv64 (kernelMain (fun _ => 0) 0) 5 with
  | error e => rw [hf] at hk; exact nomatch hk
  | ok r => rw [hf] at hk; exact congrArg Except.ok (Option.some.inj hk)

theorem isolated_iff_bounded_child : ∃ k, Forked k 9 ∧
    ∀ req, (∀ x, Touches k 9 req x → InImage 9 x) ↔ Bounded k 9 req := by
  obtain ⟨k, h⟩ := forked_child
  exact ⟨k, h, isolated_iff_bounded h⟩

/-- The name of a file to open starts where the image ends: the file system reads the first byte of
the next image. -/
theorem open_reads_outside : ∃ k x, Forked k 9 ∧
    Touches k 9 (.open ⟨9, MsgType.open.code, 0, 1, 0, 0, 0, 0, 0x100000, 0⟩) x ∧
      ¬ InImage 9 x := by
  obtain ⟨k, h⟩ := forked_child
  obtain ⟨-, hbase⟩ := h.image
  have hbase : ((k.procTable 9).ldts 1).linear.toNat = 0xA00000 := hbase
  refine ⟨k, ((k.procTable 9).ldts 1).linear + 0x100000, h, .open (by decide) ?_, ?_⟩
  · rw [h.userByte]
    show (((k.procTable 9).ldts 1).linear + 0x100000 -
      (((k.procTable 9).ldts 1).linear + 0x100000)).toNat < 1
    simp
  · rw [h.inImage_iff]
    exact show ¬ (_ - _ : Addr).toNat < 0x100000 by bv_omega

end MyOS
