import MyOS.HdRdwt
import MyOS.Proofs.Sectors
import MyOS.Proofs.FsStart

/-!
# How many sectors the driver moves

The loop of `hd_rdwt` ends just where the count is a number of whole sectors, for only then does
`bytes_left` come to 0, and where the controller has them all. It has as many as the 8 bits of the
command say, which are those of the loop for 256 sectors at most.
-/

namespace MyOS

open Memory Block

variable {p : Message} {data : ℕ → Bytes} {la : Addr} {mem : Mem} {k given : ℕ}

/-! ## The loop -/

/-- The bytes of the sectors that a read gets. -/
def sectorBytes (data : ℕ → Bytes) (i : ℕ) : Byte := data (i / 512) (i % 512)

/-- The loop after `k` turns for whole sectors. -/
def HdLoop.after (p : Message) (data : ℕ → Bytes) (la : Addr) (mem : Mem) (k : ℕ) : HdLoop where
  bytesLeft := p.cnt - BitVec.ofNat 32 (512 * k)
  la := la + BitVec.ofNat 32 (512 * k)
  mem := if p.type = MsgType.devRead.code then poke mem la (512 * k) (sectorBytes data) else mem
  sent := if p.type = MsgType.devRead.code then []
    else (List.range (512 * k)).map fun i => mem (la + BitVec.ofNat 32 i)
  sects := k

theorem HdLoop.after_zero : HdLoop.after p data la mem 0 = HdLoop.start p la mem := by
  unfold HdLoop.after HdLoop.start
  simp

theorem HdLoop.after_bytesLeft (hk : 512 * k ≤ p.cnt.toNat) :
    (HdLoop.after p data la mem k).bytesLeft.toNat = p.cnt.toNat - 512 * k := by
  have hlt := p.cnt.isLt
  have hsub : (BitVec.ofNat 32 (512 * k)).toNat = 512 * k := by
    rw [BitVec.toNat_ofNat, Nat.mod_eq_of_lt (by omega)]
  change (p.cnt - BitVec.ofNat 32 (512 * k)).toNat = _
  bv_omega

theorem hdTurn_after (hk : 512 * (k + 1) ≤ p.cnt.toNat) (hcnt : p.cnt.toNat < 2 ^ 31) :
    hdTurn p data (.after p data la mem k) = .ok (.after p data la mem (k + 1)) := by
  have hleft : (HdLoop.after p data la mem k).bytesLeft.toNat = p.cnt.toNat - 512 * k :=
    HdLoop.after_bytesLeft (by omega)
  have hbytes : min (sectorSize : Int) (HdLoop.after p data la mem k).bytesLeft.toInt = 512 := by
    rw [BitVec.toInt_eq_toNat_of_lt (by omega), hleft]
    simp only [sectorSize]
    omega
  have hnext : BitVec.ofNat 32 (512 * (k + 1)) =
      BitVec.ofNat 32 (512 * k) + (sectorSize : BitVec 32) := by
    rw [Nat.mul_add, BitVec.ofNat_add]
    rfl
  have hleft' : p.cnt - BitVec.ofNat 32 (512 * k) - (sectorSize : BitVec 32) =
      p.cnt - BitVec.ofNat 32 (512 * (k + 1)) := by
    rw [hnext, BitVec.sub_sub]
  unfold hdTurn
  dsimp only
  rw [hbytes, if_neg (by decide)]
  unfold HdLoop.after
  split_ifs with hread
  · have hrow : poke (poke mem la (512 * k) (sectorBytes data)) (la + BitVec.ofNat 32 (512 * k)) 512
        (data k) = poke mem la (512 * (k + 1)) (sectorBytes data) := by
      rw [Nat.mul_add, ← poke_poke _ _ _ (by omega)]
      refine poke_congr fun i hi => ?_
      rw [sectorBytes, show (512 * k + i) / 512 = k by omega, show (512 * k + i) % 512 = i by omega]
    simp only [Except.ok.injEq, HdLoop.mk.injEq, and_true]
    exact ⟨hleft', by rw [hnext, BitVec.add_assoc], hrow⟩
  · have hsent : ((List.range (512 * k)).map fun i => mem (la + BitVec.ofNat 32 i)) ++
        ((List.range 512).map fun i => mem (la + BitVec.ofNat 32 (512 * k) + BitVec.ofNat 32 i)) =
          (List.range (512 * (k + 1))).map fun i => mem (la + BitVec.ofNat 32 i) := by
      rw [Nat.mul_add, List.range_add, List.map_append, List.map_map]
      congr 2
      funext i
      rw [Function.comp_apply, BitVec.ofNat_add, BitVec.add_assoc]
    simp only [Except.ok.injEq, HdLoop.mk.injEq, and_true, true_and]
    exact ⟨hleft', by rw [hnext, BitVec.add_assoc], hsent⟩

/-- One turn after the other, as long as there are sectors. -/
theorem hdLoop_after (hcnt : p.cnt.toNat < 2 ^ 31) (fuel : ℕ) {j : ℕ} :
    ∀ {k : ℕ}, 512 * (k + j) ≤ p.cnt.toNat → k + j ≤ given →
      hdLoop p data given (fuel + j) (.after p data la mem k) =
        hdLoop p data given fuel (.after p data la mem (k + j)) := by
  induction j with
  | zero => exact fun _ _ => rfl
  | succ j ih =>
    intro k hk hgiven
    have hleft : (HdLoop.after p data la mem k).bytesLeft ≠ 0 := fun h0 => by
      have := @HdLoop.after_bytesLeft p data la mem k (by omega)
      rw [h0] at this
      simp only [BitVec.ofNat_eq_ofNat, BitVec.toNat_ofNat, Nat.zero_mod] at this
      omega
    have hhas : (HdLoop.after p data la mem k).sects ≠ given := by
      change k ≠ given
      omega
    rw [← Nat.add_assoc, hdLoop, if_neg hleft, if_neg hhas, hdTurn_after (by omega) hcnt, ok_bind,
      ih (by omega) (by omega), Nat.add_right_comm, Nat.add_assoc]

theorem hdLoop_stop {fuel : ℕ} {s : HdLoop} (h : s.bytesLeft = 0) :
    hdLoop p data given fuel s = .ok (some s) := by
  cases fuel with
  | zero => rw [hdLoop, if_pos h]
  | succ fuel => rw [hdLoop, if_pos h]

theorem hdLoop_whole (hlt : p.cnt.toNat < 2 ^ 31) (hk : p.cnt.toNat = 512 * k)
    (hgiven : k ≤ given) :
    hdLoop p data given k (.start p la mem) = .ok (some (.after p data la mem k)) := by
  have hloop := @hdLoop_after p data la mem given hlt 0 k 0 (by omega) (by omega)
  have hend : (HdLoop.after p data la mem (0 + k)).bytesLeft = 0 := by
    refine BitVec.eq_of_toNat_eq ?_
    rw [HdLoop.after_bytesLeft (by omega), hk]
    simp
  rwa [HdLoop.after_zero, hdLoop_stop hend, Nat.zero_add] at hloop

/-- What a turn takes from `bytes_left` is a sector. -/
theorem hdTurn_ok {s s' : HdLoop} (h : hdTurn p data s = .ok s') :
    s'.bytesLeft = s.bytesLeft - 512 ∧ s'.sects = s.sects + 1 := by
  unfold hdTurn at h
  dsimp only at h
  split_ifs at h <;> rw [← Except.ok.inj h] <;> exact ⟨rfl, rfl⟩

/-- Where the loop ends, `bytes_left` was that of the sectors moved since. -/
theorem hdLoop_count {fuel : ℕ} : ∀ {s s' : HdLoop}, hdLoop p data given fuel s = .ok (some s') →
    s.sects ≤ given → s'.sects ≤ given ∧
      s.bytesLeft + BitVec.ofNat 32 (512 * s.sects) = BitVec.ofNat 32 (512 * s'.sects) := by
  have hzero {s : HdLoop} (h0 : s.bytesLeft = 0) :
      s.bytesLeft + BitVec.ofNat 32 (512 * s.sects) = BitVec.ofNat 32 (512 * s.sects) := by
    rw [h0]
    exact BitVec.zero_add _
  induction fuel with
  | zero =>
    intro s s' h hle
    rw [hdLoop] at h
    split_ifs at h with h0
    · obtain rfl := Option.some.inj (Except.ok.inj h)
      exact ⟨hle, hzero h0⟩
    · exact nomatch Except.ok.inj h
  | succ fuel ih =>
    intro s s' h hle
    rw [hdLoop] at h
    split_ifs at h with h0 hgiven
    · obtain rfl := Option.some.inj (Except.ok.inj h)
      exact ⟨hle, hzero h0⟩
    · exact nomatch Except.ok.inj h
    · obtain ⟨s₁, hturn, h⟩ := bind_eq_ok.1 h
      obtain ⟨hleft, hsects⟩ := hdTurn_ok hturn
      obtain ⟨hle', hsum⟩ := ih h (by omega)
      refine ⟨hle', ?_⟩
      rw [hleft, hsects] at hsum
      rw [← hsum]
      bv_omega

/-- The loop ends with the last of the bytes, and only with whole sectors. -/
theorem hdLoop_ends {fuel : ℕ} {s : HdLoop} (hgiven : given ≤ 256)
    (h : hdLoop p data given fuel (.start p la mem) = .ok (some s)) :
    s.sects ≤ given ∧ p.cnt.toNat = 512 * s.sects := by
  obtain ⟨hle, hsum⟩ := hdLoop_count h (Nat.zero_le given)
  have hcnt : p.cnt = BitVec.ofNat 32 (512 * s.sects) := by
    rw [← hsum]
    exact (BitVec.add_zero _).symm
  refine ⟨hle, ?_⟩
  rw [hcnt, BitVec.toNat_ofNat, Nat.mod_eq_of_lt (by omega)]

/-! ## The count of a command -/

theorem countSectors_le (c : BitVec 8) : countSectors c ≤ 256 := by
  unfold countSectors
  split_ifs
  · exact le_rfl
  · exact c.isLt.le

/-- The 8 bits of the count are enough for 256 sectors. -/
theorem countSectors_iff {cnt : BitVec 32} (hcnt : cnt.toNat = 512 * k) (hlt : cnt.toNat < 2 ^ 31)
    (hk : 1 ≤ k) : countSectors (cmdCount cnt) = k ↔ k ≤ 256 := by
  have hround : (cnt + 512 - 1).toInt.tdiv 512 = k := by
    have hnat : (cnt + 512 - 1).toNat = 512 * k + 511 := by bv_omega
    rw [BitVec.toInt_eq_toNat_of_lt (by omega), hnat, Int.tdiv_eq_ediv_of_nonneg (by omega)]
    omega
  have hcount : cmdCount cnt = BitVec.ofNat 8 k := by
    unfold cmdCount
    rw [hround, BitVec.ofInt_natCast]
    refine BitVec.eq_of_toNat_eq ?_
    rw [BitVec.toNat_setWidth, BitVec.toNat_ofNat, BitVec.toNat_ofNat]
    omega
  have hzero : BitVec.ofNat 8 k = 0 ↔ k % 256 = 0 := by bv_omega
  unfold countSectors
  rw [hcount]
  split_ifs with h0
  · rw [hzero] at h0
    omega
  · rw [hzero] at h0
    rw [BitVec.toNat_ofNat]
    omega

theorem cnt_lt (hcnt : 0 < p.cnt.toInt) : p.cnt.toNat < 2 ^ 31 ∧ 0 < p.cnt.toNat := by
  have := BitVec.toInt_eq_toNat_cond p.cnt
  split_ifs at this <;> omega

theorem answered_iff (hcnt : 0 < p.cnt.toInt) :
    p.Answered ↔ 512 ∣ p.cnt.toNat ∧ p.cnt.toNat ≤ 256 * 512 := by
  have hlt := cnt_lt hcnt
  unfold Message.Answered
  constructor
  · intro h
    have := countSectors_le (cmdCount p.cnt)
    exact ⟨⟨_, h.symm⟩, by omega⟩
  · rintro ⟨⟨k, hk⟩, hle⟩
    rw [(countSectors_iff hk hlt.1 (by omega)).2 (by omega), hk]

/-- The loop ends, after as many turns as the request has sectors, and has moved its bytes. -/
def MovesAll (p : Message) (data : ℕ → Bytes) (la : Addr) (mem : Mem) : Prop :=
  ∃ fuel s, hdLoop p data (countSectors (cmdCount p.cnt)) fuel (.start p la mem) = .ok (some s) ∧
    s.sects = (p.cnt.toNat + 511) / 512 ∧
    if p.type = MsgType.devRead.code then s.mem = poke mem la p.cnt.toNat (sectorBytes data)
    else s.mem = mem ∧ s.sent = (List.range p.cnt.toNat).map fun i => mem (la + BitVec.ofNat 32 i)

theorem movesAll_iff_answered (data : ℕ → Bytes) (la : Addr) (mem : Mem) (hcnt : 0 < p.cnt.toInt) :
    MovesAll p data la mem ↔ p.Answered := by
  have hlt := cnt_lt hcnt
  constructor
  · rintro ⟨fuel, s, hloop, -⟩
    obtain ⟨hle, hsects⟩ := hdLoop_ends (countSectors_le _) hloop
    have := countSectors_le (cmdCount p.cnt)
    exact (answered_iff hcnt).2 ⟨⟨_, hsects⟩, by omega⟩
  · intro h
    obtain ⟨k, hk⟩ : ∃ k, countSectors (cmdCount p.cnt) = k := ⟨_, rfl⟩
    have hcnt' : p.cnt.toNat = 512 * k := by
      rw [← hk]
      exact h.symm
    refine ⟨k, _, hdLoop_whole hlt.1 hcnt' hk.ge, ?_, ?_⟩
    · change k = _
      omega
    · rw [hcnt']
      split_ifs with hread
      · exact if_pos hread
      · exact ⟨if_neg hread, if_neg hread⟩

/-- The loop does its work just where the count is one of whole sectors, and of 256 at most. -/
theorem hd_moves_all_iff (data : ℕ → Bytes) (la : Addr) (mem : Mem) (hcnt : 0 < p.cnt.toInt) :
    MovesAll p data la mem ↔ 512 ∣ p.cnt.toNat ∧ p.cnt.toNat ≤ 256 * 512 :=
  (movesAll_iff_answered data la mem hcnt).trans (answered_iff hcnt)

/-- Two sectors are read. -/
theorem hd_moves_all_two : MovesAll { reqPart2 with m3i2 := 1024 } (fun _ _ => 0) 0 fun _ => 0 :=
  (hd_moves_all_iff _ _ _ (show 0 < (1024 : BitVec 32).toInt by decide)).2 (by decide)

/-- A read of 100 bytes waits for another sector behind its only one, with -412 bytes left. -/
theorem hd_goes_on : (∀ fuel s, hdLoop { reqPart2 with m3i2 := 100 } (fun _ _ => 0) 1 fuel
      (.start { reqPart2 with m3i2 := 100 } 0 fun _ => 0) ≠ .ok (some s)) ∧
    ¬ MovesAll { reqPart2 with m3i2 := 100 } (fun _ _ => 0) 0 fun _ => 0 := by
  have hgo : ∀ fuel s, hdLoop { reqPart2 with m3i2 := 100 } (fun _ _ => 0) 1 fuel
      (.start { reqPart2 with m3i2 := 100 } 0 fun _ => 0) ≠ .ok (some s) := by
    intro fuel s hloop
    have hcnt : 100 = 512 * s.sects := (hdLoop_ends (by decide) hloop).2
    omega
  exact ⟨hgo, fun ⟨fuel, s, hloop, _⟩ => hgo fuel s hloop⟩

/-! ## The count of the command -/

section Counts

variable {hdi : HdInfo} {part : PartInfo} {dev : BitVec 32} {x : DiskInode} {isRead : Bool}
  {pos len : BitVec 32}

/-- The controller moves as many sectors as the loop. -/
def MovesCounted (hdi : HdInfo) (m : Message) : Prop :=
  ∃ c, hdRdwtCmd hdi m = .ok c ∧ ∀ data la mem, ∃ fuel s,
    hdLoop m data c.sectors fuel (.start m la mem) = .ok (some s) ∧ c.sectors = s.sects

theorem hdRdwtCmd_count {m : Message} (hp : partInfo hdi m.device.toInt = .ok part)
    (hpos : PosOk m.position) : ∃ c, hdRdwtCmd hdi m = .ok c ∧ c.count = cmdCount m.cnt := by
  unfold hdRdwtCmd
  dsimp only
  rw [assert_of hpos, ok_bind, hp, ok_bind]
  exact ⟨_, rfl, rfl⟩

theorem movesCounted_iff {m : Message} (hp : partInfo hdi m.device.toInt = .ok part)
    (hpos : PosOk m.position) (hcnt : m.cnt = BitVec.ofNat 32 (512 * k)) (hk : 1 ≤ k ∧ k ≤ 512) :
    MovesCounted hdi m ↔ k ≤ 256 := by
  obtain ⟨c, hcmd, hcount⟩ := hdRdwtCmd_count hp hpos
  have hnat : m.cnt.toNat = 512 * k := by
    rw [hcnt, BitVec.toNat_ofNat]
    omega
  have hsects : c.sectors = k ↔ k ≤ 256 := by
    rw [HdCmd.sectors, hcount]
    exact countSectors_iff hnat (by omega) hk.1
  rw [← hsects]
  constructor
  · rintro ⟨c', hcmd', hall⟩
    rw [hcmd] at hcmd'
    obtain rfl := Except.ok.inj hcmd'
    obtain ⟨fuel, s, hloop, heq⟩ := hall (fun _ _ => 0) 0 fun _ => 0
    have := (hdLoop_ends (countSectors_le _) hloop).2
    omega
  · intro heq
    exact ⟨c, hcmd, fun data la mem => ⟨k, _, hdLoop_whole (by omega) hnat heq.ge, heq⟩⟩

theorem rwSector_cnt (ioType : MsgType) (dev : BitVec 32) (pos : BitVec 64) (k : ℕ) :
    (rwSector ioType dev pos (k * sectorSize)).cnt = BitVec.ofNat 32 (512 * k) := by
  change BitVec.ofInt 32 (k * sectorSize) = _
  rw [← Int.natCast_mul, BitVec.ofInt_natCast, Nat.mul_comm]
  rfl

/-- A request for sectors has a turn. -/
theorem rdwtTurns_ne_nil (h : rwSect x pos ≤ rwSect x (rdwtEnd x isRead pos len)) :
    ∃ t, t ∈ (rdwtTurns x isRead pos len).2 := by
  unfold rdwtTurns
  dsimp only
  obtain ⟨fuel, hfuel⟩ : ∃ fuel,
      (rwSect x (rdwtEnd x isRead pos len) - rwSect x pos + 1).toNat = fuel + 1 :=
    Nat.exists_eq_succ_of_ne_zero (by omega)
  rw [hfuel, rdwtLoop, if_pos h]
  exact ⟨_, List.mem_cons_self⟩

/-- What is so of a request for `k` sectors just where these are 256 at most is so of all that
`do_rdwt` asks for just where the sectors from that of the position to that of the end are. -/
theorem rdwtRequests_iff {P : Message → Prop} (x : DiskInode) (isRead : Bool) (pos len : BitVec 32)
    (hP : ∀ ioType sect, ∀ k : ℕ, 1 ≤ k ∧ k ≤ 512 →
      (P (rwSector ioType dev (sectPosition true sect) (k * sectorSize)) ↔ k ≤ 256)) :
    (∀ m ∈ rdwtRequests dev x isRead pos len, P m) ↔
      rwSect x (rdwtEnd x isRead pos len) - rwSect x pos + 1 ≤ 256 := by
  generalize hn : rwSect x (rdwtEnd x isRead pos len) - rwSect x pos + 1 = n
  have hchunk : (rdwtTurns x isRead pos len).1 = min n 512 := by
    rw [← hn]
    rfl
  unfold rdwtRequests
  rcases lt_or_ge n 1 with hnone | hsome
  · -- the loop does not start
    have hturns : (rdwtTurns x isRead pos len).2 = [] := by
      unfold rdwtTurns
      dsimp only
      rw [hn, show n.toNat = 0 by omega, rdwtLoop]
    simp only [hturns, List.flatMap_nil, List.not_mem_nil, false_implies, implies_true, true_iff]
    omega
  · obtain ⟨t, ht⟩ := @rdwtTurns_ne_nil x isRead pos len (by omega)
    obtain ⟨k, hk⟩ := Int.eq_ofNat_of_zero_le (show 0 ≤ min n 512 by omega)
    have hone {t : RdwtTurn} : (∀ m ∈ t.requests isRead dev k, P m) ↔ k ≤ 256 := by
      have hk' : 1 ≤ k ∧ k ≤ 512 := by omega
      unfold RdwtTurn.requests
      cases isRead with
      | true => simp only [if_true, List.mem_singleton, forall_eq, hP _ _ k hk']
      | false => simp only [Bool.false_eq_true, if_false, List.mem_cons, List.not_mem_nil, or_false,
          forall_eq_or_imp, forall_eq, hP _ _ k hk', and_self]
    have hall : (∀ m ∈ (rdwtTurns x isRead pos len).2.flatMap (RdwtTurn.requests isRead dev k),
        P m) ↔ k ≤ 256 := by
      simp only [List.mem_flatMap, forall_exists_index, and_imp]
      exact ⟨fun h => hone.1 fun m hm => h m t ht hm, fun h m t' _ hm => hone.2 h m hm⟩
    dsimp only
    rw [hchunk, hk, hall]
    omega

/-- For every request of `do_rdwt`: its commands say how many sectors the driver moves just where
the sectors from that of the position to that of the end are 256 at most. -/
theorem rdwt_counted_iff (x : DiskInode) (isRead : Bool) (pos len : BitVec 32)
    (hp : partInfo hdi (minor dev).toInt = .ok part) :
    (∀ m ∈ rdwtRequests dev x isRead pos len, MovesCounted hdi m) ↔
      rwSect x (rdwtEnd x isRead pos len) - rwSect x pos + 1 ≤ 256 :=
  rdwtRequests_iff x isRead pos len fun ioType _ k hk =>
    movesCounted_iff hp (posOk_sectPosition _ _) (rwSector_cnt ioType dev _ k) hk

/-- And just there the driver is done with all of them. -/
theorem rdwt_answered_iff (dev : BitVec 32) (x : DiskInode) (isRead : Bool) (pos len : BitVec 32) :
    (∀ m ∈ rdwtRequests dev x isRead pos len, m.Answered) ↔
      rwSect x (rdwtEnd x isRead pos len) - rwSect x pos + 1 ≤ 256 := by
  refine rdwtRequests_iff x isRead pos len fun ioType sect k hk => ?_
  have hcnt := rwSector_cnt ioType dev (sectPosition true sect) k
  have hnat : (rwSector ioType dev (sectPosition true sect) (k * sectorSize)).cnt.toNat =
      512 * k := by
    rw [hcnt, BitVec.toNat_ofNat]
    omega
  have hpos : 0 < (rwSector ioType dev (sectPosition true sect) (k * sectorSize)).cnt.toInt := by
    rw [BitVec.toInt_eq_toNat_of_lt (by omega)]
    omega
  rw [answered_iff hpos, hnat]
  omega

/-- For 1024 bytes of "cmd.tar", from its start, the driver is asked for three sectors. -/
theorem rdwt_counted_cmdTar : ∃ m, rdwtRequests 2 cmdTarNode true 0 1024 = [m] ∧
    m.cnt = 1536 ∧ MovesCounted hdInfo8G m := by
  have hp : partInfo hdInfo8G (minor 2).toInt = .ok ⟨0x4063, 0xF00000⟩ := by decide
  have hone : rdwtRequests 2 cmdTarNode true 0 1024 =
      [rwSector .devRead 2 (sectPosition true 0x8000) 1536] := by decide
  refine ⟨_, hone, rfl, (rdwt_counted_iff cmdTarNode true 0 1024 hp).2 (by decide) _ ?_⟩
  rw [hone]
  exact List.mem_singleton_self _

/-- To read 128 KiB of it, from its start, the driver moves 257 sectors with a command for one. -/
theorem rdwt_count_overflows : ∃ m ∈ rdwtRequests 2 cmdTarNode true 0 0x20000,
    m.cnt = BitVec.ofNat 32 (512 * 257) ∧ (∃ c, hdRdwtCmd hdInfo8G m = .ok c ∧ c.sectors = 1) ∧
      ¬ MovesCounted hdInfo8G m := by
  obtain ⟨m, hm, hdev, hpos, hcnt⟩ : ∃ m ∈ rdwtRequests 2 cmdTarNode true 0 0x20000,
      m.device = minor 2 ∧ PosOk m.position ∧ m.cnt = BitVec.ofNat 32 (512 * 257) := by
    have hchunk : (rdwtTurns cmdTarNode true 0 0x20000).1 = (257 : ℕ) := by decide
    obtain ⟨t, ht⟩ := @rdwtTurns_ne_nil cmdTarNode true 0 0x20000 (by decide)
    unfold rdwtRequests
    dsimp only
    rw [hchunk]
    exact ⟨_, List.mem_flatMap.2 ⟨t, ht, List.mem_singleton_self _⟩, rfl,
      posOk_sectPosition true _, rwSector_cnt .devRead 2 _ 257⟩
  have hp : partInfo hdInfo8G m.device.toInt = .ok ⟨0x4063, 0xF00000⟩ := by
    rw [hdev]
    decide
  obtain ⟨c, hcmd, hcount⟩ := hdRdwtCmd_count hp hpos
  refine ⟨m, hm, hcnt, ⟨c, hcmd, ?_⟩, ?_⟩
  · rw [HdCmd.sectors, hcount, hcnt]
    decide
  · rw [movesCounted_iff hp hpos hcnt (by decide)]
    decide

end Counts

end MyOS
