import MyOS.Proofs.DiskMaps
import MyOS.Proofs.Isolation
import MyOS.DoExec

/-!
# The turns of a request move one row of bytes

Each turn goes on where the one before has stopped, in the file and in the caller's buffer, so that
the turns of a `WRITE` put one row of bytes on the disk, and those of a `READ` one into the buffer.
A turn that has nothing left to move changes nothing, wherever its sectors lie.
-/

namespace MyOS

open Memory Block

/-- The bytes that turns move. -/
def moved (turns : List RdwtTurn) : Int := (turns.map RdwtTurn.bytes).sum

@[simp] theorem moved_nil : moved [] = 0 := rfl

@[simp] theorem moved_cons (t : RdwtTurn) (l : List RdwtTurn) :
    moved (t :: l) = t.bytes + moved l := by
  simp [moved]

/-- The turns move the bytes from `base + b` on, one after the other. -/
inductive Tiles (base : ℕ) (chunk : Int) : ℕ → List RdwtTurn → Prop
  | nil (b : ℕ) : Tiles base chunk b []
  | cons {b : ℕ} {t : RdwtTurn} {l : List RdwtTurn} : t.bytesRw = b → 0 ≤ t.off → 0 ≤ t.bytes →
    t.off + t.bytes ≤ chunk * sectorSize →
    (t.bytes ≠ 0 → sectPos t.sect + t.off.toNat = base + b) →
    Tiles base chunk (b + t.bytes.toNat) l → Tiles base chunk b (t :: l)

variable {base b : ℕ} {chunk : Int} {l : List RdwtTurn}

theorem Tiles.moved_nonneg (h : Tiles base chunk b l) : 0 ≤ moved l := by
  induction h with
  | nil => exact le_rfl
  | cons _ _ hbytes _ _ _ ih =>
    rw [moved_cons]
    omega

/-! ## What they do -/

theorem writeTurn_eq {user : Addr → Byte} {buf : Addr} {disk : Bytes} {t : RdwtTurn}
    (hoff : 0 ≤ t.off) (hbytes : 0 ≤ t.bytes) (hfits : t.off + t.bytes ≤ chunk * sectorSize) :
    writeTurn user buf chunk disk t =
      .ok (blit disk (sectPos t.sect + t.off.toNat) t.bytes.toNat fun i =>
        user (buf + BitVec.ofInt 32 t.bytesRw + BitVec.ofNat 32 i)) := by
  unfold writeTurn
  rw [if_neg (by omega)]
  dsimp only
  rw [blit_from _ _ _ (by omega)]

/-- The turns of a write put the bytes of the buffer in a row. -/
theorem Tiles.writes (user : Addr → Byte) (buf : Addr) (h : Tiles base chunk b l) : ∀ disk : Bytes,
    l.foldlM (writeTurn user buf chunk) disk =
      .ok (blit disk (base + b) (moved l).toNat fun i => user (buf + BitVec.ofNat 32 (b + i))) := by
  induction h with
  | nil b =>
    intro disk
    simp only [moved_nil, Int.toNat_zero, blit_zero]
    rfl
  | @cons b t l hrw hoff hbytes hfits hpos hl ih =>
    intro disk
    have hg : (fun i => user (buf + BitVec.ofInt 32 t.bytesRw + BitVec.ofNat 32 i)) =
        fun i => user (buf + BitVec.ofNat 32 (b + i)) := by
      funext i
      rw [hrw, BitVec.ofInt_natCast, BitVec.add_assoc, ← BitVec.ofNat_add]
    have hfirst : blit disk (sectPos t.sect + t.off.toNat) t.bytes.toNat
        (fun i => user (buf + BitVec.ofNat 32 (b + i))) =
          blit disk (base + b) t.bytes.toNat fun i => user (buf + BitVec.ofNat 32 (b + i)) := by
      by_cases hz : t.bytes = 0
      · rw [hz, Int.toNat_zero, blit_zero, blit_zero]
      · rw [hpos hz]
    have hrest : (fun i => user (buf + BitVec.ofNat 32 (b + t.bytes.toNat + i))) =
        from_ (fun i => user (buf + BitVec.ofNat 32 (b + i))) t.bytes.toNat := by
      funext i
      rw [from_apply, Nat.add_assoc]
    have hsum : (moved (t :: l)).toNat = t.bytes.toNat + (moved l).toNat := by
      have := hl.moved_nonneg
      rw [moved_cons]
      omega
    rw [List.foldlM_cons, writeTurn_eq hoff hbytes hfits, hg, hfirst, ok_bind, ih, hrest,
      ← Nat.add_assoc, blit_blit, hsum]

/-- The turns of a read put the bytes of the disk in a row. -/
theorem Tiles.reads (la : Addr) (disk : Bytes) (h : Tiles base chunk b l) : ∀ mem : Mem,
    b + moved l ≤ 2 ^ 32 → readTo la disk l mem =
      poke mem (la + BitVec.ofNat 32 b) (moved l).toNat (from_ disk (base + b)) := by
  induction h with
  | nil b =>
    intro mem hle
    rw [moved_nil, Int.toNat_zero, poke_zero]
    rfl
  | @cons b t l hrw hoff hbytes hfits hpos hl ih =>
    intro mem hle
    have hpos' := hl.moved_nonneg
    rw [moved_cons] at hle
    have hsum : (moved (t :: l)).toNat = t.bytes.toNat + (moved l).toNat := by
      rw [moved_cons]
      omega
    have hfirst : poke mem (la + BitVec.ofInt 32 t.bytesRw) t.bytes.toNat
        (from_ disk (sectPos t.sect + t.off.toNat)) =
          poke mem (la + BitVec.ofNat 32 b) t.bytes.toNat (from_ disk (base + b)) := by
      rw [hrw, BitVec.ofInt_natCast]
      by_cases hz : t.bytes = 0
      · rw [hz, Int.toNat_zero, poke_zero, poke_zero]
      · rw [hpos hz]
    have hrest : from_ disk (base + (b + t.bytes.toNat)) =
        fun i => from_ disk (base + b) (t.bytes.toNat + i) := by
      funext i
      rw [from_apply, from_apply]
      congr 1
      omega
    have hstep : readTo la disk (t :: l) mem = readTo la disk l
        (poke mem (la + BitVec.ofInt 32 t.bytesRw) t.bytes.toNat
          (from_ disk (sectPos t.sect + t.off.toNat))) := rfl
    rw [hstep, hfirst, ih _ (by omega), hrest, BitVec.ofNat_add, ← BitVec.add_assoc,
      poke_poke _ _ _ (by omega), hsum]

theorem Tiles.readTurns (h : Tiles base chunk b l) : l.forM readTurn = .ok () := by
  induction h with
  | nil => rfl
  | @cons b t l _ hoff hbytes _ _ _ ih =>
    have ht : readTurn t = .ok () := if_neg (by omega)
    show (readTurn t >>= fun _ => l.forM readTurn) = _
    rw [ht]
    exact ih

/-! ## The loop -/

/-- The loop from sector `i` on, where the file's byte `b` is at `off` in it, or nothing is left. -/
theorem rdwtLoop_tiles {rwSectMax : ℕ} (hmax : rwSectMax < 2 ^ 22) (hc : 0 < chunk) : ∀ (fuel : ℕ)
    {i off b left : ℕ}, (off : Int) ≤ chunk * sectorSize → (left ≠ 0 → 512 * i + off = base + b) →
      Tiles base chunk b (rdwtLoop rwSectMax chunk fuel i off b left)
  | 0, i, off, b, left, _, _ => .nil b
  | fuel + 1, i, off, b, left, hoff, hat => by
    unfold rdwtLoop
    split_ifs with hi
    · obtain ⟨c, hchunk⟩ := Int.eq_ofNat_of_zero_le hc.le
      obtain ⟨n, hn⟩ := Int.eq_ofNat_of_zero_le
        (show (0 : Int) ≤ min (left : Int) (chunk * sectorSize - off) by omega)
      have hsect : (i : Int) + chunk = ((i + c : ℕ) : Int) := by omega
      have hleft : (left : Int) - (n : ℕ) = ((left - n : ℕ) : Int) := by omega
      have hb : (b : Int) + (n : ℕ) = ((b + n : ℕ) : Int) := by omega
      have hcap : chunk * (sectorSize : Int) = 512 * c := by rw [hchunk, Int.mul_comm]; rfl
      have hlt : i < 2 ^ 22 := by omega
      dsimp only
      rw [hn, hsect, hleft, hb]
      refine .cons rfl (by dsimp only; omega) (by dsimp only; omega) (by dsimp only; omega)
        (fun hne => ?_) ?_
      · dsimp only at hne ⊢
        have := hat (by omega)
        rw [sectPos_of_lt hlt]
        omega
      · have hnext : ((0 : ℕ) : Int) ≤ chunk * sectorSize := by omega
        refine rdwtLoop_tiles hmax hc fuel hnext fun hne => ?_
        have := hat (by omega)
        dsimp only
        omega
    · exact .nil b

theorem rdwtLoop_moved {rwSectMax : Int} (hc : 0 < chunk) : ∀ (fuel : ℕ) {i off bytesRw left : Int},
    (rwSectMax - i + 1).toNat ≤ fuel → off ≤ chunk * sectorSize → 0 ≤ left → i ≤ rwSectMax →
      moved (rdwtLoop rwSectMax chunk fuel i off bytesRw left) =
        min left (rdwtRoom (rwSectMax - i + 1) chunk off)
  | 0, i, off, bytesRw, left, hfuel, _, _, hi => by omega
  | fuel + 1, i, off, bytesRw, left, hfuel, hoff, hleft, hi => by
    have hmul : 0 ≤ chunk * (sectorSize : Int) := Int.mul_nonneg hc.le (by simp)
    unfold rdwtLoop
    rw [if_pos hi, rdwtRoom_step hc off]
    dsimp only
    rw [moved_cons]
    dsimp only
    by_cases hi' : i + chunk ≤ rwSectMax
    · have hroom : 0 ≤ rdwtRoom (rwSectMax - i + 1 - chunk) chunk 0 := rdwtRoom_nonneg (by omega) hc
      rw [rdwtLoop_moved hc fuel (by omega) hmul (by omega) hi',
        show rwSectMax - (i + chunk) + 1 = rwSectMax - i + 1 - chunk by omega]
      omega
    · have hnone : moved (rdwtLoop rwSectMax chunk fuel (i + chunk) 0
          (bytesRw + min left (chunk * sectorSize - off))
          (left - min left (chunk * sectorSize - off))) = 0 := by
        cases fuel with
        | zero => rfl
        | succ fuel =>
          unfold rdwtLoop
          rw [if_neg hi', moved_nil]
      rw [hnone, rdwtRoom_last (by omega) (by omega)]
      omega

/-- The turns have room for the rest of the sector of the last byte, at least. -/
theorem rdwtRoom_ge (sects off : Int) (hc : 0 < chunk) :
    sects * sectorSize - off ≤ rdwtRoom sects chunk off := by
  have hdiv : sects ≤ (sects + chunk - 1) / chunk * chunk := by
    have := Int.emod_add_mul_ediv (sects + chunk - 1) chunk
    have := Int.emod_lt_of_pos (sects + chunk - 1) hc
    rw [Int.mul_comm]
    omega
  have hmul := Int.mul_le_mul_of_nonneg_right hdiv (Int.natCast_nonneg sectorSize)
  unfold rdwtRoom
  rw [← Int.mul_assoc]
  omega

/-! ## A request -/

section Request

variable {x : DiskInode} {isRead : Bool} {pos len : BitVec 32}

theorem rwSect_eq (h : x.iStartSect.toNat + pos.toNat / 512 < 2 ^ 22) :
    rwSect x pos = (x.iStartSect.toNat + pos.toNat / 512 : ℕ) := by
  have hlt : pos.toNat < 2 ^ 31 := by omega
  have hshift : (pos.sshiftRight 9).toNat = pos.toNat / 512 := by
    rw [BitVec.sshiftRight_eq_of_msb_false (by rw [BitVec.msb_eq_decide]; simpa using hlt),
      BitVec.toNat_ushiftRight, Nat.shiftRight_eq_div_pow]
  have hsum : (x.iStartSect + pos.sshiftRight 9).toNat = x.iStartSect.toNat + pos.toNat / 512 := by
    rw [BitVec.toNat_add, hshift, Nat.mod_eq_of_lt (by omega)]
  rw [rwSect, BitVec.toInt_eq_toNat_of_lt (by omega), hsum]

/-- The turns of a request whose sectors have positions of 32 bits. -/
theorem rdwtTurns_tiles (hlen : len.toNat < 2 ^ 31)
    (hle : pos.toNat ≤ (rdwtEnd x isRead pos len).toNat)
    (hreach : x.iStartSect.toNat + (rdwtEnd x isRead pos len).toNat / 512 < 2 ^ 22) :
    Tiles (512 * x.iStartSect.toNat + pos.toNat) (rdwtTurns x isRead pos len).1 0
        (rdwtTurns x isRead pos len).2 ∧
      ∃ room : Int, (rdwtEnd x isRead pos len).toNat - pos.toNat < room ∧
        moved (rdwtTurns x isRead pos len).2 = min (len.toNat : Int) room := by
  have hdiv : pos.toNat / 512 ≤ (rdwtEnd x isRead pos len).toNat / 512 := Nat.div_le_div_right hle
  have hmin : rwSect x pos = (x.iStartSect.toNat + pos.toNat / 512 : ℕ) := rwSect_eq (by omega)
  have hmax := rwSect_eq hreach
  have hlen' : len.toInt = len.toNat := BitVec.toInt_eq_toNat_of_lt (by omega)
  have hoff : pos.toInt.tmod sectorSize = (pos.toNat % 512 : ℕ) := by
    rw [BitVec.toInt_eq_toNat_of_lt (by omega), Int.tmod_eq_emod_of_nonneg (by omega)]
    rfl
  have hsize : (sectorSize : Int) = 512 := rfl
  have hfsbuf : ((fsbufSize / sectorSize : ℕ) : Int) = 512 := rfl
  unfold rdwtTurns
  dsimp only
  rw [hmin, hmax, hlen', hoff, hfsbuf]
  generalize hend : (rdwtEnd x isRead pos len).toNat = stop at hle hreach hdiv
  have hc : 0 < min (((x.iStartSect.toNat + stop / 512 : ℕ) : Int) -
      (x.iStartSect.toNat + pos.toNat / 512 : ℕ) + 1) 512 := by omega
  generalize min (((x.iStartSect.toNat + stop / 512 : ℕ) : Int) -
    (x.iStartSect.toNat + pos.toNat / 512 : ℕ) + 1) 512 = chunk at hc
  have hroom : ((pos.toNat % 512 : ℕ) : Int) ≤ chunk * sectorSize := by
    rw [hsize]
    omega
  refine ⟨rdwtLoop_tiles hreach hc _ hroom fun _ => by omega, _,
    lt_of_lt_of_le ?_ (rdwtRoom_ge _ _ hc), rdwtLoop_moved hc _ le_rfl hroom (by omega) (by omega)⟩
  rw [hsize]
  omega

theorem rdwtEnd_read (h : pos.toNat + len.toNat < 2 ^ 32) :
    (rdwtEnd x true pos len).toNat = min (pos.toNat + len.toNat) x.iSize.toNat := by
  have hsum : (pos + len).toNat = pos.toNat + len.toNat := by
    rw [BitVec.toNat_add, Nat.mod_eq_of_lt h]
  unfold rdwtEnd
  dsimp only
  rw [if_pos rfl, hsum, BitVec.toNat_ofNat, Nat.mod_eq_of_lt (by omega)]

theorem rdwtEnd_write (h : pos.toNat + len.toNat < 2 ^ 32) (hnr : x.iNrSects.toNat < 2 ^ 23) :
    (rdwtEnd x false pos len).toNat = min (pos.toNat + len.toNat) (x.iNrSects.toNat * 512) := by
  have hsum : (pos + len).toNat = pos.toNat + len.toNat := by
    rw [BitVec.toNat_add, Nat.mod_eq_of_lt h]
  have hroom : (x.iNrSects * (sectorSize : BitVec 32)).toNat = x.iNrSects.toNat * 512 := by
    rw [BitVec.toNat_mul]
    exact Nat.mod_eq_of_lt (by simp [sectorSize]; omega)
  unfold rdwtEnd
  dsimp only
  rw [if_neg Bool.false_ne_true, hsum, hroom, BitVec.toNat_ofNat, Nat.mod_eq_of_lt (by omega)]

end Request

end MyOS
