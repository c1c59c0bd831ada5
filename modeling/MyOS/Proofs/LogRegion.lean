import MyOS.Lib.Run
import MyOS.Fs.LogCalls
import MyOS.Proofs.Disklog
import MyOS.Proofs.DirSlots

/-!
# Where the log is written

The first call marks the bits of the log in the sector map, outside the log. Everything else is
written into the log, one string behind the other, as long as `pos` stays there: nothing compares it
with the end of the device, and every call puts the header into the last sector.
-/

namespace MyOS

open Memory Block

variable {sb : SuperBlock} {fs : Fs} {dev dev' : Device} {st st' st₁ : DiskLog} {n : ℕ}

/-! ## The sectors written -/

/-- The sectors that have been written since, also those written before. -/
def Device.Adds (dev dev' : Device) (P : Int → Prop) : Prop :=
  ∃ new, dev'.written = new ++ dev.written ∧ ∀ s ∈ new, P s

namespace Device.Adds

variable {d d' d'' : Device} {P Q : Int → Prop}

theorem refl (d : Device) (P : Int → Prop) : d.Adds d P := ⟨[], rfl, fun _ hs => nomatch hs⟩

theorem mono (h : d.Adds d' P) (hpq : ∀ s, P s → Q s) : d.Adds d' Q := by
  obtain ⟨new, heq, hnew⟩ := h
  exact ⟨new, heq, fun s hs => hpq s (hnew s hs)⟩

theorem trans (h : d.Adds d' P) (h' : d'.Adds d'' P) : d.Adds d'' P := by
  obtain ⟨new, heq, hnew⟩ := h
  obtain ⟨new', heq', hnew'⟩ := h'
  refine ⟨new' ++ new, by rw [heq', heq, List.append_assoc], fun s hs => ?_⟩
  exact (List.mem_append.1 hs).elim (hnew' s) (hnew s)

theorem wr (d : Device) {s : Int} (f : Bytes) (h : P s) : d.Adds (d.wr s f) P := by
  refine ⟨[s], rfl, fun s' hs => ?_⟩
  rwa [List.mem_singleton.1 hs]

theorem suffix (h : d.Adds d' P) : d.written <:+ d'.written := by
  obtain ⟨new, heq, -⟩ := h
  exact ⟨new, heq.symm⟩

end Device.Adds

/-! ## The bits of the log -/

/-- The bytes `p` have been written behind `pos`, on the sectors from `n` on. -/
structure Logged (n : ℕ) (st st' : DiskLog) (p : List Byte) : Prop where
  pos : st'.pos = st.pos + p.length
  written : st.dev.Adds st'.dev fun s => ∃ q, 512 * q < st'.pos ∧ s = (n + q : ℕ)
  before : st'.pos < 2 ^ 32 → ∀ z < st.pos,
    dirBytes st'.dev.disk n z = dirBytes st.dev.disk n z
  text : st'.pos < 2 ^ 32 → bytesFrom (dirBytes st'.dev.disk n) st.pos p.length = p

theorem Logged.refl (n : ℕ) (st : DiskLog) : Logged n st st [] where
  pos := rfl
  written := .refl _ _
  before _ _ _ := rfl
  text _ := rfl

theorem Logged.trans {p q : List Byte} (hp : Logged n st st₁ p) (hq : Logged n st₁ st' q) :
    Logged n st st' (p ++ q) where
  pos := by rw [hq.pos, hp.pos, List.length_append, Nat.add_assoc]
  written := by
    have hle := hq.pos
    refine (hp.written.mono ?_).trans hq.written
    rintro s ⟨k, hk, rfl⟩
    exact ⟨k, by omega, rfl⟩
  before hlt z hz := by
    have hpos := hp.pos
    have hle := hq.pos
    rw [hq.before hlt z (by omega), hp.before (by omega) z hz]
  text hlt := by
    have hpos := hp.pos
    have hle := hq.pos
    have hkept : bytesFrom (dirBytes st'.dev.disk n) st.pos p.length = p := by
      rw [bytesFrom_congr fun z _ hz => hq.before hlt z (by omega)]
      exact hp.text (by omega)
    rw [List.length_append, bytesFrom_add, hkept, ← hpos, hq.text hlt]

/-- One turn of the loop. -/
theorem Logged.turn (n : ℕ) (st : DiskLog) (p : List Byte) {m : ℕ} (hp : m ≤ p.length)
    (hm : st.pos % 512 + m ≤ 512) (hpos : 0 < m) : Logged n st
      ⟨st.dev.wr (n + (st.pos / 512 : ℕ))
        (blit (rdSect st.dev.disk (n + (st.pos / 512 : ℕ))) (st.pos % 512) m fun i => p.getD i 0),
        st.pos + m⟩ (p.take m) := by
  have hlen : (p.take m).length = m := List.length_take_of_le hp
  have hat (hlt : st.pos + m < 2 ^ 32) (z : ℕ) (hz : z < st.pos + m) :
      dirBytes (wrSect st.dev.disk (n + (st.pos / 512 : ℕ))
        (blit (rdSect st.dev.disk (n + (st.pos / 512 : ℕ))) (st.pos % 512) m fun i => p.getD i 0))
        n z = blit (dirBytes st.dev.disk n) st.pos m (fun i => p.getD i 0) z := by
    rw [dirBytes_blit _ _ _ (by omega) (by omega) (by omega), Nat.min_eq_left (by omega),
      Nat.div_add_mod]
  constructor
  · rw [hlen]
  · refine .wr st.dev _ ⟨st.pos / 512, ?_, by omega⟩
    dsimp only
    omega
  · intro hlt z hz
    exact (hat hlt z (by omega)).trans (blit_outside (.inl hz))
  · intro hlt
    rw [hlen]
    exact (bytesFrom_congr fun z _ hz => hat hlt z hz).trans (bytesFrom_blit hp)

theorem posLine_length {pos : ℕ} (h : pos < 2 ^ 32) : (posLine pos).length ≤ 11 := by
  have hdigits := (Nat.length_toDigits_le_iff (b := 10) (k := 10) (by decide) (by decide)).2
    (show pos < 10 ^ 10 by omega)
  simp only [posLine, List.length_append, List.length_replicate, List.length_map,
    List.length_singleton]
  omega

theorem logHeader_outside {pos x : ℕ} (f : Bytes) (hpos : pos < 2 ^ 32) (hx : 64 ≤ x) :
    logHeader f pos x = f x := by
  have hline := posLine_length hpos
  unfold logHeader
  rw [put, if_neg (by omega), blit_outside (by omega), put, if_neg (by omega),
    blit_outside (by omega), blit_outside (by omega)]

theorem writeHeader_dirBytes {pos z : ℕ} (hn : nrLogBlk0Nr sb = n) (hpos : pos < 2 ^ 32)
    (hlo : 64 ≤ z) (hhi : z < 511 * 512) :
    dirBytes (writeHeader sb dev pos).disk n z = dirBytes dev.disk n z := by
  have hlast : nrLogBlk0Nr sb + nrSectsForLog - 1 = n + (511 : ℕ) := by
    rw [hn, show (nrSectsForLog : Int) = 512 from rfl]
    omega
  have hfirst : nrLogBlk0Nr sb = n + (0 : ℕ) := by omega
  unfold writeHeader
  rw [hlast, Device.wr_disk, dirBytes_wrSect _ _ _ (by omega) (by omega), if_neg (by omega),
    hfirst, Device.wr_disk, dirBytes_wrSect _ _ _ (by omega) (by omega)]
  split_ifs with hz
  · rw [logHeader_outside _ hpos (by omega), dirBytes, hz]
  · rfl

/-- The bytes of the log. -/
def logBytes (sb : SuperBlock) (disk : Bytes) : Bytes :=
  dirBytes disk (sb.nrSects - nrSectsForLog)

/-- What holds after a first call, when `text` has been logged. -/
structure LogInv (sb : SuperBlock) (text : List Byte) (st : DiskLog) : Prop where
  fits : nrSectsForLog ≤ sb.nrSects
  pos : st.pos = 0x40 + text.length
  text : st.pos ≤ 511 * 512 → bytesFrom (logBytes sb st.dev.disk) 0x40 text.length = text

theorem nrLogBlk0Nr_nat (hsize : sb.nrSects < 2 ^ 31) (hfits : nrSectsForLog ≤ sb.nrSects) :
    nrLogBlk0Nr sb = (sb.nrSects - nrSectsForLog : ℕ) := by
  have hlog : nrSectsForLog = 512 := rfl
  rw [nrLogBlk0Nr_eq hsize]
  omega

theorem LogInv.header {text : List Byte} (hsize : sb.nrSects < 2 ^ 31) (hinv : LogInv sb text st) :
    LogInv sb text ⟨writeHeader sb st.dev st.pos, st.pos⟩ := by
  have hpos := hinv.pos
  refine ⟨hinv.fits, hpos, fun hend => ?_⟩
  dsimp only at hend
  exact (bytesFrom_congr fun z hlo hhi => writeHeader_dirBytes
    (nrLogBlk0Nr_nat hsize hinv.fits) (by omega) hlo (by omega)).trans (hinv.text hend)

end MyOS
