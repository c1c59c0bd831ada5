import MyOS.Proofs.FsFiles
import MyOS.Lib.Scan
import Mathlib.Data.Nat.Count

/-!
# The entries of a directory

An entry by its number, whatever sector it is in. The walks of `search_file`, `new_dir_entry` and
`do_unlink` go sector by sector and entry by entry, and end where one walk over the entries does.
-/

namespace MyOS

open Memory Block Scan

variable {disk disk' : Bytes} {blk n i j k : ℕ} {filename : List Byte} {nr : BitVec 32}

/-- The inode number of entry `k` of the directory that starts at sector `blk`, -/
def slotNr (disk : Bytes) (blk k : ℕ) : BitVec 32 :=
  entryInodeNr (rdSect disk (blk + (k / 32 : ℕ))) (k % 32)

/-- its name, -/
def slotName (disk : Bytes) (blk k : ℕ) : ℕ → Byte :=
  entryName (rdSect disk (blk + (k / 32 : ℕ))) (k % 32)

/-- and how many entries are in use before it. -/
def usedBefore (disk : Bytes) (blk k : ℕ) : ℕ := Nat.count (fun j => slotNr disk blk j ≠ 0) k

theorem slotNr_at (disk : Bytes) (blk i : ℕ) (hj : j < 32) :
    slotNr disk blk (32 * i + j) = entryInodeNr (rdSect disk (blk + i)) j := by
  rw [slotNr, show (32 * i + j) / 32 = i by omega, show (32 * i + j) % 32 = j by omega]

theorem slotName_at (disk : Bytes) (blk i : ℕ) (hj : j < 32) :
    slotName disk blk (32 * i + j) = entryName (rdSect disk (blk + i)) j := by
  rw [slotName, show (32 * i + j) / 32 = i by omega, show (32 * i + j) % 32 = j by omega]

/-! ## Where a walk ends -/

/-- `search_file` compares an entry before it counts it: it ends at an entry that `hit`s, or at the
one that makes more than `n`. -/
def searchEnd (n : ℕ) (hit : ℕ → Prop) [DecidablePred hit] (k : ℕ) : Option (ℕ × Bool) :=
  if hit k then some (k, true) else if n < k + 1 then some (k, false) else none

/-- The others count it first. -/
def scanEnd (n : ℕ) (hit : ℕ → Prop) [DecidablePred hit] (k : ℕ) : Option (ℕ × Bool) :=
  if n < k + 1 then some (k, false) else if hit k then some (k, true) else none

section Ends

variable {hit : ℕ → Prop} [DecidablePred hit] {l : ℕ}

theorem searchEnd_true : first (searchEnd n hit) 0 l = some (k, true) ↔
    k ≤ n ∧ k < l ∧ hit k ∧ ∀ j < k, ¬ hit j := by
  rw [first_eq_some]
  constructor
  · rintro ⟨k', -, hl, hk, hbefore⟩
    unfold searchEnd at hk hbefore
    split_ifs at hk with hhit
    · obtain rfl : k' = k := by simpa using hk
      refine ⟨?_, by omega, hhit, fun j hj hhit' => ?_⟩
      · by_contra hlt
        have := hbefore n (by omega) (by omega)
        split_ifs at this
        omega
      · have := hbefore j (by omega) hj
        rw [if_pos hhit'] at this
        exact nomatch this
    · simp at hk
  · rintro ⟨hn, hl, hhit, hbefore⟩
    refine ⟨k, by omega, by omega, if_pos hhit, fun j _ hj => ?_⟩
    rw [searchEnd, if_neg (hbefore j hj), if_neg (by omega)]

theorem scanEnd_true : first (scanEnd n hit) 0 l = some (k, true) ↔
    k < n ∧ k < l ∧ hit k ∧ ∀ j < k, ¬ hit j := by
  rw [first_eq_some]
  constructor
  · rintro ⟨k', -, hl, hk, hbefore⟩
    unfold scanEnd at hk hbefore
    split_ifs at hk with hn hhit
    · simp at hk
    · obtain rfl : k' = k := by simpa using hk
      refine ⟨by omega, by omega, hhit, fun j hj hhit' => ?_⟩
      have := hbefore j (by omega) hj
      rw [if_neg (by omega), if_pos hhit'] at this
      exact nomatch this
  · rintro ⟨hn, hl, hhit, hbefore⟩
    refine ⟨k, by omega, by omega, ?_, fun j _ hj => ?_⟩
    · rw [scanEnd, if_neg (by omega), if_pos hhit]
    · rw [scanEnd, if_neg (by omega), if_neg (hbefore j hj)]

theorem scanEnd_false : first (scanEnd n hit) 0 l = some (k, false) ↔
    k = n ∧ n < l ∧ ∀ j < n, ¬ hit j := by
  rw [first_eq_some]
  constructor
  · rintro ⟨k', -, hl, hk, hbefore⟩
    unfold scanEnd at hk hbefore
    split_ifs at hk with hn hhit
    · obtain rfl : k' = k := by simpa using hk
      have hkn : k' = n := by
        by_contra hne
        have := hbefore n (by omega) (by omega)
        rw [if_pos (by omega)] at this
        exact nomatch this
      refine ⟨hkn, by omega, fun j hj hhit' => ?_⟩
      have := hbefore j (by omega) (by omega)
      rw [if_neg (by omega), if_pos hhit'] at this
      exact nomatch this
    · simp at hk
  · rintro ⟨rfl, hl, hbefore⟩
    refine ⟨k, by omega, by omega, if_pos (by omega), fun j _ hj => ?_⟩
    rw [scanEnd, if_neg (by omega), if_neg (hbefore j hj)]

end Ends

/-! ## The walks -/

theorem searchSect_eq (i : ℕ) : ∀ {l j : ℕ}, j + l ≤ 32 →
    searchSect (rdSect disk (blk + i)) filename n (List.range' j l) (32 * i + j) =
      match first (searchEnd n fun k => SameName filename (slotName disk blk k)) (32 * i + j) l with
      | some (k, true) => .found (slotNr disk blk k)
      | some (_, false) => .stop
      | none => .next (32 * i + j + l)
  | 0, j, _ => rfl
  | l + 1, j, hl => by
    rw [List.range'_succ, searchSect, first_succ, searchEnd, slotName_at disk blk i (by omega)]
    by_cases hname : SameName filename (entryName (rdSect disk (blk + i)) j)
    · rw [if_pos hname, if_pos hname, Option.some_or]
      simp only [slotNr_at disk blk i (show j < 32 by omega)]
    · rw [if_neg hname, if_neg hname]
      by_cases hn : n < 32 * i + j + 1
      · rw [if_pos hn, if_pos hn]
        rfl
      · rw [if_neg hn, if_neg hn, Option.none_or, Nat.add_assoc, searchSect_eq i (by omega),
          Nat.add_assoc (32 * i) (j + 1), Nat.add_assoc (32 * i) j, Nat.add_right_comm j 1]
        rfl

/-- What `search_file` returns of a walk. -/
def searchOut (disk : Bytes) (blk : ℕ) : Option (ℕ × Bool) → BitVec 32
  | some (k, true) => slotNr disk blk k
  | _ => 0

theorem searchLoop_cons (i : ℕ) (l : List ℕ) (m : ℕ) :
    searchLoop disk blk filename n (i :: l) m =
      match searchSect (rdSect disk (blk + i)) filename n (List.range nrDirEntriesPerSect) m with
      | .found nr => nr
      | .stop => 0
      | .next m => searchLoop disk blk filename n l m := by
  rfl

theorem searchLoop_eq (b : ℕ) : searchLoop disk blk filename n (List.range b) 0 =
    searchOut disk blk
      (first (searchEnd n fun k => SameName filename (slotName disk blk k)) 0 (32 * b)) := by
  refine nested (searchLoop disk blk filename n) (searchOut disk blk) 32 (fun m => rfl)
    (fun i l => ?_) b
  have hsect := @searchSect_eq disk blk n filename i 32 0 le_rfl
  rw [← List.range_eq_range', Nat.add_zero] at hsect
  rw [searchLoop_cons, show nrDirEntriesPerSect = 32 from rfl, hsect]
  rcases first (searchEnd n fun k => SameName filename (slotName disk blk k)) (32 * i) 32 with
    _ | ⟨k, _ | _⟩
  · rfl
  · rfl
  · rfl

theorem freeSect_eq (i : ℕ) : ∀ {l j : ℕ}, j + l ≤ 32 →
    freeSect (rdSect disk (blk + i)) n (List.range' j l) (32 * i + j) =
      match first (scanEnd n fun k => slotNr disk blk k = 0) (32 * i + j) l with
      | some (k, free) => .found (k % 32, free)
      | none => .next (32 * i + j + l)
  | 0, j, _ => rfl
  | l + 1, j, hl => by
    have hmod : (32 * i + j) % 32 = j := by omega
    rw [List.range'_succ, freeSect, first_succ, scanEnd, slotNr_at disk blk i (by omega)]
    by_cases hn : n < 32 * i + j + 1
    · rw [if_pos hn, if_pos hn, Option.some_or]
      simp only [hmod]
    · rw [if_neg hn, if_neg hn]
      by_cases hnr : entryInodeNr (rdSect disk (blk + i)) j = 0
      · rw [if_pos hnr, if_pos hnr, Option.some_or]
        simp only [hmod]
      · rw [if_neg hnr, if_neg hnr, Option.none_or, Nat.add_assoc, freeSect_eq i (by omega),
          Nat.add_assoc (32 * i) (j + 1), Nat.add_assoc (32 * i) j, Nat.add_right_comm j 1]
        rfl

/-- The entry where a walk has ended is one of the block it was in. -/
theorem first_scanEnd_mem {hit : ℕ → Prop} [DecidablePred hit] {free : Bool} {l : ℕ}
    (h : first (scanEnd n hit) i l = some (k, free)) : i ≤ k ∧ k < i + l := by
  obtain ⟨k', hlo, hhi, hk, -⟩ := first_eq_some.1 h
  obtain rfl : k' = k := by
    unfold scanEnd at hk
    split_ifs at hk
    · exact (Prod.mk.inj (Option.some.inj hk)).1
    · exact (Prod.mk.inj (Option.some.inj hk)).1
  exact ⟨hlo, hhi⟩

/-- What `new_dir_entry` makes of a walk. -/
def freeOut : Option (ℕ × Bool) → Except Fault (ℕ × ℕ × Bool)
  | some (k, free) => .ok (k / 32, k % 32, free)
  | none => .error .wild

theorem freeLoop_eq (b : ℕ) : freeLoop disk blk n (List.range b) 0 =
    freeOut (first (scanEnd n fun k => slotNr disk blk k = 0) 0 (32 * b)) := by
  refine nested (freeLoop disk blk n) freeOut 32 (fun m => rfl) (fun i l => ?_) b
  have hsect := @freeSect_eq disk blk n i 32 0 le_rfl
  rw [← List.range_eq_range', Nat.add_zero] at hsect
  rw [freeLoop, show nrDirEntriesPerSect = 32 from rfl, hsect]
  rcases hf : first (scanEnd n fun k => slotNr disk blk k = 0) (32 * i) 32 with _ | ⟨k, free⟩
  · rfl
  · obtain ⟨hlo, hhi⟩ := first_scanEnd_mem hf
    have hdiv : k / 32 = i := by omega
    simp only [freeOut, hdiv]

theorem findSect_eq (i : ℕ) : ∀ {l j : ℕ}, j + l ≤ 32 →
    findSect (rdSect disk (blk + i)) n nr (List.range' j l) (32 * i + j)
        (dirEntrySize * usedBefore disk blk (32 * i + j)) =
      match first (scanEnd n fun k => slotNr disk blk k = nr) (32 * i + j) l with
      | some (k, true) => (.found (k % 32, k + 1, dirEntrySize * usedBefore disk blk k),
          dirEntrySize * usedBefore disk blk k)
      | some (k, false) => (.stop, dirEntrySize * usedBefore disk blk k)
      | none => (.next (32 * i + j + l), dirEntrySize * usedBefore disk blk (32 * i + j + l))
  | 0, j, _ => rfl
  | l + 1, j, hl => by
    have hmod : (32 * i + j) % 32 = j := by omega
    rw [List.range'_succ, findSect, first_succ, scanEnd, slotNr_at disk blk i (by omega)]
    by_cases hn : n < 32 * i + j + 1
    · rw [if_pos hn, if_pos hn, Option.some_or]
    · rw [if_neg hn, if_neg hn]
      by_cases hnr : entryInodeNr (rdSect disk (blk + i)) j = nr
      · rw [if_pos hnr, if_pos hnr, Option.some_or]
        simp only [hmod]
      · have hused : (if entryInodeNr (rdSect disk (blk + i)) j ≠ invalidInode then
            dirEntrySize * usedBefore disk blk (32 * i + j) + dirEntrySize
          else dirEntrySize * usedBefore disk blk (32 * i + j)) =
            dirEntrySize * usedBefore disk blk (32 * i + (j + 1)) := by
          rw [← Nat.add_assoc, usedBefore, usedBefore, Nat.count_succ,
            slotNr_at disk blk i (by omega)]
          change (if entryInodeNr (rdSect disk (blk + i)) j ≠ 0 then _ else _) = _
          split_ifs
          · rw [Nat.mul_add, Nat.mul_one]
          · rfl
        rw [if_neg hnr, if_neg hnr, Option.none_or, hused, Nat.add_assoc, findSect_eq i (by omega),
          Nat.add_assoc (32 * i) (j + 1), Nat.add_assoc (32 * i) j, Nat.add_right_comm j 1]
        rfl

/-- What `do_unlink` has found with a walk. -/
def findOut (disk : Bytes) (blk : ℕ) : Option (ℕ × Bool) → Option (ℕ × ℕ × ℕ × ℕ)
  | some (k, true) => some (k / 32, k % 32, k + 1, dirEntrySize * usedBefore disk blk k)
  | _ => none

theorem findLoop_eq (b : ℕ) : findLoop disk blk n nr (List.range b) 0 0 =
    findOut disk blk (first (scanEnd n fun k => slotNr disk blk k = nr) 0 (32 * b)) := by
  refine nested (fun l m => findLoop disk blk n nr l m (dirEntrySize * usedBefore disk blk m))
    (findOut disk blk) 32 (fun m => rfl) (fun i l => ?_) b
  have hsect := @findSect_eq disk blk n nr i 32 0 le_rfl
  rw [← List.range_eq_range', Nat.add_zero] at hsect
  rw [findLoop, show nrDirEntriesPerSect = 32 from rfl, hsect]
  rcases hf : first (scanEnd n fun k => slotNr disk blk k = nr) (32 * i) 32 with _ | ⟨k, _ | _⟩
  · rfl
  · rfl
  · obtain ⟨hlo, hhi⟩ := first_scanEnd_mem hf
    have hdiv : k / 32 = i := by omega
    simp only [findOut, hdiv]

/-! ## The bytes of a directory -/

/-- The place of a sector, up to what is lost of the product. -/
theorem sectPos_mod (s : Int) : ∃ q, sectPos s = 512 * q ∧ (q % 2 ^ 23 : Int) = s % 2 ^ 23 := by
  refine ⟨_, Nat.mul_comm _ _, ?_⟩
  have hprod : (BitVec.ofInt 32 (s * sectorSize)).toNat = (s * 512 % 2 ^ 32).toNat := by
    rw [BitVec.toNat_ofInt]
    rfl
  rw [BitVec.toNat_setWidth, BitVec.toNat_ushiftRight, BitVec.toNat_signExtend,
    BitVec.toNat_setWidth, hprod, Nat.shiftRight_eq_div_pow]
  split_ifs <;> omega

/-- Sectors that are not `2 ^ 23` apart are in different places. -/
theorem sectPos_apart {s t : Int} (hne : s ≠ t) (hlt : s - t < 2 ^ 23) (hgt : t - s < 2 ^ 23) :
    sectPos s + 512 ≤ sectPos t ∨ sectPos t + 512 ≤ sectPos s := by
  obtain ⟨q, hq, hs⟩ := sectPos_mod s
  obtain ⟨r, hr, ht⟩ := sectPos_mod t
  have hqr : q ≠ r := by
    rintro rfl
    omega
  omega

/-- The bytes of the sectors from `blk` on. -/
def dirBytes (disk : Bytes) (blk : ℕ) : Bytes := fun z =>
  rdSect disk (blk + (z / 512 : ℕ)) (z % 512)

theorem slotNr_eq (disk : Bytes) (blk k : ℕ) :
    slotNr disk blk k = word (dirBytes disk blk) (16 * k) := by
  refine word_congr fun i hi => ?_
  rw [dirBytes, show (16 * k + i) / 512 = k / 32 by omega,
    show k % 32 * dirEntrySize + i = (16 * k + i) % 512 by simp only [dirEntrySize]; omega]

theorem slotName_eq (disk : Bytes) (blk k : ℕ) (hi : i < 12) :
    slotName disk blk k i = dirBytes disk blk (16 * k + 4 + i) := by
  rw [slotName, entryName, dirBytes, show (16 * k + 4 + i) / 512 = k / 32 by omega,
    show k % 32 * dirEntrySize + 4 + i = (16 * k + 4 + i) % 512 by simp only [dirEntrySize]; omega]

theorem dirBytes_wrSect (disk f : Bytes) (blk : ℕ) {z : ℕ} (hz : z / 512 < i + 2 ^ 23)
    (hi : i < z / 512 + 2 ^ 23) : dirBytes (wrSect disk (blk + i) f) blk z =
      if z / 512 = i then f (z % 512) else dirBytes disk blk z := by
  have hmod := Nat.mod_lt z (show 0 < 512 by decide)
  unfold dirBytes rdSect wrSect
  rw [from_apply]
  split_ifs with hsect
  · rw [hsect]
    exact blit_inside hmod
  · have hapart := sectPos_apart (s := blk + i) (t := blk + (z / 512 : ℕ)) (by omega) (by omega)
      (by omega)
    have hsize : sectorSize = 512 := rfl
    exact blit_outside (by omega)

/-- A sector is read, changed in part and written back; what lies behind its end is not written. -/
theorem dirBytes_blit (disk : Bytes) (blk : ℕ) {a m z : ℕ} (g : Bytes) (ha : a ≤ 512)
    (hz : z / 512 < i + 2 ^ 23) (hi : i < z / 512 + 2 ^ 23) :
    dirBytes (wrSect disk (blk + i) (blit (rdSect disk (blk + i)) a m g)) blk z =
      blit (dirBytes disk blk) (512 * i + a) (min m (512 - a)) g z := by
  rw [dirBytes_wrSect disk _ blk hz hi]
  split_ifs with hsect
  · have hz' : z = 512 * i + z % 512 := by omega
    have hmod := Nat.mod_lt z (show 0 < 512 by decide)
    by_cases hin : a ≤ z % 512 ∧ z % 512 < a + m
    · rw [blit, if_pos hin, blit, if_pos (by omega)]
      congr 1
      omega
    · rw [blit_outside (by omega), blit_outside (by omega), dirBytes, hsect]
  · rw [blit_outside (by omega)]

/-- The bytes of an entry, and of what `strcpy` puts behind a name that fills it. -/
def entryBytes (nr : BitVec 32) (filename : List Byte) : Bytes := fun i =>
  if i < 4 then byteOf nr i else filename.getD (i - 4) 0

theorem strcpy_putWord (f : Bytes) (a : ℕ) (nr : BitVec 32) (filename : List Byte) :
    strcpy (putWord f a nr) (a + 4) filename =
      blit f a (filename.length + 5) (entryBytes nr filename) := by
  have hword : putWord f a nr = blit f a 4 (entryBytes nr filename) := by
    funext x
    by_cases hx : a ≤ x ∧ x < a + 4
    · rw [putWord, blit, blit, if_pos hx, if_pos hx, entryBytes, if_pos (by omega)]
    · rw [putWord, blit_outside (by omega), blit_outside (by omega)]
  have hname : (fun i => filename.getD i 0) = from_ (entryBytes nr filename) 4 := by
    funext i
    rw [from_apply, entryBytes, if_neg (by omega), Nat.add_sub_cancel_left]
  rw [strcpy, hword, hname, blit_blit,
    show 4 + (filename.length + 1) = filename.length + 5 by omega]

/-- An entry with a number and a name is found by either. -/
theorem entry_found (h : ∀ i < 16, dirBytes disk blk (16 * k + i) = entryBytes nr filename i) :
    slotNr disk blk k = nr ∧ SameName filename (slotName disk blk k) := by
  constructor
  · rw [slotNr_eq, ← word_putWord disk 0 nr]
    refine word_congr fun i hi => ?_
    rw [h i (by omega), entryBytes, if_pos hi]
    exact (blit_inside hi).symm
  · intro i hi
    have hi : i < 12 := hi
    rw [slotName_eq _ _ _ hi, Nat.add_assoc, h (4 + i) (by omega), entryBytes, if_neg (by omega),
      Nat.add_sub_cancel_left]

/-- What is behind the first sector of a directory is all there is of it. -/
theorem dirBytes_congr {z : ℕ} (hfiles : ∀ y, 512 * blk ≤ y → disk' y = disk y)
    (hz : blk + z / 512 < 2 ^ 23) : dirBytes disk' blk z = dirBytes disk blk z := by
  have hpos := le_sectPos hz
  rw [Int.natCast_add] at hpos
  exact hfiles _ (by omega)

theorem slotNr_congr (hfiles : ∀ y, 512 * blk ≤ y → disk' y = disk y)
    (hk : blk + k / 32 < 2 ^ 23) : slotNr disk' blk k = slotNr disk blk k := by
  rw [slotNr_eq, slotNr_eq]
  exact word_congr fun i hi => dirBytes_congr hfiles (by omega)

end MyOS
