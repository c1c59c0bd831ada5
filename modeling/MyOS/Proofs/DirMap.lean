import MyOS.Proofs.DirEntries
import MyOS.Fs.Names
import MyOS.Lib.SlotMap
import Mathlib.Data.List.Find
import Mathlib.Data.List.GetD

/-!
# The root directory as a map

Its entries in use have the names of files, each once, and the numbers of marked inodes; what is
unused is null, and what is behind the last entry has no name of its own. Then `search_file` looks
up a name, and an entry that is put into the directory or removed changes one name of the map.
-/

namespace MyOS

open Memory Block Scan SlotMap

variable {fs fs' : Fs} {path p q filename : List Byte} {f : ℕ → Byte} {j k r : ℕ} {nr : BitVec 32}

/-! ## Names -/

theorem getD_ne_zero (h : (0 : Byte) ∉ p) {i : ℕ} : p.getD i 0 ≠ 0 ↔ i < p.length := by
  constructor
  · intro hne
    by_contra hle
    exact hne (List.getD_eq_default _ _ (not_lt.1 hle))
  · intro hi hz
    rw [List.getD_eq_getElem _ _ hi] at hz
    exact h (hz ▸ List.getElem_mem hi)

theorem sameName_congr {g : ℕ → Byte} (h : ∀ i < maxFilenameLen, f i = g i) :
    SameName p f ↔ SameName p g :=
  forall₂_congr fun i hi => by rw [h i hi]

theorem not_sameName_null (hp : IsName p) (h : SameName [] f) : ¬ SameName p f := by
  intro hpf
  have hz : p.getD 0 0 = 0 := (hpf 0 (by decide)).trans (h 0 (by decide)).symm
  exact (getD_ne_zero hp.2.2.2).2 (List.length_pos_iff.2 hp.1) hz

theorem stripPath_isName (hp : IsName p) : stripPath p = some p := by
  obtain ⟨hne, hlen, hslash, -⟩ := hp
  have hcomp : component p = p := by
    obtain ⟨c, s, rfl⟩ := List.exists_cons_of_ne_nil hne
    exact if_neg fun hc => hslash (by rw [← hc]; exact List.mem_cons_self)
  rw [stripPath_take, hcomp, List.take_of_length_le hlen, if_neg hslash]

/-- What `strip_path` makes of a path in memory is a name, or nothing. -/
theorem isName_of_stripPath (hnull : (0 : Byte) ∉ path) (hname : stripPath path = some filename)
    (hne : filename ≠ []) : IsName filename := by
  refine ⟨hne, stripPath_length hname, ?_, ?_⟩
  · rw [stripPath_take] at hname
    split_ifs at hname with hslash
    exact Option.some.inj hname ▸ hslash
  · rw [stripPath_take] at hname
    split_ifs at hname
    rw [← Option.some.inj hname]
    intro hmem
    have hin := List.mem_of_mem_take hmem
    cases path with
    | nil => exact nomatch hin
    | cons c s =>
      rw [component] at hin
      split_ifs at hin
      · exact hnull (List.mem_cons_of_mem _ hin)
      · exact hnull hin

/-! ## Entries -/

/-- The inode number of entry `k` of the root directory, -/
def rootNr (fs : Fs) (k : ℕ) : BitVec 32 := slotNr fs.disk (rootBlk fs) k

/-- its name as it stands there, -/
def rootName (fs : Fs) (k : ℕ) : ℕ → Byte := slotName fs.disk (rootBlk fs) k

/-- and what the entry says, where it is in use. -/
def entryAt (fs : Fs) (k : ℕ) : Option (List Byte × BitVec 32) :=
  if k < nrEntries fs ∧ rootNr fs k ≠ 0 then
    some (((List.range maxFilenameLen).map (rootName fs k)).takeWhile (· ≠ 0), rootNr fs k)
  else none

/-- Behind the last entry, entry `k` would be found for the name. -/
def Stale (fs : Fs) (k : ℕ) (p : List Byte) : Prop :=
  k % nrDirEntriesPerSect ≠ 0 ∧ SameName p (rootName fs k) ∧ rootNr fs k ≠ 0

/-- No entry of the directory has the name. -/
def Unlisted (fs : Fs) (p : List Byte) : Prop :=
  ∀ k < nrEntries fs, ¬ SameName p (rootName fs k)

structure DirOk (fs : Fs) : Prop where
  size : dirEntrySize ∣ (fs.inodeTable fs.rootInode).iSize.toNat
  small : nrEntries fs ≤ 4096
  named : ∀ k < nrEntries fs, rootNr fs k ≠ 0 → ∃ p, IsName p ∧ SameName p (rootName fs k)
  unused : ∀ k < nrEntries fs, rootNr fs k = 0 → SameName [] (rootName fs k)
  marked : ∀ k < nrEntries fs, rootNr fs k ≠ 0 → Allocated fs.disk (rootNr fs k).toNat
  distinct : ∀ j k, j < nrEntries fs → k < nrEntries fs → rootNr fs j ≠ 0 →
    rootNr fs j = rootNr fs k → j = k
  behind : ∀ p, IsName p → Unlisted fs p → ¬ Stale fs (nrEntries fs) p

theorem takeWhile_sameName (hp : IsName p) (h : SameName p f) :
    ((List.range maxFilenameLen).map f).takeWhile (· ≠ 0) = p := by
  obtain ⟨-, hlen, -, hnull⟩ := hp
  have hpad : (List.range maxFilenameLen).map f =
      p ++ List.replicate (maxFilenameLen - p.length) 0 := by
    refine List.ext_getElem (by simp; omega) fun i hi hi' => ?_
    have hi : i < maxFilenameLen := by simpa using hi
    rw [List.getElem_map, List.getElem_range, ← h i hi, List.getElem_append]
    split_ifs with hin
    · exact List.getD_eq_getElem _ _ hin
    · rw [List.getElem_replicate, List.getD_eq_default _ _ (not_lt.1 hin)]
  have hall (c : Byte) (hc : c ∈ p) : decide (c ≠ 0) = true :=
    decide_eq_true fun he => hnull (by rwa [← he])
  rw [hpad, List.takeWhile_append_of_pos hall, List.takeWhile_replicate]
  simp

/-- An entry that is as before. -/
theorem entryAt_congr (hlt : rootNr fs j ≠ 0 → (j < nrEntries fs' ↔ j < nrEntries fs))
    (hsame : rootNr fs' j = rootNr fs j ∧
      ∀ i < maxFilenameLen, rootName fs' j i = rootName fs j i) :
    entryAt fs' j = entryAt fs j := by
  obtain ⟨hnr, hname⟩ := hsame
  have hmap : (List.range maxFilenameLen).map (rootName fs' j) =
      (List.range maxFilenameLen).map (rootName fs j) :=
    List.map_congr_left fun i hi => hname i (List.mem_range.1 hi)
  unfold entryAt
  rw [hnr, hmap]
  by_cases h0 : rootNr fs j = 0
  · rw [if_neg fun he => he.2 h0, if_neg fun he => he.2 h0]
  · simp only [hlt h0]

namespace DirOk

theorem entryAt_eq (h : DirOk fs) (hp : IsName p) : entryAt fs k = some (p, nr) ↔
    k < nrEntries fs ∧ rootNr fs k = nr ∧ nr ≠ 0 ∧ SameName p (rootName fs k) := by
  unfold entryAt
  constructor
  · intro he
    split_ifs at he with hk
    obtain ⟨hname, hnr⟩ := Prod.mk.inj (Option.some.inj he)
    obtain ⟨q, hq, hsame⟩ := h.named k hk.1 hk.2
    rw [takeWhile_sameName hq hsame] at hname
    exact ⟨hk.1, hnr, hnr ▸ hk.2, hname ▸ hsame⟩
  · rintro ⟨hk, rfl, hnr, hsame⟩
    rw [if_pos ⟨hk, hnr⟩, takeWhile_sameName hp hsame]

theorem lt_reach (h : DirOk fs) (hL : Layout fs.sb) (hstart : rootBlk fs = fs.sb.n1stSect)
    (hk : k ≤ nrEntries fs + 1) : rootBlk fs + k / 32 < 2 ^ 23 := by
  have hsmall := hL.small
  have := h.small
  omega

theorem reach (h : DirOk fs) (hL : Layout fs.sb) : DirReach fs ∧ RootReach fs := by
  have hsmall := hL.small
  have hn := h.small
  have hsize := h.size
  have hround (size : BitVec 32) : (size + 512#32).toNat = (size.toNat + 512) % 2 ^ 32 := by
    bv_omega
  have hword : ((fs.inodeTable fs.rootInode).iSize + sectorSize).toNat = _ := hround _
  unfold DirReach RootReach
  rw [hword]
  simp only [nrEntries, dirEntrySize, sectorSize] at hn hsize ⊢
  omega

/-- `search_file` looks up the map. -/
theorem search {m : List Byte → Option (BitVec 32)} (h : DirOk fs)
    (hm : Represents (entryAt fs) m) (hname : stripPath path = some filename)
    (hp : IsName filename) : searchFile fs path = (m filename).getD 0 := by
  have hsize := h.size
  have hsmall := h.small
  have hall : nrEntries fs ≤ 32 * searchBlks fs ∧
      (nrEntries fs < 32 * searchBlks fs → nrEntries fs % 32 ≠ 0) := by
    rw [searchBlks_eq]
    simp only [nrEntries, dirEntrySize] at hsize hsmall ⊢
    omega
  by_cases hex : ∃ k < nrEntries fs, SameName filename (rootName fs k)
  · obtain ⟨hk, hhit⟩ := Nat.find_spec hex
    have hbefore (j : ℕ) (hj : j < Nat.find hex) : ¬ SameName filename (rootName fs j) :=
      fun hj' => Nat.find_min hex hj ⟨by omega, hj'⟩
    rw [searchFile_eq_of_hit hname hp.1 hk.le (by omega) hhit hbefore]
    have hused : rootNr fs (Nat.find hex) ≠ 0 := fun h0 =>
      not_sameName_null hp (h.unused _ hk h0) hhit
    rw [(hm.holds _ _).2 ⟨Nat.find hex, (h.entryAt_eq hp).2 ⟨hk, rfl, hused, hhit⟩⟩]
    rfl
  · have hunlisted : Unlisted fs filename := fun k hk hhit => hex ⟨k, hk, hhit⟩
    have hnone : m filename = none := hm.absent.2 fun k nr he =>
      hunlisted k ((h.entryAt_eq hp).1 he).1 ((h.entryAt_eq hp).1 he).2.2.2
    rw [hnone]
    rcases searchFile_cases hname hp.1 with h0 | ⟨k, hk, hread, hhit, -, heq⟩
    · exact h0
    · obtain rfl : k = nrEntries fs := by
        by_contra hne
        exact hunlisted k (by omega) hhit
      rw [heq]
      by_contra hnr
      exact h.behind filename hp hunlisted ⟨hall.2 hread, hhit, hnr⟩

end DirOk

/-! ## An entry is written -/

/-- Entry `k` is all that has changed of the root directory but for its size. -/
structure EntryPut (fs fs' : Fs) (k : ℕ) (nr : BitVec 32) (filename : List Byte) : Prop where
  blk : rootBlk fs' = rootBlk fs
  bytes : ∀ z, rootBlk fs + z / 512 < 2 ^ 23 → dirBytes fs'.disk (rootBlk fs) z =
    blit (dirBytes fs.disk (rootBlk fs)) (16 * k) 16 (entryBytes nr filename) z

namespace EntryPut

theorem self (h : EntryPut fs fs' k nr filename) (hk : rootBlk fs + k / 32 < 2 ^ 23) :
    rootNr fs' k = nr ∧ SameName filename (rootName fs' k) := by
  unfold rootNr rootName
  rw [h.blk]
  refine entry_found fun i hi => ?_
  rw [h.bytes _ (by omega), blit_inside hi]

theorem other (h : EntryPut fs fs' k nr filename) (hj : rootBlk fs + j / 32 < 2 ^ 23)
    (hne : j ≠ k) : rootNr fs' j = rootNr fs j ∧
      ∀ i < maxFilenameLen, rootName fs' j i = rootName fs j i := by
  unfold rootNr rootName
  rw [h.blk]
  constructor
  · rw [slotNr_eq, slotNr_eq]
    refine word_congr fun i hi => ?_
    rw [h.bytes _ (by omega), blit_outside (by omega)]
  · intro i hi
    have hi : i < 12 := hi
    rw [slotName_eq _ _ _ hi, slotName_eq _ _ _ hi, h.bytes _ (by omega), blit_outside (by omega)]

end EntryPut

theorem freeEntry_unused (h : freeEntry fs < nrEntries fs) : rootNr fs (freeEntry fs) = 0 :=
  (scanEnd_true.1 ((first_free (Nat.lt_succ_self _)).trans (by rw [decide_eq_true h]))).2.2.1

theorem freeEntry_full (h : freeEntry fs = nrEntries fs) (hj : j < nrEntries fs) :
    rootNr fs j ≠ 0 :=
  (scanEnd_false.1 ((first_free (Nat.lt_succ_self _)).trans
    (by rw [decide_eq_false (by omega)]))).2.2 j hj

/-- What an entry for a new file is put into the directory with. -/
structure Fresh (fs fs' : Fs) (filename : List Byte) (nr : BitVec 32) : Prop where
  name : IsName filename
  unlisted : Unlisted fs filename
  nonzero : nr ≠ 0
  other : ∀ j < nrEntries fs, rootNr fs j ≠ nr
  marked : Allocated fs'.disk nr.toNat
  kept : ∀ n, Allocated fs.disk n → Allocated fs'.disk n

namespace DirOk

/-- Numbers of marked inodes are few. -/
theorem card_le {n : ℕ} {f : ℕ → BitVec 32} {disk : Bytes}
    (hmarked : ∀ j < n, Allocated disk (f j).toNat)
    (hdistinct : ∀ i j, i < n → j < n → f i = f j → i = j) : n ≤ 4096 := by
  have hcard := Finset.card_le_card_of_injOn (s := Finset.range n) (t := Finset.range 4096)
    (fun j => (f j).toNat)
    (fun j hj => Finset.mem_coe.2 (Finset.mem_range.2
      (hmarked j (Finset.mem_range.1 (Finset.mem_coe.1 hj))).2.1))
    fun i hi j hj he => hdistinct i j (Finset.mem_range.1 (Finset.mem_coe.1 hi))
      (Finset.mem_range.1 (Finset.mem_coe.1 hj)) (BitVec.eq_of_toNat_eq he)
  rwa [Finset.card_range, Finset.card_range] at hcard

theorem size_create (h : DirOk fs)
    (hsize : (fs'.inodeTable fs'.rootInode).iSize =
      if freeEntry fs < nrEntries fs then (fs.inodeTable fs.rootInode).iSize
      else (fs.inodeTable fs.rootInode).iSize + dirEntrySize) :
    dirEntrySize ∣ (fs'.inodeTable fs'.rootInode).iSize.toNat ∧
      nrEntries fs' = if freeEntry fs < nrEntries fs then nrEntries fs else nrEntries fs + 1 := by
  have hdvd := h.size
  have hsmall := h.small
  rw [nrEntries, hsize]
  split_ifs with hlt
  · exact ⟨hdvd, rfl⟩
  · have hadd : ((fs.inodeTable fs.rootInode).iSize + (dirEntrySize : BitVec 32)).toNat =
        ((fs.inodeTable fs.rootInode).iSize.toNat + 16) % 2 ^ 32 := by
      rw [BitVec.toNat_add]
      rfl
    rw [hadd]
    simp only [nrEntries, dirEntrySize] at hdvd hsmall ⊢
    omega

theorem create (h : DirOk fs) (hL : Layout fs.sb) (hstart : rootBlk fs = fs.sb.n1stSect)
    (hf : Fresh fs fs' filename nr) (hput : EntryPut fs fs' (freeEntry fs) nr filename)
    (hsize : (fs'.inodeTable fs'.rootInode).iSize =
      if freeEntry fs < nrEntries fs then (fs.inodeTable fs.rootInode).iSize
      else (fs.inodeTable fs.rootInode).iSize + dirEntrySize)
    (hbehind : freeEntry fs = nrEntries fs → ∀ p, IsName p → p ≠ filename → Unlisted fs p →
      ¬ Stale fs (nrEntries fs + 1) p) :
    DirOk fs' ∧
      entryAt fs' = Function.update (entryAt fs) (freeEntry fs) (some (filename, nr)) := by
  have hle := freeEntry_le fs
  obtain ⟨hnr, hname⟩ := hput.self (h.lt_reach hL hstart (by omega))
  have hother (j : ℕ) (hj : j ≤ nrEntries fs + 1) (hne : j ≠ freeEntry fs) :=
    hput.other (h.lt_reach hL hstart hj) hne
  obtain ⟨hdvd', hn'⟩ := h.size_create hsize
  have hold (j : ℕ) (hj : j < nrEntries fs') (hne : j ≠ freeEntry fs) : j < nrEntries fs := by
    split_ifs at hn' <;> omega
  have hself : freeEntry fs < nrEntries fs' := by
    split_ifs at hn' <;> omega
  have hmarked (j : ℕ) (hj : j < nrEntries fs') (hj0 : rootNr fs' j ≠ 0) :
      Allocated fs'.disk (rootNr fs' j).toNat := by
    rcases eq_or_ne j (freeEntry fs) with rfl | hne
    · rw [hnr]
      exact hf.marked
    · have hlt := hold j hj hne
      rw [(hother j (by omega) hne).1] at hj0 ⊢
      exact hf.kept _ (h.marked j hlt hj0)
  have hdistinct (i j : ℕ) (hi : i < nrEntries fs') (hj : j < nrEntries fs')
      (hi0 : rootNr fs' i ≠ 0) (he : rootNr fs' i = rootNr fs' j) : i = j := by
    rcases eq_or_ne i (freeEntry fs) with rfl | hin
    · by_contra hne
      have hlt := hold j hj (Ne.symm hne)
      rw [hnr, (hother j (by omega) (Ne.symm hne)).1] at he
      exact hf.other j hlt he.symm
    · have hilt := hold i hi hin
      rw [(hother i (by omega) hin).1] at hi0 he
      rcases eq_or_ne j (freeEntry fs) with rfl | hjn
      · rw [hnr] at he
        exact absurd he (hf.other i hilt)
      · have hjlt := hold j hj hjn
        rw [(hother j (by omega) hjn).1] at he
        exact h.distinct i j hilt hjlt hi0 he
  have hok : DirOk fs' := by
    refine ⟨hdvd', ?_, fun j hj hj0 => ?_, fun j hj hj0 => ?_, hmarked, hdistinct,
      fun p hp hunlisted => ?_⟩
    · rcases hle.lt_or_eq with hlt | hfull
      · rw [hn', if_pos hlt]
        exact h.small
      · -- all entries are in use
        have hall (j : ℕ) (hj : j < nrEntries fs') : rootNr fs' j ≠ 0 := by
          rcases eq_or_ne j (freeEntry fs) with rfl | hne
          · rw [hnr]
            exact hf.nonzero
          · have hlt := hold j hj hne
            rw [(hother j (by omega) hne).1]
            exact freeEntry_full hfull hlt
        exact card_le (fun j hj => hmarked j hj (hall j hj))
          fun i j hi hj he => hdistinct i j hi hj (hall i hi) he
    · rcases eq_or_ne j (freeEntry fs) with rfl | hne
      · exact ⟨filename, hf.name, hname⟩
      · have hlt := hold j hj hne
        obtain ⟨hsame, hbytes⟩ := hother j (by omega) hne
        obtain ⟨p, hp, hpname⟩ := h.named j hlt (hsame ▸ hj0)
        exact ⟨p, hp, (sameName_congr hbytes).2 hpname⟩
    · rcases eq_or_ne j (freeEntry fs) with rfl | hne
      · exact absurd (hnr.symm.trans hj0) hf.nonzero
      · have hlt := hold j hj hne
        obtain ⟨hsame, hbytes⟩ := hother j (by omega) hne
        exact (sameName_congr hbytes).2 (h.unused j hlt (hsame ▸ hj0))
    · have hpne : p ≠ filename := by
        rintro rfl
        exact hunlisted _ hself hname
      have hunlisted' : Unlisted fs p := fun j hj hjp => by
        rcases eq_or_ne j (freeEntry fs) with rfl | hne
        · exact not_sameName_null hp (h.unused _ hj (freeEntry_unused hj)) hjp
        · refine hunlisted j (by split_ifs at hn' <;> omega) ?_
          exact (sameName_congr (hother j (by omega) hne).2).2 hjp
      have hstale (m : ℕ) (hm : m ≤ nrEntries fs + 1) (hne : m ≠ freeEntry fs) :
          Stale fs' m p ↔ Stale fs m p := by
        obtain ⟨hsame, hbytes⟩ := hother m hm hne
        rw [Stale, Stale, hsame, sameName_congr hbytes]
      rcases hle.lt_or_eq with hlt | hfull
      · rw [hn', if_pos hlt, hstale _ (by omega) (by omega)]
        exact h.behind p hp hunlisted'
      · rw [hn', if_neg (by omega), hstale _ le_rfl (by omega)]
        exact hbehind hfull p hp hpne hunlisted'
  refine ⟨hok, funext fun j => ?_⟩
  rcases eq_or_ne j (freeEntry fs) with rfl | hne
  · rw [Function.update_self]
    exact (hok.entryAt_eq hf.name).2 ⟨hself, hnr, hf.nonzero, hname⟩
  · rw [Function.update_of_ne hne]
    by_cases hj : j ≤ nrEntries fs + 1
    · exact entryAt_congr (fun _ => by split_ifs at hn' <;> omega) (hother j hj hne)
    · unfold entryAt
      rw [if_neg fun he => hj (by split_ifs at hn' <;> omega), if_neg fun he => hj (by omega)]

theorem size_remove (h : DirOk fs)
    (hsize : (fs'.inodeTable fs'.rootInode).iSize =
      if r + 1 = nrEntries fs then
        BitVec.ofNat 32 (dirEntrySize * usedBefore fs.disk (rootBlk fs) r)
      else (fs.inodeTable fs.rootInode).iSize) :
    dirEntrySize ∣ (fs'.inodeTable fs'.rootInode).iSize.toNat ∧ nrEntries fs' ≤ nrEntries fs ∧
      (r + 1 ≠ nrEntries fs → nrEntries fs' = nrEntries fs) ∧
      (r + 1 = nrEntries fs → nrEntries fs' ≤ r) := by
  have hdvd := h.size
  have hsmall := h.small
  by_cases hlast : r + 1 = nrEntries fs
  · have hused : usedBefore fs.disk (rootBlk fs) r ≤ r := Nat.count_le _
    have hword : (fs'.inodeTable fs'.rootInode).iSize.toNat =
        16 * usedBefore fs.disk (rootBlk fs) r := by
      rw [hsize, if_pos hlast, BitVec.toNat_ofNat, dirEntrySize, Nat.mod_eq_of_lt (by omega)]
    have hn' : nrEntries fs' = usedBefore fs.disk (rootBlk fs) r := by
      rw [nrEntries, hword, dirEntrySize]
      omega
    rw [hword, hn', dirEntrySize]
    omega
  · rw [if_neg hlast] at hsize
    have hn' : nrEntries fs' = nrEntries fs := by rw [nrEntries, hsize, nrEntries]
    rw [hsize, hn']
    exact ⟨hdvd, le_rfl, fun _ => rfl, fun he => absurd he hlast⟩

/-- An entry is removed, and where it is the last one those in use are within the new size. -/
theorem remove (h : DirOk fs) (hL : Layout fs.sb) (hstart : rootBlk fs = fs.sb.n1stSect)
    (hr : r < nrEntries fs) (hput : EntryPut fs fs' r 0 [])
    (hsize : (fs'.inodeTable fs'.rootInode).iSize =
      if r + 1 = nrEntries fs then
        BitVec.ofNat 32 (dirEntrySize * usedBefore fs.disk (rootBlk fs) r)
      else (fs.inodeTable fs.rootInode).iSize)
    (hholes : r + 1 = nrEntries fs → NoHoles fs r)
    (hkept : ∀ j < nrEntries fs, j ≠ r → rootNr fs j ≠ 0 →
      Allocated fs'.disk (rootNr fs j).toNat)
    (hbehind : r + 1 ≠ nrEntries fs → ∀ p, IsName p → SameName p (rootName fs r) →
      ¬ Stale fs (nrEntries fs) p) :
    DirOk fs' ∧ entryAt fs' = Function.update (entryAt fs) r none := by
  have hsmall := h.small
  obtain ⟨hnr, hname⟩ := hput.self (h.lt_reach hL hstart (by omega))
  have hother (j : ℕ) (hj : j ≤ nrEntries fs + 1) (hne : j ≠ r) :=
    hput.other (h.lt_reach hL hstart hj) hne
  have hkeeps := (keepsEntries_iff hsize).2 hholes
  obtain ⟨hdvd', hle, hsame, hless⟩ := h.size_remove hsize
  have hlive (j : ℕ) (hj : j < nrEntries fs) (hne : j ≠ r) (h0 : rootNr fs j ≠ 0) :
      j < nrEntries fs' := by
    have := hkeeps j hj h0 hne
    simp only [nrEntries, dirEntrySize] at this ⊢
    omega
  have hok : DirOk fs' := by
    refine ⟨hdvd', hle.trans hsmall, fun j hj hj0 => ?_, fun j hj hj0 => ?_, fun j hj hj0 => ?_,
      fun i j hi hj hi0 he => ?_, fun p hp hunlisted => ?_⟩
    · have hne : j ≠ r := fun he => hj0 (he ▸ hnr)
      obtain ⟨hsame, hbytes⟩ := hother j (by omega) hne
      obtain ⟨p, hp, hpname⟩ := h.named j (by omega) (hsame ▸ hj0)
      exact ⟨p, hp, (sameName_congr hbytes).2 hpname⟩
    · rcases eq_or_ne j r with rfl | hne
      · exact hname
      · obtain ⟨hsame, hbytes⟩ := hother j (by omega) hne
        exact (sameName_congr hbytes).2 (h.unused j (by omega) (hsame ▸ hj0))
    · have hne : j ≠ r := fun he => hj0 (he ▸ hnr)
      rw [(hother j (by omega) hne).1] at hj0 ⊢
      exact hkept j (by omega) hne hj0
    · have hir : i ≠ r := fun he => hi0 (he ▸ hnr)
      have hjr : j ≠ r := fun hjr => hi0 (he.trans (hjr ▸ hnr))
      rw [(hother i (by omega) hir).1] at hi0 he
      rw [(hother j (by omega) hjr).1] at he
      exact h.distinct i j (by omega) (by omega) hi0 he
    · rintro ⟨hsect, hpname, h0⟩
      have hne : nrEntries fs' ≠ r := fun he => h0 (he ▸ hnr)
      obtain ⟨hnr', hbytes⟩ := hother _ (by omega) hne
      rw [hnr'] at h0
      rw [sameName_congr hbytes] at hpname
      by_cases hlast : r + 1 = nrEntries fs
      · -- the entries behind the new last one are unused
        exact absurd (hlive _ (by have := hless hlast; omega) hne h0) (lt_irrefl _)
      · rw [hsame hlast] at hsect hpname h0
        by_cases hpr : SameName p (rootName fs r)
        · exact hbehind hlast p hp hpr ⟨hsect, hpname, h0⟩
        · refine h.behind p hp (fun j hj hjp => ?_) ⟨hsect, hpname, h0⟩
          rcases eq_or_ne j r with rfl | hjr
          · exact hpr hjp
          · exact hunlisted j (by rwa [hsame hlast])
              ((sameName_congr (hother j (by omega) hjr).2).2 hjp)
  refine ⟨hok, funext fun j => ?_⟩
  rcases eq_or_ne j r with rfl | hne
  · rw [Function.update_self]
    exact if_neg fun he => he.2 hnr
  · rw [Function.update_of_ne hne]
    by_cases hj : j ≤ nrEntries fs + 1
    · exact entryAt_congr (fun h0 => ⟨fun hlt => by omega, fun hlt => hlive j hlt hne h0⟩)
        (hother j hj hne)
    · unfold entryAt
      rw [if_neg fun he => hj (by omega), if_neg fun he => hj (by omega)]

end DirOk

/-! ## What requests write -/

namespace SameDir

theorem bytes (h : SameDir fs fs') (hstart : rootBlk fs = fs.sb.n1stSect) {z : ℕ}
    (hz : rootBlk fs + z / 512 < 2 ^ 23) :
    dirBytes fs'.disk (rootBlk fs) z = dirBytes fs.disk (rootBlk fs) z :=
  dirBytes_congr (fun y hy => h.files y (hstart ▸ hy)) hz

/-- An entry that is written to the same directory. -/
theorem put {fs₁ : Fs} (h : SameDir fs fs₁) (hstart : rootBlk fs = fs.sb.n1stSect)
    (hput : EntryPut fs₁ fs' k nr filename) : EntryPut fs fs' k nr filename where
  blk := hput.blk.trans h.blk
  bytes z hz := by
    have hbytes := hput.bytes z (by rw [h.blk]; exact hz)
    rw [h.blk] at hbytes
    rw [hbytes, blit, blit, h.bytes hstart hz]

theorem nameFits (h : SameDir fs fs') (hstart : rootBlk fs = fs.sb.n1stSect)
    (hfree : freeEntry fs' = freeEntry fs) (hreach : rootBlk fs + (freeEntry fs + 1) / 32 < 2 ^ 23)
    (hfits : NameFits fs filename) : NameFits fs' filename := by
  have hentry : dirEntrySize = 16 := rfl
  have hmax : maxFilenameLen = 12 := rfl
  unfold NameFits at hfits ⊢
  rw [hmax, hentry] at hfits
  rw [hmax, hentry, hfree, h.blk]
  refine ⟨fun hlen hsect => ?_, fun i hi hlt => ?_⟩
  · rw [h.bytes hstart (by omega)]
    exact hfits.1 hlen hsect
  · rw [h.bytes hstart (by omega)]
    exact hfits.2 i hi hlt

theorem freeEntry {held : Entry → ℕ} (h : SameDir fs fs') (hgood : FsGood False held fs)
    (hreach : DirReach fs) : freeEntry fs' = MyOS.freeEntry fs := by
  unfold MyOS.freeEntry
  rw [h.entries]
  congr 1
  refine List.find?_congr fun k hk => ?_
  rw [h.slot hgood hreach (List.mem_range.1 hk)]

end SameDir

theorem FsGood.FileMade.sameDir {n : ℕ} {pin : Entry} (h : FsGood.FileMade False fs fs' pin n) :
    SameDir fs fs' where
  sb := h.sb
  inode := by rw [h.rootInode, h.root]
  files := h.files

/-- A new file has a number that was not in use, and an entry of its own where its name fits. -/
theorem createFile_puts {pin : Entry} (h : FsGood False noneHeld fs) (hdir : DirOk fs)
    (hname : stripPath path = some filename) (hp : IsName filename)
    (hunlisted : Unlisted fs filename) (hfits : NameFits fs filename)
    (hs : createFile fs path = .ok (some pin, fs')) :
    ∃ n : ℕ, (fs'.inodeTable pin).iNum = n ∧ Fresh fs fs' filename (BitVec.ofNat 32 n) ∧
      EntryPut fs fs' (freeEntry fs) (BitVec.ofNat 32 n) filename ∧
      (fs'.inodeTable fs'.rootInode).iSize =
        if freeEntry fs < nrEntries fs then (fs.inodeTable fs.rootInode).iSize
        else (fs.inodeTable fs.rootInode).iSize + dirEntrySize := by
  have hL := h.layout
  have hstart : rootBlk fs = fs.sb.n1stSect := h.rootStart
  obtain ⟨hreach, hreach'⟩ := hdir.reach hL
  obtain ⟨hgood', -⟩ := h.createFile hreach' hs
  obtain ⟨name, n, fs₁, hname', hmade, hs⟩ := h.createFile_made hs
  obtain rfl := Option.some.inj (hname'.symm.trans hname)
  have hsame := hmade.sameDir
  have hfree := hsame.freeEntry h hreach
  have hle := freeEntry_le fs
  -- the inode is in use, so that its number is that of a marked one
  obtain ⟨startSect, hfile⟩ := hmade.file
  have hused : (fs₁.inodeTable pin).iCnt ≠ 0 := by
    rw [hfile]
    exact show (1 : Int) ≠ 0 by decide
  have hnum : (fs₁.inodeTable pin).iNum = n := by rw [hfile]; rfl
  obtain ⟨k, hk, hall⟩ := hmade.good.cache.num pin hused
  obtain rfl : k = n := by omega
  have hlt : k < 4096 := hall.2.1
  have hnat : (BitVec.ofNat 32 k).toNat = k := by
    rw [BitVec.toNat_ofNat]
    omega
  obtain ⟨fs₂, hok, hsb, hmaps, hbytes, hsize⟩ :=
    @newDirEntry_writes _ _ name hmade.good (hsame.reach hreach) k
  obtain rfl : fs₂ = fs' := Except.ok.inj (hok.symm.trans hs)
  have himap (i : ℕ) (hi : i < 4096) :
      imapBit fs₂.disk i = (imapBit fs.disk i || decide (i = k)) :=
    (imapBit_congr hmaps hi).trans (hmade.imap i hi)
  have hkept := (hmade.good.newDirEntry (by
    unfold RootReach
    rw [hmade.sb, hmade.rootInode, hmade.root]
    exact hreach') hs).2.num pin hused
  rw [hsame.entries, hfree, congrArg DiskInode.iSize hsame.inode] at hsize
  refine ⟨k, hkept.2.trans hnum, ⟨hp, hunlisted, fun h0 => ?_, fun j hj he => ?_, ?_,
    fun i hi => ⟨hi.1, hi.2.1, ?_⟩⟩, hsame.put hstart ⟨?_, fun z hz => ?_⟩, hsize⟩
  · have hpos := hall.1
    rw [h0] at hnat
    change 0 = k at hnat
    omega
  · have hj0 : rootNr fs j ≠ 0 := fun h0 => by
      have hpos := hall.1
      rw [← he, h0] at hnat
      change 0 = k at hnat
      omega
    have hmarked := (hdir.marked j hj hj0).2.2
    rw [he, hnat, hmade.clear] at hmarked
    exact Bool.false_ne_true hmarked
  · rw [hnat]
    exact ⟨hall.1, hlt, by rw [himap k hlt, decide_eq_true rfl, Bool.or_true]⟩
  · rw [himap i hi.2.1, hi.2.2, Bool.true_or]
  · have hstart₁ : rootBlk fs₁ = fs₁.sb.n1stSect := hmade.good.rootStart
    have hstart₂ : rootBlk fs₂ = fs₂.sb.n1stSect := hgood'.rootStart
    rw [hstart₁, hstart₂, hsb]
  · have hreach₁ : rootBlk fs₁ + freeEntry fs₁ / 32 < 2 ^ 23 := by
      rw [hsame.blk, hfree]
      exact hdir.lt_reach hL hstart (by omega)
    have hfits₁ := hsame.nameFits hstart hfree (hdir.lt_reach hL hstart (by omega)) hfits
    rw [← hfree, hbytes z hz, BitVec.ofInt_natCast]
    exact (written_entry_iff _ (stripPath_length hname) hreach₁).2 hfits₁ z hz

/-- A file that is removed leaves an unused entry, and its number is not in use any more. -/
theorem unlink_puts {user : Addr → Byte} {msg : Message} (h : FsGood False noneHeld fs)
    (h' : FsGood False noneHeld fs') (hdir : DirOk fs) (hs : doUnlink user fs msg = .ok (0, fs')) :
    ∃ path r, getPath user msg = .ok path ∧ 1 < (searchFile fs path).toNat ∧
      Removes fs (searchFile fs path) r ∧ EntryPut fs fs' r 0 [] ∧
      (fs'.inodeTable fs'.rootInode).iSize = (if r + 1 = nrEntries fs then
        BitVec.ofNat 32 (dirEntrySize * usedBefore fs.disk (rootBlk fs) r)
      else (fs.inodeTable fs.rootInode).iSize) ∧
      ∀ n, Allocated fs.disk n → n ≠ (searchFile fs path).toNat → Allocated fs'.disk n := by
  have hstart : rootBlk fs = fs.sb.n1stSect := h.rootStart
  obtain ⟨hreach, -⟩ := hdir.reach h.layout
  obtain ⟨path, fs₂, hpath, hpos, hsame, hnum, himap, hremove⟩ := unlink_dir h hs
  have hstart₂ : rootBlk fs₂ = fs₂.sb.n1stSect := by rw [hsame.blk, hsame.sb, hstart]
  obtain ⟨r, hr, hsb, hmaps, hbytes, hsize⟩ := removeEntry_writes (hsame.sb ▸ h.layout) hstart₂
    hnum (hsame.reach hreach) hremove
  have hr := (hsame.removes h hreach).1 hr
  rw [hsame.entries, hsame.used h hreach hr.1.le, congrArg DiskInode.iSize hsame.inode] at hsize
  refine ⟨path, r, hpath, hpos, hr, hsame.put hstart ⟨?_, fun z hz => ?_⟩, hsize,
    fun n hn hne => ⟨hn.1, hn.2.1, ?_⟩⟩
  · have hstart' : rootBlk fs' = fs'.sb.n1stSect := h'.rootStart
    rw [hstart', hsb, hstart₂]
  · have hnull : (fun _ => 0 : Bytes) = entryBytes 0 [] := by
      funext i
      unfold entryBytes
      split_ifs
      · exact (by simp [byteOf] : (0 : Byte) = byteOf 0 i)
      · rfl
    rw [← hnull]
    exact hbytes z hz
  · rw [imapBit_congr hmaps hn.2.1, himap n hn.2.1, hn.2.2, decide_eq_false hne]
    rfl

end MyOS
