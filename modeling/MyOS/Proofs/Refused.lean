import MyOS.Proofs.DirEntries

/-!
# What a refused request leaves behind

A handler that returns -1 has changed nothing but in two cases: `do_unlink` gets the inode it has
found before it looks whether it may remove it, and does not put it back; and `create_file` goes on
where the map of inodes has no number for it.
-/

namespace MyOS

open Memory Block

variable {fs fs' : Fs} {r : FsRequest}

/-- An `UNLINK` of a name, other than "/", that is found. -/
def UnlinksFound (fs : Fs) : FsRequest → Prop
  | .unlink user msg => ∃ path, getPath user msg = .ok path ∧ path ≠ [slash] ∧
      searchFile fs path ≠ invalidInode
  | _ => False

/-! ## Without an inode -/

/-- A sector is written back with changes to the `n` bytes from `a` on. -/
theorem wrSect_outside {disk f : Bytes} {sect : Int} {a n y : ℕ}
    (hf : ∀ i, i < a ∨ a + n ≤ i → f i = rdSect disk sect i)
    (hy : y < sectPos sect + a ∨ sectPos sect + a + n ≤ y) : wrSect disk sect f y = disk y := by
  unfold wrSect blit
  split_ifs with hin
  · rw [hf _ (by omega), rdSect, from_apply]
    congr 1
    omega
  · rfl

/-- An entry and the inode of the directory are no more than 33 bytes. -/
theorem newDirEntry_few {dir : Entry} {nr : Int} {filename : List Byte}
    (hlen : filename.length ≤ maxFilenameLen) (hs : newDirEntry fs dir nr filename = .ok fs') :
    ∃ a b, ∀ y, y < a ∨ a + 17 ≤ y → y < b ∨ b + 16 ≤ y → fs'.disk y = fs.disk y := by
  have hmax : maxFilenameLen = 12 := rfl
  unfold newDirEntry at hs
  obtain ⟨⟨i, j, free⟩, -, hs⟩ := bind_eq_ok.1 hs
  dsimp only at hs
  generalize hgs : (if free = true then fs else fs.setInode dir fun x =>
    { x with iSize := x.iSize + dirEntrySize }) = gs at hs
  have hdisk : gs.disk = fs.disk := by
    rw [← hgs]
    split_ifs <;> rfl
  unfold syncInode at hs
  dsimp only at hs
  split_ifs at hs with hoff
  obtain rfl := Except.ok.inj hs
  rw [hdisk]
  generalize ((fs.inodeTable dir).iStartSect.toNat : Int) + i = sect
  generalize inodeBlk gs.sb (gs.inodeTable dir).iNum = blk
  generalize (inodeOff (gs.inodeTable dir).iNum).toNat = off
  refine ⟨sectPos sect + j * dirEntrySize, sectPos blk + off, fun y hy hy' => ?_⟩
  dsimp only
  rw [wrSect_outside (a := off) (n := 16) (fun k hk => ?_) hy',
    wrSect_outside (a := j * dirEntrySize) (n := 17) (fun k hk => ?_) hy]
  · rw [strcpy, blit_outside (by omega), putWord_outside (by omega)]
  · unfold writeInode
    rw [putWord_outside (by omega), putWord_outside (by omega), putWord_outside (by omega),
      putWord_outside (by omega)]

/-- The 512 bits that are set take 64 bytes, and some of these stay as they are. -/
theorem NoFile.ne {path filename : List Byte} (h : NoFile fs path fs') (hP : SmapPlaced fs.sb)
    (hname : stripPath path = some filename) : fs' ≠ fs := by
  cases h with
  | unnamed hnone => exact nomatch hnone.symm.trans hname
  | noInode _ sect fs₁ fs₂ _ hname' himap hsmap hdir =>
    obtain ⟨disk₁, rfl, hsame⟩ : ∃ disk₁, fs₁ = { fs with disk := disk₁ } ∧
        ∀ x, 4096 * 2 + 1 ≤ x → bit disk₁ x = bit fs.disk x := by
      rcases allocImapBit_zero himap with ⟨-, rfl⟩ | ⟨-, disk₁, rfl, hmark⟩
      · exact ⟨_, rfl, fun _ _ => rfl⟩
      · refine ⟨disk₁, rfl, fun x hx => ?_⟩
        have hsect : 8 * sectorSize * 2 = 8192 := rfl
        rw [hmark.bit_eq, decide_eq_false (by omega), Bool.or_false]
    obtain ⟨b, disk₂, -, -, rfl, hmark⟩ :=
      @allocSmapBit_run { fs with disk := disk₁ } _ _ _ hP (by decide) hsmap
    dsimp only at hmark
    have hnr : nrDefaultFileSects = 512 := rfl
    have hbase : smapBase fs.sb = 4096 * (2 + fs.sb.nrImapSects) := rfl
    generalize hlo : smapBase fs.sb + b = lo at hmark
    obtain ⟨a, a', hfew⟩ := newDirEntry_few (stripPath_length hname') hdir
    dsimp only at hfew
    -- each of these bytes starts with a bit that has been set
    have hbyte (k : ℕ) (hk : 1 ≤ k) (hk' : k ≤ 63) : disk₂ (lo / 8 + k) ≠ fs.disk (lo / 8 + k) := by
      intro he
      have hset : bit disk₂ (8 * (lo / 8 + k)) = true := by
        rw [hmark.bit_eq, decide_eq_true ⟨by omega, by omega⟩, Bool.or_true]
      have hclear : bit fs.disk (8 * (lo / 8 + k)) = false := by
        rw [← hsame _ (by omega)]
        exact hmark.clear _ (by omega) (by omega)
      refine Bool.false_ne_true (hclear.symm.trans (Eq.trans ?_ hset))
      exact bit_congr (by rw [Nat.mul_div_cancel_left _ (by decide), he]) rfl
    -- three of them are too far apart for two writes
    obtain ⟨k, hk, hk', hout, hout'⟩ : ∃ k, 1 ≤ k ∧ k ≤ 63 ∧
        (lo / 8 + k < a ∨ a + 17 ≤ lo / 8 + k) ∧ (lo / 8 + k < a' ∨ a' + 16 ≤ lo / 8 + k) := by
      by_cases h1 : (lo / 8 + 1 < a ∨ a + 17 ≤ lo / 8 + 1) ∧
          (lo / 8 + 1 < a' ∨ a' + 16 ≤ lo / 8 + 1)
      · exact ⟨1, le_rfl, by decide, h1⟩
      by_cases h2 : (lo / 8 + 18 < a ∨ a + 17 ≤ lo / 8 + 18) ∧
          (lo / 8 + 18 < a' ∨ a' + 16 ≤ lo / 8 + 18)
      · exact ⟨18, by decide, by decide, h2⟩
      exact ⟨35, by decide, by decide, by omega, by omega⟩
    rintro rfl
    exact hbyte k hk hk' (hfew _ hout hout').symm

/-! ## Requests -/

/-- A request that is refused leaves everything as it was just where it is neither to unlink a name
that is found, nor to create one without an inode. -/
theorem refused_unchanged_iff (h : fsCall fs r = .ok (-1, fs'))
    (hmap : CreatesNoInode fs r → SmapPlaced fs.sb) :
    fs' = fs ↔ ¬ UnlinksFound fs r ∧ ¬ CreatesNoInode fs r := by
  cases r with
  | «open» caller user msg =>
    obtain ⟨path, hpath, hs⟩ := doOpen_failed h
    -- where it does not come to create a file, nothing is changed
    have hkept (heq : fs' = fs) (hno : ¬ CreatesNoInode fs (.open caller user msg)) :
        fs' = fs ↔ ¬ UnlinksFound fs (.open caller user msg) ∧
          ¬ CreatesNoInode fs (.open caller user msg) :=
      iff_of_true heq ⟨id, hno⟩
    cases hs with
    | taken _ hnr =>
      refine hkept rfl ?_
      rintro ⟨-, -, path', filename, hpath', -, hzero⟩
      obtain rfl := Except.ok.inj (hpath.symm.trans hpath')
      exact hnr hzero
    | unnamed hc _ => exact hkept rfl fun hc' => hc'.1 hc
    | got _ _ hc hgot => exact hkept (hgot.none rfl).2 fun hc' => hc'.1 hc
    | created _ _ hcreat hnr hs =>
      have hnone := createFile_none hs
      constructor
      · rintro rfl
        refine ⟨id, fun hc => ?_⟩
        obtain ⟨path', filename, hpath', hname, -⟩ := hc.2.2
        obtain rfl := Except.ok.inj (hpath.symm.trans hpath')
        exact hnone.ne (hmap hc) hname rfl
      · rintro ⟨-, hno⟩
        exact hnone.eq fun filename hname hfull =>
          hno ⟨hcreat, hfull, path, filename, hpath, hname, hnr⟩
  | close caller msg => exact absurd (doClose_ok h) (by decide)
  | rdwt caller user isRead msg => exact iff_of_true (doRdwt_failed h) ⟨id, id⟩
  | unlink user msg =>
    obtain ⟨path, hpath, hout⟩ := doUnlink_ok h
    cases hout with
    | absent hno =>
      refine iff_of_true rfl ⟨?_, id⟩
      rintro ⟨path', hpath', hroot, hnr⟩
      obtain rfl := Except.ok.inj (hpath.symm.trans hpath')
      exact hno.elim hroot hnr
    | kept p hroot hnr hgot =>
      refine iff_of_false ?_ fun hok => hok.1 ⟨path, hpath, hroot, hnr⟩
      rintro rfl
      have := hgot.cnt
      omega
  | stat user msg =>
    obtain ⟨⟨s, fs₁⟩, hs, h⟩ := bind_eq_ok.1 h
    cases s with
    | none =>
      obtain rfl := (Prod.mk.inj (Except.ok.inj h)).2
      exact iff_of_true (doStat_none hs).1 ⟨id, id⟩
    | some s => exact absurd (Prod.mk.inj (Except.ok.inj h)).1 (show ¬ (0 : Int) = -1 by decide)
  | fork parent child =>
    obtain ⟨fs₁, -, h⟩ := bind_eq_ok.1 h
    exact absurd (Prod.mk.inj (Except.ok.inj h)).1 (by decide)
  | exit pid =>
    obtain ⟨fs₁, -, h⟩ := bind_eq_ok.1 h
    exact absurd (Prod.mk.inj (Except.ok.inj h)).1 (by decide)

/-! ## On a new file system -/

theorem refused_unchanged_iff_absent : ∃ fs fs', initFs (fun _ => 0) 40000 = .ok fs ∧
    fsCall fs (.unlink (textAt [0x78]) (nameMsg [0x78] 0)) = .ok (-1, fs') ∧ fs' = fs := by
  have hany : (initFs (fun _ => 0) 40000).toOption.any (fun fs =>
      searchFile fs [0x78] = invalidInode ∧
      (fsCall fs (.unlink (textAt [0x78]) (nameMsg [0x78] 0))).toOption.any
        fun r => r.1 = -1) = true := by decide +kernel
  obtain ⟨fs, hfs, hany⟩ := exists_ok_of_any hany
  obtain ⟨hnone, hany⟩ := of_decide_eq_true hany
  obtain ⟨⟨r, fs'⟩, hcall, hr⟩ := exists_ok_of_any hany
  obtain rfl : r = -1 := of_decide_eq_true hr
  refine ⟨fs, fs', hfs, hcall, (refused_unchanged_iff hcall fun hc => hc.elim).2 ⟨?_, id⟩⟩
  rintro ⟨path, hpath, -, hfound⟩
  have hname : getPath (textAt [0x78]) (nameMsg [0x78] 0) = .ok [0x78] := by decide
  obtain rfl := Except.ok.inj (hname.symm.trans hpath)
  exact hfound hnone

/-- "dev_tty0" cannot be removed, and its inode stays counted. -/
theorem refused_unlink_counts : ∃ fs fs', initFs (fun _ => 0) 40000 = .ok fs ∧
    fsCall fs (.unlink (textAt (ttyName 0)) (nameMsg (ttyName 0) 0)) = .ok (-1, fs') ∧
    (fs.inodeTable 1).iCnt = 0 ∧ (fs'.inodeTable 1).iCnt = 1 := by
  have hany : (initFs (fun _ => 0) 40000).toOption.any (fun fs =>
      (fsCall fs (.unlink (textAt (ttyName 0)) (nameMsg (ttyName 0) 0))).toOption.any
        fun r => r.1 = -1 ∧ (fs.inodeTable 1).iCnt = 0 ∧ (r.2.inodeTable 1).iCnt = 1) = true := by
    decide +kernel
  obtain ⟨fs, hfs, hany⟩ := exists_ok_of_any hany
  obtain ⟨⟨r, fs'⟩, hcall, hr⟩ := exists_ok_of_any hany
  obtain ⟨rfl, h⟩ : r = -1 ∧ _ := of_decide_eq_true hr
  exact ⟨fs, fs', hfs, hcall, h⟩

end MyOS
