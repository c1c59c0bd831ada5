import MyOS.Protection
import MyOS.Proofs.Descriptors

/-!
# Processes are confined

A process that has been forked can load any selector. What it finds is its own two descriptors, the
screen, and descriptors of the kernel that its privilege does not open: so it writes its image and
the screen, the tables stay as `init_prot` and the forks have built them, and no process writes to
another, whatever they do and in whatever order.
-/

namespace MyOS

open Memory Segmentation

variable {mm : MmEnv} {k : Kernel} {l : TableLayout} {gdt : Gdt} {mem mem' : Mem} {p : Slot}

/-! ## What `init_prot` builds -/

structure Built (l : TableLayout) (gdt : Gdt) : Prop where
  loaded : ∀ j : Fin gdtSize, j.val < indexTss.val → gdt j = cstartGdt j
  tss : gdt indexTss = initDescriptor l.tss (BitVec.ofNat 32 (sizeofTss - 1)) da386Tss
  ldt : ∀ i, gdt (ldtIndex i) =
    initDescriptor (l.ldts i) (BitVec.ofNat 32 (ldtSize * sizeofDescriptor - 1)) daLdt
  rest : ∀ j : Fin gdtSize, indexLdtFirst + (nrTasks + nrProcs) ≤ j.val → gdt j = cstartGdt j

theorem ldtIndex_injective {i i' : Slot} (h : ldtIndex i = ldtIndex i') : i = i' := by
  have hv := congrArg Fin.val h
  simp only [ldtIndex] at hv
  exact Fin.ext (by omega)

/-- The entries before and behind those of the processes. -/
theorem ldtIndex_ne {j : Fin gdtSize}
    (hj : j.val < indexLdtFirst ∨ indexLdtFirst + (nrTasks + nrProcs) ≤ j.val) (i : Slot) :
    ldtIndex i ≠ j := by
  intro he
  have hv := congrArg Fin.val he
  simp only [ldtIndex] at hv
  have hi := i.isLt
  omega

theorem flat_seg2linear (h : (gdt ⟨2, by decide⟩).linear = 0) :
    seg2linear gdt selectorKernelDs = .ok 0 := by
  rw [seg2linear_eq gdt (i := ⟨2, by decide⟩) (by decide), h]

theorem initProtLoop_ok (is : List Slot) (gdt : Gdt) (h : (gdt ⟨2, by decide⟩).linear = 0) :
    ∃ gdt', initProtLoop l is gdt = .ok gdt' ∧
      (∀ i ∈ is, gdt' (ldtIndex i) =
        initDescriptor (l.ldts i) (BitVec.ofNat 32 (ldtSize * sizeofDescriptor - 1)) daLdt) ∧
      ∀ j, (∀ i ∈ is, ldtIndex i ≠ j) → gdt' j = gdt j := by
  induction is generalizing gdt with
  | nil => exact ⟨gdt, rfl, fun _ hi => absurd hi List.not_mem_nil, fun _ _ => rfl⟩
  | cons i is ih =>
    -- the entry of the kernel's segment lies before those that are written
    have hne : (⟨2, by decide⟩ : Fin gdtSize) ≠ ldtIndex i :=
      (ldtIndex_ne (.inl (by decide)) i).symm
    have hflat : (gdt.init (ldtIndex i) (0#32 + l.ldts i)
        (BitVec.ofNat 32 (ldtSize * sizeofDescriptor - 1)) daLdt ⟨2, by decide⟩).linear = 0 := by
      rw [Gdt.init, Function.update_of_ne hne, h]
    obtain ⟨gdt', hok, hldt, hrest⟩ := ih _ hflat
    refine ⟨gdt', ?_, fun i' hi' => ?_, fun j hj => ?_⟩
    · rw [initProtLoop, assert_of (indexLdtFirst_add_lt i), ok_bind, flat_seg2linear h, ok_bind]
      exact hok
    · by_cases hmem : i' ∈ is
      · exact hldt i' hmem
      · obtain rfl := (List.mem_cons.1 hi').resolve_right hmem
        have hnot : ∀ i ∈ is, ldtIndex i ≠ ldtIndex i' := by
          intro i hi he
          rw [ldtIndex_injective he] at hi
          exact hmem hi
        rw [hrest _ hnot, Gdt.init, Function.update_self, BitVec.zero_add]
    · rw [hrest j fun i hi => hj i (List.mem_cons_of_mem _ hi), Gdt.init,
        Function.update_of_ne (hj i List.mem_cons_self).symm]

theorem initProt_built (l : TableLayout) : ∃ gdt, initProt l cstartGdt = .ok gdt ∧ Built l gdt := by
  have hflat : (cstartGdt ⟨2, by decide⟩).linear = 0 := by decide
  have hne : (⟨2, by decide⟩ : Fin gdtSize) ≠ indexTss := by decide
  obtain ⟨gdt, hok, hldt, hrest⟩ := initProtLoop_ok (l := l) (List.finRange _)
    (cstartGdt.init indexTss (0#32 + l.tss) (BitVec.ofNat 32 (sizeofTss - 1)) da386Tss)
    (by rw [Gdt.init, Function.update_of_ne hne, hflat])
  refine ⟨gdt, ?_, fun j hj => ?_, ?_, fun i => hldt i (List.mem_finRange i), fun j hj => ?_⟩
  · rw [initProt, flat_seg2linear hflat, ok_bind]
    exact hok
  · have hlt : j.val < indexLdtFirst := Nat.lt_trans hj (by decide)
    rw [hrest j fun i _ => ldtIndex_ne (.inl hlt) i, Gdt.init,
      Function.update_of_ne (Fin.ne_of_val_ne hj.ne)]
  · rw [hrest indexTss fun i _ => ldtIndex_ne (.inl (by decide)) i, Gdt.init,
      Function.update_self, BitVec.zero_add]
  · have htss : j ≠ indexTss := by
      rintro rfl
      exact absurd hj (by decide)
    rw [hrest j fun i _ => ldtIndex_ne (.inr hj) i, Gdt.init, Function.update_of_ne htss]

/-! ## Descriptors -/

/-- Only the base depends on the base. -/
theorem decode_initDescriptor (base limit : BitVec 32) (attr : BitVec 16) :
    (initDescriptor base limit attr).decode =
      { (initDescriptor 0 limit attr).decode with base } := by
  rw [Descriptor.decode, linear_initDescriptor]
  rfl

def userCode (base : BitVec 32) : Desc := ⟨base, 0xfffff, 8, true, 3, true, true⟩
def userData (base : BitVec 32) : Desc := ⟨base, 0xfffff, 2, true, 3, true, true⟩
def videoDesc : Desc := ⟨videoBase, 0xffff, 2, true, 3, true, false⟩

theorem childLdts_decode (base : BitVec 32) :
    (childLdts base 0).decode = userCode base ∧ (childLdts base 1).decode = userData base := by
  constructor
  · refine (decode_initDescriptor _ _ _).trans ?_
    rw [show (initDescriptor 0 ((procImageSizeDefault - 1) >>> limit4kShift)
      (daLimit4k ||| da32 ||| daDpl privilegeUser ||| daC)).decode = userCode 0 by decide]
    rfl
  · refine (decode_initDescriptor _ _ _).trans ?_
    rw [show (initDescriptor 0 ((procImageSizeDefault - 1) >>> limit4kShift)
      (daLimit4k ||| da32 ||| daDpl privilegeUser ||| daDrw)).decode = userData 0 by decide]
    rfl

theorem ldt_decode (base : BitVec 32) :
    (initDescriptor base (BitVec.ofNat 32 (ldtSize * sizeofDescriptor - 1)) daLdt).decode =
      ⟨base, 15, 2, false, 0, true, false⟩ := by
  rw [decode_initDescriptor, show (initDescriptor 0 (BitVec.ofNat 32
    (ldtSize * sizeofDescriptor - 1)) daLdt).decode = ⟨0, 15, 2, false, 0, true, false⟩ by decide]

theorem tss_decode (base : BitVec 32) :
    (initDescriptor base (BitVec.ofNat 32 (sizeofTss - 1)) da386Tss).decode =
      ⟨base, 103, 9, false, 0, true, false⟩ := by
  rw [decode_initDescriptor, show (initDescriptor 0 (BitVec.ofNat 32 (sizeofTss - 1))
    da386Tss).decode = ⟨0, 103, 9, false, 0, true, false⟩ by decide]

/-- A descriptor for the kernel alone. -/
def Closed (d : Desc) : Prop := d.dpl = 0 ∧ d.conforming = false

instance (d : Desc) : Decidable (Closed d) := inferInstanceAs (Decidable (_ ∧ _))

theorem Built.video (h : Built l gdt) : (gdt ⟨3, by decide⟩).decode = videoDesc := by
  rw [h.loaded _ (by decide)]
  decide

/-- All entries of the table but the screen are for the kernel. -/
theorem Built.closed (h : Built l gdt) {j : Fin gdtSize} (hj : j.val ≠ 3) :
    Closed (gdt j).decode := by
  rcases lt_or_ge j.val indexTss.val with hlt | hge
  · rw [h.loaded j hlt]
    exact (show ∀ j : Fin gdtSize, j.val < 4 → j.val ≠ 3 → Closed (cstartGdt j).decode by
      decide) j hlt hj
  rcases hge.eq_or_lt with heq | hlt
  · rw [show j = indexTss from Fin.ext heq.symm, h.tss, tss_decode]
    exact ⟨rfl, show (BitVec.getLsbD 9#4 3 && BitVec.getLsbD 9#4 2) = false by decide⟩
  have h5 : 5 ≤ j.val := hlt
  rcases lt_or_ge j.val (indexLdtFirst + (nrTasks + nrProcs)) with hlt | hge
  · have hj' : j = ldtIndex ⟨j.val - indexLdtFirst, by unfold indexLdtFirst at *; omega⟩ :=
      Fin.ext (by simp only [ldtIndex, indexLdtFirst]; omega)
    rw [hj', h.ldt, ldt_decode]
    exact ⟨rfl, show (BitVec.getLsbD 2#4 3 && BitVec.getLsbD 2#4 2) = false by decide⟩
  · have hlen : loaderGdt.length ≤ j.val := h5.trans' (by decide)
    rw [h.rest j hge, cstartGdt, List.getD_eq_getElem?_getD, List.getElem?_eq_none hlen]
    decide

/-! ## Tables in memory -/

theorem Descriptor.load_congr {a : Addr} (h : ∀ x, Within x a sizeofDescriptor → mem' x = mem x) :
    Descriptor.load mem' a = Descriptor.load mem a := by
  have hpart (i : ℕ) {n : ℕ} (hin : i + n ≤ 8) :
      ∀ x, Within x (a + BitVec.ofNat 32 i) n → mem' x = mem x := by
    intro x hx
    have hx' := (within_add (by omega)).1 hx
    exact h x (show (x - a).toNat < 8 by omega)
  have hbyte (i : ℕ) (hi : i < 8) : mem' (a + BitVec.ofNat 32 i) = mem (a + BitVec.ofNat 32 i) :=
    h _ (within_add_ofNat a hi (by decide))
  have hlimit : load16 mem' a = load16 mem a := by
    refine load16_congr fun x hx => hpart 0 (n := 2) (by decide) x ?_
    rwa [BitVec.add_zero]
  have hbase : load16 mem' (a + 2) = load16 mem (a + 2) := load16_congr (hpart 2 (by decide))
  have h4 : mem' (a + 4) = mem (a + 4) := hbyte 4 (by decide)
  have h5 : mem' (a + 5) = mem (a + 5) := hbyte 5 (by decide)
  have h6 : mem' (a + 6) = mem (a + 6) := hbyte 6 (by decide)
  have h7 : mem' (a + 7) = mem (a + 7) := hbyte 7 (by decide)
  rw [Descriptor.load, hlimit, hbase, h4, h5, h6, h7]
  rfl

/-- The bytes of an entry are some of those of the table. -/
theorem within_entry {x a : Addr} {i n : ℕ} (hi : i < n) (hn : n * sizeofDescriptor ≤ 2 ^ 32)
    (hx : Within x (a + BitVec.ofNat 32 (sizeofDescriptor * i)) sizeofDescriptor) :
    Within x a (n * sizeofDescriptor) := by
  unfold sizeofDescriptor at *
  have := (within_add (by omega)).1 hx
  unfold Within
  omega

/-- What is written outside the tables leaves them. -/
theorem TableLayout.Holds.congr (h : l.Holds gdt k mem)
    (hmem : ∀ x, InTables l.gdt l.ldts x → mem' x = mem x) : l.Holds gdt k mem' := by
  refine ⟨fun i => ?_, fun p i => ?_⟩
  · rw [← h.gdt i]
    exact Descriptor.load_congr fun x hx => hmem x (.inl (within_entry i.isLt (by decide) hx))
  · rw [← h.ldts p i]
    exact Descriptor.load_congr fun x hx => hmem x (.inr ⟨p, within_entry i.isLt (by decide) hx⟩)

theorem descriptorAt_gdt (h : l.Holds gdt k mem) (i : Fin gdtSize) :
    descriptorAt mem l.gdt (gdtSize * sizeofDescriptor - 1) i = some (gdt i).decode := by
  have hi : i.val < 128 := i.isLt
  rw [descriptorAt, if_pos (by unfold gdtSize sizeofDescriptor; omega), h.gdt]

/-- The LDT that a process runs with is its own. -/
theorem tables_ldt (hb : Built l gdt) (h : l.Holds gdt k mem) (p : Slot) (i : ℕ) :
    (l.tables mem (ldtSel p)).ldt i = descriptorAt mem (l.ldts p) 15 i := by
  have hsel : ∀ p : Slot, (ldtSel p).toNat / 8 = ldtIndex p := by decide
  simp only [TableLayout.tables, hsel p]
  rw [descriptorAt_gdt h, Option.bind_some, hb.ldt, ldt_decode, if_pos ⟨rfl, rfl, rfl⟩]

theorem descriptorAt_ldt (h : l.Holds gdt k mem) (p : Slot) (i : Fin 2) :
    descriptorAt mem (l.ldts p) 15 i = some ((k.procTable p).ldts i).decode := by
  have hi : i.val < 2 := i.isLt
  rw [descriptorAt, if_pos (by unfold sizeofDescriptor; omega), h.ldts]

/-- The tables of a process that has been forked. -/
structure Sees (base : BitVec 32) (t : Segmentation.Tables) : Prop where
  code : t.ldt 0 = some (userCode base)
  data : t.ldt 1 = some (userData base)
  ldt : ∀ i d, t.ldt i = some d → i < 2
  video : t.gdt 3 = some videoDesc
  gdt : ∀ i d, t.gdt i = some d → i ≠ 3 → Closed d

theorem sees (hb : Built l gdt) (h : l.Holds gdt k mem) {base : BitVec 32}
    (hl : (k.procTable p).ldts = childLdts base) : Sees base (l.tables mem (ldtSel p)) := by
  constructor
  · rw [tables_ldt hb h, ← (childLdts_decode base).1, ← hl]
    exact descriptorAt_ldt h p 0
  · rw [tables_ldt hb h, ← (childLdts_decode base).2, ← hl]
    exact descriptorAt_ldt h p 1
  · intro i d hd
    rw [tables_ldt hb h, descriptorAt] at hd
    split_ifs at hd with hle
    unfold sizeofDescriptor at hle
    omega
  · rw [← hb.video]
    exact descriptorAt_gdt h ⟨3, by decide⟩
  · intro i d hd hi
    have hlt : i < gdtSize := by
      simp only [TableLayout.tables, descriptorAt] at hd
      split_ifs at hd with hle
      unfold gdtSize sizeofDescriptor at *
      omega
    have hd' := (descriptorAt_gdt h ⟨i, hlt⟩).symm.trans hd
    rw [← Option.some.inj hd']
    exact hb.closed hi

/-! ## What they open -/

/-- What a process finds that it may use. -/
theorem Sees.lookup {base : BitVec 32} {t : Segmentation.Tables} (h : Sees base t) {sel : BitVec 16}
    {d : Desc}
    (hd : t.lookup sel = some d) : d = userCode base ∨ d = userData base ∨ d = videoDesc ∨
      Closed d := by
  refine Segmentation.Tables.lookup_cases (P := fun d => d = userCode base ∨ d = userData base ∨
    d = videoDesc ∨ Closed d) hd (fun i d hi => ?_) fun i d _ hi => ?_
  · have hlt := h.ldt i d hi
    obtain rfl | rfl : i = 0 ∨ i = 1 := by omega
    · exact .inl (Option.some.inj (hi.symm.trans h.code))
    · exact .inr (.inl (Option.some.inj (hi.symm.trans h.data)))
  · by_cases h3 : i = 3
    · subst h3
      exact .inr (.inr (.inl (Option.some.inj (hi.symm.trans h.video))))
    · exact .inr (.inr (.inr (h.gdt i d hi h3)))

theorem Closed.not_grants {d : Desc} (h : Closed d) {rpl : ℕ} {r : Right} :
    ¬ d.Grants 3 rpl r := by
  intro hg
  have := hg.le_dpl h.2
  rw [h.1] at this
  omega

section Types

variable {d : Desc}

/-- Code that can be executed and not read. -/
theorem codeType (h : d.type = 8) : d.code = true ∧ d.readable = false ∧ d.writable = false ∧
    d.conforming = false ∧ d.expandDown = false := by
  simp only [Desc.readable, Desc.writable, Desc.conforming, Desc.expandDown, Desc.code, h]
  decide

/-- Data that can be written. -/
theorem dataType (h : d.type = 2) : d.code = false ∧ d.readable = true ∧ d.writable = true ∧
    d.expandDown = false := by
  simp only [Desc.readable, Desc.writable, Desc.expandDown, Desc.code, h]
  decide

/-- Data is not executed, code that is not readable is nothing else. -/
theorem grants_exec_iff {rpl : ℕ} {r : Right} (h : d.type = 8) (hg : d.Grants 3 rpl r) :
    r = .exec := by
  obtain ⟨-, hread, hwrite, -⟩ := codeType h
  cases r with
  | read => exact absurd (hread.symm.trans hg.2.2.1) Bool.false_ne_true
  | write => exact absurd (hwrite.symm.trans hg.2.2.1) Bool.false_ne_true
  | exec => rfl

theorem grants_data {rpl : ℕ} {r : Right} (h : d.type = 2) (hg : d.Grants 3 rpl r) :
    r ≠ .exec := by
  rintro rfl
  exact absurd ((dataType h).1.symm.trans hg.2.2.1) Bool.false_ne_true

theorem has_iff (h : d.expandDown = false) {off : BitVec 32} : d.Has off ↔ off.toNat ≤ d.limit := by
  rw [Desc.Has, h]
  exact Iff.rfl

/-- What a process may use with its own privilege. -/
structure ForUser (d : Desc) : Prop where
  present : d.present = true
  s : d.s = true
  dpl : d.dpl = 3

theorem ForUser.grants_data (h : ForUser d) (ht : d.type = 2) {r : Right} (hr : r ≠ .exec) :
    d.Grants 3 3 r := by
  obtain ⟨-, hread, hwrite, -⟩ := dataType ht
  refine ⟨h.present, h.s, ?_⟩
  cases r with
  | read => exact ⟨hread, .inr h.dpl.ge⟩
  | write => exact ⟨hwrite, h.dpl.ge⟩
  | exec => exact absurd rfl hr

theorem ForUser.grants_exec (h : ForUser d) (ht : d.type = 8) : d.Grants 3 3 .exec := by
  obtain ⟨hcode, -, -, hconf, -⟩ := codeType ht
  exact ⟨h.present, h.s, hcode, .inr ⟨hconf, h.dpl, le_rfl⟩⟩

end Types

variable {base : BitVec 32} {t : Segmentation.Tables} {x : Addr}

/-- The offset of an address of the image. -/
theorem inImage_iff_offset (hbase : base.toNat = imageBase p) :
    (x - base).toNat ≤ 0xfffff ↔ InImage p x := by
  have himage := imageBase_le p
  have hsize : procImageSizeDefault.toNat = 0x100000 := rfl
  unfold InImage
  rw [← hbase] at himage ⊢
  rw [hsize]
  bv_omega

theorem has_code (hbase : base.toNat = imageBase p) :
    (userCode base).Has (x - base) ↔ InImage p x :=
  (has_iff (codeType rfl).2.2.2.2).trans (inImage_iff_offset hbase)

theorem has_data (hbase : base.toNat = imageBase p) :
    (userData base).Has (x - base) ↔ InImage p x :=
  (has_iff (dataType rfl).2.2.2).trans (inImage_iff_offset hbase)

theorem has_video : videoDesc.Has (x - videoBase) ↔ InVideo x :=
  (has_iff (dataType rfl).2.2.2).trans Nat.lt_succ_iff.symm

theorem Sees.reaches_exec (h : Sees base t) (hbase : base.toNat = imageBase p) :
    t.Reaches 3 .exec x ↔ InImage p x := by
  rw [Segmentation.Tables.reaches_iff]
  constructor
  · rintro ⟨sel, d, hd, hg, hoff⟩
    obtain rfl | rfl | rfl | hc := h.lookup hd
    · exact (has_code hbase).1 hoff
    · exact absurd rfl (grants_data rfl hg)
    · exact absurd rfl (grants_data rfl hg)
    · exact absurd hg hc.not_grants
  · intro hx
    have hg : (userCode base).Grants 3 3 .exec := ForUser.grants_exec ⟨rfl, rfl, rfl⟩ rfl
    exact ⟨selectorUserCs, _, h.code, hg, (has_code hbase).2 hx⟩

/-- Reading and writing go through the same descriptors. -/
theorem Sees.reaches_data (h : Sees base t) (hbase : base.toNat = imageBase p) {r : Right}
    (hr : r ≠ .exec) : t.Reaches 3 r x ↔ InImage p x ∨ InVideo x := by
  rw [Segmentation.Tables.reaches_iff]
  constructor
  · rintro ⟨sel, d, hd, hg, hoff⟩
    obtain rfl | rfl | rfl | hc := h.lookup hd
    · exact absurd (grants_exec_iff rfl hg) hr
    · exact .inl ((has_data hbase).1 hoff)
    · exact .inr (has_video.1 hoff)
    · exact absurd hg hc.not_grants
  · rintro (hx | hx)
    · have hg : (userData base).Grants 3 3 r := ForUser.grants_data ⟨rfl, rfl, rfl⟩ rfl hr
      exact ⟨selectorUserDs, _, h.data, hg, (has_data hbase).2 hx⟩
    · have hg : videoDesc.Grants 3 3 r := ForUser.grants_data ⟨rfl, rfl, rfl⟩ rfl hr
      exact ⟨selectorUserGs, _, h.video, hg, has_video.2 hx⟩

theorem Sees.system (h : Sees base t) : ¬ t.OpensSystem 3 := by
  rintro ⟨sel, d, hd, -, hs, hdpl⟩
  obtain rfl | rfl | rfl | hc := h.lookup hd
  · exact Bool.false_ne_true hs.symm
  · exact Bool.false_ne_true hs.symm
  · exact Bool.false_ne_true hs.symm
  · rw [hc.1] at hdpl
    omega

/-- Through its own segments a process gets at an offset where the image has it. -/
theorem translate_user {d : Desc} {sel : BitVec 16} {r : Right} {va : Addr}
    (hd : t.lookup sel = some d) (hg : d.Grants 3 (rpl sel) r) (hexp : d.expandDown = false)
    (hlimit : d.limit = 0xfffff) : t.translate 3 r sel va =
      if va.toNat < procImageSizeDefault.toNat then some (d.base + va) else none := by
  have hhas : d.Grants 3 (rpl sel) r ∧ d.Has va ↔ va.toNat < procImageSizeDefault.toNat := by
    rw [and_iff_right hg, has_iff hexp, hlimit]
    exact Nat.lt_succ_iff.symm
  rw [Segmentation.Tables.translate, hd, Option.bind_some]
  exact if_congr hhas rfl rfl

theorem confined (h : Sees base t) (hbase : base.toNat = imageBase p)
    (hva : ∀ va, va2la k p va = .ok (base + va)) : Confined k p t := by
  refine ⟨fun x => h.reaches_exec hbase, fun x => h.reaches_data hbase (by decide),
    fun x => h.reaches_data hbase (by decide), h.system, fun va => ?_, fun va => ?_⟩
  · have hg : (userCode base).Grants 3 3 .exec := ForUser.grants_exec ⟨rfl, rfl, rfl⟩ rfl
    have hd : t.lookup selectorUserCs = some (userCode base) := h.code
    rw [hva]
    exact translate_user hd hg (codeType rfl).2.2.2.2 rfl
  · have hg : (userData base).Grants 3 3 .write :=
      ForUser.grants_data ⟨rfl, rfl, rfl⟩ rfl (by decide)
    have hd : t.lookup selectorUserDs = some (userData base) := h.data
    rw [hva]
    exact translate_user hd hg (dataType rfl).2.2.2 rfl

/-- As long as the tables are there, each process that has been forked is confined. -/
theorem confined_of_holds {t : List PmAct} (hr : Run Start (PmStep mm) t k) (hb : Built l gdt)
    (h : l.Holds gdt k mem) (hp : ForkedLive k p) : Confined k p (l.tables mem (ldtSel p)) := by
  obtain ⟨size, base, halloc, hldts⟩ := holdsLdts_of_run hr hp.1 hp.2
  obtain ⟨hhigh, hbase⟩ := allocMem_base halloc
  refine confined (sees hb h hldts) hbase fun va => ?_
  unfold va2la
  rw [if_neg (by omega), hldts, childLdts_linear]

/-! ## Writes -/

/-- A write is to the image of the process or to the screen. -/
theorem UserWrite.stays {t : List PmAct} {w : Slot × Addr × Byte}
    (hr : Run Start (PmStep mm) t k) (hb : Built l gdt) (h : l.Holds gdt k mem)
    (hw : UserWrite l k mem w mem') : InImage w.1 w.2.1 ∨ InVideo w.2.1 :=
  ((confined_of_holds hr hb h hw.live).write _).1 hw.translate

/-- The tables are not there. -/
theorem not_inTables {x : Addr} (h : InImage p x ∨ InVideo x) : ¬ InTables l.gdt l.ldts x := by
  intro hx
  obtain ⟨hlt, hvideo⟩ := l.below x hx
  rcases h with himage | hv
  · have := himage.1
    unfold imageBase at this
    omega
  · exact hvideo hv

/-- What a write keeps: the tables, and the bytes no process has written that they belong to. -/
theorem userWrite_run {t : List PmAct} {w : List (Slot × Addr × Byte)} {mem₀ : Mem}
    (hr : Run Start (PmStep mm) t k) (hb : Built l gdt) (h : l.Holds gdt k mem₀)
    (hw : Run (· = mem₀) (UserWrite l k) w mem) : l.Holds gdt k mem ∧
      ∀ x, mem x ≠ mem₀ x → InVideo x ∨ ∃ p v, (p, x, v) ∈ w ∧ ForkedLive k p ∧ InImage p x := by
  refine hw.invariant (P := fun w mem => l.Holds gdt k mem ∧ ∀ x, mem x ≠ mem₀ x →
    InVideo x ∨ ∃ p v, (p, x, v) ∈ w ∧ ForkedLive k p ∧ InImage p x) ?_ ?_
  · rintro mem rfl
    exact ⟨h, fun x hx => absurd rfl hx⟩
  · rintro w mem ⟨q, y, v⟩ mem' ⟨hholds, hold⟩ hs
    have hstay : InImage q y ∨ InVideo y := UserWrite.stays (w := (q, y, v)) hr hb hholds hs
    have hmem : mem' = Function.update mem y v := hs.mem
    refine ⟨hholds.congr fun x hx => ?_, fun x hx => ?_⟩
    · have hne : x ≠ y := by
        rintro rfl
        exact not_inTables hstay hx
      rw [hmem, Function.update_of_ne hne]
    · by_cases hxy : x = y
      · subst hxy
        rcases hstay with himage | hvideo
        · exact .inr ⟨q, v, List.mem_cons_self, hs.live, himage⟩
        · exact .inl hvideo
      · rw [hmem, Function.update_of_ne hxy] at hx
        rcases hold x hx with hvideo | ⟨p, v', hmem, hp, himage⟩
        · exact .inl hvideo
        · exact .inr ⟨p, v', List.mem_cons_of_mem _ hmem, hp, himage⟩

/-- With the tables that `init_prot` builds, in every run of the memory manager: whatever the
processes that have been forked write, and in whatever order, each of them stays confined to its
image and the screen, and no byte of an image changes but by the process whose image it is. -/
theorem forked_confined {t : List PmAct} (hr : Run Start (PmStep mm) t k) :
    ∃ gdt, initProt l cstartGdt = .ok gdt ∧ ∀ mem, l.Holds gdt k mem → ∀ w mem',
      Run (· = mem) (UserWrite l k) w mem' →
        (∀ p, ForkedLive k p → Confined k p (l.tables mem' (ldtSel p))) ∧
        ∀ x, mem' x ≠ mem x →
          InVideo x ∨ ∃ p v, (p, x, v) ∈ w ∧ ForkedLive k p ∧ InImage p x := by
  obtain ⟨gdt, hok, hb⟩ := initProt_built l
  refine ⟨gdt, hok, fun mem h w mem' hw => ?_⟩
  obtain ⟨hholds, hchange⟩ := userWrite_run hr hb h hw
  exact ⟨fun p hp => confined_of_holds hr hb hholds hp, hchange⟩

/-- The bytes of a descriptor, in their order. -/
def Descriptor.byte (d : Descriptor) : ℕ → Byte
  | 0 => d.limitLow.extractLsb' 0 8
  | 1 => d.limitLow.extractLsb' 8 8
  | 2 => d.baseLow.extractLsb' 0 8
  | 3 => d.baseLow.extractLsb' 8 8
  | 4 => d.baseMid
  | 5 => d.attr1
  | 6 => d.limitHighAttr2
  | _ => d.baseHigh

theorem append_halves (v : BitVec 16) :
    (v.extractLsb' 8 8 ++ v.extractLsb' 0 8 : BitVec 16) = v := by
  ext i hi
  simp only [BitVec.getLsbD_extractLsb', ← BitVec.getLsbD_eq_getElem, BitVec.getLsbD_append]
  split_ifs with h
  · simp [h]
  · rw [show 8 + (i - 8) = i by omega, decide_eq_true (by omega), Bool.true_and]

theorem Descriptor.load_byte {d : Descriptor} {a : Addr}
    (h : ∀ i < sizeofDescriptor, mem (a + BitVec.ofNat 32 i) = d.byte i) :
    Descriptor.load mem a = d := by
  have h0 := h 0 (by decide)
  rw [BitVec.add_zero] at h0
  have h1 : mem (a + 1) = d.byte 1 := h 1 (by decide)
  have h2 : mem (a + 2) = d.byte 2 := h 2 (by decide)
  have h3 : mem (a + 2 + 1) = d.byte 3 := by
    rw [show a + 2 + 1 = a + BitVec.ofNat 32 3 by bv_omega]
    exact h 3 (by decide)
  have h4 : mem (a + 4) = d.byte 4 := h 4 (by decide)
  have h5 : mem (a + 5) = d.byte 5 := h 5 (by decide)
  have h6 : mem (a + 6) = d.byte 6 := h 6 (by decide)
  have h7 : mem (a + 7) = d.byte 7 := h 7 (by decide)
  simp only [Descriptor.load, load16, h0, h1, h2, h3, h4, h5, h6, h7, Descriptor.byte,
    append_halves]

/-- A place for the tables. -/
def sampleTables : TableLayout where
  gdt := 0x30000
  tss := 0x31000
  ldts p := 0x32000 + BitVec.ofNat 32 (0x100 * p.val)
  below := by
    intro x hx
    have hsize : gdtSize * sizeofDescriptor = 0x400 ∧ ldtSize * sizeofDescriptor = 16 :=
      ⟨rfl, rfl⟩
    have hbase : procsBase.toNat = 0xA00000 := rfl
    have hend : videoLimit.toNat + 1 = 0x10000 := rfl
    unfold InVideo videoBase
    unfold InTables at hx
    rw [hsize.1, hsize.2] at hx
    rw [hbase, hend]
    unfold Within at *
    rcases hx with hx | ⟨p, hx⟩
    · bv_omega
    · have hp : p.val < 37 := p.isLt
      bv_omega

/-- A memory with the tables in it. -/
def sampleTablesMem (gdt : Gdt) (k : Kernel) : Mem := fun x =>
  let o := (x - 0x30000).toNat
  let o' := (x - 0x32000).toNat
  if h : o / 8 < gdtSize then (gdt ⟨o / 8, h⟩).byte (o % 8)
  else if h : o' / 0x100 < nrTasks + nrProcs then
    ((k.procTable ⟨o' / 0x100, h⟩).ldts (Fin.ofNat 2 (o' / 8))).byte (o' % 8)
  else 0

theorem sampleTables_holds (gdt : Gdt) (k : Kernel) :
    sampleTables.Holds gdt k (sampleTablesMem gdt k) := by
  constructor
  · intro i
    refine Descriptor.load_byte fun j hj => ?_
    have hi : i.val < 128 := i.isLt
    have hj8 : j < 8 := hj
    have ho : (sampleTables.gdt + BitVec.ofNat 32 (sizeofDescriptor * i) + BitVec.ofNat 32 j -
        0x30000).toNat = 8 * i + j := by
      unfold sampleTables sizeofDescriptor
      bv_omega
    have hdiv : (8 * i.val + j) / 8 = i := by omega
    have hmod : (8 * i.val + j) % 8 = j := by omega
    unfold sampleTablesMem
    simp only [ho, hdiv, hmod]
    exact dif_pos hi
  · intro p i
    refine Descriptor.load_byte fun j hj => ?_
    have hp : p.val < 37 := p.isLt
    have hi : i.val < 2 := i.isLt
    have hj8 : j < 8 := hj
    have ho : ¬ (sampleTables.ldts p + BitVec.ofNat 32 (sizeofDescriptor * i) + BitVec.ofNat 32 j -
        0x30000).toNat / 8 < gdtSize := by
      unfold sampleTables sizeofDescriptor gdtSize
      bv_omega
    have ho' : (sampleTables.ldts p + BitVec.ofNat 32 (sizeofDescriptor * i) + BitVec.ofNat 32 j -
        0x32000).toNat = 0x100 * p + (8 * i + j) := by
      unfold sampleTables sizeofDescriptor
      bv_omega
    have hdiv : (0x100 * p.val + (8 * i.val + j)) / 0x100 = p := by omega
    have hidx : (0x100 * p.val + (8 * i.val + j)) / 8 = 32 * p + i := by omega
    have hmod : (0x100 * p.val + (8 * i.val + j)) % 8 = j := by omega
    have hfin : Fin.ofNat 2 (32 * p.val + i.val) = i := by
      refine Fin.ext ?_
      rw [Fin.val_ofNat]
      omega
    unfold sampleTablesMem
    simp only [dif_neg ho, ho', hdiv, hidx, hmod, hfin]
    exact dif_pos hp

/-- `INIT` has forked, and its child writes to the start of its image. -/
theorem forked_confined_init : ∃ k gdt w mem mem', ForkedLive k 9 ∧
    initProt sampleTables cstartGdt = .ok gdt ∧ sampleTables.Holds gdt k mem ∧
      Run (· = mem) (UserWrite sampleTables k) w mem' ∧ w = [(9, 0xA00000, 7)] ∧
        Confined k 9 (sampleTables.tables mem' (ldtSel 9)) := by
  have hany : (forkProc mmEnv64 (kernelMain (fun _ => 0) 0) init).toOption.any
      (fun r => r.1 = some 9 ∧ Live r.2 9) = true := by decide
  obtain ⟨⟨c, k⟩, hk, hany⟩ := exists_ok_of_any hany
  obtain ⟨rfl, hlive⟩ := of_decide_eq_true hany
  have hr : Run Start (PmStep mmEnv64) [.fork init (some 9)] k :=
    .snoc (.start ⟨_, _, rfl⟩) ⟨rfl, hk⟩
  have hp : ForkedLive k 9 := ⟨by decide, hlive⟩
  obtain ⟨gdt, hok, hall⟩ := forked_confined (l := sampleTables) hr
  have hholds := sampleTables_holds gdt k
  have hbefore := (hall _ hholds [] _ (.start rfl)).1 9 hp
  have hreach := (hbefore.write 0xA00000).2 (.inl ⟨by decide, by decide⟩)
  have hw : Run (· = sampleTablesMem gdt k) (UserWrite sampleTables k) [(9, 0xA00000, 7)] _ :=
    .snoc (.start rfl) ⟨hp, hreach, rfl⟩
  exact ⟨k, gdt, _, _, _, hp, hok, hholds, hw, rfl, (hall _ hholds _ _ hw).1 9 hp⟩

end MyOS
