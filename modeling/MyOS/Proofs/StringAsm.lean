import MyOS.Lib.Patch
import MyOS.StringAsm
import MyOS.Proofs.KernelAsm

/-!
# What the string functions do

Between the frame of a function and its end there is a loop with a counter. The words of the frame
are not among the bytes it writes, so that the registers come back.
-/

namespace MyOS

open Memory

variable {m : Machine} {ret dst src a : Addr}

namespace Machine

/-! ## Frames -/

theorem setWidth_append_byte (x : BitVec 24) (v : Byte) : (x ++ v).setWidth 8 = v := by
  refine BitVec.eq_of_getLsbD_eq fun i hi => ?_
  simp only [BitVec.getLsbD_setWidth, BitVec.getLsbD_append, decide_eq_true hi, Bool.true_and]
  simp [hi]

theorem al_setAl (m : Machine) (v : Byte) : (m.setAl v).al = v := setWidth_append_byte _ v

/-- Registers of the caller have been saved. -/
def entered (m : Machine) : Machine :=
  { m with
    mem := pushAll m.mem m.cpu.esp [m.cpu.ebp, m.cpu.esi, m.cpu.edi, m.cpu.ecx]
    cpu := { m.cpu with ebp := m.cpu.esp - 4, esp := m.cpu.esp - 16 } }

theorem frame_saveIndex (m : Machine) : m.frame.saveIndex = m.entered := by
  have hesp : m.cpu.esp - 4 - 4 - 4 - 4 = m.cpu.esp - 16 := by bv_omega
  rw [entered, ← hesp]
  rfl

theorem restoreIndex_leave {ecx edi esi ebp : BitVec 32}
    (hw : WordsAt m.mem a [ecx, edi, esi, ebp, ret]) (hesp : m.cpu.esp = a)
    (hebp : m.cpu.ebp = a + 12) : m.restoreIndex.leave = { m with
      cpu := { m.cpu with ecx, edi, esi, ebp, eip := ret, esp := a + 20 } } := by
  obtain ⟨hecx, hedi, hesi, hebp', hret, -⟩ := hw
  have h12 : a + 4 + 4 + 4 = a + 12 := by bv_omega
  have h20 : a + 12 + 4 + 4 = a + 20 := by bv_omega
  rw [h12] at hebp' hret
  simp only [restoreIndex, leave, pop, hesp, hebp, hecx, hedi, hesi, hebp', hret, h20]

/-- The words above the frame pointer, where memory still has them. -/
theorem arg_eq {mem : Mem} {vs ws : List (BitVec 32)} {n : ℕ} (hw : WordsAt mem a (vs ++ ws))
    (hlen : 4 * (vs ++ ws).length ≤ n) (hn : n ≤ 2 ^ 32)
    (hmem : ∀ x, Within x a n → m.mem x = mem x)
    (hebp : m.cpu.ebp + BitVec.ofNat 32 8 = a + BitVec.ofNat 32 (4 * vs.length)) {i : ℕ}
    (hi : i < ws.length) : m.arg (8 + 4 * i) = ws[i] := by
  have hkept : WordsAt m.mem a (vs ++ ws) :=
    hw.congr (Nat.le_trans hlen hn) fun x hx => hmem x (Nat.lt_of_lt_of_le hx hlen)
  rw [arg, BitVec.ofNat_add, ← BitVec.add_assoc, hebp]
  exact (wordsAt_append.1 hkept).2.load hi

/-- What is on the stack where registers have been saved. -/
theorem saved_words {args : List (BitVec 32)} (h : WordsAt m.mem m.cpu.esp (ret :: args))
    (hlen : args.length ≤ 3) : WordsAt m.entered.mem (m.cpu.esp - 16)
      ([m.cpu.ecx, m.cpu.edi, m.cpu.esi, m.cpu.ebp, ret] ++ args) :=
  pushAll_wordsAt [m.cpu.ebp, m.cpu.esi, m.cpu.edi, m.cpu.ecx] (ret :: args) m.mem m.cpu.esp
    (by simp only [List.length_cons, List.length_nil]; omega) h

/-- The bytes of the frame alone have changed. -/
theorem saved_mem {x : Addr} (hx : ¬ Within x (m.cpu.esp - 16) 16) :
    m.entered.mem x = m.mem x := by
  change pushAll m.mem m.cpu.esp [m.cpu.ebp, m.cpu.esi, m.cpu.edi, m.cpu.ecx] x = m.mem x
  exact pushAll_of_not_within (by simp) hx

/-- The arguments are found as long as they and the frame have not been written. -/
theorem saved_arg {args : List (BitVec 32)} (h : WordsAt m.mem m.cpu.esp (ret :: args))
    (hlen : args.length ≤ 3) {m' : Machine} (hebp : m'.cpu.ebp = m.cpu.esp - 4)
    (hmem : ∀ x, Within x (m.cpu.esp - 16) 32 → m'.mem x = m.entered.mem x) {i : ℕ}
    (hi : i < args.length) : m'.arg (8 + 4 * i) = args[i] := by
  refine arg_eq (saved_words h hlen) ?_ (by decide) hmem ?_ hi
  · simp only [List.length_append, List.length_cons, List.length_nil]
    omega
  · rw [hebp]
    change m.cpu.esp - 4 + 8 = m.cpu.esp - 16 + 20
    bv_omega

/-- At the end of a function that has written neither its frame nor its arguments. -/
theorem saved_leave {args : List (BitVec 32)} (h : WordsAt m.mem m.cpu.esp (ret :: args))
    (hlen : args.length ≤ 3) {m' : Machine} (hesp : m'.cpu.esp = m.cpu.esp - 16)
    (hebp : m'.cpu.ebp = m.cpu.esp - 4)
    (hmem : ∀ x, Within x (m.cpu.esp - 16) 20 → m'.mem x = m.entered.mem x) :
    m'.restoreIndex.leave = { m' with
      cpu := { m'.cpu with
        ecx := m.cpu.ecx
        edi := m.cpu.edi
        esi := m.cpu.esi
        ebp := m.cpu.ebp
        eip := ret
        esp := m.cpu.esp + 4 } } := by
  have hw := (wordsAt_append.1 (saved_words h hlen)).1
  have hebp' : m'.cpu.ebp = m.cpu.esp - 16 + 12 := by rw [hebp]; bv_omega
  have htop : m.cpu.esp - 16 + 20 = m.cpu.esp + 4 := by bv_omega
  rw [restoreIndex_leave (hw.congr (by simp) hmem) hesp hebp', htop]

/-! ## Loops with a counter -/

/-- `n` turns are left, the rest of the state is that of `m`, and the turns make `f` of memory. -/
structure Counting (m : Machine) (f : Mem → Addr → Addr → ℕ → Mem) (final : Mem) (n : ℕ)
    (s : Machine) : Prop where
  rest : ∃ mem eax esi edi, s = { m with
    mem
    cpu := { m.cpu with eax, ecx := BitVec.ofNat 32 n, esi, edi } }
  final : f s.mem s.cpu.edi s.cpu.esi n = final
  lt : n < 2 ^ 32

theorem Counting.stop {f : Mem → Addr → Addr → ℕ → Mem} {final : Mem} {s : Machine}
    (h : Counting m f final 0 s) : s.ecxZero = true := by
  obtain ⟨mem, eax, esi, edi, rfl⟩ := h.rest
  rfl

theorem Counting.go {f : Mem → Addr → Addr → ℕ → Mem} {final : Mem} {n : ℕ} {s : Machine}
    (h : Counting m f final (n + 1) s) :
    s.ecxZero = false ∧ s.cpu.ecx - 1 = BitVec.ofNat 32 n := by
  have hlt := h.lt
  obtain ⟨mem, eax, esi, edi, rfl⟩ := h.rest
  constructor
  · refine decide_eq_false ?_
    change ¬ BitVec.ofNat 32 (n + 1) = 0
    bv_omega
  · change BitVec.ofNat 32 (n + 1) - 1 = BitVec.ofNat 32 n
    bv_omega

theorem memcpyTurn_eq (s : Machine) : s.memcpyTurn = { s with
    mem := Function.update s.mem s.cpu.edi (s.mem s.cpu.esi)
    cpu := { s.cpu with
      eax := (s.cpu.eax >>> 8).setWidth 24 ++ s.mem s.cpu.esi
      esi := s.cpu.esi + 1
      edi := s.cpu.edi + 1
      ecx := s.cpu.ecx - 1 } } := by
  have hal : s.loadByte.al = s.mem s.cpu.esi := al_setAl s _
  rw [memcpyTurn, hal]
  rfl

theorem Counting.memcpyTurn {final : Mem} {n : ℕ} {s : Machine}
    (h : Counting m Memory.memcpy final (n + 1) s) :
    Counting m Memory.memcpy final n s.memcpyTurn := by
  have hecx := h.go.2
  have hfinal := h.final
  have hlt := h.lt
  obtain ⟨mem, eax, esi, edi, rfl⟩ := h.rest
  rw [memcpyTurn_eq, hecx]
  exact ⟨⟨_, _, _, _, rfl⟩, hfinal, by omega⟩

/-- `memset` has no source. -/
def fill (c : Byte) (mem : Mem) (dst _src : Addr) (n : ℕ) : Mem := poke mem dst n fun _ => c

theorem Counting.memsetTurn {final : Mem} {n : ℕ} {s : Machine}
    (h : Counting m (fill (m.cpu.edx.setWidth 8)) final (n + 1) s) :
    Counting m (fill (m.cpu.edx.setWidth 8)) final n s.memsetTurn := by
  have hecx := h.go.2
  have hfinal := h.final
  have hlt := h.lt
  obtain ⟨mem, eax, esi, edi, rfl⟩ := h.rest
  refine ⟨⟨Function.update mem edi (m.cpu.edx.setWidth 8), eax, esi, edi + 1, ?_⟩, ?_, by omega⟩
  · rw [← hecx]
    rfl
  · rw [← hfinal]
    exact poke_const_succ (by omega)

theorem Counting.exec {f : Mem → Addr → Addr → ℕ → Mem} {turn : Machine → Machine} {final : Mem}
    (hturn : ∀ n s, Counting m f final (n + 1) s → Counting m f final n (turn s)) {n fuel : ℕ}
    {s : Machine} (h : Counting m f final n s) (hf : n < fuel) :
    ∃ s', Loop.exec ecxZero turn fuel s = some s' ∧ Counting m f final 0 s' :=
  Loop.exec_total (fun _ h => h.stop) (fun n s h => ⟨h.go.1, hturn n s h⟩) h hf

/-- Behind the loop, where it has written neither the frame nor the arguments: the arguments are
there, and the caller goes on with its registers, but for `eax` and `edx`. -/
theorem Counting.leave {f : Mem → Addr → Addr → ℕ → Mem} {final : Mem} {edx : BitVec 32}
    {s : Machine} {args : List (BitVec 32)}
    (hs : Counting { m.entered with cpu := { m.entered.cpu with edx } } f final 0 s)
    (hf : ∀ mem dst src, f mem dst src 0 = mem)
    (hargs : WordsAt m.mem m.cpu.esp (ret :: args)) (hlen : args.length ≤ 3)
    (hkeep : ∀ x, Within x (m.cpu.esp - 16) 32 → final x = m.entered.mem x) :
    (∀ i, ∀ hi : i < args.length, s.arg (8 + 4 * i) = args[i]) ∧
      ∀ eax, Machine.leave (restoreIndex { s with cpu := { s.cpu with eax } }) = { m with
        mem := final
        cpu := { m.cpu with eax, edx, eip := ret, esp := m.cpu.esp + 4 } } := by
  have hfinal := hs.final
  rw [hf] at hfinal
  obtain ⟨mem, eax₀, esi, edi, rfl⟩ := hs.rest
  subst hfinal
  refine ⟨fun i hi => saved_arg hargs hlen rfl hkeep hi, fun eax => ?_⟩
  exact saved_leave hargs hlen rfl rfl fun x hx => hkeep x (Nat.lt_of_lt_of_le hx (by decide))

/-! ## Strings -/

/-- What is on the stack where only `ebp` has been saved. -/
theorem frame_words {args : List (BitVec 32)} (h : WordsAt m.mem m.cpu.esp (ret :: args))
    (hlen : args.length ≤ 2) :
    WordsAt m.frame.mem (m.cpu.esp - 4) ([m.cpu.ebp, ret] ++ args) :=
  pushAll_wordsAt [m.cpu.ebp] (ret :: args) m.mem m.cpu.esp
    (by simp only [List.length_cons, List.length_nil]; omega) h

theorem frame_mem {x : Addr} (hx : ¬ Within x (m.cpu.esp - 4) 4) : m.frame.mem x = m.mem x :=
  poke_of_not_within hx

theorem frame_arg {args : List (BitVec 32)} (h : WordsAt m.mem m.cpu.esp (ret :: args))
    (hlen : args.length ≤ 2) {m' : Machine} (hebp : m'.cpu.ebp = m.cpu.esp - 4)
    (hmem : ∀ x, Within x (m.cpu.esp - 4) 16 → m'.mem x = m.frame.mem x) {i : ℕ}
    (hi : i < args.length) : m'.arg (8 + 4 * i) = args[i] := by
  refine arg_eq (frame_words h hlen) ?_ (by decide) hmem (by rw [hebp]; rfl) hi
  simp only [List.length_append, List.length_cons, List.length_nil]
  omega

theorem frame_leave {args : List (BitVec 32)} (h : WordsAt m.mem m.cpu.esp (ret :: args))
    (hlen : args.length ≤ 2) {m' : Machine} (hesp : m'.cpu.esp = m.cpu.esp - 4)
    (hmem : ∀ x, Within x (m.cpu.esp - 4) 8 → m'.mem x = m.frame.mem x) :
    m'.leave = { m' with
      cpu := { m'.cpu with ebp := m.cpu.ebp, eip := ret, esp := m.cpu.esp + 4 } } := by
  have hw := (wordsAt_append.1 (frame_words h hlen)).1
  obtain ⟨hebp, hret, -⟩ := hw.congr (by simp) hmem
  have htop : m.cpu.esp - 4 + 4 + 4 = m.cpu.esp + 4 := by bv_omega
  simp only [leave, pop, hesp, hebp, hret, htop]

/-- `j` bytes have been copied. -/
def copied (m : Machine) (dst src : Addr) (j : ℕ) (eax : BitVec 32) : Machine :=
  { m with
    mem := poke m.mem dst j fun i => m.mem (src + BitVec.ofNat 32 i)
    cpu := { m.cpu with
      eax
      esi := src + BitVec.ofNat 32 j
      edi := dst + BitVec.ofNat 32 j } }

theorem copied_mem (m : Machine) (dst src : Addr) (j : ℕ) (eax : BitVec 32) :
    (copied m dst src j eax).mem = poke m.mem dst j fun i => m.mem (src + BitVec.ofNat 32 i) := rfl

theorem strcpyTurn_eq (s : Machine) : s.strcpyTurn = { s with
    mem := Function.update s.mem s.cpu.edi (s.mem s.cpu.esi)
    cpu := { s.cpu with
      eax := (s.cpu.eax >>> 8).setWidth 24 ++ s.mem s.cpu.esi
      esi := s.cpu.esi + 1
      edi := s.cpu.edi + 1 } } := by
  have hal : s.loadByte.al = s.mem s.cpu.esi := al_setAl s _
  rw [strcpyTurn, hal]
  rfl

theorem add_ofNat_succ (a : Addr) (j : ℕ) :
    a + BitVec.ofNat 32 j + 1 = a + BitVec.ofNat 32 (j + 1) := by
  rw [BitVec.add_assoc, BitVec.ofNat_add]
  rfl

theorem copied_turn {j : ℕ} {eax : BitVec 32} (hj : j + 1 ≤ 2 ^ 32)
    (hsrc : ¬ Within (src + BitVec.ofNat 32 j) dst j) :
    (copied m dst src j eax).strcpyTurn = copied m dst src (j + 1)
      ((eax >>> 8).setWidth 24 ++ m.mem (src + BitVec.ofNat 32 j)) := by
  have hbyte : (copied m dst src j eax).mem (src + BitVec.ofNat 32 j) =
      m.mem (src + BitVec.ofNat 32 j) := by
    rw [copied_mem]
    exact poke_of_not_within hsrc
  have hesi : (copied m dst src j eax).cpu.esi = src + BitVec.ofNat 32 j := rfl
  have hedi : (copied m dst src j eax).cpu.edi = dst + BitVec.ofNat 32 j := rfl
  have hmem : Function.update (copied m dst src j eax).mem (dst + BitVec.ofNat 32 j)
      (m.mem (src + BitVec.ofNat 32 j)) = (copied m dst src (j + 1) eax).mem := by
    rw [copied_mem, copied_mem]
    exact poke_snoc (f := fun i => m.mem (src + BitVec.ofNat 32 i)) hj
  rw [strcpyTurn_eq, hesi, hedi, hbyte, hmem, add_ofNat_succ, add_ofNat_succ]
  rfl

/-- The loop ends with the null. -/
theorem strcpy_exec {n fuel : ℕ} (hn : n < 2 ^ 32) (hs : StringAt m.mem src n)
    (hapart : Apart dst (n + 1) src (n + 1)) (hfuel : n < fuel) (eax : BitVec 32) :
    ∃ eax', Loop.exec (fun m => m.al = 0) strcpyTurn fuel (copied m dst src 0 eax).strcpyTurn =
      some (copied m dst src (n + 1) eax') := by
  have hsrc : ∀ j ≤ n, ¬ Within (src + BitVec.ofNat 32 j) dst j := by
    intro j hj h
    exact hapart.symm _ (within_add_ofNat src (Nat.lt_succ_of_le hj) hn)
      (Nat.lt_of_lt_of_le h (by omega))
  have hal (j : ℕ) (e : BitVec 32) : (copied m dst src (j + 1) ((e >>> 8).setWidth 24 ++
      m.mem (src + BitVec.ofNat 32 j))).al = m.mem (src + BitVec.ofNat 32 j) :=
    setWidth_append_byte _ _
  -- `k` bytes are left behind the byte in `al`
  let R (k : ℕ) (s : Machine) : Prop := ∃ j e, j + k = n ∧ s = copied m dst src (j + 1) e ∧
    s.al = m.mem (src + BitVec.ofNat 32 j)
  have hstop : ∀ s, R 0 s → decide (s.al = 0) = true := by
    rintro s ⟨j, e, hj, rfl, hbyte⟩
    rw [Nat.add_zero] at hj
    rw [hbyte, hj]
    exact decide_eq_true hs.2
  have hturn : ∀ k s, R (k + 1) s → decide (s.al = 0) = false ∧ R k s.strcpyTurn := by
    rintro k s ⟨j, e, hj, rfl, hbyte⟩
    refine ⟨?_, j + 1, _, by omega, copied_turn (by omega) (hsrc _ (by omega)), ?_⟩
    · rw [hbyte]
      exact decide_eq_false (hs.1 j (by omega))
    · rw [copied_turn (by omega) (hsrc _ (by omega)), hal]
  have hstart : R n (copied m dst src 0 eax).strcpyTurn := by
    refine ⟨0, _, by omega, copied_turn (by omega) (hsrc _ (by omega)), ?_⟩
    rw [copied_turn (by omega) (hsrc _ (by omega)), hal]
  obtain ⟨s', hexec, j, e, hj, rfl, -⟩ := Loop.exec_total (R := R) hstop hturn hstart hfuel
  rw [Nat.add_zero] at hj
  rw [hj] at hexec
  exact ⟨e, hexec⟩

/-- `j` bytes have been counted. -/
def scanned (m : Machine) (src : Addr) (j : ℕ) : Machine :=
  { m with cpu := { m.cpu with eax := BitVec.ofNat 32 j, esi := src + BitVec.ofNat 32 j } }

theorem scanned_zero (m : Machine) (src : Addr) :
    scanned m src 0 = { m with cpu := { m.cpu with eax := 0, esi := src } } := by
  rw [scanned, show src + BitVec.ofNat 32 0 = src from BitVec.add_zero src]
  rfl

theorem scanned_turn (m : Machine) (src : Addr) (j : ℕ) :
    (scanned m src j).strlenTurn = scanned m src (j + 1) := by
  have hesi : (scanned m src j).cpu.esi + 1 = src + BitVec.ofNat 32 (j + 1) :=
    add_ofNat_succ src j
  have heax : (scanned m src j).cpu.eax + 1 = BitVec.ofNat 32 (j + 1) :=
    (BitVec.ofNat_add j 1).symm
  rw [strlenTurn, hesi, heax]
  rfl

theorem strlen_exec {n fuel : ℕ} (hs : StringAt m.mem src n) (hfuel : n < fuel) :
    Loop.exec (fun m => m.mem m.cpu.esi = 0) strlenTurn fuel (scanned m src 0) =
      some (scanned m src n) := by
  let R (k : ℕ) (s : Machine) : Prop := ∃ j, j + k = n ∧ s = scanned m src j
  have hstop : ∀ s, R 0 s → decide (s.mem s.cpu.esi = 0) = true := by
    rintro s ⟨j, hj, rfl⟩
    rw [Nat.add_zero] at hj
    rw [hj]
    exact decide_eq_true hs.2
  have hturn : ∀ k s, R (k + 1) s → decide (s.mem s.cpu.esi = 0) = false ∧ R k s.strlenTurn := by
    rintro k s ⟨j, hj, rfl⟩
    exact ⟨decide_eq_false (hs.1 j (by omega)), j + 1, by omega, scanned_turn m src j⟩
  have hstart : R n (scanned m src 0) := ⟨0, by omega, rfl⟩
  obtain ⟨s', hexec, j, hj, rfl⟩ := Loop.exec_total (R := R) hstop hturn hstart hfuel
  rw [Nat.add_zero] at hj
  rwa [hj] at hexec

theorem iterate_scanned (m : Machine) (src : Addr) (n : ℕ) :
    strlenTurn^[n] (scanned m src 0) = scanned m src n := by
  induction n with
  | zero => rfl
  | succ n ih => rw [Function.iterate_succ_apply', ih, scanned_turn]

end Machine

/-! ## The functions -/

open Machine

section

variable {size ch : BitVec 32} {fuel : ℕ}

/-- What three arguments are before the loop. -/
theorem three_args {b c : BitVec 32} (hargs : WordsAt m.mem m.cpu.esp [ret, dst, b, c]) :
    m.entered.arg 8 = dst ∧ m.entered.arg 12 = b ∧
      m.entered.arg 16 = c := by
  have hlen : [dst, b, c].length ≤ 3 := Nat.le_refl 3
  exact ⟨saved_arg hargs hlen rfl (fun _ _ => rfl) (i := 0) (by simp),
    saved_arg hargs hlen rfl (fun _ _ => rfl) (i := 1) (by simp),
    saved_arg hargs hlen rfl (fun _ _ => rfl) (i := 2) (by simp)⟩

theorem memcpy_asm (hargs : WordsAt m.mem m.cpu.esp [ret, dst, src, size])
    (hdst : Apart dst size.toNat (m.cpu.esp - 16) 32)
    (hsrc : Apart src size.toNat (m.cpu.esp - 16) 16) (hfuel : size.toNat < fuel) :
    ∃ mem, m.memcpy fuel = some { m with
      mem
      cpu := { m.cpu with eax := dst, eip := ret, esp := m.cpu.esp + 4 } } ∧
        ∀ x, ¬ Within x (m.cpu.esp - 16) 16 →
          mem x = Memory.memcpy m.mem dst src size.toNat x := by
  have hlt : size.toNat < 2 ^ 32 := size.isLt
  obtain ⟨h8, h12, h16⟩ := three_args hargs
  obtain ⟨s, hexec, hs⟩ := Counting.exec (m := m.entered) (f := Memory.memcpy)
    (n := size.toNat) (fun _ _ h => h.memcpyTurn) (s := { m.entered with
      cpu := { m.entered.cpu with edi := dst, esi := src, ecx := size } })
    ⟨⟨_, _, _, _, by rw [BitVec.ofNat_toNat, BitVec.setWidth_eq]⟩, rfl, hlt⟩ hfuel
  obtain ⟨harg, hleave⟩ := hs.leave (fun _ _ _ => rfl) hargs (Nat.le_refl 3) fun x hx =>
    memcpy_of_not_within (Nat.le_of_lt hlt) (hdst.symm x hx)
  refine ⟨Memory.memcpy m.entered.mem dst src size.toNat, ?_, fun x hx =>
    memcpy_congr (P := fun x => ¬ Within x (m.cpu.esp - 16) 16) (Nat.le_of_lt hlt)
      (fun x => saved_mem) hsrc x hx⟩
  have hdst' : s.arg 8 = dst := harg 0 (by simp)
  rw [Machine.memcpy, frame_saveIndex]
  dsimp only
  rw [h8, h12, h16, hexec, Option.map_some, hdst', hleave]

theorem memset_asm (hargs : WordsAt m.mem m.cpu.esp [ret, dst, ch, size])
    (hdst : Apart dst size.toNat (m.cpu.esp - 16) 32) (hfuel : size.toNat < fuel) :
    ∃ mem, m.memset fuel = some { m with
      mem
      cpu := { m.cpu with edx := ch, eip := ret, esp := m.cpu.esp + 4 } } ∧
        ∀ x, ¬ Within x (m.cpu.esp - 16) 16 →
          mem x = poke m.mem dst size.toNat (fun _ => ch.setWidth 8) x := by
  have hlt : size.toNat < 2 ^ 32 := size.isLt
  obtain ⟨h8, h12, h16⟩ := three_args hargs
  obtain ⟨s, hexec, hs⟩ := Counting.exec
    (m := { m.entered with cpu := { m.entered.cpu with edx := ch } })
    (f := fill (ch.setWidth 8)) (n := size.toNat) (fun _ _ h => h.memsetTurn)
    (s := { m.entered with
      cpu := { m.entered.cpu with edi := dst, edx := ch, ecx := size } })
    ⟨⟨_, _, _, _, by rw [BitVec.ofNat_toNat, BitVec.setWidth_eq]⟩, rfl, hlt⟩ hfuel
  obtain ⟨-, hleave⟩ := hs.leave (fun _ _ _ => poke_zero _ _ _) hargs (Nat.le_refl 3) fun x hx =>
    poke_of_not_within (hdst.symm x hx)
  have hkeeps : ∀ s : Machine, s.cpu.eax = m.cpu.eax → s.memsetTurn.cpu.eax = m.cpu.eax :=
    fun _ h => h
  have heax : s.cpu.eax = m.cpu.eax := by
    refine Loop.exec_keeps (P := fun s : Machine => s.cpu.eax = m.cpu.eax) hkeeps ?_ hexec
    rfl
  refine ⟨poke m.entered.mem dst size.toNat fun _ => ch.setWidth 8, ?_, fun x hx => ?_⟩
  · rw [Machine.memset, frame_saveIndex]
    dsimp only
    rw [h8, h12, h16, hexec, Option.map_some]
    exact congrArg some ((hleave s.cpu.eax).trans (by rw [heax]; rfl))
  · unfold poke
    rw [saved_mem hx]

theorem StringAt.congr {mem mem' : Mem} {n : ℕ} (h : StringAt mem src n) (hn : n < 2 ^ 32)
    (hmem : ∀ x, Within x src (n + 1) → mem' x = mem x) : StringAt mem' src n := by
  have hbyte : ∀ i ≤ n, mem' (src + BitVec.ofNat 32 i) = mem (src + BitVec.ofNat 32 i) :=
    fun i hi => hmem _ (within_add_ofNat src (Nat.lt_succ_of_le hi) hn)
  refine ⟨fun i hi => ?_, ?_⟩
  · rw [hbyte i (Nat.le_of_lt hi)]
    exact h.1 i hi
  · rw [hbyte n (Nat.le_refl n)]
    exact h.2

theorem strcpy_asm {n : ℕ} (hargs : WordsAt m.mem m.cpu.esp [ret, dst, src])
    (hs : StringAt m.mem src n) (hn : n < 2 ^ 32) (hdst : Apart dst (n + 1) (m.cpu.esp - 4) 16)
    (hsrc : Apart src (n + 1) (m.cpu.esp - 4) 4) (hapart : Apart dst (n + 1) src (n + 1))
    (hfuel : n < fuel) : ∃ mem, m.strcpy fuel = some { m with
      mem
      cpu := { m.cpu with
        eax := dst
        esi := src + BitVec.ofNat 32 (n + 1)
        edi := dst + BitVec.ofNat 32 (n + 1)
        eip := ret
        esp := m.cpu.esp + 4 } } ∧
        ∀ x, ¬ Within x (m.cpu.esp - 4) 4 → mem x =
          poke m.mem dst (n + 1) (fun i => m.mem (src + BitVec.ofNat 32 i)) x := by
  have hlen : [dst, src].length ≤ 2 := Nat.le_refl 2
  have h8 : m.frame.arg 8 = dst := frame_arg hargs hlen rfl (fun _ _ => rfl) (i := 0) (by simp)
  have h12 : m.frame.arg 12 = src := frame_arg hargs hlen rfl (fun _ _ => rfl) (i := 1) (by simp)
  have hsame : ∀ x, Within x src (n + 1) → m.frame.mem x = m.mem x :=
    fun x hx => frame_mem (hsrc x hx)
  obtain ⟨eax, hexec⟩ := strcpy_exec (m := m.frame) hn (hs.congr hn hsame) hapart hfuel m.cpu.eax
  have hstart : copied m.frame dst src 0 m.cpu.eax =
      { m.frame with cpu := { m.frame.cpu with esi := src, edi := dst } } := by
    rw [copied, poke_zero, show src + BitVec.ofNat 32 0 = src from BitVec.add_zero src,
      show dst + BitVec.ofNat 32 0 = dst from BitVec.add_zero dst]
    rfl
  have hkeep : ∀ x, Within x (m.cpu.esp - 4) 16 →
      (copied m.frame dst src (n + 1) eax).mem x = m.frame.mem x := by
    intro x hx
    rw [copied_mem]
    exact poke_of_not_within (hdst.symm x hx)
  have harg : (copied m.frame dst src (n + 1) eax).arg 8 = dst :=
    frame_arg hargs hlen rfl hkeep (i := 0) (by simp)
  refine ⟨(copied m.frame dst src (n + 1) eax).mem, ?_, fun x hx => ?_⟩
  · rw [hstart] at hexec
    rw [Machine.strcpy]
    dsimp only
    rw [h8, h12, hexec, Option.map_some, harg]
    exact congrArg some (frame_leave hargs hlen rfl fun x hx =>
      hkeep x (Nat.lt_of_lt_of_le hx (by decide)))
  · rw [copied_mem]
    by_cases hin : Within x dst (n + 1)
    · rw [poke, if_pos hin, poke, if_pos hin]
      exact hsame _ (within_add_ofNat src hin hn)
    · rw [poke_of_not_within hin, poke_of_not_within hin, frame_mem hx]

theorem strlen_start (hargs : WordsAt m.mem m.cpu.esp [ret, src]) :
    m.strlen fuel = (Loop.exec (fun m => m.mem m.cpu.esi = 0) strlenTurn fuel
      (scanned m.frame src 0)).map fun m => m.leave := by
  have h8 : m.frame.arg 8 = src :=
    frame_arg hargs (by simp) rfl (fun _ _ => rfl) (i := 0) (by simp)
  rw [Machine.strlen, scanned_zero]
  dsimp only
  rw [h8]

theorem strlen_asm {n : ℕ} (hargs : WordsAt m.mem m.cpu.esp [ret, src])
    (hs : StringAt m.mem src n) (hn : n < 2 ^ 32) (hsrc : Apart src (n + 1) (m.cpu.esp - 4) 4)
    (hfuel : n < fuel) : m.strlen fuel = some { m with
      mem := store32 m.mem (m.cpu.esp - 4) m.cpu.ebp
      cpu := { m.cpu with
        eax := BitVec.ofNat 32 n
        esi := src + BitVec.ofNat 32 n
        eip := ret
        esp := m.cpu.esp + 4 } } := by
  have hs' : StringAt m.frame.mem src n := hs.congr hn fun x hx => frame_mem (hsrc x hx)
  rw [strlen_start hargs, strlen_exec hs' hfuel, Option.map_some]
  exact congrArg some (frame_leave hargs (by simp) rfl fun _ _ => rfl)

/-- `strlen` goes on until it finds a null, wherever that is. -/
theorem strlen_ends (hargs : WordsAt m.mem m.cpu.esp [ret, src]) :
    (∃ fuel m', m.strlen fuel = some m') ↔
      ∃ x, store32 m.mem (m.cpu.esp - 4) m.cpu.ebp x = 0 := by
  have hends : (∃ fuel m', m.strlen fuel = some m') ↔ ∃ fuel s, Loop.exec
      (fun m => m.mem m.cpu.esi = 0) strlenTurn fuel (scanned m.frame src 0) = some s := by
    refine exists_congr fun fuel => ?_
    rw [strlen_start hargs]
    constructor
    · rintro ⟨m', h⟩
      obtain ⟨s, hs, -⟩ := Option.map_eq_some_iff.1 h
      exact ⟨s, hs⟩
    · rintro ⟨s, hs⟩
      exact ⟨_, by rw [hs]; rfl⟩
  rw [hends, Loop.ends_iff]
  simp only [iterate_scanned]
  constructor
  · rintro ⟨n, hn⟩
    exact ⟨_, of_decide_eq_true hn⟩
  · rintro ⟨x, hx⟩
    refine ⟨(x - src).toNat, decide_eq_true ?_⟩
    change store32 m.mem (m.cpu.esp - 4) m.cpu.ebp
      (src + BitVec.ofNat 32 (x - src).toNat) = 0
    rw [BitVec.ofNat_toNat, BitVec.setWidth_eq, BitVec.add_comm, BitVec.sub_add_cancel]
    exact hx

end

/-- The functions do what the C code calls them for. -/
theorem string_functions (m : Machine) (ret : Addr) : StringFunctions m ret where
  memcpy _ _ _ _ hargs hdst hsrc hfuel := memcpy_asm hargs hdst hsrc hfuel
  memset _ _ _ _ hargs hdst hfuel := memset_asm hargs hdst hfuel
  strcpy _ _ _ _ hargs hs hn hdst hsrc hapart hfuel :=
    strcpy_asm hargs hs hn hdst hsrc hapart hfuel
  strlen _ _ _ hargs hs hn hsrc hfuel := strlen_asm hargs hs hn hsrc hfuel
  endless _ hargs := strlen_ends hargs

/-- A caller with "hi" at `0x3000` and "bye" at `0x2000`, whose last argument is 3. -/
def hiMachine : Machine where
  cpu := { (default : Cpu) with esp := 0x1000 }
  mem x :=
    if x = 0x1001 then 4 else if x = 0x1005 then 0x20 else if x = 0x1009 then 0x30
    else if x = 0x100C then 3 else if x = 0x3000 then 0x68 else if x = 0x3001 then 0x69
    else if x = 0x2000 then 0x62 else if x = 0x2001 then 0x79 else if x = 0x2002 then 0x65 else 0
  kReenter := 0
  pProcReady := 0
  sp0 := 0
  ldtr := 0
  intMCtlmask := 0
  intSCtlmask := 0
  irqTable _ := 0
  calls := []

theorem string_functions_hi :
    (∃ m', hiMachine.memcpy 4 = some m' ∧ m'.cpu.eip = 0x400 ∧ m'.mem 0x2001 = 0x69) ∧
    (∃ m', hiMachine.memset 4 = some m' ∧ m'.cpu.eip = 0x400 ∧ m'.mem 0x2001 = 0) ∧
    (∃ m', hiMachine.strcpy 4 = some m' ∧ m'.cpu.esi = 0x3003 ∧ m'.mem 0x2001 = 0x69) ∧
    (∃ m', hiMachine.strlen 4 = some m' ∧ m'.cpu.eax = 3) ∧
    ∃ fuel m', hiMachine.strlen fuel = some m' := by
  have h := string_functions hiMachine 0x400
  have happart (a b : Addr) (n k : ℕ) (ha : a.toNat + n ≤ b.toNat ∨ b.toNat + k ≤ a.toNat)
      (hn : a.toNat + n < 2 ^ 32) (hk : b.toNat + k < 2 ^ 32) : Apart a n b k := by
    intro x hx hx'
    unfold Within at hx hx'
    bv_omega
  obtain ⟨mem, hcpy, hmem⟩ := h.memcpy 0x2000 0x3000 3 4 (by decide)
    (happart _ _ _ _ (by decide) (by decide) (by decide))
    (happart _ _ _ _ (by decide) (by decide) (by decide)) (by decide)
  obtain ⟨mem₁, hset, hmem₁⟩ := h.memset 0x2000 0x3000 3 4 (by decide)
    (happart _ _ _ _ (by decide) (by decide) (by decide)) (by decide)
  obtain ⟨mem₂, hstr, hmem₂⟩ := h.strcpy 0x2000 0x3000 2 4 (by decide) ⟨by decide, by decide⟩
    (by decide) (happart _ _ _ _ (by decide) (by decide) (by decide))
    (happart _ _ _ _ (by decide) (by decide) (by decide))
    (happart _ _ _ _ (by decide) (by decide) (by decide)) (by decide)
  have hlen := h.strlen 0x2000 3 4 (by decide) ⟨by decide, by decide⟩ (by decide)
    (happart _ _ _ _ (by decide) (by decide) (by decide)) (by decide)
  exact ⟨⟨_, hcpy, rfl, (hmem _ (by decide)).trans (by decide)⟩,
    ⟨_, hset, rfl, (hmem₁ _ (by decide)).trans (by decide)⟩,
    ⟨_, hstr, rfl, (hmem₂ _ (by decide)).trans (by decide)⟩, ⟨_, hlen, rfl⟩,
    (h.endless 0x2000 (by decide)).2 ⟨0x5000, by decide⟩⟩

end MyOS
