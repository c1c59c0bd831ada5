import MyOS.ForkExit
import MyOS.Fs.LogCalls
import MyOS.Proofs.Vsprintf

/-!
# What sprintf writes for its callers

`do_fork` makes the name of a child, and the log its line with `pos`, by formats that `vsprintf`
takes apart.
-/

namespace MyOS

open Memory

variable {strAt : Addr → List Byte} {args args' : VaList} {w rest inner p : List Byte}
  {letter : Byte} {n : ℕ}

theorem toUpper_of_isDigit {c : Char} (h : c.isDigit = true) : c.toUpper = c := by
  simp only [Char.isDigit, Bool.and_eq_true, decide_eq_true_eq] at h
  have hlt : c.val.toNat ≤ 57 := UInt32.le_iff_toNat_le.1 h.2
  refine dif_neg fun hlower => ?_
  have hge : 97 ≤ c.val.toNat := UInt32.le_iff_toNat_le.1 hlower.1
  omega

/-- A decimal numeral has no letters. -/
theorem numeral_ten (n : ℕ) : numeral 10 n = (Nat.toDigits 10 n).map ascii :=
  List.map_congr_left fun _ hc =>
    congrArg ascii (toUpper_of_isDigit (Nat.isDigit_of_mem_toDigits (by decide) le_rfl hc))

theorem convert_d_ofNat (hn : n < 2 ^ 31) (harg : args 0 = BitVec.ofNat 32 n) :
    convert strAt (ascii 'd') args = .ok ((Nat.toDigits 10 n).map ascii, args.next) := by
  have hint : (args 0).toInt = n := by rw [harg, toInt_ofNat_small hn]
  have hnat : (args 0).toNat = n := by
    rw [harg, BitVec.toNat_ofNat]
    omega
  have hi2a : i2a (args 0) 10 [] = .ok ([] ++ numeral 10 (args 0).toNat) :=
    i2a_of_nonneg (b := 10) (by omega) (by decide) (by decide)
  rw [convert_d, if_neg (by omega), hi2a, hnat, List.nil_append]
  exact congrArg (fun l => Except.ok (l, args.next))
    ((untilNull_eq (zero_not_mem_numeral (by decide) (by decide))).trans (numeral_ten n))

/-- A conversion that is padded with blanks. -/
theorem vsprintfLoop_blanks (hw : ∀ c ∈ w, IsDigit c)
    (hzero : (w ++ letter :: rest).headD 0 ≠ ascii '0') (hl : ¬ IsDigit letter)
    (hpp : w = [] → letter ≠ ascii '%') (hconv : convert strAt letter args = .ok (inner, args')) :
    vsprintfLoop strAt (n + 1) (ascii '%' :: (w ++ letter :: rest)) args p =
      vsprintfLoop strAt n rest args' (p ++ List.replicate
        ((widthNr w 0).toInt - inner.length).toNat (ascii ' ') ++ inner) := by
  have hr : ∀ c ∈ (letter :: rest).head?, ¬ IsDigit c := by
    rintro _ ⟨⟩
    exact hl
  have hhead : (w ++ letter :: rest).headD 0 ≠ ascii '%' := headD_width_ne hw hpp
  rw [vsprintfLoop, if_neg (not_not.2 rfl), if_neg hhead, if_neg hzero]
  dsimp only
  rw [alignLoop_append hw hr]
  dsimp only [List.headD_cons]
  rw [hconv, ok_bind]

/-- `sprintf(fsbuf, "%8d\n", pos)` -/
theorem vsprintf_posLine (hn : n < 2 ^ 31) (harg : args 0 = BitVec.ofNat 32 n) :
    vsprintf strAt [ascii '%', ascii '8', ascii 'd', 0x0A] args =
      .ok (posLine n ++ [0], BitVec.ofNat 32 (posLine n).length) := by
  have hloop : vsprintfLoop strAt 5 (ascii '%' :: ([ascii '8'] ++ ascii 'd' :: [0x0A])) args [] =
      .ok (posLine n) := by
    rw [vsprintfLoop_blanks (by decide) (by decide) (by decide) (by decide)
      (convert_d_ofNat hn harg), vsprintfLoop_lit (by decide), vsprintfLoop, List.nil_append,
      List.length_map]
    have hwidth : (widthNr [ascii '8'] 0).toInt = 8 := by decide
    rw [hwidth, posLine, List.length_map]
    congr 4
    omega
  exact congrArg (· >>= fun q => .ok (q ++ [0], BitVec.ofNat 32 q.length)) hloop

/-- `sprintf(p->p_name, "%s_%d", proc_table[pid].p_name, child_pid)` -/
theorem vsprintf_childName {parent : List Char} {child : Slot} {name : List Char}
    (hparent : ∀ c ∈ parent, ascii c ≠ 0) (hlen : parent.length < strDefaultLen)
    (hstr : strAt (args 0) = parent.map ascii)
    (harg : args 1 = BitVec.ofNat 32 child.val) (hname : childName parent child = .ok name) :
    vsprintf strAt [ascii '%', ascii 's', ascii '_', ascii '%', ascii 'd'] args =
      .ok (name.map ascii ++ [0], BitVec.ofNat 32 (name.map ascii).length) := by
  obtain rfl : parent ++ '_' :: Nat.toDigits 10 child.val = name := by
    unfold childName at hname
    dsimp only at hname
    split_ifs at hname
    exact Except.ok.inj hname
  have hs : convert strAt (ascii 's') args = .ok (parent.map ascii, args.next) := by
    have huntil : untilNull (parent.map ascii) = parent.map ascii := untilNull_eq fun h => by
      obtain ⟨c, hc, h0⟩ := List.mem_map.1 h
      exact hparent c hc h0
    rw [convert, if_neg (by decide), if_neg (by decide), if_neg (by decide), if_pos rfl, hstr,
      List.length_map, if_pos hlen, huntil]
  have hslot : nrTasks + nrProcs ≤ 2 ^ 31 := by decide
  have hd := @convert_d_ofNat strAt args.next child.val (child.isLt.trans_le hslot) harg
  have hzero : (widthNr [] 0).toInt = 0 := rfl
  have hpad (l : List Byte) : List.replicate ((0 : ℤ) - l.length).toNat (ascii ' ') = [] := by
    rw [show ((0 : ℤ) - l.length).toNat = 0 by omega, List.replicate_zero]
  have hloop : vsprintfLoop strAt 6 (ascii '%' :: ([] ++ ascii 's' :: (ascii '_' ::
      ascii '%' :: ([] ++ ascii 'd' :: [])))) args [] =
        .ok ((parent ++ '_' :: Nat.toDigits 10 child.val).map ascii) := by
    rw [vsprintfLoop_blanks (by decide) (by decide) (by decide) (by decide) hs,
      vsprintfLoop_lit (by decide),
      vsprintfLoop_blanks (by decide) (by decide) (by decide) (by decide) hd, vsprintfLoop, hzero,
      hpad, hpad]
    simp
  exact congrArg (· >>= fun q => .ok (q ++ [0], BitVec.ofNat 32 q.length)) hloop

end MyOS
