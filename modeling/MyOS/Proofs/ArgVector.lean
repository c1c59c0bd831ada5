import MyOS.Proofs.ExecArgs

/-!
# The arguments of the new program

`execv` puts an array of pointers and the strings behind it into one block, and `do_exec` moves the
pointers by what the block moves. A block holds its arguments wherever its pointers say it lies, so
the two agree, to whichever side the block moves.
-/

namespace MyOS

open Memory Block

/-! ## A block of arguments -/

/-- The string at `off`, with its null. -/
structure CString (f : Bytes) (off : ℕ) (s : List Byte) : Prop where
  chars : ∀ j (hj : j < s.length), f (off + j) = s[j]
  null : f (off + s.length) = 0

/-- The pointers at `q` are to the strings, which lie from `lo` to `hi`, in a block at `a`. -/
def PointsTo (a : Addr) (lo hi q : ℕ) (argv : List (List Byte)) (f : Bytes) : Prop :=
  ∀ i (hi' : i < argv.length), ∃ off, word f (q + 4 * i) = a + BitVec.ofNat 32 off ∧
    lo ≤ off ∧ off + argv[i].length < hi ∧ CString f off argv[i]

/-- The arguments, in the first `len` bytes of a block at `a`. -/
structure Arguments (a : Addr) (len : ℕ) (argv : List (List Byte)) (f : Bytes) : Prop where
  array : 4 * (argv.length + 1) ≤ len
  pointers : PointsTo a (4 * (argv.length + 1)) len 0 argv f
  null : word f (4 * argv.length) = 0

theorem CString.congr {f g : Bytes} {off : ℕ} {s : List Byte} (h : CString f off s)
    (hfg : ∀ j ≤ s.length, g (off + j) = f (off + j)) : CString g off s := by
  refine ⟨fun j hj => ?_, ?_⟩
  · rw [hfg j hj.le]
    exact h.chars j hj
  · rw [hfg _ le_rfl]
    exact h.null

/-- Only the bytes of the block count. -/
theorem Arguments.congr {a : Addr} {len : ℕ} {argv : List (List Byte)} {f g : Bytes}
    (h : Arguments a len argv f) (hfg : ∀ x < len, g x = f x) : Arguments a len argv g := by
  have harray := h.array
  refine ⟨harray, fun i hi => ?_, ?_⟩
  · obtain ⟨off, hptr, hlo, hhi, hs⟩ := h.pointers i hi
    refine ⟨off, ?_, hlo, hhi, hs.congr fun j hj => hfg _ (by omega)⟩
    rw [← hptr]
    exact word_congr fun j hj => hfg _ (by omega)
  · rw [← h.null]
    exact word_congr fun j hj => hfg _ (by omega)

/-! ## execv -/

theorem execvCount_eq : ∀ {argv : List (List Byte)} {n r : ℕ}, execvCount argv n = .ok r →
    r = n + 4 * argv.length
  | [], _, _, h => (Except.ok.inj h).symm
  | _ :: l, n, r, h => by
    unfold execvCount at h
    rw [assert_bind_eq_ok] at h
    rw [execvCount_eq h.2, List.length_cons]
    omega

/-- What the loop has done when it is over: the pointers and the strings are there, and nothing else
has changed. -/
structure StringsPut (buf : Addr) (argv : List (List Byte)) (q n len : ℕ) (f g : Bytes) : Prop where
  grows : n ≤ len
  pointers : PointsTo buf n len q argv g
  before : ∀ x < n, x < q ∨ q + 4 * argv.length ≤ x → g x = f x
  behind : ∀ x, len ≤ x → g x = f x

/-- One string and its pointer. -/
def putString (buf : Addr) (s : List Byte) (q n : ℕ) (f : Bytes) : Bytes :=
  put (strcpy (putWord f q (buf + BitVec.ofNat 32 n)) n s) (n + s.length) 0

theorem putString_outside {buf : Addr} {s : List Byte} {q n x : ℕ} {f : Bytes}
    (hq : x < q ∨ q + 4 ≤ x) (hn : x < n ∨ n + s.length < x) : putString buf s q n f x = f x := by
  unfold putString put strcpy
  rw [if_neg (by omega), blit_outside (by omega), putWord_outside hq]

theorem putString_cString (buf : Addr) (s : List Byte) (q n : ℕ) (f : Bytes) :
    CString (putString buf s q n f) n s := by
  unfold putString put strcpy
  refine ⟨fun j hj => ?_, if_pos rfl⟩
  rw [if_neg (by omega), blit_inside (by omega)]
  simp [hj]

theorem word_putString {buf : Addr} {s : List Byte} {q n : ℕ} {f : Bytes} (hq : q + 4 ≤ n) :
    word (putString buf s q n f) q = buf + BitVec.ofNat 32 n := by
  rw [← word_putWord f q (buf + BitVec.ofNat 32 n)]
  refine word_congr fun i hi => ?_
  unfold putString put strcpy
  rw [if_neg (by omega), blit_outside (by omega)]

/-- By induction on the strings left: the room behind the pointers is kept free of strings. -/
theorem execvStrings_put {buf : Addr} : ∀ {argv : List (List Byte)} {q n len : ℕ} {f g : Bytes},
    q + 4 * argv.length ≤ n → execvStrings buf argv q n f = .ok (len, g) →
      StringsPut buf argv q n len f g
  | [], q, n, len, f, g, _, h => by
    obtain ⟨rfl, rfl⟩ := Prod.mk.inj (Except.ok.inj h)
    exact ⟨le_rfl, fun i hi => absurd hi (Nat.not_lt_zero _), fun _ _ _ => rfl, fun _ _ => rfl⟩
  | s :: l, q, n, len, f, g, hroom, h => by
    rw [List.length_cons] at hroom
    unfold execvStrings at h
    rw [assert_bind_eq_ok] at h
    have ih : StringsPut buf l (q + 4) (n + s.length + 1) len (putString buf s q n f) g :=
      execvStrings_put (by omega) h.2
    have hgrows := ih.grows
    refine ⟨by omega, fun i hi => ?_, fun x hx hout => ?_, fun x hx => ?_⟩
    · cases i with
      | zero =>
        refine ⟨n, ?_, le_rfl, by simp only [List.getElem_cons_zero]; omega, ?_⟩
        · rw [← @word_putString buf s q n f (by omega)]
          exact word_congr fun j hj => ih.before _ (by omega) (.inl (by omega))
        · refine (putString_cString buf s q n f).congr fun j hj => ?_
          exact ih.before _ (by omega) (.inr (by omega))
      | succ i =>
        rw [List.length_cons] at hi
        obtain ⟨off, hptr, hlo, hhi, hs⟩ := ih.pointers i (by omega)
        rw [show q + 4 * (i + 1) = q + 4 + 4 * i by omega, List.getElem_cons_succ]
        exact ⟨off, hptr, by omega, hhi, hs⟩
    · rw [List.length_cons] at hout
      rw [ih.before x (by omega) (by omega)]
      exact putString_outside (by omega) (.inl hx)
    · rw [ih.behind x hx]
      exact putString_outside (.inr (by omega)) (.inr (by omega))

/-- The block `execv` builds holds its arguments, and it is all that `execv` writes. -/
theorem execv_arguments {argv : List (List Byte)} {buf : Addr} {init argStack : Bytes} {len : ℕ}
    (h : execv argv buf init = .ok (len, argStack)) :
    Arguments buf len argv argStack ∧ ∀ x, len ≤ x → argStack x = init x := by
  obtain ⟨n, hn, h⟩ := bind_eq_ok.1 h
  obtain rfl : n = 4 * argv.length := by
    rw [execvCount_eq hn]
    omega
  have hput := execvStrings_put (by omega) h
  have hgrows := hput.grows
  refine ⟨⟨by omega, hput.pointers, ?_⟩, fun x hx => ?_⟩
  · rw [← word_putWord init (4 * argv.length) 0]
    exact word_congr fun i hi => hput.before _ (by omega) (.inr (by omega))
  · rw [hput.behind x hx]
    exact putWord_outside (.inr (by omega))

/-! ## do_exec -/

/-- The loop moves the pointers up to the null one, and nothing else. -/
theorem relocate_eq {delta : BitVec 32} {argc : ℕ} : ∀ {words j : ℕ} {f : Bytes},
    j ≤ argc → argc - j < words → (∀ i < argc, j ≤ i → word f (4 * i) ≠ 0) →
      word f (4 * argc) = 0 → ∃ g, relocate delta words j f = .ok (argc, g) ∧
        (∀ i < argc, j ≤ i → word g (4 * i) = word f (4 * i) + delta) ∧
        ∀ x, x < 4 * j ∨ 4 * argc ≤ x → g x = f x
  | 0, _, _, _, hwords, _, _ => absurd hwords (Nat.not_lt_zero _)
  | words + 1, j, f, hj, hwords, hptr, hnull => by
    unfold relocate
    rcases hj.eq_or_lt with rfl | hlt
    · rw [if_pos hnull]
      exact ⟨f, rfl, fun i hi hji => absurd hi (not_lt.2 hji), fun _ _ => rfl⟩
    · rw [if_neg (hptr j hlt le_rfl)]
      have hkeep : ∀ i, i ≠ j → word (putWord f (4 * j) (word f (4 * j) + delta)) (4 * i) =
          word f (4 * i) := fun i hi => word_putWord_of_apart f _ (by omega)
      obtain ⟨g, hg, hmoved, hrest⟩ := @relocate_eq delta argc words
        (j + 1) (putWord f (4 * j) (word f (4 * j) + delta)) hlt (by omega)
        (fun i hi hji => by rw [hkeep i (by omega)]; exact hptr i hi (by omega))
        (by rw [hkeep argc (by omega)]; exact hnull)
      refine ⟨g, hg, fun i hi hji => ?_, fun x hx => ?_⟩
      · rcases hji.eq_or_lt with rfl | hji
        · rw [← word_putWord f (4 * j) (word f (4 * j) + delta)]
          exact word_congr fun t ht => hrest _ (.inl (by omega))
        · rw [hmoved i hi hji, hkeep i (by omega)]
      · rw [hrest x (by omega)]
        exact putWord_outside (by omega)

/-- A block whose pointers are moved by what the block moves holds its arguments at the new
place. -/
theorem Arguments.relocated {a b : Addr} {len : ℕ} {argv : List (List Byte)} {f : Bytes}
    (h : Arguments a len argv f) (ha : a.toNat + len ≤ 2 ^ 32) :
    ∃ g, relocate (b - a) (len / 4) 0 f = .ok (argv.length, g) ∧ Arguments b len argv g ∧
      ∀ x, len ≤ x → g x = f x := by
  have harray := h.array
  have hne : ∀ i < argv.length, 0 ≤ i → word f (4 * i) ≠ 0 := by
    intro i hi _
    obtain ⟨off, hptr, hlo, hhi, -⟩ := h.pointers i hi
    rw [Nat.zero_add] at hptr
    rw [hptr]
    bv_omega
  obtain ⟨g, hg, hmoved, hrest⟩ := @relocate_eq (b - a) _ (len / 4) _ _
    (Nat.zero_le _) (by omega) hne h.null
  refine ⟨g, hg, ⟨harray, fun i hi => ?_, ?_⟩, fun x hx => hrest x (.inr (by omega))⟩
  · obtain ⟨off, hptr, hlo, hhi, hs⟩ := h.pointers i hi
    rw [Nat.zero_add] at hptr
    refine ⟨off, ?_, hlo, hhi, hs.congr fun j _ => hrest _ (.inr (by omega))⟩
    rw [Nat.zero_add, hmoved i hi (Nat.zero_le _), hptr]
    bv_omega
  · rw [← h.null]
    exact word_congr fun t _ => hrest _ (.inr (by omega))

section

variable {argv : List (List Byte)} {buf : Addr} {init argStack f : Bytes} {len : ℕ} {msg : Message}

theorem argVector_eq (hexecv : execv argv buf init = .ok (len, argStack))
    (hbuf : buf.toNat + procOriginStack ≤ 2 ^ 32)
    (hmsg : msg.bufLen = BitVec.ofNat 32 len ∧ msg.buf = buf) (hf : ∀ x < len, f x = argStack x) :
    ∃ g, argVector procImageSizeDefault msg f = .ok (argv.length, g) ∧
      Arguments (origStack procImageSizeDefault) len argv g ∧ ∀ x, len ≤ x → g x = f x := by
  have hlen := execv_len hexecv
  have hsize : procOriginStack = 0x400 := rfl
  have hargs : Arguments buf len argv f := (execv_arguments hexecv).1.congr hf
  have harray := hargs.array
  have hlen' : msg.bufLen.toNat = len := by
    rw [hmsg.1, BitVec.toNat_ofNat]
    omega
  have hne : msg.bufLen ≠ 0 := fun h0 => by
    have : (0 : BitVec 32).toNat = 0 := rfl
    rw [h0] at hlen'
    omega
  unfold argVector
  rw [if_neg hne, hlen', hmsg.2]
  exact hargs.relocated (by omega)

theorem argBlock_eq_of_argVector {imageSize : BitVec 32} {argc : ℕ} {g : Bytes}
    (h : argVector imageSize msg f = .ok (argc, g)) : argBlock imageSize msg f = .ok g := by
  rw [argBlock, h]
  rfl

/-- The arguments of `execv`, relocated by `do_exec`: as many as there were, each pointer to a copy
of its string in the block, and nothing written behind the block at either place. -/
theorem exec_arguments (hexecv : execv argv buf init = .ok (len, argStack))
    (hbuf : buf.toNat + procOriginStack ≤ 2 ^ 32)
    (hmsg : msg.bufLen = BitVec.ofNat 32 len ∧ msg.buf = buf) (hf : ∀ x < len, f x = argStack x) :
    ∃ g, argVector procImageSizeDefault msg f = .ok (argv.length, g) ∧
      argBlock procImageSizeDefault msg f = .ok g ∧
      Arguments (origStack procImageSizeDefault) len argv g ∧
      len < procOriginStack ∧
      (origStack procImageSizeDefault).toNat + procOriginStack = procImageSizeDefault.toNat ∧
      ∀ x, len ≤ x → argStack x = init x ∧ g x = f x := by
  obtain ⟨g, hg, hargs, hrest⟩ := argVector_eq hexecv hbuf hmsg hf
  exact ⟨g, hg, argBlock_eq_of_argVector hg, hargs, execv_len hexecv, by decide,
    fun x hx => ⟨(execv_arguments hexecv).2 x hx, hrest x hx⟩⟩

/-- `execv` with the arguments "ls" and "", on a stack at 0xFF00. -/
theorem exec_arguments_ls : ∃ len argStack, execv [[0x6C, 0x73], []] 0xFF00 (fun _ => 0xCC) =
      .ok (len, argStack) ∧
    ∃ g, argVector procImageSizeDefault ⟨9, MsgType.exec.code, 0, 1, BitVec.ofNat 32 len, 0, 0, 0,
        0x3000, 0xFF00⟩ argStack = .ok (2, g) ∧
      argBlock procImageSizeDefault ⟨9, MsgType.exec.code, 0, 1, BitVec.ofNat 32 len, 0, 0, 0,
        0x3000, 0xFF00⟩ argStack = .ok g ∧
      Arguments (origStack procImageSizeDefault) len [[0x6C, 0x73], []] g ∧
      len < procOriginStack ∧
      (origStack procImageSizeDefault).toNat + procOriginStack = procImageSizeDefault.toNat ∧
      ∀ x, len ≤ x → argStack x = 0xCC ∧ g x = argStack x :=
  ⟨16, _, rfl, @exec_arguments [[0x6C, 0x73], []] _ _ _ _ _ _ rfl (by decide) ⟨rfl, rfl⟩
    fun _ _ => rfl⟩

variable {mem : Mem} {k : Kernel} {src : Slot}

/-- So the image of the caller ends with its arguments, and the rest of the memory is as before. -/
theorem Forked.copyArgs_arguments (hf : Forked k src)
    (hexecv : execv argv buf init = .ok (len, argStack))
    (hbuf : buf.toNat + procOriginStack ≤ 2 ^ 32)
    (hmsg : msg.bufLen = BitVec.ofNat 32 len ∧ msg.buf = buf)
    (hargs : ∀ i < len, bytesAt mem (((k.procTable src).ldts 1).linear + buf) i = argStack i) :
    ∃ mem', copyArgs k src procImageSizeDefault msg mem = .ok mem' ∧
      Arguments (origStack procImageSizeDefault) len argv
        (bytesAt mem' (((k.procTable src).ldts 1).linear + origStack procImageSizeDefault)) ∧
      ∀ x, ¬ Within x (((k.procTable src).ldts 1).linear + origStack procImageSizeDefault)
        procOriginStack → mem' x = mem x := by
  have hlen := execv_len hexecv
  have hsize : procOriginStack = 0x400 := rfl
  have hlen' : msg.bufLen.toNat = len := by
    rw [hmsg.1, BitVec.toNat_ofNat]
    omega
  obtain ⟨g, hg, harguments, -⟩ := argVector_eq hexecv hbuf hmsg hargs
  refine ⟨poke mem (((k.procTable src).ldts 1).linear + origStack procImageSizeDefault) len g,
    ?_, harguments.congr fun x hx => ?_, fun x hx => ?_⟩
  · unfold copyArgs
    rw [if_neg (by omega), hf.va2la, hf.va2la, hlen', hmsg.2]
    change (argBlock _ _ _ >>= _) = _
    rw [argBlock_eq_of_argVector hg]
    rfl
  · exact poke_add hx (by omega)
  · exact poke_of_not_within fun hw => hx (Nat.lt_trans hw hlen)

end

end MyOS
