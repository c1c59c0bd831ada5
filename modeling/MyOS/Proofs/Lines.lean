import MyOS.Lines
import MyOS.Proofs.Readers
import MyOS.Main

/-!
# Terminals edit lines

`tty_dev_write` keeps no line: it has two counters, and the characters are where the reader wants
them. The counters move against each other, so what the terminal has stored and not taken back is
the line.
-/

namespace MyOS

open Memory

variable {n : ℕ} {la : Addr} {ch : Byte} {t t' : Tty} {ev : List TtyEvent} {s s' : LineSys}
  {acts : List LineAct}

/-! ## The fold -/

theorem edited_snoc (n : ℕ) (chs : List Byte) (ch : Byte) :
    edited n (chs ++ [ch]) = (edited n chs).type n ch := by
  simp [edited]

theorem charsOf_char (acts : List LineAct) (ch : Byte) :
    charsOf (.char ch :: acts) = charsOf acts ++ [ch] := by
  simp [charsOf]

theorem charsOf_key (acts : List LineAct) (key : BitVec 32) :
    charsOf (.key key :: acts) = charsOf acts := by
  simp [charsOf]

/-- The comparisons of `tty_dev_write` are signed ones. -/
theorem printable_iff (ch : Byte) :
    (space.toInt ≤ ch.toInt ∧ ch.toInt ≤ tilde.toInt) ↔ Printable ch := by
  have hspace : space.toInt = 32 := rfl
  have htilde : tilde.toInt = 126 := rfl
  have hnat : Printable ch ↔ 32 ≤ ch.toNat ∧ ch.toNat ≤ 126 := Iff.rfl
  rw [hspace, htilde, hnat, BitVec.toInt_eq_toNat_cond]
  split_ifs <;> omega

/-! ## The terminal -/

/-- The terminal serves the reader of `msg`, whose buffer of `n` bytes at `la` holds the text. -/
structure HoldsText (n : ℕ) (la : Addr) (msg : Message) (mem₀ : Mem) (text : List Byte)
    (s : LineSys) : Prop where
  caller : s.tty.ttyCaller = msg.source.toInt
  procnr : s.tty.ttyProcnr = msg.procNr.toInt
  reqBuf : s.tty.ttyReqBuf = la
  trans : s.tty.ttyTransCnt.toNat = text.length
  room : text.length ≤ n
  stored : ∀ i, (h : i < text.length) → s.mem (la + BitVec.ofNat 32 i) = text[i]
  outside : ∀ x, ¬ Within x la n → s.mem x = mem₀ x

/-- And it waits for more, or has reported the line. -/
structure HoldsLine (n : ℕ) (la : Addr) (msg : Message) (mem₀ : Mem) (l : Line) (s : LineSys) :
    Prop extends HoldsText n la msg mem₀ l.text s where
  waits : l.complete = false →
    l.text.length < n ∧ s.tty.ttyLeftCnt.toNat = n - l.text.length ∧ s.sent = []
  reported : l.complete = true → s.tty.ttyLeftCnt = 0 ∧
    s.sent = [⟨msg.source.toInt, msg.procNr.toInt, BitVec.ofNat 32 l.text.length⟩]

section

variable {msg : Message} {mem₀ : Mem} {text : List Byte} {l : Line}

/-- The ring is no part of it, and neither is what is left to read. -/
theorem HoldsText.congr (h : HoldsText n la msg mem₀ text s)
    (hcaller : s'.tty.ttyCaller = s.tty.ttyCaller) (hprocnr : s'.tty.ttyProcnr = s.tty.ttyProcnr)
    (hbuf : s'.tty.ttyReqBuf = s.tty.ttyReqBuf) (htrans : s'.tty.ttyTransCnt = s.tty.ttyTransCnt)
    (hmem : s'.mem = s.mem) : HoldsText n la msg mem₀ text s' where
  caller := hcaller.trans h.caller
  procnr := hprocnr.trans h.procnr
  reqBuf := hbuf.trans h.reqBuf
  trans := by rw [htrans, h.trans]
  room := h.room
  stored := by rw [hmem]; exact h.stored
  outside := by rw [hmem]; exact h.outside

/-- The events leave the terminal to itself. -/
theorem foldl_emit_tty (x y : Tty) : ∀ (ev : List TtyEvent) (s : LineSys),
    ev.foldl LineSys.emit { s with tty := y } =
      { ev.foldl LineSys.emit { s with tty := x } with tty := y }
  | [], _ => rfl
  | e :: ev, s => by
    cases e with
    | outChar ch => exact foldl_emit_tty x y ev s
    | store la ch => exact foldl_emit_tty x y ev { s with mem := Function.update s.mem la ch }
    | resume caller procNr cnt =>
      exact foldl_emit_tty x y ev { s with sent := ⟨caller, procNr, cnt⟩ :: s.sent }

theorem putKey_reqBuf (t : Tty) (key : BitVec 32) : (putKey t key).ttyReqBuf = t.ttyReqBuf := by
  unfold putKey
  split <;> rfl

/-- A character is stored behind the text. -/
theorem HoldsText.append (h : HoldsText n la msg mem₀ text s) (hn : n ≤ 2 ^ 31)
    (hroom : text.length < n) (ch : Byte) :
    HoldsText n la msg mem₀ (text ++ [ch])
      { s with
        tty := { s.tty with
          ttyTransCnt := s.tty.ttyTransCnt + 1
          ttyLeftCnt := s.tty.ttyLeftCnt - 1 }
        mem := Function.update s.mem (s.tty.ttyReqBuf + s.tty.ttyTransCnt) ch } := by
  have htrans := h.trans
  have hat : s.tty.ttyReqBuf + s.tty.ttyTransCnt = la + BitVec.ofNat 32 text.length := by
    rw [h.reqBuf, ← htrans, BitVec.ofNat_toNat, BitVec.setWidth_eq]
  refine ⟨h.caller, h.procnr, h.reqBuf, ?_, ?_, fun i hi => ?_, fun x hx => ?_⟩
  · rw [List.length_append, List.length_singleton]
    dsimp only
    bv_omega
  · rw [List.length_append, List.length_singleton]
    omega
  · rw [List.length_append, List.length_singleton] at hi
    simp only [hat, Function.update_apply]
    by_cases hlast : i = text.length
    · subst hlast
      simp
    · rw [if_neg (by bv_omega), h.stored i (by omega), List.getElem_append_left]
  · simp only [hat, Function.update_apply]
    rw [if_neg ?_]
    · exact h.outside x hx
    · rintro rfl
      exact hx (within_add_ofNat la hroom (by omega))

/-- The last character is taken back. -/
theorem HoldsText.dropLast (h : HoldsText n la msg mem₀ text s) (hne : text ≠ [])
    (hn : n ≤ 2 ^ 31) : HoldsText n la msg mem₀ text.dropLast
      { s with
        tty := { s.tty with
          ttyTransCnt := s.tty.ttyTransCnt - 1
          ttyLeftCnt := s.tty.ttyLeftCnt + 1 } } := by
  have htrans := h.trans
  have hroom := h.room
  have hpos := List.length_pos_of_ne_nil hne
  refine ⟨h.caller, h.procnr, h.reqBuf, ?_, ?_, fun i hi => ?_, h.outside⟩
  · rw [List.length_dropLast]
    dsimp only
    bv_omega
  · rw [List.length_dropLast]
    omega
  · rw [List.length_dropLast] at hi
    rw [List.getElem_dropLast]
    exact h.stored i (by omega)

/-- The editing stores and takes back what the line gets and loses. -/
theorem HoldsText.editLine (h : HoldsText n la msg mem₀ text s) (hla : la ≠ 0) (hn : n ≤ 2 ^ 31)
    (hroom : text.length < n) (hleft : s.tty.ttyLeftCnt.toNat = n - text.length) (ch : Byte) :
    ∃ t ev, MyOS.editLine s.tty ch = .ok (t, ev) ∧
      HoldsText n la msg mem₀ (retyped text ch) (ev.foldl LineSys.emit { s with tty := t }) ∧
      t.ttyLeftCnt.toNat = n - (retyped text ch).length ∧
      (ev.foldl LineSys.emit { s with tty := t }).tty = t ∧
      (ev.foldl LineSys.emit { s with tty := t }).sent = s.sent := by
  have htrans := h.trans
  unfold MyOS.editLine retyped
  rw [if_congr (printable_iff ch) rfl rfl]
  by_cases hprint : Printable ch
  · have hbuf : s.tty.ttyReqBuf ≠ 0 := h.reqBuf ▸ hla
    rw [if_pos hprint, if_pos hprint, assert_of hbuf]
    refine ⟨_, _, rfl, h.append hn hroom ch, ?_, rfl, rfl⟩
    rw [List.length_append, List.length_singleton]
    dsimp only
    bv_omega
  rw [if_neg hprint, if_neg hprint]
  by_cases hback : ch = backspace
  · rw [if_pos hback]
    by_cases hempty : text = []
    · have hzero : s.tty.ttyTransCnt = 0 := by
        rw [hempty, List.length_nil] at htrans
        bv_omega
      rw [if_neg (by simp [hzero])]
      refine ⟨_, _, rfl, ?_, ?_, rfl, rfl⟩
      · rwa [hempty, List.dropLast_nil, ← hempty]
      · rwa [hempty, List.dropLast_nil, ← hempty]
    · have hpos := List.length_pos_of_ne_nil hempty
      rw [if_pos ⟨hback, by bv_omega⟩]
      refine ⟨_, _, rfl, h.dropLast hempty hn, ?_, rfl, rfl⟩
      rw [List.length_dropLast]
      dsimp only
      bv_omega
  · rw [if_neg hback, if_neg (fun hc => hback hc.1)]
    exact ⟨_, _, rfl, h, hleft, rfl, rfl⟩

theorem retyped_length_le (hroom : text.length < n) (ch : Byte) : (retyped text ch).length ≤ n := by
  unfold retyped
  split_ifs
  · rw [List.length_append, List.length_singleton]
    omega
  · rw [List.length_dropLast]
    omega
  · omega

/-- A turn of `tty_dev_write` is a character of the line, and the one that completes it is
reported. -/
theorem HoldsLine.takeChar (h : HoldsLine n la msg mem₀ l s) (hla : la ≠ 0) (hn : n ≤ 2 ^ 31)
    (hproc : msg.procNr.toInt ≠ noTask) (ch : Byte) :
    ∃ t ev, MyOS.takeChar s.tty ch = .ok (t, ev) ∧
      HoldsLine n la msg mem₀ (l.type n ch) (ev.foldl LineSys.emit { s with tty := t }) := by
  by_cases hdone : l.complete = true
  · obtain ⟨hleft, -⟩ := h.reported hdone
    refine ⟨_, _, takeChar_idle hleft ch, ?_⟩
    rwa [Line.type, if_pos hdone]
  have hwaits := Bool.not_eq_true _ ▸ hdone
  obtain ⟨hroom, hleft, hsent⟩ := h.waits hwaits
  obtain ⟨t, ev, hedit, htext, hleft', htty, hsent'⟩ := h.toHoldsText.editLine hla hn hroom hleft ch
  have hle := retyped_length_le hroom ch
  have hzero : t.ttyLeftCnt = 0 ↔ (retyped l.text ch).length = n := by
    have h0 : (0 : BitVec 32).toNat = 0 := rfl
    rw [← BitVec.toNat_inj, hleft', h0]
    omega
  have hproc' : t.ttyProcnr ≠ noTask := by
    have hprocnr := htext.procnr
    rw [htty] at hprocnr
    rwa [hprocnr]
  unfold MyOS.takeChar
  rw [if_pos (by bv_omega), hedit, ok_bind, Line.type, if_neg hdone]
  dsimp only
  by_cases hend : ch = newline ∨ (retyped l.text ch).length = n
  · rw [if_pos (hend.imp_right hzero.2), assert_of hproc']
    refine ⟨_, _, rfl, ?_⟩
    rw [List.foldl_append, foldl_emit_tty t { t with ttyLeftCnt := 0 } ev s]
    generalize ev.foldl LineSys.emit { s with tty := t } = r at htext htty hsent' ⊢
    subst htty
    refine ⟨htext.congr rfl rfl rfl rfl rfl, fun hc => ?_, fun _ => ⟨rfl, ?_⟩⟩
    · exact absurd hend (of_decide_eq_false hc)
    · simp only [List.foldl_cons, List.foldl_nil, LineSys.emit, hsent', hsent, htext.caller,
        htext.procnr, ← htext.trans, BitVec.ofNat_toNat, BitVec.setWidth_eq]
  · rw [if_neg fun hc => hend (hc.imp_right hzero.1)]
    refine ⟨_, _, rfl, htext, fun _ => ⟨?_, ?_, hsent'.trans hsent⟩, fun hc => ?_⟩
    · have hne : (retyped l.text ch).length ≠ n := fun heq => hend (.inr heq)
      dsimp only
      omega
    · rw [htty, hleft']
    · exact absurd (of_decide_eq_true hc) hend

/-! ## Runs -/

theorem HoldsLine.key (h : HoldsLine n la msg mem₀ l s) (key : BitVec 32) :
    HoldsLine n la msg mem₀ l { s with tty := putKey s.tty key } := by
  have hs := sameRequest_putKey s.tty key
  refine ⟨h.congr hs.caller hs.procnr (putKey_reqBuf _ _) hs.trans rfl, fun hc => ?_, fun hc => ?_⟩
  · dsimp only
    rw [hs.left]
    exact h.waits hc
  · dsimp only
    rw [hs.left]
    exact h.reported hc

/-- The character is taken out of the ring first. -/
theorem HoldsLine.char (h : HoldsLine n la msg mem₀ l s) (hla : la ≠ 0) (hn : n ≤ 2 ^ 31)
    (hproc : msg.procNr.toInt ≠ noTask) (hsome : s.tty.inbufCount ≠ 0) :
    ∃ s', LineStep s (.char (nextChar s.tty).1) s' ∧
      HoldsLine n la msg mem₀ (l.type n (nextChar s.tty).1) s' := by
  have hnext : HoldsLine n la msg mem₀ l { s with tty := (nextChar s.tty).2 } :=
    ⟨h.congr rfl rfl rfl rfl rfl, h.waits, h.reported⟩
  obtain ⟨t, ev, htake, hline⟩ := hnext.takeChar hla hn hproc (nextChar s.tty).1
  refine ⟨_, ?_, hline⟩
  dsimp only at htake
  simp only [LineStep, lineStep, htake]
  rw [if_pos ⟨hsome, trivial⟩]

theorem HoldsLine.step {a : LineAct} (h : HoldsLine n la msg mem₀ (edited n (charsOf acts)) s)
    (hla : la ≠ 0) (hn : n ≤ 2 ^ 31) (hproc : msg.procNr.toInt ≠ noTask) (hs : LineStep s a s') :
    HoldsLine n la msg mem₀ (edited n (charsOf (a :: acts))) s' := by
  cases a with
  | key key =>
    obtain rfl := Option.some.inj hs
    rw [charsOf_key]
    exact h.key key
  | char ch =>
    have hcond : s.tty.inbufCount ≠ 0 ∧ (nextChar s.tty).1 = ch := by
      by_contra hcond
      simp [LineStep, lineStep, hcond] at hs
    obtain ⟨hsome, rfl⟩ := hcond
    obtain ⟨s₁, hs₁, hline⟩ := h.char hla hn hproc hsome
    obtain rfl : s₁ = s' := Option.some.inj (hs₁.symm.trans hs)
    rw [charsOf_char, edited_snoc]
    exact hline

/-- What is promised of a `DEV_READ` that is served for the steps `acts`. -/
structure EditsLine (msg : Message) (la : Addr) (mem₀ : Mem) (acts : List LineAct) (s : LineSys) :
    Prop where
  sent : s.sent = if (edited msg.cnt.toNat (charsOf acts)).complete
    then [⟨msg.source.toInt, msg.procNr.toInt,
      BitVec.ofNat 32 (edited msg.cnt.toNat (charsOf acts)).text.length⟩] else []
  stored : ∀ i, (h : i < (edited msg.cnt.toNat (charsOf acts)).text.length) →
    s.mem (la + BitVec.ofNat 32 i) = (edited msg.cnt.toNat (charsOf acts)).text[i]
  room : (edited msg.cnt.toNat (charsOf acts)).text.length ≤ msg.cnt.toNat
  count : (edited msg.cnt.toNat (charsOf acts)).complete = false →
    s.tty.ttyTransCnt.toInt + s.tty.ttyLeftCnt.toInt = msg.cnt.toInt
  outside : ∀ x, ¬ Within x la msg.cnt.toNat → s.mem x = mem₀ x
  goesOn : s.tty.inbufCount ≠ 0 → ∃ s', LineStep s (.char (nextChar s.tty).1) s'

theorem HoldsLine.start {k : Kernel} {t₀ : Tty} (hcnt : 1 ≤ msg.cnt.toInt)
    (hacc : Accepted k msg la t₀ mem₀ s) : HoldsLine msg.cnt.toNat la msg mem₀ ⟨[], false⟩ s := by
  have hstate := hacc.state
  subst hstate
  refine ⟨⟨rfl, rfl, rfl, rfl, Nat.zero_le _, nofun, fun _ _ => rfl⟩, fun _ => ⟨?_, rfl, rfl⟩,
    nofun⟩
  rw [BitVec.toInt_eq_toNat_cond] at hcnt
  simp only [List.length_nil]
  omega

/-- A terminal that has accepted a `DEV_READ` into a buffer that is not null edits the line. -/
theorem line_edited {k : Kernel} {t₀ : Tty} {s₀ : LineSys} (hcnt : 1 ≤ msg.cnt.toInt)
    (hla : la ≠ 0) (hacc : Accepted k msg la t₀ mem₀ s₀) (hrun : Run (· = s₀) LineStep acts s) :
    EditsLine msg la mem₀ acts s := by
  have hsize : msg.cnt.toNat < 2 ^ 31 := by
    rw [BitVec.toInt_eq_toNat_cond] at hcnt
    omega
  obtain ⟨reader, hreader, -⟩ := hacc.reader
  have hproc : msg.procNr.toInt ≠ noTask := by
    unfold procAt at hreader
    split_ifs at hreader with hin
    have hno : noTask = 57 := rfl
    obtain ⟨hpos, hlt⟩ := hin
    have : (nrTasks + nrProcs : ℕ) = 37 := rfl
    omega
  have h : HoldsLine msg.cnt.toNat la msg mem₀ (edited msg.cnt.toNat (charsOf acts)) s := by
    induction hrun with
    | start h0 => exact .start hcnt (h0 ▸ hacc)
    | snoc _ hs ih => exact ih.step hla hsize.le hproc hs
  refine ⟨?_, h.stored, h.room, fun hc => ?_, h.outside, fun hsome => ?_⟩
  · cases hc : (edited msg.cnt.toNat (charsOf acts)).complete with
    | false => exact (h.waits hc).2.2
    | true => exact (h.reported hc).2
  · obtain ⟨hroom, hleft, -⟩ := h.waits hc
    have htrans := h.trans
    rw [BitVec.toInt_eq_toNat_of_lt (by omega), BitVec.toInt_eq_toNat_of_lt (by omega),
      BitVec.toInt_eq_toNat_of_lt (by omega)]
    omega
  · obtain ⟨s', hs', -⟩ := h.char hla hsize.le hproc hsome
    exact ⟨s', hs'⟩

end

/-- A `DEV_READ` of the file system for `INIT`. -/
def initReads (cnt : BitVec 32) (buf : Addr) : Message :=
  { Message.reset with
    source := 3
    type := MsgType.devRead.code
    m3i2 := cnt
    m3i3 := 5
    m3p2 := buf }

theorem accepted_initReads (cnt : BitVec 32) (buf : Addr) :
    Accepted (kernelMain (fun _ => 0) 0) (initReads cnt buf) buf initTty (fun _ => 0)
      ⟨ttyDoRead initTty 3 buf (initReads cnt buf), fun _ => 0, []⟩ := by
  refine ⟨⟨init, rfl, ?_⟩, rfl⟩
  have hbase : (((kernelMain (fun _ => 0) 0).procTable init).ldts 1).linear = 0 := by decide
  have hla : (0 : BitVec 32) + (initReads cnt buf).buf = buf := BitVec.zero_add _
  unfold va2la
  rw [hbase, hla]
  simp [initReads, assert]

/-- "a" and a newline, of four characters asked for. -/
theorem line_edited_a : ∃ s, Run
    (· = ⟨ttyDoRead initTty 3 0x1000 (initReads 4 0x1000), fun _ => 0, []⟩) LineStep
      [.char 0x0A, .char 0x61, .key 0x0A, .key 0x61] s ∧
    EditsLine (initReads 4 0x1000) 0x1000 (fun _ => 0)
      [.char 0x0A, .char 0x61, .key 0x0A, .key 0x61] s := by
  have hsome : (Run.exec lineStep ⟨ttyDoRead initTty 3 0x1000 (initReads 4 0x1000), fun _ => 0, []⟩
      [.key 0x61, .key 0x0A, .char 0x61, .char 0x0A]).isSome = true := by decide
  obtain ⟨s, hs⟩ := Option.isSome_iff_exists.1 hsome
  have hrun := Run.of_exec (@Run.start _ _ (· = _) _ _ rfl) hs
  exact ⟨s, hrun, line_edited (by decide) (by decide) (accepted_initReads 4 0x1000) hrun⟩

/-- The buffer that `INIT` has at its null pointer gets no character: the line "a" is complete, and
`tty_dev_write` stops. -/
theorem line_to_null : ∃ s, Run
    (· = ⟨ttyDoRead initTty 3 0 (initReads 1 0), fun _ => 0, []⟩) LineStep [.key 0x61] s ∧
    Accepted (kernelMain (fun _ => 0) 0) (initReads 1 0) 0 initTty (fun _ => 0)
      ⟨ttyDoRead initTty 3 0 (initReads 1 0), fun _ => 0, []⟩ ∧
    1 ≤ (initReads 1 0).cnt.toInt ∧ s.tty.inbufCount ≠ 0 ∧ (nextChar s.tty).1 = 0x61 ∧
    (edited 1 [0x61]).complete = true ∧ s.sent = [] ∧ ∀ s', ¬ LineStep s (.char 0x61) s' := by
  refine ⟨_, .snoc (.start rfl) rfl, accepted_initReads 1 0, by decide, by decide, by decide,
    by decide, rfl, fun s' hs => ?_⟩
  have hnone : lineStep ⟨putKey (ttyDoRead initTty 3 0 (initReads 1 0)) 0x61, fun _ => 0, []⟩
      (.char 0x61) = none := by decide
  exact Option.some_ne_none s' (hs.symm.trans hnone)

end MyOS
