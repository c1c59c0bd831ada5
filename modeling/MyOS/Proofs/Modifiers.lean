import MyOS.KeyEvents
import MyOS.Rings
import Mathlib.Data.List.GetD

/-!
# The keys that are held

`keyboard_read` has a variable for each of the six keys that are held, and every other key reaches
`in_process` with the bits of those that are. The right `Alt` key sets the variable of the left one.
So the variables follow the keys where the right one is never pressed, and is let go only while the
left one is not held.
-/

namespace MyOS

open Memory

/-- A key that is held while others are pressed. -/
inductive Modifier
  | shiftL
  | shiftR
  | ctrlL
  | ctrlR
  | altL
  | altR
  deriving DecidableEq

namespace Modifier

/-- The variable of `keyboard.c`. -/
def var (held : Held) : Modifier → Bool
  | shiftL => held.shiftL
  | shiftR => held.shiftR
  | ctrlL => held.ctrlL
  | ctrlR => held.ctrlR
  | altL => held.altL
  | altR => held.altR

def flag : Modifier → BitVec 32
  | shiftL => flagShiftL
  | shiftR => flagShiftR
  | ctrlL => flagCtrlL
  | ctrlR => flagCtrlR
  | altL => flagAltL
  | altR => flagAltR

/-- The number of the bit. -/
def bit : Modifier → ℕ
  | shiftL => 9
  | shiftR => 10
  | ctrlL => 11
  | ctrlR => 12
  | altL => 13
  | altR => 14

/-- The key whose variable `keyboard_read` sets for a key. -/
def stored : Modifier → Modifier
  | altR => altL
  | m => m

theorem flag_eq (m : Modifier) : m.flag = BitVec.twoPow 32 m.bit := by cases m <;> rfl

theorem and_flag_ne_zero (m : Modifier) (x : BitVec 32) :
    x &&& m.flag ≠ 0 ↔ x.getLsbD m.bit = true := by
  rw [flag_eq, BitVec.and_twoPow]
  split_ifs with h
  · refine iff_of_true ?_ h
    cases m <;> decide
  · exact iff_of_false (fun hn => hn rfl) h

end Modifier

/-- The keys with these codes, and with these codes behind `E0`. -/
def plainModifier (code : Byte) : Option Modifier :=
  if code = 0x2A then some .shiftL
  else if code = 0x36 then some .shiftR
  else if code = 0x1D then some .ctrlL
  else if code = 0x38 then some .altL
  else none

def extModifier (code : Byte) : Option Modifier :=
  if code = 0x1D then some .ctrlR
  else if code = 0x38 then some .altR
  else none

/-- What happens to which of the six keys. -/
def KeyEvent.of : KeyEvent → Option (Modifier × Bool)
  | .plain code make => (plainModifier code).map (·, make)
  | .ext code make => (extModifier code).map (·, make)
  | .printScreen _ => none
  | .pause => none

/-- The last event of the key, newest first, was a make. -/
def pressed (m : Modifier) : List KeyEvent → Bool
  | [] => false
  | e :: es =>
    match e.of with
    | some (m', make) => if m' = m then make else pressed m es
    | none => pressed m es

/-- The variables say which keys are held, and so do the bits of the key passed on. -/
def NamesHeld (es : List KeyEvent) (s : KeySys) : Prop :=
  ∀ m : Modifier, m.var s.held = pressed m es ∧
    ∀ key ∈ s.passed, (key &&& m.flag ≠ 0 ↔ pressed m es = true)

/-- The right `Alt` key is never pressed, and let go only while the left one is not held. -/
def RightAltUnused : List KeyEvent → Prop
  | [] => True
  | e :: es => RightAltUnused es ∧ e.of ≠ some (.altR, true) ∧
      (e.of = some (.altR, false) → pressed .altL es = false)

/-! ## The codes of a key -/

variable {kb : KbInput} {l : List Byte} {held : Held}

theorem holds_getByte {b : Byte} (h : kb.ring.Holds kbInBytes (b :: l)) :
    (getByteFromKbuf kb).1 = b ∧ (getByteFromKbuf kb).2.ring.Holds kbInBytes l := by
  have hc : 0 < kb.count := by
    have := h.count
    simp only [KbInput.ring, RingBuf.ofFin, List.length_cons] at this
    omega
  obtain ⟨hb, hp⟩ := h.pop
  refine ⟨(RingBuf.ofFin_cell _ _ _ kb.count).symm.trans hb, ?_⟩
  have he : (getByteFromKbuf kb).2.ring = kb.ring.pop kbInBytes :=
    (RingBuf.ofFin_pop kb.buf kb.head kb.tail hc).symm
  rwa [he]

theorem holds_keyboardHandler (h : kb.ring.Holds kbInBytes l) (hroom : l.length < kbInBytes)
    (c : Byte) : (keyboardHandler kb c).ring.Holds kbInBytes (l ++ [c]) := by
  have hc : kb.count < kbInBytes := by
    have := h.count
    simp only [KbInput.ring, RingBuf.ofFin] at this
    omega
  have he : (keyboardHandler kb c).ring = kb.ring.push kbInBytes c := by
    rw [keyboardHandler, if_pos hc]
    exact (RingBuf.ofFin_push kb.buf kb.head kb.tail kb.count c).symm
  rw [he]
  exact h.push hroom c

theorem holds_foldl_keyboardHandler : ∀ (cs : List Byte) {kb : KbInput} {l : List Byte},
    kb.ring.Holds kbInBytes l → (l ++ cs).length ≤ kbInBytes →
      (cs.foldl keyboardHandler kb).ring.Holds kbInBytes (l ++ cs)
  | [], _, _, h, _ => by simpa using h
  | c :: cs, kb, l, h, hroom => by
    have hl : l.length < kbInBytes := by
      simp only [List.length_append, List.length_cons] at hroom
      omega
    have ih := holds_foldl_keyboardHandler cs (holds_keyboardHandler h hl c)
      (by simpa [Nat.add_assoc, Nat.add_comm] using hroom)
    simpa using ih

/-- What `keyboard_read` makes of codes that are those of one key, no more and no less. -/
def readCodes (held : Held) : Scan → List Byte → Option (Held × Option (BitVec 32))
  | _, [] => none
  | sc, b :: l =>
    match scanByte sc b with
    | .more sc => readCodes held sc l
    | .key scanCode codeWithE0 =>
      if l = [] then some (decodeKey held scanCode codeWithE0) else none
    | .special => if l = [] then some (held, none) else none

theorem keyboardReadFrom_of_readCodes {r : Held × Option (BitVec 32)} :
    ∀ {l : List Byte} {kb : KbInput} {sc : Scan}, kb.ring.Holds kbInBytes l →
      readCodes held sc l = some r → ∃ kb', keyboardReadFrom held l.length kb sc = some (kb', r) ∧
        kb'.ring.Holds kbInBytes []
  | [], _, _, _, h => by simp [readCodes] at h
  | b :: l, kb, sc, hkb, h => by
    obtain ⟨hb, hkb'⟩ := holds_getByte hkb
    rw [readCodes] at h
    rw [List.length_cons, keyboardReadFrom]
    dsimp only
    rw [hb]
    cases hsc : scanByte sc b with
    | more sc' =>
      rw [hsc] at h
      exact keyboardReadFrom_of_readCodes hkb' h
    | key scanCode codeWithE0 =>
      rw [hsc] at h
      obtain ⟨rfl, hr⟩ := Option.ite_none_right_eq_some.1 h
      obtain rfl := Option.some.inj hr
      exact ⟨_, rfl, hkb'⟩
    | special =>
      rw [hsc] at h
      obtain ⟨rfl, hr⟩ := Option.ite_none_right_eq_some.1 h
      obtain rfl := Option.some.inj hr
      exact ⟨_, rfl, hkb'⟩

/-- What comes of an event. -/
def KeyEvent.decode (held : Held) : KeyEvent → Held × Option (BitVec 32)
  | .plain code make => decodeKey held (breakOf code make) false
  | .ext code make => decodeKey held (breakOf code make) true
  | .printScreen _ => (held, none)
  | .pause => (held, none)

/-- What can be tried for each number of a byte. -/
theorem forall_byte {p : Byte → Prop} (h : ∀ n < 256, p (BitVec.ofNat 8 n)) (c : Byte) : p c := by
  have hc := h c.toNat c.isLt
  rwa [BitVec.ofNat_toNat, BitVec.setWidth_eq] at hc

theorem scanByte_plain : ∀ c : Byte, c &&& flagBreak = 0 → c ≠ 0x60 → c ≠ 0x61 → ∀ make,
    scanByte .start (breakOf c make) = .key (breakOf c make) false :=
  forall_byte (by decide +kernel)

theorem scanByte_ext : ∀ c : Byte, c &&& flagBreak = 0 → c ≠ 0x2A → c ≠ 0x37 → ∀ make,
    scanByte .e0 (breakOf c make) = .key (breakOf c make) true :=
  forall_byte (by decide +kernel)

theorem readCodes_codes (held : Held) (e : KeyEvent) :
    readCodes held .start e.codes = some (e.decode held) := by
  cases e with
  | plain code make =>
    obtain ⟨c, h1, h2, h3⟩ := code
    simp only [KeyEvent.codes, readCodes, scanByte_plain c h1 h2 h3 make]
    rfl
  | ext code make =>
    obtain ⟨c, h1, h2, h3⟩ := code
    have h0 : scanByte .start 0xE0 = .more .e0 := rfl
    simp only [KeyEvent.codes, readCodes, h0, scanByte_ext c h1 h2 h3 make]
    rfl
  | printScreen make => cases make <;> rfl
  | pause => rfl

theorem codes_length (e : KeyEvent) : e.codes.length ≤ 6 := by
  cases e with
  | plain | ext | pause => simp [KeyEvent.codes, pausebrkScode]
  | printScreen make => cases make <;> simp [KeyEvent.codes]

/-- `keyboard_read` reads the codes of a key and leaves the buffer empty. -/
theorem keyStep_spec {s : KeySys} (h : s.kbIn.ring.Holds kbInBytes []) (e : KeyEvent) :
    ∃ s', keyStep s e = some s' ∧ s'.kbIn.ring.Holds kbInBytes [] ∧
      (s'.held, s'.passed) = e.decode s.held := by
  have hfull : (e.codes.foldl keyboardHandler s.kbIn).ring.Holds kbInBytes e.codes := by
    have hlen : kbInBytes = 32 := rfl
    have := codes_length e
    simpa using holds_foldl_keyboardHandler e.codes h (by
      rw [List.nil_append]
      omega)
  have hc : (e.codes.foldl keyboardHandler s.kbIn).count = e.codes.length := by
    have := hfull.count
    simp only [KbInput.ring, RingBuf.ofFin] at this
    omega
  obtain ⟨kb', hr, hkb'⟩ := keyboardReadFrom_of_readCodes hfull (readCodes_codes s.held e)
  refine ⟨⟨kb', (e.decode s.held).1, (e.decode s.held).2⟩, ?_, hkb', rfl⟩
  rw [keyStep, keyboardRead, hc, hr]
  rfl

/-! ## What a key does to the variables -/

/-- The modifier an entry of `keymap` stands for. -/
def modifierOf (key : BitVec 32) : Option Modifier :=
  if key = keyShiftL then some .shiftL
  else if key = keyShiftR then some .shiftR
  else if key = keyCtrlL then some .ctrlL
  else if key = keyCtrlR then some .ctrlR
  else if key = keyAltL then some .altL
  else if key = keyAltR then some .altR
  else none

/-- The variable of `m` after an event of the key of `o`. -/
def storeIn (m : Modifier) (v : Bool) : Option (Modifier × Bool) → Bool
  | some (m', make) => if m'.stored = m then make else v
  | none => v

theorem holdKey_var (held : Held) (key : BitVec 32) (make : Bool) (m : Modifier) :
    m.var (holdKey held key make) =
      storeIn m (m.var held) ((modifierOf key).map (·, make)) := by
  unfold holdKey modifierOf
  split_ifs <;> cases m <;> rfl

theorem keymap_plain : ∀ c : Byte, c &&& flagBreak = 0 →
    modifierOf (keymap.getD (c &&& 0x7F).toNat (0, 0, 0)).1 = plainModifier c ∧
      modifierOf (keymap.getD (c &&& 0x7F).toNat (0, 0, 0)).2.1 = plainModifier c :=
  forall_byte (by decide +kernel)

theorem keymap_ext : ∀ c : Byte, c &&& flagBreak = 0 →
    modifierOf (keymap.getD (c &&& 0x7F).toNat (0, 0, 0)).2.2 = extModifier c :=
  forall_byte (by decide +kernel)

theorem breakOf_code : ∀ c : Byte, c &&& flagBreak = 0 → ∀ make,
    breakOf c make &&& 0x7F = c &&& 0x7F ∧ decide (breakOf c make &&& flagBreak = 0) = make :=
  forall_byte (by decide +kernel)

theorem keyOf_cases (held : Held) (c : Byte) :
    keyOf held c false = (keymap.getD (c &&& 0x7F).toNat (0, 0, 0)).1 ∨
      keyOf held c false = (keymap.getD (c &&& 0x7F).toNat (0, 0, 0)).2.1 := by
  unfold keyOf
  dsimp only
  rw [if_neg Bool.false_ne_true]
  split_ifs
  all_goals first | exact .inl rfl | exact .inr rfl

theorem decodeKey_fst (held : Held) (c : Byte) (codeWithE0 : Bool) :
    (decodeKey held c codeWithE0).1 =
      holdKey held (keyOf held c codeWithE0) (decide (c &&& flagBreak = 0)) := by
  unfold decodeKey
  dsimp only
  split_ifs <;> rfl

theorem decode_var (held : Held) (e : KeyEvent) (m : Modifier) :
    m.var (e.decode held).1 = storeIn m (m.var held) e.of := by
  cases e with
  | plain code make =>
    obtain ⟨c, hc, -⟩ := code
    obtain ⟨hcode, hmake⟩ := breakOf_code c hc make
    have hkey : modifierOf (keyOf held (breakOf c make) false) = plainModifier c := by
      rcases keyOf_cases held (breakOf c make) with h | h <;> rw [h, hcode]
      · exact (keymap_plain c hc).1
      · exact (keymap_plain c hc).2
    rw [KeyEvent.decode, decodeKey_fst, holdKey_var, hmake, hkey]
    rfl
  | ext code make =>
    obtain ⟨c, hc, -⟩ := code
    obtain ⟨hcode, hmake⟩ := breakOf_code c hc make
    have hkey : modifierOf (keyOf held (breakOf c make) true) = extModifier c := by
      have : keyOf held (breakOf c make) true =
        (keymap.getD (breakOf c make &&& 0x7F).toNat (0, 0, 0)).2.2 := rfl
      rw [this, hcode]
      exact keymap_ext c hc
    rw [KeyEvent.decode, decodeKey_fst, holdKey_var, hmake, hkey]
    rfl
  | printScreen | pause => rfl

/-! ## The key passed on -/

theorem keymap_lt : ∀ row ∈ keymap, row.1 < 0x200 ∧ row.2.1 < 0x200 ∧ row.2.2 < 0x200 := by
  have hall : keymap.all fun row => row.1 < 0x200 ∧ row.2.1 < 0x200 ∧ row.2.2 < 0x200 := by
    decide +kernel
  intro row hrow
  exact of_decide_eq_true (List.all_eq_true.1 hall row hrow)

theorem keyOf_lt (held : Held) (c : Byte) (codeWithE0 : Bool) :
    keyOf held c codeWithE0 < 0x200 := by
  have hrow : ∀ i, (keymap.getD i (0, 0, 0)).1 < 0x200 ∧ (keymap.getD i (0, 0, 0)).2.1 < 0x200 ∧
      (keymap.getD i (0, 0, 0)).2.2 < 0x200 := by
    intro i
    rcases lt_or_ge i keymap.length with hi | hi
    · rw [List.getD_eq_getElem _ _ hi]
      exact keymap_lt _ (List.getElem_mem hi)
    · rw [List.getD_eq_default _ _ hi]
      decide
  unfold keyOf
  dsimp only
  split_ifs
  · exact (hrow _).2.2
  all_goals first | exact (hrow _).2.1 | exact (hrow _).1

theorem padDigit_lt {key : BitVec 32} (h0 : keyPad 0 ≤ key) (h9 : key ≤ keyPad 9) :
    key - keyPad 0 + chr '0' < 0x200 := by
  have hpad0 : keyPad 0 = 0x132 := rfl
  have hpad9 : keyPad 9 = 0x13B := rfl
  have hzero : chr '0' = 0x30 := rfl
  rw [hpad0] at h0 ⊢
  rw [hpad9] at h9
  rw [hzero]
  bv_omega

theorem padKey_lt (held : Held) {key : BitVec 32} (h : key < 0x200) : padKey held key < 0x200 := by
  unfold padKey
  iterate 5 refine iteInduction (motive := (· < 0x200)) (fun _ => by decide) fun _ => ?_
  refine iteInduction (motive := (· < 0x200)) (fun hnum => padDigit_lt hnum.2.1 hnum.2.2)
    fun _ => ?_
  iterate 11 refine iteInduction (motive := (· < 0x200)) (fun _ => by decide) fun _ => ?_
  exact h

theorem getLsbD_of_lt {key : BitVec 32} (h : key < 0x200) (m : Modifier) :
    key.getLsbD m.bit = false := by
  have hlt : key.toNat < 2 ^ m.bit := by
    have : (2 : ℕ) ^ 9 ≤ 2 ^ m.bit := Nat.pow_le_pow_right (by decide) (by cases m <;> decide)
    have : key.toNat < 512 := h
    omega
  exact Nat.testBit_lt_two_pow hlt

theorem flags_getLsbD (held : Held) {key : BitVec 32} (h : key < 0x200) (pad : Bool)
    (m : Modifier) :
    (key ||| (if held.shiftL then flagShiftL else 0) |||
      (if held.shiftR then flagShiftR else 0) ||| (if held.ctrlL then flagCtrlL else 0) |||
      (if held.ctrlR then flagCtrlR else 0) ||| (if held.altL then flagAltL else 0) |||
      (if held.altR then flagAltR else 0) ||| if pad then flagPad else 0).getLsbD m.bit =
      m.var held := by
  have hif (b : Bool) (x : BitVec 32) (i : ℕ) :
      (if b then x else 0).getLsbD i = (b && x.getLsbD i) := by
    cases b <;> simp
  simp only [BitVec.getLsbD_or, hif, getLsbD_of_lt h m]
  cases m <;> simp [Modifier.bit, Modifier.var, flagShiftL, flagShiftR, flagCtrlL, flagCtrlR,
    flagAltL, flagAltR, flagPad]

/-- A key is passed on with the bits of the keys held. -/
theorem decodeKey_snd {held : Held} {c : Byte} {codeWithE0 : Bool} {key : BitVec 32}
    (h : (decodeKey held c codeWithE0).2 = some key) (m : Modifier) :
    key &&& m.flag ≠ 0 ↔ m.var (decodeKey held c codeWithE0).1 = true := by
  rw [m.and_flag_ne_zero, decodeKey_fst]
  unfold decodeKey at h
  dsimp only at h
  by_cases hmake : decide (c &&& flagBreak = 0) = true
  · rw [if_pos hmake] at h
    obtain rfl := Option.some.inj h
    rw [flags_getLsbD]
    split_ifs
    · exact padKey_lt _ (keyOf_lt _ _ _)
    · exact keyOf_lt _ _ _
  · rw [if_neg hmake] at h
    cases h

theorem decode_passed {held : Held} {e : KeyEvent} {key : BitVec 32}
    (h : (e.decode held).2 = some key) (m : Modifier) :
    key &&& m.flag ≠ 0 ↔ m.var (e.decode held).1 = true := by
  cases e with
  | plain | ext => exact decodeKey_snd h m
  | printScreen | pause => cases h

/-! ## Runs -/

/-- What the variable of a key has after the events. -/
def stored (m : Modifier) : List KeyEvent → Bool
  | [] => false
  | e :: es => storeIn m (stored m es) e.of

structure KeyInv (es : List KeyEvent) (s : KeySys) : Prop where
  empty : s.kbIn.ring.Holds kbInBytes []
  var : ∀ m : Modifier, m.var s.held = stored m es
  passed : ∀ key ∈ s.passed, ∀ m : Modifier, (key &&& m.flag ≠ 0 ↔ m.var s.held = true)

namespace KeyInv

variable {es : List KeyEvent} {s s' : KeySys} {e : KeyEvent}

theorem start (h : KeyStart s) : KeyInv [] s := by
  obtain ⟨hc, hh, ht, hheld, hpassed⟩ := h
  refine ⟨?_, fun m => ?_, ?_⟩
  · have : s.kbIn.ring = ⟨s.kbIn.ring.cell, 0, 0, 0⟩ := by
      simp [KbInput.ring, RingBuf.ofFin, hc, hh, ht]
    rw [this]
    exact .empty (by decide)
  · rw [hheld]
    cases m <;> rfl
  · rw [hpassed]
    intro key hkey
    cases hkey

theorem step (h : KeyInv es s) (hs : KeyStep s e s') : KeyInv (e :: es) s' := by
  obtain ⟨s₁, hs₁, hempty, hd⟩ := keyStep_spec h.empty e
  obtain rfl := Option.some.inj (hs₁.symm.trans hs)
  have hheld : s₁.held = (e.decode s.held).1 := congrArg Prod.fst hd
  have hpassed : s₁.passed = (e.decode s.held).2 := congrArg Prod.snd hd
  refine ⟨hempty, fun m => ?_, fun key hkey m => ?_⟩
  · rw [hheld, decode_var, h.var]
    rfl
  · rw [hheld]
    exact decode_passed (hpassed.symm.trans hkey) m

theorem of_run (hr : Run KeyStart KeyStep es s) : KeyInv es s :=
  hr.invariant (fun _ hs => start hs) fun _ _ _ _ hi hs => hi.step hs

end KeyInv

theorem exists_run : ∀ es : List KeyEvent, ∃ s, Run KeyStart KeyStep es s
  | [] => ⟨⟨⟨fun _ => 0, 0, 0, 0⟩, initHeld, none⟩, .start ⟨rfl, rfl, rfl, rfl, rfl⟩⟩
  | e :: es => by
    obtain ⟨s, hr⟩ := exists_run es
    obtain ⟨s', hs, -⟩ := keyStep_spec (KeyInv.of_run hr).empty e
    exact ⟨s', hr.snoc hs⟩

/-- The variables and the bits follow the keys just where their histories do. -/
theorem KeyInv.namesHeld_iff {es : List KeyEvent} {s : KeySys} (h : KeyInv es s) :
    NamesHeld es s ↔ ∀ m, stored m es = pressed m es := by
  constructor
  · intro hn m
    rw [← h.var]
    exact (hn m).1
  · intro heq m
    rw [← heq, ← h.var]
    exact ⟨rfl, fun key hkey => h.passed key hkey m⟩

theorem stored_eq : ∀ {es : List KeyEvent}, RightAltUnused es →
    (∀ m, stored m es = pressed m es) ∧ pressed .altR es = false
  | [], _ => ⟨fun _ => rfl, rfl⟩
  | e :: es, ⟨hu, hmake, hbreak⟩ => by
    obtain ⟨ih, hr⟩ := stored_eq hu
    cases hof : e.of with
    | none => simp [stored, pressed, hof, storeIn, ih, hr]
    | some o =>
      obtain ⟨m', make⟩ := o
      rw [hof] at hmake hbreak
      cases m' with
      | altR =>
        cases make with
        | true => exact absurd rfl hmake
        | false =>
          have hl := hbreak rfl
          refine ⟨fun m => ?_, by simp [pressed, hof]⟩
          cases m <;> simp [stored, pressed, hof, storeIn, Modifier.stored, ih, hl, hr]
      | shiftL | shiftR | ctrlL | ctrlR | altL =>
        simp [stored, pressed, hof, storeIn, Modifier.stored, ih, hr]

/-- An event of the right `Alt` key that counts for the left one shows. -/
theorem stored_ne {e : KeyEvent} {es : List KeyEvent} (ih : ∀ m, stored m es = pressed m es)
    (hr : pressed .altR es = false) (heq : ∀ m, stored m (e :: es) = pressed m (e :: es)) :
    e.of ≠ some (.altR, true) ∧ (e.of = some (.altR, false) → pressed .altL es = false) := by
  constructor
  · intro hof
    have := heq .altR
    simp [stored, pressed, hof, storeIn, Modifier.stored, ih, hr] at this
  · intro hof
    have := heq .altL
    simp only [stored, pressed, hof, storeIn, Modifier.stored, ih] at this
    simpa using this.symm

/-- After each event of a run, the variables and the bits of the key passed on name the keys held,
just where the right `Alt` key is not used. -/
theorem modifiers_follow_iff (es : List KeyEvent) : (∃ s, Run KeyStart KeyStep es s) ∧
    ((∀ es' s, es' <:+ es → Run KeyStart KeyStep es' s → NamesHeld es' s) ↔
      RightAltUnused es) := by
  refine ⟨exists_run es, ?_⟩
  induction es with
  | nil =>
    refine iff_of_true (fun es' s hsuf hr => ?_) trivial
    obtain rfl := List.suffix_nil.1 hsuf
    exact (KeyInv.of_run hr).namesHeld_iff.2 fun _ => rfl
  | cons e es ih =>
    have hnames {s : KeySys} (hr : Run KeyStart KeyStep (e :: es) s) :=
      (KeyInv.of_run hr).namesHeld_iff
    constructor
    · intro hall
      have hu := ih.1 fun es' s hsuf => hall es' s (hsuf.trans (List.suffix_cons e es))
      obtain ⟨s, hr⟩ := exists_run (e :: es)
      obtain ⟨heq, halt⟩ := stored_eq hu
      exact ⟨hu, stored_ne heq halt ((hnames hr).1 (hall _ s List.suffix_rfl hr))⟩
    · intro hu es' s hsuf hr
      rcases List.suffix_cons_iff.1 hsuf with rfl | hsuf
      · exact (hnames hr).2 (stored_eq hu).1
      · exact ih.2 hu.1 es' s hsuf hr

/-- The right `Alt` key is pressed: the variable of the left one is set. -/
theorem right_alt_sets_left : ∃ es s, Run KeyStart KeyStep es s ∧ pressed .altR es = true ∧
    s.held.altR = false ∧ s.held.altL = true ∧ ¬ NamesHeld es s := by
  obtain ⟨s, hr⟩ := exists_run [.ext ⟨0x38, by decide⟩ true]
  have hi := KeyInv.of_run hr
  have haltR : s.held.altR = false := hi.var .altR
  refine ⟨_, s, hr, rfl, haltR, hi.var .altL, fun hn => ?_⟩
  exact Bool.false_ne_true (haltR.symm.trans (hn .altR).1)

end MyOS
