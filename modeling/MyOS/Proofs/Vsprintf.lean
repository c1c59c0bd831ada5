import MyOS.Proofs.Numerals
import Mathlib.Data.List.TakeWhile

/-!
# What vsprintf reads and writes

A format is a sequence of pieces: bytes that are written as they are, `%%`, and conversions with a
width and a letter. The loop takes one piece a turn. Where the format breaks off in a conversion,
the null is taken for its letter, and the loop goes on behind it.
-/

namespace MyOS

open Memory

/-! ## Formats -/

def IsDigit (c : Byte) : Prop := ascii '0' ≤ c ∧ c ≤ ascii '9'

instance : DecidablePred IsDigit := fun _ => inferInstanceAs (Decidable (_ ∧ _))

inductive Piece
  | lit (c : Byte)
  | percent
  /-- A conversion. The flag `0` is the first digit of the width. -/
  | conv (width : List Byte) (letter : Byte)

namespace Piece

def bytes : Piece → List Byte
  | lit c => [c]
  | percent => [ascii '%', ascii '%']
  | conv width letter => ascii '%' :: (width ++ [letter])

def Ok : Piece → Prop
  | lit c => c ≠ ascii '%'
  | percent => True
  | conv width letter => (∀ c ∈ width, IsDigit c) ∧ ¬ IsDigit letter ∧
      (width = [] → letter ≠ ascii '%')

/-- The arguments behind those of the piece. -/
def after (args : VaList) : Piece → VaList
  | conv _ letter =>
    if letter = ascii 'c' ∨ letter = ascii 'x' ∨ letter = ascii 'd' ∨ letter = ascii 's' then
      args.next
    else args
  | _ => args

/-- A string fits into `inner_buf`. -/
def Fits (strAt : Addr → List Byte) (args : VaList) : Piece → Prop
  | conv _ letter => letter = ascii 's' → (strAt (args 0)).length < strDefaultLen
  | _ => True

end Piece

/-- The format does not break off in a conversion. -/
def Whole (fmt : List Byte) : Prop :=
  ∃ ps : List Piece, (∀ p ∈ ps, p.Ok) ∧ ps.flatMap Piece.bytes = fmt

/-- The strings of the conversions fit. -/
def AllFit (strAt : Addr → List Byte) : List Piece → VaList → Prop
  | [], _ => True
  | p :: ps, args => p.Fits strAt args ∧ AllFit strAt ps (p.after args)

/-- Whatever the format starts with, its strings fit. -/
def StringsFit (strAt : Addr → List Byte) (fmt : List Byte) (args : VaList) : Prop :=
  ∀ (ps : List Piece) (tail : List Byte), (∀ p ∈ ps, p.Ok) →
    ps.flatMap Piece.bytes ++ tail = fmt → AllFit strAt ps args

variable {strAt : Addr → List Byte} {fmt rest w : List Byte} {args : VaList} {letter : Byte}
  {p : List Byte} {n : ℕ}

theorem AllFit.of_short (h : ∀ a, (strAt a).length < strDefaultLen) :
    ∀ (ps : List Piece) (args : VaList), AllFit strAt ps args
  | [], _ => trivial
  | .lit _ :: ps, _ => ⟨trivial, of_short h ps _⟩
  | .percent :: ps, _ => ⟨trivial, of_short h ps _⟩
  | .conv _ _ :: ps, _ => ⟨fun _ => h _, of_short h ps _⟩

/-- A conversion that is broken off. -/
def BrokenOff (tail : List Byte) : Prop := ∃ w, (∀ c ∈ w, IsDigit c) ∧ tail = ascii '%' :: w

theorem exists_digits : ∀ fmt : List Byte, ∃ w rest, (∀ c ∈ w, IsDigit c) ∧
    (∀ c ∈ rest.head?, ¬ IsDigit c) ∧ fmt = w ++ rest
  | [] => ⟨[], [], nofun, nofun, rfl⟩
  | c :: fmt => by
    by_cases hc : IsDigit c
    · obtain ⟨w, rest, hw, hr, rfl⟩ := exists_digits fmt
      exact ⟨c :: w, rest, List.forall_mem_cons.2 ⟨hc, hw⟩, hr, rfl⟩
    · refine ⟨[], c :: fmt, nofun, ?_, rfl⟩
      rintro _ ⟨⟩
      exact hc

/-- Behind a piece, or before a conversion that is broken off. -/
theorem exists_piece (c : Byte) (fmt : List Byte) :
    BrokenOff (c :: fmt) ∨ ∃ (p : Piece) (rest : List Byte), p.Ok ∧ p.bytes ++ rest = c :: fmt := by
  by_cases hc : c = ascii '%'
  · obtain ⟨w, rest, hw, hr, rfl⟩ := exists_digits fmt
    cases rest with
    | nil => exact .inl ⟨w, hw, by rw [hc, List.append_nil]⟩
    | cons letter rest =>
      right
      by_cases hpp : w = [] ∧ letter = ascii '%'
      · obtain ⟨rfl, rfl⟩ := hpp
        exact ⟨.percent, rest, trivial, by rw [hc]; rfl⟩
      · refine ⟨.conv w letter, rest, ⟨hw, hr _ rfl, fun hnil he => hpp ⟨hnil, he⟩⟩, ?_⟩
        rw [hc]
        simp [Piece.bytes]
  · exact .inr ⟨.lit c, fmt, hc, rfl⟩

/-- A piece is not empty. -/
theorem Piece.length_pos (p : Piece) : 0 < p.bytes.length := by
  cases p <;> simp [Piece.bytes]

/-- Every format is a sequence of pieces up to a conversion that is broken off. -/
theorem exists_pieces : ∀ (n : ℕ) (fmt : List Byte), fmt.length ≤ n →
    ∃ (ps : List Piece) (tail : List Byte), (∀ p ∈ ps, p.Ok) ∧
      ps.flatMap Piece.bytes ++ tail = fmt ∧ (tail = [] ∨ BrokenOff tail) := by
  intro n
  induction n with
  | zero =>
    intro fmt h
    obtain rfl := List.length_eq_zero_iff.1 (Nat.le_zero.1 h)
    exact ⟨[], [], nofun, rfl, .inl rfl⟩
  | succ n ih =>
    intro fmt h
    cases fmt with
    | nil => exact ⟨[], [], nofun, rfl, .inl rfl⟩
    | cons c fmt =>
      rcases exists_piece c fmt with hbroken | ⟨p, rest, hp, he⟩
      · exact ⟨[], c :: fmt, nofun, rfl, .inr hbroken⟩
      · have hlen : rest.length ≤ n := by
          have hpos := p.length_pos
          have hsum := congrArg List.length he
          rw [List.length_append] at hsum
          omega
        obtain ⟨ps, tail, hps, hrest, htail⟩ := ih rest hlen
        refine ⟨p :: ps, tail, List.forall_mem_cons.2 ⟨hp, hps⟩, ?_, htail⟩
        rw [List.flatMap_cons, List.append_assoc, hrest, he]

theorem length_le_flatMap (ps : List Piece) : ps.length ≤ (ps.flatMap Piece.bytes).length := by
  induction ps with
  | nil => exact le_rfl
  | cons p ps ih =>
    have hpos := p.length_pos
    rw [List.flatMap_cons, List.length_append, List.length_cons]
    omega

/-! ## A turn of the loop -/

theorem vsprintfLoop_lit {c : Byte} (hc : c ≠ ascii '%') :
    vsprintfLoop strAt (n + 1) (c :: rest) args p = vsprintfLoop strAt n rest args (p ++ [c]) := by
  rw [vsprintfLoop, if_pos hc]

theorem vsprintfLoop_percent :
    vsprintfLoop strAt (n + 1) (ascii '%' :: ascii '%' :: rest) args p =
      vsprintfLoop strAt n rest args (p ++ [ascii '%']) := by
  rw [vsprintfLoop, if_neg (not_not.2 rfl), List.headD_cons, if_pos rfl, List.tail_cons]

/-- The number a width stands for. -/
def widthNr (w : List Byte) (alignNr : BitVec 32) : BitVec 32 :=
  w.foldl (fun alignNr c => alignNr * 10 + (c.setWidth 32 - 0x30)) alignNr

theorem alignLoop_append : ∀ {w : List Byte} {alignNr : BitVec 32}, (∀ c ∈ w, IsDigit c) →
    (∀ c ∈ rest.head?, ¬ IsDigit c) → alignLoop alignNr (w ++ rest) = (widthNr w alignNr, rest)
  | [], alignNr, _, hr => by
    cases rest with
    | nil => rfl
    | cons c rest =>
      have hc : ¬ (ascii '0' ≤ c ∧ c ≤ ascii '9') := hr c rfl
      rw [List.nil_append, alignLoop, if_neg hc]
      rfl
  | c :: w, alignNr, hw, hr => by
    obtain ⟨hc, hw⟩ := List.forall_mem_cons.1 hw
    have hc : ascii '0' ≤ c ∧ c ≤ ascii '9' := hc
    rw [List.cons_append, alignLoop, if_pos hc, alignLoop_append hw hr]
    rfl

/-- The flag of a conversion, and what is left of its width. -/
theorem flag_append (hw : ∀ c ∈ w, IsDigit c) (hr : ∀ c ∈ rest.head?, ¬ IsDigit c) :
    ∃ cs, cs ≠ 0 ∧ ∃ w', (∀ c ∈ w', IsDigit c) ∧
      (if (w ++ rest).headD 0 = ascii '0' then (ascii '0', (w ++ rest).tail)
        else (ascii ' ', w ++ rest)) = (cs, w' ++ rest) := by
  by_cases h0 : (w ++ rest).headD 0 = ascii '0'
  · rw [if_pos h0]
    cases w with
    | nil =>
      cases rest with
      | nil => cases h0
      | cons c rest =>
        have hc : c = ascii '0' := h0
        exact absurd (by rw [hc]; decide) (hr c rfl)
    | cons c w =>
      exact ⟨ascii '0', by decide, w, (List.forall_mem_cons.1 hw).2, rfl⟩
  · rw [if_neg h0]
    exact ⟨ascii ' ', by decide, w, hw, rfl⟩

/-! ## Conversions -/

theorem zero_not_mem_untilNull (l : List Byte) : 0 ∉ untilNull l := fun h => by
  simpa using List.mem_takeWhile_imp h

theorem untilNull_append {l : List Byte} (h : 0 ∉ l) (l' : List Byte) :
    untilNull (l ++ l') = l ++ untilNull l' :=
  List.takeWhile_append_of_pos fun _ hc => decide_eq_true fun h0 => h (h0 ▸ hc)

theorem untilNull_eq {l : List Byte} (h : 0 ∉ l) : untilNull l = l :=
  List.takeWhile_eq_self_iff.2 fun _ hc => decide_eq_true fun h0 => h (h0 ▸ hc)

theorem untilNull_snoc {l : List Byte} (h : 0 ∉ l) : untilNull (l ++ [0]) = l := by
  rw [untilNull_append h, untilNull, List.takeWhile_cons_of_neg (by decide), List.append_nil]

theorem i2a_ok (v : BitVec 32) {b : ℕ} (hb : 1 < b) (hb' : b ≤ 16) (ps : List Byte) :
    ∃ q, i2a v (BitVec.ofNat 32 b) ps = .ok q := by
  rcases lt_or_ge v.toInt 0 with hv | hv
  · obtain ⟨c, l, -, h⟩ := i2a_of_neg ps hv hb hb'
    exact ⟨_, h⟩
  · exact ⟨_, i2a_of_nonneg hv hb hb'⟩

section

variable (strAt args)

theorem convert_x : convert strAt (ascii 'x') args =
    (i2a (args 0) 16 []).map fun q => (untilNull q, args.next) := by
  rw [convert, if_neg (by decide), if_pos rfl]
  cases i2a (args 0) 16 [] <;> rfl

theorem convert_d : convert strAt (ascii 'd') args =
    (if (args 0).toInt < 0 then i2a (args 0 * (-1)) 10 [ascii '-'] else i2a (args 0) 10 []).map
      fun q => (untilNull q, args.next) := by
  rw [convert, if_neg (by decide), if_neg (by decide), if_pos rfl]
  dsimp only
  split
  · cases i2a (args 0 * (-1)) 10 [ascii '-'] <;> rfl
  · cases i2a (args 0) 10 [] <;> rfl

end

/-- A conversion leaves a string, and takes its argument. -/
theorem convert_ok (hfit : letter = ascii 's' → (strAt (args 0)).length < strDefaultLen) :
    ∃ l, convert strAt letter args = .ok (untilNull l, (Piece.conv w letter).after args) := by
  have hafter (h : letter = ascii 'c' ∨ letter = ascii 'x' ∨ letter = ascii 'd' ∨
      letter = ascii 's') : (Piece.conv w letter).after args = args.next := if_pos h
  by_cases hc : letter = ascii 'c'
  · exact ⟨_, by rw [hafter (.inl hc), convert, if_pos hc]⟩
  by_cases hx : letter = ascii 'x'
  · obtain ⟨q, hq⟩ := i2a_ok (args 0) (b := 16) (by decide) (by decide) []
    refine ⟨q, ?_⟩
    rw [hafter (.inr (.inl hx)), hx, convert_x]
    exact congrArg (Except.map fun q => (untilNull q, args.next)) hq
  by_cases hd : letter = ascii 'd'
  · obtain ⟨q, hq⟩ : ∃ q, (if (args 0).toInt < 0 then i2a (args 0 * (-1)) 10 [ascii '-']
        else i2a (args 0) 10 []) = .ok q := by
      split
      · exact i2a_ok _ (b := 10) (by decide) (by decide) _
      · exact i2a_ok _ (b := 10) (by decide) (by decide) _
    refine ⟨q, ?_⟩
    rw [hafter (.inr (.inr (.inl hd))), hd, convert_d, hq]
    rfl
  by_cases hs : letter = ascii 's'
  · refine ⟨strAt (args 0), ?_⟩
    rw [hafter (.inr (.inr (.inr hs))), convert, if_neg hc, if_neg hx, if_neg hd, if_pos hs,
      if_pos (hfit hs)]
  · refine ⟨[], ?_⟩
    rw [convert, if_neg hc, if_neg hx, if_neg hd, if_neg hs, Piece.after, if_neg]
    · rfl
    · rintro (h | h | h | h)
      exacts [hc h, hx h, hd h, hs h]

/-- A turn with a conversion. -/
theorem vsprintfLoop_turn {inner : List Byte} {args' : VaList} (hw : ∀ c ∈ w, IsDigit c)
    (hr : ∀ c ∈ rest.head?, ¬ IsDigit c) (hpp : (w ++ rest).headD 0 ≠ ascii '%')
    (hconv : convert strAt (rest.headD 0) args = .ok (inner, args')) : ∃ pad, 0 ∉ pad ∧ ∀ n p,
      vsprintfLoop strAt (n + 1) (ascii '%' :: (w ++ rest)) args p =
        match rest with
        | [] => .error .wild
        | _ :: rest => vsprintfLoop strAt n rest args' (p ++ (pad ++ inner)) := by
  obtain ⟨cs, hcs, w', hw', hflag⟩ := flag_append hw hr
  refine ⟨List.replicate ((widthNr w' 0).toInt - inner.length).toNat cs,
    fun h => hcs (List.eq_of_mem_replicate h).symm, fun n p => ?_⟩
  rw [vsprintfLoop, if_neg (not_not.2 rfl), if_neg hpp, hflag]
  dsimp only
  rw [alignLoop_append hw' hr]
  dsimp only
  rw [hconv, ok_bind]
  cases rest with
  | nil => rfl
  | cons c rest => exact congrArg _ (List.append_assoc _ _ _)

/-- A width does not start with another `%`. -/
theorem headD_width_ne (hw : ∀ c ∈ w, IsDigit c) (hpp : w = [] → rest.headD 0 ≠ ascii '%') :
    (w ++ rest).headD 0 ≠ ascii '%' := by
  cases w with
  | nil => exact hpp rfl
  | cons c w =>
    intro hc
    have hd := hw c List.mem_cons_self
    rw [show c = ascii '%' from hc] at hd
    exact absurd hd (by decide)

/-- A conversion whose letter is not cut off. -/
theorem vsprintfLoop_conv (hok : (Piece.conv w letter).Ok)
    (hfit : (Piece.conv w letter).Fits strAt args) (rest : List Byte) :
    ∃ text, 0 ∉ text ∧ ∀ n p,
      vsprintfLoop strAt (n + 1) ((Piece.conv w letter).bytes ++ rest) args p =
        vsprintfLoop strAt n rest ((Piece.conv w letter).after args) (p ++ text) := by
  obtain ⟨hw, hl, hpp⟩ := hok
  obtain ⟨l, hl'⟩ := convert_ok (w := w) hfit
  have hhead : ∀ c ∈ (letter :: rest).head?, ¬ IsDigit c := by
    rintro _ ⟨⟩
    exact hl
  obtain ⟨pad, hpad, hturn⟩ := vsprintfLoop_turn hw hhead (headD_width_ne hw hpp) hl'
  refine ⟨pad ++ untilNull l, fun h => ?_, fun n p => ?_⟩
  · rcases List.mem_append.1 h with h | h
    exacts [hpad h, zero_not_mem_untilNull l h]
  · have := hturn n p
    simpa [Piece.bytes] using this

/-- Behind a conversion that is broken off the loop reads on. -/
theorem vsprintfLoop_broken (hw : ∀ c ∈ w, IsDigit c) :
    vsprintfLoop strAt (n + 1) (ascii '%' :: w) args p = .error .wild := by
  have hconv : convert strAt (List.headD [] 0) args = .ok ([], args) := rfl
  obtain ⟨pad, -, hturn⟩ := vsprintfLoop_turn hw (show ∀ c ∈ ([] : List Byte).head?, _ from nofun)
    (headD_width_ne hw fun _ => by decide) hconv
  have := hturn n p
  rwa [List.append_nil] at this

/-! ## The whole format -/

theorem vsprintfLoop_piece {pc : Piece} (hok : pc.Ok) (h0 : 0 ∉ pc.bytes)
    (hfit : pc.Fits strAt args) (rest : List Byte) : ∃ text, 0 ∉ text ∧ ∀ n p,
      vsprintfLoop strAt (n + 1) (pc.bytes ++ rest) args p =
        vsprintfLoop strAt n rest (pc.after args) (p ++ text) := by
  cases pc with
  | lit c => exact ⟨[c], h0, fun n p => vsprintfLoop_lit hok⟩
  | percent => exact ⟨[ascii '%'], by decide, fun n p => vsprintfLoop_percent⟩
  | conv w letter => exact vsprintfLoop_conv hok hfit rest

/-- The loop takes the pieces one by one. -/
theorem vsprintfLoop_pieces (tail : List Byte) : ∀ {ps : List Piece} {args : VaList},
    (∀ pc ∈ ps, pc.Ok) → 0 ∉ ps.flatMap Piece.bytes → AllFit strAt ps args →
      ∃ args' text, 0 ∉ text ∧ ∀ n p,
        vsprintfLoop strAt (n + ps.length) (ps.flatMap Piece.bytes ++ tail) args p =
          vsprintfLoop strAt n tail args' (p ++ text)
  | [], args, _, _, _ => ⟨args, [], by simp, fun n p => by simp⟩
  | pc :: ps, args, hok, h0, hfit => by
    obtain ⟨hpc, hok⟩ := List.forall_mem_cons.1 hok
    rw [List.flatMap_cons, List.mem_append, not_or] at h0
    obtain ⟨text, htext, hturn⟩ := vsprintfLoop_piece hpc h0.1 hfit.1
      (ps.flatMap Piece.bytes ++ tail)
    obtain ⟨args', text', htext', hrun⟩ := vsprintfLoop_pieces tail hok h0.2 hfit.2
    refine ⟨args', text ++ text', fun h => ?_, fun n p => ?_⟩
    · rcases List.mem_append.1 h with h | h
      exacts [htext h, htext' h]
    · rw [List.flatMap_cons, List.append_assoc, List.length_cons, ← Nat.add_assoc, hturn, hrun,
        List.append_assoc]

/-- `vsprintf` ends at the null of the format, with a string whose length it returns, exactly if the
format does not break off in a conversion. -/
theorem vsprintf_ends_iff (h0 : 0 ∉ fmt) (hfit : StringsFit strAt fmt args) :
    (∃ text, 0 ∉ text ∧ vsprintf strAt fmt args = .ok (text ++ [0], strlen (text ++ [0]))) ↔
      Whole fmt := by
  have hrun {ps : List Piece} (tail : List Byte) (hok : ∀ pc ∈ ps, pc.Ok)
      (he : ps.flatMap Piece.bytes ++ tail = fmt) : ∃ n args' text, 0 ∉ text ∧
        vsprintfLoop strAt (fmt.length + 1) fmt args [] =
          vsprintfLoop strAt (n + 1) tail args' text := by
    have h0' : 0 ∉ ps.flatMap Piece.bytes := fun h => h0 (he ▸ List.mem_append_left _ h)
    obtain ⟨args', text, htext, hrun⟩ := vsprintfLoop_pieces tail hok h0'
      (hfit ps tail hok he)
    have hlen : ps.length ≤ fmt.length := by
      have := length_le_flatMap ps
      rw [← he, List.length_append]
      omega
    refine ⟨fmt.length - ps.length, args', text, htext, ?_⟩
    have := hrun (fmt.length - ps.length + 1) []
    rwa [he, show fmt.length - ps.length + 1 + ps.length = fmt.length + 1 by omega,
      List.nil_append] at this
  constructor
  · rintro ⟨text, -, hv⟩
    obtain ⟨ps, tail, hok, he, rfl | ⟨w, hw, rfl⟩⟩ := exists_pieces _ fmt le_rfl
    · exact ⟨ps, hok, by rw [← he, List.append_nil]⟩
    · obtain ⟨n, args', text', -, hloop⟩ := hrun _ hok he
      rw [vsprintf, hloop, vsprintfLoop_broken hw] at hv
      cases hv
  · rintro ⟨ps, hok, he⟩
    obtain ⟨n, args', text, htext, hloop⟩ := hrun [] hok (by rw [List.append_nil, he])
    refine ⟨text, htext, ?_⟩
    rw [vsprintf, hloop, strlen, untilNull_snoc htext]
    rfl

/-- The message of `disklog` with a width. -/
theorem vsprintf_ends_width :
    (∃ text, 0 ∉ text ∧ vsprintf (fun _ => []) [ascii '%', ascii '8', ascii 'd', ascii '\n']
      (fun _ => 12) = .ok (text ++ [0], strlen (text ++ [0]))) := by
  refine (vsprintf_ends_iff (by decide) fun ps tail _ _ => ?_).2
    ⟨[.conv [ascii '8'] (ascii 'd'), .lit (ascii '\n')], ?_, rfl⟩
  · exact AllFit.of_short (fun _ => by decide) ps _
  · exact List.forall_mem_cons.2 ⟨⟨by decide, by decide, by decide⟩,
      List.forall_mem_cons.2 ⟨(by decide : ascii '\n' ≠ ascii '%'), nofun⟩⟩

/-- A format that is a single `%`. -/
theorem vsprintf_percent_broken :
    ¬ ∀ (strAt : Addr → List Byte) (fmt : List Byte) (args : VaList), 0 ∉ fmt →
      StringsFit strAt fmt args →
        ∃ text, 0 ∉ text ∧ vsprintf strAt fmt args = .ok (text ++ [0], strlen (text ++ [0])) := by
  intro h
  obtain ⟨text, -, hv⟩ := h (fun _ => []) [ascii '%'] (fun _ => 0) (by decide)
    fun ps tail _ _ => AllFit.of_short (fun _ => by decide) ps _
  have hwild : vsprintf (fun _ => []) [ascii '%'] (fun _ => 0) = .error .wild := rfl
  rw [hwild] at hv
  cases hv

/-! ## Numbers -/

theorem zero_not_mem_numeral {b n : ℕ} (hb : 1 < b) (hb' : b ≤ 16) : 0 ∉ numeral b n := by
  intro h
  obtain ⟨d, hd, he⟩ := numeral_mem hb hb' 0 h
  exact ascii_digit_ge d hd (he ▸ by decide)

theorem numeral_ne_nil {b n : ℕ} (hb : 1 < b) : numeral b n ≠ [] := by
  rcases lt_or_ge n b with h | h
  · rw [numeral_of_lt h]
    exact List.cons_ne_nil _ _
  · rw [numeral_of_le hb h]
    exact List.append_ne_nil_of_right_ne_nil _ (List.cons_ne_nil _ _)

/-- What is made of a negative number is not a numeral. -/
theorem untilNull_ne_numeral {b n : ℕ} (hb : 1 < b) (hb' : b ≤ 16) {c : Byte}
    (hc : c < ascii '0') (l : List Byte) : untilNull (c :: l) ≠ numeral b n := by
  by_cases h0 : c = 0
  · rw [untilNull, List.takeWhile_cons_of_neg (by simpa using h0)]
    exact (numeral_ne_nil hb).symm
  · rw [untilNull, List.takeWhile_cons_of_pos (by simpa using h0)]
    exact numeral_ne_cons hb hb' hc _

/-- A format that is one conversion. -/
theorem vsprintf_single (hl : ¬ IsDigit letter) (hne : letter ≠ ascii '%') :
    (vsprintf strAt [ascii '%', letter] args).map Prod.fst =
      (convert strAt letter args).map fun r => r.1 ++ [0] := by
  have h0 : letter ≠ ascii '0' := fun h => hl (h ▸ by decide)
  have hl : ¬ (ascii '0' ≤ letter ∧ letter ≤ ascii '9') := hl
  rw [vsprintf]
  dsimp only [List.length_cons, List.length_nil]
  rw [vsprintfLoop, if_neg (not_not.2 rfl), List.headD_cons, if_neg hne, if_neg h0]
  dsimp only
  rw [alignLoop, if_neg hl]
  dsimp only [List.headD_cons]
  cases convert strAt letter args with
  | error e => rfl
  | ok r =>
    have hpad : ((0 : BitVec 32).toInt - r.1.length).toNat = 0 := by
      have hzero : (0 : BitVec 32).toInt = 0 := rfl
      omega
    rw [ok_bind, hpad]
    rfl

variable {v : BitVec 32}

theorem vsprintf_x : (vsprintf strAt [ascii '%', ascii 'x'] args).map Prod.fst =
    (i2a (args 0) 16 []).map fun q => untilNull q ++ [0] := by
  rw [vsprintf_single (by decide) (by decide), convert_x]
  cases i2a (args 0) 16 [] <;> rfl

theorem vsprintf_d : (vsprintf strAt [ascii '%', ascii 'd'] args).map Prod.fst =
    (if (args 0).toInt < 0 then i2a (args 0 * (-1)) 10 [ascii '-'] else i2a (args 0) 10 []).map
      fun q => untilNull q ++ [0] := by
  rw [vsprintf_single (by decide) (by decide), convert_d]
  generalize (if (args 0).toInt < 0 then _ else _ : Except Fault (List Byte)) = q
  cases q <;> rfl

/-- `%d` writes the numeral of the signed number. -/
def WritesSigned (strAt : Addr → List Byte) (args : VaList) : Prop :=
  (vsprintf strAt [ascii '%', ascii 'd'] args).map Prod.fst = .ok (signed (args 0).toInt ++ [0])

/-- `%x` writes the numeral of the unsigned number. -/
def WritesHex (strAt : Addr → List Byte) (args : VaList) : Prop :=
  (vsprintf strAt [ascii '%', ascii 'x'] args).map Prod.fst = .ok (numeral 16 (args 0).toNat ++ [0])

/-- `%x` and `itoa` write the same digits. -/
def AgreesWithItoa (strAt : Addr → List Byte) (args : VaList) : Prop :=
  ∃ digits, (vsprintf strAt [ascii '%', ascii 'x'] args).map Prod.fst = .ok (digits ++ [0]) ∧
    itoa (args 0) = [ascii '0', ascii 'x'] ++ digits ++ [0]

theorem agreesWithItoa_iff : AgreesWithItoa strAt args ↔ WritesHex strAt args := by
  constructor
  · rintro ⟨digits, hx, hitoa⟩
    rw [itoa_eq] at hitoa
    have := List.append_cancel_left (List.append_cancel_right hitoa)
    rwa [← this] at hx
  · intro hx
    exact ⟨_, hx, itoa_eq _⟩

theorem writesHex_iff : WritesHex strAt args ↔ 0 ≤ (args 0).toInt := by
  rw [WritesHex, vsprintf_x]
  constructor
  · intro h
    by_contra hneg
    obtain ⟨c, l, hc, hl⟩ := i2a_of_neg [] (b := 16) (not_le.1 hneg) (by decide)
      (by decide)
    rw [show (16 : BitVec 32) = BitVec.ofNat 32 16 from rfl, hl] at h
    exact untilNull_ne_numeral (by decide) (by decide) hc l
      (List.append_cancel_right (Except.ok.inj h))
  · intro hpos
    rw [show (16 : BitVec 32) = BitVec.ofNat 32 16 from rfl,
      i2a_of_nonneg hpos (by decide) (by decide)]
    exact congrArg (fun l => Except.ok (l ++ [0]))
      (untilNull_eq (zero_not_mem_numeral (by decide) (by decide)))

/-- The word that has no positive counterpart. -/
def intMin : BitVec 32 := 0x80000000

theorem neg_toInt (hneg : v.toInt < 0) (hmin : v ≠ intMin) : (v * (-1)).toInt = -v.toInt := by
  have hle := BitVec.le_toInt v
  have hne : v.toInt ≠ -2 ^ 31 := fun h => hmin (BitVec.eq_of_toInt_eq (h.trans rfl))
  have hone : (-1 : BitVec 32).toInt = -1 := rfl
  rw [BitVec.toInt_mul, hone, mul_neg_one]
  exact Int.bmod_eq_of_le (by omega) (by omega)

theorem toNat_of_nonneg (hpos : 0 ≤ v.toInt) : v.toNat = v.toInt.natAbs := by
  have := (toNat_of_toInt hpos).1
  omega

theorem untilNull_minus {b n : ℕ} (hb : 1 < b) (hb' : b ≤ 16) :
    untilNull (ascii '-' :: numeral b n) = ascii '-' :: numeral b n := by
  refine untilNull_eq fun h => ?_
  rcases List.mem_cons.1 h with h | h
  · cases h
  · exact zero_not_mem_numeral hb hb' h

theorem writesSigned_iff : WritesSigned strAt args ↔ args 0 ≠ intMin := by
  rw [WritesSigned, vsprintf_d, signed, show (10 : BitVec 32) = BitVec.ofNat 32 10 from rfl]
  by_cases hneg : (args 0).toInt < 0
  · rw [if_pos hneg, if_pos hneg]
    by_cases hmin : args 0 = intMin
    · have hself : (args 0 * (-1)).toInt < 0 := by
        rw [hmin]
        decide
      obtain ⟨c, l, hc, hl⟩ := i2a_of_neg [ascii '-'] hself
        (show 1 < 10 by decide) (by decide)
      rw [hl]
      refine iff_of_false (fun h => ?_) (not_not.2 hmin)
      have htext := List.append_cancel_right (Except.ok.inj h)
      rw [List.singleton_append, untilNull, List.takeWhile_cons_of_pos (by decide)] at htext
      exact untilNull_ne_numeral (by decide) (by decide) hc l (List.cons.inj htext).2
    · have hto := neg_toInt hneg hmin
      rw [i2a_of_nonneg (by omega) (by decide) (by decide), toNat_of_nonneg (by omega), hto,
        Int.natAbs_neg]
      exact iff_of_true (congrArg (fun l => Except.ok (l ++ [0]))
        (untilNull_minus (by decide) (by decide))) hmin
  · have hmin : args 0 ≠ intMin := fun h => hneg (by rw [h]; decide)
    rw [if_neg hneg, if_neg hneg, i2a_of_nonneg (not_lt.1 hneg) (by decide) (by decide),
      toNat_of_nonneg (not_lt.1 hneg)]
    exact iff_of_true (congrArg (fun l => Except.ok (l ++ [0]))
      (untilNull_eq (zero_not_mem_numeral (by decide) (by decide)))) hmin

/-- The numbers that are printed as they should be: those that are not negative, and in the decimal
system all but the lowest. -/
theorem formats_right_iff (strAt : Addr → List Byte) (args : VaList) :
    (WritesSigned strAt args ∧ WritesHex strAt args ∧ AgreesWithItoa strAt args ↔
      0 ≤ (args 0).toInt) ∧
    (WritesSigned strAt args ↔ args 0 ≠ intMin) ∧
    (WritesHex strAt args ↔ 0 ≤ (args 0).toInt) ∧
    (AgreesWithItoa strAt args ↔ 0 ≤ (args 0).toInt) := by
  refine ⟨?_, writesSigned_iff, writesHex_iff, agreesWithItoa_iff.trans writesHex_iff⟩
  rw [agreesWithItoa_iff, and_self, writesSigned_iff, writesHex_iff]
  refine ⟨And.right, fun hpos => ⟨fun h => ?_, hpos⟩⟩
  rw [h] at hpos
  exact absurd hpos (by decide)

/-- `%x` of the word of ones is `/`. -/
theorem hex_of_ones : (vsprintf (fun _ => []) [ascii '%', ascii 'x'] fun _ => 0xFFFFFFFF) =
      .ok ([ascii '/', 0], 1) ∧
    ¬ ∀ strAt args, WritesSigned strAt args ∧ WritesHex strAt args ∧ AgreesWithItoa strAt args := by
  refine ⟨by rfl, fun h => ?_⟩
  obtain ⟨-, hx, -⟩ := h (fun _ => []) fun _ => 0xFFFFFFFF
  exact absurd (writesHex_iff.1 hx) (by decide)

end MyOS
