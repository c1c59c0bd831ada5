import MyOS.Const
import MyOS.Lib.Memory

/-!
# Messages

`MESSAGE` is twelve words: its source, its type and the union, of which the code uses `mess3`. A
process sends and receives it through the 48 bytes at an address.
-/

namespace MyOS

open Memory

structure Message where
  source : BitVec 32
  type : BitVec 32
  m3i1 : BitVec 32
  m3i2 : BitVec 32
  m3i3 : BitVec 32
  m3i4 : BitVec 32
  m3l1 : BitVec 64
  m3l2 : BitVec 64
  m3p1 : BitVec 32
  m3p2 : BitVec 32
  deriving DecidableEq, Repr

namespace Message

/-! The names the macros of `const.h` give the fields. -/

abbrev fd (m : Message) := m.m3i1
abbrev flags (m : Message) := m.m3i1
abbrev retval (m : Message) := m.m3i1
abbrev status (m : Message) := m.m3i1
abbrev nameLen (m : Message) := m.m3i2
abbrev cnt (m : Message) := m.m3i2
abbrev pid (m : Message) := m.m3i2
abbrev bufLen (m : Message) := m.m3i3
abbrev procNr (m : Message) := m.m3i3
abbrev device (m : Message) := m.m3i4
abbrev position (m : Message) := m.m3l1
abbrev pathname (m : Message) := m.m3p1
abbrev buf (m : Message) := m.m3p2

/-- `sizeof(MESSAGE)` -/
def size : ℕ := 48

/-- `reset_msg` -/
def reset : Message := ⟨0, 0, 0, 0, 0, 0, 0, 0, 0, 0⟩

def word (m : Message) : ℕ → BitVec 32
  | 0 => m.source
  | 1 => m.type
  | 2 => m.m3i1
  | 3 => m.m3i2
  | 4 => m.m3i3
  | 5 => m.m3i4
  | 6 => m.m3l1.extractLsb' 0 32
  | 7 => m.m3l1.extractLsb' 32 32
  | 8 => m.m3l2.extractLsb' 0 32
  | 9 => m.m3l2.extractLsb' 32 32
  | 10 => m.m3p1
  | _ => m.m3p2

def ofWords (w : ℕ → BitVec 32) : Message :=
  ⟨w 0, w 1, w 2, w 3, w 4, w 5, w 7 ++ w 6, w 9 ++ w 8, w 10, w 11⟩

def load (mem : Mem) (a : Addr) : Message :=
  ofWords fun i => load32 mem (a + BitVec.ofNat 32 (4 * i))

def store (mem : Mem) (a : Addr) (m : Message) : Mem :=
  poke mem a size fun i => byteOf (m.word (i / 4)) (i % 4)

theorem ofWords_word (m : Message) : ofWords m.word = m := by
  have h (v : BitVec 64) : v.extractLsb' 32 32 ++ v.extractLsb' 0 32 = v := by
    rw [BitVec.extractLsb'_append_extractLsb'_eq_extractLsb' (show 32 = 0 + 32 from rfl)]
    simp
  simp [ofWords, word, h]

theorem word_ofWords (w : ℕ → BitVec 32) {j : ℕ} (hj : j < 12) : (ofWords w).word j = w j := by
  have hlow (x y : BitVec 32) : (x ++ y : BitVec 64).extractLsb' 0 32 = y := by
    rw [BitVec.extractLsb'_append_eq_of_add_le (by decide)]
    simp
  have hhigh (x y : BitVec 32) : (x ++ y : BitVec 64).extractLsb' 32 32 = x := by
    rw [BitVec.extractLsb'_append_eq_of_le (by decide)]
    simp
  match j, hj with
  | 0, _ | 1, _ | 2, _ | 3, _ | 4, _ | 5, _ | 10, _ | 11, _ => rfl
  | 6, _ => exact hlow _ _
  | 7, _ => exact hhigh _ _
  | 8, _ => exact hlow _ _
  | 9, _ => exact hhigh _ _

theorem ofWords_congr {w w' : ℕ → BitVec 32} (h : ∀ i < 12, w i = w' i) :
    ofWords w = ofWords w' := by
  simp [ofWords, h]

/-- Byte `i` of a message. -/
def byte (m : Message) (i : ℕ) : Byte := byteOf (m.word (i / 4)) (i % 4)

theorem byte_load (mem : Mem) (a : Addr) {i : ℕ} (hi : i < size) :
    (load mem a).byte i = mem (a + BitVec.ofNat 32 i) := by
  have hsize : size = 48 := rfl
  rw [byte, load, word_ofWords _ (by omega), byteOf_load32 _ _ (Nat.mod_lt _ (by decide)),
    BitVec.add_assoc, ← BitVec.ofNat_add, Nat.div_add_mod]

theorem load_congr {mem mem' : Mem} {a a' : Addr}
    (h : ∀ i < size, mem (a + BitVec.ofNat 32 i) = mem' (a' + BitVec.ofNat 32 i)) :
    load mem a = load mem' a' := by
  refine ofWords_congr fun i hi => load32_congr fun j hj => ?_
  rw [BitVec.add_assoc, BitVec.add_assoc, ← BitVec.ofNat_add]
  exact h _ (by unfold size; omega)

theorem load_store (mem : Mem) (a : Addr) (m : Message) : load (store mem a m) a = m := by
  refine Eq.trans (ofWords_congr fun i hi => ?_) (ofWords_word m)
  refine load32_poke (by unfold size; omega) (by decide) fun j hj => ?_
  rw [show (4 * i + j) / 4 = i by omega, show (4 * i + j) % 4 = j by omega]

/-- A write to a block apart from a message leaves it. -/
theorem load_poke {mem : Mem} {a b : Addr} {n : ℕ} {f : ℕ → Byte} (h : Apart a size b n) :
    load (poke mem b n f) a = load mem a :=
  load_congr fun _ hi => poke_of_not_within (h _ (within_add_ofNat a hi (by decide)))

theorem load_store_apart {mem : Mem} {a b : Addr} {m : Message} (h : Apart a size b size) :
    load (store mem b m) a = load mem a :=
  load_poke h

theorem load_memcpy {mem : Mem} {dst src : Addr} (h : Apart dst size src size) :
    load (memcpy mem dst src size) dst = load mem src := by
  rw [memcpy_eq_poke _ _ _ _ (by decide) h]
  exact load_congr fun i hi => poke_add hi (by decide)

theorem load_memcpy_apart {mem : Mem} {a dst src : Addr} (hd : Apart dst size src size)
    (h : Apart a size dst size) : load (memcpy mem dst src size) a = load mem a := by
  rw [memcpy_eq_poke _ _ _ _ (by decide) hd]
  exact load_poke h

/-- `a->source = v` -/
def setSource (mem : Mem) (a : Addr) (v : BitVec 32) : Mem := store32 mem a v

/-- `a->type = v` -/
def setType (mem : Mem) (a : Addr) (v : BitVec 32) : Mem :=
  store32 mem (a + BitVec.ofNat 32 4) v

/-- The words of a message beside the one written stay. -/
theorem load32_store32_word (mem : Mem) (a : Addr) (v : BitVec 32) {i j : ℕ} (hi : i < 12)
    (hj : j < 12) (hij : i ≠ j) :
    load32 (store32 mem (a + BitVec.ofNat 32 (4 * j)) v) (a + BitVec.ofNat 32 (4 * i))
      = load32 mem (a + BitVec.ofNat 32 (4 * i)) := by
  refine load32_congr fun n hn => poke_of_not_within ?_
  unfold Within
  bv_omega

theorem load_setSource (mem : Mem) (a : Addr) (v : BitVec 32) :
    load (setSource mem a v) a = { load mem a with source := v } := by
  have h0 : load32 (setSource mem a v) (a + BitVec.ofNat 32 (4 * 0)) = v := by
    rw [BitVec.add_zero]
    exact load32_store32 mem a v
  have h : ∀ i < 12, i ≠ 0 → load32 (setSource mem a v) (a + BitVec.ofNat 32 (4 * i))
      = load32 mem (a + BitVec.ofNat 32 (4 * i)) := by
    intro i hi h0
    have := load32_store32_word mem a v hi (show 0 < 12 by decide) h0
    rwa [BitVec.add_zero] at this
  simp only [load, ofWords, h0, h 1 (by decide) (by decide), h 2 (by decide) (by decide),
    h 3 (by decide) (by decide), h 4 (by decide) (by decide), h 5 (by decide) (by decide),
    h 6 (by decide) (by decide), h 7 (by decide) (by decide), h 8 (by decide) (by decide),
    h 9 (by decide) (by decide), h 10 (by decide) (by decide), h 11 (by decide) (by decide)]

theorem load_setType (mem : Mem) (a : Addr) (v : BitVec 32) :
    load (setType mem a v) a = { load mem a with type := v } := by
  have h1 : load32 (setType mem a v) (a + BitVec.ofNat 32 (4 * 1)) = v := load32_store32 mem _ v
  have h : ∀ i < 12, i ≠ 1 → load32 (setType mem a v) (a + BitVec.ofNat 32 (4 * i))
      = load32 mem (a + BitVec.ofNat 32 (4 * i)) :=
    fun i hi h1 => load32_store32_word (j := 1) mem a v hi (by decide) h1
  simp only [load, ofWords, h1, h 0 (by decide) (by decide), h 2 (by decide) (by decide),
    h 3 (by decide) (by decide), h 4 (by decide) (by decide), h 5 (by decide) (by decide),
    h 6 (by decide) (by decide), h 7 (by decide) (by decide), h 8 (by decide) (by decide),
    h 9 (by decide) (by decide), h 10 (by decide) (by decide), h 11 (by decide) (by decide)]

theorem load_setSource_apart {mem : Mem} {a b : Addr} {v : BitVec 32}
    (h : Apart a size b size) : load (setSource mem b v) a = load mem a :=
  load_poke fun x hx hx' => h x hx (by unfold Within size at *; omega)

theorem load_setType_apart {mem : Mem} {a b : Addr} {v : BitVec 32}
    (h : Apart a size b size) : load (setType mem b v) a = load mem a :=
  load_poke fun x hx hx' => h x hx (by unfold Within size at *; bv_omega)

end Message

end MyOS
