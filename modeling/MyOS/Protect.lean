import MyOS.Const
import Mathlib.Tactic.SplitIfs

/-!
# Segment descriptors

The eight bytes of a descriptor scatter a 32-bit base and a 20-bit limit over six fields.
-/

namespace MyOS

structure Descriptor where
  limitLow : BitVec 16
  baseLow : BitVec 16
  baseMid : BitVec 8
  attr1 : BitVec 8
  limitHighAttr2 : BitVec 8
  baseHigh : BitVec 8
  deriving DecidableEq, Repr, Inhabited

def da32 : BitVec 16 := 0x4000
def daLimit4k : BitVec 16 := 0x8000
def daDrw : BitVec 16 := 0x92
def daC : BitVec 16 := 0x98
def daCr : BitVec 16 := 0x9A

def limit4kShift : ℕ := 12

def privilegeTask : BitVec 16 := 1
def privilegeUser : BitVec 16 := 3

def initDescriptor (base limit : BitVec 32) (attr : BitVec 16) : Descriptor where
  limitLow := (limit &&& 0xffff).setWidth 16
  baseLow := (base &&& 0xffff).setWidth 16
  baseMid := ((base >>> 16) &&& 0xff).setWidth 8
  attr1 := (attr &&& 0xff).setWidth 8
  limitHighAttr2 := (((limit >>> 16) &&& 0xf) ||| ((attr >>> 8) &&& 0xf0).setWidth 32).setWidth 8
  baseHigh := ((base >>> 24) &&& 0xff).setWidth 8

/-- The base a descriptor holds: `ldt_seg_linear` reads it from an entry of the LDT. -/
def Descriptor.linear (d : Descriptor) : BitVec 32 :=
  d.baseHigh.setWidth 32 <<< 24 ||| d.baseMid.setWidth 32 <<< 16 ||| d.baseLow.setWidth 32

/-- The limit a descriptor holds. -/
def Descriptor.limit (d : Descriptor) : BitVec 32 :=
  (d.limitHighAttr2 &&& 0xf).setWidth 32 <<< 16 + d.limitLow.setWidth 32

/-- Whether the limit counts pages of 4 KB. -/
def Descriptor.limit4k (d : Descriptor) : Bool :=
  d.limitHighAttr2 &&& (daLimit4k >>> 8).setWidth 8 ≠ 0

/-- A mask of low ones under a narrowing to as many bits does nothing. -/
theorem setWidth_and_ff (x : BitVec 32) : (x &&& 0xff).setWidth 8 = x.setWidth 8 := by
  rw [BitVec.setWidth_and]
  exact BitVec.and_allOnes

theorem setWidth_and_ffff (x : BitVec 32) : (x &&& 0xffff).setWidth 16 = x.setWidth 16 := by
  rw [BitVec.setWidth_and]
  exact BitVec.and_allOnes

theorem linear_initDescriptor (base limit : BitVec 32) (attr : BitVec 16) :
    (initDescriptor base limit attr).linear = base := by
  simp only [Descriptor.linear, initDescriptor, setWidth_and_ff, setWidth_and_ffff]
  apply BitVec.eq_of_getLsbD_eq
  intro i hi
  simp only [BitVec.getLsbD_or, BitVec.getLsbD_shiftLeft, BitVec.getLsbD_setWidth,
    BitVec.getLsbD_ushiftRight]
  by_cases h1 : i < 16
  · simp [h1, hi, show i < 24 by omega]
  by_cases h2 : i < 24
  · simp [h1, h2, hi, show i - 16 < 8 by omega, show i - 16 < 32 by omega,
      show 16 + (i - 16) = i by omega]
  · simp [h1, h2, hi, show ¬ i - 16 < 8 by omega, show i - 24 < 8 by omega,
      show i - 24 < 32 by omega, show 24 + (i - 24) = i by omega]

/-- The low nibble of the byte that holds the high bits of the limit and some attributes. -/
theorem limitHigh_initDescriptor (base limit : BitVec 32) (attr : BitVec 16) :
    (initDescriptor base limit attr).limitHighAttr2 &&& (0xf : BitVec 8) =
      (limit >>> 16).setWidth 8 &&& (0xf : BitVec 8) := by
  refine BitVec.eq_of_getLsbD_eq fun i hi => ?_
  simp only [initDescriptor, BitVec.getLsbD_and, BitVec.getLsbD_or, BitVec.getLsbD_setWidth]
  have hmask : ∀ j < 8, (0xf : BitVec 8).getLsbD j = true →
      ((0xf : ℕ) : BitVec 32).getLsbD j = true ∧ (0xf0 : BitVec 16).getLsbD j = false := by decide
  cases hf : (0xf : BitVec 8).getLsbD i with
  | false => simp
  | true =>
    obtain ⟨h32, h16⟩ := hmask i hi hf
    rw [h32, h16]
    simp

/-- The limit has twenty bits. -/
theorem limit_initDescriptor (base limit : BitVec 32) (attr : BitVec 16) :
    (initDescriptor base limit attr).limit.toNat = limit.toNat % 2 ^ 20 := by
  have hmask : (0xf : BitVec 8).toNat = 2 ^ 4 - 1 := rfl
  have hhigh : ((initDescriptor base limit attr).limitHighAttr2 &&& 0xf).toNat =
      limit.toNat / 2 ^ 16 % 2 ^ 4 := by
    rw [limitHigh_initDescriptor, BitVec.toNat_and, hmask, Nat.and_two_pow_sub_one_eq_mod,
      BitVec.toNat_setWidth, BitVec.toNat_ushiftRight, Nat.shiftRight_eq_div_pow]
    omega
  have hlow : (initDescriptor base limit attr).limitLow.toNat = limit.toNat % 2 ^ 16 := by
    simp only [initDescriptor, setWidth_and_ffff, BitVec.toNat_setWidth]
  rw [Descriptor.limit, BitVec.toNat_add, BitVec.toNat_shiftLeft, BitVec.toNat_setWidth,
    BitVec.toNat_setWidth, hhigh, hlow, Nat.shiftLeft_eq]
  omega

theorem limit4k_initDescriptor (base limit : BitVec 32) {attr : BitVec 16}
    (hattr : attr.getLsbD 15 = true) : (initDescriptor base limit attr).limit4k = true := by
  refine decide_eq_true fun h => ?_
  have hbit := congrArg (·.getLsbD 7) h
  have hmask : ((0xf0 : BitVec 16).getLsbD 7) = true := by decide
  have hlim : ((daLimit4k >>> 8).setWidth 8).getLsbD 7 = true := by decide
  simp only [initDescriptor, BitVec.getLsbD_and, BitVec.getLsbD_or, BitVec.getLsbD_setWidth,
    BitVec.getLsbD_ushiftRight, hattr, hmask, hlim] at hbit
  simp at hbit

end MyOS
