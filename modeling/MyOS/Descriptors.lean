import MyOS.ProcRuns

/-!
# What is read of a descriptor

`ldt_seg_linear` of `kernel/proc.c` and `seg2linear` of `kernel/protect.c` put a base together with
or, the `reassembly` of `do_fork` puts bases and limits together with sums. All of it is done in
integers of 32 bits.
-/

namespace MyOS

def gdtSize : ℕ := 128

abbrev Gdt := Fin gdtSize → Descriptor

def ldtSegLinear (p : Proc) (idx : Fin 2) : BitVec 32 :=
  let d := p.ldts idx
  d.baseHigh.setWidth 32 <<< 24 ||| d.baseMid.setWidth 32 <<< 16 ||| d.baseLow.setWidth 32

/-- A selector behind the table is not looked for. -/
def seg2linear (gdt : Gdt) (seg : BitVec 16) : Except Fault (BitVec 32) :=
  if h : (seg >>> 3).toNat < gdtSize then
    let d := gdt ⟨(seg >>> 3).toNat, h⟩
    .ok (d.baseHigh.setWidth 32 <<< 24 ||| d.baseMid.setWidth 32 <<< 16 ||| d.baseLow.setWidth 32)
  else .error .wild

def reassembly (high : BitVec 32) (highShift : ℕ) (mid : BitVec 32) (midShift : ℕ)
    (low : BitVec 32) : BitVec 32 :=
  high <<< highShift + mid <<< midShift + low

/-- `caller_T_base` of the first descriptor of a process, `caller_D_S_base` of the second. -/
def callerBase (ppd : Descriptor) : BitVec 32 :=
  reassembly (ppd.baseHigh.setWidth 32) 24 (ppd.baseMid.setWidth 32) 16 (ppd.baseLow.setWidth 32)

/-- The high bits of the limit stand for `mid`, -/
def callerTLimit (ppd : Descriptor) : BitVec 32 :=
  reassembly 0 0 ((ppd.limitHighAttr2 &&& 0xF).setWidth 32) 16 (ppd.limitLow.setWidth 32)

/-- and here for `high`. -/
def callerDSLimit (ppd : Descriptor) : BitVec 32 :=
  reassembly ((ppd.limitHighAttr2 &&& 0xF).setWidth 32) 16 0 0 (ppd.limitLow.setWidth 32)

/-- `ppd->limit_high_attr2 & (DA_LIMIT_4K >> 8)` -/
def granularity (ppd : Descriptor) : BitVec 32 :=
  ppd.limitHighAttr2.setWidth 32 &&& (daLimit4k >>> 8).setWidth 32

def callerTSize (p : Proc) : BitVec 32 :=
  (callerTLimit (p.ldts 0) + 1) * if granularity (p.ldts 0) ≠ 0 then 4096 else 1

/-- The limit is that of the first segment here, too. -/
def callerDSSize (p : Proc) : BitVec 32 :=
  (callerTLimit (p.ldts 0) + 1) * if granularity (p.ldts 1) ≠ 0 then 4096 else 1

/-- An entry of the LDT of a process is written by `init_descriptor`, -/
def Proc.initLdt (p : Proc) (idx : Fin 2) (base limit : BitVec 32) (attr : BitVec 16) : Proc :=
  { p with ldts := Function.update p.ldts idx (initDescriptor base limit attr) }

/-- or one of the GDT. -/
def Gdt.init (gdt : Gdt) (i : Fin gdtSize) (base limit : BitVec 32) (attr : BitVec 16) : Gdt :=
  Function.update gdt i (initDescriptor base limit attr)

/-- Each reader of a descriptor gets what `init_descriptor` was given. -/
structure Decodes (base limit : BitVec 32) (attr : BitVec 16) : Prop where
  ofLdt : ∀ (p : Proc) (idx : Fin 2), ldtSegLinear (p.initLdt idx base limit attr) idx = base
  ofGdt : ∀ (gdt : Gdt) (i : Fin gdtSize) (seg : BitVec 16), (seg >>> 3).toNat = i.val →
    seg2linear (gdt.init i base limit attr) seg = .ok base
  callerBase : callerBase (initDescriptor base limit attr) = base
  tLimit : callerTLimit (initDescriptor base limit attr) = limit
  dsLimit : callerDSLimit (initDescriptor base limit attr) = limit
  granularity : granularity (initDescriptor base limit attr) =
    ((attr &&& daLimit4k) >>> 8).setWidth 32

/-- What the descriptors of a process are good for: it is addressed from the base that `alloc_mem`
gave, and a fork of it copies as much as it has. -/
structure ForkReads (mm : MmEnv) (k : Kernel) (p : Slot) : Prop where
  va2la : ∃ size base, allocMem mm p size = .ok base ∧ ∀ va, va2la k p va = .ok (base + va)
  tSize : callerTSize (k.procTable p) = procImageSizeDefault
  dsSize : callerDSSize (k.procTable p) = procImageSizeDefault
  nested : ∀ c k', forkProc mm k p = .ok (some c, k') → ∃ base, allocMem mm c
    procImageSizeDefault = .ok base ∧ k'.mem = Memory.memcpy k.mem base
      (callerBase ((k.procTable p).ldts 0)) procImageSizeDefault.toNat

end MyOS
