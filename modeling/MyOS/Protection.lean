import MyOS.KernelAsm
import MyOS.Descriptors
import MyOS.Lib.Segmentation

/-!
# The descriptor tables

The loader has four descriptors in its table, which `cstart` copies; `init_prot` puts one for the
TSS behind them and one for the LDT of each process, and the kernel runs with the table at `gdt`.
The processor looks into these tables in memory.
-/

namespace MyOS

open Memory

/-- The macro of `pm.inc`: the attributes and the high bits of the limit are a word. -/
def descriptorMacro (base limit : BitVec 32) (attr : BitVec 16) : Descriptor :=
  let word : BitVec 16 := ((limit >>> 8) &&& 0xf00).setWidth 16 ||| (attr &&& 0xf0ff)
  { limitLow := (limit &&& 0xffff).setWidth 16
    baseLow := (base &&& 0xffff).setWidth 16
    baseMid := ((base >>> 16) &&& 0xff).setWidth 8
    attr1 := word.setWidth 8
    limitHighAttr2 := (word >>> 8).setWidth 8
    baseHigh := ((base >>> 24) &&& 0xff).setWidth 8 }

def daDpl3 : BitVec 16 := 0x60
def daLdt : BitVec 16 := 0x82
def da386Tss : BitVec 16 := 0x89

def videoBase : Addr := 0xB8000
def videoLimit : BitVec 32 := 0xffff

/-- `LABEL_GDT` of `loader.asm` -/
def loaderGdt : List Descriptor :=
  [descriptorMacro 0 0 0,
    descriptorMacro 0 0xfffff (daCr ||| da32 ||| daLimit4k),
    descriptorMacro 0 0xfffff (daDrw ||| da32 ||| daLimit4k),
    descriptorMacro videoBase videoLimit (daDrw ||| daDpl3)]

/-- What `gdt` is when `init_prot` is called: it has started as zeros. -/
def cstartGdt : Gdt := fun i => loaderGdt.getD i ⟨0, 0, 0, 0, 0, 0⟩

def indexTss : Fin gdtSize := ⟨4, by decide⟩
def indexLdtFirst : ℕ := 5
def ldtSize : ℕ := 2
def sizeofDescriptor : ℕ := 8
def sizeofTss : ℕ := 104

theorem indexLdtFirst_add_lt (i : Slot) : indexLdtFirst + i.val < gdtSize := by
  have hi : i.val < 37 := i.isLt
  unfold indexLdtFirst gdtSize
  omega

/-- The entry for the LDT of a process. -/
def ldtIndex (i : Slot) : Fin gdtSize := ⟨indexLdtFirst + i.val, indexLdtFirst_add_lt i⟩

/-- `proc_table[i].ldt_sel` -/
def ldtSel (i : Slot) : BitVec 16 := 0x28 + BitVec.ofNat 16 i.val <<< 3

/-- A byte of the screen. -/
def InVideo (x : Addr) : Prop := Within x videoBase (videoLimit.toNat + 1)

instance (x : Addr) : Decidable (InVideo x) := inferInstanceAs (Decidable (Within _ _ _))

/-- A byte of the tables that are at these addresses. -/
def InTables (gdt : Addr) (ldts : Slot → Addr) (x : Addr) : Prop :=
  Within x gdt (gdtSize * sizeofDescriptor) ∨ ∃ p, Within x (ldts p) (ldtSize * sizeofDescriptor)

/-- Where the linker has put `gdt`, `tss` and the field `ldts` of each process: in the kernel, which
is below the processes and has the screen outside. -/
structure TableLayout where
  gdt : Addr
  tss : Addr
  ldts : Slot → Addr
  below : ∀ x, InTables gdt ldts x → x.toNat < procsBase.toNat ∧ ¬ InVideo x

variable (l : TableLayout)

/-- The loop over the processes. -/
def initProtLoop : List Slot → Gdt → Except Fault Gdt
  | [], gdt => .ok gdt
  | i :: is, gdt => do
    assert (indexLdtFirst + i.val < gdtSize)
    let base ← seg2linear gdt selectorKernelDs
    initProtLoop is (gdt.init (ldtIndex i) (base + l.ldts i)
      (BitVec.ofNat 32 (ldtSize * sizeofDescriptor - 1)) daLdt)

/-- What `init_prot` does with `gdt`. -/
def initProt (gdt : Gdt) : Except Fault Gdt := do
  let base ← seg2linear gdt selectorKernelDs
  let gdt := gdt.init indexTss (base + l.tss) (BitVec.ofNat 32 (sizeofTss - 1)) da386Tss
  initProtLoop l (List.finRange (nrTasks + nrProcs)) gdt

/-! ## What the processor makes of it -/

def Descriptor.decode (d : Descriptor) : Segmentation.Desc where
  base := d.linear
  limit := d.size - 1
  type := d.attr1.extractLsb' 0 4
  s := d.attr1.getLsbD 4
  dpl := (d.attr1.extractLsb' 5 2).toNat
  present := d.attr1.getLsbD 7
  big := d.limitHighAttr2.getLsbD 6

/-- The fields in their order in memory. -/
def Descriptor.load (mem : Mem) (a : Addr) : Descriptor where
  limitLow := load16 mem a
  baseLow := load16 mem (a + 2)
  baseMid := mem (a + 4)
  attr1 := mem (a + 5)
  limitHighAttr2 := mem (a + 6)
  baseHigh := mem (a + 7)

/-- The entries of a table. -/
def descriptorAt (mem : Mem) (base : Addr) (limit i : ℕ) : Option Segmentation.Desc :=
  if sizeofDescriptor * i + 7 ≤ limit then
    some (Descriptor.load mem (base + BitVec.ofNat 32 (sizeofDescriptor * i))).decode
  else none

/-- The descriptor is one of an LDT. -/
def isLdt (d : Segmentation.Desc) : Prop := d.present = true ∧ d.s = false ∧ d.type = 2

instance (d : Segmentation.Desc) : Decidable (isLdt d) := inferInstanceAs (Decidable (_ ∧ _ ∧ _))

/-- The tables, where the kernel has loaded its `gdt_ptr` and `lldt` has been done for `sel`. -/
def TableLayout.tables (mem : Mem) (sel : BitVec 16) : Segmentation.Tables :=
  let gdt := descriptorAt mem l.gdt (gdtSize * sizeofDescriptor - 1)
  { gdt
    ldt := fun i => (gdt (sel.toNat / 8)).bind fun d =>
      if isLdt d then descriptorAt mem d.base d.limit i else none }

/-- The tables are in memory. -/
structure TableLayout.Holds (gdt : Gdt) (k : Kernel) (mem : Mem) : Prop where
  gdt : ∀ i : Fin gdtSize,
    Descriptor.load mem (l.gdt + BitVec.ofNat 32 (sizeofDescriptor * i)) = gdt i
  ldts : ∀ (p : Slot) (i : Fin 2),
    Descriptor.load mem (l.ldts p + BitVec.ofNat 32 (sizeofDescriptor * i)) =
      (k.procTable p).ldts i

/-! ## What processes can do -/

def selectorUserCs : BitVec 16 := 0x07
def selectorUserDs : BitVec 16 := 0x0F
def selectorUserGs : BitVec 16 := 0x1B

/-- A process that has been forked. -/
def ForkedLive (k : Kernel) (p : Slot) : Prop := nrTasks + nrNativeProcs ≤ p.val ∧ Live k p

instance (k : Kernel) (p : Slot) : Decidable (ForkedLive k p) :=
  inferInstanceAs (Decidable (_ ∧ _))

/-- What these tables let a process do, whatever it loads to its segment registers: to execute its
image, to read and write that and the screen, and to use no gate. With the selectors it was started
with an address is the one that `va2la` computes, as far as the image goes. -/
structure Confined (k : Kernel) (p : Slot) (t : Segmentation.Tables) : Prop where
  exec : ∀ x, t.Reaches 3 .exec x ↔ InImage p x
  read : ∀ x, t.Reaches 3 .read x ↔ InImage p x ∨ InVideo x
  write : ∀ x, t.Reaches 3 .write x ↔ InImage p x ∨ InVideo x
  system : ¬ t.OpensSystem 3
  code : ∀ va, t.translate 3 .exec selectorUserCs va =
    if va.toNat < procImageSizeDefault.toNat then (va2la k p va).toOption else none
  data : ∀ va, t.translate 3 .write selectorUserDs va =
    if va.toNat < procImageSizeDefault.toNat then (va2la k p va).toOption else none

/-- A process that has been forked writes a byte. -/
structure UserWrite (k : Kernel) (mem : Mem) (w : Slot × Addr × Byte) (mem' : Mem) : Prop where
  live : ForkedLive k w.1
  translate : ∃ sel off, (l.tables mem (ldtSel w.1)).translate 3 .write sel off = some w.2.1
  mem : mem' = Function.update mem w.2.1 w.2.2

end MyOS
