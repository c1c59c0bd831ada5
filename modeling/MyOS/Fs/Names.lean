import MyOS.Fs.World

/-!
# The names of files

What the root directory is for: a name has the inode number that its last creation gave, until it is
unlinked. The runs are those of the requests that do not move bytes: a directory can be opened, and
is written, and grows where it is read, as any other file is.
-/

namespace MyOS

open Memory Block

/-- A name that a file can have. -/
def IsName (filename : List Byte) : Prop :=
  filename ≠ [] ∧ filename.length ≤ maxFilenameLen ∧ slash ∉ filename ∧ (0 : Byte) ∉ filename

instance (filename : List Byte) : Decidable (IsName filename) :=
  inferInstanceAs (Decidable (_ ∧ _ ∧ _ ∧ _))

/-- The name in the path of a request. -/
def filenameOf (user : Addr → Byte) (msg : Message) : List Byte :=
  ((getPath user msg).toOption.bind stripPath).getD []

/-- The number of the inode that descriptor `fd` is of. -/
def fdInodeNr (fs : Fs) (pcaller : Slot) (fd : Int) : BitVec 32 :=
  ((fs.filp pcaller (Fin.ofNat 64 fd.toNat)).bind fun d => (fs.fDescTable d).fdInode).elim 0
    fun pin => BitVec.ofInt 32 (fs.inodeTable pin).iNum

/-- The numbers names have after a request that has returned `v` and left `fs`. -/
def FsRequest.gives (given : List Byte → Option (BitVec 32)) (v : Int) (fs : Fs) :
    FsRequest → List Byte → Option (BitVec 32)
  | .open caller user msg =>
    if msg.flags &&& oCreat ≠ 0 ∧ v ≠ -1 then
      Function.update given (filenameOf user msg) (some (fdInodeNr fs caller v))
    else given
  | .unlink user msg => if v = 0 then Function.update given (filenameOf user msg) none else given
  | _ => given

def FsRequest.isRdwt : FsRequest → Bool
  | .rdwt _ _ _ _ => true
  | _ => false

structure NamedWorld extends FsWorld where
  given : List Byte → Option (BitVec 32)

/-- A request that does not move bytes, where it does not stop. -/
def namedStep (w : NamedWorld) (r : FsRequest) : Option NamedWorld :=
  if r.isFrom w.live = true ∧ r.isRdwt = false then
    (fsCall w.fs r).toOption.map fun x =>
      { fs := x.2, live := r.lives w.live, given := r.gives w.given x.1 x.2 }
  else none

/-- The numbers of the entries that `mkfs` writes. -/
def mkfsGiven (filename : List Byte) : Option (BitVec 32) :=
  (mkfsEntries.find? fun x => x.2 = filename).map fun x => BitVec.ofNat 32 x.1

def NamedWorldStart (nrSects : ℕ) (w : NamedWorld) : Prop :=
  FsWorldStart nrSects w.toFsWorld ∧ w.given = mkfsGiven

end MyOS
