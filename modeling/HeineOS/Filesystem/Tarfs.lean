import Mathlib.Logic.Function.Basic
import Mathlib.Data.List.Basic
import Mathlib.Tactic.Ring

/-! The read-only file system over a tar archive: a table of open files, each with its entry and a read
position, under handles from a counter. -/
namespace HeineOS

/-- What `tar_no_std` gives for an entry: `filename().as_str()`, which fails on a name that is not
UTF-8, `data()` and `size()`. -/
structure ArchiveEntry where
  filename : Option String
  data : List UInt8
  size : Nat

structure FileHandle where
  id : Nat
  deriving DecidableEq, Repr

inductive FsError where
  | fileNotFound
  | invalidHandle
  | endOfFile
  deriving DecidableEq, Repr

inductive SeekMode where
  | start
  | current
  | end
  deriving DecidableEq, Repr

structure OpenFile where
  data : ArchiveEntry
  position : Nat

structure TarFs where
  archive : List ArchiveEntry
  openHandles : FileHandle → Option OpenFile
  nextHandle : Nat

namespace TarFs

/-- The `unwrap` of a file name, the overflow checks of `isize`, and the assertion of `clamp`. -/
inductive Panic where
  | utf8
  | arithmetic
  | clamp
  deriving DecidableEq, Repr

/-- The value behind a cast to `isize`. -/
def asIsize (n : Nat) : Int := if n < 2^63 then n else n - 2^64

def addIsize (a b : Int) : Except Panic Int :=
  if -2^63 ≤ a + b ∧ a + b < 2^63 then .ok (a + b) else .error .arithmetic

def clamp (a low high : Int) : Except Panic Int :=
  if low ≤ high then .ok (if a < low then low else if high < a then high else a) else .error .clamp

def new (archive : List ArchiveEntry) : TarFs := ⟨archive,fun _ => none,0⟩

/-- The id and the file system behind it. -/
def nextHandleId (fs : TarFs) : Nat × TarFs :=
  (fs.nextHandle,{ fs with nextHandle := (fs.nextHandle + 1) % 2^64 })

/-- Paths in the archive have no leading slash. -/
def stripSlash (path : String) : String :=
  match path.toList with
  | '/' :: rest => String.ofList rest
  | _ => path

def insert (fs : TarFs) (handle : FileHandle) (file : OpenFile) : TarFs :=
  { fs with openHandles := Function.update fs.openHandles handle (some file) }

/-- The loop of `open` over the entries of the archive. -/
def openLoop (fs : TarFs) (path : String) :
    List ArchiveEntry → Except Panic (Except FsError FileHandle × TarFs)
  | [] => .ok (.error .fileNotFound,fs)
  | entry :: entries =>
    match entry.filename with
    | none => .error .utf8
    | some name =>
      if name ≠ path then openLoop fs path entries
      else
        let (id,fs) := fs.nextHandleId
        .ok (.ok ⟨id⟩,fs.insert ⟨id⟩ ⟨entry,0⟩)

def «open» (fs : TarFs) (path : String) : Except Panic (Except FsError FileHandle × TarFs) :=
  fs.openLoop (stripSlash path) fs.archive

/-- The result, the buffer and the file system behind it. -/
def read (fs : TarFs) (handle : FileHandle) (buffer : List UInt8) :
    Except FsError Nat × List UInt8 × TarFs :=
  match fs.openHandles handle with
  | none => (.error .invalidHandle,buffer,fs)
  | some openFile =>
    let data := openFile.data.data
    if openFile.position ≥ data.length then (.error .endOfFile,buffer,fs)
    else
      let bytesToRead := min (data.length - openFile.position) buffer.length
      (.ok bytesToRead,(data.drop openFile.position).take bytesToRead ++ buffer.drop bytesToRead,
        fs.insert handle { openFile with position := openFile.position + bytesToRead })

/-- The position that a seek asks for. -/
def newPosition (openFile : OpenFile) (offset : Int) : SeekMode → Except Panic Int
  | .start => .ok offset
  | .current => addIsize (asIsize openFile.position) offset
  | .end => addIsize (asIsize openFile.data.data.length) offset

def seek (fs : TarFs) (handle : FileHandle) (offset : Int) (mode : SeekMode) :
    Except Panic (Except FsError Nat × TarFs) := do
  match fs.openHandles handle with
  | none => return (.error .invalidHandle,fs)
  | some openFile =>
    let position ← newPosition openFile offset mode
    let clamped ← clamp position 0 (asIsize openFile.data.data.length)
    return (.ok clamped.toNat,fs.insert handle { openFile with position := clamped.toNat })

def size (fs : TarFs) (handle : FileHandle) : Except FsError Nat :=
  match fs.openHandles handle with
  | none => .error .invalidHandle
  | some openFile => .ok openFile.data.size

def close (fs : TarFs) (handle : FileHandle) : TarFs :=
  { fs with openHandles := Function.update fs.openHandles handle none }

variable (fs : TarFs) {handle : FileHandle} {openFile : OpenFile}

@[simp] theorem insert_self : (fs.insert handle openFile).openHandles handle = some openFile :=
  Function.update_self _ _ _

theorem insert_ne {handle' : FileHandle} (h : handle' ≠ handle) :
    (fs.insert handle openFile).openHandles handle' = fs.openHandles handle' :=
  Function.update_of_ne h _ _

@[simp] theorem insert_archive : (fs.insert handle openFile).archive = fs.archive := rfl
@[simp] theorem insert_nextHandle : (fs.insert handle openFile).nextHandle = fs.nextHandle := rfl

@[simp] theorem close_archive : (fs.close handle).archive = fs.archive := rfl
@[simp] theorem close_nextHandle : (fs.close handle).nextHandle = fs.nextHandle := rfl

/-- A name that is not UTF-8 stops every walk over the entries, or the first entry with the path as its name is opened
at its start. -/
theorem openLoop_cases (entries : List ArchiveEntry) (path : String) :
    ((∃ entry ∈ entries, entry.filename = none) ∧ ∀ fs : TarFs, fs.openLoop path entries = .error .utf8) ∨
      ∀ fs : TarFs, fs.openLoop path entries =
        match entries.find? fun entry => entry.filename == some path with
        | none => .ok (.error .fileNotFound,fs)
        | some entry =>
          .ok (.ok ⟨fs.nextHandle⟩,
            { fs with nextHandle := (fs.nextHandle + 1) % 2^64 }.insert ⟨fs.nextHandle⟩ ⟨entry,0⟩) := by
  induction entries with
  | nil => exact .inr fun fs => rfl
  | cons entry entries ih =>
    cases hname : entry.filename with
    | none =>
      left
      refine ⟨⟨entry,List.mem_cons_self,hname⟩,?_⟩
      intro fs
      simp only [openLoop, hname]
    | some name =>
      by_cases hp : name = path
      · right
        intro fs
        simp [openLoop, nextHandleId, hname, hp]
      · have hfind : (entry :: entries).find? (fun entry => entry.filename == some path) =
            entries.find? fun entry => entry.filename == some path := by
          apply List.find?_cons_of_neg
          simp [hname, hp]
        have hnext (fs : TarFs) : fs.openLoop path (entry :: entries) = fs.openLoop path entries := by
          simp only [openLoop, hname, if_pos hp]
        rw [hfind]
        simp only [hnext]
        rcases ih with ⟨⟨entry',hm,hnone⟩,hpanic⟩ | hloop
        · exact .inl ⟨⟨entry',List.mem_cons_of_mem _ hm,hnone⟩,hpanic⟩
        · exact .inr hloop

theorem read_eq (h : fs.openHandles handle = some openFile) (buffer : List UInt8) :
    fs.read handle buffer =
      if openFile.position ≥ openFile.data.data.length then (.error .endOfFile,buffer,fs)
      else
        (.ok (min (openFile.data.data.length - openFile.position) buffer.length),
          (openFile.data.data.drop openFile.position).take
            (min (openFile.data.data.length - openFile.position) buffer.length) ++
            buffer.drop (min (openFile.data.data.length - openFile.position) buffer.length),
          fs.insert handle { openFile with
            position := openFile.position + min (openFile.data.data.length - openFile.position) buffer.length }) := by
  simp only [read, h]

/-- Where a seek starts from. -/
def base (file : OpenFile) : SeekMode → Nat
  | .start => 0
  | .current => file.position
  | .end => file.data.data.length

/-- Clamping to the file. -/
def clamped (length : Nat) (position : Int) : Nat := (max 0 (min position length)).toNat

theorem clamped_le (length : Nat) (position : Int) : clamped length position ≤ length := by
  unfold clamped
  omega

private theorem newPosition_eq (openFile : OpenFile) {offset : Int} (hoffset : -2^63 ≤ offset ∧ offset < 2^63)
    (mode : SeekMode) : newPosition openFile offset mode = addIsize (asIsize (base openFile mode)) offset := by
  cases mode with
  | start =>
    have hzero : asIsize (base openFile .start) = 0 := rfl
    rw [newPosition,hzero,addIsize,Int.zero_add,if_pos hoffset]
  | current => rfl
  | «end» => rfl

private theorem seek_newPosition (h : fs.openHandles handle = some openFile)
    (hlen : openFile.data.data.length < 2^63) (offset : Int) (mode : SeekMode) :
    fs.seek handle offset mode = (newPosition openFile offset mode).map fun position =>
      (.ok (clamped openFile.data.data.length position),
        fs.insert handle { openFile with position := clamped openFile.data.data.length position }) := by
  have hl : asIsize openFile.data.data.length = openFile.data.data.length := if_pos hlen
  have hclamp (position : Int) : clamp position 0 openFile.data.data.length =
      .ok (clamped openFile.data.data.length position : Int) := by
    have h0 : (0 : Int) ≤ openFile.data.data.length := Int.natCast_nonneg _
    rw [clamp,if_pos h0,clamped]
    congr 1
    omega
  simp only [seek, h, hl]
  cases newPosition openFile offset mode with
  | error e => rfl
  | ok position =>
    simp only [bind, Except.bind, hclamp, Int.toNat_natCast]
    rfl

/-- The seek ends without an overflow, and returns and stores the sum over the integers, clamped to the file. -/
def SeekClamps (fs : TarFs) (handle : FileHandle) (file : OpenFile) (offset : Int) (mode : SeekMode) : Prop :=
  ∃ position : Nat, (position : Int) = min (max (base file mode + offset) 0) file.data.data.length ∧
    fs.seek handle offset mode = .ok (.ok position,fs.insert handle { file with position := position })

/-- The sum of the base and the offset is below the limit of `isize`. A position from `2^63` on counts as negative, and
the sum then has to come out behind the end of the file again. -/
def SumFits (file : OpenFile) (offset : Int) (mode : SeekMode) : Prop :=
  if base file mode < 2^63 then base file mode + offset < 2^63
  else 2^63 ≤ base file mode + offset ∧
    (file.data.data.length = 0 ∨ 2^64 + file.data.data.length ≤ base file mode + offset)

/-- A seek returns and stores the clamped sum exactly when the sum fits. -/
theorem seek_clamps_iff (h : fs.openHandles handle = some openFile) (hlen : openFile.data.data.length < 2^63)
    (hpos : openFile.position < 2^64) {offset : Int} (hoffset : -2^63 ≤ offset ∧ offset < 2^63) (mode : SeekMode) :
    fs.SeekClamps handle openFile offset mode ↔ SumFits openFile offset mode := by
  have hbase : base openFile mode < 2^64 := by
    cases mode with
    | start => exact Nat.two_pow_pos 64
    | current => exact hpos
    | «end» => exact hlen.trans (by decide)
  rw [SeekClamps,seek_newPosition fs h hlen,newPosition_eq openFile hoffset mode,addIsize,SumFits]
  generalize base openFile mode = b at hbase
  have hcast : asIsize b = if b < 2^63 then (b : Int) else b - 2^64 := rfl
  by_cases hin : -2^63 ≤ asIsize b + offset ∧ asIsize b + offset < 2^63
  · rw [if_pos hin]
    constructor
    · intro hseek
      obtain ⟨position,hposition,hseek⟩ := hseek
      injection hseek with hseek
      injection hseek with hresult _
      injection hresult with hclamped
      rw [clamped] at hclamped
      split_ifs with hb
      · rw [if_pos hb] at hcast
        omega
      · rw [if_neg hb] at hcast
        omega
    · intro hfits
      refine ⟨clamped openFile.data.data.length (asIsize b + offset),?_,rfl⟩
      rw [clamped]
      split_ifs at hfits with hb
      · rw [if_pos hb] at hcast
        omega
      · rw [if_neg hb] at hcast
        omega
  · rw [if_neg hin]
    apply iff_of_false
    · intro hseek
      obtain ⟨_,_,hseek⟩ := hseek
      exact nomatch hseek
    · intro hfits
      split_ifs at hfits with hb
      · rw [if_pos hb] at hcast
        omega
      · rw [if_neg hb] at hcast
        omega

/-- One open file of two bytes, read up to its end. -/
def readToItsEnd : TarFs := (new []).insert ⟨0⟩ ⟨⟨some "a.txt",[72,105],2⟩,2⟩

/-- The lowest offset lands on the start. -/
theorem seek_clamps_before_start : readToItsEnd.SeekClamps ⟨0⟩ ⟨⟨some "a.txt",[72,105],2⟩,2⟩ (-2^63) .current := by
  have hoffset : -2^63 ≤ (-2^63 : Int) ∧ (-2^63 : Int) < 2^63 := by decide
  have hclamps := seek_clamps_iff readToItsEnd (insert_self _) (by decide) (by decide) hoffset .current
  exact hclamps.mpr (by rw [SumFits]; decide)

/-- The largest offset from the end overflows, where clamping would stay at the end. -/
theorem seek_overflows : ¬ readToItsEnd.SeekClamps ⟨0⟩ ⟨⟨some "a.txt",[72,105],2⟩,2⟩ (2^63 - 1) .end := by
  intro hclamps
  obtain ⟨position,-,hseek⟩ := hclamps
  have hpanic : readToItsEnd.seek ⟨0⟩ (2^63 - 1) .end = .error .arithmetic := rfl
  rw [hpanic] at hseek
  exact nomatch hseek

end TarFs

end HeineOS
