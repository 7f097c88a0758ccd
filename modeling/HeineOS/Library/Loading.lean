import HeineOS.Filesystem.Tarfs
import HeineOS.Library.Bitmap

/-! Loading a bitmap from a file, and the handles that are open afterwards. -/
namespace HeineOS
open TarFs

/-- `none` is a panic of a function that is called. -/
def Bitmap.readFromFile (fs : TarFs) (path : String) : Option (Except FsError (Option Bitmap) × TarFs) :=
  match fs.open path with
  | .error _ => none
  | .ok (.error e,fs) => some (.error e,fs)
  | .ok (.ok file,fs) =>
    match fs.size file with
    | .error e => some (.error e,fs)
    | .ok size =>
      match fs.read file (List.replicate size 0) with
      | (.error e,_,fs) => some (.error e,fs)
      | (.ok _,bmpData,fs) => (Bitmap.fromBytes bmpData).map fun bitmap => (.ok bitmap,fs)

namespace TarFs

/-- Loading from the same path again and again. -/
def loadTimes (fs : TarFs) (path : String) : Nat → Option TarFs
  | 0 => some fs
  | n + 1 => (Bitmap.readFromFile fs path).bind fun r => r.2.loadTimes path n

/-- The open handles, each with its position. -/
def positions (fs : TarFs) (handle : FileHandle) : Option Nat := (fs.openHandles handle).map OpenFile.position

/-- The first entry with the name that a path stands for. -/
def lookup (archive : List ArchiveEntry) (path : String) : Option ArchiveEntry :=
  archive.find? fun entry => entry.filename == some (stripSlash path)

/-- The position behind a read of the whole file. -/
def endPosition (entry : ArchiveEntry) : Nat := min entry.data.length entry.size

variable {fs : TarFs} {archive : List ArchiveEntry} {path : String} {entry : ArchiveEntry}

private theorem positions_insert (handle : FileHandle) (file : OpenFile) :
    (fs.insert handle file).positions = Function.update fs.positions handle (some file.position) := by
  funext handle'
  by_cases h : handle' = handle
  · rw [h,positions,insert_self,Function.update_self]
    rfl
  · rw [positions,insert_ne _ h,Function.update_of_ne h]
    rfl

/-- What a call leaves behind when the file is there: a handle at the end of what was read. -/
structure Leaves (fs : TarFs) (entry : ArchiveEntry) (fs' : TarFs) : Prop where
  archive : fs'.archive = fs.archive
  nextHandle : fs'.nextHandle = (fs.nextHandle + 1) % 2^64
  positions : fs'.positions = Function.update fs.positions ⟨fs.nextHandle⟩ (some (endPosition entry))

/-- The state behind `open`. -/
private def opened (fs : TarFs) (entry : ArchiveEntry) : TarFs :=
  { fs with nextHandle := (fs.nextHandle + 1) % 2^64 }.insert ⟨fs.nextHandle⟩ ⟨entry,0⟩

private theorem opened_leaves (hend : endPosition entry = 0) : Leaves fs entry (fs.opened entry) where
  archive := rfl
  nextHandle := rfl
  positions := by
    rw [opened,positions_insert,hend]
    rfl

private theorem insert_leaves {position : Nat} (hend : endPosition entry = position) :
    Leaves fs entry ((fs.opened entry).insert ⟨fs.nextHandle⟩ ⟨entry,position⟩) where
  archive := rfl
  nextHandle := rfl
  positions := by
    rw [opened,positions_insert,positions_insert,Function.update_idem,hend]
    rfl

/-- The result does not depend on the table, and neither does whether there is one. -/
private theorem readFromFile_found (entry : ArchiveEntry) (path : String) :
    ∃ result : Option (Except FsError (Option Bitmap)), ∀ fs : TarFs,
      fs.open path = .ok (.ok ⟨fs.nextHandle⟩,fs.opened entry) →
      ∃ fs', Leaves fs entry fs' ∧ Bitmap.readFromFile fs path = result.map fun r => (r,fs') := by
  have hfile (fs : TarFs) : (fs.opened entry).openHandles ⟨fs.nextHandle⟩ = some ⟨entry,0⟩ := insert_self _
  by_cases hempty : entry.data.length = 0
  · refine ⟨some (.error .endOfFile),?_⟩
    intro fs hopen
    refine ⟨fs.opened entry,opened_leaves (by rw [endPosition,hempty,Nat.zero_min]),?_⟩
    simp only [Bitmap.readFromFile, hopen, size, hfile, read_eq _ (hfile fs), hempty, ge_iff_le, le_refl, if_true,
      Option.map_some]
  · refine ⟨(Bitmap.fromBytes ((entry.data.drop 0).take (min (entry.data.length - 0) entry.size) ++
      (List.replicate entry.size 0).drop (min (entry.data.length - 0) entry.size))).map .ok,?_⟩
    intro fs hopen
    have hread : ¬ 0 ≥ entry.data.length := by omega
    have hend : endPosition entry = 0 + min (entry.data.length - 0) entry.size := by
      rw [endPosition]
      omega
    refine ⟨_,insert_leaves hend,?_⟩
    simp only [Bitmap.readFromFile, hopen, size, hfile, read_eq _ (hfile fs), if_neg hread, List.length_replicate]
    rw [Option.map_map]
    rfl

/-- What a call can do, with the file systems of one archive. -/
private theorem readFromFile_cases (archive : List ArchiveEntry) (path : String) :
    (∀ fs : TarFs, fs.archive = archive → Bitmap.readFromFile fs path = none) ∨
    (lookup archive path = none ∧
      ∀ fs : TarFs, fs.archive = archive → Bitmap.readFromFile fs path = some (.error .fileNotFound,fs)) ∨
    ∃ entry result, lookup archive path = some entry ∧
      ∀ fs : TarFs, fs.archive = archive →
        ∃ fs', Leaves fs entry fs' ∧ Bitmap.readFromFile fs path = some (result,fs') := by
  rcases openLoop_cases archive (stripSlash path) with ⟨-,hpanic⟩ | hloop
  · left
    intro fs harchive
    simp only [Bitmap.readFromFile, TarFs.open, harchive, hpanic]
  · cases hfind : lookup archive path with
    | none =>
      right
      left
      refine ⟨rfl,?_⟩
      intro fs harchive
      rw [lookup] at hfind
      simp only [Bitmap.readFromFile, TarFs.open, harchive, hloop, hfind]
    | some entry =>
      have hopen {fs : TarFs} (harchive : fs.archive = archive) :
          fs.open path = .ok (.ok ⟨fs.nextHandle⟩,fs.opened entry) := by
        rw [lookup] at hfind
        rw [TarFs.open,harchive,hloop]
        simp only [hfind]
        rfl
      obtain ⟨result,hresult⟩ := readFromFile_found entry path
      cases result with
      | none =>
        left
        intro fs harchive
        obtain ⟨_,_,hread⟩ := hresult fs (hopen harchive)
        exact hread
      | some result =>
        right
        right
        exact ⟨entry,result,rfl,fun fs harchive => hresult fs (hopen harchive)⟩

/-- Each call on a file that is there leaves one more handle at its end, until the counter comes back. -/
private theorem loadTimes_positions {result : Except FsError (Option Bitmap)}
    (hcall : ∀ fs : TarFs, fs.archive = archive →
      ∃ fs', Leaves fs entry fs' ∧ Bitmap.readFromFile fs path = some (result,fs')) (n : Nat)
    (harchive : fs.archive = archive) (hnext : fs.nextHandle < 2^64) :
    ∃ fs', fs.loadTimes path n = some fs' ∧ ∀ handle, fs'.positions handle =
      if ∃ k < n, handle.id = (fs.nextHandle + k) % 2^64 then some (endPosition entry) else fs.positions handle := by
  induction n generalizing fs with
  | zero => exact ⟨fs,rfl,fun handle => by simp⟩
  | succ n ih =>
    obtain ⟨fs₁,hleaves,hread⟩ := hcall fs harchive
    have hnext₁ := hleaves.nextHandle
    obtain ⟨fs₂,hrest,hpositions⟩ := ih (hleaves.archive.trans harchive) (by omega)
    refine ⟨fs₂,?_,?_⟩
    · rw [loadTimes,hread]
      exact hrest
    · intro handle
      rw [hpositions,hnext₁,hleaves.positions]
      by_cases hlater : ∃ k < n, handle.id = ((fs.nextHandle + 1) % 2^64 + k) % 2^64
      · have hin : ∃ k < n + 1, handle.id = (fs.nextHandle + k) % 2^64 := by
          obtain ⟨k,hk,hid⟩ := hlater
          exact ⟨k + 1,by omega,by omega⟩
        rw [if_pos hlater,if_pos hin]
      · rw [if_neg hlater]
        by_cases hfirst : handle = ⟨fs.nextHandle⟩
        · have hin : ∃ k < n + 1, handle.id = (fs.nextHandle + k) % 2^64 := by
            refine ⟨0,by omega,?_⟩
            rw [hfirst,Nat.add_zero,Nat.mod_eq_of_lt hnext]
          rw [if_pos hin,hfirst,Function.update_self]
        · have hout : ¬ ∃ k < n + 1, handle.id = (fs.nextHandle + k) % 2^64 := by
            intro hin
            obtain ⟨k,hk,hid⟩ := hin
            cases k with
            | zero =>
              rw [Nat.add_zero,Nat.mod_eq_of_lt hnext] at hid
              exact hfirst (congrArg FileHandle.mk hid)
            | succ k => exact hlater ⟨k,by omega,by omega⟩
          rw [if_neg hout,Function.update_of_ne hfirst]

private theorem loadTimes_not_found
    (hcall : ∀ fs : TarFs, fs.archive = archive → Bitmap.readFromFile fs path = some (.error .fileNotFound,fs))
    (harchive : fs.archive = archive) (n : Nat) : fs.loadTimes path n = some fs := by
  induction n with
  | zero => rfl
  | succ n ih =>
    rw [loadTimes,hcall fs harchive]
    exact ih

/-- A call that returns leaves the open handles and their positions as they were exactly when the file is not there, or
the next handle is still open and stands where the call leaves it. Any number of calls does exactly when this is so of
every handle. -/
theorem loading_keeps_handles_iff {result : Except FsError (Option Bitmap)} {fs' : TarFs}
    (h : Bitmap.readFromFile fs path = some (result,fs')) (hnext : fs.nextHandle < 2^64) :
    (fs'.positions = fs.positions ↔ ∀ entry, lookup fs.archive path = some entry →
      fs.positions ⟨fs.nextHandle⟩ = some (endPosition entry)) ∧
    ((∀ n fs'', fs.loadTimes path n = some fs'' → fs''.positions = fs.positions) ↔
      ∀ entry, lookup fs.archive path = some entry →
        ∀ id < 2^64, fs.positions ⟨id⟩ = some (endPosition entry)) := by
  rcases readFromFile_cases fs.archive path with hpanic | ⟨hlookup,hcall⟩ | ⟨entry,_,hlookup,hcall⟩
  · rw [hpanic fs rfl] at h
    exact nomatch h
  · rw [hcall fs rfl,Option.some.injEq,Prod.mk.injEq] at h
    rw [hlookup,h.2]
    refine ⟨iff_of_true rfl (by simp),iff_of_true ?_ (by simp)⟩
    intro n fs'' hn
    rw [← h.2,loadTimes_not_found hcall rfl,Option.some.injEq] at hn
    rw [← hn,h.2]
  · obtain ⟨fs₁,hleaves,hread⟩ := hcall fs rfl
    rw [hread,Option.some.injEq,Prod.mk.injEq] at h
    rw [hlookup,← h.2,hleaves.positions,Function.update_eq_self_iff]
    constructor
    · constructor
      · intro hsame _ hentry
        rw [← Option.some.inj hentry,hsame]
      · intro hstands
        exact (hstands entry rfl).symm
    · constructor
      · intro hkeeps _ hentry id hid
        obtain ⟨fs'',hn,hpositions⟩ := loadTimes_positions hcall (2^64) rfl hnext
        have hin : ∃ k < 2^64, (⟨id⟩ : FileHandle).id = (fs.nextHandle + k) % 2^64 := by
          refine ⟨(id + 2^64 - fs.nextHandle) % 2^64,Nat.mod_lt _ (Nat.two_pow_pos 64),?_⟩
          change id = _
          omega
        rw [← hkeeps _ fs'' hn,hpositions,if_pos hin,Option.some.inj hentry]
      · intro hstand n fs'' hn
        obtain ⟨_,hn',hpositions⟩ := loadTimes_positions hcall n rfl hnext
        rw [hn,Option.some.injEq] at hn'
        funext handle
        rw [hn',hpositions]
        split_ifs with hin
        · obtain ⟨k,_,hid⟩ := hin
          exact (hstand entry rfl handle.id (hid ▸ Nat.mod_lt _ (Nat.two_pow_pos 64))).symm
        · rfl

/-- An archive with a file that is no image, and the same archive with that file open. -/
def noImage : TarFs := new [⟨some "heine.bmp",List.replicate 54 0,54⟩]

def oneOpen : TarFs := { noImage with nextHandle := 1 }.insert ⟨0⟩ ⟨⟨some "heine.bmp",List.replicate 54 0,54⟩,0⟩

/-- A path that is not in the archive. The open handle stays where it is. -/
theorem loading_keeps_handles_missing :
    noImage.open "heine.bmp" = .ok (.ok ⟨0⟩,oneOpen) ∧
    Bitmap.readFromFile oneOpen "logo.bmp" = some (.error .fileNotFound,oneOpen) ∧
      ∀ n fs'', oneOpen.loadTimes "logo.bmp" n = some fs'' → fs''.positions ⟨0⟩ = some 0 := by
  have hopen : noImage.open "heine.bmp" = .ok (.ok ⟨0⟩,oneOpen) := rfl
  have hread : Bitmap.readFromFile oneOpen "logo.bmp" = some (.error .fileNotFound,oneOpen) := rfl
  have hmissing : lookup oneOpen.archive "logo.bmp" = none := rfl
  have hkeeps := (loading_keeps_handles_iff hread (by decide)).2.mpr fun entry hentry => by
    rw [hmissing] at hentry
    exact nomatch hentry
  refine ⟨hopen,hread,?_⟩
  intro n fs'' hload
  rw [hkeeps n fs'' hload]
  rfl

/-- The call returns `Ok(None)`, and the handle is still open. -/
theorem loading_leaks_handle : ∃ fs', Bitmap.readFromFile noImage "heine.bmp" = some (.ok none,fs') ∧
    fs'.positions ≠ noImage.positions := by
  refine ⟨_,rfl,?_⟩
  intro hsame
  exact nomatch congrFun hsame ⟨0⟩

end TarFs

end HeineOS
