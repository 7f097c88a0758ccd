import HeineOS.Filesystem.Tarfs
import HeineOS.Lib.System

/-! Handles as independent cursors. The reference model keeps one cursor for each successful open, in the
order of the opens, and never reuses a place; the table of open files refines it. -/
namespace HeineOS
open Lib

/-- The calls of the file system. -/
inductive FsCall where
  | open (path : String)
  | read (handle : FileHandle) (buffer : List UInt8)
  | seek (handle : FileHandle) (offset : Int) (mode : SeekMode)
  | size (handle : FileHandle)
  | close (handle : FileHandle)

/-- What a call returns, with the buffer of a read. -/
inductive FsResult where
  | opened (result : Except FsError FileHandle)
  | count (result : Except FsError Nat) (buffer : List UInt8)
  | offset (result : Except FsError Nat)
  | done

/-- The handle that a call works on or returns. -/
def FsCall.names : FsCall → FsResult → Option FileHandle
  | .open _, .opened (.ok handle) => some handle
  | .open _, _ => none
  | .read handle _, _ | .seek handle _ _, _ | .size handle, _ | .close handle, _ => some handle

/-- A position in the bytes of a file. -/
structure Cursor where
  bytes : List UInt8
  position : Nat
  inside : position ≤ bytes.length

/-- One place for each successful open, empty once it is closed. -/
abbrev Cursors : Type := List (Option Cursor)

namespace Cursors

def cursor (s : Cursors) (handle : FileHandle) : Option Cursor := (s[handle.id]?).join

def seekBase (c : Cursor) : SeekMode → Nat
  | .start => 0
  | .current => c.position
  | .end => c.bytes.length

/-- A call on the cursors over the named files. -/
def exec (files : List (String × List UInt8)) (s : Cursors) : FsCall → FsResult × Cursors
  | .open path =>
    match files.find? fun file => file.1 == TarFs.stripSlash path with
    | none => (.opened (.error .fileNotFound),s)
    | some file => (.opened (.ok ⟨s.length⟩),s ++ [some ⟨file.2,0,Nat.zero_le _⟩])
  | .read handle buffer =>
    match s.cursor handle with
    | none => (.count (.error .invalidHandle) buffer,s)
    | some c =>
      if c.position = c.bytes.length then (.count (.error .endOfFile) buffer,s)
      else
        let n := min (c.bytes.length - c.position) buffer.length
        (.count (.ok n) ((c.bytes.drop c.position).take n ++ buffer.drop n),
          s.set handle.id (some ⟨c.bytes,c.position + n,by have := c.inside; omega⟩))
  | .seek handle offset mode =>
    match s.cursor handle with
    | none => (.offset (.error .invalidHandle),s)
    | some c =>
      let position := TarFs.clamped c.bytes.length (seekBase c mode + offset)
      (.offset (.ok position),s.set handle.id (some ⟨c.bytes,position,TarFs.clamped_le _ _⟩))
  | .size handle =>
    match s.cursor handle with
    | none => (.offset (.error .invalidHandle),s)
    | some c => (.offset (.ok c.bytes.length),s)
  | .close handle => (.done,s.set handle.id none)

def run (files : List (String × List UInt8)) (s : Cursors) : List FsCall → List FsResult × Cursors
  | [] => ([],s)
  | call :: calls =>
    let (result,s) := s.exec files call
    let (results,s) := s.run files calls
    (result :: results,s)

theorem length_of_cursor {s : Cursors} {handle : FileHandle} {c : Cursor} (h : s.cursor handle = some c) :
    handle.id < s.length := by
  by_contra hlt
  rw [cursor,List.getElem?_eq_none (by omega)] at h
  cases h

theorem cursor_set {s : Cursors} (handle handle' : FileHandle) (c : Option Cursor)
    (h : handle.id < s.length ∨ c = none) :
    cursor (s.set handle.id c) handle' = if handle' = handle then c else s.cursor handle' := by
  unfold cursor
  split
  · rename_i he
    subst he
    rcases h with hlt | rfl
    · rw [List.getElem?_set_self hlt]
      rfl
    · by_cases hlt : handle'.id < s.length
      · rw [List.getElem?_set_self hlt]
        rfl
      · rw [List.getElem?_eq_none (by simpa using hlt)]
        rfl
  · rename_i hne
    have hid : handle.id ≠ handle'.id := by
      intro he
      apply hne
      cases handle
      cases handle'
      cases he
      rfl
    rw [List.getElem?_set_ne hid]

end Cursors

namespace TarFs

def exec (fs : TarFs) : FsCall → Except Panic (FsResult × TarFs)
  | .open path => do
    let (result,fs) ← fs.open path
    return (.opened result,fs)
  | .read handle buffer =>
    let (result,buffer,fs) := fs.read handle buffer
    .ok (.count result buffer,fs)
  | .seek handle offset mode => do
    let (result,fs) ← fs.seek handle offset mode
    return (.offset result,fs)
  | .size handle => .ok (.offset (fs.size handle),fs)
  | .close handle => .ok (.done,fs.close handle)

/-- A seek stays within `isize`, and the counter has not been used up. -/
def Admissible (fs : TarFs) : FsCall → Prop
  | .open _ => fs.nextHandle + 1 < 2^64
  | .seek handle offset mode => ∀ file, fs.openHandles handle = some file →
      -2^63 ≤ base file mode + offset ∧ base file mode + offset < 2^63
  | _ => True

def system (archive : List ArchiveEntry) : System TarFs (FsCall × FsResult) where
  init fs := fs = new archive
  step fs call fs' := fs.Admissible call.1 ∧ fs.exec call.1 = .ok (call.2,fs')

/-- What the archive is relied on for: its names are UTF-8, `size()` is the length of `data()`, and
`data()` is a slice. -/
structure WellFormed (archive : List ArchiveEntry) : Prop where
  names : ∀ entry ∈ archive, entry.filename.isSome = true
  sizes : ∀ entry ∈ archive, entry.size = entry.data.length
  slices : ∀ entry ∈ archive, entry.data.length < 2^63

/-- The files by name. -/
def files (archive : List ArchiveEntry) : List (String × List UInt8) :=
  archive.map fun entry => (entry.filename.getD "",entry.data)

/-- The open file is what the cursor says. -/
structure Shows (archive : List ArchiveEntry) (file : OpenFile) (c : Cursor) : Prop where
  mem : file.data ∈ archive
  bytes : file.data.data = c.bytes
  position : file.position = c.position

structure Agrees (archive : List ArchiveEntry) (fs : TarFs) (s : Cursors) : Prop where
  same : fs.archive = archive
  next : fs.nextHandle = s.length
  handles : ∀ handle, Option.Rel (Shows archive) (fs.openHandles handle) (s.cursor handle)

section
variable {archive : List ArchiveEntry} {fs fs' : TarFs} {s : Cursors}

private theorem Agrees.new : Agrees archive (new archive) [] :=
  ⟨rfl,rfl,fun _ => .none⟩

private theorem Agrees.cases (h : Agrees archive fs s) (handle : FileHandle) :
    (fs.openHandles handle = none ∧ s.cursor handle = none) ∨
    ∃ file c, fs.openHandles handle = some file ∧ s.cursor handle = some c ∧ Shows archive file c := by
  have hrel := h.handles handle
  cases hf : fs.openHandles handle with
  | none =>
    rw [hf] at hrel
    cases hc : s.cursor handle with
    | none => exact .inl ⟨rfl,rfl⟩
    | some c =>
      rw [hc] at hrel
      cases hrel
  | some file =>
    rw [hf] at hrel
    cases hc : s.cursor handle with
    | none =>
      rw [hc] at hrel
      cases hrel
    | some c =>
      rw [hc] at hrel
      cases hrel with
      | some hs => exact .inr ⟨file,c,rfl,rfl,hs⟩

/-- A file at a handle is moved. -/
private theorem Agrees.move (h : Agrees archive fs s) {handle : FileHandle} {c c' : Cursor} {file' : OpenFile}
    (hc : s.cursor handle = some c) (hs : Shows archive file' c') :
    Agrees archive (fs.insert handle file') (s.set handle.id (some c')) := by
  refine ⟨h.same,by simpa using h.next,?_⟩
  intro handle'
  rw [Cursors.cursor_set handle handle' _ (.inl (Cursors.length_of_cursor hc))]
  by_cases he : handle' = handle
  · rw [if_pos he,he,insert_self]
    exact .some hs
  · rw [if_neg he,insert_ne _ he]
    exact h.handles handle'

end

end TarFs

end HeineOS
