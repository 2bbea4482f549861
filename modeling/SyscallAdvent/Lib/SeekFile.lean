import Mathlib.Algebra.Notation.Defs
import Mathlib.Tactic.Common

/-! A regular file behind an open descriptor: content and offset. Length and
offset are independent of each other; a write behind the end fills the gap with
zeros, and a write of nothing changes nothing. -/

namespace SeekFile

variable {α : Type*} [Zero α]

structure OpenFile (α : Type*) where
  content : List α
  offset : ℕ

/-- `lseek(fd, offset, SEEK_SET)` -/
def OpenFile.lseek (f : OpenFile α) (offset : ℕ) : OpenFile α := { f with offset := offset }

/-- The offset stays where it is. -/
def OpenFile.ftruncate (f : OpenFile α) (length : ℕ) : OpenFile α :=
  { f with content := f.content.take length ++ List.replicate (length - f.content.length) 0 }

/-- Everything from the offset to the end of the file. -/
def OpenFile.readAll (f : OpenFile α) : List α × OpenFile α :=
  (f.content.drop f.offset, { f with offset := max f.offset f.content.length })

def OpenFile.writeAll (f : OpenFile α) (data : List α) : OpenFile α :=
  if data.isEmpty then f
  else
    { content := f.content.take f.offset ++ List.replicate (f.offset - f.content.length) 0 ++
        data ++ f.content.drop (f.offset + data.length)
      offset := f.offset + data.length }

omit [Zero α] in
theorem OpenFile.readAll_start (content : List α) :
    OpenFile.readAll ⟨content, 0⟩ = (content, ⟨content, content.length⟩) := by
  simp [readAll]

theorem OpenFile.ftruncate_zero (f : OpenFile α) : f.ftruncate 0 = ⟨[], f.offset⟩ := by
  simp [ftruncate]

/-- Into an empty file; without data there is no gap either. -/
theorem OpenFile.writeAll_empty (offset : ℕ) (data : List α) :
    OpenFile.writeAll ⟨[], offset⟩ data =
      ⟨(if data.isEmpty then [] else List.replicate offset 0) ++ data, offset + data.length⟩ := by
  cases data <;> simp [writeAll]

end SeekFile
