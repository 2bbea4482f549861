import SyscallAdvent.Lib.Descriptor
import SyscallAdvent.Lib.Loop

/-! `cat` and `main` of `01-open/cat.c`. What the system calls give is chosen
outside: the reads that an open file delivers, one by one, the result of each
write to descriptor 1, and which files can be opened. -/

namespace SyscallAdvent.Cat

open CLoop Descriptor

abbrev Byte := BitVec 8

/-- `sizeof(buf)` -/
def bufSize : ℕ := 4096

/-- What one `read` does. At the end of the file it gives no bytes. -/
inductive Read
  | error (errno : ℤ)
  | data (bytes : List Byte) (fits : bytes.length ≤ bufSize)

def Read.eof : Read := .data [] (Nat.zero_le bufSize)

def Read.bytesRead : Read → ℤ
  | .error _ => -1
  | .data bytes _ => bytes.length

/-- The part of `buf` that was filled. -/
def Read.buf : Read → List Byte
  | .error _ => []
  | .data bytes _ => bytes

/-- The writes so far, the bytes that descriptor 1 accepted, and the arguments
of `perror`, all in order. -/
structure Output where
  writes : ℕ
  accepted : List Byte
  errors : List String

def Output.start : Output := ⟨0, [], []⟩

def Output.perror (o : Output) (msg : String) : Output := { o with errors := o.errors ++ [msg] }

/-- The body of the loop, for a result of `read` other than 0. -/
def copyBuf (write : ℕ → ℤ) (r : Read) (o : Output) : Output :=
  if r.bytesRead < 0 then o.perror "Read failed!"
  else
    let bytesWritten := write o.writes
    let accepted := o.accepted ++ r.buf.take bytesWritten.toNat
    let o := { o with writes := o.writes + 1, accepted := accepted }
    if bytesWritten < 0 then o.perror "Failed to write bytes"
    else if bytesWritten ≠ r.bytesRead then o.perror "Failed to write all read bytes"
    else o

/-- The latest read, the number of reads, and the output. -/
structure Copying where
  last : Read
  reads : ℕ
  out : Output

/-- `bytes_read = read(fd, buf, 4096)` -/
def nextRead (file : ℕ → Read) (s : Copying) : Copying :=
  { s with last := file s.reads, reads := s.reads + 1 }

/-- One iteration, with the read that is then tested. -/
def copyNext (file : ℕ → Read) (write : ℕ → ℤ) (s : Copying) : Copying :=
  nextRead file { s with out := copyBuf write s.last s.out }

/-- `file` is what the reads from `fd` give. -/
def cat (file : ℕ → Read) (write : ℕ → ℤ) (fuel : ℕ) (o : Output) : Option Copying :=
  whileLoop (fun s : Copying => s.last.bytesRead != 0) (fun s => some (copyNext file write s)) fuel
    ⟨file 0, 1, o⟩

/-- What one read gives of a file that it does not end. -/
structure Chunk where
  bytes : List Byte
  nonempty : bytes ≠ []
  fits : bytes.length ≤ bufSize

def Chunk.read (c : Chunk) : Read := .data c.bytes c.fits

/-- A file that is read in these chunks, and then is at its end. -/
def readIn (chunks : List Chunk) (k : ℕ) : Read := (chunks[k]?).elim .eof Chunk.read

/-- What is accepted of the chunks from write `k` on. -/
def delivered (write : ℕ → ℤ) : ℕ → List Chunk → List Byte
  | _, [] => []
  | k, c :: chunks => c.bytes.take (write k).toNat ++ delivered write (k + 1) chunks

/-- One report for each write that is short. -/
def reports (write : ℕ → ℤ) : ℕ → List Chunk → List String
  | _, [] => []
  | k, c :: chunks =>
    (if write k = c.bytes.length then [] else ["Failed to write all read bytes"]) ++
      reports write (k + 1) chunks

/-- Each write of a chunk, from write `k` on, accepts some of it. -/
def Accepts (write : ℕ → ℤ) (k : ℕ) (chunks : List Chunk) : Prop :=
  ∀ (i : ℕ) (c : Chunk), chunks[i]? = some c →
    1 ≤ write (k + i) ∧ write (k + i) ≤ c.bytes.length

/-- An open file: the argument that it was opened for, which is 0 if it was
inherited, and what its reads give. -/
structure File where
  idx : ℕ
  reads : ℕ → Read

/-- `openFile idx` is what `open(argv[idx], O_RDONLY)` makes of the name: the
reads of the new descriptor, or no descriptor. -/
structure World where
  openFile : ℕ → String → Option (ℕ → Read)
  write : ℕ → ℤ

/-- `calls` are the files behind the descriptors that `cat` was called with. -/
structure Process where
  fds : FdTable File
  out : Output
  calls : List (Option File)

def openArg (w : World) (idx : ℕ) (name : String) (p : Process) : ℤ × Process :=
  match w.openFile idx name with
  | none => (-1, p)
  | some reads =>
    let (fd, t) := p.fds.install ⟨⟨idx, reads⟩, false⟩
    (fd, { p with fds := t })

/-- Reading a closed descriptor fails with `EBADF`. -/
def readsOf : Option File → ℕ → Read
  | none => fun _ => .error 9
  | some f => f.reads

def callCat (w : World) (fd fuel : ℕ) (p : Process) : Option Process :=
  let file := (p.fds.get fd).map Entry.file
  (cat (readsOf file) w.write fuel p.out).map fun s =>
    { p with out := s.out, calls := p.calls ++ [file] }

def closeFd (fd : ℕ) (p : Process) : ℤ × Process :=
  match p.fds.get fd with
  | none => (-1, p)
  | some _ => (0, { p with fds := p.fds.close fd })

def Process.perror (p : Process) (msg : String) : Process := { p with out := p.out.perror msg }

/-- The body of the loop in `main`. -/
def copyArg (w : World) (fuel idx : ℕ) (name : String) (p : Process) : Option Process :=
  let (fd, p) := openArg w idx name p
  if fd > 0 then do
    let p ← callCat w fd.toNat fuel p
    let (rc, p) := closeFd fd.toNat p
    return if rc < 0 then p.perror "Failed to close file" else p
  else some (p.perror "Failed to open file")

/-- The loop of `main` from argument `idx` on. -/
def copyArgs (w : World) (fuel : ℕ) : ℕ → List String → Process → Option Process
  | _, [], p => some p
  | idx, name :: argv, p => (copyArg w fuel idx name p).bind (copyArgs w fuel (idx + 1) argv)

/-- `argv` without the name of the program; `fds` are the inherited descriptors. -/
def main (w : World) (fuel : ℕ) (argv : List String) (fds : FdTable File) : Option Process :=
  copyArgs w fuel 1 argv ⟨fds, .start, []⟩

/-- The files that can be opened for the arguments from `idx` on. -/
def openable (w : World) : ℕ → List String → List File
  | _, [] => []
  | idx, name :: argv =>
    ((w.openFile idx name).map (File.mk idx)).toList ++ openable w (idx + 1) argv

/-- Whenever the loop of `main` is done with some of the arguments: `cat` was
called once for each of them that could be opened, in order, and exactly the
inherited descriptors are open. -/
def CopiesEach (w : World) (argv : List String) (fds : FdTable File) : Prop :=
  ∀ args, args <+: argv → ∀ fuel p, main w fuel args fds = some p →
    p.calls = (openable w 1 args).map some ∧ p.fds = fds

end SyscallAdvent.Cat
