import SyscallAdvent.Proofs.LogReader

/-! What the reader makes of the lines it was written for. A result line is
read back with the value of every field, `sum` as the signed number that is
printed; a line of a thread raises the exception wherever it stands. Stripping
the unit `ns` also takes the end of `nan`, so a result without a number cannot be
converted. The reader returns for exactly the nonempty logs without either. -/

namespace SyscallAdvent.Log

open PyText

/-- The lines that a run prints. -/
inductive LogLine
  | thread (rseq : BitVec 64)
  | result (r : Result)

def LogLine.text : LogLine → Str
  | .thread rseq => threadLine rseq
  | .result r => r.line

/-- The columns of the file, in order. -/
def columns : List Column := [.mode, .threads, .sum, .state, .aborts, .cputime, .perIncrement]

/-- The text of a field with its unit. -/
def Result.text (r : Result) : Column → Str
  | .mode => r.MODE.toList
  | .threads => printInt r.NTHREADS
  | .sum => printInt r.sum.toInt
  | .state => r.state
  | .aborts => printInt r.aborts.toInt
  | .cputime => r.cputime.print ++ ['s']
  | .perIncrement => r.perIncrement.print ++ ['n', 's']

def Result.field (r : Result) (c : Column) : Str := c.name ++ '=' :: r.text c

/-- The six decimals. -/
def Decimal.frac (d : Decimal) : Str :=
  let frac := Nat.toDigits 10 (d.micros % 10 ^ 6)
  List.replicate (6 - frac.length) '0' ++ frac

/-- What the reader takes out of a field. -/
def Result.data (r : Result) (c : Column) : Str := rstrip "ns".toList (r.text c)

/-- The value that is printed. -/
def Double.value : Double → PyFloat
  | .finite d => .finite d.value
  | .infinity neg => .infinity neg
  | .nan _ => .nan

def Result.cell (r : Result) : Column → Cell
  | .mode => .str r.MODE.toList
  | .threads => .float (.finite r.NTHREADS)
  | .sum => .float (.finite r.sum.toInt)
  | .state => .str r.state
  | .aborts => .float (.finite r.aborts.toInt)
  | .cputime => .float (.finite r.cputime.value)
  | .perIncrement => .float r.perIncrement.value

section

variable {pd : Pandas} {rs : List Result}

end

/-- A line without its end. -/
def LogLine.body : LogLine → Str
  | .thread rseq => "rseq: ".toList ++ printPtr rseq
  | .result r => [' '].intercalate (columns.map r.field)

section

variable {pd : Pandas} {rs : List Result}

end

/-- A frame as the columns under their names. -/
abbrev Table := Str → Option (List Cell)

def Table.column (df : Table) (x : Str) : Except PyError (List Cell) :=
  (df x).elim (.error .keyError) .ok

def tables : Pandas where
  Frame := Table
  dataFrame := fun header rows =>
    if rows.all (fun row => row.length == header.length) then
      .ok fun x =>
        if x ∈ header then some (rows.map fun row => .str (row.getD (header.idxOf x) [])) else none
    else .error .valueError
  column := Table.column
  apply := fun values f => values.mapM f
  setColumn := fun df x values => .ok (Function.update df x (some values))

end SyscallAdvent.Log
