import SyscallAdvent.Lib.PyText
import SyscallAdvent.Spec.Rseq

/-! The benchmark's log: what a run of `23-rseq/rseq.c` prints to its standard
output, how `benchmark.sh` collects it, and `read_log` of `plot.py`. Floating
point numbers are the decimals that are printed and read. pandas is a parameter. -/

namespace SyscallAdvent.Log

open PyText

/-! The writer. -/

/-- `%ld` and `%d`, of the value as it is declared: an unsigned `sum` is printed signed. -/
def printInt (v : ℤ) : Str := (if v < 0 then ['-'] else []) ++ Nat.toDigits 10 v.natAbs

/-- `%p` -/
def printPtr (p : BitVec 64) : Str :=
  if p = 0 then "(nil)".toList else "0x".toList ++ Nat.toDigits 16 p.toNat

/-- What `%f` prints of a finite `double`: a sign and six decimals. -/
structure Decimal where
  neg : Bool
  micros : ℕ

def Decimal.print (d : Decimal) : Str :=
  let frac := Nat.toDigits 10 (d.micros % 10 ^ 6)
  (if d.neg then ['-'] else []) ++ Nat.toDigits 10 (d.micros / 10 ^ 6) ++
    '.' :: (List.replicate (6 - frac.length) '0' ++ frac)

def Decimal.value (d : Decimal) : ℚ :=
  (if d.neg then -1 else 1) * d.micros / 10 ^ 6

/-- What `%f` prints of a `double`. -/
inductive Double
  | finite (d : Decimal)
  | infinity (neg : Bool)
  | nan (neg : Bool)

def Double.print : Double → Str
  | .finite d => d.print
  | .infinity neg => (if neg then ['-'] else []) ++ "inf".toList
  | .nan neg => (if neg then ['-'] else []) ++ "nan".toList

/-- What the last `printf` of `main` prints. `cputime` is the difference of two
clock readings, `perIncrement` is divided by `sum`, which may be 0. -/
structure Result where
  MODE : String
  selectable : (Rseq.selectOperation MODE).isSome = true
  NTHREADS : ℤ
  sum : BitVec 64
  ok : Bool
  aborts : BitVec 64
  cputime : Decimal
  perIncrement : Double

def Result.state (r : Result) : Str := if r.ok then "ok".toList else "fail".toList

def Result.line (r : Result) : Str :=
  "mode=".toList ++ r.MODE.toList ++ " threads=".toList ++ printInt r.NTHREADS ++
    " sum=".toList ++ printInt r.sum.toInt ++ " state=".toList ++ r.state ++
    " aborts=".toList ++ printInt r.aborts.toInt ++ " cputime=".toList ++ r.cputime.print ++
    "s per_increment=".toList ++ r.perIncrement.print ++ "ns\n".toList

/-- `thread_handler` prints a line before its loop. -/
def threadLine (rseq : BitVec 64) : Str := "rseq: ".toList ++ printPtr rseq ++ ['\n']

/-- A successful run with at least one thread and finite numbers: the `rseq`
pointers of its threads, in the order of output, and the fields of the result. -/
structure RunOutput where
  MODE : String
  selectable : (Rseq.selectOperation MODE).isSome = true
  rseqs : List (BitVec 64)
  started : rseqs ≠ []
  sum : BitVec 64
  ok : Bool
  aborts : BitVec 64
  cputime : Decimal
  perIncrement : Decimal

def RunOutput.NTHREADS (r : RunOutput) : ℕ := r.rseqs.length

def RunOutput.result (r : RunOutput) : Result where
  MODE := r.MODE
  selectable := r.selectable
  NTHREADS := r.NTHREADS
  sum := r.sum
  ok := r.ok
  aborts := r.aborts
  cputime := r.cputime
  perIncrement := .finite r.perIncrement

def RunOutput.stdout (r : RunOutput) : Str := r.rseqs.flatMap threadLine ++ r.result.line

/-- `./rseq $threads $mode 8 >> data`, run by run. -/
def dataFile (runs : List RunOutput) : Str := runs.flatMap RunOutput.stdout

/-! The reader. -/

inductive PyError
  | indexError
  | unboundLocalError
  | valueError
  | keyError
  deriving DecidableEq

/-- A value in the data. -/
inductive Cell
  | str (s : Str)
  | float (x : PyFloat)
  deriving DecidableEq

/-- What `read_log` uses of pandas: `pd.DataFrame(columns, data)`, the values of
`df[x]`, `Series.apply`, and the assignment to `df[x]`. -/
structure Pandas where
  Frame : Type
  dataFrame : List Str → List (List Str) → Except PyError Frame
  column : Frame → Str → Except PyError (List Cell)
  apply : List Cell → (Cell → Except PyError Cell) → Except PyError (List Cell)
  setColumn : Frame → Str → List Cell → Except PyError Frame

/-- `x.split("=")[1].rstrip("ns")` -/
def fieldData (x : Str) : Except PyError Str :=
  match (x.splitOn '=')[1]? with
  | none => .error .indexError
  | some y => .ok (rstrip "ns".toList y)

/-- The header and the data of one line. -/
def readFields (line : Str) : Except PyError (List Str × List Str) := do
  let line := (strip line).splitOn ' '
  let header := line.map fun x => (x.splitOn '=').headD []
  let data ← line.mapM fieldData
  return (header, data)

/-- `float` of a value. -/
def Cell.toFloat : Cell → Except PyError Cell
  | .str s => match PyText.float s with
    | none => .error .valueError
    | some x => .ok (.float x)
  | .float x => .ok (.float x)

/-- `df[x] = df[x].apply(float)` -/
def applyFloat (pd : Pandas) (df : pd.Frame) (x : Str) : Except PyError pd.Frame := do
  let values ← pd.column df x
  let values ← pd.apply values Cell.toFloat
  pd.setColumn df x values

/-- `header` is that of the last line, and unbound if there is none. -/
def readLog (pd : Pandas) (content : Str) : Except PyError pd.Frame := do
  let fields ← (readlines content).mapM readFields
  match fields.getLast? with
  | none => .error .unboundLocalError
  | some (header, _) =>
    let df ← pd.dataFrame header (fields.map Prod.snd)
    ("threads sum aborts cputime per_increment".toList.splitOn ' ').foldlM (applyFloat pd) df

/-- The fields of a result. -/
inductive Column
  | mode
  | threads
  | sum
  | state
  | aborts
  | cputime
  | perIncrement
  deriving DecidableEq

def Column.name : Column → Str
  | .mode => "mode".toList
  | .threads => "threads".toList
  | .sum => "sum".toList
  | .state => "state".toList
  | .aborts => "aborts".toList
  | .cputime => "cputime".toList
  | .perIncrement => "per_increment".toList

/-- The values of a run, `sum` as what it is. -/
def RunOutput.cell (r : RunOutput) : Column → Cell
  | .mode => .str r.MODE.toList
  | .threads => .float (.finite r.NTHREADS)
  | .sum => .float (.finite r.sum.toNat)
  | .state => .str r.result.state
  | .aborts => .float (.finite r.aborts.toInt)
  | .cputime => .float (.finite r.cputime.value)
  | .perIncrement => .float (.finite r.perIncrement.value)

/-- The log is read without an exception: a row for each run, with its values. -/
def LogAgrees (pd : Pandas) (runs : List RunOutput) : Prop :=
  ∃ df, readLog pd (dataFile runs) = .ok df ∧
    ∀ c : Column, pd.column df c.name = .ok (runs.map fun r => r.cell c)

end SyscallAdvent.Log
