import SyscallAdvent.Spec.Log

/-! The reader fails on every log. The first line of each run comes from
`thread_handler` and has no `=` in its first field, so already the first line of
the file raises the exception. -/

namespace SyscallAdvent.Log

open PyText

/-- Stripping leaves the first field of such a line as it is. -/
theorem strip_threadLine (t : Str) :
    ∃ u, strip ("rseq: ".toList ++ t) = "rseq:".toList ++ u ∧ (u = [] ∨ ∃ v, u = ' ' :: v) := by
  have hstrip : strip ("rseq: ".toList ++ t) =
      ("rseq:".toList ++ ' ' :: t).rdropWhile isSpace :=
    rfl
  rw [hstrip, rdropWhile_append]
  split_ifs with h
  · exact ⟨[], by decide, Or.inl rfl⟩
  · refine ⟨_, rfl, ?_⟩
    obtain ⟨w, hw⟩ := List.rdropWhile_prefix isSpace (' ' :: t)
    cases hu : (' ' :: t).rdropWhile isSpace with
    | nil => exact Or.inl rfl
    | cons c v =>
      rw [hu] at hw
      obtain ⟨rfl, -⟩ := List.cons.inj hw
      exact Or.inr ⟨v, rfl⟩

theorem splitOn_threadLine (t : Str) :
    ∃ fields, (strip ("rseq: ".toList ++ t)).splitOn ' ' = "rseq:".toList :: fields := by
  obtain ⟨u, hu, rfl | ⟨v, rfl⟩⟩ := strip_threadLine t
  · exact ⟨[], by rw [hu]; decide⟩
  · exact ⟨v.splitOn ' ', by rw [hu, List.splitOn_append_cons_self_of_not_mem (by decide)]⟩

theorem readFields_threadLine (t : Str) :
    readFields ("rseq: ".toList ++ t) = .error .indexError := by
  obtain ⟨fields, hfields⟩ := splitOn_threadLine t
  have hdata : fieldData "rseq:".toList = .error .indexError := by decide
  unfold readFields
  rw [hfields]
  dsimp only
  rw [List.mapM_cons, hdata]
  rfl

/-- Content that begins like a line of `thread_handler` has such a first line. -/
theorem readlines_threadLine (t : Str) :
    ∃ u ls, readlines ("rseq: ".toList ++ t) = ("rseq: ".toList ++ u) :: ls :=
  readlinesFrom_head (show " :qesr".toList ≠ [] by decide) t

theorem readLog_threadLine (pd : Pandas) (t : Str) :
    readLog pd ("rseq: ".toList ++ t) = .error .indexError := by
  obtain ⟨u, ls, hls⟩ := readlines_threadLine t
  unfold readLog
  rw [hls, List.mapM_cons, readFields_threadLine]
  rfl

theorem threadLine_append (rseq : BitVec 64) (s : Str) :
    threadLine rseq ++ s = "rseq: ".toList ++ (printPtr rseq ++ (['\n'] ++ s)) :=
  (List.append_assoc _ ['\n'] s).trans (List.append_assoc _ (printPtr rseq) _)

/-- The outcome for every log: without runs `header` is unbound. -/
theorem readLog_dataFile (pd : Pandas) (runs : List RunOutput) :
    readLog pd (dataFile runs) =
      .error (if runs.isEmpty then .unboundLocalError else .indexError) := by
  cases runs with
  | nil => rfl
  | cons r runs =>
    obtain ⟨rseq, rseqs, hrseqs⟩ := List.exists_cons_of_ne_nil r.started
    rw [dataFile, List.flatMap_cons, RunOutput.stdout, hrseqs, List.flatMap_cons,
      List.append_assoc, List.append_assoc, threadLine_append]
    exact readLog_threadLine pd _

/-- There is no sequence of runs whose log is read. -/
theorem log_never_agrees (pd : Pandas) (runs : List RunOutput) : ¬ LogAgrees pd runs := by
  intro hagrees
  obtain ⟨df, hdf, -⟩ := hagrees
  rw [readLog_dataFile] at hdf
  exact nomatch hdf

/-- `./rseq 1 lock 8` with all increments counted. -/
def oneRun : RunOutput where
  MODE := "lock"
  selectable := by decide
  rseqs := [0x7f0000001000]
  started := by decide
  sum := 400000000
  ok := true
  aborts := 0
  cputime := ⟨false, 2199005⟩
  perIncrement := ⟨false, 5497513⟩

theorem log_fails_one :
    (∀ pd, readLog pd (dataFile [oneRun]) = .error .indexError) ∧
      ∀ pd, ¬ LogAgrees pd [oneRun] := by
  have hread := fun pd => readLog_dataFile pd [oneRun]
  refine ⟨hread, fun pd hagrees => ?_⟩
  obtain ⟨df, hdf, -⟩ := hagrees
  rw [hread] at hdf
  exact nomatch hdf

end SyscallAdvent.Log
