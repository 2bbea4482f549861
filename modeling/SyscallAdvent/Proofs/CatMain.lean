import SyscallAdvent.Proofs.CatCopy

/-! The loop of `main` in `cat.c`. Its test takes descriptor 0 for a failure, so
everything depends on whether the process was started with descriptor 0 open:
if not, the first file that can be opened gets it and is neither copied nor
closed. -/

namespace SyscallAdvent.Cat

open CLoop Descriptor

section

variable {w : World} {fuel idx : ℕ} {name : String} {p : Process} {reads : ℕ → Read}

theorem openArg_some (hopen : w.openFile idx name = some reads) :
    openArg w idx name p = ((p.fds.lowestFree : ℤ),
      { p with fds := (p.fds.install ⟨⟨idx, reads⟩, false⟩).2 }) := by
  simp [openArg, hopen, FdTable.install]

theorem callCat_open {fd : ℕ} {e : Entry File} (hfd : p.fds.get fd = some e) :
    callCat w fd fuel p = (cat e.file.reads w.write fuel p.out).map fun s =>
      ⟨p.fds, s.out, p.calls ++ [some e.file]⟩ := by
  simp [callCat, hfd, readsOf]

theorem closeFd_open {fd : ℕ} {e : Entry File} (hfd : p.fds.get fd = some e) :
    closeFd fd p = (0, { p with fds := p.fds.close fd }) := by
  simp [closeFd, hfd]

theorem copyArg_fails (hopen : w.openFile idx name = none) :
    copyArg w fuel idx name p = some (p.perror "Failed to open file") := by
  simp [copyArg, openArg, hopen]

/-- Descriptor 0 is opened, and stays open. -/
theorem copyArg_skips (hopen : w.openFile idx name = some reads) (h0 : p.fds.get 0 = none) :
    copyArg w fuel idx name p =
      some ({ p with fds := (p.fds.install ⟨⟨idx, reads⟩, false⟩).2 }.perror
        "Failed to open file") := by
  have hfd : p.fds.lowestFree = 0 := p.fds.lowestFree_eq_zero_iff.2 h0
  simp [copyArg, openArg_some hopen, hfd]

/-- Any other descriptor is read to its end and closed. -/
theorem copyArg_copies (hopen : w.openFile idx name = some reads) (h0 : p.fds.get 0 ≠ none) :
    copyArg w fuel idx name p = (cat reads w.write fuel p.out).map fun s =>
      ⟨p.fds, s.out, p.calls ++ [some ⟨idx, reads⟩]⟩ := by
  have hpos : (p.fds.lowestFree : ℤ) > 0 := by
    have hne : p.fds.lowestFree ≠ 0 := fun h => h0 (p.fds.lowestFree_eq_zero_iff.1 h)
    omega
  have hself := p.fds.get_install_self ⟨⟨idx, reads⟩, false⟩
  have hclose := p.fds.close_install ⟨⟨idx, reads⟩, false⟩
  simp only [copyArg, openArg_some hopen, if_pos hpos, Int.toNat_natCast]
  rw [callCat_open hself]
  cases cat reads w.write fuel p.out with
  | none => rfl
  | some s =>
    simp only [Option.map_some, Option.bind_eq_bind, Option.bind_some, Option.pure_def]
    rw [closeFd_open hself]
    simp only [lt_irrefl, if_false]
    rw [show p.fds.lowestFree = (p.fds.install ⟨⟨idx, reads⟩, false⟩).1 from rfl, hclose]

end

section

variable {w : World} {argv : List String}

theorem openable_append (w : World) (idx : ℕ) (argv argv' : List String) :
    openable w idx (argv ++ argv') =
      openable w idx argv ++ openable w (idx + argv.length) argv' := by
  induction argv generalizing idx with
  | nil => rfl
  | cons name argv ih =>
    rw [List.cons_append, openable, ih, openable, List.append_assoc, List.length_cons,
      Nat.add_right_comm, Nat.add_assoc]

/-- As long as descriptor 0 is open, each iteration restores the descriptors. -/
theorem copyArgs_open {fuel idx : ℕ} {p p' : Process}
    (hrun : copyArgs w fuel idx argv p = some p') (h0 : p.fds.get 0 ≠ none) :
    p'.calls = p.calls ++ (openable w idx argv).map some ∧ p'.fds = p.fds := by
  induction argv generalizing idx p with
  | nil =>
    obtain rfl := Option.some.inj hrun
    simp [openable]
  | cons name argv ih =>
    obtain ⟨q, hq, hrun⟩ := Option.bind_eq_some_iff.1 hrun
    cases hopen : w.openFile idx name with
    | none =>
      rw [copyArg_fails hopen] at hq
      obtain rfl := Option.some.inj hq
      simpa [openable, hopen, Process.perror] using ih hrun h0
    | some reads =>
      rw [copyArg_copies hopen h0] at hq
      obtain ⟨s, -, rfl⟩ := Option.map_eq_some_iff.1 hq
      simpa [openable, hopen] using ih hrun h0

theorem copyArgs_none {fuel idx : ℕ} {p p' : Process}
    (hrun : copyArgs w fuel idx argv p = some p') (hnone : openable w idx argv = []) :
    p'.calls = p.calls ∧ p'.fds = p.fds := by
  induction argv generalizing idx p with
  | nil =>
    obtain rfl := Option.some.inj hrun
    exact ⟨rfl, rfl⟩
  | cons name argv ih =>
    simp only [openable, List.append_eq_nil_iff, Option.toList_eq_nil_iff,
      Option.map_eq_none_iff] at hnone
    simp only [copyArgs, copyArg_fails hnone.1, Option.bind_some] at hrun
    exact ih (p := p.perror "Failed to open file") hrun hnone.2

/-- The first argument that can be opened is skipped, before `cat` was ever called. -/
theorem copyArgs_closed {idx : ℕ} {p : Process} (h0 : p.fds.get 0 = none)
    (hsome : openable w idx argv ≠ []) : ∃ args, args <+: argv ∧ ∀ fuel,
      ∃ p', copyArgs w fuel idx args p = some p' ∧ p'.fds.get 0 ≠ none := by
  induction argv generalizing idx p with
  | nil => exact absurd rfl hsome
  | cons name argv ih =>
    cases hopen : w.openFile idx name with
    | none =>
      have hrest : openable w (idx + 1) argv ≠ [] := by simpa [openable, hopen] using hsome
      obtain ⟨args, hpre, hrun⟩ := ih (p := p.perror "Failed to open file") h0 hrest
      refine ⟨name :: args, List.cons_prefix_cons.2 ⟨rfl, hpre⟩, fun fuel => ?_⟩
      simp only [copyArgs, copyArg_fails hopen, Option.bind_some]
      exact hrun fuel
    | some reads =>
      refine ⟨[name], List.cons_prefix_cons.2 ⟨rfl, List.nil_prefix⟩, fun fuel => ?_⟩
      simp only [copyArgs, copyArg_skips hopen h0, Option.bind_some]
      exact ⟨_, rfl, p.fds.get_install_zero _⟩

/-- An iteration returns if the file that it opens ends. -/
theorem copyArg_returns {idx : ℕ} {name : String}
    (hends : ∀ reads, w.openFile idx name = some reads → ∃ n, (reads n).bytesRead = 0)
    (p : Process) : ∃ n p', ∀ fuel, n < fuel → copyArg w fuel idx name p = some p' := by
  cases hopen : w.openFile idx name with
  | none => exact ⟨0, _, fun _ _ => copyArg_fails hopen⟩
  | some reads =>
    by_cases h0 : p.fds.get 0 = none
    · exact ⟨0, _, fun _ _ => copyArg_skips hopen h0⟩
    · have hex := hends reads hopen
      exact ⟨Nat.find hex, _, fun fuel hfuel => (copyArg_copies hopen h0).trans
        (congrArg _ (cat_steps w.write (fun k hk => Nat.find_min hex hk) (Nat.find_spec hex) p.out
          hfuel))⟩

theorem copyArgs_returns {idx : ℕ} (p : Process)
    (hends : ∀ f ∈ openable w idx argv, ∃ n, (f.reads n).bytesRead = 0) :
    ∃ n p', ∀ fuel, n < fuel → copyArgs w fuel idx argv p = some p' := by
  induction argv generalizing idx p with
  | nil => exact ⟨0, p, fun _ _ => rfl⟩
  | cons name argv ih =>
    simp only [openable, List.mem_append, Option.mem_toList, Option.map_eq_some_iff] at hends
    obtain ⟨n, q, hq⟩ := copyArg_returns
      (fun reads hopen => hends ⟨idx, reads⟩ (Or.inl ⟨reads, hopen, rfl⟩)) p
    obtain ⟨m, p', hp'⟩ := ih q fun f hf => hends f (Or.inr hf)
    refine ⟨max n m, p', fun fuel hfuel => ?_⟩
    rw [copyArgs, hq fuel (by omega)]
    exact hp' fuel (by omega)

end

/-- `main` returns if the files end. Also in the middle of its loop every file
that could be opened was copied once, in order, and the descriptors are those at
the start, exactly if descriptor 0 is open or no file can be opened. -/
theorem main_copies_each_iff (w : World) (argv : List String) (fds : FdTable File) :
    ((∀ f ∈ openable w 1 argv, ∃ n, (f.reads n).bytesRead = 0) →
      ∃ fuel p, main w fuel argv fds = some p) ∧
    (CopiesEach w argv fds ↔ fds.get 0 ≠ none ∨ openable w 1 argv = []) := by
  refine ⟨fun hends => ?_, fun heach => ?_, fun hcond args hpre fuel p hrun => ?_⟩
  · obtain ⟨n, p, hrun⟩ := copyArgs_returns ⟨fds, .start, []⟩ hends
    exact ⟨n + 1, p, hrun _ (Nat.lt_succ_self n)⟩
  · by_contra h
    obtain ⟨h0, hsome⟩ := not_or.1 h
    have h0 : fds.get 0 = none := not_not.1 h0
    obtain ⟨args, hpre, hrun⟩ := copyArgs_closed (p := ⟨fds, .start, []⟩) h0 hsome
    obtain ⟨p, hrun, hopen⟩ := hrun 0
    rw [(heach args hpre 0 p hrun).2] at hopen
    exact hopen h0
  · rcases hcond with h0 | hnone
    · exact copyArgs_open hrun h0
    · obtain ⟨rest, rfl⟩ := hpre
      rw [openable_append] at hnone
      obtain ⟨hnone, -⟩ := List.append_eq_nil_iff.1 hnone
      rw [hnone]
      exact copyArgs_none hrun hnone

/-- Only descriptors 1 and 2 are open. -/
def closedStdin : FdTable File :=
  ⟨fun fd => if fd = 1 ∨ fd = 2 then some ⟨⟨0, fun _ => .eof⟩, false⟩ else none,
    ⟨3, fun fd h => if_neg (by omega)⟩⟩

/-- The only argument can be opened; it is not copied, and stays open. -/
theorem main_skips_file :
    let w : World := ⟨fun _ _ => some (readIn threeBytes), fun _ => 1⟩
    (∃ p, main w 0 ["test.jpg"] closedStdin = some p ∧ p.calls = [] ∧ p.fds.get 0 ≠ none ∧
      p.out.errors = ["Failed to open file"]) ∧ ¬ CopiesEach w ["test.jpg"] closedStdin := by
  intro w
  have hskip : copyArg w 0 1 "test.jpg" ⟨closedStdin, .start, []⟩ = _ := copyArg_skips rfl rfl
  have hrun := congrArg (Option.bind · some) hskip
  refine ⟨⟨_, hrun, rfl, closedStdin.get_install_zero _, rfl⟩, fun heach => ?_⟩
  have hfds := (heach _ (List.prefix_refl _) 0 _ hrun).2
  exact closedStdin.get_install_zero _ (congrArg (FdTable.get · 0) hfds)

end SyscallAdvent.Cat
