import SyscallAdvent.Spec.Filter

/-! The wiring of the filters. A successful `start_proc` adds two descriptors to
the parent's table, wherever they come to lie, and gives the child 0 and 1; all
else that is open on a pipe closes on exec, so no filter gets a descriptor that
was meant for another. -/

namespace SyscallAdvent.Filter

open Descriptor

/-- What a successful call does, given the state of the parent before it. -/
structure Wired (p : Parent) (r : Started) (c : Child) : Prop where
  spawned : r.child = some c
  pipes : r.parent.pipes = p.pipes + 2
  stdinFree : p.fds.get r.proc.stdin = none
  stdoutFree : p.fds.get r.proc.stdout = none
  parentGet : ∀ fd, r.parent.fds.get fd =
    if fd = r.proc.stdin then some ⟨.writeEnd p.pipes, true⟩
    else if fd = r.proc.stdout then some ⟨.readEnd (p.pipes + 1), true⟩ else p.fds.get fd
  distinct : r.proc.stdin ≠ r.proc.stdout
  childStdin : c.fds.get 0 = some ⟨.readEnd p.pipes, false⟩
  childStdout : c.fds.get 1 = some ⟨.writeEnd (p.pipes + 1), false⟩
  childRest : ∀ fd e, 2 ≤ fd → c.fds.get fd = some e →
    p.fds.get fd = some e ∧ e.cloexec = false

/-- The two copies made in the child. The second source is not 0, so the first
copy does not destroy it; the sources themselves close on exec. -/
theorem childFds_spec {t : FdTable File} {r w : ℕ} {fr fw : File} (hr : t.get r = some ⟨fr, true⟩)
    (hw : t.get w = some ⟨fw, true⟩) (hw0 : w ≠ 0) :
    ∃ t', [(r, 0), (w, 1)].foldlM (fun t a => FdTable.dup2 t a.1 a.2) t = some t' ∧
      t'.exec.get 0 = some ⟨fr, false⟩ ∧ t'.exec.get 1 = some ⟨fw, false⟩ ∧
      ∀ fd e, 2 ≤ fd → t'.exec.get fd = some e → t.get fd = some e ∧ e.cloexec = false := by
  refine ⟨(t.set 0 ⟨fr, false⟩).set 1 ⟨fw, false⟩, ?_, ?_, ?_, fun fd e hfd he => ?_⟩
  · simp [FdTable.dup2, hr, hw, hw0]
  · simp [FdTable.get_exec_eq_some]
  · simp [FdTable.get_exec_eq_some]
  · rw [FdTable.get_exec_eq_some, FdTable.get_set, FdTable.get_set, if_neg (by omega),
      if_neg (by omega)] at he
    exact he

/-- The two pipes in the parent, once it has closed the ends of the child. -/
theorem parentFds_spec {t t₁ t₂ : FdTable File} {r₁ w₁ r₂ w₂ : ℕ} {er₁ ew₁ er₂ ew₂ : Entry File}
    (hget₁ : ∀ fd, t₁.get fd = if fd = w₁ then some ew₁ else if fd = r₁ then some er₁ else t.get fd)
    (hget₂ : ∀ fd, t₂.get fd =
      if fd = w₂ then some ew₂ else if fd = r₂ then some er₂ else t₁.get fd)
    (hr₁ : t.get r₁ = none) (hw₂ : t.get w₂ = none) (hne₁ : w₁ ≠ r₁) (hne₂ : w₂ ≠ r₂)
    (hr₂r₁ : r₂ ≠ r₁) (hr₂w₁ : r₂ ≠ w₁) (hw₂w₁ : w₂ ≠ w₁) (fd : ℕ) :
    ((t₂.close r₁).close w₂).get fd =
      if fd = w₁ then some ew₁ else if fd = r₂ then some er₂ else t.get fd := by
  simp only [FdTable.get_close, hget₂, hget₁]
  by_cases hfd : fd = w₂
  · subst hfd
    simp [hw₂w₁, hne₂, hw₂]
  by_cases hfd' : fd = r₁
  · subst hfd'
    simp [hfd, hne₁.symm, hr₂r₁.symm, hr₁]
  · simp only [if_neg hfd, if_neg hfd']
    by_cases hfd'' : fd = r₂
    · subst hfd''
      simp [hr₂w₁]
    · simp [hfd'']

section

variable {shellCmd : String → String} {blocks : List Resource} {host : Host} {proc : Proc}
  {p : Parent}

theorem startProcWith_ok (hok : host.Ok) :
    (startProcWith shellCmd blocks host proc p).rc = 0 ∧
      ∃ c, Wired p (startProcWith shellCmd blocks host proc p) c := by
  obtain ⟨pid, hin, hout, hspawn⟩ := hok
  obtain ⟨r₁, w₁, t₁, hpair₁, hr₁, hw₁, hne₁, -, hget₁⟩ :=
    p.fds.installPair_spec ⟨.readEnd p.pipes, true⟩ ⟨.writeEnd p.pipes, true⟩
  obtain ⟨r₂, w₂, t₂, hpair₂, hr₂, hw₂, hne₂, hw₂0, hget₂⟩ :=
    t₁.installPair_spec ⟨.readEnd (p.pipes + 1), true⟩ ⟨.writeEnd (p.pipes + 1), true⟩
  -- the second pipe takes none of the descriptors of the first
  have hdistinct : r₂ ≠ r₁ ∧ r₂ ≠ w₁ ∧ w₂ ≠ r₁ ∧ w₂ ≠ w₁ := by
    refine ⟨?_, ?_, ?_, ?_⟩ <;> rintro rfl
    · simp [hget₁, hne₁.symm] at hr₂
    · simp [hget₁] at hr₂
    · simp [hget₁, hne₁.symm] at hw₂
    · simp [hget₁] at hw₂
  obtain ⟨hr₂r₁, hr₂w₁, hw₂r₁, hw₂w₁⟩ := hdistinct
  have hfree : ∀ fd, t₁.get fd = none → p.fds.get fd = none := by
    intro fd hfd
    rw [hget₁] at hfd
    split_ifs at hfd
    exact hfd
  obtain ⟨t', hfold, hc0, hc1, hrest⟩ := childFds_spec
    (show t₂.get r₁ = some ⟨.readEnd p.pipes, true⟩ by
      simp [hget₂, hget₁, hr₂r₁.symm, hw₂r₁.symm, hne₁.symm])
    (show t₂.get w₂ = some ⟨.writeEnd (p.pipes + 1), true⟩ by simp [hget₂]) hw₂0
  simp only [startProcWith, hin, hout, hspawn, pipe2, hpair₁, hpair₂, posixSpawn, hfold]
  refine ⟨trivial, _, {
    spawned := rfl
    pipes := rfl
    stdinFree := hw₁
    stdoutFree := hfree r₂ hr₂
    parentGet := parentFds_spec hget₁ hget₂ hr₁ (hfree w₂ hw₂) hne₁ hne₂ hr₂r₁ hr₂w₁ hw₂w₁
    distinct := hr₂w₁.symm
    childStdin := hc0
    childStdout := hc1
    childRest := fun fd e hfd he => by
      obtain ⟨hget, hcloexec⟩ := hrest fd e hfd he
      refine ⟨?_, hcloexec⟩
      rw [hget₂, hget₁] at hget
      split_ifs at hget
      iterate 4
        rw [← Option.some.inj hget] at hcloexec
        exact Bool.noConfusion hcloexec
      exact hget }⟩

theorem startProcWith_stdin_fails {e : ℤ} (hin : host.pipeStdin = .error e) :
    startProcWith shellCmd blocks host proc p =
      ⟨-1, proc, { p with live := blocks ++ p.live, errno := e }, none⟩ := by
  simp [startProcWith, hin, pipe2]

/-- Once the first pipe is there, a failure leaves its read end open. -/
theorem startProcWith_later_fails (hin : host.pipeStdin = .ok ()) (hok : ¬ host.Ok) :
    (startProcWith shellCmd blocks host proc p).rc = -1 ∧
      ∃ fd, p.fds.get fd = none ∧
        (startProcWith shellCmd blocks host proc p).parent.fds.get fd ≠ none := by
  obtain ⟨r₁, w₁, t₁, hpair₁, hr₁, hw₁, hne₁, -, hget₁⟩ :=
    p.fds.installPair_spec ⟨.readEnd p.pipes, true⟩ ⟨.writeEnd p.pipes, true⟩
  obtain ⟨r₂, w₂, t₂, hpair₂, -, -, -, -, hget₂⟩ :=
    t₁.installPair_spec ⟨.readEnd (p.pipes + 1), true⟩ ⟨.writeEnd (p.pipes + 1), true⟩
  have hopen₁ : t₁.get r₁ ≠ none := by simp [hget₁, hne₁.symm]
  have hopen₂ : t₂.get r₁ ≠ none := by
    rw [hget₂]
    split_ifs <;> simp [hopen₁]
  cases hout : host.pipeStdout with
  | error e =>
    simp only [startProcWith, hin, hout, pipe2, hpair₁]
    exact ⟨trivial, r₁, hr₁, hopen₁⟩
  | ok u =>
    cases hspawn : host.spawn with
    | error e =>
      simp only [startProcWith, hin, hout, hspawn, pipe2, hpair₁, hpair₂, posixSpawn]
      exact ⟨trivial, r₁, hr₁, hopen₂⟩
    | ok pid => exact absurd ⟨pid, hin, hout, hspawn⟩ hok

theorem startProcWith_wired (h : ¬ (startProcWith shellCmd blocks host proc p).rc < 0) :
    ∃ c, Wired p (startProcWith shellCmd blocks host proc p) c := by
  by_cases hok : host.Ok
  · exact (startProcWith_ok hok).2
  cases hin : host.pipeStdin with
  | error e => simp [startProcWith_stdin_fails hin] at h
  | ok u => simp [(startProcWith_later_fails hin hok).1] at h

end

/-- The pipe that a file is an end of. -/
def File.pipe : File → Option ℕ
  | .readEnd q => some q
  | .writeEnd q => some q
  | .other _ => none

/-- The descriptors that the parent keeps for the filters. -/
def keptEnds (procs : List Proc) : List ℕ := procs.flatMap fun proc => [proc.stdin, proc.stdout]

/-- No process has a write end of the pipe, so its reader sees end of file. -/
def NoWriter (q : ℕ) (tables : List (FdTable File)) : Prop :=
  ∀ t ∈ tables, ∀ fd e, t.get fd = some e → e.file ≠ .writeEnd q

/-- The pipes from `k` on belong to the filters, two to each of them. -/
structure Wiring (k : ℕ) (s : Filters) : Prop where
  pipes : s.parent.pipes = k + 2 * s.procs.length
  count : s.children.length = s.procs.length
  child : ∀ (i : ℕ) (c : Child), s.children[i]? = some c →
    c.fds.get 0 = some ⟨.readEnd (k + 2 * i), false⟩ ∧
    c.fds.get 1 = some ⟨.writeEnd (k + 2 * i + 1), false⟩ ∧
    ∀ fd e, 2 ≤ fd → c.fds.get fd = some e → ∀ q, e.file.pipe = some q → q < k
  parent : ∀ (i : ℕ) (proc : Proc), s.procs[i]? = some proc →
    s.parent.fds.get proc.stdin = some ⟨.writeEnd (k + 2 * i), true⟩ ∧
    s.parent.fds.get proc.stdout = some ⟨.readEnd (k + 2 * i + 1), true⟩
  distinct : (keptEnds s.procs).Nodup
  only : ∀ fd e, s.parent.fds.get fd = some e → ∀ q, e.file.pipe = some q → k ≤ q →
    e.cloexec = true ∧ fd ∈ keptEnds s.procs

theorem getElem?_concat_eq_some {α : Type*} {l : List α} {a x : α} {i : ℕ} :
    (l ++ [a])[i]? = some x ↔ l[i]? = some x ∨ i = l.length ∧ x = a := by
  rcases Nat.lt_trichotomy i l.length with h | h | h
  · simp [List.getElem?_append_left h, h.ne]
  · subst h
    simp [eq_comm]
  · have h1 : l.length + 1 ≤ i := h
    simp [List.getElem?_eq_none, h.ne', h.le, h1]

theorem keptEnds_concat (procs : List Proc) (proc : Proc) :
    keptEnds (procs ++ [proc]) = keptEnds procs ++ [proc.stdin, proc.stdout] := by
  simp [keptEnds]

theorem mem_keptEnds {procs : List Proc} {fd : ℕ} :
    fd ∈ keptEnds procs ↔
      ∃ (i : ℕ) (proc : Proc), procs[i]? = some proc ∧ (fd = proc.stdin ∨ fd = proc.stdout) := by
  simp only [keptEnds, List.mem_flatMap, List.mem_cons, List.not_mem_nil, or_false]
  constructor
  · intro h
    obtain ⟨proc, hmem, h⟩ := h
    obtain ⟨i, hi⟩ := List.mem_iff_getElem?.1 hmem
    exact ⟨i, proc, hi, h⟩
  · intro h
    obtain ⟨i, proc, hi, h⟩ := h
    exact ⟨proc, List.mem_of_getElem? hi, h⟩

section

variable {k : ℕ} {s : Filters}

theorem Wiring.keptEnds_open (h : Wiring k s) {fd : ℕ} (hfd : fd ∈ keptEnds s.procs) :
    s.parent.fds.get fd ≠ none := by
  obtain ⟨i, proc, hi, rfl | rfl⟩ := mem_keptEnds.1 hfd
  · rw [(h.parent i proc hi).1]
    exact Option.some_ne_none _
  · rw [(h.parent i proc hi).2]
    exact Option.some_ne_none _

/-- One more filter. -/
theorem Wiring.step (h : Wiring k s) {r : Started} {c : Child} (hr : Wired s.parent r c) :
    Wiring k ⟨s.procs ++ [r.proc], s.children ++ r.child.toList, r.parent⟩ := by
  obtain ⟨hspawned, hpipes, hin, hout, hget, hdistinct, hc0, hc1, hrest⟩ := hr
  rw [h.pipes] at hpipes hget hc0 hc1
  have hnew : ∀ fd ∈ keptEnds s.procs, fd ≠ r.proc.stdin ∧ fd ≠ r.proc.stdout := by
    intro fd hfd
    refine ⟨?_, ?_⟩ <;> rintro rfl
    · exact h.keptEnds_open hfd hin
    · exact h.keptEnds_open hfd hout
  rw [hspawned]
  exact {
    pipes := by simp only [hpipes, List.length_append, List.length_singleton]; omega
    count := by simp [h.count]
    child := fun i c' hi => by
      rcases getElem?_concat_eq_some.1 hi with hi | ⟨rfl, rfl⟩
      · exact h.child i c' hi
      · rw [h.count]
        refine ⟨hc0, hc1, fun fd e hfd he q hq => ?_⟩
        obtain ⟨hold, hcloexec⟩ := hrest fd e hfd he
        by_contra hk
        rw [(h.only fd e hold q hq (by omega)).1] at hcloexec
        exact Bool.noConfusion hcloexec
    parent := fun i proc hi => by
      rcases getElem?_concat_eq_some.1 hi with hi | ⟨rfl, rfl⟩
      · obtain ⟨hin', hout'⟩ := hnew proc.stdin (mem_keptEnds.2 ⟨i, proc, hi, .inl rfl⟩)
        obtain ⟨hin'', hout''⟩ := hnew proc.stdout (mem_keptEnds.2 ⟨i, proc, hi, .inr rfl⟩)
        simp only [hget, if_neg hin', if_neg hout', if_neg hin'', if_neg hout'']
        exact h.parent i proc hi
      · simp [hget, hdistinct.symm]
    distinct := by
      rw [keptEnds_concat, List.nodup_append]
      refine ⟨h.distinct, by simpa using hdistinct, fun fd hfd fd' hfd' => ?_⟩
      obtain ⟨hin', hout'⟩ := hnew fd hfd
      simp only [List.mem_cons, List.not_mem_nil, or_false] at hfd'
      rcases hfd' with rfl | rfl
      · exact hin'
      · exact hout'
    only := fun fd e he q hq hk => by
      simp only [keptEnds_concat, List.mem_append, List.mem_cons, List.not_mem_nil, or_false]
      rw [hget] at he
      split_ifs at he with hfd hfd
      · obtain rfl := Option.some.inj he
        exact ⟨rfl, Or.inr (Or.inl hfd)⟩
      · obtain rfl := Option.some.inj he
        exact ⟨rfl, Or.inr (Or.inr hfd)⟩
      · obtain ⟨hcloexec, hmem⟩ := h.only fd e he q hq hk
        exact ⟨hcloexec, Or.inl hmem⟩ }

/-- Closing the parent's end takes the last write end of a filter's input. -/
theorem Wiring.noWriter (h : Wiring k s) {i : ℕ} {proc : Proc} (hi : s.procs[i]? = some proc) :
    NoWriter (k + 2 * i) (s.parent.fds.close proc.stdin :: s.children.map Child.fds) := by
  intro t ht fd e he hfile
  rcases List.mem_cons.1 ht with rfl | ht
  · rw [FdTable.get_close] at he
    split_ifs at he with hfd
    obtain ⟨-, hmem⟩ := h.only fd e he (k + 2 * i) (by rw [hfile]; rfl) (by omega)
    obtain ⟨j, proc', hj, rfl | rfl⟩ := mem_keptEnds.1 hmem
    · rw [(h.parent j proc' hj).1] at he
      obtain rfl := Option.some.inj he
      obtain rfl : j = i := by simpa using hfile
      exact hfd (congrArg Proc.stdin (Option.some.inj (hj.symm.trans hi)))
    · rw [(h.parent j proc' hj).2] at he
      obtain rfl := Option.some.inj he
      exact File.noConfusion hfile
  · obtain ⟨c, hc, rfl⟩ := List.mem_map.1 ht
    obtain ⟨j, hj⟩ := List.mem_iff_getElem?.1 hc
    obtain ⟨h0, h1, hrest⟩ := h.child j c hj
    rcases Nat.lt_or_ge fd 2 with hfd | hfd
    · obtain rfl | rfl : fd = 0 ∨ fd = 1 := by omega
      · rw [h0] at he
        obtain rfl := Option.some.inj he
        exact File.noConfusion hfile
      · rw [h1] at he
        obtain rfl := Option.some.inj he
        have : k + 2 * j + 1 = k + 2 * i := by simpa using hfile
        omega
    · have := hrest fd e hfd he (k + 2 * i) (by rw [hfile]; rfl)
      omega

end

theorem startFilters_wiring {shellCmd : String → String} {blocks : List Resource}
    {hosts : ℕ → Host} {mem : ℕ → Proc} {k : ℕ} {argv : List String} {s s' : Filters}
    (h : Wiring k s)
    (hrun : startFilters (startProcWith shellCmd blocks) hosts mem argv s = some s') :
    Wiring k s' ∧ s'.procs.length = s.procs.length + argv.length := by
  induction argv generalizing s with
  | nil =>
    obtain rfl := Option.some.inj hrun
    exact ⟨h, rfl⟩
  | cons cmd argv ih =>
    simp only [startFilters] at hrun
    split_ifs at hrun with hrc
    obtain ⟨c, hwired⟩ := startProcWith_wired hrc
    obtain ⟨hw, hlen⟩ := ih (h.step hwired) hrun
    refine ⟨hw, ?_⟩
    simp only [hlen, List.length_append, List.length_cons, List.length_nil]
    omega

/-- No descriptor refers to a pipe that is still to come. -/
def Parent.Fresh (p : Parent) : Prop :=
  ∀ fd e, p.fds.get fd = some e → ∀ q, e.file.pipe = some q → q < p.pipes

/-- Whatever is open at the start: if all filters are started, each has exactly
its own two pipe ends at 0 and 1, and the parent exactly the other two of each. -/
theorem filters_wired {startProc : Host → Proc → Parent → Started}
    (hprog : startProc = Select.startProc ∨ startProc = Epoll.startProc) (hosts : ℕ → Host)
    (mem : ℕ → Proc) (argv : List String) {p : Parent} (hfresh : p.Fresh) {s : Filters}
    (hrun : startFilters startProc hosts mem argv ⟨[], [], p⟩ = some s) :
    s.procs.length = argv.length ∧ Wiring p.pipes s ∧
      ∀ (i : ℕ) (proc : Proc), s.procs[i]? = some proc →
        NoWriter (p.pipes + 2 * i) (s.parent.fds.close proc.stdin :: s.children.map Child.fds) := by
  have hstart : Wiring p.pipes ⟨[], [], p⟩ := {
    pipes := rfl
    count := rfl
    child := by simp
    parent := by simp
    distinct := List.nodup_nil
    only := fun fd e he q hq hk => absurd (hfresh fd e he q hq) (by omega) }
  have hw : Wiring p.pipes s ∧ s.procs.length = 0 + argv.length := by
    rcases hprog with rfl | rfl
    · exact startFilters_wiring hstart hrun
    · exact startFilters_wiring hstart hrun
  exact ⟨hw.2.trans (Nat.zero_add _), hw.1, fun _ _ hi => hw.1.noWriter hi⟩

/-- Descriptors 0 and 1 are closed, so the first pipe takes both of them. -/
def closedStdio : FdTable File :=
  ⟨fun fd => if fd = 2 then some ⟨.other 0, false⟩ else none,
    ⟨3, fun fd h => if_neg (by omega)⟩⟩

theorem filters_wired_closedStdio :
    ∃ s, startFilters Select.startProc (fun _ => ⟨.ok (), .ok (), .ok 7⟩) (fun _ => ⟨"", 0, 0, 0⟩)
        ["sort", "wc"] ⟨[], [], ⟨closedStdio, 0, [], 0⟩⟩ = some s ∧ Wiring 0 s := by
  have hfresh : Parent.Fresh ⟨closedStdio, 0, [], 0⟩ := by
    intro fd e he q hq
    simp only [closedStdio] at he
    split_ifs at he
    obtain rfl := Option.some.inj he
    simp [File.pipe] at hq
  have hrun : (startFilters Select.startProc (fun _ => ⟨.ok (), .ok (), .ok 7⟩)
      (fun _ => ⟨"", 0, 0, 0⟩) ["sort", "wc"] ⟨[], [], ⟨closedStdio, 0, [], 0⟩⟩).isSome = true := by
    decide +kernel
  obtain ⟨s, hs⟩ := Option.isSome_iff_exists.1 hrun
  exact ⟨s, hs, (filters_wired (Or.inl rfl) _ _ _ hfresh hs).2.1⟩

end SyscallAdvent.Filter
