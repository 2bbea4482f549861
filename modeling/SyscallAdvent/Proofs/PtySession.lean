import SyscallAdvent.Spec.Pty

/-! What a program is started with in a pty, for any descriptor of the pty and any
table of the parent, and what `exit` leaves of a terminal that was configured. -/

namespace SyscallAdvent.Pty

open Descriptor

variable {F : Type*}

theorem adddup2_streams (openMax : OpenMax) (ptyFd : ℤ) :
    adddup2 openMax (adddup2 openMax (adddup2 openMax [] ptyFd 0) ptyFd 1) ptyFd 2 =
      if ValidFd openMax ptyFd then [0, 1, 2].map (ptyFd.toNat, ·) else [] := by
  have h : ∀ newfd : ℤ, 0 ≤ newfd → newfd ≤ 2 → ValidFd openMax newfd := by
    intro newfd h0 h2
    have := openMax.property
    exact ⟨h0, by omega⟩
  simp only [adddup2, h 0 (by decide) (by decide), h 1 (by decide) (by decide),
    h 2 (by decide) (by decide), and_true]
  split_ifs <;> rfl

theorem execInPty_eq_some {openMax : OpenMax} {spawn : Except ℤ ℤ} {argv : List String}
    {ptyFd : ℤ} {fds : FdTable F} {r : ℤ × Child F} :
    execInPty openMax spawn argv ptyFd fds = some r ↔
      posixSpawnp spawn (if ValidFd openMax ptyFd then [0, 1, 2].map (ptyFd.toNat, ·) else [])
        true argv fds = .ok r := by
  simp only [execInPty, adddup2_streams]
  cases posixSpawnp spawn _ true argv fds <;> simp

theorem posixSpawnp_eq_ok {result : Except ℤ ℤ} {fa : FileActions} {setsid : Bool}
    {argv : List String} {fds : FdTable F} {pid : ℤ} {c : Child F} :
    posixSpawnp result fa setsid argv fds = .ok (pid, c) ↔
      result = .ok pid ∧ c.argv = argv ∧ c.sessionLeader = setsid ∧
        ∃ t, fa.foldlM (fun t a => t.dup2 a.1 a.2) fds = some t ∧ c.fds = t.exec := by
  obtain ⟨argv', fds', leader⟩ := c
  unfold posixSpawnp
  cases result with
  | error e => simp
  | ok pid' =>
    cases fa.foldlM (fun t a => t.dup2 a.1 a.2) fds with
    | none => simp
    | some t =>
      simp only [Except.ok.injEq, Prod.mk.injEq, Child.mk.injEq, Option.some.injEq]
      constructor
      · rintro ⟨rfl, rfl, rfl, rfl⟩
        exact ⟨rfl, rfl, rfl, t, rfl, rfl⟩
      · rintro ⟨rfl, rfl, rfl, _, rfl, rfl⟩
        exact ⟨rfl, rfl, rfl, rfl⟩

/-- Only the standard streams are redirected, before descriptors are closed on exec. -/
theorem exec_redirected {e : Entry F} {fds t : FdTable F}
    (h : ∀ fd, t.get fd = if fd ∈ [0, 1, 2] then some ⟨e.file, false⟩ else fds.get fd) (fd : ℕ) :
    t.exec.get fd = if fd ≤ 2 then some ⟨e.file, false⟩ else fds.exec.get fd := by
  have hmem : fd ∈ [0, 1, 2] ↔ fd ≤ 2 := by
    simp only [List.mem_cons, List.not_mem_nil, or_false]
    omega
  simp only [FdTable.exec, h, hmem]
  split_ifs <;> rfl

/-- With the program that runs in the end. -/
theorem execInPty_child {openMax : OpenMax} {spawn : Except ℤ ℤ} {argv : List String}
    {ptyFd : ℤ} {fds : FdTable F} {pid : ℤ} {c : Child F} :
    execInPty openMax spawn argv ptyFd fds = some (pid, c) ↔
      spawn = .ok pid ∧ c.argv = argv ∧ c.sessionLeader = true ∧
        if ValidFd openMax ptyFd then ∃ e, fds.get ptyFd.toNat = some e ∧ OnPty e fds c
        else c.fds = fds.exec := by
  rw [execInPty_eq_some, posixSpawnp_eq_ok]
  refine and_congr_right fun _ => and_congr_right fun _ => and_congr_right fun _ => ?_
  split_ifs with hvalid
  · cases hget : fds.get ptyFd.toNat with
    | none =>
      rw [FdTable.foldlM_dup2_closed (by simp) hget]
      simp
    | some e =>
      obtain ⟨t, hfold, ht⟩ := FdTable.foldlM_dup2 [0, 1, 2] hget
      rw [hfold]
      constructor
      · rintro ⟨_, ⟨⟩, hc⟩
        exact ⟨e, rfl, fun fd => by rw [hc, exec_redirected ht]⟩
      · rintro ⟨_, ⟨⟩, hpty⟩
        exact ⟨t, rfl, FdTable.ext fun fd => by rw [hpty, exec_redirected ht]⟩
  · constructor
    · rintro ⟨_, ⟨⟩, hc⟩
      exact hc
    · intro hc
      exact ⟨fds, rfl, hc⟩

theorem execInPty_isSome {openMax : OpenMax} {spawn : Except ℤ ℤ} {argv : List String}
    {ptyFd : ℤ} {fds : FdTable F} :
    (execInPty openMax spawn argv ptyFd fds).isSome = true ↔
      (∃ pid, spawn = .ok pid) ∧ (ValidFd openMax ptyFd → fds.get ptyFd.toNat ≠ none) := by
  rw [Option.isSome_iff_exists]
  constructor
  · rintro ⟨⟨pid, c⟩, h⟩
    obtain ⟨hspawn, -, -, hfds⟩ := execInPty_child.1 h
    refine ⟨⟨pid, hspawn⟩, fun hvalid => ?_⟩
    rw [if_pos hvalid] at hfds
    obtain ⟨e, hget, -⟩ := hfds
    simp [hget]
  · rintro ⟨⟨pid, rfl⟩, hopen⟩
    by_cases hvalid : ValidFd openMax ptyFd
    · obtain ⟨e, hget⟩ := Option.ne_none_iff_exists'.1 (hopen hvalid)
      obtain ⟨t, -, ht⟩ := FdTable.foldlM_dup2 [0, 1, 2] hget
      refine ⟨(pid, ⟨argv, t.exec, true⟩), execInPty_child.2 ⟨rfl, rfl, rfl, ?_⟩⟩
      rw [if_pos hvalid]
      exact ⟨e, hget, fun fd => exec_redirected ht fd⟩
    · refine ⟨(pid, ⟨argv, fds.exec, true⟩), execInPty_child.2 ⟨rfl, rfl, rfl, ?_⟩⟩
      rw [if_neg hvalid]

/-- When `exec_in_pty` returns, and with which program running. A descriptor that
is no descriptor leaves the program on the streams of its parent. -/
theorem execInPty_spawned (openMax : OpenMax) (spawn : Except ℤ ℤ) (argv : List String)
    (ptyFd : ℤ) (fds : FdTable F) :
    ((execInPty openMax spawn argv ptyFd fds).isSome = true ↔
      (∃ pid, spawn = .ok pid) ∧ (ValidFd openMax ptyFd → fds.get ptyFd.toNat ≠ none)) ∧
    ∀ pid c, execInPty openMax spawn argv ptyFd fds = some (pid, c) →
      spawn = .ok pid ∧ c.argv = argv ∧ c.sessionLeader = true ∧
        if ValidFd openMax ptyFd then ∃ e, fds.get ptyFd.toNat = some e ∧ OnPty e fds c
        else c.fds = fds.exec :=
  ⟨execInPty_isSome, fun _ _ h => execInPty_child.1 h⟩

theorem run_snoc (evs : List Event) (e : Event) (s : Session) :
    run (evs ++ [e]) s = exec (run evs s) e := by
  simp [run]

theorem settings_append (evs evs' : List Event) (t : Termios) :
    settings (evs ++ evs') t = settings evs' (settings evs t) := by
  simp [settings]

theorem undone_snoc_configure (evs : List Event) (host : Host) :
    undone (evs ++ [.configure host]) = evs := by
  simp [undone, Event.isConfigure]

theorem undone_snoc_change (evs : List Event) (t : Termios) :
    undone (evs ++ [.change t]) =
      if evs.any Event.isConfigure then undone evs else evs ++ [.change t] := by
  simp only [undone, List.any_append, List.any_cons, List.any_nil, Event.isConfigure,
    Bool.or_false]
  split_ifs with h
  · rw [List.rdropWhile_concat_pos _ _ _ (by rfl)]
  · rfl

/-- What a run without failures keeps: the terminal is as the events left it, and
`orig_termios` as it was before the last call of `configure_terminal`. -/
structure Tracks (t : Termios) (evs : List Event) (s : Session) : Prop where
  terminal : s.terminal = settings evs t
  handlers : s.handlers = evs.countP Event.isConfigure
  origTermios : evs.any Event.isConfigure → s.origTermios = settings (undone evs) t

theorem tracks_exec {t : Termios} {evs : List Event} {s : Session} (h : Tracks t evs s)
    {e : Event} (he : e.Ok) : Tracks t (evs ++ [e]) (exec s e) := by
  cases e with
  | configure host =>
    obtain ⟨hget, hexit, hset⟩ := he
    have hs : exec s (.configure host) = ⟨s.terminal.raw, s.terminal, s.handlers + 1⟩ := by
      simp [exec, configureTerminal, hget, hexit, hset]
    rw [hs]
    refine ⟨?_, ?_, fun _ => ?_⟩
    · rw [settings_append, ← h.terminal]
      rfl
    · rw [List.countP_append, ← h.handlers]
      rfl
    · rw [undone_snoc_configure]
      exact h.terminal
  | change t' =>
    refine ⟨?_, ?_, fun hany => ?_⟩
    · rw [settings_append]
      rfl
    · rw [List.countP_append, ← h.handlers]
      rfl
    · have hany : evs.any Event.isConfigure = true := by
        simpa [Event.isConfigure] using hany
      rw [undone_snoc_change, if_pos hany]
      exact h.origTermios hany

theorem tracks_run (t : Termios) {evs : List Event} (hok : ∀ e ∈ evs, e.Ok) :
    Tracks t evs (run evs (start t)) := by
  induction evs using List.reverseRecOn with
  | nil => exact ⟨rfl, rfl, by simp⟩
  | append_singleton evs e ih =>
    rw [run_snoc]
    exact tracks_exec (ih fun e he => hok e (by simp [he])) (hok e (by simp))

/-- All handlers restore the same settings, so one that succeeds is enough. -/
theorem foldl_restoreTerminal (tcsetattr : ℕ → Bool) (calls : List ℕ) (s : Session) :
    (calls.foldl (fun s k => restoreTerminal (tcsetattr k) s) s).terminal =
      if calls.any tcsetattr then s.origTermios else s.terminal := by
  induction calls generalizing s with
  | nil => rfl
  | cons k calls ih =>
    rw [List.foldl_cons, ih, List.any_cons]
    cases h : tcsetattr k <;> simp [restoreTerminal]

theorem exit_terminal {t : Termios} {evs : List Event} {s : Session} (h : Tracks t evs s)
    {tcsetattr : ℕ → Bool} (hset : tcsetattr 0 = true) :
    (exit tcsetattr s).terminal = settings (undone evs) t := by
  rw [exit, foldl_restoreTerminal, h.handlers]
  cases hany : evs.any Event.isConfigure with
  | true =>
    have hpos : 0 < evs.countP Event.isConfigure := by
      rwa [List.countP_pos_iff, ← List.any_eq_true]
    rw [if_pos (List.any_eq_true.2 ⟨0, List.mem_range.2 hpos, hset⟩)]
    exact h.origTermios hany
  | false =>
    have hzero : evs.countP Event.isConfigure = 0 := by
      rw [List.countP_eq_zero]
      simpa using hany
    rw [hzero, undone, hany]
    exact h.terminal

theorem Termios.raw_raw (t : Termios) : t.raw.raw = t.raw := by
  simp [Termios.raw, BitVec.and_assoc]

/-- Calls of `configure_terminal` after the first have no effect on the terminal. -/
theorem settings_configures {evs : List Event} (h : ∀ e ∈ evs, e.isConfigure = true)
    (hne : evs ≠ []) (t : Termios) : settings evs t = t.raw := by
  induction evs using List.reverseRecOn with
  | nil => exact absurd rfl hne
  | append_singleton evs e ih =>
    have he := h e (by simp)
    cases e with
    | change t' => simp [Event.isConfigure] at he
    | configure host =>
      rw [settings_append]
      rcases eq_or_ne evs [] with rfl | hne
      · rfl
      · rw [ih (fun e he => h e (by simp [he])) hne]
        exact t.raw_raw

/-- `exit` undoes the last call of `configure_terminal` and all that came after it.
If only calls came before it, that restores the terminal for the first one alone,
unless the terminal was raw. -/
theorem exit_restores (t : Termios) (evs : List Event) (hok : ∀ e ∈ evs, e.Ok)
    (tcsetattr : ℕ → Bool) (hset : tcsetattr 0 = true) :
    (exit tcsetattr (run evs (start t))).terminal = settings (undone evs) t ∧
      ((∀ e ∈ undone evs, e.isConfigure = true) →
        ((exit tcsetattr (run evs (start t))).terminal = t ↔ undone evs = [] ∨ t.raw = t)) := by
  have hexit := exit_terminal (tracks_run t hok) hset
  refine ⟨hexit, fun hconf => ?_⟩
  rw [hexit]
  rcases eq_or_ne (undone evs) [] with hnil | hne
  · simp [hnil, settings]
  · simp [settings_configures hconf hne, hne]

/-- Configured twice, a terminal that echoes does not echo any more. -/
theorem exit_restores_twice :
    let t : Termios := { Termios.zero with lflag := echo }
    let evs : List Event := List.replicate 2 (.configure ⟨true, true, true⟩)
    (exit (fun _ => true) (run evs (start t))).terminal ≠ t := by
  intro t evs h
  have hundone : undone evs = [.configure ⟨true, true, true⟩] := rfl
  have hok : ∀ e ∈ evs, e.Ok := by
    intro e he
    rw [List.eq_of_mem_replicate he]
    exact ⟨rfl, rfl, rfl⟩
  have hiff := (exit_restores t evs hok (fun _ => true) rfl).2
  rw [hundone] at hiff
  rcases (hiff (by simp [Event.isConfigure])).1 h with hnil | hraw
  · cases hnil
  · exact absurd (congrArg Termios.lflag hraw) (by decide)

end SyscallAdvent.Pty
