import SyscallAdvent.Spec.Cat

/-! The loop of `cat`. It ends exactly if some read reports the end of the file,
and what it writes is decided chunk by chunk: a write that is cut short is
reported, and the rest of its chunk is not written again. -/

namespace SyscallAdvent.Cat

open CLoop

/-- The state after `k` iterations. -/
def afterReads (file : ℕ → Read) (write : ℕ → ℤ) (o : Output) (k : ℕ) : Copying :=
  ⟨file k, k + 1, ((List.range k).map file).foldl (fun o r => copyBuf write r o) o⟩

theorem copyNext_afterReads (file : ℕ → Read) (write : ℕ → ℤ) (o : Output) (k : ℕ) :
    copyNext file write (afterReads file write o k) = afterReads file write o (k + 1) := by
  simp only [afterReads, List.range_succ, List.map_append, List.foldl_append]
  rfl

/-- `n` is the first read that reports the end. -/
theorem cat_steps {file : ℕ → Read} (write : ℕ → ℤ) {n : ℕ}
    (hbefore : ∀ k < n, (file k).bytesRead ≠ 0) (heof : (file n).bytesRead = 0) (o : Output)
    {fuel : ℕ} (hfuel : n < fuel) :
    cat file write fuel o = some (afterReads file write o n) := by
  have hrun : ∃ s, cat file write fuel o = some s ∧ s = afterReads file write o n := by
    refine whileLoop_steps (fun k s => s = afterReads file write o k)
      (fun k hk s hs => ?_) (fun s hs => ?_) hfuel rfl
    · subst hs
      exact ⟨by simpa [afterReads] using hbefore k hk, _, rfl, copyNext_afterReads file write o k⟩
    · subst hs
      simpa [afterReads] using heof
  obtain ⟨s, hrun, rfl⟩ := hrun
  exact hrun

/-- The loop ends exactly if some read reports the end of the file. -/
theorem cat_returns_iff (file : ℕ → Read) (write : ℕ → ℤ) (o : Output) :
    (∃ fuel s, cat file write fuel o = some s) ↔ ∃ n, (file n).bytesRead = 0 := by
  constructor
  · intro h
    obtain ⟨fuel, s, hrun⟩ := h
    obtain ⟨⟨k, hk⟩, hstop⟩ := whileLoop_invariant (fun s : Copying => ∃ k, s.last = file k)
      (fun s s' _ _ hb => by
        obtain rfl := Option.some.inj hb
        exact ⟨s.reads, rfl⟩) ⟨0, rfl⟩ hrun
    exact ⟨k, by simpa [hk] using hstop⟩
  · intro h
    exact ⟨_, _, cat_steps write (fun k hk => Nat.find_min h hk) (Nat.find_spec h) o
      (Nat.lt_succ_self _)⟩

theorem Chunk.bytesRead_pos (c : Chunk) : 0 < c.read.bytesRead := by
  have := List.length_pos_iff.2 c.nonempty
  simp only [read, Read.bytesRead]
  omega

theorem readIn_of_lt {chunks : List Chunk} {k : ℕ} (hk : k < chunks.length) :
    readIn chunks k = (chunks[k]).read := by
  simp [readIn, hk]

theorem readIn_of_ge {chunks : List Chunk} {k : ℕ} (hk : chunks.length ≤ k) :
    readIn chunks k = .eof := by
  simp [readIn, hk]

theorem bytesRead_readIn {chunks : List Chunk} {k : ℕ} (hk : k < chunks.length) :
    (readIn chunks k).bytesRead ≠ 0 := by
  rw [readIn_of_lt hk]
  exact (chunks[k]).bytesRead_pos.ne'

theorem map_readIn (chunks : List Chunk) :
    (List.range chunks.length).map (readIn chunks) = chunks.map Chunk.read := by
  apply List.ext_getElem
  · simp
  · intro k hk _
    simp only [List.length_map, List.length_range] at hk
    simp [readIn_of_lt hk]

theorem cat_readIn (write : ℕ → ℤ) (chunks : List Chunk) (o : Output) :
    cat (readIn chunks) write (chunks.length + 1) o = some ⟨.eof, chunks.length + 1,
      (chunks.map Chunk.read).foldl (fun o r => copyBuf write r o) o⟩ := by
  have heof : (readIn chunks chunks.length).bytesRead = 0 := by
    rw [readIn_of_ge (Nat.le_refl _)]
    rfl
  rw [cat_steps write (fun _ => bytesRead_readIn) heof o (Nat.lt_succ_self _), afterReads,
    map_readIn, readIn_of_ge (Nat.le_refl _)]

section

variable {write : ℕ → ℤ} {k : ℕ} {c : Chunk} {chunks : List Chunk}

theorem Accepts.head (h : Accepts write k (c :: chunks)) :
    1 ≤ write k ∧ write k ≤ c.bytes.length := h 0 c rfl

theorem Accepts.tail (h : Accepts write k (c :: chunks)) : Accepts write (k + 1) chunks := by
  intro i c' hi
  rw [Nat.add_assoc, Nat.add_comm 1 i]
  exact h (i + 1) c' hi

theorem copyBuf_chunk (o : Output) (hw : 0 ≤ write o.writes) :
    copyBuf write c.read o = ⟨o.writes + 1, o.accepted ++ c.bytes.take (write o.writes).toNat,
      o.errors ++
        if write o.writes = c.bytes.length then [] else ["Failed to write all read bytes"]⟩ := by
  have hpos := c.bytesRead_pos
  simp only [copyBuf, if_neg (not_lt.2 hpos.le), if_neg (not_lt.2 hw)]
  by_cases hfull : write o.writes = c.bytes.length
  · simp [hfull, Chunk.read, Read.bytesRead, Read.buf]
  · simp [hfull, Chunk.read, Read.bytesRead, Read.buf, Output.perror]

theorem copyBuf_chunks (o : Output) (h : Accepts write o.writes chunks) :
    (chunks.map Chunk.read).foldl (fun o r => copyBuf write r o) o =
      ⟨o.writes + chunks.length, o.accepted ++ delivered write o.writes chunks,
        o.errors ++ reports write o.writes chunks⟩ := by
  induction chunks generalizing o with
  | nil => simp [delivered, reports]
  | cons c chunks ih =>
    have hw : 0 ≤ write o.writes := by linarith [h.head.1]
    rw [List.map_cons, List.foldl_cons, copyBuf_chunk o hw, ih _ h.tail]
    simp only [delivered, reports, List.length_cons, List.append_assoc, Output.mk.injEq, and_true]
    omega

theorem delivered_sublist (write : ℕ → ℤ) (k : ℕ) (chunks : List Chunk) :
    (delivered write k chunks).Sublist (chunks.flatMap Chunk.bytes) := by
  induction chunks generalizing k with
  | nil => exact List.Sublist.refl []
  | cons c chunks ih => exact (List.take_sublist _ _).append (ih (k + 1))

/-- Nothing that a short write leaves over can be made up for by what follows. -/
theorem delivered_eq_iff (h : Accepts write k chunks) :
    delivered write k chunks = chunks.flatMap Chunk.bytes ↔ reports write k chunks = [] := by
  induction chunks generalizing k with
  | nil => simp [delivered, reports]
  | cons c chunks ih =>
    obtain ⟨hpos, hle⟩ := h.head
    simp only [delivered, reports, List.flatMap_cons, List.append_eq_nil_iff, ← ih h.tail]
    constructor
    · intro heq
      have hlen := congrArg List.length heq
      have hrest := (delivered_sublist write (k + 1) chunks).length_le
      simp only [List.length_append, List.length_take] at hlen
      have hfull : write k = c.bytes.length := by omega
      rw [hfull, Int.toNat_natCast, List.take_length] at heq
      exact ⟨if_pos hfull, List.append_cancel_left heq⟩
    · intro hcond
      obtain ⟨hfull, hrest⟩ := hcond
      have hfull : write k = c.bytes.length := by simpa using hfull
      rw [hrest, hfull, Int.toNat_natCast, List.take_length]

theorem reports_eq_nil_iff : reports write k chunks = [] ↔
    ∀ (i : ℕ) (c : Chunk), chunks[i]? = some c → write (k + i) = c.bytes.length := by
  induction chunks generalizing k with
  | nil => simp [reports]
  | cons c chunks ih =>
    simp only [reports, List.append_eq_nil_iff, ite_eq_left_iff, List.cons_ne_nil, imp_false,
      not_not, ih]
    constructor
    · intro h i c' hi
      cases i with
      | zero =>
        obtain rfl := Option.some.inj hi
        exact h.1
      | succ i =>
        rw [← Nat.add_assoc, Nat.add_right_comm]
        exact h.2 i c' hi
    · intro h
      refine ⟨h 0 c rfl, fun i c' hi => ?_⟩
      rw [Nat.add_assoc, Nat.add_comm 1 i]
      exact h (i + 1) c' hi

end

/-- What is accepted are the beginnings of the chunks. It is the whole file
exactly if no write is short, and each short write is reported. -/
theorem cat_copies_or_reports (write : ℕ → ℤ) (chunks : List Chunk)
    (h : Accepts write 0 chunks) : ∃ fuel s, cat (readIn chunks) write fuel .start = some s ∧
      s.out.accepted = delivered write 0 chunks ∧
      s.out.accepted.Sublist (chunks.flatMap Chunk.bytes) ∧
      (s.out.accepted = chunks.flatMap Chunk.bytes ↔
        ∀ (k : ℕ) (c : Chunk), chunks[k]? = some c → write k = c.bytes.length) ∧
      s.out.errors = reports write 0 chunks := by
  have hrun := cat_readIn write chunks .start
  rw [copyBuf_chunks .start h] at hrun
  refine ⟨_, _, hrun, rfl, delivered_sublist write 0 chunks, ?_, rfl⟩
  refine (delivered_eq_iff h).trans ?_
  rw [reports_eq_nil_iff]
  simp only [Nat.zero_add]

/-- Three bytes in two reads; of the first two only one is accepted. -/
def threeBytes : List Chunk :=
  [⟨[104, 111], by decide, by decide⟩, ⟨[10], by decide, by decide⟩]

theorem threeBytes_accepts : Accepts (fun _ => 1) 0 threeBytes
  | 0, c, h => by obtain rfl := Option.some.inj h; decide
  | 1, c, h => by obtain rfl := Option.some.inj h; decide

theorem cat_copies_or_reports_three :
    ∃ fuel s, cat (readIn threeBytes) (fun _ => 1) fuel .start = some s ∧
      s.out.errors = ["Failed to write all read bytes"] := by
  obtain ⟨fuel, s, hrun, -, -, -, herrors⟩ := cat_copies_or_reports _ _ threeBytes_accepts
  exact ⟨fuel, s, hrun, herrors⟩

/-- A byte is lost, although no write fails. -/
theorem cat_loses_byte : Accepts (fun _ => 1) 0 threeBytes ∧
    ∃ s, cat (readIn threeBytes) (fun _ => 1) 3 .start = some s ∧
      s.out.accepted = [104, 10] ∧ s.out.accepted ≠ threeBytes.flatMap Chunk.bytes :=
  ⟨threeBytes_accepts, _, rfl, by decide, by decide⟩

/-- After data and transient errors: the loop ends if the end of the file is
reported, and never if an error stays. -/
theorem cat_ends_iff (file : ℕ → Read) (write : ℕ → ℤ) (o : Output) (n : ℕ)
    (hbefore : ∀ k < n, (file k).bytesRead ≠ 0)
    (hafter : (∀ k, n ≤ k → file k = .eof) ∨ ∃ errno, ∀ k, n ≤ k → file k = .error errno) :
    (∃ fuel s, cat file write fuel o = some s) ↔ file n = .eof := by
  rw [cat_returns_iff]
  constructor
  · intro h
    obtain ⟨m, hm⟩ := h
    have hle : n ≤ m := by
      by_contra hlt
      exact hbefore m (by omega) hm
    rcases hafter with heof | ⟨errno, herror⟩
    · exact heof n (Nat.le_refl n)
    · rw [herror m hle] at hm
      exact absurd hm (by simp [Read.bytesRead])
  · intro h
    exact ⟨n, by rw [h]; rfl⟩

theorem cat_ends_three : ∃ fuel s, cat (readIn threeBytes) (fun _ => 1) fuel .start = some s := by
  refine (cat_ends_iff _ _ _ threeBytes.length (fun k hk => bytesRead_readIn hk)
    (Or.inl fun k hk => readIn_of_ge hk)).2 (readIn_of_ge (Nat.le_refl _))

/-- Reading a directory fails with `EISDIR` every time. -/
theorem cat_hangs_directory :
    ¬ ∃ fuel s, cat (fun _ => .error 21) (fun _ => 1) fuel .start = some s := by
  rw [cat_returns_iff]
  intro h
  obtain ⟨n, hn⟩ := h
  exact absurd hn (by decide)

end SyscallAdvent.Cat
