import Mathlib.Data.List.ReduceOption
import SyscallAdvent.Proofs.CatMain

/-! What `main` in `cat.c` prints. All files share one sequence of writes, so the
output of a call is that of all its chunks in a row, and each failure leaves its
own message, in the order of the arguments: one for each short write, one for
each argument that is not copied. -/

namespace SyscallAdvent.Cat

open CLoop Descriptor

section

variable {write : ℕ → ℤ} {k : ℕ}

theorem delivered_append (write : ℕ → ℤ) (k : ℕ) (cs cs' : List Chunk) :
    delivered write k (cs ++ cs') =
      delivered write k cs ++ delivered write (k + cs.length) cs' := by
  induction cs generalizing k with
  | nil => rfl
  | cons c cs ih =>
    rw [List.cons_append, delivered, ih, delivered, List.append_assoc, List.length_cons,
      Nat.add_right_comm, Nat.add_assoc]

theorem Accepts.left {cs cs' : List Chunk} (h : Accepts write k (cs ++ cs')) :
    Accepts write k cs := by
  intro i c hi
  refine h i c ?_
  rw [List.getElem?_append_left (List.getElem?_eq_some_iff.1 hi).1, hi]

theorem Accepts.right {cs cs' : List Chunk} (h : Accepts write k (cs ++ cs')) :
    Accepts write (k + cs.length) cs' := by
  intro i c hi
  rw [Nat.add_assoc]
  refine h (cs.length + i) c ?_
  rw [List.getElem?_append_right (Nat.le_add_right _ _), Nat.add_sub_cancel_left, hi]

end

/-- From `o` on, the chunks `cs` were written and `msgs` reported. -/
structure Printed (write : ℕ → ℤ) (cs : List Chunk) (msgs : List String) (o o' : Output) :
    Prop where
  writes : o'.writes = o.writes + cs.length
  accepted : o'.accepted = o.accepted ++ delivered write o.writes cs
  errors : o'.errors = o.errors ++ msgs

theorem Printed.refl (write : ℕ → ℤ) (o : Output) : Printed write [] [] o o :=
  ⟨rfl, (List.append_nil _).symm, (List.append_nil _).symm⟩

theorem Printed.trans {write : ℕ → ℤ} {cs cs' : List Chunk} {msgs msgs' : List String}
    {o o' o'' : Output} (h : Printed write cs msgs o o') (h' : Printed write cs' msgs' o' o'') :
    Printed write (cs ++ cs') (msgs ++ msgs') o o'' := by
  refine ⟨?_, ?_, ?_⟩
  · rw [h'.writes, h.writes, List.length_append, Nat.add_assoc]
  · rw [h'.accepted, h.accepted, h.writes, delivered_append, List.append_assoc]
  · rw [h'.errors, h.errors, List.append_assoc]

theorem printed_perror (write : ℕ → ℤ) (o : Output) (msg : String) :
    Printed write [] [msg] o (o.perror msg) :=
  ⟨rfl, (List.append_nil _).symm, rfl⟩

theorem printed_chunks {write : ℕ → ℤ} {cs : List Chunk} (o : Output)
    (h : Accepts write o.writes cs) :
    Printed write cs (reports write o.writes cs) o
      ((cs.map Chunk.read).foldl (fun o r => copyBuf write r o) o) := by
  rw [copyBuf_chunks o h]
  exact ⟨rfl, rfl, rfl⟩

/-- The chunks of a file, with any bound that is large enough. -/
theorem cat_chunks {write : ℕ → ℤ} {cs : List Chunk} (o : Output)
    (h : Accepts write o.writes cs) :
    ∃ s, (∀ fuel, cs.length < fuel → cat (readIn cs) write fuel o = some s) ∧
      Printed write cs (reports write o.writes cs) o s.out := by
  have heof : (readIn cs cs.length).bytesRead = 0 := by
    rw [readIn_of_ge (Nat.le_refl _)]
    rfl
  refine ⟨_, fun fuel hfuel => cat_steps write (fun _ => bytesRead_readIn) heof o hfuel, ?_⟩
  rw [afterReads, map_readIn]
  exact printed_chunks o h

/-- The files that `main` copies. -/
def copied (w : World) (argv : List String) (fds : FdTable File) : List File :=
  if (fds.get 0).isNone then (openable w 1 argv).tail else openable w 1 argv

/-- The messages of `main` about these arguments, from write `k` on. -/
def messages (write : ℕ → ℤ) (chunks : ℕ → List Chunk) : ℕ → List (Option File) → List String
  | _, [] => []
  | k, none :: args => "Failed to open file" :: messages write chunks k args
  | k, some f :: args =>
    reports write k (chunks f.idx) ++
      messages write chunks (k + (chunks f.idx).length) args

section

variable {w : World} {chunks : ℕ → List Chunk} {argv : List String}

/-- `main` goes on from `p` with the arguments `argv`, of which these become of. -/
def Prints (w : World) (chunks : ℕ → List Chunk) (idx : ℕ) (argv : List String) (p : Process)
    (args : List (Option File)) : Prop :=
  ∃ n, ∀ fuel, n < fuel → ∃ p', copyArgs w fuel idx argv p = some p' ∧
    p'.calls = p.calls ++ args.reduceOption.map some ∧
    Printed w.write (args.reduceOption.flatMap fun f => chunks f.idx)
      (messages w.write chunks p.out.writes args) p.out p'.out

/-- An argument that is not copied. -/
theorem Prints.skip {idx : ℕ} {name : String} {p q : Process} {args : List (Option File)}
    (harg : ∀ fuel, copyArg w fuel idx name p = some q)
    (hout : q.out = p.out.perror "Failed to open file") (hcalls : q.calls = p.calls)
    (h : Prints w chunks (idx + 1) argv q args) :
    Prints w chunks idx (name :: argv) p (none :: args) := by
  obtain ⟨n, h⟩ := h
  refine ⟨n, fun fuel hfuel => ?_⟩
  obtain ⟨p', hrun, hp', hprinted⟩ := h fuel hfuel
  refine ⟨p', by simp [copyArgs, harg, hrun], by rw [hp', hcalls]; rfl, ?_⟩
  rw [hout] at hprinted
  exact (printed_perror w.write p.out "Failed to open file").trans hprinted

/-- A file that is copied. -/
theorem Prints.copy {idx : ℕ} {name : String} {p : Process} {args : List (Option File)}
    (hopen : w.openFile idx name = some (readIn (chunks idx))) (h0 : p.fds.get 0 ≠ none)
    (hchunks : Accepts w.write p.out.writes (chunks idx))
    (h : ∀ o, o.writes = p.out.writes + (chunks idx).length → Prints w chunks (idx + 1) argv
      ⟨p.fds, o, p.calls ++ [some ⟨idx, readIn (chunks idx)⟩]⟩ args) :
    Prints w chunks idx (name :: argv) p (some ⟨idx, readIn (chunks idx)⟩ :: args) := by
  obtain ⟨s, hcat, hprinted⟩ := cat_chunks p.out hchunks
  obtain ⟨n, h⟩ := h s.out hprinted.writes
  refine ⟨max n (chunks idx).length, fun fuel hfuel => ?_⟩
  obtain ⟨p', hrun, hp', hrest⟩ := h fuel (by omega)
  refine ⟨p', ?_, ?_, ?_⟩
  · rw [copyArgs, copyArg_copies hopen h0, hcat fuel (by omega)]
    exact hrun
  · rw [hp', List.reduceOption_cons_of_some, List.map_cons, List.append_assoc]
    rfl
  · rw [hprinted.writes] at hrest
    rw [List.reduceOption_cons_of_some, List.flatMap_cons]
    exact hprinted.trans hrest

end

end SyscallAdvent.Cat
