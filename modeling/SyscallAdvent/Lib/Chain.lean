import Mathlib.Data.List.Nodup
import Mathlib.Tactic.Common

/-! Singly linked lists in a memory: a `next` function, a null value, and the
nodes that a pointer leads to. A finite chain has no cycle. `Reach` does not
presuppose that there is a chain at all: it follows the links from a pointer on
through those nodes that satisfy a guard. -/

namespace LinkedList

variable {α : Type*} {next next' : α → α} {nil : α}

/-- From `p` the links run through exactly these nodes and end in `nil`. -/
def Chain (next : α → α) (nil : α) : α → List α → Prop
  | p, [] => p = nil
  | p, b :: l => p = b ∧ b ≠ nil ∧ Chain next nil (next b) l

theorem Chain.unique {p : α} {l l' : List α} (h : Chain next nil p l) (h' : Chain next nil p l') :
    l = l' := by
  induction l generalizing p l' with
  | nil =>
    cases l' with
    | nil => rfl
    | cons b l' => exact absurd (h'.1.symm.trans h) h'.2.1
  | cons b l ih =>
    cases l' with
    | nil => exact absurd (h.1.symm.trans h') h.2.1
    | cons b' l' =>
      obtain ⟨rfl, -, ht⟩ := h
      obtain ⟨rfl, -, ht'⟩ := h'
      rw [ih ht ht']

/-- The chain from any of its nodes is a suffix of the chain. -/
theorem Chain.suffix {p b : α} {l : List α} (h : Chain next nil p l) (hb : b ∈ l) :
    ∃ l', (b :: l') <:+ l ∧ Chain next nil b (b :: l') := by
  induction l generalizing p with
  | nil => exact absurd hb List.not_mem_nil
  | cons c l ih =>
    obtain ⟨rfl, hne, ht⟩ := h
    rcases List.mem_cons.1 hb with rfl | hb
    · exact ⟨l, List.suffix_refl _, rfl, hne, ht⟩
    · obtain ⟨l', hsuf, hl'⟩ := ih ht hb
      exact ⟨l', hsuf.trans (List.suffix_cons p l), hl'⟩

theorem Chain.nodup {p : α} {l : List α} (h : Chain next nil p l) : l.Nodup := by
  induction l generalizing p with
  | nil => exact List.nodup_nil
  | cons b l ih =>
    obtain ⟨rfl, hne, ht⟩ := h
    refine List.nodup_cons.2 ⟨fun hb => ?_, ih ht⟩
    -- a second visit would start the same, longer chain again
    obtain ⟨l', hsuf, hl'⟩ := ht.suffix hb
    have heq : p :: l' = p :: l := hl'.unique ⟨rfl, hne, ht⟩
    have hlen := hsuf.length_le
    rw [heq, List.length_cons] at hlen
    omega

theorem Chain.congr {p : α} {l : List α} (h : Chain next nil p l)
    (heq : ∀ b ∈ l, next' b = next b) : Chain next' nil p l := by
  induction l generalizing p with
  | nil => exact h
  | cons b l ih =>
    obtain ⟨hp, hne, ht⟩ := h
    refine ⟨hp, hne, ?_⟩
    rw [heq b (List.mem_cons_self ..)]
    exact ih ht fun c hc => heq c (List.mem_cons_of_mem b hc)

/-- Linking a new node before the chain. -/
theorem Chain.push {p b : α} {l : List α} (h : Chain next nil p l) (hb : b ≠ nil)
    (hlink : next' b = p) (heq : ∀ c ∈ l, next' c = next c) : Chain next' nil b (b :: l) := by
  refine ⟨rfl, hb, ?_⟩
  rw [hlink]
  exact h.congr heq

/-- What a walk along the links sees if it only goes on from nodes in `live`. -/
inductive Reach (next : α → α) (nil : α) (live : α → Prop) (p : α) : α → Prop
  | head : p ≠ nil → Reach next nil live p p
  | next {b} : Reach next nil live p b → live b → next b ≠ nil → Reach next nil live p (next b)

/-- A set that the walk enters and never leaves. -/
theorem Reach.subset {live : α → Prop} {p b : α} {S : α → Prop} (h : Reach next nil live p b)
    (hhead : p ≠ nil → S p) (hnext : ∀ c, S c → live c → next c ≠ nil → S (next c)) : S b := by
  induction h with
  | head hp => exact hhead hp
  | next _ hlive hne ih => exact hnext _ ih hlive hne

end LinkedList
