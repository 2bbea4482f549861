import Mathlib.Data.List.Nodup
import SyscallAdvent.Spec.Postbox

/-! The dispatch of the postboxes. A box that could not be prepared keeps -1,
which is also the mark of the fallback, so it takes every event whose own box
comes later in the table. -/

namespace SyscallAdvent.Postbox

/-- What both tables are: boxes to prepare, and one fallback behind them. -/
structure Table (bs : List Box) (fallback : Box) : Prop where
  prepare : ∀ b ∈ bs, b.prepare ≠ none
  noPrepare : fallback.prepare = none
  mark : fallback.fd = -1
  handles : ((bs ++ [fallback]).map Box.handle).Nodup

theorem exists_table {boxes : List Box} (hprog : boxes = boxes12 ∨ boxes = boxes13) :
    ∃ bs fallback, boxes = bs ++ [fallback] ∧ Table bs fallback := by
  rcases hprog with rfl | rfl
  · exact ⟨boxes12.dropLast, _, rfl, by decide, rfl, rfl, by decide⟩
  · exact ⟨boxes13.dropLast, _, rfl, by decide, rfl, rfl, by decide⟩

section

variable {prepare : Prepare → ℤ} {bs : List Box} {b fallback : Box} {fd : ℤ}

theorem Table.tail (h : Table (b :: bs) fallback) : Table bs fallback where
  prepare := fun b' hb' => h.prepare b' (List.mem_cons_of_mem b hb')
  noPrepare := h.noPrepare
  mark := h.mark
  handles := (List.nodup_cons.1 h.handles).2

theorem initBoxes_cons (prepare : Prepare → ℤ) (bs : List Box) (h : b.prepare ≠ none) :
    ∃ r, b.prepared prepare = some r ∧
      initBoxes prepare (b :: bs) = { b with fd := r } :: initBoxes prepare bs := by
  obtain ⟨f, hf⟩ := Option.ne_none_iff_exists'.1 h
  exact ⟨prepare f, by simp [Box.prepared, hf], by simp [initBoxes, hf]⟩

theorem rightBox_cons : rightBox prepare (b :: (bs ++ [fallback])) fd =
    if b.prepared prepare = some fd then some b else rightBox prepare (bs ++ [fallback]) fd := by
  by_cases hfd : b.prepared prepare = some fd
  · simp [rightBox, hfd]
  · have hlast : (b :: (bs ++ [fallback])).getLast? = (bs ++ [fallback]).getLast? := by
      rw [← List.cons_append, List.getLast?_concat, List.getLast?_concat]
    rw [rightBox, List.find?_cons_of_neg (by simpa using hfd), hlast, if_neg hfd, rightBox]

theorem rightBox_mem (h : rightBox prepare (bs ++ [fallback]) fd = some b) :
    b ∈ bs ++ [fallback] := by
  rcases Option.or_eq_some_iff.1 h with h | ⟨-, h⟩
  · exact List.mem_of_find?_eq_some h
  · exact List.mem_of_getLast? h

theorem exists_rightBox (prepare : Prepare → ℤ) (bs : List Box) (fallback : Box) (fd : ℤ) :
    ∃ b, rightBox prepare (bs ++ [fallback]) fd = some b := by
  simp only [rightBox, List.getLast?_append, List.getLast?_singleton, Option.some_or]
  cases (bs ++ [fallback]).find? fun b => b.prepared prepare == some fd with
  | none => exact ⟨fallback, rfl⟩
  | some b => exact ⟨b, rfl⟩

theorem clear_cons : Clear prepare (b :: bs) fd ↔
    b.prepared prepare = some fd ∨ b.prepared prepare ≠ some (-1) ∧ Clear prepare bs fd := by
  by_cases hfd : b.prepared prepare = some fd
  · simp [Clear, hfd]
  · simp [Clear, hfd]

/-- The first match is the right box exactly if no mark comes before it. -/
theorem dispatch_right_iff (h : Table bs fallback) (epollFd : ℤ) {e : Event} (hfd : e.fd ≠ -1) :
    dispatch (initBoxes prepare (bs ++ [fallback])) epollFd e =
        rightCall prepare (bs ++ [fallback]) epollFd e ↔
      Clear prepare (bs ++ [fallback]) e.fd := by
  induction bs with
  | nil =>
    have hmark := h.mark
    simp [dispatch, rightCall, rightBox, initBoxes, Clear, Box.prepared, h.noPrepare, hmark]
  | cons b bs ih =>
    obtain ⟨r, hr, hinit⟩ := initBoxes_cons prepare (bs ++ [fallback])
      (h.prepare b List.mem_cons_self)
    rw [List.cons_append, hinit, clear_cons, rightCall, rightBox_cons, hr]
    by_cases hrfd : r = e.fd
    · simp [dispatch, hrfd]
    by_cases hmark : r = -1
    · obtain ⟨b', hb'⟩ := exists_rightBox prepare bs fallback e.fd
      have hne : b.handle ≠ b'.handle := fun heq =>
        (List.nodup_cons.1 h.handles).1 (heq ▸ List.mem_map_of_mem (rightBox_mem hb'))
      simp [dispatch, hmark, Ne.symm hfd, hb', hne]
    · have hrest := ih h.tail
      rw [dispatch, rightCall] at hrest
      simp [dispatch, hrfd, hmark, hrest]

end

theorem main_eq {boxes : List Box} {host : Host} (hepoll : host.epollFd ≠ -1)
    (waits : List Wait) : main boxes host waits = some ((waits.flatMap Wait.received).filterMap
      (dispatch (initBoxes host.prepare boxes) host.epollFd)) := by
  rw [main, if_neg hepoll, List.filterMap_flatMap]

theorem map_some_filterMap_eq_iff {α β : Type*} {f g : α → Option β} {l : List α}
    (hg : ∀ a ∈ l, (g a).isSome = true) :
    (l.filterMap f).map some = l.map g ↔ ∀ a ∈ l, f a = g a := by
  induction l with
  | nil => simp
  | cons a l ih =>
    have hrest := ih fun a ha => hg a (List.mem_cons_of_mem _ ha)
    cases hf : f a with
    | none =>
      -- too few are left to be one for each
      have hlen := List.length_filterMap_le f l
      refine iff_of_false (fun heq => ?_) fun hall => ?_
      · have := congrArg List.length heq
        simp only [List.filterMap_cons_none hf, List.length_map, List.length_cons] at this
        omega
      · have := hg a List.mem_cons_self
        rw [← hall a List.mem_cons_self, hf] at this
        exact Bool.noConfusion this
    | some b =>
      rw [List.filterMap_cons_some hf, List.map_cons, List.map_cons, List.cons_eq_cons, hrest,
        List.forall_mem_cons, hf]

section

variable {prepare : Prepare → ℤ} {bs : List Box} {b b' fallback : Box} {fd : ℤ}

/-- No box that could not be prepared is the right one. -/
theorem rightBox_prepared (h : Table bs fallback) (hfd : fd ≠ -1)
    (hb : rightBox prepare (bs ++ [fallback]) fd = some b) : b.prepared prepare ≠ some (-1) := by
  rcases Option.or_eq_some_iff.1 hb with hb | ⟨-, hb⟩
  · have hprep : b.prepared prepare = some fd := by simpa using List.find?_some hb
    rw [hprep]
    exact fun heq => hfd (Option.some.inj heq)
  · rw [List.getLast?_concat] at hb
    obtain rfl := Option.some.inj hb
    simp [Box.prepared, h.noPrepare]

theorem Table.eq_of_handle (h : Table bs fallback) (hb : b ∈ bs ++ [fallback])
    (hb' : b' ∈ bs ++ [fallback]) (heq : b.handle = b'.handle) : b = b' :=
  List.inj_on_of_nodup_map h.handles hb hb' heq

end

/-- Every event is handled by the right box exactly if for each event all boxes
before its own could be prepared. -/
theorem right_postbox_iff {boxes : List Box} (hprog : boxes = boxes12 ∨ boxes = boxes13)
    (host : Host) (hepoll : host.epollFd ≠ -1) (waits : List Wait)
    (hfd : ∀ e ∈ waits.flatMap Wait.received, 0 ≤ e.fd) :
    RightPostbox boxes host waits ↔
      ∀ e ∈ waits.flatMap Wait.received, Clear host.prepare boxes e.fd := by
  obtain ⟨bs, fallback, rfl, htable⟩ := exists_table hprog
  have hne : ∀ e ∈ waits.flatMap Wait.received, e.fd ≠ -1 := by
    intro e he
    have := hfd e he
    omega
  have hsome : ∀ e ∈ waits.flatMap Wait.received,
      (rightCall host.prepare (bs ++ [fallback]) host.epollFd e).isSome = true := by
    intro e _
    obtain ⟨b, hb⟩ := exists_rightBox host.prepare bs fallback e.fd
    simp [rightCall, hb]
  rw [RightPostbox, main_eq hepoll]
  constructor
  · intro h e he
    obtain ⟨calls, hcalls, hright, -⟩ := h
    obtain rfl := Option.some.inj hcalls
    exact (dispatch_right_iff htable host.epollFd (hne e he)).1
      ((map_some_filterMap_eq_iff hsome).1 hright e he)
  · intro h
    have hright : ∀ e ∈ waits.flatMap Wait.received,
        dispatch (initBoxes host.prepare (bs ++ [fallback])) host.epollFd e =
          rightCall host.prepare (bs ++ [fallback]) host.epollFd e :=
      fun e he => (dispatch_right_iff htable host.epollFd (hne e he)).2 (h e he)
    refine ⟨_, rfl, (map_some_filterMap_eq_iff hsome).2 hright, fun c hc b hb hfailed heq => ?_⟩
    obtain ⟨e, he, hc⟩ := List.mem_filterMap.1 hc
    rw [hright e he] at hc
    obtain ⟨b', hb', rfl⟩ := Option.map_eq_some_iff.1 hc
    obtain rfl := htable.eq_of_handle (rightBox_mem hb') hb heq
    exact rightBox_prepared htable (hne e he) hb' hfailed

/-- All backends of `13-postbox` are there, and a connection has an event. -/
theorem right_postbox_all :
    let prepare : Prepare → ℤ
      | .fifoPrepare => 4
      | .domainPrepare => 5
      | .signalfdPrepare => 6
      | .mqueuePrepare => 7
    RightPostbox boxes13 ⟨3, prepare⟩ [.ok [⟨6, 1⟩, ⟨9, 1⟩]] := by
  intro prepare
  have hclear : Clear prepare boxes13 6 ∧ Clear prepare boxes13 9 := by
    unfold Clear
    decide
  refine (right_postbox_iff (Or.inr rfl) ⟨3, prepare⟩ (by decide) _ (by decide)).2 ?_
  intro e he
  rcases List.mem_pair.1 he with rfl | rfl
  · exact hclear.1
  · exact hclear.2

/-- Without a fifo, its handler gets what is sent to the socket. -/
theorem wrong_postbox_fifo :
    let host : Host := ⟨3, fun f => if f = .domainPrepare then 5 else -1⟩
    main boxes12 host [.ok [⟨5, 1⟩]] = some [⟨.fifoHandle, 3, 5, 1⟩] ∧
      ¬ RightPostbox boxes12 host [.ok [⟨5, 1⟩]] := by
  intro host
  have hmain : main boxes12 host [.ok [⟨5, 1⟩]] = some [⟨.fifoHandle, 3, 5, 1⟩] := by decide
  refine ⟨hmain, fun h => ?_⟩
  obtain ⟨calls, hcalls, -, hnever⟩ := h
  rw [hmain] at hcalls
  obtain rfl := Option.some.inj hcalls
  exact hnever _ (List.mem_singleton_self _) _ (List.mem_of_mem_head? rfl) rfl rfl

end SyscallAdvent.Postbox
