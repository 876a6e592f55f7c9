/-
  Chainspace.Blockmania.Heap — what a call writes through the references of a state.

  A call writes at most one object: the map a view-change vote is filed in, or the backing array of
  a slice of timeouts. For the state that writes, the effect is that of a value; for every other
  state it is visible only through an object both refer to.
-/
import Chainspace.Blockmania.React

namespace Chainspace.Blockmania

open Chainspace.Lib List

/-! ## §1. `append`. -/

namespace Heap

variable (grow : Nat → Nat) (h : Heap) (k : Nat) (s : Slice) (t : Timeout)

/-- For the slice that is appended to, `append` is the list operation. -/
theorem read_append_self :
    (h.append grow k s t).1.read k (h.append grow k s t).2 = h.read k s ++ [t] := by
  unfold append
  split
  · show (List.range (s.len + 1)).map _ = _
    rw [range_succ, map_append]
    congr 1
    · refine map_congr_left ?_
      intro j hj
      have hj : j ≠ s.len := by
        have := mem_range.mp hj
        omega
      simp [setCell, hj]
    · simp [setCell]
  show (List.range (s.len + 1)).map _ = _
  rw [range_succ, map_append]
  congr 1
  · refine map_congr_left ?_
    intro j hj
    have hj : j ≠ s.len := by
      have := mem_range.mp hj
      omega
    simp [hj]
  · simp

theorem read_append_ne {k' : Nat} (hk : k' ≠ k) (s' : Slice) :
    (h.append grow k s t).1.read k' s' = h.read k' s' := by
  unfold append
  split
  · exact map_congr_left (fun j _ => by simp [setCell, hk])
  · exact map_congr_left (fun j _ => by simp [hk])

theorem mem_read_append {k' : Nat} {s' : Slice} (hs' : s'.len = 0 ∨ s'.arr < h.next)
    {x : Timeout} (hx : x ∈ (h.append grow k s t).1.read k' s') : x ∈ h.read k' s' ∨ x = t := by
  obtain ⟨j, hj, hx⟩ := mem_map.mp hx
  have hmem : h.cells k' s'.arr j ∈ h.read k' s' := mem_map_of_mem hj
  unfold append at hx
  split at hx
  · simp only [setCell] at hx
    split at hx
    · exact .inr hx.symm
    · exact .inl (hx ▸ hmem)
  have hpos := mem_range.mp hj
  have hne : s'.arr ≠ h.next := by omega
  simp only [hne, false_and, if_false] at hx
  exact .inl (hx ▸ hmem)

theorem append_next_le : h.next ≤ (h.append grow k s t).1.next := by
  unfold append
  split
  · exact Nat.le_refl h.next
  · exact Nat.le_succ h.next

theorem append_vcs : (h.append grow k s t).1.vcs = h.vcs := by
  unfold append
  split <;> rfl

theorem append_arr (hs : s.len = 0 ∧ s.cap = 0 ∨ s.arr < h.next) :
    (h.append grow k s t).2.arr < (h.append grow k s t).1.next := by
  unfold append
  split
  next =>
    show s.arr < h.next
    omega
  · exact Nat.lt_succ_self h.next

end Heap

/-! ## §2. The references of a state. -/

/-- The references of a state point to allocated objects; a slice without elements is nil. -/
structure Allocated (h : Heap) (s : State) : Prop where
  arr : ∀ k, (s.timeouts k).len = 0 ∧ (s.timeouts k).cap = 0 ∨ (s.timeouts k).arr < h.next
  vcs : ∀ key i, s.data.viewChanged key = some i → i < h.next

variable {h : Heap} {s : State}

theorem Allocated.slice (ha : Allocated h s) (k : Nat) :
    (s.timeouts k).len = 0 ∨ (s.timeouts k).arr < h.next :=
  (ha.arr k).imp_left And.left

theorem Allocated.mono {h' : Heap} (ha : Allocated h s) (hle : h.next ≤ h'.next) :
    Allocated h' s where
  arr := fun k => (ha.arr k).imp_right (fun hlt => Nat.lt_of_lt_of_le hlt hle)
  vcs := fun key i hi => Nat.lt_of_lt_of_le (ha.vcs key i hi) hle

theorem allocated_empty (h : Heap) : Allocated h State.empty where
  arr := fun _ => .inl ⟨rfl, rfl⟩
  vcs := fun _ _ hi => absurd hi (by simp [State.empty, StateKV.empty])

theorem Allocated.clone (ha : Allocated h s) (minround : Nat) :
    Allocated h (clone (some s) minround) where
  arr := by
    intro k
    by_cases hk : k < minround
    · simp [Blockmania.clone, hk, Slice.nil]
    · simpa [Blockmania.clone, hk] using ha.arr k
  vcs := fun key i hi =>
    ha.vcs key i (PMap.of_restrict (p := fun k : NodeRoundView => minround.ble k.round) hi)

theorem Allocated.congr {s' : State} (ha : Allocated h s)
    (ht : s'.timeouts = s.timeouts) (hv : s'.data.viewChanged = s.data.viewChanged) :
    Allocated h s' where
  arr := ht ▸ ha.arr
  vcs := hv ▸ ha.vcs

theorem addTimeout_allocated {grow : Nat → Nat} {k : Nat} {t : Timeout} (ha : Allocated h s) :
    Allocated (addTimeout grow k (h, s) t).1 (addTimeout grow k (h, s) t).2 where
  arr := by
    intro k'
    by_cases hk : k' = k
    · subst hk
      right
      simp only [addTimeout, if_true]
      exact Heap.append_arr grow h k' (s.timeouts k') t (ha.arr k')
    simp only [addTimeout, hk, if_false]
    exact (ha.arr k').imp_right
      (fun hlt => Nat.lt_of_lt_of_le hlt (Heap.append_next_le grow h k (s.timeouts k) t))
  vcs := fun key i hi =>
    Nat.lt_of_lt_of_le (ha.vcs key i hi) (Heap.append_next_le grow h k (s.timeouts k) t)

theorem read_addTimeout (grow : Nat → Nat) (k k' : Nat) (h : Heap) (s : State) (t : Timeout) :
    (addTimeout grow k (h, s) t).1.read k' ((addTimeout grow k (h, s) t).2.timeouts k') =
      if k' = k then h.read k' (s.timeouts k') ++ [t] else h.read k' (s.timeouts k') := by
  show (h.append grow k (s.timeouts k) t).1.read k'
    (if k' = k then (h.append grow k (s.timeouts k) t).2 else s.timeouts k') = _
  by_cases hk : k' = k
  · subst hk
    rw [if_pos rfl, if_pos rfl, Heap.read_append_self]
  · rw [if_neg hk, if_neg hk, Heap.read_append_ne grow h k (s.timeouts k) t hk]

/-- What a state reads under a key after the timeouts of a block are scheduled. -/
theorem read_schedule (p : Params) (round tround k : Nat) (h : Heap) (s : State) :
    (schedule p round tround h s).1.read k ((schedule p round tround h s).2.timeouts k) =
      h.read k (s.timeouts k) ++
        if k = tround then p.nodes.map (fun x => (⟨x, round, 0⟩ : Timeout)) else [] := by
  unfold schedule
  induction p.nodes generalizing h s with
  | nil => simp
  | cons x nodes ih =>
    rw [foldl_cons, ih, read_addTimeout]
    split
    · rw [append_assoc]
      rfl
    · rfl

theorem mem_read_addTimeout {grow : Nat → Nat} {k k' : Nat} {t x : Timeout}
    (hx : x ∈ (addTimeout grow k' (h, s) t).1.read k ((addTimeout grow k' (h, s) t).2.timeouts k)) :
    x ∈ h.read k (s.timeouts k) ∨ x = t := by
  rw [read_addTimeout] at hx
  split at hx
  · exact (mem_append.mp hx).imp_right mem_singleton.mp
  · exact .inl hx

/-! ## §3. Filing a vote. -/

/-- The votes a state sees under a `ViewChanged` key. -/
def vcContent (h : Heap) (s : State) (key : NodeRoundView) : VcMap :=
  match s.data.viewChanged key with
  | some i => h.vcs key i
  | none => ∅

section FileVote
variable (h : Heap) (s : State) (key : NodeRoundView) (v : Nat) (m : ViewChange)

@[simp] theorem vcObject_timeouts : (vcObject h s key).2.1.timeouts = s.timeouts := by
  unfold vcObject; split <;> rfl

@[simp] theorem vcObject_cells : (vcObject h s key).1.cells = h.cells := by
  unfold vcObject; split <;> rfl

theorem vcObject_next : h.next ≤ (vcObject h s key).1.next := by
  unfold vcObject
  split
  · exact Nat.le_refl h.next
  · exact Nat.le_succ h.next

theorem vcObject_viewChanged (key' : NodeRoundView) : (vcObject h s key).2.1.data.viewChanged key' =
      if key' = key then some (vcObject h s key).2.2 else s.data.viewChanged key' := by
  unfold vcObject
  split
  next hi =>
    split
    next hk => rw [hk, hi]
    · rfl
  · rfl

theorem vcObject_vcs_ne {key' : NodeRoundView} {i : Nat}
    (hne : i ≠ (vcObject h s key).2.2 ∨ key' ≠ key) :
    (vcObject h s key).1.vcs key' i = h.vcs key' i := by
  unfold vcObject at hne ⊢
  split at hne <;> simp_all [Heap.setVcs]
  intro hi hk
  exact absurd hk (hne.resolve_left (not_not.mpr hi))

theorem vcObject_content :
    (vcObject h s key).1.vcs key (vcObject h s key).2.2 = vcContent h s key := by
  unfold vcObject vcContent
  cases s.data.viewChanged key <;> simp [Heap.setVcs]

theorem vcObject_lt (ha : Allocated h s) : (vcObject h s key).2.2 < (vcObject h s key).1.next := by
  unfold vcObject
  split
  next i hi => exact ha.vcs key i hi
  · exact Nat.lt_succ_self h.next

theorem fileVote_map :
    (fileVote h s v m).2.2 = (vcContent h s ⟨m.node, m.round, v⟩).insert m.sender m.hash := by
  unfold fileVote
  rw [← vcObject_content]

@[simp] theorem fileVote_cells : (fileVote h s v m).1.cells = h.cells := vcObject_cells h s _

theorem fileVote_next : h.next ≤ (fileVote h s v m).1.next := vcObject_next h s _

theorem fileVote_vcs (key' : NodeRoundView) (i : Nat) : (fileVote h s v m).1.vcs key' i =
      if i = (vcObject h s ⟨m.node, m.round, v⟩).2.2 ∧ key' = ⟨m.node, m.round, v⟩ then
        (fileVote h s v m).2.2
      else h.vcs key' i := by
  show (if _ then _ else (vcObject h s ⟨m.node, m.round, v⟩).1.vcs key' i) = _
  split
  · rfl
  next hne =>
    refine vcObject_vcs_ne h s _ ?_
    by_contra hboth
    exact hne ⟨by_contra fun h => hboth (.inl h), by_contra fun h => hboth (.inr h)⟩

theorem fileVote_allocated (ha : Allocated h s) :
    Allocated (fileVote h s v m).1 (fileVote h s v m).2.1 where
  arr := by
    intro k
    rw [fileVote_state, vcObject_timeouts]
    exact (ha.arr k).imp_right (fun hlt => Nat.lt_of_lt_of_le hlt (fileVote_next h s v m))
  vcs := by
    intro key' i hi
    rw [fileVote_state, vcObject_viewChanged] at hi
    split at hi
    · injection hi with hi
      rw [← hi]
      exact vcObject_lt h s _ ha
    · exact Nat.lt_of_lt_of_le (ha.vcs key' i hi) (fileVote_next h s v m)

theorem vcContent_fileVote (key : NodeRoundView) :
    vcContent (fileVote h s v m).1 (fileVote h s v m).2.1 key =
      if key = ⟨m.node, m.round, v⟩ then (vcContent h s key).insert m.sender m.hash
      else vcContent h s key := by
  unfold vcContent
  rw [fileVote_state, vcObject_viewChanged]
  by_cases hk : key = ⟨m.node, m.round, v⟩
  · rw [if_pos hk, if_pos hk]
    show (fileVote h s v m).1.vcs key _ = _
    rw [fileVote_vcs, if_pos ⟨rfl, hk⟩, fileVote_map, hk]
    rfl
  rw [if_neg hk, if_neg hk]
  cases hi : s.data.viewChanged key with
  | none => rfl
  | some i =>
    show (fileVote h s v m).1.vcs key i = h.vcs key i
    rw [fileVote_vcs, if_neg (fun hc => hk hc.2)]

end FileVote

/-! ## §4. A call. -/

section Reacts
variable {p : Params} {h : Heap} {s : State} {sender receiver : Nat} {origin : BlockID}
  {msg : Message} {r : Reaction}

@[simp] theorem notePrepared_timeouts (s : State) (key : NodeRoundView) (hash : Hash) :
    (s.notePrepared key hash).timeouts = s.timeouts := by
  unfold State.notePrepared; split <;> rfl

section
variable (hr : Reacts p h s sender receiver origin msg r)
include hr

theorem Reacts.heap_cases :
    (r.heap = h ∧ r.state.timeouts = s.timeouts ∧ r.state.data.viewChanged = s.data.viewChanged) ∨
      (∃ m : ViewChange, ∃ v, msg = .viewChange m ∧ v = s.viewOf ⟨m.node, m.round⟩ ∧
        r.heap = (fileVote h (s.touch ⟨m.node, m.round⟩) v m).1 ∧
        r.state.timeouts = s.timeouts ∧
        r.state.data.viewChanged =
          (fileVote h (s.touch ⟨m.node, m.round⟩) v m).2.1.data.viewChanged) ∨
      (∃ (m : NewView) (k : Nat), msg = .newView m ∧
        r.heap = (addTimeout p.grow k (h, s) ⟨m.node, m.round, m.view⟩).1 ∧
        r.state.timeouts = (addTimeout p.grow k (h, s) ⟨m.node, m.round, m.view⟩).2.timeouts ∧
        r.state.data.viewChanged = s.data.viewChanged) := by
  cases hr with
  | viewChangeFiled m =>
    exact .inr (.inl ⟨m, _, rfl, rfl, rfl, by simp [Reaction.quiet], rfl⟩)
  | viewChangeQuorum m =>
    exact .inr (.inl ⟨m, _, rfl, rfl, rfl, by simp, rfl⟩)
  | newViewAccepted m =>
    refine .inr (.inr ⟨m, (origin.round + s.timeout + 5) % 2 ^ 64, rfl, ?_, ?_, ?_⟩)
    · simp [enterView, addTimeout]
    · simp [enterView, addTimeout]
    · simp
  | closed => exact .inl ⟨rfl, rfl, rfl⟩
  | prepareQuorum => exact .inl ⟨rfl, by simp, by simp⟩
  | _ =>
    exact .inl ⟨rfl, State.touch_timeouts s _, State.touch_viewChanged s _⟩

theorem Reacts.next_le : h.next ≤ r.heap.next := by
  rcases hr.heap_cases with ⟨hh, _⟩ | ⟨m, v, _, _, hh, _⟩ | ⟨m, k, _, hh, _⟩
  · rw [hh]
  · rw [hh]
    exact fileVote_next h _ v m
  · rw [hh]
    exact Heap.append_next_le p.grow h k (s.timeouts k) _

theorem Reacts.allocated (ha : Allocated h s) : Allocated r.heap r.state := by
  rcases hr.heap_cases with ⟨hh, ht, hv⟩ | ⟨m, v, _, _, hh, ht, hv⟩ | ⟨m, k, _, hh, ht, hv⟩
  · rw [hh]
    exact ha.congr ht hv
  · have ha' : Allocated h (s.touch ⟨m.node, m.round⟩) := ha.congr (by simp) (by simp)
    rw [hh]
    exact (fileVote_allocated h _ v m ha').congr (by rw [ht]; simp) hv
  · rw [hh]
    exact (addTimeout_allocated ha).congr ht hv

/-- The timeouts a state sees after a call were there before, or the call entered a view. -/
theorem Reacts.mem_read {k : Nat} {sl : Slice}
    (hsl : sl.len = 0 ∨ sl.arr < h.next) {t : Timeout} (ht : t ∈ r.heap.read k sl) :
    t ∈ h.read k sl ∨ ∃ m : NewView, msg = .newView m ∧ t = ⟨m.node, m.round, m.view⟩ := by
  rcases hr.heap_cases with ⟨hh, _⟩ | ⟨m, v, _, _, hh, _⟩ | ⟨m, k', hm, hh, _⟩
  · rw [hh] at ht
    exact .inl ht
  · rw [hh] at ht
    have hread : (fileVote h (s.touch ⟨m.node, m.round⟩) v m).1.read k sl = h.read k sl := by
      unfold Heap.read
      rw [fileVote_cells]
    exact .inl (hread ▸ ht)
  rw [hh] at ht
  rcases Heap.mem_read_append p.grow h k' (s.timeouts k') _ hsl ht with ht | ht
  · exact .inl ht
  · exact .inr ⟨m, hm, ht⟩

end

/-- No vote, prepared hash or decision about `nr` has changed, and no view change on file. -/
structure SameAbout (nr : NodeRound) (h : Heap) (s : State) (h' : Heap) (s' : State) : Prop where
  bitsets : ∀ hash v,
    s'.bitsets ⟨hash, nr.node, nr.round, v⟩ = s.bitsets ⟨hash, nr.node, nr.round, v⟩
  prepared : ∀ v, s'.data.prepared ⟨nr.node, nr.round, v⟩ = s.data.prepared ⟨nr.node, nr.round, v⟩
  final : s'.final nr = s.final nr
  vcs : ∀ v, h'.vcs ⟨nr.node, nr.round, v⟩ = h.vcs ⟨nr.node, nr.round, v⟩

/-- **A call concerns the node and round of its message only.** -/
theorem Reacts.frame (hr : Reacts p h s sender receiver origin msg r) {nr : NodeRound}
    (hne : msg.nodeRound ≠ nr) : SameAbout nr h s r.heap r.state := by
  -- The keys of `nr` differ from those of the message.
  have hpp : ∀ (m : PrePrepare) hash v, (⟨m.node, m.round⟩ : NodeRound) ≠ nr →
      (⟨hash, nr.node, nr.round, v⟩ : PrePrepare) ≠ m := by
    intro m hash v hm heq
    exact hm (by rw [← heq])
  have hkey : ∀ node round v v', (⟨node, round⟩ : NodeRound) ≠ nr →
      (⟨nr.node, nr.round, v⟩ : NodeRoundView) ≠ ⟨node, round, v'⟩ := by
    intro node round v v' hm heq
    injection heq with hn hr _
    exact hm (by rw [← hn, ← hr])
  cases hr with
  | closed => exact ⟨fun _ _ => rfl, fun _ => rfl, rfl, fun _ => rfl⟩
  | prePrepareStale | prepareOld | commitEarly | viewChangeOld
  | newViewStale =>
    exact ⟨by simp [Reaction.quiet], by simp [Reaction.quiet], by simp [Reaction.quiet],
      fun _ => rfl⟩
  | prePrepareAccepted m =>
    refine ⟨?_, by simp, by simp, fun _ => rfl⟩
    intro hash v
    simp [hpp m hash v hne]
  | prepareCounted m | commitCounted m =>
    refine ⟨?_, by simp [Reaction.quiet], by simp [Reaction.quiet], fun _ => rfl⟩
    intro hash v
    simp [Reaction.quiet, hpp m.pre hash v hne]
  | prepareQuorum m =>
    refine ⟨?_, ?_, by simp, fun _ => rfl⟩
    · intro hash v
      simp [hpp m.pre hash v hne]
    intro v
    rw [notePrepared_prepared, if_neg (hkey m.node m.round v m.view hne)]
    simp
  | commitDecides m =>
    refine ⟨?_, by simp, ?_, fun _ => rfl⟩
    · intro hash v
      simp [hpp m.pre hash v hne]
    · have hne : nr ≠ ⟨m.node, m.round⟩ := Ne.symm hne
      simp [PMap.set_ne _ _ hne]
  | viewChangeFiled m | viewChangeQuorum m =>
    refine ⟨by simp [Reaction.quiet], by simp [Reaction.quiet], by simp [Reaction.quiet], ?_⟩
    intro v
    funext i
    show (fileVote h _ _ m).1.vcs _ i = _
    rw [fileVote_vcs, if_neg (fun hc => hkey m.node m.round v _ hne hc.2)]
  | newViewAccepted m =>
    refine ⟨by simp, by simp, by simp, ?_⟩
    intro v
    show (Heap.append _ _ _ _ _).1.vcs _ = _
    rw [Heap.append_vcs]

end Reacts

end Chainspace.Blockmania
