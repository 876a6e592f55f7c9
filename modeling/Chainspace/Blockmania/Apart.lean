/-
  Chainspace.Blockmania.Apart — chains that do not fork do not write into each other's states.

  `clone` copies the slices of `timeouts` by reference. As long as every block is continued at most
  once, only the state in progress writes to the arrays it refers to, behind what the earlier blocks
  of its chain can see of them. `Unshared` is the invariant of the graph, `Working` the one between
  two calls for a block; `spent` lists the blocks that have been continued.
-/
import Chainspace.Blockmania.Chain
import Chainspace.Blockmania.Heap

namespace Chainspace.Blockmania

open Chainspace.Lib

/-! ## §1. Slices. -/

namespace Slice

def Empty (a : Slice) : Prop := a.len = 0 ∧ a.cap = 0

/-- The slices have no array in common. -/
def Apart (a b : Slice) : Prop := a.Empty ∨ b.Empty ∨ a.arr ≠ b.arr

/-- `append` to `b` is not seen by `a`: `b` is in another array, or past what `a` can see. -/
def Behind (a b : Slice) : Prop := a.Apart b ∨ a.len ≤ b.len

theorem Apart.symm {a b : Slice} (h : a.Apart b) : b.Apart a := by
  rcases h with h | h | h
  · exact .inr (.inl h)
  · exact .inl h
  · exact .inr (.inr (Ne.symm h))

end Slice

section Append
variable (grow : Nat → Nat) (h : Heap) (k : Nat) {a b : Slice} (t : Timeout)

theorem Heap.read_append_behind (hab : a.Behind b) (ha : a.Empty ∨ a.arr < h.next) (k' : Nat) :
    (h.append grow k b t).1.read k' a = h.read k' a := by
  by_cases hk : k' = k
  · subst hk
    refine List.map_congr_left ?_
    intro j hj
    have hj : j < a.len := List.mem_range.mp hj
    have hne : ¬ a.Empty := fun he => by rw [he.1] at hj; omega
    have halloc : a.arr < h.next := ha.resolve_left hne
    unfold append
    split
    next hspare =>
      -- The cell written is the first behind the elements of `b`.
      have hfar : ¬ (a.arr = b.arr ∧ j = b.len ∧ k' = k') := by
        rintro ⟨harr, _⟩
        rcases hab with (he | he | harr') | _
        · exact hne he
        · rw [he.2] at hspare
          omega
        · exact harr' harr
        · omega
      show (if a.arr = b.arr ∧ j = b.len ∧ k' = k' then t else h.cells k' a.arr j) = _
      rw [if_neg hfar]
    · have hfresh : ¬ (a.arr = h.next ∧ k' = k') := by omega
      show (if a.arr = h.next ∧ k' = k' then _ else h.cells k' a.arr j) = _
      rw [if_neg hfresh]
  · exact Heap.read_append_ne grow h k b t hk a

theorem Slice.Apart.append (hab : a.Apart b) (ha : a.Empty ∨ a.arr < h.next) :
    a.Apart (h.append grow k b t).2 := by
  unfold Heap.append
  split
  next hspare =>
    rcases hab with he | he | harr
    · exact .inl he
    · rw [he.2] at hspare
      omega
    · exact .inr (.inr harr)
  rcases ha with he | hlt
  · exact .inl he
  · exact .inr (.inr (Nat.ne_of_lt hlt))

theorem Slice.Behind.append (hab : a.Behind b) (ha : a.Empty ∨ a.arr < h.next) :
    a.Behind (h.append grow k b t).2 := by
  rcases hab with hab | hle
  · exact .inl (hab.append grow h k t ha)
  refine .inr (Nat.le_trans hle ?_)
  unfold Heap.append
  split
  all_goals exact Nat.le_succ b.len

end Append

/-! ## §2. States. -/

/-- What `s` appends to its slices is not seen by `st`. -/
def Behind (st s : State) : Prop := ∀ k, (st.timeouts k).Behind (s.timeouts k)

/-- The states have no array in common. -/
def Apart (st s : State) : Prop := ∀ k, (st.timeouts k).Apart (s.timeouts k)

theorem Apart.symm {st s : State} (h : Apart st s) : Apart s st := fun k => (h k).symm

theorem Apart.behind {st s : State} (h : Apart st s) : Behind st s := fun k => .inl (h k)

section Pair
variable {st s : State}

theorem apart_empty (st : State) : Apart st State.empty := fun _ => .inr (.inl ⟨rfl, rfl⟩)

theorem Apart.clone (h : Apart st s) (minround : Nat) : Apart st (clone (some s) minround) := by
  intro k
  show (st.timeouts k).Apart (if k < minround then .nil else s.timeouts k)
  split
  · exact .inr (.inl ⟨rfl, rfl⟩)
  · exact h k

theorem Behind.clone (h : Behind st s) (minround : Nat) : Behind st (clone (some s) minround) := by
  intro k
  show (st.timeouts k).Behind (if k < minround then .nil else s.timeouts k)
  split
  · exact .inl (.inr (.inl ⟨rfl, rfl⟩))
  · exact h k

theorem Behind.congr {s' : State} (h : Behind st s) (ht : s'.timeouts = s.timeouts) :
    Behind st s' := by
  intro k
  rw [ht]
  exact h k

theorem Apart.congr {s' : State} (h : Apart st s) (ht : s'.timeouts = s.timeouts) :
    Apart st s' := by
  intro k
  rw [ht]
  exact h k

section AddTimeout
variable {grow : Nat → Nat} {h : Heap} {k : Nat} {t : Timeout}

theorem Behind.addTimeout (hb : Behind st s) (ha : Allocated h st) :
    Behind st (addTimeout grow k (h, s) t).2 := by
  intro k'
  show (st.timeouts k').Behind (if k' = k then (h.append grow k (s.timeouts k) t).2 else
    s.timeouts k')
  split
  next hk => exact hk ▸ (hb k').append grow h k' t (ha.arr k')
  · exact hb k'

theorem Apart.addTimeout (hb : Apart st s) (ha : Allocated h st) :
    Apart st (addTimeout grow k (h, s) t).2 := by
  intro k'
  show (st.timeouts k').Apart (if k' = k then (h.append grow k (s.timeouts k) t).2 else
    s.timeouts k')
  split
  next hk => exact hk ▸ (hb k').append grow h k' t (ha.arr k')
  · exact hb k'

theorem Behind.read_addTimeout (hb : Behind st s) (ha : Allocated h st) (k' : Nat) :
    (Blockmania.addTimeout grow k (h, s) t).1.read k' (st.timeouts k') =
      h.read k' (st.timeouts k') := by
  by_cases hk : k' = k
  · subst hk
    exact Heap.read_append_behind grow h k' t (hb k') (ha.arr k') k'
  · exact Heap.read_append_ne grow h k (s.timeouts k) t hk _

end AddTimeout

end Pair

/-! ## §3. A call. -/

section Reacts
variable {p : Params} {h : Heap} {st s : State} {sender receiver : Nat} {origin : BlockID}
  {msg : Message} {r : Reaction}

section
variable (hr : Reacts p h s sender receiver origin msg r)
include hr

theorem Reacts.behind (ha : Allocated h st) (hb : Behind st s) : Behind st r.state := by
  rcases hr.heap_cases with ⟨_, ht, _⟩ | ⟨m, v, _, _, _, ht, _⟩ | ⟨m, k, _, _, ht, _⟩
  · exact hb.congr ht
  · exact hb.congr ht
  · exact (hb.addTimeout ha).congr ht

theorem Reacts.apart (ha : Allocated h st) (hb : Apart st s) : Apart st r.state := by
  rcases hr.heap_cases with ⟨_, ht, _⟩ | ⟨m, v, _, _, _, ht, _⟩ | ⟨m, k, _, _, ht, _⟩
  · exact hb.congr ht
  · exact hb.congr ht
  · exact (hb.addTimeout ha).congr ht

theorem Reacts.read_behind (ha : Allocated h st) (hb : Behind st s) (k : Nat) :
    r.heap.read k (st.timeouts k) = h.read k (st.timeouts k) := by
  rcases hr.heap_cases with ⟨hh, _⟩ | ⟨m, v, _, _, hh, _⟩ | ⟨m, k', _, hh, _⟩
  · rw [hh]
  · rw [hh]
    unfold Heap.read
    rw [fileVote_cells]
  · rw [hh]
    exact hb.read_addTimeout ha k

end

end Reacts

/-! ## §4. The states of a graph. -/

/-- **The states of a graph do not write into each other**: continuing a block that was not
continued before changes no other state. -/
structure Unshared (g : Graph) (spent : List BlockID) : Prop where
  allocated : ∀ b st, g.statess b = some st → Allocated g.heap st
  behind : ∀ b st b' st', g.statess b = some st → g.statess b' = some st' → b' ∉ spent →
    Behind st st'
  apart : ∀ b st b' st', g.statess b = some st → g.statess b' = some st' → b ∉ spent →
    b' ∉ spent → b ≠ b' → Apart st st'

/-- Between two calls for a block, whose state so far is `s`. -/
structure Working (g : Graph) (spent : List BlockID) (s : State) : Prop where
  graph : Unshared g spent
  allocated : Allocated g.heap s
  behind : ∀ b st, g.statess b = some st → Behind st s
  apart : ∀ b st, g.statess b = some st → b ∉ spent → Apart st s

/-- The timeouts of the states that are kept are as they were. -/
structure Unseen (g g' : Graph) : Prop where
  statess : ∀ b st, g'.statess b = some st → g.statess b = some st
  read : ∀ b st, g'.statess b = some st → ∀ k,
    g'.heap.read k (st.timeouts k) = g.heap.read k (st.timeouts k)

theorem Unseen.refl (g : Graph) : Unseen g g := ⟨fun _ _ h => h, fun _ _ _ _ => rfl⟩

theorem Unseen.trans {g g' g'' : Graph} (h : Unseen g g') (h' : Unseen g' g'') : Unseen g g'' where
  statess := fun b st hst => h.statess b st (h'.statess b st hst)
  read := fun b st hst k => (h'.read b st hst k).trans (h.read b st (h'.statess b st hst) k)

section Graph
variable {g g' : Graph} {spent : List BlockID} {s s' : State}

theorem Unshared.mono (h : Unshared g spent) (hheap : g'.heap = g.heap)
    (hst : ∀ b st, g'.statess b = some st → g.statess b = some st) : Unshared g' spent where
  allocated := fun b st hb => hheap ▸ h.allocated b st (hst b st hb)
  behind := fun b st b' st' hb hb' => h.behind b st b' st' (hst b st hb) (hst b' st' hb')
  apart := fun b st b' st' hb hb' => h.apart b st b' st' (hst b st hb) (hst b' st' hb')

theorem Working.mono (h : Working g spent s) (hheap : g'.heap = g.heap)
    (hst : ∀ b st, g'.statess b = some st → g.statess b = some st) : Working g' spent s where
  graph := h.graph.mono hheap hst
  allocated := hheap ▸ h.allocated
  behind := fun b st hb => h.behind b st (hst b st hb)
  apart := fun b st hb => h.apart b st (hst b st hb)

theorem Unshared.spend (h : Unshared g spent) (b : BlockID) : Unshared g (b :: spent) where
  allocated := h.allocated
  behind := fun a st b' st' ha hb' hn =>
    h.behind a st b' st' ha hb' (fun hm => hn (List.mem_cons_of_mem b hm))
  apart := fun a st b' st' ha hb' hn hn' =>
    h.apart a st b' st' ha hb' (fun hm => hn (List.mem_cons_of_mem b hm))
      (fun hm => hn' (List.mem_cons_of_mem b hm))

theorem Unshared.start (h : Unshared g spent) {e : Entry} (hprev : e.prev.valid → e.prev ∉ spent) :
    Working g (e.prev :: spent) (findOrCreateState g e) := by
  have hfresh : Working g (e.prev :: spent) State.empty :=
    ⟨h.spend e.prev, allocated_empty g.heap, fun _ st _ => (apart_empty st).behind,
      fun _ st _ _ => apart_empty st⟩
  unfold Blockmania.findOrCreateState
  split
  next hvalid =>
    cases hp : g.statess e.prev with
    | none => exact hfresh
    | some sp =>
      have hopen := hprev hvalid
      refine ⟨h.spend e.prev, (h.allocated _ sp hp).clone _, ?_, ?_⟩
      · intro b st hb
        exact (h.behind b st _ sp hb hp hopen).clone _
      intro b st hb hn
      have hne : b ≠ e.prev := fun heq => hn (heq ▸ List.mem_cons_self)
      have hb' : b ∉ spent := fun hm => hn (List.mem_cons_of_mem _ hm)
      exact (h.apart b st _ sp hb hp hb' hopen hne).clone _
  · exact hfresh

theorem Working.congr (h : Working g spent s) (ht : s'.timeouts = s.timeouts)
    (hv : s'.data.viewChanged = s.data.viewChanged) : Working g spent s' where
  graph := h.graph
  allocated := h.allocated.congr ht hv
  behind := fun b st hb => (h.behind b st hb).congr ht
  apart := fun b st hb hn => (h.apart b st hb hn).congr ht

theorem Working.store (h : Working g spent s) (b : BlockID) :
    Unshared { g with statess := g.statess.set b s } spent := by
  have hcases : ∀ a st, g.statess.set b s a = some st →
      (a = b ∧ st = s) ∨ (a ≠ b ∧ g.statess a = some st) := by
    intro a st ha
    rcases PMap.of_set ha with ⟨hab, ha⟩ | ⟨hab, ha⟩
    · exact .inl ⟨hab, ha.symm⟩
    · exact .inr ⟨hab, ha⟩
  refine ⟨?_, ?_, ?_⟩
  · intro a st ha
    rcases hcases a st ha with ⟨_, hst⟩ | ⟨_, ha⟩
    · exact hst ▸ h.allocated
    · exact h.graph.allocated a st ha
  · intro a st a' st' ha ha' hn
    rcases hcases a st ha with ⟨_, hst⟩ | ⟨_, ha⟩
    · rcases hcases a' st' ha' with ⟨_, hst'⟩ | ⟨_, ha'⟩
      · exact hst ▸ hst' ▸ fun k => .inr (Nat.le_refl _)
      · exact hst ▸ (h.apart a' st' ha' hn).symm.behind
    rcases hcases a' st' ha' with ⟨_, hst'⟩ | ⟨_, ha'⟩
    · exact hst' ▸ h.behind a st ha
    · exact h.graph.behind a st a' st' ha ha' hn
  intro a st a' st' ha ha' hn hn' hne
  rcases hcases a st ha with ⟨hab, hst⟩ | ⟨_, ha⟩
  · rcases hcases a' st' ha' with ⟨hab', _⟩ | ⟨_, ha'⟩
    · exact absurd (hab.trans hab'.symm) hne
    · exact hst ▸ (h.apart a' st' ha' hn').symm
  rcases hcases a' st' ha' with ⟨_, hst'⟩ | ⟨_, ha'⟩
  · exact hst' ▸ h.apart a st ha hn
  · exact h.graph.apart a st a' st' ha ha' hn hn' hne

end Graph

/-! ## §5. A block. -/

section Block
variable {g g' : Graph} {spent : List BlockID} {s s' : State}

theorem Working.write {h' : Heap} (h : Working g spent s) (hle : g.heap.next ≤ h'.next)
    (halloc : Allocated h' s')
    (hbehind : ∀ st, Allocated g.heap st → Behind st s → Behind st s' ∧
      ∀ k, h'.read k (st.timeouts k) = g.heap.read k (st.timeouts k))
    (hapart : ∀ st, Allocated g.heap st → Apart st s → Apart st s') :
    Working { g with heap := h' } spent s' ∧ Unseen g { g with heap := h' } := by
  refine ⟨⟨⟨?_, h.graph.behind, h.graph.apart⟩, halloc, ?_, ?_⟩, ⟨fun _ _ hst => hst, ?_⟩⟩
  · exact fun b st hst => (h.graph.allocated b st hst).mono hle
  · exact fun b st hst => (hbehind st (h.graph.allocated b st hst) (h.behind b st hst)).1
  · exact fun b st hst hb => hapart st (h.graph.allocated b st hst) (h.apart b st hst hb)
  · exact fun b st hst => (hbehind st (h.graph.allocated b st hst) (h.behind b st hst)).2

theorem Working.addTimeout (grow : Nat → Nat) (k : Nat) (t : Timeout) (h : Working g spent s) :
    Working { g with heap := (addTimeout grow k (g.heap, s) t).1 } spent
        (addTimeout grow k (g.heap, s) t).2 ∧
      Unseen g { g with heap := (Blockmania.addTimeout grow k (g.heap, s) t).1 } :=
  h.write (Heap.append_next_le grow g.heap k (s.timeouts k) t) (addTimeout_allocated h.allocated)
    (fun _ ha hb => ⟨hb.addTimeout ha, hb.read_addTimeout ha⟩) (fun _ ha hb => hb.addTimeout ha)

theorem Working.schedule (p : Params) (round tround : Nat) (h : Working g spent s) :
    Working { g with heap := (schedule p round tround g.heap s).1 } spent
        (schedule p round tround g.heap s).2 ∧
      Unseen g { g with heap := (Blockmania.schedule p round tround g.heap s).1 } := by
  refine foldl_inv (fun hs : Heap × State => Working { g with heap := hs.1 } spent hs.2 ∧
    Unseen g { g with heap := hs.1 }) ⟨h, Unseen.refl g⟩ ?_
  intro x _ hs hinv
  obtain ⟨hw, hu⟩ := hinv.1.addTimeout p.grow tround ⟨x, round, 0⟩
  exact ⟨hw, hinv.2.trans hu⟩

theorem schedule_next_le (p : Params) (round tround : Nat) (h : Heap) (s : State) :
    h.next ≤ (schedule p round tround h s).1.next := by
  refine foldl_inv (fun hs : Heap × State => h.next ≤ hs.1.next) (Nat.le_refl h.next) ?_
  intro x _ hs hle
  exact Nat.le_trans hle (Heap.append_next_le p.grow hs.1 tround (hs.2.timeouts tround) _)

theorem Unshared.beginBlock {e : Entry} {first : List Message} (h : Unshared g spent)
    (hprev : e.prev.valid → e.prev ∉ spent) (hb : beginBlock g e = .ok (g', s', first)) :
    Working g' (e.prev :: spent) s' ∧ Unseen g g' := by
  obtain ⟨hp, s, ho, hg', hfired⟩ := beginBlock_cases hb
  obtain ⟨tval, _, ho⟩ := openBlock_cases ho
  have hstart : Working g (e.prev :: spent) (delayed g e tval) := (h.start hprev).congr rfl rfl
  have hsched := hstart.schedule g.params e.block.round ((e.block.round + tval) % 2 ^ 64)
  rw [ho] at hsched
  -- A timeout that fires changes a view.
  have hkept := fired_kept e s (hp.read e.block.round (s.timeouts e.block.round))
  rw [← hfired] at hkept
  subst hg'
  exact ⟨hsched.1.congr hkept.timeouts hkept.viewChanged, hsched.2⟩

theorem Working.reacts {sender receiver : Nat} {origin : BlockID} {msg : Message} {r : Reaction}
    (h : Working g spent s) (hr : Reacts g.params g.heap s sender receiver origin msg r) :
    Working { g with heap := r.heap } spent r.state ∧
      Unseen g { g with heap := r.heap } :=
  h.write hr.next_le (hr.allocated h.allocated)
    (fun _ ha hb => ⟨hr.behind ha hb, hr.read_behind ha hb⟩)
    (fun _ ha hb => hr.apart ha hb)

theorem Working.processMessage {sender receiver : Nat} {origin : BlockID} {msg : Message}
    {resp : Option Message} (h : Working g spent s)
    (hcall : processMessage g s sender receiver origin msg = .ok (g', s', resp)) :
    Working g' spent s' ∧ Unseen g g' := by
  obtain ⟨r, hr, hs', _, hheap, hk⟩ := processMessage_reacts hcall
  subst hs'
  obtain ⟨hw, hu⟩ := h.reacts hr
  refine ⟨hw.mono hheap hk.statess, hk.statess, ?_⟩
  intro b st hst k
  rw [hheap]
  exact hu.read b st (hk.statess b st hst) k

theorem Working.log {receiver : Nat} {origin : BlockID} {src : Nat → Message → Prop}
    {cs : List Call} (h : Working g spent s) (hl : Log receiver origin src g s cs g' s') :
    Working g' spent s' ∧ Unseen g g' := by
  induction hl with
  | nil => exact ⟨h, Unseen.refl g⟩
  | snoc _ _ hcall ih =>
    obtain ⟨hw, hu⟩ := ih.1.processMessage hcall
    exact ⟨hw, ih.2.trans hu⟩

/-- **A block that continues an uncontinued block is not noticed by the others.** -/
theorem Unshared.process {e : Entry} (h : Unshared g spent)
    (hprev : e.prev.valid → e.prev ∉ spent) (hp : process g e = .ok g') :
    Unshared g' (e.prev :: spent) := by
  obtain ⟨g2, s2, calls, hi, hg'⟩ := process_cases hp
  obtain ⟨g1, s1, first, s3, hbegin, hlog, hs2⟩ := interpret_log hi
  obtain ⟨hw, _⟩ := h.beginBlock hprev hbegin
  obtain ⟨hend, _⟩ := hw.log hlog
  subst hg' hs2
  have hout : Working g2 (e.prev :: spent) { s3 with out := first ++ responses calls } :=
    hend.congr rfl rfl
  exact hout.store e.block

end Block

end Chainspace.Blockmania
