/-
  Chainspace.Blockmania.Monotone — views and votes only go forward along a chain.

  The records of a chain are copied and filtered at every block, and six places of the code write
  views, votes or timeouts. For a round that no block drops, the view of a node's round never goes
  down; a `Prepare`, a `PrePrepare` that answers a `NewView`, and a `Commit` each have a guard that
  is down before the message and up ever after (`Guards`); and a timeout for a view is scheduled
  when that view has been reached.
-/
import Chainspace.Blockmania.OneVote
import Chainspace.Blockmania.Heap

namespace Chainspace.Blockmania

open Chainspace.Lib List

/-! ## §1. The history of a chain. -/

/-- The states of a block: those of the timeout loop and before its calls, and the stored one. -/
def Block.states (b : Block) : List State :=
  (loopStates (fireTimeout b.author) (b.opened.2, [b.entry.proposal]) b.due).map Prod.fst ++
    (b.calls.map Call.state ++ [b.state])

def history : List Block → List State
  | [] => []
  | b :: rest => history rest ++ b.states

/-! ## §2. Views. -/

section Views
variable {nr : NodeRound}

theorem Reacts.viewOf_le {p : Params} {h : Heap} {s : State} {sender receiver : Nat}
    {origin : BlockID} {msg : Message} {r : Reaction}
    (hr : Reacts p h s sender receiver origin msg r) : s.viewOf nr ≤ r.state.viewOf nr := by
  cases hr with
  | viewChangeQuorum m _ hv =>
    rw [State.viewOf_putView]
    split
    next heq =>
      rw [heq]
      exact hv
    · simp
  | newViewAccepted m hv =>
    rw [enterView_viewOf]
    split
    next heq =>
      rw [heq]
      exact hv
    · simp
  | _ => simp [Reaction.quiet]

theorem fireTimeout_viewOf_le (author : Nat) (acc : State × List Message) (t : Timeout)
    (hview : acc.1.viewOf nr < 2 ^ 32 - 1) :
    acc.1.viewOf nr ≤ (fireTimeout author acc t).1.viewOf nr := by
  obtain ⟨s, out⟩ := acc
  rcases fireTimeout_cases author s out t with ⟨_, h⟩ | ⟨_, _, h⟩
  · rw [h]
  rw [h]
  show s.viewOf nr ≤ (s.putView _ _).viewOf nr
  rw [State.viewOf_putView]
  split
  next heq =>
    rw [← heq]
    have hview : s.viewOf nr < 2 ^ 32 - 1 := hview
    omega
  · exact Nat.le_refl _

variable (nr) in
/-- The views of the states that the calls of a log start from, and of the last one. -/
theorem Log.rising {receiver : Nat} {origin : BlockID} {src : Nat → Message → Prop} {g g' : Graph}
    {s s' : State} {cs : List Call} (hl : Log receiver origin src g s cs g' s') :
    (cs.map Call.state ++ [s']).Pairwise (fun x y => x.viewOf nr ≤ y.viewOf nr) ∧
      ∀ x ∈ cs.map Call.state ++ [s'], s.viewOf nr ≤ x.viewOf nr ∧ x.viewOf nr ≤ s'.viewOf nr := by
  induction hl with
  | nil =>
    refine ⟨pairwise_singleton _ s, ?_⟩
    intro x hx
    rw [mem_singleton.mp hx]
    exact ⟨Nat.le_refl _, Nat.le_refl _⟩
  | @snoc cs c g1 s1 _ _ hcall ih =>
    obtain ⟨hpair, hbetween⟩ := ih
    obtain ⟨r, hr, hs1, _⟩ := processMessage_reacts hcall
    have hle : c.state.viewOf nr ≤ s1.viewOf nr := hs1 ▸ hr.viewOf_le
    have hlast : ∀ x ∈ cs.map Call.state ++ [c.state], x.viewOf nr ≤ s1.viewOf nr :=
      fun x hx => Nat.le_trans (hbetween x hx).2 hle
    have hstart : s.viewOf nr ≤ c.state.viewOf nr :=
      (hbetween c.state (mem_append_right _ (mem_singleton_self _))).1
    rw [map_append]
    constructor
    · rw [pairwise_append]
      refine ⟨hpair, pairwise_singleton _ s1, ?_⟩
      intro x hx y hy
      rw [mem_singleton.mp hy]
      exact hlast x hx
    · exact forall_mem_append.mpr ⟨fun x hx => ⟨(hbetween x hx).1, hlast x hx⟩,
        forall_mem_singleton.mpr ⟨Nat.le_trans hstart hle, Nat.le_refl _⟩⟩

theorem Block.rising (b : Block) (hviews : ∀ s ∈ b.states, s.viewOf nr < 2 ^ 32 - 1) :
    b.states.Pairwise (fun x y => x.viewOf nr ≤ y.viewOf nr) ∧
      ∀ x ∈ b.states, (findOrCreateState b.graph b.entry).viewOf nr ≤ x.viewOf nr ∧
        x.viewOf nr ≤ b.state.viewOf nr := by
  have hloop := loopStates_rising (fun acc : State × List Message => acc.1.viewOf nr)
    (f := fireTimeout b.author) (l := b.due) (b := (b.opened.2, [b.entry.proposal])) (by
      intro acc hacc t _
      refine fireTimeout_viewOf_le b.author acc t (hviews acc.1 ?_)
      exact mem_append_left _ (mem_map_of_mem hacc))
  obtain ⟨hpair, hbetween⟩ := hloop
  have hopened : b.opened.2.viewOf nr = (findOrCreateState b.graph b.entry).viewOf nr :=
    b.opened_votes.viewOf nr
  obtain ⟨s, hl, hs⟩ := b.log
  have hlog := hl.rising nr
  have hstate : b.state.viewOf nr = s.viewOf nr := by
    rw [hs]
    rfl
  -- The stored state differs from the last one of the log in its messages only.
  have hcalls : (b.calls.map Call.state ++ [b.state]).Pairwise
      (fun x y => x.viewOf nr ≤ y.viewOf nr) := by
    have hp := hlog.1
    rw [pairwise_append] at hp ⊢
    refine ⟨hp.1, pairwise_singleton _ _, ?_⟩
    intro x hx y hy
    rw [mem_singleton.mp hy, hstate]
    exact hp.2.2 x hx s (mem_singleton_self s)
  have hrange : ∀ x ∈ b.calls.map Call.state ++ [b.state],
      (b.fired b.due).1.viewOf nr ≤ x.viewOf nr ∧ x.viewOf nr ≤ b.state.viewOf nr := by
    intro x hx
    rw [hstate]
    rcases mem_append.mp hx with hx | hx
    · exact hlog.2 x (mem_append_left _ hx)
    · rw [mem_singleton.mp hx, hstate]
      exact hlog.2 s (mem_append_right _ (mem_singleton_self s))
  have hend : (b.fired b.due).1.viewOf nr ≤ b.state.viewOf nr :=
    Nat.le_trans (hrange b.state (mem_append_right _ (mem_singleton_self _))).1 (Nat.le_refl _)
  have hfirst : ∀ x ∈ (loopStates (fireTimeout b.author) (b.opened.2, [b.entry.proposal]) b.due).map
      Prod.fst, (findOrCreateState b.graph b.entry).viewOf nr ≤ x.viewOf nr ∧
        x.viewOf nr ≤ (b.fired b.due).1.viewOf nr := by
    intro x hx
    obtain ⟨acc, hacc, rfl⟩ := mem_map.mp hx
    rw [← hopened]
    exact hbetween acc hacc
  have hstart : (findOrCreateState b.graph b.entry).viewOf nr ≤ (b.fired b.due).1.viewOf nr := by
    have hmem : b.opened.2 ∈ (loopStates (fireTimeout b.author) (b.opened.2, [b.entry.proposal])
        b.due).map Prod.fst := by
      refine mem_map.mpr ⟨(b.opened.2, [b.entry.proposal]), ?_, rfl⟩
      cases b.due <;> exact mem_cons_self
    exact Nat.le_trans (hfirst _ hmem).1 (hfirst _ hmem).2
  constructor
  · unfold Block.states
    rw [pairwise_append]
    refine ⟨pairwise_map.mpr hpair, hcalls, ?_⟩
    intro x hx y hy
    exact Nat.le_trans (hfirst x hx).2 (hrange y hy).1
  intro x hx
  rcases mem_append.mp hx with hx | hx
  · exact ⟨(hfirst x hx).1, Nat.le_trans (hfirst x hx).2 hend⟩
  · exact ⟨Nat.le_trans hstart (hrange x hx).1, (hrange x hx).2⟩

theorem Chain.rising {bs : List Block} (hc : Chain bs) (hround : Unpruned nr.round bs)
    (hviews : ∀ s ∈ history bs, s.viewOf nr < 2 ^ 32 - 1) :
    (history bs).Pairwise (fun x y => x.viewOf nr ≤ y.viewOf nr) := by
  have hall : (history bs).Pairwise (fun x y => x.viewOf nr ≤ y.viewOf nr) ∧
      ∀ b, bs.head? = some b → ∀ x ∈ history bs, x.viewOf nr ≤ b.state.viewOf nr := by
    induction hc with
    | @start b =>
      have hb := b.rising (fun s hs => hviews s (mem_append_right _ hs))
      refine ⟨by simpa [history] using hb.1, ?_⟩
      intro b' hb' x hx
      injection hb' with hb'
      rw [← hb']
      exact (hb.2 x (by simpa [history] using hx)).2
    | @next b a rest hf _ ih =>
      have hprev := ih (fun x hx => hround x (mem_cons_of_mem b hx))
        (fun s hs => hviews s (mem_append_left _ hs))
      have hb := b.rising (fun s hs => hviews s (mem_append_right _ hs))
      -- The block starts from what its predecessor left: its round was not dropped.
      have hclone : (findOrCreateState b.graph b.entry).viewOf nr = a.state.viewOf nr := by
        rw [hf.findOrCreateState]
        exact clone_viewOf (hround b mem_cons_self)
      have hacross : ∀ x ∈ history (a :: rest), ∀ y ∈ b.states, x.viewOf nr ≤ y.viewOf nr := by
        intro x hx y hy
        have hxa := hprev.2 a rfl x hx
        have hby := (hb.2 y hy).1
        omega
      refine ⟨pairwise_append.mpr ⟨hprev.1, hb.1, hacross⟩, ?_⟩
      intro b' hb' x hx
      injection hb' with hb'
      rw [← hb']
      rcases mem_append.mp hx with hx | hx
      · exact hacross x hx b.state (mem_append_right _ (mem_append_right _ (mem_singleton_self _)))
      · exact (hb.2 x hx).2
  exact hall.1

end Views

/-! ## §3. Answers to new views. -/

def newViewAnswers (cs : List Call) : List Message :=
  cs.filterMap (fun c => match c.msg with
    | .newView _ => c.resp
    | _ => none)

theorem newViewAnswers_sublist (cs : List Call) : (newViewAnswers cs).Sublist (responses cs) := by
  unfold newViewAnswers responses
  induction cs with
  | nil => exact List.Sublist.refl []
  | cons c cs ih =>
    cases hm : c.msg with
    | newView =>
      cases hr : c.resp with
      | none | some => simpa [filterMap_cons, hm, hr] using ih
    | _ =>
      cases hr : c.resp with
      | none => simpa [filterMap_cons, hm, hr] using ih
      | some x => simpa [filterMap_cons, hm, hr] using ih.cons x

/-! ## §4. Timeouts. -/

/-- The timeouts a step adds under a key: those past the end of the slice it had. -/
def scheduled (s : State) (h' : Heap) (s' : State) (k : Nat) : List Timeout :=
  (h'.read k (s'.timeouts k)).drop (s.timeouts k).len

theorem read_length (h : Heap) (k : Nat) (s : Slice) : (h.read k s).length = s.len := by
  simp [Heap.read]

theorem scheduled_same {s s' : State} (h : s'.timeouts = s.timeouts) (h' : Heap) (k : Nat) :
    scheduled s h' s' k = [] := by
  unfold scheduled
  rw [h, ← read_length h' k (s.timeouts k), drop_length]

theorem scheduled_addTimeout (grow : Nat → Nat) (k k' : Nat) (h : Heap) (s : State) (t : Timeout)
    {t' : Timeout} (ht' : t' ∈ scheduled s (addTimeout grow k (h, s) t).1
      (addTimeout grow k (h, s) t).2 k') : t' = t := by
  unfold scheduled at ht'
  rw [read_addTimeout] at ht'
  split at ht'
  · rw [← read_length h k' (s.timeouts k'), drop_left] at ht'
    exact mem_singleton.mp ht'
  · rw [← read_length h k' (s.timeouts k')] at ht'
    simp at ht'

theorem Reacts.view_scheduled {p : Params} {h : Heap} {s : State} {sender receiver : Nat}
    {origin : BlockID} {msg : Message} {r : Reaction}
    (hr : Reacts p h s sender receiver origin msg r) {k : Nat} {t : Timeout}
    (ht : t ∈ scheduled s r.heap r.state k) : t.view ≤ r.state.viewOf ⟨t.node, t.round⟩ := by
  cases hr with
  | newViewAccepted m =>
    -- The view is recorded first, then the timeout is appended.
    have hslice : (s.timeouts k).len =
        (((s.touch ⟨m.node, m.round⟩).putView ⟨m.node, m.round⟩ m.view).timeouts k).len := by
      simp
    unfold scheduled at ht
    rw [hslice] at ht
    have hadded := scheduled_addTimeout p.grow _ k h
      ((s.touch ⟨m.node, m.round⟩).putView ⟨m.node, m.round⟩ m.view) _ ht
    rw [hadded]
    rw [enterView_viewOf, if_pos rfl]
  | _ =>
    rw [scheduled_same (by simp [Reaction.quiet])] at ht
    cases ht

theorem Block.view_scheduled (b : Block) {k : Nat} {t : Timeout}
    (ht : t ∈ scheduled (findOrCreateState b.graph b.entry) b.opened.1 b.opened.2 k) :
    t.view = 0 := by
  obtain ⟨tval, _, ho⟩ := openBlock_cases (h := b.opened.1) (s := b.opened.2) b.openBlock_eq
  have hread := read_schedule b.graph.params b.entry.block.round
    ((b.entry.block.round + tval) % 2 ^ 64) k b.graph.heap (delayed b.graph b.entry tval)
  rw [ho] at hread
  unfold scheduled at ht
  rw [hread, show ((findOrCreateState b.graph b.entry).timeouts k).len =
    (b.graph.heap.read k ((delayed b.graph b.entry tval).timeouts k)).length from
      (read_length _ _ _).symm, drop_left] at ht
  split at ht
  · obtain ⟨x, _, rfl⟩ := mem_map.mp ht
    rfl
  · cases ht

/-! ## §5. The chain. -/

/-- What only goes forward along a chain, for one node's round. -/
structure Forward (nr : NodeRound) (bs : List Block) : Prop where
  /-- The recorded view. -/
  views : (history bs).Pairwise (fun s s' => s.viewOf nr ≤ s'.viewOf nr)
  /-- One `Prepare` for each view. -/
  prepares : ∀ view,
    (emitted bs).countP (fun m => (prepareFor ⟨nr.node, nr.round, view⟩ m).isSome) ≤ 1
  /-- One `PrePrepare` in answer to a `NewView`, for each view. -/
  proposals : ∀ view, (newViewAnswers (callsOf bs)).countP
    (fun m => (proposalFor ⟨nr.node, nr.round, view⟩ m).isSome) ≤ 1
  /-- One `Commit` for each hash and view. -/
  commits : ∀ hash view, (emitted bs).countP (commitsTo ⟨hash, nr.node, nr.round, view⟩) ≤ 1
  /-- The timeouts a block schedules for itself, when its view is at least theirs. -/
  opened : ∀ b ∈ bs, ∀ k,
    ∀ t ∈ scheduled (findOrCreateState b.graph b.entry) b.opened.1 b.opened.2 k,
      t.view ≤ b.opened.2.viewOf ⟨t.node, t.round⟩
  /-- The timeouts its calls schedule. -/
  called : ∀ b ∈ bs, ∀ c ∈ b.calls, ∀ g' s' resp,
    processMessage c.graph c.state c.sender b.author b.entry.block c.msg = .ok (g', s', resp) →
      ∀ k, ∀ t ∈ scheduled c.state g'.heap s' k, t.view ≤ s'.viewOf ⟨t.node, t.round⟩

/-- **Views and votes are monotone along a chain**, for a round that no block drops and views that
do not wrap. -/
theorem chain_forward {bs : List Block} (hc : Chain bs) (nr : NodeRound)
    (hround : Unpruned nr.round bs) (hviews : ∀ s ∈ history bs, s.viewOf nr < 2 ^ 32 - 1) :
    Forward nr bs := by
  obtain ⟨author, hauthor⟩ := hc.exists_author
  refine ⟨hc.rising hround hviews, ?_, ?_, ?_, ?_, ?_⟩
  · intro view
    rw [countP_emitted (fun m => rfl) (fun m => rfl)]
    exact (prepare_guards author ⟨nr.node, nr.round, view⟩).once hc hround hauthor
  · intro view
    exact Nat.le_trans (newViewAnswers_sublist (callsOf bs)).countP_le
      ((newView_guards author ⟨nr.node, nr.round, view⟩).once hc hround hauthor)
  · intro hash view
    rw [countP_emitted (fun m => rfl) (fun m => rfl)]
    exact (commit_guards author ⟨hash, nr.node, nr.round, view⟩).once hc hround hauthor
  · intro b _ k t ht
    rw [b.view_scheduled ht]
    exact Nat.zero_le _
  intro b _ c _ g' s' resp hcall k t ht
  obtain ⟨r, hr, hs, _, hheap, _⟩ := processMessage_reacts hcall
  rw [hs, hheap] at ht
  rw [hs]
  exact hr.view_scheduled ht

set_option maxRecDepth 100000 in
/-- Twelve blocks of node 1, which votes in view 0 of (1, 1), leaves it at round 11 and votes in
view 1 at round 12. -/
theorem chain_forward_entered :
    ∃ bs, replayChain [1, 2, 3, 4] 4 0 enteredView 1 = some bs ∧ bs.length = 12 ∧
      (∃ s ∈ history bs, s.viewOf ⟨1, 1⟩ = 0) ∧ (∃ s ∈ history bs, s.viewOf ⟨1, 1⟩ = 1) ∧
      Forward ⟨1, 1⟩ bs := by
  refine exists_chain (P := fun bs => (∀ b ∈ bs, b.minround ≤ 1) ∧ bs.length = 12 ∧
    (∃ s ∈ history bs, s.viewOf ⟨1, 1⟩ = 0) ∧ (∃ s ∈ history bs, s.viewOf ⟨1, 1⟩ = 1) ∧
    ∀ s ∈ history bs, s.viewOf ⟨1, 1⟩ ≤ 1) (by decide +kernel) ?_
  rintro bs hc ⟨hu, hlen, hzero, hone, hle⟩
  have hviews : ∀ s ∈ history bs, s.viewOf ⟨1, 1⟩ < 2 ^ 32 - 1 := by
    intro s hs
    have hs := hle s hs
    omega
  exact ⟨hlen, hzero, hone, chain_forward hc ⟨1, 1⟩ hu hviews⟩

end Chainspace.Blockmania
