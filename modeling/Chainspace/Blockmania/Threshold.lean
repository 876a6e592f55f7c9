/-
  Chainspace.Blockmania.Threshold — votes that step over the quorum.

  `processMessage` compares the number of votes with the quorum by `!=`, right after it has added a
  vote. Three places add votes without such a test: an accepted proposal sets the prepare bits of
  its sender and of the receiver, a prepare vote for a later view is counted at once, and a quorum
  of prepare votes sets the commit bit of the receiver. The test is left to the receiver's own vote,
  processed later in the same call of `processMessages`, or never, if it was processed before. A set
  past the quorum by then has stepped over it (`thresholds_jumped`).

  If no call adds a vote past the quorum while the test is due (`NoJump`), the sets with a quorum
  have been acted on whenever `processMessages` returns (`thresholds_settled`). In between (`Owing`)
  a set may have exactly a quorum with the receiver's own vote in the queue.
-/
import Chainspace.Blockmania.Chain
import Chainspace.Blockmania.Votes
import Chainspace.Blockmania.Drain

namespace Chainspace.Blockmania

open Chainspace.Lib List

/-! ## §1. Definitions. -/

def ownPrepare (receiver : Nat) (pp : PrePrepare) : Message :=
  .prepare ⟨pp.hash, pp.node, pp.round, receiver, pp.view⟩

def ownCommit (receiver : Nat) (pp : PrePrepare) : Message :=
  .commit ⟨pp.hash, pp.node, pp.round, receiver, pp.view⟩

/-- **The quorums of a state have been acted on.** In the current view, a quorum of prepare votes
with the receiver's own among them has been answered by its commit vote; a quorum of commit votes of
this view or an earlier one has decided the round. -/
structure Settled (p : Params) (receiver : Nat) (s : State) (emitted : List Message) : Prop where
  commit : ∀ pp, s.viewOf ⟨pp.node, pp.round⟩ = pp.view → p.quorum2f1 ≤ (s.preparers pp).card →
    receiver ∈ s.preparers pp → receiver ∈ s.committers pp ∧ ownCommit receiver pp ∈ emitted
  final : ∀ pp, pp.view ≤ s.viewOf ⟨pp.node, pp.round⟩ →
    p.quorum2f1 ≤ (s.committers pp).card → (s.final ⟨pp.node, pp.round⟩).isSome

/-- The receiver's commit votes were put out when their bits were set. -/
def CommitsEmitted (receiver : Nat) (s : State) (emitted : List Message) : Prop :=
  ∀ pp, receiver ∈ s.committers pp → ownCommit receiver pp ∈ emitted

/-- A view can be entered: neither it nor a view that is skipped has an untested quorum. -/
structure Enterable (p : Params) (receiver : Nat) (s : State) (nr : NodeRound) (view : Nat) :
    Prop where
  prepares : ∀ hash, receiver ∈ s.preparers ⟨hash, nr.node, nr.round, view⟩ →
    receiver ∉ s.committers ⟨hash, nr.node, nr.round, view⟩ →
    (s.preparers ⟨hash, nr.node, nr.round, view⟩).card < p.quorum2f1
  commits : ∀ hash v, s.viewOf nr < v → v ≤ view → s.final nr = none →
    (s.committers ⟨hash, nr.node, nr.round, v⟩).card < p.quorum2f1

/-- **The message adds no vote past a quorum that is still to be tested**, after `processed` and
`emitted`. -/
def NoJump (p : Params) (receiver : Nat) (processed emitted : List Message) (s : State)
    (sender : Nat) : Message → Prop
  | .prePrepare m =>
    s.viewOf ⟨m.node, m.round⟩ = m.view → s.data.prePrepared ⟨m.node, m.round, m.view⟩ = none →
    receiver ∉ s.committers m →
      (insert receiver (insert sender (s.preparers m))).card ≤ p.quorum2f1 ∧
        ownPrepare receiver m ∉ processed
  | .prepare m =>
    s.viewOf ⟨m.node, m.round⟩ = m.view → receiver ∉ s.committers m.pre →
      (receiver ∈ insert m.sender (s.preparers m.pre) →
        (insert m.sender (s.preparers m.pre)).card ≤ p.quorum2f1) ∧
      ((insert m.sender (s.preparers m.pre)).card = p.quorum2f1 →
        s.final ⟨m.node, m.round⟩ = none →
        (insert receiver (s.committers m.pre)).card ≤ p.quorum2f1 ∧
          ownCommit receiver m.pre ∉ processed)
  | .commit m =>
    m.view ≤ s.viewOf ⟨m.node, m.round⟩ →
      (s.final ⟨m.node, m.round⟩ = none →
        (insert m.sender (s.committers m.pre)).card ≤ p.quorum2f1) ∧
      (m.sender = receiver → .commit m ∈ emitted)
  | .viewChange m =>
    s.viewOf ⟨m.node, m.round⟩ < m.view → Enterable p receiver s ⟨m.node, m.round⟩ m.view
  | .newView m =>
    s.viewOf ⟨m.node, m.round⟩ < m.view → Enterable p receiver s ⟨m.node, m.round⟩ m.view

def NoJumps (p : Params) (receiver : Nat) (processed emitted : List Message) (cs : List Call) :
    Prop :=
  ∀ pre c post, cs = pre ++ c :: post →
    NoJump p receiver ((pre.map Call.msg).reverse ++ processed) (emitted ++ responses pre) c.state
      c.sender c.msg

/-- Messages passed through `processMessages`, in batches with their senders. -/
def feed (receiver : Nat) (origin : BlockID) (a : Acc) (batches : List (Nat × List Message)) :
    Except Halt Acc :=
  batches.foldlM (fun a batch => processMessages batch.1 receiver origin a batch.2) a

/-! ## §2. One call. -/

/-- The invariant in the middle of `processMessages`: a set whose test is due has less than a quorum
of votes, or exactly a quorum with the receiver's own vote `owed` to it. -/
structure Owing (p : Params) (receiver : Nat) (s : State) (emitted : List Message)
    (owed : Message → Prop) : Prop where
  commit : ∀ pp, s.viewOf ⟨pp.node, pp.round⟩ = pp.view → receiver ∈ s.preparers pp →
    receiver ∉ s.committers pp → (s.preparers pp).card < p.quorum2f1 ∨
      (s.preparers pp).card = p.quorum2f1 ∧ owed (ownPrepare receiver pp)
  final : ∀ pp, pp.view ≤ s.viewOf ⟨pp.node, pp.round⟩ → s.final ⟨pp.node, pp.round⟩ = none →
    (s.committers pp).card < p.quorum2f1 ∨
      (s.committers pp).card = p.quorum2f1 ∧ owed (ownCommit receiver pp)
  emitted : CommitsEmitted receiver s emitted

section Owing
variable {p : Params} {receiver : Nat} {s : State} {emitted : List Message}
  {owed owed' : Message → Prop}

theorem Owing.settled (ho : Owing p receiver s emitted owed) (hnone : ∀ m, ¬ owed m) :
    Settled p receiver s emitted where
  commit := by
    intro pp hv hq hmem
    have hcommitted : receiver ∈ s.committers pp := by
      by_contra hnot
      rcases ho.commit pp hv hmem hnot with _ | ⟨_, howed⟩
      · omega
      · exact hnone _ howed
    exact ⟨hcommitted, ho.emitted pp hcommitted⟩
  final := by
    intro pp hv hq
    cases hf : s.final ⟨pp.node, pp.round⟩ with
    | some => rfl
    | none =>
      exfalso
      rcases ho.final pp hv hf with _ | ⟨_, howed⟩
      · omega
      · exact hnone _ howed

theorem Settled.owing (hs : Settled p receiver s emitted)
    (he : CommitsEmitted receiver s emitted) (owed : Message → Prop) :
    Owing p receiver s emitted owed where
  commit := by
    intro pp hv hmem hnot
    refine .inl (Nat.lt_of_not_le ?_)
    exact fun hq => hnot (hs.commit pp hv hq hmem).1
  final := by
    intro pp hv hf
    refine .inl (Nat.lt_of_not_le ?_)
    intro hq
    have hsome := hs.final pp hv hq
    rw [hf] at hsome
    cases hsome
  emitted := he

end Owing

section Call
variable {p : Params} {receiver sender : Nat} {s : State} {emitted processed : List Message}
  {owed owed' : Message → Prop} {msg : Message} {r : Reaction}

/-- What a call leaves owed: what was owed before, except its message, and its response, unless that
was processed before. -/
structure Leaves (processed : List Message) (msg : Message) (r : Reaction)
    (owed owed' : Message → Prop) : Prop where
  old : ∀ m, owed m → m ≠ msg → owed' m
  new : ∀ m, r.resp = some m → m ∉ processed → m ≠ msg → owed' m

theorem Leaves.keep (hl : Leaves processed msg r owed owed') {m : Message} {n q : Nat}
    (hne : m ≠ msg) (h : n < q ∨ n = q ∧ owed m) : n < q ∨ n = q ∧ owed' m :=
  h.imp_right (fun hq => ⟨hq.1, hl.old m hq.2 hne⟩)

/-- A count that reaches at most the quorum and whose test is owed by the response. -/
theorem Leaves.owe (hl : Leaves processed msg r owed owed') {m : Message} {n q : Nat}
    (hresp : r.resp = some m) (hnew : m ∉ processed) (hne : m ≠ msg) (hle : n ≤ q) :
    n < q ∨ n = q ∧ owed' m :=
  (Nat.lt_or_eq_of_le hle).imp_right (fun heq => ⟨heq, hl.new m hresp hnew hne⟩)

section
variable (ho : Owing p receiver s emitted owed) (hopen : s.data.final = .empty)
  (hr : Voted p s sender receiver msg r) (hok : NoJump p receiver processed emitted s sender msg)
  (hl : Leaves processed msg r owed owed') (pp : PrePrepare)
include ho hopen hr hok hl pp

theorem Owing.call_commit (hv : r.state.viewOf ⟨pp.node, pp.round⟩ = pp.view)
    (hmem : receiver ∈ r.state.preparers pp)
    (hnot : receiver ∉ r.state.committers pp) :
    (r.state.preparers pp).card < p.quorum2f1 ∨
      (r.state.preparers pp).card = p.quorum2f1 ∧ owed' (ownPrepare receiver pp) := by
  cases hr with
  | ignored _ _ why same view =>
    rw [same.preparers] at hmem ⊢
    rw [same.committers] at hnot
    rw [view] at hv
    refine hl.keep ?_ (ho.commit pp hv hmem hnot)
    intro heq
    -- The receiver's own vote for the current view is not ignored.
    subst heq
    rcases why with why | why
    · rw [hopen] at why
      cases why
    · have why : pp.view < s.viewOf ⟨pp.node, pp.round⟩ := why
      omega
  | accepted m _ hview hp count final resp =>
    rw [count.view] at hv
    rw [count.committers] at hnot
    rw [count.preparers] at hmem ⊢
    by_cases heq : pp = m
    · subst heq
      rw [if_pos rfl] at hnot ⊢
      obtain ⟨hcard, hfresh⟩ := hok hview hp hnot
      exact hl.owe resp hfresh (by simp [ownPrepare]) hcard
    · rw [if_neg heq] at hmem hnot ⊢
      exact hl.keep (by simp [ownPrepare]) (ho.commit pp hv hmem hnot)
  | prepared m _ _ why count =>
    rw [count.view] at hv
    rw [count.committers] at hnot
    rw [count.preparers] at hmem ⊢
    by_cases heq : pp = m.pre
    · subst heq
      rw [if_pos rfl] at hmem hnot ⊢
      have hv : s.viewOf ⟨m.node, m.round⟩ = m.view := hv
      have hle := (hok hv hnot).1 hmem
      rcases why with why | why | why
      · omega
      · exact .inl (by omega)
      · exact absurd why hnot
    rw [if_neg heq] at hmem hnot ⊢
    refine hl.keep ?_ (ho.commit pp hv hmem hnot)
    intro hmsg
    injection hmsg with hmsg
    exact heq (by rw [← hmsg]; rfl)
  | committing m _ _ _ _ count =>
    rw [count.view] at hv
    rw [count.committers] at hnot
    rw [count.preparers] at hmem ⊢
    by_cases heq : pp = m.pre
    · rw [if_pos heq] at hnot
      exact absurd (Finset.mem_insert_self receiver _) hnot
    rw [if_neg heq] at hmem hnot ⊢
    refine hl.keep ?_ (ho.commit pp hv hmem hnot)
    intro hmsg
    injection hmsg with hmsg
    exact heq (by rw [← hmsg]; rfl)
  | committed m _ _ why count | decided m _ _ _ count =>
    -- A commit vote adds to the committers only.
    rw [count.view] at hv
    rw [count.committers] at hnot
    have hsame : r.state.preparers pp = s.preparers pp := by
      rw [count.preparers]
      split
      next heq => rw [heq]
      · rfl
    have hnot : receiver ∉ s.committers pp := by
      intro hin
      split at hnot
      next heq => exact hnot (Finset.mem_insert_of_mem (heq ▸ hin))
      · exact hnot hin
    rw [hsame] at hmem ⊢
    exact hl.keep (by simp [ownPrepare]) (ho.commit pp hv hmem hnot)
  | moved _ _ view which hle same hviews =>
    rw [same.preparers] at hmem ⊢
    rw [same.committers] at hnot
    rw [hviews] at hv
    have hne : ownPrepare receiver pp ≠ msg := by
      rcases which with ⟨m, rfl, _⟩ | ⟨m, rfl, _⟩ <;> simp [ownPrepare]
    by_cases hstay : s.viewOf ⟨pp.node, pp.round⟩ = pp.view
    · exact hl.keep hne (ho.commit pp hstay hmem hnot)
    -- The view of the proposal has just been entered.
    split at hv
    next heq =>
      have henter : Enterable p receiver s ⟨pp.node, pp.round⟩ pp.view := by
        rw [← heq] at hle
        have hlt : s.viewOf ⟨pp.node, pp.round⟩ < pp.view := by omega
        rcases which with ⟨m, rfl, hm⟩ | ⟨m, rfl, hm⟩
        all_goals
          rw [heq] at hlt ⊢
          rw [← hv, ← hm] at hlt ⊢
          exact hok hlt
      exact .inl (henter.prepares pp.hash hmem hnot)
    · exact absurd hv hstay

theorem Owing.call_final (hv : pp.view ≤ r.state.viewOf ⟨pp.node, pp.round⟩)
    (hf : r.state.final ⟨pp.node, pp.round⟩ = none) :
    (r.state.committers pp).card < p.quorum2f1 ∨
      (r.state.committers pp).card = p.quorum2f1 ∧ owed' (ownCommit receiver pp) := by
  cases hr with
  | ignored _ _ why same view =>
    rw [same.committers]
    rw [same.final] at hf
    rw [view] at hv
    refine hl.keep ?_ (ho.final pp hv hf)
    intro heq
    subst heq
    rcases why with why | why
    · rw [hopen] at why
      cases why
    · have why : s.viewOf ⟨pp.node, pp.round⟩ < pp.view := why
      omega
  | accepted m _ _ _ count final | prepared m _ _ why count final =>
    -- Prepare votes leave the committers as they are.
    rw [count.view] at hv
    rw [final] at hf
    have hsame : r.state.committers pp = s.committers pp := by
      rw [count.committers]
      split
      next heq => rw [heq]
      · rfl
    rw [hsame]
    exact hl.keep (by simp [ownCommit]) (ho.final pp hv hf)
  | committing m _ hview hq hc count final resp =>
    rw [count.view] at hv
    rw [final] at hf
    rw [count.committers]
    by_cases heq : pp = m.pre
    · subst heq
      rw [if_pos rfl]
      obtain ⟨hcard, hfresh⟩ := (hok hview hc).2 hq hf
      exact hl.owe resp hfresh (by simp [ownCommit]) hcard
    · rw [if_neg heq]
      exact hl.keep (by simp [ownCommit]) (ho.final pp hv hf)
  | committed m _ hview why count final =>
    rw [count.view] at hv
    rw [final] at hf
    rw [count.committers]
    by_cases heq : pp = m.pre
    · subst heq
      rw [if_pos rfl]
      have hf : s.final ⟨m.node, m.round⟩ = none := hf
      have hle := (hok hview).1 hf
      rcases why with why | why
      · exact .inl (by omega)
      · rw [hf] at why
        cases why
    rw [if_neg heq]
    refine hl.keep ?_ (ho.final pp hv hf)
    intro hmsg
    injection hmsg with hmsg
    exact heq (by rw [← hmsg]; rfl)
  | decided m _ _ _ count final =>
    rw [count.view] at hv
    rw [final] at hf
    have hother : (⟨pp.node, pp.round⟩ : NodeRound) ≠ ⟨m.node, m.round⟩ := by
      intro heq
      rw [heq] at hf
      simp at hf
    rw [PMap.set_ne _ _ hother] at hf
    have hne : pp ≠ m.pre := fun heq => hother (by rw [heq]; rfl)
    rw [count.committers, if_neg hne]
    refine hl.keep ?_ (ho.final pp hv hf)
    intro hmsg
    injection hmsg with hmsg
    exact hne (by rw [← hmsg]; rfl)
  | moved _ _ view which _ same hviews =>
    rw [same.committers]
    rw [same.final] at hf
    rw [hviews] at hv
    have hne : ownCommit receiver pp ≠ msg := by
      rcases which with ⟨m, rfl, _⟩ | ⟨m, rfl, _⟩ <;> simp [ownCommit]
    by_cases hstay : pp.view ≤ s.viewOf ⟨pp.node, pp.round⟩
    · exact hl.keep hne (ho.final pp hstay hf)
    split at hv
    next heq =>
      have henter : Enterable p receiver s ⟨pp.node, pp.round⟩ view := by
        have hlt : s.viewOf ⟨pp.node, pp.round⟩ < view := by omega
        rcases which with ⟨m, rfl, hm⟩ | ⟨m, rfl, hm⟩
        all_goals
          rw [heq, ← hm] at hlt ⊢
          exact hok hlt
      exact .inl (henter.commits pp.hash pp.view (by omega) hv hf)
    · exact absurd hv hstay

end

theorem CommitsEmitted.call (he : CommitsEmitted receiver s emitted)
    (hr : Voted p s sender receiver msg r)
    (hok : NoJump p receiver processed emitted s sender msg) :
    CommitsEmitted receiver r.state (emitted ++ r.resp.toList) := by
  intro pp hmem
  cases hr with
  | ignored _ _ why same | moved _ _ _ _ _ same =>
    rw [same.committers] at hmem
    exact mem_append_left _ (he pp hmem)
  | accepted m _ _ _ count | prepared m _ _ why count =>
    rw [count.committers] at hmem
    refine mem_append_left _ (he pp ?_)
    split at hmem
    next heq => exact heq ▸ hmem
    · exact hmem
  | committing m _ _ _ _ count final resp =>
    rw [count.committers] at hmem
    split at hmem
    next heq =>
      rw [resp, heq]
      exact mem_append_right _ mem_cons_self
    · exact mem_append_left _ (he pp hmem)
  | committed m _ hview why count | decided m _ hview _ count =>
    rw [count.committers] at hmem
    refine mem_append_left _ ?_
    split at hmem
    next heq =>
      rcases Finset.mem_insert.mp hmem with hmem | hmem
      · -- The vote is the receiver's own, and was put out before.
        have hown : ownCommit receiver pp = .commit m := by
          rw [heq, hmem]
          rfl
        rw [hown]
        exact (hok hview).2 hmem.symm
      · exact he pp (heq ▸ hmem)
    · exact he pp hmem

theorem Owing.call (ho : Owing p receiver s emitted owed) (hopen : s.data.final = .empty)
    (hr : Voted p s sender receiver msg r) (hok : NoJump p receiver processed emitted s sender msg)
    (hl : Leaves processed msg r owed owed') :
    Owing p receiver r.state (emitted ++ r.resp.toList) owed' :=
  ⟨ho.call_commit hopen hr hok hl, ho.call_final hopen hr hok hl, ho.emitted.call hr hok⟩

end Call

/-! ## §3. A run. -/

/-- What is owed in the middle of `processMessages`: its unprocessed responses. -/
def Acc.owed (a : Acc) (m : Message) : Prop := m ∈ a.out ∧ m ∉ a.processed

/-- The invariant of the loops of `processMessages`, about the calls made so far. -/
structure Tested (p : Params) (receiver : Nat) (processed emitted : List Message) (a : Acc) :
    Prop where
  params : a.graph.params = p
  open_ : a.state.data.final = .empty
  seen : a.processed = (a.calls.map Call.msg).reverse ++ processed
  owing : NoJumps p receiver processed emitted a.calls →
    Owing p receiver a.state (emitted ++ responses a.calls) a.owed

section Run
variable {p : Params} {receiver : Nat} {origin : BlockID} {processed emitted : List Message}
  {a a' : Acc}

theorem NoJumps.left {cs cs' : List Call} (h : NoJumps p receiver processed emitted (cs ++ cs')) :
    NoJumps p receiver processed emitted cs := by
  intro pre c post heq
  exact h pre c (post ++ cs') (by rw [heq]; simp)

section
variable (ht : Tested p receiver processed emitted a)
include ht

theorem Tested.handle {sender : Nat} {m : Message}
    (h : handle sender receiver origin a m = .ok a') : Tested p receiver processed emitted a' := by
  unfold Blockmania.handle at h
  split at h
  · cases h
    exact ht
  next =>
    obtain ⟨⟨g, s, resp⟩, hcall, h⟩ := bind_eq_ok.mp h
    cases h
    obtain ⟨r, hr, hs, hresp, _, hk⟩ := processMessage_reacts hcall
    refine ⟨hk.params.trans ht.params, ?_, ?_, ?_⟩
    · show s.data.final = .empty
      rw [hs, hr.dataFinal, ht.open_]
    · show m :: a.processed = ((a.calls ++ [_]).map Call.msg).reverse ++ processed
      rw [ht.seen]
      simp
    intro hjumps
    have hok := hjumps a.calls ⟨a.graph, a.state, sender, m, resp⟩ [] rfl
    rw [← ht.seen] at hok
    have hvoted := hr.voted
    rw [ht.params] at hvoted
    rw [responses_append, ← append_assoc, hs]
    rw [hresp]
    refine (ht.owing hjumps.left).call ht.open_ hvoted hok ⟨?_, ?_⟩
    · intro x hx hne
      refine ⟨mem_append_left _ hx.1, ?_⟩
      exact fun hmem => (mem_cons.mp hmem).elim hne hx.2
    intro x hx hnew hne
    refine ⟨mem_append_right _ ?_, ?_⟩
    · rw [hx]
      exact mem_cons_self
    · exact fun hmem => (mem_cons.mp hmem).elim hne hnew

theorem Tested.processMessages {sender : Nat} {msgs : List Message} (hnone : ∀ m, ¬ a.owed m)
    (h : processMessages sender receiver origin a msgs = .ok a') :
    Tested p receiver processed emitted a' ∧ ∀ m, ¬ a'.owed m := by
  have hstart : Tested p receiver processed emitted { a with out := [] } := by
    refine ⟨ht.params, ht.open_, ht.seen, ?_⟩
    intro hjumps
    have ho := ht.owing hjumps
    exact (ho.settled hnone).owing ho.emitted _
  refine ⟨processMessages_inv _ hstart (fun x y m hx hy => hx.handle hy) h, ?_⟩
  intro m hm
  exact hm.2 (processMessages_done h m hm.1)

theorem Tested.feed {batches : List (Nat × List Message)} (hnone : ∀ m, ¬ a.owed m)
    (h : feed receiver origin a batches = .ok a') :
    Tested p receiver processed emitted a' ∧ ∀ m, ¬ a'.owed m := by
  exact foldlM_inv (fun x => Tested p receiver processed emitted x ∧ ∀ m, ¬ x.owed m)
    ⟨ht, hnone⟩ (fun batch _ x y hx hy => hx.1.processMessages hx.2 hy) h

end

end Run

/-- **Quorums are acted on as long as no vote steps over one.** From a settled state, messages none
of which jumps lead to a settled state, with the receiver's commit votes among what was put out. -/
theorem thresholds_settled {g : Graph} {s : State} {receiver : Nat} {origin : BlockID}
    {processed emitted : List Message} {batches : List (Nat × List Message)} {a' : Acc}
    (hrun : feed receiver origin ⟨g, s, processed, [], []⟩ batches = .ok a')
    (hopen : s.data.final = .empty) (hstart : Settled g.params receiver s emitted)
    (hemitted : CommitsEmitted receiver s emitted)
    (hjumps : NoJumps g.params receiver processed emitted a'.calls) :
    Settled g.params receiver a'.state (emitted ++ responses a'.calls) := by
  have hnone : ∀ m, ¬ (⟨g, s, processed, [], []⟩ : Acc).owed m := fun m hm => absurd hm.1 (by simp)
  have ht : Tested g.params receiver processed emitted ⟨g, s, processed, [], []⟩ := by
    refine ⟨rfl, hopen, rfl, ?_⟩
    intro _
    rw [responses_nil, append_nil]
    exact hstart.owing hemitted _
  obtain ⟨ht', hnone'⟩ := ht.feed hnone hrun
  exact (ht'.owing hjumps).settled hnone'

/-! ## §4. Two runs. -/

/-- A test that is enough for `NoJump`: the sets stay within the quorum, the receiver's answer is
new, and its own votes were put out. It refuses messages that move a view. -/
def fits (p : Params) (receiver : Nat) (processed emitted : List Message) (s : State)
    (sender : Nat) : Message → Bool
  | .prePrepare m =>
    (insert receiver (insert sender (s.preparers m))).card ≤ p.quorum2f1 &&
      ownPrepare receiver m ∉ processed
  | .prepare m =>
    (insert m.sender (s.preparers m.pre)).card ≤ p.quorum2f1 &&
      (insert receiver (s.committers m.pre)).card ≤ p.quorum2f1 &&
      ownCommit receiver m.pre ∉ processed
  | .commit m =>
    (insert m.sender (s.committers m.pre)).card ≤ p.quorum2f1 &&
      (m.sender ≠ receiver || .commit m ∈ emitted)
  | .viewChange _ | .newView _ => false

theorem noJump_of_fits {p : Params} {receiver sender : Nat} {processed emitted : List Message}
    {s : State} {m : Message} (h : fits p receiver processed emitted s sender m = true) :
    NoJump p receiver processed emitted s sender m := by
  cases m with
  | prePrepare =>
    simp only [fits, Bool.and_eq_true, decide_eq_true_eq] at h
    exact fun _ _ _ => h
  | prepare =>
    simp only [fits, Bool.and_eq_true, decide_eq_true_eq] at h
    exact fun _ _ => ⟨fun _ => h.1.1, fun _ _ => ⟨h.1.2, h.2⟩⟩
  | commit =>
    simp only [fits, Bool.and_eq_true, Bool.or_eq_true, decide_eq_true_eq] at h
    exact fun _ => ⟨fun _ => h.1, fun hm => h.2.resolve_left (not_not.mpr hm)⟩
  | viewChange | newView => exact absurd h (by simp [fits])

def allFit (p : Params) (receiver : Nat) (processed emitted : List Message) : List Call → Bool
  | [] => true
  | c :: cs => fits p receiver processed emitted c.state c.sender c.msg &&
      allFit p receiver (c.msg :: processed) (emitted ++ c.resp.toList) cs

theorem noJumps_of_allFit {p : Params} {receiver : Nat} {processed emitted : List Message}
    {cs : List Call} (h : allFit p receiver processed emitted cs = true) :
    NoJumps p receiver processed emitted cs := by
  induction cs generalizing processed emitted with
  | nil =>
    intro pre c post heq
    simp at heq
  | cons c cs ih =>
    obtain ⟨hfits, hrest⟩ := Bool.and_eq_true_iff.mp h
    intro pre c' post heq
    cases pre with
    | nil =>
      injection heq with hc _
      rw [← hc]
      simpa using noJump_of_fits hfits
    | cons c0 pre =>
      injection heq with hc heq
      subst hc
      have hnext := ih hrest pre c' post heq
      have hresp : responses (c :: pre) = c.resp.toList ++ responses pre := by
        rw [← responses_single, ← responses_append]
        rfl
      rw [hresp]
      simpa using hnext

theorem settled_empty (p : Params) (hq : 0 < p.quorum2f1) (receiver : Nat) :
    Settled p receiver State.empty [] ∧ CommitsEmitted receiver State.empty [] := by
  refine ⟨⟨?_, ?_⟩, ?_⟩
  · intro pp _ _ hmem
    exact absurd hmem (by simp [State.preparers, State.empty])
  · intro pp _ hcard
    have hzero : (State.empty.committers pp).card = 0 := rfl
    omega
  · intro pp hmem
    exact absurd hmem (by simp [State.committers, State.empty])

set_option maxRecDepth 100000 in
/-- The proposal of node 4 first, then the prepare vote of node 2: with those of nodes 4 and 1 there
is a quorum, and node 1 commits. -/
theorem thresholds_settled_inOrder :
    ∃ a', feed 1 ⟨[9], 1, 2⟩ ⟨new [1, 2, 3, 4] 0 (2 * ·), State.empty, [], [], []⟩
        [(4, [.prePrepare ⟨[7], 4, 1, 0⟩]), (2, [.prepare ⟨[7], 4, 1, 2, 0⟩])] = .ok a' ∧
      1 ∈ a'.state.committers ⟨[7], 4, 1, 0⟩ ∧
      Settled (new [1, 2, 3, 4] 0 (2 * ·)).params 1 a'.state ([] ++ responses a'.calls) := by
  refine exists_of_endsIn (P := fun a =>
    allFit (new [1, 2, 3, 4] 0 (2 * ·)).params 1 [] [] a.calls = true ∧
      1 ∈ a.state.committers ⟨[7], 4, 1, 0⟩) (by decide +kernel) ?_
  rintro a' ha' ⟨hfit, hmem⟩
  have hempty := settled_empty (new [1, 2, 3, 4] 0 (2 * ·)).params (by decide) 1
  exact ⟨hmem, thresholds_settled ha' rfl hempty.1 hempty.2 (noJumps_of_allFit hfit)⟩

set_option maxRecDepth 100000 in
/-- **A quorum that is stepped over.** The prepare votes of nodes 2 and 3 arrive before the proposal
of node 4, which adds the votes of nodes 4 and 1 together: the count goes from 2 to 4, the test for
3 never holds, and node 1 does not commit. -/
theorem thresholds_jumped :
    ∃ a', feed 1 ⟨[9], 1, 2⟩ ⟨new [1, 2, 3, 4] 0 (2 * ·), State.empty, [], [], []⟩
        [(2, [.prepare ⟨[7], 4, 1, 2, 0⟩]), (3, [.prepare ⟨[7], 4, 1, 3, 0⟩]),
          (4, [.prePrepare ⟨[7], 4, 1, 0⟩])] = .ok a' ∧
      Settled (new [1, 2, 3, 4] 0 (2 * ·)).params 1 State.empty [] ∧
      CommitsEmitted 1 State.empty [] ∧
      ¬ Settled (new [1, 2, 3, 4] 0 (2 * ·)).params 1 a'.state ([] ++ responses a'.calls) := by
  refine exists_of_endsIn (P := fun a => 3 ≤ (a.state.preparers ⟨[7], 4, 1, 0⟩).card ∧
    1 ∈ a.state.preparers ⟨[7], 4, 1, 0⟩ ∧ 1 ∉ a.state.committers ⟨[7], 4, 1, 0⟩ ∧
    a.state.viewOf ⟨4, 1⟩ = 0) (by decide +kernel) ?_
  rintro a' _ ⟨hcard, hprepared, hnot, hview⟩
  have hempty := settled_empty (new [1, 2, 3, 4] 0 (2 * ·)).params (by decide) 1
  refine ⟨hempty.1, hempty.2, ?_⟩
  intro hs
  exact hnot (hs.commit ⟨[7], 4, 1, 0⟩ hview hcard hprepared).1

end Chainspace.Blockmania
