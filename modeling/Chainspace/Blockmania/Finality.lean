/-
  Chainspace.Blockmania.Finality — what a chain says about a round it has decided.

  `processMessage` records a decision in `state.final`. The two guards that are meant to silence a
  decided round look for a `states.Final` key in `state.data`, WHICH NOTHING WRITES
  (`Chain.dataFinal`): a decided round goes on like any other.

  Main results:
    • `quiet_of_settled` — a chain is quiet about what it has decided as long as its timeouts for
      the round are of views it has left, and what it hears of the round are commit votes, messages
      of views it has left, or requests for votes it has already put out.
    • `final_not_quiet` — seven rounds after the decision a timeout of the current view fires, and
      the chain asks for the next view of the decided round.
-/
import Chainspace.Blockmania.OneVote

namespace Chainspace.Blockmania

open Chainspace.Lib List

/-! ## §1. What a decided round still hears. -/

/-- After a block that records a decision for `nr`, and while no block has dropped the round, the
later blocks of the chain put out neither a vote nor a view message about it. -/
def QuietOnceFinal (nr : NodeRound) (bs : List Block) : Prop :=
  ∀ b rest, (b :: rest) <:+ bs → Unpruned nr.round (b :: rest) →
    (∃ a ∈ rest, (a.state.final nr).isSome) →
    ∀ m ∈ b.state.out, m.nodeRound = nr → ∃ pp, m = .prePrepare pp

/-- A message that is of no use to a chain that has put out `em`: a commit vote, a message of a view
it has left, or one that asks for a vote it has put out. -/
def spent (em : List Message) (s : State) (msg : Message) : Bool :=
  msg.view < s.viewOf msg.nodeRound ||
    match msg with
    | .commit _ => true
    | .prePrepare m => em.any fun v => (prepareFor ⟨m.node, m.round, m.view⟩ v).isSome
    | .prepare m => em.any (commitsTo m.pre)
    | .viewChange _ => false
    | .newView _ => false

/-- What happens to `nr` at a block: the timeouts that are due are of views the chain has left, and
the messages about it are spent. -/
structure SettledAt (nr : NodeRound) (b : Block) (rest : List Block) : Prop where
  timeouts : ∀ t ∈ b.due, (⟨t.node, t.round⟩ : NodeRound) = nr → t.view < b.opened.2.viewOf nr
  messages : ∀ c ∈ b.calls, c.msg.nodeRound = nr → spent (emitted rest) c.state c.msg = true

/-- **The condition**: once the chain has decided `nr`, only timeouts of views it has left and spent
messages reach it. -/
def SettledOnceFinal (nr : NodeRound) (bs : List Block) : Prop :=
  ∀ b rest, (b :: rest) <:+ bs → Unpruned nr.round (b :: rest) →
    (∃ a ∈ rest, (a.state.final nr).isSome) → SettledAt nr b rest

/-! ## §2. Neither is answered. -/

/-- The timeouts of views the chain has left do not change its view. -/
theorem Block.fired_viewOf (b : Block) {nr : NodeRound} {ts : List Timeout}
    (hleft : ∀ t ∈ ts, (⟨t.node, t.round⟩ : NodeRound) = nr → t.view < b.opened.2.viewOf nr) :
    (b.fired ts).1.viewOf nr = b.opened.2.viewOf nr := by
  refine foldl_inv (fun acc : State × List Message => acc.1.viewOf nr = b.opened.2.viewOf nr) rfl ?_
  intro t ht acc hacc
  obtain ⟨s, out⟩ := acc
  rcases fireTimeout_cases b.entry.block.node s out t with ⟨_, h⟩ | ⟨_, hv, h⟩
  · rw [h]
    exact hacc
  rw [h]
  show (s.putView _ _).viewOf nr = _
  rw [State.viewOf_putView]
  split
  next heq =>
    -- a timeout of `nr` that fires is of the current view or a later one
    have hlt := hleft t ht heq.symm
    have hacc : s.viewOf nr = b.opened.2.viewOf nr := hacc
    rw [← heq, hacc] at hv
    omega
  · exact hacc

/-- A settled block asks for no view of `nr`. -/
theorem SettledAt.no_viewChange {nr : NodeRound} {b : Block} {rest : List Block}
    (h : SettledAt nr b rest) {vc : ViewChange} (hvc : .viewChange vc ∈ b.state.out) :
    (Message.viewChange vc).nodeRound ≠ nr := by
  intro hnr
  obtain ⟨pre, t, post, hdue, _, hview, heq⟩ := (b.viewChange_mem_out vc).mp hvc
  have htnr : (⟨t.node, t.round⟩ : NodeRound) = nr := by
    rw [← hnr, heq]
    rfl
  have hsame : (b.fired pre).1.viewOf nr = b.opened.2.viewOf nr := by
    apply b.fired_viewOf
    intro t' ht'
    exact h.timeouts t' (by rw [hdue]; exact mem_append_left _ ht')
  have hlt := h.timeouts t (by rw [hdue]; simp) htnr
  rw [htnr, hsame] at hview
  omega

/-- A spent message is not answered: the guards of the votes that have been put out are up. -/
theorem Voted.resp_of_spent {p : Params} {s : State} {sender receiver : Nat} {msg : Message}
    {r : Reaction} {em : List Message} (hr : Voted p s sender receiver msg r)
    (hspent : spent em s msg = true)
    (hprepared : ∀ k : NodeRoundView, k.round = msg.round → ∀ v ∈ em,
      (prepareFor k v).isSome = true → (s.data.prePrepared k).isSome = true)
    (hcommitted : ∀ pp : PrePrepare, pp.round = msg.round → ∀ v ∈ em,
      commitsTo pp v = true → receiver ∈ s.committers pp) : r.resp = none := by
  cases hr with
  | ignored _ _ _ _ _ resp => exact resp
  | prepared _ _ _ _ _ _ resp => exact resp
  | committed _ _ _ _ _ _ resp => exact resp
  | decided _ _ _ _ _ _ resp => exact resp
  | accepted m _ hv hp =>
    rcases (Bool.or_eq_true _ _).mp hspent with hlt | hany
    · have hlt : m.view < s.viewOf ⟨m.node, m.round⟩ := of_decide_eq_true hlt
      omega
    · obtain ⟨v, hmem, hvote⟩ := any_eq_true.mp hany
      have hsome := hprepared ⟨m.node, m.round, m.view⟩ rfl v hmem hvote
      rw [hp] at hsome
      cases hsome
  | committing m _ hv _ hc =>
    rcases (Bool.or_eq_true _ _).mp hspent with hlt | hany
    · have hlt : m.view < s.viewOf ⟨m.node, m.round⟩ := of_decide_eq_true hlt
      omega
    · obtain ⟨v, hmem, hvote⟩ := any_eq_true.mp hany
      exact absurd (hcommitted m.pre rfl v hmem hvote) hc
  | moved _ _ view hwhich hv =>
    -- a view message is spent only if its view has been left
    rcases hwhich with ⟨m, hmsg, hview⟩ | ⟨m, hmsg, hview⟩
    all_goals
      subst hmsg
      rcases (Bool.or_eq_true _ _).mp hspent with hlt | hfalse
      · have hlt : m.view < s.viewOf ⟨m.node, m.round⟩ := of_decide_eq_true hlt
        have hv : s.viewOf ⟨m.node, m.round⟩ ≤ view := hv
        omega
      · cases hfalse

/-! ## §3. The result. -/

/-- **A chain is quiet about its decisions** as long as nothing but old timeouts and spent messages
reaches it about them. -/
theorem quiet_of_settled {bs : List Block} (hc : Chain bs) {nr : NodeRound}
    (hsettled : SettledOnceFinal nr bs) : QuietOnceFinal nr bs := by
  intro b rest hs hu hfinal m hm hnr
  have hb := hsettled b rest hs hu hfinal
  have hout := hm
  rw [b.out_eq] at hm
  rcases mem_append.mp hm with hm | hm
  · -- the first messages are the own proposal and the view changes
    rcases mem_fired hm with heq | ⟨_, _, _, _, _, heq⟩
    · exact ⟨_, heq⟩
    · rw [heq] at hout hnr
      exact absurd hnr (hb.no_viewChange hout)
  obtain ⟨c, hcall, hresp⟩ := mem_responses.mp hm
  obtain ⟨_, hl, _⟩ := b.log
  obtain ⟨r, hr, hresp'⟩ := hl.reacts hcall
  rw [hresp'] at hresp
  have habout : c.msg.nodeRound = nr := (hr.resp_nodeRound hresp).symm.trans hnr
  have hround : c.msg.round = nr.round := congrArg NodeRound.round habout
  -- what the earlier blocks have put out has raised its guard
  obtain ⟨author, hauthor⟩ := hc.exists_author
  have hself : b.author = author := hauthor b (hs.subset mem_cons_self)
  have hnone := hr.voted.resp_of_spent (hb.messages c hcall habout) ?prepared ?committed
  · rw [hnone] at hresp
    cases hresp
  case prepared =>
    intro k hk v hv hvote
    rw [← hround, ← hk] at hu
    exact (prepare_guards author k).raised (fun _ => rfl) (fun _ => rfl) hc hauthor hs hu hv hvote
      hcall
  case committed =>
    intro pp hpp v hv hvote
    rw [← hround, ← hpp] at hu
    rw [hself]
    exact (commit_guards author pp).raised (fun _ => rfl) (fun _ => rfl) hc hauthor hs hu hv hvote
      hcall

/-- Nodes 1, 2 and 3 decide block (1, 1), which node 1 learns at its round 4. -/
def decided : List Dep :=
  [depAt 1 1 [], depAt 2 1 [], depAt 2 2 [blockAt 1 1], depAt 3 1 [], depAt 3 2 [blockAt 1 1],
    depAt 2 3 [blockAt 3 1, blockAt 3 2], depAt 3 3 [blockAt 2 1, blockAt 2 2], depAt 1 2 [],
    depAt 1 3 [blockAt 2 1, blockAt 2 2, blockAt 3 1, blockAt 3 2],
    depAt 1 4 [blockAt 2 3, blockAt 3 3]]

/-- A decision before the block, and then old timeouts and spent messages only. -/
def settledBlock (nr : NodeRound) (b : Block) (rest : List Block) : Bool :=
  rest.all (fun a => (a.state.final nr).isNone) ||
    (b.due.all (fun t => (⟨t.node, t.round⟩ : NodeRound) ≠ nr || t.view < b.opened.2.viewOf nr) &&
      b.calls.all (fun c => c.msg.nodeRound ≠ nr || spent (emitted rest) c.state c.msg))

theorem settledOnceFinal_of_every {nr : NodeRound} {bs : List Block}
    (h : everyBlock (settledBlock nr) bs = true) : SettledOnceFinal nr bs := by
  intro b rest hs _ hfinal
  obtain ⟨a, ha, hsome⟩ := hfinal
  rcases (Bool.or_eq_true _ _).mp (everyBlock_suffix h hs) with hall | hb
  · have hnone := all_eq_true.mp hall a ha
    rw [Option.isNone_iff_eq_none.mp hnone] at hsome
    cases hsome
  obtain ⟨hdue, hcalls⟩ := (Bool.and_eq_true _ _).mp hb
  refine ⟨?_, ?_⟩
  · intro t ht hnr
    simpa [hnr] using all_eq_true.mp hdue t ht
  · intro c hc hnr
    simpa [hnr] using all_eq_true.mp hcalls c hc

set_option maxRecDepth 100000 in
/-- Node 1 decides (1, 1) at its round 4, reads the `Prepare` and the `Commit` of node 2 once more
at round 5, and is quiet up to round 10. -/
theorem quiet_of_settled_ten :
    ∃ bs, replayChain [1, 2, 3, 4] 4 0
        (decided ++ [depAt 1 5 [blockAt 2 2, blockAt 2 3]] ++ idleDeps 1 6 10) 1 = some bs ∧
      bs.length = 10 ∧ Unpruned 1 bs ∧ (∃ b ∈ bs, b.state.final ⟨1, 1⟩ = some [51]) ∧
      (∃ b ∈ bs, b.entry.block.round = 5 ∧ ∃ c ∈ b.calls, c.msg = .prepare ⟨[51], 1, 1, 2, 0⟩) ∧
      QuietOnceFinal ⟨1, 1⟩ bs := by
  refine exists_chain (P := fun bs => (∀ b ∈ bs, b.minround ≤ 1) ∧
    everyBlock (settledBlock ⟨1, 1⟩) bs = true ∧ bs.length = 10 ∧
    (∃ b ∈ bs, b.state.final ⟨1, 1⟩ = some [51]) ∧ ∃ b ∈ bs, b.entry.block.round = 5 ∧
      ∃ c ∈ b.calls, c.msg = .prepare ⟨[51], 1, 1, 2, 0⟩) (by decide +kernel) ?_
  rintro bs hc ⟨hu, hsettled, hlen, hfinal, hagain⟩
  exact ⟨hlen, hu, hfinal, hagain, quiet_of_settled hc (settledOnceFinal_of_every hsettled)⟩

set_option maxRecDepth 100000 in
/-- **A decided round is reopened.** Node 1 goes on alone: block 4 records the decision for (1, 1),
and block 11 asks for view 1 of it. -/
theorem final_not_quiet :
    ∃ bs, replayChain [1, 2, 3, 4] 4 0 (decided ++ idleDeps 1 5 11) 1 = some bs ∧ Chain bs ∧
      Unpruned 1 bs ∧ ¬ QuietOnceFinal ⟨1, 1⟩ bs := by
  refine exists_chain (P := fun bs => (∀ b ∈ bs, b.minround ≤ 1) ∧
    (∃ a ∈ bs.tail, a.state.final ⟨1, 1⟩ = some [51]) ∧
    ∃ b ∈ bs.head?, .viewChange ⟨[51], 1, 1, 1, 1⟩ ∈ b.state.out) (by decide +kernel) ?_
  rintro bs hc ⟨hu, ⟨a, ha, hfinal⟩, b, hb, hvc⟩
  refine ⟨hc, hu, ?_⟩
  intro hquiet
  obtain ⟨rest, hrest⟩ := head?_eq_some_iff.mp hb
  subst hrest
  obtain ⟨pp, hpp⟩ := hquiet b rest suffix_rfl hu ⟨a, ha, by rw [hfinal]; rfl⟩ _ hvc rfl
  cases hpp

end Chainspace.Blockmania
