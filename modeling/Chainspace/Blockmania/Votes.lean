/-
  Chainspace.Blockmania.Votes — the vote sets and guards of a state, and what a call does to them.

  A vote set belongs to one proposal: a hash in a view of a node's round.  A missing set counts as
  the empty one.  Bits are only ever set, and guards only ever raised.
-/
import Chainspace.Blockmania.React

namespace Chainspace.Blockmania

open Chainspace.Lib

/-! ## §1. The voters of a proposal. -/

def State.preparers (s : State) (pp : PrePrepare) : Finset Nat :=
  ((s.bitsets pp).map Bitset.preparers).getD ∅

def State.committers (s : State) (pp : PrePrepare) : Finset Nat :=
  ((s.bitsets pp).map Bitset.committers).getD ∅

section Voters
variable (s : State) (pp : PrePrepare)

@[simp] theorem getBitset_preparers (size : Nat) :
    (s.getBitset size pp).preparers = s.preparers pp := by
  unfold State.getBitset State.preparers
  cases s.bitsets pp with
  | none => exact Bitset.preparers_newBitset size
  | some => rfl

@[simp] theorem getBitset_committers (size : Nat) :
    (s.getBitset size pp).committers = s.committers pp := by
  unfold State.getBitset State.committers
  cases s.bitsets pp with
  | none => exact Bitset.committers_newBitset size
  | some => rfl

variable {s s' : State}

theorem State.preparers_congr (h : s'.bitsets = s.bitsets) : s'.preparers pp = s.preparers pp := by
  unfold State.preparers
  rw [h]

theorem State.committers_congr (h : s'.bitsets = s.bitsets) :
    s'.committers pp = s.committers pp := by
  unfold State.committers
  rw [h]

theorem State.preparers_set {pp : PrePrepare} {b : Bitset}
    (h : s'.bitsets = s.bitsets.set pp b) (pp' : PrePrepare) :
    s'.preparers pp' = if pp' = pp then b.preparers else s.preparers pp' := by
  unfold State.preparers
  rw [h, PMap.set_apply]
  split <;> rfl

theorem State.committers_set {pp : PrePrepare} {b : Bitset}
    (h : s'.bitsets = s.bitsets.set pp b) (pp' : PrePrepare) :
    s'.committers pp' = if pp' = pp then b.committers else s.committers pp' := by
  unfold State.committers
  rw [h, PMap.set_apply]
  split <;> rfl

end Voters

/-! ## §2. A call. -/

theorem Reacts.guards {p : Params} {h : Heap} {s : State} {sender receiver : Nat}
    {origin : BlockID} {msg : Message} {r : Reaction}
    (hr : Reacts p h s sender receiver origin msg r) (k : NodeRoundView) :
    ((s.data.prePrepared k).isSome → (r.state.data.prePrepared k).isSome) ∧
      ((s.data.hnv k).isSome → (r.state.data.hnv k).isSome) := by
  cases hr with
  | prePrepareAccepted =>
    simp only [acceptPrePrepare_prePrepared, State.touch_prePrepared, PMap.set_apply,
      acceptPrePrepare_hnv, State.touch_hnv]
    refine ⟨?_, id⟩
    intro hs
    split
    · rfl
    · exact hs
  | newViewAccepted =>
    simp only [enterView_prePrepared, State.touch_prePrepared, enterView_hnv, State.touch_hnv,
      PMap.set_apply]
    refine ⟨id, ?_⟩
    intro hs
    split
    · rfl
    · exact hs
  | _ => simp [Reaction.quiet]

section Call
variable {p : Params} {h : Heap} {s : State} {sender receiver : Nat} {origin : BlockID}
  {msg : Message} {r : Reaction}

/-- `s'` has the voters, decisions and views of `s`, except that `pp` has the preparers `P` and the
committers `C`. -/
structure Recount (s s' : State) (pp : PrePrepare) (P C : Finset Nat) : Prop where
  preparers : ∀ pp', s'.preparers pp' = if pp' = pp then P else s.preparers pp'
  committers : ∀ pp', s'.committers pp' = if pp' = pp then C else s.committers pp'
  view : ∀ nr, s'.viewOf nr = s.viewOf nr

structure SameVoters (s s' : State) : Prop where
  preparers : ∀ pp, s'.preparers pp = s.preparers pp
  committers : ∀ pp, s'.committers pp = s.committers pp
  final : s'.final = s.final

theorem SameVoters.of_eq {s' : State} (hb : s'.bitsets = s.bitsets) (hf : s'.final = s.final) :
    SameVoters s s' :=
  ⟨fun pp => State.preparers_congr pp hb, fun pp => State.committers_congr pp hb, hf⟩

/-- The guards under which the switch of `processMessage` ignores a vote. -/
def Message.stale (s : State) : Message → Prop
  | .prePrepare m => s.viewOf ⟨m.node, m.round⟩ ≠ m.view ∨
      (s.data.prePrepared ⟨m.node, m.round, m.view⟩).isSome
  | .prepare m => m.view < s.viewOf ⟨m.node, m.round⟩
  | .commit m => s.viewOf ⟨m.node, m.round⟩ < m.view
  | .viewChange _ | .newView _ => True

/-- **A call in terms of voters**: each outcome names the sets it counts. -/
inductive Voted (p : Params) (s : State) (sender receiver : Nat) : Message → Reaction → Prop
  | ignored (msg : Message) (r : Reaction)
      (why : (s.data.final msg.nodeRound).isSome ∨ msg.stale s) (same : SameVoters s r.state)
      (view : ∀ nr, r.state.viewOf nr = s.viewOf nr) (resp : r.resp = none) :
      Voted p s sender receiver msg r
  | accepted (m : PrePrepare) (r : Reaction) (hv : s.viewOf ⟨m.node, m.round⟩ = m.view)
      (hp : s.data.prePrepared ⟨m.node, m.round, m.view⟩ = none)
      (count : Recount s r.state m (insert receiver (insert sender (s.preparers m)))
        (s.committers m))
      (final : r.state.final = s.final)
      (resp : r.resp = some (.prepare ⟨m.hash, m.node, m.round, receiver, m.view⟩)) :
      Voted p s sender receiver (.prePrepare m) r
  | prepared (m : Prepare) (r : Reaction) (hv : s.viewOf ⟨m.node, m.round⟩ ≤ m.view)
      (why : s.viewOf ⟨m.node, m.round⟩ < m.view ∨
        (insert m.sender (s.preparers m.pre)).card ≠ p.quorum2f1 ∨ receiver ∈ s.committers m.pre)
      (count : Recount s r.state m.pre (insert m.sender (s.preparers m.pre)) (s.committers m.pre))
      (final : r.state.final = s.final) (resp : r.resp = none) :
      Voted p s sender receiver (.prepare m) r
  | committing (m : Prepare) (r : Reaction) (hv : s.viewOf ⟨m.node, m.round⟩ = m.view)
      (hq : (insert m.sender (s.preparers m.pre)).card = p.quorum2f1)
      (hc : receiver ∉ s.committers m.pre)
      (count : Recount s r.state m.pre (insert m.sender (s.preparers m.pre))
        (insert receiver (s.committers m.pre)))
      (final : r.state.final = s.final)
      (resp : r.resp = some (.commit ⟨m.hash, m.node, m.round, receiver, m.view⟩)) :
      Voted p s sender receiver (.prepare m) r
  | committed (m : Commit) (r : Reaction) (hv : m.view ≤ s.viewOf ⟨m.node, m.round⟩)
      (why : (insert m.sender (s.committers m.pre)).card ≠ p.quorum2f1 ∨
        (s.final ⟨m.node, m.round⟩).isSome)
      (count : Recount s r.state m.pre (s.preparers m.pre) (insert m.sender (s.committers m.pre)))
      (final : r.state.final = s.final) (resp : r.resp = none) :
      Voted p s sender receiver (.commit m) r
  | decided (m : Commit) (r : Reaction) (hv : m.view ≤ s.viewOf ⟨m.node, m.round⟩)
      (hq : (insert m.sender (s.committers m.pre)).card = p.quorum2f1)
      (count : Recount s r.state m.pre (s.preparers m.pre) (insert m.sender (s.committers m.pre)))
      (final : r.state.final = s.final.set ⟨m.node, m.round⟩ m.hash) (resp : r.resp = none) :
      Voted p s sender receiver (.commit m) r
  | moved (msg : Message) (r : Reaction) (view : Nat)
      (which : (∃ m : ViewChange, msg = .viewChange m ∧ m.view = view) ∨
        ∃ m : NewView, msg = .newView m ∧ m.view = view)
      (hv : s.viewOf msg.nodeRound ≤ view) (same : SameVoters s r.state)
      (at_view : ∀ nr, r.state.viewOf nr = if nr = msg.nodeRound then view else s.viewOf nr)
      (resp : ∀ m, r.resp = some m → (∃ x, m = .newView x) ∨ ∃ x, m = .prePrepare x) :
      Voted p s sender receiver msg r

variable {b : Bitset} {pp : PrePrepare}

theorem Recount.of_set {s s' : State}
    (hb : s'.bitsets = s.bitsets.set pp b) (hv : ∀ nr, s'.viewOf nr = s.viewOf nr) :
    Recount s s' pp b.preparers b.committers :=
  ⟨State.preparers_set hb, State.committers_set hb, hv⟩

theorem voters_setPrepare {size x : Nat} (hb : (s.getBitset size pp).setPrepare x = some b) :
    b.preparers = insert x (s.preparers pp) ∧ b.committers = s.committers pp := by
  rw [Bitset.preparers_setPrepare hb, Bitset.committers_setPrepare hb, getBitset_preparers,
    getBitset_committers]
  exact ⟨rfl, rfl⟩

theorem voters_setCommit {size x : Nat} (hb : (s.getBitset size pp).setCommit x = some b) :
    b.preparers = s.preparers pp ∧ b.committers = insert x (s.committers pp) := by
  rw [Bitset.preparers_setCommit hb, Bitset.committers_setCommit hb, getBitset_preparers,
    getBitset_committers]
  exact ⟨rfl, rfl⟩

section
variable (hr : Reacts p h s sender receiver origin msg r)
include hr

theorem Reacts.voted : Voted p s sender receiver msg r := by
  cases hr with
  | closed _ hf => exact .ignored msg _ (.inl hf) (.of_eq rfl rfl) (fun _ => rfl) rfl
  | prePrepareStale m hs =>
    exact .ignored _ _ (.inr hs) (.of_eq (by simp [Reaction.quiet]) (by simp [Reaction.quiet]))
      (by simp [Reaction.quiet]) rfl
  | prePrepareAccepted m b b' hv hp hb hb' =>
    obtain ⟨hpb, hcb⟩ := voters_setPrepare hb
    have hcount : Recount s ((s.touch ⟨m.node, m.round⟩).acceptPrePrepare m b') m b'.preparers
        b'.committers := .of_set (by simp) (by simp)
    rw [Bitset.preparers_setPrepare hb', Bitset.committers_setPrepare hb', hpb, hcb] at hcount
    exact .accepted m _ hv hp hcount (by simp) rfl
  | prepareOld m hv | commitEarly m hv =>
    exact .ignored _ _ (.inr hv) (.of_eq (by simp [Reaction.quiet]) (by simp [Reaction.quiet]))
      (by simp [Reaction.quiet]) rfl
  | prepareCounted m b hv hb hq =>
    obtain ⟨hpb, hcb⟩ := voters_setPrepare hb
    have hcount : Recount s ((s.touch ⟨m.node, m.round⟩).putBitset m.pre b) m.pre b.preparers
        b.committers := .of_set (by simp) (by simp)
    rw [hpb, hcb] at hcount
    refine .prepared m _ hv ?_ hcount (by simp [Reaction.quiet]) rfl
    rcases hq with hq | hq | hq
    · exact .inl hq
    · rw [Bitset.prepareCount_eq_card, hpb] at hq
      exact .inr (.inl hq)
    · have hmem : receiver ∈ b.committers := of_decide_eq_true (hasBit_eq_some hq).symm
      exact .inr (.inr (hcb ▸ hmem))
  | prepareQuorum m b b' hv hb hq hc hb' =>
    obtain ⟨hpb, hcb⟩ := voters_setPrepare hb
    have hcount : Recount s ((((s.touch ⟨m.node, m.round⟩).putBitset m.pre b).putBitset m.pre
        b').notePrepared ⟨m.node, m.round, m.view⟩ m.hash) m.pre b'.preparers b'.committers :=
      .of_set (by simp [PMap.set_set]) (by simp)
    rw [Bitset.preparers_setCommit hb', Bitset.committers_setCommit hb', hpb, hcb] at hcount
    rw [Bitset.prepareCount_eq_card, hpb] at hq
    have hnot : receiver ∉ b.committers := of_decide_eq_false (hasBit_eq_some hc).symm
    exact .committing m _ hv hq (hcb ▸ hnot) hcount (by simp) rfl
  | commitCounted m b hv hb hq =>
    obtain ⟨hpb, hcb⟩ := voters_setCommit hb
    have hcount : Recount s ((s.touch ⟨m.node, m.round⟩).putBitset m.pre b) m.pre b.preparers
        b.committers := .of_set (by simp) (by simp)
    rw [hpb, hcb] at hcount
    rw [Bitset.commitCount_eq_card, hcb] at hq
    exact .committed m _ hv hq hcount (by simp [Reaction.quiet]) rfl
  | commitDecides m b hv hb hq =>
    obtain ⟨hpb, hcb⟩ := voters_setCommit hb
    have hcount : Recount s ((s.touch ⟨m.node, m.round⟩).decide m b) m.pre b.preparers
        b.committers := .of_set (by simp) (by simp)
    rw [hpb, hcb] at hcount
    rw [Bitset.commitCount_eq_card, hcb] at hq
    exact .decided m _ hv hq hcount (by simp) rfl
  | viewChangeOld | viewChangeFiled | newViewStale =>
    exact .ignored _ _ (.inr trivial)
      (.of_eq (by simp [Reaction.quiet]) (by simp [Reaction.quiet])) (by simp [Reaction.quiet]) rfl
  | viewChangeQuorum m _ hv =>
    refine .moved _ _ m.view (.inl ⟨m, rfl, rfl⟩) hv (.of_eq (by simp) (by simp)) ?_ ?_
    · intro nr
      rw [State.viewOf_putView, fileVote_state, vcObject_viewOf, State.touch_viewOf]
      rfl
    intro x hx
    injection hx with hx
    exact .inl ⟨_, hx.symm⟩
  | newViewAccepted m hv =>
    refine .moved _ _ m.view (.inr ⟨m, rfl, rfl⟩) hv (.of_eq (by simp) (by simp)) ?_ ?_
    · intro nr
      rw [enterView_viewOf, State.touch_viewOf]
      rfl
    intro x hx
    injection hx with hx
    exact .inr ⟨_, hx.symm⟩

theorem Reacts.committers_mono (pp : PrePrepare) : s.committers pp ⊆ r.state.committers pp := by
  have hgrow : ∀ {pp' P C}, Recount s r.state pp' P C → s.committers pp' ⊆ C →
      s.committers pp ⊆ r.state.committers pp := by
    intro pp' P C hcount hsub
    rw [hcount.committers]
    split
    next heq => exact heq ▸ hsub
    · exact fun _ hx => hx
  cases hr.voted with
  | ignored _ _ _ same | moved _ _ _ _ _ same => rw [same.committers]
  | accepted m _ _ _ count | prepared m _ _ why count => exact hgrow count (fun _ hx => hx)
  | committing m _ _ _ _ count | committed m _ _ why count | decided m _ _ _ count =>
    exact hgrow count (Finset.subset_insert _ _)

/-- A commit vote is the receiver's, and its bit is set when it is put out. -/
theorem Reacts.commit_resp {m : Commit} (hm : r.resp = some (.commit m)) :
    receiver ∉ s.committers m.pre ∧ receiver ∈ r.state.committers m.pre := by
  cases hr.voted with
  | committing m' _ _ _ hc count final resp =>
    rw [hm] at resp
    injection resp with resp
    injection resp with resp
    have hpre : m.pre = m'.pre := by rw [resp]; rfl
    rw [hpre, count.committers, if_pos rfl]
    exact ⟨hc, Finset.mem_insert_self receiver _⟩
  | moved _ _ _ _ _ _ _ resp =>
    rcases resp _ hm with ⟨x, hx⟩ | ⟨x, hx⟩
    all_goals cases hx
  | accepted m' _ _ _ count final resp =>
    rw [hm] at resp
    cases resp
  | ignored _ _ _ _ _ resp | prepared _ _ _ _ _ _ resp | committed _ _ _ _ _ _ resp
  | decided _ _ _ _ _ _ resp =>
    rw [hm] at resp
    cases resp

end

end Call

end Chainspace.Blockmania
