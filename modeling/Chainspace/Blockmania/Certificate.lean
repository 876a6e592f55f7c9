/-
  Chainspace.Blockmania.Certificate — what a view change says about earlier commit votes.

  A chain that has put out a commit vote for a hash in view `w` holds a prepared certificate, and a
  later view change has to carry one at least as new. The timeout loop of `process` reads the
  `Prepared` record of the view that timed out AND OF NO OTHER: after a view in which nothing was
  prepared, the certificate is lost. `certificateSurvives_iff` says exactly when certificates
  survive.
-/
import Chainspace.Blockmania.Chain

namespace Chainspace.Blockmania

open Chainspace.Lib

/-! ## §1. `Prepared` records and commit votes. -/

def commitFor (k : NodeRoundView) (m : Message) : Option Hash :=
  match m with
  | .commit c => if (⟨c.node, c.round, c.view⟩ : NodeRoundView) = k then some c.hash else none
  | _ => none

/-- The hash of the first commit vote in view `k` among some messages. -/
def firstCommit (em : List Message) (k : NodeRoundView) : Option Hash :=
  em.findSome? (commitFor k)

/-- A call records what it answers with a commit vote, unless there is a record. -/
theorem Reacts.prepared {p : Params} {h : Heap} {s : State} {sender receiver : Nat}
    {origin : BlockID} {msg : Message} {r : Reaction}
    (hr : Reacts p h s sender receiver origin msg r) (k : NodeRoundView) :
    r.state.data.prepared k = (s.data.prepared k).or (firstCommit r.resp.toList k) := by
  cases hr with
  | prepareQuorum m =>
    simp only [notePrepared_prepared, State.putBitset_data, State.touch_prepared]
    by_cases hk : k = ⟨m.node, m.round, m.view⟩
    · subst hk
      cases s.data.prepared ⟨m.node, m.round, m.view⟩ <;> simp [firstCommit, commitFor]
    · have hk' : (⟨m.node, m.round, m.view⟩ : NodeRoundView) ≠ k := fun h => hk h.symm
      simp [firstCommit, commitFor, hk, hk']
  | _ => simp [Reaction.quiet, firstCommit, commitFor]

/-- **The `Prepared` records of a chain are its commit votes**: while the round is not pruned, the
record of a view is the hash of the first commit vote in it. -/
theorem Chain.prepared_eq_firstCommit {bs : List Block} (hc : Chain bs) {nr : NodeRound}
    (hu : Unpruned nr.round bs) (v : Nat) {b : Block} {rest : List Block}
    (hs : (b :: rest) <:+ bs) :
    b.state.data.prepared ⟨nr.node, nr.round, v⟩ =
      firstCommit (emitted (b :: rest)) ⟨nr.node, nr.round, v⟩ := by
  have hrule := Chain.rule (I := fun _ em s =>
    s.data.prepared ⟨nr.node, nr.round, v⟩ = firstCommit em ⟨nr.node, nr.round, v⟩) hc
    (fun _ => rfl) ?clone ?frame ?propose ?fire ?call
  case clone =>
    intro b a rest hsuf ha
    have hmin : b.minround ≤ nr.round := hu b (hsuf.subset List.mem_cons_self)
    rw [clone_prepared hmin]
    exact ha
  case frame =>
    intro _ em s s' hv h
    rw [hv.data]
    exact h
  case propose =>
    intro b rest s _ _ h
    rw [h]
    simp [firstCommit, commitFor, Entry.proposal]
  case fire =>
    intro b rest em s t _ _ _ h
    rw [State.putView_prepared, h]
    simp [firstCommit, commitFor]
  case call =>
    intro b rest pre c post _ _ h r hr hresp
    rw [hr.prepared, h, ← hresp]
    exact List.findSome?_append.symm
  exact (hrule b rest hs).1

/-! ## §2. When certificates survive. -/

/-- Once a chain has put out a commit vote in view `w`, its view changes to later views carry a hash
it has recorded as prepared in view `w` or later. The states are newest first. -/
def CertificateSurvives (nr : NodeRound) (ss : List State) : Prop :=
  ∀ s rest, (s :: rest) <:+ ss → ∀ (c : Commit) (vc : ViewChange),
    (∃ a ∈ rest, .commit c ∈ a.out) → (Message.commit c).nodeRound = nr →
    .viewChange vc ∈ s.out → (Message.viewChange vc).nodeRound = nr → c.view < vc.view →
    vc.hash ≠ [] ∧
      ∃ a ∈ rest, ∃ u, c.view ≤ u ∧ a.data.prepared ⟨nr.node, nr.round, u⟩ = some vc.hash

/-- Every timeout that fires after a commit vote is of a view in which the chain has put out a
commit vote, the first of them for a block. -/
def TimeoutsInCommittedViews (nr : NodeRound) (bs : List Block) : Prop :=
  ∀ b rest, (b :: rest) <:+ bs → ∀ pre t post, b.due = pre ++ t :: post →
    (⟨t.node, t.round⟩ : NodeRound) = nr → (b.fired pre).1.viewOf nr ≤ t.view →
    (∃ c : Commit, .commit c ∈ emitted rest ∧ (Message.commit c).nodeRound = nr ∧
      c.view < (t.view + 1) % 2 ^ 32) →
    ∃ h, firstCommit (emitted rest) ⟨nr.node, nr.round, t.view⟩ = some h ∧ h ≠ []

/-- The `Prepared` record a timeout reads is the first commit vote in its view. -/
theorem Chain.fired_prepared {bs : List Block} (hc : Chain bs) {nr : NodeRound}
    (hu : Unpruned nr.round bs) (v : Nat) {b a : Block} {rest : List Block}
    (hs : (b :: a :: rest) <:+ bs) (pre : List Timeout) :
    (b.fired pre).1.data.prepared ⟨nr.node, nr.round, v⟩ =
        a.state.data.prepared ⟨nr.node, nr.round, v⟩ ∧
      a.state.data.prepared ⟨nr.node, nr.round, v⟩ =
        firstCommit (emitted (a :: rest)) ⟨nr.node, nr.round, v⟩ := by
  have hs' : (a :: rest) <:+ bs := (List.suffix_cons b (a :: rest)).trans hs
  refine ⟨?_, hc.prepared_eq_firstCommit hu v hs'⟩
  rw [(b.fired_data pre).1]
  cases hc.suffix hs with
  | next hf =>
    have hmin : b.minround ≤ nr.round := hu b (hs.subset List.mem_cons_self)
    rw [hf.findOrCreateState]
    exact clone_prepared hmin

/-- **Certificates survive exactly in the chains whose timeouts fire in committed views.** -/
theorem certificateSurvives_iff {bs : List Block} (hc : Chain bs) {nr : NodeRound}
    (hu : Unpruned nr.round bs) :
    CertificateSurvives nr (bs.map Block.state) ↔ TimeoutsInCommittedViews nr bs := by
  constructor
  · rintro hsurv b rest hs pre t post hdue hnr hview ⟨c, hcm, hcnr, hlt⟩
    cases rest with
    | nil => exact absurd hcm (by simp [emitted])
    | cons a rest =>
      have hprep := hc.fired_prepared hu t.view hs pre
      have hopen : (b.fired pre).1.data.final ⟨t.node, t.round⟩ = none := by
        rw [(b.fired_data pre).2, (hc.dataFinal hs).1]
        rfl
      -- The timeout puts out a view change with the record of its view.
      have hout := (b.viewChange_mem_out _).mpr
        ⟨pre, t, post, hdue, hopen, by rw [hnr]; exact hview, rfl⟩
      obtain ⟨a', ha', hca'⟩ := mem_emitted.mp hcm
      have hsuf : (b.state :: (a :: rest).map Block.state) <:+ bs.map Block.state :=
        hs.map Block.state
      have hne := (hsurv b.state ((a :: rest).map Block.state) hsuf c _
        ⟨a'.state, List.mem_map_of_mem ha', hca'⟩ hcnr hout hnr hlt).1
      have htn : t.node = nr.node := congrArg NodeRound.node hnr
      have htr : t.round = nr.round := congrArg NodeRound.round hnr
      rw [htn, htr, hprep.1, hprep.2] at hne
      cases hfirst : firstCommit (emitted (a :: rest)) ⟨nr.node, nr.round, t.view⟩ with
      | none =>
        rw [hfirst] at hne
        exact absurd rfl hne
      | some h =>
        rw [hfirst] at hne
        exact ⟨h, rfl, hne⟩
  intro hcond s rest hs c vc hcm hcnr hvc hvnr hlt
  obtain ⟨b, rest', hsuf, hsb, hrest⟩ := suffix_map_state hs
  subst hsb hrest
  obtain ⟨pre, t, post, hdue, _, hview, hvceq⟩ := (b.viewChange_mem_out vc).mp hvc
  have hnr : (⟨t.node, t.round⟩ : NodeRound) = nr := by
    rw [← hvnr, hvceq]
    rfl
  have hvv : vc.view = (t.view + 1) % 2 ^ 32 := by rw [hvceq]
  have hcm' : .commit c ∈ emitted rest' := by
    obtain ⟨s', hs', hmem⟩ := hcm
    obtain ⟨a', ha', hsa'⟩ := List.mem_map.mp hs'
    exact mem_emitted.mpr ⟨a', ha', by rw [hsa']; exact hmem⟩
  rw [hnr] at hview
  obtain ⟨h, hfirst, hne⟩ := hcond b rest' hsuf pre t post hdue hnr hview
    ⟨c, hcm', hcnr, by rw [← hvv]; exact hlt⟩
  cases rest' with
  | nil => exact absurd hcm' (by simp [emitted])
  | cons a =>
    have hprep := hc.fired_prepared hu t.view hsuf pre
    have hvh : vc.hash = h := by
      have htn : t.node = nr.node := congrArg NodeRound.node hnr
      have htr : t.round = nr.round := congrArg NodeRound.round hnr
      rw [hvceq]
      rw [htn, htr, hprep.1, hprep.2, hfirst]
      rfl
    have hle : c.view ≤ t.view := by
      omega
    rw [hvh]
    exact ⟨hne, a.state, List.mem_map_of_mem List.mem_cons_self, t.view, hle,
      by rw [hprep.2, hfirst]⟩

/-- Every timeout of `nr` that is due is of a view with a commit vote for a block. -/
def dueCommitted (nr : NodeRound) (b : Block) (rest : List Block) : Bool :=
  b.due.all fun t => (⟨t.node, t.round⟩ : NodeRound) ≠ nr ||
    (firstCommit (emitted rest) ⟨nr.node, nr.round, t.view⟩).any (· ≠ [])

theorem timeoutsInCommittedViews_of_due {nr : NodeRound} {bs : List Block}
    (h : everyBlock (dueCommitted nr) bs = true) : TimeoutsInCommittedViews nr bs := by
  intro b rest hs pre t post hdue hnr _ _
  have ht := List.all_eq_true.mp (everyBlock_suffix h hs) t (by rw [hdue]; simp)
  rw [hnr] at ht
  simpa [Option.any_eq_true] using ht

set_option maxRecDepth 100000 in
/-- Node 1 puts out its commit vote at round 3, asks for view 1 with that hash at round 11, and
enters it at round 12. -/
theorem certificateSurvives_entered : ∃ bs, replayChain [1, 2, 3, 4] 4 0 enteredView 1 = some bs ∧
    Unpruned 1 bs ∧ .commit ⟨[51], 1, 1, 1, 0⟩ ∈ emitted bs ∧
    .viewChange ⟨[51], 1, 1, 1, 1⟩ ∈ emitted bs ∧
    CertificateSurvives ⟨1, 1⟩ (bs.map Block.state) := by
  refine exists_chain (P := fun bs => (∀ b ∈ bs, b.minround ≤ 1) ∧
    everyBlock (dueCommitted ⟨1, 1⟩) bs = true ∧ .commit ⟨[51], 1, 1, 1, 0⟩ ∈ emitted bs ∧
      .viewChange ⟨[51], 1, 1, 1, 1⟩ ∈ emitted bs) (by decide +kernel) ?_
  rintro bs hc ⟨hu, hall, hcommit, hvc⟩
  have hiff : CertificateSurvives ⟨1, 1⟩ (bs.map Block.state) ↔
    TimeoutsInCommittedViews ⟨1, 1⟩ bs := certificateSurvives_iff hc hu
  exact ⟨hu, hcommit, hvc, hiff.mpr (timeoutsInCommittedViews_of_due hall)⟩

/-- Node 1 goes on in view 1, where nobody votes. -/
def stalledView : List Dep := enteredView ++ idleDeps 1 13 27

set_option maxRecDepth 100000 in
/-- **A prepared certificate is lost.** At round 27 the timeout of view 1 fires, and node 1 asks for
view 2 with an empty hash, although it has put out a commit vote in view 0. -/
theorem certificate_lost : ∃ g, replay [1, 2, 3, 4] 4 0 stalledView = .ok g ∧ g.round ≤ 1 ∧
      ¬ CertificateSurvives ⟨1, 1⟩ (chainStates g 1 27) := by
  refine exists_of_endsIn (P := fun g => g.round ≤ 1 ∧
    .commit ⟨[51], 1, 1, 1, 0⟩ ∈ getOutput (g.statess (blockAt 1 3)) ∧
      .viewChange ⟨[], 1, 1, 1, 2⟩ ∈ getOutput (g.statess (blockAt 1 27))) (by decide +kernel) ?_
  rintro g _ ⟨hround, hcommit, hvc⟩
  refine ⟨hround, ?_⟩
  intro hsurv
  obtain ⟨s3, hs3, hcommit⟩ := mem_getOutput hcommit
  obtain ⟨s27, hs27, hvc⟩ := mem_getOutput hvc
  have hstates : chainStates g 1 27 = s27 :: chainStates g 1 26 := by
    show (g.statess (blockAt 1 27)).toList ++ chainStates g 1 26 = _
    rw [hs27]
    rfl
  have hne := (hsurv s27 (chainStates g 1 26) (by rw [hstates]) ⟨[51], 1, 1, 1, 0⟩
    ⟨[], 1, 1, 1, 2⟩ ⟨s3, mem_chainStates (by decide) (by decide) hs3, hcommit⟩ rfl hvc rfl
    (by decide)).1
  exact hne rfl

end Chainspace.Blockmania
