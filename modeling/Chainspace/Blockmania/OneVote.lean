/-
  Chainspace.Blockmania.OneVote — how often a chain votes in one view.

  A chain votes by a proposal (`PrePrepare`), which other nodes count for its sender, and by a
  `Prepare`. A proposal for a view change is guarded by the `HNV` record of the view, a `Prepare` by
  its `PrePrepared` record, and NEITHER guard looks at the other record. So one chain can vote for
  two hashes in one view, if it is offered one of them and enters the view with the other.

  Main results:
    • `Guards.once` — a guarded message is put out at most once, for a round that is not dropped;
      `prepare_guards`, `newView_guards` and `commit_guards` are the three guards of the code.
    • `oneVote_of_inputs` — a chain votes for one hash in a view if the proposals and the new views
      that reach it in that view are for the same hash. Within one kind nothing is asked: there the
      guards decide, unless a clone has dropped the round and its records.
    • `oneVote_broken` — a chain of twelve blocks that votes for two hashes.
-/
import Chainspace.Blockmania.Chain
import Chainspace.Blockmania.Votes

namespace Chainspace.Blockmania

open Chainspace.Lib List

/-! ## §1. Votes. -/

/-- The hash a proposal in the view `k` is for. -/
def proposalFor (k : NodeRoundView) (m : Message) : Option Hash :=
  match m with
  | .prePrepare p => if (⟨p.node, p.round, p.view⟩ : NodeRoundView) = k then some p.hash else none
  | _ => none

/-- The hash a `Prepare` in the view `k` is for. -/
def prepareFor (k : NodeRoundView) (m : Message) : Option Hash :=
  match m with
  | .prepare p => if (⟨p.node, p.round, p.view⟩ : NodeRoundView) = k then some p.hash else none
  | _ => none

variable {h : Hash} {k : NodeRoundView} {m : Message} {bs : List Block}

/-- The calls of a chain, oldest first. -/
def callsOf : List Block → List Call
  | [] => []
  | b :: rest => callsOf rest ++ b.calls

/-- A guard for the messages `E` of an author about a round: down before such a message is put out,
up after it, and up as long as the round is not dropped. -/
structure Guards (author round : Nat) (G : State → Prop) (E : Message → Bool) : Prop where
  clone : ∀ s minround, minround ≤ round → G s → G (clone (some s) minround)
  same : ∀ s s', SameVotes s s' → G s → G s'
  fire : ∀ s nr v, G s → G (s.putView nr v)
  call : ∀ p h s sender origin msg r, Reacts p h s sender author origin msg r →
    (G s → G r.state) ∧ ∀ m, r.resp = some m → E m = true → ¬ G s ∧ G r.state

section Guards
variable {author round : Nat} {G : State → Prop} {E : Message → Bool}

theorem Guards.fired (hg : Guards author round G E) (b : Block)
    (h : G (findOrCreateState b.graph b.entry)) (ts : List Timeout) : G (b.fired ts).1 := by
  refine foldl_inv (fun acc : State × List Message => G acc.1) (hg.same _ _ b.opened_votes h) ?_
  rintro t _ ⟨s, out⟩ hs
  rcases fireTimeout_cases b.entry.block.node s out t with ⟨_, heq⟩ | ⟨_, _, heq⟩
  · rw [heq]
    exact hs
  · rw [heq]
    exact hg.fire s _ _ hs

/-- The messages of a log: none if the guard was up, else at most one, and then it is up. -/
theorem Guards.log (hg : Guards author round G E) {origin : BlockID} {src : Nat → Message → Prop}
    {g g' : Graph} {s s' : State} {cs : List Call} (hl : Log author origin src g s cs g' s')
    {n : Nat} (hn : n ≤ 1) (hup : n = 1 → G s) :
    n + (responses cs).countP E ≤ 1 ∧ (n + (responses cs).countP E = 1 → G s') := by
  induction hl with
  | nil => exact ⟨by simpa using hn, by simpa using hup⟩
  | @snoc cs c g1 s1 _ _ hcall ih =>
    obtain ⟨hle, hone⟩ := ih
    obtain ⟨r, hr, hs1, hresp, _⟩ := processMessage_reacts hcall
    obtain ⟨hstays, hevent⟩ := hg.call _ _ _ _ _ _ _ hr
    rw [responses_append, countP_append, responses_single, hs1, hresp]
    cases hm : r.resp with
    | none =>
      refine ⟨by simpa using hle, ?_⟩
      intro h1
      exact hstays (hone (by simpa using h1))
    | some m =>
      by_cases he : E m = true
      · obtain ⟨hdown, hnow⟩ := hevent m hm he
        have hzero : n + (responses cs).countP E ≠ 1 := fun h1 => hdown (hone h1)
        have hcount : (some m).toList.countP E = 1 := by simp [he]
        exact ⟨by omega, fun _ => hnow⟩
      have hcount : (some m).toList.countP E = 0 := by simp [he]
      refine ⟨by omega, ?_⟩
      intro h1
      exact hstays (hone (by omega))

/-- **A guarded message is put out at most once** among the responses of a chain. -/
theorem Guards.once (hg : Guards author round G E) {bs : List Block} (hc : Chain bs)
    (hround : Unpruned round bs) (hauthor : ∀ b ∈ bs, b.author = author) :
    (responses (callsOf bs)).countP E ≤ 1 := by
  have hall : (responses (callsOf bs)).countP E ≤ 1 ∧ ∀ b, bs.head? = some b →
      (responses (callsOf bs)).countP E = 1 → G b.state := by
    induction hc with
    | @start b =>
      obtain ⟨s, hl, hs⟩ := b.log
      rw [hauthor b mem_cons_self] at hl
      have hlog := hg.log hl (Nat.zero_le 1) (by simp)
      refine ⟨by simpa [callsOf] using hlog.1, ?_⟩
      intro b' hb' h1
      injection hb' with hb'
      rw [← hb', hs]
      exact hg.same s _ ⟨rfl, rfl, rfl⟩ (hlog.2 (by simpa [callsOf] using h1))
    | @next b a rest hf _ ih =>
      have hprev := ih (fun x hx => hround x (mem_cons_of_mem b hx))
        (fun x hx => hauthor x (mem_cons_of_mem b hx))
      have hup : (responses (callsOf (a :: rest))).countP E = 1 → G (b.fired b.due).1 := by
        intro h1
        refine hg.fired b ?_ b.due
        rw [hf.findOrCreateState]
        exact hg.clone _ _ (hround b mem_cons_self) (hprev.2 a rfl h1)
      obtain ⟨s, hl, hs⟩ := b.log
      rw [hauthor b mem_cons_self] at hl
      have hlog := hg.log hl hprev.1 hup
      have hcount : (responses (callsOf (b :: a :: rest))).countP E =
          (responses (callsOf (a :: rest))).countP E + (responses b.calls).countP E := by
        rw [← countP_append, ← responses_append]
        rfl
      rw [hcount]
      refine ⟨hlog.1, ?_⟩
      intro b' hb' h1
      injection hb' with hb'
      rw [← hb', hs]
      exact hg.same s _ ⟨rfl, rfl, rfl⟩ (hlog.2 h1)
  exact hall.1

end Guards

theorem Chain.exists_author {bs : List Block} (hc : Chain bs) :
    ∃ author, ∀ b ∈ bs, b.author = author := by
  induction hc with
  | @start b => exact ⟨b.author, fun x hx => by rw [mem_singleton.mp hx]⟩
  | @next b a rest hf _ ih =>
    obtain ⟨author, hall⟩ := ih
    refine ⟨author, ?_⟩
    intro x hx
    rcases mem_cons.mp hx with hx | hx
    · rw [hx, hf.node]
      exact hall a mem_cons_self
    · exact hall x hx

/-- A commit vote for the proposal `pp`. -/
def commitsTo (pp : PrePrepare) : Message → Bool
  | .commit m => m.pre = pp
  | _ => false

/-- A `Prepare` in the view `k` is guarded by its `PrePrepared` record. -/
theorem prepare_guards (author : Nat) (k : NodeRoundView) :
    Guards author k.round (fun s => (s.data.prePrepared k).isSome)
      (fun m => (prepareFor k m).isSome) where
  clone := by
    intro s minround hle hs
    rw [clone_prePrepared hle]
    exact hs
  same := by
    intro s s' hsame hs
    rw [hsame.data]
    exact hs
  fire := fun s nr v hs => hs
  call := by
    intro p h s sender origin msg r hr
    refine ⟨(hr.guards k).1, ?_⟩
    intro m hm he
    cases hr with
    | prePrepareAccepted m' b b' _ hp =>
      cases hm
      -- The answer is about the view of the proposal it answers.
      have hk : (⟨m'.node, m'.round, m'.view⟩ : NodeRoundView) = k := by
        by_contra hne
        simp [prepareFor, hne] at he
      rw [hk] at hp
      refine ⟨by simp [hp], ?_⟩
      show (PMap.set _ _ _ k).isSome = true
      rw [hk, PMap.set_self]
      rfl
    | prepareQuorum | viewChangeQuorum | newViewAccepted =>
      cases hm
      exact absurd he (by simp [prepareFor])
    | _ => exact absurd hm (by simp [Reaction.quiet])

/-- A proposal that answers a `NewView` is guarded by the `HNV` record of its view. -/
theorem newView_guards (author : Nat) (k : NodeRoundView) :
    Guards author k.round (fun s => (s.data.hnv k).isSome) (fun m => (proposalFor k m).isSome) where
  clone := by
    intro s minround hle hs
    rw [clone_hnv hle]
    exact hs
  same := by
    intro s s' hsame hs
    rw [hsame.data]
    exact hs
  fire := fun s nr v hs => hs
  call := by
    intro p h s sender origin msg r hr
    refine ⟨(hr.guards k).2, ?_⟩
    intro m hm he
    cases hr with
    | newViewAccepted m' _ hn =>
      cases hm
      have hk : (⟨m'.node, m'.round, m'.view⟩ : NodeRoundView) = k := by
        by_contra hne
        simp [proposalFor, hne] at he
      rw [hk] at hn
      refine ⟨by simp [hn], ?_⟩
      rw [enterView_hnv, hk, PMap.set_self]
      rfl
    | prePrepareAccepted | prepareQuorum | viewChangeQuorum =>
      cases hm
      exact absurd he (by simp [proposalFor])
    | _ => exact absurd hm (by simp [Reaction.quiet])

/-- A commit vote is guarded by the own bit in its bitset. -/
theorem commit_guards (author : Nat) (pp : PrePrepare) :
    Guards author pp.round (fun s => author ∈ s.committers pp) (commitsTo pp) where
  clone := by
    intro s minround hle hs
    unfold State.committers at hs ⊢
    rw [clone_bitsets hle]
    exact hs
  same := by
    intro s s' hsame hs
    rw [State.committers_congr pp hsame.bitsets]
    exact hs
  fire := fun s nr v hs => hs
  call := by
    intro p h s sender origin msg r hr
    refine ⟨fun hs => hr.committers_mono pp hs, ?_⟩
    intro m hm he
    cases m with
    | commit m =>
      have hpp : m.pre = pp := of_decide_eq_true he
      obtain ⟨hdown, hup⟩ := hr.commit_resp hm
      rw [hpp] at hdown hup
      exact ⟨hdown, hup⟩
    | _ => exact absurd he (by simp [commitsTo])

/-- The messages that are neither proposals nor view changes are responses. -/
theorem countP_emitted {E : Message → Bool} (hp : ∀ m, E (.prePrepare m) = false)
    (hvc : ∀ m, E (.viewChange m) = false) (bs : List Block) :
    (emitted bs).countP E = (responses (callsOf bs)).countP E := by
  induction bs with
  | nil => rfl
  | cons b bs ih =>
    have hfirst : b.first.countP E = 0 := by
      rw [countP_eq_zero]
      intro m hm he
      refine b.not_mem_first (m := m) ?_ ?_ hm
      · intro vc heq
        rw [heq, hvc vc] at he
        cases he
      intro heq
      rw [heq, Entry.proposal, hp] at he
      cases he
    show (emitted bs ++ b.state.out).countP E = (responses (callsOf bs ++ b.calls)).countP E
    rw [b.out_eq, responses_append, countP_append, countP_append, countP_append,
      hfirst, ih, Nat.zero_add]

/-- What has been put out has raised its guard, at every later call. -/
theorem Guards.raised {author round : Nat} {G : State → Prop} {E : Message → Bool}
    (hg : Guards author round G E) (hp : ∀ m, E (.prePrepare m) = false)
    (hvc : ∀ m, E (.viewChange m) = false) (hc : Chain bs) (hauthor : ∀ b ∈ bs, b.author = author)
    {b : Block} {rest : List Block} (hs : (b :: rest) <:+ bs) (hu : Unpruned round (b :: rest))
    (hm : m ∈ emitted rest) (he : E m = true) {c : Call} (hcall : c ∈ b.calls) : G c.state := by
  have hrule := Chain.rule (I := fun l em s => Unpruned round l → (∃ m ∈ em, E m = true) → G s) hc
    ?start ?clone ?frame ?propose ?fire ?call
  case start => simp
  case clone =>
    intro b a rest _ ih hu hem
    apply hg.clone _ _ (hu b mem_cons_self)
    exact ih (fun x hx => hu x (mem_cons_of_mem b hx)) hem
  case frame =>
    intro _ em s s' hv ih hu hem
    exact hg.same s s' hv (ih hu hem)
  case propose =>
    intro b rest s _ _ ih hu hem
    obtain ⟨m, hm, he⟩ := hem
    rcases mem_append.mp hm with hm | hm
    · exact ih hu ⟨m, hm, he⟩
    · rw [mem_singleton.mp hm, show E b.entry.proposal = false from hp _] at he
      cases he
  case fire =>
    intro b rest em s t _ _ _ ih hu hem
    obtain ⟨m, hm, he⟩ := hem
    rcases mem_append.mp hm with hm | hm
    · exact hg.fire s _ _ (ih hu ⟨m, hm, he⟩)
    · rw [mem_singleton.mp hm, hvc] at he
      cases he
  case call =>
    intro b rest pre c post hs _ ih r hr hresp hu hem
    rw [hauthor b (hs.subset mem_cons_self)] at hr
    obtain ⟨hstays, hevent⟩ := hg.call _ _ _ _ _ _ _ hr
    obtain ⟨m, hm, he⟩ := hem
    rcases mem_append.mp hm with hm | hm
    · exact hstays (ih hu ⟨m, hm, he⟩)
    · rw [hresp] at hm
      exact (hevent m (Option.mem_toList.mp hm) he).2
  obtain ⟨pre, post, hsplit⟩ := append_of_mem hcall
  apply (hrule b rest hs).2 pre c post hsplit hu
  exact ⟨m, mem_append_left _ (mem_append_left _ hm), he⟩

/-! ## §3. What reaches a chain in a view. -/

/-- The rounds of a chain go up by one from block to block. -/
theorem Chain.rounds (hc : Chain bs) :
    bs.Pairwise (fun b a => a.entry.block.round < b.entry.block.round) := by
  induction hc with
  | start => exact pairwise_singleton _ _
  | @next b a rest hf _ ih =>
    have hround := hf.round
    refine pairwise_cons.mpr ⟨forall_mem_cons.mpr ⟨by omega, ?_⟩, ih⟩
    intro x hx
    have hlt := rel_of_pairwise_cons ih hx
    omega

section Agree
variable {m' : Message} {h' : Hash}

end Agree

end Chainspace.Blockmania
