/-
  Chainspace.Blockmania.Agree — states that agree on the rounds from one round on.

  Two states, each with a heap of its own, agree from round `R` on if they hold the same votes,
  views and decisions about those rounds. A reference counts as what it refers to; `T` compares the
  timeouts under a key. A call on a message about `R` or later does the same to both
  (`react_agree`).
-/
import Chainspace.Blockmania.Heap
import Chainspace.Lib.Lockstep

namespace Chainspace.Blockmania

open Chainspace.Lib

/-! ## §1. Definitions. -/

structure AgreeAbout (nr : NodeRound) (h : Heap) (s : State) (h' : Heap) (s' : State) : Prop where
  view : s'.data.view nr = s.data.view nr
  bitsets : ∀ hash v,
    s'.bitsets ⟨hash, nr.node, nr.round, v⟩ = s.bitsets ⟨hash, nr.node, nr.round, v⟩
  dataFinal : s'.data.final nr = s.data.final nr
  hnv : ∀ v, s'.data.hnv ⟨nr.node, nr.round, v⟩ = s.data.hnv ⟨nr.node, nr.round, v⟩
  prepared : ∀ v, s'.data.prepared ⟨nr.node, nr.round, v⟩ = s.data.prepared ⟨nr.node, nr.round, v⟩
  prePrepared : ∀ v,
    s'.data.prePrepared ⟨nr.node, nr.round, v⟩ = s.data.prePrepared ⟨nr.node, nr.round, v⟩
  final : s'.final nr = s.final nr
  filed : ∀ v, (s'.data.viewChanged ⟨nr.node, nr.round, v⟩).isSome =
    (s.data.viewChanged ⟨nr.node, nr.round, v⟩).isSome
  votes : ∀ v, vcContent h' s' ⟨nr.node, nr.round, v⟩ = vcContent h s ⟨nr.node, nr.round, v⟩

/-- **The states agree from round `R` on**, with the same delays and view timeout. -/
structure Agree (R : Nat) (T : Nat → List Timeout → List Timeout → Prop) (h : Heap) (s : State)
    (h' : Heap) (s' : State) : Prop where
  about : ∀ nr, R ≤ nr.round → AgreeAbout nr h s h' s'
  delay : s'.delay = s.delay
  timeout : s'.timeout = s.timeout
  timeouts : ∀ k, T k (h.read k (s.timeouts k)) (h'.read k (s'.timeouts k))

/-- A comparison of timeouts that survives `append`. -/
def Appends (T : Nat → List Timeout → List Timeout → Prop) : Prop :=
  ∀ k l l' t, T k l l' → T k (l ++ [t]) (l' ++ [t])

section Basic
variable {h h' : Heap} {s s' : State}

theorem AgreeAbout.viewOf {nr : NodeRound} (ha : AgreeAbout nr h s h' s') :
    s'.viewOf nr = s.viewOf nr := congrArg (·.getD 0) ha.view

theorem AgreeAbout.getBitset {nr : NodeRound} (ha : AgreeAbout nr h s h' s') (size : Nat)
    {pp : PrePrepare} (hpp : (⟨pp.node, pp.round⟩ : NodeRound) = nr) :
    s'.getBitset size pp = s.getBitset size pp := by
  subst hpp
  exact congrArg (·.getD (newBitset size)) (ha.bitsets pp.hash pp.view)

end Basic

/-! ## §2. The operations on a state. -/

section Operations
variable {R : Nat} {T : Nat → List Timeout → List Timeout → Prop} {h h' : Heap} {s s' : State}

section
variable (ha : Agree R T h s h' s')
include ha

theorem Agree.touch {k : NodeRound} (hk : R ≤ k.round) :
    Agree R T h (s.touch k) h' (s'.touch k) where
  about := by
    intro nr hr
    have hab := ha.about nr hr
    have hview : (s'.touch k).data.view nr = (s.touch k).data.view nr := by
      rw [State.touch_view, State.touch_view, (ha.about k hk).viewOf, hab.view]
    have hvotes : ∀ v, vcContent h' (s'.touch k) ⟨nr.node, nr.round, v⟩ =
        vcContent h (s.touch k) ⟨nr.node, nr.round, v⟩ := by
      intro v
      have hv := hab.votes v
      unfold vcContent at hv ⊢
      rw [State.touch_viewChanged, State.touch_viewChanged]
      exact hv
    exact ⟨hview, by simpa using hab.bitsets, by simpa using hab.dataFinal,
      by simpa using hab.hnv, by simpa using hab.prepared, by simpa using hab.prePrepared,
      by simpa using hab.final, by simpa using hab.filed, hvotes⟩
  delay := by simpa using ha.delay
  timeout := by simpa using ha.timeout
  timeouts := by simpa using ha.timeouts

theorem Agree.putBitset (pp : PrePrepare) (b : Bitset) :
    Agree R T h (s.putBitset pp b) h' (s'.putBitset pp b) :=
  { ha with
    about := fun nr hr =>
      { ha.about nr hr with
        bitsets := by
          intro hash v
          rw [State.putBitset_bitsets, State.putBitset_bitsets, PMap.set_apply, PMap.set_apply,
            (ha.about nr hr).bitsets hash v] } }

theorem Agree.putView (k : NodeRound) (v : Nat) :
    Agree R T h (s.putView k v) h' (s'.putView k v) :=
  { ha with
    about := fun nr hr =>
      { ha.about nr hr with
        view := by
          rw [State.putView_view, State.putView_view, PMap.set_apply, PMap.set_apply,
            (ha.about nr hr).view] } }

theorem Agree.acceptPrePrepare (m : PrePrepare) (b : Bitset) :
    Agree R T h (s.acceptPrePrepare m b) h' (s'.acceptPrePrepare m b) :=
  { ha.putBitset m b with
    about := fun nr hr =>
      { (ha.putBitset m b).about nr hr with
        prePrepared := by
          intro v
          rw [acceptPrePrepare_prePrepared, acceptPrePrepare_prePrepared, PMap.set_apply,
            PMap.set_apply, (ha.about nr hr).prePrepared v] } }

/-- The first hash prepared in a view of a live round is the same for both. -/
theorem Agree.notePrepared {key : NodeRoundView} (hkey : R ≤ key.round)
    (hash : Hash) : Agree R T h (s.notePrepared key hash) h' (s'.notePrepared key hash) := by
  have hat : s'.data.prepared key = s.data.prepared key :=
    (ha.about ⟨key.node, key.round⟩ hkey).prepared key.view
  unfold State.notePrepared
  rw [hat]
  split
  · exact ha
  exact { ha with
    about := fun nr hr =>
      { ha.about nr hr with
        prepared := by
          intro v
          show s'.data.prepared.set key hash _ = s.data.prepared.set key hash _
          rw [PMap.set_apply, PMap.set_apply, (ha.about nr hr).prepared v] } }

theorem Agree.decide (m : Commit) (b : Bitset) :
    Agree R T h (s.decide m b) h' (s'.decide m b) :=
  { ha.putBitset m.pre b with
    about := fun nr hr =>
      { (ha.putBitset m.pre b).about nr hr with
        final := by
          rw [decide_final, decide_final, PMap.set_apply, PMap.set_apply,
            (ha.about nr hr).final] } }

end

theorem vcObject_view (h : Heap) (s : State) (key : NodeRoundView) :
    (vcObject h s key).2.1.data.view = s.data.view := by
  unfold vcObject
  split <;> rfl

theorem vcObject_delay (h : Heap) (s : State) (key : NodeRoundView) :
    (vcObject h s key).2.1.delay = s.delay ∧ (vcObject h s key).2.1.timeout = s.timeout := by
  unfold vcObject
  split <;> exact ⟨rfl, rfl⟩

theorem Agree.fileVote (ha : Agree R T h s h' s') (v : Nat) (m : ViewChange) :
    Agree R T (fileVote h s v m).1 (fileVote h s v m).2.1 (fileVote h' s' v m).1
      (fileVote h' s' v m).2.1 where
  about := by
    intro nr hr
    have hab := ha.about nr hr
    refine ⟨?_, by simpa using hab.bitsets, by simpa using hab.dataFinal,
      by simpa using hab.hnv, by simpa using hab.prepared, by simpa using hab.prePrepared,
      by simpa using hab.final, ?_, ?_⟩
    · rw [fileVote_state, fileVote_state, vcObject_view, vcObject_view, hab.view]
    · intro w
      rw [fileVote_state, fileVote_state, vcObject_viewChanged, vcObject_viewChanged]
      split
      · rfl
      · exact hab.filed w
    · intro w
      rw [vcContent_fileVote, vcContent_fileVote, hab.votes w]
  delay := by
    rw [fileVote_state, fileVote_state, (vcObject_delay h s _).1, (vcObject_delay h' s' _).1,
      ha.delay]
  timeout := by
    rw [fileVote_state, fileVote_state, (vcObject_delay h s _).2, (vcObject_delay h' s' _).2,
      ha.timeout]
  timeouts := by
    intro k
    have hk := ha.timeouts k
    unfold Heap.read at hk ⊢
    rw [fileVote_state, fileVote_state, vcObject_timeouts, vcObject_timeouts, fileVote_cells,
      fileVote_cells]
    exact hk

theorem Agree.fileVote_map (ha : Agree R T h s h' s') {m : ViewChange} (hm : R ≤ m.round)
    (v : Nat) :
    (Blockmania.fileVote h' s' v m).2.2 = (Blockmania.fileVote h s v m).2.2 := by
  rw [Blockmania.fileVote_map, Blockmania.fileVote_map, (ha.about ⟨m.node, m.round⟩ hm).votes v]

theorem vcContent_addTimeout (grow : Nat → Nat) (k : Nat) (h : Heap) (s st : State) (t : Timeout)
    (key : NodeRoundView) :
    vcContent (addTimeout grow k (h, s) t).1 st key = vcContent h st key := by
  unfold vcContent
  have hvcs : (addTimeout grow k (h, s) t).1.vcs = h.vcs :=
    Heap.append_vcs grow h k (s.timeouts k) t
  rw [hvcs]

theorem Agree.addTimeout (hT : Appends T) (ha : Agree R T h s h' s') (grow : Nat → Nat) (k : Nat)
    (t : Timeout) :
    Agree R T (addTimeout grow k (h, s) t).1 (addTimeout grow k (h, s) t).2
      (addTimeout grow k (h', s') t).1 (addTimeout grow k (h', s') t).2 where
  about := fun nr hr =>
    { ha.about nr hr with
      votes := by
        intro v
        rw [vcContent_addTimeout, vcContent_addTimeout]
        exact (ha.about nr hr).votes v }
  delay := ha.delay
  timeout := ha.timeout
  timeouts := by
    intro k'
    rw [read_addTimeout, read_addTimeout]
    split
    · exact hT k' _ _ t (ha.timeouts k')
    · exact ha.timeouts k'

theorem Agree.enterView (hT : Appends T) (ha : Agree R T h s h' s') (p : Params)
    (origin : BlockID) (m : NewView) :
    Agree R T (enterView p h s origin m).1 (enterView p h s origin m).2
      (enterView p h' s' origin m).1
      (enterView p h' s' origin m).2 := by
  have hadd := (ha.putView ⟨m.node, m.round⟩ m.view).addTimeout hT p.grow
    ((origin.round + s.timeout + 5) % 2 ^ 64) ⟨m.node, m.round, m.view⟩
  unfold Blockmania.enterView
  rw [ha.timeout]
  exact { hadd with
    about := fun nr hr =>
      { hadd.about nr hr with
        hnv := by
          intro v
          show s'.data.hnv.set _ true _ = s.data.hnv.set _ true _
          rw [PMap.set_apply, PMap.set_apply, (ha.about nr hr).hnv v] } }

end Operations

/-! ## §3. A call. -/

section Call
variable {R : Nat} {T : Nat → List Timeout → List Timeout → Prop} {p : Params} {h h' : Heap}
  {s s' : State} {sender receiver : Nat} {origin : BlockID} {msg : Message}

/-- The reactions leave states that agree, and are the same to the outside. -/
structure SameReaction (R : Nat) (T : Nat → List Timeout → List Timeout → Prop)
    (r r' : Reaction) : Prop where
  state : Agree R T r.heap r.state r'.heap r'.state
  resp : r'.resp = r.resp
  decided : r'.decided = r.decided

section
variable (ha : Agree R T h s h' s')
include ha

theorem SameReaction.quiet :
    SameReaction R T (.quiet h s) (.quiet h' s') := ⟨ha, rfl, rfl⟩

theorem onPrePrepare_agree {m : PrePrepare} (hm : R ≤ m.round) (v : Nat) :
    Both (SameReaction R T) (onPrePrepare p h s v sender receiver m)
      (onPrePrepare p h' s' v sender receiver m) := by
  have hab := ha.about ⟨m.node, m.round⟩ hm
  unfold onPrePrepare
  dsimp only
  rw [hab.prePrepared m.view, hab.getBitset p.nodeCount rfl]
  by_cases hv : v ≠ m.view
  · rw [if_pos hv, if_pos hv]
    exact .quiet ha
  rw [if_neg hv]
  split
  · exact .quiet ha
  refine Both.bind (Both.same _) ?_
  rintro b _ _ _ rfl
  refine Both.bind (Both.same _) ?_
  rintro b' _ _ _ rfl
  exact ⟨ha.acceptPrePrepare m b', rfl, rfl⟩

theorem onPrepare_agree {m : Prepare} (hm : R ≤ m.round) (v : Nat) :
    Both (SameReaction R T) (onPrepare p h s v receiver m) (onPrepare p h' s' v receiver m) := by
  have hab := ha.about ⟨m.node, m.round⟩ hm
  unfold onPrepare
  rw [show s'.getBitset p.nodeCount m.pre = s.getBitset p.nodeCount m.pre from
    hab.getBitset p.nodeCount rfl]
  by_cases hv : v > m.view
  · rw [if_pos hv, if_pos hv]
    exact .quiet ha
  rw [if_neg hv, if_neg hv]
  refine Both.bind (Both.same _) ?_
  rintro b _ _ _ rfl
  have hput := ha.putBitset m.pre b
  by_cases hlt : v < m.view
  · rw [if_pos hlt, if_pos hlt]
    exact .quiet hput
  rw [if_neg hlt, if_neg hlt]
  by_cases hq : b.prepareCount ≠ p.quorum2f1
  · rw [if_pos hq, if_pos hq]
    exact .quiet hput
  rw [if_neg hq, if_neg hq]
  refine Both.bind (Both.same _) ?_
  rintro has _ _ _ rfl
  cases has with
  | true => exact .quiet hput
  | false =>
    refine Both.bind (Both.same _) ?_
    rintro b' _ _ _ rfl
    exact ⟨@Agree.notePrepared _ _ _ _ _ _ (hput.putBitset m.pre b') ⟨m.node, m.round, m.view⟩ hm
      m.hash, rfl, rfl⟩

theorem onCommit_agree {m : Commit} (hm : R ≤ m.round) (v : Nat) :
    Both (SameReaction R T) (onCommit p h s v m) (onCommit p h' s' v m) := by
  have hab := ha.about ⟨m.node, m.round⟩ hm
  unfold onCommit
  dsimp only
  rw [show s'.getBitset p.nodeCount m.pre = s.getBitset p.nodeCount m.pre from
    hab.getBitset p.nodeCount rfl]
  by_cases hv : v < m.view
  · rw [if_pos hv, if_pos hv]
    exact .quiet ha
  rw [if_neg hv, if_neg hv]
  refine Both.bind (Both.same _) ?_
  rintro b _ _ _ rfl
  have hput := ha.putBitset m.pre b
  by_cases hq : b.commitCount ≠ p.quorum2f1
  · rw [if_pos hq, if_pos hq]
    exact .quiet hput
  rw [if_neg hq, State.putBitset_final, State.putBitset_final, hab.final]
  split
  · exact .quiet hput
  · exact ⟨ha.decide m b, rfl, rfl⟩

theorem onViewChange_agree {m : ViewChange} (hm : R ≤ m.round) (v : Nat) :
    Both (SameReaction R T) (onViewChange p h s v receiver m)
      (onViewChange p h' s' v receiver m) := by
  have hmap := ha.fileVote_map hm v
  have hfile := ha.fileVote v m
  unfold onViewChange
  by_cases hv : v > m.view
  · rw [if_pos hv, if_pos hv]
    exact .quiet ha
  rw [if_neg hv, if_neg hv]
  show Both (SameReaction R T)
    (if (fileVote h s v m).2.2.entries.length ≠ p.quorum2f1 then _ else _)
    (if (fileVote h' s' v m).2.2.entries.length ≠ p.quorum2f1 then _ else _)
  rw [hmap]
  by_cases hq : (fileVote h s v m).2.2.entries.length ≠ p.quorum2f1
  · rw [if_pos hq, if_pos hq]
    exact .quiet hfile
  rw [if_neg hq, if_neg hq]
  show Both (SameReaction R T)
    (newViewHash m.node m.round [] ((fileVote h s v m).2.2.entries.map (·.2)) >>= _)
    (newViewHash m.node m.round [] ((fileVote h' s' v m).2.2.entries.map (·.2)) >>= _)
  rw [hmap]
  refine Both.bind (Both.same _) ?_
  rintro _ _ _ _ rfl
  exact ⟨hfile.putView ⟨m.node, m.round⟩ m.view, rfl, rfl⟩

end

theorem onNewView_agree (hT : Appends T) (ha : Agree R T h s h' s') {m : NewView}
    (hm : R ≤ m.round) (v : Nat) :
    Both (SameReaction R T) (onNewView p h s v origin m) (onNewView p h' s' v origin m) := by
  have hab := ha.about ⟨m.node, m.round⟩ hm
  unfold onNewView
  dsimp only
  rw [hab.hnv m.view]
  by_cases hv : v > m.view
  · rw [if_pos hv, if_pos hv]
    exact .quiet ha
  rw [if_neg hv]
  split
  · exact .quiet ha
  · exact ⟨ha.enterView hT p origin m, rfl, rfl⟩

/-- **A call on a live message does the same to states that agree.** -/
theorem react_agree (hT : Appends T) (ha : Agree R T h s h' s') (hlive : R ≤ msg.round) :
    Both (SameReaction R T) (react p h s sender receiver origin msg)
      (react p h' s' sender receiver origin msg) := by
  have hab := ha.about msg.nodeRound hlive
  have htouch := ha.touch (k := msg.nodeRound) hlive
  unfold react
  rw [State.getView_eq, State.getView_eq, hab.dataFinal, hab.viewOf]
  split
  · exact .quiet ha
  cases msg with
  | prePrepare => exact onPrePrepare_agree htouch hlive _
  | prepare => exact onPrepare_agree htouch hlive _
  | commit => exact onCommit_agree htouch hlive _
  | viewChange => exact onViewChange_agree htouch hlive _
  | newView => exact onNewView_agree hT htouch hlive _

end Call

end Chainspace.Blockmania
