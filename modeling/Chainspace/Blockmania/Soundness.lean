/-
  Chainspace.Blockmania.Soundness — every hash a state records is one the DAG allows.

  In view 0 a chain counts votes the DAG shows, so a hash prepared there is backed; from then on
  hashes only travel from record to record. A hash can appear from nowhere in two places only: at a
  timeout that fires without a prepared hash, and at a proposal of view 0 that is not the first the
  chain has come across. Both are excluded by assumption in the module that follows (`SafeTimeouts`,
  `Dag.RefersOnce`); here a message that a block processes is `Given` as they leave it.

  Main results:
    • `Reacts.sound` — a call on sound records and a sound message leaves sound records.
    • `deliver_sound` — a decision with an allowed hash never clashes with one on file.
    • `InBlock.call` — the invariant of a block in progress, for every call.
-/
import Chainspace.Blockmania.Dag
import Chainspace.Blockmania.Heap

namespace Chainspace.Blockmania

open Chainspace.Lib

/-! ## §1. Sound records. -/

theorem newViewHash_all {node round : Nat} {x acc : Hash} {l : List Hash} (hl : ∀ y ∈ l, y = x)
    (hacc : acc = [] ∨ acc = x) :
    newViewHash node round acc l = .ok (if l = [] then acc else x) := by
  induction l generalizing acc with
  | nil => rfl
  | cons y l ih =>
    have hrest : ∀ y ∈ l, y = x := fun z hz => hl z (List.mem_cons_of_mem y hz)
    rw [hl y List.mem_cons_self]
    unfold newViewHash
    by_cases hx : x = []
    · rw [if_neg (not_not.mpr hx), ih hrest hacc]
      have hacc : acc = x := by
        rcases hacc with hacc | hacc
        · rw [hacc, hx]
        · exact hacc
      simp [hacc]
    have hsame : ¬ (acc ≠ [] ∧ x ≠ acc) := by
      rintro ⟨h1, h2⟩
      rcases hacc with hacc | hacc
      · exact h1 hacc
      · exact h2 hacc.symm
    rw [if_pos hx, if_neg hsame, ih hrest (.inr rfl)]
    simp

section Defs
variable (D : Dag) (nodes : List Nat) (f : Nat)

/-- What a state records about `nr` is sound: the view-0 votes it counts are in the DAG, and its
prepared or decided hashes are allowed. -/
structure SoundState (nr : NodeRound) (s : State) : Prop where
  bits : ∀ hash b, s.bitsets ⟨hash, nr.node, nr.round, 0⟩ = some b →
    ∀ x ∈ b.preparers, x ∈ nodes ∧ D.Votes nr x hash
  prepared : ∀ v hash, s.data.prepared ⟨nr.node, nr.round, v⟩ = some hash →
    D.Allowed nodes f nr hash
  final : ∀ hash, s.final nr = some hash → D.Allowed nodes f nr hash

/-- The view-change votes on file carry allowed hashes. -/
def SoundVcs (nr : NodeRound) (h : Heap) : Prop :=
  ∀ v i, ∀ e ∈ (h.vcs ⟨nr.node, nr.round, v⟩ i).entries, D.Allowed nodes f nr e.2

/-- What a message about `nr` says is sound; for proposals of view 0 see `Given`. -/
def SoundMsg (nr : NodeRound) : Message → Prop
  | .prePrepare m => m.view ≠ 0 → D.Allowed nodes f nr m.hash
  | .prepare m =>
      if m.view = 0 then m.sender ∈ nodes ∧ D.Votes nr m.sender m.hash
      else D.Allowed nodes f nr m.hash
  | .commit m => D.Allowed nodes f nr m.hash
  | .viewChange m => m.view ≠ 0 ∧ D.Allowed nodes f nr m.hash
  | .newView m => m.view ≠ 0 ∧ D.Allowed nodes f nr m.hash

end Defs

section Sound
variable {D : Dag} {nodes : List Nat} {f : Nat} {nr : NodeRound} {s s' : State} {h h' : Heap}

theorem soundState_empty (D : Dag) (nodes : List Nat) (f : Nat) (nr : NodeRound) :
    SoundState D nodes f nr State.empty :=
  ⟨fun _ _ hb => absurd hb (by simp [State.empty]),
    fun _ _ hp => absurd hp (by simp [State.empty, StateKV.empty]),
    fun _ hf => absurd hf (by simp [State.empty])⟩

theorem SoundState.congr (hs : SoundState D nodes f nr s)
    (hb : ∀ hash, s'.bitsets ⟨hash, nr.node, nr.round, 0⟩ = s.bitsets ⟨hash, nr.node, nr.round, 0⟩)
    (hp : ∀ v, s'.data.prepared ⟨nr.node, nr.round, v⟩ = s.data.prepared ⟨nr.node, nr.round, v⟩)
    (hf : s'.final nr = s.final nr) : SoundState D nodes f nr s' where
  bits := fun hash b hb' => hs.bits hash b (hb hash ▸ hb')
  prepared := fun v hash hp' => hs.prepared v hash (hp v ▸ hp')
  final := fun hash hf' => hs.final hash (hf ▸ hf')

/-- A clone keeps some of the records and adds none. -/
theorem SoundState.clone (hs : SoundState D nodes f nr s) (minround : Nat) :
    SoundState D nodes f nr (clone (some s) minround) where
  bits := fun hash b hb =>
    hs.bits hash b (PMap.of_restrict (p := fun k : PrePrepare => minround.ble k.round) hb)
  prepared := fun v hash hp =>
    hs.prepared v hash (PMap.of_restrict (p := fun k : NodeRoundView => minround.ble k.round) hp)
  final := fun hash hf =>
    hs.final hash (PMap.of_restrict (p := fun k : NodeRound => minround.ble k.round) hf)

theorem SoundState.getBitset (hs : SoundState D nodes f nr s) (size : Nat) (hash : Hash) {x : Nat}
    (hx : x ∈ (s.getBitset size ⟨hash, nr.node, nr.round, 0⟩).preparers) :
    x ∈ nodes ∧ D.Votes nr x hash := by
  unfold State.getBitset at hx
  cases hb : s.bitsets ⟨hash, nr.node, nr.round, 0⟩ with
  | none =>
    rw [hb] at hx
    simp at hx
  | some b =>
    rw [hb] at hx
    exact hs.bits hash b hb x hx

theorem SoundState.putBitset (hs : SoundState D nodes f nr s) {pp : PrePrepare} {b : Bitset}
    (hb : pp.view = 0 → pp.node = nr.node → pp.round = nr.round →
      ∀ x ∈ b.preparers, x ∈ nodes ∧ D.Votes nr x pp.hash) :
    SoundState D nodes f nr (s.putBitset pp b) where
  bits := by
    intro hash b' hb'
    by_cases hpp : (⟨hash, nr.node, nr.round, 0⟩ : PrePrepare) = pp
    · subst hpp
      rw [State.putBitset_bitsets, PMap.set_self] at hb'
      cases hb'
      exact hb rfl rfl rfl
    · rw [State.putBitset_bitsets, PMap.set_ne _ _ hpp] at hb'
      exact hs.bits hash b' hb'
  prepared := hs.prepared
  final := hs.final

theorem allowed_of_quorum (hD : D.Shard nodes f) {hash : Hash} {b : Bitset}
    (hb : ∀ x ∈ b.preparers, x ∈ nodes ∧ D.Votes nr x hash) (hq : b.prepareCount = 2 * f + 1) :
    D.Allowed nodes f nr hash := by
  have hbacked : D.Backed nodes f nr hash := by
    refine ⟨b.preparers, ?_, ?_, fun x hx => (hb x hx).2⟩
    · intro x hx
      exact List.mem_toFinset.mpr (hb x hx).1
    · rw [← Bitset.prepareCount_eq_card, hq]
  exact ⟨hD.author _ (hD.backed_mem hbacked), .inl hbacked⟩

theorem SoundVcs.fileVote (hv : SoundVcs D nodes f nr h) {m : ViewChange} {v : Nat}
    (hm : D.Allowed nodes f nr m.hash) (hnr : (⟨m.node, m.round⟩ : NodeRound) = nr) :
    SoundVcs D nodes f nr (fileVote h s v m).1 ∧
      ∀ e ∈ (fileVote h s v m).2.2.entries, D.Allowed nodes f nr e.2 := by
  subst hnr
  have hmap : ∀ e ∈ (Blockmania.fileVote h s v m).2.2.entries,
      D.Allowed nodes f ⟨m.node, m.round⟩ e.2 := by
    intro e he
    rw [fileVote_map] at he
    rcases List.mem_cons.mp he with heq | he
    · rw [heq]
      exact hm
    have he := (List.kerase_sublist _ _).subset he
    unfold vcContent at he
    split at he
    next i _ => exact hv v i e he
    · exact absurd he (by simp [EmptyCollection.emptyCollection])
  refine ⟨?_, hmap⟩
  intro v' i e he
  rw [fileVote_vcs] at he
  split at he
  · exact hmap e he
  · exact hv v' i e he

end Sound

/-! ## §2. One call. -/

section Step
variable {D : Dag} {nodes : List Nat} {f : Nat} {nr : NodeRound} {p : Params} {h : Heap} {s : State}
  {sender : Nat} {c : BlockID} {msg : Message} {r : Reaction}

/-- What is known about a message that block `c` processes for `sender`: a proposal of view 0 is of
the sender's own block, and that is the block the chain of `c` has come across first. -/
structure Given (D : Dag) (nodes : List Nat) (f : Nat) (c : BlockID) (sender : Nat) (m : Message) :
    Prop where
  sound : SoundMsg D nodes f m.nodeRound m
  proposal : ∀ pp, m = .prePrepare pp → pp.view = 0 → sender = pp.node ∧
    (⟨pp.hash, pp.node, pp.round⟩ : BlockID) ∈ D.blocks ∧
    D.seen ⟨pp.node, pp.round⟩ c = some pp.hash

/-- What a call guarantees about `nr`. -/
structure SoundReaction (D : Dag) (nodes : List Nat) (f : Nat) (nr : NodeRound) (r : Reaction) :
    Prop where
  state : SoundState D nodes f nr r.state
  vcs : SoundVcs D nodes f nr r.heap
  resp : ∀ m, r.resp = some m → SoundMsg D nodes f nr m ∧ ∀ pp, m = .prePrepare pp → pp.view ≠ 0
  decided : ∀ hash, r.decided = some hash → D.Allowed nodes f nr hash

theorem SoundReaction.quiet {s' : State} (hv : SoundVcs D nodes f nr h)
    (hs : SoundState D nodes f nr s') : SoundReaction D nodes f nr (.quiet h s') :=
  ⟨hs, hv, fun _ hm => absurd hm (by simp [Reaction.quiet]),
    fun _ hh => absurd hh (by simp [Reaction.quiet])⟩

theorem SoundState.prepareVotes (hs : SoundState D nodes f nr s) {size : Nat} {m : Prepare}
    {b : Bitset} (hb : (s.getBitset size m.pre).setPrepare m.sender = some b)
    (hnr : (⟨m.node, m.round⟩ : NodeRound) = nr) (h0 : m.view = 0)
    (hm : m.sender ∈ nodes ∧ D.Votes nr m.sender m.hash) :
    ∀ x ∈ b.preparers, x ∈ nodes ∧ D.Votes nr x m.hash := by
  subst hnr
  intro x hx
  rw [Bitset.preparers_setPrepare hb] at hx
  rcases Finset.mem_insert.mp hx with heq | hx
  · exact heq ▸ hm
  have hpre : m.pre = ⟨m.hash, m.node, m.round, 0⟩ := by
    unfold Prepare.pre
    rw [h0]
  rw [hpre] at hx
  exact hs.getBitset size m.hash hx

theorem SoundState.commitVotes (hs : SoundState D nodes f nr s) {size : Nat} {m : Commit}
    {b : Bitset} (hb : (s.getBitset size m.pre).setCommit m.sender = some b) {s' : State}
    (hs' : SoundState D nodes f nr s') : SoundState D nodes f nr (s'.putBitset m.pre b) := by
  refine hs'.putBitset ?_
  intro h0 hn hr x hx
  rw [Bitset.preparers_setCommit hb] at hx
  have hpre : m.pre = ⟨m.hash, nr.node, nr.round, 0⟩ := by
    unfold Commit.pre at h0 hn hr ⊢
    rw [← h0, ← hn, ← hr]
  rw [hpre] at hx
  exact hs.getBitset size m.hash hx

/-- **A call on sound records and a sound message is sound.** -/
theorem Reacts.sound (hD : D.Shard nodes f) (hc : c ∈ D.blocks) (hq : p.quorum2f1 = 2 * f + 1)
    (hr : Reacts p h s sender c.node c msg r)
    (hs : SoundState D nodes f nr s) (hv : SoundVcs D nodes f nr h) (hnr : msg.nodeRound = nr)
    (hm : Given D nodes f c sender msg) : SoundReaction D nodes f nr r := by
  obtain ⟨hsound, hprop⟩ := hm
  rw [hnr] at hsound
  have htouch : ∀ k, SoundState D nodes f nr (s.touch k) := fun k =>
    hs.congr (by simp) (by simp) (by simp)
  cases hr with
  | closed => exact .quiet hv hs
  | prePrepareStale | prepareOld | commitEarly | viewChangeOld
  | newViewStale => exact .quiet hv (htouch _)
  | prePrepareAccepted m b b' _ _ hb hb' =>
    subst hnr
    -- In view 0 the sender is the author of the block and the receiver has come across it first.
    have hvote : m.view = 0 → (sender ∈ nodes ∧ D.Votes ⟨m.node, m.round⟩ sender m.hash) ∧
        (c.node ∈ nodes ∧ D.Votes ⟨m.node, m.round⟩ c.node m.hash) := by
      intro h0
      obtain ⟨hsender, hblock, hfirst⟩ := hprop m rfl h0
      refine ⟨⟨hsender ▸ hD.author _ hblock, _, hblock, hsender.symm, ?_⟩,
        hD.author c hc, c, hc, rfl, hfirst⟩
      exact hD.seen_own hblock rfl rfl
    refine ⟨?_, hv, ?_, by simp⟩
    · have hput : SoundState D nodes f ⟨m.node, m.round⟩
          ((s.touch ⟨m.node, m.round⟩).putBitset m b') := by
        refine (htouch _).putBitset ?_
        intro h0 _ _ x hx
        rw [Bitset.preparers_setPrepare hb', Bitset.preparers_setPrepare hb] at hx
        have hvotes := hvote h0
        rcases Finset.mem_insert.mp hx with heq | hx
        · exact heq ▸ hvotes.2
        rcases Finset.mem_insert.mp hx with heq | hx
        · exact heq ▸ hvotes.1
        have hm0 : m = ⟨m.hash, m.node, m.round, 0⟩ := by rw [← h0]
        rw [hm0] at hx
        exact hs.getBitset p.nodeCount m.hash hx
      exact hput.congr (fun _ => rfl) (fun _ => rfl) rfl
    intro m' hm'
    cases hm'
    refine ⟨?_, by simp⟩
    show if m.view = 0 then _ else _
    split
    next h0 => exact (hvote h0).2
    next h0 => exact hsound h0
  | prepareCounted m b _ hb =>
    refine .quiet hv ((htouch _).putBitset ?_)
    intro h0 _ _
    have h0 : m.view = 0 := h0
    have hmsg : if m.view = 0 then _ else _ := hsound
    rw [if_pos h0] at hmsg
    exact hs.prepareVotes hb hnr h0 hmsg
  | prepareQuorum m b b' _ hb hcount _ hb' =>
    -- In view 0 the quorum backs the hash; later it was allowed all along.
    have hmsg : if m.view = 0 then _ else _ := hsound
    have hvotes : m.view = 0 → ∀ x ∈ b.preparers, x ∈ nodes ∧ D.Votes nr x m.hash := by
      intro h0
      rw [if_pos h0] at hmsg
      exact hs.prepareVotes hb hnr h0 hmsg
    have hallowed : D.Allowed nodes f nr m.hash := by
      by_cases h0 : m.view = 0
      · exact allowed_of_quorum hD (hvotes h0) (hcount.trans hq)
      · rwa [if_neg h0] at hmsg
    refine ⟨?_, hv, ?_, by simp⟩
    · have hput : SoundState D nodes f nr
          (((s.touch ⟨m.node, m.round⟩).putBitset m.pre b).putBitset m.pre b') := by
        refine ((htouch _).putBitset ?_).putBitset ?_
        · exact fun h0 _ _ => hvotes h0
        intro h0 _ _ x hx
        rw [Bitset.preparers_setCommit hb'] at hx
        exact hvotes h0 x hx
      refine ⟨?_, ?_, ?_⟩
      · rw [notePrepared_bitsets]
        exact hput.bits
      · intro v hash hp
        rw [notePrepared_prepared] at hp
        split at hp
        next hkey =>
          cases hold : s.data.prepared ⟨m.node, m.round, m.view⟩ with
          | none =>
            have hp : m.hash = hash := by simpa [hold] using hp
            exact hp ▸ hallowed
          | some old =>
            have hp : old = hash := by simpa [hold] using hp
            rw [← hkey] at hold
            exact hp ▸ hs.prepared v old hold
        · exact hput.prepared v hash hp
      · rw [notePrepared_final]
        exact hput.final
    · intro m' hm'
      cases hm'
      exact ⟨hallowed, by simp⟩
  | commitCounted m b _ hb =>
    exact .quiet hv (hs.commitVotes hb (htouch _))
  | commitDecides m b _ hb =>
    refine ⟨?_, hv, by simp, ?_⟩
    · have hput := hs.commitVotes hb (htouch ⟨m.node, m.round⟩)
      refine ⟨hput.bits, hput.prepared, ?_⟩
      intro hash hfin
      rw [decide_final, PMap.set_apply] at hfin
      split at hfin
      · cases hfin
        exact hsound
      · exact hput.final hash hfin
    intro hash hh
    cases hh
    exact hsound
  | viewChangeFiled =>
    exact .quiet (hv.fileVote hsound.2 hnr).1 (hs.congr (by simp) (by simp) (by simp))
  | viewChangeQuorum m hash _ hcount hh =>
    have hfile := hv.fileVote (s := s.touch ⟨m.node, m.round⟩) (v := s.viewOf ⟨m.node, m.round⟩)
      hsound.2 hnr
    -- All hashes reported are the one allowed hash, so the new view carries it.
    have hall : ∀ y ∈ (fileVote h (s.touch ⟨m.node, m.round⟩)
        (s.viewOf ⟨m.node, m.round⟩) m).2.2.entries.map (·.2), y = m.hash := by
      intro y hy
      obtain ⟨e, he, hey⟩ := List.mem_map.mp hy
      exact hey ▸ hD.allowed_unique (hfile.2 e he) hsound.2
    rw [newViewHash_all hall (.inl rfl)] at hh
    injection hh with hh
    refine ⟨hs.congr (by simp) (by simp) (by simp), hfile.1, ?_, by simp⟩
    intro m' hm'
    cases hm'
    exact ⟨⟨hsound.1, hh ▸ hsound.2⟩, by simp⟩
  | newViewAccepted m =>
    refine ⟨hs.congr (by simp) (by simp) (by simp), ?_, ?_, by simp⟩
    · intro v i e he
      have hvcs : (enterView p h (s.touch ⟨m.node, m.round⟩) c m).1.vcs = h.vcs :=
        Heap.append_vcs _ _ _ _ _
      rw [hvcs] at he
      exact hv v i e he
    intro m' hm'
    cases hm'
    refine ⟨fun _ => hsound.2, ?_⟩
    intro pp hpp
    cases hpp
    exact hsound.1

end Step

/-! ## §3. Decisions and reports. -/

/-- The ways the process can end that have nothing to do with agreement. -/
def Harmless (x : Halt) : Prop :=
  ∀ node round, x ≠ .mismatchingHash node round ∧ x ≠ .multipleHashes node round

theorem harmless_index : Harmless .indexOutOfRange :=
  fun _ _ => ⟨by simp, by simp⟩

section Defs
variable (D : Dag) (nodes : List Nat) (f : Nat)

/-- The decisions about the blocks of a round are allowed. -/
def SoundHashes (round : Nat) (hashes : AList (fun _ : Nat => Hash)) : Prop :=
  ∀ node hash, hashes.lookup node = some hash → D.Allowed nodes f ⟨node, round⟩ hash

/-- The decisions on file. -/
def SoundResolved (g : Graph) : Prop :=
  ∀ round hashes, g.resolved.lookup round = some hashes → SoundHashes D nodes f round hashes

/-- The decisions that have been reported, one for each member. -/
def SoundReports (g : Graph) : Prop :=
  ∀ i ∈ g.cb, ∃ hashes : AList (fun _ : Nat => Hash), hashes.entries.length = nodes.length ∧
    SoundHashes D nodes f i.round hashes ∧ i.blocks = decidedBlocks i.round hashes

end Defs

section Deliver
variable {D : Dag} {nodes : List Nat} {f : Nat} {g g' : Graph} {round : Nat}
  {hashes : AList (fun _ : Nat => Hash)}

theorem SoundResolved.finishRound (h : SoundResolved D nodes f g) (data : Interpreted) :
    SoundResolved D nodes f (g.finishRound round data) := by
  intro round' hashes' hlook
  rw [finishRound_resolved] at hlook
  by_cases heq : round' = round
  · rw [heq, AList.lookup_erase] at hlook
    cases hlook
  · rw [AList.lookup_erase_ne heq] at hlook
    exact h round' hashes' hlook

theorem SoundReports.finishRound (h : SoundReports D nodes f g) {info : BlockInfo}
    (hlen : hashes.entries.length = nodes.length) (hhashes : SoundHashes D nodes f round hashes) :
    SoundReports D nodes f (g.finishRound round (g.report info round hashes)) := by
  intro i hi
  rw [finishRound_cb] at hi
  rcases List.mem_append.mp hi with hi | hi
  · exact h i hi
  · rw [List.mem_singleton.mp hi]
    exact ⟨hashes, hlen, hhashes, rfl⟩

theorem deliverRound_sound {fuel : Nat} (hres : SoundResolved D nodes f g)
    (hrep : SoundReports D nodes f g) (hcount : g.params.nodeCount = nodes.length)
    (hlen : hashes.entries.length = nodes.length) (hhashes : SoundHashes D nodes f round hashes)
    (hd : deliverRound fuel g round hashes = .ok g') :
    SoundResolved D nodes f g' ∧ SoundReports D nodes f g' := by
  induction fuel generalizing g round hashes with
  | zero =>
    cases hd
    exact ⟨hres, hrep⟩
  | succ fuel ih =>
    unfold deliverRound at hd
    split at hd
    · cases hd
    next info _ _ =>
      dsimp only at hd
      have hres' : SoundResolved D nodes f (g.finishRound round (g.report info round hashes)) :=
        hres.finishRound _
      have hrep' : SoundReports D nodes f
          (g.finishRound round (g.report info round hashes)) := hrep.finishRound hlen hhashes
      split at hd
      · cases hd
        exact ⟨hres', hrep'⟩
      next hashes' hlook =>
        split at hd
        next hfull =>
          rw [finishRound_params, hcount] at hfull
          exact ih hres' hrep' (by rw [finishRound_params, hcount]) hfull (hres' _ hashes' hlook) hd
        · cases hd
          exact ⟨hres', hrep'⟩

theorem SoundHashes.noteHash {node : Nat} {hash : Hash} (h : SoundHashes D nodes f round hashes)
    (hallowed : D.Allowed nodes f ⟨node, round⟩ hash) :
    SoundHashes D nodes f round (noteHash hashes node hash) := by
  unfold Blockmania.noteHash
  split
  · exact h
  intro node' hash' hlook
  by_cases heq : node' = node
  · subst heq
    rw [AList.lookup_insert] at hlook
    cases hlook
    exact hallowed
  · rw [AList.lookup_insert_ne heq] at hlook
    exact h node' hash' hlook

/-- **A decision with an allowed hash never clashes**, and leaves sound reports. -/
theorem deliver_sound (hD : D.Shard nodes f) {node : Nat} {hash : Hash}
    (hres : SoundResolved D nodes f g) (hrep : SoundReports D nodes f g)
    (hcount : g.params.nodeCount = nodes.length)
    (hallowed : D.Allowed nodes f ⟨node, round⟩ hash) :
    Outcome (fun g' => SoundResolved D nodes f g' ∧ SoundReports D nodes f g') Harmless
      (deliver g node round hash) := by
  have hcur : SoundHashes D nodes f round ((g.resolved.lookup round).getD ∅) := by
    cases hlook : g.resolved.lookup round with
    | none =>
      intro node' hash' h
      cases h
    | some hashes => exact hres round hashes hlook
  refine Outcome.intro ?_ ?_
  · intro g' hd
    rcases deliver_cases hd with ⟨_, hg⟩ | ⟨_, _, hashes, hhashes, hd⟩
    · exact hg ▸ ⟨hres, hrep⟩
    have hsound : SoundHashes D nodes f round hashes := hhashes ▸ hcur.noteHash hallowed
    have hres' : SoundResolved D nodes f
        { g with resolved := g.resolved.insert round hashes } := by
      intro round' hashes' hlook
      by_cases heq : round' = round
      · subst heq
        rw [AList.lookup_insert] at hlook
        cases hlook
        exact hsound
      · rw [AList.lookup_insert_ne heq] at hlook
        exact hres round' hashes' hlook
    rcases hd with ⟨hg, _⟩ | ⟨_, hlen, hd⟩
    · exact hg ▸ ⟨hres', hrep⟩
    · exact deliverRound_sound hres' hrep hcount (hlen.trans hcount) hsound hd
  · intro x hx
    rcases deliver_error hx with hx | ⟨_, _, cur, hlook, hne⟩
    · exact hx ▸ harmless_index
    · exact absurd (hD.allowed_unique (hcur node cur hlook) hallowed) hne

end Deliver

/-! ## §4. A block in progress. -/

section Defs
variable (D : Dag) (nodes : List Nat) (f : Nat)

/-- What is known about a message block `b` puts out: a proposal of view 0 is of `b` itself. -/
def Emitted (b : BlockID) (m : Message) : Prop :=
  SoundMsg D nodes f m.nodeRound m ∧
    ∀ pp, m = .prePrepare pp → pp.view = 0 → b = ⟨pp.hash, pp.node, pp.round⟩

/-- What is known about an answer: no call proposes in view 0. -/
def Answered (m : Message) : Prop :=
  SoundMsg D nodes f m.nodeRound m ∧ ∀ pp, m = .prePrepare pp → pp.view ≠ 0

/-- The stored state and messages of a block `b` of the DAG are sound. -/
structure SoundStored (b : BlockID) (st : State) : Prop where
  mem : b ∈ D.blocks
  out : ∀ m ∈ st.out, Emitted D nodes f b m
  sound : ∀ nr, SoundState D nodes f nr st

/-- **A sound graph**: all it holds and has reported is allowed by the DAG. -/
structure SoundGraph (g : Graph) : Prop where
  quorum : g.params.quorum2f1 = 2 * f + 1
  count : g.params.nodeCount = nodes.length
  vcs : ∀ nr, SoundVcs D nodes f nr g.heap
  stored : ∀ b st, g.statess b = some st → SoundStored D nodes f b st
  resolved : SoundResolved D nodes f g
  reports : SoundReports D nodes f g

/-- What holds between the calls of a block: the graph and the state in progress are sound. -/
structure InBlock (g : Graph) (s : State) : Prop where
  graph : SoundGraph D nodes f g
  state : ∀ nr, SoundState D nodes f nr s

end Defs

section Block
variable {D : Dag} {nodes : List Nat} {f sender : Nat} {c : BlockID} {m : Message} {g : Graph}
  {s : State}

theorem Answered.given (h : Answered D nodes f m) : Given D nodes f c sender m :=
  ⟨h.1, fun pp hpp h0 => absurd h0 (h.2 pp hpp)⟩

theorem Answered.emitted (h : Answered D nodes f m) : Emitted D nodes f c m :=
  ⟨h.1, fun pp hpp h0 => absurd h0 (h.2 pp hpp)⟩

theorem InBlock.react_harmless (hD : D.Shard nodes f) (hI : InBlock D nodes f g s)
    (hm : Given D nodes f c sender m) :
    Outcome (fun r => Reacts g.params g.heap s sender c.node c m r) Harmless
      (react g.params g.heap s sender c.node c m) := by
  refine Outcome.intro (fun r hr => react_cases hr) ?_
  intro x hx
  rcases (react_outcome m).of_error hx with hx | ⟨vc, hvc, _, hnew⟩
  · exact hx ▸ harmless_index
  subst hvc
  exfalso
  -- all hashes on file are the one allowed hash
  obtain ⟨_, hallowed⟩ := hm.sound
  have hfile := (hI.graph.vcs ⟨vc.node, vc.round⟩).fileVote
    (s := s.touch ⟨vc.node, vc.round⟩) (v := s.viewOf ⟨vc.node, vc.round⟩) hallowed rfl
  have hall : ∀ y ∈ (fileVote g.heap (s.touch ⟨vc.node, vc.round⟩)
      (s.viewOf ⟨vc.node, vc.round⟩) vc).2.2.entries.map (·.2), y = vc.hash := by
    intro y hy
    obtain ⟨e, he, hey⟩ := List.mem_map.mp hy
    exact hey ▸ hD.allowed_unique (hfile.2 e he) hallowed
  rw [newViewHash_all hall (.inl rfl)] at hnew
  cases hnew

/-- A decision with an allowed hash leaves the heap alone, keeps the states, and does not clash. -/
theorem SoundGraph.conclude (hD : D.Shard nodes f) (hg : SoundGraph D nodes f g) {h : Heap}
    {decided : Option Hash}
    (hd : ∀ hash, decided = some hash → D.Allowed nodes f m.nodeRound hash) :
    Outcome (fun g' : Graph => SoundResolved D nodes f g' ∧ SoundReports D nodes f g' ∧
        g'.heap = h ∧ Kept { g with heap := h } g') Harmless
      (conclude { g with heap := h } m decided) := by
  cases decided with
  | none => exact ⟨hg.resolved, hg.reports, rfl, Kept.refl _⟩
  | some hash =>
    have hres : SoundResolved D nodes f { g with heap := h } := hg.resolved
    have hdel := deliver_sound hD hres hg.reports hg.count (hd hash rfl)
    refine Outcome.intro ?_ (fun x hx => hdel.of_error hx)
    intro g' hg'
    obtain ⟨hres, hrep⟩ := hdel.of_ok hg'
    exact ⟨hres, hrep, deliver_heap hg', deliver_kept hg'⟩

/-- **Between the calls of a block everything stays sound.** -/
theorem InBlock.call (hD : D.Shard nodes f) (hc : c ∈ D.blocks) (hI : InBlock D nodes f g s)
    (hm : Given D nodes f c sender m) :
    Outcome (fun x : Graph × State × Option Message => InBlock D nodes f x.1 x.2.1 ∧
        ∀ m', x.2.2 = some m' → Answered D nodes f m')
      Harmless (processMessage g s sender c.node c m) := by
  refine Outcome.bind (hI.react_harmless hD hm) ?_
  intro r _ hr
  -- What concerns the message is sound by the call, everything else is as before.
  have hsound : SoundReaction D nodes f m.nodeRound r :=
    hr.sound hD hc hI.graph.quorum (hI.state _) (hI.graph.vcs _) rfl hm
  refine Outcome.bind (hI.graph.conclude hD hsound.decided) ?_
  rintro g' _ ⟨hres, hrep, hheap, hk⟩
  refine ⟨⟨⟨hk.params ▸ hI.graph.quorum, hk.params ▸ hI.graph.count, ?_, ?_, hres, hrep⟩, ?_⟩, ?_⟩
  · intro nr
    rw [hheap]
    by_cases heq : m.nodeRound = nr
    · subst heq
      exact hsound.vcs
    intro v i e he
    rw [(hr.frame heq).vcs v] at he
    exact hI.graph.vcs nr v i e he
  · exact fun b st hst => hI.graph.stored b st (hk.statess b st hst)
  · intro nr
    by_cases heq : m.nodeRound = nr
    · subst heq
      exact hsound.state
    · have hsame := hr.frame heq
      exact (hI.state nr).congr (fun hash => hsame.bitsets hash 0) hsame.prepared hsame.final
  intro m' hm'
  have hnr := hr.resp_nodeRound hm'
  obtain ⟨hs, hne⟩ := hsound.resp m' hm'
  rw [← hnr] at hs
  exact ⟨hs, hne⟩

end Block

end Chainspace.Blockmania
