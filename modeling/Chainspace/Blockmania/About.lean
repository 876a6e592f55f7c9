/-
  Chainspace.Blockmania.About — what the states of a graph speak about.

  A message or record names a node, a round and a hash (or none), and a vote names its voter; a call
  takes these from its message and the records it reads. So what holds of the proposals of blocks
  (`P`, and of no hash wherever it holds of one) holds of everything in every state, and what holds
  of authors (`A`) of every voter. Validity, membership and the range of the vote sets are
  instances.
-/
import Chainspace.Blockmania.Chain
import Chainspace.Blockmania.Heap

namespace Chainspace.Blockmania

open Chainspace.Lib List

/-! ## §1. Definitions. -/

def Message.voter : Message → Option Nat
  | .prePrepare _ => none
  | .prepare m => some m.sender
  | .commit m => some m.sender
  | .viewChange m => some m.sender
  | .newView m => some m.sender

structure Bitset.Sized (words : Nat) (b : Bitset) : Prop where
  commits : b.commits.length = words
  prepares : b.prepares.length = words

section Defs
variable (P : Nat → Nat → Hash → Prop) (A : Nat → Prop) (words : Nat)

/-- What a message says satisfies `P`, its voter satisfies `A`. -/
structure MessageAbout (m : Message) : Prop where
  about : P m.node m.round m.hash
  voter : ∀ x, m.voter = some x → A x

/-- The records of a state and the objects it refers to satisfy `P`. -/
structure About (h : Heap) (s : State) : Prop where
  allocated : Allocated h s
  bitsets : ∀ pp b, s.bitsets pp = some b → P pp.node pp.round pp.hash ∧ b.Sized words
  dataFinal : ∀ k, (s.data.final k).isSome → P k.node k.round []
  hnv : ∀ k, (s.data.hnv k).isSome → P k.node k.round []
  prepared : ∀ k hash, s.data.prepared k = some hash → P k.node k.round hash
  prePrepared : ∀ k m, s.data.prePrepared k = some m → k = ⟨m.node, m.round, m.view⟩ ∧
    P m.node m.round m.hash
  view : ∀ k, (s.data.view k).isSome → P k.node k.round []
  viewChanged : ∀ k i, s.data.viewChanged k = some i → P k.node k.round [] ∧
    ∀ e ∈ (h.vcs k i).entries, P k.node k.round e.2
  final : ∀ k hash, s.final k = some hash → P k.node k.round hash
  timeouts : ∀ k, ∀ t ∈ h.read k (s.timeouts k), P t.node t.round []

end Defs

/-! ## §2. The operations on a state. -/

namespace Bitset.Sized

variable {words : Nat} {b b' : Bitset} {v : Nat}

theorem setPrepare (h : b.Sized words) (hb : b.setPrepare v = some b') : b'.Sized words := by
  simp only [Bitset.setPrepare, Option.map_eq_some_iff] at hb
  obtain ⟨ws, hws, rfl⟩ := hb
  exact ⟨h.commits, (setBit_length hws).trans h.prepares⟩

theorem setCommit (h : b.Sized words) (hb : b.setCommit v = some b') : b'.Sized words := by
  simp only [Bitset.setCommit, Option.map_eq_some_iff] at hb
  obtain ⟨ws, hws, rfl⟩ := hb
  exact ⟨(setBit_length hws).trans h.commits, h.prepares⟩

theorem newBitset (size : Nat) : (newBitset size).Sized ((size + 63) >>> 6) :=
  ⟨length_replicate, length_replicate⟩

end Bitset.Sized

section Operations
variable {P : Nat → Nat → Hash → Prop} {words : Nat} {h : Heap} {s st : State}

theorem about_empty (h : Heap) : About P words h State.empty where
  allocated := allocated_empty h
  bitsets := fun _ _ hb => absurd hb (by simp [State.empty])
  dataFinal := fun _ hb => absurd hb (by simp [State.empty, StateKV.empty])
  hnv := fun _ hb => absurd hb (by simp [State.empty, StateKV.empty])
  prepared := fun _ _ hb => absurd hb (by simp [State.empty, StateKV.empty])
  prePrepared := fun _ _ hb => absurd hb (by simp [State.empty, StateKV.empty])
  view := fun _ hb => absurd hb (by simp [State.empty, StateKV.empty])
  viewChanged := fun _ _ hb => absurd hb (by simp [State.empty, StateKV.empty])
  final := fun _ _ hb => absurd hb (by simp [State.empty])
  timeouts := fun _ _ hb => absurd hb (by simp [State.empty, Slice.nil, Heap.read])

theorem About.getBitset (hs : About P words h s) {size : Nat} (hw : (size + 63) >>> 6 = words)
    (pp : PrePrepare) : (s.getBitset size pp).Sized words := by
  unfold State.getBitset
  cases hb : s.bitsets pp with
  | none => exact hw ▸ Bitset.Sized.newBitset size
  | some b => exact (hs.bitsets pp b hb).2

variable {b : Bitset} {m : ViewChange}

section
variable (hs : About P words h s)
include hs

theorem About.putBitset {pp : PrePrepare} (hpp : P pp.node pp.round pp.hash) (hb : b.Sized words) :
    About P words h (s.putBitset pp b) :=
  { hs with
    allocated := hs.allocated.congr rfl rfl
    bitsets := by
      intro pp' b' hb'
      rw [State.putBitset_bitsets, PMap.set_apply] at hb'
      split at hb'
      next heq =>
        injection hb' with hb'
        exact heq ▸ hb' ▸ ⟨hpp, hb⟩
      · exact hs.bitsets pp' b' hb' }

theorem About.putView {k : NodeRound} (hk : P k.node k.round [])
    (v : Nat) : About P words h (s.putView k v) :=
  { hs with
    allocated := hs.allocated.congr rfl rfl
    view := by
      intro k' hv
      rw [State.putView_view, PMap.set_apply] at hv
      split at hv
      next heq => exact heq ▸ hk
      · exact hs.view k' hv }

theorem About.touch {k : NodeRound} (hk : P k.node k.round []) : About P words h (s.touch k) := by
  unfold State.touch State.getView
  split
  · exact hs
  · exact hs.putView hk 0

theorem About.acceptPrePrepare {m : PrePrepare}
    (hm : P m.node m.round m.hash) (hb : b.Sized words) :
    About P words h (s.acceptPrePrepare m b) :=
  { hs.putBitset hm hb with
    allocated := hs.allocated.congr rfl rfl
    prePrepared := by
      intro k m' hk
      rw [acceptPrePrepare_prePrepared, PMap.set_apply] at hk
      split at hk
      next heq =>
        cases hk
        exact ⟨heq, hm⟩
      · exact hs.prePrepared k m' hk }

theorem About.notePrepared {k : NodeRoundView} {hash : Hash}
    (hk : P k.node k.round hash) : About P words h (s.notePrepared k hash) := by
  unfold State.notePrepared
  split
  · exact hs
  refine { hs with
    allocated := hs.allocated.congr rfl rfl
    prepared := ?_ }
  intro k' hash' hp
  rcases PMap.of_set hp with ⟨heq, hp⟩ | ⟨_, hp⟩
  · exact heq ▸ hp ▸ hk
  · exact hs.prepared k' hash' hp

theorem About.decide {m : Commit}
    (hm : P m.node m.round m.hash) (hb : b.Sized words) : About P words h (s.decide m b) :=
  { hs.putBitset (show P m.pre.node m.pre.round m.pre.hash from hm) hb with
    allocated := hs.allocated.congr rfl rfl
    final := by
      intro k hash hf
      rw [decide_final, PMap.set_apply] at hf
      split at hf
      next heq =>
        injection hf with hf
        exact heq ▸ hf ▸ hm
      · exact hs.final k hash hf }

theorem About.fileVote_map {v : Nat} (hm : P m.node m.round m.hash) :
    ∀ e ∈ (fileVote h s v m).2.2.entries, P m.node m.round e.2 := by
  intro e he
  rw [Blockmania.fileVote_map] at he
  rcases mem_cons.mp he with heq | he
  · rw [heq]
    exact hm
  have he := (kerase_sublist _ _).subset he
  unfold vcContent at he
  split at he
  next i hi => exact (hs.viewChanged _ i hi).2 e he
  · exact absurd he (by simp [EmptyCollection.emptyCollection])

theorem About.fileVote_vcs {v : Nat} (hm : P m.node m.round m.hash) {k : NodeRoundView} {i : Nat}
    (hold : ∀ e ∈ (h.vcs k i).entries, P k.node k.round e.2) :
    ∀ e ∈ ((fileVote h s v m).1.vcs k i).entries, P k.node k.round e.2 := by
  intro e he
  rw [Blockmania.fileVote_vcs] at he
  split at he
  next heq =>
    rw [heq.2]
    exact hs.fileVote_map hm e he
  · exact hold e he

end

theorem About.fileVote (hP : ∀ n r hash, P n r hash → P n r []) (hs : About P words h s)
    (v : Nat) (hm : P m.node m.round m.hash) :
    About P words (fileVote h s v m).1 (fileVote h s v m).2.1 where
  allocated := fileVote_allocated h s v m hs.allocated
  bitsets := by simpa using hs.bitsets
  dataFinal := by simpa using hs.dataFinal
  hnv := by simpa using hs.hnv
  prepared := by simpa using hs.prepared
  prePrepared := by simpa using hs.prePrepared
  view := by
    have hview : (Blockmania.fileVote h s v m).2.1.data.view = s.data.view := by
      rw [fileVote_state]
      unfold vcObject
      split <;> rfl
    rw [hview]
    exact hs.view
  viewChanged := by
    intro k i hk
    rw [fileVote_state, vcObject_viewChanged] at hk
    split at hk
    next heq =>
      injection hk with hk
      refine ⟨heq ▸ hP _ _ _ hm, ?_⟩
      rw [Blockmania.fileVote_vcs, if_pos ⟨hk.symm, heq⟩]
      rw [heq]
      exact hs.fileVote_map hm
    · obtain ⟨hk, hold⟩ := hs.viewChanged k i hk
      exact ⟨hk, hs.fileVote_vcs hm hold⟩
  final := by simpa using hs.final
  timeouts := by
    intro k t ht
    rw [fileVote_state, vcObject_timeouts, Heap.read, fileVote_cells] at ht
    exact hs.timeouts k t ht

theorem About.addTimeout (hs : About P words h s) (grow : Nat → Nat) (k : Nat) {t : Timeout}
    (ht : P t.node t.round []) :
    About P words (addTimeout grow k (h, s) t).1 (addTimeout grow k (h, s) t).2 :=
  { hs with
    allocated := addTimeout_allocated hs.allocated
    viewChanged := by
      intro k' i hk
      have hvcs : (Blockmania.addTimeout grow k (h, s) t).1.vcs = h.vcs :=
        Heap.append_vcs grow h k (s.timeouts k) t
      rw [hvcs]
      exact hs.viewChanged k' i hk
    timeouts := by
      intro k' x hx
      rcases mem_read_addTimeout hx with hx | hx
      · exact hs.timeouts k' x hx
      · exact hx ▸ ht }

theorem About.addTimeout_other (hst : About P words h st) (grow : Nat → Nat) (k : Nat)
    (s : State) {t : Timeout} (ht : P t.node t.round []) :
    About P words (Blockmania.addTimeout grow k (h, s) t).1 st :=
  { hst with
    allocated := hst.allocated.mono (Heap.append_next_le grow h k (s.timeouts k) t)
    viewChanged := by
      intro k' i hk
      have hvcs : (Blockmania.addTimeout grow k (h, s) t).1.vcs = h.vcs :=
        Heap.append_vcs grow h k (s.timeouts k) t
      rw [hvcs]
      exact hst.viewChanged k' i hk
    timeouts := by
      intro k' x hx
      rcases Heap.mem_read_append grow h k (s.timeouts k) t (hst.allocated.slice k') hx with hx | hx
      · exact hst.timeouts k' x hx
      · exact hx ▸ ht }

theorem About.clone (hs : About P words h s) (minround : Nat) :
    About P words h (clone (some s) minround) where
  allocated := hs.allocated.clone minround
  bitsets := fun pp b hb =>
    hs.bitsets pp b (PMap.of_restrict (p := fun k : PrePrepare => minround.ble k.round) hb)
  dataFinal := by
    intro k hk
    obtain ⟨u, hu⟩ := Option.isSome_iff_exists.mp hk
    have hu := PMap.of_restrict (p := fun k : NodeRound => minround.ble k.round) hu
    exact hs.dataFinal k (by rw [hu]; rfl)
  hnv := by
    intro k hk
    obtain ⟨u, hu⟩ := Option.isSome_iff_exists.mp hk
    have hu := PMap.of_restrict (p := fun k : NodeRoundView => minround.ble k.round) hu
    exact hs.hnv k (by rw [hu]; rfl)
  prepared := fun k hash hk =>
    hs.prepared k hash (PMap.of_restrict (p := fun k : NodeRoundView => minround.ble k.round) hk)
  prePrepared := fun k m hk =>
    hs.prePrepared k m (PMap.of_restrict (p := fun k : NodeRoundView => minround.ble k.round) hk)
  view := by
    intro k hk
    obtain ⟨u, hu⟩ := Option.isSome_iff_exists.mp hk
    have hu := PMap.of_restrict (p := fun k : NodeRound => minround.ble k.round) hu
    exact hs.view k (by rw [hu]; rfl)
  viewChanged := fun k i hk =>
    hs.viewChanged k i (PMap.of_restrict (p := fun k : NodeRoundView => minround.ble k.round) hk)
  final := fun k hash hk =>
    hs.final k hash (PMap.of_restrict (p := fun k : NodeRound => minround.ble k.round) hk)
  timeouts := by
    intro k t ht
    have ht : t ∈ h.read k (if k < minround then .nil else s.timeouts k) := ht
    split at ht
    · exact absurd ht (by simp [Slice.nil, Heap.read])
    · exact hs.timeouts k t ht

theorem About.congr {s' : State} (hs : About P words h s) (hb : s'.bitsets = s.bitsets)
    (hd : s'.data = s.data) (hf : s'.final = s.final) (ht : s'.timeouts = s.timeouts) :
    About P words h s' where
  allocated := hs.allocated.congr ht (by rw [hd])
  bitsets := hb ▸ hs.bitsets
  dataFinal := hd ▸ hs.dataFinal
  hnv := hd ▸ hs.hnv
  prepared := hd ▸ hs.prepared
  prePrepared := hd ▸ hs.prePrepared
  view := hd ▸ hs.view
  viewChanged := hd ▸ hs.viewChanged
  final := hf ▸ hs.final
  timeouts := ht ▸ hs.timeouts

theorem About.imp {Q : Nat → Nat → Hash → Prop} (hPQ : ∀ n r hash, P n r hash → Q n r hash)
    (hs : About P words h s) : About Q words h s where
  allocated := hs.allocated
  bitsets := fun pp b hb => ⟨hPQ _ _ _ (hs.bitsets pp b hb).1, (hs.bitsets pp b hb).2⟩
  dataFinal := fun k hk => hPQ _ _ _ (hs.dataFinal k hk)
  hnv := fun k hk => hPQ _ _ _ (hs.hnv k hk)
  prepared := fun k hash hk => hPQ _ _ _ (hs.prepared k hash hk)
  prePrepared := fun k m hk => ⟨(hs.prePrepared k m hk).1, hPQ _ _ _ (hs.prePrepared k m hk).2⟩
  view := fun k hk => hPQ _ _ _ (hs.view k hk)
  viewChanged := fun k i hk => ⟨hPQ _ _ _ (hs.viewChanged k i hk).1,
    fun e he => hPQ _ _ _ ((hs.viewChanged k i hk).2 e he)⟩
  final := fun k hash hk => hPQ _ _ _ (hs.final k hash hk)
  timeouts := fun k t ht => hPQ _ _ _ (hs.timeouts k t ht)

theorem About.frame {h' : Heap} (hP : ∀ n r hash hash', P n r hash → P n r hash')
    (hs : About P words h s) (hle : h.next ≤ h'.next)
    (hread : ∀ k, h'.read k (s.timeouts k) = h.read k (s.timeouts k)) : About P words h' s :=
  { hs with
    allocated := hs.allocated.mono hle
    viewChanged := fun k i hk => ⟨(hs.viewChanged k i hk).1,
      fun _ _ => hP _ _ _ _ (hs.viewChanged k i hk).1⟩
    timeouts := by
      intro k t ht
      rw [hread] at ht
      exact hs.timeouts k t ht }

end Operations

/-! ## §3. A call. -/

section Call
variable {P : Nat → Nat → Hash → Prop} {A : Nat → Prop} {words : Nat} {p : Params} {h : Heap}
  {s : State} {sender receiver : Nat} {origin : BlockID} {msg : Message} {r : Reaction}

structure ReactionAbout (P : Nat → Nat → Hash → Prop) (A : Nat → Prop) (words : Nat)
    (msg : Message) (r : Reaction) : Prop where
  state : About P words r.heap r.state
  resp : ∀ m, r.resp = some m → MessageAbout P A m
  decided : ∀ hash, r.decided = some hash → P msg.node msg.round hash

theorem ReactionAbout.quiet {h' : Heap} {s' : State} (hs : About P words h' s') :
    ReactionAbout P A words msg (.quiet h' s') :=
  ⟨hs, fun _ hm => absurd hm (by simp [Reaction.quiet]),
    fun _ hh => absurd hh (by simp [Reaction.quiet])⟩

/-- **A call speaks about what its message and its state speak about.** -/
theorem Reacts.about (hP : ∀ n r hash, P n r hash → P n r [])
    (hw : (p.nodeCount + 63) >>> 6 = words) (hA : A receiver)
    (hr : Reacts p h s sender receiver origin msg r) (hs : About P words h s)
    (hm : MessageAbout P A msg) : ReactionAbout P A words msg r := by
  have hnone : P msg.node msg.round [] := hP _ _ _ hm.about
  cases hr with
  | closed => exact .quiet hs
  | prePrepareStale | prepareOld | commitEarly | viewChangeOld
  | newViewStale => exact .quiet (hs.touch hnone)
  | prePrepareAccepted m b b' _ _ hb hb' =>
    have hsized : b'.Sized words := ((hs.getBitset hw m).setPrepare hb).setPrepare hb'
    refine ⟨(hs.touch hnone).acceptPrePrepare hm.about hsized, ?_, by simp⟩
    intro m' hm'
    cases hm'
    exact ⟨hm.about, fun x hx => by injection hx with hx; exact hx ▸ hA⟩
  | prepareCounted m b _ hb =>
    exact .quiet ((hs.touch hnone).putBitset hm.about ((hs.getBitset hw m.pre).setPrepare hb))
  | prepareQuorum m b b' _ hb _ _ hb' =>
    have hsized : b.Sized words := (hs.getBitset hw m.pre).setPrepare hb
    refine ⟨?_, ?_, by simp⟩
    · refine About.notePrepared ?_ hm.about
      exact ((hs.touch hnone).putBitset hm.about hsized).putBitset hm.about (hsized.setCommit hb')
    intro m' hm'
    cases hm'
    exact ⟨hm.about, fun x hx => by injection hx with hx; exact hx ▸ hA⟩
  | commitCounted m b _ hb =>
    exact .quiet ((hs.touch hnone).putBitset hm.about ((hs.getBitset hw m.pre).setCommit hb))
  | commitDecides m b _ hb =>
    refine ⟨(hs.touch hnone).decide hm.about ((hs.getBitset hw m.pre).setCommit hb), by simp, ?_⟩
    intro hash hh
    cases hh
    exact hm.about
  | viewChangeFiled => exact .quiet ((hs.touch hnone).fileVote hP _ hm.about)
  | viewChangeQuorum m hash _ _ hh =>
    have htouch : About P words h (s.touch ⟨m.node, m.round⟩) := hs.touch hnone
    -- The new view carries a hash that was reported, or none.
    have hhash : P m.node m.round hash := by
      rcases newViewHash_mem hh with heq | hmem
      · exact heq ▸ hnone
      · obtain ⟨e, he, heq⟩ := mem_map.mp hmem
        exact heq ▸ htouch.fileVote_map hm.about e he
    refine ⟨(htouch.fileVote hP _ hm.about).putView hnone _, ?_, by simp⟩
    intro m' hm'
    cases hm'
    exact ⟨hhash, fun x hx => by injection hx with hx; exact hx ▸ hA⟩
  | newViewAccepted m =>
    refine ⟨?_, ?_, by simp⟩
    · have htouch : About P words h (s.touch ⟨m.node, m.round⟩) := hs.touch hnone
      have hview := (htouch.putView (k := ⟨m.node, m.round⟩) hnone m.view).addTimeout p.grow
        ((origin.round + (s.touch ⟨m.node, m.round⟩).timeout + 5) % 2 ^ 64)
        (t := ⟨m.node, m.round, m.view⟩) hnone
      refine { hview with
        allocated := hview.allocated.congr rfl rfl
        hnv := ?_ }
      intro k hk
      have hk : (s.touch ⟨m.node, m.round⟩).data.hnv.set ⟨m.node, m.round, m.view⟩ true k
          |>.isSome := hk
      rw [PMap.set_apply] at hk
      split at hk
      next heq => exact heq ▸ hnone
      · exact htouch.hnv k hk
    · intro m' hm'
      cases hm'
      exact ⟨hm.about, fun x hx => absurd hx (by simp [Message.voter])⟩

/-- The other states speak about what they and the state of the call speak about. -/
theorem Reacts.about_other (hP : ∀ n r hash, P n r hash → P n r [])
    (hr : Reacts p h s sender receiver origin msg r) (hs : About P words h s)
    (hm : P msg.node msg.round msg.hash) {st : State} (hst : About P words h st) :
    About P words r.heap st := by
  have hnone : P msg.node msg.round [] := hP _ _ _ hm
  refine { hst with
    allocated := hst.allocated.mono hr.next_le
    viewChanged := ?_
    timeouts := ?_ }
  · intro k i hk
    obtain ⟨hk, hold⟩ := hst.viewChanged k i hk
    refine ⟨hk, ?_⟩
    rcases hr.heap_cases with ⟨hh, _⟩ | ⟨m, v, hmsg, _, hh, _⟩ | ⟨m, k', _, hh, _⟩
    · rw [hh]
      exact hold
    · subst hmsg
      rw [hh]
      exact (hs.touch (k := ⟨m.node, m.round⟩) hnone).fileVote_vcs hm hold
    have hvcs : r.heap.vcs = h.vcs := by
      rw [hh]
      exact Heap.append_vcs p.grow h k' (s.timeouts k') _
    rw [hvcs]
    exact hold
  intro k t ht
  rcases hr.mem_read (hst.allocated.slice k) ht with ht | ⟨m, hmsg, heq⟩
  · exact hst.timeouts k t ht
  · subst hmsg heq
    exact hnone

end Call

/-! ## §4. A run. -/

section Graph
variable (P : Nat → Nat → Hash → Prop) (A : Nat → Prop)

def HashesAbout (round : Nat) (hashes : AList (fun _ : Nat => Hash)) : Prop :=
  ∀ node hash, hashes.lookup node = some hash → P node round hash

/-- The decisions on file and the rounds reported. -/
structure DecisionsAbout (g : Graph) : Prop where
  resolved : ∀ round hashes, g.resolved.lookup round = some hashes → HashesAbout P round hashes
  reports : ∀ i ∈ g.cb, ∀ b ∈ i.blocks, b.hash ≠ [] ∧ P b.node b.round b.hash

/-- The states a graph holds: each is that of a block whose author satisfies `A`. -/
def StatesAbout (g : Graph) : Prop :=
  ∀ b st, g.statess b = some st → A b.node ∧
    About P ((g.params.nodeCount + 63) >>> 6) g.heap st ∧ ∀ m ∈ st.out, MessageAbout P A m

/-- **What a graph speaks about**: its states and its decisions. -/
structure GraphAbout (g : Graph) : Prop where
  states : StatesAbout P A g
  decisions : DecisionsAbout P g

/-- What a block brings in: its proposal, its author, and view-0 timeouts of all nodes. -/
structure BlockAbout (nodes : List Nat) (b : BlockID) : Prop where
  proposal : P b.node b.round b.hash
  author : A b.node
  nodes : ∀ x ∈ nodes, P x b.round []

end Graph

section Deliver
variable {P : Nat → Nat → Hash → Prop} {g g' : Graph} {round : Nat}
  {hashes : AList (fun _ : Nat => Hash)}

theorem mem_decidedBlocks {b : BlockID} (hb : b ∈ decidedBlocks round hashes) :
    b.round = round ∧ b.hash ≠ [] ∧ hashes.lookup b.node = some b.hash := by
  have hb := (mem_insertionSort _).mp hb
  obtain ⟨e, he, heq⟩ := mem_map.mp hb
  subst heq
  obtain ⟨he, hne⟩ := mem_filter.mp he
  exact ⟨rfl, by simpa using hne, AList.mem_lookup_iff.mpr he⟩

theorem DecisionsAbout.finishRound (hd : DecisionsAbout P g) (hh : HashesAbout P round hashes)
    (info : BlockInfo) :
    DecisionsAbout P (g.finishRound round (g.report info round hashes)) where
  resolved := by
    intro round' hashes' hlook
    rw [finishRound_resolved] at hlook
    by_cases heq : round' = round
    · rw [heq] at hlook
      simp at hlook
    · rw [AList.lookup_erase_ne heq] at hlook
      exact hd.resolved round' hashes' hlook
  reports := by
    intro i hi b hb
    rw [finishRound_cb] at hi
    rcases mem_append.mp hi with hi | hi
    · exact hd.reports i hi b hb
    rw [mem_singleton.mp hi] at hb
    obtain ⟨hround, hne, hlook⟩ := mem_decidedBlocks hb
    exact ⟨hne, hround ▸ hh b.node b.hash hlook⟩

theorem DecisionsAbout.deliverRound {fuel : Nat} (hd : DecisionsAbout P g)
    (hh : HashesAbout P round hashes) (h : deliverRound fuel g round hashes = .ok g') :
    DecisionsAbout P g' := by
  induction fuel generalizing g round hashes with
  | zero =>
    cases h
    exact hd
  | succ fuel ih =>
    unfold Blockmania.deliverRound at h
    split at h
    · cases h
    next info _ _ =>
      dsimp only at h
      have hone := hd.finishRound hh info
      split at h
      · cases h
        exact hone
      next hashes' hlook =>
        split at h
        · exact ih hone (hone.resolved _ hashes' hlook) h
        · cases h
          exact hone

theorem DecisionsAbout.deliver {node : Nat} {hash : Hash} (hd : DecisionsAbout P g)
    (hP : P node round hash) (h : deliver g node round hash = .ok g') : DecisionsAbout P g' := by
  rcases deliver_cases h with ⟨_, hg⟩ | ⟨_, _, hashes, hhashes, h⟩
  · exact hg ▸ hd
  have hcur : HashesAbout P round ((g.resolved.lookup round).getD ∅) := by
    intro node' hash' hlook
    cases hres : g.resolved.lookup round with
    | none =>
      rw [hres] at hlook
      cases hlook
    | some hashes' =>
      rw [hres] at hlook
      exact hd.resolved round hashes' hres node' hash' hlook
  have hnew : HashesAbout P round hashes := by
    rw [hhashes]
    unfold noteHash
    split
    · exact hcur
    intro node' hash' hlook
    by_cases heq : node' = node
    · rw [heq, AList.lookup_insert] at hlook
      injection hlook with hlook
      exact heq ▸ hlook ▸ hP
    · rw [AList.lookup_insert_ne heq] at hlook
      exact hcur node' hash' hlook
  have hfiled : DecisionsAbout P { g with resolved := g.resolved.insert round hashes } := by
    refine ⟨?_, hd.reports⟩
    intro round' hashes' hlook
    by_cases heq : round' = round
    · rw [heq, AList.lookup_insert] at hlook
      injection hlook with hlook
      exact heq ▸ hlook ▸ hnew
    · rw [AList.lookup_insert_ne heq] at hlook
      exact hd.resolved round' hashes' hlook
  rcases h with ⟨hg, _⟩ | ⟨_, _, h⟩
  · exact hg ▸ hfiled
  · exact hfiled.deliverRound hnew h

end Deliver

section Process
variable {P : Nat → Nat → Hash → Prop} {A : Nat → Prop} {g g' : Graph} {e : Entry}

/-- Between the calls of a block: the state in progress and everything stored. -/
structure CallsAbout (P : Nat → Nat → Hash → Prop) (A : Nat → Prop) (g : Graph) (s : State) :
    Prop where
  state : About P ((g.params.nodeCount + 63) >>> 6) g.heap s
  graph : GraphAbout P A g

variable {s s1 : State} {words : Nat} {first : List Message} {g1 : Graph}

theorem CallsAbout.processMessage (hP : ∀ n r hash, P n r hash → P n r []) {s' : State}
    {sender receiver : Nat} {origin : BlockID} {msg : Message} {resp : Option Message}
    (hc : CallsAbout P A g s) (hA : A receiver) (hm : MessageAbout P A msg)
    (h : processMessage g s sender receiver origin msg = .ok (g', s', resp)) :
    CallsAbout P A g' s' ∧ ∀ m, resp = some m → MessageAbout P A m := by
  obtain ⟨r, hr, hs, hresp, hdec⟩ := processMessage_cases h
  have habout := hr.about hP rfl hA hc.state hm
  subst hs hresp
  have hstates : StatesAbout P A { g with heap := r.heap } := by
    intro b st hst
    obtain ⟨hb, hst, hout⟩ := hc.graph.states b st hst
    exact ⟨hb, hr.about_other hP hc.state hm.about hst, hout⟩
  refine ⟨?_, habout.resp⟩
  rcases hdec with ⟨_, hg⟩ | ⟨hash, hhash, hg⟩
  · subst hg
    exact ⟨habout.state, hstates, hc.graph.decisions.resolved, hc.graph.decisions.reports⟩
  have hheap := deliver_heap hg
  have hkept := deliver_kept hg
  have hdecs : DecisionsAbout P { g with heap := r.heap } :=
    ⟨hc.graph.decisions.resolved, hc.graph.decisions.reports⟩
  refine ⟨?_, ?_, hdecs.deliver (habout.decided hash hhash) hg⟩
  · rw [hkept.params, hheap]
    exact habout.state
  intro b st hst
  rw [hkept.params, hheap]
  exact hstates b st (hkept.statess b st hst)

theorem CallsAbout.log (hP : ∀ n r hash, P n r hash → P n r []) {s' : State} {receiver : Nat}
    {origin : BlockID} {src : Nat → Message → Prop} {calls : List Call}
    (hc : CallsAbout P A g s) (hA : A receiver)
    (hsrc : ∀ x m, src x m → MessageAbout P A m)
    (hl : Log receiver origin src g s calls g' s') :
    CallsAbout P A g' s' ∧ ∀ m ∈ responses calls, MessageAbout P A m := by
  refine hl.inv (I := fun _ => CallsAbout P A) hc hsrc (fun _ _ hm => hm) ?_
  intro _ c g1 s1 hcur hm hcall
  exact hcur.processMessage hP hA hm hcall

theorem StatesAbout.findOrCreateState (hg : StatesAbout P A g) (e : Entry) :
    About P ((g.params.nodeCount + 63) >>> 6) g.heap (findOrCreateState g e) := by
  unfold Blockmania.findOrCreateState
  split
  · cases hst : g.statess e.prev with
    | none => exact about_empty g.heap
    | some st => exact (hg e.prev st hst).2.1.clone _
  · exact about_empty g.heap

theorem About.schedule {h : Heap} (hs : About P words h s) (p : Params)
    {round : Nat} (tround : Nat) (hnodes : ∀ x ∈ p.nodes, P x round []) :
    About P words (schedule p round tround h s).1 (schedule p round tround h s).2 ∧
      ∀ st, About P words h st → About P words (Blockmania.schedule p round tround h s).1 st := by
  refine foldl_inv (fun hs : Heap × State => About P words hs.1 hs.2 ∧
    ∀ st, About P words h st → About P words hs.1 st) ⟨hs, fun _ hst => hst⟩ ?_
  rintro x hx ⟨_, s'⟩ ⟨hself, hother⟩
  have ht : P x round [] := hnodes x hx
  exact ⟨hself.addTimeout p.grow tround (t := ⟨x, round, 0⟩) ht,
    fun st hst => (hother st hst).addTimeout_other p.grow tround s' (t := ⟨x, round, 0⟩) ht⟩

theorem About.fired {h : Heap} (hs : About P words h s) (e : Entry)
    (hprop : P e.block.node e.block.round e.block.hash) (hauthor : A e.block.node)
    {ts : List Timeout} (hts : ∀ t ∈ ts, P t.node t.round []) :
    About P words h (e.fired s ts).1 ∧ ∀ m ∈ (e.fired s ts).2, MessageAbout P A m := by
  refine foldl_inv (fun acc : State × List Message => About P words h acc.1 ∧
    ∀ m ∈ acc.2, MessageAbout P A m) ⟨hs, ?_⟩ ?_
  · intro m hm
    rw [mem_singleton.mp hm]
    exact ⟨hprop, fun x hx => absurd hx (by simp [Message.voter, Entry.proposal])⟩
  rintro t ht ⟨s', out⟩ ⟨hs', hout⟩
  rcases fireTimeout_cases e.block.node s' out t with ⟨_, heq⟩ | ⟨_, _, heq⟩
  · rw [heq]
    exact ⟨hs', hout⟩
  rw [heq]
  refine ⟨hs'.putView (hts t ht) _, ?_⟩
  intro m hm
  rcases mem_append.mp hm with hm | hm
  · exact hout m hm
  rw [mem_singleton.mp hm]
  refine ⟨?_, fun x hx => by injection hx with hx; exact hx ▸ hauthor⟩
  -- The view change reports the prepared hash, or none.
  cases hp : s'.data.prepared ⟨t.node, t.round, t.view⟩ with
  | none => exact hts t ht
  | some hash => exact hs'.prepared _ hash hp

/-- `process` before the messages, for the block's state and for any other. -/
theorem About.beginBlock (hstart : About P words g.heap (findOrCreateState g e))
    (hb : BlockAbout P A g.params.nodes e.block)
    (h : beginBlock g e = .ok (g1, s1, first)) :
    (About P words g1.heap s1 ∧ ∀ m ∈ first, MessageAbout P A m) ∧
      ∀ st, About P words g.heap st → About P words g1.heap st := by
  obtain ⟨hp, s, ho, hg1, hfired⟩ := beginBlock_cases h
  obtain ⟨tval, _, ho⟩ := openBlock_cases ho
  have hdelayed : About P words g.heap (delayed g e tval) := hstart.congr rfl rfl rfl rfl
  have hsched := hdelayed.schedule g.params ((e.block.round + tval) % 2 ^ 64) hb.nodes
  rw [ho] at hsched
  have hdue : ∀ t ∈ hp.read e.block.round (s.timeouts e.block.round), P t.node t.round [] :=
    hsched.1.timeouts _
  have hfire := hsched.1.fired (A := A) e hb.proposal hb.author hdue
  rw [← hfired] at hfire
  subst hg1
  exact ⟨hfire, hsched.2⟩

theorem GraphAbout.beginBlock (hg : GraphAbout P A g) (hb : BlockAbout P A g.params.nodes e.block)
    (h : beginBlock g e = .ok (g1, s1, first)) :
    CallsAbout P A g1 s1 ∧ ∀ m ∈ first, MessageAbout P A m := by
  obtain ⟨⟨hs1, hfirst⟩, hother⟩ := (hg.states.findOrCreateState e).beginBlock hb h
  have hg1 := beginBlock_graph h
  have hparams : g1.params = g.params := by rw [hg1]
  refine ⟨⟨hparams ▸ hs1, ?_, ?_⟩, hfirst⟩
  · intro b st hst
    have hst : g.statess b = some st := by rw [hg1] at hst; exact hst
    obtain ⟨hA, hst, hout⟩ := hg.states b st hst
    exact ⟨hA, hparams ▸ hother st hst, hout⟩
  · rw [hg1]
    exact ⟨hg.decisions.resolved, hg.decisions.reports⟩

theorem GraphAbout.calls (hP : ∀ n r hash, P n r hash → P n r []) {g2 : Graph}
    {s2 : State} {cs : List Call}
    (hg : GraphAbout P A g) (hb : BlockAbout P A g.params.nodes e.block)
    (hbegin : Blockmania.beginBlock g e = .ok (g1, s1, first))
    (hlog : Log e.block.node e.block (Source g e first) g1 s1 cs g2 s2) :
    CallsAbout P A g2 s2 ∧ ∀ m ∈ first ++ responses cs, MessageAbout P A m := by
  obtain ⟨hcalls, hfirst⟩ := hg.beginBlock hb hbegin
  have hsrc : ∀ x m, Source g e first x m → MessageAbout P A m := by
    rintro x m (⟨_, hm⟩ | ⟨dep, _, _, hm⟩)
    · exact hfirst m hm
    · obtain ⟨st, hst, hm⟩ := mem_getOutput hm
      exact (hg.states dep st hst).2.2 m hm
  obtain ⟨hend, hresp⟩ := hcalls.log hP hb.author hsrc hlog
  refine ⟨hend, ?_⟩
  intro m hm
  rcases mem_append.mp hm with hm | hm
  · exact hfirst m hm
  · exact hresp m hm

theorem GraphAbout.process (hP : ∀ n r hash, P n r hash → P n r [])
    (hg : GraphAbout P A g) (hb : BlockAbout P A g.params.nodes e.block)
    (h : process g e = .ok g') : GraphAbout P A g' := by
  obtain ⟨g2, s2, calls, hi, hg'⟩ := process_cases h
  obtain ⟨g1, s1, first, s3, hbegin, hlog, hs2⟩ := interpret_log hi
  obtain ⟨hend, hout⟩ := hg.calls hP hb hbegin hlog
  subst hg' hs2
  refine ⟨?_, hend.graph.decisions.resolved, hend.graph.decisions.reports⟩
  intro b st hst
  rcases PMap.of_set hst with ⟨heq, hst⟩ | ⟨heq, hst⟩
  · rw [heq, ← hst]
    exact ⟨hb.author, hend.state.congr rfl rfl rfl rfl, hout⟩
  · exact hend.graph.states b st hst

end Process

section Run
variable {P : Nat → Nat → Hash → Prop} {A : Nat → Prop}

def added (datas : List BlockGraph) : List BlockID := datas.flatMap (fun data =>
  data.deps.map Dep.block ++ [data.block])

/-- **The moments between two calls**: `before` is the graph that the entries before `e` leave,
`first` are the first messages of `e`, and `cs` the calls for it so far. -/
structure Calling (nodes : List Nat) (lastInterpreted : Nat) (grow : Nat → Nat)
    (datas : List BlockGraph) (data : BlockGraph) (before : Graph) (e : Entry)
    (first : List Message) (cs : List Call) (g : Graph) (s : State) : Prop where
  reached : ∃ g0 pre post, datas.foldlM addBlock (new nodes lastInterpreted grow) = .ok g0 ∧
    entriesOf data = pre ++ e :: post ∧ pre.foldlM process (register g0 data) = .ok before
  log : ∃ g1 s1, beginBlock before e = .ok (g1, s1, first) ∧
    Log e.block.node e.block (Source before e first) g1 s1 cs g s

/-- **The moments of a graph**: between two own block graphs, or between two calls for a block. -/
inductive Reaches (nodes : List Nat) (lastInterpreted : Nat) (grow : Nat → Nat) :
    List BlockGraph → Graph → Option State → Prop
  | rest {datas : List BlockGraph} {g : Graph}
      (h : datas.foldlM addBlock (new nodes lastInterpreted grow) = .ok g) :
      Reaches nodes lastInterpreted grow datas g none
  | calls {datas : List BlockGraph} {data : BlockGraph} {before g : Graph} {e : Entry}
      {first : List Message} {cs : List Call} {s : State}
      (h : Calling nodes lastInterpreted grow datas data before e first cs g s) :
      Reaches nodes lastInterpreted grow (datas ++ [data]) g (some s)

variable {data : BlockGraph} {e : Entry} {g g' : Graph} {datas : List BlockGraph} {grow : Nat → Nat}
  {lastInterpreted : Nat} {nodes : List Nat}

theorem mem_entriesOf (he : e ∈ entriesOf data) : e.block ∈ added [data] := by
  unfold added
  rw [flatMap_singleton]
  rcases mem_append.mp he with he | he
  · obtain ⟨dep, hdep, heq⟩ := mem_map.mp he
    subst heq
    exact mem_append_left _ (mem_map_of_mem hdep)
  · rw [mem_singleton.mp he]
    exact mem_append_right _ mem_cons_self

theorem added_append (datas datas' : List BlockGraph) :
    added (datas ++ datas') = added datas ++ added datas' := flatMap_append

theorem process_params (h : process g e = .ok g') : g'.params = g.params := by
  obtain ⟨g1, s, calls, hi, hg'⟩ := process_cases h
  subst hg'
  exact (interpret_kept hi).params

theorem foldlM_process_params {es : List Entry} (h : es.foldlM process g = .ok g') :
    g'.params = g.params := by
  refine foldlM_inv (fun x => x.params = g.params) rfl ?_ h
  intro e _ x y hx hstep
  exact (process_params hstep).trans hx

theorem foldlM_addBlock_params (h : datas.foldlM addBlock g = .ok g') : g'.params = g.params := by
  refine foldlM_inv (fun x => x.params = g.params) rfl ?_ h
  intro data _ x y hx hstep
  exact (foldlM_process_params hstep).trans hx

theorem Calling.params {before : Graph} {first : List Message} {cs : List Call} {s : State}
    (h : Calling nodes lastInterpreted grow datas data before e first cs g s) :
    g.params = (new nodes lastInterpreted grow).params := by
  obtain ⟨g0, pre, post, hrun, _, hpre⟩ := h.reached
  obtain ⟨g1, s1, hbegin, hlog⟩ := h.log
  calc g.params = g1.params := hlog.kept.params
    _ = before.params := by rw [beginBlock_graph hbegin]
    _ = (register g0 data).params := foldlM_process_params hpre
    _ = g0.params := rfl
    _ = (new nodes lastInterpreted grow).params := foldlM_addBlock_params hrun

theorem graphAbout_new (nodes : List Nat) (lastInterpreted : Nat) (grow : Nat → Nat) :
    GraphAbout P A (new nodes lastInterpreted grow) where
  states := fun _ _ hst => absurd hst (by simp [new])
  decisions :=
    ⟨fun _ _ hlook => absurd hlook (by simp [new]), fun _ hi => absurd hi (by simp [new])⟩

section
variable (hP : ∀ n r hash, P n r hash → P n r [])
include hP

theorem GraphAbout.foldlM_process {es : List Entry} (hg : GraphAbout P A g ∧ g.params.nodes = nodes)
    (hb : ∀ e ∈ es, BlockAbout P A nodes e.block) (h : es.foldlM Blockmania.process g = .ok g') :
    GraphAbout P A g' ∧ g'.params.nodes = nodes := by
  refine foldlM_inv (fun g => GraphAbout P A g ∧ g.params.nodes = nodes) hg ?_ h
  intro e he g1 g2 hg1 hstep
  refine ⟨hg1.1.process hP (hg1.2 ▸ hb e he) hstep, ?_⟩
  rw [process_params hstep]
  exact hg1.2

theorem graphAbout_run (hb : ∀ b ∈ added datas, BlockAbout P A nodes b)
    (h : datas.foldlM addBlock (new nodes lastInterpreted grow) = .ok g) :
    GraphAbout P A g ∧ g.params.nodes = nodes := by
  refine foldlM_inv (fun g => GraphAbout P A g ∧ g.params.nodes = nodes) ?_ ?_ h
  · exact ⟨graphAbout_new nodes lastInterpreted grow, rfl⟩
  intro data hdata g1 g2 hg1 hstep
  refine GraphAbout.foldlM_process hP (g := register g1 data) ?_ ?_ hstep
  · exact ⟨⟨hg1.1.states, hg1.1.decisions.resolved, hg1.1.decisions.reports⟩, hg1.2⟩
  intro e he
  have hmem := mem_entriesOf he
  unfold added at hmem
  rw [flatMap_singleton] at hmem
  exact hb e.block (mem_flatMap.mpr ⟨data, hdata, hmem⟩)

theorem Calling.about {before : Graph} {first : List Message} {cs : List Call} {s : State}
    (h : Calling nodes lastInterpreted grow datas data before e first cs g s)
    (hb : ∀ b ∈ added (datas ++ [data]), BlockAbout P A nodes b) :
    GraphAbout P A before ∧ A e.block.node ∧ CallsAbout P A g s ∧
      ∀ m ∈ first ++ responses cs, MessageAbout P A m := by
  obtain ⟨g0, pre, post, hrun, hentries, hpre⟩ := h.reached
  obtain ⟨g1, s1, hbegin, hlog⟩ := h.log
  rw [added_append] at hb
  have hentry : ∀ e ∈ entriesOf data, BlockAbout P A nodes e.block := fun e he =>
    hb e.block (mem_append_right _ (mem_entriesOf he))
  have hg := graphAbout_run hP (fun b hmem => hb b (mem_append_left _ hmem)) hrun
  have hentry_pre : ∀ e ∈ pre, BlockAbout P A nodes e.block := fun e he =>
    hentry e (hentries ▸ mem_append_left _ he)
  have hbefore := GraphAbout.foldlM_process hP (g := register g0 data)
    ⟨⟨hg.1.states, hg.1.decisions.resolved, hg.1.decisions.reports⟩, hg.2⟩ hentry_pre hpre
  have hblock : BlockAbout P A nodes e.block :=
    hentry e (hentries ▸ mem_append_right _ mem_cons_self)
  exact ⟨hbefore.1, hblock.author, hbefore.1.calls hP (hbefore.2 ▸ hblock) hbegin hlog⟩

/-- **At every moment the graph and the state in progress speak about what the blocks bring in.** -/
theorem Reaches.about
    {current : Option State} (hreach : Reaches nodes lastInterpreted grow datas g current)
    (hb : ∀ b ∈ added datas, BlockAbout P A nodes b) :
    GraphAbout P A g ∧ ∀ s, current = some s →
      About P ((g.params.nodeCount + 63) >>> 6) g.heap s := by
  cases hreach with
  | rest h => exact ⟨(graphAbout_run hP hb h).1, fun s hs => absurd hs (by simp)⟩
  | calls h =>
    obtain ⟨_, _, hcalls, _⟩ := h.about hP hb
    refine ⟨hcalls.graph, ?_⟩
    intro s' hs'
    cases hs'
    exact hcalls.state

end

end Run

end Chainspace.Blockmania
