/-
  Chainspace.Blockmania.Validity — only blocks that were added are delivered.

  Every hash in the graph comes from a proposal, and a block proposes itself: what a state says
  about a node and a round is the hash of a block of that node and round given to `Add`, or no hash.
  Nothing is assumed about the authors.
-/
import Chainspace.Blockmania.About

namespace Chainspace.Blockmania

open Chainspace.Lib

/-- No hash, or that of a block of this node and round among those added. -/
def AddedOrNone (datas : List BlockGraph) (node round : Nat) (hash : Hash) : Prop :=
  hash = [] ∨ (⟨hash, node, round⟩ : BlockID) ∈ added datas

theorem blockAbout_added (nodes : List Nat) {datas : List BlockGraph} {b : BlockID}
    (hb : b ∈ added datas) : BlockAbout (AddedOrNone datas) (fun _ => True) nodes b where
  proposal := .inr hb
  author := trivial
  nodes := fun _ _ => .inl rfl

/-- **Validity.** At every moment of every graph, the blocks reported were added before; so was
every block whose hash stands in a message or a record, in a stored state or in the one in progress,
under its node and its round. -/
theorem delivered_blocks_added {nodes : List Nat} {lastInterpreted : Nat} {grow : Nat → Nat}
    {datas : List BlockGraph} {g : Graph} {current : Option State}
    (h : Reaches nodes lastInterpreted grow datas g current) :
    (∀ i ∈ g.cb, ∀ b ∈ i.blocks, b ∈ added datas) ∧ (∀ b st, g.statess b = some st →
        About (AddedOrNone datas) ((g.params.nodeCount + 63) >>> 6) g.heap st ∧
          ∀ m ∈ st.out, AddedOrNone datas m.node m.round m.hash) ∧
      ∀ s, current = some s →
        About (AddedOrNone datas) ((g.params.nodeCount + 63) >>> 6) g.heap s := by
  have hclosed : ∀ node round hash, AddedOrNone datas node round hash →
      AddedOrNone datas node round [] := fun _ _ _ _ => .inl rfl
  obtain ⟨hg, hcurrent⟩ := h.about hclosed (fun b hb => blockAbout_added nodes hb)
  refine ⟨?_, ?_, hcurrent⟩
  · intro i hi b hb
    obtain ⟨hne, hadded⟩ := hg.decisions.reports i hi b hb
    exact hadded.resolve_left hne
  intro b st hst
  obtain ⟨_, hst, hout⟩ := hg.states b st hst
  exact ⟨hst, fun m hm => (hout m hm).about⟩

/-- Two nodes deliver the blocks of two rounds, which node 1 has added. -/
theorem delivered_blocks_added_two :
    let datas := [ownAt 1 1 [], ownAt 1 2 [depAt 2 1 [], depAt 2 2 []]]
    ∃ g, Reaches [1, 2] 0 (2 * ·) datas g none ∧ g.cb.map Interpreted.blocks =
        [[blockAt 1 1, blockAt 2 1], [blockAt 1 2, blockAt 2 2]] ∧
      ∀ i ∈ g.cb, ∀ b ∈ i.blocks, b ∈ added datas := by
  intro datas
  have heval : endsIn (datas.foldlM addBlock (new [1, 2] 0 (2 * ·))) (fun g =>
      g.cb.map Interpreted.blocks = [[blockAt 1 1, blockAt 2 1], [blockAt 1 2, blockAt 2 2]]) =
        true := by
    decide +kernel
  obtain ⟨g, hg, hcb⟩ := exists_of_endsIn heval fun _ _ h => h
  exact ⟨g, .rest hg, hcb, (delivered_blocks_added (.rest hg)).1⟩

end Chainspace.Blockmania
