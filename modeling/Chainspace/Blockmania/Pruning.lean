/-
  Chainspace.Blockmania.Pruning — `clone` may forget old rounds before the messages of a block.

  A block starts from a clone without the rounds below `minround`. `processMessages` on messages
  about later rounds cannot tell: from the clone and from the full state it makes the same calls,
  gives the same responses and decisions, and ends in states that agree on the rounds kept.
-/
import Chainspace.Blockmania.Agree
import Chainspace.Blockmania.Calls

namespace Chainspace.Blockmania

open Chainspace.Lib

/-! ## §1. `deliver` does not look at the heap. -/

def Graph.withHeap (g : Graph) (h : Heap) : Graph := { g with heap := h }

section WithHeap
variable (g : Graph) (h : Heap)

theorem deliverRound_withHeap (fuel : Nat) (round : Nat) (hashes : AList (fun _ : Nat => Hash)) :
    deliverRound fuel (g.withHeap h) round hashes =
      (deliverRound fuel g round hashes).map (Graph.withHeap · h) := by
  induction fuel generalizing g round hashes with
  | zero => rfl
  | succ fuel ih =>
    unfold deliverRound
    rw [show (g.withHeap h).blocks = g.blocks from rfl]
    cases g.blocks with
    | nil => rfl
    | cons info =>
      dsimp only
      have hfinish : (g.withHeap h).finishRound round ((g.withHeap h).report info round hashes) =
          (g.finishRound round (g.report info round hashes)).withHeap h := rfl
      rw [hfinish]
      generalize g.finishRound round (g.report info round hashes) = g'
      rw [show (g'.withHeap h).resolved = g'.resolved from rfl]
      cases g'.resolved.lookup (round + 1) with
      | none => rfl
      | some next =>
        dsimp only
        rw [show (g'.withHeap h).params = g'.params from rfl]
        by_cases hfull : next.entries.length = g'.params.nodeCount
        · rw [if_pos hfull, if_pos hfull]
          exact ih g' (round + 1) next
        · rw [if_neg hfull, if_neg hfull]
          rfl

theorem deliver_withHeap (node round : Nat) (hash : Hash) : deliver (g.withHeap h) node round hash =
      (deliver g node round hash).map (Graph.withHeap · h) := by
  unfold deliver
  rw [show (g.withHeap h).round = g.round from rfl,
    show (g.withHeap h).resolved = g.resolved from rfl,
    show (g.withHeap h).params = g.params from rfl]
  by_cases hlt : round < g.round
  · rw [if_pos hlt, if_pos hlt]
    rfl
  rw [if_neg hlt, if_neg hlt]
  generalize (g.resolved.lookup round).getD ∅ = hashes
  by_cases hany : (hashes.lookup node).any (fun cur => cur ≠ hash) = true
  · rw [if_pos hany, if_pos hany]
    rfl
  rw [if_neg hany, if_neg hany]
  by_cases hne : round ≠ g.round
  · rw [if_pos hne, if_pos hne]
    rfl
  rw [if_neg hne, if_neg hne]
  by_cases hfull : (noteHash hashes node hash).entries.length = g.params.nodeCount
  · rw [if_pos hfull, if_pos hfull]
    exact deliverRound_withHeap
      { g with resolved := g.resolved.insert round (noteHash hashes node hash) } h _ round _
  · rw [if_neg hfull, if_neg hfull]
    rfl

end WithHeap

/-! ## §2. Two runs side by side. -/

/-- The decision a call hands to `deliver`: node, round and hash. -/
def Call.delivery (receiver : Nat) (origin : BlockID) (c : Call) : Option (Nat × Nat × Hash) :=
  match react c.graph.params c.graph.heap c.state c.sender receiver origin c.msg with
  | .ok r => r.decided.map (fun hash => (c.msg.node, c.msg.round, hash))
  | .error _ => none

def deliveries (receiver : Nat) (origin : BlockID) (cs : List Call) : List (Nat × Nat × Hash) :=
  cs.filterMap (Call.delivery receiver origin)

theorem Call.delivery_eq {receiver : Nat} {origin : BlockID} {c : Call} {r : Reaction}
    (hr : react c.graph.params c.graph.heap c.state c.sender receiver origin c.msg = .ok r) :
    c.delivery receiver origin = r.decided.map (fun hash => (c.msg.node, c.msg.round, hash)) := by
  unfold Call.delivery
  rw [hr]

/-- Two runs of `processMessages` that cannot be told apart from round `R` on. -/
structure SameRun (R : Nat) (T : Nat → List Timeout → List Timeout → Prop) (receiver : Nat)
    (origin : BlockID) (a a' : Acc) : Prop where
  graph : a'.graph = a.graph.withHeap a'.graph.heap
  state : Agree R T a.graph.heap a.state a'.graph.heap a'.state
  processed : a'.processed = a.processed
  out : a'.out = a.out
  live : ∀ m ∈ a.out, R ≤ m.round
  deliveries : deliveries receiver origin a'.calls = deliveries receiver origin a.calls

section Lockstep
variable {R : Nat} {T : Nat → List Timeout → List Timeout → Prop} {sender receiver : Nat}
  {origin : BlockID} {a a' : Acc}

theorem conclude_withHeap (g : Graph) (h h' : Heap) (msg : Message) (decided : Option Hash) :
    Both (fun x x' => x.heap = h ∧ x' = x.withHeap h') (conclude { g with heap := h } msg decided)
      (conclude { g with heap := h' } msg decided) := by
  cases decided with
  | none => exact ⟨rfl, rfl⟩
  | some hash =>
    have heq : deliver { g with heap := h' } msg.node msg.round hash =
        (deliver { g with heap := h } msg.node msg.round hash).map (Graph.withHeap · h') :=
      deliver_withHeap { g with heap := h } h' msg.node msg.round hash
    show Both _ (deliver { g with heap := h } msg.node msg.round hash)
      (deliver { g with heap := h' } msg.node msg.round hash)
    rw [heq]
    cases hd : deliver { g with heap := h } msg.node msg.round hash with
    | error => exact rfl
    | ok => exact ⟨deliver_heap hd, rfl⟩

theorem SameRun.processMessage (hT : Appends T) (hs : SameRun R T receiver origin a a')
    {m : Message} (hm : R ≤ m.round) :
    Both (fun x x' : Graph × State × Option Message =>
        x'.1 = x.1.withHeap x'.1.heap ∧ Agree R T x.1.heap x.2.1 x'.1.heap x'.2.1 ∧
          x'.2.2 = x.2.2 ∧ (∀ m', x.2.2 = some m' → R ≤ m'.round) ∧
          Call.delivery receiver origin ⟨a'.graph, a'.state, sender, m, x'.2.2⟩ =
            Call.delivery receiver origin ⟨a.graph, a.state, sender, m, x.2.2⟩)
      (processMessage a.graph a.state sender receiver origin m)
      (processMessage a'.graph a'.state sender receiver origin m) := by
  have hparams : a'.graph.params = a.graph.params := by
    rw [hs.graph]
    rfl
  have hreact : Both (SameReaction R T)
      (react a.graph.params a.graph.heap a.state sender receiver origin m)
      (react a'.graph.params a'.graph.heap a'.state sender receiver origin m) := by
    rw [hparams]
    exact react_agree hT hs.state hm
  refine Both.bind hreact ?_
  intro r r' hr hr' hrr
  have hconclude := conclude_withHeap a.graph r.heap r'.heap m r.decided
  rw [show ({ a'.graph with heap := r'.heap } : Graph) = { a.graph with heap := r'.heap } by
    rw [hs.graph]; rfl, hrr.decided]
  refine Both.bind hconclude ?_
  intro x x' _ _ hx
  refine ⟨?_, ?_, hrr.resp, ?_, ?_⟩
  · rw [hx.2]
    rfl
  · rw [hx.2]
    rw [hx.1]
    exact hrr.state
  · intro m' hm'
    have hnr := (react_cases hr).resp_nodeRound hm'
    rw [show m'.round = m.round from congrArg NodeRound.round hnr]
    exact hm
  · rw [Call.delivery_eq hr', Call.delivery_eq hr, hrr.decided]

theorem SameRun.handle (hT : Appends T) (hs : SameRun R T receiver origin a a') {m : Message}
    (hm : R ≤ m.round) :
    Both (SameRun R T receiver origin) (handle sender receiver origin a m)
      (handle sender receiver origin a' m) := by
  unfold Blockmania.handle
  rw [hs.processed]
  by_cases hseen : m ∈ a.processed
  · rw [if_pos hseen, if_pos hseen]
    exact hs
  rw [if_neg hseen, if_neg hseen]
  refine Both.bind (hs.processMessage hT hm) ?_
  rintro ⟨g, s, resp⟩ ⟨g', s', resp'⟩ _ _ ⟨hgraph, hstate, hresp, hlive, hdelivery⟩
  refine ⟨hgraph, hstate, rfl, ?_, ?_, ?_⟩
  · show a'.out ++ resp'.toList = a.out ++ resp.toList
    rw [hs.out, show resp' = resp from hresp]
  · intro m' hm'
    rcases List.mem_append.mp hm' with hm' | hm'
    · exact hs.live m' hm'
    · exact hlive m' (Option.mem_toList.mp hm')
  show Blockmania.deliveries receiver origin (a'.calls ++ [_]) =
    Blockmania.deliveries receiver origin (a.calls ++ [_])
  have hprev := hs.deliveries
  unfold Blockmania.deliveries at hprev ⊢
  rw [List.filterMap_append, List.filterMap_append, hprev, List.filterMap_cons,
    List.filterMap_cons, hdelivery]

theorem SameRun.drain (hT : Appends T) (fuel i : Nat) (hs : SameRun R T receiver origin a a') :
    Both (SameRun R T receiver origin) (drain sender receiver origin fuel i a)
      (drain sender receiver origin fuel i a') := by
  induction fuel generalizing i a a' with
  | zero => exact hs
  | succ fuel ih =>
    unfold Blockmania.drain
    rw [hs.out]
    cases hmsg : a.out[i]? with
    | none => exact hs
    | some m =>
      refine Both.bind (hs.handle hT (hs.live m (List.mem_of_getElem? hmsg))) ?_
      intro x x' _ _ hx
      exact ih (i + 1) hx

theorem SameRun.processMessages (hT : Appends T) (hs : SameRun R T receiver origin a a')
    {msgs : List Message} (hmsgs : ∀ m ∈ msgs, R ≤ m.round) :
    Both (SameRun R T receiver origin) (processMessages sender receiver origin a msgs)
      (processMessages sender receiver origin a' msgs) := by
  have hstart : SameRun R T receiver origin { a with out := [] } { a' with out := [] } :=
    ⟨hs.graph, hs.state, hs.processed, rfl, by simp, hs.deliveries⟩
  refine Both.bind (Both.foldlM hstart (fun m hm x y hxy => hxy.handle hT (hmsgs m hm))) ?_
  intro x x' _ _ hx
  rw [hx.out]
  exact hx.drain hT _ 0

end Lockstep

/-! ## §3. The clone and the full state. -/

def SameFrom (R k : Nat) (l l' : List Timeout) : Prop := R ≤ k → l' = l

theorem sameFrom_appends (R : Nat) : Appends (SameFrom R) := by
  intro k l l' t hsame hk
  rw [hsame hk]

/-- **A clone agrees with its original on what it keeps.** -/
theorem agree_clone (h : Heap) (s : State) (minround : Nat) :
    Agree minround (SameFrom minround) h s h (clone (some s) minround) where
  about := by
    intro nr hr
    have hble : minround.ble nr.round = true := Nat.ble_eq.mpr hr
    refine ⟨?_, ?_, ?_, ?_, ?_, ?_, ?_, ?_, ?_⟩
    · exact PMap.restrict_pos (p := fun k : NodeRound => minround.ble k.round) s.data.view hble
    · exact fun hash v => clone_bitsets hr
    · exact PMap.restrict_pos (p := fun k : NodeRound => minround.ble k.round) s.data.final hble
    · exact fun v => clone_hnv hr
    · exact fun v => clone_prepared hr
    · exact fun v => clone_prePrepared hr
    · exact clone_final hr
    · intro v
      rw [clone_viewChanged hr]
    intro v
    unfold vcContent
    rw [clone_viewChanged hr]
  delay := rfl
  timeout := rfl
  timeouts := by
    intro k hk
    show h.read k (if k < minround then Slice.nil else s.timeouts k) = _
    rw [if_neg (Nat.not_lt.mpr hk)]

/-- **Pruning commutes with message processing.** On messages about rounds from `minround` on,
`processMessages` from the clone and from the full state gives the same responses and calls of
`deliver`, and states that agree on the keys with a round from `minround` on. -/
theorem processMessages_clone (g : Graph) (s : State) (minround : Nat) (processed : List Message)
    (sender receiver : Nat) (origin : BlockID) (msgs : List Message)
    (hmsgs : ∀ m ∈ msgs, minround ≤ m.round) :
    Both (SameRun minround (SameFrom minround) receiver origin)
      (processMessages sender receiver origin ⟨g, s, processed, [], []⟩ msgs)
      (processMessages sender receiver origin ⟨g, clone (some s) minround, processed, [], []⟩
        msgs) := by
  have hstart : SameRun minround (SameFrom minround) receiver origin ⟨g, s, processed, [], []⟩
      ⟨g, clone (some s) minround, processed, [], []⟩ :=
    ⟨rfl, agree_clone g.heap s minround, rfl, rfl, by simp, rfl⟩
  exact hstart.processMessages (sameFrom_appends minround) hmsgs

/-- A state that has moved to view 1 of round 3 forgets that, and answers a proposal for round 5. -/
theorem processMessages_clone_round5 : (∀ m ∈ [Message.prePrepare ⟨[7], 2, 5, 0⟩], 5 ≤ m.round) ∧
      Both (SameRun 5 (SameFrom 5) 1 (⟨[9], 1, 6⟩ : BlockID)) (processMessages 2 1 ⟨[9], 1, 6⟩
          ⟨new [1, 2, 3, 4] 0 (2 * ·), State.empty.putView ⟨2, 3⟩ 1, [], [], []⟩
          [.prePrepare ⟨[7], 2, 5, 0⟩])
        (processMessages 2 1 ⟨[9], 1, 6⟩
          ⟨new [1, 2, 3, 4] 0 (2 * ·), clone (some (State.empty.putView ⟨2, 3⟩ 1)) 5, [], [], []⟩
          [.prePrepare ⟨[7], 2, 5, 0⟩]) := by
  have hmsgs : ∀ m ∈ [Message.prePrepare ⟨[7], 2, 5, 0⟩], 5 ≤ m.round := by decide
  exact ⟨hmsgs, processMessages_clone _ _ 5 [] 2 1 _ _ hmsgs⟩

end Chainspace.Blockmania
