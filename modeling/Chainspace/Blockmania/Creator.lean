/-
  Chainspace.Blockmania.Creator — one block, interpreted by its creator and by a peer.

  `run` builds the entries of own blocks and of dependencies by different code. A dependency has no
  previous block in `deps` at round 1; an own block has `data.Prev` there ALWAYS, at round 1 the
  zero identifier, and `process` files a delay of ten for its node 0. Delays are copied along the
  chain, so with identifiers from 1 on, no block of a creator that has forgotten nothing has the
  delays a peer computes (`creator_ne_peer`).
-/
import Chainspace.Blockmania.Chain

namespace Chainspace.Blockmania

open Chainspace.Lib List

/-! ## §1. Delays. -/

/-- A block has delays for the nodes of its predecessor's delays, and for those it refers to. -/
theorem addDelays_isSome (round : Nat) (deps : List BlockID) (d : AList (fun _ : Nat => Nat))
    (k : Nat) :
    ((addDelays round deps d).lookup k).isSome ↔
      (d.lookup k).isSome ∨ ∃ dep ∈ deps, dep.node = k := by
  unfold addDelays
  induction deps generalizing d with
  | nil => simp
  | cons dep deps ih =>
    rw [foldl_cons, ih]
    by_cases hk : dep.node = k
    · subst hk
      simp
    · rw [AList.lookup_insert_ne (fun h => hk h.symm)]
      simp [hk]

theorem schedule_delay (p : Params) (round tround : Nat) (h : Heap) (s : State) :
    (schedule p round tround h s).2.delay = s.delay := by
  refine foldl_inv (fun hs : Heap × State => hs.2.delay = s.delay) rfl ?_
  intro x _ hs hsame
  exact hsame

theorem fireTimeout_delay (author : Nat) (acc : State × List Message) (t : Timeout) :
    (fireTimeout author acc t).1.delay = acc.1.delay := by
  obtain ⟨s, out⟩ := acc
  rcases fireTimeout_cases author s out t with ⟨_, h⟩ | ⟨_, _, h⟩
  · rw [h]
  · rw [h]
    rfl

variable {g g' : Graph} {e : Entry} {data : BlockGraph}

theorem Log.delay {receiver : Nat} {origin : BlockID} {src : Nat → Message → Prop}
    {s s' : State} {cs : List Call} (h : Log receiver origin src g s cs g' s') :
    s'.delay = s.delay := by
  induction h with
  | nil => rfl
  | snoc _ _ hcall ih =>
    obtain ⟨r, hr, hs, _⟩ := processMessage_reacts hcall
    rw [hs, hr.delay.1, ih]

/-- The delays of a block are those of the cloned state with its own references added. -/
theorem interpret_delay {s : State} {calls : List Call} (h : interpret g e = .ok (g', s, calls)) :
    s.delay = addDelays e.block.round e.deps (findOrCreateState g e).delay := by
  obtain ⟨g1, s1, first, s2, hb, hl, hs⟩ := interpret_log h
  rw [hs]
  rw [hl.delay]
  obtain ⟨⟨_, so⟩, ho, hb⟩ := bind_eq_ok.mp hb
  injection hb with hb
  injection hb with _ hb
  injection hb with hs1 _
  have hfire : s1.delay = so.delay := by
    rw [← hs1]
    refine foldl_inv (fun acc : State × List Message => acc.1.delay = so.delay) rfl ?_
    intro t _ acc hacc
    rw [fireTimeout_delay, hacc]
  obtain ⟨tval, _, ho⟩ := bind_eq_ok.mp ho
  injection ho with ho
  have hopen := schedule_delay g.params e.block.round ((e.block.round + tval) % 2 ^ 64) g.heap
    { findOrCreateState g e with
      delay := addDelays e.block.round e.deps (findOrCreateState g e).delay
      timeout := tval }
  rw [ho] at hopen
  rw [hfire]
  exact hopen

theorem findOrCreateState_delay (g : Graph) (e : Entry) : (findOrCreateState g e).delay = ∅ ∨
      ∃ st, e.prev.valid = true ∧ g.statess e.prev = some st ∧
        (findOrCreateState g e).delay = st.delay := by
  unfold findOrCreateState
  split
  next hv =>
    cases hst : g.statess e.prev with
    | none => exact .inl rfl
    | some st => exact .inr ⟨st, hv, rfl, rfl⟩
  · exact .inl rfl

/-! ## §2. The creator. -/

/-- The blocks of node `x` as `genBlocks` builds them from `round` on, after `prev`, which is zero
before the first block. -/
def OwnBlocks (x : Nat) : BlockID → Nat → List BlockGraph → Prop
  | _, _, [] => True
  | prev, round, data :: rest =>
    data.prev = prev ∧ data.block.node = x ∧ data.block.round = round ∧
      data.block.valid = true ∧ (∀ d ∈ data.deps, d.block.node ≠ x) ∧
      OwnBlocks x data.block (round + 1) rest

def CountsZero (g : Graph) (b : BlockID) : Prop :=
  ∃ st, g.statess b = some st ∧ (st.delay.lookup 0).isSome

theorem process_statess_ne (h : process g e = .ok g')
    (hround : g'.round = g.round) {b : BlockID} (hb : b ≠ e.block) :
    g'.statess b = g.statess b := by
  obtain ⟨g1, s, calls, hi, rfl⟩ := process_cases h
  have hk := interpret_kept hi
  show g1.statess.set e.block s b = g.statess b
  rw [PMap.set_ne _ _ hb, hk.same hround]

theorem process_round (h : process g e = .ok g') : g.round ≤ g'.round := by
  obtain ⟨g1, s, calls, hi, rfl⟩ := process_cases h
  exact (interpret_kept hi).round

/-- Processing entries never lowers the round, and while it stays, so do the states of other blocks.
-/
theorem foldlM_process_statess {es : List Entry} (h : es.foldlM process g = .ok g') :
    g.round ≤ g'.round ∧
      (g'.round = g.round → ∀ b, (∀ e ∈ es, b ≠ e.block) → g'.statess b = g.statess b) := by
  induction es generalizing g with
  | nil =>
    injection h with h
    rw [h]
    exact ⟨le_rfl, fun _ _ _ => rfl⟩
  | cons e es ih =>
    obtain ⟨g1, hg1, h⟩ := bind_eq_ok.mp h
    have hr1 := process_round hg1
    have hr2 := (ih h).1
    refine ⟨hr1.trans hr2, ?_⟩
    intro heq b hb
    rw [(ih h).2 (by omega) b (fun e' he' => hb e' (mem_cons_of_mem e he'))]
    exact process_statess_ne hg1 (by omega) (hb e mem_cons_self)

@[simp] theorem register_round (g : Graph) (data : BlockGraph) :
    (register g data).round = g.round := rfl

theorem addBlock_round (h : addBlock g data = .ok g') : g.round ≤ g'.round := by
  have hfold := (foldlM_process_statess h).1
  exact hfold

/-- The state of an own block counts a delay of node 0 if it is the first or that of its predecessor
does. -/
theorem addBlock_countsZero {x : Nat} (h : addBlock g data = .ok g') (hround : g'.round = g.round)
    (hdeps : ∀ d ∈ data.deps, d.block.node ≠ x)
    (hprev : data.prev = BlockID.zero ∨ data.prev.node = x ∧ data.prev ≠ data.block ∧
      data.prev.valid = true ∧ CountsZero g data.prev) :
    CountsZero g' data.block ∧ ∀ b, b.node = x → b ≠ data.block → g'.statess b = g.statess b := by
  unfold addBlock entriesOf at h
  rw [foldlM_append] at h
  obtain ⟨g1, hg1, h⟩ := bind_eq_ok.mp h
  obtain ⟨g2, hg2, h⟩ := bind_eq_ok.mp h
  injection h with h
  subst h
  -- The dependencies are blocks of other nodes.
  have hdep : ∀ b, b.node = x → ∀ e ∈ data.deps.map depEntry, b ≠ e.block := by
    intro b hb e he heq
    obtain ⟨d, hd, rfl⟩ := mem_map.mp he
    exact hdeps d hd (by rw [← hb, heq]; rfl)
  have hfold := foldlM_process_statess hg1
  have hr2 := process_round hg2
  have hr1 : g.round ≤ g1.round := hfold.1
  have hsame : ∀ b, b.node = x → g1.statess b = g.statess b := by
    intro b hb
    exact hfold.2 (by rw [register_round]; omega) b (hdep b hb)
  constructor
  · obtain ⟨g3, s, calls, hi, rfl⟩ := process_cases hg2
    refine ⟨s, PMap.set_self _ _ _, ?_⟩
    rw [interpret_delay hi, addDelays_isSome]
    rcases hprev with hzero | ⟨hpn, _, hvalid, st, hst, hsome⟩
    · exact .inr ⟨data.prev, mem_cons_self, by rw [hzero]; rfl⟩
    refine .inl ?_
    have hst1 : g1.statess data.prev = some st := by rw [hsame _ hpn, hst]
    have hclone : (findOrCreateState g1 (selfEntry data)).delay = st.delay := by
      show (if data.prev.valid then _ else _ : State).delay = _
      rw [if_pos hvalid, show (selfEntry data).prev = data.prev from rfl, hst1]
      rfl
    rw [hclone]
    exact hsome
  intro b hb hne
  have hstep : g2.statess b = g1.statess b := by
    refine process_statess_ne hg2 (by omega) ?_
    intro heq
    exact hne heq
  rw [hstep, hsame b hb]

/-- **The creator counts node 0 in every own block**, as long as it has delivered no round. -/
theorem creator_countsZero {x : Nat} {datas : List BlockGraph} {prev : BlockID}
    {round : Nat} (hown : OwnBlocks x prev round datas)
    (h : datas.foldlM addBlock g = .ok g') (hround : g'.round = g.round)
    (hprev : prev = BlockID.zero ∨
      prev.node = x ∧ prev.round + 1 = round ∧ prev.valid = true ∧ CountsZero g prev) :
    (∀ data ∈ datas, CountsZero g' data.block) ∧
      ∀ b, b.node = x → b.round < round → g'.statess b = g.statess b := by
  induction datas generalizing g prev round with
  | nil =>
    injection h with h
    rw [h]
    exact ⟨by simp, fun _ _ _ => rfl⟩
  | cons data rest ih =>
    obtain ⟨hp, hn, hr, hv, hd, hrest⟩ := hown
    obtain ⟨g1, hg1, h⟩ := bind_eq_ok.mp h
    have hr1 : g.round ≤ g1.round := addBlock_round hg1
    have hr2 : g1.round ≤ g'.round := foldlM_inv (fun x => g1.round ≤ x.round) le_rfl
        (fun _ _ _ _ hx hy => hx.trans (addBlock_round hy)) h
    have hprev' : data.prev = BlockID.zero ∨ data.prev.node = x ∧ data.prev ≠ data.block ∧
        data.prev.valid = true ∧ CountsZero g data.prev := by
      rw [hp]
      refine hprev.imp_right ?_
      rintro ⟨h1, h2, h3, h4⟩
      refine ⟨h1, ?_, h3, h4⟩
      intro heq
      rw [heq] at h2
      omega
    have hone := addBlock_countsZero hg1 (by omega) hd hprev'
    have hind := ih hrest h (by omega) (.inr ⟨hn, by rw [hr], hv, hone.1⟩)
    constructor
    · intro d hdmem
      rcases mem_cons.mp hdmem with heq | hdmem
      · obtain ⟨st, hst, hsome⟩ := hone.1
        refine ⟨st, ?_, hsome⟩
        rw [heq, hind.2 data.block hn (by omega), hst]
      · exact hind.1 d hdmem
    intro b hb hlt
    rw [hind.2 b hb (by omega)]
    refine hone.2 b hb ?_
    intro heq
    rw [heq] at hlt
    omega

/-! ## §3. The peer. -/

/-- The dependencies `processBlock` and `depgraph` let through: blocks of other nodes, each after a
block of its author except at round 1. No node has identifier 0. -/
structure PeerBlocks (y : Nat) (datas : List BlockGraph) : Prop where
  own : ∀ data ∈ datas, data.block.node = y
  other : ∀ data ∈ datas, ∀ d ∈ data.deps, d.block.node ≠ y ∧ d.block.node ≠ 0
  links : ∀ data ∈ datas, ∀ d ∈ data.deps, ∀ l ∈ d.deps, l.node ≠ 0
  prev : ∀ data ∈ datas, ∀ d ∈ data.deps,
    d.block.round = 1 ∧ d.prev = BlockID.zero ∨ d.prev.node = d.block.node

def NoZero (y : Nat) (g : Graph) : Prop :=
  ∀ b st, g.statess b = some st → b.node ≠ y → st.delay.lookup 0 = none

theorem process_noZero {y : Nat} (h : process g e = .ok g') (hg : NoZero y g)
    (he : e.block.node ≠ y → (∀ dep ∈ e.deps, dep.node ≠ 0) ∧
      (e.prev.valid = true → e.prev.node = e.block.node)) : NoZero y g' := by
  obtain ⟨g1, s, calls, hi, rfl⟩ := process_cases h
  intro b st hb hne
  rcases PMap.of_set hb with ⟨heq, hb⟩ | ⟨_, hb⟩
  · rw [heq] at hne
    obtain ⟨hdeps, hprev⟩ := he hne
    rw [← hb, interpret_delay hi]
    -- Neither the cloned delays nor the new ones are about node 0.
    have hclone : (findOrCreateState g e).delay.lookup 0 = none := by
      rcases findOrCreateState_delay g e with hempty | ⟨st', hv, hst', hsame⟩
      · rw [hempty]
        rfl
      · rw [hsame]
        exact hg e.prev st' hst' (by rw [hprev hv]; exact hne)
    rw [← Option.not_isSome_iff_eq_none, addDelays_isSome]
    rintro (hsome | ⟨dep, hdep, hzero⟩)
    · rw [hclone] at hsome
      cases hsome
    · exact hdeps dep hdep hzero
  · exact hg b st ((interpret_kept hi).statess b st hb) hne

theorem addBlock_noZero {y : Nat} {datas : List BlockGraph} (hp : PeerBlocks y datas)
    (hmem : data ∈ datas) (h : addBlock g data = .ok g')
    (hg : NoZero y g) : NoZero y g' := by
  refine foldlM_inv (NoZero y) (show NoZero y (register g data) from hg) ?_ h
  intro e he g1 g2 hg1 hg2
  refine process_noZero hg2 hg1 ?_
  rcases mem_append.mp he with he | he
  · -- A dependency.
    obtain ⟨d, hd, rfl⟩ := mem_map.mp he
    intro _
    have hlinks := hp.links data hmem d hd
    have hother := hp.other data hmem d hd
    constructor
    · intro dep hdep
      unfold depEntry at hdep
      split at hdep
      next hr =>
        rcases mem_cons.mp hdep with hdep | hdep
        · rcases hp.prev data hmem d hd with ⟨h1, _⟩ | hnode
          · exact absurd h1 hr
          · rw [hdep, hnode]
            exact hother.2
        · exact hlinks dep hdep
      · exact hlinks dep hdep
    intro hv
    rcases hp.prev data hmem d hd with ⟨_, hz⟩ | hnode
    · have hinvalid : (depEntry d).prev.valid = false := by
        show d.prev.valid = false
        rw [hz]
        rfl
      rw [hinvalid] at hv
      cases hv
    · exact hnode
  · -- The own block.
    rw [mem_singleton.mp he]
    intro hne
    exact absurd (hp.own data hmem) hne

/-! ## §4. The two together. -/

/-- Two interpretations of one block agree. A Go map is what its lookups say, a slice what it reads
as. -/
structure SameInterpretation (h : Heap) (s : State) (h' : Heap) (s' : State) : Prop where
  out : s.out = s'.out
  delay : ∀ k, s.delay.lookup k = s'.delay.lookup k
  timeout : s.timeout = s'.timeout
  timeouts : ∀ k, h.read k (s.timeouts k) = h'.read k (s'.timeouts k)

/-- **A creator and its peers never agree.** Node `x` has built its blocks from round 1 on and
delivered nothing; node `y` has received some. They hold different interpretations of whatever block
of `x` both hold. -/
theorem creator_ne_peer {x y : Nat} {nodes nodes' : List Nat} {grow grow' : Nat → Nat}
    {datas peers : List BlockGraph} {g g' : Graph} (hxy : x ≠ y)
    (hown : OwnBlocks x BlockID.zero 1 datas) (hpeers : PeerBlocks y peers)
    (hg : datas.foldlM addBlock (new nodes 0 grow) = .ok g) (hround : g.round = 1)
    (hg' : peers.foldlM addBlock (new nodes' 0 grow') = .ok g')
    {b : BlockID} (hb : ∃ data ∈ datas, data.block = b) {s s' : State}
    (hs : g.statess b = some s) (hs' : g'.statess b = some s') (hnode : b.node = x) :
    ¬ SameInterpretation g.heap s g'.heap s' := by
  intro hsame
  obtain ⟨data, hdata, hdb⟩ := hb
  -- The creator has a delay of node 0 ...
  obtain ⟨st, hst, hsome⟩ := (creator_countsZero hown hg hround (.inl rfl)).1 data hdata
  rw [hdb, hs] at hst
  injection hst with hst
  -- ... the peer has none.
  have hnone : NoZero y g' := by
    refine foldlM_inv (NoZero y) ?_ ?_ hg'
    · intro b' st' hb'
      exact absurd hb' (by simp [new])
    · intro d hd g1 g2 hg1 hg2
      exact addBlock_noZero hpeers hd hg2 hg1
  have hzero := hnone b s' hs' (by rw [hnode]; exact hxy)
  rw [← hst, hsame.delay 0, hzero] at hsome
  cases hsome

/-- Both nodes hold the first block of node 1. -/
theorem creator_ne_peer_first :
    ∃ g g' s s', [ownAt 1 1 []].foldlM addBlock (new [1, 2, 3, 4] 0 (2 * ·)) = .ok g ∧
      [ownAt 2 1 [depAt 1 1 []]].foldlM addBlock (new [1, 2, 3, 4] 0 (2 * ·)) = .ok g' ∧
      g.statess (blockAt 1 1) = some s ∧ g'.statess (blockAt 1 1) = some s' ∧
      ¬ SameInterpretation g.heap s g'.heap s' := by
  have hrun : endsIn ([ownAt 1 1 []].foldlM addBlock (new [1, 2, 3, 4] 0 (2 * ·)))
      (fun g => g.round = 1 ∧ (g.statess (blockAt 1 1)).isSome) = true := by decide +kernel
  have hrun' : endsIn ([ownAt 2 1 [depAt 1 1 []]].foldlM addBlock (new [1, 2, 3, 4] 0 (2 * ·)))
      (fun g => (g.statess (blockAt 1 1)).isSome = true) = true := by decide +kernel
  obtain ⟨g, hg, hround, hsome⟩ := exists_of_endsIn hrun fun _ _ h => h
  obtain ⟨g', hg', hsome'⟩ := exists_of_endsIn hrun' fun _ _ h => h
  obtain ⟨s, hs⟩ := Option.isSome_iff_exists.mp hsome
  obtain ⟨s', hs'⟩ := Option.isSome_iff_exists.mp hsome'
  have hown : OwnBlocks 1 BlockID.zero 1 [ownAt 1 1 []] := ⟨rfl, rfl, rfl, rfl, by decide, trivial⟩
  have hpeers : PeerBlocks 2 [ownAt 2 1 [depAt 1 1 []]] :=
    ⟨by decide, by decide, by decide, by decide⟩
  exact ⟨g, g', s, s', hg, hg', hs, hs', creator_ne_peer (x := 1) (y := 2) (by decide)
    hown hpeers hg hround hg' ⟨_, mem_cons_self, rfl⟩ hs hs' rfl⟩

/-- Four blocks of node 1; the fourth refers to blocks two and three rounds back. -/
def slowPeers : List BlockGraph :=
  [ownAt 1 1 [], ownAt 1 2 [], ownAt 1 3 [], ownAt 1 4 [depAt 2 1 [], depAt 2 2 [], depAt 3 1 []]]

def slowPeersSeen : BlockGraph :=
  ownAt 4 1 ([depAt 1 1 [], depAt 1 2 [], depAt 1 3 [], depAt 2 1 [], depAt 2 2 [], depAt 3 1 [],
    depAt 1 4 [blockAt 2 1, blockAt 2 2, blockAt 3 1]])

/-- **The view timeouts drift apart.** The creator takes the third delay of four nodes, one of them
node 0; the peer has three delays and takes the largest. -/
theorem creator_timeout_ne :
    ∃ g g' s s', slowPeers.foldlM addBlock (new [1, 2, 3, 4] 0 (2 * ·)) = .ok g ∧
      addBlock (new [1, 2, 3, 4] 0 (2 * ·)) slowPeersSeen = .ok g' ∧
      g.round = 1 ∧ g'.round = 1 ∧
      g.statess (blockAt 1 4) = some s ∧ g'.statess (blockAt 1 4) = some s' ∧
      s.timeout = 20 ∧ s'.timeout = 30 ∧ ¬ SameInterpretation g.heap s g'.heap s' := by
  have hrun : endsIn (slowPeers.foldlM addBlock (new [1, 2, 3, 4] 0 (2 * ·)))
      (fun g => g.round = 1 ∧ (g.statess (blockAt 1 4)).map State.timeout = some 20) = true := by
    decide +kernel
  have hrun' : endsIn (addBlock (new [1, 2, 3, 4] 0 (2 * ·)) slowPeersSeen)
      (fun g => g.round = 1 ∧ (g.statess (blockAt 1 4)).map State.timeout = some 30) = true := by
    decide +kernel
  obtain ⟨g, hg, hround, hsome⟩ := exists_of_endsIn hrun fun _ _ h => h
  obtain ⟨g', hg', hround', hsome'⟩ := exists_of_endsIn hrun' fun _ _ h => h
  obtain ⟨s, hs, ht⟩ := Option.map_eq_some_iff.mp hsome
  obtain ⟨s', hs', ht'⟩ := Option.map_eq_some_iff.mp hsome'
  refine ⟨g, g', s, s', hg, hg', hround, hround', hs, hs', ht, ht', ?_⟩
  intro hsame
  have heq := hsame.timeout
  rw [ht, ht'] at heq
  exact absurd heq (by decide)

end Chainspace.Blockmania
