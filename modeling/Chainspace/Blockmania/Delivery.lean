/-
  Chainspace.Blockmania.Delivery — rounds are delivered one after the other, each complete.

  Decisions arrive in any order. `deliver` files them by round, and `deliverRound` reports the
  current round once every node has one, going on with later rounds completed before. The decisions
  of a run are the arguments of the calls of `deliver`.
-/
import Chainspace.Blockmania.About

namespace Chainspace.Blockmania

open Chainspace.Lib List

/-! ## §1. The decisions of a run. -/

/-- The arguments of a call of `deliver`. -/
structure Decision where
  node : Nat
  round : Nat
  hash : Hash
  deriving DecidableEq, Repr

/-- The decision of a call of `processMessage` for the block of an entry. -/
def Call.decision (e : Entry) (c : Call) : Option Decision :=
  match react c.graph.params c.graph.heap c.state c.sender e.block.node e.block c.msg with
  | .ok r => r.decided.map (fun hash => ⟨c.msg.node, c.msg.round, hash⟩)
  | .error _ => none

def decisionsOf (e : Entry) (cs : List Call) : List Decision := cs.filterMap (Call.decision e)

/-- `process`, with the decisions so far. -/
def processDeciding (x : Graph × List Decision) (e : Entry) :
    Except Halt (Graph × List Decision) := do
  let (g, s, calls) ← interpret x.1 e
  .ok ({ g with statess := g.statess.set e.block s }, x.2 ++ decisionsOf e calls)

/-- `addBlock`, with the decisions so far. -/
def addDeciding (x : Graph × List Decision) (data : BlockGraph) :
    Except Halt (Graph × List Decision) :=
  (entriesOf data).foldlM processDeciding (register x.1 data, x.2)

/-- **The moments of a graph with the decisions made so far.** -/
inductive Decided (nodes : List Nat) (lastInterpreted : Nat) (grow : Nat → Nat) :
    List BlockGraph → List Decision → Graph → Prop
  | rest {datas : List BlockGraph} {ds : List Decision} {g : Graph}
      (h : datas.foldlM addDeciding (new nodes lastInterpreted grow, []) = .ok (g, ds)) :
      Decided nodes lastInterpreted grow datas ds g
  | calls {datas : List BlockGraph} {data : BlockGraph} {pre post : List Entry} {e : Entry}
      {g0 g1 g2 g : Graph} {s2 s : State} {first : List Message} {cs : List Call}
      {ds0 ds1 : List Decision}
      (h : datas.foldlM addDeciding (new nodes lastInterpreted grow, []) = .ok (g0, ds0))
      (hentries : entriesOf data = pre ++ e :: post)
      (hpre : pre.foldlM processDeciding (register g0 data, ds0) = .ok (g1, ds1))
      (hbegin : beginBlock g1 e = .ok (g2, s2, first))
      (hlog : Log e.block.node e.block (Source g1 e first) g2 s2 cs g s) :
      Decided nodes lastInterpreted grow (datas ++ [data]) (ds1 ++ decisionsOf e cs) g

variable {g : Graph}

theorem foldlM_processDeciding {es : List Entry} {g' : Graph} (ds : List Decision)
    (h : es.foldlM process g = .ok g') :
    ∃ ds', es.foldlM processDeciding (g, ds) = .ok (g', ds') := by
  induction es generalizing g ds with
  | nil =>
    injection h with h
    exact ⟨ds, h ▸ rfl⟩
  | cons e es ih =>
    obtain ⟨g1, hg1, h⟩ := bind_eq_ok.mp h
    obtain ⟨g2, s, calls, hi, hg⟩ := process_cases hg1
    obtain ⟨ds', hds'⟩ := ih (ds ++ decisionsOf e calls) h
    refine ⟨ds', ?_⟩
    refine bind_eq_ok.mpr ⟨(g1, ds ++ decisionsOf e calls), ?_, hds'⟩
    exact bind_eq_ok.mpr ⟨_, hi, by rw [hg]⟩

theorem foldlM_addDeciding {datas : List BlockGraph} {g' : Graph} (ds : List Decision)
    (h : datas.foldlM addBlock g = .ok g') :
    ∃ ds', datas.foldlM addDeciding (g, ds) = .ok (g', ds') := by
  induction datas generalizing g ds with
  | nil =>
    injection h with h
    exact ⟨ds, h ▸ rfl⟩
  | cons data datas ih =>
    obtain ⟨g1, hg1, h⟩ := bind_eq_ok.mp h
    obtain ⟨ds1, hds1⟩ := foldlM_processDeciding ds hg1
    obtain ⟨ds', hds'⟩ := ih ds1 h
    refine ⟨ds', ?_⟩
    exact bind_eq_ok.mpr ⟨(g1, ds1), hds1, hds'⟩

theorem Reaches.decided {nodes : List Nat} {lastInterpreted : Nat} {grow : Nat → Nat}
    {datas : List BlockGraph} {current : Option State}
    (h : Reaches nodes lastInterpreted grow datas g current) :
    ∃ ds, Decided nodes lastInterpreted grow datas ds g := by
  cases h with
  | rest h =>
    obtain ⟨ds, hds⟩ := foldlM_addDeciding [] h
    exact ⟨ds, .rest hds⟩
  | calls h =>
    obtain ⟨g0, pre, post, hrun, hentries, hpre⟩ := h.reached
    obtain ⟨g1, s1, hbegin, hlog⟩ := h.log
    obtain ⟨ds0, hds0⟩ := foldlM_addDeciding [] hrun
    obtain ⟨ds1, hds1⟩ := foldlM_processDeciding ds0 hpre
    exact ⟨_, .calls hds0 hentries hds1 hbegin hlog⟩

/-! ## §2. What a report says. -/

/-- A report of a round: each of `count` nodes has one hash in `past`, and the blocks are those of
the hashes that are not empty. -/
structure CompleteRound (count : Nat) (past : List Decision) (i : Interpreted) : Prop where
  unique : ∀ d ∈ past, ∀ d' ∈ past, d.round = i.round → d'.round = i.round → d.node = d'.node →
    d.hash = d'.hash
  count : ((past.filter (fun d => d.round = i.round)).map Decision.node).toFinset.card = count
  blocks : ∀ b, b ∈ i.blocks ↔ b.round = i.round ∧ b.hash ≠ [] ∧ ⟨b.node, b.round, b.hash⟩ ∈ past
  once : (i.blocks.map BlockID.node).Nodup
  sorted : i.blocks.Pairwise (fun a b => a.hash ≤ b.hash)

def Files (ds : List Decision) (round : Nat) (hashes : AList (fun _ : Nat => Hash)) : Prop :=
  ∀ node hash, hashes.lookup node = some hash ↔ ⟨node, round, hash⟩ ∈ ds

/-- **Delivery in order**: the rounds reported are those after `last`, each complete as of the
decisions up to it; the decisions on file are about rounds to come. -/
structure InOrder (last count : Nat) (ds : List Decision) (g : Graph) : Prop where
  rounds : g.cb.map Interpreted.round = (List.range g.cb.length).map (fun k => last + 1 + k)
  reports : ∀ i ∈ g.cb, ∃ past, past <+: ds ∧ CompleteRound count past i
  round : g.round = last + 1 + g.cb.length
  filed : ∀ r, g.round ≤ r → Files ds r ((g.resolved.lookup r).getD ∅)

def Waiting (count : Nat) (g : Graph) : Prop :=
  ∀ hashes, g.resolved.lookup g.round = some hashes → hashes.entries.length ≠ count

theorem mem_decidedBlocks_iff {round : Nat} {hashes : AList (fun _ : Nat => Hash)} {b : BlockID} :
    b ∈ decidedBlocks round hashes ↔
      b.round = round ∧ b.hash ≠ [] ∧ hashes.lookup b.node = some b.hash := by
  constructor
  · exact mem_decidedBlocks
  rintro ⟨hround, hne, hlook⟩
  have hmem : (⟨b.node, b.hash⟩ : Sigma (fun _ : Nat => Hash)) ∈ hashes.entries :=
    AList.mem_lookup_iff.mp hlook
  refine (mem_insertionSort _).mpr (mem_map.mpr ⟨⟨b.node, b.hash⟩, ?_, ?_⟩)
  · exact mem_filter.mpr ⟨hmem, by simpa using hne⟩
  · rw [← hround]

theorem completeRound_report {ds : List Decision} {round : Nat}
    {hashes : AList (fun _ : Nat => Hash)} (hf : Files ds round hashes) (g : Graph)
    (info : BlockInfo) : CompleteRound hashes.entries.length ds (g.report info round hashes) where
  unique := by
    rintro ⟨node, r, hash⟩ hd ⟨node', r', hash'⟩ hd' hr hr' hn
    have hr' : r' = round := hr'
    subst hr hr' hn
    have h1 := (hf node hash).mpr hd
    have h2 := (hf node hash').mpr hd'
    rw [h1] at h2
    injection h2
  count := by
    have hkeys : ((ds.filter (fun d => d.round = round)).map Decision.node).toFinset =
        hashes.keys.toFinset := by
      ext node
      rw [mem_toFinset, mem_toFinset, ← AList.mem_keys, ← AList.lookup_isSome]
      constructor
      · intro hmem
        obtain ⟨⟨node', r, hash⟩, hd, heq⟩ := mem_map.mp hmem
        obtain ⟨hmem, hr⟩ := mem_filter.mp hd
        have hr : r = round := of_decide_eq_true hr
        have heq : node' = node := heq
        rw [hr, heq] at hmem
        rw [(hf node hash).mpr hmem]
        rfl
      intro hsome
      obtain ⟨hash, hhash⟩ := Option.isSome_iff_exists.mp hsome
      refine mem_map.mpr ⟨⟨node, round, hash⟩, ?_, rfl⟩
      exact mem_filter.mpr ⟨(hf node hash).mp hhash, by simp⟩
    show ((ds.filter (fun d => d.round = round)).map Decision.node).toFinset.card = _
    rw [hkeys, toFinset_card_of_nodup hashes.keys_nodup]
    exact length_map _
  blocks := by
    intro b
    show b ∈ decidedBlocks round hashes ↔ _
    rw [mem_decidedBlocks_iff]
    constructor
    · rintro ⟨hr, hne, hlook⟩
      exact ⟨hr, hne, hr ▸ (hf b.node b.hash).mp hlook⟩
    rintro ⟨hr, hne, hmem⟩
    have hr : b.round = round := hr
    exact ⟨hr, hne, (hf b.node b.hash).mpr (hr ▸ hmem)⟩
  once := by
    have hperm := perm_insertionSort (fun a b : BlockID => a.hash ≤ b.hash)
      ((hashes.entries.filter (fun e => e.2 ≠ [])).map (fun e => (⟨e.2, e.1, round⟩ : BlockID)))
    show ((decidedBlocks round hashes).map BlockID.node).Nodup
    rw [decidedBlocks, (hperm.map BlockID.node).nodup_iff, map_map]
    exact hashes.keys_nodup.sublist ((filter_sublist).map Sigma.fst)
  sorted := by
    exact pairwise_insertionSort _ _

/-! ## §3. `deliver`. -/

section Deliver
variable {last count : Nat} {ds : List Decision} {g g' : Graph} {round : Nat}
  {hashes : AList (fun _ : Nat => Hash)}

theorem InOrder.congr (h : InOrder last count ds g) (hcb : g'.cb = g.cb)
    (hround : g'.round = g.round) (hres : g'.resolved = g.resolved) :
    InOrder last count ds g' where
  rounds := by rw [hcb]; exact h.rounds
  reports := by rw [hcb]; exact h.reports
  round := by rw [hcb, hround]; exact h.round
  filed := by rw [hround, hres]; exact h.filed

theorem InOrder.finishRound (h : InOrder last count ds g) (hround : round = g.round)
    (hf : Files ds round hashes) (hlen : hashes.entries.length = count) (info : BlockInfo) :
    InOrder last count ds (g.finishRound round (g.report info round hashes)) where
  rounds := by
    have hreport : (g.report info round hashes).round = last + 1 + g.cb.length := by
      rw [← h.round, ← hround]
      rfl
    rw [finishRound_cb, map_append, h.rounds, length_append, length_singleton,
      range_succ, map_append]
    show _ ++ [(g.report info round hashes).round] = _ ++ [last + 1 + g.cb.length]
    rw [hreport]
  reports := by
    intro i hi
    rw [finishRound_cb] at hi
    rcases mem_append.mp hi with hi | hi
    · exact h.reports i hi
    · rw [mem_singleton.mp hi]
      exact ⟨ds, prefix_refl ds, hlen ▸ completeRound_report hf g info⟩
  round := by
    rw [finishRound_round, finishRound_cb, length_append, length_singleton, h.round]
    omega
  filed := by
    intro r hr
    rw [finishRound_round] at hr
    rw [finishRound_resolved, AList.lookup_erase_ne (by omega)]
    exact h.filed r (by omega)

theorem length_erase_resolved {m : AList (fun _ : Nat => AList (fun _ : Nat => Hash))}
    (hm : m.lookup round = some hashes) :
    (m.erase round).entries.length + 1 = m.entries.length := by
  have hmem : round ∈ m.keys := by
    rw [← AList.mem_keys, ← AList.lookup_isSome, hm]
    rfl
  have hlen : (m.erase round).entries.length = (m.keys.erase round).length := by
    rw [← AList.keys_erase]
    exact (length_map _).symm
  have hkeys : m.keys.length = m.entries.length := length_map _
  have hpos := length_pos_of_mem hmem
  rw [hlen, length_erase_of_mem hmem]
  omega

/-- **The cascade**: it reports complete rounds until it comes to one that is not. -/
theorem InOrder.deliverRound {fuel : Nat} (h : InOrder last count ds g)
    (hcount : g.params.nodeCount = count) (hround : round = g.round)
    (hlook : g.resolved.lookup round = some hashes) (hlen : hashes.entries.length = count)
    (hfuel : g.resolved.entries.length ≤ fuel) (hd : deliverRound fuel g round hashes = .ok g') :
    InOrder last count ds g' ∧ Waiting count g' := by
  induction fuel generalizing g round hashes with
  | zero =>
    -- A round on file needs an entry.
    have hone := length_erase_resolved hlook
    omega
  | succ fuel ih =>
    have hf : Files ds round hashes := by
      have hfiled := h.filed round (by omega)
      rwa [hlook] at hfiled
    unfold Blockmania.deliverRound at hd
    split at hd
    · cases hd
    next info _ _ =>
      dsimp only at hd
      have hone : InOrder last count ds (g.finishRound round (g.report info round hashes)) :=
        h.finishRound hround hf hlen info
      have hnext : (g.finishRound round (g.report info round hashes)).round = round + 1 := by
        rw [finishRound_round, hround]
      split at hd
      next hnone =>
        cases hd
        refine ⟨hone, ?_⟩
        intro hashes' hlook'
        rw [hnext, hnone] at hlook'
        cases hlook'
      next hlook' =>
        split at hd
        next hfull =>
          rw [finishRound_params, hcount] at hfull
          refine ih hone (by rw [finishRound_params, hcount]) hnext.symm hlook' hfull ?_ hd
          have hless := length_erase_resolved hlook
          rw [finishRound_resolved]
          omega
        next hpart =>
          cases hd
          rw [finishRound_params, hcount] at hpart
          refine ⟨hone, ?_⟩
          intro hashes'' hlook''
          rw [hnext, hlook'] at hlook''
          cases hlook''
          exact hpart

theorem Files.noteHash {node : Nat} {hash : Hash} (hf : Files ds round hashes)
    (hsame : ∀ cur, hashes.lookup node = some cur → cur = hash) :
    Files (ds ++ [⟨node, round, hash⟩]) round (noteHash hashes node hash) := by
  intro node' hash'
  rw [mem_append, mem_singleton]
  unfold Blockmania.noteHash
  split
  next hsome =>
    -- The node has the hash already.
    obtain ⟨cur, hcur⟩ := Option.isSome_iff_exists.mp hsome
    have heq := hsame cur hcur
    subst heq
    rw [hf]
    refine ⟨.inl, ?_⟩
    rintro (hmem | hnew)
    · exact hmem
    injection hnew with hn _ hh
    subst hn hh
    exact (hf _ _).mp hcur
  next hnone =>
    by_cases hn : node' = node
    · subst hn
      rw [AList.lookup_insert]
      constructor
      · intro heq
        injection heq with heq
        exact .inr (by rw [heq])
      rintro (hmem | hnew)
      · rw [(hf _ _).mpr hmem] at hnone
        exact absurd rfl hnone
      · injection hnew with _ _ hh
        rw [hh]
    rw [AList.lookup_insert_ne hn, hf]
    refine ⟨.inl, ?_⟩
    rintro (hmem | hnew)
    · exact hmem
    · injection hnew with hn' _ _
      exact absurd hn' hn

theorem Files.other {d : Decision} (hf : Files ds round hashes) (hne : d.round ≠ round) :
    Files (ds ++ [d]) round hashes := by
  intro node hash
  rw [hf, mem_append, mem_singleton]
  refine ⟨.inl, ?_⟩
  rintro (hmem | hnew)
  · exact hmem
  · exact absurd (by rw [← hnew]) hne

theorem InOrder.extend (h : InOrder last count ds g) {d : Decision} (hcb : g'.cb = g.cb)
    (hround : g'.round = g.round)
    (hfiled : ∀ r, g.round ≤ r → Files (ds ++ [d]) r ((g'.resolved.lookup r).getD ∅)) :
    InOrder last count (ds ++ [d]) g' where
  rounds := by rw [hcb]; exact h.rounds
  reports := by
    intro i hi
    rw [hcb] at hi
    obtain ⟨past, hpast, hcomplete⟩ := h.reports i hi
    exact ⟨past, hpast.trans (prefix_append ds [d]), hcomplete⟩
  round := by rw [hcb, hround]; exact h.round
  filed := by rw [hround]; exact hfiled

/-- **A decision keeps delivery in order.** -/
theorem InOrder.deliver {node : Nat} {hash : Hash} (h : InOrder last count ds g)
    (hw : Waiting count g) (hcount : g.params.nodeCount = count)
    (hd : deliver g node round hash = .ok g') :
    InOrder last count (ds ++ [⟨node, round, hash⟩]) g' ∧ Waiting count g' := by
  rcases deliver_cases hd with ⟨_, hg⟩ | ⟨hle, hsame, hashes, hhashes, hd⟩
  · -- The round is over.
    subst hg
    refine ⟨h.extend rfl rfl ?_, hw⟩
    intro r hr
    have hne : round ≠ r := by omega
    exact (h.filed r hr).other hne
  have hnew : Files (ds ++ [⟨node, round, hash⟩]) round hashes :=
    hhashes ▸ (h.filed round hle).noteHash hsame
  have hfiled : InOrder last count (ds ++ [⟨node, round, hash⟩])
      { g with resolved := g.resolved.insert round hashes } := by
    refine h.extend rfl rfl ?_
    intro r hr
    by_cases heq : r = round
    · rw [heq, AList.lookup_insert]
      exact hnew
    · rw [AList.lookup_insert_ne heq]
      exact (h.filed r hr).other (Ne.symm heq)
  rcases hd with ⟨hg, hpart⟩ | ⟨hround, hlen, hd⟩
  · subst hg
    refine ⟨hfiled, ?_⟩
    intro hashes' hlook
    by_cases heq : g.round = round
    · rw [heq, AList.lookup_insert] at hlook
      cases hlook
      exact hcount ▸ hpart heq.symm
    · rw [AList.lookup_insert_ne heq] at hlook
      exact hw hashes' hlook
  · exact hfiled.deliverRound hcount hround (AList.lookup_insert _) (hlen.trans hcount)
      (Nat.le_refl _) hd

end Deliver

/-! ## §4. A run. -/

section Run
variable {last count : Nat} {ds : List Decision} {g g' : Graph}

/-- Delivery between two steps of a graph of `count` nodes. -/
structure Delivers (last count : Nat) (ds : List Decision) (g : Graph) : Prop where
  order : InOrder last count ds g
  waiting : Waiting count g
  nodes : g.params.nodeCount = count

variable {e : Entry} {s' : State} {ds' : List Decision}

theorem Delivers.call {c : Call} (h : Delivers last count ds c.graph)
    (hcall : processMessage c.graph c.state c.sender e.block.node e.block c.msg
      = .ok (g', s', c.resp)) : Delivers last count (ds ++ (c.decision e).toList) g' := by
  obtain ⟨r, hr, hcall⟩ := bind_eq_ok.mp hcall
  obtain ⟨g1, hg1, hcall⟩ := bind_eq_ok.mp hcall
  injection hcall with hcall
  injection hcall with hg _
  subst hg
  unfold Call.decision
  rw [hr]
  cases hdec : r.decided with
  | none =>
    rw [hdec] at hg1
    cases hg1
    simp only [hdec, Option.map_none, Option.toList_none, append_nil]
    exact ⟨h.order.congr rfl rfl rfl, h.waiting, h.nodes⟩
  | some =>
    rw [hdec] at hg1
    have hstart : InOrder last count ds { c.graph with heap := r.heap } :=
      h.order.congr rfl rfl rfl
    have hdel := hstart.deliver h.waiting h.nodes hg1
    have hk := deliver_kept hg1
    simp only [hdec, Option.map_some, Option.toList_some]
    exact ⟨hdel.1, hdel.2, hk.params ▸ h.nodes⟩

section
variable (h : Delivers last count ds g)
include h

theorem Delivers.log {src : Nat → Message → Prop} {s : State} {cs : List Call}
    (hl : Log e.block.node e.block src g s cs g' s') :
    Delivers last count (ds ++ decisionsOf e cs) g' := by
  induction hl with
  | nil =>
    rw [decisionsOf, filterMap_nil, append_nil]
    exact h
  | @snoc cs c g1 s1 _ _ hcall ih =>
    have hstep := Delivers.call ih hcall
    have hsplit : decisionsOf e (cs ++ [c]) = decisionsOf e cs ++ (c.decision e).toList := by
      unfold decisionsOf
      cases hd : c.decision e <;> simp [hd]
    rw [hsplit, ← append_assoc]
    exact hstep

theorem Delivers.beginBlock {first : List Message} (hb : beginBlock g e = .ok (g', s', first)) :
    Delivers last count ds g' := by
  rw [beginBlock_graph hb]
  exact ⟨h.order.congr rfl rfl rfl, h.waiting, h.nodes⟩

theorem Delivers.process
    (hp : processDeciding (g, ds) e = .ok (g', ds')) : Delivers last count ds' g' := by
  obtain ⟨⟨g1, s, calls⟩, hi, hp⟩ := bind_eq_ok.mp hp
  injection hp with hp
  cases hp
  obtain ⟨g2, s2, first, s3, hb, hl, _⟩ := interpret_log hi
  have hend := (h.beginBlock hb).log hl
  exact ⟨hend.order.congr rfl rfl rfl, hend.waiting, hend.nodes⟩

theorem Delivers.foldlM_process {es : List Entry}
    (hp : es.foldlM processDeciding (g, ds) = .ok (g', ds')) :
    Delivers last count ds' g' :=
  foldlM_inv (fun x : Graph × List Decision => Delivers last count x.2 x.1) h
    (fun _ _ _ _ hx hstep => hx.process hstep) hp

end

theorem delivers_new (nodes : List Nat) (lastInterpreted : Nat) (grow : Nat → Nat) :
    Delivers lastInterpreted nodes.length [] (new nodes lastInterpreted grow) where
  order := {
    rounds := rfl
    reports := fun _ hi => absurd hi (by simp [new])
    round := rfl
    filed := by
      intro r _ node hash
      simp [new] }
  waiting := fun _ hlook => absurd hlook (by simp [new])
  nodes := rfl

theorem Delivers.foldlM_addBlock {datas : List BlockGraph}
    (h : Delivers last count ds g) (hp : datas.foldlM addDeciding (g, ds) = .ok (g', ds')) :
    Delivers last count ds' g' := by
  refine foldlM_inv (fun x : Graph × List Decision => Delivers last count x.2 x.1) h ?_ hp
  intro data _ x y hx hstep
  have hreg : Delivers last count x.2 (register x.1 data) :=
    ⟨hx.order.congr rfl rfl rfl, hx.waiting, hx.nodes⟩
  exact hreg.foldlM_process hstep

theorem Decided.delivers {nodes : List Nat} {lastInterpreted : Nat} {grow : Nat → Nat}
    {datas : List BlockGraph} (h : Decided nodes lastInterpreted grow datas ds g) :
    Delivers lastInterpreted nodes.length ds g := by
  have hnew := delivers_new nodes lastInterpreted grow
  cases h with
  | rest h => exact hnew.foldlM_addBlock h
  | @calls datas data pre post e g0 g1 g2 g s2 s first cs ds0 ds1 h _ hpre hbegin hlog =>
    have h0 := hnew.foldlM_addBlock h
    have hreg : Delivers lastInterpreted nodes.length ds0 (register g0 data) :=
      ⟨h0.order.congr rfl rfl rfl, h0.waiting, h0.nodes⟩
    exact ((hreg.foldlM_process hpre).beginBlock hbegin).log hlog

end Run

/-! ## §5. What the decisions are about. -/

section About
variable {P : Nat → Nat → Hash → Prop} {A : Nat → Prop} {ds ds' : List Decision} {g g' : Graph}
  {e : Entry}

def DecisionListAbout (P : Nat → Nat → Hash → Prop) (ds : List Decision) : Prop :=
  ∀ d ∈ ds, P d.node d.round d.hash

theorem CallsAbout.decides (hP : ∀ n r hash, P n r hash → P n r []) {s s' : State}
    {src : Nat → Message → Prop} {cs : List Call} (hc : CallsAbout P A g s)
    (hA : A e.block.node) (hsrc : ∀ x m, src x m → MessageAbout P A m)
    (hl : Log e.block.node e.block src g s cs g' s') : DecisionListAbout P (decisionsOf e cs) := by
  have h0 : DecisionListAbout P (decisionsOf e []) := fun d hd => absurd hd (by simp [decisionsOf])
  refine (hl.inv (I := fun cs g s => CallsAbout P A g s ∧ DecisionListAbout P (decisionsOf e cs))
    ⟨hc, h0⟩ hsrc (fun _ _ hm => hm) ?_).1.2
  intro cs c g1 s1 hcur hm hcall
  obtain ⟨hend, hresp⟩ := hcur.1.processMessage hP hA hm hcall
  refine ⟨⟨hend, ?_⟩, hresp⟩
  intro d hd
  unfold decisionsOf at hd
  rw [filterMap_append] at hd
  rcases mem_append.mp hd with hd | hd
  · exact hcur.2 d hd
  obtain ⟨c', hc', hd⟩ := mem_filterMap.mp hd
  rw [mem_singleton.mp hc'] at hd
  unfold Call.decision at hd
  split at hd
  next hr =>
    obtain ⟨hash, hhash, heq⟩ := Option.map_eq_some_iff.mp hd
    have habout := (react_cases hr).about hP rfl hA hcur.1.state hm
    exact heq ▸ habout.decided hash hhash
  · cases hd

theorem GraphAbout.decides (hP : ∀ n r hash, P n r hash → P n r []) {g1 : Graph}
    {s1 s2 : State} {first : List Message} {cs : List Call} (hg : GraphAbout P A g)
    (hb : BlockAbout P A g.params.nodes e.block)
    (hbegin : Blockmania.beginBlock g e = .ok (g1, s1, first))
    (hlog : Log e.block.node e.block (Source g e first) g1 s1 cs g' s2) :
    DecisionListAbout P (decisionsOf e cs) := by
  obtain ⟨hcalls, hfirst⟩ := hg.beginBlock hb hbegin
  refine hcalls.decides hP hb.author ?_ hlog
  rintro x m (⟨_, hm⟩ | ⟨dep, _, _, hm⟩)
  · exact hfirst m hm
  · obtain ⟨st, hst, hm⟩ := mem_getOutput hm
    exact (hg.states dep st hst).2.2 m hm

/-- The decisions so far, with the graph they come from. -/
structure DecidingAbout (P : Nat → Nat → Hash → Prop) (A : Nat → Prop) (nodes : List Nat)
    (x : Graph × List Decision) : Prop where
  graph : GraphAbout P A x.1
  nodes : x.1.params.nodes = nodes
  decisions : DecisionListAbout P x.2

variable {nodes : List Nat}

section
variable (hP : ∀ n r hash, P n r hash → P n r [])
include hP

theorem DecidingAbout.process {x y : Graph × List Decision} (hx : DecidingAbout P A nodes x)
    (hb : BlockAbout P A nodes e.block) (h : processDeciding x e = .ok y) :
    DecidingAbout P A nodes y := by
  obtain ⟨⟨g1, s, calls⟩, hi, h⟩ := bind_eq_ok.mp h
  cases h
  have hb : BlockAbout P A x.1.params.nodes e.block := hx.nodes ▸ hb
  have hprocess : Blockmania.process x.1 e = .ok { g1 with statess := g1.statess.set e.block s } :=
    bind_eq_ok.mpr ⟨_, hi, rfl⟩
  obtain ⟨g2, s2, first, s3, hbegin, hlog, _⟩ := interpret_log hi
  refine ⟨hx.graph.process hP hb hprocess, ?_, ?_⟩
  · have hparams := process_params hprocess
    rw [← hx.nodes]
    exact congrArg Params.nodes hparams
  intro d hd
  rcases mem_append.mp hd with hd | hd
  · exact hx.decisions d hd
  · exact hx.graph.decides hP hb hbegin hlog d hd

theorem DecidingAbout.addBlock {pre : List Entry} {data : BlockGraph} {x y : Graph × List Decision}
    (hx : DecidingAbout P A nodes x) (hb : ∀ b ∈ added [data], BlockAbout P A nodes b)
    (hpre : ∀ e ∈ pre, e ∈ entriesOf data)
    (h : pre.foldlM processDeciding (register x.1 data, x.2) = .ok y) :
    DecidingAbout P A nodes y := by
  refine foldlM_inv (DecidingAbout P A nodes) ?_ ?_ h
  · exact ⟨⟨hx.graph.states, hx.graph.decisions.resolved, hx.graph.decisions.reports⟩, hx.nodes,
      hx.decisions⟩
  · intro e he x1 x2 hx1 hstep
    exact hx1.process hP (hb e.block (mem_entriesOf (hpre e he))) hstep

/-- **Decisions are about what the blocks bring in.** -/
theorem Decided.about {lastInterpreted : Nat} {grow : Nat → Nat} {datas : List BlockGraph}
    (hb : ∀ b ∈ added datas, BlockAbout P A nodes b)
    (h : Decided nodes lastInterpreted grow datas ds g) : DecisionListAbout P ds := by
  have hrun : ∀ datas ds g, (∀ b ∈ added datas, BlockAbout P A nodes b) →
      datas.foldlM addDeciding (new nodes lastInterpreted grow, []) = .ok (g, ds) →
      DecidingAbout P A nodes (g, ds) := by
    intro datas ds g hb h
    refine foldlM_inv (DecidingAbout P A nodes) ?_ ?_ h
    · exact ⟨graphAbout_new nodes lastInterpreted grow, rfl, fun d hd => absurd hd (by simp)⟩
    intro data hdata x y hx hstep
    refine hx.addBlock hP ?_ (fun e he => he) hstep
    intro b hmem
    unfold added at hmem hb
    rw [flatMap_singleton] at hmem
    exact hb b (mem_flatMap.mpr ⟨data, hdata, hmem⟩)
  cases h with
  | rest h => exact (hrun _ _ _ hb h).decisions
  | @calls datas data pre post e g0 g1 g2 g s2 s first cs ds0 ds1 h hentries hpre hbegin hlog =>
    rw [added_append] at hb
    have hentry : ∀ b ∈ added [data], BlockAbout P A nodes b := fun b hmem =>
      hb b (mem_append_right _ hmem)
    have h0 := hrun _ _ _ (fun b hmem => hb b (mem_append_left _ hmem)) h
    have h1 := h0.addBlock hP hentry (fun e he => hentries ▸ mem_append_left _ he) hpre
    have he : e ∈ entriesOf data := hentries ▸ mem_append_right _ mem_cons_self
    have hblock : BlockAbout P A g1.params.nodes e.block :=
      h1.nodes.symm ▸ hentry e.block (mem_entriesOf he)
    intro d hd
    rcases mem_append.mp hd with hd | hd
    · exact h1.decisions d hd
    · exact h1.graph.decides hP hblock hbegin hlog d hd

end

end About

/-! ## §6. The result. -/

/-- **Rounds are delivered contiguously and completely.** At every moment of every graph the rounds
reported are those after `lastInterpreted`, in order, without gap or repetition; each report has the
blocks of the decisions up to it, one for each node, in ascending order of their hashes; and a
complete round has been reported. -/
theorem rounds_delivered_in_order {nodes : List Nat} {lastInterpreted : Nat} {grow : Nat → Nat}
    {datas : List BlockGraph} {g : Graph} {current : Option State}
    (h : Reaches nodes lastInterpreted grow datas g current) :
    ∃ ds, Decided nodes lastInterpreted grow datas ds g ∧
      InOrder lastInterpreted nodes.length ds g ∧ Waiting nodes.length g := by
  obtain ⟨ds, hds⟩ := h.decided
  exact ⟨ds, hds, hds.delivers.order, hds.delivers.waiting⟩

/-- Two nodes deliver the two rounds of their blocks. -/
theorem rounds_delivered_in_order_two :
    let datas := [ownAt 1 1 [], ownAt 1 2 [depAt 2 1 [], depAt 2 2 []]]
    ∃ g, Reaches [1, 2] 0 (2 * ·) datas g none ∧ g.cb.map Interpreted.round = [1, 2] ∧
      ∃ ds, Decided [1, 2] 0 (2 * ·) datas ds g ∧ InOrder 0 2 ds g ∧ Waiting 2 g := by
  intro datas
  have heval : endsIn (datas.foldlM addBlock (new [1, 2] 0 (2 * ·)))
      (fun g => g.cb.map Interpreted.round = [1, 2]) = true := by
    decide +kernel
  obtain ⟨g, hg, hcb⟩ := exists_of_endsIn heval fun _ _ h => h
  exact ⟨g, .rest hg, hcb, rounds_delivered_in_order (.rest hg)⟩

end Chainspace.Blockmania
