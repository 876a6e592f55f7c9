/-
  Chainspace.Blockmania.Chain — the states of one author's blocks, linked by `prev`.

  A `Block` is one run of `process`; a `Chain` is a list of them, newest first, each starting from
  the state its predecessor stored. Other blocks may come in between, and the heap may hold
  anything.

  `Chain.rule` is the induction over a chain. An invariant speaks about the blocks so far, the
  messages put out and the current state; it is checked at the clone, the own proposal, each timeout
  that fires and each call of `processMessage`.
-/
import Chainspace.Blockmania.Calls

namespace Chainspace.Blockmania

open Chainspace.Lib List

/-! ## §1. The states `process` goes through before its first call. -/

structure SameVotes (s s' : State) : Prop where
  data : s'.data = s.data
  bitsets : s'.bitsets = s.bitsets
  final : s'.final = s.final

variable {s : State} {e : Entry} {g : Graph} {h : Heap} {m : Message} {b : Block} {bs : List Block}

theorem SameVotes.viewOf {s' : State} (h : SameVotes s s') (k : NodeRound) :
    s'.viewOf k = s.viewOf k := by
  unfold State.viewOf
  rw [h.data]

theorem schedule_votes (p : Params) (round tround : Nat) (h : Heap) (s : State) :
    SameVotes s (schedule p round tround h s).2 := by
  refine foldl_inv (fun hs : Heap × State => SameVotes s hs.2) ⟨rfl, rfl, rfl⟩ ?_
  intro x _ hs hsame
  exact ⟨hsame.data, hsame.bitsets, hsame.final⟩

theorem openBlock_votes
    (ho : openBlock g e = .ok (h, s)) : SameVotes (findOrCreateState g e) s := by
  obtain ⟨tval, _, ho⟩ := bind_eq_ok.mp ho
  injection ho with ho
  have hs := schedule_votes g.params e.block.round ((e.block.round + tval) % 2 ^ 64) g.heap
    { findOrCreateState g e with
      delay := addDelays e.block.round e.deps (findOrCreateState g e).delay
      timeout := tval }
  rw [ho] at hs
  exact ⟨hs.data, hs.bitsets, hs.final⟩

/-- A due timeout does nothing if the round is closed or past its view; otherwise it moves to the
next view and says so. -/
theorem fireTimeout_cases (author : Nat) (s : State) (out : List Message) (t : Timeout) :
    (((s.data.final ⟨t.node, t.round⟩).isSome ∨ t.view < s.viewOf ⟨t.node, t.round⟩) ∧
        fireTimeout author (s, out) t = (s, out)) ∨
      (s.data.final ⟨t.node, t.round⟩ = none ∧ s.viewOf ⟨t.node, t.round⟩ ≤ t.view ∧
        fireTimeout author (s, out) t =
          (s.putView ⟨t.node, t.round⟩ ((s.viewOf ⟨t.node, t.round⟩ + 1) % 2 ^ 32),
            out ++ [.viewChange ⟨(s.data.prepared ⟨t.node, t.round, t.view⟩).getD [], t.node,
              t.round, author, (t.view + 1) % 2 ^ 32⟩])) := by
  unfold fireTimeout
  dsimp only
  split
  next hf => exact .inl ⟨.inl hf, rfl⟩
  next hf =>
    split
    next hv => exact .inl ⟨.inr hv, rfl⟩
    next hv => exact .inr ⟨by simpa using hf, Nat.le_of_not_lt hv, rfl⟩

/-- The timeout loop adds one view change for each timeout that finds its round open and not past
its view. -/
theorem viewChange_mem_foldl (author : Nat) (vc : ViewChange) (ts : List Timeout)
    (acc : State × List Message) :
    .viewChange vc ∈ (ts.foldl (fireTimeout author) acc).2 ↔ .viewChange vc ∈ acc.2 ∨
        ∃ (pre : List Timeout) (t : Timeout) (post : List Timeout) (s : State),
        ts = pre ++ t :: post ∧
        s = (pre.foldl (fireTimeout author) acc).1 ∧
        s.data.final ⟨t.node, t.round⟩ = none ∧ s.viewOf ⟨t.node, t.round⟩ ≤ t.view ∧
        vc = ⟨(s.data.prepared ⟨t.node, t.round, t.view⟩).getD [], t.node, t.round, author,
          (t.view + 1) % 2 ^ 32⟩ := by
  induction ts generalizing acc with
  | nil => simp
  | cons t ts ih =>
    rw [foldl_cons, ih]
    obtain ⟨s, out⟩ := acc
    -- The first timeout is `t` itself or lies in `ts`.
    constructor
    · rintro (hmem | ⟨pre, t', post, s', hts, hs', hrest⟩)
      · rcases fireTimeout_cases author s out t with ⟨_, h⟩ | ⟨hf, hv, h⟩
        · rw [h] at hmem
          exact .inl hmem
        rw [h] at hmem
        rcases mem_append.mp hmem with hmem | hmem
        · exact .inl hmem
        have hvc := mem_singleton.mp hmem
        injection hvc with hvc
        exact .inr ⟨[], t, ts, s, rfl, rfl, hf, hv, hvc⟩
      · exact .inr ⟨t :: pre, t', post, s', by rw [hts]; rfl, hs', hrest⟩
    rintro (hmem | ⟨pre, t', post, s', hts, hs', hf, hv, hvc⟩)
    · refine .inl ?_
      rcases fireTimeout_cases author s out t with ⟨_, h⟩ | ⟨_, _, h⟩
      · rw [h]
        exact hmem
      · rw [h]
        exact mem_append_left _ hmem
    cases pre with
    | nil =>
      injection hts with ht hts
      have hs' : s' = s := hs'
      subst ht
      rw [hs'] at hf hv hvc
      refine .inl ?_
      rcases fireTimeout_cases author s out t with ⟨hstale, h⟩ | ⟨_, _, h⟩
      · -- A closed or moved round contradicts that the timeout fires.
        exfalso
        rcases hstale with hstale | hstale
        · rw [hf] at hstale
          cases hstale
        · exact absurd hv (Nat.not_le.mpr hstale)
      · rw [h, hvc]
        exact mem_append_right _ mem_cons_self
    | cons t0 pre =>
      injection hts with ht hts
      subst ht
      exact .inr ⟨pre, t', post, s', hts, hs', hf, hv, hvc⟩

def Entry.proposal (e : Entry) : Message :=
  .prePrepare ⟨e.block.hash, e.block.node, e.block.round, 0⟩

/-- The variables of the timeout loop of an entry after the timeouts `ts`. -/
def Entry.fired (e : Entry) (s : State) (ts : List Timeout) : State × List Message :=
  ts.foldl (fireTimeout e.block.node) (s, [e.proposal])

structure FiredKept (s s' : State) : Prop where
  bitsets : s'.bitsets = s.bitsets
  final : s'.final = s.final
  timeouts : s'.timeouts = s.timeouts
  dataFinal : s'.data.final = s.data.final
  prepared : s'.data.prepared = s.data.prepared
  viewChanged : s'.data.viewChanged = s.data.viewChanged

theorem fired_kept (e : Entry) (s : State) (ts : List Timeout) : FiredKept s (e.fired s ts).1 := by
  refine foldl_inv (fun acc : State × List Message => FiredKept s acc.1)
    ⟨rfl, rfl, rfl, rfl, rfl, rfl⟩ ?_
  rintro t _ ⟨s', out⟩ hk
  rcases fireTimeout_cases e.block.node s' out t with ⟨_, h⟩ | ⟨_, _, h⟩
  · rw [h]
    exact hk
  rw [h]
  exact ⟨hk.bitsets, hk.final, hk.timeouts, hk.dataFinal, hk.prepared, hk.viewChanged⟩

theorem mem_fired {ts : List Timeout} (hm : m ∈ (e.fired s ts).2) : m = e.proposal ∨
      ∃ (pre : List Timeout) (t : Timeout) (post : List Timeout), ts = pre ++ t :: post ∧
        (e.fired s pre).1.viewOf ⟨t.node, t.round⟩ ≤ t.view ∧
        m = .viewChange ⟨((e.fired s pre).1.data.prepared ⟨t.node, t.round, t.view⟩).getD [],
          t.node, t.round, e.block.node, (t.view + 1) % 2 ^ 32⟩ := by
  refine foldl_inv_split (fun acc : State × List Message => m ∈ acc.2 → m = e.proposal ∨ _) ?_ ?_ hm
  · exact fun hm => .inl (mem_singleton.mp hm)
  intro pre t post hts ih hm
  have hacc : pre.foldl (fireTimeout e.block.node) (s, [e.proposal]) =
      ((e.fired s pre).1, (e.fired s pre).2) := rfl
  rw [hacc] at hm ih
  rcases fireTimeout_cases e.block.node (e.fired s pre).1 (e.fired s pre).2 t with
    ⟨_, h⟩ | ⟨_, hv, h⟩
  · rw [h] at hm
    exact ih hm
  rw [h] at hm
  rcases mem_append.mp hm with hm | hm
  · exact ih hm
  · exact .inr ⟨pre, t, post, hts, hv, mem_singleton.mp hm⟩

def delayed (g : Graph) (e : Entry) (tval : Nat) : State :=
  { findOrCreateState g e with
    delay := addDelays e.block.round e.deps (findOrCreateState g e).delay
    timeout := tval }

/-- Opening a block: its delays give its view timeout, and its timeouts are scheduled. -/
theorem openBlock_cases (ho : openBlock g e = .ok (h, s)) :
    ∃ tval, timeoutValue g.params (addDelays e.block.round e.deps (findOrCreateState g e).delay) =
        .ok tval ∧
      schedule g.params e.block.round ((e.block.round + tval) % 2 ^ 64) g.heap
        (delayed g e tval) = (h, s) := by
  obtain ⟨tval, htval, ho⟩ := bind_eq_ok.mp ho
  injection ho with ho
  exact ⟨tval, htval, ho⟩

theorem beginBlock_cases {g1 : Graph} {s1 : State} {first : List Message}
    (hb : beginBlock g e = .ok (g1, s1, first)) :
    ∃ h s, openBlock g e = .ok (h, s) ∧ g1 = { g with heap := h } ∧
      (s1, first) = e.fired s (h.read e.block.round (s.timeouts e.block.round)) := by
  obtain ⟨⟨h, s⟩, ho, hb⟩ := bind_eq_ok.mp hb
  injection hb with hb
  injection hb with hg hb
  injection hb with hs hfirst
  refine ⟨h, s, ho, hg.symm, ?_⟩
  rw [← hs, ← hfirst]
  rfl

/-! ## §2. Blocks and chains. -/

/-- A block together with the run of `process` that interpreted it. -/
structure Block where
  graph : Graph
  entry : Entry
  after : Graph
  state : State
  calls : List Call
  ok : interpret graph entry = .ok (after, state, calls)

namespace Block

def author (b : Block) : Nat := b.entry.block.node

/-- The rounds below this one are dropped when the block clones. -/
def minround (b : Block) : Nat := b.graph.round

def opened (b : Block) : Heap × State :=
  match openBlock b.graph b.entry with
  | .ok hs => hs
  | .error _ => (b.graph.heap, State.empty)

def due (b : Block) : List Timeout :=
  b.opened.1.read b.entry.block.round (b.opened.2.timeouts b.entry.block.round)

/-- The variables of its timeout loop after the timeouts `ts`. -/
def fired (b : Block) (ts : List Timeout) : State × List Message := b.entry.fired b.opened.2 ts

def first (b : Block) : List Message := (b.fired b.due).2

theorem openBlock_eq (b : Block) : openBlock b.graph b.entry = .ok b.opened := by
  obtain ⟨g1, s1, first, s2, hb, _⟩ := interpret_log b.ok
  obtain ⟨_, ho, _⟩ := bind_eq_ok.mp hb
  unfold opened
  rw [ho]

theorem opened_votes (b : Block) : SameVotes (findOrCreateState b.graph b.entry) b.opened.2 :=
  openBlock_votes b.openBlock_eq

theorem beginBlock_eq (b : Block) : beginBlock b.graph b.entry =
      .ok ({ b.graph with heap := b.opened.1 }, (b.fired b.due).1, b.first) := by
  unfold beginBlock
  rw [b.openBlock_eq]
  rfl

theorem log (b : Block) : ∃ s, Log b.author b.entry.block (Source b.graph b.entry b.first)
        { b.graph with heap := b.opened.1 } (b.fired b.due).1 b.calls b.after s ∧
      b.state = { s with out := b.first ++ responses b.calls } := by
  obtain ⟨g1, s1, first, s2, hb, hl, hs⟩ := interpret_log b.ok
  rw [b.beginBlock_eq] at hb
  injection hb with hb
  injection hb with hg hb
  injection hb with hs1 hf
  subst hg hs1 hf
  exact ⟨s2, hl, hs⟩

theorem fired_data (b : Block) (ts : List Timeout) :
    (b.fired ts).1.data.prepared = (findOrCreateState b.graph b.entry).data.prepared ∧
      (b.fired ts).1.data.final = (findOrCreateState b.graph b.entry).data.final := by
  have hkept := fired_kept b.entry b.opened.2 ts
  rw [← b.opened_votes.data]
  exact ⟨hkept.prepared, hkept.dataFinal⟩

theorem out_eq (b : Block) : b.state.out = b.first ++ responses b.calls := by
  obtain ⟨s, _, hs⟩ := b.log
  rw [hs]

theorem resp_ne_viewChange {p : Params} {h : Heap} {s : State} {sender receiver : Nat}
    {origin : BlockID} {msg : Message} {r : Reaction}
    (hr : Reacts p h s sender receiver origin msg r) (vc : ViewChange) :
    r.resp ≠ some (.viewChange vc) := by
  cases hr <;> simp [Reaction.quiet]

/-- **The view changes of a block** are those of its timeout loop. -/
theorem viewChange_mem_out (b : Block) (vc : ViewChange) : .viewChange vc ∈ b.state.out ↔
      ∃ (pre : List Timeout) (t : Timeout) (post : List Timeout), b.due = pre ++ t :: post ∧
      (b.fired pre).1.data.final ⟨t.node, t.round⟩ = none ∧
      (b.fired pre).1.viewOf ⟨t.node, t.round⟩ ≤ t.view ∧
      vc = ⟨((b.fired pre).1.data.prepared ⟨t.node, t.round, t.view⟩).getD [], t.node, t.round,
        b.author, (t.view + 1) % 2 ^ 32⟩ := by
  have hresp : .viewChange vc ∉ responses b.calls := by
    intro hmem
    obtain ⟨c, hc, hresp⟩ := mem_responses.mp hmem
    obtain ⟨s, hl, _⟩ := b.log
    obtain ⟨r, hr, hresp'⟩ := hl.reacts hc
    exact resp_ne_viewChange hr vc (hresp' ▸ hresp)
  have hfirst : .viewChange vc ∈ b.state.out ↔ .viewChange vc ∈ b.first := by
    rw [b.out_eq, mem_append]
    exact or_iff_left hresp
  rw [hfirst]
  unfold first fired Entry.fired
  rw [viewChange_mem_foldl]
  constructor
  · rintro (hmem | ⟨pre, t, post, s, hdue, hs, hrest⟩)
    · exact absurd (mem_singleton.mp hmem) (by simp [Entry.proposal])
    · subst hs
      exact ⟨pre, t, post, hdue, hrest⟩
  · rintro ⟨pre, t, post, hdue, hrest⟩
    exact .inr ⟨pre, t, post, _, hdue, rfl, hrest⟩

theorem not_mem_first (b : Block) {m : Message} (hvc : ∀ vc, m ≠ .viewChange vc)
    (hp : m ≠ b.entry.proposal) : m ∉ b.first := by
  intro hm
  rcases mem_fired hm with heq | ⟨_, _, _, _, _, heq⟩
  · exact hp heq
  · exact hvc _ heq

end Block

/-- `b` is interpreted after `a`, from the state stored for `a`. -/
structure Follows (b a : Block) : Prop where
  prev : b.entry.prev = a.entry.block
  valid : b.entry.prev.valid = true
  node : b.author = a.author
  round : b.entry.block.round = a.entry.block.round + 1
  state : b.graph.statess b.entry.prev = some a.state

/-- The blocks of a chain, newest first.  The oldest starts from the empty state. -/
inductive Chain : List Block → Prop
  | start {b : Block} (h : findOrCreateState b.graph b.entry = State.empty) : Chain [b]
  | next {b a : Block} {rest : List Block} (hf : Follows b a) (hc : Chain (a :: rest)) :
      Chain (b :: a :: rest)

/-- The messages of a chain, oldest first. -/
def emitted : List Block → List Message
  | [] => []
  | b :: rest => emitted rest ++ b.state.out

def Unpruned (round : Nat) (bs : List Block) : Prop := ∀ b ∈ bs, b.minround ≤ round

theorem Follows.findOrCreateState {a : Block} (h : Follows b a) :
    findOrCreateState b.graph b.entry = clone (some a.state) b.minround := by
  unfold Blockmania.findOrCreateState
  rw [if_pos h.valid, h.state]
  rfl

theorem Chain.suffix {rest : List Block} (hc : Chain bs)
    (hs : (b :: rest) <:+ bs) : Chain (b :: rest) := by
  induction hc with
  | @start b' h =>
    obtain ⟨hb, hr⟩ | hs := suffix_cons_iff.mp hs
    · exact .start h
    · exact absurd (suffix_nil.mp hs) (by simp)
  | @next b' a' rest' hf hc ih =>
    obtain heq | hs := suffix_cons_iff.mp hs
    · rw [heq]
      exact .next hf hc
    · exact ih hs

theorem mem_emitted : m ∈ emitted bs ↔ ∃ b ∈ bs, m ∈ b.state.out := by
  induction bs with
  | nil => simp [emitted]
  | cons b bs ih => simp [emitted, ih, or_comm]

theorem suffix_map_state {rest : List State} (h : (s :: rest) <:+ bs.map Block.state) :
    ∃ b rest', (b :: rest') <:+ bs ∧ s = b.state ∧ rest = rest'.map Block.state := by
  obtain ⟨pre, hpre⟩ := h
  obtain ⟨l, l', hbs, _, hl'⟩ := map_eq_append_iff.mp hpre.symm
  obtain ⟨b, rest', hl, hb, hrest⟩ := map_eq_cons_iff.mp hl'
  exact ⟨b, rest', ⟨l, by rw [hbs, hl]⟩, hb.symm, hrest.symm⟩

/-! ## §3. Induction. -/

theorem Log.rule {P : List Call → State → Prop} {receiver : Nat} {origin : BlockID}
    {src : Nat → Message → Prop} {g' : Graph} {s' : State} {calls : List Call}
    (hl : Log receiver origin src g s calls g' s') (h0 : P [] s)
    (hstep : ∀ (pre : List Call) (c : Call) (post : List Call), calls = pre ++ c :: post →
      P pre c.state → ∀ r : Reaction,
        Reacts c.graph.params c.graph.heap c.state c.sender receiver origin c.msg r →
        c.resp = r.resp → P (pre ++ [c]) r.state) :
    P calls s' ∧ ∀ (pre : List Call) (c : Call) (post : List Call),
      calls = pre ++ c :: post → P pre c.state := by
  induction hl with
  | nil =>
    refine ⟨h0, ?_⟩
    intro pre c post hnil
    simp at hnil
  | @snoc cs c g1 s1 _ _ hcall ih =>
    -- A split of `cs` is a split of `cs ++ [c]` with a longer end.
    have hprev := ih (fun pre c' post hsplit hp r hr hresp =>
      hstep pre c' (post ++ [c]) (by rw [hsplit]; simp) hp r hr hresp)
    obtain ⟨r, hr, hs1, hresp, _⟩ := processMessage_reacts hcall
    constructor
    · rw [hs1]
      exact hstep cs c [] rfl hprev.1 r hr hresp
    intro pre c' post hsplit
    rcases eq_nil_or_concat post with hpost | ⟨post', x, hpost⟩
    · subst hpost
      obtain ⟨hcs, hc⟩ := append_inj' hsplit rfl
      injection hc with hc
      rw [← hcs, ← hc]
      exact hprev.1
    subst hpost
    have hsplit' : cs ++ [c] = (pre ++ c' :: post') ++ [x] := by
      rw [hsplit]
      simp
    obtain ⟨hcs, _⟩ := append_inj' hsplit' rfl
    exact hprev.2 pre c' post' hcs

/-- **The induction over a chain**: an invariant that survives the clone, the proposal, every
timeout that fires and every call. -/
theorem Chain.rule {I : List Block → List Message → State → Prop} (hc : Chain bs)
    (hstart : ∀ b : Block, I [b] [] State.empty)
    (hclone : ∀ (b a : Block) (rest : List Block), (b :: a :: rest) <:+ bs →
      I (a :: rest) (emitted (a :: rest)) a.state →
      I (b :: a :: rest) (emitted (a :: rest)) (clone (some a.state) b.minround))
    (hframe : ∀ (l : List Block) (em : List Message) (s s' : State), SameVotes s s' →
      I l em s → I l em s')
    (hpropose : ∀ (b : Block) (rest : List Block) (s : State), (b :: rest) <:+ bs →
      SameVotes (findOrCreateState b.graph b.entry) s →
      I (b :: rest) (emitted rest) s → I (b :: rest) (emitted rest ++ [b.entry.proposal]) s)
    (hfire : ∀ (b : Block) (rest : List Block) (em : List Message) (s : State) (t : Timeout),
      (b :: rest) <:+ bs →
      s.data.final ⟨t.node, t.round⟩ = none → s.viewOf ⟨t.node, t.round⟩ ≤ t.view →
      I (b :: rest) em s →
      I (b :: rest)
        (em ++ [.viewChange ⟨(s.data.prepared ⟨t.node, t.round, t.view⟩).getD [], t.node, t.round,
          b.author, (t.view + 1) % 2 ^ 32⟩])
        (s.putView ⟨t.node, t.round⟩ ((s.viewOf ⟨t.node, t.round⟩ + 1) % 2 ^ 32)))
    (hcall : ∀ (b : Block) (rest : List Block) (pre : List Call) (c : Call) (post : List Call),
      (b :: rest) <:+ bs → b.calls = pre ++ c :: post →
      I (b :: rest) (emitted rest ++ b.first ++ responses pre) c.state →
      ∀ r : Reaction,
        Reacts c.graph.params c.graph.heap c.state c.sender b.author b.entry.block c.msg r →
        c.resp = r.resp →
        I (b :: rest) (emitted rest ++ b.first ++ responses pre ++ c.resp.toList) r.state) :
    ∀ (b : Block) (rest : List Block), (b :: rest) <:+ bs →
      I (b :: rest) (emitted (b :: rest)) b.state ∧
      ∀ (pre : List Call) (c : Call) (post : List Call), b.calls = pre ++ c :: post →
        I (b :: rest) (emitted rest ++ b.first ++ responses pre) c.state := by
  -- One block, from the invariant of the state it clones.
  have hblock : ∀ (b : Block) (rest : List Block), (b :: rest) <:+ bs →
      I (b :: rest) (emitted rest) (findOrCreateState b.graph b.entry) →
      I (b :: rest) (emitted (b :: rest)) b.state ∧
      ∀ (pre : List Call) (c : Call) (post : List Call), b.calls = pre ++ c :: post →
        I (b :: rest) (emitted rest ++ b.first ++ responses pre) c.state := by
    intro b rest hsuf hinv
    have hvotes := b.opened_votes
    have hopen := hpropose b rest b.opened.2 hsuf hvotes (hframe _ _ _ _ hvotes hinv)
    have hfired : I (b :: rest) (emitted rest ++ b.first) (b.fired b.due).1 := by
      refine foldl_inv (fun acc : State × List Message =>
        I (b :: rest) (emitted rest ++ acc.2) acc.1) hopen ?_
      intro t _ acc hacc
      obtain ⟨s, out⟩ := acc
      rcases fireTimeout_cases b.entry.block.node s out t with ⟨_, h⟩ | ⟨hf, hv, h⟩
      · rw [h]
        exact hacc
      rw [h]
      rw [← append_assoc]
      exact hfire b rest _ s t hsuf hf hv hacc
    obtain ⟨s, hl, hs⟩ := b.log
    have hlog := hl.rule (P := fun pre s =>
      I (b :: rest) (emitted rest ++ b.first ++ responses pre) s)
      (by simpa using hfired) (by
        intro pre c post hsplit hp r hr hresp
        have h := hcall b rest pre c post hsuf hsplit hp r hr hresp
        rwa [responses_append, responses_single, ← append_assoc])
    refine ⟨?_, hlog.2⟩
    show I (b :: rest) (emitted rest ++ b.state.out) b.state
    rw [b.out_eq, ← append_assoc]
    refine hframe _ _ s b.state ?_ hlog.1
    rw [hs]
    exact ⟨rfl, rfl, rfl⟩
  intro b rest hsuf
  induction rest generalizing b with
  | nil =>
    refine hblock b [] hsuf ?_
    cases hc.suffix hsuf with
    | start h =>
      rw [h]
      exact hstart b
  | cons a rest ih =>
    refine hblock b (a :: rest) hsuf ?_
    cases hc.suffix hsuf with
    | next hf =>
      rw [hf.findOrCreateState]
      have hsuf' : (a :: rest) <:+ bs := (suffix_cons b (a :: rest)).trans hsuf
      exact hclone b a rest hsuf (ih a hsuf').1

/-! ## §4. The finality guard never closes. -/

theorem Reacts.dataFinal {p : Params} {sender receiver : Nat}
    {origin : BlockID} {msg : Message} {r : Reaction}
    (hr : Reacts p h s sender receiver origin msg r) : r.state.data.final = s.data.final := by
  cases hr <;> simp [Reaction.quiet]

theorem clone_dataFinal (hs : s.data.final = .empty) (minround : Nat) :
    (clone (some s) minround).data.final = .empty := by
  show s.data.final.restrict (fun k => minround.ble k.round) = .empty
  funext k
  rw [PMap.restrict_apply, hs]
  split <;> rfl

/-- **Nothing is ever recorded as final in `data`**, so the two guards that look there never hold.
-/
theorem Chain.dataFinal (hc : Chain bs) {rest : List Block} (hs : (b :: rest) <:+ bs) :
    (findOrCreateState b.graph b.entry).data.final = .empty ∧
      ∀ c ∈ b.calls, c.state.data.final = .empty := by
  have hrule := Chain.rule (I := fun _ _ s => s.data.final = .empty) hc (fun _ => rfl)
    (fun b a _ _ ha => clone_dataFinal ha b.minround)
    (fun _ _ s s' hv h => by rw [hv.data]; exact h)
    (fun _ _ _ _ _ h => h)
    (fun _ _ _ _ _ _ _ _ h => h)
    (fun _ _ _ _ _ _ _ h _ hr _ => hr.dataFinal.trans h)
  constructor
  · cases hc.suffix hs with
    | start h =>
      rw [h]
      rfl
    | @next _ a rest' hf =>
      rw [hf.findOrCreateState]
      exact clone_dataFinal (hrule a rest' ((suffix_cons b _).trans hs)).1 b.minround
  intro c hc
  obtain ⟨pre, post, hsplit⟩ := append_of_mem hc
  exact (hrule b rest hs).2 pre c post hsplit

/-! ## §5. Names for the blocks of concrete runs. -/

def blockAt (node round : Nat) : BlockID := ⟨[UInt8.ofNat (50 * node + round)], node, round⟩

/-- That block as a dependency: it follows the node's block of the round before. -/
def depAt (node round : Nat) (deps : List BlockID) : Dep where
  block := blockAt node round
  deps := deps
  prev := if round = 1 then BlockID.zero else blockAt node (round - 1)

def ownAt (node round : Nat) (deps : List Dep) : BlockGraph :=
  ⟨blockAt node round, deps, (depAt node round []).prev⟩

/-- The blocks of a node from round `lo` up to `hi`, without references to other nodes. -/
def idleDeps (node lo hi : Nat) : List Dep :=
  (List.range (hi + 1 - lo)).map (fun i => depAt node (lo + i) [])

/-- The graph of node `owner` after `rounds` own blocks without dependencies, with the next one
filed. The Go runtime doubles the capacity of a full slice of this element size. -/
def filed (nodes : List Nat) (owner rounds : Nat) (deps : List Dep) : Except Halt Graph := do
  let own := fun (round : Nat) (deps : List Dep) =>
    (⟨blockAt owner round, deps, (depAt owner round []).prev⟩ : BlockGraph)
  let g ← ((List.range rounds).map (fun i => own (i + 1) [])).foldlM addBlock
    (new nodes 0 (2 * ·))
  .ok (register g (own (rounds + 1) deps))

/-- The graph of node `owner` after the dependencies of its own block after `rounds`. -/
def replay (nodes : List Nat) (owner rounds : Nat) (deps : List Dep) : Except Halt Graph := do
  let g ← filed nodes owner rounds deps
  (deps.map depEntry).foldlM process g

def chainStates (g : Graph) (node : Nat) : Nat → List State
  | 0 => []
  | round + 1 => (g.statess (blockAt node (round + 1))).toList ++ chainStates g node round

theorem mem_chainStates {node last round : Nat} (h1 : 1 ≤ round)
    (h : round ≤ last) (hs : g.statess (blockAt node round) = some s) :
    s ∈ chainStates g node last := by
  induction last with
  | zero => omega
  | succ last ih =>
    rcases Nat.lt_or_eq_of_le h with _ | heq
    · exact mem_append_right _ (ih (by omega))
    subst heq
    show s ∈ (g.statess (blockAt node (last + 1))).toList ++ _
    rw [hs]
    exact mem_append_left _ mem_cons_self

/-- A run of `process` on one entry, if it returns. -/
def interpreted (g : Graph) (e : Entry) : Option Block :=
  match h : interpret g e with
  | .ok (after, state, calls) => some ⟨g, e, after, state, calls, h⟩
  | .error _ => none

theorem interpreted_graph {b : Block} (h : interpreted g e = some b) :
    b.graph = g ∧ b.entry = e := by
  unfold interpreted at h
  split at h
  · cases h
    exact ⟨rfl, rfl⟩
  · cases h

/-- The graph `process` leaves. -/
def Block.processed (b : Block) : Graph :=
  { b.after with statess := b.after.statess.set b.entry.block b.state }

/-- A block goes on with a chain: it names the newest block of the chain, whose state is there. -/
def Block.extends (b : Block) : List Block → Bool
  | [] => !b.entry.prev.valid
  | a :: _ => b.entry.prev = a.entry.block ∧ b.entry.prev.valid = true ∧ b.author = a.author ∧
      b.entry.block.round = a.entry.block.round + 1 ∧ (b.graph.statess b.entry.prev).isSome = true

/-- The blocks of `author` among entries that are processed one after the other, newest first, on
top of the blocks `bs`. -/
def chainOf (author : Nat) : Graph → List Block → List Entry → Option (List Block)
  | _, bs, [] => some bs
  | g, bs, e :: es =>
    match interpreted g e with
    | none => none
    | some b =>
      if b.author ≠ author then chainOf author b.processed bs es
      else if b.extends bs then chainOf author b.processed (b :: bs) es
      else none

/-- Where a chain stands in a run: the state of its newest block is the stored one, if there is
one. -/
structure Growing (author : Nat) (g : Graph) (bs : List Block) : Prop where
  chain : bs = [] ∨ Chain bs
  author : ∀ b ∈ bs, b.author = author
  newest : ∀ a ∈ bs.head?, ∀ st, g.statess a.entry.block = some st → st = a.state

theorem Growing.other {author : Nat} (h : Growing author g bs) (hg : b.graph = g)
    (hne : b.author ≠ author) : Growing author b.processed bs := by
  refine ⟨h.chain, h.author, ?_⟩
  intro a ha st hst
  have hblock : a.entry.block ≠ b.entry.block := by
    intro heq
    have hnode : a.author = b.author := congrArg BlockID.node heq
    exact hne (hnode.symm.trans (h.author a (mem_of_mem_head? ha)))
  have hst : b.after.statess.set b.entry.block b.state a.entry.block = some st := hst
  rw [PMap.set_ne _ _ hblock] at hst
  have hkept := (interpret_kept b.ok).statess _ _ hst
  rw [hg] at hkept
  exact h.newest a ha st hkept

theorem Growing.own {author : Nat} (h : Growing author g bs) (hg : b.graph = g)
    (hauthor : b.author = author) (hext : b.extends bs = true) :
    Growing author b.processed (b :: bs) := by
  refine ⟨.inr ?_, forall_mem_cons.mpr ⟨hauthor, h.author⟩, ?_⟩
  · cases bs with
    | nil =>
      apply Chain.start
      unfold findOrCreateState
      rw [if_neg (by simpa [Block.extends] using hext)]
    | cons a rest =>
      obtain ⟨hprev, hvalid, hnode, hround, hsome⟩ := of_decide_eq_true hext
      obtain ⟨st, hst⟩ := Option.isSome_iff_exists.mp hsome
      have hstate : st = a.state := by
        apply h.newest a rfl
        rw [← hprev, ← hg]
        exact hst
      rw [hstate] at hst
      exact .next ⟨hprev, hvalid, hnode, hround, hst⟩ (h.chain.resolve_left (cons_ne_nil a rest))
  · intro a ha st hst
    cases ha
    have hst : b.after.statess.set b.entry.block b.state b.entry.block = some st := hst
    rw [PMap.set_self] at hst
    injection hst with hst
    exact hst.symm

/-- **The blocks of one author in a run are a chain.** -/
theorem Growing.chainOf {author : Nat} {es : List Entry} {bs' : List Block}
    (h : Growing author g bs) (hrun : chainOf author g bs es = some bs') :
    bs' = [] ∨ Chain bs' := by
  induction es generalizing g bs with
  | nil =>
    cases hrun
    exact h.chain
  | cons e es ih =>
    unfold Blockmania.chainOf at hrun
    split at hrun
    · cases hrun
    next b hb =>
      obtain ⟨hg, _⟩ := interpreted_graph hb
      split at hrun
      next hne => exact ih (h.other hg hne) hrun
      next hauthor =>
        split at hrun
        next hext => exact ih (h.own hg (not_not.mp hauthor) hext) hrun
        · cases hrun

/-- The chain of `author` in the run of `replay`. -/
def replayChain (nodes : List Nat) (owner rounds : Nat) (deps : List Dep) (author : Nat) :
    Option (List Block) :=
  match filed nodes owner rounds deps with
  | .ok g => chainOf author g [] (deps.map depEntry)
  | .error _ => none

/-- A run in which `P` is found to hold of the blocks of `author` has a chain of which it holds. -/
theorem exists_chain {nodes : List Nat} {owner rounds author : Nat} {deps : List Dep}
    {P Q : List Block → Prop} [DecidablePred P]
    (h : (replayChain nodes owner rounds deps author).any (fun bs => decide (bs ≠ [] ∧ P bs)) =
      true) (hQ : ∀ bs, Chain bs → P bs → Q bs) :
    ∃ bs, replayChain nodes owner rounds deps author = some bs ∧ Q bs := by
  refine exists_of_any h ?_
  rintro bs hbs ⟨hne, hP⟩
  refine hQ bs ?_ hP
  unfold replayChain at hbs
  split at hbs
  next g _ =>
    have hstart : Growing author g [] := ⟨.inl rfl, by simp, by simp⟩
    exact (hstart.chainOf hbs).resolve_left hne
  · cases hbs

/-- `f` holds of every block of a chain and the blocks before it. -/
def everyBlock (f : Block → List Block → Bool) : List Block → Bool
  | [] => true
  | b :: rest => f b rest && everyBlock f rest

theorem everyBlock_suffix {f : Block → List Block → Bool} {rest : List Block}
    (h : everyBlock f bs = true) (hs : (b :: rest) <:+ bs) : f b rest = true := by
  induction bs with
  | nil => exact absurd (suffix_nil.mp hs) (cons_ne_nil b rest)
  | cons a bs ih =>
    obtain ⟨hf, hrest⟩ := (Bool.and_eq_true _ _).mp h
    rcases suffix_cons_iff.mp hs with heq | hs
    · cases heq
      exact hf
    · exact ih hrest hs

/-- Nodes 2 and 3 prepare block (1, 1), and node 1 puts out a commit vote in view 0 at its round 3.
From round 11 on everybody asks for view 1, and node 1 enters it at round 12. -/
def enteredView : List Dep :=
  [depAt 1 1 [], depAt 2 1 [], depAt 2 2 [blockAt 1 1], depAt 3 1 [], depAt 3 2 [blockAt 1 1],
    depAt 1 2 [], depAt 1 3 [blockAt 2 1, blockAt 2 2, blockAt 3 1, blockAt 3 2]] ++
  idleDeps 2 3 11 ++ idleDeps 3 3 11 ++ idleDeps 1 4 11 ++
  [depAt 1 12 [blockAt 2 11, blockAt 3 11]]

end Chainspace.Blockmania
