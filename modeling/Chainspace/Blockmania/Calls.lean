/-
  Chainspace.Blockmania.Calls — `process` as a sequence of `processMessage` calls.

  `interpret_log` turns one run of `process` into a `Log`: the calls in their order, on messages of
  the block itself, of the output of a dependency, or the response to an earlier call. Invariants of
  single calls become invariants of blocks by induction on the log.
-/
import Chainspace.Blockmania.React

namespace Chainspace.Blockmania

open Chainspace.Lib List

/-! ## §1. `deliver` keeps what it does not own. -/

/-- What every step of a graph keeps; no state is forgotten as long as no round is delivered. -/
structure Kept (g g' : Graph) : Prop where
  params : g'.params = g.params
  round : g.round ≤ g'.round
  statess : ∀ b st, g'.statess b = some st → g.statess b = some st
  same : g'.round = g.round → g'.statess = g.statess

theorem Kept.refl (g : Graph) : Kept g g := ⟨rfl, le_rfl, fun _ _ h => h, fun _ => rfl⟩

variable {g g' : Graph} {fuel round node : Nat} {hash : Hash} {e : Entry}

theorem Kept.trans {g'' : Graph} (h : Kept g g') (h' : Kept g' g'') : Kept g g'' where
  params := h'.params.trans h.params
  round := h.round.trans h'.round
  statess := fun b st hb => h.statess b st (h'.statess b st hb)
  same := by
    intro heq
    have h1 := h.round
    have h2 := h'.round
    rw [h'.same (by omega), h.same (by omega)]

section
variable (g : Graph) (round : Nat) (data : Interpreted)

@[simp] theorem finishRound_params : (g.finishRound round data).params = g.params := rfl

@[simp] theorem finishRound_heap : (g.finishRound round data).heap = g.heap := rfl

@[simp] theorem finishRound_round : (g.finishRound round data).round = g.round + 1 := rfl

@[simp] theorem finishRound_resolved :
    (g.finishRound round data).resolved = g.resolved.erase round := rfl

@[simp] theorem finishRound_cb : (g.finishRound round data).cb = g.cb ++ [data] := rfl

theorem finishRound_kept :
    Kept g (g.finishRound round data) where
  params := finishRound_params g round data
  round := by rw [finishRound_round]; omega
  same := by
    intro heq
    rw [finishRound_round] at heq
    omega
  statess := by
    intro b st hb
    have hb : g.statess.restrict (fun b => b ∉ goneBlocks g.blocks round) b = some st := hb
    exact PMap.of_restrict hb

end

theorem deliverRound_heap
    {hashes : AList (fun _ : Nat => Hash)} (h : deliverRound fuel g round hashes = .ok g') :
    g'.heap = g.heap := by
  induction fuel generalizing g round hashes with
  | zero =>
    injection h with h
    rw [h]
  | succ fuel ih =>
    unfold deliverRound at h
    split at h
    · cases h
    next =>
      dsimp only at h
      split at h
      · injection h with h
        rw [← h, finishRound_heap]
      split at h
      · rw [ih h, finishRound_heap]
      · injection h with h
        rw [← h, finishRound_heap]

theorem deliverRound_kept
    {hashes : AList (fun _ : Nat => Hash)} (h : deliverRound fuel g round hashes = .ok g') :
    Kept g g' := by
  induction fuel generalizing g round hashes with
  | zero =>
    injection h with h
    exact h ▸ Kept.refl g
  | succ fuel ih =>
    unfold deliverRound at h
    split at h
    · cases h
    next info _ _ =>
      have hone := finishRound_kept g round (g.report info round hashes)
      dsimp only at h
      split at h
      · cases h
        exact hone
      split at h
      · exact hone.trans (ih h)
      · cases h
        exact hone

/-- `deliver` ignores a round that is over; otherwise it files the decision, and delivers the
current round if that is complete. -/
theorem deliver_cases (h : deliver g node round hash = .ok g') : (round < g.round ∧ g' = g) ∨
      (g.round ≤ round ∧
        (∀ cur, ((g.resolved.lookup round).getD ∅).lookup node = some cur → cur = hash) ∧
        ∃ hashes, hashes = noteHash ((g.resolved.lookup round).getD ∅) node hash ∧
          (g' = { g with resolved := g.resolved.insert round hashes } ∧
              (round = g.round → hashes.entries.length ≠ g.params.nodeCount) ∨
            round = g.round ∧ hashes.entries.length = g.params.nodeCount ∧
              deliverRound (g.resolved.insert round hashes).entries.length
                { g with resolved := g.resolved.insert round hashes } round hashes = .ok g')) := by
  unfold deliver at h
  dsimp only at h
  split at h
  next hlt =>
    injection h with h
    exact .inl ⟨hlt, h.symm⟩
  next hlt =>
    split at h
    · cases h
    next hany =>
      refine .inr ⟨Nat.le_of_not_lt hlt, ?_, _, rfl, ?_⟩
      · intro cur hcur
        simpa [hcur] using hany
      split at h
      next hne =>
        injection h with h
        exact .inl ⟨h.symm, fun he => absurd he hne⟩
      next heq =>
        split at h
        next hfull => exact .inr ⟨not_not.mp heq, hfull, h⟩
        next hfull =>
          injection h with h
          exact .inl ⟨h.symm, fun _ => hfull⟩

theorem deliverRound_error {hashes : AList (fun _ : Nat => Hash)} {x : Halt}
    (h : deliverRound fuel g round hashes = .error x) : x = .indexOutOfRange := by
  induction fuel generalizing g round hashes with
  | zero => exact absurd h (by simp [deliverRound])
  | succ fuel ih =>
    unfold deliverRound at h
    split at h
    · injection h with h
      exact h.symm
    dsimp only at h
    split at h
    · cases h
    split at h
    · exact ih h
    · cases h

theorem deliver_error {x : Halt} (h : deliver g node round hash = .error x) :
    x = .indexOutOfRange ∨ (x = .mismatchingHash node round ∧ g.round ≤ round ∧
      ∃ cur, ((g.resolved.lookup round).getD ∅).lookup node = some cur ∧ cur ≠ hash) := by
  unfold deliver at h
  dsimp only at h
  split at h
  · cases h
  next hlt =>
    split at h
    next hany =>
      injection h with h
      refine .inr ⟨h.symm, Nat.le_of_not_lt hlt, ?_⟩
      cases hcur : ((g.resolved.lookup round).getD ∅).lookup node with
      | none =>
        rw [hcur] at hany
        cases hany
      | some cur =>
        rw [hcur] at hany
        exact ⟨cur, rfl, by simpa using hany⟩
    split at h
    · cases h
    split at h
    · exact .inl (deliverRound_error h)
    · cases h

theorem deliver_kept (h : deliver g node round hash = .ok g') : Kept g g' := by
  rcases deliver_cases h with ⟨_, hg⟩ | ⟨_, _, _, _, ⟨hg, _⟩ | ⟨_, _, hd⟩⟩
  · exact hg ▸ Kept.refl g
  · exact hg ▸ ⟨rfl, le_rfl, fun _ _ hb => hb, fun _ => rfl⟩
  · have hk := deliverRound_kept hd
    exact ⟨hk.params, hk.round, hk.statess, hk.same⟩

theorem deliver_heap (h : deliver g node round hash = .ok g') : g'.heap = g.heap := by
  rcases deliver_cases h with ⟨_, hg⟩ | ⟨_, _, _, _, ⟨hg, _⟩ | ⟨_, _, hd⟩⟩
  · rw [hg]
  · rw [hg]
  · have hh := deliverRound_heap hd
    exact hh

/-! ## §2. One call. -/

section Call
variable {g g' : Graph} {s s' : State} {sender receiver : Nat} {origin : BlockID} {msg : Message}
  {resp : Option Message}

/-- A call reacts on the state and, if that decides a block, delivers it. -/
theorem processMessage_cases
    (h : processMessage g s sender receiver origin msg = .ok (g', s', resp)) :
    ∃ r, Reacts g.params g.heap s sender receiver origin msg r ∧ s' = r.state ∧ resp = r.resp ∧
      (r.decided = none ∧ g' = { g with heap := r.heap } ∨
        ∃ hash, r.decided = some hash ∧
          deliver { g with heap := r.heap } msg.node msg.round hash = .ok g') := by
  obtain ⟨r, hr, h⟩ := bind_eq_ok.mp h
  obtain ⟨g1, hg1, h⟩ := bind_eq_ok.mp h
  injection h with h
  injection h with hg h
  injection h with hs hresp
  subst hg
  refine ⟨r, react_cases hr, hs.symm, hresp.symm, ?_⟩
  cases hd : r.decided with
  | none =>
    rw [hd] at hg1
    injection hg1 with hg1
    exact .inl ⟨rfl, hg1.symm⟩
  | some hash =>
    rw [hd] at hg1
    exact .inr ⟨hash, rfl, hg1⟩

theorem processMessage_reacts
    (h : processMessage g s sender receiver origin msg = .ok (g', s', resp)) :
    ∃ r, Reacts g.params g.heap s sender receiver origin msg r ∧ s' = r.state ∧ resp = r.resp ∧
      g'.heap = r.heap ∧ Kept g g' := by
  obtain ⟨r, hr, hs, hresp, hd⟩ := processMessage_cases h
  refine ⟨r, hr, hs, hresp, ?_⟩
  rcases hd with ⟨_, hg⟩ | ⟨_, _, hg⟩
  · rw [hg]
    exact ⟨rfl, rfl, le_rfl, fun _ _ h => h, fun _ => rfl⟩
  · have hk := deliver_kept hg
    exact ⟨deliver_heap hg, hk.params, hk.round, hk.statess, hk.same⟩

end Call

/-! ## §3. The log of a block. -/

def responses (cs : List Call) : List Message := cs.filterMap Call.resp

@[simp] theorem responses_nil : responses [] = [] := rfl

@[simp] theorem responses_append (cs cs' : List Call) :
    responses (cs ++ cs') = responses cs ++ responses cs' := filterMap_append

theorem responses_single (c : Call) : responses [c] = c.resp.toList := by
  cases h : c.resp <;> simp [responses, h]

theorem mem_responses {cs : List Call} {m : Message} :
    m ∈ responses cs ↔ ∃ c ∈ cs, c.resp = some m := by
  simp [responses]

/-- The calls of a block. `src` is where messages come from besides the responses of earlier calls
for the same sender. -/
inductive Log (receiver : Nat) (origin : BlockID) (src : Nat → Message → Prop) (g : Graph)
    (s : State) : List Call → Graph → State → Prop
  | nil : Log receiver origin src g s [] g s
  | snoc {cs : List Call} {c : Call} {g' : Graph} {s' : State}
      (hlog : Log receiver origin src g s cs c.graph c.state)
      (hsrc : src c.sender c.msg ∨ ∃ c' ∈ cs, c'.sender = c.sender ∧ c'.resp = some c.msg)
      (hcall : processMessage c.graph c.state c.sender receiver origin c.msg
        = .ok (g', s', c.resp)) :
      Log receiver origin src g s (cs ++ [c]) g' s'

section Log
variable {receiver : Nat} {origin : BlockID} {src : Nat → Message → Prop} {g : Graph} {s : State}

theorem Log.kept {cs : List Call} {g' : Graph} {s' : State}
    (h : Log receiver origin src g s cs g' s') : Kept g g' := by
  induction h with
  | nil => exact Kept.refl g
  | snoc _ _ hcall ih =>
    obtain ⟨_, _, _, _, _, hk⟩ := processMessage_reacts hcall
    exact ih.trans hk

theorem Log.reacts {cs : List Call} {g' : Graph} {s' : State}
    (h : Log receiver origin src g s cs g' s') {c : Call} (hc : c ∈ cs) :
    ∃ r, Reacts c.graph.params c.graph.heap c.state c.sender receiver origin c.msg r ∧
      c.resp = r.resp := by
  induction h with
  | nil => cases hc
  | @snoc cs c' g1 s1 _ _ hcall ih =>
    rcases mem_append.mp hc with hc | hc
    · exact ih hc
    rw [mem_singleton.mp hc]
    obtain ⟨r, hr, _, hresp, _⟩ := processMessage_reacts hcall
    exact ⟨r, hr, hresp⟩

/-- **The rule for the calls of a block**: `I` is kept by a call on a message that satisfies `S` for
its sender, and the response satisfies `T`, so that it can be a message again. -/
theorem Log.inv {I : List Call → Graph → State → Prop} {S : Nat → Message → Prop}
    {T : Message → Prop} {cs : List Call} {g' : Graph} {s' : State}
    (hl : Log receiver origin src g s cs g' s') (h0 : I [] g s)
    (hsrc : ∀ x m, src x m → S x m) (hagain : ∀ x m, T m → S x m)
    (hcall : ∀ cs (c : Call) g' s', I cs c.graph c.state → S c.sender c.msg →
      processMessage c.graph c.state c.sender receiver origin c.msg = .ok (g', s', c.resp) →
      I (cs ++ [c]) g' s' ∧ ∀ m, c.resp = some m → T m) :
    I cs g' s' ∧ ∀ m ∈ responses cs, T m := by
  induction hl with
  | nil => exact ⟨h0, fun m hm => absurd hm (by simp)⟩
  | @snoc cs c g1 s1 _ hmsg hc ih =>
    have hm : S c.sender c.msg := by
      rcases hmsg with hmsg | ⟨c', hc', _, hresp⟩
      · exact hsrc _ _ hmsg
      · exact hagain _ _ (ih.2 _ (mem_responses.mpr ⟨c', hc', hresp⟩))
    obtain ⟨hI, hresp⟩ := hcall cs c g1 s1 ih.1 hm hc
    refine ⟨hI, ?_⟩
    intro m hm
    rw [responses_append, responses_single] at hm
    rcases mem_append.mp hm with hm | hm
    · exact ih.2 m hm
    · exact hresp m (Option.mem_toList.mp hm)

/-- A call of the block ends the process. -/
def Ends (receiver : Nat) (origin : BlockID) (src : Nat → Message → Prop) (g : Graph) (s : State)
    (x : Halt) : Prop :=
  ∃ cs g' s' sender m, Log receiver origin src g s cs g' s' ∧
    (src sender m ∨ m ∈ responses cs) ∧ processMessage g' s' sender receiver origin m = .error x

/-- The variables of `processMessages` for one sender: `out` holds the responses of the calls made
since it was called. -/
structure Logged (receiver : Nat) (origin : BlockID) (src : Nat → Message → Prop) (g : Graph)
    (s : State) (before : List Call) (sender : Nat) (a : Acc) : Prop where
  log : Log receiver origin src g s a.calls a.graph a.state
  out : ∃ new, a.calls = before ++ new ∧ a.out = responses new ∧ ∀ c ∈ new, c.sender = sender

variable {before : List Call} {sender : Nat} {a : Acc}

theorem handle_logged (hl : Logged receiver origin src g s before sender a) {msg : Message}
    (hsrc : src sender msg ∨ msg ∈ a.out) :
    Outcome (Logged receiver origin src g s before sender) (Ends receiver origin src g s)
      (handle sender receiver origin a msg) := by
  unfold handle
  split
  · exact hl
  obtain ⟨new, hcalls, hout, hnew⟩ := hl.out
  have hcall : Outcome (fun _ => True) (Ends receiver origin src g s)
      (processMessage a.graph a.state sender receiver origin msg) := by
    refine Outcome.intro (fun _ _ => trivial) ?_
    intro x hx
    refine ⟨a.calls, a.graph, a.state, sender, msg, hl.log, hsrc.imp_right ?_, hx⟩
    intro hmem
    rw [hcalls, responses_append]
    exact mem_append_right _ (hout ▸ hmem)
  refine Outcome.bind hcall ?_
  rintro ⟨g1, s1, resp⟩ hcall _
  refine ⟨.snoc hl.log ?_ hcall, new ++ [⟨a.graph, a.state, sender, msg, resp⟩], ?_, ?_, ?_⟩
  · refine hsrc.imp_right ?_
    intro hmem
    rw [hout] at hmem
    obtain ⟨c, hc, hresp⟩ := mem_responses.mp hmem
    exact ⟨c, hcalls ▸ mem_append_right before hc, hnew c hc, hresp⟩
  · simp [hcalls]
  · simp [hout, responses_single]
  intro c hc
  rcases mem_append.mp hc with hc | hc
  · exact hnew c hc
  · rw [mem_singleton.mp hc]

theorem drain_logged {fuel i : Nat} (hl : Logged receiver origin src g s before sender a) :
    Outcome (Logged receiver origin src g s before sender) (Ends receiver origin src g s)
      (drain sender receiver origin fuel i a) := by
  induction fuel generalizing i a with
  | zero => exact hl
  | succ fuel ih =>
    unfold drain
    split
    · exact hl
    next msg hmsg =>
      have hmem : msg ∈ a.out := mem_of_getElem? hmsg
      exact Outcome.bind (handle_logged hl (.inr hmem)) (fun a1 _ ha1 => ih ha1)

theorem processMessages_logged {msgs : List Message}
    (hl : Log receiver origin src g s a.calls a.graph a.state) (hsrc : ∀ m ∈ msgs, src sender m) :
    Outcome (Logged receiver origin src g s a.calls sender) (Ends receiver origin src g s)
      (processMessages sender receiver origin a msgs) := by
  have h0 : Logged receiver origin src g s a.calls sender { a with out := [] } :=
    ⟨hl, [], by simp, rfl, by simp⟩
  have hloop := Outcome.foldlM (f := handle sender receiver origin) h0
    (fun m hm a1 ha1 => handle_logged ha1 (.inl (hsrc m hm)))
  exact Outcome.bind hloop (fun a1 _ ha1 => drain_logged ha1)

theorem processDeps_log {e : Entry} {deps : List BlockID} {first out : List Message}
    (hl : Log e.block.node e.block src g s a.calls a.graph a.state)
    (hout : out = first ++ responses a.calls)
    (hsrc : ∀ dep ∈ deps, ∀ m ∈ getOutput (g.statess dep), src dep.node m) :
    Outcome (fun x : Acc × List Message =>
        Log e.block.node e.block src g s x.1.calls x.1.graph x.1.state ∧
          x.2 = first ++ responses x.1.calls)
      (Ends e.block.node e.block src g s) (processDeps e deps (a, out)) := by
  induction deps generalizing a out with
  | nil => exact ⟨hl, hout⟩
  | cons dep rest ih =>
    -- The output of a dependency is the one it had when the block began, or it is forgotten.
    have hdep : ∀ m ∈ getOutput (a.graph.statess dep), src dep.node m := by
      intro m hm
      cases hst : a.graph.statess dep with
      | none =>
        rw [hst] at hm
        exact absurd hm (by simp [getOutput])
      | some st =>
        refine hsrc dep mem_cons_self m ?_
        rwa [hl.kept.statess dep st hst, ← hst]
    refine Outcome.bind (processMessages_logged hl hdep) ?_
    intro a1 _ hl1
    obtain ⟨new, hcalls, hnew, _⟩ := hl1.out
    refine ih hl1.log ?_ ?_
    · rw [hout, hcalls, hnew]
      simp
    · intro d hd
      exact hsrc d (mem_cons_of_mem dep hd)

end Log

/-! ## §4. A block. -/

/-- Where the messages of a block come from: itself, and the outputs of its dependencies. -/
def Source (g : Graph) (e : Entry) (first : List Message) (sender : Nat) (m : Message) : Prop :=
  (sender = e.block.node ∧ m ∈ first) ∨
    ∃ dep ∈ e.deps, sender = dep.node ∧ m ∈ getOutput (g.statess dep)

theorem beginBlock_graph {g1 : Graph} {s1 : State} {first : List Message}
    (h : beginBlock g e = .ok (g1, s1, first)) : g1 = { g with heap := g1.heap } := by
  obtain ⟨tval, _, h⟩ := bind_eq_ok.mp h
  injection h with h
  injection h with h _
  subst h
  rfl

/-- **A block is a log of calls**; its messages are its first messages and the responses of the log.
If it ends the process, it is at its beginning or in a call. -/
theorem interpret_outcome (g : Graph) (e : Entry) :
    Outcome (fun x : Graph × State × List Call => ∃ g1 s1 first s2,
        beginBlock g e = .ok (g1, s1, first) ∧
        Log e.block.node e.block (Source g e first) g1 s1 x.2.2 x.1 s2 ∧
        x.2.1 = { s2 with out := first ++ responses x.2.2 })
      (fun x => beginBlock g e = .error x ∨ ∃ g1 s1 first, beginBlock g e = .ok (g1, s1, first) ∧
        Ends e.block.node e.block (Source g e first) g1 s1 x) (interpret g e) := by
  refine Outcome.bind (Q := fun _ => True) (Outcome.intro (fun _ _ => trivial) ?_) ?_
  · exact fun x hx => .inl hx
  rintro ⟨g1, s1, first⟩ hb _
  have hstatess : g1.statess = g.statess := by rw [beginBlock_graph hb]
  have hown : ∀ m ∈ first, Source g e first e.block.node m := fun m hm => .inl ⟨rfl, hm⟩
  have hdeps : ∀ dep ∈ e.deps, ∀ m ∈ getOutput (g1.statess dep), Source g e first dep.node m := by
    intro dep hdep m hm
    rw [hstatess] at hm
    exact .inr ⟨dep, hdep, rfl, hm⟩
  have hstart : Log e.block.node e.block (Source g e first) g1 s1 [] g1 s1 := .nil
  have hfirst := processMessages_logged (a := ⟨g1, s1, [], [], []⟩) hstart hown
  refine Outcome.bind (hfirst.imp_error fun x hx => .inr ⟨g1, s1, first, hb, hx⟩) ?_
  intro a _ hl
  obtain ⟨new, hcalls, hout, _⟩ := hl.out
  have hout : first ++ a.out = first ++ responses a.calls := by
    rw [hcalls, hout, nil_append]
  have hrest := processDeps_log hl.log hout hdeps
  refine Outcome.bind (hrest.imp_error fun x hx => .inr ⟨g1, s1, first, hb, hx⟩) ?_
  rintro ⟨a', out⟩ _ ⟨hlog, hout⟩
  have hout : out = first ++ responses a'.calls := hout
  subst hout
  exact ⟨g1, s1, first, a'.state, hb, hlog, rfl⟩

theorem interpret_log {s' : State} {calls : List Call} (h : interpret g e = .ok (g', s', calls)) :
    ∃ g1 s1 first s2, beginBlock g e = .ok (g1, s1, first) ∧
      Log e.block.node e.block (Source g e first) g1 s1 calls g' s2 ∧
      s' = { s2 with out := first ++ responses calls } :=
  (interpret_outcome g e).of_ok h

theorem interpret_kept {s' : State} {calls : List Call}
    (h : interpret g e = .ok (g', s', calls)) : Kept g g' := by
  obtain ⟨g1, s1, first, s2, hb, hl, _⟩ := interpret_log h
  have hk := hl.kept
  rw [beginBlock_graph hb] at hk
  exact ⟨hk.params, hk.round, hk.statess, hk.same⟩

theorem process_cases (h : process g e = .ok g') :
    ∃ g1 s calls, interpret g e = .ok (g1, s, calls) ∧
      g' = { g1 with statess := g1.statess.set e.block s } := by
  obtain ⟨⟨g1, s, calls⟩, hi, h⟩ := bind_eq_ok.mp h
  injection h with h
  exact ⟨g1, s, calls, hi, h.symm⟩

end Chainspace.Blockmania
