/-
  Chainspace.Blockmania.NewViews — which view-change votes stand behind a new view.

  A `ViewChange` is filed under the view the receiver is in, not the one it asks for, and the test
  looks at the number of votes only. Votes for different views are counted together
  (`newView_mixed`), and votes for one view from before and after the receiver moves apart.
  `newView_backed` says when the votes behind a `NewView` are what the protocol asks for.
-/
import Chainspace.Blockmania.Chain
import Chainspace.Blockmania.Heap

namespace Chainspace.Blockmania

open Chainspace.Lib List

/-! ## §1. Runs of one state. -/

/-- What moves a state: a message, or a timeout that is due. -/
inductive Input where
  | message (sender : Nat) (origin : BlockID) (msg : Message)
  | timeout (t : Timeout)
  deriving DecidableEq, Repr

/-- One step of a run: the state before it, the input and the response. -/
structure Seen where
  state : State
  input : Input
  resp : Option Message

structure Play where
  heap : Heap
  state : State
  seen : List Seen

/-- One step.  A timeout does what the loop of `process` does with it. -/
def Play.step (p : Params) (receiver : Nat) (x : Play) : Input → Except Halt Play
  | .message sender origin msg => do
      let r ← react p x.heap x.state sender receiver origin msg
      .ok ⟨r.heap, r.state, x.seen ++ [⟨x.state, .message sender origin msg, r.resp⟩]⟩
  | .timeout t =>
    .ok ⟨x.heap, (fireTimeout receiver (x.state, []) t).1,
      x.seen ++ [⟨x.state, .timeout t, none⟩]⟩

def play (p : Params) (receiver : Nat) (h : Heap) (s : State) (inputs : List Input) :
    Except Halt Play :=
  inputs.foldlM (Play.step p receiver) ⟨h, s, []⟩

/-! ## §2. What stands behind a new view. -/

/-- The view-change vote of a step about `nr`, with the receiver's view. -/
def Seen.ask (nr : NodeRound) (e : Seen) : Option (Nat × ViewChange) :=
  match e.input with
  | .message _ _ (.viewChange m) =>
    if (⟨m.node, m.round⟩ : NodeRound) = nr then some (e.state.viewOf nr, m) else none
  | _ => none

/-- The view-change votes of a run about `nr`, with the receiver's views. -/
def asks (nr : NodeRound) (seen : List Seen) : List (Nat × ViewChange) :=
  seen.filterMap (Seen.ask nr)

/-- **The votes behind a new view**, among the view-change votes `sent`: a quorum of distinct
senders asked for it, nobody else did, and it has the one hash they report, or none. -/
def Backed (p : Params) (sent : List ViewChange) (nv : NewView) : Prop :=
  ∃ votes : List ViewChange, (∀ v ∈ votes, v ∈ sent ∧ v.view = nv.view) ∧
    (votes.map ViewChange.sender).Nodup ∧ p.quorum2f1 ≤ votes.length ∧
    (∀ v ∈ sent, v.view = nv.view → v.sender ∈ votes.map ViewChange.sender) ∧
    (∀ v ∈ votes, v.hash ≠ [] → v.hash = nv.hash) ∧ (nv.hash ≠ [] → ∃ v ∈ votes, v.hash = nv.hash)

/-- The votes filed in the receiver's view `v` ask for `w`, and all the votes for `w` were filed
there. -/
def Unmixed (v w : Nat) (sent : List (Nat × ViewChange)) : Prop :=
  ∀ a ∈ sent, (a.1 = v ∧ v ≤ a.2.view → a.2.view = w) ∧ (a.2.view = w → a.1 = v)

/-! ## §3. The votes on file. -/

/-- The votes on file for `nr` are the last ones filed by each sender. -/
structure OnFile (nr : NodeRound) (h : Heap) (s : State) (sent : List (Nat × ViewChange)) :
    Prop where
  sound : ∀ v, ∀ e ∈ (vcContent h s ⟨nr.node, nr.round, v⟩).entries,
    ∃ a ∈ sent, a.1 = v ∧ v ≤ a.2.view ∧ a.2.sender = e.1 ∧ a.2.hash = e.2
  complete : ∀ a ∈ sent, a.1 ≤ a.2.view →
    a.2.sender ∈ (vcContent h s ⟨nr.node, nr.round, a.1⟩).keys

section OnFile
variable {nr : NodeRound} {p : Params} {receiver : Nat} {h h' : Heap} {s s' : State}
  {sent : List (Nat × ViewChange)} {m : ViewChange}

theorem OnFile.congr (ho : OnFile nr h s sent)
    (hsame : ∀ v, vcContent h' s' ⟨nr.node, nr.round, v⟩ = vcContent h s ⟨nr.node, nr.round, v⟩) :
    OnFile nr h' s' sent where
  sound := by
    intro v
    rw [hsame v]
    exact ho.sound v
  complete := by
    intro a ha hle
    rw [hsame a.1]
    exact ho.complete a ha hle

theorem OnFile.late (ho : OnFile nr h s sent) {v : Nat} (hlt : m.view < v) :
    OnFile nr h s (sent ++ [(v, m)]) where
  sound := by
    intro u e he
    obtain ⟨a, ha, hrest⟩ := ho.sound u e he
    exact ⟨a, mem_append_left _ ha, hrest⟩
  complete := by
    intro a ha hle
    rcases mem_append.mp ha with ha | ha
    · exact ho.complete a ha hle
    rw [mem_singleton.mp ha] at hle
    have hle : v ≤ m.view := hle
    omega

theorem OnFile.file (ho : OnFile nr h s sent) {v : Nat} (hle : v ≤ m.view)
    (hfile : ∀ u, vcContent h' s' ⟨nr.node, nr.round, u⟩ =
      if u = v then (vcContent h s ⟨nr.node, nr.round, u⟩).insert m.sender m.hash
      else vcContent h s ⟨nr.node, nr.round, u⟩) :
    OnFile nr h' s' (sent ++ [(v, m)]) where
  sound := by
    intro u e he
    rw [hfile] at he
    -- An entry is the new vote or was there before.
    have hold : e ∈ (vcContent h s ⟨nr.node, nr.round, u⟩).entries → ∃ a ∈ sent ++ [(v, m)],
        a.1 = u ∧ u ≤ a.2.view ∧ a.2.sender = e.1 ∧ a.2.hash = e.2 := by
      intro he
      obtain ⟨a, ha, hrest⟩ := ho.sound u e he
      exact ⟨a, mem_append_left _ ha, hrest⟩
    split at he
    next hu =>
      rcases mem_cons.mp he with he | he
      · subst he
        exact ⟨(v, m), mem_append_right _ mem_cons_self, hu.symm, hu ▸ hle, rfl, rfl⟩
      · exact hold ((kerase_sublist m.sender _).subset he)
    · exact hold he
  complete := by
    intro a ha hav
    rw [hfile]
    rcases mem_append.mp ha with ha | ha
    · have hmem := ho.complete a ha hav
      split
      · exact AList.mem_keys.mp ((AList.mem_insert _).mpr (.inr (AList.mem_keys.mpr hmem)))
      · exact hmem
    · rw [mem_singleton.mp ha, if_pos rfl]
      exact AList.mem_keys.mp ((AList.mem_insert _).mpr (.inl rfl))

theorem vcContent_congr {h : Heap} {s : State} (hv : h'.vcs = h.vcs)
    (hs : s'.data.viewChanged = s.data.viewChanged) (key : NodeRoundView) :
    vcContent h' s' key = vcContent h s key := by
  unfold vcContent
  rw [hv, hs]

variable {sender : Nat} {origin : BlockID} {msg : Message} {r : Reaction}

theorem Reacts.content (hr : Reacts p h s sender receiver origin msg r)
    (hne : ∀ m, msg = .viewChange m → (⟨m.node, m.round⟩ : NodeRound) ≠ nr) (v : Nat) :
    vcContent r.heap r.state ⟨nr.node, nr.round, v⟩ = vcContent h s ⟨nr.node, nr.round, v⟩ := by
  rcases hr.heap_cases with ⟨hh, _, hs⟩ | ⟨m, w, hm, _, hh, _, hs⟩ | ⟨m, k, _, hh, _, hs⟩
  · rw [hh]
    exact vcContent_congr rfl hs _
  · have hkey : (⟨nr.node, nr.round, v⟩ : NodeRoundView) ≠ ⟨m.node, m.round, w⟩ := by
      intro heq
      injection heq with hn hr' _
      exact hne m hm (by rw [← hn, ← hr'])
    rw [hh, vcContent_congr rfl hs, vcContent_fileVote, if_neg hkey]
    exact vcContent_congr rfl (State.touch_viewChanged s _) _
  refine vcContent_congr ?_ hs _
  rw [hh]
  exact Heap.append_vcs p.grow h k (s.timeouts k) _

theorem Reacts.viewChange_cases
    (hr : Reacts p h s sender receiver origin (.viewChange m) r) (hopen : s.data.final = .empty)
    (hnr : (⟨m.node, m.round⟩ : NodeRound) = nr) :
    (m.view < s.viewOf nr ∧ r.resp = none ∧ ∀ v, vcContent r.heap r.state ⟨nr.node, nr.round, v⟩ =
          vcContent h s ⟨nr.node, nr.round, v⟩) ∨
      (s.viewOf nr ≤ m.view ∧ (∀ u, vcContent r.heap r.state ⟨nr.node, nr.round, u⟩ =
          if u = s.viewOf nr then (vcContent h s ⟨nr.node, nr.round, u⟩).insert m.sender m.hash
          else vcContent h s ⟨nr.node, nr.round, u⟩) ∧
        ∀ nv, r.resp = some (.newView nv) → nv.view = m.view ∧
          (vcContent r.heap r.state ⟨nr.node, nr.round, s.viewOf nr⟩).entries.length = p.quorum2f1 ∧
          newViewHash m.node m.round []
            ((vcContent r.heap r.state ⟨nr.node, nr.round, s.viewOf nr⟩).entries.map (·.2)) =
              .ok nv.hash) := by
  subst hnr
  have hcontent : ∀ u, vcContent h (s.touch ⟨m.node, m.round⟩) ⟨m.node, m.round, u⟩ =
      vcContent h s ⟨m.node, m.round, u⟩ :=
    fun u => vcContent_congr rfl (State.touch_viewChanged s _) _
  -- What is on file once the vote is.
  have hfile : ∀ (st : State), st.data.viewChanged =
      (fileVote h (s.touch ⟨m.node, m.round⟩) (s.viewOf ⟨m.node, m.round⟩) m).2.1.data.viewChanged →
      ∀ u, vcContent (fileVote h (s.touch ⟨m.node, m.round⟩) (s.viewOf ⟨m.node, m.round⟩) m).1 st
        ⟨m.node, m.round, u⟩ =
        if u = s.viewOf ⟨m.node, m.round⟩ then
          (vcContent h s ⟨m.node, m.round, u⟩).insert m.sender m.hash
        else vcContent h s ⟨m.node, m.round, u⟩ := by
    intro st hst u
    rw [vcContent_congr rfl hst, vcContent_fileVote, hcontent]
    by_cases hu : u = s.viewOf ⟨m.node, m.round⟩
    · rw [if_pos hu, if_pos (by rw [hu])]
    · rw [if_neg hu, if_neg (fun heq => hu (by injection heq))]
  cases hr with
  | closed _ hf =>
    rw [hopen] at hf
    cases hf
  | viewChangeOld _ hv =>
    refine .inl ⟨hv, rfl, ?_⟩
    intro v
    exact hcontent v
  | viewChangeFiled _ hv =>
    refine .inr ⟨hv, hfile _ rfl, ?_⟩
    intro nv hnv
    exact absurd hnv (by simp [Reaction.quiet])
  | viewChangeQuorum _ _ hv hq hh =>
    refine .inr ⟨hv, hfile _ rfl, ?_⟩
    intro nv hnv
    injection hnv with hnv
    cases hnv
    -- The map that was counted is what the state now sees.
    have hmap : vcContent (fileVote h (s.touch ⟨m.node, m.round⟩) (s.viewOf ⟨m.node, m.round⟩) m).1
        ((fileVote h (s.touch ⟨m.node, m.round⟩) (s.viewOf ⟨m.node, m.round⟩) m).2.1.putView
          ⟨m.node, m.round⟩ m.view) ⟨m.node, m.round, s.viewOf ⟨m.node, m.round⟩⟩ =
        (fileVote h (s.touch ⟨m.node, m.round⟩) (s.viewOf ⟨m.node, m.round⟩) m).2.2 := by
      refine (hfile (State.putView _ _ _) rfl _).trans ?_
      rw [if_pos rfl, fileVote_map, hcontent]
    rw [hmap]
    exact ⟨rfl, hq, hh⟩

end OnFile

/-! ## §4. A run. -/

theorem exists_votes {sent : List (Nat × ViewChange)} {v : Nat}
    {l : List (Sigma (fun _ : Nat => Hash))}
    (hl : ∀ e ∈ l, ∃ a ∈ sent, a.1 = v ∧ v ≤ a.2.view ∧ a.2.sender = e.1 ∧ a.2.hash = e.2) :
    ∃ votes : List ViewChange, (∀ m ∈ votes, (v, m) ∈ sent ∧ v ≤ m.view) ∧
      votes.map ViewChange.sender = l.map (·.1) ∧ votes.map ViewChange.hash = l.map (·.2) := by
  induction l with
  | nil => exact ⟨[], by simp, rfl, rfl⟩
  | cons e l ih =>
    obtain ⟨votes, hvotes, hsenders, hhashes⟩ := ih (fun x hx => hl x (mem_cons_of_mem e hx))
    obtain ⟨⟨u, m⟩, ha, hu, hle, hsender, hhash⟩ := hl e mem_cons_self
    subst hu
    refine ⟨m :: votes, ?_, ?_, ?_⟩
    · intro x hx
      rcases mem_cons.mp hx with hx | hx
      · rw [hx]
        exact ⟨ha, hle⟩
      · exact hvotes x hx
    · rw [map_cons, hsenders]
      exact congrArg (· :: _) hsender
    · rw [map_cons, hhashes]
      exact congrArg (· :: _) hhash

theorem OnFile.backed {nr : NodeRound} {p : Params} {h : Heap} {s : State}
    {sent : List (Nat × ViewChange)} (ho : OnFile nr h s sent) {v : Nat} {nv : NewView}
    (hq : (vcContent h s ⟨nr.node, nr.round, v⟩).entries.length = p.quorum2f1)
    (hh : newViewHash nv.node nv.round []
      ((vcContent h s ⟨nr.node, nr.round, v⟩).entries.map (·.2)) = .ok nv.hash)
    (hle : v ≤ nv.view) (hun : Unmixed v nv.view sent) : Backed p (sent.map Prod.snd) nv := by
  obtain ⟨votes, hvotes, hsenders, hhashes⟩ := exists_votes (ho.sound v)
  have hkeys : votes.map ViewChange.sender = (vcContent h s ⟨nr.node, nr.round, v⟩).keys := hsenders
  obtain ⟨_, hunique⟩ := newViewHash_unique hh
  refine ⟨votes, ?_, ?_, ?_, ?_, ?_, ?_⟩
  · intro m hm
    obtain ⟨hsent, hlem⟩ := hvotes m hm
    exact ⟨mem_map.mpr ⟨(v, m), hsent, rfl⟩, (hun (v, m) hsent).1 ⟨rfl, hlem⟩⟩
  · rw [hkeys]
    exact (vcContent h s ⟨nr.node, nr.round, v⟩).nodupKeys
  · rw [← hq, ← length_map (f := fun e : Sigma (fun _ : Nat => Hash) => e.1), ← hsenders,
      length_map]
  · intro m hm hview
    obtain ⟨⟨u, m'⟩, ha, hm'⟩ := mem_map.mp hm
    subst hm'
    have hu : u = v := (hun (u, m') ha).2 hview
    subst hu
    rw [hkeys]
    exact ho.complete (u, m') ha (by rw [hview]; exact hle)
  · intro m hm hne
    refine hunique m.hash ?_ hne
    rw [← hhashes]
    exact mem_map_of_mem hm
  intro hne
  rcases newViewHash_mem hh with hnil | hmem
  · exact absurd hnil hne
  · rw [← hhashes] at hmem
    exact mem_map.mp hmem

/-- The invariant of a run: the votes on file were filed, and every new view was backed, unless
votes were mixed. -/
structure Played (p : Params) (nr : NodeRound) (x : Play) : Prop where
  open_ : x.state.data.final = .empty
  file : OnFile nr x.heap x.state (asks nr x.seen)
  backed : ∀ pre e post, x.seen = pre ++ e :: post → ∀ sender origin m nv,
    e.input = .message sender origin (.viewChange m) → (⟨m.node, m.round⟩ : NodeRound) = nr →
    e.resp = some (.newView nv) → Unmixed (e.state.viewOf nr) nv.view (asks nr (pre ++ [e])) →
    Backed p ((asks nr (pre ++ [e])).map Prod.snd) nv

section Run
variable {p : Params} {receiver : Nat} {nr : NodeRound} {x y : Play}

theorem split_snoc {l pre post : List Seen} {e e' : Seen} (h : l ++ [e] = pre ++ e' :: post) :
    (post = [] ∧ pre = l ∧ e' = e) ∨ ∃ post', l = pre ++ e' :: post' := by
  rcases eq_nil_or_concat post with hpost | ⟨post', z, hpost⟩
  · subst hpost
    obtain ⟨hl, he⟩ := append_inj' h rfl
    injection he with he
    exact .inl ⟨rfl, hl.symm, he.symm⟩
  subst hpost
  have h' : l ++ [e] = (pre ++ e' :: post') ++ [z] := by
    rw [h]
    simp
  exact .inr ⟨post', (append_inj' h' rfl).1⟩

theorem Played.step (hx : Played p nr x) {input : Input} (h : x.step p receiver input = .ok y) :
    Played p nr y := by
  cases input with
  | timeout t =>
    cases h
    have hasks : asks nr (x.seen ++ [⟨x.state, .timeout t, none⟩]) = asks nr x.seen := by
      unfold asks
      simp [Seen.ask]
    -- A timeout records a view and files nothing.
    have hdata : (fireTimeout receiver (x.state, []) t).1.data.viewChanged =
          x.state.data.viewChanged ∧
        (fireTimeout receiver (x.state, []) t).1.data.final = x.state.data.final := by
      rcases fireTimeout_cases receiver x.state [] t with ⟨_, heq⟩ | ⟨_, _, heq⟩
      · rw [heq]
        exact ⟨rfl, rfl⟩
      · rw [heq]
        exact ⟨rfl, rfl⟩
    refine ⟨hdata.2.trans hx.open_, ?_, ?_⟩
    · show OnFile nr x.heap _ (asks nr (x.seen ++ [_]))
      rw [hasks]
      exact hx.file.congr (fun v => vcContent_congr rfl hdata.1 _)
    intro pre e post hsplit sender origin m nv hin hnr hresp hun
    rcases split_snoc hsplit with ⟨_, _, he⟩ | ⟨post', hold⟩
    · rw [he] at hin
      cases hin
    · exact hx.backed pre e post' hold sender origin m nv hin hnr hresp hun
  | message sender origin msg =>
    obtain ⟨r, hr, h⟩ := bind_eq_ok.mp h
    cases h
    have hreacts := react_cases hr
    by_cases hask : ∃ m, msg = .viewChange m ∧ (⟨m.node, m.round⟩ : NodeRound) = nr
    · obtain ⟨m, rfl, hnr⟩ := hask
      have hasks : asks nr (x.seen ++ [⟨x.state, .message sender origin (.viewChange m), r.resp⟩])
          = asks nr x.seen ++ [(x.state.viewOf nr, m)] := by
        unfold asks
        simp [Seen.ask, hnr]
      have hcases := hreacts.viewChange_cases hx.open_ hnr
      have hfile : OnFile nr r.heap r.state (asks nr x.seen ++ [(x.state.viewOf nr, m)]) := by
        rcases hcases with ⟨hlt, _, hsame⟩ | ⟨hle, hfiled, _⟩
        · exact (hx.file.congr hsame).late hlt
        · exact hx.file.file hle hfiled
      refine ⟨hreacts.dataFinal.trans hx.open_, ?_, ?_⟩
      · show OnFile nr r.heap r.state (asks nr (x.seen ++ [_]))
        rw [hasks]
        exact hfile
      intro pre e post hsplit sender' origin' m' nv hin hnr' hresp hun
      rcases split_snoc hsplit with ⟨_, hpre, he⟩ | ⟨post', hold⟩
      · subst hpre he
        rw [hasks] at hun ⊢
        rcases hcases with ⟨_, hnone, _⟩ | ⟨hle, _, hnew⟩
        · rw [hnone] at hresp
          cases hresp
        obtain ⟨hview, hq, hh⟩ := hnew nv hresp
        have hnode := hreacts.resp_nodeRound hresp
        injection hnode with hn hr'
        have hn : nv.node = m.node := hn
        have hr' : nv.round = m.round := hr'
        rw [← hn, ← hr'] at hh
        exact hfile.backed hq hh (hview ▸ hle) hun
      · exact hx.backed pre e post' hold sender' origin' m' nv hin hnr' hresp hun
    have hasks : asks nr (x.seen ++ [⟨x.state, .message sender origin msg, r.resp⟩]) =
        asks nr x.seen := by
      unfold asks
      cases msg with
      | viewChange m =>
        have hne : (⟨m.node, m.round⟩ : NodeRound) ≠ nr := fun heq => hask ⟨m, rfl, heq⟩
        simp [Seen.ask, hne]
      | _ => simp [Seen.ask]
    have hne : ∀ m, msg = .viewChange m → (⟨m.node, m.round⟩ : NodeRound) ≠ nr :=
      fun m hm heq => hask ⟨m, hm, heq⟩
    refine ⟨hreacts.dataFinal.trans hx.open_, ?_, ?_⟩
    · show OnFile nr r.heap r.state (asks nr (x.seen ++ [_]))
      rw [hasks]
      exact hx.file.congr (fun v => hreacts.content hne v)
    intro pre e post hsplit sender' origin' m' nv hin hnr' hresp hun
    rcases split_snoc hsplit with ⟨_, _, he⟩ | ⟨post', hold⟩
    · rw [he] at hin
      injection hin with _ _ hin
      exact absurd hnr' (hne m' hin)
    · exact hx.backed pre e post' hold sender' origin' m' nv hin hnr' hresp hun

end Run

/-- **A new view has a quorum for that view if votes for views are not mixed.** The run starts with
no votes about `nr` on file; the step `e` answers a view change with a new view; the votes filed in
the receiver's view ask for it, and those that ask for it were filed there. -/
theorem newView_backed {p : Params} {receiver : Nat} {h : Heap} {s : State} {inputs : List Input}
    {x : Play} {nr : NodeRound} (hrun : play p receiver h s inputs = .ok x)
    (hopen : s.data.final = .empty) (hnone : ∀ v, vcContent h s ⟨nr.node, nr.round, v⟩ = ∅)
    {pre post : List Seen} {e : Seen} (hsplit : x.seen = pre ++ e :: post) {sender : Nat}
    {origin : BlockID} {m : ViewChange} {nv : NewView}
    (hin : e.input = .message sender origin (.viewChange m))
    (hnr : (⟨m.node, m.round⟩ : NodeRound) = nr) (hresp : e.resp = some (.newView nv))
    (hun : Unmixed (e.state.viewOf nr) nv.view (asks nr (pre ++ [e]))) :
    Backed p ((asks nr (pre ++ [e])).map Prod.snd) nv := by
  have hstart : Played p nr ⟨h, s, []⟩ := by
    refine ⟨hopen, ⟨?_, ?_⟩, ?_⟩
    · intro v e he
      rw [hnone v] at he
      cases he
    · intro a ha
      exact absurd ha (by simp [asks])
    · intro pre e post heq
      simp at heq
  have hend : Played p nr x :=
    foldlM_inv (Played p nr) hstart (fun _ _ _ _ hx hy => hx.step hy) hrun
  exact hend.backed pre e post hsplit sender origin m nv hin hnr hresp hun

/-! ## §5. Two runs. -/

/-- A view change about block (1, 1) without a hash, processed in block (1, 2). -/
def askAt (sender view : Nat) : Input :=
  .message sender ⟨[9], 1, 2⟩ (.viewChange ⟨[], 1, 1, sender, view⟩)

theorem last_step {x : Play} (nr : NodeRound) {inputs : List Input} {resps : List (Option Message)}
    {input : Input} {resp : Option Message}
    (h : x.seen.map (fun e => (e.input, e.resp)) = inputs.zip resps ++ [(input, resp)]) :
    ∃ pre e, x.seen = pre ++ [e] ∧ e.input = input ∧ e.resp = resp ∧
      asks nr (pre ++ [e]) = asks nr x.seen := by
  obtain ⟨pre, last, hseen, _, hlast⟩ := map_eq_append_iff.mp h
  obtain ⟨e, rest, hl, he, hrest⟩ := map_eq_cons_iff.mp hlast
  rw [map_eq_nil_iff.mp hrest] at hl
  rw [hl] at hseen
  injection he with hin hresp
  exact ⟨pre, e, hseen, hin, hresp, by rw [hseen]⟩

/-- Nodes 2, 3 and 4 ask for view 1. -/
theorem newView_backed_view1 :
    ∃ x pre e, play (new [1, 2, 3, 4] 0 (2 * ·)).params 1 Heap.empty State.empty
        [askAt 2 1, askAt 3 1, askAt 4 1] = .ok x ∧ x.seen = pre ++ [e] ∧
      e.resp = some (.newView ⟨[], 1, 1, 1, 1⟩) ∧
      Backed (new [1, 2, 3, 4] 0 (2 * ·)).params ((asks ⟨1, 1⟩ (pre ++ [e])).map Prod.snd)
        ⟨[], 1, 1, 1, 1⟩ := by
  have hrun : endsIn (play (new [1, 2, 3, 4] 0 (2 * ·)).params 1 Heap.empty State.empty
      [askAt 2 1, askAt 3 1, askAt 4 1]) (fun x =>
      x.seen.map (fun e => (e.input, e.resp)) = [askAt 2 1, askAt 3 1].zip [none, none] ++
          [(askAt 4 1, some (.newView ⟨[], 1, 1, 1, 1⟩))] ∧
        asks ⟨1, 1⟩ x.seen =
          [(0, ⟨[], 1, 1, 2, 1⟩), (0, ⟨[], 1, 1, 3, 1⟩), (0, ⟨[], 1, 1, 4, 1⟩)] ∧
        ∀ e ∈ x.seen, e.state.viewOf ⟨1, 1⟩ = 0) = true := by decide +kernel
  obtain ⟨x, hx, hsteps, hasks, hviews⟩ := exists_of_endsIn hrun fun _ _ h => h
  obtain ⟨pre, e, hseen, hin, hresp, hlast⟩ := last_step ⟨1, 1⟩ hsteps
  have hview : e.state.viewOf ⟨1, 1⟩ = 0 := hviews e (by rw [hseen]; simp)
  refine ⟨x, pre, e, hx, hseen, hresp, ?_⟩
  refine newView_backed hx rfl (fun _ => rfl) hseen hin rfl hresp ?_
  rw [hview, hlast, hasks]
  unfold Unmixed
  decide

/-- **Votes for views 1, 2 and 5 make view 5.** The receiver is in view 0, so they are filed
together, and the last one completes a quorum: only node 4 asked for the new view. -/
theorem newView_mixed : ∃ x pre e, play (new [1, 2, 3, 4] 0 (2 * ·)).params 1 Heap.empty State.empty
        [askAt 2 1, askAt 3 2, askAt 4 5] = .ok x ∧ x.seen = pre ++ [e] ∧
      e.resp = some (.newView ⟨[], 1, 1, 1, 5⟩) ∧
      ¬ Backed (new [1, 2, 3, 4] 0 (2 * ·)).params ((asks ⟨1, 1⟩ (pre ++ [e])).map Prod.snd)
        ⟨[], 1, 1, 1, 5⟩ := by
  have hrun : endsIn (play (new [1, 2, 3, 4] 0 (2 * ·)).params 1 Heap.empty State.empty
      [askAt 2 1, askAt 3 2, askAt 4 5]) (fun x =>
      x.seen.map (fun e => (e.input, e.resp)) = [askAt 2 1, askAt 3 2].zip [none, none] ++
          [(askAt 4 5, some (.newView ⟨[], 1, 1, 1, 5⟩))] ∧
        asks ⟨1, 1⟩ x.seen =
          [(0, ⟨[], 1, 1, 2, 1⟩), (0, ⟨[], 1, 1, 3, 2⟩), (0, ⟨[], 1, 1, 4, 5⟩)]) = true := by
    decide +kernel
  obtain ⟨x, hx, hsteps, hasks⟩ := exists_of_endsIn hrun fun _ _ h => h
  obtain ⟨pre, e, hseen, _, hresp, hlast⟩ := last_step ⟨1, 1⟩ hsteps
  refine ⟨x, pre, e, hx, hseen, hresp, ?_⟩
  rw [hlast, hasks]
  rintro ⟨votes, hvotes, hnodup, _⟩
  -- Node 4 is the only sender of a vote for view 5.
  have hsub : votes.map ViewChange.sender ⊆ [4] := by
    intro y hy
    obtain ⟨v, hv, rfl⟩ := mem_map.mp hy
    obtain ⟨hsent, hview⟩ := hvotes v hv
    simp only [map_cons, map_nil, mem_cons, not_mem_nil, or_false] at hsent
    rcases hsent with rfl | rfl | rfl
    · exact absurd hview (by decide)
    · exact absurd hview (by decide)
    · exact mem_cons_self
  have hlen : (votes.map ViewChange.sender).length ≤ 1 := (subperm_of_subset hnodup hsub).length_le
  rw [length_map] at hlen
  have hq : (new [1, 2, 3, 4] 0 (2 * ·)).params.quorum2f1 = 3 := rfl
  omega

end Chainspace.Blockmania
