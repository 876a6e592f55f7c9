/-
  Chainspace.Pubsub.Conn — payloads for a subscriber (`pubsub/internal/internal.go`).

  `Write` sends a payload after its size, in the frames of `Network.Conn`, with as many writes of
  the connection as it takes; when one of them times out it returns nil and gives up the rest of the
  frame, and the next payload follows what was sent.  `Read` collects the four bytes of the size and
  then the payload.  On a timeout it returns nil and forgets what it has collected; the client calls
  it again.  An EOF is treated as a timeout by both.  What was given to `Write`, and what `Read` has
  handed to the JSON decoder, is kept for the proofs.

  `Session.Run.reads_payloads` says when the payloads arrive, `timeout_loses_frame` what goes wrong.
-/
import Chainspace.Network.Conn

namespace Chainspace.Pubsub

open Chainspace.Lib Chainspace.Network List

/-! ## §1. The two ends. -/

/-- Where `Read` stands: in its first loop, or in its second, with the front of the buffer. -/
inductive Reading
  | header (got : List UInt8)
  | body (size : Nat) (got : List UInt8)
  /-- the size is negative, and `buf[:size]` out of range -/
  | panicked
  deriving DecidableEq

/-- A connection from the publisher to a subscriber. -/
structure Session where
  /-- `buf` of the `Write` that is going on -/
  unwritten : List UInt8
  /-- the bytes written and not yet read -/
  flight : List UInt8
  reading : Reading
  /-- the payloads given to `Write` -/
  sent : List (List UInt8)
  /-- the payloads `Read` has decoded -/
  results : List (List UInt8)
  deriving DecidableEq

inductive Event
  /-- a call of `Write`, after the one before has returned -/
  | write (payload : List UInt8)
  /-- the connection takes `n` bytes of a `Write` -/
  | wrote (n : Nat)
  /-- it takes `n` bytes and no more in time -/
  | writeTimeout (n : Nat)
  /-- the connection returns at most `n` bytes to a `Read` -/
  | read (n : Nat)
  /-- it returns no byte in time -/
  | timeout

namespace Session

/-- `NewConn` on both ends. -/
def new : Session := ⟨[], [], .header [], [], []⟩

/-- The head of the second loop: `Read` returns once nothing is needed. -/
def readRest (s : Session) (size : Nat) (got : List UInt8) : Session :=
  if got.length < size then { s with reading := .body size got }
  else { s with reading := .header [], results := s.results ++ [got] }

/-- `Read` between its loops. -/
def readSize (s : Session) (buf : List UInt8) : Session :=
  let size := Conn.announced buf
  if size < 0 then { s with reading := .panicked } else s.readRest size.toNat []

/-- A `Read` of at most `n` bytes. -/
def read (s : Session) (n : Nat) : Session :=
  match s.reading with
  | .panicked => s
  | .header got =>
    let n := min n (4 - got.length)
    let got := got ++ s.flight.take n
    let s := { s with flight := s.flight.drop n }
    if got.length < 4 then { s with reading := .header got } else s.readSize got
  | .body size got =>
    let n := min n (size - got.length)
    { s with flight := s.flight.drop n }.readRest size (got ++ s.flight.take n)

/-- One step of either end. -/
def step (s : Session) : Event → Session
  | .write payload =>
    if s.unwritten = [] then { s with unwritten := frame payload, sent := s.sent ++ [payload] }
    else s
  | .wrote n =>
    { s with unwritten := s.unwritten.drop n, flight := s.flight ++ s.unwritten.take n }
  | .writeTimeout n => { s with unwritten := [], flight := s.flight ++ s.unwritten.take n }
  | .read n => s.read n
  | .timeout => if s.reading = .panicked then s else { s with reading := .header [] }

/-! ## §2. What a step keeps. -/

/-- The payloads not returned yet are the bytes collected, those on their way and those to be
written. -/
def Sound (s : Session) : Prop :=
  ∃ rest, s.sent = s.results ++ rest ∧
    match s.reading with
    | .header got => got.length < 4 ∧ got ++ (s.flight ++ s.unwritten) = frames rest
    | .body size got => got.length < size ∧ ∃ p rest', rest = p :: rest' ∧ p.length = size ∧
        got ++ (s.flight ++ s.unwritten) = p ++ frames rest'
    | .panicked => False

/-- A read times out only before the first byte of a frame, no write times out, and a payload has
the size of an `int32`. -/
def Quiet (s : Session) : Event → Prop
  | .write payload => payload.length < 2 ^ 31
  | .writeTimeout _ => False
  | .timeout => s.reading = .header []
  | _ => True

variable {rest : List (List UInt8)} {s : Session} {got p : List UInt8}

theorem sound_readRest (hsent : s.sent = s.results ++ p :: rest) (hgot : got.length ≤ p.length)
    (h : got ++ (s.flight ++ s.unwritten) = p ++ frames rest) :
    Sound (s.readRest p.length got) := by
  unfold readRest
  split
  next hlt => exact ⟨p :: rest, hsent, hlt, p, rest, rfl, rfl, h⟩
  next hge =>
    obtain ⟨rfl, hrest⟩ := append_inj h (by omega)
    refine ⟨rest, ?_, by decide, hrest⟩
    show s.sent = s.results ++ [got] ++ rest
    rw [hsent, append_assoc]
    rfl

theorem sound_readSize (hfits : ∀ p ∈ s.sent, p.length < 2 ^ 31)
    (hsent : s.sent = s.results ++ rest)
    (hgot : got.length = 4) (h : got ++ (s.flight ++ s.unwritten) = frames rest) :
    Sound (s.readSize got) := by
  obtain ⟨p, rest, rfl, hheader, htail⟩ := frames_header hgot h.symm
  have hp : p.length < 2 ^ 31 := hfits p (by rw [hsent]; simp)
  have hlimit : 2 ^ 31 - 1 < 2 ^ 31 := by decide
  have hsize : Conn.announced got = p.length :=
    Conn.announced_put hlimit (by omega) (by rw [← hheader, ← hgot, take_length])
  simp only [readSize, hsize]
  rw [if_neg (by omega), Int.toNat_natCast]
  exact sound_readRest hsent (Nat.zero_le _) htail.symm

theorem Sound.read (hfits : ∀ p ∈ s.sent, p.length < 2 ^ 31) (h : Sound s) (n : Nat) :
    Sound (s.read n) := by
  obtain ⟨unwritten, flight, reading, sent, results⟩ := s
  obtain ⟨rest, hsent, hs⟩ := h
  have htake : ∀ k (got : List UInt8), got.length ≤ k →
      (got ++ flight.take (min n (k - got.length))).length ≤ k := by
    intro k got hgot
    simp only [length_append, length_take]
    omega
  -- What is taken goes from the bytes on their way to those collected.
  have hmove : ∀ k (got : List UInt8), got ++ flight.take k ++ (flight.drop k ++ unwritten) =
      got ++ (flight ++ unwritten) := by
    intro k got
    rw [append_assoc, ← append_assoc (flight.take k), take_append_drop]
  cases reading with
  | panicked => exact hs.elim
  | header got =>
    obtain ⟨hlt, hframes⟩ := hs
    have hle := htake 4 got (by omega)
    unfold Session.read
    dsimp only
    split
    next hshort => exact ⟨rest, hsent, hshort, (hmove _ got).trans hframes⟩
    next hfull => exact sound_readSize hfits hsent (by omega) ((hmove _ got).trans hframes)
  | body size got =>
    obtain ⟨hlt, p, rest, rfl, rfl, hbytes⟩ := hs
    exact sound_readRest hsent (htake p.length got (by omega)) ((hmove _ got).trans hbytes)

/-- The publisher's bytes pass from the `Write` to the connection. -/
theorem Sound.wrote (h : Sound s) (n : Nat) : Sound (s.step (.wrote n)) := by
  obtain ⟨rest, hsent, hs⟩ := h
  refine ⟨rest, hsent, ?_⟩
  have hmove : s.flight ++ s.unwritten.take n ++ s.unwritten.drop n = s.flight ++ s.unwritten := by
    rw [append_assoc, take_append_drop]
  simp only [Session.step, hmove]
  exact hs

theorem Sound.write (h : Sound s) (payload : List UInt8) : Sound (s.step (.write payload)) := by
  rw [Session.step]
  split
  next hidle =>
    obtain ⟨rest, hsent, hs⟩ := h
    rw [hidle, append_nil] at hs
    have hframes : ∀ rest, frames (rest ++ [payload]) = frames rest ++ frame payload := by
      intro rest
      rw [frames_append]
      exact congrArg (frames rest ++ ·) (append_nil _)
    refine ⟨rest ++ [payload], by rw [hsent, append_assoc], ?_⟩
    dsimp only
    cases hreading : s.reading with
    | panicked =>
      rw [hreading] at hs
      exact hs
    | header got =>
      rw [hreading] at hs
      refine ⟨hs.1, ?_⟩
      rw [hframes, ← hs.2, append_assoc]
    | body size got =>
      rw [hreading] at hs
      obtain ⟨hlt, p, rest', rfl, hsize, hbytes⟩ := hs
      refine ⟨hlt, p, rest' ++ [payload], rfl, hsize, ?_⟩
      rw [hframes, ← append_assoc, hbytes, append_assoc]
  · exact h

theorem Sound.step (hfits : ∀ p ∈ s.sent, p.length < 2 ^ 31) (h : Sound s) {e : Event}
    (hquiet : Quiet s e) : Sound (s.step e) := by
  cases e with
  | write payload => exact h.write payload
  | wrote n => exact h.wrote n
  | writeTimeout n => exact hquiet.elim
  | read n => exact h.read hfits n
  | timeout =>
    have hheader : s.reading = .header [] := hquiet
    have hsame : s.step .timeout = s := by
      rw [Session.step, if_neg (by rw [hheader]; decide), ← hheader]
    rw [hsame]
    exact h

theorem read_sent (s : Session) (n : Nat) : (s.read n).sent = s.sent := by
  have hrest : ∀ (s : Session) size got, (s.readRest size got).sent = s.sent := by
    intro s size got
    unfold readRest
    split
    all_goals rfl
  unfold Session.read
  split
  · rfl
  · dsimp only
    split
    · rfl
    unfold readSize
    dsimp only
    split
    · rfl
    · exact hrest _ _ _
  · exact hrest _ _ _

theorem step_sent {e : Event} (hquiet : Quiet s e) (hfits : ∀ p ∈ s.sent, p.length < 2 ^ 31) :
    ∀ p ∈ (s.step e).sent, p.length < 2 ^ 31 := by
  cases e with
  | write payload =>
    rw [Session.step]
    split
    · exact forall_mem_append.mpr ⟨hfits, forall_mem_singleton.mpr hquiet⟩
    · exact hfits
  | wrote | writeTimeout => exact hfits
  | read n =>
    show ∀ p ∈ (s.read n).sent, _
    rw [read_sent]
    exact hfits
  | timeout =>
    rw [Session.step]
    split
    all_goals exact hfits

/-! ## §3. Runs. -/

/-- A run whose events are all quiet. -/
inductive Run : Session → Prop
  | start : Run new
  | step {s : Session} (hrun : Run s) (e : Event) (hquiet : Quiet s e) : Run (s.step e)

/-- **Where no write times out, reads time out only before the first byte of a frame and the sizes
are those of an `int32`, the results are the payloads in order, all of them once nothing is on its
way, and no slice is out of range.** -/
theorem Run.reads_payloads (hrun : Run s) : s.results <+: s.sent ∧ s.reading ≠ .panicked ∧
    (s.unwritten = [] → s.flight = [] → s.results = s.sent) := by
  have hsound : Sound s ∧ ∀ p ∈ s.sent, p.length < 2 ^ 31 := by
    induction hrun with
    | start => exact ⟨⟨[], rfl, by decide, rfl⟩, nofun⟩
    | step _ e hquiet ih => exact ⟨ih.1.step ih.2 hquiet, step_sent hquiet ih.2⟩
  obtain ⟨⟨rest, hsent, hs⟩, _⟩ := hsound
  refine ⟨⟨rest, hsent.symm⟩, fun hp => by rw [hp] at hs; exact hs, fun hwritten hflight => ?_⟩
  -- What is collected is less than a header or than a payload, so nothing is left.
  suffices hrest : rest = [] by rw [hsent, hrest, append_nil]
  rw [hwritten, hflight] at hs
  cases hreading : s.reading with
  | panicked =>
    rw [hreading] at hs
    exact hs.elim
  | header got =>
    rw [hreading] at hs
    obtain ⟨hlt, hbytes⟩ := hs
    have hlen := congrArg List.length hbytes
    rw [append_nil, append_nil] at hlen
    cases rest with
    | nil => rfl
    | cons p rest =>
      have hframe : (frames (p :: rest)).length = 4 + p.length + (frames rest).length := by
        rw [← length_frame, ← length_append]
        rfl
      omega
  | body size got =>
    rw [hreading] at hs
    obtain ⟨hlt, p, rest', _, hsize, hbytes⟩ := hs
    have hlen := congrArg List.length hbytes
    rw [append_nil, append_nil, length_append] at hlen
    omega

/-- The JSON text of an object with the field `labels` and one label of two letters, each of two
bytes. -/
def labelled : List UInt8 :=
  [123, 34, 108, 97, 98, 101, 108, 115, 34, 58, 91, 34, 195, 169, 195, 169, 34, 93, 125]

/-- The empty object and then `labelled`, in parts, with a timeout before the first frame. -/
theorem reads_in_pieces : ∃ s, Run s ∧ s.results = [[123, 125], labelled] ∧ s.results = s.sent := by
  have h1 := (((Run.start.step .timeout rfl).step (.write [123, 125]) (by decide : 2 < 2 ^ 31)).step
    (.wrote 3) trivial).step (.read 2) trivial
  have h2 := (((h1.step (.wrote 3) trivial).step (.read 9) trivial).step
    (.write labelled) (by decide : 19 < 2 ^ 31)).step (.read 9) trivial
  have h3 := (((h2.step (.wrote 20) trivial).step (.read 4) trivial).step
    (.wrote 9) trivial).step (.read 12) trivial
  have h4 := h3.step (.read 30) trivial
  exact ⟨_, h4, rfl, h4.reads_payloads.2.2 rfl rfl⟩

/-- A read that times out inside a payload: letters are taken for a header, and the size is
negative. A write that times out inside a frame: the next frame's bytes complete the payload. -/
theorem timeout_loses_frame :
    ([Event.write labelled, .wrote 23, .read 4, .read 12, .timeout, .read 4].foldl
      step new).reading =
        .panicked ∧
      ([Event.write [123, 125], .writeTimeout 5, .write [123, 125], .wrote 6, .read 4,
        .read 9].foldl step new).results = [[123, 2]] := by
  decide +kernel

end Session

end Chainspace.Pubsub
