/-
  Chainspace.Network.Duplex — reading and writing on one connection at once (`network/conn.go`, as
  `internal/conns/cache.go` uses it).

  The cache writes requests to a connection while another goroutine reads the answers from it. Both
  use `c.buf`: `WritePayload` puts the header of its payload there and then hands it on,
  `readPayload` reads into it. A `Read` between the two replaces the header that goes out; a header
  between two `Read`s replaces what came in. The payload `readPayload` returns is a slice of
  `c.buf`, so a header put there before the caller has decoded it replaces its first bytes. When
  `readPayload` takes a larger array, a header that is being written stays in the old one.
-/
import Chainspace.Network.Conn

namespace Chainspace.Network

open Chainspace.Lib

/-! ## §1. Two goroutines. -/

/-- A connection with a writer and a reader. What was sent and received is for the proofs. -/
structure Duplex where
  /-- `c.buf` -/
  buf : List UInt8
  /-- the array of a header put into it before `c.buf` was replaced -/
  detached : Option (List UInt8)
  writer : Call
  reader : Call
  /-- the bytes handed to `Write` and taken -/
  written : List UInt8
  /-- the bytes of the peer that were not read yet -/
  incoming : List UInt8
  /-- the size of a payload `readPayload` returned: `c.buf[:size]`, which is not decoded yet -/
  held : Option Nat
  /-- the payloads given to `WritePayload` -/
  sent : List (List UInt8)
  /-- the payloads as `ReadMessage` decodes them -/
  received : List (List UInt8)

/-- Where the next `Read` puts its bytes: what it has read stands before. -/
def Call.position : Call → Nat
  | .readHeader need => 4 - need
  | .read size need => size - need
  | _ => 0

/-- What the two goroutines can do. -/
inductive Move
  /-- a step of `WritePayload` or of `readPayload` -/
  | act (a : Action)
  /-- `proto.Unmarshal` of what `readPayload` returned -/
  | unmarshal

namespace Duplex

def new (buf incoming : List UInt8) : Duplex :=
  ⟨buf, none, .idle, .idle, [], incoming, none, [], []⟩

def writing (d : Duplex) : Conn := ⟨d.detached.getD d.buf, d.writer⟩

def reading (d : Duplex) : Conn := ⟨d.buf, d.reader⟩

/-- The payload a caller holds, as it stands in the buffer. -/
def heldPayload (d : Duplex) : Option (List UInt8) := d.held.map (d.buf.take ·)

/-- The number of bytes at the start of `c.buf` that the reading side still needs. -/
def standing (d : Duplex) : Nat := d.held.getD d.reader.position

/-- The steps of the two calls; `none` if one cannot happen. -/
def act (limit : Nat) (d : Duplex) : Action → Option Duplex
  | .writePayload payload =>
    if d.writer = .idle then
      let w := (⟨d.buf, .idle⟩ : Conn).writePayload limit payload
      some { d with
        buf := w.buf
        detached := none
        writer := w.call
        sent := d.sent ++ [payload] }
    else none
  | .write n =>
    if 1 ≤ n ∧ n ≤ d.writing.outgoing.length then
      some { d with
        writer := (d.writing.wrote n).call
        written := d.written ++ d.writing.outgoing.take n }
    else none
  | .readPayload =>
    if d.reader = .idle ∧ d.held = none then
      some { d with reader := d.reading.readPayload.call }
    else none
  | .read n =>
    if 1 ≤ n ∧ n ≤ d.reading.wanted ∧ n ≤ d.incoming.length then
      let r := d.reading.took limit (d.incoming.take n)
      some { d with
        buf := r.1.buf
        -- a larger array: the old one keeps the bytes of the header
        detached := if r.1.buf.length = d.buf.length then d.detached
          else some (d.detached.getD (blit d.buf d.reader.position (d.incoming.take n)))
        reader := r.1.call
        incoming := d.incoming.drop n
        held := r.2.map List.length }
    else none

def step (limit : Nat) (d : Duplex) : Move → Option Duplex
  | .act a => d.act limit a
  | .unmarshal => d.heldPayload.map fun payload =>
      { d with held := none, received := d.received ++ [payload] }

end Duplex

/-- **A run of the two goroutines**, each move of which satisfies `ok`. -/
inductive DuplexRun (limit : Nat) (ok : Duplex → Move → Prop) (d : Duplex) : Duplex → Prop
  | start : DuplexRun limit ok d d
  | step {e e' : Duplex} {a : Move} (hrun : DuplexRun limit ok d e) (hok : ok e a)
      (h : e.step limit a = some e') : DuplexRun limit ok d e'

def Duplex.stepAll (limit : Nat) (d : Duplex) (moves : List Move) : Option Duplex :=
  moves.foldlM (fun d a => d.step limit a) d

/-! ## §2. The condition. -/

/-- Payloads are within the limit, no header is put over bytes that the reading side still needs,
and no `Read` goes over a part of a header that was not written yet. -/
def Apart (limit : Nat) (d : Duplex) : Move → Prop
  | .act (.writePayload payload) => payload.length ≤ limit ∧ d.standing = 0
  | .act (.read n) => ∀ done payload, d.writer = .writeHeader done payload → d.detached = none →
      d.reader.position + n ≤ done
  | _ => True

/-- The writer puts a header of one byte into the buffer, the reader reads a header of two bytes
over it, and two bytes are announced; or the reader has read half of it, and gets one byte; or the
header goes over a payload before it is decoded. -/
theorem frames_mixed : ((Duplex.new Conn.new.buf (frames [[9, 9]])).stepAll 100
        [.act .readPayload, .act (.writePayload [7]), .act (.read 4), .act (.write 4),
          .act (.write 1)]).map Duplex.written = some [2, 0, 0, 0, 7] ∧
    ((Duplex.new Conn.new.buf (frames [[9, 9]])).stepAll 100
        [.act .readPayload, .act (.read 1), .act (.writePayload [7]), .act (.read 3),
          .act (.read 1), .unmarshal]).map Duplex.received = some [[9]] ∧
    ((Duplex.new Conn.new.buf (frames [[9, 9]])).stepAll 100
        [.act .readPayload, .act (.read 4), .act (.read 2), .act (.writePayload [7]),
          .unmarshal]).map Duplex.received = some [[1, 0]] ∧
    frame [7] = [1, 0, 0, 0, 7] := by
  decide +kernel

/-! ## §3. What a step keeps. -/

section Buffers
variable {limit : Nat} {c : Conn}

theorem Conn.Sound.larger (h : c.Sound limit) {buf : List UInt8}
    (hbuf : c.buf.length ≤ buf.length) :
    (⟨buf, c.call⟩ : Conn).Sound limit :=
  ⟨h.inRange, Nat.le_trans h.header hbuf,
    fun size need hcall => Nat.le_trans (h.payload size need hcall) hbuf⟩

theorem Conn.Sound.room (h : c.Sound limit) (data : List UInt8) (hsome : 1 ≤ data.length)
    (hdata : data.length ≤ c.wanted) : c.call.position + data.length ≤ c.buf.length := by
  obtain ⟨buf, call⟩ := c
  have hheader : 4 ≤ buf.length := h.header
  cases call with
  | readHeader need =>
    have hneed : 1 ≤ need ∧ need ≤ 4 := h.inRange
    have hdata : data.length ≤ need := hdata
    show 4 - need + data.length ≤ buf.length
    omega
  | read size need =>
    have hneed : 1 ≤ need ∧ need ≤ size ∧ size ≤ limit := h.inRange
    have hdata : data.length ≤ need := hdata
    have hbuf : size ≤ buf.length := h.payload size need rfl
    show size - need + data.length ≤ buf.length
    omega
  | idle | writeHeader | write | closed | panicked =>
    exact absurd (Nat.le_trans hsome hdata) (Nat.not_succ_le_zero 0)

/-- What a `Read` does to the buffer: its bytes are put there, or, with the header complete, a
larger one replaces it. -/
theorem Conn.took_buf (c : Conn) (limit : Nat) (data : List UInt8) (hwanted : 1 ≤ c.wanted)
    (hbuf : 4 ≤ c.buf.length) :
    (c.took limit data).1.buf = blit c.buf c.call.position data ∨
      4 ≤ c.call.position + data.length ∧
        (blit c.buf c.call.position data).length < (c.took limit data).1.buf.length := by
  have hrest : ∀ buf size need, (readRest buf size need).1.buf = buf := by
    intro buf size need
    unfold readRest
    split
    · rfl
    split
    all_goals rfl
  obtain ⟨buf, call⟩ := c
  have hheader : 4 ≤ buf.length := hbuf
  cases call with
  | readHeader =>
    unfold took Call.position
    dsimp only
    rw [if_neg (by omega)]
    split
    · exact .inl rfl
    next =>
      unfold readSize
      dsimp only
      split
      · exact .inl rfl
      split
      · exact .inl rfl
      rw [hrest]
      split
      next hlarger =>
        refine .inr ⟨by omega, ?_⟩
        rw [List.length_replicate]
        exact hlarger
      · exact .inl rfl
  | read => exact .inl (hrest _ _ _)
  | idle | writeHeader | write | closed | panicked => exact absurd hwanted (Nat.not_succ_le_zero 0)

/-- What `readPayload` returns stands at the start of the buffer, and the call is over. -/
theorem Conn.took_returned {data p : List UInt8} (h : (c.took limit data).2 = some p) :
    (c.took limit data).1.call = .idle ∧ (c.took limit data).1.buf.take p.length = p := by
  have hrest : ∀ buf size need, (readRest buf size need).2 = some p →
      (readRest buf size need).1.call = .idle ∧
        (readRest buf size need).1.buf.take p.length = p := by
    intro buf size need h
    unfold readRest at h ⊢
    split at h
    · cases h
    next hsize =>
      rw [if_neg hsize]
      split at h
      · cases h
      next hneed =>
        rw [if_neg hneed]
        cases h
        exact ⟨rfl, by rw [List.length_take, Nat.min_eq_left (Nat.not_lt.mp hsize)]⟩
  obtain ⟨buf, call⟩ := c
  cases call with
  | readHeader need =>
    unfold took at h ⊢
    dsimp only at h ⊢
    split at h
    · cases h
    split at h
    · cases h
    unfold readSize at h ⊢
    dsimp only at h ⊢
    split at h
    · cases h
    split at h
    · cases h
    next hsmall hmore hneg hlarge =>
      rw [if_neg hsmall, if_neg hmore, if_neg hneg, if_neg hlarge]
      exact hrest _ _ _ h
  | read size need => exact hrest _ _ _ h
  | idle | writeHeader | write | closed | panicked => cases h

/-- What is unwritten depends on the buffer only through the rest of the header. -/
theorem Conn.unwritten_congr {buf buf' : List UInt8} {call : Call}
    (h : ∀ done payload, call = .writeHeader done payload →
      (buf'.take 4).drop done = (buf.take 4).drop done) :
    (⟨buf', call⟩ : Conn).unwritten = (⟨buf, call⟩ : Conn).unwritten := by
  cases call with
  | writeHeader done payload =>
    show (buf'.take 4).drop done ++ payload = (buf.take 4).drop done ++ payload
    rw [h done payload rfl]
  | idle | write | readHeader | read | closed | panicked => rfl

theorem Conn.taken_congr {buf buf' : List UInt8} {call : Call} (h : call.position = 0) :
    (⟨buf', call⟩ : Conn).taken = (⟨buf, call⟩ : Conn).taken := by
  cases call with
  | readHeader need =>
    have h : 4 - need = 0 := h
    show buf'.take (4 - need) = buf.take (4 - need)
    rw [h]
    rfl
  | read size need =>
    have h : size - need = 0 := h
    show _ ++ buf'.take (size - need) = _ ++ buf.take (size - need)
    rw [h]
    rfl
  | idle | writeHeader | write | closed | panicked => rfl

end Buffers

/-- Both directions are in order: the header of a payload is in `c.buf` while it is written, what
was written and what is left are the frames sent, and the peer's frames are those received, held,
begun and to come. -/
structure Duplex.Sound (limit : Nat) (ps : List (List UInt8)) (d : Duplex) : Prop where
  attached : ∀ done payload, d.writer = .writeHeader done payload → d.detached = none
  writer : (⟨d.buf, d.writer⟩ : Conn).Sound limit
  reader : d.reading.Sound limit
  resting : ∀ size, d.held = some size → d.reader = .idle
  written : d.written ++ (⟨d.buf, d.writer⟩ : Conn).unwritten = frames d.sent
  received : ∃ rest, ps = d.received ++ (d.heldPayload.toList ++ rest) ∧
    frames rest = d.reading.taken ++ d.incoming

section Sound
variable {limit : Nat} {ps : List (List UInt8)} {d d' : Duplex}

theorem Duplex.Sound.writing (h : d.Sound limit ps) : d.writing.outgoing =
      (⟨d.buf, d.writer⟩ : Conn).outgoing ∧
    ∀ n, (d.writing.wrote n).call = ((⟨d.buf, d.writer⟩ : Conn).wrote n).call := by
  unfold Duplex.writing
  cases hw : d.writer with
  | writeHeader done payload =>
    rw [h.attached done payload hw]
    exact ⟨rfl, fun _ => rfl⟩
  | idle | write | readHeader | read | closed | panicked => exact ⟨rfl, fun _ => rfl⟩

/-- Where the reading side needs nothing of the buffer, it may be overwritten. -/
theorem Duplex.Sound.standing (h : d.Sound limit ps) (hstanding : d.standing = 0) :
    d.reader.position = 0 ∧ ∀ buf : List UInt8, d.held.map (buf.take ·) = d.heldPayload := by
  unfold Duplex.standing at hstanding
  unfold Duplex.heldPayload
  cases hheld : d.held with
  | none =>
    rw [hheld] at hstanding
    exact ⟨hstanding, fun _ => rfl⟩
  | some size =>
    rw [hheld] at hstanding
    have hsize : size = 0 := hstanding
    subst hsize
    rw [h.resting 0 hheld]
    exact ⟨rfl, fun _ => rfl⟩

theorem Duplex.Sound.writePayload (h : d.Sound limit ps) {payload : List UInt8}
    (hok : Apart limit d (.act (.writePayload payload)))
    (hstep : d.act limit (.writePayload payload) = some d') : d'.Sound limit ps := by
  obtain ⟨hsize, hstanding⟩ := hok
  obtain ⟨hposition, hheld⟩ := h.standing hstanding
  unfold Duplex.act at hstep
  dsimp only at hstep
  split at hstep
  next hidle =>
    cases hstep
    have hc : (⟨d.buf, .idle⟩ : Conn).Sound limit := hidle ▸ h.writer
    obtain ⟨hsound, hunwritten, _⟩ := Conn.writePayload_spec hc hsize
    have hlen : d.buf.length = ((⟨d.buf, .idle⟩ : Conn).writePayload limit payload).buf.length := by
      unfold Conn.writePayload
      rw [if_neg (by omega)]
      exact (length_blit (by rw [LittleEndian.length_put]; exact hc.header)).symm
    refine ⟨fun _ _ _ => rfl, hsound, h.reader.larger (Nat.le_of_eq hlen), h.resting, ?_, ?_⟩
    · have hall := h.written
      rw [hidle] at hall
      have hall : d.written ++ [] = frames d.sent := hall
      rw [hunwritten, frames_append, ← hall, List.append_nil]
      exact congrArg (d.written ++ ·) (List.append_nil _).symm
    obtain ⟨rest, hps, hrest⟩ := h.received
    rw [← hheld] at hps
    refine ⟨rest, hps, ?_⟩
    show _ = (⟨_, d.reader⟩ : Conn).taken ++ d.incoming
    rw [Conn.taken_congr hposition]
    exact hrest
  · cases hstep

theorem Duplex.Sound.write (h : d.Sound limit ps) {n : Nat}
    (hstep : d.act limit (.write n) = some d') : d'.Sound limit ps := by
  obtain ⟨hout, hcall⟩ := h.writing
  unfold Duplex.act at hstep
  dsimp only at hstep
  rw [hout, hcall] at hstep
  split at hstep
  next hn =>
    cases hstep
    obtain ⟨hsound, hunwritten, _⟩ := Conn.wrote_spec h.writer hn.1 hn.2
    have hbuf : ∀ c : Conn, (c.wrote n).buf = c.buf := by
      intro c
      unfold Conn.wrote
      split
      all_goals rfl
    have hconn : (⟨d.buf, ((⟨d.buf, d.writer⟩ : Conn).wrote n).call⟩ : Conn) =
        (⟨d.buf, d.writer⟩ : Conn).wrote n :=
      congrArg (Conn.mk · _) (hbuf ⟨d.buf, d.writer⟩).symm
    refine ⟨?_, hconn ▸ hsound, h.reader, h.resting, ?_, h.received⟩
    · -- a header that is not out was not out before
      intro done payload hdone
      cases hw : d.writer with
      | writeHeader before payload' => exact h.attached before payload' hw
      | write rest =>
        rw [hw] at hdone
        have hdone : Conn.writeRest (rest.drop n) = .writeHeader done payload := hdone
        unfold Conn.writeRest at hdone
        split at hdone
        all_goals cases hdone
      | idle | readHeader | read | closed | panicked => rw [hw] at hdone; cases hdone
    · show d.written ++ _ ++ (⟨d.buf, _⟩ : Conn).unwritten = _
      rw [hconn, List.append_assoc, ← hunwritten]
      exact h.written
  · cases hstep

theorem Duplex.Sound.read (hlimit : limit < 2 ^ 31) (hps : ∀ p ∈ ps, p.length ≤ limit)
    (h : d.Sound limit ps) {n : Nat} (hok : Apart limit d (.act (.read n)))
    (hstep : d.act limit (.read n) = some d') : d'.Sound limit ps := by
  unfold Duplex.act at hstep
  dsimp only at hstep
  split at hstep
  next =>
    cases hstep
    have hlen : (d.incoming.take n).length = n := by
      rw [List.length_take]
      omega
    have hroom : d.reader.position + n ≤ d.buf.length := by
      have hroom := h.reader.room (d.incoming.take n) (by omega) (by omega)
      rw [hlen] at hroom
      exact hroom
    have hblit : (blit d.buf d.reader.position (d.incoming.take n)).length = d.buf.length :=
      length_blit (by rw [hlen]; exact hroom)
    have hbuf : (d.reading.took limit (d.incoming.take n)).1.buf =
          blit d.buf d.reader.position (d.incoming.take n) ∨
        4 ≤ d.reader.position + n ∧
          d.buf.length < (d.reading.took limit (d.incoming.take n)).1.buf.length := by
      have htook := d.reading.took_buf limit (d.incoming.take n) (by omega) h.reader.header
      rw [hlen] at htook
      exact hblit ▸ htook
    -- a header in the buffer: the buffer stays, and so does the rest of the header
    have hheader : ∀ done payload, d.writer = .writeHeader done payload →
        (d.reading.took limit (d.incoming.take n)).1.buf =
          blit d.buf d.reader.position (d.incoming.take n) ∧ d.reader.position + n ≤ done := by
      intro done payload hw
      have hdone : done < 4 := by
        have hrange := h.writer.inRange
        rw [hw] at hrange
        exact hrange
      have happart := hok done payload hw (h.attached done payload hw)
      rcases hbuf with hbuf | _
      · exact ⟨hbuf, happart⟩
      · omega
    have hlonger : d.buf.length ≤ (d.reading.took limit (d.incoming.take n)).1.buf.length := by
      rcases hbuf with hbuf | ⟨_, hbuf⟩
      · exact Nat.le_of_eq (by rw [hbuf, hblit])
      · exact Nat.le_of_lt hbuf
    -- while a read goes on, no payload is held
    have hnone : d.heldPayload = none := by
      unfold Duplex.heldPayload
      cases hheld : d.held with
      | none => rfl
      | some size =>
        have hwanted : d.reading.wanted = 0 := by
          unfold Duplex.reading
          rw [h.resting size hheld]
          rfl
        omega
    obtain ⟨rest, hrest, hframes⟩ := h.received
    rw [hnone] at hrest
    have hrest : ps = d.received ++ rest := hrest
    have hsplit : frames rest = d.reading.taken ++ (d.incoming.take n ++ d.incoming.drop n) := by
      rw [hframes, List.take_append_drop]
    obtain ⟨hsound, rest', hrest', hframes'⟩ := Conn.took_spec hlimit h.reader
      (fun p hp => hps p (by rw [hrest]; exact List.mem_append_right _ hp)) (by omega) (by omega)
      hsplit
    refine ⟨?_, h.writer.larger hlonger, hsound, ?_, ?_, rest', ?_, hframes'⟩
    · intro done payload hw
      rw [(hheader done payload hw).1, if_pos hblit]
      exact h.attached done payload hw
    · intro size hsize
      obtain ⟨p, hp, _⟩ := Option.map_eq_some_iff.mp hsize
      exact (Conn.took_returned hp).1
    · show d.written ++ (⟨_, d.writer⟩ : Conn).unwritten = _
      rw [← h.written]
      refine congrArg (d.written ++ ·) (Conn.unwritten_congr ?_)
      intro done payload hw
      obtain ⟨heq, hle⟩ := hheader done payload hw
      rw [heq, List.drop_take, List.drop_take, drop_blit (by rw [hlen]; exact hle) (by omega)]
    · -- what is returned now is held
      have hheld : ((d.reading.took limit (d.incoming.take n)).2.map List.length).map
            ((d.reading.took limit (d.incoming.take n)).1.buf.take ·) =
          (d.reading.took limit (d.incoming.take n)).2 := by
        cases hp : (d.reading.took limit (d.incoming.take n)).2 with
        | none => rfl
        | some p => exact congrArg some (Conn.took_returned hp).2
      show ps = d.received ++ (Option.toList (Option.map _ _) ++ rest')
      rw [hheld, ← hrest', hrest]
  · cases hstep

theorem Duplex.Sound.unmarshal (h : d.Sound limit ps) (hstep : d.step limit .unmarshal = some d') :
    d'.Sound limit ps := by
  obtain ⟨payload, hpayload, heq⟩ := Option.map_eq_some_iff.mp hstep
  subst heq
  refine ⟨h.attached, h.writer, h.reader, fun _ hheld => (nomatch hheld), h.written, ?_⟩
  obtain ⟨rest, hps, hframes⟩ := h.received
  refine ⟨rest, ?_, hframes⟩
  rw [hps, hpayload]
  exact (List.append_assoc d.received [payload] rest).symm

theorem Duplex.Sound.step (hlimit : limit < 2 ^ 31) (hps : ∀ p ∈ ps, p.length ≤ limit)
    (h : d.Sound limit ps) {m : Move} (hok : Apart limit d m)
    (hstep : d.step limit m = some d') : d'.Sound limit ps := by
  rcases m with (_ | _ | _ | _) | _
  case act.writePayload => exact h.writePayload hok hstep
  case act.write => exact h.write hstep
  case act.read => exact h.read hlimit hps hok hstep
  case unmarshal => exact h.unmarshal hstep
  case act.readPayload =>
    have hstep : d.act limit .readPayload = some d' := hstep
    unfold Duplex.act at hstep
    dsimp only at hstep
    split at hstep
    next hidle =>
      cases hstep
      have hframes := h.received
      unfold Duplex.reading at hframes
      rw [hidle.1] at hframes
      have hresting : ∀ size, d.held = some size → Call.readHeader 4 = .idle := by
        rw [hidle.2]
        exact nofun
      exact ⟨h.attached, h.writer, ⟨⟨by omega, by omega⟩, h.reader.header, fun _ _ h => nomatch h⟩,
        hresting, h.written, hframes⟩
    · cases hstep

/-- **Reading and writing on one connection keep the frames intact**, in every interleaving in which
no header is put over bytes that the reading side still needs and no `Read` goes over a header that
was not written: the bytes handed on are the frames of the payloads, in full once `WritePayload` has
returned, and the payloads decoded are those of the peer. -/
theorem frames_kept (hlimit : limit < 2 ^ 31) {buf : List UInt8} (hbuf : 4 ≤ buf.length)
    (hps : ∀ p ∈ ps, p.length ≤ limit)
    (hrun : DuplexRun limit (Apart limit) (.new buf (frames ps)) d) :
    d.written <+: frames d.sent ∧ (d.writer = .idle → d.written = frames d.sent) ∧
      d.received <+: ps ∧ (∀ e, d.writer ≠ .closed e ∧ d.reader ≠ .closed e) ∧
        d.writer ≠ .panicked ∧ d.reader ≠ .panicked := by
  have hsound : d.Sound limit ps := by
    induction hrun with
    | start =>
      have hidle : (⟨buf, .idle⟩ : Conn).Sound limit := ⟨trivial, hbuf, fun _ _ h => nomatch h⟩
      exact ⟨fun _ _ h => (nomatch h), hidle, hidle, fun _ _ => rfl, rfl, ps, rfl, rfl⟩
    | step _ hok hstep ih => exact ih.step hlimit hps hok hstep
  obtain ⟨rest, hrest, _⟩ := hsound.received
  have hwriter : Conn.InRange limit d.writer := hsound.writer.inRange
  have hreader : Conn.InRange limit d.reader := hsound.reader.inRange
  refine ⟨⟨_, hsound.written⟩, ?_, ⟨_, hrest.symm⟩, ?_, ?_⟩
  · intro hidle
    have hall := hsound.written
    rw [hidle] at hall
    exact (List.append_nil _).symm.trans hall
  · intro e
    constructor
    · intro hclosed
      rw [hclosed] at hwriter
      exact hwriter
    · intro hclosed
      rw [hclosed] at hreader
      exact hreader
  constructor
  · intro hpanic
    rw [hpanic] at hwriter
    exact hwriter
  · intro hpanic
    rw [hpanic] at hreader
    exact hreader

end Sound

/-- A payload goes out in two `Write`s of its header; a payload comes in, is decoded, and then the
next header is put into the buffer. -/
theorem frames_kept_two : ∃ d : Duplex, d.written = frames [[7], [8]] ∧
    d.received = [[9, 9]] ∧ d.written <+: frames d.sent ∧ d.received <+: [[9, 9], [6]] := by
  have happart : ∀ d : Duplex, ∀ n, (∀ done payload, d.writer ≠ .writeHeader done payload) →
      Apart 100 d (.act (.read n)) := by
    intro d n hidle done payload hw
    exact absurd hw (hidle done payload)
  have hput := (DuplexRun.start : DuplexRun 100 (Apart 100)
    (.new (List.replicate 8 0) (frames [[9, 9], [6]])) _).step
    (show Apart 100 _ (.act (.writePayload [7])) from ⟨by decide, rfl⟩) rfl
  have hstart := hput.step (show Apart 100 _ (.act .readPayload) from trivial) rfl
  have hpart := hstart.step (show Apart 100 _ (.act (.write 3)) from trivial) rfl
  have hheader := hpart.step (show Apart 100 _ (.act (.write 1)) from trivial) rfl
  have hsize := hheader.step (happart _ 4 nofun) rfl
  have hwritten := hsize.step (show Apart 100 _ (.act (.write 1)) from trivial) rfl
  have hread := hwritten.step (happart _ 2 nofun) rfl
  have hdecoded := hread.step (show Apart 100 _ .unmarshal from trivial) rfl
  have hput' := hdecoded.step
    (show Apart 100 _ (.act (.writePayload [8])) from ⟨by decide, rfl⟩) rfl
  have hheader' := hput'.step (show Apart 100 _ (.act (.write 4)) from trivial) rfl
  have hwritten' := hheader'.step (show Apart 100 _ (.act (.write 1)) from trivial) rfl
  obtain ⟨hsent, _, hreceived, _⟩ := frames_kept (by decide) (by decide) (by decide) hwritten'
  exact ⟨_, rfl, rfl, hsent, hreceived⟩

end Chainspace.Network
