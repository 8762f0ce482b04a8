import Pintos.Devices.Intq

/-! # `devices/serial.c`: the serial port

The 16550A UART is driven by polling until `serial_init_queue`, then through the transmit queue
`txq` and the serial interrupt. Bytes received go to the input buffer of `input.c`, which the
keyboard fills too and `input_getc` drains, and each change of that buffer ends in
`serial_notify`. The driver runs with interrupts off, so a call is one step; the one exception
is `intq_putc` on a full `txq` in a thread with interrupts on, which sleeps until the interrupt
has made room and then stores its byte, so that its call takes effect at that point. Both queues
are their contents, oldest first, and hold at most 63 bytes, as `intq_fifo` shows of the ring.
Of the hardware the model keeps `IER_REG` and the bytes written to `THR_REG`; the handler is
given the bytes the receiver holds and how many times the transmitter reads as empty.

* `serial_fifo`: in every reachable state the bytes written to the transmitter, followed by those
  in `txq`, are the bytes `serial_putc` has taken, in order.
* `serial_ier_tracks`: in every reachable state in queue mode, the transmit interrupt is enabled
  whenever `txq` holds a byte, and the receive interrupt exactly when the input buffer has room.
-/

namespace Pintos.Devices
set_option autoImplicit false

inductive SerialMode
  | uninit
  | poll
  | queue
deriving DecidableEq, Repr

def IER_RECV : UInt8 := 0x01
def IER_XMIT : UInt8 := 0x02

/-- `intq_full` of a queue holding `bytes`: the ring keeps one of its slots free. -/
def queueFull (bytes : List UInt8) : Bool := bytes.length + 1 == INTQ_BUFSIZE

/-- The driver's `mode`, the contents of `txq` and of the input buffer, the value last written
to `IER_REG`, the bytes written to `THR_REG`, and the bytes `serial_putc` has taken. -/
structure Serial where
  mode : SerialMode
  txq : List UInt8
  input : List UInt8
  ier : UInt8
  thr : List UInt8
  putcs : List UInt8

def Serial.init : Serial := ⟨.uninit, [], [], 0, [], []⟩

/-- `outb (THR_REG, byte)`. -/
def Serial.outThr (s : Serial) (byte : UInt8) : Serial := { s with thr := s.thr ++ [byte] }

/-- `write_ier ()`. -/
def writeIer (s : Serial) : Serial :=
  let ier : UInt8 := 0
  let ier := if !s.txq.isEmpty then ier ||| IER_XMIT else ier
  let ier := if !queueFull s.input then ier ||| IER_RECV else ier
  { s with ier := ier }

/-- `serial_notify ()`. -/
def serialNotify (s : Serial) : Serial := if s.mode = .queue then writeIer s else s

/-- `init_poll ()`: its `ASSERT`, the UART's interrupts off and `txq` empty; the line settings
it writes are left out. -/
def initPoll (s : Serial) : Except IntqFault Serial :=
  if s.mode ≠ .uninit then .error .assertion
  else .ok { s with ier := 0, txq := [], mode := .poll }

/-- `putc_poll (byte)`, once the transmitter reads as empty. -/
def putcPoll (s : Serial) (byte : UInt8) : Serial := s.outThr byte

/-- `serial_putc (byte)` from a context whose interrupt level was on (`intrOn`) or off;
`.disabled` while its `intq_putc` sleeps. -/
def serialPutc (s : Serial) (intrOn : Bool) (byte : UInt8) : Except IntqFault Serial :=
  if s.mode ≠ .queue then
    (if s.mode = .uninit then initPoll s else pure s) >>= fun s =>
      pure { putcPoll s byte with putcs := s.putcs ++ [byte] }
  else
    -- with interrupts off a full `txq` cannot drain, so its oldest byte is polled out
    let s := if !intrOn && queueFull s.txq then
        match s.txq with
        | b :: bs => putcPoll { s with txq := bs } b
        | [] => s
      else s
    if queueFull s.txq then .error .disabled
    else .ok (writeIer { s with txq := s.txq ++ [byte], putcs := s.putcs ++ [byte] })

/-- `serial_flush ()`: its loop sends the bytes of `txq`, oldest first, by polling. -/
def serialFlush (s : Serial) : Serial := { s with thr := s.thr ++ s.txq, txq := [] }

/-- The receive loop of `serial_interrupt`: while the input buffer has room and the receiver
holds a byte, `input_putc` of it, which ends in `serial_notify`. -/
def receiveLoop (s : Serial) : List UInt8 → Serial
  | [] => s
  | b :: rx =>
    if queueFull s.input then s
    else receiveLoop (serialNotify { s with input := s.input ++ [b] }) rx

/-- The transmit loop of `serial_interrupt`: while `txq` holds a byte and the transmitter,
`ready` more times, reads as empty, the oldest byte goes out. -/
def transmitLoop (s : Serial) : Nat → Serial
  | 0 => s
  | ready + 1 =>
    match s.txq with
    | [] => s
    | b :: bs => transmitLoop ({ s with txq := bs }.outThr b) ready

/-- `serial_interrupt`, the receiver holding `rx` and the transmitter ready `ready` times. -/
def serialInterrupt (s : Serial) (rx : List UInt8) (ready : Nat) : Serial :=
  writeIer (transmitLoop (receiveLoop s rx) ready)

/-- A key of `keyboard_interrupt`: `input_putc` when the buffer has room, else dropped. -/
def keyInput (s : Serial) (key : UInt8) : Serial :=
  if queueFull s.input then s else serialNotify { s with input := s.input ++ [key] }

/-- `input_getc ()`: `.disabled` while its `intq_getc` sleeps on an empty buffer. -/
def inputGetc (s : Serial) : Except IntqFault Serial :=
  match s.input with
  | [] => .error .disabled
  | _ :: rest => .ok (serialNotify { s with input := rest })

/-- `serial_init_queue ()`. -/
def serialInitQueue (s : Serial) : Except IntqFault Serial :=
  (if s.mode = .uninit then initPoll s else pure s) >>= fun s =>
    if s.mode ≠ .poll then .error .assertion else .ok (writeIer { s with mode := .queue })

inductive SerialEvent
  | putc (intrOn : Bool) (byte : UInt8)
  | flush
  | initQueue
  | irq (rx : List UInt8) (ready : Nat)
  | key (byte : UInt8)
  | getc
deriving DecidableEq, Repr

/-- A call of the driver or of the input buffer; the serial interrupt is registered by
`serial_init_queue`. -/
def serialStep (s : Serial) : SerialEvent → Except IntqFault Serial
  | .putc intrOn byte => serialPutc s intrOn byte
  | .flush => .ok (serialFlush s)
  | .initQueue => serialInitQueue s
  | .irq rx ready => if s.mode = .queue then .ok (serialInterrupt s rx ready) else .error .disabled
  | .key byte => .ok (keyInput s byte)
  | .getc => inputGetc s

def SerialReachable (s : Serial) : Prop :=
  Relation.ReflTransGen (fun s s' => ∃ e, serialStep s e = .ok s') Serial.init s

/-! ## The invariant -/

/-- In queue mode the interrupt enable register is as `write_ier` leaves it, except that
`serial_flush` may leave the transmit interrupt on over an empty queue. -/
def IerTracks (s : Serial) : Prop :=
  s.mode = .queue →
    (s.txq ≠ [] → s.ier &&& IER_XMIT ≠ 0) ∧ (s.ier &&& IER_RECV ≠ 0 ↔ queueFull s.input = false)

/-- The queues: what `serial_putc` took is what went out followed by `txq`, each queue keeps
a free slot, and only queue mode uses `txq`. -/
structure QueuesOk (s : Serial) : Prop where
  fifo : s.thr ++ s.txq = s.putcs
  txq_lt : s.txq.length < INTQ_BUFSIZE
  input_lt : s.input.length < INTQ_BUFSIZE
  txq_poll : s.mode ≠ .queue → s.txq = []

structure SerialInv (s : Serial) : Prop extends QueuesOk s where
  ier : IerTracks s

section
variable {s s' : Serial}

theorem writeIer_xmit (s : Serial) : (writeIer s).ier &&& IER_XMIT ≠ 0 ↔ s.txq ≠ [] := by
  cases htx : s.txq <;> cases hf : queueFull s.input <;> simp [writeIer, htx, hf] <;> decide

theorem writeIer_recv (s : Serial) :
    (writeIer s).ier &&& IER_RECV ≠ 0 ↔ queueFull s.input = false := by
  cases htx : s.txq <;> cases hf : queueFull s.input <;> simp [writeIer, htx, hf] <;> decide

theorem length_append_lt {bytes : List UInt8} (hf : queueFull bytes = false)
    (hlt : bytes.length < INTQ_BUFSIZE) (b : UInt8) : (bytes ++ [b]).length < INTQ_BUFSIZE := by
  rw [queueFull, beq_eq_false_iff_ne] at hf
  rw [List.length_append, List.length_singleton]
  omega

theorem QueuesOk.pop (h : QueuesOk s) {b : UInt8} {bs : List UInt8} (htx : s.txq = b :: bs) :
    QueuesOk ({ s with txq := bs }.outThr b) := by
  have hfifo := h.fifo
  have hlen := h.txq_lt
  rw [htx] at hfifo hlen
  refine ⟨by simpa [Serial.outThr] using hfifo, ?_, h.input_lt, fun hm => ?_⟩
  · simp only [Serial.outThr, List.length_cons] at hlen ⊢
    omega
  · have := h.txq_poll hm
    rw [htx] at this
    cases this

theorem QueuesOk.writeIer (h : QueuesOk s) : SerialInv (writeIer s) where
  toQueuesOk := ⟨h.fifo, h.txq_lt, h.input_lt, h.txq_poll⟩
  ier := fun _ => ⟨(writeIer_xmit s).mpr, writeIer_recv s⟩

theorem SerialInv.serialNotify (h : SerialInv s) : SerialInv (serialNotify s) := by
  unfold Devices.serialNotify
  split
  · exact h.toQueuesOk.writeIer
  · exact h

theorem SerialInv.notify_input (h : SerialInv s) {input : List UInt8}
    (hlen : input.length < INTQ_BUFSIZE) :
    SerialInv (Devices.serialNotify { s with input := input }) := by
  have hq : QueuesOk { s with input := input } := ⟨h.fifo, h.txq_lt, hlen, h.txq_poll⟩
  unfold Devices.serialNotify
  split
  · exact hq.writeIer
  · exact ⟨hq, fun hm => absurd hm ‹_›⟩

theorem SerialInv.keyInput (h : SerialInv s) (key : UInt8) : SerialInv (keyInput s key) := by
  unfold Devices.keyInput
  split
  · exact h
  · rename_i hf
    exact h.notify_input (length_append_lt (Bool.eq_false_iff.mpr hf) h.input_lt key)

theorem SerialInv.inputGetc (h : SerialInv s) (hs : inputGetc s = .ok s') : SerialInv s' := by
  unfold Devices.inputGetc at hs
  split at hs
  · cases hs
  · rename_i b rest hinput
    cases hs
    have := h.input_lt
    rw [hinput, List.length_cons] at this
    exact h.notify_input (by omega)

theorem SerialInv.receiveLoop (h : SerialInv s) : ∀ rx, SerialInv (receiveLoop s rx) := by
  intro rx
  induction rx generalizing s with
  | nil => exact h
  | cons b rx ih =>
    unfold Devices.receiveLoop
    split
    · exact h
    · rename_i hf
      exact ih (h.notify_input (length_append_lt (Bool.eq_false_iff.mpr hf) h.input_lt b))

/-- The transmit loop keeps the queues, and, since a byte left in `txq` was there before, the
transmit interrupt stays on. -/
theorem SerialInv.transmitLoop (h : SerialInv s) : ∀ ready, SerialInv (transmitLoop s ready) := by
  intro ready
  induction ready generalizing s with
  | zero => exact h
  | succ ready ih =>
    unfold Devices.transmitLoop
    split
    · exact h
    · rename_i b bs htx
      refine ih ⟨h.toQueuesOk.pop htx, fun hm => ?_⟩
      have hq := h.ier hm
      exact ⟨fun _ => hq.1 (by rw [htx]; exact List.cons_ne_nil b bs), hq.2⟩

theorem SerialInv.serialInterrupt (h : SerialInv s) (rx : List UInt8) (ready : Nat) :
    SerialInv (serialInterrupt s rx ready) :=
  ((h.receiveLoop rx).transmitLoop ready).toQueuesOk.writeIer

theorem SerialInv.serialFlush (h : SerialInv s) : SerialInv (serialFlush s) where
  fifo := by simpa [Devices.serialFlush] using h.fifo
  txq_lt := by simp [Devices.serialFlush, INTQ_BUFSIZE]
  input_lt := h.input_lt
  txq_poll := fun _ => rfl
  ier := fun hm => ⟨fun hne => absurd rfl hne, (h.ier hm).2⟩

theorem SerialInv.initPoll (h : SerialInv s) (hs : initPoll s = .ok s') :
    SerialInv s' ∧ s'.mode = .poll ∧ s'.putcs = s.putcs := by
  unfold Devices.initPoll at hs
  split at hs
  · cases hs
  · rename_i hm
    cases hs
    have htx := h.txq_poll (by rw [not_not.mp hm]; decide)
    refine ⟨⟨⟨?_, by simp [INTQ_BUFSIZE], h.input_lt, fun _ => rfl⟩, fun hq => by cases hq⟩,
      rfl, rfl⟩
    simpa [htx] using h.fifo

theorem SerialInv.serialInitQueue (h : SerialInv s) (hs : serialInitQueue s = .ok s') :
    SerialInv s' := by
  unfold Devices.serialInitQueue at hs
  obtain ⟨s₁, h₁, hs⟩ := Except.bind_eq_ok.mp hs
  have hinv₁ : SerialInv s₁ := by
    split at h₁
    · exact (h.initPoll h₁).1
    · cases h₁
      exact h
  split at hs
  · cases hs
  · rename_i hpoll
    cases hs
    exact QueuesOk.writeIer ⟨hinv₁.fifo, hinv₁.txq_lt, hinv₁.input_lt, fun hm => absurd rfl hm⟩

/-- Before queue mode `serial_putc` polls the byte out, `txq` being empty; in queue mode it
stores the byte, after polling out the oldest one when interrupts are off and `txq` is full. -/
theorem SerialInv.serialPutc (h : SerialInv s) {intrOn : Bool} {byte : UInt8}
    (hs : serialPutc s intrOn byte = .ok s') : SerialInv s' := by
  unfold Devices.serialPutc at hs
  split at hs
  · rename_i hm
    obtain ⟨s₁, h₁, hs⟩ := Except.bind_eq_ok.mp hs
    have hinv₁ : SerialInv s₁ ∧ s₁.mode ≠ .queue := by
      split at h₁
      · obtain ⟨hi, hp, -⟩ := h.initPoll h₁
        exact ⟨hi, by rw [hp]; decide⟩
      · cases h₁
        exact ⟨h, hm⟩
    cases hs
    have htx := hinv₁.1.txq_poll hinv₁.2
    refine ⟨⟨?_, by simp [putcPoll, Serial.outThr, htx, INTQ_BUFSIZE], hinv₁.1.input_lt,
      fun _ => by simp [putcPoll, Serial.outThr, htx]⟩, fun hq => absurd hq hinv₁.2⟩
    have hfifo := hinv₁.1.fifo
    rw [htx, List.append_nil] at hfifo
    simp [putcPoll, Serial.outThr, htx, hfifo]
  · rename_i hm
    have hq : s.mode = .queue := not_not.mp hm
    generalize hs₁ : (if !intrOn && queueFull s.txq then
        match s.txq with
        | b :: bs => putcPoll { s with txq := bs } b
        | [] => s
      else s) = s₁ at hs
    have hinv₁ : QueuesOk s₁ ∧ s₁.mode = .queue := by
      rw [← hs₁]
      split
      · split
        · rename_i b bs htx
          exact ⟨h.toQueuesOk.pop htx, hq⟩
        · exact ⟨h.toQueuesOk, hq⟩
      · exact ⟨h.toQueuesOk, hq⟩
    dsimp only at hs
    split at hs
    · cases hs
    · rename_i hf
      cases hs
      refine QueuesOk.writeIer ⟨?_, length_append_lt (Bool.eq_false_iff.mpr hf) hinv₁.1.txq_lt byte,
        hinv₁.1.input_lt, fun hm' => absurd hinv₁.2 hm'⟩
      simp [← hinv₁.1.fifo]

theorem SerialInv.init : SerialInv Serial.init :=
  ⟨⟨rfl, by decide, by decide, fun _ => rfl⟩, fun hm => by cases hm⟩

theorem SerialInv.step (h : SerialInv s) {e : SerialEvent} (hs : serialStep s e = .ok s') :
    SerialInv s' := by
  cases e with
  | putc intrOn byte => exact h.serialPutc hs
  | flush =>
    cases hs
    exact h.serialFlush
  | initQueue => exact h.serialInitQueue hs
  | irq rx ready =>
    simp only [serialStep] at hs
    split at hs
    · cases hs
      exact h.serialInterrupt rx ready
    · cases hs
  | key byte =>
    cases hs
    exact h.keyInput byte
  | getc => exact h.inputGetc hs

theorem SerialInv.of_reachable (h : SerialReachable s) : SerialInv s := by
  induction h with
  | refl => exact SerialInv.init
  | tail _ hst ih =>
    obtain ⟨e, he⟩ := hst
    exact ih.step he

end

theorem serial_fifo {s : Serial} (h : SerialReachable s) :
    s.thr ++ s.txq = s.putcs ∧ s.txq.length < INTQ_BUFSIZE := by
  have hinv := SerialInv.of_reachable h
  exact ⟨hinv.fifo, hinv.txq_lt⟩

/-- `serial_putc ('a')` polls its byte out; after `serial_init_queue`, "b" and "c" wait in `txq`
until an interrupt sends "b". -/
theorem serial_fifo_queued :
    ∃ s, SerialReachable s ∧ s.thr = [97, 98] ∧ s.txq = [99] ∧
      s.thr ++ s.txq = s.putcs ∧ s.txq.length < INTQ_BUFSIZE := by
  have h : SerialReachable _ :=
    ((((Relation.ReflTransGen.refl.tail ⟨.putc true 97, rfl⟩).tail ⟨.initQueue, rfl⟩).tail
      ⟨.putc true 98, rfl⟩).tail ⟨.putc true 99, rfl⟩).tail ⟨.irq [] 1, rfl⟩
  exact ⟨_, h, rfl, rfl, serial_fifo h⟩

theorem serial_ier_tracks {s : Serial} (h : SerialReachable s) (hm : s.mode = .queue) :
    (s.txq ≠ [] → s.ier &&& IER_XMIT ≠ 0) ∧ (s.ier &&& IER_RECV ≠ 0 ↔ queueFull s.input = false) :=
  (SerialInv.of_reachable h).ier hm

theorem serial_ier_tracks_init_queue :
    let s := writeIer ⟨.queue, [], [], 0, [], []⟩
    (s.txq ≠ [] → s.ier &&& IER_XMIT ≠ 0) ∧ (s.ier &&& IER_RECV ≠ 0 ↔ queueFull s.input = false) :=
  serial_ier_tracks (.tail .refl ⟨.initQueue, rfl⟩) rfl

end Pintos.Devices
