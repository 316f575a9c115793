import Levos.Base.Fifo
import Mathlib.Tactic

/-!
# The kernel's ring buffer (`lib/ring.c`)

Pipes, tty line buffers and TCP receive buffers all sit on this one circular
byte buffer. `head` is the write index, `tail` the read index, and full and
empty share `head = tail`, so `size` is kept besides.

The indices are C `int`s and `size_t`s; both stay at most `capacity`, itself
an `int`, so natural numbers hold the same values. A write to a full (or a
read from an empty) buffer without `RB_FLAG_NONBLOCK` spins on the very
condition only another context can change: those calls are `none` here.

The result is `ringBuffer_refines_fifo`: a buffer from `ringBufferInit`,
marked nonblocking, is the bounded FIFO of `Levos.Base.Fifo`.
-/

namespace Levos.Lib

open Levos.Base

/-! ## The data structure and its operations -/

def rbFlagNonblock : BitVec 32 := 1 <<< 0

structure RingBuffer where
  head : Nat          -- write pointer
  tail : Nat          -- read pointer
  flags : BitVec 32
  capacity : Nat
  size : Nat
  buffer : List UInt8
deriving DecidableEq, Repr

/-- `mem` is what `malloc(capacity)` answered. On failure the source reports
and returns with the other fields as they were. -/
def ringBufferInit (rb : RingBuffer) (mem : Option (List UInt8)) (capacity : Nat) :
    RingBuffer :=
  match mem with
  | none => { rb with capacity := capacity, buffer := [] }
  | some mem =>
      { head := 0, tail := 0, flags := 0, capacity := capacity, size := 0, buffer := mem }

def ringBufferFlush (rb : RingBuffer) : RingBuffer :=
  { rb with size := 0, head := 0, tail := 0 }

def ringBufferSetFlags (rb : RingBuffer) (flags : BitVec 32) : RingBuffer :=
  { rb with flags := flags }

def ringBufferSize (rb : RingBuffer) : Nat := rb.size

/-- `__ring_buffer_write`: one byte in. The number is the C return code: 1 when a nonblocking buffer
is full. -/
def ringBufferWriteByte (rb : RingBuffer) (c : UInt8) : Option (RingBuffer × Nat) :=
  if rb.size = rb.capacity then
    if rb.flags &&& rbFlagNonblock ≠ 0 then some (rb, 1)
    else none
  else
    let head := rb.head + 1
    some ({ rb with
              buffer := rb.buffer.set rb.head c
              head := if head = rb.capacity then 0 else head
              size := rb.size + 1 }, 0)

/-- The `while (len --)` loop of `ring_buffer_write`, with its counter. -/
def ringBufferWriteLoop (rb : RingBuffer) (nWrote : Nat) :
    List UInt8 → Option (RingBuffer × Nat)
  | [] => some (rb, nWrote)
  | c :: buf =>
      match ringBufferWriteByte rb c with
      | none => none
      | some (rb', rc) =>
          if rc ≠ 0 then some (rb', nWrote)
          else ringBufferWriteLoop rb' (nWrote + 1) buf

/-- `buf` is the `len` bytes the caller passes. -/
def ringBufferWrite (rb : RingBuffer) (buf : List UInt8) : Option (RingBuffer × Nat) :=
  ringBufferWriteLoop rb 0 buf

/-- `__ring_buffer_read`: one byte out. The byte stored through the caller's pointer, if any, and
the return code. -/
def ringBufferReadByte (rb : RingBuffer) : Option (RingBuffer × List UInt8 × Nat) :=
  if rb.size = 0 then
    if rb.flags &&& rbFlagNonblock ≠ 0 then some (rb, [], 1)
    else none
  else
    let tail := rb.tail + 1
    some ({ rb with
              tail := if tail = rb.capacity then 0 else tail
              size := rb.size - 1 }, [rb.buffer.getD rb.tail 0], 0)

/-- The `while (len --)` loop of `ring_buffer_read`: the bytes stored so far
and their count. -/
def ringBufferReadLoop (rb : RingBuffer) (out : List UInt8) (nRead : Nat) :
    Nat → Option (RingBuffer × List UInt8 × Nat)
  | 0 => some (rb, out, nRead)
  | len + 1 =>
      match ringBufferReadByte rb with
      | none => none
      | some (rb', b, rc) =>
          if rc ≠ 0 then some (rb', out, nRead)
          else ringBufferReadLoop rb' (out ++ b) (nRead + 1) len

def ringBufferRead (rb : RingBuffer) (len : Nat) :
    Option (RingBuffer × List UInt8 × Nat) :=
  ringBufferReadLoop rb [] 0 len

/-! ## The invariant and the stored bytes -/

/-- What every operation keeps. -/
structure RingWf (rb : RingBuffer) : Prop where
  capacity_pos : 0 < rb.capacity
  buffer_length : rb.buffer.length = rb.capacity
  head_lt : rb.head < rb.capacity
  tail_lt : rb.tail < rb.capacity
  size_le : rb.size ≤ rb.capacity
  head_eq : rb.head = (rb.tail + rb.size) % rb.capacity

/-- The byte `i` places after the oldest one. -/
def ringAt (rb : RingBuffer) (i : Nat) : UInt8 :=
  rb.buffer.getD ((rb.tail + i) % rb.capacity) 0

/-- The stored bytes, oldest first: `size` cells walked from `tail`. -/
def ringContents (rb : RingBuffer) : List UInt8 :=
  (List.range rb.size).map (ringAt rb)

@[simp] theorem ringContents_length (rb : RingBuffer) :
    (ringContents rb).length = rb.size := by
  simp [ringContents]

/-- Advancing an index by the source's compare-and-reset is addition modulo
the capacity. -/
theorem wrap_succ {i cap : Nat} (h : i < cap) :
    (if i + 1 = cap then 0 else i + 1) = (i + 1) % cap := by
  by_cases hw : i + 1 = cap
  · rw [if_pos hw, hw, Nat.mod_self]
  · rw [if_neg hw, Nat.mod_eq_of_lt (by omega)]

/-- Distinct offsets below one revolution are distinct cells. -/
theorem wrap_ne {tail i n cap : Nat} (hi : i < n) (hn : n < cap) :
    (tail + i) % cap ≠ (tail + n) % cap := by
  intro h
  have hmod : i % cap = n % cap := by
    have : tail + i ≡ tail + n [MOD cap] := h
    exact Nat.ModEq.add_left_cancel' tail this
  rw [Nat.mod_eq_of_lt (by omega), Nat.mod_eq_of_lt hn] at hmod
  omega

/-! ## One byte -/

theorem ringWriteByte_full {rb : RingBuffer} (c : UInt8)
    (hflag : rb.flags &&& rbFlagNonblock ≠ 0) (hfull : rb.size = rb.capacity) :
    ringBufferWriteByte rb c = some (rb, 1) := by
  rw [ringBufferWriteByte, if_pos hfull, if_pos hflag]

/-- A write to a buffer with room appends the byte. -/
theorem ringWriteByte_room {rb : RingBuffer} (hwf : RingWf rb) (c : UInt8)
    (hroom : rb.size < rb.capacity) :
    ∃ rb', ringBufferWriteByte rb c = some (rb', 0) ∧ RingWf rb' ∧
      rb'.flags = rb.flags ∧ rb'.capacity = rb.capacity ∧
      ringContents rb' = ringContents rb ++ [c] := by
  refine ⟨{ rb with
      buffer := rb.buffer.set rb.head c
      head := if rb.head + 1 = rb.capacity then 0 else rb.head + 1
      size := rb.size + 1 }, ?_, ?_, rfl, rfl, ?_⟩
  · rw [ringBufferWriteByte, if_neg (by omega)]
  · refine ⟨hwf.capacity_pos, ?_, ?_, hwf.tail_lt, hroom, ?_⟩
    · simpa using hwf.buffer_length
    · show (if rb.head + 1 = rb.capacity then 0 else rb.head + 1) < rb.capacity
      rw [wrap_succ hwf.head_lt]
      exact Nat.mod_lt _ hwf.capacity_pos
    · show (if rb.head + 1 = rb.capacity then 0 else rb.head + 1) =
        (rb.tail + (rb.size + 1)) % rb.capacity
      rw [wrap_succ hwf.head_lt, hwf.head_eq, Nat.mod_add_mod, Nat.add_assoc]
  · have hhead := hwf.head_eq
    have hlen := hwf.buffer_length
    have hlt := hwf.head_lt
    simp only [ringContents, List.range_succ, List.map_append, List.map_cons, List.map_nil]
    congr 1
    · -- the cells already stored are not the one the write goes to
      apply List.map_congr_left
      intro i hi
      have hne : rb.head ≠ (rb.tail + i) % rb.capacity := by
        rw [hhead]
        exact (wrap_ne (List.mem_range.mp hi) hroom).symm
      simp [ringAt, List.getD_eq_getElem?_getD, List.getElem?_set_ne hne]
    · simp only [ringAt, ← hhead, List.cons.injEq, and_true]
      simp [List.getD_eq_getElem?_getD, hlen, hlt]

theorem ringReadByte_empty {rb : RingBuffer}
    (hflag : rb.flags &&& rbFlagNonblock ≠ 0) (hempty : rb.size = 0) :
    ringBufferReadByte rb = some (rb, [], 1) := by
  rw [ringBufferReadByte, if_pos hempty, if_pos hflag]

/-- A read from a buffer that holds something takes the oldest byte. -/
theorem ringReadByte_some {rb : RingBuffer} (hwf : RingWf rb) (hpos : 0 < rb.size) :
    ∃ rb' b, ringBufferReadByte rb = some (rb', [b], 0) ∧ RingWf rb' ∧
      rb'.flags = rb.flags ∧ rb'.capacity = rb.capacity ∧
      ringContents rb = b :: ringContents rb' := by
  have htail := wrap_succ hwf.tail_lt
  refine ⟨{ rb with
      tail := if rb.tail + 1 = rb.capacity then 0 else rb.tail + 1
      size := rb.size - 1 }, rb.buffer.getD rb.tail 0, ?_, ?_, rfl, rfl, ?_⟩
  · rw [ringBufferReadByte, if_neg (by omega)]
  · refine ⟨hwf.capacity_pos, hwf.buffer_length, hwf.head_lt, ?_, ?_, ?_⟩
    · show (if rb.tail + 1 = rb.capacity then 0 else rb.tail + 1) < rb.capacity
      rw [htail]
      exact Nat.mod_lt _ hwf.capacity_pos
    · have := hwf.size_le
      show rb.size - 1 ≤ rb.capacity
      omega
    · show rb.head = ((if rb.tail + 1 = rb.capacity then 0 else rb.tail + 1) +
        (rb.size - 1)) % rb.capacity
      rw [htail, Nat.mod_add_mod, hwf.head_eq]
      congr 1
      omega
  · obtain ⟨n, hn⟩ : ∃ n, rb.size = n + 1 := ⟨rb.size - 1, by omega⟩
    simp only [ringContents, hn, List.range_succ_eq_map, List.map_cons, List.map_map,
      Nat.add_sub_cancel, List.cons.injEq]
    constructor
    · simp [ringAt, Nat.mod_eq_of_lt hwf.tail_lt]
    · apply List.map_congr_left
      intro i _
      simp only [Function.comp, ringAt, htail, Nat.mod_add_mod]
      rw [Nat.succ_eq_add_one, Nat.add_right_comm, Nat.add_assoc rb.tail i 1]

/-! ## A whole call -/

theorem ringBufferWriteLoop_spec : ∀ (buf : List UInt8) {rb : RingBuffer} (nWrote : Nat),
    RingWf rb → rb.flags &&& rbFlagNonblock ≠ 0 →
    ∃ rb', ringBufferWriteLoop rb nWrote buf =
        some (rb', nWrote + min buf.length (rb.capacity - rb.size)) ∧ RingWf rb' ∧
      rb'.flags = rb.flags ∧ rb'.capacity = rb.capacity ∧
      ringContents rb' =
        ringContents rb ++ buf.take (min buf.length (rb.capacity - rb.size))
  | [], rb, nWrote, hwf, _ => ⟨rb, by simp [ringBufferWriteLoop], hwf, rfl, rfl, by simp⟩
  | c :: buf, rb, nWrote, hwf, hflag => by
      by_cases hfull : rb.size = rb.capacity
      · refine ⟨rb, ?_, hwf, rfl, rfl, by simp [hfull]⟩
        simp [ringBufferWriteLoop, ringWriteByte_full c hflag hfull, hfull]
      · have hroom : rb.size < rb.capacity := lt_of_le_of_ne hwf.size_le hfull
        obtain ⟨rb₁, hw, hwf₁, hfl₁, hcap₁, hcon₁⟩ := ringWriteByte_room hwf c hroom
        obtain ⟨rb₂, hl, hwf₂, hfl₂, hcap₂, hcon₂⟩ :=
          ringBufferWriteLoop_spec buf (nWrote + 1) hwf₁ (hfl₁ ▸ hflag)
        have hsize : rb₁.size = rb.size + 1 := by
          simpa using congrArg List.length hcon₁
        have hmin : min (c :: buf).length (rb.capacity - rb.size) =
            min buf.length (rb₁.capacity - rb₁.size) + 1 := by
          rw [hsize, hcap₁, List.length_cons]
          omega
        refine ⟨rb₂, ?_, hwf₂, hfl₂.trans hfl₁, hcap₂.trans hcap₁, ?_⟩
        · rw [hmin]
          simp only [ringBufferWriteLoop, hw, ne_eq, not_true_eq_false, if_false, hl]
          congr 2
          omega
        · rw [hmin, hcon₂, hcon₁, List.take_succ_cons, List.append_assoc]
          rfl

/-- A write stores and reports the first `min len (capacity - size)` bytes. -/
theorem ringBufferWrite_spec {rb : RingBuffer} (buf : List UInt8) (hwf : RingWf rb)
    (hflag : rb.flags &&& rbFlagNonblock ≠ 0) :
    ∃ rb', ringBufferWrite rb buf =
        some (rb', min buf.length (rb.capacity - rb.size)) ∧ RingWf rb' ∧
      rb'.flags = rb.flags ∧ rb'.capacity = rb.capacity ∧
      ringContents rb' =
        ringContents rb ++ buf.take (min buf.length (rb.capacity - rb.size)) := by
  simpa [ringBufferWrite] using ringBufferWriteLoop_spec buf 0 hwf hflag

theorem ringBufferReadLoop_spec : ∀ (len : Nat) {rb : RingBuffer} (out : List UInt8)
    (nRead : Nat), RingWf rb → rb.flags &&& rbFlagNonblock ≠ 0 →
    ∃ rb', ringBufferReadLoop rb out nRead len =
        some (rb', out ++ (ringContents rb).take (min len rb.size),
          nRead + min len rb.size) ∧
      RingWf rb' ∧ rb'.flags = rb.flags ∧ rb'.capacity = rb.capacity ∧
      ringContents rb' = (ringContents rb).drop (min len rb.size)
  | 0, rb, out, nRead, hwf, _ => ⟨rb, by simp [ringBufferReadLoop], hwf, rfl, rfl, by simp⟩
  | len + 1, rb, out, nRead, hwf, hflag => by
      by_cases hempty : rb.size = 0
      · refine ⟨rb, ?_, hwf, rfl, rfl, by simp [hempty]⟩
        simp [ringBufferReadLoop, ringReadByte_empty hflag hempty, hempty]
      · obtain ⟨rb₁, b, hr, hwf₁, hfl₁, hcap₁, hcon₁⟩ :=
          ringReadByte_some hwf (Nat.pos_of_ne_zero hempty)
        obtain ⟨rb₂, hl, hwf₂, hfl₂, hcap₂, hcon₂⟩ :=
          ringBufferReadLoop_spec len (out ++ [b]) (nRead + 1) hwf₁ (hfl₁ ▸ hflag)
        have hsize : rb.size = rb₁.size + 1 := by
          simpa using congrArg List.length hcon₁
        have hmin : min (len + 1) rb.size = min len rb₁.size + 1 := by omega
        refine ⟨rb₂, ?_, hwf₂, hfl₂.trans hfl₁, hcap₂.trans hcap₁, ?_⟩
        · rw [hmin, hcon₁, List.take_succ_cons]
          simp only [ringBufferReadLoop, hr, ne_eq, not_true_eq_false, if_false, hl,
            List.append_assoc, List.cons_append, List.nil_append]
          congr 3
          omega
        · rw [hmin, hcon₂, hcon₁, List.drop_succ_cons]

/-- A read returns the oldest `min len size` bytes and takes them out. -/
theorem ringBufferRead_spec {rb : RingBuffer} (len : Nat) (hwf : RingWf rb)
    (hflag : rb.flags &&& rbFlagNonblock ≠ 0) :
    ∃ rb', ringBufferRead rb len =
        some (rb', (ringContents rb).take (min len rb.size), min len rb.size) ∧
      RingWf rb' ∧ rb'.flags = rb.flags ∧ rb'.capacity = rb.capacity ∧
      ringContents rb' = (ringContents rb).drop (min len rb.size) := by
  simpa [ringBufferRead] using ringBufferReadLoop_spec len [] 0 hwf hflag

theorem ringBufferFlush_spec {rb : RingBuffer} (hwf : RingWf rb) :
    RingWf (ringBufferFlush rb) ∧ (ringBufferFlush rb).flags = rb.flags ∧
      (ringBufferFlush rb).capacity = rb.capacity ∧ ringContents (ringBufferFlush rb) = [] :=
  ⟨⟨hwf.capacity_pos, hwf.buffer_length, hwf.capacity_pos, hwf.capacity_pos,
    Nat.zero_le _, by simp [ringBufferFlush]⟩, rfl, rfl, rfl⟩

/-! ## A buffer that blocks -/

theorem ringBufferWrite_full {rb : RingBuffer} (c : UInt8) (hflag : rb.flags &&& rbFlagNonblock = 0)
    (hfull : rb.size = rb.capacity) : ringBufferWrite rb [c] = none := by
  rw [ringBufferWrite, ringBufferWriteLoop, ringBufferWriteByte, if_pos hfull,
    if_neg (not_not.mpr hflag)]

theorem ringBufferWrite_room {rb : RingBuffer} (hwf : RingWf rb) (c : UInt8)
    (hroom : rb.size < rb.capacity) :
    ∃ rb', ringBufferWrite rb [c] = some (rb', 1) ∧ RingWf rb' ∧
      rb'.flags = rb.flags ∧ rb'.capacity = rb.capacity ∧
      ringContents rb' = ringContents rb ++ [c] := by
  obtain ⟨rb', hw, hrest⟩ := ringWriteByte_room hwf c hroom
  refine ⟨rb', ?_, hrest⟩
  rw [ringBufferWrite, ringBufferWriteLoop, hw]
  rfl

/-- A read of no more than is there does not wait. -/
theorem ringBufferReadLoop_enough (len : Nat) {rb : RingBuffer} (out : List UInt8) (nRead : Nat)
    (hwf : RingWf rb) (hlen : len ≤ rb.size) :
    ∃ rb' bytes, ringBufferReadLoop rb out nRead len = some (rb', out ++ bytes, nRead + len) ∧
      RingWf rb' ∧ rb'.flags = rb.flags ∧ rb'.capacity = rb.capacity ∧
      bytes.length = len ∧ ringContents rb = bytes ++ ringContents rb' := by
  induction len generalizing rb out nRead with
  | zero => exact ⟨rb, [], by simp [ringBufferReadLoop], hwf, rfl, rfl, rfl, rfl⟩
  | succ len ih =>
      obtain ⟨rb₁, b, hr, hwf₁, hfl₁, hcap₁, hcon₁⟩ := ringReadByte_some hwf (by omega)
      have hsize : rb.size = rb₁.size + 1 := by
        simpa using congrArg List.length hcon₁
      obtain ⟨rb₂, bytes, hl, hwf₂, hfl₂, hcap₂, hlen₂, hcon₂⟩ :=
        ih (out ++ [b]) (nRead + 1) hwf₁ (by omega)
      refine ⟨rb₂, b :: bytes, ?_, hwf₂, hfl₂.trans hfl₁, hcap₂.trans hcap₁,
        by rw [List.length_cons, hlen₂], by rw [hcon₁, hcon₂, List.cons_append]⟩
      simp only [ringBufferReadLoop, hr, ne_eq, not_true_eq_false, if_false, hl, List.append_assoc,
        List.singleton_append]
      congr 3
      omega

theorem ringBufferRead_enough {rb : RingBuffer} {len : Nat} (hwf : RingWf rb)
    (hlen : len ≤ rb.size) :
    ∃ rb' bytes, ringBufferRead rb len = some (rb', bytes, len) ∧ RingWf rb' ∧
      rb'.flags = rb.flags ∧ rb'.capacity = rb.capacity ∧
      bytes.length = len ∧ ringContents rb = bytes ++ ringContents rb' := by
  simpa [ringBufferRead] using ringBufferReadLoop_enough len [] 0 hwf hlen

/-! ## Histories of calls -/

/-- One call on the buffer, and what its caller is told. -/
def ringStep (rb : RingBuffer) : FifoOp UInt8 → Option (RingBuffer × FifoOut UInt8)
  | .write buf => (ringBufferWrite rb buf).map fun r => (r.1, .wrote r.2)
  | .read len =>
      -- the caller looks at the `n_read` first bytes of its buffer
      (ringBufferRead rb len).map fun r => (r.1, .got (r.2.1.take r.2.2))
  | .flush => some (ringBufferFlush rb, .flushed)

def ringRun : RingBuffer → List (FifoOp UInt8) → Option (RingBuffer × List (FifoOut UInt8))
  | rb, [] => some (rb, [])
  | rb, op :: ops =>
      (ringStep rb op).bind fun r =>
        (ringRun r.1 ops).map fun r' => (r'.1, r.2 :: r'.2)

theorem ringStep_fifo {rb : RingBuffer} (hwf : RingWf rb)
    (hflag : rb.flags &&& rbFlagNonblock ≠ 0) (op : FifoOp UInt8) :
    ∃ rb', ringStep rb op =
        some (rb', (fifoStep rb.capacity (ringContents rb) op).2) ∧
      RingWf rb' ∧ rb'.flags = rb.flags ∧ rb'.capacity = rb.capacity ∧
      ringContents rb' = (fifoStep rb.capacity (ringContents rb) op).1 := by
  cases op with
  | write buf =>
      obtain ⟨rb', hw, hrest⟩ := ringBufferWrite_spec buf hwf hflag
      refine ⟨rb', ?_, by simpa [fifoStep, fifoAccepted] using hrest⟩
      simp [ringStep, hw, fifoStep, fifoAccepted_length]
  | read len =>
      obtain ⟨rb', hr, hrest⟩ := ringBufferRead_spec len hwf hflag
      refine ⟨rb', ?_, by simpa [fifoStep] using hrest⟩
      simp [ringStep, hr, fifoStep, List.take_take]
  | flush => exact ⟨ringBufferFlush rb, rfl, ringBufferFlush_spec hwf⟩

theorem ringRun_fifo : ∀ (ops : List (FifoOp UInt8)) {rb : RingBuffer}, RingWf rb →
    rb.flags &&& rbFlagNonblock ≠ 0 →
    ∃ rb', ringRun rb ops = some (rb', (fifoRun rb.capacity (ringContents rb) ops).2) ∧
      RingWf rb' ∧ rb'.capacity = rb.capacity ∧
      ringContents rb' = (fifoRun rb.capacity (ringContents rb) ops).1
  | [], rb, hwf, _ => ⟨rb, rfl, hwf, rfl, rfl⟩
  | op :: ops, rb, hwf, hflag => by
      obtain ⟨rb₁, hs, hwf₁, hfl₁, hcap₁, hcon₁⟩ := ringStep_fifo hwf hflag op
      obtain ⟨rb₂, hr, hwf₂, hcap₂, hcon₂⟩ := ringRun_fifo ops hwf₁ (hfl₁ ▸ hflag)
      rw [hcap₁, hcon₁] at hr hcon₂
      refine ⟨rb₂, ?_, hwf₂, hcap₂.trans hcap₁, hcon₂⟩
      simp [ringRun, hs, hr, fifoRun]

/-- A buffer fresh from `ring_buffer_init` and marked nonblocking. -/
def ringBufferNonblock (rb : RingBuffer) (mem : List UInt8) (capacity : Nat) : RingBuffer :=
  ringBufferSetFlags (ringBufferInit rb (some mem) capacity) rbFlagNonblock

theorem ringBufferNonblock_wf (rb : RingBuffer) {mem : List UInt8} {capacity : Nat}
    (hpos : 0 < capacity) (hmem : mem.length = capacity) :
    RingWf (ringBufferNonblock rb mem capacity) ∧
      (ringBufferNonblock rb mem capacity).flags &&& rbFlagNonblock ≠ 0 ∧
      ringContents (ringBufferNonblock rb mem capacity) = [] :=
  ⟨⟨hpos, hmem, hpos, hpos, Nat.zero_le _, by simp [ringBufferNonblock, ringBufferInit,
    ringBufferSetFlags]⟩, by simp [ringBufferNonblock, ringBufferSetFlags, rbFlagNonblock],
    rfl⟩

/-- **The ring buffer is a bounded FIFO.** For every capacity and every
history of writes, reads and flushes, each call returns, the indices and the
size keep their bounds, every write reports and stores the first bytes that
fit, and every read returns the oldest stored ones; and as long as nothing is
flushed, the bytes taken in are, in order, the bytes given back followed by
the bytes still stored. -/
theorem ringBuffer_refines_fifo (rb : RingBuffer) (mem : List UInt8) (capacity : Nat)
    (hpos : 0 < capacity) (hmem : mem.length = capacity) (ops : List (FifoOp UInt8)) :
    ∃ rb' outs, ringRun (ringBufferNonblock rb mem capacity) ops = some (rb', outs) ∧
      rb'.capacity = capacity ∧ rb'.head < capacity ∧ rb'.tail < capacity ∧
      rb'.size ≤ capacity ∧ rb'.head = (rb'.tail + rb'.size) % capacity ∧
      (ringContents rb', outs) = fifoRun capacity [] ops ∧
      (FifoOp.flush ∉ ops →
        fifoTaken ops outs = fifoGiven outs ++ ringContents rb') := by
  obtain ⟨hwf, hflag, hempty⟩ := ringBufferNonblock_wf rb hpos hmem
  obtain ⟨rb', hrun, hwf', hcap, hcon⟩ := ringRun_fifo ops hwf hflag
  have hcap' : rb'.capacity = capacity := hcap
  rw [hempty, show (ringBufferNonblock rb mem capacity).capacity = capacity from rfl]
    at hrun hcon
  refine ⟨rb', _, hrun, hcap', hcap' ▸ hwf'.head_lt, hcap' ▸ hwf'.tail_lt,
    hcap' ▸ hwf'.size_le, hcap' ▸ hwf'.head_eq, by rw [hcon], ?_⟩
  intro hno
  rw [hcon]
  simpa using fifoRun_conserves capacity ops [] hno

/-- The self test of `kernel/main.c`: capacity 10, sixteen bytes offered, and
the wrapped write of `hello` read back last. -/
theorem ringBuffer_refines_fifo_selftest :
    0 < 10 ∧ ∃ rb' outs,
      ringRun (ringBufferNonblock ⟨0, 0, 0, 0, 0, []⟩ (List.replicate 10 0) 10)
        [.write "123456789ABCDEF0".toUTF8.toList, .read 5, .write "hello".toUTF8.toList,
          .read 5, .read 5] = some (rb', outs) ∧
      (ringContents rb', outs) = fifoRun 10 []
        [.write "123456789ABCDEF0".toUTF8.toList, .read 5, .write "hello".toUTF8.toList,
          .read 5, .read 5] := by
  refine ⟨by decide, ?_⟩
  obtain ⟨rb', outs, hrun, -, -, -, -, -, hfifo, -⟩ :=
    ringBuffer_refines_fifo ⟨0, 0, 0, 0, 0, []⟩ (List.replicate 10 0) 10 (by decide)
      (by decide) [.write "123456789ABCDEF0".toUTF8.toList, .read 5,
        .write "hello".toUTF8.toList, .read 5, .read 5]
  exact ⟨rb', outs, hrun, hfifo⟩

end Levos.Lib
