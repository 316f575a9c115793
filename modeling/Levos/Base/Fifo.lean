import Mathlib.Tactic

/-!
# Bounded FIFO

The queue a circular buffer is meant to be: a list that takes values at its
end while there is room and gives them back from its front.
-/

namespace Levos.Base

variable {α : Type}

inductive FifoOp (α : Type) : Type where
  | write (buf : List α)
  | read (len : Nat)
  | flush
deriving DecidableEq

/-- What a client sees of one operation. -/
inductive FifoOut (α : Type) : Type where
  | wrote (n : Nat)
  | got (out : List α)
  | flushed
deriving DecidableEq

/-- The values of `buf` that still fit. -/
def fifoAccepted (cap : Nat) (q buf : List α) : List α :=
  buf.take (min buf.length (cap - q.length))

def fifoStep (cap : Nat) (q : List α) : FifoOp α → List α × FifoOut α
  | .write buf => (q ++ fifoAccepted cap q buf, .wrote (fifoAccepted cap q buf).length)
  | .read len => (q.drop (min len q.length), .got (q.take (min len q.length)))
  | .flush => ([], .flushed)

def fifoRun (cap : Nat) : List α → List (FifoOp α) → List α × List (FifoOut α)
  | q, [] => (q, [])
  | q, op :: ops =>
      let (q', out) := fifoStep cap q op
      let (q'', outs) := fifoRun cap q' ops
      (q'', out :: outs)

/-- The values a run took in, read off the operations and the counts the
client was told. -/
def fifoTaken : List (FifoOp α) → List (FifoOut α) → List α
  | .write buf :: ops, .wrote n :: outs => buf.take n ++ fifoTaken ops outs
  | _ :: ops, _ :: outs => fifoTaken ops outs
  | _, _ => []

/-- The values a run gave back. -/
def fifoGiven : List (FifoOut α) → List α
  | .got out :: outs => out ++ fifoGiven outs
  | _ :: outs => fifoGiven outs
  | [] => []

theorem fifoAccepted_length (cap : Nat) (q buf : List α) :
    (fifoAccepted cap q buf).length = min buf.length (cap - q.length) := by
  simp [fifoAccepted]

theorem take_fifoAccepted_length (cap : Nat) (q buf : List α) :
    buf.take (fifoAccepted cap q buf).length = fifoAccepted cap q buf := by
  rw [fifoAccepted_length, fifoAccepted]

/-- **Conservation.** Without a flush, what was there and what was taken in
is, in order, what was given back and what is there now. -/
theorem fifoRun_conserves (cap : Nat) : ∀ (ops : List (FifoOp α)) (q : List α),
    FifoOp.flush ∉ ops →
    q ++ fifoTaken ops (fifoRun cap q ops).2 =
      fifoGiven (fifoRun cap q ops).2 ++ (fifoRun cap q ops).1
  | [], q, _ => by simp [fifoRun, fifoTaken, fifoGiven]
  | op :: ops, q, hno => by
      have hops : FifoOp.flush ∉ ops := fun h => hno (List.mem_cons_of_mem _ h)
      have ih := fifoRun_conserves cap ops (fifoStep cap q op).1 hops
      cases op with
      | write buf =>
          simp only [fifoRun, fifoStep, fifoTaken, fifoGiven] at ih ⊢
          rw [take_fifoAccepted_length, ← ih, List.append_assoc]
      | read len =>
          simp only [fifoRun, fifoStep, fifoTaken, fifoGiven] at ih ⊢
          rw [List.append_assoc, ← ih, ← List.append_assoc, List.take_append_drop]
      | flush => exact absurd List.mem_cons_self hno

/-! ## A queue that loses its oldest values -/

/-- The last `cap` values. -/
def fifoLast (cap : Nat) (l : List α) : List α := l.drop (l.length - cap)

theorem fifoLast_of_le {cap : Nat} {l : List α} (h : l.length ≤ cap) : fifoLast cap l = l := by
  rw [fifoLast, Nat.sub_eq_zero_of_le h, List.drop_zero]

/-- What comes later is kept as if nothing had been lost. -/
theorem fifoLast_append (cap : Nat) (l x : List α) :
    fifoLast cap (fifoLast cap l ++ x) = fifoLast cap (l ++ x) := by
  have hsplit : fifoLast cap l ++ x = (l ++ x).drop (l.length - cap) := by
    rw [fifoLast, List.drop_append_of_le_length (Nat.sub_le _ _)]
  rw [hsplit, fifoLast, fifoLast, List.drop_drop, List.length_drop, List.length_append]
  congr 1
  omega

end Levos.Base
