import Mathlib.Tactic

/-!
# Constants of the task layer (`levos/task.h`, `levos/signal.h`, `levos/errno.h`)

Enumerations and flag words that several subsystems share. Bit flags keep the
source's values and width; states that the source only compares for equality
are inductive types.
-/

namespace Levos.Kernel

/-! ## Task states and flags -/

/-- `TASK_UNKNOWN` .. `TASK_SLEEPING`. -/
inductive TaskState : Type where
  | unknown | new | running | preempted | blocked | zombie | dying | dead | sleeping
deriving DecidableEq, Repr

/-- `status` of a `struct process`; `none` is the initial 0. -/
inductive ProcessStatus : Type where
  | none | exited | deathBySignal | suspended | continued
deriving DecidableEq, Repr

def tflagWaited : BitVec 32 := 1 <<< 0
def tflagInterrupted : BitVec 32 := 1 <<< 1
def tflagProcessingSyscall : BitVec 32 := 1 <<< 2
def tflagNoSignal : BitVec 32 := 1 <<< 3

/-- `WAIT_CODE`: `((int)((uint16_t)(info << 8 | code)))`. -/
def waitCode (info code : BitVec 32) : BitVec 32 :=
  ((info <<< 8 ||| code).truncate 16).zeroExtend 32

def waitExit (a : BitVec 32) : BitVec 32 := waitCode a 0
def waitStopped (a : BitVec 32) : BitVec 32 := waitCode a 0x7f
def waitSig (a : BitVec 32) : BitVec 32 := waitCode 1 a

def wnohang : BitVec 32 := 1

/-! ## Signal numbers -/

def minSig : Nat := 0
def maxSig : Nat := 31
def sigkill : Nat := 9
def sigchld : Nat := 17
def sigcont : Nat := 18
def sigstop : Nat := 19
def sigtstp : Nat := 20
def sigttin : Nat := 21
def sigttou : Nat := 22

/-! ## Error numbers -/

def enoent : Int := 2
def eintr : Int := 4
def enoexec : Int := 8
def ebadf : Int := 9
def echild : Int := 10
def enomem : Int := 12
def efault : Int := 14
def eexist : Int := 17
def eisdir : Int := 21
def einval : Int := 22
def emfile : Int := 24
def enospc : Int := 28
def erofs : Int := 30
def enosys : Int := 35

end Levos.Kernel
