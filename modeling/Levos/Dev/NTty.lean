import Mathlib.Data.Vector.Defs
import Levos.Lib.Ring

/-!
# Terminals (`drivers/tty.c`, `drivers/n_tty.c`)

Output goes through the line discipline into the ring buffer `tty_out`, which
blocks, and from there to the device when that is told how many bytes to fetch.
Input is edited a line at a time, echoed the same way, and lands in the ring
buffer of complete lines, which does not block.

A call that waits for a full or an empty `tty_out`, with nobody else to change
it, does not come back (`blocks`). A byte behind the end of `line_editing` ends
the run as well (`outside`).
-/

namespace Levos.Dev

open Levos.Lib

def ptyBufSize : Nat := 4096
def lineEditingSize : Nat := 512
abbrev nccs : Nat := 32

/-! ## The terminal's settings -/

def vEof : Fin nccs := 1
def vEol : Fin nccs := 2
def vErase : Fin nccs := 3
def vIntr : Fin nccs := 4
def vKill : Fin nccs := 5
def vMin : Fin nccs := 6
def vQuit : Fin nccs := 7
def vStart : Fin nccs := 8
def vStop : Fin nccs := 9
def vSusp : Fin nccs := 10
def vTime : Fin nccs := 11
def vWerase : Fin nccs := 12

def brkint : BitVec 32 := 0o1
def icrnl : BitVec 32 := 0o2
def igncr : BitVec 32 := 0o10
def inlcr : BitVec 32 := 0o20
def iuclc : BitVec 32 := 0o200
def ixany : BitVec 32 := 0o400
def ixon : BitVec 32 := 0o2000

def opost : BitVec 32 := 0o1
def olcuc : BitVec 32 := 0o2
def onlcr : BitVec 32 := 0o4

def cs8 : BitVec 32 := 0o60
def cread : BitVec 32 := 0o200
def hupcl : BitVec 32 := 0o2000

def isig : BitVec 32 := 0o1
def icanon : BitVec 32 := 0o2
def echo : BitVec 32 := 0o10
def echoe : BitVec 32 := 0o20
def echok : BitVec 32 := 0o40
def echonl : BitVec 32 := 0o100
def echoctl : BitVec 32 := 0o1000
def iexten : BitVec 32 := 0o1000

structure Termios where
  cIflag : BitVec 32
  cOflag : BitVec 32
  cCflag : BitVec 32
  cLflag : BitVec 32
  cCc : Fin nccs → UInt8

def Termios.input (tm : Termios) (flag : BitVec 32) : Bool := tm.cIflag &&& flag ≠ 0
def Termios.output (tm : Termios) (flag : BitVec 32) : Bool := tm.cOflag &&& flag ≠ 0
def Termios.local (tm : Termios) (flag : BitVec 32) : Bool := tm.cLflag &&& flag ≠ 0

/-- `__CONTROL`. -/
def control (c : UInt8) : UInt8 := (c - 64) &&& 127

/-- `termios_init`. -/
def termiosInit : Termios where
  cIflag := brkint ||| icrnl ||| ixany ||| ixon
  cOflag := opost ||| onlcr
  cCflag := cs8 ||| cread ||| hupcl
  cLflag := echo ||| echoe ||| echok ||| echoctl ||| icanon ||| iexten ||| isig
  cCc i :=
    if i = vEof then control 0x44
    else if i = vEol then control 0x3F
    else if i = vErase then 0x7F
    else if i = vIntr then control 0x58
    else if i = vKill then control 0x55
    else if i = vMin then 1
    else if i = vQuit then control 0x5C
    else if i = vStart then control 0x51
    else if i = vStop then control 0x53
    else if i = vSusp then control 0x4B
    else if i = vTime then 0
    else if i = vWerase then control 0x57
    else 0

/-! ## The terminal -/

inductive TtyState : Type where
  | unknown
  | closed
deriving DecidableEq

/-- `struct tty_device` with the `struct n_tty_priv` of its line discipline;
`lineEditing` has the `line_len` bytes of the line. Below are what the terminal
has done: the signals it sent to process groups, the bytes `n_tty_write_output`
put out, and the bytes the device got. -/
structure TtyDevice where
  ttyTermios : Termios
  ttyOut : RingBuffer
  ttyState : TtyState
  ttyFgProc : Int
  lineBuffer : RingBuffer
  lineEditing : List UInt8
  signals : List (Int × Nat)
  produced : List UInt8
  device : List UInt8

inductive TtyFault : Type where
  | blocks
  | outside
deriving DecidableEq

/-- `tty_new`, with the memory of the two ring buffers, and with what the
structures held before. -/
def ttyNew (rb rb' : RingBuffer) (fg : Int) (mem mem' : List.Vector UInt8 ptyBufSize) :
    TtyDevice where
  ttyTermios := termiosInit
  ttyOut := ringBufferInit rb (some mem.toList) ptyBufSize
  ttyState := .unknown
  ttyFgProc := fg
  lineBuffer := ringBufferNonblock rb' mem'.toList ptyBufSize
  lineEditing := []
  signals := []
  produced := []
  device := []

/-! ## Output -/

/-- What `n_tty_write_output` makes of a byte. -/
def outputByte (tm : Termios) (byte : UInt8) : UInt8 :=
  if ¬ tm.output opost then byte
  else
    let byte := if tm.output olcuc ∧ 0x61 ≤ byte ∧ byte ≤ 0x7A then byte + (0x41 - 0x61) else byte
    if tm.output onlcr ∧ byte = 0x0A then 0x0D else byte

/-- `n_tty_write_output`; it returns 1. -/
def nTtyWriteOutput (tty : TtyDevice) (byte : UInt8) : Except TtyFault TtyDevice :=
  let byte := outputByte tty.ttyTermios byte
  match ringBufferWrite tty.ttyOut [byte] with
  | none => .error .blocks
  | some (rb, _) => .ok { tty with ttyOut := rb, produced := tty.produced ++ [byte] }

/-- `console_tty_interrupt_output` and `videocon_tty_interrupt_output`: `mem`
says whether there is memory for the bytes. -/
def interruptOutput (mem : Bool) (tty : TtyDevice) (len : Nat) : Except TtyFault TtyDevice :=
  if ¬ mem then .ok tty
  else
    match ringBufferRead tty.ttyOut len with
    | none => .error .blocks
    | some (rb, kbuf, _) => .ok { tty with ttyOut := rb, device := tty.device ++ kbuf }

/-- The loop over the bytes. -/
def writeOutputs : TtyDevice → List UInt8 → Except TtyFault TtyDevice
  | tty, [] => .ok tty
  | tty, byte :: buf => (nTtyWriteOutput tty byte).bind fun tty => writeOutputs tty buf

/-- All bytes into `tty_out`, and then as many of them to the device. -/
def writeAndDrain (mem : Bool) (tty : TtyDevice) (buf : List UInt8) : Except TtyFault TtyDevice :=
  (writeOutputs tty buf).bind fun tty => interruptOutput mem tty buf.length

/-- `n_tty_output`. -/
def nTtyOutput (mem : Bool) (tty : TtyDevice) (buf : List UInt8) : Except TtyFault TtyDevice :=
  writeAndDrain mem tty buf

/-- `tty_fwrite`, and its result. -/
def ttyFwrite (mem : Bool) (tty : TtyDevice) (buf : List UInt8) :
    Except TtyFault (TtyDevice × Nat) :=
  (writeAndDrain mem tty buf).map fun tty => (tty, buf.length)

/-- `ctty_file_write` by a task that has the terminal for its `ctty`. -/
def cttyFileWrite (mem : Bool) (tty : TtyDevice) (buf : List UInt8) :
    Except TtyFault (TtyDevice × Nat) :=
  (writeAndDrain mem tty buf).map fun tty => (tty, buf.length)

/-- `tty_flush_output`. -/
def ttyFlushOutput (tty : TtyDevice) : TtyDevice :=
  { tty with ttyOut := ringBufferFlush tty.ttyOut }

/-! ## Input -/

def sigint : Nat := 2
def sigquit : Nat := 3
def sigtstp : Nat := 20

/-- `n_tty_flush`; the line buffer takes what it has room for. -/
def nTtyFlush (tty : TtyDevice) : Except TtyFault TtyDevice :=
  match ringBufferWrite tty.lineBuffer tty.lineEditing with
  | none => .error .blocks
  | some (rb, _) => .ok { tty with lineBuffer := rb, lineEditing := [] }

/-- `n_tty_push`. -/
def nTtyPush (tty : TtyDevice) (byte : UInt8) : Except TtyFault TtyDevice :=
  if tty.lineEditing.length < lineEditingSize then
    let tty := { tty with lineEditing := tty.lineEditing ++ [byte] }
    if ¬ tty.ttyTermios.local icanon then nTtyFlush tty else .ok tty
  else .error .outside

/-- A signal character: `^` and the letter, if `ECHOCTL` is set, and the
signal. -/
def signalChar (tty : TtyDevice) (cc : UInt8) (signal : Nat) : Except TtyFault TtyDevice :=
  (if tty.ttyTermios.local echoctl then writeOutputs tty [0x5E, 0x40 + cc, 0x0A] else .ok tty).map
    fun tty => { tty with signals := tty.signals ++ [(tty.ttyFgProc, signal)] }

def bsBlankBs : List UInt8 := [0x08, 0x20, 0x08]

/-- The loop of `VWERASE`, `n` characters before the start of the line and `k`
behind its end; `mem` says of each fetch whether there is memory for it. -/
def eraseWord (mem : Nat → Bool) : Nat → Nat → TtyDevice → Except TtyFault TtyDevice
  | 0, _, tty => .ok tty
  | n + 1, k, tty =>
      (nTtyOutput (mem k) tty bsBlankBs).bind fun tty =>
        let last := tty.lineEditing.getLast?
        let tty := { tty with lineEditing := tty.lineEditing.dropLast }
        if last = some 0x20 then .ok tty else eraseWord mem n (k + 1) tty

/-- The loop of `VKILL`. -/
def killLine (mem : Nat → Bool) : Nat → Nat → TtyDevice → Except TtyFault TtyDevice
  | 0, _, tty => .ok tty
  | n + 1, k, tty =>
      let tty := { tty with lineEditing := tty.lineEditing.dropLast }
      (nTtyOutput (mem k) tty bsBlankBs).bind (killLine mem n (k + 1))

/-- What a byte of input is for: the branches of `n_tty_write_input`. -/
inductive InputKind : Type where
  | signal (cc : UInt8) (signum : Nat)
  | endOfFile
  | ignored
  | erase
  | eraseWord
  | kill
  | char (byte : UInt8)
  | newline
deriving DecidableEq

/-- The tests of `n_tty_write_input`, in their order. -/
def inputKind (tm : Termios) (line : List UInt8) (byte : UInt8) : InputKind :=
  if tm.local isig ∧ byte = tm.cCc vIntr then .signal (tm.cCc vIntr) sigint
  else if tm.local isig ∧ byte = tm.cCc vQuit then .signal (tm.cCc vQuit) sigquit
  else if tm.local icanon ∧ byte = tm.cCc vEof ∧ line = [] then .endOfFile
  else
    -- on a line that is not empty, `VEOF` goes on as a carriage return
    let byte := if tm.local icanon ∧ byte = tm.cCc vEof then 0x0D else byte
    if tm.local isig ∧ byte = tm.cCc vSusp then .signal (tm.cCc vSusp) sigtstp
    else
      let byte := if tm.input inlcr ∧ byte = 0x0A then 0x0D else byte
      if tm.input igncr ∧ byte = 0x0D then .ignored
      else
        let byte := if ¬ tm.input igncr ∧ tm.input icrnl ∧ byte = 0x0D then 0x0A else byte
        if tm.local icanon ∧ tm.local echoe ∧ byte = tm.cCc vErase then .erase
        else if byte = tm.cCc vWerase then .eraseWord
        else if tm.local icanon ∧ tm.local echok ∧ byte = tm.cCc vKill then .kill
        else
          let byte := if tm.input iuclc ∧ 0x41 ≤ byte ∧ byte ≤ 0x5A then byte - (0x41 - 0x61)
            else byte
          if byte ≠ 0x0A then .char byte else .newline

/-- A printed character is echoed. -/
def echoesChar (tm : Termios) : Bool := tm.local icanon ∧ tm.local echo

/-- A newline is echoed. -/
def echoesNewline (tm : Termios) : Bool :=
  (tm.local icanon ∧ tm.local echo) ∨ (tm.local icanon ∧ tm.local echonl)

def echoByte (mem echoed : Bool) (tty : TtyDevice) (byte : UInt8) : Except TtyFault TtyDevice :=
  if echoed then nTtyOutput mem tty [byte] else .ok tty

/-- `n_tty_write_input`; it returns 1. -/
def nTtyWriteInput (mem : Nat → Bool) (tty : TtyDevice) (byte : UInt8) :
    Except TtyFault TtyDevice :=
  match inputKind tty.ttyTermios tty.lineEditing byte with
  | .signal cc signum => signalChar tty cc signum
  | .endOfFile => (nTtyPush { tty with ttyState := .closed } 0x0A).bind nTtyFlush
  | .ignored => .ok tty
  | .erase =>
      if tty.lineEditing = [] then .ok tty
      else nTtyOutput (mem 0) { tty with lineEditing := tty.lineEditing.dropLast } bsBlankBs
  | .eraseWord => eraseWord mem tty.lineEditing.length 0 tty
  | .kill => killLine mem tty.lineEditing.length 0 tty
  | .char byte =>
      (echoByte (mem 0) (echoesChar tty.ttyTermios) tty byte).bind fun tty => nTtyPush tty byte
  | .newline =>
      (echoByte (mem 0) (echoesNewline tty.ttyTermios) tty 0x0A).bind fun tty =>
        (nTtyPush tty 0x0A).bind nTtyFlush

end Levos.Dev
