import Levos.Base.RefCount
import Levos.Kernel.Task

/-!
# Open files and file tables (`kernel/syscall.c`, `kernel/sched.c`, `fs/vfs.c`)

Every task has a table of `FD_MAX` pointers to `struct file`; several slots,
of one task or of many, may point to one file, whose `refc` is to say how
many. About ten system calls move pointers and counts, each in its own order.

A file is named by its allocation and never reused: `closed` records that its
close operation has run, and `closes` remembers, for each time that happened,
the slot that was being closed and the slots that pointed to the file at that
moment. What the filesystems answer is an input of the call: an error, NULL,
or a fresh `struct file` (`ext2_open`, `procfs_open`, `devfs_open` and
`tty_get_file` all allocate one, with `refc = 1`). Following a NULL file ends
the run. The controlling terminal `sys_open` may set is left out.
-/

namespace Levos.Kernel

open Levos.Base

/-! ## Data model -/

def fdMax : Nat := 32

/-- `struct file`, as far as the tables go. -/
structure OpenFile where
  refc : Int
  mode : BitVec 32
  isdir : Bool
  closed : Bool
deriving DecidableEq, Repr

/-- The file table of a task. -/
structure FdTask where
  fileTable : Fin fdMax → Option Nat
  fileTableFlags : Fin fdMax → BitVec 32

abbrev Slot : Type := Nat × Fin fdMax

/-- One call of a close operation: the file, the slot being closed, if any, and
the slots that pointed to the file then. -/
structure CloseEvent where
  file : Nat
  slot : Option Slot
  holders : Finset Slot

structure Vfs where
  lastPid : Nat
  tasks : Nat → Option FdTask
  files : Nat → OpenFile
  nextFile : Nat
  closes : List CloseEvent

/-- The file a slot points to; a task that has exited has none. -/
def slotFile (s : Vfs) (x : Slot) : Option Nat := (s.tasks x.1).bind fun t => t.fileTable x.2

/-- The slots of all tasks there have been. -/
def slots (s : Vfs) : Finset Slot := Finset.range (s.lastPid + 1) ×ˢ Finset.univ

/-- The slots that point to `f`. -/
def slotsOf (s : Vfs) (f : Nat) : Finset Slot := holders (slots s) (slotFile s) f

/-! ## The functions of the source -/

def oWronly : BitVec 32 := 1
def oRdwr : BitVec 32 := 2
def oCreat : BitVec 32 := 0x0200
def oTrunc : BitVec 32 := 0x0400
def oExcl : BitVec 32 := 0x0800
def oCloexec : BitVec 32 := 0x40000
def fdCloexec : BitVec 32 := 1
def fDupfd : Nat := 0
def fGetfd : Nat := 1
def fSetfd : Nat := 2

/-- `task->file_table[i] = v`. -/
def setSlot (s : Vfs) (p : Nat) (i : Fin fdMax) (v : Option Nat) : Vfs :=
  match s.tasks p with
  | none => s
  | some t =>
      { s with tasks := Function.update s.tasks p
                (some { t with fileTable := Function.update t.fileTable i v }) }

/-- `task->file_table_flags[i] = v`. -/
def setFdFlags (s : Vfs) (p : Nat) (i : Fin fdMax) (v : BitVec 32) : Vfs :=
  match s.tasks p with
  | none => s
  | some t =>
      { s with tasks := Function.update s.tasks p
                (some { t with fileTableFlags := Function.update t.fileTableFlags i v }) }

def setRefc (s : Vfs) (f : Nat) (refc : Int) : Vfs :=
  { s with files := Function.update s.files f { s.files f with refc := refc } }

def vfsIncRefc (s : Vfs) (f : Nat) : Vfs := setRefc s f ((s.files f).refc + 1)

/-- `f->fops->close(f)`. -/
def runClose (s : Vfs) (slot : Option Slot) (f : Nat) : Vfs :=
  { s with
      files := Function.update s.files f { s.files f with closed := true }
      closes := s.closes ++ [⟨f, slot, slotsOf s f⟩] }

/-- `slot` is the slot whose pointer is being given up, for the record. -/
def vfsClose (s : Vfs) (slot : Option Slot) (f : Nat) : Vfs :=
  let s := setRefc s f ((s.files f).refc - 1)
  if (s.files f).refc = 0 then runClose s slot f else s

/-- A fresh `struct file` from a filesystem, its `mode` whatever was there. -/
def allocFile (s : Vfs) (mode : BitVec 32) (isdir : Bool) : Vfs :=
  { s with
      files := Function.update s.files s.nextFile
        { refc := 1, mode := mode, isdir := isdir, closed := false }
      nextFile := s.nextFile + 1 }

def setMode (s : Vfs) (f : Nat) (mode : BitVec 32) : Vfs :=
  { s with files := Function.update s.files f { s.files f with mode := mode } }

/-- The first empty slot at or after `i`. -/
def firstFree (t : FdTask) (i : Nat) : Option (Fin fdMax) :=
  (List.finRange fdMax).find? fun k => i ≤ k.val ∧ t.fileTable k = none

/-- What a filesystem's `open` or `create` answers. -/
inductive FsAnswer : Type where
  | err (e : Int)
  | null
  | file (mode : BitVec 32) (isdir : Bool)
deriving DecidableEq, Repr

/-- `sys_open` from the label `xc` on. -/
def openInstall (s : Vfs) (p : Nat) (t : FdTask) (f : Nat) (mode : BitVec 32) : Vfs × Int :=
  let s := setMode s f mode
  match firstFree t 0 with
  | some i => (setSlot s p i (some f), i.val)
  | none => (s, -emfile)

/-- The test for `O_TRUNC` without write access. It is meant for
`(flags & O_RDWR) == 0`; as written, `O_RDWR == 0` is computed first. -/
def truncReadonly (flags : BitVec 32) : Bool :=
  flags &&& oTrunc ≠ 0 ∧ flags &&& (if oRdwr = 0 then 1 else 0) ≠ 0 ∧
    flags &&& (if oWronly = 0 then 1 else 0) ≠ 0

def sysOpen (s : Vfs) (p : Nat) (t : FdTask) (ok : Bool) (flags mode : BitVec 32)
    (opened created : FsAnswer) (truncated : Int) : Option (Vfs × Int) :=
  if ¬ ok then some (s, -efault)
  else if truncReadonly flags then some (s, -einval)
  else
    match opened with
    | .err e =>
        if e = -enoent then
          if flags &&& oCreat ≠ 0 then
            match created with
            | .err e => some (s, e)
            | .null => none
            | .file m isdir => some (openInstall (allocFile s m isdir) p t s.nextFile mode)
          else some (s, -enoent)
        else some (s, e)
    | .null => none
    | .file m isdir =>
        let f := s.nextFile
        let s := allocFile s m isdir
        if flags &&& oTrunc ≠ 0 ∧ truncated ≠ 0 then some (vfsClose s none f, truncated)
        else if isdir ∧ (flags &&& oWronly ≠ 0 ∨ flags &&& oRdwr ≠ 0) then some (s, -eisdir)
        else if flags &&& oExcl ≠ 0 ∧ flags &&& oCreat ≠ 0 then
          some (vfsClose s none f, -eexist)
        else some (openInstall s p t f mode)

/-- `do_close` on a slot that is in use. -/
def doClose (s : Vfs) (p : Nat) (i : Fin fdMax) (f : Nat) : Vfs :=
  setSlot (vfsClose s (some (p, i)) f) p i none

/-- The table index, if the descriptor passes `fd < 0 || fd >= FD_MAX`. -/
def checkFd (fd : Int) : Option (Fin fdMax) :=
  if h : 0 ≤ fd ∧ fd < fdMax then some ⟨fd.toNat, by omega⟩ else none

/-- The descriptor checks most calls begin with. -/
def fdLookup (t : FdTask) (fd : Int) : Option (Fin fdMax × Nat) :=
  (checkFd fd).bind fun i => (t.fileTable i).map fun f => (i, f)

def sysClose (s : Vfs) (p : Nat) (t : FdTask) (fd : Int) : Vfs × Int :=
  match fdLookup t fd with
  | none => (s, -ebadf)
  | some (i, f) => (doClose s p i f, 0)

/-- The loop that `sys_dup` and `F_DUPFD` share. -/
def dupFrom (s : Vfs) (p : Nat) (t : FdTask) (f i : Nat) : Vfs × Int :=
  match firstFree t i with
  | some k => (vfsIncRefc (setSlot s p k (some f)) f, k.val)
  | none => (s, -emfile)

def sysDup (s : Vfs) (p : Nat) (t : FdTask) (fd : Int) : Vfs × Int :=
  match fdLookup t fd with
  | none => (s, -ebadf)
  | some (_, f) => dupFrom s p t f 0

/-- `sys_dup2`: an occupied target is closed first. -/
def sysDup2 (s : Vfs) (p : Nat) (t : FdTask) (fd dst : Int) : Vfs × Int :=
  match checkFd fd, checkFd dst with
  | some i, some k =>
      if fd = dst then (s, dst)
      else
        match t.fileTable i with
        | none => (s, -ebadf)
        | some f =>
            let s :=
              match t.fileTable k with
              | none => s
              | some f2 => doClose s p k f2
            let s := setFdFlags (setSlot s p k (some f)) p k 0
            (vfsIncRefc s f, dst)
  | _, _ => (s, -ebadf)

def sysFcntl (s : Vfs) (p : Nat) (t : FdTask) (fd : Int) (cmd : Nat) (arg : BitVec 32) :
    Vfs × Int :=
  match fdLookup t fd with
  | none => (s, -ebadf)
  | some (i, f) =>
      if cmd = fDupfd then
        if fdMax ≤ arg.toNat then (s, -einval) else dupFrom s p t f arg.toNat
      else if cmd = fGetfd then (s, (t.fileTableFlags i).toInt)
      else if cmd = fSetfd then (setFdFlags s p i (t.fileTableFlags i ||| arg), 0)
      else (s, -enosys)

/-- `sys_pipe` and `do_pipe`; `mem` is whether `pipe_create` succeeds, `m₀` and
`m₁` the modes its files happen to have. -/
def sysPipe (s : Vfs) (p : Nat) (t : FdTask) (ok mem : Bool) (m₀ m₁ : BitVec 32) : Vfs × Int :=
  if ¬ ok then (s, -efault)
  else
    match firstFree t 0 with
    | none => (s, -emfile)
    | some i =>
        match firstFree t (i.val + 1) with
        | none => (s, -emfile)
        | some k =>
            if ¬ mem then (s, -enomem)
            else
              let f := s.nextFile
              let s := allocFile (allocFile s m₀ false) m₁ false
              (setSlot (setSlot s p i (some f)) p k (some (f + 1)), 0)

/-- One turn of the loop in `copy_filetable`. -/
def copySlot (t : FdTask) (child : Nat) (s : Vfs) (i : Fin fdMax) : Vfs :=
  match t.fileTable i with
  | none => setSlot s child i none
  | some f => vfsIncRefc (setSlot s child i (some f)) f

/-- `fork`: a task with an empty table (the three files `setup_filetable` made
for it are freed at once), and `copy_filetable`. -/
def forkFiles (s : Vfs) (t : FdTask) : Vfs :=
  let child := s.lastPid + 1
  let s := { s with
    lastPid := child
    tasks := Function.update s.tasks child (some ⟨fun _ => none, fun _ => 0⟩) }
  (List.finRange fdMax).foldl (copySlot t child) s

/-- One turn of the loop in `task_do_cloexec`: `f && mode || flags`, and a NULL
file with the descriptor flag set is followed. -/
def cloexecSlot (p : Nat) (s : Vfs) (i : Fin fdMax) : Option Vfs :=
  (s.tasks p).bind fun t =>
    let marked := t.fileTableFlags i &&& fdCloexec ≠ 0
    match t.fileTable i with
    | none => if marked then none else some s
    | some f =>
        if (s.files f).mode &&& oCloexec ≠ 0 ∨ marked then
          some (setFdFlags (doClose s p i f) p i 0)
        else some s

def taskDoCloexec (s : Vfs) (p : Nat) : Option Vfs :=
  (List.finRange fdMax).foldlM (cloexecSlot p) s

/-- One turn of the loop in `close_filetable`. -/
def closeSlot (p : Nat) (s : Vfs) (i : Fin fdMax) : Vfs :=
  match slotFile s (p, i) with
  | none => setSlot s p i none
  | some f => doClose s p i f

def closeFiletable (s : Vfs) (p : Nat) : Vfs := (List.finRange fdMax).foldl (closeSlot p) s

/-! ## The system -/

inductive FdAct : Type where
  | open (p : Nat) (ok : Bool) (flags mode : BitVec 32) (opened created : FsAnswer)
      (truncated : Int)
  | close (p : Nat) (fd : Int)
  | dup (p : Nat) (fd : Int)
  | dup2 (p : Nat) (fd dst : Int)
  | fcntl (p : Nat) (fd : Int) (cmd : Nat) (arg : BitVec 32)
  | pipe (p : Nat) (ok mem : Bool) (m₀ m₁ : BitVec 32)
  | fork (p : Nat)
  | cloexec (p : Nat)
  | exit (p : Nat)
deriving DecidableEq, Repr

def fdStep (s : Vfs) : FdAct → Option Vfs
  | .open p ok flags mode opened created truncated =>
      (s.tasks p).bind fun t =>
        (sysOpen s p t ok flags mode opened created truncated).map (·.1)
  | .close p fd => (s.tasks p).map fun t => (sysClose s p t fd).1
  | .dup p fd => (s.tasks p).map fun t => (sysDup s p t fd).1
  | .dup2 p fd dst => (s.tasks p).map fun t => (sysDup2 s p t fd dst).1
  | .fcntl p fd cmd arg => (s.tasks p).map fun t => (sysFcntl s p t fd cmd arg).1
  | .pipe p ok mem m₀ m₁ => (s.tasks p).map fun t => (sysPipe s p t ok mem m₀ m₁).1
  | .fork p => (s.tasks p).map fun t => forkFiles s t
  | .cloexec p => (s.tasks p).bind fun _ => taskDoCloexec s p
  | .exit p =>
      (s.tasks p).map fun _ =>
        let s := closeFiletable s p
        { s with tasks := Function.update s.tasks p none }

end Levos.Kernel
