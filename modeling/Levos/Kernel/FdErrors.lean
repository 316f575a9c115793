import Levos.Kernel.Elf
import Levos.Kernel.FileRefs

/-!
# Error paths that hold a file (`kernel/syscall.c`, `net/network.c`)

`sys_open`, `sys_socket` and `sys_execve` make a `struct file`, or a socket and
a file around it, and can fail at several places after that. An error is to
leave no trace: the tables and counts as they were, and nothing open that no
slot points to.

The files of the tables are those of `Kernel.FileTable`. The private copies
`dup_file` makes for the mappings of VMAs have their own counts in
`Mm.Mapping` and are left out here.
-/

namespace Levos.Kernel

open Levos.Mm

/-! ## Data model -/

def afInet : Int := 1
def sockStream : Int := 0
def sockDgram : Int := 1
def eafnosupport : Int := 97

/-- `struct socket`, as far as `sys_socket` fills it in. -/
structure NewSocket where
  domain : Int
  type : Int
  proto : Int
deriving DecidableEq, Repr

/-- The open files, the sockets and, for a file made by `file_from_socket`, its
`priv`; `vmas` are the areas of each task. -/
structure FdWorld where
  vfs : Vfs
  sockets : Nat → Option NewSocket
  nextSock : Nat
  priv : Nat → Option Nat
  vmas : Nat → List VmArea

/-! ## `sys_socket` -/

/-- `socket_udp_create` and `socket_tcp_create` differ in the type they set. -/
def socketCreate (type proto : Int) : Except Int NewSocket :=
  if proto ≠ 0 then .error (-einval) else .ok ⟨afInet, type, 0⟩

def socketUdpCreate (proto : Int) : Except Int NewSocket := socketCreate sockDgram proto
def socketTcpCreate (proto : Int) : Except Int NewSocket := socketCreate sockStream proto

def socketInetCreate (type proto : Int) : Except Int NewSocket :=
  if type = sockDgram then socketUdpCreate proto
  else if type = sockStream then socketTcpCreate proto
  else .error (-einval)

/-- `socket_new`: a socket, NULL when there is no memory, or an error. -/
def socketNew (w : FdWorld) (mem : Bool) (dom type proto : Int) :
    Except Int (Option Nat × FdWorld) :=
  if ¬ mem then .ok (none, w)
  else if dom = afInet then
    (socketInetCreate type proto).map fun sock =>
      (some w.nextSock,
        { w with sockets := Function.update w.sockets w.nextSock (some sock)
                 nextSock := w.nextSock + 1 })
  else .error (-eafnosupport)

/-- `socket_destroy` of a socket that was never connected: its `sock_priv` is
NULL, and only the socket itself is freed. -/
def socketDestroy (w : FdWorld) (k : Nat) : FdWorld :=
  { w with sockets := Function.update w.sockets k none }

/-- `file_from_socket`; `junk` is the `mode` that `malloc` left in the file. -/
def fileFromSocket (w : FdWorld) (mem : Bool) (junk : BitVec 32) (sock : Option Nat) :
    Option (Nat × FdWorld) :=
  if ¬ mem then none
  else
    some (w.vfs.nextFile,
      { w with vfs := allocFile w.vfs junk false
               priv := Function.update w.priv w.vfs.nextFile sock })

/-- `sys_socket`; the arguments are named as `socket_new` names them.
`socket_destroy(NULL)` ends the run. -/
def sysSocket (w : FdWorld) (p : Nat) (t : FdTask) (sockMem filpMem : Bool) (junk : BitVec 32)
    (dom type proto : Int) : Option (FdWorld × Int) :=
  match socketNew w sockMem dom type proto with
  | .error e => some (w, e)
  | .ok (sock, w) =>
      match fileFromSocket w filpMem junk sock with
      | none => sock.map fun k => (socketDestroy w k, -enomem)
      | some (f, w) =>
          match firstFree t 0 with
          | some i => some ({ w with vfs := setSlot w.vfs p i (some f) }, i.val)
          | none => some (w, -emfile)

/-! ## `sys_execve` -/

/-- `copy_array_from_user`, by whether its two allocations succeed: an array, or
an error pointer. -/
def copyArrayFromUser (bufMem arrMem : Bool) : Except Int Unit :=
  if ¬ bufMem then .error (-enomem) else if ¬ arrMem then .error (-enomem) else .ok ()

/-- `free_copied_array` reads `arr[0]`; on an error pointer that ends the run. -/
def freeCopiedArray (arr : Except Int Unit) : Option Unit := arr.toOption

/-- `elf_probe`; `junk` is what `magic` holds before it is read into. -/
def elfProbe (junk : Page) (content : List UInt8) : Int :=
  let magic := readBuf junk content 0 4
  if ¬ (magic 0 = 0x7F ∧ magic 1 = 0x45 ∧ magic 2 = 0x4C ∧ magic 3 = 0x46) then -enoexec
  else 0

/-- What `sys_execve` meets on its way: whether the path can be read and copied,
what the filesystem answers and the content of the file, the allocations of the
two argument arrays and of `vma_init` and `load_elf`, and what the buffers hold
before they are read into. -/
structure ExecInput where
  ok : Bool
  pathMem : Bool
  opened : FsAnswer
  content : List UInt8
  argv : Bool × Bool
  envp : Bool × Bool
  probeJunk : Page
  stackMem : Bool
  loadMem : Nat → Bool
  loadJunk : Nat → Page

/-- The areas `vma_unload_all` and `vma_init` leave. -/
def freshAreas (mem : Bool) : List VmArea :=
  match vmAreaCreateInsert mem stackVma [] with
  | some (some areas) => areas
  | _ => []

/-- `sys_execve`. On success it does not return; the 0 stands for that. -/
def sysExecve (w : FdWorld) (p : Nat) (x : ExecInput) : Option (FdWorld × Int) :=
  if ¬ x.ok then some (w, -efault)
  else if ¬ x.pathMem then some (w, -enomem)
  else
    match x.opened with
    | .err _ => some (w, -enoent)
    | .null => some (w, -enoent)
    | .file m isdir =>
        let f := w.vfs.nextFile
        let w := { w with vfs := allocFile w.vfs m isdir }
        let argvp := copyArrayFromUser x.argv.1 x.argv.2
        let envp := copyArrayFromUser x.envp.1 x.envp.2
        if argvp = .error (-efault) then some (w, -efault)
        else if envp = .error (-efault) then (freeCopiedArray argvp).map fun _ => (w, -efault)
        else if elfProbe x.probeJunk x.content ≠ 0 then
          some (w, elfProbe x.probeJunk x.content)
        else
          (loadElf x.loadMem x.loadJunk x.content (freshAreas x.stackMem)).bind
            fun (rc, areas) =>
              let w := { w with vmas := Function.update w.vmas p areas }
              if rc ≠ 0 then
                (freeCopiedArray envp).bind fun _ => (freeCopiedArray argvp).map fun _ => (w, rc)
              else
                (taskDoCloexec w.vfs p).map fun vfs =>
                  ({ w with vfs := vfsClose vfs none f }, 0)

/-! ## The three calls -/

inductive FdCall : Type where
  | open (ok : Bool) (flags mode : BitVec 32) (opened created : FsAnswer) (truncated : Int)
  | socket (sockMem filpMem : Bool) (junk : BitVec 32) (dom type proto : Int)
  | execve (x : ExecInput)

/-- A call by task `p`. -/
def fdCall (w : FdWorld) (p : Nat) : FdCall → Option (FdWorld × Int)
  | .open ok flags mode opened created truncated =>
      (w.vfs.tasks p).bind fun t =>
        (sysOpen w.vfs p t ok flags mode opened created truncated).map fun (vfs, r) =>
          ({ w with vfs := vfs }, r)
  | .socket sockMem filpMem junk dom type proto =>
      (w.vfs.tasks p).bind fun t => sysSocket w p t sockMem filpMem junk dom type proto
  | .execve x => (w.vfs.tasks p).bind fun _ => sysExecve w p x

/-! ## What an error is to leave -/

/-- The tables, counts and sockets of before are as they were, and whatever was
made since is closed or destroyed. -/
structure NothingLeaked (w w' : FdWorld) : Prop where
  tables : w'.vfs.tasks = w.vfs.tasks
  files : ∀ f < w.vfs.nextFile, w'.vfs.files f = w.vfs.files f
  sockets : ∀ k < w.nextSock, w'.sockets k = w.sockets k
  newFiles : ∀ f, w.vfs.nextFile ≤ f → f < w'.vfs.nextFile → (w'.vfs.files f).closed = true
  newSockets : ∀ k, w.nextSock ≤ k → k < w'.nextSock → w'.sockets k = none

/-- Whenever the call fails, nothing is leaked. -/
def ErrorClean (w : FdWorld) (p : Nat) (c : FdCall) : Prop :=
  ∀ w' r, fdCall w p c = some (w', r) → r < 0 → NothingLeaked w w'

/-! ## Where the calls keep what they opened -/

/-- No slot of the table is empty. -/
def TableFull (t : FdTask) : Prop := ∀ i, t.fileTable i ≠ none

/-- A directory opened for writing, or a file that finds no slot. -/
def OpenLeaks (t : FdTask) (flags : BitVec 32) (opened created : FsAnswer)
    (truncated : Int) : Prop :=
  match opened with
  | .file _ isdir =>
      ¬(flags &&& oTrunc ≠ 0 ∧ truncated ≠ 0) ∧
        (isdir = true ∧ (flags &&& oWronly ≠ 0 ∨ flags &&& oRdwr ≠ 0) ∨
          ¬(flags &&& oExcl ≠ 0 ∧ flags &&& oCreat ≠ 0) ∧ TableFull t)
  | .err e =>
      e = -enoent ∧ flags &&& oCreat ≠ 0 ∧ (∃ m isdir, created = .file m isdir) ∧ TableFull t
  | .null => False

/-- The arguments `socket_new` accepts. -/
def SocketArgs (dom type proto : Int) : Prop :=
  dom = afInet ∧ (type = sockDgram ∨ type = sockStream) ∧ proto = 0

/-- The file is executed in vain: it is no ELF file, or it cannot be loaded. -/
def ExecLeaks (x : ExecInput) : Prop :=
  (x.ok = true ∧ x.pathMem = true ∧ ∃ m isdir, x.opened = .file m isdir) ∧
    (elfProbe x.probeJunk x.content ≠ 0 ∨
      (x.argv = (true, true) ∧ x.envp = (true, true)) ∧
        ∃ rc areas, loadElf x.loadMem x.loadJunk x.content (freshAreas x.stackMem) =
          some (rc, areas) ∧ rc ≠ 0)

def Leaks (t : FdTask) : FdCall → Prop
  | .open ok flags _ opened created truncated =>
      ok = true ∧ OpenLeaks t flags opened created truncated
  | .socket sockMem filpMem _ dom type proto =>
      filpMem = true ∧ (sockMem = true → SocketArgs dom type proto) ∧ TableFull t
  | .execve x => ExecLeaks x

/-! ## Outcomes -/

/-- One outcome of a call made in `w`. -/
def CleanOutcome (w w' : FdWorld) (r : Int) : Prop := r < 0 → NothingLeaked w w'

theorem NothingLeaked.refl (w : FdWorld) : NothingLeaked w w where
  tables := rfl
  files _ _ := rfl
  sockets _ _ := rfl
  newFiles _ hle hlt := absurd hlt (not_lt.mpr hle)
  newSockets _ hle hlt := absurd hlt (not_lt.mpr hle)

/-- The close operation of a fresh file runs at its first `vfs_close`. -/
theorem vfsClose_fresh (s : Vfs) (m : BitVec 32) (isdir : Bool) :
    ((vfsClose (allocFile s m isdir) none s.nextFile).files s.nextFile).closed = true ∧
      ∀ f, f ≠ s.nextFile →
        (vfsClose (allocFile s m isdir) none s.nextFile).files f = s.files f := by
  constructor
  · simp [vfsClose, allocFile, setRefc, runClose]
  · intro f hf
    simp [vfsClose, allocFile, setRefc, runClose, hf]

/-- A file made and closed again is no leak. -/
theorem nothingLeaked_closed (w : FdWorld) (m : BitVec 32) (isdir : Bool) :
    NothingLeaked w { w with vfs := vfsClose (allocFile w.vfs m isdir) none w.vfs.nextFile } := by
  obtain ⟨htasks, -, hnext⟩ := vfsClose_frame (allocFile w.vfs m isdir) none w.vfs.nextFile
  obtain ⟨hclosed, hothers⟩ := vfsClose_fresh w.vfs m isdir
  refine ⟨htasks, fun f hf => hothers f (ne_of_lt hf), fun _ _ => rfl, ?_, ?_⟩
  · intro f hle hlt
    rw [hnext] at hlt
    have hf : f = w.vfs.nextFile := le_antisymm (Nat.lt_succ_iff.mp hlt) hle
    rw [hf]
    exact hclosed
  · intro k hle hlt
    exact absurd hlt (not_lt.mpr hle)

/-- A file made and still open is one. -/
theorem not_nothingLeaked_of_open {w w' : FdWorld} (hlt : w.vfs.nextFile < w'.vfs.nextFile)
    (hopen : (w'.vfs.files w.vfs.nextFile).closed = false) : ¬NothingLeaked w w' := by
  intro h
  rw [h.newFiles _ le_rfl hlt] at hopen
  cases hopen

theorem firstFree_eq_none {t : FdTask} : firstFree t 0 = none ↔ TableFull t := by
  simp [firstFree, TableFull, List.find?_eq_none]

/-! ## `sys_open` -/

theorem truncReadonly_eq_false (flags : BitVec 32) : truncReadonly flags = false := by
  simp [truncReadonly, oRdwr]

/-- From the label `xc` on, the only error is that there is no slot, and then
the file stays open. -/
theorem openInstall_clean_iff (w : FdWorld) (p : Nat) (t : FdTask) (m mode : BitVec 32)
    (isdir : Bool) :
    (∀ v r, openInstall (allocFile w.vfs m isdir) p t w.vfs.nextFile mode = (v, r) →
      CleanOutcome w { w with vfs := v } r) ↔ ¬TableFull t := by
  rw [← firstFree_eq_none]
  unfold openInstall
  cases hfree : firstFree t 0 with
  | none =>
      simp only [not_true_eq_false, iff_false]
      intro h
      refine not_nothingLeaked_of_open ?_ ?_ (h _ _ rfl (by decide))
      · exact Nat.lt_succ_self _
      · simp [setMode, allocFile]
  | some i =>
      simp only [reduceCtorEq, not_false_eq_true, iff_true]
      rintro v r heq
      obtain ⟨-, rfl⟩ := Prod.mk.inj heq
      exact fun hneg => absurd hneg (by simp)

/-- An exit before anything was opened. -/
theorem clean_unchanged (w : FdWorld) (e : Int) :
    ∀ v r, some (w.vfs, e) = some (v, r) → CleanOutcome w { w with vfs := v } r := by
  rintro v r heq
  cases heq
  exact fun _ => NothingLeaked.refl w

/-- An exit that closes the file it opened. -/
theorem clean_closed (w : FdWorld) (m : BitVec 32) (isdir : Bool) (e : Int) :
    ∀ v r, some (vfsClose (allocFile w.vfs m isdir) none w.vfs.nextFile, e) = some (v, r) →
      CleanOutcome w { w with vfs := v } r := by
  rintro v r heq
  cases heq
  exact fun _ => nothingLeaked_closed w m isdir

/-- An exit with an error that keeps the file open. -/
theorem not_clean_open (w : FdWorld) (m : BitVec 32) (isdir : Bool) {e : Int} (he : e < 0) :
    ¬∀ v r, some (allocFile w.vfs m isdir, e) = some (v, r) →
      CleanOutcome w { w with vfs := v } r := by
  intro h
  refine not_nothingLeaked_of_open ?_ ?_ (h _ _ rfl he)
  · exact Nat.lt_succ_self _
  · simp [allocFile]

theorem sysOpen_clean_iff (w : FdWorld) (p : Nat) (t : FdTask) (ok : Bool)
    (flags mode : BitVec 32) (opened created : FsAnswer) (truncated : Int) :
    (∀ v r, sysOpen w.vfs p t ok flags mode opened created truncated = some (v, r) →
      CleanOutcome w { w with vfs := v } r) ↔
      ¬(ok = true ∧ OpenLeaks t flags opened created truncated) := by
  unfold sysOpen OpenLeaks
  cases ok with
  | false =>
      simp only [Bool.false_eq_true, not_false_eq_true, if_true, false_and, iff_true]
      rintro v r heq
      cases heq
      exact fun _ => NothingLeaked.refl w
  | true =>
      simp only [not_true_eq_false, if_false, truncReadonly_eq_false, Bool.false_eq_true,
        true_and]
      cases opened with
      | null => simp
      | err e =>
          dsimp only
          by_cases he : e = -enoent
          · by_cases hcreat : flags &&& oCreat ≠ 0
            · rw [if_pos he, if_pos hcreat]
              cases created with
              | err e' => simpa using clean_unchanged w e'
              | null => simp
              | file m isdir =>
                  simp only [Option.some.injEq]
                  rw [openInstall_clean_iff w p t m mode isdir]
                  exact not_congr ⟨fun hfull => ⟨he, hcreat, ⟨m, isdir, rfl⟩, hfull⟩,
                    fun hleak => hleak.2.2.2⟩
            · rw [if_pos he, if_neg hcreat]
              exact iff_of_true (clean_unchanged w (-enoent)) fun hleak => hcreat hleak.2.1
          · rw [if_neg he]
            exact iff_of_true (clean_unchanged w e) fun hleak => he hleak.1
      | file m isdir =>
          dsimp only
          by_cases htrunc : flags &&& oTrunc ≠ 0 ∧ truncated ≠ 0
          · rw [if_pos htrunc]
            exact iff_of_true (clean_closed w m isdir truncated) fun hleak => hleak.1 htrunc
          by_cases hdir : isdir = true ∧ (flags &&& oWronly ≠ 0 ∨ flags &&& oRdwr ≠ 0)
          · rw [if_neg htrunc, if_pos hdir]
            exact iff_of_false (not_clean_open w m isdir (by decide))
              (not_not_intro ⟨htrunc, .inl hdir⟩)
          by_cases hexcl : flags &&& oExcl ≠ 0 ∧ flags &&& oCreat ≠ 0
          · rw [if_neg htrunc, if_neg hdir, if_pos hexcl]
            refine iff_of_true (clean_closed w m isdir (-eexist)) ?_
            rintro ⟨-, hleak | hleak⟩
            · exact hdir hleak
            · exact hleak.1 hexcl
          · rw [if_neg htrunc, if_neg hdir, if_neg hexcl]
            simp only [Option.some.injEq]
            rw [openInstall_clean_iff w p t m mode isdir]
            refine not_congr ⟨fun hfull => ⟨htrunc, .inr ⟨hexcl, hfull⟩⟩, ?_⟩
            rintro ⟨-, hleak | hleak⟩
            · exact absurd hleak hdir
            · exact hleak.2

/-! ## `sys_socket` -/

/-- What `socket_new` does to the world: an error, no memory, or one socket more. -/
theorem socketNew_cases (w : FdWorld) (mem : Bool) (dom type proto : Int) :
    (¬(mem = true → SocketArgs dom type proto) ∧
      ∃ e, socketNew w mem dom type proto = .error e) ∨
    (mem = true → SocketArgs dom type proto) ∧
      (socketNew w mem dom type proto = .ok (none, w) ∨
        ∃ sock, socketNew w mem dom type proto = .ok (some w.nextSock,
          { w with sockets := Function.update w.sockets w.nextSock (some sock)
                   nextSock := w.nextSock + 1 })) := by
  unfold socketNew socketInetCreate socketUdpCreate socketTcpCreate socketCreate SocketArgs
  cases mem with
  | false => exact .inr ⟨fun h => (Bool.false_ne_true h).elim, .inl rfl⟩
  | true =>
      by_cases hdom : dom = afInet
      · by_cases hproto : proto = 0
        · by_cases hdgram : type = sockDgram
          · exact .inr ⟨fun _ => ⟨hdom, .inl hdgram, hproto⟩,
              .inr ⟨⟨afInet, sockDgram, 0⟩, by simp [hdom, hproto, hdgram, Except.map]⟩⟩
          · by_cases hstream : type = sockStream
            · exact .inr ⟨fun _ => ⟨hdom, .inr hstream, hproto⟩,
                .inr ⟨⟨afInet, sockStream, 0⟩, by
                  subst hstream
                  simp [hdom, hproto, sockStream, sockDgram, Except.map]⟩⟩
            · exact .inl ⟨by simp [hdgram, hstream],
                -einval, by simp [hdom, hdgram, hstream, Except.map]⟩
        · exact .inl ⟨by simp [hproto], -einval, by
            by_cases hdgram : type = sockDgram <;> simp [hdom, hproto, hdgram, Except.map]⟩
      · exact .inl ⟨by simp [hdom], -eafnosupport, by simp [hdom]⟩

/-- A socket made and destroyed again is no leak. -/
theorem nothingLeaked_destroyed (w : FdWorld) (sock : Option NewSocket) :
    NothingLeaked w (socketDestroy
      { w with sockets := Function.update w.sockets w.nextSock sock
               nextSock := w.nextSock + 1 } w.nextSock) where
  tables := rfl
  files _ _ := rfl
  sockets k hk := by simp [socketDestroy, ne_of_lt hk]
  newFiles _ hle hlt := absurd hlt (not_lt.mpr hle)
  newSockets k hle hlt := by
    have hk : k = w.nextSock := le_antisymm (Nat.lt_succ_iff.mp hlt) hle
    simp [socketDestroy, hk]

/-- Around whatever `socket_new` gave, `file_from_socket` makes a file, and it
stays open when there is no slot for it. -/
theorem install_clean_iff {w w₁ : FdWorld} (hvfs : w₁.vfs = w.vfs) (p : Nat) (t : FdTask)
    (junk : BitVec 32) (sock : Option Nat) :
    (∀ w' r, (match firstFree t 0 with
      | some i => some ({ w₁ with
          vfs := setSlot (allocFile w₁.vfs junk false) p i (some w₁.vfs.nextFile)
          priv := Function.update w₁.priv w₁.vfs.nextFile sock }, (i.val : Int))
      | none => some ({ w₁ with
          vfs := allocFile w₁.vfs junk false
          priv := Function.update w₁.priv w₁.vfs.nextFile sock }, -emfile)) = some (w', r) →
      CleanOutcome w w' r) ↔ ¬TableFull t := by
  rw [← firstFree_eq_none]
  cases hfree : firstFree t 0 with
  | none =>
      simp only [not_true_eq_false, iff_false]
      intro h
      refine not_nothingLeaked_of_open ?_ ?_ (h _ _ rfl (by decide))
      · show w.vfs.nextFile < (allocFile w₁.vfs junk false).nextFile
        rw [hvfs]
        exact Nat.lt_succ_self _
      · simp [allocFile, hvfs]
  | some i =>
      simp only [reduceCtorEq, not_false_eq_true, iff_true]
      rintro w' r heq
      cases heq
      exact fun hneg => absurd hneg (by simp)

theorem sysSocket_clean_iff (w : FdWorld) (p : Nat) (t : FdTask) (sockMem filpMem : Bool)
    (junk : BitVec 32) (dom type proto : Int) :
    (∀ w' r, sysSocket w p t sockMem filpMem junk dom type proto = some (w', r) →
      CleanOutcome w w' r) ↔
      ¬(filpMem = true ∧ (sockMem = true → SocketArgs dom type proto) ∧ TableFull t) := by
  unfold sysSocket fileFromSocket
  rcases socketNew_cases w sockMem dom type proto with
    ⟨hargs, e, hnew⟩ | ⟨hargs, hnew | ⟨sock, hnew⟩⟩
  · rw [hnew]
    refine iff_of_true ?_ fun hleak => hargs hleak.2.1
    rintro w' r heq
    cases heq
    exact fun _ => NothingLeaked.refl w
  · rw [hnew]
    cases filpMem with
    | false => simp
    | true =>
        exact (install_clean_iff (rfl : w.vfs = w.vfs) p t junk none).trans
          (not_congr ⟨fun hfull => ⟨rfl, hargs, hfull⟩, fun hleak => hleak.2.2⟩)
  · rw [hnew]
    cases filpMem with
    | false =>
        refine iff_of_true ?_ fun hleak => Bool.false_ne_true hleak.1
        rintro w' r heq
        cases heq
        exact fun _ => nothingLeaked_destroyed w (some sock)
    | true =>
        have hvfs : { w with
          sockets := Function.update w.sockets w.nextSock (some sock)
          nextSock := w.nextSock + 1 }.vfs = w.vfs := rfl
        refine Iff.trans (install_clean_iff hvfs p t junk (some w.nextSock)) (not_congr ?_)
        exact ⟨fun hfull => ⟨rfl, hargs, hfull⟩, fun hleak => hleak.2.2⟩

/-! ## `sys_execve` -/

/-- The loop of `load_elf` fails with `-EINVAL` alone. -/
theorem loadSegments_rc {ok : Nat → Bool} {content : List UInt8} {phs : List ProgramHeader}
    {k : Nat} {st st' : ElfState} {rc : Int}
    (h : loadSegments ok content k st phs = some (rc, st')) : rc ≤ 0 := by
  induction phs generalizing k st with
  | nil =>
      rw [loadSegments] at h
      cases h
      exact le_rfl
  | cons ph phs ih =>
      rw [loadSegments] at h
      split at h
      · cases hmade : vmAreaCreateInsert (ok k) (segmentVma content ph) st.areas with
        | none =>
            rw [hmade] at h
            cases h
        | some made =>
            rw [hmade] at h
            cases made with
            | none =>
                cases h
                decide
            | some areas => exact ih h
      · exact ih h

/-- `load_elf` answers 0 or an error. -/
theorem loadElf_rc {ok : Nat → Bool} {junk : Nat → Page} {content : List UInt8}
    {areas areas' : List VmArea} {rc : Int}
    (h : loadElf ok junk content areas = some (rc, areas')) : rc ≤ 0 := by
  unfold loadElf at h
  dsimp only at h
  split at h
  · cases h
    decide
  · split at h
    · cases h
      decide
    · split at h
      · cases h
        decide
      · split at h
        · cases h
        · rename_i rc' st hsegs
          split at h
          · cases h
            exact loadSegments_rc hsegs
          · split at h <;> cases h <;> exact le_rfl

theorem copyArrayFromUser_ne_efault (bufMem arrMem : Bool) :
    copyArrayFromUser bufMem arrMem ≠ .error (-efault) := by
  cases bufMem <;> cases arrMem <;> simp [copyArrayFromUser, enomem, efault]

theorem freeCopiedArray_some {x : Bool × Bool} :
    freeCopiedArray (copyArrayFromUser x.1 x.2) = some () ↔ x = (true, true) := by
  rcases x with ⟨_ | _, _ | _⟩ <;> simp [copyArrayFromUser, freeCopiedArray, Except.toOption]

theorem elfProbe_neg {junk : Page} {content : List UInt8} (h : elfProbe junk content ≠ 0) :
    elfProbe junk content < 0 := by
  unfold elfProbe at h ⊢
  dsimp only at h ⊢
  split_ifs at h ⊢
  · exact absurd rfl h
  · decide

theorem sysExecve_clean_iff (w : FdWorld) (p : Nat) (x : ExecInput) :
    (∀ w' r, sysExecve w p x = some (w', r) → CleanOutcome w w' r) ↔ ¬ExecLeaks x := by
  -- an exit before the file is opened
  have hbefore : ∀ e, ∀ w' r, some (w, e) = some (w', r) → CleanOutcome w w' r := by
    rintro e w' r heq
    cases heq
    exact fun _ => NothingLeaked.refl w
  unfold sysExecve
  by_cases hok : x.ok = true
  · by_cases hmem : x.pathMem = true
    · rw [if_neg (not_not_intro hok), if_neg (not_not_intro hmem)]
      cases hopened : x.opened with
      | err e =>
          refine iff_of_true (hbefore _) fun hleak => ?_
          obtain ⟨⟨-, -, m, isdir, hfile⟩, -⟩ := hleak
          rw [hopened] at hfile
          cases hfile
      | null =>
          refine iff_of_true (hbefore _) fun hleak => ?_
          obtain ⟨⟨-, -, m, isdir, hfile⟩, -⟩ := hleak
          rw [hopened] at hfile
          cases hfile
      | file m isdir =>
          dsimp only
          rw [if_neg (copyArrayFromUser_ne_efault _ _), if_neg (copyArrayFromUser_ne_efault _ _)]
          have hgo : x.ok = true ∧ x.pathMem = true ∧ ∃ m isdir, x.opened = .file m isdir :=
            ⟨hok, hmem, m, isdir, hopened⟩
          -- an error after it leaves it open
          have hopen : ∀ w', w'.vfs = allocFile w.vfs m isdir → ¬NothingLeaked w w' := by
            intro w' hvfs
            refine not_nothingLeaked_of_open ?_ ?_
            · rw [hvfs]
              exact Nat.lt_succ_self _
            · rw [hvfs]
              simp [allocFile]
          by_cases hprobe : elfProbe x.probeJunk x.content = 0
          · rw [if_neg (not_not_intro hprobe)]
            cases hload : loadElf x.loadMem x.loadJunk x.content (freshAreas x.stackMem) with
            | none =>
                refine iff_of_true (fun w' r heq => by cases heq) fun hleak => ?_
                rcases hleak.2 with hbad | ⟨-, rc, areas, hsome, -⟩
                · exact hbad hprobe
                · rw [hload] at hsome
                  cases hsome
            | some y =>
                obtain ⟨rc, areas⟩ := y
                dsimp only [Option.bind_some]
                by_cases hrc : rc = 0
                · rw [if_neg (not_not_intro hrc)]
                  refine iff_of_true ?_ fun hleak => ?_
                  · intro w' r heq hneg
                    obtain ⟨v, -, hv⟩ := Option.map_eq_some_iff.mp heq
                    cases hv
                    exact absurd hneg (lt_irrefl 0)
                  · rcases hleak.2 with hbad | ⟨-, rc', areas', hsome, hne⟩
                    · exact hbad hprobe
                    · rw [hload] at hsome
                      cases hsome
                      exact hne hrc
                · rw [if_pos hrc]
                  by_cases hfree : x.argv = (true, true) ∧ x.envp = (true, true)
                  · refine iff_of_false ?_
                      (not_not_intro ⟨hgo, .inr ⟨hfree, rc, areas, hload, hrc⟩⟩)
                    rw [freeCopiedArray_some.mpr hfree.1, freeCopiedArray_some.mpr hfree.2]
                    intro h
                    exact hopen _ rfl (h _ _ rfl (lt_of_le_of_ne (loadElf_rc hload) hrc))
                  · refine iff_of_true ?_ fun hleak => ?_
                    · intro w' r heq
                      obtain ⟨_, henvp, hrest⟩ := Option.bind_eq_some_iff.mp heq
                      obtain ⟨_, hargv, -⟩ := Option.map_eq_some_iff.mp hrest
                      exact absurd
                        ⟨freeCopiedArray_some.mp hargv, freeCopiedArray_some.mp henvp⟩ hfree
                    · rcases hleak.2 with hbad | ⟨hboth, -⟩
                      · exact hbad hprobe
                      · exact hfree hboth
          · rw [if_pos hprobe]
            refine iff_of_false ?_ (not_not_intro ⟨hgo, .inl hprobe⟩)
            intro h
            exact hopen _ rfl (h _ _ rfl (elfProbe_neg hprobe))
    · rw [if_neg (not_not_intro hok), if_pos hmem]
      exact iff_of_true (hbefore _) fun hleak => hmem hleak.1.2.1
  · rw [if_pos hok]
    exact iff_of_true (hbefore _) fun hleak => hok hleak.1.1

/-! ## All three -/

/-- **Errors leave no trace, except here.** In every state and for all
arguments, a call that fails leaves the tables, counts and sockets as they were
and nothing open, if and only if it is none of these: the opening of a
directory for writing; an open, or a socket, for which there is no slot; the
execution of a file that is no ELF file or cannot be loaded. -/
theorem fd_errors_clean (w : FdWorld) (p : Nat) (c : FdCall) :
    ErrorClean w p c ↔ ∀ t ∈ w.vfs.tasks p, ¬Leaks t c := by
  unfold ErrorClean
  cases htask : w.vfs.tasks p with
  | none =>
      refine iff_of_true ?_ fun t ht => nomatch ht
      intro w' r heq
      cases c <;> simp [fdCall, htask] at heq
  | some t =>
      simp only [Option.mem_some_iff, forall_eq']
      cases c with
      | «open» ok flags mode opened created truncated =>
          refine Iff.trans ?_ (sysOpen_clean_iff w p t ok flags mode opened created truncated)
          simp only [fdCall, htask, Option.bind_some, Option.map_eq_some_iff, Prod.exists]
          constructor
          · intro h v r heq
            exact h _ _ ⟨v, r, heq, rfl⟩
          · rintro h w' r ⟨v, r', heq, hv⟩
            cases hv
            exact h _ _ heq
      | socket sockMem filpMem junk dom type proto =>
          refine Iff.trans ?_ (sysSocket_clean_iff w p t sockMem filpMem junk dom type proto)
          simp only [fdCall, htask, Option.bind_some]
          exact Iff.rfl
      | execve x =>
          refine Iff.trans ?_ (sysExecve_clean_iff w p x)
          simp only [fdCall, htask, Option.bind_some]
          exact Iff.rfl

/-- The machine at boot. -/
def bootWorld : FdWorld :=
  { vfs := bootVfs 0, sockets := fun _ => none, nextSock := 0, priv := fun _ => none
    vmas := fun _ => [] }

/-- A directory opened with `O_WRONLY` fails with `-EISDIR` and stays open. -/
theorem fd_errors_directory :
    ¬ErrorClean bootWorld 1 (.open true oWronly 0 (.file 0 true) .null 0) := by
  intro h
  have hcall : ∃ w', fdCall bootWorld 1 (.open true oWronly 0 (.file 0 true) .null 0) =
      some (w', -eisdir) ∧ w'.vfs = allocFile (bootVfs 0) 0 true := ⟨_, rfl, rfl⟩
  obtain ⟨w', heq, hvfs⟩ := hcall
  refine not_nothingLeaked_of_open ?_ ?_ (h w' _ heq (by decide))
  · rw [hvfs]
    decide
  · rw [hvfs]
    decide

end Levos.Kernel
